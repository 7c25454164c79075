import Etar.Unfinished

/-!
# Every call of a writer returns

A body and a sink may be slow and may fail, and a body may never end: as long as each is late
only so many times, a call of the writer that is polled often enough is over. A body is read
no further than its declared size asks for, and an error of the sink ends the call.
-/
namespace AsyncIo

section Lively

variable {ε R : Type} [AsyncRead ε R]

/-- Readers that are late at most so often; how much they hand out, and whether they ever end,
is left open. -/
structure Lively (ε : Type) {R : Type} [AsyncRead ε R] (Ω : R → Nat → Prop) : Prop where
  pending : ∀ {r m b}, Ω r m → 0 < b.remaining → (pollRead r b).outcome = .pending →
    ∃ m', m' < m ∧ Ω (pollRead r b).reader m'
  chunk : ∀ {r m b}, Ω r m → 0 < b.remaining → (pollRead r b).outcome = .ready (.ok ()) →
    ∃ m', m' ≤ m ∧ Ω (pollRead r b).reader m'

/-- A read of a lively reader is over after enough polls. -/
theorem Lively.read_returns {Ω : R → Nat → Prop} (hΩ : Lively ε Ω) {n : Nat} (hn : 0 < n) {r : R} {m : Nat}
    (hr : Ω r m) : ∃ N, (read n N r).1 ≠ .cancelled := by
  induction m using Nat.strong_induction_on generalizing r with
  | _ m ih =>
    have hroom : 0 < (ReadBuf.new n).remaining := hn
    cases ho : (pollRead r (.new n)).outcome with
    | pending =>
      obtain ⟨m', hlt, hr'⟩ := hΩ.pending hr hroom ho
      obtain ⟨N, hN⟩ := ih m' hlt hr'
      refine ⟨N + 1, ?_⟩
      rw [read]
      simp only [ho]
      exact hN
    | ready res =>
      refine ⟨1, ?_⟩
      rw [read]
      cases res <;> simp [ho]

end Lively

section Shutdown

variable {ε W : Type} [AsyncWrite ε W]

/-- A shutdown of a sink that is not late for ever is over after enough polls. -/
theorem shutdown_returns {D : Drain ε W} (P : D.Fair) {w : W} {s : List UInt8} (h : D.Holds w s) :
    ∃ N, (shutdown N w).1 ≠ .cancelled := by
  induction hd : P.delay w using Nat.strong_induction_on generalizing w with
  | _ d ih =>
    have hdid := Did.shutdown w
    have hlate := P.late hdid h
    have hholds := D.took hdid h
    rw [Call.accepted_shutdown, List.append_nil] at hholds
    cases ho : (pollShutdown w).1 with
    | pending =>
      obtain ⟨N, hN⟩ := ih _ (hd ▸ hlate ho) hholds rfl
      refine ⟨N + 1, ?_⟩
      rw [shutdown]
      generalize pollShutdown w = p at ho hN
      rcases p with ⟨o, w'⟩
      obtain rfl : o = .pending := ho
      exact hN
    | ready res =>
      refine ⟨1, ?_⟩
      rw [shutdown]
      generalize pollShutdown w = p at ho
      rcases p with ⟨o, w'⟩
      obtain rfl : o = .ready res := ho
      simp

end Shutdown

end AsyncIo

namespace Etar

open AsyncIo

section Bodies

variable {R : Type} [AsyncRead IoError R]

/-- Until one of them fails, polls of a reader in `Ω r m` cost at most `m`, where a byte costs
two. -/
structure Spends (Ω : R → Nat → Prop) : Prop where
  pending : ∀ {r m b}, Ω r m → 0 < b.remaining → (pollRead r b).outcome = .pending →
    ∃ m', m' < m ∧ Ω (pollRead r b).reader m'
  chunk : ∀ {r m b}, Ω r m → 0 < b.remaining → (pollRead r b).outcome = .ready (.ok ()) →
    ∃ m', 2 * (b.added (pollRead r b).buf).length + m' ≤ m ∧ Ω (pollRead r b).reader m'

theorem spends_empty : Spends fun (_ : Empty) _ => True := by
  constructor
  · intro r m b _ _ ho
    cases ho
  · intro r m b _ _ _
    refine ⟨m, ?_, trivial⟩
    show 2 * (b.added b).length + m ≤ m
    simp

/-- The declared size bounds what is read of a body, even of one without an end. -/
theorem spends_exact {Ω : R → Nat → Prop} (hΩ : Lively IoError Ω) :
    Spends fun (e : Exact R) m => ∃ k, Ω e.inner k ∧ m = k + 2 * e.remaining := by
  constructor
  · rintro e m b ⟨k, hk, rfl⟩ hb ho
    have hp := Exact.polls e b
    generalize pollRead e b = p at hp ho
    cases hp with
    | spent h0 => cases ho
    | fits h0 hin hpos hle => cases ho
    | flagged b' hin hbad => cases ho
    | other h0 hin =>
      obtain ⟨k', hlt, hk'⟩ := hΩ.pending hk hb ho
      exact ⟨k' + 2 * e.remaining, by omega, k', hk', rfl⟩
  · rintro e m b ⟨k, hk, rfl⟩ hb ho
    have hp := Exact.polls e b
    generalize pollRead e b = p at hp ho
    cases hp with
    | spent h0 => exact ⟨k + 2 * e.remaining, by simp, k, hk, rfl⟩
    | fits h0 hin hpos hle =>
      obtain ⟨k', hless, hk'⟩ := hΩ.chunk hk hb hin
      refine ⟨_, ?_, k', hk', rfl⟩
      simp only
      omega
    | flagged b' hin hbad => cases ho
    | other h0 hin => exact absurd ho hin

end Bodies

section Calls

variable {B : Builder} {C : Coding} {R W : Type} [AsyncRead IoError R] [AsyncWrite IoError W]

/-- A call of the builder that has failed returns its error without another poll. -/
def Builder.Packs.Returns (pk : B.Packs C) : Prop :=
  ∀ {s e}, pk.phase s = .failed e → B.want s = .done (.error e)

variable (pk : B.Packs C) {Ω : R → Nat → Prop} {D : Drain IoError W} (Q : D.Fair)

/-- What a poll makes of a call that is not over: it ends in an error, or is nearer to its end. -/
def Nearer (Ω : R → Nat → Prop) (m : Nat) (p : At B R W) : Prop :=
  (∃ e, pk.phase (B.turn p).state = .failed e) ∨
    ∃ m' s, Ω (B.turn p).body m' ∧ D.Holds (B.turn p).sink s ∧
      (pk.work Q m' (B.turn p) < pk.work Q m p ∨
        pk.work Q m' (B.turn p) ≤ pk.work Q m p ∧ pk.flushes (B.turn p).state < pk.flushes p.state)

variable {p : At B R W} {m : Nat} {s : List UInt8}

theorem nearer_read (hΩ : Spends Ω) (hbody : Ω p.body m) (hsink : D.Holds p.sink s) {n : Nat}
    (hw : B.want p.state = .read n) : Nearer pk Q Ω m p := by
  have hwants := pk.wants p.state
  rw [hw] at hwants
  have hroom : 0 < (ReadBuf.new n).remaining := by
    generalize pk.phase p.state = φ at hwants
    cases hwants with
    | read hn => exact hn
  cases ho : (pollRead p.body (.new n)).outcome with
  | pending =>
    obtain ⟨m', hlt, hbody'⟩ := hΩ.pending hbody hroom ho
    refine Or.inr ⟨m', s, ?_⟩
    simp only [Builder.Packs.work, Builder.turn, hw, ho]
    exact ⟨hbody', hsink, Or.inl (by omega)⟩
  | ready res =>
    cases res with
    | error e =>
      refine Or.inl ⟨e, ?_⟩
      simp only [Builder.turn, hw, ho]
      exact pk.fed_fault hw e
    | ok =>
      obtain ⟨m', hle, hbody'⟩ := hΩ.chunk hbody hroom ho
      rw [ReadBuf.added_new] at hle
      have hless : ((pk.phase p.state).get (pollRead p.body (.new n)).buf.filled).toDo 0 <
          (pk.phase p.state).toDo ((pollRead p.body (.new n)).buf.filled.length + 0) := Packing.toDo_get hwants
      have hdo : (pk.phase p.state).toDo ((pollRead p.body (.new n)).buf.filled.length + 0) =
          2 * (pollRead p.body (.new n)).buf.filled.length + (pk.phase p.state).toDo 0 := by
        generalize pk.phase p.state = φ at hwants
        cases hwants with
        | read hn =>
          simp only [Packing.toDo]
          omega
      refine Or.inr ⟨m', s, ?_⟩
      simp only [Builder.Packs.work, Builder.turn, hw, ho, pk.fed_bytes hw]
      exact ⟨hbody', hsink, Or.inl (by omega)⟩

theorem nearer_write (hbody : Ω p.body m) (hsink : D.Holds p.sink s) {bytes : List UInt8}
    (hw : B.want p.state = .write bytes) : Nearer pk Q Ω m p := by
  have hwants := pk.wants p.state
  rw [hw] at hwants
  have hdid := Did.write p.sink bytes
  have hkept := Q.kept hdid hsink
  obtain ⟨s', hsink'⟩ : ∃ s', D.Holds (pollWrite p.sink bytes).2 s' := ⟨_, D.took hdid hsink⟩
  cases ho : (pollWrite p.sink bytes).1 with
  | pending =>
    have hlate := Q.late hdid hsink ho
    refine Or.inr ⟨m, s', ?_⟩
    simp only [Builder.Packs.work, Builder.turn, hw, ho]
    exact ⟨hbody, hsink', Or.inl (by omega)⟩
  | ready res =>
    cases res with
    | error e =>
      refine Or.inl ⟨e, ?_⟩
      simp only [Builder.turn, hw, ho]
      exact pk.wrote_fault hw e
    | ok n =>
      rcases Nat.eq_zero_or_pos n with rfl | hpos
      · obtain ⟨e, he⟩ := pk.wrote_none hw
        refine Or.inl ⟨e, ?_⟩
        simp only [Builder.turn, hw, ho]
        exact he
      · have hle := AsyncWrite.accepts p.sink bytes n ho
        have hless : ((pk.phase p.state).put n).toDo 0 < _ := Packing.toDo_put hwants hpos
        refine Or.inr ⟨m, s', ?_⟩
        simp only [Builder.Packs.work, Builder.turn, hw, ho, pk.wrote_bytes hw n hpos hle]
        exact ⟨hbody, hsink', Or.inl (by omega)⟩

theorem nearer_flush (hbody : Ω p.body m) (hsink : D.Holds p.sink s) (hw : B.want p.state = .flush) :
    Nearer pk Q Ω m p := by
  have hdid := Did.flush p.sink
  have hkept := Q.kept hdid hsink
  obtain ⟨s', hsink'⟩ : ∃ s', D.Holds (pollFlush p.sink).2 s' := ⟨_, D.took hdid hsink⟩
  cases ho : (pollFlush p.sink).1 with
  | pending =>
    have hlate := Q.late hdid hsink ho
    refine Or.inr ⟨m, s', ?_⟩
    simp only [Builder.Packs.work, Builder.turn, hw, ho]
    exact ⟨hbody, hsink', Or.inl (by omega)⟩
  | ready res =>
    cases res with
    | error e =>
      refine Or.inl ⟨e, ?_⟩
      simp only [Builder.turn, hw, ho]
      exact pk.flushed_fault hw e
    | ok =>
      refine Or.inr ⟨m, s', ?_⟩
      simp only [Builder.Packs.work, Builder.turn, hw, ho, pk.flushed_ok hw]
      exact ⟨hbody, hsink', Or.inr ⟨by omega, pk.flushed_less hw⟩⟩

theorem turn_nearer (hΩ : Spends Ω) (hbody : Ω p.body m) (hsink : D.Holds p.sink s)
    (hw : ∀ res, B.want p.state ≠ .done res) : Nearer pk Q Ω m p := by
  cases hwant : B.want p.state with
  | done res => exact absurd hwant (hw res)
  | read n => exact nearer_read pk Q hΩ hbody hsink hwant
  | write bytes => exact nearer_write pk Q hbody hsink hwant
  | flush => exact nearer_flush pk Q hbody hsink hwant

include pk Q in
/-- A call that is given enough polls is over, and unless it failed nothing has failed on its way. -/
theorem drive_returns (hret : pk.Returns) (hΩ : Spends Ω) {p : At B R W} {m : Nat} {s : List UInt8}
    (hbody : Ω p.body m) (hsink : D.Holds p.sink s) :
    ∃ N res q, (∀ polls, B.drive (N + polls) p = ⟨.done res, q, polls⟩) ∧
      (res = .ok () → (∃ m, Ω q.body m) ∧ ∃ s, D.Holds q.sink s) := by
  cases hw : B.want p.state with
  | done res =>
    refine ⟨0, res, p, fun polls => ?_, fun _ => ⟨⟨m, hbody⟩, s, hsink⟩⟩
    rw [B.drive_done hw, Nat.zero_add]
  | _ =>
    have hnot : ∀ res, B.want p.state ≠ .done res := by simp [hw]
    rcases turn_nearer pk Q hΩ hbody hsink hnot with ⟨e, he⟩ | ⟨m', s', hbody', hsink', hless⟩
    · refine ⟨1, .error e, B.turn p, fun polls => ?_, fun hok => by cases hok⟩
      rw [Nat.add_comm, B.drive_succ hnot, B.drive_done (hret he)]
    · obtain ⟨N, res, q, hq, hend⟩ := drive_returns hret hΩ hbody' hsink'
      refine ⟨N + 1, res, q, fun polls => ?_, hend⟩
      rw [Nat.add_right_comm, B.drive_succ hnot]
      exact hq polls
termination_by (pk.work Q m p, pk.flushes p.state)
decreasing_by
  all_goals
    rcases hless with hless | ⟨hle, hless⟩
    · exact Prod.Lex.left _ _ hless
    · rcases Nat.lt_or_eq_of_le hle with hlt | heq
      · exact Prod.Lex.left _ _ hlt
      · rw [heq]
        exact Prod.Lex.right _ hless

include pk Q in
theorem appendFile_returns (hret : pk.Returns) (hΩ : Lively IoError Ω) {state : B.State} {sink : W} {s : List UInt8}
    (hsink : D.Holds sink s) (header : Header) (path : SafePath) (size : UInt64) {body : R} {m : Nat}
    (hbody : Ω body m) : ∃ N, (appendFile N state sink header path size (some body)).result ≠ .cancelled := by
  obtain ⟨N, res, q, hq, hend⟩ := drive_returns pk Q hret (spends_exact hΩ)
    (p := ⟨B.appendData state { header with entryType := .regular, size := size } path.bytes, Exact.new body size.toNat, sink⟩)
    ⟨m, hbody, rfl⟩ hsink
  cases res with
  | error e =>
    refine ⟨N + 0, ?_⟩
    simp only [appendFile, hq]
    split <;> simp
  | ok =>
    -- The member is written; one more read looks for a byte past the declared size.
    obtain ⟨⟨-, k, hk, -⟩, -⟩ := hend rfl
    obtain ⟨M, hM⟩ := hΩ.read_returns Nat.one_pos hk
    refine ⟨N + M, ?_⟩
    simp only [appendFile, hq]
    split
    · simp
    · cases hres : (read 1 M q.body.inner).1 with
      | cancelled => exact absurd hres hM
      | done res => cases res <;> simp

include pk Q in
theorem pack_returns (hret : pk.Returns) (hΩ : Lively IoError Ω) {state : B.State} {sink : W} {s : List UInt8}
    (hsink : D.Holds sink s) (entry : WriteEntry R) (hbody : ∀ b ∈ entry.inner.body, ∃ m, Ω b m) :
    ∃ N, (pack N state sink entry.inner).result ≠ .cancelled := by
  rcases entry.checked with ⟨hk, hb⟩ | ⟨hk, h0, hb⟩
  · obtain ⟨b, hb⟩ := Option.isSome_iff_exists.mp hb
    obtain ⟨m, hm⟩ := hbody b hb
    simp only [pack_file hk hb]
    exact appendFile_returns pk Q hret hΩ hsink _ _ _ hm
  · simp only [pack_meta hk h0 hb]
    cases entry.inner.header B with
    | error e => exact ⟨0, by simp⟩
    | ok header =>
      obtain ⟨N, res, q, hq, -⟩ := drive_returns pk Q hret spends_empty
        (p := ⟨B.appendData state header entry.inner.path.bytes, Empty.mk, sink⟩) (m := 0) trivial hsink
      refine ⟨N + 0, ?_⟩
      simp only [hq]
      simp

include pk Q in
theorem close_returns (hret : pk.Returns) {builder : B.State} {sink : W} {s : List UInt8} (hsink : D.Holds sink s) :
    ∃ N, (Writer.close N builder sink).1 ≠ .cancelled := by
  obtain ⟨N, res, q, hq, hend⟩ := drive_returns pk Q hret spends_empty
    (p := ⟨B.intoInner builder, Empty.mk, sink⟩) (m := 0) trivial hsink
  cases res with
  | error e =>
    refine ⟨N + 0, ?_⟩
    simp only [Writer.close, hq]
    simp
  | ok =>
    obtain ⟨-, s', hsink'⟩ := hend rfl
    obtain ⟨M, hM⟩ := shutdown_returns Q hsink'
    refine ⟨N + M, ?_⟩
    simp only [Writer.close, hq]
    generalize AsyncIo.shutdown M q.sink = p at hM
    rcases p with ⟨o, w⟩
    cases o with
    | cancelled => exact absurd rfl hM
    | done res => simp

end Calls

section Writers

variable {B : Builder} {E : Encoder} {C : Coding} {Frame : List UInt8 → List UInt8 → Prop}
variable {W : Type} [AsyncWrite IoError W] (pk : B.Packs C) (enc : E.Encodes Frame) {D : Drain IoError W}
variable (Q : D.Fair) (hret : pk.Returns) {ω : Writer B E W} {s : List UInt8}

include pk enc Q hret in
theorem append_returns {R : Type} [AsyncRead IoError R] {Ω : R → Nat → Prop} (hΩ : Lively IoError Ω)
    (h : ω.failed = false → ∃ s, ω.inner.Holds pk enc D s) (entry : WriteEntry R)
    (hbody : ∀ b ∈ entry.inner.body, ∃ m, Ω b m) : ∃ N, (ω.append N entry).1 ≠ .cancelled := by
  cases hf : ω.failed with
  | true => exact ⟨0, by simp [append_failed hf]⟩
  | false =>
    obtain ⟨s, hholds⟩ := h hf
    rcases ω with ⟨inner, failed⟩
    obtain rfl : failed = false := hf
    cases inner with
    | tar builder sink => exact pack_returns pk (Counted.fair Q) hret hΩ hholds.2 entry hbody
    | tarZstd builder sink =>
      exact pack_returns pk (ZstdEncoder.fair enc (Counted.fair Q)) hret hΩ hholds.2 entry hbody

include pk enc Q hret in
theorem finish_returns (h : ω.failed = false → ∃ s, ω.inner.Holds pk enc D s) :
    ∃ N, (ω.finish N).1 ≠ .cancelled := by
  cases hf : ω.failed with
  | true => exact ⟨0, by simp [Writer.finish, hf]⟩
  | false =>
    obtain ⟨s, hholds⟩ := h hf
    rcases ω with ⟨inner, failed⟩
    obtain rfl : failed = false := hf
    cases inner with
    | tar builder sink =>
      obtain ⟨N, hN⟩ : ∃ N, (Writer.close N builder sink).1 ≠ .cancelled :=
        close_returns pk (Counted.fair Q) hret hholds.2
      refine ⟨N, ?_⟩
      simp only [Writer.finish]
      generalize Writer.close N builder sink = p at hN
      rcases p with ⟨o, builder', sink'⟩
      rcases o with ⟨e | -⟩ | -
      · simp
      · simp
      · exact absurd rfl hN
    | tarZstd builder sink =>
      obtain ⟨N, hN⟩ : ∃ N, (Writer.close N builder sink).1 ≠ .cancelled :=
        close_returns pk (ZstdEncoder.fair enc (Counted.fair Q)) hret hholds.2
      refine ⟨N, ?_⟩
      simp only [Writer.finish]
      generalize Writer.close N builder sink = p at hN
      rcases p with ⟨o, builder', sink'⟩
      rcases o with ⟨e | -⟩ | -
      · simp
      · simp
      · exact absurd rfl hN

/-- A call that returns, and is not changed by more polls, returns the same from then on. -/
theorem returns_for_good {α β : Type} {f : Nat → Await α × β}
    (hmore : ∀ k polls, (f polls).1 ≠ .cancelled → f (polls + k) = f polls) {N : Nat} (hN : (f N).1 ≠ .cancelled) :
    ∃ N res b, ∀ polls, N ≤ polls → f polls = (.done res, b) := by
  cases hres : (f N).1 with
  | cancelled => exact absurd hres hN
  | done res =>
    refine ⟨N, res, (f N).2, fun polls hle => ?_⟩
    obtain ⟨k, rfl⟩ := Nat.exists_eq_add_of_le hle
    rw [hmore k N hN, ← hres]

include pk enc Q hret in
/-- No call of a writer hangs. Whatever appends were tried on it, each with any body and dropped at
any poll, and whether or not the sink fails: the next append of a body that is late only so often
returns when it is polled often enough, be the body failing, too short, too long or endless; and so
does `finish`. -/
theorem writer_calls_return {sink : W} (hsink : D.Holds sink []) {format : Format}
    {evs : List (Await (Except Error Unit))} {ω : Writer B E W} (hrun : Writer.Run (.new sink format) evs ω) :
    (∀ {R : Type} [AsyncRead IoError R] {Ω : R → Nat → Prop}, Lively IoError Ω → ∀ entry : WriteEntry R,
      (∀ b ∈ entry.inner.body, ∃ m, Ω b m) →
      ∃ N res ω', ∀ polls, N ≤ polls → ω.append polls entry = (.done res, ω')) ∧
    ∃ N res inner, ∀ polls, N ≤ polls → ω.finish polls = (.done res, inner) := by
  have hstand := standing_of_run pk enc hsink hrun
  have hlive : ω.failed = false → ∃ s, ω.inner.Holds pk enc D s := by
    intro hf
    obtain ⟨ms, -, hholds⟩ := hstand.holds hf
    exact ⟨_, hholds⟩
  constructor
  · intro R _ Ω hΩ entry hbody
    obtain ⟨N, hN⟩ := append_returns pk enc Q hret hΩ hlive entry hbody
    exact returns_for_good (fun k polls h => append_more k h) hN
  · obtain ⟨N, hN⟩ := finish_returns pk enc Q hret hlive
    exact returns_for_good (fun k polls h => finish_more k h) hN

end Writers

section Samples

/-- An endless body: every poll fills the buffer with zeros. -/
structure Zeros where

instance : AsyncRead IoError Zeros where
  pollRead z buf := ⟨.ready (.ok ()), buf.putSlice (List.replicate buf.remaining 0) (by simp), z⟩
  grows _ buf := ⟨rfl, List.prefix_append _ _⟩

theorem lively_zeros : Lively IoError fun (_ : Zeros) _ => True := by
  constructor
  · intro r m b _ _ ho
    cases ho
  · intro r m b _ _ _
    exact ⟨m, Nat.le_refl m, trivial⟩

theorem gnu_returns : Gnu.packs.Returns := by
  rintro ⟨φ, hφ⟩ e h
  obtain rfl : φ = .failed e := h
  rfl

/-- A file of two bytes with an endless body. -/
def endlessFile : WriteEntry Zeros :=
  ⟨⟨sampleFile.path, ⟨420, 1000, 1000, 1700000000, .file⟩, 2, some ⟨⟩⟩, Or.inl ⟨rfl, rfl⟩⟩

/-- Its append is over, and was refused. -/
theorem writer_calls_return_sample : ∃ N ω', ∀ polls, N ≤ polls →
    plainWriter.append polls endlessFile = (.done (.error .bodyLengthMismatch), ω') := by
  obtain ⟨happends, -⟩ := writer_calls_return Gnu.packs RawZstd.encodes Memory.fair gnu_returns
    (Memory.holds_empty 511) (.start plainWriter)
  obtain ⟨N, res, ω', hN⟩ := happends lively_zeros endlessFile fun _ _ => ⟨0, trivial⟩
  have hnine : (plainWriter.append 9 endlessFile).1 = .done (.error .bodyLengthMismatch) := by decide +kernel
  have hmore : plainWriter.append (9 + N) endlessFile = plainWriter.append 9 endlessFile :=
    append_more N (by simp [hnine])
  rw [hN (9 + N) (Nat.le_add_left N 9)] at hmore
  rw [← hmore] at hnine
  obtain rfl : res = .error .bodyLengthMismatch := Await.done.inj hnine
  exact ⟨N, ω', hN⟩

end Samples

end Etar
