import Etar.GuardState
import Etar.Looser
import Etar.Ratio
import Etar.Sizes

/-!
# Nothing gets out uncharged

Every byte that a session hands out of an entry's body came through the cap, whatever the parser
makes of the stream: what was read of all bodies is bounded as the cap's releases are. A ledger
bounds what a source gave away from below by what was taken from it.
-/
namespace AsyncIo

/-- `Gave n s` says of a source that it gave away `n` bytes at least. -/
structure Ledger (ε S : Type) [AsyncRead ε S] where
  Gave : Nat → S → Prop
  poll : ∀ {n s} b, Gave n s → Gave (n + (b.added (pollRead s b).buf).length) (pollRead s b).reader
  weaken : ∀ {n m s}, Gave n s → m ≤ n → Gave m s

namespace Ledger

variable {ε S : Type} [AsyncRead ε S] (L : Ledger ε S)

variable {L}

/-- Polls that throw away what they get. -/
theorem kept {n : Nat} {s : S} (h : L.Gave n s) (b : ReadBuf) : L.Gave n (pollRead s b).reader :=
  L.weaken (L.poll b h) (Nat.le_add_right _ _)

/-- The runs of a reader, as a ledger of it. -/
def runs (start : S) : Ledger ε S where
  Gave n s := ∃ bytes, Run pollRead (fun _ _ => True) start bytes s ∧ n ≤ bytes.length
  poll {n s} b h := by
    obtain ⟨bytes, hrun, hle⟩ := h
    refine ⟨_, hrun.poll b trivial, ?_⟩
    rw [List.length_append]
    omega
  weaken h hle := by
    obtain ⟨bytes, hrun, hn⟩ := h
    exact ⟨bytes, hrun, Nat.le_trans hle hn⟩

end Ledger

end AsyncIo

namespace Etar

open AsyncIo Limit Guard

namespace Guard.HeaderGuard

variable {H : HeaderFields} {R : Type} [AsyncRead IoError R]

/-- The header bytes of the guard are in order. -/
structure Tidy (g : HeaderGuard H R) : Prop where
  filled_le : g.filled ≤ 512
  emitted_lt : g.emitted < 512
  full : 0 < g.emitted → g.filled = 512

/-- The ledger of a guard: the bytes it still holds came from the inner reader too. -/
def Gave (L : Ledger IoError R) (n : Nat) (g : HeaderGuard H R) : Prop :=
  g.Tidy ∧ L.Gave (n + (g.filled - g.emitted)) g.inner

variable {L : Ledger IoError R}

omit [AsyncRead IoError R] in
theorem inspect_kept (g : HeaderGuard H R) :
    g.inspect.2.filled = g.filled ∧ g.inspect.2.emitted = g.emitted := by
  unfold inspect
  dsimp only
  repeat' split
  all_goals exact ⟨rfl, rfl⟩

/-- Only what the header bytes and the inner reader are is on the ledger. -/
theorem Gave.moved {n : Nat} {g g' : HeaderGuard H R} (h : Gave L n g) (hinner : g'.inner = g.inner)
    (hfilled : g'.filled = g.filled) (hemitted : g'.emitted = g.emitted) : Gave L n g' := by
  obtain ⟨⟨hle, hlt, hfull⟩, hgave⟩ := h
  refine ⟨⟨by rwa [hfilled], by rwa [hemitted], by rwa [hfilled, hemitted]⟩, ?_⟩
  rwa [hinner, hfilled, hemitted]

theorem Gave.emit {n : Nat} {g : HeaderGuard H R} (h : Gave L n g) (hf : g.filled = 512) (out : ReadBuf) :
    Gave L (n + (out.added (g.emit out).buf).length) (g.emit out).reader := by
  obtain ⟨⟨-, hlt, -⟩, hgave⟩ := h
  rw [hf] at hgave
  have hcount : ((g.header.bytes.drop g.emitted).take (min out.remaining (512 - g.emitted))).length =
      min out.remaining (512 - g.emitted) := by
    rw [List.length_take, List.length_drop, Block.length_bytes]
    omega
  unfold HeaderGuard.emit
  dsimp only
  split_ifs with hlast
  · rw [ReadBuf.added_putSlice, hcount]
    refine Gave.moved (H := H) (g := { g with filled := 0, emitted := 0, dataRemaining := _, nextData := 0, trailer := _ })
      ⟨⟨Nat.zero_le _, Nat.zero_lt_succ _, fun h => absurd h (Nat.lt_irrefl 0)⟩, ?_⟩ (settle_inner _)
      (settle_kept _).1 (settle_kept _).2
    exact L.weaken hgave (by dsimp only; omega)
  · rw [ReadBuf.added_putSlice, hcount]
    refine ⟨⟨hf.le, by dsimp only; omega, fun _ => hf⟩, L.weaken hgave ?_⟩
    dsimp only
    omega

/-- What filling took is held. -/
theorem gave_fill (fuel : Nat) {n : Nat} {g : HeaderGuard H R} (h : Gave L n g) (he : g.emitted = 0) :
    Gave L n (g.fill fuel).2 := by
  induction fuel generalizing g with
  | zero => exact h
  | succ fuel ih =>
    obtain ⟨⟨hle, hlt, hfull⟩, hgave⟩ := h
    rw [fill]
    by_cases hf : g.filled < 512
    · rw [dif_pos hf]
      have hkept : Gave (H := H) L n { g with inner := (pollRead g.inner (.new (512 - g.filled))).reader } :=
        ⟨⟨hle, hlt, hfull⟩, L.kept hgave _⟩
      have hpoll := L.poll (.new (512 - g.filled)) hgave
      rw [ReadBuf.added_new] at hpoll
      dsimp only
      cases (pollRead g.inner (.new (512 - g.filled))).outcome with
      | pending => exact hkept
      | ready res =>
        cases res with
        | error e => exact hkept
        | ok =>
          have hlen : (pollRead g.inner (.new (512 - g.filled))).buf.filled.length ≤ 512 - g.filled :=
            length_pollRead_new _ _
          dsimp only
          by_cases hnil : (pollRead g.inner (.new (512 - g.filled))).buf.filled = []
          · rw [if_pos hnil]
            exact hkept
          · rw [if_neg hnil]
            refine ih ⟨⟨by dsimp only; omega, hlt, fun h => absurd (he ▸ h) (Nat.lt_irrefl 0)⟩,
              L.weaken hpoll (by dsimp only; omega)⟩ he
    · rw [dif_neg hf]
      exact ⟨⟨hle, hlt, hfull⟩, hgave⟩

theorem Gave.readData {n : Nat} {g : HeaderGuard H R} (h : Gave L n g) (out : ReadBuf) :
    Gave L (n + (out.added (g.readData out).buf).length) (g.readData out).reader := by
  have hgave := h.2
  have hkept : ∀ s, L.Gave (n + (g.filled - g.emitted)) s → Gave (H := H) L n { g with inner := s } :=
    fun s hs => ⟨⟨h.1.filled_le, h.1.emitted_lt, h.1.full⟩, hs⟩
  cases ho : (pollRead g.inner (out.take (min g.dataRemaining usizeMax))).outcome with
  | pending =>
    simp only [HeaderGuard.readData, ho, ReadBuf.added_self]
    exact hkept _ (L.kept hgave _)
  | ready res =>
    cases res with
    | error e =>
      simp only [HeaderGuard.readData, ho, ReadBuf.added_self]
      exact hkept _ (L.kept hgave _)
    | ok =>
      rw [readData_ok ho]
      dsimp only
      rw [ReadBuf.added_advance]
      have hpoll := L.poll (out.take (min g.dataRemaining usizeMax)) hgave
      rw [ReadBuf.added_take] at hpoll
      refine Gave.moved (H := H) (g := { g with inner := (pollRead g.inner (out.take (min g.dataRemaining usizeMax))).reader })
        ⟨⟨h.1.filled_le, h.1.emitted_lt, h.1.full⟩, L.weaken hpoll ?_⟩ ?_ ?_ ?_
      · dsimp only
        omega
      · rw [settle_inner]
        exact capture_inner _ _
      · rw [(settle_kept _).1]
        exact (capture_kept _ _).1
      · rw [(settle_kept _).2]
        exact (capture_kept _ _).2

theorem Gave.poll {n : Nat} {g : HeaderGuard H R} (h : Gave L n g) (out : ReadBuf) :
    Gave L (n + (out.added (g.poll out).buf).length) (g.poll out).reader := by
  by_cases hroom : out.remaining = 0
  · rw [HeaderGuard.poll, if_pos hroom, ReadBuf.added_self]
    exact h
  by_cases htrailer : g.trailer = true
  · rw [poll_passing htrailer hroom]
    refine ⟨⟨h.1.filled_le, h.1.emitted_lt, h.1.full⟩, L.weaken (L.poll out h.2) ?_⟩
    dsimp only
    omega
  have htrailer := eq_false_of_ne_true htrailer
  by_cases hdata : g.dataRemaining = 0
  · rw [poll_collecting htrailer hdata hroom]
    have hfill : Gave L n (g.fill (512 - g.filled)).2 := by
      by_cases he : g.emitted = 0
      · exact gave_fill _ h he
      · rw [fill_full (h.1.full (Nat.pos_of_ne_zero he))]
        exact h
    obtain ⟨r, header, f, hleaves, -, hfull⟩ := fill_leaves (512 - g.filled) (Nat.le_refl _) h.1.filled_le
    generalize g.fill (512 - g.filled) = q at hfill hleaves hfull ⊢
    obtain ⟨res, g₁⟩ := q
    cases res with
    | pending => simpa using hfill
    | eof => simpa using hfill
    | failed e => simpa using hfill
    | full =>
      have hfilled : g₁.filled = 512 := by
        dsimp only at hleaves
        rw [hleaves]
        exact hfull.mp rfl
      dsimp only at hfill ⊢
      by_cases hstart : g₁.emitted = 0
      · rw [if_pos hstart]
        obtain ⟨hfilled₂, hemitted₂⟩ := inspect_kept g₁
        have hinspected := hfill.moved (inspect_inner g₁) hfilled₂ hemitted₂
        rw [hfilled] at hfilled₂
        generalize g₁.inspect = i at hinspected hfilled₂ ⊢
        obtain ⟨verdict, g₂⟩ := i
        cases verdict with
        | error e => simpa using hinspected
        | ok => exact hinspected.emit hfilled₂ out
      · rw [if_neg hstart]
        exact hfill.emit hfilled out
  · have hpos := Nat.pos_of_ne_zero hdata
    have hread : g.poll out = g.readData out := by
      rw [HeaderGuard.poll, if_neg hroom, if_neg (by simp [htrailer]), if_pos hpos]
    rw [hread]
    exact h.readData out

variable (H) in
/-- The ledger of a guard over one of its inner reader. -/
def ledger (L : Ledger IoError R) : Ledger IoError (HeaderGuard H R) where
  Gave := Gave L
  poll b h := h.poll b
  weaken h hle := ⟨h.1, L.weaken h.2 (Nat.add_le_add_right hle _)⟩

end Guard.HeaderGuard

section Sessions

variable {T : Tar} {S : Type} [AsyncRead IoError S] (L : Ledger IoError S)

theorem gave_pull (polls : Nat) {n : Nat} {parser : T.State} {source : S} (h : L.Gave n source) :
    L.Gave n (T.pull polls parser source).source := by
  induction polls generalizing parser source with
  | zero =>
    cases hask : T.ask parser with
    | item i =>
      rw [pull_item hask]
      exact h
    | read k =>
      rw [pull_read_zero hask]
      exact h
  | succ polls ih =>
    cases hask : T.ask parser with
    | item i =>
      rw [pull_item hask]
      exact h
    | read k =>
      rw [pull_read hask]
      have hkept := Ledger.kept h (.new k)
      cases (pollRead source (.new k)).outcome with
      | pending => exact ih hkept
      | ready res => cases res <;> exact ih hkept

/-- A body hands out no more than its source does. -/
theorem gave_body {n : Nat} {b : TarBody T S} (h : L.Gave n b.source) (buf : ReadBuf) :
    L.Gave (n + (buf.added (b.poll T buf).buf).length) (b.poll T buf).reader.source := by
  have hidle : n + (buf.added buf).length = n := by rw [ReadBuf.added_self, List.length_nil, Nat.add_zero]
  unfold TarBody.poll
  cases T.bodyAsk b.parser buf.remaining with
  | none =>
    dsimp only
    rw [hidle]
    exact h
  | some k =>
    have hpoll := L.poll (buf.take k) h
    rw [ReadBuf.added_take] at hpoll
    dsimp only
    cases (pollRead b.source (buf.take k)).outcome with
    | pending =>
      dsimp only
      rw [hidle]
      exact Ledger.kept h _
    | ready res =>
      cases res with
      | error e =>
        dsimp only
        rw [hidle]
        exact Ledger.kept h _
      | ok =>
        dsimp only
        rw [ReadBuf.added_advance]
        exact hpoll

theorem gave_bounded {n : Nat} {b : Bounded (TarBody T S)} (h : L.Gave n b.inner.source) (buf : ReadBuf) :
    L.Gave (n + (buf.added (b.poll buf).buf).length) (b.poll buf).reader.inner.source := by
  have hbody := gave_body L h buf
  by_cases hf : b.failed = true
  · rw [Bounded.poll_failed hf, ReadBuf.added_self]
    exact h
  · have hf := eq_false_of_ne_true hf
    by_cases hover : b.remaining < (b.pulled buf).length
    · rw [Bounded.poll_over hf hover, ReadBuf.added_self]
      exact L.weaken hbody (Nat.le_add_right _ _)
    · rw [Bounded.poll_under hf (Nat.not_lt.mp hover)]
      exact hbody

variable [Counters S]

theorem gave_drain (polls trailing : Nat) {n : Nat} {r : Reader T S} (h : L.Gave n r.source) :
    L.Gave n (r.drain polls trailing).2.source := by
  induction polls generalizing trailing r with
  | zero => exact h
  | succ polls ih =>
    have hkept := Ledger.kept h (.new 8192)
    unfold Reader.drain
    dsimp only
    cases (pollRead r.source (.new 8192)).outcome with
    | pending => exact ih trailing hkept
    | ready res =>
      cases res with
      | error e => exact hkept
      | ok =>
        dsimp only
        split_ifs
        · exact hkept
        · exact hkept
        · exact hkept
        · exact ih _ hkept

theorem gave_verifyEnd (polls : Nat) {n : Nat} {r : Reader T S} (h : L.Gave n r.source) :
    L.Gave n (r.verifyEnd polls).2.source := by
  unfold Reader.verifyEnd
  dsimp only
  cases r.archive with
  | none => exact h
  | some handle =>
    dsimp only
    split_ifs
    · exact gave_drain L polls 0 h
    · exact h

variable {H : HeaderFields}

/-- A call takes from the source, and hands none of it out. -/
theorem gave_next (polls : Nat) {n : Nat} {r : Reader T S} (h : L.Gave n r.source) :
    L.Gave n (r.nextEntry H polls).2.source := by
  by_cases hf : r.bodyFailed = true
  · rw [Reader.nextEntry, if_pos hf]
    exact h
  by_cases hd : r.done = true
  · rw [Reader.nextEntry, if_neg hf, if_pos hd]
    exact h
  cases he : r.entries with
  | none =>
    rw [Reader.nextEntry, if_neg hf, if_neg hd, he]
    exact h
  | some handle =>
    rw [Reader.nextEntry_live (eq_false_of_ne_true hf) (eq_false_of_ne_true hd) he]
    have hpulled : L.Gave n (r.pulled polls).source := gave_pull L polls h
    cases (T.pull polls r.parser r.source).result with
    | cancelled => exact hpulled
    | done item =>
      cases item with
      | none =>
        have hverified := gave_verifyEnd L (T.pull polls r.parser r.source).left hpulled
        dsimp only
        generalize (r.pulled polls).verifyEnd (T.pull polls r.parser r.source).left = v at hverified ⊢
        obtain ⟨res, r₁⟩ := v
        cases res with
        | cancelled => exact hverified
        | done res => cases res <;> exact hverified
      | some item =>
        cases item with
        | error e => exact hpulled
        | ok entry =>
          have haccept := congrArg Reader.source (Reader.accept_spec (H := H) (r.pulled polls) entry).1
          dsimp only at haccept ⊢
          generalize (r.pulled polls).accept H entry = a at haccept ⊢
          obtain ⟨res, r₁⟩ := a
          dsimp only at haccept
          rw [← haccept] at hpulled
          cases res <;> exact hpulled

/-- What was read of the bodies, of all of them. -/
def bodiesRead (evs : List Event) : List UInt8 :=
  evs.flatMap fun
    | .read _ bytes => bytes
    | _ => []

theorem bodiesRead_append (evs : List Event) (ev : Event) :
    bodiesRead (evs ++ [ev]) = bodiesRead evs ++ bodiesRead [ev] := List.flatMap_append

/-- The source of a session gave away what the session handed out of the bodies. -/
theorem gave_run {room : ReadBuf → Prop} {start σ : Session T S} {evs : List Event}
    (hstart : L.Gave 0 start.reader.source) (hrun : Session.Run H room start evs σ) :
    L.Gave (bodiesRead evs).length σ.reader.source := by
  refine hrun.invariant (P := fun evs σ => L.Gave (bodiesRead evs).length σ.reader.source) H room hstart ?_
  intro evs σ σ' ev h hs
  rw [bodiesRead_append, List.length_append]
  cases hs with
  | next r polls => exact gave_next L polls h
  | drop r e => exact h
  | read r e buf hb =>
    have hbody : L.Gave _ (r.body e).inner.source := h
    have hgave := gave_bounded L hbody buf
    have hread : bodiesRead [.read (r.pollBody e buf).1 (buf.added (r.pollBody e buf).2.1)] =
        buf.added ((r.body e).poll buf).buf := List.append_nil _
    rw [hread]
    have hsource : (r.pollBody e buf).2.2.2.source = ((r.body e).poll buf).reader.inner.source := by
      unfold Reader.pollBody
      dsimp only
      cases (pollRead (r.body e) buf).outcome with
      | pending => rfl
      | ready res => cases res <;> rfl
    dsimp only
    rw [hsource]
    exact hgave

end Sessions

section Bounds

variable {T : Tar} {H : HeaderFields} {D : Type} [AsyncRead IoError D] {count : D → Nat} {limits : SecurityLimits}

/-- The stack gave away what its cap released. -/
theorem gave_stack (d : D) :
    (HeaderGuard.ledger H (Ledger.runs (Cap.new d limits.maxTotalBytes.toNat limits.maxCompressionRatio.toNat :
      Cap count))).Gave 0 (stack d limits) :=
  ⟨⟨Nat.zero_le _, Nat.zero_lt_succ _, fun h => absurd h (Nat.lt_irrefl 0)⟩, [], .start _, Nat.zero_le _⟩

end Bounds

end Etar
