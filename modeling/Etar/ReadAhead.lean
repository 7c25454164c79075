import Etar.Ledger

/-!
# How far a reader reads ahead

Over an uncompressed source the bytes pulled are the bytes decoded and those in hand: what sniffing
peeked and what the buffer holds, which is a buffer's worth at most. An account of a reader knows
exactly what was taken of it.
-/
namespace AsyncIo

/-- `Took n s` says of a reader that exactly `n` bytes were taken of it. A poll without an answer, or
with an error, takes none. -/
structure Account (ε S : Type) [AsyncRead ε S] where
  Took : Nat → S → Prop
  poll : ∀ {n s b}, Took n s → 0 < b.remaining → Took (n + (b.added (pollRead s b).buf).length) (pollRead s b).reader
  idle : ∀ {n s b}, Took n s → 0 < b.remaining → (pollRead s b).outcome ≠ .ready (.ok ()) →
    b.added (pollRead s b).buf = []

namespace Account

variable {ε S : Type} [AsyncRead ε S] (A : Account ε S)

theorem handed {start s : S} {bytes : List UInt8} (h : Handed start bytes s) {n : Nat} (hstart : A.Took n start) :
    A.Took (n + bytes.length) s := by
  induction h with
  | start => exact hstart
  | idle h b hb ho ih =>
    have hpoll := A.poll ih hb
    rwa [A.idle ih hb ho] at hpoll
  | chunk h b hb ho ih =>
    have hpoll := A.poll ih hb
    rwa [Nat.add_assoc, ← List.length_append] at hpoll

theorem chain {n : Nat} {c : Chain S} (h : A.Took (n + c.held.length) c.second) {b : ReadBuf} (hb : 0 < b.remaining) :
    A.Took (n + (b.added (pollRead c b).buf).length + (pollRead c b).reader.held.length) (pollRead c b).reader.second ∧
    ((pollRead c b).outcome ≠ .ready (.ok ()) → b.added (pollRead c b).buf = []) ∧
    (c.held = [] → (pollRead c b).reader.held = []) ∧
    (c.held ≠ [] → (b.added (pollRead c b).buf).length + (pollRead c b).reader.held.length = c.held.length) := by
  rcases Chain.poll_cases c hb with ⟨bytes, hfits, c', hne, hheld, hsecond, hp⟩ | ⟨hnil, c', hheld, hsecond, hp⟩
  · rw [hp]
    rw [hheld, List.length_append] at h
    refine ⟨?_, fun ho => absurd rfl ho, fun hnil => ?_, fun _ => ?_⟩
    · rw [ReadBuf.added_putSlice, hsecond, Nat.add_assoc]
      exact h
    · rw [hheld] at hnil
      exact absurd (List.append_eq_nil_iff.mp hnil).1 hne
    · rw [ReadBuf.added_putSlice, hheld, List.length_append]
  · rw [hp]
    rw [hnil] at h
    refine ⟨?_, A.idle h hb, fun _ => hheld, fun hne => absurd hnil hne⟩
    rw [hheld, hsecond]
    exact A.poll h hb

variable {capacity : Nat}

/-- A buffered chain of which `n` bytes were taken, with no more in hand than its buffer has room for. -/
structure Ahead (n : Nat) (b : BufReader capacity (Chain S)) : Prop where
  took : A.Took (n + b.buffer.length + b.inner.held.length) b.inner.second
  small : b.buffer.length + b.inner.held.length ≤ capacity

variable {A}

theorem Ahead.serve {n : Nat} {b : BufReader capacity (Chain S)} (h : A.Ahead n b) (buf : ReadBuf) :
    A.Ahead (n + (buf.added (BufReader.serve b buf : Polled ε _).buf).length)
      (BufReader.serve b buf : Polled ε _).reader := by
  obtain ⟨htook, hsmall⟩ := h
  have hsplit := congrArg List.length (List.take_append_drop buf.remaining b.buffer)
  rw [List.length_append] at hsplit
  constructor
  · have heq : n + b.buffer.length = n + (b.buffer.take buf.remaining).length + (b.buffer.drop buf.remaining).length := by
      omega
    rw [heq] at htook
    rw [BufReader.serve, ReadBuf.added_putSlice]
    exact htook
  · rw [BufReader.serve]
    dsimp only
    omega

theorem Ahead.poll (hcap : 0 < capacity) {n : Nat} {b : BufReader capacity (Chain S)} (h : A.Ahead n b) (buf : ReadBuf) :
    A.Ahead (n + (buf.added (pollRead b buf).buf).length) (pollRead b buf).reader := by
  show A.Ahead (n + (buf.added (b.poll buf).buf).length) (b.poll buf).reader
  unfold BufReader.poll
  by_cases hnil : b.buffer = []
  · obtain ⟨htook, hsmall⟩ := h
    rw [hnil] at htook hsmall
    simp only [List.length_nil, Nat.add_zero, Nat.zero_add] at htook hsmall
    rw [if_pos hnil]
    by_cases hlarge : capacity ≤ buf.remaining
    · rw [if_pos hlarge]
      obtain ⟨hpoll, -, hempty, hsplit⟩ := A.chain htook (hcap.trans_le hlarge)
      refine ⟨?_, ?_⟩
      · simpa only [hnil, List.length_nil, Nat.add_zero] using hpoll
      · dsimp only
        by_cases hheld : b.inner.held = []
        · rw [hnil, hempty hheld]
          exact Nat.zero_le _
        · have := hsplit hheld
          rw [hnil, List.length_nil]
          omega
    · rw [if_neg hlarge]
      have hroom : 0 < (ReadBuf.new capacity).remaining := by rwa [ReadBuf.new_remaining]
      obtain ⟨hpoll, hidle, hempty, hsplit⟩ := A.chain htook hroom
      rw [ReadBuf.added_new] at hpoll hidle hsplit
      have hlen : (pollRead b.inner (.new capacity)).buf.filled.length ≤ capacity := length_pollRead_new _ _
      have hin : (pollRead b.inner (.new capacity)).buf.filled.length +
          (pollRead b.inner (.new capacity)).reader.held.length ≤ capacity := by
        by_cases hheld : b.inner.held = []
        · rw [hempty hheld]
          exact hlen
        · rw [hsplit hheld]
          exact hsmall
      dsimp only
      split
      · exact Ahead.serve ⟨hpoll, hin⟩ buf
      · rename_i ho
        rw [hidle ho] at hpoll hin
        simp only [List.length_nil, Nat.add_zero, Nat.zero_add] at hpoll hin
        refine ⟨?_, ?_⟩
        · simpa only [hnil, ReadBuf.added_self, List.length_nil, Nat.add_zero] using hpoll
        · simpa only [hnil, List.length_nil, Nat.zero_add] using hin
  · rw [if_neg hnil]
    exact h.serve buf

end Account

end AsyncIo

namespace Etar

open AsyncIo Limit Compress Guard

section Metering

variable {R : Type} [AsyncRead IoError R] (source : R)

/-- However the source was polled, a poll that is not answered with bytes takes none. -/
def Prompt : Prop :=
  ∀ bytes r, Run pollRead Cap.anyPoll source bytes r → ∀ b : ReadBuf, (pollRead r b).outcome ≠ .ready (.ok ()) →
    b.added (pollRead r b).buf = []

variable {source}

/-- A meter counts what it pulls. -/
def Limit.Meter.account (hfew : Cap.Few source) (hprompt : Prompt source) : Account IoError (Meter R) where
  Took n m := ∃ pulled, Run pollRead Cap.anyPoll source pulled m.inner ∧ m.count = n ∧ pulled.length = n
  poll {n m b} h hb := by
    obtain ⟨pulled, hrun, hcount, hlen⟩ := h
    have hrun' := hrun.poll b trivial
    have hlt := hfew _ _ hrun'
    rw [List.length_append] at hlt
    refine ⟨_, hrun', ?_, by rw [List.length_append, hlen]; rfl⟩
    show (if 0 < (b.added (pollRead m.inner b).buf).length then
      wrappingAdd m.count (b.added (pollRead m.inner b).buf).length else m.count) = _
    by_cases hread : 0 < (b.added (pollRead m.inner b).buf).length
    · rw [if_pos hread, hcount, ← hlen]
      exact wrappingAdd_of_lt hlt
    · rw [if_neg hread, hcount]
      have hzero := Nat.eq_zero_of_not_pos hread
      exact (congrArg (n + ·) hzero).symm
  idle {n m b} h hb ho := by
    obtain ⟨pulled, hrun, -, -⟩ := h
    refine hprompt _ _ hrun b fun hinner => ho ?_
    rw [Meter.outcome_poll, hinner]

theorem length_peek {S : Type} [AsyncRead IoError S] (polls : Nat) {seen magic : List UInt8} {r r' : S}
    (hseen : seen.length ≤ peekLen) (hp : peek polls seen r = (.done (.ok magic), r')) : magic.length ≤ peekLen := by
  induction polls generalizing seen r with
  | zero =>
    unfold peek at hp
    split_ifs at hp
    · cases hp
    · cases hp
      exact hseen
  | succ polls ih =>
    unfold peek at hp
    split_ifs at hp with hlt
    · dsimp only at hp
      have hlen := length_pollRead_new r (peekLen - seen.length)
      cases ho : (pollRead r (.new (peekLen - seen.length))).outcome with
      | pending =>
        rw [ho] at hp
        exact ih hseen hp
      | ready res =>
        rw [ho] at hp
        cases res with
        | error e => cases hp
        | ok =>
          dsimp only at hp
          split_ifs at hp with hnil
          · cases hp
            exact hseen
          · refine ih ?_ hp
            rw [List.length_append]
            omega
    · cases hp
      exact hseen

variable {dec : Decoder (Replay R)} (hfew : Cap.Few source) (hprompt : Prompt source)

/-- A source without the magic is replayed with what was peeked in hand. -/
theorem ahead_decoded (hraw : ∀ bytes r, Handed source bytes r → ¬ zstdMagic <+: bytes) {polls : Nat} {d : Decoded dec}
    (h : decoded dec polls (.new source) = .done (.ok d)) :
    ∃ b, d = .plain b ∧ (Meter.account hfew hprompt).Ahead 0 b := by
  unfold decoded at h
  cases hp : peek polls [] (Meter.new source) with
  | mk res m =>
    rw [hp] at h
    cases res with
    | cancelled => cases h
    | done res =>
      cases res with
      | error e => cases h
      | ok magic =>
        have hhanded := peek_handed polls (.start _) hp
        have hnot := hraw magic m.inner (handed_of_metered hhanded)
        have htook := (Meter.account hfew hprompt).handed hhanded (n := 0) ⟨[], .start source, rfl, rfl⟩
        cases h
        refine ⟨.new bufCap (.new magic m), if_neg hnot, htook, ?_⟩
        have hlen := length_peek polls (Nat.zero_le _) hp
        have hcap : peekLen ≤ bufCap := by decide
        show 0 + magic.length ≤ bufCap
        omega

/-- A cap over an uncompressed source that released `bytes`: it charged them, and all that was taken
of the source was charged or is in hand. -/
structure Square (bytes : List UInt8) (c : Cap (Decoded.count : Decoded dec → Nat)) : Prop where
  paid : bytes.length ≤ c.total
  ahead : ∃ b, c.inner = .plain b ∧ (Meter.account hfew hprompt).Ahead c.total b

variable {hfew hprompt}

theorem Square.poll {bytes : List UInt8} {c : Cap (Decoded.count : Decoded dec → Nat)} (h : Square hfew hprompt bytes c)
    (buf : ReadBuf) : Square hfew hprompt (bytes ++ buf.added (c.poll buf).buf) (c.poll buf).reader := by
  by_cases hf : c.failed = true
  · rw [Cap.poll_failed hf, ReadBuf.added_self, List.append_nil]
    exact h
  have hf := eq_false_of_ne_true hf
  obtain ⟨hpaid, b, hb, hahead⟩ := h
  have hpoll := hahead.poll bufCap_pos buf
  have hinner : pollRead c.inner buf = ⟨(pollRead b buf).outcome, (pollRead b buf).buf, .plain (pollRead b buf).reader⟩ := by
    rw [hb]
    rfl
  obtain ⟨pulled, hrun, -, hlen⟩ := hpoll.took
  have hlt := hfew _ _ hrun
  have hsum : c.total + (buf.added (pollRead c.inner buf).buf).length < 2 ^ 64 := by
    rw [hinner]
    dsimp only
    omega
  rcases Cap.poll_cases hf buf hsum with ⟨which, -, -, hp⟩ | ⟨-, hp⟩
  · rw [hp, hinner, ReadBuf.added_self, List.append_nil]
    exact ⟨Nat.le_add_right_of_le hpaid, _, rfl, hpoll⟩
  · rw [hp, hinner]
    refine ⟨?_, _, rfl, hpoll⟩
    rw [List.length_append]
    exact Nat.add_le_add_right hpaid _

end Metering

section Sessions

variable {T : Tar} {H : HeaderFields} {R : Type} [AsyncRead IoError R] {dec : Decoder (Replay R)} {source : R}

/-- Over a source without the zstd magic a reader never pulls more than one buffer ahead of what it
has decoded, in whatever state its caller left it. What it reports as encoded is what it pulled. -/
theorem reads_ahead_one_buffer (hraw : ∀ bytes r, Handed source bytes r → ¬ zstdMagic <+: bytes)
    (hfew : Cap.Few source) (hprompt : Prompt source) {limits : SecurityLimits} {polls : Nat} {r : Opened T H dec}
    (hr : Reader.open T dec polls source limits = .done (.ok r)) {room : ReadBuf → Prop} {evs : List Event}
    {σ : Session T (Source H (Decoded.count : Decoded dec → Nat))} (hrun : Session.Run H room ⟨r, none⟩ evs σ) :
    (bodiesRead evs).length ≤ σ.reader.decodedBytes ∧ σ.reader.decodedBytes ≤ σ.reader.encodedBytes ∧
      σ.reader.encodedBytes ≤ σ.reader.decodedBytes + bufCap ∧
      ∃ pulled source', Run pollRead Cap.anyPoll source pulled source' ∧ σ.reader.encodedBytes = pulled.length := by
  obtain ⟨d, hd, hstart⟩ := open_ok hr
  obtain ⟨parser, rfl⟩ := Reader.start_ok hstart
  obtain ⟨-, bytes, hcap, hle⟩ := gave_run _ (gave_stack d) hrun
  have hsquare : Square hfew hprompt bytes σ.reader.source.inner :=
    hcap.invariant ⟨Nat.le_refl 0, ahead_decoded hfew hprompt hraw hd⟩ fun _ _ buf h _ => h.poll buf
  obtain ⟨hpaid, b, hb, ⟨pulled, hpulled, hcount, hlen⟩, hsmall⟩ := hsquare
  have hencoded : σ.reader.encodedBytes = pulled.length := by
    show Decoded.count σ.reader.source.inner.inner = _
    rw [hb, hlen]
    exact hcount
  have hdecoded : σ.reader.decodedBytes = σ.reader.source.inner.total := rfl
  refine ⟨by omega, by omega, by omega, pulled, b.inner.second.inner, hpulled, hencoded⟩

theorem prompt_script (s : Script IoError) : Prompt s := by
  intro bytes r _ b ho
  change (r.poll b).outcome ≠ _ at ho
  show b.added (r.poll b).buf = []
  unfold Script.poll at ho ⊢
  cases hr : r.beats with
  | nil =>
    rw [hr] at ho
    exact absurd rfl ho
  | cons beat beats =>
    cases beat with
    | late => exact ReadBuf.added_self b
    | fail e => exact ReadBuf.added_self b
    | give n =>
      rw [hr] at ho
      exact absurd rfl ho

theorem Gnu.raw_plain (beats : List (Beat IoError)) (bytes : List UInt8) (r : Script IoError)
    (h : Handed ⟨plain, beats⟩ bytes r) : ¬ zstdMagic <+: bytes := by
  rintro ⟨rest, rfl⟩
  obtain ⟨s', hs, -⟩ := Script.feed.handed h (show Script.feed.Owes _ plain none from ⟨rfl, rfl⟩)
  have hhead : some (100 : UInt8) = some 40 := congrArg List.head? hs
  cases hhead

/-- Of an archive of which one header was decoded, all is in hand. -/
theorem reads_ahead_one_buffer_sample :
    ∃ (r : Opened Gnu.tar gnuFields (RawZstd.decoder (Replay (Script IoError)))) (evs : List Event)
      (σ : Session Gnu.tar _),
      Reader.open Gnu.tar _ 9 ⟨Gnu.plain, [.give 4, .late]⟩ .default = .done (.ok r) ∧
        Session.Run gnuFields (fun _ => True) ⟨r, none⟩ evs σ ∧ σ.reader.decodedBytes = 512 ∧ σ.reader.encodedBytes = 1536 ∧
        σ.reader.encodedBytes ≤ σ.reader.decodedBytes + bufCap := by
  have hcounts : (Gnu.replayed .default ⟨Gnu.plain, [.give 4, .late]⟩ [.next 20]).map
      (fun p => (p.2.reader.decodedBytes, p.2.reader.encodedBytes)) = some (512, 1536) := by
    decide +kernel
  obtain ⟨⟨evs, σ⟩, hreplayed, hcounts⟩ := Option.map_eq_some_iff.mp hcounts
  obtain ⟨r, hr, hrun⟩ := Gnu.run_replayed hreplayed
  obtain ⟨hdecoded, hencoded⟩ := Prod.mk.inj hcounts
  have hlen : Gnu.plain.length < 2 ^ 64 := by decide +kernel
  obtain ⟨-, -, hahead, -⟩ := reads_ahead_one_buffer (Gnu.raw_plain _) (few_script hlen) (prompt_script _) hr hrun
  exact ⟨r, evs, σ, hr, hrun, hdecoded, hencoded, hahead⟩

end Sessions

end Etar
