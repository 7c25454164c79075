import Etar.ReadAhead

/-!
# What a reader keeps

A reader keeps no more of an archive than its buffers have room for: the sniffed bytes, one buffer
in front of the decoder, one header and the body of one PAX record. That is so in whatever state its
caller left it, after errors and cancelled calls too.
-/
namespace AsyncIo

/-- Polls of a reader keep `P`, whatever they answer. -/
def Lasting {ε S : Type} [AsyncRead ε S] (P : S → Prop) : Prop := ∀ s b, P s → P (pollRead s b).reader

section Lasting

variable {ε S : Type} [AsyncRead ε S] {P : S → Prop}

theorem Lasting.asked (hP : Lasting P) {s s' : S} {o : Option ε} (h : Asked s o s') (hs : P s) : P s' := by
  induction h with
  | start => exact hs
  | more b h ho ih => exact hP _ b ih
  | fault b h ho ih => exact hP _ b ih

/-- What lasts, as a ledger without amounts. -/
def Lasting.ledger (hP : Lasting P) : Ledger ε S where
  Gave _ s := P s
  poll b h := hP _ b h
  weaken h _ := h

theorem lasting_chain (hP : Lasting P) (n : Nat) : Lasting fun c : Chain S => c.first.length ≤ n ∧ P c.second := by
  rintro c b ⟨hlen, hsecond⟩
  show (c.poll b).reader.first.length ≤ n ∧ P (c.poll b).reader.second
  unfold Chain.poll
  split
  · refine ⟨?_, hsecond⟩
    dsimp only
    rw [List.length_drop]
    omega
  · exact ⟨hlen, hP _ b hsecond⟩

theorem lasting_buffered (hP : Lasting P) (capacity : Nat) :
    Lasting fun r : BufReader capacity S => r.buffer.length ≤ capacity ∧ P r.inner := by
  have hserve : ∀ (r : BufReader capacity S) (b : ReadBuf), r.buffer.length ≤ capacity ∧ P r.inner →
      (BufReader.serve r b : Polled ε _).reader.buffer.length ≤ capacity ∧
        P (BufReader.serve r b : Polled ε _).reader.inner := by
    rintro r b ⟨hlen, hinner⟩
    refine ⟨?_, hinner⟩
    rw [BufReader.serve, List.length_drop]
    omega
  intro r b h
  show (r.poll b).reader.buffer.length ≤ capacity ∧ P (r.poll b).reader.inner
  unfold BufReader.poll
  by_cases hnil : r.buffer = []
  · rw [if_pos hnil]
    by_cases hlarge : capacity ≤ b.remaining
    · rw [if_pos hlarge]
      exact ⟨h.1, hP _ b h.2⟩
    · rw [if_neg hlarge]
      have hinner := hP _ (.new capacity) h.2
      dsimp only
      split
      · exact hserve _ b ⟨length_pollRead_new _ _, hinner⟩
      · exact ⟨h.1, hinner⟩
  · rw [if_neg hnil]
    exact hserve r b h

end Lasting

end AsyncIo

namespace Etar

open AsyncIo Limit Compress Guard

namespace Guard.HeaderGuard

variable {H : HeaderFields} {R : Type}

/-- The captured body of a PAX record and what is to be captured yet are within the limit. -/
structure PaxWithin (max : Nat) (g : HeaderGuard H R) : Prop where
  limit : g.maxMetadataBytes = max
  captured : ∀ body, g.paxBody = some body → body.length + g.paxRemaining ≤ max

variable {max : Nat}

theorem paxWithin_new (r : R) (max : Nat) : (new r max : HeaderGuard H R).PaxWithin max := by
  refine ⟨rfl, ?_⟩
  intro body hbody
  cases hbody

/-- Only what was captured and the limit are looked at. -/
theorem PaxWithin.moved {g g' : HeaderGuard H R} (h : g.PaxWithin max) (hlimit : g'.maxMetadataBytes = g.maxMetadataBytes)
    (hbody : g'.paxBody = g.paxBody) (hleft : g'.paxRemaining = g.paxRemaining) : g'.PaxWithin max := by
  obtain ⟨hmax, hcaptured⟩ := h
  exact ⟨hlimit.trans hmax, by rwa [hbody, hleft]⟩

/-- A new record is announced with a size within the limit. -/
theorem PaxWithin.inspect {g : HeaderGuard H R} (h : g.PaxWithin max) : g.inspect.2.PaxWithin max := by
  unfold HeaderGuard.inspect
  dsimp only
  by_cases hzero : g.header.isZero = true
  · rw [if_pos hzero]
    exact h.moved rfl rfl rfl
  rw [if_neg hzero]
  by_cases hkind : g.header.typeflag ∉ allowedFlags
  · rw [if_pos hkind]
    exact h
  rw [if_neg hkind]
  cases H.size g.header with
  | none => exact h
  | some raw =>
    dsimp only
    by_cases hlarge : isExtension g.header.typeflag = true ∧ g.maxMetadataBytes < raw.toNat
    · rw [if_pos hlarge]
      exact h
    rw [if_neg hlarge]
    have hplanned : PaxWithin (H := H) max { g with
        paxBody := if g.header.typeflag = 120 then some [] else g.paxBody
        paxRemaining := if g.header.typeflag = 120 then raw.toNat else g.paxRemaining
        paxSize := if isExtension g.header.typeflag = true then g.paxSize else none } := by
      refine ⟨h.limit, fun body hbody => ?_⟩
      dsimp only at hbody ⊢
      by_cases hpax : g.header.typeflag = 120
      · rw [if_pos hpax] at hbody ⊢
        cases hbody
        have hext : isExtension g.header.typeflag = true := by
          rw [hpax]
          decide
        have hle : raw.toNat ≤ g.maxMetadataBytes := Nat.not_lt.mp fun hlt => hlarge ⟨hext, hlt⟩
        rw [h.limit] at hle
        simpa using hle
      · rw [if_neg hpax] at hbody ⊢
        exact h.captured body hbody
    split
    · exact hplanned
    · exact hplanned.moved rfl rfl rfl

theorem PaxWithin.settle {g : HeaderGuard H R} (h : g.PaxWithin max) : g.settle.2.PaxWithin max := by
  have hdropped : ∀ size, PaxWithin (H := H) max { g with paxBody := none, paxSize := size } := by
    intro size
    refine ⟨h.limit, fun body hbody => ?_⟩
    cases hbody
  unfold HeaderGuard.settle
  by_cases hdata : g.dataRemaining = 0
  · rw [if_pos hdata]
    cases hbody : g.paxBody with
    | none => exact h
    | some body =>
      dsimp only
      cases Pax.parsePaxSize body with
      | error e => exact hdropped g.paxSize
      | ok size => exact hdropped size
  · rw [if_neg hdata]
    exact h

/-- What is captured is taken off what is to be captured. -/
theorem PaxWithin.capture {g : HeaderGuard H R} (h : g.PaxWithin max) (bytes : List UInt8) :
    (g.capture bytes).PaxWithin max := by
  unfold HeaderGuard.capture
  cases hbody : g.paxBody with
  | none => exact h
  | some body =>
    have hcaptured := h.captured body hbody
    refine ⟨h.limit, fun body' hbody' => ?_⟩
    cases hbody'
    simp only [List.length_append, List.length_take]
    omega

theorem PaxWithin.emit {g : HeaderGuard H R} (h : g.PaxWithin max) (out : ReadBuf) :
    (g.emit out).reader.PaxWithin max := by
  unfold HeaderGuard.emit
  dsimp only
  split_ifs
  · apply PaxWithin.settle
    exact h.moved rfl rfl rfl
  · exact h.moved rfl rfl rfl

variable [AsyncRead IoError R]

theorem PaxWithin.fill (fuel : Nat) {g : HeaderGuard H R} (h : g.PaxWithin max) : (g.fill fuel).2.PaxWithin max := by
  induction fuel generalizing g with
  | zero => exact h
  | succ fuel ih =>
    rw [HeaderGuard.fill]
    by_cases hfilled : g.filled < 512
    · rw [dif_pos hfilled]
      have hpolled : PaxWithin (H := H) max { g with inner := (pollRead g.inner (.new (512 - g.filled))).reader } :=
        h.moved rfl rfl rfl
      dsimp only
      cases (pollRead g.inner (.new (512 - g.filled))).outcome with
      | pending => exact hpolled
      | ready res =>
        cases res with
        | error e => exact hpolled
        | ok =>
          dsimp only
          split_ifs
          · exact hpolled
          · apply ih
            exact h.moved rfl rfl rfl
    · rw [dif_neg hfilled]
      exact h

theorem PaxWithin.readData {g : HeaderGuard H R} (h : g.PaxWithin max) (out : ReadBuf) :
    (g.readData out).reader.PaxWithin max := by
  have hpolled : ∀ r, PaxWithin (H := H) max { g with inner := r } := fun r => h.moved rfl rfl rfl
  cases ho : (pollRead g.inner (out.take (min g.dataRemaining usizeMax))).outcome with
  | pending =>
    simp only [HeaderGuard.readData, ho]
    exact hpolled _
  | ready res =>
    cases res with
    | error e =>
      simp only [HeaderGuard.readData, ho]
      exact hpolled _
    | ok =>
      rw [readData_ok ho]
      apply PaxWithin.settle
      exact ((hpolled _).capture _).moved rfl rfl rfl

/-- Whatever a poll answers, the captured body stays within the limit. -/
theorem lasting_paxWithin (max : Nat) : Lasting (PaxWithin max : HeaderGuard H R → Prop) := by
  intro g out h
  show (g.poll out).reader.PaxWithin max
  unfold HeaderGuard.poll
  by_cases hroom : out.remaining = 0
  · rw [if_pos hroom]
    exact h
  rw [if_neg hroom]
  by_cases htrailer : g.trailer = true
  · rw [if_pos htrailer]
    exact h.moved rfl rfl rfl
  rw [if_neg htrailer]
  by_cases hdata : 0 < g.dataRemaining
  · rw [if_pos hdata]
    exact h.readData out
  rw [if_neg hdata]
  have hfill := h.fill (512 - g.filled)
  generalize g.fill (512 - g.filled) = q at hfill
  obtain ⟨res, g₁⟩ := q
  cases res with
  | pending => exact hfill
  | eof => exact hfill
  | failed e => exact hfill
  | full =>
    have hinspected : (if g₁.emitted = 0 then g₁.inspect else (.ok (), g₁)).2.PaxWithin max := by
      split_ifs
      · exact PaxWithin.inspect hfill
      · exact hfill
    dsimp only
    generalize (if g₁.emitted = 0 then g₁.inspect else (.ok (), g₁)) = i at hinspected
    obtain ⟨verdict, g₂⟩ := i
    cases verdict with
    | error e => exact hinspected
    | ok => exact hinspected.emit out

end Guard.HeaderGuard

section Layers

variable {R : Type} [AsyncRead IoError R]

/-- The decoder reads its buffered source by polls, and touches it in no other way. -/
structure Decoder.Draws (dec : Decoder (Replay R)) : Prop where
  opens : ∀ b, dec.inner (dec.new b) = b
  draws : ∀ z buf, ∃ o, Asked (dec.inner z) o (dec.inner (pollRead z buf).reader)

theorem Decoder.HandsOn.draws {dec : Decoder (Replay R)} (h : dec.HandsOn) : dec.Draws := by
  refine ⟨h.opens, fun z buf => ?_⟩
  obtain ⟨o, hasked, -⟩ := h.asks z buf
  exact ⟨o, hasked⟩

/-- The replayed source holds a buffer's worth, and no more than was peeked. -/
def Small (b : Replay R) : Prop := b.buffer.length ≤ bufCap ∧ b.inner.first.length ≤ peekLen ∧ True

theorem lasting_small : Lasting (Small : Replay R → Prop) := by
  have hmeter : Lasting fun _ : Meter R => True := fun _ _ _ => trivial
  exact lasting_buffered (lasting_chain hmeter peekLen) bufCap

variable {dec : Decoder (Replay R)}

theorem lasting_decoded (hdec : dec.Draws) : Lasting fun d : Decoded dec => Small d.replay := by
  intro d buf h
  cases d with
  | plain b => exact lasting_small b buf h
  | zstd z =>
    obtain ⟨o, hasked⟩ := hdec.draws z buf
    exact lasting_small.asked hasked h

theorem small_decoded (hdec : dec.Draws) {polls : Nat} {source : R} {d : Decoded dec}
    (h : decoded dec polls (.new source) = .done (.ok d)) : Small d.replay := by
  unfold decoded at h
  cases hp : peek polls [] (Meter.new source) with
  | mk res m =>
    rw [hp] at h
    cases res with
    | cancelled => cases h
    | done res =>
      cases res with
      | error e => cases h
      | ok magic =>
        have hsmall : Small (BufReader.new bufCap (.new magic m) : Replay R) :=
          ⟨Nat.zero_le _, length_peek polls (Nat.zero_le _) hp, trivial⟩
        cases h
        unfold wrap
        split_ifs
        · show Small (dec.inner (dec.new _))
          rwa [hdec.opens]
        · exact hsmall

theorem lasting_cap {D : Type} [AsyncRead IoError D] {count : D → Nat} {P : D → Prop} (hP : Lasting P) :
    Lasting fun c : Cap count => P c.inner := by
  intro c buf h
  show P (c.poll buf).reader.inner
  unfold Cap.poll
  by_cases hf : c.failed = true
  · rw [if_pos hf]
    exact h
  · rw [if_neg hf]
    have hinner := hP c.inner buf h
    dsimp only
    repeat' split
    all_goals exact hinner

end Layers

section Sessions

variable {T : Tar} {H : HeaderFields} {R : Type} [AsyncRead IoError R] {dec : Decoder (Replay R)}

/-- What a reader's layers hold of the stream: sniffed and buffered bytes, those of the header, and
the captured body of a PAX record. -/
def Reader.held (r : Opened T H dec) : Nat :=
  r.source.inner.inner.replay.inner.first.length + r.source.inner.inner.replay.buffer.length + r.source.filled +
    (r.source.paxBody.getD []).length

/-- A stack starts with empty buffers over those of its source. -/
theorem small_stack (hdec : dec.Draws) {d : Decoded dec} (h : Small d.replay) (limits : SecurityLimits) :
    (HeaderGuard.ledger H (lasting_cap (lasting_decoded hdec)).ledger).Gave 0
      (stack d limits : Source H (Decoded.count : Decoded dec → Nat)) :=
  ⟨⟨Nat.zero_le _, Nat.zero_lt_succ _, fun h => absurd h (Nat.lt_irrefl 0)⟩, h⟩

theorem paxWithin_stack (d : Decoded dec) (limits : SecurityLimits) :
    (HeaderGuard.lasting_paxWithin limits.maxMetadataBytes.toNat).ledger.Gave 0
      (stack d limits : Source H (Decoded.count : Decoded dec → Nat)) :=
  HeaderGuard.paxWithin_new _ _

/-- However large the archive is, whatever its bytes are and however they come, and whatever a
caller does: what a reader keeps of it is bounded by its limits alone. -/
theorem buffers_are_bounded (hdec : dec.Draws) {source : R} {limits : SecurityLimits} {polls : Nat} {r : Opened T H dec}
    (hr : Reader.open T dec polls source limits = .done (.ok r)) {room : ReadBuf → Prop} {evs : List Event}
    {σ : Session T (Source H (Decoded.count : Decoded dec → Nat))} (hrun : Session.Run H room ⟨r, none⟩ evs σ) :
    σ.reader.held ≤ peekLen + bufCap + 512 + limits.maxMetadataBytes.toNat := by
  obtain ⟨d, hd, hstart⟩ := open_ok hr
  obtain ⟨parser, rfl⟩ := Reader.start_ok hstart
  have hsmall := small_decoded hdec hd
  have hlayers := gave_run _ (small_stack hdec hsmall limits) hrun
  have hpax := gave_run _ (paxWithin_stack d limits) hrun
  obtain ⟨⟨hfilled, -, -⟩, hbuffer, hfirst, -⟩ := hlayers
  have hbody : (σ.reader.source.paxBody.getD []).length ≤ limits.maxMetadataBytes.toNat := by
    cases hb : σ.reader.source.paxBody with
    | none => exact Nat.zero_le _
    | some body => exact (Nat.le_add_right _ _).trans (hpax.captured body hb)
  unfold Reader.held
  omega

/-- A call is dropped when the reader holds the front of a PAX record's body. -/
theorem buffers_are_bounded_sample :
    let limits := SecurityLimits.default.withMaxMetadataBytes 10
    ∃ (r : Opened Gnu.tar gnuFields (RawZstd.decoder (Replay (Script IoError)))) (evs : List Event)
      (σ : Session Gnu.tar _),
      Reader.open Gnu.tar _ 9 ⟨Gnu.resized 48 0, [.give 3, .give 511, .late]⟩ limits = .done (.ok r) ∧
        Session.Run gnuFields (fun _ => True) ⟨r, none⟩ evs σ ∧ σ.reader.source.paxBody = some [49, 48, 32, 115] ∧
        σ.reader.held = 4 ∧ σ.reader.held ≤ peekLen + bufCap + 512 + limits.maxMetadataBytes.toNat := by
  intro limits
  have hholds : (Gnu.replayed limits ⟨Gnu.resized 48 0, [.give 3, .give 511, .late]⟩ [.next 2]).map
      (fun p => (p.2.reader.source.paxBody, p.2.reader.held)) = some (some [49, 48, 32, 115], 4) := by
    decide +kernel
  obtain ⟨⟨evs, σ⟩, hreplayed, hholds⟩ := Option.map_eq_some_iff.mp hholds
  obtain ⟨r, hr, hrun⟩ := Gnu.run_replayed hreplayed
  obtain ⟨hbody, hheld⟩ := Prod.mk.inj hholds
  exact ⟨r, evs, σ, hr, hrun, hbody, hheld, buffers_are_bounded RawZstd.handsOn.draws hr hrun⟩

end Sessions

end Etar
