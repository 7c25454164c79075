import Etar.Compress
import Etar.GuardRun
import Etar.RawZstd
import Etar.Watch

/-!
# Where an error comes from

The readers of the pipeline watched from the source up. An error of the source is boxed by
the meter and handed on; the cap and the guard add errors of their own, and each of these
leaves its mark on the state of the reader that raised it.
-/
namespace Etar

open AsyncIo Limit Compress Guard

namespace Limit.Meter

variable {R : Type} [AsyncRead IoError R]

/-- The meter boxes what the source fails with. -/
def watch (W : Watch IoError R) : Watch IoError (Meter R) where
  Intact m := W.Intact m.inner
  Blamed m e := ∃ e', e = boxed e' ∧ W.Blamed m.inner e'
  ok {m b} h ho := by
    rw [inner_poll]
    refine W.ok h fun e he => ho (boxed e) ?_
    rw [outcome_poll, he]
  fault {m b e} h ho := by
    obtain ⟨e', he, ho'⟩ := inner_error ho
    exact ⟨e', he, W.fault h ho'⟩

theorem quiet (h : Quiet R) : Quiet (Meter R) := by
  intro m b e ho
  obtain ⟨e', -, ho'⟩ := inner_error ho
  exact h m.inner b e' ho'

end Limit.Meter

section Sniffed

variable {R : Type} [AsyncRead IoError R]

/-- What is assumed of the decoder's errors: an error of the reader below ends the poll and
is handed on as it is; others are the decoder's own, and carry none of the crate's. -/
structure Decoder.HandsOn (dec : Decoder (Replay R)) : Prop where
  opens : ∀ b, dec.inner (dec.new b) = b
  asks : ∀ z buf, ∃ o, Asked (dec.inner z) o (dec.inner (pollRead z buf).reader) ∧
    match (pollRead z buf).outcome with
    | .ready (.error e) => o = some e ∨ o = none ∧ e.downcast = none
    | _ => o = none
  quiet : Quiet dec.Reader

theorem RawZstd.handsOn : (RawZstd.decoder (Replay R)).HandsOn where
  opens _ := rfl
  asks u buf := by
    cases u with
    | giving inner rest => exact ⟨none, .start inner, rfl⟩
    | broken inner => exact ⟨none, .start inner, Or.inr ⟨rfl, rfl⟩⟩
    | taking inner got =>
      have hp := RawZstd.Unpacking.polls inner got buf
      change ∃ o, Asked inner o (RawZstd.Unpacking.inner (pollRead (RawZstd.Unpacking.taking inner got) buf).reader) ∧
        match (pollRead (RawZstd.Unpacking.taking inner got) buf).outcome with
        | .ready (.error e) => o = some e ∨ o = none ∧ e.downcast = none
        | _ => o = none
      generalize pollRead (RawZstd.Unpacking.taking inner got) buf = p at hp
      cases hp with
      | took ho hne => exact ⟨none, .more _ (.start inner) (by simp [ho]), rfl⟩
      | ended ho hnil hcontent => exact ⟨none, .more _ (.start inner) (by simp [ho]), rfl⟩
      | failed ho hnil hcontent => exact ⟨none, .more _ (.start inner) (by simp [ho]), Or.inr ⟨rfl, rfl⟩⟩
      | other ho =>
        refine ⟨_, .once inner (.new 8192), ?_⟩
        dsimp only
        split
        · rename_i e he
          exact Or.inl (Poll.fault_eq_some.mpr he)
        · rename_i hnot
          exact Poll.fault_eq_none.mpr hnot
  quiet u buf e ho := by
    cases u with
    | giving inner rest => cases ho
    | broken inner => rfl
    | taking inner got =>
      have hp := RawZstd.Unpacking.polls inner got buf
      change (pollRead (RawZstd.Unpacking.taking inner got) buf).buf = buf
      change (pollRead (RawZstd.Unpacking.taking inner got) buf).outcome = _ at ho
      generalize pollRead (RawZstd.Unpacking.taking inner got) buf = p at hp ho
      cases hp with
      | took ho' hne => cases ho
      | ended ho' hnil hcontent => cases ho
      | failed ho' hnil hcontent => rfl
      | other ho' => rfl

def replayWatch (W : Watch IoError R) : Watch IoError (Replay R) := BufReader.watch (Chain.watch (Meter.watch W))

theorem replay_quiet (h : Quiet R) : Quiet (Replay R) := BufReader.quiet (Chain.quiet (Meter.quiet h))

namespace Decoded

variable {dec : Decoder (Replay R)}

/-- What sniffing chose hands the errors of the source on, and adds only foreign ones. -/
def watch (hdec : dec.HandsOn) (W : Watch IoError R) : Watch IoError (Decoded dec) where
  Intact d := (replayWatch W).Intact d.replay
  Blamed d e := (replayWatch W).Blamed d.replay e ∨ (replayWatch W).Intact d.replay ∧ e.downcast = none
  ok {d buf} h ho := by
    cases d with
    | plain b => exact (replayWatch W).ok h ho
    | zstd z =>
      obtain ⟨o, hasked, hout⟩ := hdec.asks z buf
      have ha := (replayWatch W).asked hasked h
      change ∀ e, (pollRead z buf).outcome ≠ .ready (.error e) at ho
      have hnone : o = none := by
        revert hout
        split
        · rename_i e he
          exact absurd he (ho e)
        · exact id
      subst hnone
      exact ha
  fault {d buf e} h ho := by
    cases d with
    | plain b => exact Or.inl ((replayWatch W).fault h ho)
    | zstd z =>
      obtain ⟨o, hasked, hout⟩ := hdec.asks z buf
      have ha := (replayWatch W).asked hasked h
      change (pollRead z buf).outcome = .ready (.error e) at ho
      rw [ho] at hout
      rcases hout with rfl | ⟨rfl, he⟩
      · exact Or.inl ha
      · exact Or.inr ⟨ha, he⟩

theorem quiet (hdec : dec.HandsOn) (h : Quiet R) : Quiet (Decoded dec) := by
  intro d buf e ho
  cases d with
  | plain b => exact replay_quiet h b buf e ho
  | zstd z => exact hdec.quiet z buf e ho

end Decoded

end Sniffed

namespace Limit.Cap

variable {R : Type} [AsyncRead IoError R] {count : R → Nat}

/-- A cap that broke a bound, and the one it broke. -/
def Tripped (c : Cap count) (which : String) : Prop :=
  c.failed = true ∧
    (c.max < c.total ∧ which = "max_total_bytes" ∨ c.total ≤ c.max ∧ which = "max_compression_ratio")

/-- A cap that has not failed breaks a bound and fails, the ratio only beyond the floor, or hands on
the inner answer within its total. -/
theorem poll_bounds {c : Cap count} {max : Nat} (h : c.failed = false) (hmax : c.max = max) (htotal : c.total ≤ max)
    (buf : ReadBuf) :
    (∃ which c', c.poll buf = ⟨.ready (.error (capError which)), buf, c'⟩ ∧ c'.Tripped which ∧ c'.max = max ∧
      c'.inner = (pollRead c.inner buf).reader ∧ buf.added (pollRead c.inner buf).buf ≠ [] ∧
      (c'.total ≤ max → ratioFloorBytes < c'.total)) ∨
    ∃ total, total ≤ max ∧ c.poll buf = ⟨(pollRead c.inner buf).outcome, (pollRead c.inner buf).buf,
      { c with inner := (pollRead c.inner buf).reader, total := total }⟩ := by
  subst hmax
  unfold poll
  rw [if_neg (by simp [h])]
  dsimp only
  by_cases hread : 0 < (buf.added (pollRead c.inner buf).buf).length
  · rw [if_pos hread]
    simp only [breach]
    split_ifs with htot hratio
    · dsimp only
      rw [(AsyncRead.grows c.inner buf).setFilled_eq]
      exact Or.inl ⟨_, _, rfl, ⟨rfl, Or.inl ⟨htot, rfl⟩⟩, rfl, rfl, List.length_pos_iff.mp hread,
        fun hle => absurd htot (Nat.not_lt.mpr hle)⟩
    · dsimp only
      rw [(AsyncRead.grows c.inner buf).setFilled_eq]
      exact Or.inl ⟨_, _, rfl, ⟨rfl, Or.inr ⟨Nat.not_lt.mp htot, rfl⟩⟩, rfl, rfl, List.length_pos_iff.mp hread,
        fun _ => hratio.1⟩
    · exact Or.inr ⟨_, Nat.not_lt.mp htot, rfl⟩
  · rw [if_neg hread]
    exact Or.inr ⟨_, htotal, rfl⟩

/-- A cap watched for its own errors: they tell which bound it broke, the ratio beyond the floor. -/
def bounds (max : Nat) : Watch IoError (Cap count) where
  Intact c := c.failed = false ∧ c.max = max ∧ c.total ≤ max
  Blamed c e := c.max = max ∧ (c.failed = false ∧ c.total ≤ max ∨
    ∃ which, c.Tripped which ∧ e = capError which ∧ (c.total ≤ max → ratioFloorBytes < c.total))
  ok {c buf} h ho := by
    obtain ⟨hf, hmax, htotal⟩ := h
    simp only [pollRead] at ho ⊢
    rcases poll_bounds hf hmax htotal buf with ⟨which, c', hp, -⟩ | ⟨total, hle, hp⟩
    · rw [hp] at ho
      exact absurd rfl (ho _)
    · rw [hp]
      exact ⟨hf, hmax, hle⟩
  fault {c buf e} h ho := by
    obtain ⟨hf, hmax, htotal⟩ := h
    simp only [pollRead] at ho ⊢
    rcases poll_bounds hf hmax htotal buf with ⟨which, c', hp, htrip, hmax', -, -, hfloor⟩ | ⟨total, hle, hp⟩
    · rw [hp] at ho ⊢
      cases ho
      exact ⟨hmax', Or.inr ⟨which, htrip, rfl, hfloor⟩⟩
    · rw [hp]
      exact ⟨hmax, Or.inl ⟨hf, hle⟩⟩

/-- An error of a cap's inner reader, whose errors come without bytes, is handed on; the cap's
own tell which bound it broke. -/
def watch (W : Watch IoError R) (hquiet : Quiet R) (max : Nat) : Watch IoError (Cap count) where
  Intact c := c.failed = false ∧ c.max = max ∧ c.total ≤ max ∧ W.Intact c.inner
  Blamed c e := c.max = max ∧
    (c.failed = false ∧ c.total ≤ max ∧ W.Blamed c.inner e ∨
      W.Intact c.inner ∧ ∃ which, c.Tripped which ∧ e = capError which)
  ok {c buf} h ho := by
    obtain ⟨hf, hmax, htotal, hin⟩ := h
    simp only [pollRead] at ho ⊢
    rcases poll_bounds hf hmax htotal buf with ⟨which, c', hp, -⟩ | ⟨total, hle, hp⟩
    · rw [hp] at ho
      exact absurd rfl (ho _)
    · rw [hp] at ho ⊢
      exact ⟨hf, hmax, hle, W.ok hin ho⟩
  fault {c buf e} h ho := by
    obtain ⟨hf, hmax, htotal, hin⟩ := h
    simp only [pollRead] at ho ⊢
    rcases poll_bounds hf hmax htotal buf with ⟨which, c', hp, htrip, hmax', hin', hne, -⟩ | ⟨total, hle, hp⟩
    · rw [hp] at ho ⊢
      cases ho
      refine ⟨hmax', Or.inr ⟨?_, which, htrip, rfl⟩⟩
      -- bytes came, so the inner reader did not fail
      rw [hin']
      refine W.ok hin fun e he => hne ?_
      rw [hquiet c.inner buf e he, ReadBuf.added_self]
    · rw [hp] at ho ⊢
      exact ⟨hmax, Or.inl ⟨hf, hle, W.fault hin ho⟩⟩

end Limit.Cap

namespace Guard.HeaderGuard

variable {H : HeaderFields} {R : Type}

/-- A guard that holds a whole header and has let nothing of it out. -/
def Holds (g : HeaderGuard H R) : Prop := g.filled = 512 ∧ g.emitted = 0 ∧ g.header.isZero = false

/-- It refused the header's type byte. -/
def RefusesType (g : HeaderGuard H R) : Prop := g.Holds ∧ g.header.typeflag ∉ allowedFlags

/-- It refused the size of an extension record. -/
def RefusesSize (g : HeaderGuard H R) : Prop :=
  g.Holds ∧ g.header.typeflag ∈ allowedFlags ∧ isExtension g.header.typeflag = true ∧
    ∃ rawSize, H.size g.header = some rawSize ∧ g.maxMetadataBytes < rawSize.toNat

/-- What an error of the guard's own leaves. -/
def Refused (g : HeaderGuard H R) (e : Error) : Prop :=
  e = .disallowedEntryType ∧ g.RefusesType ∨ e = .limitExceeded "max_metadata_bytes" ∧ g.RefusesSize ∨
    e = .malformed ∧ ¬ g.RefusesType ∧ ¬ g.RefusesSize

theorem inspect_error {g g' : HeaderGuard H R} {e : Error} (hfilled : g.filled = 512) (hemitted : g.emitted = 0)
    (h : g.inspect = (.error e, g')) : g'.Refused e := by
  unfold inspect at h
  split at h
  · cases h
  · rename_i hz
    have hz : g.header.isZero = false := by simpa using hz
    dsimp only at h
    split at h
    · rename_i hflag
      cases h
      exact Or.inl ⟨rfl, ⟨hfilled, hemitted, hz⟩, hflag⟩
    · rename_i hflag
      have hflag : g.header.typeflag ∈ allowedFlags := by simpa using hflag
      split at h
      · rename_i hsize
        cases h
        refine Or.inr (Or.inr ⟨rfl, fun hr => hr.2 hflag, ?_⟩)
        rintro ⟨-, -, -, rawSize, hr, -⟩
        rw [hsize] at hr
        cases hr
      · rename_i rawSize hsize
        split at h
        · rename_i hbig
          cases h
          exact Or.inr (Or.inl ⟨rfl, ⟨hfilled, hemitted, hz⟩, hflag, hbig.1, rawSize, hsize, hbig.2⟩)
        · rename_i hbig
          split at h
          · cases h
            refine Or.inr (Or.inr ⟨rfl, fun hr => hr.2 hflag, ?_⟩)
            rintro ⟨-, -, he, rawSize', hr, hlt⟩
            obtain rfl := Option.some.inj (hsize.symm.trans hr)
            exact hbig ⟨he, hlt⟩
          · cases h

theorem inspect_ok {g g' : HeaderGuard H R} (h : g.inspect = (.ok (), g')) : g'.filled = g.filled := by
  unfold inspect at h
  split at h
  · cases h
    rfl
  · dsimp only at h
    split at h
    · cases h
    · split at h
      · cases h
      · split at h
        · cases h
        · split at h
          · cases h
          · cases h
            rfl

/-- Settling moves nothing that a refusal shows in. -/
theorem settle_kept (g : HeaderGuard H R) : g.settle.2.filled = g.filled ∧ g.settle.2.emitted = g.emitted := by
  unfold settle
  split
  · split
    · exact ⟨rfl, rfl⟩
    · split <;> exact ⟨rfl, rfl⟩
  · exact ⟨rfl, rfl⟩

/-- It fails only over a malformed body. -/
theorem settle_error {g : HeaderGuard H R} {e : Error} (h : g.settle.1 = .error e) : e = .malformed := by
  unfold settle at h
  split at h
  · split at h
    · cases h
    · split at h
      · rename_i body e' he
        cases h
        exact Pax.parsePaxSize_error he
      · cases h
  · cases h

/-- Nothing a refusal could show in. -/
def Unheld (g : HeaderGuard H R) : Prop := g.filled ≤ 512 ∧ (g.filled = 512 → 0 < g.emitted)

theorem Unheld.no_refusal {g : HeaderGuard H R} (h : g.Unheld) : ¬ g.RefusesType ∧ ¬ g.RefusesSize := by
  have hnot : ¬ g.Holds := fun hold => by
    have := h.2 hold.1
    rw [hold.2.1] at this
    exact Nat.lt_irrefl 0 this
  exact ⟨fun hr => hnot hr.1, fun hr => hnot hr.1⟩

theorem capture_kept (g : HeaderGuard H R) (bytes : List UInt8) :
    (g.capture bytes).filled = g.filled ∧ (g.capture bytes).emitted = g.emitted := by
  unfold capture
  split <;> exact ⟨rfl, rfl⟩

@[simp] theorem capture_inner (g : HeaderGuard H R) (bytes : List UInt8) : (g.capture bytes).inner = g.inner := by
  unfold capture
  split <;> rfl

theorem emit_inner (g : HeaderGuard H R) (out : ReadBuf) : (g.emit out).reader.inner = g.inner := by
  unfold emit
  dsimp only
  split
  · exact settle_inner _
  · rfl

/-- Handing out a header asks nothing of the inner reader. -/
theorem emit_outcome (g : HeaderGuard H R) (out : ReadBuf) :
    (g.emit out).outcome = .ready (.ok ()) ∨ ∃ e, (g.emit out).outcome = .ready (.error (.own e)) := by
  unfold emit
  dsimp only
  split
  · cases (settle _).1 with
    | ok => exact Or.inl rfl
    | error e => exact Or.inr ⟨e, rfl⟩
  · exact Or.inl rfl

/-- Letting a checked header out fails only over a malformed body. -/
theorem emit_error {g : HeaderGuard H R} {out : ReadBuf} {f : Fault} (h : (g.emit out).outcome = .ready (.error f)) :
    f = .own .malformed := by
  unfold emit at h
  dsimp only at h
  split at h
  · dsimp only at h
    generalize hs : settle _ = p at h
    rcases p with ⟨res, g'⟩
    cases res with
    | ok => cases h
    | error e =>
      cases h
      rw [settle_error (congrArg Prod.fst hs)]
  · cases h

/-- It leaves none held. -/
theorem emit_kept (g : HeaderGuard H R) (hfilled : g.filled = 512) {out : ReadBuf} (hroom : 0 < out.remaining) :
    (g.emit out).reader.Unheld := by
  unfold emit
  dsimp only
  split
  · obtain ⟨hfill, -⟩ := settle_kept { g with
      filled := 0, emitted := 0, dataRemaining := g.nextData, nextData := 0, trailer := g.nextTrailer }
    refine ⟨by rw [hfill]; exact Nat.zero_le _, fun h => ?_⟩
    rw [hfill] at h
    cases h
  · refine ⟨hfilled.le, fun _ => ?_⟩
    show 0 < g.emitted + min out.remaining (512 - g.emitted)
    omega

variable [AsyncRead IoError R]

/-- Filling the header polls the reader below until it fails, is late, or the header is full. -/
theorem asked_fill (fuel : Nat) {g₀ g : HeaderGuard H R} (h : Asked g₀.inner none g.inner) :
    match g.fill fuel with
    | (.failed e, g') => Asked g₀.inner (some e) g'.inner
    | (_, g') => Asked g₀.inner none g'.inner := by
  induction fuel generalizing g with
  | zero => exact h
  | succ fuel ih =>
    rw [fill]
    by_cases hf : g.filled < 512
    · rw [dif_pos hf]
      dsimp only
      cases ho : (pollRead g.inner (.new (512 - g.filled))).outcome with
      | pending => exact h.more _ (by simp [ho])
      | ready res =>
        cases res with
        | error e => exact h.fault _ ho
        | ok =>
          have h' := h.more (.new (512 - g.filled)) (by simp [ho])
          dsimp only
          by_cases hnil : (pollRead g.inner (.new (512 - g.filled))).buf.filled = []
          · rw [if_pos hnil]
            exact h'
          · rw [if_neg hnil]
            exact ih h'
    · rw [dif_neg hf]
      exact h

/-- An error the guard hands on. -/
def handed : Poll (Except Fault Unit) → Option IoError
  | .ready (.error (.inner e)) => some e
  | _ => none

/-- A poll of the guard comes down to polls of the reader below, and hands its error on. -/
theorem asked_poll (g : HeaderGuard H R) (out : ReadBuf) :
    Asked g.inner (handed (g.poll out).outcome) (g.poll out).reader.inner := by
  by_cases hroom : out.remaining = 0
  · rw [poll, if_pos hroom]
    exact .start g.inner
  by_cases htrailer : g.trailer = true
  · rw [poll, if_neg hroom, if_pos htrailer]
    dsimp only
    cases ho : (pollRead g.inner out).outcome with
    | pending => exact .more _ (.start g.inner) (by simp [ho])
    | ready res =>
      cases res with
      | error e => exact .fault _ (.start g.inner) ho
      | ok => exact .more _ (.start g.inner) (by simp [ho])
  by_cases hdata : 0 < g.dataRemaining
  · rw [poll, if_neg hroom, if_neg htrailer, if_pos hdata, readData]
    dsimp only
    cases ho : (pollRead g.inner (out.take (min g.dataRemaining usizeMax))).outcome with
    | pending => exact .more _ (.start g.inner) (by simp [ho])
    | ready res =>
      cases res with
      | error e => exact .fault _ (.start g.inner) ho
      | ok =>
        dsimp only
        rw [settle_inner]
        have hnone : ∀ res : Except Error Unit, handed (.ready (res.mapError .own)) = none := by
          intro res
          cases res <;> rfl
        rw [hnone]
        show Asked g.inner none (HeaderGuard.capture
          { g with inner := (pollRead g.inner (out.take (min g.dataRemaining usizeMax))).reader }
          (pollRead g.inner (out.take (min g.dataRemaining usizeMax))).buf.filled).inner
        rw [capture_inner]
        exact .more _ (.start g.inner) (by simp [ho])
  · have hfill := asked_fill (512 - g.filled) (.start g.inner)
    rw [poll, if_neg hroom, if_neg htrailer, if_neg hdata]
    generalize g.fill (512 - g.filled) = q at hfill
    rcases q with ⟨res, g'⟩
    cases res with
    | pending => exact hfill
    | eof => exact hfill
    | failed e => exact hfill
    | full =>
      have hemit : ∀ g'' : HeaderGuard H R, g''.inner = g'.inner →
          Asked g.inner (handed (g''.emit out).outcome) (g''.emit out).reader.inner := by
        intro g'' hinner
        have hnone : handed (g''.emit out).outcome = none := by
          rcases emit_outcome g'' out with ho | ⟨e, ho⟩
          · rw [ho]
            rfl
          · rw [ho]
            rfl
        rw [hnone, emit_inner, hinner]
        exact hfill
      dsimp only
      by_cases h0 : g'.emitted = 0
      · rw [if_pos h0]
        have hinspect := inspect_inner g'
        generalize g'.inspect = p at hinspect
        rcases p with ⟨res, g''⟩
        cases res with
        | error e =>
          simp only at hinspect
          show Asked g.inner none g''.inner
          rw [hinspect]
          exact hfill
        | ok => exact hemit g'' hinspect
      · rw [if_neg h0]
        exact hemit g' rfl

/-- A guard that held nothing back refuses with the mark of the refusal, or again holds nothing. -/
theorem held_poll {g : HeaderGuard H R} (hg : g.Unheld) (out : ReadBuf) :
    match (g.poll out).outcome with
    | .ready (.error (.own e)) => (g.poll out).reader.Refused e
    | _ => (g.poll out).reader.Unheld := by
  by_cases hroom : out.remaining = 0
  · rw [poll, if_pos hroom]
    exact hg
  by_cases htrailer : g.trailer = true
  · rw [poll, if_neg hroom, if_pos htrailer]
    dsimp only
    cases (pollRead g.inner out).outcome with
    | pending => exact hg
    | ready res => cases res <;> exact hg
  by_cases hdata : 0 < g.dataRemaining
  · rw [poll, if_neg hroom, if_neg htrailer, if_pos hdata, readData]
    dsimp only
    cases (pollRead g.inner (out.take (min g.dataRemaining usizeMax))).outcome with
    | pending => exact hg
    | ready res =>
      cases res with
      | error e => exact hg
      | ok =>
        obtain ⟨hcf, hce⟩ := capture_kept
          { g with inner := (pollRead g.inner (out.take (min g.dataRemaining usizeMax))).reader }
          (pollRead g.inner (out.take (min g.dataRemaining usizeMax))).buf.filled
        dsimp only
        generalize HeaderGuard.capture
          { g with inner := (pollRead g.inner (out.take (min g.dataRemaining usizeMax))).reader }
          (pollRead g.inner (out.take (min g.dataRemaining usizeMax))).buf.filled = c at hcf hce
        obtain ⟨hsf, hse⟩ := settle_kept { c with
          dataRemaining := c.dataRemaining -
            (pollRead g.inner (out.take (min g.dataRemaining usizeMax))).buf.filled.length }
        generalize hs : settle { c with
          dataRemaining := c.dataRemaining -
            (pollRead g.inner (out.take (min g.dataRemaining usizeMax))).buf.filled.length } = q at hsf hse
        rcases q with ⟨res, g'⟩
        have hun : g'.Unheld := by
          unfold Unheld
          rw [hsf, hse, hcf, hce]
          exact hg
        cases res with
        | ok => exact hun
        | error e =>
          rw [settle_error (congrArg Prod.fst hs)]
          exact Or.inr (Or.inr ⟨rfl, hun.no_refusal⟩)
  · obtain ⟨r, header, f, hleaves, hle, hfull⟩ := fill_leaves (512 - g.filled) (le_refl _) hg.1
    rw [poll, if_neg hroom, if_neg htrailer, if_neg hdata]
    generalize g.fill (512 - g.filled) = q at hleaves hfull
    rcases q with ⟨res, g'⟩
    have hf : g'.filled = f := congrArg HeaderGuard.filled hleaves
    dsimp only at hfull
    rw [← hf] at hle hfull
    have hlt : res ≠ .full → g'.Unheld := fun hres => ⟨hle, fun h' => absurd (hfull.mpr h') hres⟩
    cases res with
    | pending => exact hlt (by simp)
    | eof => exact hlt (by simp)
    | failed e => exact hlt (by simp)
    | full =>
      have hfill : g'.filled = 512 := hfull.mp rfl
      have hemit : ∀ g'' : HeaderGuard H R, g''.filled = 512 →
          match (g''.emit out).outcome with
          | .ready (.error (.own e)) => (g''.emit out).reader.Refused e
          | _ => (g''.emit out).reader.Unheld := by
        intro g'' hf''
        have hun := emit_kept g'' hf'' (Nat.pos_of_ne_zero hroom)
        cases ho : (g''.emit out).outcome with
        | pending => exact hun
        | ready res =>
          cases res with
          | ok => exact hun
          | error f =>
            rw [emit_error ho]
            exact Or.inr (Or.inr ⟨rfl, hun.no_refusal⟩)
      dsimp only
      by_cases h0 : g'.emitted = 0
      · rw [if_pos h0]
        cases hi : g'.inspect with
        | mk res g'' =>
          cases res with
          | error e => exact inspect_error hfill h0 hi
          | ok => exact hemit g'' ((inspect_ok hi).trans hfill)
      · rw [if_neg h0]
        exact hemit g' hfill

/-- The guard's own errors, in any state. -/
def OwnError (e : Error) : Prop :=
  e = .disallowedEntryType ∨ e = .limitExceeded "max_metadata_bytes" ∨ e = .malformed

omit [AsyncRead IoError R] in
theorem inspect_own {g : HeaderGuard H R} {e : Error} (h : g.inspect.1 = .error e) : OwnError e := by
  unfold inspect at h
  split at h
  · cases h
  · dsimp only at h
    split at h
    · cases h
      exact Or.inl rfl
    · split at h
      · cases h
        exact Or.inr (Or.inr rfl)
      · split at h
        · cases h
          exact Or.inr (Or.inl rfl)
        · split at h
          · cases h
            exact Or.inr (Or.inr rfl)
          · cases h

theorem poll_own_error {g : HeaderGuard H R} {out : ReadBuf} {e : Error}
    (h : (g.poll out).outcome = .ready (.error (.own e))) : OwnError e := by
  unfold poll at h
  split_ifs at h with hroom htrailer hdata
  · cases h
  · dsimp only at h
    cases ho : (pollRead g.inner out).outcome with
    | pending => simp [ho] at h
    | ready res => cases res <;> simp [ho, Except.mapError] at h
  · unfold readData at h
    dsimp only at h
    split at h
    · cases h
    · cases h
    · dsimp only at h
      generalize hs : settle _ = q at h
      rcases q with ⟨res, g'⟩
      cases res with
      | ok => cases h
      | error e' =>
        cases h
        exact Or.inr (Or.inr (settle_error (congrArg Prod.fst hs)))
  · split at h
    · cases h
    · cases h
    · cases h
    · rename_i g' hfill
      have hemit : ∀ g'' : HeaderGuard H R, (g''.emit out).outcome = .ready (.error (.own e)) → OwnError e := by
        intro g'' ho
        cases emit_error ho
        exact Or.inr (Or.inr rfl)
      by_cases h0 : g'.emitted = 0
      · rw [if_pos h0] at h
        cases hi : g'.inspect with
        | mk res g'' =>
          rw [hi] at h
          cases res with
          | error e' =>
            cases h
            exact inspect_own (congrArg Prod.fst hi)
          | ok => exact hemit g'' h
      · rw [if_neg h0] at h
        exact hemit g' h

/-- The guard over a watched reader: an error is the reader's, or the guard's own and the state
tells which. -/
def watch (W : Watch IoError R) : Watch IoError (HeaderGuard H R) where
  Intact g := g.Unheld ∧ W.Intact g.inner
  Blamed g e := g.Unheld ∧ W.Blamed g.inner e ∨ W.Intact g.inner ∧ ∃ own, e = (Fault.own own).toIo ∧ g.Refused own
  ok {g out} h ho := by
    have hheld := held_poll h.1 out
    have hin := W.asked (asked_poll g out) h.2
    simp only [pollRead] at ho ⊢
    generalize g.poll out = p at hheld hin ho
    rcases p with ⟨o, buf, g'⟩
    cases o with
    | pending => exact ⟨hheld, hin⟩
    | ready res =>
      cases res with
      | ok => exact ⟨hheld, hin⟩
      | error f => exact absurd rfl (ho f.toIo)
  fault {g out e} h ho := by
    have hheld := held_poll h.1 out
    have hin := W.asked (asked_poll g out) h.2
    simp only [pollRead] at ho ⊢
    generalize g.poll out = p at hheld hin ho
    rcases p with ⟨o, buf, g'⟩
    cases o with
    | pending => cases ho
    | ready res =>
      cases res with
      | ok => cases ho
      | error f =>
        cases ho
        cases f with
        | inner e => exact Or.inl ⟨hheld, hin⟩
        | own e => exact Or.inr ⟨hin, e, rfl, hheld⟩

end Guard.HeaderGuard

end Etar
