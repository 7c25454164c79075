import Etar.Causes
import Etar.FirstError

/-!
# Failures keep their cause

The whole reader over a source that logs the errors it answers with. The first error that
`next_entry` or `validate` reports tells whether the source failed, a cap tripped or the
guard refused a header.
-/
namespace Etar

open AsyncIo Limit Compress Guard

variable {T : Tar} {H : HeaderFields} {F : TarFormat H} {R : Type} [AsyncRead IoError R]
variable {dec : Decoder (Replay (Logged IoError R))}

/-- The reader over the whole pipeline. -/
abbrev Piped (T : Tar) (H : HeaderFields) (dec : Decoder (Replay (Logged IoError R))) :=
  Reader T (Source H (Decoded.count : Decoded dec → Nat))

namespace Piped

def faults (r : Piped T H dec) : List IoError := r.source.inner.inner.replay.inner.second.inner.faults

/-- `e` tells what went wrong below the reader. -/
structure Told (r : Piped T H dec) (e : Error) : Prop where
  source : (∃ io, e = .io io) ↔ faults r ≠ []
  kind : ∀ io, e = .io io → ∃ fault, faults r = [fault] ∧ io.kind = fault.kind
  total : e = .limitExceeded "max_total_bytes" ↔ r.source.inner.Tripped "max_total_bytes"
  ratio : e = .limitExceeded "max_compression_ratio" ↔ r.source.inner.Tripped "max_compression_ratio"
  size : e = .limitExceeded "max_metadata_bytes" ↔ r.source.RefusesSize
  type : r.source.RefusesType → e = .disallowedEntryType
  placeholders : e ≠ .limitExceeded "aborted" ∧ e ≠ .limitExceeded "aborted entry body"

end Piped

variable (hdec : dec.HandsOn) (hquiet : Quiet R)

/-- The whole stack watched. -/
def stackWatch (max : Nat) : Watch IoError (Source H (Decoded.count : Decoded dec → Nat)) :=
  HeaderGuard.watch (Cap.watch (Decoded.watch hdec Logged.watch) (Decoded.quiet hdec (Logged.quiet hquiet)) max)

variable {hdec hquiet} {max : Nat}

omit [AsyncRead IoError R] in
theorem not_tripped {D : Type} {count : D → Nat} {c : Cap count} (h : c.failed = false) (which : String) :
    ¬ c.Tripped which := by
  rintro ⟨hf, -⟩
  rw [h] at hf
  cases hf

/-- Over an intact source nothing has tripped, nothing is refused and no error is logged. -/
theorem intact_marks {r : Piped T H dec} (h : (stackWatch hdec hquiet max).Intact r.source) :
    r.faults = [] ∧ (∀ which, ¬ r.source.inner.Tripped which) ∧ ¬ r.source.RefusesType ∧ ¬ r.source.RefusesSize ∧
      r.source.inner.max = max ∧ r.source.inner.total ≤ max := by
  obtain ⟨hun, hf, hmax, htotal, hfaults⟩ := h
  exact ⟨hfaults, not_tripped hf, hun.no_refusal.1, hun.no_refusal.2, hmax, htotal⟩

theorem told_refusal {r : Piped T H dec} {e : Error} (h : (stackWatch hdec hquiet max).Intact r.source)
    (hr : Refusal e) : r.Told e := by
  obtain ⟨hfaults, htrip, htype, hsize, -⟩ := intact_marks h
  have hio : ∀ io, e ≠ .io io := by
    rintro io rfl
    exact hr
  have hlimit : ∀ which, which ≠ "max_entries" → which ≠ "max_path_len" → which ≠ "max_entry_bytes" →
      e ≠ .limitExceeded which := by
    rintro which h1 h2 h3 rfl
    rcases hr with hr | hr | hr
    · exact h1 hr
    · exact h2 hr
    · exact h3 hr
  refine ⟨iff_of_false (fun ⟨io, he⟩ => hio io he) (by simp [hfaults]), fun io he => absurd he (hio io), ?_, ?_, ?_,
    fun h => absurd h htype, ?_⟩
  · exact iff_of_false (hlimit _ (by decide) (by decide) (by decide)) (htrip _)
  · exact iff_of_false (hlimit _ (by decide) (by decide) (by decide)) (htrip _)
  · exact iff_of_false (hlimit _ (by decide) (by decide) (by decide)) hsize
  · exact ⟨hlimit _ (by decide) (by decide) (by decide), hlimit _ (by decide) (by decide) (by decide)⟩

theorem readError_within {error : IoError} {total max : Nat} (h : total ≤ max) :
    readError error total max = match error.downcast with
      | some (.limitExceeded which) => .limitExceeded which
      | some .disallowedEntryType => .disallowedEntryType
      | some (.io _) => .io error
      | _ => .malformed := by
  unfold readError
  exact if_neg (Nat.not_lt.mpr h)

theorem told_foreign {r : Piped T H dec} {io : IoError} (h : (stackWatch hdec hquiet max).Intact r.source)
    (hmax : r.limits.maxTotalBytes.toNat = max) (hio : io.downcast = none) : r.Told (r.report io) := by
  have hle : r.decodedBytes ≤ r.limits.maxTotalBytes.toNat := by
    rw [hmax]
    exact (intact_marks h).2.2.2.2.2
  rw [Reader.report, readError_within hle, hio]
  exact told_refusal h trivial

theorem told_source {r : Piped T H dec} {io : IoError} (hun : r.source.Unheld) (hf : r.source.inner.failed = false)
    (hle : r.decodedBytes ≤ r.limits.maxTotalBytes.toNat)
    (h : (replayWatch Logged.watch).Blamed r.source.inner.inner.replay io) : r.Told (r.report io) := by
  obtain ⟨fault, rfl, hfault⟩ := h
  have hfault : r.faults = [fault] := hfault
  rw [Reader.report, readError_within hle]
  refine ⟨iff_of_true ⟨_, rfl⟩ (by simp [hfault]), ?_, ?_, ?_, ?_, fun h => absurd h hun.no_refusal.1, ?_⟩
  · rintro io ⟨⟩
    exact ⟨fault, hfault, rfl⟩
  · exact iff_of_false (by simp [boxed]) (not_tripped hf _)
  · exact iff_of_false (by simp [boxed]) (not_tripped hf _)
  · exact iff_of_false (by simp [boxed]) hun.no_refusal.2
  · simp [boxed]

omit [AsyncRead IoError R] in
/-- A cap's own error as it is reported. -/
theorem report_tripped {D : Type} {count : D → Nat} {r : Reader T (Source H count)} {which : String}
    (htrip : r.source.inner.Tripped which) (hmax : r.source.inner.max = r.limits.maxTotalBytes.toNat) :
    r.report (capError which) = .limitExceeded which := by
  rcases htrip with ⟨-, ⟨hlt, rfl⟩ | ⟨hle, rfl⟩⟩
  · rw [hmax] at hlt
    exact if_pos hlt
  · rw [hmax] at hle
    rw [Reader.report, readError_within (show r.decodedBytes ≤ _ from hle)]
    rfl

omit [AsyncRead IoError R] in
theorem told_cap {r : Piped T H dec} (hun : r.source.Unheld) (hfaults : r.faults = []) {which : String}
    (htrip : r.source.inner.Tripped which) (hmax : r.source.inner.max = r.limits.maxTotalBytes.toNat) :
    r.Told (r.report (capError which)) := by
  have honly : ∀ which', r.source.inner.Tripped which' ↔ which' = which := by
    intro which'
    constructor
    · rintro ⟨-, h'⟩
      obtain ⟨-, h⟩ := htrip
      rcases h with ⟨hlt, rfl⟩ | ⟨hle, rfl⟩
      · rcases h' with ⟨-, h'⟩ | ⟨hle, -⟩
        · exact h'
        · omega
      · rcases h' with ⟨hlt, -⟩ | ⟨-, h'⟩
        · omega
        · exact h'
    · rintro rfl
      exact htrip
  have hknown : which = "max_total_bytes" ∨ which = "max_compression_ratio" := by
    rcases htrip with ⟨-, ⟨-, h⟩ | ⟨-, h⟩⟩
    · exact Or.inl h
    · exact Or.inr h
  rw [report_tripped htrip hmax]
  refine ⟨iff_of_false (by simp) (by simp [hfaults]), by simp, ?_, ?_, ?_, fun h => absurd h hun.no_refusal.1, ?_⟩
  · rw [honly, Error.limitExceeded.injEq, eq_comm]
  · rw [honly, Error.limitExceeded.injEq, eq_comm]
  · refine iff_of_false ?_ hun.no_refusal.2
    rcases hknown with rfl | rfl <;> simp
  · rcases hknown with rfl | rfl <;> simp

omit [AsyncRead IoError R] in
theorem told_guard {r : Piped T H dec} (hfaults : r.faults = []) (hf : r.source.inner.failed = false)
    (hle : r.decodedBytes ≤ r.limits.maxTotalBytes.toNat) {own : Error} (h : r.source.Refused own) :
    r.Told (r.report (Fault.own own).toIo) := by
  rw [Reader.report, readError_within hle]
  rcases h with ⟨rfl, htype⟩ | ⟨rfl, hsize⟩ | ⟨rfl, htype, hsize⟩
  · refine ⟨iff_of_false (by simp [Fault.toIo]) (by simp [hfaults]), by simp [Fault.toIo], ?_, ?_, ?_, fun _ => rfl, ?_⟩
    · exact iff_of_false (by simp [Fault.toIo]) (not_tripped hf _)
    · exact iff_of_false (by simp [Fault.toIo]) (not_tripped hf _)
    · exact iff_of_false (by simp [Fault.toIo]) (fun hs => htype.2 hs.2.1)
    · simp [Fault.toIo]
  · refine ⟨iff_of_false (by simp [Fault.toIo]) (by simp [hfaults]), by simp [Fault.toIo], ?_, ?_, ?_, ?_, ?_⟩
    · exact iff_of_false (by simp [Fault.toIo]) (not_tripped hf _)
    · exact iff_of_false (by simp [Fault.toIo]) (not_tripped hf _)
    · exact iff_of_true rfl hsize
    · exact fun ht => absurd hsize.2.1 ht.2
    · simp [Fault.toIo]
  · refine ⟨iff_of_false (by simp [Fault.toIo]) (by simp [hfaults]), by simp [Fault.toIo], ?_, ?_, ?_,
      fun h => absurd h htype, ?_⟩
    · exact iff_of_false (by simp [Fault.toIo]) (not_tripped hf _)
    · exact iff_of_false (by simp [Fault.toIo]) (not_tripped hf _)
    · exact iff_of_false (by simp [Fault.toIo]) hsize
    · simp [Fault.toIo]

/-- What the source or a layer of the pipeline failed with. -/
theorem told_blamed {r : Piped T H dec} {io : IoError} (h : (stackWatch hdec hquiet max).Blamed r.source io)
    (hmax : r.limits.maxTotalBytes.toNat = max) : r.Told (r.report io) := by
  rcases h with ⟨hun, hm, ⟨hf, htotal, hblame⟩ | ⟨hfaults, which, htrip, rfl⟩⟩ | ⟨hin, own, rfl, href⟩
  · rw [← hmax] at htotal
    rcases hblame with hblame | ⟨hfaults, hio⟩
    · exact told_source hun hf htotal hblame
    · rw [hmax] at htotal
      have hin : (stackWatch hdec hquiet max).Intact r.source := ⟨hun, hf, hm, htotal, hfaults⟩
      exact told_foreign hin hmax hio
  · exact told_cap hun hfaults htrip (hm.trans hmax.symm)
  · obtain ⟨hf, hm, htotal, hfaults⟩ := hin
    rw [← hmax] at htotal
    exact told_guard hfaults hf htotal href

theorem told_traced {r : Piped T H dec} {e : Error} (h : Traced (stackWatch hdec hquiet max) r e)
    (hmax : r.limits.maxTotalBytes.toNat = max) : r.Told e := by
  rcases h with ⟨io, rfl, hblame | ⟨hin, hio⟩⟩ | ⟨hin, hr⟩
  · exact told_blamed hblame hmax
  · exact told_foreign hin hmax hio
  · exact told_refusal hin hr

omit [AsyncRead IoError R] in
theorem peek_watch {S : Type} [AsyncRead IoError S] (W : Watch IoError S) (polls : Nat) (seen : List UInt8) {r : S}
    (h : W.Intact r) :
    match peek polls seen r with
    | (.done (.error e), r') => W.Blamed r' e
    | (_, r') => W.Intact r' := by
  induction polls generalizing seen r with
  | zero =>
    unfold peek
    by_cases hseen : seen.length < peekLen
    · rw [if_pos hseen]
      exact h
    · rw [if_neg hseen]
      exact h
  | succ polls ih =>
    unfold peek
    by_cases hseen : seen.length < peekLen
    · rw [if_pos hseen]
      dsimp only
      cases ho : (pollRead r (.new (peekLen - seen.length))).outcome with
      | pending => exact ih seen (W.ok h (by simp [ho]))
      | ready res =>
        cases res with
        | error e => exact W.fault h ho
        | ok =>
          have h' := W.ok (b := .new (peekLen - seen.length)) h (by simp [ho])
          dsimp only
          by_cases hnil : (pollRead r (.new (peekLen - seen.length))).buf.filled = []
          · rw [if_pos hnil]
            exact h'
          · rw [if_neg hnil]
            exact ih _ h'
    · rw [if_neg hseen]
      exact h

/-- Sniffing failed with its source. -/
def Unopened (source : R) (polls : Nat) (e : Error) : Prop :=
  ∃ io fault : IoError, e = .io io ∧ io.kind = fault.kind ∧
    (peek polls [] (Meter.new (Logged.new source))).2.inner.faults = [fault]

/-- An opened reader has met no error; opening fails only with its source. -/
theorem open_watch (fr : T.Frames F) (hdec : dec.HandsOn) (hquiet : Quiet R) (polls : Nat) (source : R)
    (limits : SecurityLimits) :
    match Reader.open (H := H) T dec polls (Logged.new source) limits with
    | .cancelled => True
    | .done (.ok r) => Reader.start T r.source limits = .ok r ∧
        (stackWatch hdec hquiet limits.maxTotalBytes.toNat).Intact r.source
    | .done (.error e) => Unopened source polls e := by
  have hp := peek_watch (Meter.watch (Logged.watch : Watch IoError (Logged IoError R))) polls []
    (show (Meter.watch Logged.watch).Intact (Meter.new (Logged.new source : Logged IoError R)) from rfl)
  unfold Reader.open decoded Unopened
  generalize peek polls [] (Meter.new (Logged.new source : Logged IoError R)) = p at hp
  rcases p with ⟨res, m⟩
  cases res with
  | cancelled => trivial
  | done res =>
    cases res with
    | error e =>
      obtain ⟨fault, rfl, hfault⟩ := hp
      exact ⟨_, fault, rfl, rfl, hfault⟩
    | ok magic =>
      have hfaults : m.inner.faults = [] := hp
      obtain ⟨parser, hparser, -⟩ := fr.opens
      simp only [Reader.over, Reader.start, hparser]
      refine ⟨trivial, ⟨Nat.zero_le _, fun h => by cases h⟩, rfl, rfl, Nat.zero_le _, ?_⟩
      show (Decoded.replay (wrap dec magic (.new bufCap (.new magic m)))).inner.second.inner.faults = []
      unfold wrap
      split
      · show (dec.inner (dec.new _)).inner.second.inner.faults = []
        rw [hdec.opens]
        exact hfaults
      · exact hfaults

theorem limits_of_run {S : Type} [AsyncRead IoError S] [Counters S] {room : ReadBuf → Prop} {start σ : Session T S}
    {evs : List Event} (hrun : Session.Run H room start evs σ) : σ.reader.limits = start.reader.limits := by
  induction hrun with
  | start => rfl
  | step hrun hs ih =>
    cases hs with
    | next r polls => exact (Reader.nextEntry_kept r polls).1.trans ih
    | read r entry buf hb => exact (Reader.pollBody_kept r entry buf).1.trans ih
    | drop r entry => exact ih

theorem limits_of_validating {S : Type} [AsyncRead IoError S] [Counters S] (polls calls entries : Nat) (r : Reader T S) :
    (r.validating H polls calls entries).last.reader.limits = r.limits := by
  induction polls generalizing calls entries r with
  | zero => rfl
  | succ polls ih =>
    have hk := (Reader.nextEntry_kept (H := H) r polls).1
    rw [Reader.validating]
    generalize r.nextEntry H polls = p at hk
    rcases p with ⟨res, r'⟩
    cases res with
    | cancelled => exact hk
    | done res =>
      cases res with
      | error e => exact hk
      | ok o =>
        cases o with
        | none => exact hk
        | some entry =>
          have hc := (copying_kept polls r' entry).2.2.2.1
          dsimp only
          generalize r'.copying polls entry = q at hc
          rcases q with ⟨res, σ⟩
          cases res with
          | cancelled => exact hc.trans hk
          | done res =>
            cases res with
            | error e => exact hc.trans hk
            | ok => exact (ih (calls + 1) (entries + 1) σ.reader).trans (hc.trans hk)

theorem failed_of_validating {fr : T.Frames F} (hon : fr.Honest) {S : Type} [AsyncRead IoError S] [Counters S]
    {W : Watch IoError S} {source : S} {limits : SecurityLimits} {r : Reader T S} (hsource : W.Intact source)
    (hstart : Reader.start T source limits = .ok r) {polls : Nat} {e : Error}
    (he : (r.validating H polls 0 0).result = .done (.error e)) :
    Failed W (r.validating H polls 0 0).last e ∧ (r.validating H polls 0 0).last.reader.limits = limits := by
  have hun : Unbroken fr W ⟨r, none⟩ := unbroken_start hsource hstart
  have hlimits := limits_of_validating (H := H) polls 0 0 r
  obtain ⟨parser, rfl⟩ := Reader.start_ok hstart
  exact ⟨validating_watch hon polls 0 0 rfl rfl rfl rfl (hun.steady rfl) he, hlimits⟩

/-- The first error of a run keeps its cause: met by `next_entry` after any calls and reads
that went well, or by `validate`, where a body that broke its bound is told as well, or while
the reader is opened. -/
theorem failures_keep_their_cause (fr : T.Frames F) (hon : fr.Honest) (hdec : dec.HandsOn) (hquiet : Quiet R)
    (source : R) (limits : SecurityLimits) (polls : Nat) :
    (∀ (r : Piped T H dec) (room : ReadBuf → Prop) (evs : List Event) (σ : Session T _) (n : Nat) (e : Error),
      Reader.open T dec polls (.new source) limits = .done (.ok r) →
      Session.Run H room ⟨r, none⟩ evs σ → (∀ ev ∈ evs, ¬ ev.Bad) →
      (σ.reader.nextEntry H n).1 = .done (.error e) → Piped.Told (σ.reader.nextEntry H n).2 e) ∧
    (∀ e, Reader.validate H T dec polls (.new source) limits = .done (.error e) →
      Unopened source polls e ∨
      ∃ r : Piped T H dec, Reader.open T dec polls (.new source) limits = .done (.ok r) ∧
        let σ := (r.validating H polls 0 0).last
        Piped.Told σ.reader e ∧
          ((∃ entry, σ.entry = some entry ∧ entry.body.failed = true) → e = .limitExceeded "max_entry_bytes")) := by
  have hopen := open_watch (H := H) fr hdec hquiet polls source limits
  constructor
  · intro r room evs σ n e hr hrun hgood he
    rw [hr] at hopen
    obtain ⟨hstart, hin⟩ := hopen
    refine told_traced (first_error hon hin hstart hrun hgood he) ?_
    obtain ⟨parser, hr'⟩ := Reader.start_ok hstart
    rw [(Reader.nextEntry_kept σ.reader n).1, limits_of_run hrun]
    show r.limits.maxTotalBytes.toNat = _
    rw [hr']
  · intro e he
    unfold Reader.validate at he
    cases hr : Reader.open (H := H) T dec polls (Logged.new source) limits with
    | cancelled =>
      rw [hr] at he
      cases he
    | done res =>
      rw [hr] at he hopen
      cases res with
      | error e' =>
        cases he
        exact Or.inl hopen
      | ok r =>
        obtain ⟨hstart, hin⟩ := hopen
        refine Or.inr ⟨r, rfl, ?_⟩
        simp only [Reader.validating_eq H polls 0 0] at he
        obtain ⟨hfail, hlimits⟩ := failed_of_validating hon hin hstart he
        generalize r.validating H polls 0 0 = v at hfail hlimits
        have hmax : v.last.reader.limits.maxTotalBytes.toNat = limits.maxTotalBytes.toNat := by rw [hlimits]
        rcases hfail with ⟨hnone, htraced⟩ | ⟨entry, io, hentry, rfl, ⟨hfrom, hok⟩ | ⟨hintact, -, rfl⟩⟩
        · refine ⟨told_traced htraced hmax, ?_⟩
          rintro ⟨entry, hentry, -⟩
          rw [hnone] at hentry
          cases hentry
        · refine ⟨told_traced (Or.inl ⟨io, rfl, hfrom⟩) hmax, ?_⟩
          rintro ⟨entry', hentry', hbad⟩
          obtain rfl := Option.some.inj (hentry.symm.trans hentry')
          rw [hok] at hbad
          cases hbad
        · have hreport : v.last.reader.report (capError "max_entry_bytes") = .limitExceeded "max_entry_bytes" := by
            rw [Reader.report, readError_within]
            · rfl
            · rw [hmax]
              exact (intact_marks hintact).2.2.2.2.2
          dsimp only
          rw [hreport]
          exact ⟨told_refusal hintact (Or.inr (Or.inr rfl)), fun _ => rfl⟩

/-- A source that fails inside the first header, with an error that wraps one of the crate's. -/
theorem failures_keep_their_cause_sample :
    let fault : IoError := .custom .timedOut (.limitExceeded "max_total_bytes")
    let source : Script IoError := ⟨Gnu.plain, [.give 3, .give 7, .fail fault]⟩
    ∃ r : Piped Gnu.tar gnuFields (RawZstd.decoder (Replay (Logged IoError (Script IoError)))),
      Reader.open Gnu.tar _ 9 (.new source) .default = .done (.ok r) ∧
        Piped.Told (r.nextEntry gnuFields 9).2 (.io (boxed fault)) :=
  ⟨_, rfl, (failures_keep_their_cause Gnu.frames Gnu.honest RawZstd.handsOn Script.quiet
    (⟨Gnu.plain, [.give 3, .give 7, .fail (.custom .timedOut (.limitExceeded "max_total_bytes"))]⟩ : Script IoError)
    .default 9).1 _ (fun _ => True) [] ⟨_, none⟩ 9 _ rfl .start (by simp) rfl⟩

end Etar
