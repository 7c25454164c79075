import Etar.Cause
import Etar.Exact
import Etar.Tally

/-!
# The verdict depends on the bytes

Over a cap the verdict on a stream is a function of the stream, up to the two bounds the cap
keeps: a cap that breaks one says so, and how far it has charged by then is up to the reads.
-/
namespace Etar

open AsyncIo Limit Guard Compress Scan
open Guard.HeaderGuard (Sharp Spoilt sharp)

section Caps

variable {D : Type} [AsyncRead IoError D] {count : D → Nat} {K : Feed IoError D}

/-- A charged cap that fails has charged no more than the stream; it broke a bound, or hands on
the last answer of the feed below. -/
theorem Limit.Cap.charging_fault (hK : K.Faultless) {n : Nat} (hn : n < 2 ^ 64) {max : Nat} {c : Cap count}
    {s : List UInt8} {stop : Option IoError} {buf : ReadBuf} {e : IoError}
    (h : (Cap.charging K hn max : Feed IoError (Cap count)).Owes c s stop) (hb : 0 < buf.remaining)
    (ho : (pollRead c buf).outcome = .ready (.error e)) :
    (pollRead c buf).reader.total ≤ n ∧
      ((pollRead c buf).reader.failed = true ∨ stop = some e ∧ buf.added (pollRead c buf).buf = s) := by
  constructor
  · rcases (Cap.charging K hn max).fault h hb ho with ⟨-, h'⟩ | ⟨-, hs⟩
    · exact h'.2.le
    · rw [← hs, ← List.append_nil (buf.added _)] at h
      exact (h.2.poll hn hb h.1).le
  · simp only [pollRead] at ho ⊢
    cases hc : c.failed with
    | true =>
      rw [Cap.poll_failed hc]
      exact Or.inl hc
    | false =>
      rcases Cap.poll_any hc buf with ⟨e', c', hp, hf⟩ | ⟨total, hp⟩
      · rw [hp]
        exact Or.inl hf
      · rw [hp] at ho ⊢
        exact Or.inr (hK.fault (h.1.resolve_left (by simp [hc])) hb ho)

variable {H : HeaderFields}

open Classical in
variable (H) in
/-- Whether the guard fails with the last byte it lets through. -/
noncomputable def spoils (limits : SecurityLimits) (bytes : List UInt8) : Bool :=
  decide (∃ used s' e, bytes = used ++ s' ∧ used ≠ [] ∧
    ∀ t, scan H limits.maxMetadataBytes.toNat none (used ++ t) = ⟨used.length, some e⟩)

open Classical in
theorem spoils_iff {limits : SecurityLimits} {bytes : List UInt8} :
    spoils H limits bytes = true ↔ ∃ used s' e, bytes = used ++ s' ∧ used ≠ [] ∧
      ∀ t, scan H limits.maxMetadataBytes.toNat none (used ++ t) = ⟨used.length, some e⟩ := decide_eq_true_iff

omit [AsyncRead IoError D] in
theorem spoilt_stack {limits : SecurityLimits} {d : D} {bytes : List UInt8} :
    Spoilt (stack d limits : Source H count) bytes ↔ spoils H limits bytes = true := by
  rw [spoils_iff]
  unfold Spoilt
  simp only [stack, HeaderGuard.held_new, HeaderGuard.ahead_new, List.nil_append]

/-- What is read of a decoded stream, by its records. -/
noncomputable def lines (F : TarFormat H) (limits : SecurityLimits) (bytes : List UInt8) : Outline :=
  (Phase.header F.start []).walk F
    (heard (spoils H limits bytes) (bytes.take (scan H limits.maxMetadataBytes.toNat none bytes).passed))

/-- What a whole validation makes of the decoded stream that ends with `stop`. -/
noncomputable def judge (F : TarFormat H) (limits : SecurityLimits) (bytes : List UInt8) (stop : Option IoError) :
    Except Error Nat :=
  verdict H limits ((guardStop H limits bytes).or stop) (lines F limits bytes).stop (lines F limits bytes).items 0

/-- A spoilt stream is read but for its last byte. -/
theorem whole_lines (F : TarFormat H) {limits : SecurityLimits} {bytes : List UInt8}
    (h : spoils H limits bytes = true) : Whole (lines F limits bytes) := by
  obtain ⟨used, s', e, rfl, -, hs⟩ := spoils_iff.mp h
  unfold lines heard
  rw [h, hs s']
  simp only [if_true, List.take_left]
  have hused := hs []
  rw [List.append_nil] at hused
  exact whole_of_spoilt F.paxSize_start hused

/-- The two bounds of the cap as errors, and the `total` that may break them: more than the one, and
for the ratio more than the floor. -/
def Breach (max total : Nat) (e : Error) : Prop :=
  max < total ∧ e = .limitExceeded "max_total_bytes" ∨
    ratioFloorBytes < total ∧ e = .limitExceeded "max_compression_ratio"

theorem Breach.mono {max total total' : Nat} {e : Error} (h : Breach max total e) (hle : total ≤ total') :
    Breach max total' e :=
  h.imp (And.imp_left (·.trans_le hle)) (And.imp_left (·.trans_le hle))

section Blames

variable {T : Tar} {F : TarFormat H} {fr : T.Frames F} {limits : SecurityLimits} {r : Reader T (Source H count)}

/-- What an error leaves of the cap: it has not failed, and charged no more than the total, or
the error tells which bound it broke. -/
def Accused (r : Reader T (Source H count)) (e : Error) : Prop :=
  r.source.inner.failed = false ∧ r.decodedBytes ≤ r.limits.maxTotalBytes.toNat ∨
    Breach r.limits.maxTotalBytes.toNat r.decodedBytes e

abbrev boundsWatch (H : HeaderFields) (count : D → Nat) (limits : SecurityLimits) : Watch IoError (Source H count) :=
  HeaderGuard.watch (Cap.bounds limits.maxTotalBytes.toNat)

theorem accused_intact (hl : r.limits = limits) (h : (boundsWatch H count limits).Intact r.source) (e : Error) :
    Accused r e := by
  obtain ⟨-, hf, -, hle⟩ := h
  rw [← hl] at hle
  exact Or.inl ⟨hf, hle⟩

theorem accused_blamed (hl : r.limits = limits) {io : IoError} (h : (boundsWatch H count limits).Blamed r.source io) :
    Accused r (r.report io) := by
  subst hl
  rcases h with ⟨-, hmax, ⟨hf, hle⟩ | ⟨which, htrip, rfl, hfloor⟩⟩ | ⟨⟨hf, -, hle⟩, -⟩
  · exact Or.inl ⟨hf, hle⟩
  · rw [report_tripped htrip hmax]
    obtain ⟨-, ⟨hlt, rfl⟩ | ⟨hle, rfl⟩⟩ := htrip
    · rw [hmax] at hlt
      exact Or.inr (Or.inl ⟨hlt, rfl⟩)
    · rw [hmax] at hle
      exact Or.inr (Or.inr ⟨hfloor hle, rfl⟩)
  · exact Or.inl ⟨hf, hle⟩

theorem accused_traced (hl : r.limits = limits) {e : Error} (h : Traced (boundsWatch H count limits) r e) :
    Accused r e := by
  rcases h with ⟨io, rfl, hblamed | ⟨hin, -⟩⟩ | ⟨hin, -⟩
  · exact accused_blamed hl hblamed
  · exact accused_intact hl hin _
  · exact accused_intact hl hin e

theorem accused_failed {σ : Session T (Source H count)} (hl : σ.reader.limits = limits) {e : Error}
    (h : Failed (boundsWatch H count limits) σ e) : Accused σ.reader e := by
  rcases h with ⟨-, htraced⟩ | ⟨entry, io, -, rfl, ⟨hfrom, -⟩ | ⟨hin, -⟩⟩
  · exact accused_traced hl htraced
  · exact accused_traced hl (Or.inl ⟨io, rfl, hfrom⟩)
  · exact accused_intact hl hin _

theorem intact_stack (d : D) (limits : SecurityLimits) : (boundsWatch H count limits).Intact (stack d limits) :=
  ⟨⟨Nat.zero_le _, nofun⟩, rfl, rfl, Nat.zero_le _⟩

end Blames

section Readers

variable {T : Tar} {F : TarFormat H} (fr : T.Frames F) (hon : fr.Honest) (hK : K.Faultless)
variable {d : D} {limits : SecurityLimits} {bytes : List UInt8} {stop : Option IoError}
variable (hhushed : K.Hushed stop) (howes : K.Owes d bytes stop) (hn : bytes.length < 2 ^ 64)

/-- The guard over the charged cap, its streams spoilt as `bytes` are. -/
noncomputable abbrev sharpFeed (H : HeaderFields) (K : Feed IoError D) (count : D → Nat) {bytes : List UInt8}
    (hn : bytes.length < 2 ^ 64) (limits : SecurityLimits) : Feed IoError (Source H count) :=
  sharp (Cap.charging K hn limits.maxTotalBytes.toNat) (spoils H limits bytes)

include hK in
theorem sharp_stack : Sharp (sharpFeed H K count hn limits) stop (spoils H limits bytes)
    (fun g => g.inner.total ≤ bytes.length) (fun g => g.inner.failed = true) :=
  HeaderGuard.sharp_sharp (F := Cap.charging K hn limits.maxTotalBytes.toNat) (fun c => c.total ≤ bytes.length)
    (fun c => c.failed = true) (fun h => h.2.le) (Cap.charging_fault hK hn)

include hhushed howes in
/-- What the guard owes of a decoded stream. -/
theorem owes_sharp : (sharpFeed H K count hn limits).Owes (stack d limits)
    (bytes.take (scan H limits.maxMetadataBytes.toNat none bytes).passed) ((guardStop H limits bytes).or stop) := by
  refine ⟨bytes, stop, ⟨HeaderGuard.inv_new _ _, Cap.owes_charging howes hn _ _, Cap.hushed_charging hhushed hn _⟩,
    spoilt_stack, ?_, ?_⟩
  · simp only [stack, HeaderGuard.held_new, HeaderGuard.ahead_new, List.nil_append]
  · simp only [stack, HeaderGuard.ahead_new]
    rfl

/-- What a validation answers, as the stream has it: the verdict on it, or a bound of the cap. -/
def Judged (F : TarFormat H) (limits : SecurityLimits) (bytes : List UInt8) (stop : Option IoError) :
    Except Error Nat → Prop
  | .ok entries => judge F limits bytes stop = .ok entries
  | .error e => judge F limits bytes stop = .error e ∨ Breach limits.maxTotalBytes.toNat bytes.length e

include fr hon hK hhushed howes hn in
theorem validation_judged {r : Reader T (Source H count)} (hstart : Reader.over T d limits = .ok r) {polls : Nat}
    {res : Except Error ValidationReport} (hres : (r.validating H polls 0 0).result = .done res) :
    Judged F limits bytes stop (res.map ValidationReport.entries) := by
  obtain ⟨hst, hseen, hlimits⟩ := stands_start fr (I := Ahead F (spoils H limits bytes) ((lines F limits bytes).after 0))
    (owes_sharp hhushed howes hn : (sharpFeed H K count hn limits).Owes _ _ _) hstart fun _ => rfl
  have hears : Hears fr (sharpFeed H K count hn limits) ((guardStop H limits bytes).or stop) (spoils H limits bytes)
      (lines F limits bytes) r (bytes.take (scan H limits.maxMetadataBytes.toNat none bytes).passed) := by
    unfold Hears
    rw [hseen]
    exact hst
  have hv := validating_exact (H := H) (sharp_stack hK hn) (whole_lines F) hon polls 0 hears
  rw [hseen, hlimits] at hv
  dsimp only at hv
  rw [hres] at hv
  cases res with
  | ok report => exact hv
  | error e =>
    obtain ⟨hfail, hl⟩ := failed_of_validating hon (intact_stack d limits) hstart hres
    obtain ⟨hle, hwhy⟩ := hv
    rcases accused_failed hl hfail with ⟨hf, hmax⟩ | hbreach
    · rcases hwhy with hout | hv
      · rw [hf] at hout
        cases hout
      · exact Or.inl (hv hmax)
    · rw [hl] at hbreach
      exact Or.inr (hbreach.mono hle)

end Readers

end Caps

section Validations

variable {T : Tar} {H : HeaderFields} {F : TarFormat H} {decode : List UInt8 → List UInt8 × Option IoError}

/-- A source that never fails opens. -/
theorem open_error {R : Type} [AsyncRead IoError R] {dec : Decoder (Replay R)} {S : Feed IoError R} (fr : T.Frames F)
    (hS : S.Faultless) {source : R} {z : List UInt8} (howes : S.Owes source z none) {limits : SecurityLimits}
    {polls : Nat} {e : Error} : Reader.open (H := H) T dec polls source limits ≠ .done (.error e) := by
  obtain ⟨parser, hp, -⟩ := fr.opens
  unfold Reader.open Reader.over Reader.start
  rw [hp]
  split
  · simp
  · rename_i e' he
    have howes' : (Meter.feed S).Owes (.new source) z none := ⟨none, rfl, howes⟩
    exact absurd he (decoded_ok (Meter.faultless hS) howes')
  · simp

/-- What a validation of an encoded source answers: what the decoded bytes decide, and their
number, or a bound of the cap. -/
theorem validate_judged {R : Type} [AsyncRead IoError R] {dec : Decoder (Replay R)} {S : Feed IoError R}
    (fr : T.Frames F) (hon : fr.Honest) (hC : dec.Computes decode S) (hend : dec.ReadsToEnd) (hS : S.Faultless)
    {source : R} {z : List UInt8} (howes : S.Owes source z none) (hz : z.length < 2 ^ 64)
    (hD : (contents decode z).1.length < 2 ^ 64) {limits : SecurityLimits} {polls : Nat}
    {res : Except Error ValidationReport} (hres : Reader.validate H T dec polls source limits = .done res) :
    Judged F limits (contents decode z).1 (contents decode z).2 (res.map ValidationReport.entries) ∧
    ∀ report, res = .ok report → report.encodedBytes = z.length ∧
      report.decodedBytes = (contents decode z).1.length ∧
      (contents decode z).1.length ≤ limits.maxTotalBytes.toNat := by
  rcases validate_done hres with ⟨e, -, he⟩ | ⟨r, hr, hres⟩
  · exact absurd he (open_error fr hS howes)
  · constructor
    · obtain ⟨d, hd, hstart⟩ := open_ok hr
      obtain ⟨b, hb⟩ := sniffed hd
      exact validation_judged fr hon (Decoded.faultless (replayFeed_faultless hS) (hC.faultless hS))
        (hC.hushed_decoded _) ((hb (G := Meter.feed S) ⟨none, rfl, howes⟩).decodes hC) hD hstart hres
    · rintro report rfl
      obtain ⟨-, hacc⟩ := accounts_of_validating fr hC hend howes hz rfl hD hr hres
      exact ⟨hacc.encoded, hacc.decoded, hacc.decoded ▸ hacc.within⟩

/-- Answers over `n` decoded bytes that differ by the bounds of the cap at most. -/
def Agree (max n : Nat) : Except Error ValidationReport → Except Error ValidationReport → Prop
  | .ok report, .ok report' => report = report'
  | .ok _, .error e => e = .limitExceeded "max_compression_ratio"
  | .error e, .ok _ => e = .limitExceeded "max_compression_ratio"
  | .error e, .error e' => e = e' ∨ Breach max n e ∨ Breach max n e'

variable {R R' : Type} [AsyncRead IoError R] [AsyncRead IoError R'] {dec : Decoder (Replay R)} {dec' : Decoder (Replay R')}
variable {S : Feed IoError R} {S' : Feed IoError R'}

/-- However the encoded bytes arrive, two validations answer alike: with the same report, or the
same error, unless one of them broke the ratio, or both failed and one of them broke the total,
which fewer decoded bytes than there are may do. -/
theorem validations_agree (fr : T.Frames F) (hon : fr.Honest) (hC : dec.Computes decode S) (hC' : dec'.Computes decode S')
    (hend : dec.ReadsToEnd) (hend' : dec'.ReadsToEnd) (hS : S.Faultless) (hS' : S'.Faultless) {source : R} {source' : R'}
    {z : List UInt8} (howes : S.Owes source z none) (howes' : S'.Owes source' z none) (hz : z.length < 2 ^ 64)
    (hD : (contents decode z).1.length < 2 ^ 64) (limits : SecurityLimits) {polls polls' : Nat}
    {res res' : Except Error ValidationReport} (hres : Reader.validate H T dec polls source limits = .done res)
    (hres' : Reader.validate H T dec' polls' source' limits = .done res') :
    Agree limits.maxTotalBytes.toNat (contents decode z).1.length res res' := by
  obtain ⟨hv, hok⟩ := validate_judged fr hon hC hend hS howes hz hD hres
  obtain ⟨hv', hok'⟩ := validate_judged fr hon hC' hend' hS' howes' hz hD hres'
  cases res with
  | ok report =>
    obtain ⟨hencoded, hdecoded, hmax⟩ := hok report rfl
    cases res' with
    | ok report' =>
      obtain ⟨hencoded', hdecoded', -⟩ := hok' report' rfl
      have hentries : report.entries = report'.entries := Except.ok.inj (hv.symm.trans hv')
      cases report
      cases report'
      simp only at hencoded hdecoded hencoded' hdecoded' hentries
      rw [hencoded, hdecoded, hencoded', hdecoded', hentries]
      rfl
    | error e' =>
      rcases hv' with hv' | ⟨hlt, -⟩ | ⟨-, he⟩
      · cases hv.symm.trans hv'
      · exact absurd hlt (Nat.not_lt.mpr hmax)
      · exact he
  | error e =>
    cases res' with
    | ok report' =>
      obtain ⟨-, -, hmax⟩ := hok' report' rfl
      rcases hv with hv | ⟨hlt, -⟩ | ⟨-, he⟩
      · cases hv.symm.trans hv'
      · exact absurd hlt (Nat.not_lt.mpr hmax)
      · exact he
    | error e' =>
      rcases hv with hv | hbreach
      · rcases hv' with hv' | hbreach'
        · exact Or.inl (Except.error.inj (hv.symm.trans hv'))
        · exact Or.inr (Or.inr hbreach')
      · exact Or.inr (Or.inl hbreach)

/-- An archive that ends with a byte that should be zero, and a total in the middle of its end. -/
def Gnu.trailed : List UInt8 := plainRecords ++ (Block.zero.bytes ++ 1 :: List.replicate 511 0)

/-- Read up to the odd byte first the archive is malformed; read at once it is too large. -/
theorem validations_agree_not_always :
    let limits := { SecurityLimits.default with maxTotalBytes := 1100 }
    let dec : Decoder (Replay (Script IoError)) := RawZstd.decoder (Replay (Script IoError))
    let parts : Script IoError := ⟨Gnu.trailed, [.give 4, .give 1021]⟩
    let whole : Script IoError := ⟨Gnu.trailed, []⟩
    Script.steadyFeed.Owes parts Gnu.trailed none ∧ Script.steadyFeed.Owes whole Gnu.trailed none ∧
      Reader.validate gnuFields Gnu.tar dec 40 parts limits = .done (.error .malformed) ∧
      Reader.validate gnuFields Gnu.tar dec 40 whole limits = .done (.error (.limitExceeded "max_total_bytes")) := by
  refine ⟨⟨⟨rfl, rfl⟩, ?_⟩, ⟨⟨rfl, rfl⟩, nofun⟩, ?_, ?_⟩
  · intro e he
    simp at he
  · decide +kernel
  · decide +kernel

/-- In parts or at once, an archive of one directory is worth the same report. -/
theorem validations_agree_sample : ∃ report report',
    Reader.validate gnuFields Gnu.tar (RawZstd.decoder (Replay (Script IoError))) 40
      ⟨Gnu.plain, [.give 4, .late, .give 1021]⟩ .default = .done (.ok report) ∧
    Reader.validate gnuFields Gnu.tar (RawZstd.decoder (Replay (Script IoError))) 40
      ⟨Gnu.plain, []⟩ .default = .done (.ok report') ∧ report = report' := by
  have hparts : Reader.validate gnuFields Gnu.tar (RawZstd.decoder (Replay (Script IoError))) 40
      ⟨Gnu.plain, [.give 4, .late, .give 1021]⟩ .default = .done (.ok ⟨1, 1536, 1536⟩) := by decide +kernel
  have hwhole : Reader.validate gnuFields Gnu.tar (RawZstd.decoder (Replay (Script IoError))) 40
      ⟨Gnu.plain, []⟩ .default = .done (.ok ⟨1, 1536, 1536⟩) := by decide +kernel
  have howes : Script.steadyFeed.Owes (⟨Gnu.plain, [.give 4, .late, .give 1021]⟩ : Script IoError) Gnu.plain none :=
    ⟨⟨rfl, rfl⟩, fun e he => by simp at he⟩
  have howes' : Script.steadyFeed.Owes (⟨Gnu.plain, []⟩ : Script IoError) Gnu.plain none := ⟨⟨rfl, rfl⟩, nofun⟩
  have hlen : Gnu.plain.length < 2 ^ 64 := by decide +kernel
  have hcontents : contents RawZstd.unpack Gnu.plain = (Gnu.plain, none) := by
    have hmagic : ¬ zstdMagic <+: Gnu.plain := by decide +kernel
    rw [contents, if_neg hmagic]
  have hlen' : (contents RawZstd.unpack Gnu.plain).1.length < 2 ^ 64 := by rwa [hcontents]
  exact ⟨_, _, hparts, hwhole, validations_agree Gnu.frames Gnu.honest (RawZstd.computes Script.steadyFeed)
    (RawZstd.computes Script.steadyFeed) RawZstd.reads_to_end RawZstd.reads_to_end Script.steady_faultless
    Script.steady_faultless howes howes' hlen hlen' .default hparts hwhole⟩

end Validations

end Etar
