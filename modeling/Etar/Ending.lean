import Etar.Looser
import Etar.ReadBack
import Etar.Verdict

/-!
# Every call ends

Over a fair source no call goes on for ever, whatever the bytes and the limits are: a tripped
limit only ends it earlier than the same reader ends without a bound on the decoded bytes.
Validation is then total, and answers with the verdict on the decoded stream.
-/
namespace Etar

open AsyncIo Limit Compress Guard

/-- No bound on the decoded bytes, and none on their ratio. -/
def SecurityLimits.unbounded (limits : SecurityLimits) : SecurityLimits :=
  (limits.withMaxTotalBytes 0xFFFFFFFFFFFFFFFF).withMaxCompressionRatio 0xFFFFFFFFFFFFFFFF

theorem SecurityLimits.le_unbounded (limits : SecurityLimits) : limits ≤ limits.unbounded :=
  { limits.le_refl with
    totalBytes := Nat.le_sub_one_of_lt limits.maxTotalBytes.toNat_lt
    compressionRatio := Nat.le_sub_one_of_lt limits.maxCompressionRatio.toNat_lt }

namespace Limit.Cap

variable {R : Type} [AsyncRead IoError R] {count : R → Nat}

/-- A cap whose bounds are out of reach of the bytes `s` to come. -/
structure Unbounded (c : Cap count) (s : List UInt8) : Prop where
  failed : c.failed = false
  max_eq : c.max = u64Max
  ratio_eq : c.maxRatio = u64Max
  room : c.total + s.length ≤ u64Max

/-- A poll of it is a poll of its inner reader. -/
theorem Unbounded.poll {c : Cap count} {s : List UInt8} (h : c.Unbounded s) {b : ReadBuf}
    (hle : (b.added (pollRead c.inner b).buf).length ≤ s.length) :
    pollRead c b = ⟨(pollRead c.inner b).outcome, (pollRead c.inner b).buf, { c with
      inner := (pollRead c.inner b).reader
      total := c.total + (b.added (pollRead c.inner b).buf).length }⟩ := by
  have hroom := h.room
  have hmax : u64Max < 2 ^ 64 := by decide
  refine poll_within h.failed (by omega) fun _ => broken_eq_none.mpr ⟨?_, fun _ hpos => ?_⟩
  · rw [h.max_eq]
    omega
  · rw [h.ratio_eq, saturatingMul]
    have := Nat.le_mul_of_pos_left u64Max hpos
    omega

/-- What it leaves when `s'` is still to come. -/
theorem Unbounded.polled {c : Cap count} {s s' : List UInt8} (h : c.Unbounded s) {b : ReadBuf}
    (hs : s = b.added (pollRead c.inner b).buf ++ s') :
    Unbounded ({ c with
      inner := (pollRead c.inner b).reader
      total := c.total + (b.added (pollRead c.inner b).buf).length } : Cap count) s' := by
  have hroom := h.room
  rw [hs, List.length_append] at hroom
  exact ⟨h.failed, h.max_eq, h.ratio_eq, by dsimp only; omega⟩

/-- Such a cap over a feed is that feed. -/
def unbounded (D : Feed IoError R) : Feed IoError (Cap count) where
  Owes c s stop := D.Owes c.inner s stop ∧ c.Unbounded s
  pending {c s stop b} hc hb ho := by
    rw [hc.2.poll (D.added_le hc.1 hb)] at ho ⊢
    obtain ⟨hbuf, hr'⟩ := D.pending hc.1 hb ho
    have hnil : b.added (pollRead c.inner b).buf = [] := by rw [hbuf, ReadBuf.added_self]
    exact ⟨hbuf, hr', hc.2.polled (by rw [hnil]; rfl)⟩
  chunk {c s stop b} hc hb ho := by
    rw [hc.2.poll (D.added_le hc.1 hb)] at ho ⊢
    obtain ⟨s', hs, hr', hend⟩ := D.chunk hc.1 hb ho
    exact ⟨s', hs, ⟨hr', hc.2.polled hs⟩, hend⟩
  fault {c s stop b e} hc hb ho := by
    rw [hc.2.poll (D.added_le hc.1 hb)] at ho ⊢
    apply (D.fault hc.1 hb ho).imp_left
    rintro ⟨hbuf, hr'⟩
    have hnil : b.added (pollRead c.inner b).buf = [] := by rw [hbuf, ReadBuf.added_self]
    exact ⟨hbuf, hr', hc.2.polled (by rw [hnil]; rfl)⟩

variable {D : Feed IoError R}

def unbounded_fair (P : D.Fair) : (unbounded D : Feed IoError (Cap count)).Fair where
  delay c := P.delay c.inner
  pending hc hb ho := by
    rw [hc.2.poll (D.added_le hc.1 hb)] at ho ⊢
    exact P.pending hc.1 hb ho
  chunk hc hb ho := by
    rw [hc.2.poll (D.added_le hc.1 hb)] at ho ⊢
    exact P.chunk hc.1 hb ho
  fault hc hb ho := by
    rw [hc.2.poll (D.added_le hc.1 hb)] at ho ⊢
    exact P.fault hc.1 hb ho

theorem unbounded_hushed {stop : Option IoError} (hD : D.Hushed stop) :
    (unbounded D : Feed IoError (Cap count)).Hushed stop := by
  intro c s b e hc hb ho
  rw [hc.2.poll (D.added_le hc.1 hb)] at ho ⊢
  exact hD hc.1 hb ho

theorem owes_unbounded {r : R} {s : List UInt8} {stop : Option IoError} (h : D.Owes r s stop)
    (hs : s.length < 2 ^ 64) : (unbounded D : Feed IoError (Cap count)).Owes (.new r u64Max u64Max) s stop :=
  ⟨h, rfl, rfl, rfl, by rw [Cap.new, Nat.zero_add]; exact Nat.le_sub_one_of_lt hs⟩

end Limit.Cap

section Readers

variable {T : Tar} {H : HeaderFields} {F : TarFormat H} (fr : T.Frames F) (hT : T.Reports)
variable {D : Type} [AsyncRead IoError D] {count : D → Nat} {K : Feed IoError D} (P : K.Fair)
variable {d : D} {bytes : List UInt8} {stop : Option IoError} (hhushed : K.Hushed stop) (howes : K.Owes d bytes stop)
variable (hn : bytes.length < 2 ^ 64) {limits : SecurityLimits} {r : Reader T (Source H count)}
variable (hstart : Reader.over T d limits = .ok r) {room : ReadBuf → Prop}

/-- The feed of a stack without bounds. -/
abbrev unboundedFeed (H : HeaderFields) (K : Feed IoError D) (count : D → Nat) : Feed IoError (Source H count) :=
  HeaderGuard.feed (Cap.unbounded K)

include hhushed howes hn in
/-- A session of a reader without bounds follows the outline of its stream. -/
theorem follows_unbounded (hstart : Reader.over T d limits.unbounded = .ok r) {evs : List Event}
    {σ : Session T (Source H count)} (hrun : Session.Run H room ⟨r, none⟩ evs σ) :
    Lifecycle evs σ ∧ Follows H fr (unboundedFeed H K count) ((guardStop H limits.unbounded bytes).or stop)
      (outline F limits.unbounded bytes) limits.unbounded evs σ :=
  follows_of_run idle_guard (owes_stack_to (Cap.unbounded_hushed hhushed) (Cap.owes_unbounded howes hn)) hstart hrun

include fr hT P hhushed howes hn hstart in
/-- A validation that is given enough polls ends. -/
theorem validation_ends : ∃ N, ∀ polls, N ≤ polls → ∃ res, r.validateFrom H polls 0 = .done res := by
  obtain ⟨r', hstart', hlooser, -⟩ := over_looser limits.le_unbounded hstart
  have hnone : Session.Run H (fun _ => True) ⟨r', none⟩ [] ⟨r', none⟩ := .start
  obtain ⟨s, hon, -⟩ := (follows_unbounded (H := H) fr hhushed howes hn hstart' hnone).2.live
    (start_fields hstart').2.2.1 (start_fields hstart').2.2.2
  have PG : (unboundedFeed H K count).Fair := HeaderGuard.fair (Cap.unbounded_fair P)
  refine ⟨PG.delay r'.source + s.length + ((outline F limits.unbounded bytes).items.length - r'.seen) + 3,
    fun polls hN => ?_⟩
  cases hres : r.validateFrom H polls 0 with
  | done res => exact ⟨res, rfl⟩
  | cancelled =>
    have hsame := Reader.validateFrom_lockstep (H := H) hT stacked_lockstep stacked_counters polls 0 hlooser
      (by simp [hres])
    rw [hres, Reader.validating_eq H polls 0 0 r'] at hsame
    have hv := (validated (H := H) polls 0 0 hon).2
    rw [hsame] at hv
    have := hv PG
    dsimp only at this
    omega

include fr hT hhushed howes hn hstart in
/-- A session that went well so far goes as well without bounds, where it follows its stream. -/
theorem looser_session {evs : List Event} {σ : Session T (Source H count)}
    (hrun : Session.Run H room ⟨r, none⟩ evs σ) (hf : σ.reader.bodyFailed = false) :
    ∃ σ', Session.Looser (Stacked H count) limits.unbounded σ σ' ∧
      Lifecycle (evs.map (Event.widened limits.unbounded)) σ' ∧
      Follows H fr (unboundedFeed H K count) ((guardStop H limits.unbounded bytes).or stop)
        (outline F limits.unbounded bytes) limits.unbounded (evs.map (Event.widened limits.unbounded)) σ' := by
  obtain ⟨r', hstart', hlooser, hlimits⟩ := over_looser limits.le_unbounded hstart
  have hbegin : Session.Looser (Stacked H count) limits.unbounded ⟨r, none⟩ ⟨r', none⟩ :=
    ⟨hlooser, hlimits, (fun e h => by cases h), fun _ => rfl⟩
  have hlife := Lifecycle.of_run hstart hrun
  have hgood : ∀ ev ∈ evs, ev.fails = false := by
    intro ev hev
    apply Event.fails_of_good
    intro hbad
    rw [hlife.poisoned.mpr ⟨ev, hev, hbad⟩] at hf
    cases hf
  obtain ⟨σ', hrun', hlooser'⟩ := hbegin.run hT stacked_lockstep hrun hgood
  obtain ⟨hlife', hfollows⟩ := follows_unbounded (H := H) fr hhushed howes hn hstart' hrun'
  exact ⟨σ', hlooser', hlife', hfollows⟩

include fr hT P hhushed howes hn hstart in
theorem calls_end {evs : List Event} {σ : Session T (Source H count)} (hrun : Session.Run H room ⟨r, none⟩ evs σ) :
    (∃ N, ∀ polls, N ≤ polls → (σ.reader.nextEntry H polls).1 ≠ .cancelled) ∧
    (σ.reader.bodyFailed = false → ∀ e, σ.entry = some e →
      ∃ N, ∀ polls, N ≤ polls → (σ.reader.copyBody polls e).1 ≠ .cancelled) := by
  have PG : (unboundedFeed H K count).Fair := HeaderGuard.fair (Cap.unbounded_fair P)
  constructor
  · by_cases hf : σ.reader.bodyFailed = true
    · exact ⟨0, fun polls _ => by simp [Reader.nextEntry, hf]⟩
    obtain ⟨σ', hlooser, -, hfollows⟩ :=
      looser_session fr hT hhushed howes hn hstart hrun (eq_false_of_ne_true hf)
    obtain ⟨N, hN⟩ := hfollows.completes PG
    refine ⟨N, fun polls hpolls hcancelled => hN polls hpolls ?_⟩
    obtain ⟨hsame, -⟩ := Reader.nextEntry_lockstep (H := H) hT stacked_lockstep polls hlooser.reader
      (by simp [hcancelled])
    rw [hsame, hcancelled]
    rfl
  · intro hf e he
    obtain ⟨σ', hlooser, hlife, hfollows⟩ := looser_session fr hT hhushed howes hn hstart hrun hf
    obtain ⟨e', he', hentry⟩ := hlooser.entry e he
    obtain ⟨hfailed, hdone, -⟩ := hlooser.reader.fields
    obtain ⟨s, hon, hreads⟩ := hfollows.live (hfailed.trans hf) (hlife.not_done he')
    obtain ⟨i, hlends, -⟩ := hfollows.lent e' he'
    have hr := hreads e' i he' hlends
    rw [← hfollows.limits_eq] at hr
    refine ⟨PG.delay σ'.reader.source + s.length + 1, fun polls hpolls hcancelled => ?_⟩
    obtain ⟨hsame, -⟩ := Reader.copyBody_lockstep stacked_lockstep polls hlooser.reader hentry (by simp [hcancelled])
    have hcopied := copied polls hon hr
    unfold Copied at hcopied
    rw [hsame, hcancelled] at hcopied
    have := hcopied PG
    omega

end Readers

section Validations

variable {T : Tar} {H : HeaderFields} {F : TarFormat H} (fr : T.Frames F) (hon : fr.Honest) (hT : T.Reports)
variable {R : Type} [AsyncRead IoError R] {dec : Decoder (Replay R)} {decode : List UInt8 → List UInt8 × Option IoError}
variable {S : Feed IoError R} (hC : dec.Computes decode S) (hend : dec.ReadsToEnd) (P : S.Fair) (hS : S.Faultless)
variable {source : R} {z : List UInt8} (howes : S.Owes source z none)

include hS howes P in
/-- A source that does not fail is sniffed the same way by every open with enough polls. -/
theorem decoded_settles : ∃ (N : Nat) (d : Decoded dec), ∀ polls, N ≤ polls →
    decoded dec polls (.new source) = .done (.ok d) := by
  have hmeter : (Meter.feed S).Owes (.new source) z none := ⟨none, rfl, howes⟩
  obtain ⟨d, hd⟩ : ∃ d : Decoded dec,
      decoded dec ((Meter.fair P).delay (.new source) + z.length + 1) (.new source) = .done (.ok d) :=
    decoded_completes (Meter.fair P) (Meter.faultless hS) hmeter (Nat.lt_succ_self _)
  refine ⟨(Meter.fair P).delay (.new source) + z.length + 1, d, fun polls hpolls => ?_⟩
  obtain ⟨k, rfl⟩ := Nat.exists_eq_add_of_le hpolls
  exact decoded_more k hd

include fr hS howes P in
/-- And it is opened the same way. -/
theorem open_settles (limits : SecurityLimits) : ∃ (N : Nat) (d : Decoded dec) (r : Opened T H dec),
    Reader.over T d limits = .ok r ∧ ∀ polls, N ≤ polls →
      decoded dec polls (.new source) = .done (.ok d) ∧ Reader.open T dec polls source limits = .done (.ok r) := by
  obtain ⟨N, d, hd⟩ : ∃ (N : Nat) (d : Decoded dec), ∀ polls, N ≤ polls →
      decoded dec polls (.new source) = .done (.ok d) := decoded_settles P hS howes
  obtain ⟨parser, hparser, -⟩ := fr.opens
  obtain ⟨r, hr⟩ : ∃ r : Opened T H dec, Reader.over T d limits = .ok r := by
    unfold Reader.over Reader.start
    rw [hparser]
    exact ⟨_, rfl⟩
  refine ⟨N, d, r, hr, fun polls hpolls => ⟨hd polls hpolls, ?_⟩⟩
  unfold Reader.open
  rw [hd polls hpolls, ← hr]

include fr hon hT hC hend P hS howes in
/-- Whatever the bytes and the limits are, a validation that is given enough polls ends, and its
answer is the verdict on the decoded stream, with all of it counted, or a bound of the cap. -/
theorem validation_decides (hz : z.length < 2 ^ 64) (hD : (contents decode z).1.length < 2 ^ 64)
    (limits : SecurityLimits) :
    ∃ N, ∀ polls, N ≤ polls → ∃ res, Reader.validate H T dec polls source limits = .done res ∧
      Judged F limits (contents decode z).1 (contents decode z).2 (res.map ValidationReport.entries) ∧
      ∀ report, res = .ok report →
        report.encodedBytes = z.length ∧ report.decodedBytes = (contents decode z).1.length := by
  obtain ⟨N, d, r, hr, hsettled⟩ : ∃ (N : Nat) (d : Decoded dec) (r : Opened T H dec),
      Reader.over T d limits = .ok r ∧ ∀ polls, N ≤ polls →
        decoded dec polls (.new source) = .done (.ok d) ∧ Reader.open T dec polls source limits = .done (.ok r) :=
    open_settles fr P hS howes limits
  obtain ⟨b, hb⟩ := sniffed (hsettled N (Nat.le_refl N)).1
  have hdecoded := (hb (G := Meter.feed S) ⟨none, rfl, howes⟩).decodes hC
  obtain ⟨N', hN'⟩ := validation_ends fr hT (Decoded.fair (replayFair P) (hC.fair P hS)) (hC.hushed_decoded _)
    hdecoded hD hr
  refine ⟨max N N', fun polls hpolls => ?_⟩
  obtain ⟨res, hres⟩ := hN' polls (by omega)
  have hvalidate : Reader.validate H T dec polls source limits = .done res := by
    unfold Reader.validate
    rw [(hsettled polls (by omega)).2]
    exact hres
  obtain ⟨hjudged, hreport⟩ := validate_judged fr hon hC hend hS howes hz hD hvalidate
  exact ⟨res, hvalidate, hjudged, fun report h => ⟨(hreport report h).1, (hreport report h).2.1⟩⟩

theorem Gnu.reports : Gnu.tar.Reports := Tar.reports_ofFormat Gnu.format

/-- A total in the middle of the archive ends the validation too. -/
theorem validation_decides_sample : ∃ N, ∀ polls, N ≤ polls → ∃ res,
    Reader.validate gnuFields Gnu.tar (RawZstd.decoder (Replay (Script IoError))) polls
      ⟨Gnu.plain, [.give 4, .late, .give 1021]⟩ (SecurityLimits.default.withMaxTotalBytes 1100) = .done res := by
  have howes : Script.steadyFeed.Owes (⟨Gnu.plain, [.give 4, .late, .give 1021]⟩ : Script IoError) Gnu.plain none :=
    ⟨⟨rfl, rfl⟩, fun e he => by simp at he⟩
  have hlen : Gnu.plain.length < 2 ^ 64 := by decide +kernel
  have hmagic : ¬ zstdMagic <+: Gnu.plain := by decide +kernel
  have hlen' : (contents RawZstd.unpack Gnu.plain).1.length < 2 ^ 64 := by rwa [contents, if_neg hmagic]
  obtain ⟨N, hN⟩ := validation_decides (F := Gnu.format) Gnu.frames Gnu.honest Gnu.reports
    (RawZstd.computes Script.steadyFeed) RawZstd.reads_to_end Script.steadyFair Script.steady_faultless howes hlen hlen'
    (SecurityLimits.default.withMaxTotalBytes 1100)
  exact ⟨N, fun polls hpolls => (hN polls hpolls).imp fun res h => h.1⟩

include fr hT hC P hS howes in
/-- In every session of an opened archive whose source does not fail the next call ends when it is
given enough polls, whatever happened before it; and so does reading the lent body to its end,
unless the session failed already. -/
theorem sessions_end (hD : (contents decode z).1.length < 2 ^ 64) {limits : SecurityLimits} {polls : Nat}
    {r : Opened T H dec} (hr : Reader.open T dec polls source limits = .done (.ok r)) {room : ReadBuf → Prop}
    {evs : List Event} {σ : Session T (Source H (Decoded.count : Decoded dec → Nat))}
    (hrun : Session.Run H room ⟨r, none⟩ evs σ) :
    (∃ N, ∀ polls, N ≤ polls → (σ.reader.nextEntry H polls).1 ≠ .cancelled) ∧
    (σ.reader.bodyFailed = false → ∀ e, σ.entry = some e →
      ∃ N, ∀ polls, N ≤ polls → (σ.reader.copyBody polls e).1 ≠ .cancelled) := by
  obtain ⟨d, hd, hstart⟩ := open_ok hr
  obtain ⟨b, hb⟩ := sniffed hd
  exact calls_end fr hT (Decoded.fair (replayFair P) (hC.fair P hS)) (hC.hushed_decoded _)
    ((hb (G := Meter.feed S) ⟨none, rfl, howes⟩).decodes hC) hD hstart hrun

/-- A directory is lent out: its body is read to the end, and later calls end. -/
theorem sessions_end_sample : ∃ (r : Opened Gnu.tar gnuFields (RawZstd.decoder (Replay (Script IoError))))
    (evs : List Event) (σ : _), Session.Run gnuFields (fun _ => True) ⟨r, none⟩ evs σ ∧ (handed evs).length = 1 ∧
      ∃ N, ∀ polls, N ≤ polls → (σ.reader.nextEntry gnuFields polls).1 ≠ .cancelled := by
  have hgoes : (Gnu.replayed (SecurityLimits.default.withMaxTotalBytes 1100)
      ⟨Gnu.plain, [.give 4, .late, .give 1021]⟩ [.next 20, .read 1, .drop]).any
        (fun p => (handed p.1).length == 1) = true := by decide +kernel
  obtain ⟨⟨evs, σ⟩, hreplayed, hhanded⟩ := (Option.any_eq_true _ _).mp hgoes
  obtain ⟨r, hr, hrun⟩ := Gnu.run_replayed hreplayed
  have howes : Script.steadyFeed.Owes (⟨Gnu.plain, [.give 4, .late, .give 1021]⟩ : Script IoError) Gnu.plain none :=
    ⟨⟨rfl, rfl⟩, fun e he => by simp at he⟩
  have hmagic : ¬ zstdMagic <+: Gnu.plain := by decide +kernel
  have hlen : (contents RawZstd.unpack Gnu.plain).1.length < 2 ^ 64 := by
    rw [contents, if_neg hmagic]
    decide +kernel
  exact ⟨r, evs, σ, hrun, beq_iff_eq.mp hhanded, (sessions_end (F := Gnu.format) Gnu.frames Gnu.reports
    (RawZstd.computes Script.steadyFeed) Script.steadyFair Script.steady_faultless howes hlen hr hrun).1⟩

end Validations

end Etar
