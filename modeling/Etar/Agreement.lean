import Etar.Sizes
import Etar.Transparent

/-!
# A validation answers as a traversal does

`validate` goes through an archive on its own. It accepts what any caller comes to the end of, and
reports what that caller was handed: a body that is longer than the limit allows is refused before
it is lent, as its member declares its length. What it reports is what the limits have to have room
for.
-/
namespace Etar

open AsyncIo Limit Compress Guard

section Verdicts

variable {H : HeaderFields} {limits : SecurityLimits} {stop : Option IoError} {last : End} {items : List Item}

def Entered (H : HeaderFields) (limits : SecurityLimits) (items : List Item) (seen : Nat) : Prop :=
  ∀ (k : Nat) (i : Item), items[k]? = some i → ∃ e, i.entered H limits (seen + k) = .ok e

theorem entered_cons {i : Item} {seen : Nat} :
    Entered H limits (i :: items) seen ↔ (∃ e, i.entered H limits seen = .ok e) ∧ Entered H limits items (seen + 1) := by
  constructor
  · intro h
    refine ⟨h 0 i rfl, fun k j hj => ?_⟩
    rw [Nat.add_assoc, Nat.add_comm 1 k]
    exact h (k + 1) j hj
  · rintro ⟨hfirst, hrest⟩ k j hj
    cases k with
    | zero =>
      obtain rfl : i = j := Option.some.inj hj
      exact hfirst
    | succ k =>
      have hentered := hrest k j hj
      rwa [Nat.add_assoc, Nat.add_comm 1 k] at hentered

theorem End.verdict_ok {w : End} (h : w.verdict stop = .ok ()) : stop = none := by
  cases hs : stop with
  | none => rfl
  | some e =>
    rw [hs] at h
    cases w with
    | zero t =>
      simp only [End.verdict] at h
      split_ifs at h
    | _ => cases h

theorem verdict_ok {seen n : Nat} :
    verdict H limits stop last items seen = .ok n ↔
      n = seen + items.length ∧ Entered H limits items seen ∧ (∀ i ∈ items, i.readThrough limits stop = .ok ()) ∧
        last.verdict stop = .ok () := by
  induction items generalizing seen with
  | nil =>
    have hnone : Entered H limits [] seen := by
      intro k i hi
      cases hi
    rw [verdict]
    cases hlast : last.verdict stop with
    | error e => simp [bind, Except.bind]
    | ok => simp [bind, Except.bind, pure, Except.pure, hnone, eq_comm]
  | cons i items ih =>
    rw [verdict, entered_cons, List.forall_mem_cons]
    cases hentered : i.entered H limits seen with
    | error e => simp [bind, Except.bind]
    | ok e =>
      cases hread : i.readThrough limits stop with
      | error e => simp [bind, Except.bind]
      | ok =>
        simp only [bind, Except.bind]
        rw [ih, List.length_cons, Nat.add_right_comm, Nat.add_assoc]
        simp

/-- Another ceiling on the entries only changes a verdict where there are more of them. -/
theorem verdict_fewer {limits' : SecurityLimits}
    (hsame : ∀ i : Item, openEntry H i.entry () limits' = openEntry H i.entry () limits)
    (hthrough : ∀ i : Item, i.readThrough limits' stop = i.readThrough limits stop) {seen n : Nat}
    (hseen : seen ≤ limits'.maxEntries.toNat) (h : verdict H limits stop last items seen = .ok n) :
    verdict H limits' stop last items seen =
      if n ≤ limits'.maxEntries.toNat then .ok n else .error (.limitExceeded "max_entries") := by
  induction items generalizing seen with
  | nil =>
    obtain ⟨hn, -, -, hlast⟩ := verdict_ok.mp h
    rw [List.length_nil, Nat.add_zero] at hn
    have hnone : Entered H limits' [] seen := by
      intro k i hi
      cases hi
    have hread : ∀ i ∈ ([] : List Item), i.readThrough limits' stop = .ok () := by
      intro i hi
      cases hi
    rw [hn, if_pos hseen]
    exact verdict_ok.mpr ⟨rfl, hnone, hread, hlast⟩
  | cons i items ih =>
    obtain ⟨hn, hentered, hread, hlast⟩ := verdict_ok.mp h
    obtain ⟨⟨e, he⟩, hrest⟩ := entered_cons.mp hentered
    obtain ⟨hreadi, hreads⟩ := List.forall_mem_cons.mp hread
    rw [List.length_cons] at hn
    have hnext : verdict H limits stop last items (seen + 1) = .ok n :=
      verdict_ok.mpr ⟨by omega, hrest, hreads, hlast⟩
    have hopened : openEntry H i.entry () limits = .ok e := by
      unfold Item.entered at he
      split at he
      · cases he
      · exact he
    rw [verdict]
    by_cases hfew : limits'.maxEntries.toNat < seen + 1
    · have hentered' : i.entered H limits' seen = .error (.limitExceeded "max_entries") := if_pos hfew
      rw [hentered', if_neg (by omega)]
      rfl
    · have hentered' : i.entered H limits' seen = .ok e := by
        unfold Item.entered
        rw [if_neg hfew, hsame, hopened]
      rw [hentered', hthrough, hreadi, ← ih (by omega) hnext]
      rfl

theorem Outline.call_none {w : Outline} {k : Nat} :
    w.call H limits stop k = .ok none ↔ w.items[k]? = none ∧ w.stop.verdict stop = .ok () := by
  unfold Outline.call
  cases w.items[k]? with
  | none => cases w.stop.verdict stop <;> simp [Except.map]
  | some i => cases hentered : i.entered H limits k <;> simp [Except.map, hentered]

theorem Outline.call_some {w : Outline} {k : Nat} {e : ReadEntry} :
    w.call H limits stop k = .ok (some e) ↔ ∃ i, w.items[k]? = some i ∧ i.entered H limits k = .ok e := by
  unfold Outline.call
  cases w.items[k]? with
  | none => cases w.stop.verdict stop <;> simp [Except.map]
  | some i => cases hentered : i.entered H limits k <;> simp [Except.map, hentered]

end Verdicts

section Traversals

variable {H : HeaderFields} {F : TarFormat H} {limits : SecurityLimits} {bytes : List UInt8} {stop : Option IoError}
variable {pre : List Event} {res : Except Error (Option ReadEntry)} {decoded : Nat}

/-- The items of complete records are members with all of their bodies. -/
theorem Framed.made {max : Nat} {p : Option Nat} {x : F.Ext} {recs : List UInt8} {items : List Item}
    (hf : Framed F max p x recs items) {i : Item} (hi : i ∈ items) :
    i.len = i.body.length ∧ i.len < 2 ^ 64 ∧ ∃ h, isExtension h.typeflag = false ∧ i.MadeOf F h := by
  induction hf with
  | nil p hx => cases hi
  | extension ha hk hp hc he hr ih => exact ih hi
  | member ha hk hp he hr ih =>
    rcases List.mem_cons.mp hi with rfl | hi
    · exact ⟨rfl, ha.len_lt, _, hk, _, ha.size, he⟩
    · exact ih hi

theorem framed_lines (h : (lines F limits bytes).stop.verdict stop = .ok ()) :
    ∃ recs, Framed F limits.maxMetadataBytes.toNat none F.start recs (lines F limits bytes).items := by
  obtain ⟨t, ht⟩ : ∃ t, (lines F limits bytes).stop = .zero t := by
    obtain rfl := End.verdict_ok h
    cases hstop : (lines F limits bytes).stop with
    | zero t => exact ⟨t, rfl⟩
    | _ =>
      rw [hstop] at h
      cases h
  have hclean : spoils H limits bytes = false := by
    cases hs : spoils H limits bytes with
    | false => rfl
    | true => exact absurd ht ((whole_lines F hs).stop t)
  have hlines : lines F limits bytes = outline F limits bytes := by
    unfold lines
    rw [hclean]
    rfl
  rw [hlines] at ht ⊢
  obtain ⟨recs, -, hframed⟩ := (outlined_outline F limits bytes).framed ht
  exact ⟨recs, hframed⟩

/-- A body that was entered, of a member with its length for a size, is read through. -/
theorem Item.readThrough_entered (hreports : F.ReportsSize) {i : Item} (hwhole : i.len = i.body.length)
    (hlen : i.len < 2 ^ 64) {h : Block} (hk : isExtension h.typeflag = false) (hmade : i.MadeOf F h) {seen : Nat}
    {e : ReadEntry} (he : i.entered H limits seen = .ok e) : i.readThrough limits stop = .ok () := by
  unfold Item.entered at he
  split_ifs at he
  exact Item.readThrough_ok (hwhole ▸ (opened_size hreports hk hlen hmade he).2.1) (Nat.le_of_eq hwhole)

theorem Ends.whole (h : Ends F limits bytes stop pre (.ok none) decoded) :
    Entered H limits (lines F limits bytes).items 0 ∧ (handed pre).length = (lines F limits bytes).items.length ∧
      (lines F limits bytes).stop.verdict ((guardStop H limits bytes).or stop) = .ok () := by
  obtain ⟨hcalls, hanswer, hclean⟩ := h
  have hcall : (lines F limits bytes).call H limits ((guardStop H limits bytes).or stop) (handed pre).length =
      .ok none := by
    rcases hanswer with hcall | ⟨e, he, -⟩
    · exact hcall
    · cases he
  obtain ⟨hnone, hend⟩ := Outline.call_none.mp hcall
  have hle := List.getElem?_eq_none_iff.mp hnone
  have hentered : ∀ k < (handed pre).length, ∃ i, (lines F limits bytes).items[k]? = some i ∧
      ∃ e, i.entered H limits k = .ok e := by
    intro k hk
    obtain ⟨i, hi, he⟩ := Outline.call_some.mp (hcalls k _ (List.getElem?_eq_getElem hk))
    exact ⟨i, hi, _, he⟩
  have hlength : (handed pre).length = (lines F limits bytes).items.length := by
    refine Nat.le_antisymm ?_ hle
    by_contra hlt
    obtain ⟨i, hi, -⟩ := hentered _ (Nat.lt_of_not_le hlt)
    rw [List.getElem?_eq_none (Nat.le_refl _)] at hi
    cases hi
  refine ⟨fun k i hi => ?_, hlength, hend⟩
  obtain ⟨hk, -⟩ := List.getElem?_eq_some_iff.mp hi
  obtain ⟨j, hj, he⟩ := hentered k (hlength.symm ▸ hk)
  obtain rfl : i = j := Option.some.inj (hi.symm.trans hj)
  rwa [Nat.zero_add]

theorem Ends.judged (hreports : F.ReportsSize) (h : Ends F limits bytes stop pre (.ok none) decoded) :
    judge F limits bytes stop = .ok (handed pre).length := by
  obtain ⟨hentered, hlength, hend⟩ := h.whole
  obtain ⟨recs, hframed⟩ := framed_lines hend
  refine verdict_ok.mpr ⟨by rw [hlength, Nat.zero_add], hentered, fun i hi => ?_, hend⟩
  obtain ⟨hwhole, hlen, b, hk, hmade⟩ := hframed.made hi
  obtain ⟨k, hk'⟩ := List.mem_iff_getElem?.mp hi
  obtain ⟨e, he⟩ := hentered k i hk'
  exact i.readThrough_entered hreports hwhole hlen hk hmade he

theorem Ends.clean_of_judge (h : Ends F limits bytes stop pre res decoded) (hlast : ∀ e, res ≠ .ok (some e))
    (hbytes : bytes.length ≤ limits.maxTotalBytes.toNat)
    (hratio : res ≠ .error (.limitExceeded "max_compression_ratio")) {n : Nat} (hn : judge F limits bytes stop = .ok n) :
    res = .ok none := by
  unfold judge at hn
  obtain ⟨-, hentered, -, hend⟩ := verdict_ok.mp hn
  rcases h.decided hratio with hcall | ⟨hlt, -⟩
  · cases hi : (lines F limits bytes).items[(handed pre).length]? with
    | none => exact hcall.symm.trans (Outline.call_none.mpr ⟨hi, hend⟩)
    | some i =>
      obtain ⟨e, he⟩ := hentered _ i hi
      rw [Nat.zero_add] at he
      exact absurd (hcall.symm.trans (Outline.call_some.mpr ⟨i, hi, he⟩)) (hlast e)
  · exact absurd hbytes (Nat.not_le.mpr hlt)

end Traversals

section Archives

variable {T : Tar} {H : HeaderFields} {F : TarFormat H} (fr : T.Frames F) (hon : fr.Honest)
variable {R R' : Type} [AsyncRead IoError R] [AsyncRead IoError R'] {dec : Decoder (Replay R)} {dec' : Decoder (Replay R')}
variable {decode decode' : List UInt8 → List UInt8 × Option IoError} {S : Feed IoError R} {S' : Feed IoError R'}
variable (hC : dec.Computes decode S) (hC' : dec'.Computes decode' S') (hS : S.Faultless) (hS' : S'.Faultless)
variable {source : R} {source' : R'} {z z' : List UInt8} (howes : S.Owes source z none) (howes' : S'.Owes source' z' none)
variable (hsame : contents decode z = contents decode' z') (hD : (contents decode z).1.length < 2 ^ 64)
variable {limits : SecurityLimits} {polls polls' : Nat} (hend : dec.ReadsToEnd) (hz : z.length < 2 ^ 64)
variable (hreports : F.ReportsSize)

include fr hon hC hC' hS hS' howes howes' hsame hD hend hz hreports in
/-- A validation and a caller who goes through the same stream, however its bytes come to either and
whatever the caller reads of the bodies: unless the ratio breaks for one of them, the validation
accepts the stream if and only if the caller comes to `Ok(None)`. The report then counts the entries
the caller was handed, and the bytes decoded for them. -/
theorem validation_agrees_with_traversals {res : Except Error ValidationReport}
    (hres : Reader.validate H T dec polls source limits = .done res) {r : Opened T H dec'}
    (hr : Reader.open T dec' polls' source' limits = .done (.ok r)) {room : ReadBuf → Prop} {pre : List Event}
    {res' : Except Error (Option ReadEntry)} {σ : Session T (Source H (Decoded.count : Decoded dec' → Nat))}
    (hrun : Session.Run H room ⟨r, none⟩ (pre ++ [.next (.done res')]) σ) (hgoes : ∀ ev ∈ pre, ev.Goes)
    (hlast : ∀ e, res' ≠ .ok (some e)) (hratio : res ≠ .error (.limitExceeded "max_compression_ratio"))
    (hratio' : res' ≠ .error (.limitExceeded "max_compression_ratio")) :
    ((∃ report, res = .ok report) ↔ res' = .ok none) ∧
      ∀ report, res = .ok report →
        report.entries = (handed pre).length ∧ report.decodedBytes = σ.reader.decodedBytes := by
  have hD' : (contents decode' z').1.length < 2 ^ 64 := by rwa [← hsame]
  have hends := ends_of_open fr hon hC' hS' howes' hD' hr hrun hgoes
  rw [← hsame] at hends
  obtain ⟨hjudged, hreport⟩ := validate_judged fr hon hC hend hS howes hz hD hres
  have hclean : ∀ report, res = .ok report → res' = .ok none := by
    rintro report rfl
    obtain ⟨-, -, hle⟩ := hreport report rfl
    exact hends.clean_of_judge hlast hle hratio' hjudged
  refine ⟨⟨?_, ?_⟩, ?_⟩
  · rintro ⟨report, rfl⟩
    exact hclean report rfl
  · rintro rfl
    have hwell := hends.judged hreports
    cases res with
    | ok report => exact ⟨report, rfl⟩
    | error e =>
      rcases hjudged with hbad | ⟨hlt, -⟩ | ⟨-, rfl⟩
      · cases hwell.symm.trans hbad
      · exact absurd (hends.clean rfl).2 (Nat.not_le.mpr hlt)
      · exact absurd rfl hratio
  · rintro report rfl
    obtain rfl := hclean report rfl
    obtain ⟨-, hdecoded, -⟩ := hreport report rfl
    have hentries := (hends.judged hreports).symm.trans hjudged
    exact ⟨(Except.ok.inj hentries).symm, hdecoded.trans (hends.clean rfl).1.symm⟩

/-- A caller leaves the body of the one file unread, and a validation reports what it was handed. -/
theorem validation_agrees_with_traversals_sample :
    ∃ report, Reader.validate gnuFields Gnu.tar (RawZstd.decoder (Replay (Script IoError))) 40 ⟨Gnu.resized 48 0, []⟩
        .default = .done (.ok report) ∧ report.entries = 1 := by
  have hvalidate : Reader.validate gnuFields Gnu.tar (RawZstd.decoder (Replay (Script IoError))) 40
      ⟨Gnu.resized 48 0, []⟩ .default = .done (.ok ⟨1, 3072, 3072⟩) := by decide +kernel
  have hwalks : Gnu.walks .default ⟨Gnu.resized 48 0, []⟩ [.next 20, .drop, .next 20] 1 = true := by decide +kernel
  have hlen : (Gnu.resized 48 0).length < 2 ^ 64 := by decide +kernel
  have hmagic : ¬ zstdMagic <+: Gnu.resized 48 0 := by decide +kernel
  have hdecoded : (contents RawZstd.unpack (Gnu.resized 48 0)).1.length < 2 ^ 64 := by rwa [contents, if_neg hmagic]
  obtain ⟨r, pre, σ, hr, hgoes, hhanded, hrun⟩ := Gnu.run_walks hwalks
  obtain ⟨hiff, hreport⟩ := validation_agrees_with_traversals Gnu.frames Gnu.honest
    (RawZstd.computes Script.steadyFeed) (RawZstd.computes Script.steadyFeed) Script.steady_faultless
    Script.steady_faultless (Gnu.owes_script _) (Gnu.owes_script _) rfl hdecoded RawZstd.reads_to_end hlen
    Gnu.reportsSize hvalidate hr hrun hgoes (by simp) (by simp) (by simp)
  obtain ⟨report, hok⟩ := hiff.mpr rfl
  obtain ⟨hentries, -⟩ := hreport report hok
  exact ⟨report, by rw [hvalidate, hok], hentries.trans hhanded⟩

end Archives

section Budgets

variable {T : Tar} {H : HeaderFields} {F : TarFormat H} (fr : T.Frames F) (hon : fr.Honest)
variable {R R' : Type} [AsyncRead IoError R] [AsyncRead IoError R'] {dec : Decoder (Replay R)} {dec' : Decoder (Replay R')}
variable {decode decode' : List UInt8 → List UInt8 × Option IoError} {S : Feed IoError R} {S' : Feed IoError R'}
variable (hC : dec.Computes decode S) (hC' : dec'.Computes decode' S') (hS : S.Faultless) (hS' : S'.Faultless)
variable (hend : dec.ReadsToEnd) (hend' : dec'.ReadsToEnd)
variable {source : R} {source' : R'} {z z' : List UInt8} (howes : S.Owes source z none) (howes' : S'.Owes source' z' none)
variable (hsame : contents decode z = contents decode' z') (hD : (contents decode z).1.length < 2 ^ 64)
variable (hz : z.length < 2 ^ 64) (hz' : z'.length < 2 ^ 64) {limits : SecurityLimits} {polls polls' : Nat}

/-- What a validation with room for `entries` entries and `bytes` bytes answers, where one without a
lack of room answered `report`. -/
def Weighed (entries bytes : Nat) (report : ValidationReport) : Except Error ValidationReport → Prop
  | .ok report' => report'.entries = report.entries ∧ report'.decodedBytes = report.decodedBytes ∧
      report.entries ≤ entries ∧ report.decodedBytes ≤ bytes
  | .error e => entries < report.entries ∧ e = .limitExceeded "max_entries" ∨
      bytes < report.decodedBytes ∧ e = .limitExceeded "max_total_bytes" ∨
      e = .limitExceeded "max_compression_ratio"

include fr hon hC hC' hS hS' hend hend' howes howes' hsame hD hz hz' in
/-- A report is the least budget its stream needs: under other ceilings on the entries, the total and
the ratio the stream is accepted, whatever encoding it comes in, if they have room for what the
report counts, and refused with the ceiling that has not, but for the ratio. -/
theorem report_is_the_budget {report : ValidationReport}
    (hreport : Reader.validate H T dec polls source limits = .done (.ok report)) (entries bytes ratio : UInt64)
    {res : Except Error ValidationReport} (hres : Reader.validate H T dec' polls' source'
      (((limits.withMaxEntries entries).withMaxTotalBytes bytes).withMaxCompressionRatio ratio) = .done res) :
    Weighed entries.toNat bytes.toNat report res := by
  have hD' : (contents decode' z').1.length < 2 ^ 64 := by rwa [← hsame]
  obtain ⟨hjudged, hcounts⟩ := validate_judged fr hon hC hend hS howes hz hD hreport
  obtain ⟨-, hdecoded, -⟩ := hcounts report rfl
  obtain ⟨hjudged', hcounts'⟩ := validate_judged fr hon hC' hend' hS' howes' hz' hD' hres
  rw [← hsame] at hjudged' hcounts'
  have hopens : ∀ i : Item, openEntry H i.entry ()
      (((limits.withMaxEntries entries).withMaxTotalBytes bytes).withMaxCompressionRatio ratio) =
        openEntry H i.entry () limits := fun _ => rfl
  have hverdict : judge F (((limits.withMaxEntries entries).withMaxTotalBytes bytes).withMaxCompressionRatio ratio)
      (contents decode z).1 (contents decode z).2 = if report.entries ≤ entries.toNat then .ok report.entries
        else .error (.limitExceeded "max_entries") :=
    verdict_fewer hopens (fun _ => rfl) (Nat.zero_le _) hjudged
  cases res with
  | ok report' =>
    obtain ⟨-, hdecoded', hle⟩ := hcounts' report' rfl
    have hcount : judge F _ _ _ = .ok report'.entries := hjudged'
    rw [hverdict] at hcount
    by_cases hfew : report.entries ≤ entries.toNat
    · rw [if_pos hfew] at hcount
      exact ⟨(Except.ok.inj hcount).symm, hdecoded'.trans hdecoded.symm, hfew, hdecoded.le.trans hle⟩
    · rw [if_neg hfew] at hcount
      cases hcount
  | error e =>
    rcases hjudged' with hbad | ⟨hlt, he⟩ | ⟨-, he⟩
    · rw [hverdict] at hbad
      by_cases hfew : report.entries ≤ entries.toNat
      · rw [if_pos hfew] at hbad
        cases hbad
      · rw [if_neg hfew] at hbad
        exact Or.inl ⟨Nat.lt_of_not_le hfew, (Except.error.inj hbad).symm⟩
    · exact Or.inr (Or.inl ⟨hlt.trans_eq hdecoded.symm, he⟩)
    · exact Or.inr (Or.inr he)

/-- The plain archive of a directory has one byte too many for a budget that a compressed copy of it
is held to. -/
theorem report_is_the_budget_sample :
    Reader.validate gnuFields Gnu.tar (RawZstd.decoder (Replay (Script IoError))) 40 ⟨Gnu.packed, []⟩
        (((SecurityLimits.default.withMaxEntries 2).withMaxTotalBytes 1535).withMaxCompressionRatio 9) =
        .done (.error (.limitExceeded "max_total_bytes")) ∧
      Weighed 2 1535 ⟨1, 1536, 1536⟩ (.error (.limitExceeded "max_total_bytes")) := by
  have hreport : Reader.validate gnuFields Gnu.tar (RawZstd.decoder (Replay (Script IoError))) 40
      ⟨Gnu.plain, [.give 4, .late, .give 1021]⟩ .default = .done (.ok ⟨1, 1536, 1536⟩) := by decide +kernel
  have hres : Reader.validate gnuFields Gnu.tar (RawZstd.decoder (Replay (Script IoError))) 40 ⟨Gnu.packed, []⟩
      (((SecurityLimits.default.withMaxEntries 2).withMaxTotalBytes 1535).withMaxCompressionRatio 9) =
        .done (.error (.limitExceeded "max_total_bytes")) := by decide +kernel
  have howes : Script.steadyFeed.Owes (⟨Gnu.plain, [.give 4, .late, .give 1021]⟩ : Script IoError) Gnu.plain none :=
    ⟨⟨rfl, rfl⟩, fun e he => by simp at he⟩
  have hsame : contents RawZstd.unpack Gnu.plain = contents RawZstd.unpack Gnu.packed := by
    rw [Gnu.contents_plain, Gnu.contents_packed]
  have hshort : (contents RawZstd.unpack Gnu.plain).1.length < 2 ^ 64 := by
    rw [Gnu.contents_plain]
    decide +kernel
  have hplain : Gnu.plain.length < 2 ^ 64 := by decide +kernel
  have hpacked : Gnu.packed.length < 2 ^ 64 := by decide +kernel
  exact ⟨hres, report_is_the_budget Gnu.frames Gnu.honest (RawZstd.computes Script.steadyFeed)
    (RawZstd.computes Script.steadyFeed) Script.steady_faultless Script.steady_faultless RawZstd.reads_to_end
    RawZstd.reads_to_end howes (Gnu.owes_script _) hsame hshort hplain hpacked hreport 2 1535 9 hres⟩

end Budgets

end Etar
