import Etar.Ending
import Etar.RoundTrip

/-!
# What a finished writer leaves

A finished archive validates, with a report that is known from its entries: their number, and the
blocks they take. Its tar bytes are a function of the entries: neither how their bodies come nor what
the sink takes at a time makes a difference, and what was read back is written as it was.
-/
namespace Etar

open AsyncIo Limit Compress Guard

section Lengths

/-- The blocks an entry takes: its header, a record for a long path, and its body. -/
def Content.recordLength (c : Content) : Nat :=
  512 + (if c.path.bytes.length ≤ 100 then 0 else 512 + roundUp (c.path.bytes.length + 1)) + roundUp c.data.length

/-- The tar bytes of an archive. -/
def archiveLength (cs : List Content) : Nat := (cs.map Content.recordLength).sum + 1024

variable {C : Coding}

theorem Member.Files.length_records {m : Member} {c : Content} (h : m.Files c) :
    (C.records m).length = c.recordLength := by
  rw [Coding.records, List.append_assoc, List.length_append, length_append_padding, h.body, Content.recordLength]
  congr 1
  rw [Coding.head, h.path]
  split
  · exact Block.length_bytes _
  · rw [Coding.longRecord, List.length_append, List.length_append, Block.length_bytes, Block.length_bytes,
      ← List.length_singleton (a := (0 : UInt8)), ← List.length_append, length_append_padding]
    omega

theorem length_stream {ms : List Member} {cs : List Content} (h : List.Forall₂ Member.Files ms cs) :
    (C.stream ms ++ terminators).length = archiveLength cs := by
  have hstream : (C.stream ms).length = (cs.map Content.recordLength).sum := by
    induction h with
    | nil => rfl
    | cons hfiles _ ih =>
      rw [Coding.stream, List.flatMap_cons, List.length_append, hfiles.length_records, List.map_cons, List.sum_cons, ← ih]
      rfl
  rw [List.length_append, hstream, terminators, List.length_replicate, archiveLength]

end Lengths

section Validations

variable {T : Tar} {H : HeaderFields} {F : TarFormat H} (fr : T.Frames F) {C : Coding} (rd : C.Reads F)

/-- A validation of an archive that there is room for does not fail. -/
theorem Room.validated {S : Type} [AsyncRead IoError S] [Counters S] {G : Feed IoError S} (hG : G.Faultless)
    {items : List Item} {t : List UInt8} (hz : ZeroTrailer t) {cs : List Content} {r : Reader T S}
    (hroom : Room H r.limits items cs) {polls : Nat} {s : List UInt8} {v : Validation T S}
    (h : Validated H G none ⟨items, .zero t⟩ polls 0 0 r s v) {e : Error} : v.result ≠ .done (.error e) := by
  intro hres
  have hbad := h.2
  rw [hres] at hbad
  rcases hbad with hstop | hfault | ⟨i, hi, hlt⟩ | hfew | ⟨i, hi, ho⟩ | ⟨t', ht, -, hnot⟩
  · exact hstop t rfl
  · exact not_faulty hG hfault
  · obtain ⟨k, hk⟩ := List.mem_iff_getElem?.mp hi
    obtain ⟨c, hc, hshows⟩ := hroom.nth hk
    have := hroom.small c (List.mem_of_getElem? hc)
    rw [← hshows.len] at this
    omega
  · rw [hroom.shows.length_eq] at hfew
    exact absurd hroom.few (Nat.not_le.mpr hfew)
  · obtain ⟨e', he'⟩ := hroom.opened i hi
    rw [he'] at ho
    cases ho
  · cases ht
    exact hnot hz

variable {R : Type} [AsyncRead IoError R] {dec : Decoder (Replay R)} {decode : List UInt8 → List UInt8 × Option IoError}
variable {S : Feed IoError R} (hC : dec.Computes decode S) (hend : dec.ReadsToEnd) (P : S.Fair) (hS : S.Faultless)
variable {source : R} {z : List UInt8} (howes : S.Owes source z none) {limits : SecurityLimits}

include fr rd hC hend P hS howes in
/-- The archive of members that limits admit validates. -/
theorem validation_of_members {ms : List Member} {cs : List Content} (hfiles : List.Forall₂ Member.Files ms cs)
    (hz : contents decode z = (C.stream ms ++ terminators, none)) (hlen : z.length < 2 ^ 64)
    (hadmits : limits.Admits dec decode cs source z) :
    ∃ N, ∀ polls, N ≤ polls → Reader.validate H T dec polls source limits =
      .done (.ok ⟨cs.length, z.length, archiveLength cs⟩) := by
  obtain ⟨N, d, hd⟩ : ∃ (N : Nat) (d : Decoded dec), ∀ polls, N ≤ polls →
      decoded dec polls (.new source) = .done (.ok d) := decoded_settles P hS howes
  obtain ⟨b, hb⟩ := sniffed (hd N (Nat.le_refl N))
  obtain ⟨parser, hparser, -⟩ := fr.opens
  obtain ⟨r, hr⟩ : ∃ r : Opened T H dec, Reader.over T d limits = .ok r := by
    unfold Reader.over Reader.start
    rw [hparser]
    exact ⟨_, rfl⟩
  have hdecodes := (hb (G := Meter.feed S) ⟨none, rfl, howes⟩).decodes hC
  have htotal := hadmits.total
  rw [hz] at hdecodes htotal
  have hshort : (C.stream ms ++ terminators).length < 2 ^ 64 := htotal.trans_lt limits.maxTotalBytes.toNat_lt
  obtain ⟨items, trailer, harch, hzero, hshows⟩ :=
    archive_of_members rd hfiles hadmits.entries (Nat.le_pred_of_lt hshort) hadmits.count
  have hratio := hadmits.ratio N d (hd N (Nat.le_refl N))
  have hkept : (admittedFeed hC hratio).Owes _ _ none := Cap.owes_kept _ hratio hdecodes htotal
  have hnone : Session.Run H (fun _ => True) ⟨r, none⟩ [] ⟨r, none⟩ := .start
  have hfollows := (follows_over fr hkept hr hnone).2
  rw [harch.outline.1, harch.outline.2] at hfollows
  obtain ⟨hseen, hlimits, hf, hdone⟩ := start_fields hr
  obtain ⟨s, hon, -⟩ := hfollows.live hf hdone
  have hfaultless : (HeaderGuard.feed (H := H) (admittedFeed hC hratio)).Faultless :=
    HeaderGuard.faultless (Cap.kept_faultless _ hratio (Decoded.faultless (replayFeed_faultless hS) (hC.faultless hS)))
  have hfair : (HeaderGuard.feed (H := H) (admittedFeed hC hratio)).Fair :=
    HeaderGuard.fair (Cap.kept_fair _ hratio (Decoded.fair (replayFair P) (hC.fair P hS)))
  refine ⟨max N (hfair.delay r.source + s.length + (items.length - r.seen) + 3), fun polls hpolls => ?_⟩
  have hopen : Reader.open T dec polls source limits = .done (.ok r) := by
    unfold Reader.open
    rw [hd polls (by omega), ← hr]
  have hvalidated := validated (H := H) polls 0 0 hon
  have hroom : Room H limits items cs := ⟨hshows, hadmits.count, fun c hc => (hadmits.entries c hc).entry_bytes⟩
  have hcount : items.length = cs.length := hshows.length_eq
  rw [Reader.validate, hopen]
  dsimp only
  rw [Reader.validating_eq H polls 0 0 r]
  cases hres : (r.validating H polls 0 0).result with
  | cancelled =>
    have hlate := hvalidated.2
    rw [hres] at hlate
    have := hlate hfair
    dsimp only at this
    omega
  | done res =>
    cases res with
    | error e =>
      rw [← hlimits] at hroom
      exact absurd hres (hroom.validated hfaultless hzero hvalidated)
    | ok report =>
      obtain ⟨-, haccounts⟩ := accounts_of_validating fr hC hend howes hlen hz hshort hopen hres
      obtain ⟨recs, items', trailer', harch', -, hentries⟩ := haccounts.members
      obtain ⟨-, rfl, -⟩ := harch.unique harch'
      have hdecoded := haccounts.decoded
      rw [length_stream hfiles] at hdecoded
      obtain ⟨entries, encoded, decoded⟩ := report
      obtain rfl : entries = cs.length := hentries.trans hcount
      obtain rfl : encoded = z.length := haccounts.encoded
      obtain rfl : decoded = archiveLength cs := hdecoded
      rfl

end Validations

section Archives

variable {B : Builder} {E : Encoder} {C : Coding} {Frame : List UInt8 → List UInt8 → Prop} (pk : B.Packs C)
variable (enc : E.Encodes Frame) {W : Type} [AsyncWrite IoError W] {D : Drain IoError W}
variable {T : Tar} {H : HeaderFields} {F : TarFormat H} (fr : T.Frames F) (rd : C.Reads F)
variable {decode : List UInt8 → List UInt8 × Option IoError}

/-- A reader makes of what a writer's format encodes what was encoded. -/
theorem contents_written (hnamed : C.Named) (hundoes : Undoes decode Frame) {format : Format} {es : List Submission}
    (hfirst : format = .tar → Unmistaken C es) {ms : List Member} {cs : List Content}
    (hstored : List.Forall₂ (Submission.StoredAs C) es cs) (hfiles : List.Forall₂ Member.Files ms cs) {z : List UInt8}
    (hencodes : format.Encodes Frame (C.stream ms ++ terminators) z) :
    contents decode z = (C.stream ms ++ terminators, none) := by
  cases format with
  | tar =>
    obtain rfl : z = C.stream ms ++ terminators := hencodes
    exact if_neg (not_mistaken hnamed (hfirst rfl) hstored hfiles)
  | tarZstd =>
    obtain ⟨hmagic, hdecode⟩ := hundoes _ _ hencodes
    exact (if_pos hmagic).trans hdecode

/-- Any validation of a source of the bytes `z`, under limits that admit `cs`, answers with their
number and with the bytes there are. -/
def ValidatesAs (T : Tar) (H : HeaderFields) (decode : List UInt8 → List UInt8 × Option IoError) (z : List UInt8)
    (cs : List Content) : Prop :=
  ∀ {R : Type} [AsyncRead IoError R] (dec : Decoder (Replay R)) (S : Feed IoError R), dec.Computes decode S →
    dec.ReadsToEnd → S.Fair → S.Faultless → ∀ source, S.Owes source z none →
    ∀ limits : SecurityLimits, limits.Admits dec decode cs source z →
    ∃ N, ∀ polls, N ≤ polls → Reader.validate H T dec polls source limits =
      .done (.ok ⟨cs.length, z.length, archiveLength cs⟩)

include pk enc fr rd in
/-- What a finished writer hands back validates with a report that its entries determine: so many
entries, the bytes it has counted, and the blocks that the entries take. A plain archive is those. -/
theorem finished_archives_validate (hlinks : B.SetsLinks) (hnamed : C.Named) (hundoes : Undoes decode Frame) {sink : W}
    (hsink : D.Holds sink []) {format : Format} {es : List Submission} {ω : Writer B E W}
    (h : (Writer.new sink format).Appends es ω) (hfirst : format = .tar → Unmistaken C es) {polls : Nat}
    {out : WriteOutput W} (hok : (ω.finish polls).1 = .done (.ok out)) :
    ∃ z cs, D.Holds out.sink z ∧ List.Forall₂ (Submission.StoredAs C) es cs ∧
      (format = .tar → z.length = archiveLength cs) ∧
      (z.length < 2 ^ 64 → out.encodedBytes = z.length ∧ ValidatesAs T H decode z cs) := by
  obtain ⟨ms, cs, hstands⟩ := stands_of_appends pk enc hlinks rd hsink h
  obtain ⟨-, z, hencodes, hholds, hcount, -⟩ := finish_ok pk enc hstands.holds hok
  rw [hstands.format_eq] at hencodes
  have hz := contents_written hnamed hundoes hfirst hstands.stored hstands.files hencodes
  refine ⟨z, cs, hholds, hstands.stored, ?_, fun hlen => ⟨?_, ?_⟩⟩
  · rintro rfl
    obtain rfl : z = C.stream ms ++ terminators := hencodes
    exact length_stream hstands.files
  · rw [hcount]
    exact Nat.min_eq_left (Nat.le_pred_of_lt hlen)
  · intro R _ dec S hC hend P hS source howes limits hadmits
    exact validation_of_members fr rd hC hend P hS howes hstands.files hz hlen hadmits

end Archives

section Copies

/-- The entries are the same but for where their bodies come from and how. -/
structure Submission.Same (s s' : Submission) : Prop where
  path : s.entry.inner.path = s'.entry.inner.path
  info : s.entry.inner.info = s'.entry.inner.info
  size : s.entry.inner.size = s'.entry.inner.size
  data : ∃ data, (∃ F : Feed IoError s.R, Supplied F s.entry.inner data) ∧
    ∃ F : Feed IoError s'.R, Supplied F s'.entry.inner data

variable {B : Builder} {E : Encoder} {C : Coding} {Frame : List UInt8 → List UInt8 → Prop} (pk : B.Packs C)
variable (enc : E.Encodes Frame)

theorem Submission.Same.member_eq {s s' : Submission} (h : s.Same s') {m m' : Member} (hm : Stored B C s.entry.inner m)
    (hm' : Stored B C s'.entry.inner m') : m = m' := by
  obtain ⟨data, ⟨F, hdata⟩, F', hdata'⟩ := h.data
  have hheader : s.entry.inner.header B = s'.entry.inner.header B := by
    unfold PackEntry.header
    rw [h.info, h.size]
  have hpath := hm.path
  rw [h.path] at hpath
  obtain ⟨header, path, body⟩ := m
  obtain ⟨header', path', body'⟩ := m'
  obtain rfl : header = header' := Except.ok.inj (hm.header.symm.trans (hheader.trans hm'.header))
  obtain rfl : path = path' := Except.ok.inj (hpath.symm.trans hm'.path)
  obtain rfl : body = body' := (hm.body_eq hdata).trans (hm'.body_eq hdata').symm
  rfl

theorem members_eq {es es' : List Submission} (h : List.Forall₂ Submission.Same es es') {ms ms' : List Member}
    (hms : List.Forall₂ (fun (s : Submission) m => Stored B C s.entry.inner m) es ms)
    (hms' : List.Forall₂ (fun (s : Submission) m => Stored B C s.entry.inner m) es' ms') : ms = ms' := by
  induction h generalizing ms ms' with
  | nil =>
    cases hms
    cases hms'
    rfl
  | cons hsame _ ih =>
    cases hms with
    | cons hm hms =>
      cases hms' with
      | cons hm' hms' => rw [hsame.member_eq hm hm', ih hms hms']

variable {W : Type} [AsyncWrite IoError W] {D : Drain IoError W}

/-- The members that appends have written. -/
theorem stored_of_appends {sink : W} (hsink : D.Holds sink []) {format : Format} {es : List Submission}
    {ω : Writer B E W} (h : (Writer.new sink format).Appends es ω) :
    ∃ ms, List.Forall₂ (fun (s : Submission) m => Stored B C s.entry.inner m) es ms ∧
      ω.inner.format = format ∧ ω.inner.Holds pk enc D (C.stream ms) := by
  induction h with
  | start => exact ⟨[], .nil, by cases format <;> rfl, holds_new pk enc hsink format⟩
  | append h s polls hok ih =>
    obtain ⟨ms, hstored, hformat, hholds⟩ := ih
    obtain ⟨m, hm, hholds'⟩ := append_ok pk enc hholds hok
    refine ⟨ms ++ [m], List.rel_append hstored (.cons hm .nil), ((append_flag polls s.entry).1).trans hformat, ?_⟩
    rwa [Coding.stream, List.flatMap_append, List.flatMap_singleton]

include pk enc in
/-- An archive is a function of its entries: writers that were given the same ones have encoded the
same tar bytes, whatever the bodies, the sinks and the polls were, and in the plain format their sinks
hold the same. -/
theorem archives_are_reproducible {W' : Type} [AsyncWrite IoError W'] {D' : Drain IoError W'} {sink : W} {sink' : W'}
    (hsink : D.Holds sink []) (hsink' : D'.Holds sink' []) {format : Format} {es es' : List Submission}
    (hsame : List.Forall₂ Submission.Same es es') {ω : Writer B E W} {ω' : Writer B E W'}
    (h : (Writer.new sink format).Appends es ω) (h' : (Writer.new sink' format).Appends es' ω') {polls polls' : Nat}
    {out : WriteOutput W} {out' : WriteOutput W'} (hok : (ω.finish polls).1 = .done (.ok out))
    (hok' : (ω'.finish polls').1 = .done (.ok out')) :
    ∃ tar z z', D.Holds out.sink z ∧ D'.Holds out'.sink z' ∧ format.Encodes Frame tar z ∧ format.Encodes Frame tar z' ∧
      (format = .tar → z = z') := by
  obtain ⟨ms, hstored, hformat, hholds⟩ := stored_of_appends pk enc hsink h
  obtain ⟨ms', hstored', hformat', hholds'⟩ := stored_of_appends pk enc hsink' h'
  obtain rfl := members_eq hsame hstored hstored'
  obtain ⟨-, z, hz, hsinkz, -⟩ := finish_ok pk enc hholds hok
  obtain ⟨-, z', hz', hsinkz', -⟩ := finish_ok pk enc hholds' hok'
  rw [hformat] at hz
  rw [hformat'] at hz'
  refine ⟨C.stream ms ++ terminators, z, z', hsinkz, hsinkz', hz, hz', ?_⟩
  rintro rfl
  exact Eq.trans hz hz'.symm

end Copies

section Samples

/-- The archive of a directory validates from a source that hands it out in parts. -/
theorem finished_archives_validate_sample :
    ∃ z, archived (toWrite ⟨[100], by decide⟩).entry = some z ∧ ∃ N, ∀ polls, N ≤ polls →
      Reader.validate gnuFields Gnu.tar (RawZstd.decoder (Replay (Script IoError))) polls
        ⟨z, [.give 4, .late, .give 1021]⟩ .default = .done (.ok ⟨1, 1536, 1536⟩) := by
  have hz : (archived (toWrite ⟨[100], by decide⟩).entry).map (fun z => (z.length, decide (zstdMagic <+: z))) =
      some (1536, false) := by
    decide +kernel
  obtain ⟨z, hz, hpair⟩ := Option.map_eq_some_iff.mp hz
  obtain ⟨hlen, hraw⟩ := Prod.mk.inj hpair
  have hraw : ¬ zstdMagic <+: z := of_decide_eq_false hraw
  obtain ⟨happend, out, hfinish, rfl⟩ := archived_eq_some hz
  have happends : plainWriter.Appends [toWrite ⟨[100], by decide⟩] _ := .append .start _ 9 happend
  have hfirst : Unmistaken Gnu.coding [toWrite ⟨[100], by decide⟩] := by
    intro s hs path hpath _
    obtain rfl : toWrite ⟨[100], by decide⟩ = s := Option.some.inj hs
    obtain rfl : [100] = path := Except.ok.inj hpath
    decide
  obtain ⟨z, cs, rfl, hstored, -, hvalidates⟩ := finished_archives_validate Gnu.packs RawZstd.encodes Gnu.frames
    Gnu.reads Gnu.setsLinks Gnu.named RawZstd.undoes (Memory.holds_empty 511) happends (fun _ => hfirst) hfinish
  have hgives : List.Forall₂ Submission.Gives [toWrite ⟨[100], by decide⟩] [directory ⟨[100], by decide⟩] :=
    .cons (gives_directory (by decide)) .nil
  obtain rfl : cs = [directory ⟨[100], by decide⟩] := stored_of_gives Gnu.reads hgives hstored
  have hsteady : ∀ e : IoError, .fail e ∉ [Beat.give 4, .late, .give 1021] := by simp
  have hallowed : ∀ c ∈ [directory ⟨[100], by decide⟩], c.Allowed .default := by
    intro c hc
    rw [List.mem_singleton.mp hc]
    exact allowed_directory (by decide)
  have howes : Script.steadyFeed.Owes (⟨out.sink.bytes, [.give 4, .late, .give 1021]⟩ : Script IoError)
      out.sink.bytes none :=
    ⟨⟨rfl, rfl⟩, hsteady⟩
  obtain ⟨N, hN⟩ := (hvalidates (by omega)).2 _ _ (RawZstd.computes _) RawZstd.reads_to_end Script.steadyFair
    Script.steady_faultless _ howes _ (admits_plain hsteady hallowed (by decide) (by omega) hraw)
  rw [hlen] at hN
  exact ⟨_, hz, N, hN⟩

theorem same_pairFile (beats beats' : List (Beat IoError)) (h : ∀ e, .fail e ∉ beats) (h' : ∀ e, .fail e ∉ beats') :
    (pairFile beats).Same (pairFile beats') := by
  refine ⟨rfl, rfl, rfl, [104, 105], ⟨Script.steadyFeed, ?_, rfl⟩, Script.steadyFeed, ?_, rfl⟩
  · intro b hb
    obtain rfl := Option.some.inj hb
    exact ⟨⟨rfl, rfl⟩, h⟩
  · intro b hb
    obtain rfl := Option.some.inj hb
    exact ⟨⟨rfl, rfl⟩, h'⟩

/-- A body in parts and a sink that takes little at a time make no difference. -/
theorem archives_are_reproducible_sample :
    (written 511 [pairFile []]).isSome = true ∧
      written 511 [pairFile []] = written 99 [pairFile [.give 0, .late, .give 0]] := by
  have hsome : (written 511 [pairFile []]).isSome = true := by decide +kernel
  have hsome' : (written 99 [pairFile [.give 0, .late, .give 0]]).isSome = true := by decide +kernel
  obtain ⟨z, hz⟩ := Option.isSome_iff_exists.mp hsome
  obtain ⟨z', hz'⟩ := Option.isSome_iff_exists.mp hsome'
  obtain ⟨ω, out, happends, hfinish, hbytes⟩ := written_eq_some hz
  obtain ⟨ω', out', happends', hfinish', hbytes'⟩ := written_eq_some hz'
  have hsame : List.Forall₂ Submission.Same [pairFile []] [pairFile [.give 0, .late, .give 0]] :=
    .cons (same_pairFile _ _ (by simp) (by simp)) .nil
  obtain ⟨tar, y, y', hy, hy', -, -, heq⟩ := archives_are_reproducible Gnu.packs RawZstd.encodes
    (Memory.holds_empty 511) (Memory.holds_empty 99) hsame happends happends' hfinish hfinish'
  refine ⟨hsome, ?_⟩
  rw [hz, hz', ← hbytes, ← hbytes']
  exact congrArg some (Eq.trans hy ((heq rfl).trans (Eq.symm hy')))

end Samples

end Etar
