import Etar.Appends
import Etar.PackExact
import Etar.ReadBack

/-!
# Reading undoes writing

The archive a writer finishes is read back as the entries given to it, whatever way the bodies,
the sink and the source come, unless a plain archive is taken for a compressed one: a short
first path is the first of its bytes, and may begin with the zstd magic.
-/
namespace Etar

open AsyncIo Limit Compress

/-- Decoding undoes encoding, and an encoding has the magic. -/
def Undoes (decode : List UInt8 → List UInt8 × Option IoError) (Frame : List UInt8 → List UInt8 → Prop) : Prop :=
  ∀ s z, Frame s z → zstdMagic <+: z ∧ decode z = (s, none)

/-- A header block begins with its path, if that is short, and an `L` record with a name of its own. -/
structure Coding.Named (C : Coding) : Prop where
  block : ∀ header path, path.length ≤ 100 → zstdMagic <+: (C.block header path).bytes → zstdMagic <+: path
  long : ∀ path, ¬ zstdMagic <+: (C.longName path).bytes

/-- The first path, as it is written, is long enough for a record of its own, or does not begin
with the zstd magic. -/
def Unmistaken (C : Coding) (es : List Submission) : Prop :=
  ∀ s ∈ es.head?, ∀ path, C.setPath s.entry.inner.path.bytes = .ok path → path.length ≤ 100 → ¬ zstdMagic <+: path

/-- Any reader over a source of the bytes `z`, under limits that admit `cs`, yields `cs`. -/
def ReadableAs (T : Tar) (H : HeaderFields) (decode : List UInt8 → List UInt8 × Option IoError) (z : List UInt8)
    (cs : List Content) : Prop :=
  ∀ {R : Type} [AsyncRead IoError R] (dec : Decoder (Replay R)) (S : Feed IoError R), dec.Computes decode S →
    S.Fair → S.Faultless → ∀ source, S.Owes source z none →
    ∀ limits : SecurityLimits, limits.Admits dec decode cs source z → ReadsBack T H dec limits cs source

/-- An entry that can be stored without loss is. -/
theorem Submission.Gives.stored {C : Coding} {H : HeaderFields} {F : TarFormat H} (rd : C.Reads F) {s : Submission}
    {c c' : Content} (h : s.Gives c) (h' : s.StoredAs C c') : c' = c.stored := by
  obtain ⟨q, hq, -, hnormal⟩ := rd.setPath h'.path
  obtain rfl := hnormal (h.path ▸ h.normalized)
  obtain ⟨G, -, -, hdata⟩ := h.delivers
  have hpath : c'.path = c.path := by
    rw [← h.path]
    exact SafePath.bytes_inj hq
  have hinfo : c'.info = c.info.stored := by
    rw [h'.info, h.info]
  have hbytes : c'.data = c.data := h'.body G _ hdata
  obtain ⟨path', info', data'⟩ := c'
  obtain rfl : path' = c.path := hpath
  obtain rfl : info' = c.info.stored := hinfo
  obtain rfl : data' = c.data := hbytes
  rfl

theorem stored_of_gives {C : Coding} {H : HeaderFields} {F : TarFormat H} (rd : C.Reads F) {es : List Submission}
    {cs cs' : List Content} (h : List.Forall₂ Submission.Gives es cs)
    (h' : List.Forall₂ (Submission.StoredAs C) es cs') : cs' = cs.map Content.stored := by
  induction h generalizing cs' with
  | nil =>
    cases h'
    rfl
  | cons hs _ ih =>
    cases h' with
    | cons hs' hes' => rw [hs.stored rd hs', ih hes', List.map_cons]

section Archives

variable {C : Coding} (hnamed : C.Named)

include hnamed in
theorem not_mistaken {es : List Submission} {ms : List Member} {cs : List Content} (h : Unmistaken C es)
    (hstored : List.Forall₂ (Submission.StoredAs C) es cs) (hfiles : List.Forall₂ Member.Files ms cs) :
    ¬ zstdMagic <+: C.stream ms ++ terminators := by
  cases hfiles with
  | nil =>
    show ¬ zstdMagic <+: terminators
    decide
  | @cons m c ms cs hm hms =>
    cases hstored with
    | @cons s _ es _ hs _ =>
      have hpath : m.path.length ≤ 100 → ¬ zstdMagic <+: m.path := by
        rw [hm.path]
        exact h s (by simp) _ hs.path
      -- the first block decides
      have hfirst : ∀ {block : Block} {rest : List UInt8}, zstdMagic <+: block.bytes ++ rest →
          zstdMagic <+: block.bytes := by
        intro block rest hmagic
        refine List.prefix_of_prefix_length_le hmagic (List.prefix_append _ _) ?_
        rw [Block.length_bytes]
        decide
      intro hmagic
      rw [Coding.stream, List.flatMap_cons, Coding.records, Coding.head] at hmagic
      split at hmagic
      · rename_i hshort
        simp only [List.append_assoc] at hmagic
        exact hpath hshort (hnamed.block _ _ hshort (hfirst hmagic))
      · rw [Coding.longRecord] at hmagic
        simp only [List.append_assoc] at hmagic
        exact hnamed.long _ (hfirst hmagic)

variable {B : Builder} {E : Encoder} {Frame : List UInt8 → List UInt8 → Prop} (pk : B.Packs C) (enc : E.Encodes Frame)
variable {W : Type} [AsyncWrite IoError W] {D : Drain IoError W}
variable {T : Tar} {H : HeaderFields} {F : TarFormat H} (fr : T.Frames F) (rd : C.Reads F)
variable {decode : List UInt8 → List UInt8 × Option IoError} (hundoes : Undoes decode Frame)

include pk enc hnamed fr rd hundoes in
/-- What a writer hands back is read as what its entries are stored as. -/
theorem readable_of_finish {format : Format} {es : List Submission} {ω : Writer B E W} {ms : List Member}
    {cs : List Content} (h : ω.Stands pk enc D format es ms cs) (hfirst : format = .tar → Unmistaken C es) {polls : Nat}
    {out : WriteOutput W} (hok : (ω.finish polls).1 = .done (.ok out)) :
    ∃ z, D.Holds out.sink z ∧ ReadableAs T H decode z cs := by
  obtain ⟨-, z, hencodes, hholds, -⟩ := finish_ok pk enc h.holds hok
  rw [h.format_eq] at hencodes
  have hz : contents decode z = (C.stream ms ++ terminators, none) := by
    cases format with
    | tar =>
      obtain rfl : z = C.stream ms ++ terminators := hencodes
      exact if_neg (not_mistaken hnamed (hfirst rfl) h.stored h.files)
    | tarZstd =>
      obtain ⟨hmagic, hdecode⟩ := hundoes _ _ hencodes
      exact (if_pos hmagic).trans hdecode
  refine ⟨z, hholds, ?_⟩
  intro R _ dec S hC P hS source howes limits hadmits
  exact reads_back fr rd hC P hS howes h.files hz hadmits

variable (hlinks : B.SetsLinks) (Q : D.Fair) (hD : D.Faultless) {sink : W} (hsink : D.Holds sink []) {format : Format}

include pk enc rd hlinks Q hD hsink

/-- After appends that succeeded, so does the finish. -/
theorem finish_succeeds {es : List Submission} {ω : Writer B E W} (h : (Writer.new sink format).Appends es ω) :
    (∃ N out, ∀ polls, N ≤ polls → (ω.finish polls).1 = .done (.ok out)) ∧
      ∀ polls, (ω.finish polls).1 ≠ .cancelled → ∃ out, (ω.finish polls).1 = .done (.ok out) := by
  obtain ⟨ms, cs, hstands⟩ := stands_of_appends pk enc hlinks rd hsink h
  obtain ⟨N, out, hN⟩ := finish_completes pk enc Q hD hstands.live hstands.holds
  obtain ⟨henough, hany⟩ := Await.settles (f := fun polls => (ω.finish polls).1)
    (fun k polls hwait => by rw [finish_more k hwait]) hN
  exact ⟨⟨N, out, henough⟩, fun polls hwait => ⟨out, hany polls hwait⟩⟩

/-- So does the append of an entry with a whole body, a target that fits and a path that can be written. -/
theorem append_succeeds {es : List Submission} {ω : Writer B E W} (h : (Writer.new sink format).Appends es ω)
    {s : Submission} (hfits : s.entry.inner.info.kind.Fits) (hpath : C.Takes s.entry.inner.path)
    {G : Feed IoError s.R} (P : G.Fair) (hG : G.Faultless) {data : List UInt8}
    (hdata : Supplied G s.entry.inner data) :
    (∃ N, ∀ polls, N ≤ polls → (ω.append polls s.entry).1 = .done (.ok ())) ∧
      ∀ polls, (ω.append polls s.entry).1 ≠ .cancelled → (ω.append polls s.entry).1 = .done (.ok ()) := by
  obtain ⟨ms, cs, hstands⟩ := stands_of_appends pk enc hlinks rd hsink h
  obtain ⟨header, hheader⟩ := (header_ok hlinks s.entry.inner).mpr hfits
  obtain ⟨path, hpath⟩ := hpath
  obtain ⟨N, hN⟩ := append_completes pk enc Q hD hstands.live hstands.holds P hG hdata hheader hpath
  obtain ⟨henough, hany⟩ := Await.settles (f := fun polls => (ω.append polls s.entry).1)
    (fun k polls hwait => by rw [append_more k hwait]) hN
  exact ⟨⟨N, henough⟩, hany⟩

/-- Reading undoes writing. While the entries given so far can be stored without loss, every append
of another one whose path the builder takes and the finish succeed if they are waited for; and what
the finish hands back is read as entries equal to those by any reader over it, under any limits that
admit them, unless the archive is a plain one whose first path is short and begins with the zstd
magic. -/
theorem reading_undoes_writing (hnamed : C.Named) (fr : T.Frames F) (hundoes : Undoes decode Frame)
    {es : List Submission} {cs : List Content} (hgives : List.Forall₂ Submission.Gives es cs) {ω : Writer B E W}
    (h : (Writer.new sink format).Appends es ω) :
    (∀ s c, Submission.Gives s c → C.Takes c.path →
      (∃ N, ∀ polls, N ≤ polls → (ω.append polls s.entry).1 = .done (.ok ())) ∧
        ∀ polls, (ω.append polls s.entry).1 ≠ .cancelled → (ω.append polls s.entry).1 = .done (.ok ())) ∧
    ((∃ N out, ∀ polls, N ≤ polls → (ω.finish polls).1 = .done (.ok out)) ∧
      ∀ polls, (ω.finish polls).1 ≠ .cancelled → ∃ out, (ω.finish polls).1 = .done (.ok out)) ∧
    ((format = .tar → ∀ c ∈ cs.head?, c.path.bytes.length ≤ 100 → ¬ zstdMagic <+: c.path.bytes) →
      ∀ polls out, (ω.finish polls).1 = .done (.ok out) →
        ∃ z, D.Holds out.sink z ∧ ReadableAs T H decode z (cs.map Content.stored)) ∧
    ∀ c ∈ cs, c.stored.path = c.path ∧ c.stored.info.Equal c.info ∧ c.stored.data = c.data := by
  refine ⟨?_, finish_succeeds pk enc rd hlinks Q hD hsink h, ?_, ?_⟩
  · intro s c hs hpath
    obtain ⟨G, ⟨P⟩, hG, hdata⟩ := hs.delivers
    exact append_succeeds pk enc rd hlinks Q hD hsink h (hs.info ▸ hs.fits) (hs.path ▸ hpath) P hG hdata
  · intro hfirst polls out hok
    obtain ⟨ms, cs', hstands⟩ := stands_of_appends pk enc hlinks rd hsink h
    obtain rfl : cs' = cs.map Content.stored := stored_of_gives rd hgives hstands.stored
    refine readable_of_finish hnamed pk enc fr rd hundoes hstands (fun hformat => ?_) hok
    cases hgives with
    | nil => exact fun s hs => by cases hs
    | @cons s c es cs hs hes =>
      intro s' hs' path hpath
      obtain rfl : s = s' := Option.some.inj hs'
      obtain ⟨q, rfl, -, hnormal⟩ := rd.setPath hpath
      rw [hnormal (hs.path ▸ hs.normalized), hs.path]
      exact hfirst hformat c rfl
  · intro c hc
    have hmode := ((List.forall₂_and_left _ _).mp ((hgives.imp fun _ _ hs => ⟨hs.mode, hs⟩).flip)).1 c hc
    exact ⟨rfl, Meta.stored_equal hmode, rfl⟩

end Archives

namespace Gnu

/-- Bytes without a NUL in front of a padded text are in front of the text. -/
theorem prefix_of_pad {l text : List UInt8} (hclean : 0 ∉ l) (h : l <+: pad 100 text) : l <+: text := by
  have hpad : pad 100 text <+: text ++ List.replicate 100 0 := List.take_prefix _ _
  rcases List.prefix_or_prefix_of_prefix (h.trans hpad) (List.prefix_append text _) with hl | ⟨more, rfl⟩
  · exact hl
  · have hmore : more <+: List.replicate 100 0 := List.prefix_append_right_inj text |>.mp (h.trans hpad)
    cases more with
    | nil => rw [List.append_nil]
    | cons b more =>
      have hb : b = 0 := List.eq_of_mem_replicate (hmore.subset List.mem_cons_self)
      exact absurd (by simp [hb]) hclean

theorem named : coding.Named where
  block header path _ hmagic := by
    have hname := (fields_block (memberFields header path)).1
    exact prefix_of_pad (by decide) (hname ▸ List.prefix_take_iff.mpr ⟨hmagic, by decide⟩)
  long path hmagic := by
    have hname := (fields_block (longFields path)).1
    have hpad : zstdMagic <+: pad 100 [46, 47, 46, 47, 64, 76, 111, 110, 103, 76, 105, 110, 107] :=
      hname ▸ List.prefix_take_iff.mpr ⟨hmagic, by decide⟩
    exact absurd hpad (by decide)

end Gnu

section Samples

theorem RawZstd.undoes : Undoes RawZstd.unpack RawZstd.Frame := fun _ _ h => ⟨h.1, RawZstd.unpack_frame h⟩

/-- A writer into memory. -/
def plainWriter : Writer Gnu.builder RawZstd.encoder (Memory IoError) := .new ⟨[], 511⟩ .tar

/-- What the archive holds of a directory. -/
def directory (path : SafePath) : Content := ⟨path, ⟨493, 1000, 1000, 1700000000, .dir⟩, []⟩

/-- The directory as an entry to write. -/
def toWrite (path : SafePath) : Submission :=
  ⟨Empty, ⟨⟨path, (directory path).info, 0, none⟩, Or.inr ⟨by simp [directory], rfl, rfl⟩⟩⟩

theorem gives_directory {path : SafePath} (h : path.Normalized) : (toWrite path).Gives (directory path) := by
  have hmode : (493 : UInt32).toNat < 8 ^ 7 := by decide
  refine ⟨rfl, rfl, h, trivial, hmode, Empty.feed, ⟨Empty.fair⟩, Empty.faultless, ?_, rfl⟩
  intro b hb
  cases hb

theorem allowed_directory {path : SafePath} (h : path.bytes.length ≤ 4096) : (directory path).Allowed .default := by
  have hlen : 4096 ≤ SecurityLimits.default.maxPathLen.toNat := by decide
  have hmeta : 4097 ≤ SecurityLimits.default.maxMetadataBytes.toNat := by decide
  refine ⟨h.trans hlen, fun _ => (Nat.succ_le_succ h).trans hmeta, Nat.zero_le _, ?_, ?_⟩
  · intro target hkind
    cases hkind
  · intro target hkind
    cases hkind

/-- The bytes of the archive of one entry. -/
def archived (entry : WriteEntry Empty) : Option (List UInt8) :=
  match (plainWriter.append 9 entry).1, ((plainWriter.append 9 entry).2.finish 9).1 with
  | .done (.ok ()), .done (.ok out) => some out.sink.bytes
  | _, _ => none

/-- What the first call of a reader over some bytes answers. -/
def firstCall (bytes : List UInt8) : Option (Except Error (Option (SafePath × Meta))) :=
  match Reader.open (H := gnuFields) Gnu.tar (RawZstd.decoder (Replay (Script IoError))) 9 ⟨bytes, []⟩ .default with
  | .done (.ok r) =>
    match (r.nextEntry gnuFields 20).1 with
    | .done res => some (res.map (Option.map fun e => (e.path, e.info)))
    | .cancelled => none
  | _ => none

theorem archived_eq_some {entry : WriteEntry Empty} {z : List UInt8} (h : archived entry = some z) :
    (plainWriter.append 9 entry).1 = .done (.ok ()) ∧
      ∃ out, ((plainWriter.append 9 entry).2.finish 9).1 = .done (.ok out) ∧ out.sink.bytes = z := by
  unfold archived at h
  split at h
  · rename_i out happend hfinish
    exact ⟨happend, out, hfinish, Option.some.inj h⟩
  · cases h

theorem firstCall_eq_some {bytes : List UInt8} {shown : Except Error (Option (SafePath × Meta))}
    (h : firstCall bytes = some shown) :
    ∃ (r : Opened Gnu.tar gnuFields (RawZstd.decoder (Replay (Script IoError)))) (res : _),
      Reader.open Gnu.tar _ 9 ⟨bytes, []⟩ .default = .done (.ok r) ∧ (r.nextEntry gnuFields 20).1 = .done res ∧
        shown = res.map (Option.map fun e => (e.path, e.info)) := by
  unfold firstCall at h
  split at h
  · rename_i r hr
    split at h
    · rename_i res hres
      exact ⟨r, res, hr, hres, (Option.some.inj h).symm⟩
    · cases h
  · cases h

theorem firstCall_error {bytes : List UInt8} {e : Error} (h : firstCall bytes = some (.error e)) :
    ∃ r : Opened Gnu.tar gnuFields (RawZstd.decoder (Replay (Script IoError))),
      Reader.open Gnu.tar _ 9 ⟨bytes, []⟩ .default = .done (.ok r) ∧
        (r.nextEntry gnuFields 20).1 = .done (.error e) := by
  obtain ⟨r, res, hr, hres, hshown⟩ := firstCall_eq_some h
  cases res with
  | error e' => exact ⟨r, hr, by rw [hres, Except.error.inj hshown]⟩
  | ok o => cases hshown

theorem firstCall_ok {bytes : List UInt8} {path : SafePath} {info : Meta}
    (h : firstCall bytes = some (.ok (some (path, info)))) :
    ∃ (r : Opened Gnu.tar gnuFields (RawZstd.decoder (Replay (Script IoError)))) (e : ReadEntry),
      Reader.open Gnu.tar _ 9 ⟨bytes, []⟩ .default = .done (.ok r) ∧
        (r.nextEntry gnuFields 20).1 = .done (.ok (some e)) ∧ e.path = path ∧ e.info = info := by
  obtain ⟨r, res, hr, hres, hshown⟩ := firstCall_eq_some h
  cases res with
  | error e' => cases hshown
  | ok o =>
    cases o with
    | none => cases hshown
    | some e =>
      have hpair := Prod.mk.inj (Option.some.inj (Except.ok.inj hshown))
      exact ⟨r, e, hr, hres, hpair.1.symm, hpair.2.symm⟩

/-- A path that is the zstd magic. -/
def magicPath : SafePath := ⟨zstdMagic, by decide⟩

/-- The plain archive of a directory whose path is the zstd magic is written, and the default limits
have room for it, but the reader takes it for a compressed one and its first call fails. -/
theorem reading_undoes_writing_not_always :
    (toWrite magicPath).Gives (directory magicPath) ∧ (directory magicPath).Allowed .default ∧
      (plainWriter.append 9 (toWrite magicPath).entry).1 = .done (.ok ()) ∧
      ∃ out, ((plainWriter.append 9 (toWrite magicPath).entry).2.finish 9).1 = .done (.ok out) ∧
        out.sink.bytes.length = 1536 ∧
        ∃ r : Opened Gnu.tar gnuFields (RawZstd.decoder (Replay (Script IoError))),
          Reader.open Gnu.tar _ 9 ⟨out.sink.bytes, []⟩ .default = .done (.ok r) ∧
            (r.nextEntry gnuFields 20).1 = .done (.error .malformed) := by
  have hruns : (archived (toWrite magicPath).entry).map (fun z => (z.length, firstCall z)) =
      some (1536, some (.error .malformed)) := by
    decide +kernel
  obtain ⟨z, hz, hpair⟩ := Option.map_eq_some_iff.mp hruns
  obtain ⟨hlen, hcall⟩ := Prod.mk.inj hpair
  obtain ⟨happend, out, hfinish, rfl⟩ := archived_eq_some hz
  exact ⟨gives_directory (by decide), allowed_directory (by decide), happend, out, hfinish, hlen, firstCall_error hcall⟩

/-- The default limits admit a plain archive of entries they allow, however it comes. -/
theorem admits_plain {cs : List Content} {z : List UInt8} {beats : List (Beat IoError)} (hsteady : ∀ e, .fail e ∉ beats)
    (hallowed : ∀ c ∈ cs, c.Allowed .default) (hcount : cs.length ≤ SecurityLimits.default.maxEntries.toNat)
    (hlen : z.length ≤ 4096) (hraw : ¬ zstdMagic <+: z) :
    SecurityLimits.default.Admits (RawZstd.decoder (Replay (Script IoError))) RawZstd.unpack cs ⟨z, beats⟩ z := by
  have howes : Script.steadyFeed.Owes (⟨z, beats⟩ : Script IoError) z none := ⟨⟨rfl, rfl⟩, hsteady⟩
  have htotal : 4096 ≤ SecurityLimits.default.maxTotalBytes.toNat := by decide
  refine ⟨hallowed, hcount, ?_, ?_⟩
  · rw [contents, if_neg hraw]
    exact hlen.trans htotal
  · intro polls d hd
    exact keepsRatio_raw howes (by omega) hraw (by decide) hd

/-- A file of two bytes, that come in some beats. -/
def pairFile (beats : List (Beat IoError)) : Submission :=
  ⟨Script IoError, ⟨⟨sampleFile.path, ⟨420, 1000, 1000, 1700000000, .file⟩, 2, some ⟨[104, 105], beats⟩⟩, Or.inl ⟨rfl, rfl⟩⟩⟩

/-- What the archive of a file of two bytes holds. -/
def pair : Content := ⟨sampleFile.path, ⟨420, 1000, 1000, 1700000000, .file⟩, [104, 105]⟩

theorem gives_pairFile (beats : List (Beat IoError)) (h : ∀ e, .fail e ∉ beats) : (pairFile beats).Gives pair := by
  have hnormal : pair.path.Normalized := by decide
  have hmode : pair.info.mode.toNat < 8 ^ 7 := by decide
  refine ⟨rfl, rfl, hnormal, trivial, hmode, Script.steadyFeed, ⟨Script.steadyFair⟩, Script.steady_faultless, ?_, rfl⟩
  intro b hb
  obtain rfl := Option.some.inj hb
  exact ⟨⟨rfl, rfl⟩, h⟩

theorem allowed_pair : pair.Allowed .default := by
  refine ⟨by decide, by decide, by decide, ?_, ?_⟩
  · intro target hkind
    cases hkind
  · intro target hkind
    cases hkind

/-- A link with that target. -/
def linkTo (target : List UInt8) : Content := ⟨⟨[108], by decide⟩, ⟨511, 0, 0, 0, .symlink target⟩, []⟩

def toLink (target : List UInt8) : Submission :=
  ⟨Empty, ⟨⟨(linkTo target).path, (linkTo target).info, 0, none⟩, Or.inr ⟨by simp [linkTo], rfl, rfl⟩⟩⟩

theorem gives_link {target : List UInt8} (h : LinkField.Fits (storedTarget target)) :
    (toLink target).Gives (linkTo target) := by
  have hnormal : (linkTo target).path.Normalized := by
    show SafePath.Normalized ⟨[108], by decide⟩
    decide
  have hmode : (511 : UInt32).toNat < 8 ^ 7 := by decide
  refine ⟨rfl, rfl, hnormal, h, hmode, Empty.feed, ⟨Empty.fair⟩, Empty.faultless, ?_, rfl⟩
  intro b hb
  cases hb

theorem allowed_link (target : List UInt8) : (linkTo target).Allowed .default := by
  have hpath : (linkTo target).path.bytes.length = 1 := rfl
  refine ⟨?_, ?_, Nat.zero_le _, fun _ _ => rfl, fun _ _ => rfl⟩
  · rw [hpath]
    decide
  · rw [hpath]
    decide

/-- Append entries one after the other. -/
def writeAll {W : Type} [AsyncWrite IoError W] : List Submission → Writer Gnu.builder RawZstd.encoder W →
    Option (Writer Gnu.builder RawZstd.encoder W)
  | [], ω => some ω
  | s :: es, ω =>
    match (ω.append 99 s.entry).1 with
    | .done (.ok ()) => writeAll es (ω.append 99 s.entry).2
    | _ => none

/-- The plain archive of some entries, whose sink takes `chunk` bytes at a time. -/
def written (chunk : Nat) (es : List Submission) : Option (List UInt8) :=
  (writeAll es (.new (⟨[], chunk⟩ : Memory IoError) .tar)).bind fun ω =>
    match (ω.finish 99).1 with
    | .done (.ok out) => some out.sink.bytes
    | _ => none

theorem appends_of_writeAll {W : Type} [AsyncWrite IoError W] {start ω ω' : Writer Gnu.builder RawZstd.encoder W}
    {before es : List Submission} (h : start.Appends before ω) (hall : writeAll es ω = some ω') :
    start.Appends (before ++ es) ω' := by
  induction es generalizing before ω with
  | nil =>
    cases hall
    rwa [List.append_nil]
  | cons s es ih =>
    unfold writeAll at hall
    split at hall
    · rename_i hok
      rw [← List.singleton_append, ← List.append_assoc]
      exact ih (.append h s 99 hok) hall
    · cases hall

theorem written_eq_some {chunk : Nat} {es : List Submission} {z : List UInt8} (h : written chunk es = some z) :
    ∃ (ω : Writer Gnu.builder RawZstd.encoder (Memory IoError)) (out : _),
      (Writer.new ⟨[], chunk⟩ .tar).Appends es ω ∧ (ω.finish 99).1 = .done (.ok out) ∧ out.sink.bytes = z := by
  obtain ⟨ω, hall, hfinish⟩ := Option.bind_eq_some_iff.mp h
  split at hfinish
  · rename_i out hok
    exact ⟨ω, out, appends_of_writeAll .start hall, hok, Option.some.inj hfinish⟩
  · cases hfinish

/-- A path with an `L` record of its own. -/
def longPath : SafePath := ⟨List.replicate 101 100, by decide⟩

/-- The archive of a directory with a long path, a file and a link is read back from a source that
hands it out in parts; the target has lost a slash. -/
theorem reading_undoes_writing_sample :
    ∃ z, written 511 [toWrite longPath, pairFile [.give 0, .late], toLink [100, 47, 47, 120]] = some z ∧
      ReadsBack Gnu.tar gnuFields (RawZstd.decoder _) .default [directory longPath, pair, linkTo [100, 47, 120]]
        (⟨z, [.give 4, .late, .give 1021]⟩ : Script IoError) := by
  have hz : (written 511 [toWrite longPath, pairFile [.give 0, .late], toLink [100, 47, 47, 120]]).map
      (fun z => (z.length, decide (zstdMagic <+: z))) = some (4096, false) := by
    decide +kernel
  obtain ⟨z, hz, hpair⟩ := Option.map_eq_some_iff.mp hz
  obtain ⟨hlen, hraw⟩ := Prod.mk.inj hpair
  have hraw : ¬ zstdMagic <+: z := of_decide_eq_false hraw
  obtain ⟨ω, out, happends, hfinish, rfl⟩ := written_eq_some hz
  have hgives : List.Forall₂ Submission.Gives [toWrite longPath, pairFile [.give 0, .late], toLink [100, 47, 47, 120]]
      [directory longPath, pair, linkTo [100, 47, 47, 120]] :=
    .cons (gives_directory (by decide)) (.cons (gives_pairFile _ (by simp)) (.cons (gives_link (by decide)) .nil))
  obtain ⟨-, -, hread, -⟩ := reading_undoes_writing Gnu.packs RawZstd.encodes Gnu.reads Gnu.setsLinks Memory.fair
    Memory.faultless (Memory.holds_empty 511) Gnu.named Gnu.frames RawZstd.undoes hgives happends
  have hfirst : ∀ c ∈ [directory longPath, pair, linkTo [100, 47, 47, 120]].head?,
      c.path.bytes.length ≤ 100 → ¬ zstdMagic <+: c.path.bytes := by
    intro c hc _
    obtain rfl : directory longPath = c := Option.some.inj hc
    decide
  obtain ⟨z, rfl, hreadable⟩ := hread (fun _ => hfirst) 99 out hfinish
  have hsteady : ∀ e : IoError, .fail e ∉ [Beat.give 4, .late, .give 1021] := by simp
  have hallowed : ∀ c ∈ [directory longPath, pair, linkTo [100, 47, 120]], c.Allowed .default := by
    simp only [List.forall_mem_cons]
    exact ⟨allowed_directory (by decide), allowed_pair, allowed_link _, fun c hc => by cases hc⟩
  have howes : Script.steadyFeed.Owes (⟨out.sink.bytes, [.give 4, .late, .give 1021]⟩ : Script IoError)
      out.sink.bytes none :=
    ⟨⟨rfl, rfl⟩, hsteady⟩
  exact ⟨_, hz, hreadable _ _ (RawZstd.computes _) Script.steadyFair Script.steady_faultless _ howes _
    (admits_plain hsteady hallowed (by decide) (by omega) hraw)⟩

end Samples

end Etar
