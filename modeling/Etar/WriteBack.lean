import Etar.RoundTrip

/-!
# What writing keeps

A header has 100 bytes for a link target, and seven octal digits for a mode. A target that does
not fit is refused, though a reader takes longer ones from extension records, and one that fits is
kept up to slashes and dots between its names; a mode that does not fit is cut without a word. The
rest of an entry is kept.
-/
namespace Etar

open AsyncIo Limit Compress

theorem Submission.StoredAs.sameNumbers_iff {C : Coding} {s : Submission} {c : Content} (h : s.StoredAs C c) :
    c.info.SameNumbers s.entry.inner.info ↔ s.entry.inner.info.mode.toNat < 8 ^ 7 := by
  rw [h.info, ← storedMode_eq_iff]
  unfold Meta.stored
  constructor
  · intro hsame
    exact hsame.1
  · intro hmode
    exact ⟨hmode, rfl, rfl, rfl⟩

section Refusals

variable {B : Builder} {E : Encoder} {W : Type} [AsyncWrite IoError W] {R : Type} [AsyncRead IoError R]

theorem append_refused {ω : Writer B E W} (hlive : ω.failed = false) {entry : WriteEntry R} {e : IoError}
    (h : entry.inner.header B = .error e) (polls : Nat) : (ω.append polls entry).1 = .done (.error (.io e)) := by
  have hkind : entry.inner.info.kind ≠ .file := by
    intro hfile
    unfold PackEntry.header at h
    rw [hfile] at h
    cases h
  have hpack : ∀ {S : Type} [AsyncWrite IoError S] (state : B.State) (sink : S),
      pack polls state sink entry.inner = ⟨.done (.error (.io e)), state, sink⟩ := by
    intro S _ state sink
    obtain ⟨hfile, -⟩ | ⟨-, hsize, hbody⟩ := entry.checked
    · exact absurd hfile hkind
    · rw [pack_meta hkind hsize hbody, h]
  unfold Writer.append
  rw [if_neg (by simp [hlive])]
  cases ω.inner with
  | tar builder sink => simp only [hpack, Writer.guarded]
  | tarZstd builder sink => simp only [hpack, Writer.guarded]

end Refusals

section Archives

variable {C : Coding} {B : Builder} {E : Encoder} {Frame : List UInt8 → List UInt8 → Prop}
variable (pk : B.Packs C) (enc : E.Encodes Frame)
variable {W : Type} [AsyncWrite IoError W] {D : Drain IoError W}
variable {T : Tar} {H : HeaderFields} {F : TarFormat H} (rd : C.Reads F)
variable {decode : List UInt8 → List UInt8 × Option IoError}
variable (hlinks : B.SetsLinks) (Q : D.Fair) (hD : D.Faultless) {sink : W} (hsink : D.Holds sink [])

include pk enc rd hlinks Q hD hsink in
theorem metadata_append (format : Format) {entry : WriteEntry Empty} (hkind : entry.inner.info.kind ≠ .file) :
    (entry.inner.info.kind.Fits → C.Takes entry.inner.path →
      (∃ N, ∀ polls, N ≤ polls → ((Writer.new sink format : Writer B E W).append polls entry).1 = .done (.ok ())) ∧
        ∀ polls, ((Writer.new sink format : Writer B E W).append polls entry).1 ≠ .cancelled →
          ((Writer.new sink format : Writer B E W).append polls entry).1 = .done (.ok ())) ∧
    (¬ entry.inner.info.kind.Fits →
      ∃ e, ∀ polls, ((Writer.new sink format : Writer B E W).append polls entry).1 = .done (.error (.io e))) ∧
    (¬ C.Takes entry.inner.path →
      ∀ polls, ((Writer.new sink format : Writer B E W).append polls entry).1 ≠ .done (.ok ())) := by
  obtain ⟨hfile, -⟩ | ⟨-, hsize, hbody⟩ := entry.checked
  · exact absurd hfile hkind
  have hempty : Supplied Empty.feed entry.inner [] := by
    refine ⟨?_, by rw [hsize]; rfl⟩
    intro b hb
    rw [hbody] at hb
    cases hb
  refine ⟨?_, ?_, ?_⟩
  · intro hfits hpath
    exact append_succeeds pk enc rd hlinks Q hD hsink .start (s := ⟨Empty, entry⟩) hfits hpath Empty.fair
      Empty.faultless hempty
  · intro hbad
    cases hheader : entry.inner.header B with
    | ok header => exact absurd ((header_ok hlinks _).mp ⟨header, hheader⟩) hbad
    | error e => exact ⟨e, append_refused rfl hheader⟩
  · intro hbad polls hok
    have hempty := holds_new pk enc hsink format
    obtain ⟨m, hm, -⟩ := append_ok pk enc hempty hok
    exact hbad ⟨m.path, hm.path⟩

include pk enc rd hlinks Q hD hsink in
/-- A link, or a directory, that a reader handed out can be written again exactly if its target
fits the link field, joined of its components, and the builder takes its path; a target that does
not fit is refused. What was written is read back with the target so joined, which is an equal path,
unless the archive is a plain one whose path is short and begins with the zstd magic. -/
theorem links_are_written_back (hnamed : C.Named) (fr : T.Frames F) (hundoes : Undoes decode Frame)
    (format : Format) (e : ReadEntry) (hkind : e.info.kind ≠ .file) :
    ∃ entry, WriteEntry.metadata e.path e.info = .ok entry ∧
      let append polls := (Writer.new sink format : Writer B E W).append polls entry
      (e.info.kind.Fits → C.Takes e.path →
        (∃ N, ∀ polls, N ≤ polls → (append polls).1 = .done (.ok ())) ∧
          ∀ polls, (append polls).1 ≠ .cancelled → (append polls).1 = .done (.ok ())) ∧
      (¬ e.info.kind.Fits → ∃ err, ∀ polls, (append polls).1 = .done (.error (.io err))) ∧
      (¬ C.Takes e.path → ∀ polls, (append polls).1 ≠ .done (.ok ())) ∧
      ∀ polls, (append polls).1 = .done (.ok ()) →
        (∃ N out, ∀ more, N ≤ more → ((append polls).2.finish more).1 = .done (.ok out)) ∧
          ((format = .tar → ∀ written, C.setPath e.path.bytes = .ok written → written.length ≤ 100 →
              ¬ zstdMagic <+: written) →
            ∀ more out, ((append polls).2.finish more).1 = .done (.ok out) →
              ∃ z c, D.Holds out.sink z ∧ c.info.kind = e.info.kind.stored ∧ c.info.kind.Equal e.info.kind ∧
                C.setPath e.path.bytes = .ok c.path.bytes ∧ c.data = [] ∧ ReadableAs T H decode z [c]) := by
  let entry : WriteEntry Empty := ⟨⟨e.path, e.info, 0, none⟩, Or.inr ⟨hkind, rfl, rfl⟩⟩
  have hentry : entry.inner.info.kind ≠ .file := hkind
  obtain ⟨hfits, hbad, hnever⟩ := metadata_append pk enc rd hlinks Q hD hsink format hentry
  refine ⟨entry, dif_neg hkind, hfits, hbad, hnever, ?_⟩
  intro polls hok
  have happends := Writer.Appends.append .start ⟨Empty, _⟩ polls hok
  refine ⟨(finish_succeeds pk enc rd hlinks Q hD hsink happends).1, ?_⟩
  intro hfirst more out hfinish
  obtain ⟨ms, cs, hstands⟩ := stands_of_appends pk enc hlinks rd hsink happends
  have hunmistaken : format = .tar → Unmistaken C [⟨Empty, entry⟩] := by
    intro hformat s hs
    obtain rfl := Option.some.inj hs
    exact hfirst hformat
  obtain ⟨z, hholds, hreadable⟩ := readable_of_finish hnamed pk enc fr rd hundoes hstands hunmistaken hfinish
  cases hstands.stored with
  | @cons _ c _ cs hstored hnil =>
    cases hnil
    have hinfo : c.info.kind = e.info.kind.stored := by
      rw [hstored.info]
      rfl
    refine ⟨z, c, hholds, hinfo, ?_, hstored.path, ?_, hreadable⟩
    · rw [hinfo]
      exact Kind.stored_equal _
    · exact List.length_eq_zero_iff.mp hstored.length

include pk enc rd hlinks hsink in
/-- After appends that all succeeded, and a finish: the archive is read back as one content an
entry, and its numbers are those given exactly if the mode has no more than seven octal digits. -/
theorem numbers_are_kept_iff (hnamed : C.Named) (fr : T.Frames F) (hundoes : Undoes decode Frame)
    {format : Format} {es : List Submission} {ω : Writer B E W} (h : (Writer.new sink format).Appends es ω)
    (hfirst : format = .tar → Unmistaken C es) {polls : Nat} {out : WriteOutput W}
    (hok : (ω.finish polls).1 = .done (.ok out)) :
    ∃ z cs, D.Holds out.sink z ∧ ReadableAs T H decode z cs ∧
      List.Forall₂ (fun (s : Submission) (c : Content) =>
        c.info.SameNumbers s.entry.inner.info ↔ s.entry.inner.info.mode.toNat < 8 ^ 7) es cs := by
  obtain ⟨ms, cs, hstands⟩ := stands_of_appends pk enc hlinks rd hsink h
  obtain ⟨z, hholds, hreadable⟩ := readable_of_finish hnamed pk enc fr rd hundoes hstands hfirst hok
  exact ⟨z, cs, hholds, hreadable, hstands.stored.imp fun _ _ hs => hs.sameNumbers_iff⟩

end Archives

section Samples

def longTarget : List UInt8 := List.replicate 101 98

/-- An archive with one symlink, whose target comes from a `K` record. -/
def linkArchive : List UInt8 :=
  (Gnu.Fields.block ⟨[76], 0, 0, 0, 102, 0, 75, [], false⟩).bytes ++ longTarget ++ [0] ++ List.replicate 410 0 ++
    (Gnu.Fields.block ⟨[97], 511, 0, 0, 0, 0, 50, [], false⟩).bytes ++ terminators

/-- The reader hands out a link with that target, and the writer refuses it. -/
theorem links_are_not_always_written_back :
    ∃ (r : Opened Gnu.tar gnuFields (RawZstd.decoder (Replay (Script IoError)))) (e : ReadEntry),
      Reader.open Gnu.tar _ 9 ⟨linkArchive, []⟩ .default = .done (.ok r) ∧
        (r.nextEntry gnuFields 20).1 = .done (.ok (some e)) ∧ e.info.kind = .symlink longTarget ∧
        ∃ entry, WriteEntry.metadata e.path e.info = .ok entry ∧
          ∃ err, ∀ polls, (plainWriter.append polls entry).1 = .done (.error (.io err)) := by
  have hcall : firstCall linkArchive = some (.ok (some (⟨[97], by decide⟩, ⟨511, 0, 0, 0, .symlink longTarget⟩))) := by
    decide +kernel
  obtain ⟨r, e, hopen, hnext, -, hinfo⟩ := firstCall_ok hcall
  have hkind : e.info.kind ≠ .file := by
    rw [hinfo]
    simp
  let entry : WriteEntry Empty := ⟨⟨e.path, e.info, 0, none⟩, Or.inr ⟨hkind, rfl, rfl⟩⟩
  have hentry : entry.inner.info.kind ≠ .file := hkind
  have hlong : ¬ LinkField.Fits (storedTarget longTarget) := by decide +kernel
  have hfits : ¬ e.info.kind.Fits := by
    rw [hinfo]
    exact hlong
  obtain ⟨-, hbad, -⟩ := metadata_append Gnu.packs RawZstd.encodes Gnu.reads Gnu.setsLinks Memory.fair Memory.faultless
    (Memory.holds_empty 511) .tar hentry
  exact ⟨r, e, hopen, hnext, by rw [hinfo], entry, dif_neg hkind, hbad hfits⟩

def slashes : List UInt8 := 98 :: List.replicate 119 47 ++ [99]

/-- It is written, and read back from a compressed archive with one slash. -/
theorem links_are_written_back_sample :
    let info : Meta := ⟨511, 0, 0, 0, .hardlink slashes⟩
    let ω : Writer Gnu.builder RawZstd.encoder (Memory IoError) := .new ⟨[], 511⟩ .tarZstd
    ∃ entry polls more out, WriteEntry.metadata ⟨[97], by decide⟩ info = .ok entry ∧
      (ω.append polls entry).1 = .done (.ok ()) ∧ ((ω.append polls entry).2.finish more).1 = .done (.ok out) ∧
        ∃ z c, Memory.drain.Holds out.sink z ∧ c.info.kind = .hardlink [98, 47, 99] ∧
          ReadableAs Gnu.tar gnuFields RawZstd.unpack z [c] := by
  intro info ω
  obtain ⟨entry, hentry, hfits, -, -, hback⟩ := links_are_written_back Gnu.packs RawZstd.encodes Gnu.reads
    Gnu.setsLinks Memory.fair Memory.faultless (Memory.holds_empty 511) Gnu.named Gnu.frames RawZstd.undoes .tarZstd
    ⟨⟨[97], by decide⟩, info, 0, .new () 0⟩ (by simp [info])
  have hstored : storedTarget slashes = [98, 47, 99] := by decide +kernel
  have hfield : LinkField.Fits (storedTarget slashes) := by
    rw [hstored]
    decide
  obtain ⟨⟨N, hN⟩, -⟩ := hfits hfield ⟨_, rfl⟩
  obtain ⟨⟨M, out, hM⟩, hread⟩ := hback N (hN N (le_refl N))
  obtain ⟨z, c, hholds, hkind, -, -, -, hreadable⟩ := hread (by simp) M out (hM M (le_refl M))
  have hkind : c.info.kind = .hardlink (storedTarget slashes) := hkind
  rw [hstored] at hkind
  exact ⟨entry, N, M, out, hentry, hN N (le_refl N), hM M (le_refl M), z, c, hholds, hkind, hreadable⟩

/-- The directory, with a mode of eight octal digits. -/
def wideMode (path : SafePath) : Submission where
  R := Empty
  entry := {
    inner := { (toWrite path).entry.inner with info := { (directory path).info with mode := 2097152 } }
    checked := (toWrite path).entry.checked }

/-- It is written without an error, and read back with the mode 0. -/
theorem numbers_are_not_always_kept :
    let entry := (wideMode ⟨[97], by decide⟩).entry
    (plainWriter.append 9 entry).1 = .done (.ok ()) ∧
      ∃ out, ((plainWriter.append 9 entry).2.finish 9).1 = .done (.ok out) ∧
        ∃ (r : Opened Gnu.tar gnuFields (RawZstd.decoder (Replay (Script IoError)))) (e : ReadEntry),
          Reader.open Gnu.tar _ 9 ⟨out.sink.bytes, []⟩ .default = .done (.ok r) ∧
            (r.nextEntry gnuFields 20).1 = .done (.ok (some e)) ∧ e.path = entry.inner.path ∧ e.info.mode = 0 := by
  intro entry
  have hruns : (archived entry).map firstCall =
      some (some (.ok (some (entry.inner.path, { entry.inner.info with mode := 0 })))) := by
    decide +kernel
  obtain ⟨z, hz, hcall⟩ := Option.map_eq_some_iff.mp hruns
  obtain ⟨happend, out, hfinish, rfl⟩ := archived_eq_some hz
  obtain ⟨r, e, hopen, hnext, hpath, hinfo⟩ := firstCall_ok hcall
  exact ⟨happend, out, hfinish, r, e, hopen, hnext, hpath, by rw [hinfo]⟩

theorem numbers_are_kept_iff_sample :
    let s := wideMode ⟨[97], by decide⟩
    ∃ z cs, archived s.entry = some z ∧ ReadableAs Gnu.tar gnuFields RawZstd.unpack z cs ∧
      ∀ c ∈ cs, ¬ c.info.SameNumbers s.entry.inner.info := by
  intro s
  have hsome : (archived s.entry).isSome = true := by
    decide +kernel
  obtain ⟨z, hz⟩ := Option.isSome_iff_exists.mp hsome
  obtain ⟨happend, out, hfinish, rfl⟩ := archived_eq_some hz
  have happends : plainWriter.Appends [s] _ := .append .start s 9 happend
  have hfirst : Unmistaken Gnu.coding [s] := by
    intro s' hs path hpath _
    obtain rfl := Option.some.inj hs
    have hpath : Except.ok [97] = Except.ok path := hpath
    rw [← Except.ok.inj hpath]
    decide
  obtain ⟨z, cs, rfl, hreadable, hkept⟩ := numbers_are_kept_iff Gnu.packs RawZstd.encodes Gnu.reads Gnu.setsLinks
    (Memory.holds_empty 511) Gnu.named Gnu.frames RawZstd.undoes happends (fun _ => hfirst) hfinish
  refine ⟨_, cs, hz, hreadable, ?_⟩
  cases hkept with
  | cons hc hnil =>
    cases hnil
    intro c hmem
    rw [List.mem_singleton.mp hmem, hc]
    decide

end Samples

end Etar
