import Etar.Cursor
import Etar.Journal
import Etar.RoundTrip

/-!
# What an unfinished writer leaves

A plain writer that is dropped before `finish`, after whatever appends went well, failed or were
given up, leaves whole members and the front of one more. No reader takes that for an archive: the
end blocks are missing, and nothing in front of them can stand for them.
-/
namespace Etar

open AsyncIo Limit Compress Guard
open Scan (carry)

section Heads

variable {H : HeaderFields} {F : TarFormat H} {max : Nat}

theorem Block.bytes_inj_append {a b : Block} {s t : List UInt8} (h : a.bytes ++ s = b.bytes ++ t) : a = b ∧ s = t := by
  obtain ⟨hbytes, hrest⟩ := List.append_inj h (a.length_bytes.trans b.length_bytes.symm)
  exact ⟨Block.ext_of hbytes, hrest⟩

/-- Complete records that begin with a member's record, and a zero block behind them. -/
theorem framed_member_head {p : Option Nat} {x : F.Ext} {h : Block} {body pad s t recs : List UInt8} {items : List Item}
    (hz : h.isZero = false) (hk : isExtension h.typeflag = false) (hlen : F.size x h = .ok body.length)
    (hp : (body ++ pad).length = roundUp body.length) (hf : Framed F max p x recs items)
    (hs : h.bytes ++ ((body ++ pad) ++ s) = recs ++ (Block.zero.bytes ++ t)) :
    ∃ recs' items', recs = h.bytes ++ ((body ++ pad) ++ recs') ∧ s = recs' ++ (Block.zero.bytes ++ t) ∧
      Framed F max none F.start recs' items' := by
  cases hf with
  | nil p x =>
    rw [List.nil_append] at hs
    obtain ⟨rfl, -⟩ := Block.bytes_inj_append hs
    rw [Block.isZero_zero] at hz
    cases hz
  | @extension p p' x x' h' body' pad' s' items ha hk' hp' hc he hr =>
    rw [List.append_assoc h'.bytes] at hs
    obtain ⟨rfl, -⟩ := Block.bytes_inj_append hs
    rw [hk] at hk'
    cases hk'
  | @member p x h' body' pad' s' entry items ha hk' hp' he hr =>
    rw [List.append_assoc h'.bytes] at hs
    obtain ⟨rfl, hbehind⟩ := Block.bytes_inj_append hs
    have hsame : body.length = body'.length := Except.ok.inj (hlen.symm.trans ha.size)
    rw [List.append_assoc (body' ++ pad')] at hbehind
    obtain ⟨hpayload, hrest⟩ := List.append_inj hbehind (by rw [hp, hp', hsame])
    exact ⟨s', _, by rw [hpayload], hrest, hr⟩

/-- Complete records that begin with an extension's record, and a zero block behind them. -/
theorem framed_extension_head {p : Option Nat} {x : F.Ext} {h : Block} {body pad s t recs : List UInt8}
    {items : List Item} (hz : h.isZero = false) (hk : isExtension h.typeflag = true)
    (hlen : F.size x h = .ok body.length) (hp : (body ++ pad).length = roundUp body.length)
    (hf : Framed F max p x recs items) (hs : h.bytes ++ ((body ++ pad) ++ s) = recs ++ (Block.zero.bytes ++ t)) :
    ∃ p' x' recs' items', recs = h.bytes ++ ((body ++ pad) ++ recs') ∧ s = recs' ++ (Block.zero.bytes ++ t) ∧
      carry p h body = .ok p' ∧ F.extend x h body = .ok x' ∧ Framed F max p' x' recs' items' := by
  cases hf with
  | nil p x =>
    rw [List.nil_append] at hs
    obtain ⟨rfl, -⟩ := Block.bytes_inj_append hs
    rw [Block.isZero_zero] at hz
    cases hz
  | @member p x h' body' pad' s' entry items ha hk' hp' he hr =>
    rw [List.append_assoc h'.bytes] at hs
    obtain ⟨rfl, -⟩ := Block.bytes_inj_append hs
    rw [hk] at hk'
    cases hk'
  | @extension p p' x x' h' body' pad' s' items ha hk' hp' hc he hr =>
    rw [List.append_assoc h'.bytes] at hs
    obtain ⟨rfl, hbehind⟩ := Block.bytes_inj_append hs
    have hsame : body.length = body'.length := Except.ok.inj (hlen.symm.trans ha.size)
    rw [List.append_assoc (body' ++ pad')] at hbehind
    obtain ⟨hpayload, hrest⟩ := List.append_inj hbehind (by rw [hp, hp', hsame])
    obtain ⟨rfl, rfl⟩ := List.append_inj hpayload hsame
    exact ⟨p', x', s', items, rfl, hrest, hc, he, hr⟩

end Heads

section Records

variable {C : Coding} {H : HeaderFields} {F : TarFormat H} (rd : C.Reads F) {max : Nat}

/-- A member as packing makes it: of a type that packing sets, with a path a header or an `L` record
can carry, and with a body of the size in its header. -/
structure Member.Made (m : Member) : Prop where
  packed : m.header.entryType.Packed
  path : ∃ q : SafePath, m.path = q.bytes ∧ q.bytes.length + 1 < 2 ^ 64
  size : m.header.size.toNat = m.body.length

include rd

theorem framed_records_head {m : Member} (hm : m.Made) {s t recs : List UInt8} {items : List Item}
    (hf : Framed F max none F.start recs items) (hs : C.records m ++ s = recs ++ (Block.zero.bytes ++ t)) :
    ∃ recs' items', recs = C.records m ++ recs' ∧ s = recs' ++ (Block.zero.bytes ++ t) ∧
      Framed F max none F.start recs' items' := by
  obtain ⟨q, hpath, hfits⟩ := hm.path
  obtain ⟨-, hext, h0⟩ := hm.packed.asByte
  rw [← rd.typeflag m.header m.path] at hext h0
  have hz := Block.nonzero_of_typeflag h0
  have hpad := length_append_padding m.body
  by_cases hshort : m.path.length ≤ 100
  · have hrecords : C.records m = (C.block m.header m.path).bytes ++ (m.body ++ padding m.body.length) := by
      rw [Coding.records, Coding.head, if_pos hshort, List.append_assoc]
    have hlen := rd.accepts F.start m.header m.path F.paxSize_start
    rw [hm.size] at hlen
    rw [hrecords, List.append_assoc] at hs
    obtain ⟨recs', items', rfl, hrest, hf'⟩ := framed_member_head hz hext hlen hpad hf hs
    exact ⟨recs', items', by rw [hrecords, List.append_assoc (C.block m.header m.path).bytes], hrest, hf'⟩
  · have hlong : 100 < q.bytes.length := by
      rw [← hpath]
      omega
    have hrecords : C.records m = (C.longName m.path).bytes ++ (((m.path ++ [0]) ++ padding (m.path ++ [0]).length) ++
        ((C.block m.header m.path).bytes ++ (m.body ++ padding m.body.length))) := by
      rw [Coding.records, Coding.head, if_neg hshort, Coding.longRecord]
      simp only [List.append_assoc, List.length_append, List.length_singleton]
    rw [← hpath] at hfits
    have hflag := rd.long_typeflag m.path
    have hz' : (C.longName m.path).isZero = false := Block.nonzero_of_typeflag (by rw [hflag]; decide)
    have hlen' := rd.long_accepts (F := F) m.path hfits
    rw [← List.length_singleton (a := (0 : UInt8)), ← List.length_append] at hlen'
    rw [hrecords] at hs
    simp only [List.append_assoc (C.longName m.path).bytes, List.append_assoc (_ ++ padding (m.path ++ [0]).length)] at hs
    obtain ⟨p', x, recs₁, items₁, hrecs, hrest, hcarry, hextend, hf₁⟩ :=
      framed_extension_head hz' (by rw [hflag]; decide) hlen' (length_append_padding _) hf hs
    obtain ⟨x', hextend', -⟩ := rd.long q hlong
    rw [← hpath] at hextend'
    obtain rfl : x' = x := Except.ok.inj (hextend'.symm.trans hextend)
    have hnone : F.paxSize x' = none :=
      (F.paxSize_keep hextend (by rw [hflag]; decide)).trans F.paxSize_start
    have hlen := rd.accepts x' m.header m.path hnone
    rw [hm.size] at hlen
    rw [List.append_assoc (C.block m.header m.path).bytes] at hrest
    obtain ⟨recs', items', rfl, hrest', hf'⟩ := framed_member_head hz hext hlen hpad hf₁ hrest
    exact ⟨recs', items', by rw [hrecs, hrecords]; simp only [List.append_assoc], hrest', hf'⟩

/-- Whole members and the front of one more are not complete records with a zero block behind. -/
theorem not_framed_front {ms : List Member} (hms : ∀ m ∈ ms, m.Made) {out : List UInt8}
    (hout : out = [] ∨ ∃ m : Member, m.Made ∧ out <+: C.records m) {t recs : List UInt8} {items : List Item}
    (hf : Framed F max none F.start recs items) : C.stream ms ++ out ≠ recs ++ (Block.zero.bytes ++ t) := by
  induction ms generalizing recs items with
  | nil =>
    intro hs
    rw [show C.stream [] = [] from rfl, List.nil_append] at hs
    rcases hout with rfl | ⟨m, hm, more, hmore⟩
    · have := congrArg List.length hs
      simp only [List.length_nil, List.length_append, Block.length_bytes] at this
      omega
    · rw [hs, List.append_assoc, List.append_assoc] at hmore
      obtain ⟨recs', items', rfl, hnil, -⟩ := framed_records_head rd hm hf
        (s := []) (t := t ++ more) (by rw [List.append_nil, hmore])
      have := congrArg List.length hnil
      simp only [List.length_nil, List.length_append, Block.length_bytes] at this
      omega
  | cons m ms ih =>
    intro hs
    have hstream : C.stream (m :: ms) = C.records m ++ C.stream ms := List.flatMap_cons
    rw [hstream, List.append_assoc] at hs
    obtain ⟨recs', items', -, hrest, hf'⟩ := framed_records_head rd (hms m List.mem_cons_self) hf hs
    exact ih (fun m' h => hms m' (List.mem_cons_of_mem _ h)) hf' hrest

end Records

section Made

variable {B : Builder} {C : Coding} {R : Type} [AsyncRead IoError R] {H : HeaderFields} {F : TarFormat H} (rd : C.Reads F)

/-- The front of a made member's records, or nothing. -/
def Begun (C : Coding) (out : List UInt8) : Prop := out = [] ∨ ∃ m : Member, m.Made ∧ out <+: C.records m

omit [AsyncRead IoError R] in
include rd in
theorem made_path {entry : PackEntry R} (hfits : entry.path.bytes.length + 1 < 2 ^ 64) {path : List UInt8}
    (h : C.setPath entry.path.bytes = .ok path) : ∃ q : SafePath, path = q.bytes ∧ q.bytes.length + 1 < 2 ^ 64 := by
  obtain ⟨q, rfl, hle, -⟩ := rd.setPath h
  exact ⟨q, rfl, by omega⟩

include rd in
/-- The rest of the body may be anything. -/
theorem Torn.begun {entry : PackEntry R} (hfits : entry.path.bytes.length + 1 < 2 ^ 64) {m : Member} {out : List UInt8}
    (h : Torn B C entry m out) : Begun C out := by
  have hwhole : (m.body ++ List.replicate (m.header.size.toNat - m.body.length) 0).length = m.header.size.toNat := by
    have hle := h.within
    rw [List.length_append, List.length_replicate]
    omega
  refine Or.inr ⟨⟨m.header, m.path, m.body ++ List.replicate (m.header.size.toNat - m.body.length) 0⟩,
    ⟨(header_packed h.header).1, made_path rd hfits h.path, hwhole.symm⟩, ?_⟩
  rcases h.front with hfront | ⟨hlen, hfront⟩
  · refine hfront.trans ?_
    rw [Coding.records, List.append_assoc, List.append_assoc, ← List.append_assoc]
    exact List.prefix_append _ _
  · rw [hlen, Nat.sub_self, List.replicate_zero, List.append_nil]
    exact hfront

include rd in
theorem made_of_stored {entry : WriteEntry R} (hfits : entry.inner.path.bytes.length + 1 < 2 ^ 64) {m : Member}
    (h : Stored B C entry.inner m) : m.Made := by
  obtain ⟨hpacked, hsize⟩ := header_packed h.header
  refine ⟨hpacked, made_path rd hfits h.path, ?_⟩
  have hwhole := h.whole
  rcases entry.checked with ⟨hk, hb⟩ | ⟨hk, h0, hb⟩
  · obtain ⟨b, hb⟩ := Option.isSome_iff_exists.mp hb
    rw [hb] at hwhole
    obtain ⟨e, hended, hm⟩ := hwhole
    rw [hsize, if_pos hk, Exact.length_ended hended hm]
  · rw [hb] at hwhole
    rw [hsize, if_neg hk, show m.body = [] from hwhole]
    rfl

/-- A journal of made members, torn in one more. -/
structure Journal.Made (C : Coding) (j : Journal) : Prop where
  members : ∀ m ∈ j.members, m.Made
  torn : Begun C (j.torn.getD [])

include rd in
theorem Journal.Run.made {calls : List (Submission × Await (Except Error Unit))} {j : Journal}
    (h : Run B C empty calls j) (hfits : ∀ c ∈ calls, c.1.entry.inner.path.bytes.length + 1 < 2 ^ 64) : j.Made C := by
  induction h with
  | start => exact ⟨fun _ hm => absurd hm List.not_mem_nil, Or.inl rfl⟩
  | @step calls j j' call h hs ih =>
    have hj := ih fun c hc => hfits c (List.mem_append_left _ hc)
    have hlast := hfits call (List.mem_append_right _ (List.mem_singleton_self _))
    cases hs with
    | @stores ms s m hstored =>
      refine ⟨fun m' hm' => ?_, Or.inl rfl⟩
      rcases List.mem_append.mp hm' with hold | hnew
      · exact hj.members m' hold
      · obtain rfl := List.mem_singleton.mp hnew
        exact made_of_stored rd hlast hstored
    | @tears ms s o out ho htorn => exact ⟨hj.members, htorn.elim Or.inl fun ⟨m, hm⟩ => hm.begun rd hlast⟩
    | refuses => exact hj

end Made

section Archives

variable {B : Builder} {E : Encoder} {C : Coding} {Frame : List UInt8 → List UInt8 → Prop}
variable {W : Type} [AsyncWrite IoError W] {D : Drain IoError W} (pk : B.Packs C) (enc : E.Encodes Frame)
variable {T : Tar} {H : HeaderFields} {F : TarFormat H} (fr : T.Frames F) (rd : C.Reads F)
variable {decode : List UInt8 → List UInt8 × Option IoError}

/-- No reader over a source of the bytes `z`, whatever its limits are, comes to the end of it. -/
def Endless (T : Tar) (H : HeaderFields) (decode : List UInt8 → List UInt8 × Option IoError) (z : List UInt8) : Prop :=
  ∀ {R : Type} [AsyncRead IoError R] (dec : Decoder (Replay R)) (S : Feed IoError R), dec.Computes decode S →
    dec.ReadsToEnd → ∀ source, S.Owes source z none → ∀ (limits : SecurityLimits) (polls : Nat),
    (∀ report, Reader.validate H T dec polls source limits ≠ .done (.ok report)) ∧
    ∀ r : Opened T H dec, Reader.open T dec polls source limits = .done (.ok r) →
      ∀ room evs σ, Session.Run H room ⟨r, none⟩ evs σ → Event.next (.done (.ok none)) ∉ evs

include fr in
/-- A decoded stream without complete records in front of a zero block is endless. -/
theorem endless_of_unframed {z : List UInt8} (hz : z.length < 2 ^ 64) (hmagic : ¬ zstdMagic <+: z)
    (hopen : ∀ max recs items t, Framed F max none F.start recs items → z ≠ recs ++ (Block.zero.bytes ++ t)) :
    Endless T H decode z := by
  intro R _ dec S hC hend source howes limits polls
  have hcontents : contents decode z = (z, none) := by rw [contents, if_neg hmagic]
  have hD : (contents decode z).1.length < 2 ^ 64 := by rwa [hcontents]
  constructor
  · intro report hreport
    rcases validate_done hreport with ⟨e, he, -⟩ | ⟨r, hr, hres⟩
    · cases he
    · obtain ⟨-, haccounts⟩ := accounts_of_validating fr hC hend howes hz hcontents hz hr hres
      obtain ⟨recs, items, t, harch, -⟩ := haccounts.members
      exact hopen _ recs items t harch.framed harch.bytes_eq
  · intro r hr room evs σ hrun hmem
    obtain ⟨-, -, t, ht, -⟩ := ended_of_mem fr hC howes hD hr hrun hmem
    rw [hcontents] at ht
    obtain ⟨recs, hbytes, hframed⟩ := (outlined_outline F limits z).framed ht
    exact hopen _ recs _ t hframed hbytes

include pk enc fr rd in
/-- What a plain writer leaves that was not finished is never read to its end, whatever its appends
came to and whoever reads it: it does not validate, and no traversal of it reports `Ok(None)`. -/
theorem unfinished_archives_have_no_end {sink : W} (hsink : D.Holds sink []) {es : List Submission} {ω : Writer B E W}
    (h : (Writer.new sink .tar : Writer B E W).Tries es ω)
    (hfits : ∀ s ∈ es, s.entry.inner.path.bytes.length + 1 < 2 ^ 64) :
    ∃ z, D.Holds ω.inner.sink z ∧ (z.length < 2 ^ 64 → ¬ zstdMagic <+: z → Endless T H decode z) := by
  obtain ⟨calls, hcalls, htrying⟩ := h.trying
  obtain ⟨j, hrun, hkeeps⟩ := (Writer.keeps_new pk enc hsink .tar).trying pk enc htrying
  have hmade : j.Made C := hrun.made rd fun c hc => hfits c.1 (hcalls ▸ List.mem_map_of_mem hc)
  exact ⟨j.bytes C, hkeeps.sink_holds, fun hz hmagic =>
    endless_of_unframed fr hz hmagic fun max recs items t hf => not_framed_front rd hmade.members hmade.torn hf⟩

end Archives

section Samples

def shortFile : Submission :=
  ⟨Script IoError, ⟨⟨sampleFile.path, ⟨420, 1000, 1000, 1700000000, .file⟩, 2, some ⟨[104], []⟩⟩, Or.inl ⟨rfl, rfl⟩⟩⟩

/-- A plain writer that was given a directory, and a file whose body ends early. -/
def cutShort : Writer Gnu.builder RawZstd.encoder (Memory IoError) :=
  ((plainWriter.append 9 (toWrite sampleDir.inner.path).entry).2.append 9 shortFile.entry).2

/-- It leaves the directory, the header of the file and a byte of its body. -/
theorem unfinished_archives_have_no_end_sample :
    cutShort.inner.sink.bytes.length = 1025 ∧ Endless Gnu.tar gnuFields RawZstd.unpack cutShort.inner.sink.bytes := by
  have hlength : cutShort.inner.sink.bytes.length = 1025 := by decide +kernel
  have hmagic : ¬ zstdMagic <+: cutShort.inner.sink.bytes := by decide +kernel
  have htries : plainWriter.Tries [toWrite ⟨[100], by decide⟩, shortFile] cutShort :=
    .append (.append .start _ 9) shortFile 9
  have hfits : ∀ s ∈ [toWrite ⟨[100], by decide⟩, shortFile], s.entry.inner.path.bytes.length + 1 < 2 ^ 64 := by
    intro s hs
    rcases List.mem_pair.mp hs with rfl | rfl <;> decide
  obtain ⟨z, rfl, hendless⟩ := unfinished_archives_have_no_end Gnu.packs RawZstd.encodes Gnu.frames Gnu.reads
    (Memory.holds_empty 511) htries hfits
  exact ⟨hlength, hendless (by rw [hlength]; decide) hmagic⟩

end Samples

end Etar
