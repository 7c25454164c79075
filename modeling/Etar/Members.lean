import Etar.CleanEnd
import Etar.PackSpec
import Etar.Targets
import Mathlib.Data.List.Forall2

/-!
# Members read back

What is assumed of the two halves of the tar crate together: the parser accepts the records
that the builder writes, and reads the same header, path and link target off them. Members
written one after the other are then what the parser hands out, and limits with room for
them open each as the entry it was written from.
-/
namespace Etar

open AsyncIo Limit
open Guard (isExtension)

/-- A path of names only: no piece is empty or `.`. -/
def SafePath.Normalized (p : SafePath) : Prop := ∀ piece ∈ p.bytes.splitOn 47, component piece ≠ none

instance : DecidablePred SafePath.Normalized := fun p =>
  inferInstanceAs (Decidable (∀ piece ∈ p.bytes.splitOn 47, component piece ≠ none))

/-- A text that the link field can hold. -/
def LinkField.Fits (text : List UInt8) : Prop := text ≠ [] ∧ text.length ≤ 100 ∧ 0 ∉ text

instance : DecidablePred LinkField.Fits := fun text =>
  inferInstanceAs (Decidable (text ≠ [] ∧ text.length ≤ 100 ∧ 0 ∉ text))

def EntryType.Packed (t : EntryType) : Prop := t = .regular ∨ t = .directory ∨ t = .symlink ∨ t = .link

/-- A link target is stored component by component, or refused when that does not fit. -/
structure Builder.SetsLinks (B : Builder) : Prop where
  stores : ∀ {target}, LinkField.Fits (storedTarget target) →
    ∃ field, B.setLinkName target = .ok field ∧ field.text = storedTarget target
  refuses : ∀ {target}, ¬ LinkField.Fits (storedTarget target) → ∃ e, B.setLinkName target = .error e

/-- The records of a member are longer than its body, and than a path with an `L` record. -/
theorem length_records (C : Coding) (m : Member) :
    512 + m.body.length ≤ (C.records m).length ∧
      (100 < m.path.length → 512 + m.path.length + 1 ≤ (C.records m).length) := by
  simp only [Coding.records, Coding.head, List.length_append]
  split
  · rw [Block.length_bytes]
    omega
  · simp only [Coding.longRecord, List.length_append, Block.length_bytes, List.length_singleton]
    omega

variable {H : HeaderFields}

/-- What the parser is to report about a member. -/
structure Reported (header : Header) (block : Block) (path : List UInt8) (entry : TarEntry) : Prop where
  header_eq : entry.header = block
  path_eq : entry.path = some path
  link_eq : header.linkName.text ≠ [] → entry.linkName = some (some header.linkName.text)

/-- What is assumed of the records: the parser reads back what the builder put into them.
The mode field keeps seven octal digits. -/
structure Coding.Reads (C : Coding) (F : TarFormat H) : Prop where
  setPath : ∀ {p : SafePath} {path}, C.setPath p.bytes = .ok path →
    ∃ q : SafePath, path = q.bytes ∧ q.bytes.length ≤ p.bytes.length ∧ (p.Normalized → q = p)
  typeflag : ∀ header path, (C.block header path).typeflag = header.entryType.asByte
  entryType : ∀ header path, header.entryType.Packed → H.entryType (C.block header path) = header.entryType
  size : ∀ header path, H.size (C.block header path) = some header.size
  mode : ∀ header path, H.mode (C.block header path) = some (.ofNat (header.mode.toNat % 8 ^ 7))
  uid : ∀ header path, header.uid.toNat < 2 ^ 32 → H.uid (C.block header path) = some header.uid
  gid : ∀ header path, header.gid.toNat < 2 ^ 32 → H.gid (C.block header path) = some header.gid
  mtime : ∀ header path, H.mtime (C.block header path) = some header.mtime
  accepts : ∀ x header path, F.paxSize x = none → F.size x (C.block header path) = .ok header.size.toNat
  short : ∀ header (q : SafePath), q.bytes.length ≤ 100 →
    ∃ entry, F.entry F.start (C.block header q.bytes) = .ok entry ∧
      Reported header (C.block header q.bytes) q.bytes entry
  long_typeflag : ∀ path, (C.longName path).typeflag = EntryType.asByte .gnuLongName
  long_size : ∀ path, path.length + 1 < 2 ^ 64 → H.size (C.longName path) = some (.ofNat (path.length + 1))
  long_accepts : ∀ path, path.length + 1 < 2 ^ 64 → F.size F.start (C.longName path) = .ok (path.length + 1)
  long : ∀ q : SafePath, 100 < q.bytes.length →
    ∃ x, F.extend F.start (C.longName q.bytes) (q.bytes ++ [0]) = .ok x ∧
      ∀ header, ∃ entry, F.entry x (C.block header q.bytes) = .ok entry ∧
        Reported header (C.block header q.bytes) q.bytes entry

/-- What an archive holds of an entry. -/
structure Content where
  path : SafePath
  info : Meta
  data : List UInt8

/-- The entry that a reader hands out for it. -/
def Content.opened (c : Content) (limits : SecurityLimits) : ReadEntry :=
  ⟨c.path, c.info, c.data.length, .new () limits.maxEntryBytes.toNat⟩

structure Content.Allowed (c : Content) (limits : SecurityLimits) : Prop where
  path_len : c.path.bytes.length ≤ limits.maxPathLen.toNat
  long_name : 100 < c.path.bytes.length → c.path.bytes.length + 1 ≤ limits.maxMetadataBytes.toNat
  entry_bytes : c.data.length ≤ limits.maxEntryBytes.toNat
  symlinks : ∀ target, c.info.kind = .symlink target → limits.allowSymlinks = true
  hardlinks : ∀ target, c.info.kind = .hardlink target → limits.allowHardlinks = true

/-- How a kind is set on a header. -/
def Kind.SetOn (header : Header) : Kind → Prop
  | .file => header.entryType = .regular
  | .dir => header.entryType = .directory ∧ header.size = 0
  | .symlink target =>
    header.entryType = .symlink ∧ header.size = 0 ∧ header.linkName.text = target ∧ target ≠ []
  | .hardlink target =>
    header.entryType = .link ∧ header.size = 0 ∧ header.linkName.text = target ∧ target ≠ []

/-- The member `m` holds the content `c`. -/
structure Member.Files (m : Member) (c : Content) : Prop where
  path : m.path = c.path.bytes
  body : m.body = c.data
  size : m.header.size.toNat = c.data.length
  mode : c.info.mode = .ofNat (m.header.mode.toNat % 8 ^ 7)
  uid : m.header.uid = c.info.uid.toUInt64
  gid : m.header.gid = c.info.gid.toUInt64
  mtime : m.header.mtime = c.info.mtimeUnixSecs
  kind : c.info.kind.SetOn m.header

theorem Member.Files.packed {m : Member} {c : Content} (h : m.Files c) : m.header.entryType.Packed := by
  have hk := h.kind
  cases hkind : c.info.kind with
  | file => exact Or.inl (by rwa [hkind] at hk)
  | dir =>
    rw [hkind] at hk
    exact Or.inr (Or.inl hk.1)
  | symlink target =>
    rw [hkind] at hk
    exact Or.inr (Or.inr (Or.inl hk.1))
  | hardlink target =>
    rw [hkind] at hk
    exact Or.inr (Or.inr (Or.inr hk.1))

theorem EntryType.Packed.asByte {t : EntryType} (h : t.Packed) :
    t.asByte ∈ Guard.allowedFlags ∧ isExtension t.asByte = false ∧ t.asByte ≠ 0 := by
  rcases h with rfl | rfl | rfl | rfl <;> decide

theorem Block.nonzero_of_typeflag {b : Block} (h : b.typeflag ≠ 0) : b.isZero = false := by
  cases hz : b.isZero with
  | false => rfl
  | true =>
    rw [Block.eq_zero_of_isZero hz] at h
    exact absurd (by decide) h

section Reading

variable {C : Coding} {F : TarFormat H} (rd : C.Reads F) {limits : SecurityLimits}

include rd

theorem accepted_member {m : Member} (ht : m.header.entryType.Packed) {x : F.Ext} (hx : F.paxSize x = none)
    (hlen : m.header.size.toNat = m.body.length) (hroom : m.body.length + 511 ≤ u64Max) (max : Nat) :
    Accepted F max none x (C.block m.header m.path) m.body.length ∧
      isExtension (C.block m.header m.path).typeflag = false := by
  have hflag := rd.typeflag m.header m.path
  obtain ⟨hallowed, hext, h0⟩ := ht.asByte
  rw [← hflag] at hallowed hext h0
  refine ⟨⟨Block.nonzero_of_typeflag h0, ?_, ?_⟩, hext⟩
  · unfold Scan.vet
    rw [if_neg (not_not.mpr hallowed), rd.size]
    simp only [hext, Bool.false_eq_true, false_and, if_false, Option.getD_none]
    rw [hlen, if_neg (Nat.not_lt.mpr hroom)]
  · rw [rd.accepts _ _ _ hx, hlen]

theorem accepted_long {path : List UInt8} (hroom : path.length + 1 ≤ u64Max - 511) {max : Nat}
    (hmax : path.length + 1 ≤ max) :
    Accepted F max none F.start (C.longName path) (path.length + 1) ∧
      (C.longName path).typeflag = 76 := by
  have hflag : (C.longName path).typeflag = 76 := rd.long_typeflag path
  have hlt : path.length + 1 < 2 ^ 64 := by
    unfold u64Max at hroom
    omega
  have hsize : (UInt64.ofNat (path.length + 1)).toNat = path.length + 1 := by
    rw [UInt64.toNat_ofNat', Nat.mod_eq_of_lt hlt]
  refine ⟨⟨Block.nonzero_of_typeflag (by rw [hflag]; decide), ?_, rd.long_accepts path hlt⟩, hflag⟩
  unfold Scan.vet
  rw [if_neg (by rw [hflag]; decide), rd.long_size path hlt]
  have hext : isExtension (C.longName path).typeflag = true := by
    rw [hflag]
    decide
  simp only [hext, true_and, if_true, hsize]
  rw [if_neg (Nat.not_lt.mpr hmax), if_neg (by unfold u64Max at hroom ⊢; omega)]

/-- The records of a member are complete records, and the member is what the parser makes of
them. -/
theorem framed_member {m : Member} (ht : m.header.entryType.Packed) {q : SafePath} (hpath : m.path = q.bytes)
    (hlen : m.header.size.toNat = m.body.length) (hroom : m.body.length + 511 ≤ u64Max) {max : Nat}
    (hlong : 100 < q.bytes.length → q.bytes.length + 1 ≤ max ∧ q.bytes.length + 1 ≤ u64Max - 511) :
    ∃ entry, Reported m.header (C.block m.header m.path) q.bytes entry ∧ ∀ {s items}, Framed F max none F.start s items →
      Framed F max none F.start (C.records m ++ s) (⟨entry, m.body.length, m.body⟩ :: items) := by
  have hpad := length_append_padding m.body
  by_cases hshort : q.bytes.length ≤ 100
  · obtain ⟨ha, hext⟩ := accepted_member rd ht F.paxSize_start hlen hroom max
    obtain ⟨entry, hentry, hreported⟩ := rd.short m.header q hshort
    rw [← hpath] at hentry
    refine ⟨entry, by rwa [hpath], fun hs => ?_⟩
    have hrecords : ∀ s, C.records m ++ s =
        (C.block m.header m.path).bytes ++ ((m.body ++ padding m.body.length) ++ s) := by
      intro s
      rw [Coding.records, Coding.head, if_pos (by rwa [hpath])]
      simp only [List.append_assoc]
    rw [hrecords]
    exact .member ha hext hpad hentry hs
  · obtain ⟨hmax, hfits⟩ := hlong (Nat.lt_of_not_le hshort)
    obtain ⟨x, hextend, hentries⟩ := rd.long q (Nat.lt_of_not_le hshort)
    obtain ⟨entry, hentry, hreported⟩ := hentries m.header
    rw [← hpath] at hextend hentry hfits hmax
    obtain ⟨hal, hflag⟩ := accepted_long rd hfits hmax
    have hx : F.paxSize x = none :=
      (F.paxSize_keep hextend (by rw [hflag]; decide)).trans F.paxSize_start
    obtain ⟨ha, hext⟩ := accepted_member rd ht hx hlen hroom max
    refine ⟨entry, by rwa [hpath], fun hs => ?_⟩
    have hrecords : ∀ s, C.records m ++ s =
        (C.longName m.path).bytes ++ (((m.path ++ [0]) ++ padding (m.path ++ [0]).length) ++
          ((C.block m.header m.path).bytes ++ ((m.body ++ padding m.body.length) ++ s))) := by
      intro s
      rw [Coding.records, Coding.head, if_neg (by rwa [hpath]), Coding.longRecord]
      simp only [List.append_assoc, List.length_append, List.length_singleton]
    rw [hrecords]
    have hcarry : Scan.carry none (C.longName m.path) (m.path ++ [0]) = .ok none := by
      simp [Scan.carry, hflag, isExtension]
    exact .extension (by rwa [List.length_append]) (by rw [hflag]; decide) (length_append_padding _) hcarry hextend
      (.member ha hext hpad hentry hs)

theorem openEntry_member {m : Member} {c : Content} (h : m.Files c) (hc : c.Allowed limits) {entry : TarEntry}
    (hr : Reported m.header (C.block m.header m.path) c.path.bytes entry) :
    openEntry H entry () limits = .ok (c.opened limits) := by
  have hpath : validatePath entry limits = .ok c.path := by
    simp only [validatePath, hr.path_eq, if_neg (Nat.not_lt.mpr hc.path_len)]
    exact validate_safe c.path
  have htype := rd.entryType m.header m.path h.packed
  rw [← hr.header_eq] at htype
  have hkind : classify H entry limits = .ok c.info.kind ∧ (c.info.kind ≠ .file → m.header.size = 0) := by
    have hset := h.kind
    unfold classify
    rw [htype]
    cases hk : c.info.kind with
    | file =>
      rw [hk] at hset
      rw [show m.header.entryType = .regular from hset]
      exact ⟨rfl, fun hne => absurd rfl hne⟩
    | dir =>
      rw [hk] at hset
      rw [hset.1]
      exact ⟨rfl, fun _ => hset.2⟩
    | symlink target =>
      rw [hk] at hset
      obtain ⟨ht, h0, htext, hne⟩ := hset
      rw [ht]
      simp only [hc.symlinks target hk, if_true, link, hr.link_eq (htext ▸ hne), htext]
      exact ⟨rfl, fun _ => h0⟩
    | hardlink target =>
      rw [hk] at hset
      obtain ⟨ht, h0, htext, hne⟩ := hset
      rw [ht]
      simp only [hc.hardlinks target hk, if_true, link, hr.link_eq (htext ▸ hne), htext]
      exact ⟨rfl, fun _ => h0⟩
  have hid : ∀ id : UInt32, id.toUInt64.toNat < 2 ^ 32 := fun id => by
    rw [UInt32.toNat_toUInt64]
    exact id.toNat_lt
  have hsmall : ∀ id : UInt32, smallId id.toUInt64 = .ok id := fun id => by
    rw [smallId, if_pos (hid id), UInt32.toUInt32_toUInt64]
  have huid := rd.uid m.header m.path (by rw [h.uid]; exact hid _)
  have hgid := rd.gid m.header m.path (by rw [h.gid]; exact hid _)
  have hmeta : readMeta H entry c.info.kind = .ok c.info := by
    simp only [readMeta, hr.header_eq, rd.mode, huid, hgid, rd.mtime, h.uid, h.gid, h.mtime, orMalformed,
      bind, Except.bind, hsmall, pure, Except.pure, ← h.mode]
  unfold openEntry
  simp only [hpath, hkind.1, hr.header_eq, rd.size, orMalformed, hmeta, bind, Except.bind, pure, Except.pure]
  rw [if_neg (fun hbad => hbad.2 (hkind.2 hbad.1)), h.size, if_neg (Nat.not_lt.mpr hc.entry_bytes)]
  rfl

/-- An item of the outline is what is to be handed out. -/
structure Item.Shows (limits : SecurityLimits) (i : Item) (c : Content) : Prop where
  opened : openEntry H i.entry () limits = .ok (c.opened limits)
  body : i.body = c.data
  len : i.len = c.data.length

/-- Members in a row are complete records, and the parser hands out what they hold. -/
theorem framed_members {ms : List Member} {cs : List Content} (h : List.Forall₂ Member.Files ms cs)
    (hc : ∀ c ∈ cs, c.Allowed limits) (hsmall : (C.stream ms).length + 511 ≤ u64Max) :
    ∃ items, Framed F limits.maxMetadataBytes.toNat none F.start (C.stream ms) items ∧
      List.Forall₂ (Item.Shows (H := H) limits) items cs := by
  induction h with
  | nil => exact ⟨[], .nil _ F.dangling_start, .nil⟩
  | @cons m c ms cs hm hms ih =>
    have hstream : C.stream (m :: ms) = C.records m ++ C.stream ms := List.flatMap_cons
    rw [hstream, List.length_append] at hsmall
    obtain ⟨items, hframed, hshows⟩ := ih (fun c' hc' => hc c' (List.mem_cons_of_mem _ hc')) (by omega)
    have hallowed := hc c List.mem_cons_self
    have hrecords := length_records C m
    rw [hm.path] at hrecords
    obtain ⟨entry, hreported, hnext⟩ := framed_member rd hm.packed hm.path (by rw [hm.size, hm.body]) (by omega)
      (fun hlong => ⟨hallowed.long_name hlong, by have := hrecords.2 hlong; omega⟩)
    refine ⟨_, by rw [hstream]; exact hnext hframed, .cons ⟨?_, hm.body, by rw [hm.body]⟩ hshows⟩
    exact openEntry_member rd hm hallowed hreported

/-- The records of members that limits have room for, closed by the terminators, are a clean
archive. -/
theorem archive_of_members {ms : List Member} {cs : List Content} (h : List.Forall₂ Member.Files ms cs)
    (hc : ∀ c ∈ cs, c.Allowed limits) (hsmall : (C.stream ms ++ terminators).length ≤ u64Max)
    (hfew : cs.length ≤ limits.maxEntries.toNat) :
    ∃ items trailer, Archive F limits (C.stream ms ++ terminators) (C.stream ms) items trailer ∧
      ZeroTrailer trailer ∧ List.Forall₂ (Item.Shows (H := H) limits) items cs := by
  have hterm : terminators.length = 1024 := List.length_replicate ..
  rw [List.length_append, hterm] at hsmall
  obtain ⟨items, hframed, hshows⟩ := framed_members rd h hc (by omega)
  refine ⟨items, List.replicate 512 0, ⟨?_, hframed, ?_, ?_⟩, ⟨?_, ?_⟩, hshows⟩
  · rw [terminators_eq]
  · intro i hi
    obtain ⟨n, hn, rfl⟩ := List.getElem_of_mem hi
    exact ⟨_, (hshows.get hn (hshows.length_eq ▸ hn)).opened⟩
  · rw [hshows.length_eq]
    exact hfew
  · exact fun b hb => List.eq_of_mem_replicate hb
  · rw [List.length_replicate]

end Reading

end Etar
