import Etar.Gnu
import Etar.Members

/-!
# Writing the concrete format

The records of the concrete format, and that its parser reads them back: numbers, text
fields and checksums survive, and an `L` record carries the path that does not fit.
-/
namespace Etar.Gnu

open AsyncIo

section Numbers

/-- The octal digits as text: none is a NUL, or has the top bit. -/
theorem octal_digit {d : Nat} (h : d < 8) :
    48 + UInt8.ofNat d ≠ 0 ∧ (48 ≤ 48 + UInt8.ofNat d ∧ 48 + UInt8.ofNat d ≤ 55) ∧
      ¬ 128 ≤ 48 + UInt8.ofNat d ∧ (48 + UInt8.ofNat d - 48).toNat = d := by
  revert d
  decide

/-- Digits neither begin nor end with white space. -/
theorem trim_digits {text : List UInt8} (h : ∀ b ∈ text, 48 ≤ b ∧ b ≤ 55) : trim text = text := by
  have hstrip : ∀ {chars : List (List UInt8)} {text : List UInt8}, (∀ b ∈ text, 48 ≤ b ∧ b ≤ 55) →
      (∀ char ∈ chars, ∃ b rest, char = b :: rest ∧ ¬ (48 ≤ b ∧ b ≤ 55)) → ∀ fuel, strip chars fuel text = text := by
    intro chars text htext hchars
    refine strip_eq (fun char hchar => ?_)
    obtain ⟨b, rest, rfl, hb⟩ := hchars char hchar
    rw [Bool.eq_false_iff]
    intro hp
    exact hb (htext b ((List.isPrefixOf_iff_prefix.mp hp).subset List.mem_cons_self))
  have hfront : ∀ char ∈ whitespace, ∃ b rest, char = b :: rest ∧ ¬ (48 ≤ b ∧ b ≤ 55) := by
    simp [whitespace]
  have hback : ∀ char ∈ whitespace.map List.reverse, ∃ b rest, char = b :: rest ∧ ¬ (48 ≤ b ∧ b ≤ 55) := by
    simp [whitespace]
  unfold trim
  simp only [hstrip h hfront]
  rw [hstrip (fun b hb => h b (List.mem_reverse.mp hb)) hback, List.reverse_reverse]

theorem foldlM_octal {ds : List Nat} (h : ∀ d ∈ ds, d < 8) (value : Nat) :
    (ds.map (fun d => 48 + UInt8.ofNat d)).foldlM
      (fun n d => if 48 ≤ d ∧ d ≤ 55 then some (8 * n + (d - 48).toNat) else none) value =
        some (ds.foldl (fun value d => 8 * value + d) value) := by
  induction ds generalizing value with
  | nil => rfl
  | cons d ds ih =>
    obtain ⟨-, hrange, -, hvalue⟩ := octal_digit (h d List.mem_cons_self)
    rw [List.map_cons, List.foldlM_cons, if_pos hrange, hvalue]
    exact ih (fun d' hd' => h d' (List.mem_cons_of_mem _ hd')) _

/-- A number field holds the low digits of its number. -/
theorem octal_number {width : Nat} (hwidth : 2 ≤ width) (n : Nat) :
    octal (number width n) = some (n % 8 ^ (width - 1)) := by
  have hlt : ∀ d ∈ digits 8 (width - 1) n, d < 8 := fun d hd => lt_of_mem_digits (by decide) hd
  have hmem : ∀ b ∈ (digits 8 (width - 1) n).map (fun d => 48 + UInt8.ofNat d), 48 ≤ b ∧ b ≤ 55 := by
    intro b hb
    obtain ⟨d, hd, rfl⟩ := List.mem_map.mp hb
    exact (octal_digit (hlt d hd)).2.1
  have hne : (digits 8 (width - 1) n).map (fun d => 48 + UInt8.ofNat d) ≠ [] := by
    apply List.ne_nil_of_length_pos
    rw [List.length_map, length_digits]
    omega
  have htake : (number width n).takeWhile (· ≠ 0) = (digits 8 (width - 1) n).map (fun d => 48 + UInt8.ofNat d) := by
    rw [number, List.takeWhile_append_of_pos]
    · simp
    · intro b hb
      obtain ⟨d, hd, rfl⟩ := List.mem_map.mp hb
      simpa using (octal_digit (hlt d hd)).1
  have hfold := foldlM_octal hlt 0
  unfold octal
  generalize (digits 8 (width - 1) n).map (fun d => 48 + UInt8.ofNat d) = text at hmem hne htake hfold
  have hplus : text.head? ≠ some 43 := fun h => absurd (hmem _ (List.mem_of_mem_head? h)) (by decide)
  simp only [htake, trim_digits hmem, if_neg hplus, if_neg hne]
  rw [hfold, foldl_digits]

theorem foldl_bytes (ds : List Nat) (h : ∀ d ∈ ds, d < 256) (value : Nat) :
    (ds.map UInt8.ofNat).foldl (fun n d => 256 * n + d.toNat) value =
      ds.foldl (fun value d => 256 * value + d) value := by
  induction ds generalizing value with
  | nil => rfl
  | cons d ds ih =>
    have hd : (UInt8.ofNat d).toNat = d := by
      rw [UInt8.toNat_ofNat', Nat.mod_eq_of_lt (h d List.mem_cons_self)]
    rw [List.map_cons, List.foldl_cons, List.foldl_cons, hd]
    exact ih (fun d' hd' => h d' (List.mem_cons_of_mem _ hd')) _

/-- A wide number field holds any number with room in base 256. -/
theorem numeric_wideNumber {width n : Nat} (hwidth : 2 ≤ width) (h : n < 256 ^ (width - 1)) :
    numeric (wideNumber width n) = some n := by
  unfold wideNumber
  split
  · rename_i hoctal
    have hread := octal_number hwidth n
    rw [Nat.mod_eq_of_lt hoctal] at hread
    obtain ⟨w, rfl⟩ : ∃ w, width = w + 2 := ⟨width - 2, by omega⟩
    cases hd : digits 8 (w + 1) n with
    | nil =>
      have hlen := length_digits 8 (w + 1) n
      rw [hd] at hlen
      cases hlen
    | cons d ds =>
      have hlt : d < 8 := lt_of_mem_digits (by decide) (hd ▸ List.mem_cons_self)
      have hnumber : number (w + 2) n = (48 + UInt8.ofNat d) :: (ds.map (fun d => 48 + UInt8.ofNat d) ++ [0]) := by
        rw [number, show w + 2 - 1 = w + 1 from rfl, hd]
        rfl
      rw [hnumber] at hread ⊢
      rw [numeric, if_neg (octal_digit hlt).2.2.1]
      exact hread
  · have hfold := foldl_bytes (digits 256 (width - 1) n) (fun d hd => lt_of_mem_digits (by decide) hd) 0
    rw [foldl_digits, Nat.mod_eq_of_lt h] at hfold
    rw [numeric, if_pos (by decide)]
    exact congrArg some hfold

end Numbers

section Texts

/-- A text shorter than its field is read up to the filling. -/
theorem text_pad {width : Nat} {s : List UInt8} (hlen : s.length ≤ width) (hclean : 0 ∉ s) :
    text (pad width s) = s := by
  have hpad : pad width s = s ++ List.replicate (width - s.length) 0 := by
    rw [pad, List.take_append, List.take_of_length_le hlen, List.take_replicate]
    congr 2
    omega
  rw [hpad, text, List.takeWhile_append_of_pos]
  · simp
  · intro b hb
    have h0 : b ≠ 0 := fun h0 => hclean (h0 ▸ hb)
    simpa using h0

theorem longText_append (s : List UInt8) : longText (s ++ [0]) = s := by
  simp [longText]

end Texts

section Blocks

/-- The middle of three pieces. -/
theorem middle {s a b c : List UInt8} (h : s = a ++ (b ++ c)) {at_ width : Nat} (ha : a.length = at_)
    (hb : b.length = width) : (s.drop at_).take width = b := by
  subst h ha hb
  rw [List.drop_left, List.take_left]

variable (f : Fields)

theorem bytes_block : f.block.bytes = f.front ++ (number 8 (checksum f.front f.back) ++ f.back) :=
  List.append_assoc ..

/-- The block field by field. -/
theorem fields_block :
    f.block.bytes.take 100 = pad 100 f.name ∧ (f.block.bytes.drop 100).take 8 = number 8 f.mode ∧
      (f.block.bytes.drop 108).take 8 = wideNumber 8 f.uid ∧ (f.block.bytes.drop 116).take 8 = wideNumber 8 f.gid ∧
      (f.block.bytes.drop 124).take 12 = wideNumber 12 f.size ∧
      (f.block.bytes.drop 136).take 12 = wideNumber 12 f.mtime ∧
      (f.block.bytes.drop 157).take 100 = pad 100 f.link := by
  have hname : (pad 100 f.name).length = 100 := length_pad ..
  have hmode : (number 8 f.mode).length = 8 := length_number _ (by decide)
  have huid : (wideNumber 8 f.uid).length = 8 := length_wideNumber _ (by decide)
  have hgid : (wideNumber 8 f.gid).length = 8 := length_wideNumber _ (by decide)
  have hsize : (wideNumber 12 f.size).length = 12 := length_wideNumber _ (by decide)
  have hmtime : (wideNumber 12 f.mtime).length = 12 := length_wideNumber _ (by decide)
  have hsum : (number 8 (checksum f.front f.back)).length = 8 := length_number _ (by decide)
  have hlink : (pad 100 f.link).length = 100 := length_pad ..
  have hbytes := bytes_block f
  generalize number 8 (checksum f.front f.back) = sum at hbytes hsum
  simp only [Fields.front, Fields.back, List.append_assoc] at hbytes
  generalize pad 100 f.name = name at hbytes hname ⊢
  generalize number 8 f.mode = mode at hbytes hmode ⊢
  generalize wideNumber 8 f.uid = uid at hbytes huid ⊢
  generalize wideNumber 8 f.gid = gid at hbytes hgid ⊢
  generalize wideNumber 12 f.size = size at hbytes hsize ⊢
  generalize wideNumber 12 f.mtime = mtime at hbytes hmtime ⊢
  generalize pad 100 f.link = link at hbytes hlink ⊢
  refine ⟨?_, ?_, ?_, ?_, ?_, ?_, ?_⟩
  · rw [hbytes, List.take_left' hname]
  · exact middle hbytes hname hmode
  · refine middle (a := name ++ mode) (by simpa only [List.append_assoc] using hbytes) ?_ huid
    rw [List.length_append, hname, hmode]
  · refine middle (a := name ++ mode ++ uid) (by simpa only [List.append_assoc] using hbytes) ?_ hgid
    simp only [List.length_append, hname, hmode, huid]
  · refine middle (a := name ++ mode ++ uid ++ gid) (by simpa only [List.append_assoc] using hbytes) ?_ hsize
    simp only [List.length_append, hname, hmode, huid, hgid]
  · refine middle (a := name ++ mode ++ uid ++ gid ++ size) (by simpa only [List.append_assoc] using hbytes) ?_ hmtime
    simp only [List.length_append, hname, hmode, huid, hgid, hsize]
  · refine middle (a := name ++ mode ++ uid ++ gid ++ size ++ mtime ++ sum ++ [f.flag])
      (by simpa only [List.append_assoc, List.singleton_append, List.cons_append, List.nil_append] using hbytes) ?_ hlink
    simp only [List.length_append, hname, hmode, huid, hgid, hsize, hmtime, hsum, List.length_singleton]

theorem typeflag_block : f.block.typeflag = f.flag := by
  have hsum : (number 8 (checksum f.front f.back)).length = 8 := length_number _ (by decide)
  have hlen : (f.front ++ number 8 (checksum f.front f.back)).length = 156 := by
    rw [List.length_append, f.length_front, hsum]
  rw [Block.typeflag, bytes_block, ← List.append_assoc, List.getD_eq_getElem?_getD,
    List.getElem?_append_right (le_of_eq hlen), hlen]
  rfl

/-- The bytes of a block do not add up to more than the field holds. -/
theorem checksum_lt {front back : List UInt8} (hf : front.length = 148) (hb : back.length = 356) :
    checksum front back < 8 ^ 7 := by
  have hsum : ∀ s : List UInt8, (s.map UInt8.toNat).sum ≤ 255 * s.length := by
    intro s
    induction s with
    | nil => exact le_refl _
    | cons b s ih =>
      have := b.toNat_lt
      simp only [List.map_cons, List.sum_cons, List.length_cons]
      omega
  have h₁ := hsum front
  have h₂ := hsum back
  unfold checksum
  omega

/-- The checksum of a block is the one in its field. -/
theorem checksum_block :
    octal ((f.block.bytes.drop 148).take 8) = some (checksum (f.block.bytes.take 148) (f.block.bytes.drop 156)) := by
  have hsum : (number 8 (checksum f.front f.back)).length = 8 := length_number _ (by decide)
  have hfield := middle (bytes_block f) f.length_front hsum
  have hfront : f.block.bytes.take 148 = f.front := by
    rw [bytes_block, List.take_left' f.length_front]
  have hback : f.block.bytes.drop 156 = f.back := by
    rw [bytes_block, ← List.append_assoc, List.drop_left']
    rw [List.length_append, f.length_front, hsum]
  rw [hfield, hfront, hback, octal_number (by decide),
    Nat.mod_eq_of_lt (checksum_lt f.length_front f.length_back)]

theorem size_block {f : Fields} (h : f.size < 2 ^ 64) : gnuFields.size f.block = some (.ofNat f.size) := by
  have hlt : f.size < 256 ^ (12 - 1) := h.trans (by decide)
  simp only [gnuFields, (fields_block f).2.2.2.2.1, numeric_wideNumber (by decide) hlt, Option.map_some]

theorem mode_block (f : Fields) : gnuFields.mode f.block = some (.ofNat (f.mode % 8 ^ 7)) := by
  have hread := octal_number (by decide : 2 ≤ 8) f.mode
  simp only [gnuFields, (fields_block f).2.1, hread, Option.map_some]

theorem uid_block {f : Fields} (h : f.uid < 2 ^ 32) : gnuFields.uid f.block = some (.ofNat f.uid) := by
  have hlt : f.uid < 256 ^ (8 - 1) := h.trans (by decide)
  simp only [gnuFields, (fields_block f).2.2.1, numeric_wideNumber (by decide) hlt, Option.map_some]

theorem gid_block {f : Fields} (h : f.gid < 2 ^ 32) : gnuFields.gid f.block = some (.ofNat f.gid) := by
  have hlt : f.gid < 256 ^ (8 - 1) := h.trans (by decide)
  simp only [gnuFields, (fields_block f).2.2.2.1, numeric_wideNumber (by decide) hlt, Option.map_some]

theorem mtime_block {f : Fields} (h : f.mtime < 2 ^ 64) : gnuFields.mtime f.block = some (.ofNat f.mtime) := by
  have hlt : f.mtime < 256 ^ (12 - 1) := h.trans (by decide)
  simp only [gnuFields, (fields_block f).2.2.2.2.2.1, numeric_wideNumber (by decide) hlt, Option.map_some]

/-- The parser accepts the block, with the size in it for a payload length. -/
theorem accepts_block {f : Fields} (h : f.size < 2 ^ 64) {x : Ext} (hx : x.paxSize = none) :
    size x f.block = .ok f.size := by
  have hsize : (UInt64.ofNat f.size).toNat = f.size := by
    rw [UInt64.toNat_ofNat', Nat.mod_eq_of_lt h]
  rw [size, if_pos (checksum_block f), size_block h]
  simp only [hx, Option.getD_none, hsize, ite_self]

end Blocks

/-- The fields of a member's header. -/
def memberFields (header : Header) (path : List UInt8) : Fields where
  name := path
  mode := header.mode.toNat
  uid := header.uid.toNat
  gid := header.gid.toNat
  size := header.size.toNat
  mtime := header.mtime.toNat
  flag := header.entryType.asByte
  link := header.linkName.text
  ustar := false

/-- The fields of an `L` record's header, named `././@LongLink`. -/
def longFields (path : List UInt8) : Fields where
  name := [46, 47, 46, 47, 64, 76, 111, 110, 103, 76, 105, 110, 107]
  mode := 420
  uid := 0
  gid := 0
  size := path.length + 1
  mtime := 0
  flag := 76
  link := []
  ustar := false

def coding : Coding where
  setPath path := .ok path
  block header path := (memberFields header path).block
  longName path := (longFields path).block

/-- `Header::set_link_name`. -/
def setLinkName (target : List UInt8) : Except IoError LinkField :=
  let text := storedTarget target
  if text = [] then .error (.foreign .other "paths in archives must have at least one component")
  else if h : text.length ≤ 100 then
    if h0 : 0 ∉ text then .ok ⟨text, h, h0⟩
    else .error (.foreign .other "provided value contains a nul byte")
  else .error (.foreign .other "provided value is too long")

/-- The builder of this format. -/
def builder : Builder := .ofCoding coding setLinkName

def packs : builder.Packs coding := Builder.packsOfCoding coding setLinkName

theorem setsLinks : builder.SetsLinks where
  stores {target} h := by
    obtain ⟨hne, hlen, hclean⟩ := h
    refine ⟨⟨storedTarget target, hlen, hclean⟩, ?_, rfl⟩
    show setLinkName target = _
    simp only [setLinkName, if_neg hne, dif_pos hlen, dif_pos hclean]
  refuses {target} h := by
    show ∃ e, setLinkName target = _
    dsimp only [setLinkName]
    split_ifs with hnil hlen hclean
    · exact ⟨_, rfl⟩
    · exact ⟨_, rfl⟩
    · exact absurd ⟨hnil, hlen, hclean⟩ h
    · exact ⟨_, rfl⟩

/-- A short path is read off the name field. -/
theorem name_block {f : Fields} (hlen : f.name.length ≤ 100) (hclean : 0 ∉ f.name) :
    text (f.block.bytes.take 100) = f.name := by
  rw [(fields_block f).1]
  exact text_pad hlen hclean

theorem link_block {f : Fields} (hlen : f.link.length ≤ 100) (hclean : 0 ∉ f.link) :
    text ((f.block.bytes.drop 157).take 100) = f.link := by
  rw [(fields_block f).2.2.2.2.2.2]
  exact text_pad hlen hclean

/-- What the parser reports about a member in this format. -/
theorem reported_entry {x : Ext} {header : Header} {path : List UInt8} (hx : x.longLink = none) (hpax : x.pax = none)
    (hpath : x.longName.getD (text ((memberFields header path).block.bytes.take 100)) = path) :
    ∃ e, entry x (coding.block header path) = .ok e ∧ Reported header (coding.block header path) path e := by
  have hlink : text (((memberFields header path).block.bytes.drop 157).take 100) = header.linkName.text :=
    link_block header.linkName.short header.linkName.clean
  refine ⟨_, rfl, ?_, ?_, fun hne => ?_⟩
  · simp only [reportedHeader, hpax]
  · simp only [coding, hpath]
  · simp only [coding, hx, hlink, if_neg hne]

theorem size_member (header : Header) (path : List UInt8) :
    gnuFields.size (memberFields header path).block = some header.size := by
  rw [size_block (f := memberFields header path) header.size.toNat_lt]
  exact congrArg some header.size.ofNat_toNat

theorem uid_member {header : Header} (path : List UInt8) (h : header.uid.toNat < 2 ^ 32) :
    gnuFields.uid (memberFields header path).block = some header.uid := by
  rw [uid_block (f := memberFields header path) h]
  exact congrArg some header.uid.ofNat_toNat

theorem gid_member {header : Header} (path : List UInt8) (h : header.gid.toNat < 2 ^ 32) :
    gnuFields.gid (memberFields header path).block = some header.gid := by
  rw [gid_block (f := memberFields header path) h]
  exact congrArg some header.gid.ofNat_toNat

theorem mtime_member (header : Header) (path : List UInt8) :
    gnuFields.mtime (memberFields header path).block = some header.mtime := by
  rw [mtime_block (f := memberFields header path) header.mtime.toNat_lt]
  exact congrArg some header.mtime.ofNat_toNat

theorem entryType_member {header : Header} (path : List UInt8) (h : header.entryType.Packed) :
    gnuFields.entryType (memberFields header path).block = header.entryType := by
  show EntryType.new (memberFields header path).block.typeflag = _
  rw [typeflag_block]
  show EntryType.new header.entryType.asByte = _
  rcases h with h | h | h | h <;> rw [h] <;> rfl

/-- The payload of an `L` record is the path. -/
theorem extend_long (path : List UInt8) :
    extend format.start (longFields path).block (path ++ [0]) = .ok { format.start with longName := some path } := by
  have hflag : (longFields path).block.typeflag = 76 := typeflag_block _
  have hstart : (format.start : Ext) = ⟨none, none, none⟩ := rfl
  simp [extend, hflag, hstart, longText_append]

theorem size_format : format.size = size := rfl

theorem accepts_member (x : Ext) (header : Header) (path : List UInt8) (hx : x.paxSize = none) :
    format.size x (coding.block header path) = .ok header.size.toNat := by
  have hblock : coding.block header path = (memberFields header path).block := rfl
  rw [size_format, hblock, accepts_block (f := memberFields header path) header.size.toNat_lt hx]
  rfl

theorem accepts_long (path : List UInt8) (h : path.length + 1 < 2 ^ 64) :
    format.size format.start (coding.longName path) = .ok (path.length + 1) := by
  have hblock : coding.longName path = (longFields path).block := rfl
  rw [size_format, hblock]
  exact accepts_block (f := longFields path) (x := format.start) h rfl

theorem extend_format (path : List UInt8) :
    format.extend format.start (coding.longName path) (path ++ [0]) =
      .ok { format.start with longName := some path } := by
  have hextend : format.extend = extend := rfl
  have hblock : coding.longName path = (longFields path).block := rfl
  rw [hextend, hblock]
  exact extend_long path

/-- The parser of this format reads what its builder wrote. -/
theorem reads : coding.Reads format where
  setPath {p _} h := ⟨p, (Except.ok.inj h).symm, le_refl _, fun _ => rfl⟩
  typeflag header path := typeflag_block (memberFields header path)
  entryType _ path h := entryType_member path h
  size header path := size_member header path
  mode header path := mode_block (memberFields header path)
  uid _ path h := uid_member path h
  gid _ path h := gid_member path h
  mtime header path := mtime_member header path
  accepts := accepts_member
  short header q hq := reported_entry rfl rfl (name_block (f := memberFields header q.bytes) hq q.clean)
  long_typeflag path := typeflag_block (longFields path)
  long_size path h := size_block (f := longFields path) h
  long_accepts path h := accepts_long path h
  long q _ := ⟨{ format.start with longName := some q.bytes }, extend_format q.bytes, fun _ => reported_entry rfl rfl rfl⟩

end Etar.Gnu
