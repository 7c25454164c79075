import Etar.Framing

/-!
# A concrete tar format

Headers with their numbers and checksums, long-name and long-link records, and the numbers
of PAX records: enough of the format to run the models on real archives.
-/
namespace Etar.Gnu

open Guard (isExtension)

/-- Fill a text field with NULs. -/
def pad (width : Nat) (text : List UInt8) : List UInt8 := (text ++ List.replicate width 0).take width

@[simp] theorem length_pad (width : Nat) (text : List UInt8) : (pad width text).length = width := by
  simp [pad]

/-- The low `width` digits of a number, the highest first. -/
def digits (base : Nat) : Nat → Nat → List Nat
  | 0, _ => []
  | width + 1, n => digits base width (n / base) ++ [n % base]

@[simp] theorem length_digits (base width n : Nat) : (digits base width n).length = width := by
  induction width generalizing n with
  | zero => rfl
  | succ width ih => simp [digits, ih]

theorem lt_of_mem_digits {base width n d : Nat} (hbase : 0 < base) (h : d ∈ digits base width n) : d < base := by
  induction width generalizing n with
  | zero => cases h
  | succ width ih =>
    rcases List.mem_append.mp h with h | h
    · exact ih h
    · rw [List.mem_singleton.mp h]
      exact Nat.mod_lt n hbase

/-- Read back, digits are the number less what does not fit. -/
theorem foldl_digits (base width n : Nat) :
    (digits base width n).foldl (fun value d => base * value + d) 0 = n % base ^ width := by
  induction width generalizing n with
  | zero => simp [digits, Nat.mod_one]
  | succ width ih =>
    rw [digits, List.foldl_append, ih, List.foldl_cons, List.foldl_nil, Nat.pow_succ', Nat.mod_mul,
      Nat.add_comm]

/-- Octal digits and a closing NUL. -/
def number (width : Nat) (n : Nat) : List UInt8 := (digits 8 (width - 1) n).map (fun d => 48 + UInt8.ofNat d) ++ [0]

/-- A number in octal where it fits, and otherwise in base 256 behind the top bit. -/
def wideNumber (width : Nat) (n : Nat) : List UInt8 :=
  if n < 8 ^ (width - 1) then number width n else 128 :: (digits 256 (width - 1) n).map UInt8.ofNat

theorem length_number {width : Nat} (n : Nat) (h : 0 < width) : (number width n).length = width := by
  simp only [number, List.length_append, List.length_map, length_digits, List.length_singleton]
  omega

theorem length_wideNumber {width : Nat} (n : Nat) (h : 0 < width) : (wideNumber width n).length = width := by
  unfold wideNumber
  split
  · exact length_number n h
  · simp only [List.length_cons, List.length_map, length_digits]
    omega

/-- The fields of a header. -/
structure Fields where
  name : List UInt8
  mode : Nat
  uid : Nat
  gid : Nat
  size : Nat
  mtime : Nat
  flag : UInt8
  link : List UInt8
  /-- `Header::new_ustar`, not `Header::new_gnu`. -/
  ustar : Bool

/-- The magic and the version of a header. -/
def magic (ustar : Bool) : List UInt8 :=
  if ustar then [117, 115, 116, 97, 114, 0, 48, 48] else [117, 115, 116, 97, 114, 32, 32, 0]

theorem length_magic (ustar : Bool) : (magic ustar).length = 8 := by
  cases ustar <;> rfl

/-- The fields in front of the checksum, and those behind it. -/
def Fields.front (f : Fields) : List UInt8 :=
  pad 100 f.name ++ number 8 f.mode ++ wideNumber 8 f.uid ++ wideNumber 8 f.gid ++ wideNumber 12 f.size ++
    wideNumber 12 f.mtime

def Fields.back (f : Fields) : List UInt8 :=
  f.flag :: pad 100 f.link ++ magic f.ustar ++ List.replicate 247 0

/-- The sum of all bytes, the checksum's own counted as spaces. -/
def checksum (front back : List UInt8) : Nat :=
  (front.map UInt8.toNat).sum + 8 * 32 + (back.map UInt8.toNat).sum

theorem Fields.length_front (f : Fields) : f.front.length = 148 := by
  have hmode : (number 8 f.mode).length = 8 := length_number _ (by decide)
  have h8 : ∀ n, (wideNumber 8 n).length = 8 := fun n => length_wideNumber n (by decide)
  have h12 : ∀ n, (wideNumber 12 n).length = 12 := fun n => length_wideNumber n (by decide)
  simp only [Fields.front, List.length_append, length_pad, hmode, h8, h12]

theorem Fields.length_back (f : Fields) : f.back.length = 356 := by
  simp only [Fields.back, List.length_append, List.length_cons, length_pad, length_magic, List.length_replicate]

def Fields.block (f : Fields) : Block :=
  ⟨f.front ++ number 8 (checksum f.front f.back) ++ f.back, by
    rw [List.length_append, List.length_append, f.length_front, f.length_back,
      length_number _ (by decide)]⟩

/-- The numbers a PAX record may give. -/
structure Numbers where
  size : Option Nat
  uid : Option Nat
  gid : Option Nat

/-- What the extension records before a member said. -/
structure Ext where
  longName : Option (List UInt8)
  longLink : Option (List UInt8)
  pax : Option Numbers

def Ext.paxSize (x : Ext) : Option Nat := x.pax.bind Numbers.size

/-- A parse error of the tar crate. -/
def parseError (message : String) : IoError := .foreign .other message

/-- Text up to a NUL. -/
def text (field : List UInt8) : List UInt8 := field.takeWhile (· ≠ 0)

/-- The text of an extension record, less its closing NUL. -/
def longText (body : List UInt8) : List UInt8 := if body.getLast? = some 0 then body.dropLast else body

def size (x : Ext) (h : Block) : Except IoError Nat :=
  if octal ((h.bytes.drop 148).take 8) = some (checksum (h.bytes.take 148) (h.bytes.drop 156)) then
    match gnuFields.size h with
    | none => .error (parseError "numeric field was not a number")
    | some r => .ok (if isExtension h.typeflag then r.toNat else x.paxSize.getD r.toNat)
  else .error (parseError "archive header checksum mismatch")

/-- The number a key has in the last of the records of `body` that have the key. -/
def paxNumber (key : List UInt8) : Nat → List UInt8 → Option Nat → Option Nat
  | 0, _, found => found
  | fuel + 1, body, found =>
    match (body.findIdx? (· == 32)).bind fun space => (Pax.decimal (body.take space)).map (space, ·) with
    | none => found
    | some (space, length) =>
      let record := (body.take length).drop (space + 1)
      paxNumber key fuel (body.drop length)
        (if key.isPrefixOf record then Pax.decimal ((record.drop key.length).dropLast) else found)

/-- The values of `uid=` and `gid=`, with the size that was read before. -/
def numbers (size : Option Nat) (body : List UInt8) : Numbers where
  size := size
  uid := paxNumber [117, 105, 100, 61] body.length body none
  gid := paxNumber [103, 105, 100, 61] body.length body none

/-- `Header::as_ustar`. -/
def isUstar (h : Block) : Bool := (h.bytes.drop 257).take 8 == magic true

def extend (x : Ext) (h : Block) (body : List UInt8) : Except IoError Ext :=
  if h.typeflag = 120 then
    if isUstar h = false then .error (parseError "pax_extensions entry without a ustar header")
    else if x.pax.isSome then .error (parseError "two pax_extensions entries describing the same member")
    else
      match Pax.parsePaxSize body with
      | .error _ => .error (parseError "malformed pax extension")
      | .ok p => .ok { x with pax := some (numbers p body) }
  else if h.typeflag = 76 then
    if x.longName.isSome then .error (parseError "two long name entries describing the same member")
    else .ok { x with longName := some (longText body) }
  else
    if x.longLink.isSome then .error (parseError "two long name entries describing the same member")
    else .ok { x with longLink := some (longText body) }

/-- Write a number, if there is one, over the field of `width` bytes from `at_` on. -/
def setNumber (at_ width : Nat) (n : Option Nat) (b : Block) : Block :=
  match n with
  | none => b
  | some n =>
    if h : at_ + (wideNumber width n).length ≤ 512 then b.splice at_ (wideNumber width n) h else b

/-- A member's header as it is reported: with the numbers of its PAX record. -/
def reportedHeader (x : Ext) (h : Block) : Block :=
  match x.pax with
  | none => h
  | some p => setNumber 124 12 p.size (setNumber 116 8 p.gid (setNumber 108 8 p.uid h))

def entry (x : Ext) (h : Block) : Except IoError TarEntry :=
  let link := text ((h.bytes.drop 157).take 100)
  .ok ⟨reportedHeader x h, some (x.longName.getD (text (h.bytes.take 100))),
    some (match x.longLink with
      | some link => some link
      | none => if link = [] then none else some link)⟩

def dangling (x : Ext) : Option IoError :=
  if x.longName.isSome ∨ x.longLink.isSome ∨ x.pax.isSome then
    some (parseError "members found describing a future member but no future member found")
  else none

def format : TarFormat gnuFields where
  Ext := Ext
  start := ⟨none, none, none⟩
  size := size
  extend := extend
  entry := entry
  dangling := dangling
  paxSize := Ext.paxSize
  size_extension hs he hr := by
    simp only [size, hr, he, if_true] at hs
    split_ifs at hs
    exact (Except.ok.inj hs).symm
  size_member hs he hr := by
    simp only [size, hr, he, Bool.false_eq_true, if_false] at hs
    split_ifs at hs
    exact (Except.ok.inj hs).symm
  paxSize_start := rfl
  paxSize_pax he hk hp := by
    simp only [extend, hk, if_true, hp] at he
    split_ifs at he
    cases he
    rfl
  paxSize_keep he hk := by
    simp only [extend, hk, if_false] at he
    split_ifs at he <;> cases he <;> rfl
  dangling_start := rfl
  dangling_extend {x h body x'} he := by
    unfold extend at he
    split at he
    · split_ifs at he
      split at he <;> cases he
      simp [dangling]
    · split_ifs at he <;> cases he <;> simp [dangling]

/-- The parser of this format. -/
def tar : Tar := .ofFormat format

def frames : tar.Frames format := Tar.framesOfFormat format

/-- A member `d` with small numbers. -/
def member (flag : UInt8) (size : Nat) : Fields := ⟨[100], 493, 0, 0, size, 0, flag, [], false⟩

/-- The header of a PAX record. -/
def paxHeader (size : Nat) : Fields := { member 120 size with ustar := true }

/-- The records of an archive with one directory. -/
def plainRecords : List UInt8 := (member 53 0).block.bytes ++ (([] ++ []) ++ [])

/-- An archive with one directory. -/
def plain : List UInt8 := plainRecords ++ (Block.zero.bytes ++ List.replicate 512 0)

/-- One PAX record: the size is 5. -/
def paxBody : List UInt8 := [49, 48, 32, 115, 105, 122, 101, 61, 53, 10]

/-- A PAX record that gives the size 5 in front of a member whose own size field holds
`size`, with five bytes of payload behind it. -/
def resized (flag : UInt8) (size : Nat) : List UInt8 :=
  (paxHeader 10).block.bytes ++ pad 512 paxBody ++ (member flag size).block.bytes ++
    pad 512 [104, 101, 108, 108, 111] ++ List.replicate 1024 0

end Etar.Gnu
