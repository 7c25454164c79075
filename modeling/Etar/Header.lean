import Mathlib.Data.List.Basic
import Mathlib.Tactic.Common

/-!
# Raw tar headers

A header is one block of 512 bytes. What the fields of a block mean is the tar
parser's business: its accessors are a parameter, `HeaderFields`, and the crate
reads nothing off a raw block but zeros and the type byte.
-/
namespace Etar

/-- One 512-byte header block. -/
structure Block where
  bytes : List UInt8
  length_bytes : bytes.length = 512
  deriving DecidableEq

attribute [simp] Block.length_bytes

namespace Block

def zero : Block := ⟨List.replicate 512 0, List.length_replicate ..⟩

/-- The whole block is zero. -/
def isZero (b : Block) : Bool := b.bytes.all (· == 0)

/-- Byte 156, the entry's type. -/
def typeflag (b : Block) : UInt8 := b.bytes.getD 156 0

/-- Overwrite the bytes from `at_` on. -/
def splice (b : Block) (at_ : Nat) (bytes : List UInt8) (h : at_ + bytes.length ≤ 512) : Block :=
  ⟨b.bytes.take at_ ++ bytes ++ b.bytes.drop (at_ + bytes.length), by
    have := b.length_bytes
    simp only [List.length_append, List.length_take, List.length_drop]
    omega⟩

/-- The block a stream starts with. -/
def ofList (s : List UInt8) (h : 512 ≤ s.length) : Block := ⟨s.take 512, by rw [List.length_take]; omega⟩

@[simp] theorem ofList_bytes (s : List UInt8) (h : 512 ≤ s.length) : (ofList s h).bytes = s.take 512 := rfl

theorem ext_of {b b' : Block} (h : b.bytes = b'.bytes) : b = b' := by
  cases b
  cases b'
  cases h
  rfl

theorem take_append (b : Block) (s : List UInt8) : (b.bytes ++ s).take 512 = b.bytes :=
  List.take_left' b.length_bytes

theorem drop_append (b : Block) (s : List UInt8) : (b.bytes ++ s).drop 512 = s :=
  List.drop_left' b.length_bytes

theorem ofList_append (b : Block) (s : List UInt8) (h : 512 ≤ (b.bytes ++ s).length) :
    ofList (b.bytes ++ s) h = b :=
  ext_of (b.take_append s)

theorem take_splice (b : Block) (at_ : Nat) (bytes : List UInt8) (h : at_ + bytes.length ≤ 512) :
    (b.splice at_ bytes h).bytes.take (at_ + bytes.length) = b.bytes.take at_ ++ bytes := by
  have hl : (b.bytes.take at_ ++ bytes).length = at_ + bytes.length := by
    have := b.length_bytes
    simp only [List.length_append, List.length_take]
    omega
  exact List.take_left' hl

theorem isZero_zero : zero.isZero = true :=
  List.all_eq_true.mpr (fun x hx => by rw [List.eq_of_mem_replicate hx]; rfl)

/-- The only all-zero block is `zero`. -/
theorem eq_zero_of_isZero {b : Block} (h : b.isZero = true) : b = zero := by
  apply ext_of
  have hz : ∀ x ∈ b.bytes, x = 0 := by simpa [isZero] using h
  have := List.eq_replicate_of_mem hz
  rwa [b.length_bytes] at this

end Block

/-- `tokio_tar::EntryType`. -/
inductive EntryType where
  | regular | link | symlink | char | block | directory | fifo | continuous
  | gnuLongName | gnuLongLink | gnuSparse | xGlobalHeader | xHeader
  | other (flag : UInt8)
  deriving DecidableEq, Repr

/-- The accessors of `tokio_tar::Header` on a raw block; `none` stands for any error,
since the crate drops the error's value. -/
structure HeaderFields where
  size : Block → Option UInt64
  mode : Block → Option UInt32
  uid : Block → Option UInt64
  gid : Block → Option UInt64
  mtime : Block → Option UInt64
  entryType : Block → EntryType

/-- `EntryType::new`. -/
def EntryType.new (flag : UInt8) : EntryType :=
  if flag = 0 ∨ flag = 48 then .regular
  else if flag = 49 then .link
  else if flag = 50 then .symlink
  else if flag = 51 then .char
  else if flag = 52 then .block
  else if flag = 53 then .directory
  else if flag = 54 then .fifo
  else if flag = 55 then .continuous
  else if flag = 120 then .xHeader
  else if flag = 103 then .xGlobalHeader
  else if flag = 76 then .gnuLongName
  else if flag = 75 then .gnuLongLink
  else if flag = 83 then .gnuSparse
  else .other flag

/-- `EntryType::as_byte`. -/
def EntryType.asByte : EntryType → UInt8
  | .regular => 48
  | .link => 49
  | .symlink => 50
  | .char => 51
  | .block => 52
  | .directory => 53
  | .fifo => 54
  | .continuous => 55
  | .xHeader => 120
  | .xGlobalHeader => 103
  | .gnuLongName => 76
  | .gnuLongLink => 75
  | .gnuSparse => 83
  | .other flag => flag

/-- The characters of `char::is_whitespace`, in UTF-8. -/
def whitespace : List (List UInt8) :=
  [[9], [10], [11], [12], [13], [32], [194, 133], [194, 160], [225, 154, 128], [226, 128, 128], [226, 128, 129],
    [226, 128, 130], [226, 128, 131], [226, 128, 132], [226, 128, 133], [226, 128, 134], [226, 128, 135],
    [226, 128, 136], [226, 128, 137], [226, 128, 138], [226, 128, 168], [226, 128, 169], [226, 128, 175],
    [226, 129, 159], [227, 128, 128]]

/-- Take characters of `chars` off the front, one after the other; no text has more of them than bytes. -/
def strip (chars : List (List UInt8)) : Nat → List UInt8 → List UInt8
  | 0, text => text
  | fuel + 1, text =>
    match chars.find? (·.isPrefixOf text) with
    | none => text
    | some char => strip chars fuel (text.drop char.length)

theorem strip_eq {chars : List (List UInt8)} {text : List UInt8} (h : ∀ char ∈ chars, char.isPrefixOf text = false)
    (fuel : Nat) : strip chars fuel text = text := by
  have hfind : chars.find? (·.isPrefixOf text) = none :=
    List.find?_eq_none.mpr fun char hchar => by simp [h char hchar]
  cases fuel with
  | zero => rfl
  | succ fuel => simp only [strip, hfind]

/-- `str::trim`. -/
def trim (text : List UInt8) : List UInt8 :=
  let text := strip whitespace text.length text
  (strip (whitespace.map List.reverse) text.length text.reverse).reverse

/-- A numeric field in its octal text form, up to a NUL: `str::trim` and `u64::from_str_radix`,
which lets a plus sign pass. -/
def octal (field : List UInt8) : Option Nat :=
  let text := trim (field.takeWhile (· ≠ 0))
  let digits := if text.head? = some 43 then text.tail else text
  if digits = [] then none
  else digits.foldlM (fun n d => if 48 ≤ d ∧ d ≤ 55 then some (8 * n + (d - 48).toNat) else none) 0

/-- A number in base 256 behind the top bit, or else in octal. -/
def numeric (field : List UInt8) : Option Nat :=
  match field with
  | [] => none
  | b :: rest =>
    if 128 ≤ b then some (rest.foldl (fun n d => 256 * n + d.toNat) (b.toNat - 128)) else octal (b :: rest)

/-- The accessors on GNU headers. -/
def gnuFields : HeaderFields where
  size b := (numeric ((b.bytes.drop 124).take 12)).map UInt64.ofNat
  mode b := (octal ((b.bytes.drop 100).take 8)).map UInt32.ofNat
  uid b := (numeric ((b.bytes.drop 108).take 8)).map UInt64.ofNat
  gid b := (numeric ((b.bytes.drop 116).take 8)).map UInt64.ofNat
  mtime b := (numeric ((b.bytes.drop 136).take 12)).map UInt64.ofNat
  entryType b := .new b.typeflag

/-- Round up to whole blocks. -/
def roundUp (n : Nat) : Nat := (n + 511) / 512 * 512

theorem le_roundUp (n : Nat) : n ≤ roundUp n := by
  unfold roundUp
  omega

theorem roundUp_le (n : Nat) : roundUp n ≤ n + 511 := by
  unfold roundUp
  omega

@[simp] theorem roundUp_zero : roundUp 0 = 0 := rfl

end Etar
