import Etar.AsyncIo
import Etar.Header
import Etar.Pax

/-!
# The header guard

`HeaderGuard` sits between the decoded stream and the tar parser. It collects each
header block before letting any byte of it out, checks it, and counts the payload
through; the body of a PAX record is captured on the way to learn the size of the
next member. After an all-zero block everything passes unchecked.
-/
namespace Etar.Guard

open AsyncIo

/-- An error of the guard: handed on from the inner reader, or its own. -/
inductive Fault where
  | inner (e : IoError)
  | own (e : Error)

/-- The guard boxes its own errors as invalid data. -/
def Fault.toIo : Fault → IoError
  | .inner e => e
  | .own e => .custom .invalidData e

/-- The guard's state; `H` reads the size field of a header block. -/
structure HeaderGuard (H : HeaderFields) (R : Type) where
  inner : R
  header : Block
  filled : Nat
  emitted : Nat
  dataRemaining : Nat
  nextData : Nat
  nextTrailer : Bool
  trailer : Bool
  maxMetadataBytes : Nat
  paxBody : Option (List UInt8)
  paxRemaining : Nat
  paxSize : Option Nat

/-- The type bytes let through: regular files, links, directories and the three
extension records. -/
def allowedFlags : List UInt8 := [0, 48, 49, 50, 53, 55, 120, 76, 75]

/-- `x`, `L` and `K` records describe the member after them. -/
def isExtension (kind : UInt8) : Bool := kind == 120 || kind == 76 || kind == 75

/-- What the header-filling loop ended with. -/
inductive Fill where
  | full
  | eof
  | pending
  | failed (e : IoError)

variable {H : HeaderFields} {R : Type}

def new (inner : R) (maxMetadataBytes : Nat) : HeaderGuard H R :=
  ⟨inner, .zero, 0, 0, 0, 0, false, false, maxMetadataBytes, none, 0, none⟩

namespace HeaderGuard

/-- Check the collected header and plan its payload. -/
def inspect (g : HeaderGuard H R) : Except Error Unit × HeaderGuard H R :=
  if g.header.isZero then (.ok (), { g with nextTrailer := true })
  else
    let kind := g.header.typeflag
    if kind ∉ allowedFlags then (.error .disallowedEntryType, g)
    else
      match H.size g.header with
      | none => (.error .malformed, g)
      | some rawSize =>
        if isExtension kind ∧ g.maxMetadataBytes < rawSize.toNat then
          (.error (.limitExceeded "max_metadata_bytes"), g)
        else
          let size := if isExtension kind then rawSize.toNat else g.paxSize.getD rawSize.toNat
          let g : HeaderGuard H R := { g with
            paxBody := if kind = 120 then some [] else g.paxBody
            paxRemaining := if kind = 120 then rawSize.toNat else g.paxRemaining
            -- `take` leaves no pending size behind for a second member
            paxSize := if isExtension kind then g.paxSize else none }
          match checkedAdd size 511 with
          | none => (.error .malformed, g)
          | some rounded => (.ok (), { g with nextData := rounded / 512 * 512 })

/-- Once the payload is through, a captured PAX body sets the next member's size. -/
def settle (g : HeaderGuard H R) : Except Error Unit × HeaderGuard H R :=
  if g.dataRemaining = 0 then
    match g.paxBody with
    | none => (.ok (), g)
    | some body =>
      match Pax.parsePaxSize body with
      | .error e => (.error e, { g with paxBody := none })
      | .ok size => (.ok (), { g with paxBody := none, paxSize := size })
  else (.ok (), g)

/-- Copy out as much of the checked header as fits; its last byte starts the payload. -/
def emit (g : HeaderGuard H R) (out : ReadBuf) : Polled Fault (HeaderGuard H R) :=
  let count := min out.remaining (512 - g.emitted)
  let out' := out.putSlice ((g.header.bytes.drop g.emitted).take count)
    ((List.length_take_le _ _).trans (Nat.min_le_left _ _))
  let g : HeaderGuard H R := { g with emitted := g.emitted + count }
  if g.emitted = 512 then
    let g : HeaderGuard H R := { g with
      filled := 0, emitted := 0, dataRemaining := g.nextData, nextData := 0,
      trailer := g.nextTrailer }
    let settled := g.settle
    ⟨.ready (settled.1.mapError .own), out', settled.2⟩
  else ⟨.ready (.ok ()), out', g⟩

variable [AsyncRead IoError R]

/-- Fill the header block from the inner reader. Every pass of the loop adds at least
one byte, so `512 - filled` passes are enough. -/
def fill : Nat → HeaderGuard H R → Fill × HeaderGuard H R
  | 0, g => (.full, g)
  | fuel + 1, g =>
    if hf : g.filled < 512 then
      let p := pollRead g.inner (.new (512 - g.filled))
      match p.outcome with
      | .pending => (.pending, { g with inner := p.reader })
      | .ready (.error e) => (.failed e, { g with inner := p.reader })
      | .ready (.ok ()) =>
        if p.buf.filled = [] then (.eof, { g with inner := p.reader })
        else
          fill fuel { g with
            inner := p.reader,
            header := g.header.splice g.filled p.buf.filled (by
              have : p.buf.filled.length ≤ 512 - g.filled := length_pollRead_new _ _
              omega),
            filled := g.filled + p.buf.filled.length }
    else (.full, g)

/-- Keep the part of the payload that belongs to a PAX body. -/
def capture (g : HeaderGuard H R) (bytes : List UInt8) : HeaderGuard H R :=
  match g.paxBody with
  | none => g
  | some body =>
    let keep := min bytes.length (min g.paxRemaining usizeMax)
    { g with paxBody := some (body ++ bytes.take keep), paxRemaining := g.paxRemaining - keep }

/-- Read payload straight into the caller's buffer, at most to its end. -/
def readData (g : HeaderGuard H R) (out : ReadBuf) : Polled Fault (HeaderGuard H R) :=
  let cap := min g.dataRemaining usizeMax
  let p := pollRead g.inner (out.take cap)
  match p.outcome with
  | .pending => ⟨.pending, out, { g with inner := p.reader }⟩
  | .ready (.error e) => ⟨.ready (.error (.inner e)), out, { g with inner := p.reader }⟩
  | .ready (.ok ()) =>
    let g : HeaderGuard H R := { g with inner := p.reader }
    let g : HeaderGuard H R := g.capture p.buf.filled
    let g : HeaderGuard H R := { g with dataRemaining := g.dataRemaining - p.buf.filled.length }
    let settled := g.settle
    ⟨.ready (settled.1.mapError .own), out.advance p.buf (capacity_pollRead_take _ _ _), settled.2⟩

/-- `HeaderGuard::poll_read`, telling its own errors from those it hands on. -/
def poll (g : HeaderGuard H R) (out : ReadBuf) : Polled Fault (HeaderGuard H R) :=
  if out.remaining = 0 then ⟨.ready (.ok ()), out, g⟩
  else if g.trailer then
    let p := pollRead g.inner out
    ⟨match p.outcome with
      | .pending => .pending
      | .ready res => .ready (res.mapError .inner), p.buf, { g with inner := p.reader }⟩
  else if 0 < g.dataRemaining then g.readData out
  else
    match g.fill (512 - g.filled) with
    | (.pending, g) => ⟨.pending, out, g⟩
    | (.failed e, g) => ⟨.ready (.error (.inner e)), out, g⟩
    | (.eof, g) => ⟨.ready (.ok ()), out, g⟩
    | (.full, g) =>
      match if g.emitted = 0 then g.inspect else (.ok (), g) with
      | (.error e, g) => ⟨.ready (.error (.own e)), out, g⟩
      | (.ok (), g) => g.emit out

omit [AsyncRead IoError R] in
theorem grows_emit (g : HeaderGuard H R) (out : ReadBuf) : out.Grows (g.emit out).buf := by
  unfold emit
  dsimp only
  split
  · exact ⟨rfl, List.prefix_append _ _⟩
  · exact ⟨rfl, List.prefix_append _ _⟩

theorem grows_readData (g : HeaderGuard H R) (out : ReadBuf) : out.Grows (g.readData out).buf := by
  unfold readData
  dsimp only
  split
  · exact ReadBuf.Grows.refl out
  · exact ReadBuf.Grows.refl out
  · exact ⟨rfl, List.prefix_append _ _⟩

theorem grows_poll (g : HeaderGuard H R) (out : ReadBuf) : out.Grows (g.poll out).buf := by
  unfold poll
  split
  · exact ReadBuf.Grows.refl out
  · split
    · exact AsyncRead.grows g.inner out
    · split
      · exact grows_readData g out
      · split
        · exact ReadBuf.Grows.refl out
        · exact ReadBuf.Grows.refl out
        · exact ReadBuf.Grows.refl out
        · split
          · exact ReadBuf.Grows.refl out
          · exact grows_emit _ out

instance : AsyncRead IoError (HeaderGuard H R) where
  pollRead g out :=
    let p := g.poll out
    ⟨match p.outcome with
      | .pending => .pending
      | .ready res => .ready (res.mapError Fault.toIo), p.buf, p.reader⟩
  grows g out := grows_poll g out

end HeaderGuard

end Etar.Guard
