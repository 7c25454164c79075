import Etar.Error

/-!
# PAX records

`parsePaxSize` walks the self-describing records of an extension body and keeps
the value of the last `size` record. `decimal` reads the lengths and the value.
-/
namespace Etar.Pax

def isAsciiDigit (byte : UInt8) : Bool := 48 ≤ byte && byte ≤ 57

/-- Read an ASCII decimal, refusing anything that leaves `u64`. -/
def decimal (bytes : List UInt8) : Option Nat :=
  if bytes = [] then none
  else bytes.foldlM (fun value byte =>
    if isAsciiDigit byte then
      (checkedMul value 10).bind (fun tens => checkedAdd tens (byte.toNat - 48))
    else none) 0

/-- The bytes of `size=`. -/
def sizeKey : List UInt8 := [115, 105, 122, 101, 61]

/-- One record at the front of `body`: its length, and its `size` value if it has one. -/
def record (body : List UInt8) : Except Error (Nat × Option Nat) :=
  match body.findIdx? (· == 32) with
  | none => .error .malformed
  | some space =>
    match decimal (body.take space) with
    | none => .error .malformed
    | some length =>
      if usizeMax < length then .error .malformed
      else if length ≤ space + 2 ∨ body.length < length then .error .malformed
      else
        let record := (body.take length).drop (space + 1)
        if record.getLast? ≠ some 10 then .error .malformed
        else if sizeKey.isPrefixOf record then
          match decimal ((record.drop sizeKey.length).dropLast) with
          | none => .error .malformed
          | some value => .ok (length, some value)
        else .ok (length, none)

/-- The record loop, with the value found so far. Every record is at least three bytes
long, so `fuel` never runs out before `body` does (`record_length`). -/
def records : Nat → Option Nat → List UInt8 → Except Error (Option Nat)
  | _, size, [] => .ok size
  | 0, _, _ :: _ => .error .malformed
  | fuel + 1, size, byte :: body =>
    match record (byte :: body) with
    | .error e => .error e
    | .ok (length, value) => records fuel (value.orElse fun _ => size) ((byte :: body).drop length)

def parsePaxSize (body : List UInt8) : Except Error (Option Nat) := records body.length none body

theorem record_error {body : List UInt8} {e : Error} (h : record body = .error e) : e = .malformed := by
  unfold record at h
  split at h
  · cases h
    rfl
  · split at h
    · cases h
      rfl
    · dsimp only at h
      split_ifs at h
      · cases h
        rfl
      · cases h
        rfl
      · cases h
        rfl
      · split at h
        · cases h
          rfl
        · cases h

/-- A body is refused as malformed, and for nothing else. -/
theorem parsePaxSize_error {body : List UInt8} {e : Error} (h : parsePaxSize body = .error e) : e = .malformed := by
  have hall : ∀ (fuel : Nat) (size : Option Nat) (body : List UInt8), records fuel size body = .error e →
      e = .malformed := by
    intro fuel
    induction fuel with
    | zero =>
      intro size body h
      cases body with
      | nil => cases h
      | cons byte body =>
        cases h
        rfl
    | succ fuel ih =>
      intro size body h
      cases body with
      | nil => cases h
      | cons byte body =>
        rw [records] at h
        split at h
        · rename_i e' he
          cases h
          exact record_error he
        · exact ih _ _ h
  exact hall _ _ _ h

example : parsePaxSize [49, 48, 32, 115, 105, 122, 101, 61, 53, 10] = .ok (some 5) := by decide

end Etar.Pax
