import Etar.Header
import Etar.Pax
import Etar.Guard

/-!
# The reference scan

What the header guard is for, as one pass over a whole decoded stream: each
record's header is admitted or refused, its payload skipped to the next block, and
a PAX record's size carried to the next member. `tailScan` is the same scan entered
in the middle of a payload.
-/
namespace Etar.Scan

open Guard (allowedFlags isExtension)

/-- Outcome of a scan: how many bytes are let through, and what stops the rest. -/
structure Verdict where
  passed : Nat
  fault : Option Error
  deriving DecidableEq

def Verdict.shift (n : Nat) (s : Verdict) : Verdict := ⟨n + s.passed, s.fault⟩

@[simp] theorem Verdict.shift_mk (n k : Nat) (f : Option Error) : Verdict.shift n ⟨k, f⟩ = ⟨n + k, f⟩ := rfl
@[simp] theorem Verdict.shift_zero (s : Verdict) : s.shift 0 = s := by simp [Verdict.shift]
@[simp] theorem Verdict.shift_shift (m n : Nat) (s : Verdict) : (s.shift n).shift m = s.shift (m + n) := by
  simp [Verdict.shift, Nat.add_assoc]

variable (H : HeaderFields) (max : Nat)

/-- The payload length of the record a header opens, when the header is admitted. The
pending size `p` of a PAX record replaces a member's own size. -/
def vet (p : Option Nat) (h : Block) : Except Error Nat :=
  if h.typeflag ∉ allowedFlags then .error .disallowedEntryType
  else
    match H.size h with
    | none => .error .malformed
    | some r =>
      if isExtension h.typeflag ∧ max < r.toNat then .error (.limitExceeded "max_metadata_bytes")
      else
        let e := if isExtension h.typeflag then r.toNat else p.getD r.toNat
        if u64Max < e + 511 then .error .malformed else .ok e

/-- The pending size after a record: set by `x`, kept by `L` and `K`, used up by a member. -/
def carry (p : Option Nat) (h : Block) (payload : List UInt8) : Except Error (Option Nat) :=
  if h.typeflag = 120 then Pax.parsePaxSize payload
  else if isExtension h.typeflag then .ok p
  else .ok none

/-- Scan a stream from a record boundary on. -/
def scan (p : Option Nat) (s : List UInt8) : Verdict :=
  if hs : 512 ≤ s.length then
    let h := Block.ofList s hs
    if h.isZero then ⟨s.length, none⟩
    else
      match vet H max p h with
      | .error e => ⟨0, some e⟩
      | .ok e =>
        if s.length < 512 + roundUp e then ⟨s.length, none⟩
        else
          match carry p h ((s.drop 512).take e) with
          | .error e' => ⟨512 + roundUp e, some e'⟩
          | .ok p' => (scan p' (s.drop (512 + roundUp e))).shift (512 + roundUp e)
  else ⟨0, none⟩
termination_by s.length
decreasing_by
  rw [List.length_drop]
  omega

/-- The pending size once a payload is through: read off a captured PAX body. -/
def settled (p : Option Nat) : Option (List UInt8) → Except Error (Option Nat)
  | none => .ok p
  | some body => Pax.parsePaxSize body

/-- Scan on with `d` payload bytes to go, the first `k` of them part of the body of a
PAX record whose front is already captured. -/
def tailScan (d : Nat) (p : Option Nat) (body : Option (List UInt8)) (k : Nat) (s : List UInt8) : Verdict :=
  if s.length < d then ⟨s.length, none⟩
  else
    match settled p (body.map (· ++ s.take k)) with
    | .error e => ⟨d, some e⟩
    | .ok p' => (scan H max p' (s.drop d)).shift d

/-- An admitted payload rounds up within `u64`, and an extension's is within the limit. -/
theorem vet_ok {p : Option Nat} {h : Block} {e : Nat} (ha : vet H max p h = .ok e) :
    e + 511 ≤ u64Max ∧ (isExtension h.typeflag = true → e ≤ max) := by
  unfold vet at ha
  split at ha
  · cases ha
  · split at ha
    · cases ha
    · rename_i r hr
      split at ha
      · cases ha
      · rename_i hm
        by_cases hx : isExtension h.typeflag = true
        · have hm : ¬ max < r.toNat := fun h => hm ⟨hx, h⟩
          simp only [hx, if_true] at ha
          by_cases hb : u64Max < r.toNat + 511
          · rw [if_pos hb] at ha
            cases ha
          · rw [if_neg hb] at ha
            have he := Except.ok.inj ha
            exact ⟨by omega, fun _ => by omega⟩
        · simp only [hx, Bool.false_eq_true, if_false] at ha
          by_cases hb : u64Max < p.getD r.toNat + 511
          · rw [if_pos hb] at ha
            cases ha
          · rw [if_neg hb] at ha
            have he := Except.ok.inj ha
            exact ⟨by omega, fun h => absurd h hx⟩

theorem scan_short {p : Option Nat} {s : List UInt8} (hs : s.length < 512) :
    scan H max p s = ⟨0, none⟩ := by
  rw [scan, dif_neg (by omega)]

theorem scan_zero {p : Option Nat} {s : List UInt8} (hs : 512 ≤ s.length)
    (hz : (Block.ofList s hs).isZero = true) : scan H max p s = ⟨s.length, none⟩ := by
  rw [scan, dif_pos hs, if_pos hz]

theorem scan_refused {p : Option Nat} {s : List UInt8} {e : Error} (hs : 512 ≤ s.length)
    (hz : (Block.ofList s hs).isZero = false) (ha : vet H max p (Block.ofList s hs) = .error e) :
    scan H max p s = ⟨0, some e⟩ := by
  rw [scan, dif_pos hs, if_neg (by simp [hz])]
  simp only [ha]

/-- What a header leaves in the guard about the PAX record it opens. -/
def opened (h : Block) : Option (List UInt8) := if h.typeflag = 120 then some [] else none

/-- An admitted header is followed by the scan of its payload. -/
theorem scan_admitted {p : Option Nat} {s : List UInt8} {e : Nat} (hs : 512 ≤ s.length)
    (hz : (Block.ofList s hs).isZero = false) (ha : vet H max p (Block.ofList s hs) = .ok e) :
    scan H max p s = (tailScan H max (roundUp e)
      (if isExtension (Block.ofList s hs).typeflag then p else none)
      (opened (Block.ofList s hs)) e (s.drop 512)).shift 512 := by
  have hlt : s.length < 512 + roundUp e ↔ (s.drop 512).length < roundUp e := by
    rw [List.length_drop]
    omega
  rw [scan, dif_pos hs, if_neg (by simp [hz])]
  simp only [ha, tailScan, hlt]
  split
  · simp only [Verdict.shift_mk, List.length_drop, Verdict.mk.injEq, and_true]
    omega
  · have hc : carry p (Block.ofList s hs) ((s.drop 512).take e) =
        settled (if isExtension (Block.ofList s hs).typeflag then p else none)
          ((opened (Block.ofList s hs)).map (· ++ (s.drop 512).take e)) := by
      unfold carry opened
      by_cases hx : (Block.ofList s hs).typeflag = 120
      · simp [hx, settled]
      · by_cases he : isExtension (Block.ofList s hs).typeflag <;> simp [hx, he, settled]
    rw [hc]
    cases settled (if isExtension (Block.ofList s hs).typeflag then p else none)
        ((opened (Block.ofList s hs)).map (· ++ (s.drop 512).take e)) with
    | error e' => simp
    | ok p' => simp [List.drop_drop]

/-- Without a captured body the capture count is not looked at. -/
theorem tailScan_none (d k k' : Nat) (p : Option Nat) (s : List UInt8) :
    tailScan H max d p none k s = tailScan H max d p none k' s := rfl

theorem tailScan_nil {d : Nat} (hd : 0 < d) (p : Option Nat) (body : Option (List UInt8)) (k : Nat) :
    tailScan H max d p body k [] = ⟨0, none⟩ := by
  unfold tailScan
  rw [if_pos (by simpa using hd)]
  rfl

/-- Payload bytes let through one chunk at a time. -/
theorem tailScan_append {d k : Nat} {p : Option Nat} {body : Option (List UInt8)} (c s : List UInt8)
    (hc : c.length ≤ d) :
    tailScan H max d p body k (c ++ s) =
      (tailScan H max (d - c.length) p (body.map (· ++ c.take k)) (k - c.length) s).shift c.length := by
  unfold tailScan
  have hlt : (c ++ s).length < d ↔ s.length < d - c.length := by
    rw [List.length_append]
    omega
  have hb : (body.map (· ++ c.take k)).map (· ++ s.take (k - c.length)) =
      body.map (· ++ (c ++ s).take k) := by
    cases body <;> simp [List.take_append]
  have hd : (c ++ s).drop d = s.drop (d - c.length) := by
    rw [List.drop_append, List.drop_eq_nil_of_le hc, List.nil_append]
  rw [hb, hd]
  by_cases h : s.length < d - c.length
  · rw [if_pos h, if_pos (hlt.mpr h), List.length_append]
    rfl
  · rw [if_neg h, if_neg (fun hn => h (hlt.mp hn))]
    have hn : c.length + (d - c.length) = d := by omega
    cases settled p (body.map (· ++ (c ++ s).take k)) <;> simp [hn]

/-- With no payload to go, a captured body is settled and the scan is at a boundary. -/
theorem tailScan_zero (p : Option Nat) (body : Option (List UInt8)) (s : List UInt8) :
    tailScan H max 0 p body 0 s =
      match settled p body with
      | .error e => ⟨0, some e⟩
      | .ok p' => scan H max p' s := by
  have hb : body.map (· ++ s.take 0) = body := by cases body <;> simp
  unfold tailScan
  rw [if_neg (Nat.not_lt_zero _), hb]
  cases settled p body <;> simp

end Etar.Scan
