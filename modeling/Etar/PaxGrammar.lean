import Etar.Pax
import Mathlib.Data.List.Basic
import Mathlib.Data.Nat.Digits.Defs

/-!
# The grammar of PAX records

`IsRecord` says what one record is, and `Records` what a body of them is. The record loop
accepts exactly such bodies, with the size of the last record that has one, and a body is
made of records in one way only. `Indexed` is the same loop with every index and subtraction
checked: it never goes out of range.
-/
namespace Etar.Pax

/-- The value of ASCII digits. -/
def number (digits : List UInt8) : Nat := digits.foldl (fun value digit => value * 10 + (digit.toNat - 48)) 0

/-- A non-empty string of ASCII digits. -/
def Digits (bytes : List UInt8) : Prop := bytes ≠ [] ∧ ∀ b ∈ bytes, isAsciiDigit b = true

/-- `r` is one record, with that `size` value. -/
structure IsRecord (r : List UInt8) (size : Option Nat) : Prop where
  parts : ∃ digits payload, r = digits ++ 32 :: payload ∧ Digits digits ∧ number digits ≤ u64Max ∧
    number digits ≤ usizeMax ∧ number digits = r.length ∧ 2 ≤ payload.length ∧ payload.getLast? = some 10 ∧
    (if sizeKey <+: payload then
      ∃ value, payload = sizeKey ++ (value ++ [10]) ∧ Digits value ∧ number value < 2 ^ 64 ∧ size = some (number value)
    else size = none)

/-- The value of the last record that has one. -/
def lastSize (rs : List (List UInt8 × Option Nat)) : Option Nat :=
  rs.foldl (fun size r => r.2.orElse fun _ => size) none

/-- `body` is made of the records `rs`. -/
def Records (body : List UInt8) (rs : List (List UInt8 × Option Nat)) : Prop :=
  body = rs.flatMap Prod.fst ∧ ∀ r ∈ rs, IsRecord r.1 r.2

section Decimals

theorem le_foldl_number (bytes : List UInt8) (value : Nat) :
    value ≤ bytes.foldl (fun value digit => value * 10 + (digit.toNat - 48)) value := by
  induction bytes generalizing value with
  | nil => exact Nat.le_refl _
  | cons b bytes ih =>
    rw [List.foldl_cons]
    have := ih (value * 10 + (b.toNat - 48))
    omega

/-- A step that leaves `u64` leaves it for good, so only the whole value decides. -/
theorem foldlM_decimal (bytes : List UInt8) {value : Nat} (hvalue : value ≤ u64Max) (v : Nat) :
    bytes.foldlM (fun value byte =>
      if isAsciiDigit byte then (checkedMul value 10).bind (fun tens => checkedAdd tens (byte.toNat - 48))
      else none) value = some v ↔
    (∀ b ∈ bytes, isAsciiDigit b = true) ∧
      bytes.foldl (fun value digit => value * 10 + (digit.toNat - 48)) value = v ∧ v ≤ u64Max := by
  induction bytes generalizing value with
  | nil =>
    constructor
    · intro h
      cases h
      exact ⟨by simp, rfl, hvalue⟩
    · rintro ⟨-, rfl, -⟩
      rfl
  | cons b bytes ih =>
    rw [List.foldlM_cons, List.foldl_cons]
    by_cases hdigit : isAsciiDigit b = true
    · have hgrow := le_foldl_number bytes (value * 10 + (b.toNat - 48))
      simp only [hdigit, if_true, List.mem_cons, forall_eq_or_imp, true_and]
      by_cases hfits : value * 10 + (b.toNat - 48) ≤ u64Max
      · have hstep : (checkedMul value 10).bind (fun tens => checkedAdd tens (b.toNat - 48)) =
            some (value * 10 + (b.toNat - 48)) := by
          rw [checkedMul, if_pos (by omega), Option.bind_some, checkedAdd, if_pos hfits]
        rw [hstep]
        exact ih hfits
      · have hstep : (checkedMul value 10).bind (fun tens => checkedAdd tens (b.toNat - 48)) = none := by
          unfold checkedMul
          split
          · rw [Option.bind_some, checkedAdd, if_neg hfits]
          · rfl
        rw [hstep]
        constructor
        · intro h
          cases h
        · rintro ⟨-, rfl, hle⟩
          omega
    · simp only [hdigit, List.mem_cons, forall_eq_or_imp, Bool.false_eq_true, false_and, if_false, iff_false]
      intro h
      cases h

theorem decimal_eq_some {bytes : List UInt8} {v : Nat} :
    decimal bytes = some v ↔ Digits bytes ∧ number bytes = v ∧ v ≤ u64Max := by
  unfold decimal Digits
  split
  · rename_i hnil
    simp [hnil]
  · rename_i hne
    rw [foldlM_decimal bytes (Nat.zero_le _) v]
    exact ⟨fun ⟨hd, hv⟩ => ⟨⟨hne, hd⟩, hv⟩, fun ⟨⟨_, hd⟩, hv⟩ => ⟨hd, hv⟩⟩

end Decimals

section Records

/-- The first space ends the digits. -/
theorem findIdx_digits {digits : List UInt8} (h : ∀ b ∈ digits, isAsciiDigit b = true) (payload : List UInt8) :
    (digits ++ 32 :: payload).findIdx? (· == 32) = some digits.length := by
  have hnone : digits.findIdx? (· == 32) = none := by
    rw [List.findIdx?_eq_none_iff]
    intro b hb
    have hd := h b hb
    cases hc : b == 32 with
    | false => rfl
    | true =>
      rw [eq_of_beq hc] at hd
      cases hd
  rw [List.findIdx?_append, hnone, List.findIdx?_cons]
  simp

theorem split_at_space {body : List UInt8} {space : Nat} (h : body.findIdx? (· == 32) = some space) :
    space < body.length ∧ body = body.take space ++ 32 :: body.drop (space + 1) := by
  obtain ⟨hlt, hbyte, -⟩ := List.findIdx?_eq_some_iff_getElem.mp h
  refine ⟨hlt, ?_⟩
  rw [← eq_of_beq hbyte, ← List.drop_eq_getElem_cons hlt, List.take_append_drop]

/-- What the loop makes of a record's payload. -/
def payloadSize (payload : List UInt8) : Except Error (Option Nat) :=
  if payload.getLast? ≠ some 10 then .error .malformed
  else if sizeKey.isPrefixOf payload then
    match decimal ((payload.drop sizeKey.length).dropLast) with
    | none => .error .malformed
    | some value => .ok (some value)
  else .ok none

theorem record_eq {body : List UInt8} {space length : Nat} (hspace : body.findIdx? (· == 32) = some space)
    (hdecimal : decimal (body.take space) = some length) (husize : length ≤ usizeMax)
    (hshort : space + 2 < length) (hlong : length ≤ body.length) :
    record body = (payloadSize ((body.take length).drop (space + 1))).map (length, ·) := by
  unfold record payloadSize
  simp only [hspace, hdecimal]
  rw [if_neg (Nat.not_lt.mpr husize), if_neg (by omega)]
  split_ifs
  · rfl
  · cases decimal ((((body.take length).drop (space + 1)).drop sizeKey.length).dropLast) <;> rfl
  · rfl

/-- A payload with the key and a closing newline has something between them. -/
theorem payload_value {payload : List UInt8} (hkey : sizeKey <+: payload) (hlast : payload.getLast? = some 10) :
    payload = sizeKey ++ ((payload.drop sizeKey.length).dropLast ++ [10]) := by
  obtain ⟨value, rfl⟩ := hkey
  rw [List.drop_left]
  congr 1
  have hne : value ≠ [] := by
    rintro rfl
    rw [List.append_nil] at hlast
    exact absurd hlast (by decide)
  rw [List.getLast?_append, List.getLast?_eq_some_getLast hne, Option.some_or] at hlast
  rw [← Option.some.inj hlast, List.dropLast_append_getLast hne]

theorem payloadSize_eq_ok {payload : List UInt8} {size : Option Nat} :
    payloadSize payload = .ok size ↔ payload.getLast? = some 10 ∧
      (if sizeKey <+: payload then
        ∃ value, payload = sizeKey ++ (value ++ [10]) ∧ Digits value ∧ number value < 2 ^ 64 ∧ size = some (number value)
      else size = none) := by
  have hmax : u64Max = 2 ^ 64 - 1 := rfl
  unfold payloadSize
  by_cases hlast : payload.getLast? = some 10
  · rw [if_neg (not_not.mpr hlast)]
    by_cases hkey : sizeKey <+: payload
    · rw [if_pos (List.isPrefixOf_iff_prefix.mpr hkey), if_pos hkey]
      have hpayload := payload_value hkey hlast
      constructor
      · intro h
        split at h
        · cases h
        · rename_i value hvalue
          cases h
          obtain ⟨hdigits, hnumber, hle⟩ := decimal_eq_some.mp hvalue
          exact ⟨hlast, _, hpayload, hdigits, by omega, by rw [hnumber]⟩
      · rintro ⟨-, value, hv, hdigits, hlt, rfl⟩
        have hsame : (payload.drop sizeKey.length).dropLast = value := by
          rw [hv, List.drop_left, List.dropLast_concat]
        rw [hsame, decimal_eq_some.mpr ⟨hdigits, rfl, by omega⟩]
    · rw [if_neg (fun h => hkey (List.isPrefixOf_iff_prefix.mp h)), if_neg hkey]
      constructor
      · intro h
        cases h
        exact ⟨hlast, rfl⟩
      · rintro ⟨-, rfl⟩
        rfl
  · rw [if_pos hlast]
    constructor
    · intro h
      cases h
    · intro h
      exact absurd h.1 hlast

/-- One step of the loop takes one record off the front. -/
theorem record_eq_ok {body : List UInt8} {n : Nat} {size : Option Nat} :
    record body = .ok (n, size) ↔ n ≤ body.length ∧ IsRecord (body.take n) size := by
  constructor
  · intro h
    cases hspace : body.findIdx? (· == 32) with
    | none => simp [record, hspace] at h
    | some space =>
      cases hdecimal : decimal (body.take space) with
      | none => simp [record, hspace, hdecimal] at h
      | some length =>
        obtain ⟨hlt, hbody⟩ := split_at_space hspace
        obtain ⟨hdigits, hnumber, hu64⟩ := decimal_eq_some.mp hdecimal
        by_cases husize : usizeMax < length
        · simp [record, hspace, hdecimal, husize] at h
        · by_cases hrange : length ≤ space + 2 ∨ body.length < length
          · simp [record, hspace, hdecimal, husize, hrange] at h
          · obtain ⟨hshort, hlong⟩ := not_or.mp hrange
            replace husize := Nat.not_lt.mp husize
            replace hshort := Nat.not_le.mp hshort
            replace hlong := Nat.not_lt.mp hlong
            rw [record_eq hspace hdecimal husize hshort hlong] at h
            cases hsize : payloadSize ((body.take length).drop (space + 1)) with
            | error e =>
              rw [hsize] at h
              cases h
            | ok size' =>
              rw [hsize] at h
              cases h
              obtain ⟨hlast, hkey⟩ := payloadSize_eq_ok.mp hsize
              have hlen : (body.take n).length = n := by
                rw [List.length_take]
                omega
              have hsplit : body.take n = body.take space ++ 32 :: (body.take n).drop (space + 1) := by
                have hfirst : (body.take n).findIdx? (· == 32) = some space := by
                  rw [List.findIdx?_eq_some_iff_getElem] at hspace ⊢
                  obtain ⟨_, hbyte, hbefore⟩ := hspace
                  refine ⟨by omega, by simpa using hbyte, fun j hj => by simpa using hbefore j hj⟩
                have hs := split_at_space hfirst
                rw [List.take_take, Nat.min_eq_left (by omega)] at hs
                exact hs.2
              refine ⟨hlong, ⟨_, _, hsplit, hdigits, by omega, by omega, by rw [hnumber, hlen], ?_, hlast, hkey⟩⟩
              rw [List.length_drop, hlen]
              omega
  · rintro ⟨hn, ⟨digits, payload, hr, hdigits, hu64, husize, hnumber, hpay, hlast, hkey⟩⟩
    have hlen : (body.take n).length = n := by
      rw [List.length_take]
      omega
    have hparts := congrArg List.length hr
    rw [List.length_append, List.length_cons, hlen] at hparts
    have hbody : body = digits ++ 32 :: (payload ++ body.drop n) := by
      have htake := List.take_append_drop n body
      rw [hr] at htake
      rw [List.append_assoc, List.cons_append] at htake
      exact htake.symm
    have hspace : body.findIdx? (· == 32) = some digits.length := by
      rw [hbody]
      exact findIdx_digits hdigits.2 _
    have htake : body.take digits.length = digits := by
      rw [hbody, List.take_left]
    rw [hlen] at hnumber
    have hdecimal : decimal (body.take digits.length) = some n := by
      rw [htake]
      exact decimal_eq_some.mpr ⟨hdigits, hnumber, by omega⟩
    have hdrop : (body.take n).drop (digits.length + 1) = payload := by
      rw [hr, ← List.drop_drop, List.drop_left]
      rfl
    rw [record_eq hspace hdecimal (by omega) (by omega) hn, hdrop, payloadSize_eq_ok.mpr ⟨hlast, hkey⟩]
    rfl

/-- A record is at least four bytes long. -/
theorem IsRecord.length_pos {r : List UInt8} {size : Option Nat} (h : IsRecord r size) : 0 < r.length := by
  obtain ⟨digits, payload, rfl, -⟩ := h.parts
  rw [List.length_append, List.length_cons]
  omega

theorem IsRecord.record {r : List UInt8} {size : Option Nat} (h : IsRecord r size) (rest : List UInt8) :
    Pax.record (r ++ rest) = .ok (r.length, size) :=
  record_eq_ok.mpr ⟨by rw [List.length_append]; omega, by rwa [List.take_left]⟩

/-- What is left after the first record of a body is a body of the others. -/
theorem Records.cons {r : List UInt8} {size : Option Nat} {rest : List UInt8} {rs : List (List UInt8 × Option Nat)}
    (hr : IsRecord r size) (h : Records rest rs) : Records (r ++ rest) ((r, size) :: rs) := by
  obtain ⟨rfl, hall⟩ := h
  refine ⟨rfl, ?_⟩
  intro r' hr'
  cases hr' with
  | head => exact hr
  | tail _ hmem => exact hall r' hmem

theorem Records.nil_iff {rs : List (List UInt8 × Option Nat)} : Records [] rs ↔ rs = [] := by
  constructor
  · rintro ⟨hbody, hall⟩
    cases rs with
    | nil => rfl
    | cons r rs =>
      have hpos := (hall r List.mem_cons_self).length_pos
      rw [List.flatMap_cons] at hbody
      rw [(List.append_eq_nil_iff.mp hbody.symm).1] at hpos
      cases hpos
  · rintro rfl
    exact ⟨rfl, fun r hr => absurd hr List.not_mem_nil⟩

/-- The records of a non-empty body are its first one and those of the rest. -/
theorem Records.uncons {body : List UInt8} {rs : List (List UInt8 × Option Nat)} (h : Records body rs) (hne : body ≠ []) :
    ∃ r size rest rs', rs = (r, size) :: rs' ∧ body = r ++ rest ∧ IsRecord r size ∧ Records rest rs' := by
  obtain ⟨rfl, hall⟩ := h
  cases rs with
  | nil => exact absurd rfl hne
  | cons r rs =>
    exact ⟨r.1, r.2, rs.flatMap Prod.fst, rs, rfl, rfl, hall r List.mem_cons_self, rfl,
      fun r' hr' => hall r' (List.mem_cons_of_mem _ hr')⟩

theorem records_cons (fuel : Nat) (found : Option Nat) {body : List UInt8} (hne : body ≠ []) :
    records (fuel + 1) found body = match record body with
      | .error e => .error e
      | .ok (length, value) => records fuel (value.orElse fun _ => found) (body.drop length) := by
  cases body with
  | nil => exact absurd rfl hne
  | cons byte body => rfl

/-- The loop with a value found before: by induction on the records taken, one for each step. -/
theorem records_eq_ok (fuel : Nat) {body : List UInt8} (hfuel : body.length ≤ fuel) (found size : Option Nat) :
    records fuel found body = .ok size ↔
      ∃ rs, Records body rs ∧ rs.foldl (fun size r => r.2.orElse fun _ => size) found = size := by
  induction fuel generalizing body found with
  | zero =>
    obtain rfl := List.length_eq_zero_iff.mp (Nat.le_zero.mp hfuel)
    simp only [Records.nil_iff, records, exists_eq_left, List.foldl_nil, Except.ok.injEq]
  | succ fuel ih =>
    by_cases hne : body = []
    · subst hne
      simp only [Records.nil_iff, records, exists_eq_left, List.foldl_nil, Except.ok.injEq]
    rw [records_cons fuel found hne]
    constructor
    · intro h
      cases hrecord : record body with
      | error e =>
        rw [hrecord] at h
        cases h
      | ok step =>
        obtain ⟨length, value⟩ := step
        rw [hrecord] at h
        obtain ⟨hlength, hr⟩ := record_eq_ok.mp hrecord
        have hpos := hr.length_pos
        rw [List.length_take] at hpos
        obtain ⟨rs, hrs, hsize⟩ := (ih (by rw [List.length_drop]; omega) _).mp h
        have hall := Records.cons hr hrs
        rw [List.take_append_drop] at hall
        exact ⟨_, hall, hsize⟩
    · rintro ⟨rs, hrs, hsize⟩
      obtain ⟨r, value, rest, rs, rfl, rfl, hr, hrest⟩ := hrs.uncons hne
      have hpos := hr.length_pos
      rw [List.length_append] at hfuel
      rw [hr.record rest]
      dsimp only
      rw [List.drop_left]
      exact (ih (by omega) _).mpr ⟨rs, hrest, hsize⟩

theorem parsePaxSize_eq_ok {body : List UInt8} {size : Option Nat} :
    parsePaxSize body = .ok size ↔ ∃ rs, Records body rs ∧ lastSize rs = size :=
  records_eq_ok body.length (Nat.le_refl _) none size

/-- A body is made of records in one way only: each record says where the next one starts. -/
theorem records_unique {body : List UInt8} {rs rs' : List (List UInt8 × Option Nat)} (h : Records body rs)
    (h' : Records body rs') : rs = rs' := by
  induction rs generalizing body rs' with
  | nil =>
    obtain ⟨rfl, -⟩ := h
    exact (Records.nil_iff.mp h').symm
  | cons r rs ih =>
    have hne : body ≠ [] := by
      rintro rfl
      cases Records.nil_iff.mp h
    obtain ⟨r₁, size₁, rest₁, rs₁, heq, rfl, hr₁, hrest₁⟩ := h.uncons hne
    obtain ⟨rfl, rfl⟩ := List.cons.inj heq
    obtain ⟨r₂, size₂, rest₂, rs₂, rfl, hbody, hr₂, hrest₂⟩ := h'.uncons hne
    have hfirst := hr₁.record rest₁
    rw [hbody, hr₂.record rest₂] at hfirst
    obtain ⟨hlen, hsize⟩ := Prod.mk.inj (Except.ok.inj hfirst)
    obtain ⟨hr, hrest⟩ := List.append_inj hbody hlen.symm
    subst hr hrest hsize
    rw [ih hrest₁ hrest₂]

end Records

/-!
## Indices

The same functions with every slice and subtraction of the source checked: an index out of
range or a negative difference is a panic, and a loop that outlives its steps is still
running. Neither happens.
-/
namespace Indexed

inductive Halt where
  | panic
  | running
  deriving DecidableEq, Repr

/-- `&bytes[first..last]`. -/
def slice (bytes : List UInt8) (first last : Nat) : Except Halt (List UInt8) :=
  if first ≤ last ∧ last ≤ bytes.length then .ok ((bytes.take last).drop first) else .error .panic

/-- `a - b` in an unsigned type. -/
def sub (a b : Nat) : Except Halt Nat := if b ≤ a then .ok (a - b) else .error .panic

/-- One step of the fold of `decimal`. -/
def digit (value : Nat) (byte : UInt8) : Except Halt (Option Nat) :=
  if isAsciiDigit byte then
    match checkedMul value 10 with
    | none => .ok none
    | some tens => do
      let units ← sub byte.toNat 48
      return checkedAdd tens units
  else .ok none

/-- `try_fold`. -/
def fold : Nat → List UInt8 → Except Halt (Option Nat)
  | value, [] => .ok (some value)
  | value, byte :: bytes => do
    match ← digit value byte with
    | none => return none
    | some value => fold value bytes

def decimal (bytes : List UInt8) : Except Halt (Option Nat) :=
  if bytes = [] then .ok none else fold 0 bytes

def record (body : List UInt8) : Except Halt (Except Error (Nat × Option Nat)) :=
  match body.findIdx? (· == 32) with
  | none => .ok (.error .malformed)
  | some space => do
    match ← decimal (← slice body 0 space) with
    | none => return .error .malformed
    | some length =>
      if usizeMax < length then return .error .malformed
      else if length ≤ space + 2 ∨ body.length < length then return .error .malformed
      else
        let record ← slice body (space + 1) length
        if record.getLast? ≠ some 10 then return .error .malformed
        else if sizeKey.isPrefixOf record then
          let value := record.drop sizeKey.length
          match ← decimal (← slice value 0 (← sub value.length 1)) with
          | none => return .error .malformed
          | some value => return .ok (length, some value)
        else return .ok (length, none)

/-- The loop, for at most `fuel` steps. -/
def records : Nat → Option Nat → List UInt8 → Except Halt (Except Error (Option Nat))
  | _, size, [] => .ok (.ok size)
  | 0, _, _ :: _ => .error .running
  | fuel + 1, size, byte :: body => do
    match ← record (byte :: body) with
    | .error e => return .error e
    | .ok (length, value) =>
      let rest ← slice (byte :: body) length (byte :: body).length
      records fuel (value.orElse fun _ => size) rest

def parsePaxSize (body : List UInt8) : Except Halt (Except Error (Option Nat)) := records body.length none body

theorem slice_eq {bytes : List UInt8} {first last : Nat} (h : first ≤ last) (h' : last ≤ bytes.length) :
    slice bytes first last = .ok ((bytes.take last).drop first) := if_pos ⟨h, h'⟩

theorem sub_eq {a b : Nat} (h : b ≤ a) : sub a b = .ok (a - b) := if_pos h

theorem digit_eq (value : Nat) (byte : UInt8) :
    digit value byte = .ok (if isAsciiDigit byte then
      (checkedMul value 10).bind (fun tens => checkedAdd tens (byte.toNat - 48)) else none) := by
  unfold digit
  split
  · rename_i hdigit
    have hlow : 48 ≤ byte.toNat := by
      unfold isAsciiDigit at hdigit
      rw [Bool.and_eq_true, decide_eq_true_eq, decide_eq_true_eq] at hdigit
      exact UInt8.le_iff_toNat_le.mp hdigit.1
    cases checkedMul value 10 with
    | none => rfl
    | some tens =>
      dsimp only
      rw [sub_eq hlow]
      rfl
  · rfl

theorem fold_eq (value : Nat) (bytes : List UInt8) :
    fold value bytes = .ok (bytes.foldlM (fun value byte =>
      if isAsciiDigit byte then (checkedMul value 10).bind (fun tens => checkedAdd tens (byte.toNat - 48))
      else none) value) := by
  induction bytes generalizing value with
  | nil => rfl
  | cons byte bytes ih =>
    rw [fold, digit_eq, List.foldlM_cons]
    cases (if isAsciiDigit byte then
      (checkedMul value 10).bind (fun tens => checkedAdd tens (byte.toNat - 48)) else none) with
    | none => rfl
    | some value => exact ih value

theorem decimal_eq (bytes : List UInt8) : decimal bytes = .ok (Pax.decimal bytes) := by
  unfold decimal Pax.decimal
  split
  · rfl
  · exact fold_eq 0 bytes

/-- No slice of a record is out of range: the space is in the body, the length was compared
with both, and a payload with the key and a closing newline is longer than the key. -/
theorem record_eq (body : List UInt8) : record body = .ok (Pax.record body) := by
  unfold record Pax.record
  cases hspace : body.findIdx? (· == 32) with
  | none => rfl
  | some space =>
    have hlt := (split_at_space hspace).1
    dsimp only
    rw [slice_eq (Nat.zero_le _) (Nat.le_of_lt hlt), List.drop_zero]
    simp only [bind, Except.bind, decimal_eq]
    cases hdecimal : Pax.decimal (body.take space) with
    | none => rfl
    | some length =>
      dsimp only
      by_cases husize : usizeMax < length
      · simp only [if_pos husize]
        rfl
      by_cases hrange : length ≤ space + 2 ∨ body.length < length
      · simp only [if_neg husize, if_pos hrange]
        rfl
      simp only [if_neg husize, if_neg hrange]
      obtain ⟨hshort, hlong⟩ := not_or.mp hrange
      rw [slice_eq (by omega) (by omega)]
      dsimp only
      generalize (body.take length).drop (space + 1) = payload
      by_cases hlast : payload.getLast? = some 10
      · simp only [hlast, ne_eq, not_true_eq_false, if_false]
        by_cases hkey : sizeKey.isPrefixOf payload = true
        · simp only [hkey, if_true]
          have hlen := congrArg List.length (payload_value (List.isPrefixOf_iff_prefix.mp hkey) hlast)
          have hpos : 1 ≤ (payload.drop sizeKey.length).length := by
            rw [List.length_append, List.length_append, List.length_singleton] at hlen
            rw [List.length_drop]
            omega
          rw [sub_eq hpos]
          dsimp only
          rw [slice_eq (Nat.zero_le _) (Nat.sub_le _ _), List.drop_zero, ← List.dropLast_eq_take]
          dsimp only
          cases Pax.decimal (payload.drop sizeKey.length).dropLast <;> rfl
        · simp only [hkey]
          rfl
      · simp only [hlast, ne_eq, not_false_eq_true, if_true]
        rfl

/-- Every step takes at least one byte, so the steps suffice. -/
theorem records_eq (fuel : Nat) {body : List UInt8} (hfuel : body.length ≤ fuel) (size : Option Nat) :
    records fuel size body = .ok (Pax.records fuel size body) := by
  induction fuel generalizing body size with
  | zero =>
    obtain rfl := List.length_eq_zero_iff.mp (Nat.le_zero.mp hfuel)
    rfl
  | succ fuel ih =>
    cases body with
    | nil => rfl
    | cons byte body =>
      unfold records Pax.records
      rw [record_eq]
      simp only [bind, Except.bind]
      cases hrecord : Pax.record (byte :: body) with
      | error e => rfl
      | ok step =>
        obtain ⟨length, value⟩ := step
        obtain ⟨hlength, hr⟩ := record_eq_ok.mp hrecord
        have hpos := hr.length_pos
        rw [List.length_take] at hpos
        dsimp only
        rw [slice_eq hlength (Nat.le_refl _), List.take_length]
        exact ih (by rw [List.length_drop]; omega) _

theorem parsePaxSize_eq (body : List UInt8) : parsePaxSize body = .ok (Pax.parsePaxSize body) :=
  records_eq body.length (Nat.le_refl _) none

end Indexed

/-- The parser runs to its end without a panic, accepts exactly the bodies made of records,
with the last size, and a body is made of records in one way only. -/
theorem parsePaxSize_accepts_the_grammar (body : List UInt8) :
    Indexed.parsePaxSize body = .ok (parsePaxSize body) ∧
      (∀ size, parsePaxSize body = .ok size ↔ ∃ rs, Records body rs ∧ lastSize rs = size) ∧
      ∀ rs rs', Records body rs → Records body rs' → rs = rs' :=
  ⟨Indexed.parsePaxSize_eq body, fun _ => parsePaxSize_eq_ok, fun _ _ => records_unique⟩

/-- The base-10 value of a string, its first digit the most significant. -/
def value (bytes : List UInt8) : Nat := Nat.ofDigits 10 (bytes.reverse.map fun byte => byte.toNat - 48)

theorem number_eq_value (bytes : List UInt8) : number bytes = value bytes := by
  unfold number value
  rw [Nat.ofDigits_eq_foldr, List.foldr_map, List.foldr_reverse]
  congr 1
  funext value digit
  rw [Nat.cast_id, Nat.add_comm, Nat.mul_comm]

/-- What the first digits of a string are worth is no more than the string is. -/
theorem number_take_le (bytes : List UInt8) (n : Nat) : number (bytes.take n) ≤ number bytes := by
  have hsplit : number bytes =
      (bytes.drop n).foldl (fun value digit => value * 10 + (digit.toNat - 48)) (number (bytes.take n)) := by
    unfold number
    rw [← List.foldl_append, List.take_append_drop]
  rw [hsplit]
  exact le_foldl_number _ _

/-- `decimal` reads exactly the strings of digits whose value fits, leading zeros and all; no
difference in it is negative, and of a string that fits every beginning does. -/
theorem decimal_is_exact (bytes : List UInt8) :
    Indexed.decimal bytes = .ok (decimal bytes) ∧
    (∀ v, decimal bytes = some v ↔
      bytes ≠ [] ∧ (∀ byte ∈ bytes, isAsciiDigit byte = true) ∧ value bytes < 2 ^ 64 ∧ v = value bytes) ∧
    (∀ n, 0 < n → decimal bytes ≠ none →
      decimal (bytes.take n) = some (value (bytes.take n)) ∧ value (bytes.take n) < 2 ^ 64) := by
  have hexact : ∀ (bytes : List UInt8) v, decimal bytes = some v ↔
      bytes ≠ [] ∧ (∀ byte ∈ bytes, isAsciiDigit byte = true) ∧ value bytes < 2 ^ 64 ∧ v = value bytes := by
    intro bytes v
    rw [decimal_eq_some, number_eq_value]
    unfold Digits u64Max
    constructor
    · rintro ⟨⟨hne, hdigits⟩, rfl, hle⟩
      exact ⟨hne, hdigits, by omega, rfl⟩
    · rintro ⟨hne, hdigits, hlt, rfl⟩
      exact ⟨⟨hne, hdigits⟩, rfl, by omega⟩
  refine ⟨Indexed.decimal_eq bytes, hexact bytes, fun n hn hsome => ?_⟩
  obtain ⟨v, hv⟩ := Option.ne_none_iff_exists'.mp hsome
  obtain ⟨hne, hdigits, hlt, -⟩ := (hexact bytes v).mp hv
  have hle := number_take_le bytes n
  rw [number_eq_value, number_eq_value] at hle
  have hfits : value (bytes.take n) < 2 ^ 64 := hle.trans_lt hlt
  refine ⟨(hexact _ _).mpr ⟨?_, fun byte hb => hdigits byte (List.mem_of_mem_take hb), hfits, rfl⟩, hfits⟩
  intro hnil
  rcases List.take_eq_nil_iff.mp hnil with hzero | hbytes
  · exact hn.ne' hzero
  · exact hne hbytes

/-- Zeros in front do not count. -/
example : decimal (List.replicate 30 48 ++ [53]) = some 5 := by decide

end Etar.Pax
