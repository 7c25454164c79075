import Etar.Framing
import Etar.PullSpec

/-!
# The outline of a stream

`walk` runs the parser's phases over a whole stream at once: the members it hands out, each
with its body, and what it stops at. Taking bytes in pieces does not change the outline, so
a reader that follows the phases follows the outline whatever the reads are.
-/
namespace Etar

/-- A member with the length of its body and as much of it as the stream holds. -/
structure Item where
  entry : TarEntry
  len : Nat
  body : List UInt8

/-- What the parser stops at. -/
inductive End where
  /-- A zero block, with what follows it. -/
  | zero (trailing : List UInt8)
  /-- The end of the stream, on a record boundary. -/
  | boundary
  /-- The end of the stream, inside a record. -/
  | cut
  | refused (e : IoError)

structure Outline where
  items : List Item
  stop : End

namespace Outline

def cons (i : Item) (w : Outline) : Outline := ⟨i :: w.items, w.stop⟩

/-- What is left of an outline after `k` members. -/
def after (k : Nat) (w : Outline) : Outline := ⟨w.items.drop k, w.stop⟩

@[simp] theorem items_cons (i : Item) (w : Outline) : (w.cons i).items = i :: w.items := rfl
@[simp] theorem stop_cons (i : Item) (w : Outline) : (w.cons i).stop = w.stop := rfl
@[simp] theorem stop_after (k : Nat) (w : Outline) : (w.after k).stop = w.stop := rfl

/-- The first member of what is left is the next one. -/
theorem cons_eq_after {i : Item} {w w₀ : Outline} {k : Nat} (h : w.cons i = w₀.after k) :
    w₀.items[k]? = some i ∧ w = w₀.after (k + 1) := by
  have hi : i :: w.items = w₀.items.drop k := congrArg Outline.items h
  have hs := congrArg Outline.stop h
  rw [stop_cons, stop_after] at hs
  refine ⟨by rw [← List.head?_drop, ← hi, List.head?_cons], ?_⟩
  have ht := congrArg List.tail hi
  rw [List.tail_cons, List.tail_drop] at ht
  cases w
  simp only at ht hs
  rw [ht, hs]
  rfl

end Outline

namespace Phase

variable {H : HeaderFields} (F : TarFormat H)

/-- The outline when the stream is too short for the record it is in. -/
def short (φ : Phase F.Ext) (s : List UInt8) : Outline :=
  ⟨[], match φ, s with
    | .header _ [], [] => .boundary
    | _, _ => .cut⟩

/-- Only handing out a member takes no bytes. -/
def rank : Phase F.Ext → Nat
  | .yielding _ _ => 1
  | _ => 0

theorem rank_le (φ : Phase F.Ext) : φ.rank F ≤ 1 := by
  cases φ with
  | yielding => exact le_refl _
  | _ => exact Nat.zero_le _

theorem rank_after (len : Nat) : (after F len).rank F = 0 := by
  unfold after
  split <;> rfl

/-- The outline of the stream `s` from a phase on. -/
def walk (φ : Phase F.Ext) (s : List UInt8) : Outline :=
  match φ with
  | .yielding entry len => (walk (.after F len) s).cons ⟨entry, len, s.take len⟩
  | .failed e => ⟨[], .refused e⟩
  | .ended => ⟨[], .zero s⟩
  | φ =>
    if _h : 0 < φ.need F ∧ φ.need F ≤ s.length then walk (φ.eat F (s.take (φ.need F))) (s.drop (φ.need F))
    else φ.short F s
termination_by 2 * s.length + φ.rank F
decreasing_by
  · rw [rank_after]
    simp only [rank]
    omega
  · have := rank_le F (φ.eat F (s.take (φ.need F)))
    rw [List.length_drop]
    omega

@[simp] theorem walk_yielding (entry : TarEntry) (len : Nat) (s : List UInt8) :
    (yielding entry len : Phase F.Ext).walk F s = (walk F (after F len) s).cons ⟨entry, len, s.take len⟩ := by
  rw [walk]

@[simp] theorem walk_failed (e : IoError) (s : List UInt8) :
    (failed e : Phase F.Ext).walk F s = ⟨[], .refused e⟩ := by
  rw [walk]

@[simp] theorem walk_ended (s : List UInt8) : (ended : Phase F.Ext).walk F s = ⟨[], .zero s⟩ := by
  rw [walk]

theorem walk_full {φ : Phase F.Ext} {s : List UInt8} (hn : 0 < φ.need F) (hs : φ.need F ≤ s.length) :
    φ.walk F s = walk F (φ.eat F (s.take (φ.need F))) (s.drop (φ.need F)) := by
  cases φ with
  | header | payload | member =>
    rw [walk]
    · exact dif_pos ⟨hn, hs⟩
    all_goals simp
  | yielding | failed | ended => exact absurd hn (Nat.lt_irrefl 0)

theorem walk_short {φ : Phase F.Ext} {s : List UInt8} (hn : s.length < φ.need F) :
    φ.walk F s = φ.short F s := by
  cases φ with
  | header | payload | member =>
    rw [walk]
    · exact dif_neg (by omega)
    all_goals simp
  | yielding | failed | ended => exact absurd hn (Nat.not_lt_zero _)

/-- What was collected of a record is not a record boundary. -/
theorem short_eat {φ : Phase F.Ext} {bytes s : List UInt8} (hne : bytes ≠ []) (hl : bytes.length < φ.need F) :
    (φ.eat F bytes).short F s = φ.short F (bytes ++ s) := by
  cases bytes with
  | nil => exact absurd rfl hne
  | cons b bs =>
    cases φ with
    | header x got =>
      simp only [need] at hl
      rw [eat_header_lt F (by omega)]
      cases got <;> rfl
    | payload x h len got =>
      simp only [need] at hl
      rw [eat_payload_lt F (by omega)]
      rfl
    | member left pad =>
      simp only [need] at hl
      rw [eat_member_lt F hl]
      rfl
    | yielding | failed | ended => exact absurd hl (Nat.not_lt_zero _)

/-- Bytes taken first do not change the outline. -/
theorem walk_eat {φ : Phase F.Ext} {bytes : List UInt8} (hne : bytes ≠ []) (hl : bytes.length ≤ φ.need F)
    (s : List UInt8) : walk F (φ.eat F bytes) s = φ.walk F (bytes ++ s) := by
  have hpos := List.length_pos_iff.mpr hne
  rcases Nat.lt_or_eq_of_le hl with hlt | heq
  · have hneed := need_eat F hlt
    by_cases hs : φ.need F ≤ (bytes ++ s).length
    · have hs' : (φ.eat F bytes).need F ≤ s.length := by
        rw [hneed]
        rw [List.length_append] at hs
        omega
      rw [walk_full F (by omega) hs', walk_full F (by omega) hs, hneed, eat_eat F hlt,
        List.take_append, List.take_of_length_le hl, List.drop_append, List.drop_eq_nil_of_le hl,
        List.nil_append]
    · rw [List.length_append] at hs
      rw [walk_short F (by omega), walk_short F (by rw [List.length_append]; omega), short_eat F hne hlt]
  · rw [walk_full F (s := bytes ++ s) (by omega) (by rw [List.length_append]; omega), ← heq,
      List.take_left, List.drop_left]

end Phase

/-- A parser that takes bytes stays on its outline. -/
theorem kept_walk {H : HeaderFields} {F : TarFormat H} (w : Outline) : Kept fun φ s => φ.walk F s = w :=
  fun _ hne hl h => (Phase.walk_eat F hne hl _).trans h

end Etar
