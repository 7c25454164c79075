import Etar.GuardRun
import Etar.Walk

/-!
# Records

What the guard lets through and what the parser makes of it, record by record. `Outlined`
takes the parser's outline of a guarded stream apart; `Framed` builds the streams that
both accept to the end.
-/
namespace Etar

open Guard (isExtension Boundary)
open Scan

variable {H : HeaderFields} (F : TarFormat H) (max : Nat)

/-- Guard and parser both accept a header, and agree on its payload length. -/
structure Accepted (p : Option Nat) (x : F.Ext) (h : Block) (len : Nat) : Prop where
  nonzero : h.isZero = false
  vet : vet H max p h = .ok len
  size : F.size x h = .ok len

variable {F max}

/-- The guard and the parser go by the same rule for payload lengths. -/
theorem size_eq_of_vet {p : Option Nat} {x : F.Ext} {h : Block} {e len : Nat} (hx : F.paxSize x = p)
    (hv : vet H max p h = .ok e) (hs : F.size x h = .ok len) : len = e := by
  unfold vet at hv
  split at hv
  · cases hv
  · split at hv
    · cases hv
    · rename_i r hr
      by_cases hk : isExtension h.typeflag = true
      · simp only [hk, true_and, if_true] at hv
        split_ifs at hv
        rw [← Except.ok.inj hv]
        exact F.size_extension hs hk hr
      · simp only [hk, Bool.false_eq_true, false_and, if_false] at hv
        split_ifs at hv
        rw [← Except.ok.inj hv, ← hx]
        exact F.size_member hs (by simpa using hk) hr

/-- A member's payload length is the pending size or its own. -/
theorem vet_member {p : Option Nat} {h : Block} {len : Nat} (hv : vet H max p h = .ok len)
    (hk : isExtension h.typeflag = false) : ∃ r, H.size h = some r ∧ len = p.getD r.toNat := by
  unfold vet at hv
  split at hv
  · cases hv
  · split at hv
    · cases hv
    · rename_i r hr
      simp only [hk, Bool.false_eq_true, false_and, if_false] at hv
      split_ifs at hv
      cases hv
      exact ⟨r, hr, rfl⟩

theorem Accepted.member_len {p : Option Nat} {x : F.Ext} {h : Block} {len : Nat} (ha : Accepted F max p x h len)
    (hk : isExtension h.typeflag = false) : ∃ r, H.size h = some r ∧ len = p.getD r.toNat :=
  vet_member ha.vet hk

/-- A payload with its padding fits `u64`. -/
theorem Accepted.len_lt {p : Option Nat} {x : F.Ext} {h : Block} {len : Nat} (ha : Accepted F max p x h len) :
    len < 2 ^ 64 := by
  have hv := ha.vet
  have hmax : u64Max = 2 ^ 64 - 1 := rfl
  unfold Scan.vet at hv
  split at hv
  · cases hv
  · split at hv
    · cases hv
    · dsimp only at hv
      split_ifs at hv <;>
      · cases hv
        omega

theorem carry_member {p : Option Nat} {h : Block} (hk : isExtension h.typeflag = false) (body : List UInt8) :
    carry p h body = .ok none := by
  have hx : h.typeflag ≠ 120 := by
    intro hx
    rw [hx] at hk
    cases hk
  simp [carry, hx, hk]

/-- The pending sizes of the guard and the parser stay the same. -/
theorem paxSize_carry {p p' : Option Nat} {x x' : F.Ext} {h : Block} {body : List UInt8} (hx : F.paxSize x = p)
    (hk : isExtension h.typeflag = true) (hc : carry p h body = .ok p') (he : F.extend x h body = .ok x') :
    F.paxSize x' = p' := by
  unfold carry at hc
  split_ifs at hc with h1
  · exact F.paxSize_pax he h1 hc
  · cases hc
    rw [F.paxSize_keep he h1, hx]

theorem split_block {s : List UInt8} (hs : 512 ≤ s.length) : ∃ (h : Block) (rest : List UInt8), s = h.bytes ++ rest :=
  ⟨.ofList s hs, s.drop 512, (List.take_append_drop 512 s).symm⟩

theorem split_payload {e : Nat} {s : List UInt8} (hs : roundUp e ≤ s.length) :
    ∃ body pad rest : List UInt8, s = (body ++ pad) ++ rest ∧ body.length = e ∧ (body ++ pad).length = roundUp e := by
  have he := le_roundUp e
  refine ⟨s.take e, (s.take (roundUp e)).drop e, s.drop (roundUp e), ?_, ?_, ?_⟩
  · have ht := List.take_append_drop e (s.take (roundUp e))
    rw [List.take_take, Nat.min_eq_left he] at ht
    rw [ht, List.take_append_drop]
  · rw [List.length_take]
    omega
  · rw [List.length_append, List.length_drop, List.length_take, List.length_take]
    omega

theorem take_body (body pad s : List UInt8) : ((body ++ pad) ++ s).take body.length = body := by
  rw [List.append_assoc, List.take_left]

theorem length_block_append (h : Block) (s : List UInt8) : (h.bytes ++ s).length = 512 + s.length := by
  rw [List.length_append, h.length_bytes]

section Scans

variable (max)

theorem scan_block_zero {p : Option Nat} {h : Block} (hz : h.isZero = true) (s : List UInt8) :
    scan H max p (h.bytes ++ s) = ⟨512 + s.length, none⟩ := by
  have hs : 512 ≤ (h.bytes ++ s).length := by simp
  rw [scan_zero H max hs (by rwa [Block.ofList_append])]
  simp

theorem scan_block_refused {p : Option Nat} {h : Block} {e : Error} (hz : h.isZero = false)
    (hv : vet H max p h = .error e) (s : List UInt8) : scan H max p (h.bytes ++ s) = ⟨0, some e⟩ := by
  have hs : 512 ≤ (h.bytes ++ s).length := by simp
  exact scan_refused H max hs (by rwa [Block.ofList_append]) (by rwa [Block.ofList_append])

/-- An accepted header and its payload, and the scan after them. -/
theorem scan_block {p : Option Nat} {h : Block} {e : Nat} (hz : h.isZero = false)
    (hv : vet H max p h = .ok e) (s : List UInt8) :
    scan H max p (h.bytes ++ s) =
      if s.length < roundUp e then ⟨512 + s.length, none⟩
      else
        match carry p h (s.take e) with
        | .error e' => ⟨512 + roundUp e, some e'⟩
        | .ok p' => (scan H max p' (s.drop (roundUp e))).shift (512 + roundUp e) := by
  have hs : 512 ≤ (h.bytes ++ s).length := by simp
  have hd : (h.bytes ++ s).drop (512 + roundUp e) = s.drop (roundUp e) := by
    rw [← List.drop_drop, Block.drop_append]
  have hlt : 512 + s.length < 512 + roundUp e ↔ s.length < roundUp e := by omega
  rw [scan, dif_pos hs, Block.ofList_append, if_neg (by simp [hz])]
  cases hc : carry p h (s.take e) <;>
    simp only [hv, hc, Block.drop_append, hd, List.length_append, Block.length_bytes, hlt]

/-- An accepted header gets through. -/
theorem take_scan_block {p : Option Nat} {h : Block} {e : Nat} (hz : h.isZero = false)
    (hv : vet H max p h = .ok e) (s : List UInt8) :
    ∃ s', (h.bytes ++ s).take (scan H max p (h.bytes ++ s)).passed = h.bytes ++ s' := by
  have hk : ∃ k, (scan H max p (h.bytes ++ s)).passed = 512 + k := by
    rw [scan_block max hz hv]
    split
    · exact ⟨_, rfl⟩
    · split
      · exact ⟨_, rfl⟩
      · exact ⟨_, Nat.add_assoc _ _ _⟩
  obtain ⟨k, hk⟩ := hk
  refine ⟨s.take k, ?_⟩
  rw [hk, List.take_append, h.length_bytes, List.take_of_length_le (by simp), Nat.add_sub_cancel_left]

/-- A record whose payload the guard accepts, and the scan after it. -/
theorem scan_record {p p' : Option Nat} {h : Block} {body pad : List UInt8} (hz : h.isZero = false)
    (hv : vet H max p h = .ok body.length) (hp : (body ++ pad).length = roundUp body.length)
    (hc : carry p h body = .ok p') (s : List UInt8) :
    scan H max p (h.bytes ++ ((body ++ pad) ++ s)) =
      (scan H max p' s).shift (h.bytes ++ (body ++ pad)).length := by
  rw [scan_block max hz hv, ← hp, if_neg (by simp), take_body, hc, List.drop_left, length_block_append]

end Scans

section Walks

/-- A complete header is opened. -/
theorem walk_block (x : F.Ext) (h : Block) (s : List UInt8) :
    (Phase.header x []).walk F (h.bytes ++ s) = (Phase.opened F x h).walk F s := by
  have hl : ([] ++ h.bytes).length = 512 := h.length_bytes
  rw [← Phase.walk_eat F (by intro hn; simp [hn] at hl) (by simp [Phase.need]),
    Phase.eat_header_full F hl]
  rfl

theorem opened_zero {h : Block} (hz : h.isZero = true) (x : F.Ext) : Phase.opened F x h = .stopped F x :=
  if_pos hz

theorem walk_extension {x : F.Ext} {h : Block} {len : Nat} (hz : h.isZero = false) (hs : F.size x h = .ok len)
    (hk : isExtension h.typeflag = true) (s : List UInt8) :
    (Phase.opened F x h).walk F s =
      if s.length < roundUp len then ⟨[], .cut⟩
      else (Phase.closed F x h (s.take len)).walk F (s.drop (roundUp len)) := by
  have hlen := le_roundUp len
  simp only [Phase.opened, hz, Bool.false_eq_true, if_false, hs, hk, if_true]
  by_cases h0 : roundUp len = 0
  · have : len = 0 := by omega
    subst this
    simp
  · rw [if_neg h0]
    by_cases hl : s.length < roundUp len
    · rw [Phase.walk_short F (by simpa [Phase.need] using hl), if_pos hl]
      rfl
    · have hn : (Phase.payload x h len [] : Phase F.Ext).need F = roundUp len := by simp [Phase.need]
      rw [Phase.walk_full F (by omega) (by omega), hn, if_neg hl, Phase.eat_payload_full F (by
        rw [List.length_take]
        simp only [List.length_nil]
        omega), List.nil_append, List.take_take, Nat.min_eq_left hlen]

theorem walk_member {x : F.Ext} {h : Block} {len : Nat} {entry : TarEntry} (hz : h.isZero = false)
    (hs : F.size x h = .ok len) (hk : isExtension h.typeflag = false) (he : F.entry x h = .ok entry)
    (s : List UInt8) :
    (Phase.opened F x h).walk F s = Outline.cons ⟨entry, len, s.take len⟩
      (if s.length < roundUp len then ⟨[], .cut⟩
      else (Phase.header F.start []).walk F (s.drop (roundUp len))) := by
  have hlen := le_roundUp len
  simp only [Phase.opened, hz, Bool.false_eq_true, if_false, hs, hk, he, Phase.walk_yielding, Phase.after]
  congr 1
  by_cases h0 : roundUp len = 0
  · simp [h0]
  · rw [if_neg h0]
    have hn : (Phase.member len (roundUp len - len) : Phase F.Ext).need F = roundUp len := by
      simp only [Phase.need]
      omega
    by_cases hl : s.length < roundUp len
    · rw [Phase.walk_short F (by omega), if_pos hl]
      rfl
    · rw [Phase.walk_full F (by omega) (by omega), hn, if_neg hl, Phase.eat_member_full F (by
        rw [List.length_take]
        omega)]

end Walks

variable (F max)

/-- The outline of a guarded stream, record by record. -/
inductive Outlined : Option Nat → F.Ext → List UInt8 → Outline → Prop where
  | stops {p : Option Nat} {x : F.Ext} {s : List UInt8} {e : End} (he : ∀ t, e ≠ .zero t) :
      Outlined p x s ⟨[], e⟩
  | zero (p : Option Nat) {x : F.Ext} (hx : F.dangling x = none) (t : List UInt8) :
      Outlined p x (Block.zero.bytes ++ t) ⟨[], .zero t⟩
  | extension {p p' : Option Nat} {x x' : F.Ext} {h : Block} {body pad s : List UInt8} {w : Outline}
      (ha : Accepted F max p x h body.length) (hk : isExtension h.typeflag = true)
      (hp : (body ++ pad).length = roundUp body.length) (hc : carry p h body = .ok p')
      (he : F.extend x h body = .ok x') (hw : Outlined p' x' s w) :
      Outlined p x (h.bytes ++ ((body ++ pad) ++ s)) w
  | cut {p : Option Nat} {x : F.Ext} {h : Block} {len : Nat} {entry : TarEntry} {body s : List UInt8}
      (ha : Accepted F max p x h len) (hk : isExtension h.typeflag = false) (he : F.entry x h = .ok entry) :
      Outlined p x (h.bytes ++ s) ⟨[⟨entry, len, body⟩], .cut⟩
  | member {p : Option Nat} {x : F.Ext} {h : Block} {body pad s : List UInt8} {entry : TarEntry} {w : Outline}
      (ha : Accepted F max p x h body.length) (hk : isExtension h.typeflag = false)
      (hp : (body ++ pad).length = roundUp body.length) (he : F.entry x h = .ok entry)
      (hw : Outlined none F.start s w) :
      Outlined p x (h.bytes ++ ((body ++ pad) ++ s)) (w.cons ⟨entry, body.length, body⟩)

variable {F max}

/-- A header the parser refuses ends the outline. -/
theorem walk_size_error {x : F.Ext} {h : Block} {e : IoError} (hz : h.isZero = false) (hs : F.size x h = .error e)
    (s : List UInt8) : (Phase.opened F x h).walk F s = ⟨[], .refused e⟩ := by
  simp [Phase.opened, hz, hs]

theorem walk_entry_error {x : F.Ext} {h : Block} {len : Nat} {e : IoError} (hz : h.isZero = false)
    (hs : F.size x h = .ok len) (hk : isExtension h.typeflag = false) (he : F.entry x h = .error e)
    (s : List UInt8) : (Phase.opened F x h).walk F s = ⟨[], .refused e⟩ := by
  simp [Phase.opened, hz, hs, hk, he]

/-- A record cut short by the end of the stream. -/
theorem outlined_short {p : Option Nat} {x : F.Ext} {h : Block} {len : Nat} (ha : Accepted F max p x h len)
    {s : List UInt8} (hs : s.length < roundUp len) :
    Outlined F max p x (h.bytes ++ s) ((Phase.opened F x h).walk F s) := by
  cases hk : isExtension h.typeflag with
  | true =>
    rw [walk_extension ha.nonzero ha.size hk, if_pos hs]
    exact .stops (by intro t h; cases h)
  | false =>
    cases he : F.entry x h with
    | error e =>
      rw [walk_entry_error ha.nonzero ha.size hk he]
      exact .stops (by intro t h; cases h)
    | ok entry =>
      rw [walk_member ha.nonzero ha.size hk he, if_pos hs]
      exact .cut ha hk he

/-- The bytes of a whole record and what is let through after it. -/
theorem take_record {p p' : Option Nat} {h : Block} {body pad : List UInt8} (hz : h.isZero = false)
    (hv : vet H max p h = .ok body.length) (hp : (body ++ pad).length = roundUp body.length)
    (hc : carry p h body = .ok p') (s : List UInt8) :
    (h.bytes ++ ((body ++ pad) ++ s)).take (scan H max p (h.bytes ++ ((body ++ pad) ++ s))).passed =
      h.bytes ++ ((body ++ pad) ++ s.take (scan H max p' s).passed) := by
  have hs : h.bytes ++ ((body ++ pad) ++ s) = (h.bytes ++ (body ++ pad)) ++ s := (List.append_assoc _ _ _).symm
  rw [scan_record max hz hv hp hc, hs]
  exact (List.take_length_add_append _).trans (List.append_assoc _ _ _)

/-- A PAX record whose payload the guard refuses is the last thing it lets through. -/
theorem outlined_spoiled {p : Option Nat} {x : F.Ext} {h : Block} {body pad s : List UInt8} {e : Error}
    (ha : Accepted F max p x h body.length) (hp : (body ++ pad).length = roundUp body.length)
    (hc : carry p h body = .error e) :
    Outlined F max p x (h.bytes ++ ((body ++ pad) ++ s)) ((Phase.header x []).walk F
      ((h.bytes ++ ((body ++ pad) ++ s)).take (scan H max p (h.bytes ++ ((body ++ pad) ++ s))).passed)) := by
  cases hk : isExtension h.typeflag with
  | false =>
    rw [carry_member hk] at hc
    cases hc
  | true =>
    have hscan : scan H max p (h.bytes ++ ((body ++ pad) ++ s)) = ⟨(h.bytes ++ (body ++ pad)).length, some e⟩ := by
      rw [scan_block max ha.nonzero ha.vet, ← hp, if_neg (by simp), take_body, hc, length_block_append]
    rw [hscan, ← List.append_assoc, List.take_left, walk_block, walk_extension ha.nonzero ha.size hk,
      ← hp, if_neg (Nat.lt_irrefl _), List.take_left, List.drop_length]
    cases he : F.extend x h body with
    | error e' => simpa [Phase.closed, he] using .stops (by intro t h; cases h)
    | ok x' =>
      rw [Phase.closed, he, Phase.walk_short F (by simp [Phase.need])]
      exact .stops (by intro t h; cases h)

/-- A whole record, and the outline after it. -/
theorem outlined_record {p p' : Option Nat} {x : F.Ext} {h : Block} {body pad s : List UInt8}
    (hx : F.paxSize x = p) (ha : Accepted F max p x h body.length)
    (hp : (body ++ pad).length = roundUp body.length) (hc : carry p h body = .ok p')
    (ih : ∀ {x' : F.Ext}, F.paxSize x' = p' →
      Outlined F max p' x' s ((Phase.header x' []).walk F (s.take (scan H max p' s).passed))) :
    Outlined F max p x (h.bytes ++ ((body ++ pad) ++ s)) ((Phase.header x []).walk F
      ((h.bytes ++ ((body ++ pad) ++ s)).take (scan H max p (h.bytes ++ ((body ++ pad) ++ s))).passed)) := by
  rw [take_record ha.nonzero ha.vet hp hc, walk_block]
  cases hk : isExtension h.typeflag with
  | true =>
    rw [walk_extension ha.nonzero ha.size hk, ← hp, if_neg (by simp), take_body, List.drop_left]
    cases he : F.extend x h body with
    | error e' => simpa [Phase.closed, he] using .stops (by intro t h; cases h)
    | ok x' =>
      rw [Phase.closed, he]
      exact .extension ha hk hp hc he (ih (paxSize_carry hx hk hc he))
  | false =>
    obtain rfl : none = p' := Except.ok.inj ((carry_member hk body).symm.trans hc)
    cases he : F.entry x h with
    | error e' =>
      rw [walk_entry_error ha.nonzero ha.size hk he]
      exact .stops (by intro t h; cases h)
    | ok entry =>
      rw [walk_member ha.nonzero ha.size hk he, ← hp, if_neg (by simp), take_body, List.drop_left]
      exact .member ha hk hp he (ih F.paxSize_start)

/-- The parser's outline of what the guard lets through. -/
theorem outlined {p : Option Nat} {x : F.Ext} (hx : F.paxSize x = p) (s : List UInt8) :
    Outlined F max p x s ((Phase.header x []).walk F (s.take (scan H max p s).passed)) := by
  induction hn : s.length using Nat.strong_induction_on generalizing p x s with
  | _ n ih =>
    by_cases hs : 512 ≤ s.length
    · obtain ⟨h, rest, rfl⟩ := split_block hs
      cases hz : h.isZero with
      | true =>
        rw [scan_block_zero max hz, List.take_of_length_le (by simp), walk_block, opened_zero hz, Phase.stopped,
          Block.eq_zero_of_isZero hz]
        cases hd : F.dangling x with
        | some e =>
          rw [Phase.walk_failed]
          exact .stops (by intro t h; cases h)
        | none =>
          rw [Phase.walk_ended]
          exact .zero p hd rest
      | false =>
        cases hv : vet H max p h with
        | error e =>
          rw [scan_block_refused max hz hv, List.take_zero, Phase.walk_short F (by simp [Phase.need])]
          exact .stops (by intro t h; cases h)
        | ok e =>
          cases hsz : F.size x h with
          | error e' =>
            obtain ⟨s', hs'⟩ := take_scan_block max hz hv rest
            rw [hs', walk_block, walk_size_error hz hsz]
            exact .stops (by intro t h; cases h)
          | ok len =>
            obtain rfl := size_eq_of_vet hx hv hsz
            have ha : Accepted F max p x h len := ⟨hz, hv, hsz⟩
            by_cases hl : rest.length < roundUp len
            · rw [scan_block max hz hv, if_pos hl, List.take_of_length_le (by simp), walk_block]
              exact outlined_short ha hl
            · obtain ⟨body, pad, s', rfl, rfl, hp⟩ := split_payload (Nat.le_of_not_lt hl)
              cases hc : carry p h body with
              | error e' => exact outlined_spoiled ha hp hc
              | ok p' =>
                have hlt : s'.length < n := by
                  rw [← hn]
                  simp only [List.length_append, h.length_bytes]
                  omega
                exact outlined_record hx ha hp hc (fun hx' => ih _ hlt hx' s' rfl)
    · rw [scan_short H max (by omega), List.take_zero, Phase.walk_short F (by simp [Phase.need])]
      exact .stops (by intro t h; cases h)

section Members

variable (H max)

/-- A member's header at a record boundary of the stream: `p` is its pending size, `r` its own. -/
structure MemberAt (s : List UInt8) (h : Block) (p : Option Nat) (r : UInt64) : Prop where
  boundary : ∃ n, Boundary H max s n p ∧ h.bytes <+: s.drop n
  nonzero : h.isZero = false
  member : isExtension h.typeflag = false
  size : H.size h = some r

variable {H max}

/-- A whole accepted record leads to the next boundary. -/
theorem boundary_record {stream s body pad : List UInt8} {n : Nat} {p p' : Option Nat} {h : Block}
    (hb : Boundary H max stream n p) (hs : stream.drop n = h.bytes ++ ((body ++ pad) ++ s))
    (hz : h.isZero = false) (hv : vet H max p h = .ok body.length)
    (hp : (body ++ pad).length = roundUp body.length) (hc : carry p h body = .ok p') :
    Boundary H max stream (n + (512 + roundUp body.length)) p' ∧
      stream.drop (n + (512 + roundUp body.length)) = s := by
  have hl : 512 ≤ (stream.drop n).length := by
    rw [hs, length_block_append]
    omega
  have hof : Block.ofList (stream.drop n) hl = h := by
    apply Block.ext_of
    rw [Block.ofList_bytes, hs, Block.take_append]
  constructor
  · refine hb.next hl (by rwa [hof]) (by rwa [hof]) ?_ ?_
    · rw [hs, length_block_append, ← hp]
      simp only [List.length_append]
      omega
    · rw [hof, hs, Block.drop_append, take_body]
      exact hc
  · rw [← List.drop_drop, hs, ← List.drop_drop, Block.drop_append, ← hp, List.drop_left]

variable (F) in
/-- What the parser makes of a member with that header: the item's entry and the length of its body. -/
def Item.MadeOf (i : Item) (h : Block) : Prop := ∃ x, F.size x h = .ok i.len ∧ F.entry x h = .ok i.entry

/-- Every member the parser hands out is one of the stream's, with the length the guard
counts. -/
theorem Outlined.memberAt {p : Option Nat} {x : F.Ext} {s : List UInt8} {w : Outline}
    (ho : Outlined F max p x s w) {stream : List UInt8} {n : Nat} (hb : Boundary H max stream n p)
    (hs : stream.drop n = s) {i : Item} (hi : i ∈ w.items) :
    ∃ h p' r, MemberAt H max stream h p' r ∧ i.len = p'.getD r.toNat ∧ i.len < 2 ^ 64 ∧ i.MadeOf F h := by
  induction ho generalizing n with
  | stops he => cases hi
  | zero p hx t => cases hi
  | extension ha hk hp hc he hw ih =>
    obtain ⟨hb', hs'⟩ := boundary_record hb hs ha.nonzero ha.vet hp hc
    exact ih hb' hs' hi
  | @cut p x h len entry body s ha hk he =>
    rw [List.mem_singleton] at hi
    subst hi
    obtain ⟨r, hr, hlen⟩ := ha.member_len hk
    exact ⟨h, p, r, ⟨⟨n, hb, by rw [hs]; exact List.prefix_append _ _⟩, ha.nonzero, hk, hr⟩, hlen, ha.len_lt,
      x, ha.size, he⟩
  | @member p x h body pad s entry w ha hk hp he hw ih =>
    rcases List.mem_cons.mp hi with hi | hi
    · subst hi
      obtain ⟨r, hr, hlen⟩ := ha.member_len hk
      exact ⟨h, p, r, ⟨⟨n, hb, by rw [hs]; exact List.prefix_append _ _⟩, ha.nonzero, hk, hr⟩, hlen, ha.len_lt,
        x, ha.size, he⟩
    · obtain ⟨hb', hs'⟩ := boundary_record hb hs ha.nonzero ha.vet hp (carry_member hk body)
      exact ih hb' hs' hi

end Members

section Frames

variable (F max)

/-- `Framed p x s items`: `s` is a sequence of complete records that guard and parser accept
with `p` and `x` pending, and `items` are its members. -/
inductive Framed : Option Nat → F.Ext → List UInt8 → List Item → Prop where
  | nil (p : Option Nat) {x : F.Ext} (hx : F.dangling x = none) : Framed p x [] []
  | extension {p p' : Option Nat} {x x' : F.Ext} {h : Block} {body pad s : List UInt8} {items : List Item}
      (ha : Accepted F max p x h body.length) (hk : isExtension h.typeflag = true)
      (hp : (body ++ pad).length = roundUp body.length) (hc : carry p h body = .ok p')
      (he : F.extend x h body = .ok x') (hr : Framed p' x' s items) :
      Framed p x (h.bytes ++ ((body ++ pad) ++ s)) items
  | member {p : Option Nat} {x : F.Ext} {h : Block} {body pad s : List UInt8} {entry : TarEntry}
      {items : List Item} (ha : Accepted F max p x h body.length) (hk : isExtension h.typeflag = false)
      (hp : (body ++ pad).length = roundUp body.length) (he : F.entry x h = .ok entry)
      (hr : Framed none F.start s items) :
      Framed p x (h.bytes ++ ((body ++ pad) ++ s)) (⟨entry, body.length, body⟩ :: items)

variable {F max}

/-- An outline that ends at a zero block is that of complete records in front of it. -/
theorem Outlined.framed {p : Option Nat} {x : F.Ext} {s t : List UInt8} {w : Outline}
    (ho : Outlined F max p x s w) (ht : w.stop = .zero t) :
    ∃ recs, s = recs ++ (Block.zero.bytes ++ t) ∧ Framed F max p x recs w.items := by
  induction ho with
  | stops he => exact absurd ht (he t)
  | zero p hx t' =>
    cases ht
    exact ⟨[], rfl, .nil p hx⟩
  | extension ha hk hp hc he hw ih =>
    obtain ⟨recs, rfl, hf⟩ := ih ht
    exact ⟨_, by simp only [List.append_assoc], .extension ha hk hp hc he hf⟩
  | cut ha hk he => cases ht
  | member ha hk hp he hw ih =>
    obtain ⟨recs, rfl, hf⟩ := ih ht
    exact ⟨_, by simp only [List.append_assoc], .member ha hk hp he hf⟩

/-- No complete record is an extension record alone: records that both accept have a member. -/
theorem Framed.has_member {p : Option Nat} {x : F.Ext} {recs : List UInt8} {items : List Item}
    (hf : Framed F max p x recs items) (hne : recs ≠ [] ∨ F.dangling x ≠ none) : items ≠ [] := by
  induction hf with
  | nil p hx => exact absurd hx (hne.resolve_left fun hnil => hnil rfl)
  | extension ha hk hp hc he hr ih => exact ih (Or.inr (F.dangling_extend he))
  | member ha hk hp he hr ih => exact List.cons_ne_nil _ _

/-- The guard lets complete records and what follows a zero block through. -/
theorem Framed.scan {p : Option Nat} {x : F.Ext} {recs : List UInt8} {items : List Item}
    (hf : Framed F max p x recs items) (t : List UInt8) :
    scan H max p (recs ++ (Block.zero.bytes ++ t)) = ⟨(recs ++ (Block.zero.bytes ++ t)).length, none⟩ := by
  have hrec : ∀ {p p' : Option Nat} {h : Block} {body pad s : List UInt8}, h.isZero = false →
      vet H max p h = .ok body.length → (body ++ pad).length = roundUp body.length → carry p h body = .ok p' →
      Scan.scan H max p' (s ++ (Block.zero.bytes ++ t)) = ⟨(s ++ (Block.zero.bytes ++ t)).length, none⟩ →
      Scan.scan H max p ((h.bytes ++ ((body ++ pad) ++ s)) ++ (Block.zero.bytes ++ t)) =
        ⟨((h.bytes ++ ((body ++ pad) ++ s)) ++ (Block.zero.bytes ++ t)).length, none⟩ := by
    intro p p' h body pad s hz hv hp hc ih
    rw [List.append_assoc, List.append_assoc _ s, scan_record max hz hv hp hc, ih, Verdict.shift_mk,
      ← List.length_append, List.append_assoc h.bytes]
  induction hf with
  | nil p hx => rw [List.nil_append, scan_block_zero max Block.isZero_zero, length_block_append]
  | extension ha hk hp hc he hr ih => exact hrec ha.nonzero ha.vet hp hc ih
  | member ha hk hp he hr ih => exact hrec ha.nonzero ha.vet hp (carry_member hk _) ih

/-- The parser hands out the members of complete records and ends at the zero block. -/
theorem Framed.walk {p : Option Nat} {x : F.Ext} {recs : List UInt8} {items : List Item}
    (hf : Framed F max p x recs items) (t : List UInt8) :
    (Phase.header x []).walk F (recs ++ (Block.zero.bytes ++ t)) = ⟨items, .zero t⟩ := by
  induction hf with
  | nil p hx =>
    rw [List.nil_append, walk_block, opened_zero Block.isZero_zero, Phase.stopped_of_none F hx, Phase.walk_ended]
  | extension ha hk hp hc he hr ih =>
    rw [List.append_assoc, List.append_assoc _ _ (_ ++ t), walk_block,
      walk_extension ha.nonzero ha.size hk, ← hp, if_neg (by simp), take_body, List.drop_left, Phase.closed, he]
    exact ih
  | member ha hk hp he hr ih =>
    rw [List.append_assoc, List.append_assoc _ _ (_ ++ t), walk_block,
      walk_member ha.nonzero ha.size hk he, ← hp, if_neg (by simp), take_body, List.drop_left, ih]
    rfl

/-- A header in front of the rest of a stream. -/
theorem ofList_eq {stream rest : List UInt8} {h : Block} (hs : stream = h.bytes ++ rest)
    (hl : 512 ≤ stream.length) : Block.ofList stream hl = h := by
  subst hs
  exact Block.ofList_append h rest hl

/-- The records after a boundary of complete records. -/
theorem Framed.after {recs t : List UInt8} {items : List Item} (hf : Framed F max none F.start recs items)
    {n : Nat} {p : Option Nat} (hb : Boundary H max (recs ++ (Block.zero.bytes ++ t)) n p) :
    ∃ x recs' items', (recs ++ (Block.zero.bytes ++ t)).drop n = recs' ++ (Block.zero.bytes ++ t) ∧
      Framed F max p x recs' items' ∧ items' <:+ items := by
  induction hb with
  | start => exact ⟨F.start, recs, items, rfl, hf, List.suffix_rfl⟩
  | @next n e p p' hb hs hz hv hl hc ih =>
    obtain ⟨x, recs', items', hdrop, hf', hsuf⟩ := ih
    have hgo : ∀ {h : Block} {body pad s : List UInt8}, recs' = h.bytes ++ ((body ++ pad) ++ s) →
        vet H max p h = .ok body.length → (body ++ pad).length = roundUp body.length →
        carry p h body = .ok p' ∧ (recs ++ (Block.zero.bytes ++ t)).drop (n + (512 + roundUp e)) =
          s ++ (Block.zero.bytes ++ t) := by
      intro h body pad s hr hv' hp
      have hd : (recs ++ (Block.zero.bytes ++ t)).drop n = h.bytes ++ ((body ++ pad) ++ (s ++ (Block.zero.bytes ++ t))) := by
        rw [hdrop, hr, List.append_assoc, List.append_assoc _ s]
      rw [ofList_eq hd] at hv hc
      obtain rfl := Except.ok.inj (hv'.symm.trans hv)
      rw [hd, Block.drop_append, take_body] at hc
      exact ⟨hc, (boundary_record hb hd (by rwa [ofList_eq hd] at hz) hv hp hc).2⟩
    cases hf' with
    | nil =>
      rw [ofList_eq hdrop, Block.isZero_zero] at hz
      cases hz
    | extension ha hk hp hc' he hr =>
      obtain ⟨hc, hd⟩ := hgo rfl ha.vet hp
      obtain rfl := Except.ok.inj (hc'.symm.trans hc)
      exact ⟨_, _, _, hd, hr, hsuf⟩
    | member ha hk hp he hr =>
      obtain ⟨hc, hd⟩ := hgo rfl ha.vet hp
      obtain rfl := Except.ok.inj ((carry_member hk _).symm.trans hc)
      exact ⟨_, _, _, hd, hr, (List.suffix_cons _ _).trans hsuf⟩

/-- Every member header among complete records is one of the members handed out. -/
theorem Framed.of_memberAt {recs t : List UInt8} {items : List Item} (hf : Framed F max none F.start recs items)
    {h : Block} {p : Option Nat} {r : UInt64} (hm : MemberAt H max (recs ++ (Block.zero.bytes ++ t)) h p r) :
    ∃ i ∈ items, i.len = p.getD r.toNat ∧ i.len < 2 ^ 64 ∧ i.MadeOf F h := by
  obtain ⟨⟨n, hb, rest, hrest⟩, hz, hk, hr⟩ := hm
  obtain ⟨x, recs', items', hdrop, hf', hsuf⟩ := hf.after hb
  have hhead : ∀ {h' : Block} {s : List UInt8}, recs' ++ (Block.zero.bytes ++ t) = h'.bytes ++ s → h' = h := by
    intro h' s hs
    apply Block.ext_of
    rw [← Block.take_append h' s, ← hs, ← hdrop, ← hrest, Block.take_append]
  cases hf' with
  | nil =>
    rw [← hhead (List.nil_append _), Block.isZero_zero] at hz
    cases hz
  | extension ha hk' hp hc he hr' =>
    rw [hhead (List.append_assoc _ _ _), hk] at hk'
    cases hk'
  | member ha hk' hp he hr' =>
    obtain rfl := hhead (List.append_assoc _ _ _)
    obtain ⟨r', hr', hlen⟩ := ha.member_len hk'
    obtain rfl := Option.some.inj (hr'.symm.trans hr)
    exact ⟨_, hsuf.subset List.mem_cons_self, hlen, ha.len_lt, _, ha.size, he⟩

end Frames

end Etar
