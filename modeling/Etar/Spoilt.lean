import Etar.GuardRun
import Etar.Records

/-!
# Errors that come with bytes

The guard refuses a header before any byte of it is out, but a PAX body with its last byte: the
error comes with bytes, which no caller looks at. Such a stream is spoilt, and its last byte is
never read. `sharp` is the guard's feed with this told apart.
-/
namespace Etar

open AsyncIo
open Guard (isExtension)
open Scan

namespace Guard.HeaderGuard

variable {H : HeaderFields} {R : Type}

/-- The guard will fail with the last of the bytes it lets through. -/
def Spoilt (g : HeaderGuard H R) (s : List UInt8) : Prop :=
  ∃ used s' e, s = used ++ s' ∧ g.held ++ used ≠ [] ∧ ∀ t, g.ahead (used ++ t) = ⟨(g.held ++ used).length, some e⟩

/-- Without bytes to come the guard can only fail with the last byte it holds. -/
theorem ahead_nil {g : HeaderGuard H R} (hg : g.Inv) {n : Nat} {e : Error} (h : g.ahead [] = ⟨n, some e⟩) :
    g.held ≠ [] ∧ n = g.held.length := by
  unfold ahead at h
  split_ifs at h with ht hd he
  · cases h
  · rw [tailScan_nil H _ hd] at h
    cases h
  · have hheld : g.held = g.header.bytes.drop g.emitted := if_neg (Nat.ne_of_gt he)
    have hlt := hg.emitted_lt
    have hlen : g.held.length = 512 - g.emitted := by rw [hheld, List.length_drop, Block.length_bytes]
    refine ⟨List.ne_nil_of_length_pos (by omega), ?_⟩
    unfold planned at h
    split_ifs at h
    · cases h
    · by_cases hn : 0 < g.nextData
      · rw [tailScan_nil H _ hn] at h
        cases h
      · unfold tailScan at h
        rw [if_neg (by simp; omega)] at h
        split at h
        · obtain ⟨rfl, -⟩ := Verdict.mk.inj h
          dsimp only
          omega
        · rw [List.drop_nil, scan_short H _ (by simp)] at h
          cases h
  · have hlt := (hg.collecting (by omega)).1
    rw [List.append_nil, scan_short H _ (by simp; omega)] at h
    cases h

/-- A stream that will be spoilt further on is so from there. -/
theorem Moves.spoilt_after {g g' : HeaderGuard H R} {used bytes more s : List UInt8} {e : Error}
    (h : Moves g used bytes g')
    (hah : ∀ t, g.ahead (used ++ (more ++ t)) = ⟨(g.held ++ (used ++ more)).length, some e⟩) : Spoilt g' (more ++ s) := by
  have hah' : ∀ t, g'.ahead (more ++ t) = ⟨(g'.held ++ more).length, some e⟩ := by
    intro t
    have ht := hah t
    rw [h.ahead_eq, h.owed, List.length_append] at ht
    generalize g'.ahead (more ++ t) = v at ht
    obtain ⟨hn, hf⟩ := Verdict.mk.inj ht
    cases v
    exact congrArg₂ Verdict.mk (Nat.add_left_cancel hn) hf
  refine ⟨more, s, e, rfl, fun hnil => ?_, hah'⟩
  obtain ⟨hheld, rfl⟩ := List.append_eq_nil_iff.mp hnil
  exact (ahead_nil h.inv (hah' [])).1 hheld

/-- Whether a stream is spoilt does not change on the way. -/
theorem Moves.spoilt {g g' : HeaderGuard H R} {used bytes : List UInt8} (h : Moves g used bytes g') (s : List UInt8) :
    Spoilt g (used ++ s) ↔ Spoilt g' s := by
  constructor
  · rintro ⟨used', s', e, hs, hne, hah⟩
    rcases List.append_eq_append_iff.mp hs with ⟨more, rfl, rfl⟩ | ⟨more, rfl, rfl⟩
    · exact h.spoilt_after fun t => by rw [← List.append_assoc]; exact hah t
    · have ht := hah more
      have hahead := h.ahead_eq []
      rw [List.append_nil, ht] at hahead
      generalize hv : g'.ahead [] = v at hahead
      obtain ⟨hn, hf⟩ := Verdict.mk.inj hahead
      obtain ⟨n, f⟩ := v
      cases hf
      obtain ⟨-, rfl⟩ := ahead_nil h.inv hv
      have hbytes := congrArg List.length h.bytes_eq
      simp only [List.length_append] at hn hbytes
      obtain rfl : more = [] := List.eq_nil_of_length_eq_zero (by omega)
      rw [List.append_nil] at h
      have hah' : ∀ t, g.ahead (used' ++ ([] ++ t)) = ⟨(g.held ++ (used' ++ [])).length, some e⟩ := by
        intro t
        rw [List.nil_append, List.append_nil]
        exact hah t
      exact h.spoilt_after hah'
  · rintro ⟨used', s', e, rfl, hne, hah⟩
    refine ⟨used ++ used', s', e, (List.append_assoc _ _ _).symm, ?_, fun t => ?_⟩
    · rw [h.owed]
      exact List.append_ne_nil_of_right_ne_nil _ hne
    · rw [List.append_assoc, h.ahead_eq, hah, h.owed, Verdict.shift_mk, ← List.length_append]

variable [AsyncRead IoError R] (F : Feed IoError R)

/-- The guard over a feed, with streams that are `spoilt` or streams that are not. -/
def sharp (spoilt : Bool) : Feed IoError (HeaderGuard H R) where
  Owes g s stop := ∃ rest stop', Between F stop' g rest ∧ (Spoilt g rest ↔ spoilt = true) ∧
    s = (g.held ++ rest).take (g.ahead rest).passed ∧
    stop = ((g.ahead rest).fault.map fun e => (Fault.own e).toIo).or stop'
  pending {g s stop out} hg hout ho := by
    obtain ⟨rest, stop', hbt, hsp, rfl, rfl⟩ := hg
    obtain ⟨used, rest', rfl, h⟩ := poll_spec F stop' g rest hbt out hout
    rw [pollRead_pending.mp ho] at h
    obtain ⟨hbuf, hmoves, howes, -⟩ := h
    rw [hmoves.spoilt] at hsp
    exact ⟨hbuf, rest', stop', ⟨hmoves.inv, howes, hbt.hushed⟩, hsp, by rw [hmoves.owed, hmoves.ahead_eq]; simp,
      by rw [hmoves.ahead_eq]; rfl⟩
  chunk {g s stop out} hg hout ho := by
    obtain ⟨rest, stop', hbt, hsp, rfl, rfl⟩ := hg
    obtain ⟨used, rest', rfl, h⟩ := poll_spec F stop' g rest hbt out hout
    rw [pollRead_ok.mp ho] at h
    obtain ⟨hmoves, howes, hend, -⟩ := h
    rw [hmoves.spoilt] at hsp
    refine ⟨_, ?_, ⟨rest', stop', ⟨hmoves.inv, howes, hbt.hushed⟩, hsp, rfl, by rw [hmoves.ahead_eq]; rfl⟩, ?_⟩
    · rw [hmoves.owed, hmoves.ahead_eq]
      exact List.take_length_add_append _
    · intro hnil
      obtain ⟨-, hrest, hstop, hah⟩ := hend hnil
      simp only [pollRead_buf] at hnil
      simp only [pollRead_reader]
      rw [hmoves.ahead_eq, hnil, hrest, hah, hstop]
      exact ⟨rfl, rfl⟩
  fault {g s stop out e} hg hout ho := by
    obtain ⟨rest, stop', hbt, hsp, rfl, rfl⟩ := hg
    obtain ⟨f, hf, rfl⟩ := pollRead_error.mp ho
    cases f with
    | inner e =>
      obtain ⟨used, rest', rfl, h⟩ := poll_spec F stop' g rest hbt out hout
      rw [hf] at h
      obtain ⟨hbuf, hmoves, hstruck, hah⟩ := h
      rw [hmoves.spoilt] at hsp
      rcases hstruck.owes hbt.hushed with howes | ⟨hstop, hnil⟩
      · exact Or.inl ⟨hbuf, rest', stop', ⟨hmoves.inv, howes, hbt.hushed⟩, hsp,
          by rw [hmoves.owed, hmoves.ahead_eq]; simp, by rw [hmoves.ahead_eq]; rfl⟩
      · refine Or.inr ?_
        rw [hmoves.ahead_eq, hnil, hah, hstop, pollRead_buf, hbuf, ReadBuf.added_self]
        exact ⟨rfl, rfl⟩
    | own e => exact Or.inr (poll_own hbt hout hf)

/-- What the caller of a guard can tell of it: it stays `Within`, a spoilt stream never runs out,
and an error is the last answer, without bytes unless the stream is spoilt, or it is an error
below with `Out`. -/
structure Sharp {S : Type} [AsyncRead IoError S] (G : Feed IoError S) (stop : Option IoError) (spoilt : Bool)
    (Within Out : S → Prop) : Prop where
  keeps : ∀ {r s}, G.Owes r s stop → spoilt = true → s ≠ [] ∧ stop ≠ none
  within : ∀ {r s}, G.Owes r s stop → Within r
  last : ∀ {r s b e}, G.Owes r s stop → 0 < b.remaining → (pollRead r b).outcome = .ready (.error e) →
    Within (pollRead r b).reader ∧
      (Out (pollRead r b).reader ∨ stop = some e ∧ s.length ≤ b.remaining ∧ (spoilt = false → s = []))

variable {F}

omit [AsyncRead IoError R] in
theorem spoilt_owes {g : HeaderGuard H R} {rest : List UInt8} (h : Spoilt g rest) :
    ∃ used e, (g.ahead rest) = ⟨(g.held ++ used).length, some e⟩ ∧
      (g.held ++ rest).take (g.ahead rest).passed = g.held ++ used ∧ g.held ++ used ≠ [] := by
  obtain ⟨used, s', e, rfl, hne, hah⟩ := h
  refine ⟨used, e, hah s', ?_, hne⟩
  rw [hah s', ← List.append_assoc]
  exact List.take_left

/-- An error of the feed below comes with `Out`, or is the last answer there. -/
theorem sharp_sharp {stop : Option IoError} {spoilt : Bool} (Within Out : R → Prop)
    (hwithin : ∀ {stop r s}, F.Owes r s stop → Within r)
    (hlast : ∀ {stop r s b e}, F.Owes r s stop → 0 < b.remaining → (pollRead r b).outcome = .ready (.error e) →
      Within (pollRead r b).reader ∧ (Out (pollRead r b).reader ∨ stop = some e ∧ b.added (pollRead r b).buf = s)) :
    Sharp (sharp F spoilt : Feed IoError (HeaderGuard H R)) stop spoilt (fun g => Within g.inner) (fun g => Out g.inner) where
  keeps {g s} hg hspoilt := by
    obtain ⟨rest, stop', hbt, hsp, rfl, rfl⟩ := hg
    obtain ⟨used, e, hah, htake, hne⟩ := spoilt_owes (hsp.mpr hspoilt)
    rw [htake, hah]
    exact ⟨hne, nofun⟩
  within hg := by
    obtain ⟨rest, stop', hbt, -⟩ := hg
    exact hwithin hbt.owes
  last {g s out e} hg hout ho := by
    obtain ⟨rest, stop', hbt, hsp, rfl, rfl⟩ := hg
    obtain ⟨f, hf, rfl⟩ := pollRead_error.mp ho
    obtain ⟨used, rest', rfl, h⟩ := poll_spec F stop' g rest hbt out hout
    rw [hf] at h
    cases f with
    | inner e =>
      obtain ⟨hbuf, hmoves, ⟨r, b, howes, hb, ho', hr, -⟩, hah⟩ := h
      obtain ⟨hin, hwhy⟩ := hlast howes hb ho'
      rw [hr] at hin hwhy
      refine ⟨hin, hwhy.imp_right fun ⟨hstop, hs'⟩ => ?_⟩
      rw [hbt.hushed howes hb ho', ReadBuf.added_self] at hs'
      rw [hmoves.ahead_eq, ← hs', hah, hstop]
      exact ⟨rfl, Nat.zero_le _, fun _ => rfl⟩
    | own e =>
      obtain ⟨hstop, hs⟩ := poll_own hbt hout hf
      have hin : (pollRead g out).reader.inner = (g.poll out).reader.inner := rfl
      refine ⟨hin ▸ hwithin h.2, Or.inr ⟨hstop, ?_, fun hspoilt => ?_⟩⟩
      · rw [← hs]
        exact (AsyncRead.grows g out).length_added
      · rw [← hs]
        replace h := h.1
        generalize out.added (g.poll out).buf = bytes at h
        cases h with
        | refused => rfl
        | spoiled hne hah =>
          rw [hspoilt] at hsp
          exact absurd (hsp.mp ⟨used, rest', e, rfl, hne, hah⟩) Bool.false_ne_true

end Guard.HeaderGuard

/-- Members that are all there, and no end of the archive. -/
structure Whole (w : Outline) : Prop where
  bodies : ∀ i ∈ w.items, i.body.length = i.len
  stop : ∀ t, w.stop ≠ .zero t

theorem Whole.stops {e : End} (he : ∀ t, e ≠ .zero t) : Whole ⟨[], e⟩ := ⟨by simp, he⟩

theorem Whole.cut : Whole ⟨[], .cut⟩ := .stops fun _ h => by cases h

theorem Whole.refused {e : IoError} : Whole ⟨[], .refused e⟩ := .stops fun _ h => by cases h

theorem Whole.cons {i : Item} {w : Outline} (hi : i.body.length = i.len) (h : Whole w) : Whole (w.cons i) :=
  ⟨fun _ hmem => (List.mem_cons.mp hmem).elim (fun he => he ▸ hi) (h.bodies _), h.stop⟩

section Walks

variable {H : HeaderFields} {F : TarFormat H} {max : Nat}

/-- A refused PAX body without its last byte. -/
theorem whole_of_refused {p : Option Nat} {x : F.Ext} {h : Block} {len : Nat} {rest : List UInt8} {e : Error}
    (hx : F.paxSize x = p) (hz : h.isZero = false) (hv : vet H max p h = .ok len) (hlen : rest.length = roundUp len)
    (hc : carry p h (rest.take len) = .error e) : Whole ((Phase.header x []).walk F (h.bytes ++ rest).dropLast) := by
  by_cases hne : rest = []
  · rw [hne, List.append_nil, Phase.walk_short F (by simp [Phase.need])]
    unfold Phase.short
    refine .stops fun t => ?_
    split <;> simp
  · have hpos := List.length_pos_iff.mpr hne
    rw [List.dropLast_append_of_ne_nil hne, walk_block]
    cases hs : F.size x h with
    | error e' =>
      rw [walk_size_error hz hs]
      exact .refused
    | ok len' =>
      obtain rfl := size_eq_of_vet hx hv hs
      cases hk : isExtension h.typeflag with
      | false =>
        rw [carry_member hk] at hc
        cases hc
      | true =>
        rw [walk_extension hz hs hk, if_pos (by rw [List.length_dropLast]; omega)]
        exact .cut

/-- A whole record in front of a spoilt stream. -/
theorem whole_of_record {p p' : Option Nat} {x : F.Ext} {h : Block} {body pad s : List UInt8}
    (hx : F.paxSize x = p) (hz : h.isZero = false) (hv : vet H max p h = .ok body.length)
    (hp : (body ++ pad).length = roundUp body.length) (hc : carry p h body = .ok p') (hne : s ≠ [])
    (ih : ∀ {x' : F.Ext}, F.paxSize x' = p' → Whole ((Phase.header x' []).walk F s.dropLast)) :
    Whole ((Phase.header x []).walk F (h.bytes ++ ((body ++ pad) ++ s)).dropLast) := by
  have hne' : (body ++ pad) ++ s ≠ [] := List.append_ne_nil_of_right_ne_nil _ hne
  rw [List.dropLast_append_of_ne_nil hne', List.dropLast_append_of_ne_nil hne, walk_block]
  cases hs : F.size x h with
  | error e' =>
    rw [walk_size_error hz hs]
    exact .refused
  | ok len' =>
    obtain rfl := size_eq_of_vet hx hv hs
    cases hk : isExtension h.typeflag with
    | true =>
      rw [walk_extension hz hs hk, ← hp, if_neg (by simp), take_body, List.drop_left]
      cases he : F.extend x h body with
      | error e' =>
        rw [Phase.closed, he, Phase.walk_failed]
        exact .refused
      | ok x' =>
        rw [Phase.closed, he]
        exact ih (paxSize_carry hx hk hc he)
    | false =>
      obtain rfl : none = p' := Except.ok.inj ((carry_member hk body).symm.trans hc)
      cases he : F.entry x h with
      | error e' =>
        rw [walk_entry_error hz hs hk he]
        exact .refused
      | ok entry =>
        rw [walk_member hz hs hk he, ← hp, if_neg (by simp), take_body, List.drop_left]
        exact .cons rfl (ih F.paxSize_start)

/-- What the parser makes of a spoilt stream without its last byte. -/
theorem whole_of_spoilt {p : Option Nat} {x : F.Ext} (hx : F.paxSize x = p) {s : List UInt8} {e : Error}
    (hs : scan H max p s = ⟨s.length, some e⟩) : Whole ((Phase.header x []).walk F s.dropLast) := by
  induction hn : s.length using Nat.strong_induction_on generalizing p x s with
  | _ n ih =>
    have hfault := congrArg Verdict.fault hs
    have hpassed := congrArg Verdict.passed hs
    by_cases hlen : 512 ≤ s.length
    · obtain ⟨h, rest, rfl⟩ := split_block hlen
      rw [length_block_append] at hpassed hn
      cases hz : h.isZero with
      | true =>
        rw [scan_block_zero max hz] at hfault
        cases hfault
      | false =>
        cases hv : vet H max p h with
        | error e' =>
          rw [scan_block_refused max hz hv] at hpassed
          dsimp only at hpassed
          omega
        | ok len =>
          rw [scan_block max hz hv] at hfault hpassed
          by_cases hshort : rest.length < roundUp len
          · rw [if_pos hshort] at hfault
            cases hfault
          · rw [if_neg hshort] at hfault hpassed
            obtain ⟨body, pad, rest', rfl, rfl, hp⟩ := split_payload (Nat.le_of_not_lt hshort)
            rw [take_body] at hfault hpassed
            cases hc : carry p h body with
            | error e' =>
              rw [hc] at hpassed
              dsimp only at hpassed
              refine whole_of_refused (e := e') hx hz hv (by omega) ?_
              rw [take_body]
              exact hc
            | ok p' =>
              rw [hc, ← hp, List.drop_left] at hfault hpassed
              rw [List.length_append] at hpassed hn
              have hrest : scan H max p' rest' = ⟨rest'.length, some e⟩ := by
                simp only [Verdict.shift, List.length_append] at hpassed hfault
                exact congrArg₂ Verdict.mk (by omega) hfault
              have hne : rest' ≠ [] := by
                rintro rfl
                rw [scan_short H max (by simp)] at hrest
                cases hrest
              exact whole_of_record hx hz hv hp hc hne fun hx' => ih rest'.length (by omega) hx' hrest rfl
    · rw [scan_short H max (Nat.lt_of_not_le hlen)] at hfault
      cases hfault

end Walks

end Etar
