import Etar.Cursor

/-!
# The front of a stream

A transfer may stop early. What a reader makes of the front of a stream is the front of what it
makes of the whole: the bytes that are missing take nothing back of what was shown, and where the
front has an end of its own, nothing is missing.
-/
namespace Etar

open AsyncIo Limit Compress Guard Scan

section Outlines

variable {H : HeaderFields} {F : TarFormat H} {max : Nat}

/-- The items of a stream are those of a longer one, up to the first whose body is cut short. -/
def Fronts (items whole : List Item) : Prop :=
  List.Forall₂ (fun i j => i.entry = j.entry ∧ i.body <+: j.body) items (whole.take items.length)

theorem fronts_nil (whole : List Item) : Fronts [] whole := .nil

theorem Fronts.cons {items whole : List Item} (h : Fronts items whole) {i j : Item} (he : i.entry = j.entry)
    (hbody : i.body <+: j.body) : Fronts (i :: items) (j :: whole) := by
  unfold Fronts
  rw [List.length_cons, List.take_succ_cons]
  exact .cons ⟨he, hbody⟩ h

/-- More bytes only add to what the parser hands out. -/
theorem Phase.walk_fronts (φ : Phase F.Ext) (s t : List UInt8) :
    Fronts (φ.walk F s).items (φ.walk F (s ++ t)).items := by
  fun_induction Phase.walk F φ s with
  | case1 s entry len ih =>
    rw [walk_yielding]
    refine ih.cons rfl ?_
    rw [List.take_append]
    exact List.prefix_append _ _
  | case2 s e => exact fronts_nil _
  | case3 s => exact fronts_nil _
  | case4 φ s hyield hfailed hended h ih =>
    obtain ⟨hn, hs⟩ := h
    rw [walk_full F hn (by rw [List.length_append]; omega), List.take_append_of_le_length hs,
      List.drop_append_of_le_length hs]
    exact ih
  | case5 φ s hyield hfailed hended h => exact fronts_nil _

/-- The guard lets more of a longer stream through. -/
theorem scan_mono {p : Option Nat} (s t : List UInt8) :
    (scan H max p s).passed ≤ (scan H max p (s ++ t)).passed := by
  induction hn : s.length using Nat.strong_induction_on generalizing p s with
  | _ n ih =>
    by_cases hs : 512 ≤ s.length
    · obtain ⟨h, rest, rfl⟩ := split_block hs
      rw [List.append_assoc]
      have hlength : rest.length ≤ (rest ++ t).length := by
        rw [List.length_append]
        exact Nat.le_add_right _ _
      cases hz : h.isZero with
      | true =>
        rw [scan_block_zero max hz, scan_block_zero max hz]
        exact Nat.add_le_add_left hlength 512
      | false =>
        cases hv : vet H max p h with
        | error e => rw [scan_block_refused max hz hv, scan_block_refused max hz hv]
        | ok e =>
          rw [scan_block max hz hv, scan_block max hz hv]
          by_cases hl : rest.length < roundUp e
          · rw [if_pos hl]
            split
            · exact Nat.add_le_add_left hlength 512
            · split
              · exact Nat.add_le_add_left hl.le 512
              · exact (Nat.add_le_add_left hl.le 512).trans (Nat.le_add_right _ _)
          · have hle := Nat.le_of_not_lt hl
            rw [if_neg hl, if_neg (by omega), List.take_append_of_le_length ((le_roundUp e).trans hle),
              List.drop_append_of_le_length hle]
            cases carry p h (rest.take e) with
            | error e' => exact Nat.le_refl _
            | ok p' =>
              refine Nat.add_le_add_left (ih _ ?_ (rest.drop (roundUp e)) rfl) _
              rw [← hn, length_block_append, List.length_drop]
              omega
    · rw [scan_short H max (by omega)]
      exact Nat.zero_le _

/-- What the guard and the parser make of a stream is the front of what they make of a longer one. -/
theorem outline_fronts {limits : SecurityLimits} {bytes whole : List UInt8} (h : bytes <+: whole) :
    Fronts (outline F limits bytes).items (outline F limits whole).items := by
  obtain ⟨t, rfl⟩ := h
  have hmono : (scan H limits.maxMetadataBytes.toNat none bytes).passed ≤
      (scan H limits.maxMetadataBytes.toNat none (bytes ++ t)).passed := scan_mono bytes t
  obtain ⟨u, hu⟩ : bytes.take (scan H limits.maxMetadataBytes.toNat none bytes).passed <+:
      (bytes ++ t).take (scan H limits.maxMetadataBytes.toNat none (bytes ++ t)).passed := by
    refine List.IsPrefix.trans ?_ (List.take_prefix_take_left hmono)
    rw [List.take_append]
    exact List.prefix_append _ _
  unfold outline
  rw [← hu]
  exact Phase.walk_fronts _ _ u

/-- Nothing is missing of a stream that has its end. -/
theorem outline_whole {limits : SecurityLimits} {bytes whole t : List UInt8} (h : bytes <+: whole)
    (ht : (outline F limits bytes).stop = .zero t) :
    (outline F limits whole).items = (outline F limits bytes).items := by
  obtain ⟨recs, hbytes, hframed⟩ := (outlined_outline F limits bytes).framed ht
  obtain ⟨more, rfl⟩ := h
  have hwhole : bytes ++ more = recs ++ (Block.zero.bytes ++ (t ++ more)) := by
    rw [hbytes]
    simp only [List.append_assoc]
  have houtline : outline F limits (bytes ++ more) = ⟨(outline F limits bytes).items, .zero (t ++ more)⟩ := by
    rw [hwhole]
    unfold outline
    rw [hframed.scan, List.take_length]
    exact hframed.walk (t ++ more)
  rw [houtline]

end Outlines

section Listings

variable {α : Type}

/-- The entries of a listing are those of a longer one, with the front of their data. -/
def Listing.Front (L L' : Listing α) : Prop :=
  List.Forall₂ (fun e e' => e.1 = e'.1 ∧ e.2 <+: e'.2) L.entries (L'.entries.take L.entries.length)

/-- What a front shows is shown by the whole. -/
theorem Listing.Shows.of_front {L L' : Listing α} (hfront : L.Front L') {t : List (α × List UInt8)} (h : L.Shows t) :
    L'.Shows t := by
  have hlength := h.length_eq
  rw [List.length_take] at hlength
  have htake := List.forall₂_take t.length hfront
  rw [List.take_take, Nat.min_eq_left (by omega)] at htake
  unfold Listing.Shows at h ⊢
  clear hfront hlength
  generalize L.entries.take t.length = es at h htake
  generalize L'.entries.take t.length = es' at htake
  induction h generalizing es' with
  | nil =>
    cases htake
    exact .nil
  | cons hrow _ ih =>
    cases htake with
    | cons he hrest => exact .cons ⟨he.1.symm.trans hrow.1, hrow.2.trans he.2⟩ (ih _ hrest)

variable {H : HeaderFields}

theorem Fronts.listing {w w' : Outline} (h : Fronts w.items w'.items) (limits : SecurityLimits)
    (stop stop' : Option IoError) : (w.listing H limits stop).Front (w'.listing H limits stop') := by
  unfold Listing.Front Outline.listing
  simp only [List.length_map, ← List.map_take]
  refine List.forall₂_map_left_iff.mpr (List.forall₂_map_right_iff.mpr (h.imp ?_))
  rintro i j ⟨he, hbody⟩
  exact ⟨by simp only [he], hbody⟩

end Listings

section Archives

variable {T : Tar} {H : HeaderFields} {F : TarFormat H} (fr : T.Frames F)
variable {R : Type} [AsyncRead IoError R] {dec : Decoder (Replay R)} {decode : List UInt8 → List UInt8 × Option IoError}
variable {S : Feed IoError R} (hC : dec.Computes decode S) {source : R} {z : List UInt8} (howes : S.Owes source z none)
variable (hD : (contents decode z).1.length < 2 ^ 64) {limits : SecurityLimits} {polls : Nat} {r : Opened T H dec}
variable (hr : Reader.open T dec polls source limits = .done (.ok r)) {evs : List Event}
variable {room : ReadBuf → Prop} {σ : Session T (Source H (Decoded.count : Decoded dec → Nat))}
variable (hrun : Session.Run H room ⟨r, none⟩ evs σ)

include fr hC howes hD hr hrun

/-- What a session is shown of the front of a decoded stream is what the whole stream lists, entry by
entry and byte by byte, whatever was cancelled or failed; and if its end was reported, it was shown
all that the whole stream lists. -/
theorem truncated_streams_show_the_same {whole : List UInt8} (hpre : (contents decode z).1 <+: whole)
    (stop : Option IoError) :
    (listing F limits whole stop).Shows (transcript (evs.map Event.sight)) ∧
    (Event.next (.done (.ok none)) ∈ evs →
      (transcript (evs.map Event.sight)).length = (outline F limits whole).items.length) := by
  have hshows := (noted_of_session (F := F) fr hC howes hD hr hrun).shows
  refine ⟨hshows.of_front ((outline_fronts hpre).listing limits _ stop), fun hmem => ?_⟩
  obtain ⟨hlength, -, t, ht, -⟩ := ended_of_mem fr hC howes hD hr hrun hmem
  rw [outline_whole hpre ht]
  exact hlength

end Archives

section Samples

/-- An archive cut inside its first zero block lists its directory, and then fails. -/
theorem truncated_streams_show_the_same_sample : ∃ evs : List Event, (handed evs).length = 1 ∧
    (listing Gnu.format .default Gnu.plain none).Shows (transcript (evs.map Event.sight)) := by
  have hplays : (Gnu.replayed .default ⟨Gnu.plain.take 700, []⟩ [.next 20, .read 0, .read 9, .drop, .next 20]).any
      (fun p => (handed p.1).length == 1) = true := by decide +kernel
  obtain ⟨⟨evs, σ⟩, hreplayed, hhanded⟩ := (Option.any_eq_true _ _).mp hplays
  obtain ⟨r, hr, hrun⟩ := Gnu.run_replayed hreplayed
  have hmagic : ¬ zstdMagic <+: Gnu.plain.take 700 := by decide +kernel
  have hcontents : contents RawZstd.unpack (Gnu.plain.take 700) = (Gnu.plain.take 700, none) := by
    rw [contents, if_neg hmagic]
  have hlength : (contents RawZstd.unpack (Gnu.plain.take 700)).1.length < 2 ^ 64 := by
    rw [hcontents]
    decide +kernel
  have hpre : (contents RawZstd.unpack (Gnu.plain.take 700)).1 <+: Gnu.plain := by
    rw [hcontents]
    exact List.take_prefix _ _
  exact ⟨evs, eq_of_beq hhanded, (truncated_streams_show_the_same Gnu.frames
    (RawZstd.computes Script.steadyFeed) (Gnu.owes_script _) hlength hr hrun hpre none).1⟩

end Samples

end Etar
