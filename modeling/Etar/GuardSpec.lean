import Etar.Scan

/-!
# One poll of the guard against the reference scan

`Inv` is what every state between polls satisfies. `held` are the bytes the guard
has taken and not yet handed out, `ahead` is the reference scan entered at the
guard's position; `poll_spec` says what one poll does to both.
-/
namespace Etar.Guard.HeaderGuard

open AsyncIo Scan

set_option maxRecDepth 4000

variable {H : HeaderFields} {R : Type}

/-- Whether an answer is an error of the guard's own. -/
def refuses : Poll (Except Fault Unit) → Bool
  | .ready (.error (.own _)) => true
  | _ => false

theorem ne_own_of_refuses {o : Poll (Except Fault Unit)} (h : refuses o = false) (e : Error) :
    o ≠ .ready (.error (.own e)) := by
  rintro rfl
  cases h

/-- The joint invariant of the guard's fields between polls. -/
structure Inv (g : HeaderGuard H R) : Prop where
  emitted_lt : g.emitted < 512
  filled_le : g.filled ≤ 512
  full : 0 < g.emitted → g.filled = 512
  collecting : g.emitted = 0 → g.filled < 512 ∧ g.nextData = 0 ∧ g.nextTrailer = g.trailer
  data : 0 < g.dataRemaining → g.filled = 0 ∧ g.emitted = 0 ∧ g.trailer = false
  after : g.trailer = true → g.filled = 0 ∧ g.emitted = 0
  last : g.nextTrailer = true → g.nextData = 0 ∧ g.paxBody = none
  pax : g.paxBody ≠ none → g.paxRemaining ≤ g.dataRemaining + g.nextData ∧ 0 < g.emitted + g.dataRemaining
  pax_le : ∀ body, g.paxBody = some body → body.length + g.paxRemaining ≤ g.maxMetadataBytes
  data_le : g.dataRemaining ≤ u64Max
  next_le : g.nextData ≤ u64Max

/-- Bytes taken from the inner reader and not yet handed out. -/
def held (g : HeaderGuard H R) : List UInt8 :=
  if g.emitted = 0 then g.header.bytes.take g.filled else g.header.bytes.drop g.emitted

/-- The scan that is to follow a header which is being handed out. -/
def planned (g : HeaderGuard H R) (s : List UInt8) : Verdict :=
  if g.nextTrailer then ⟨s.length, none⟩
  else tailScan H g.maxMetadataBytes g.nextData g.paxSize g.paxBody g.paxRemaining s

/-- The reference scan from the guard's position, when the inner reader still owes `s`. -/
def ahead (g : HeaderGuard H R) (s : List UInt8) : Verdict :=
  if g.trailer then ⟨s.length, none⟩
  else if 0 < g.dataRemaining then
    tailScan H g.maxMetadataBytes g.dataRemaining g.paxSize g.paxBody g.paxRemaining s
  else if 0 < g.emitted then (g.planned s).shift (512 - g.emitted)
  else scan H g.maxMetadataBytes g.paxSize (g.header.bytes.take g.filled ++ s)

theorem inv_new (inner : R) (max : Nat) : (new inner max : HeaderGuard H R).Inv := by
  constructor <;> simp [new]

@[simp] theorem held_new (inner : R) (max : Nat) : (new inner max : HeaderGuard H R).held = [] := by
  simp [held, new]

@[simp] theorem ahead_new (inner : R) (max : Nat) (s : List UInt8) :
    (new inner max : HeaderGuard H R).ahead s = scan H max none s := by
  simp [ahead, new]

/-- `inspect` plans exactly what the reference scan admits. -/
theorem inspect_spec (g : HeaderGuard H R) (hz : g.header.isZero = false) :
    match vet H g.maxMetadataBytes g.paxSize g.header with
    | .error e => g.inspect.1 = .error e
    | .ok e => g.inspect = (.ok (), { g with
        nextData := roundUp e
        paxBody := if g.header.typeflag = 120 then some [] else g.paxBody
        paxRemaining := if g.header.typeflag = 120 then e else g.paxRemaining
        paxSize := if isExtension g.header.typeflag then g.paxSize else none }) := by
  unfold vet inspect
  simp only [hz, Bool.false_eq_true, if_false]
  by_cases hf : g.header.typeflag ∈ allowedFlags
  · simp only [hf, not_true_eq_false, if_false]
    cases hr : H.size g.header with
    | none => rfl
    | some r =>
      by_cases hm : isExtension g.header.typeflag ∧ g.maxMetadataBytes < r.toNat
      · simp only [hm, and_self, if_true]
      · simp only [hm, if_false]
        by_cases hk : isExtension g.header.typeflag = true
        · simp only [hk, if_true]
          by_cases hb : u64Max < r.toNat + 511
          · simp only [hb, if_true, checkedAdd_eq_none.mpr hb]
          · simp only [hb, if_false, checkedAdd_eq_some.mpr ⟨Nat.le_of_not_lt hb, rfl⟩, roundUp]
        · have hx : ¬ g.header.typeflag = 120 := fun h => hk (by rw [h]; rfl)
          simp only [hk, hx, Bool.false_eq_true, if_false]
          by_cases hb : u64Max < g.paxSize.getD r.toNat + 511
          · simp only [hb, if_true, checkedAdd_eq_none.mpr hb]
          · simp only [hb, if_false, checkedAdd_eq_some.mpr ⟨Nat.le_of_not_lt hb, rfl⟩, roundUp]
  · simp only [hf, not_false_eq_true, if_true]

/-- An inspected header is planned the way the reference scan goes on after it. -/
theorem inspect_planned (g : HeaderGuard H R) (hi : g.paxBody = none)
    (hn : g.nextData = 0) (ht : g.nextTrailer = false) (s : List UInt8) :
    match g.inspect with
    | (.error e, _) => scan H g.maxMetadataBytes g.paxSize (g.header.bytes ++ s) = ⟨0, some e⟩
    | (.ok (), g') => scan H g.maxMetadataBytes g.paxSize (g.header.bytes ++ s) = (g'.planned s).shift 512 ∧
        g'.inner = g.inner ∧ g'.header = g.header ∧ g'.filled = g.filled ∧ g'.emitted = g.emitted ∧
        g'.dataRemaining = g.dataRemaining ∧ g'.trailer = g.trailer ∧
        g'.maxMetadataBytes = g.maxMetadataBytes ∧
        (g'.nextTrailer = true → g'.nextData = 0 ∧ g'.paxBody = none) ∧
        (g'.paxBody ≠ none → g'.paxRemaining ≤ g'.nextData) ∧
        (∀ body, g'.paxBody = some body → body.length + g'.paxRemaining ≤ g'.maxMetadataBytes) ∧
        g'.nextData ≤ u64Max := by
  have hs : 512 ≤ (g.header.bytes ++ s).length := by simp
  have hb := g.header.ofList_append s hs
  have hd := g.header.drop_append s
  by_cases hz : g.header.isZero = true
  · have he : g.inspect = (.ok (), { g with nextTrailer := true }) := by simp [inspect, hz]
    rw [he]
    refine ⟨?_, rfl, rfl, rfl, rfl, rfl, rfl, rfl, fun _ => ⟨hn, hi⟩, ?_, ?_, ?_⟩
    · rw [scan_zero H _ hs (by rw [hb]; exact hz)]
      simp [planned]
    · intro h
      exact absurd hi h
    · intro body h
      exact absurd (hi ▸ h) (by simp)
    · simp [hn]
  · have hz : g.header.isZero = false := by simpa using hz
    have hsp := inspect_spec g hz
    cases ha : vet H g.maxMetadataBytes g.paxSize g.header with
    | error e =>
      rw [ha] at hsp
      cases hg : g.inspect with
      | mk r g' =>
        rw [hg] at hsp
        simp only at hsp
        subst hsp
        exact scan_refused H _ hs (by rw [hb]; exact hz) (by rw [hb]; exact ha)
    | ok e =>
      rw [ha] at hsp
      simp only at hsp
      rw [hsp]
      obtain ⟨hle, hmax⟩ := vet_ok H _ ha
      have hscan := scan_admitted H _ hs (by rw [hb]; exact hz) (by rw [hb]; exact ha)
      rw [hb, hd] at hscan
      refine ⟨?_, rfl, rfl, rfl, rfl, rfl, rfl, rfl, ?_, ?_, ?_, (roundUp_le e).trans hle⟩
      · rw [hscan]
        by_cases hx : g.header.typeflag = 120
        · simp [planned, ht, opened, hx]
        · simp only [planned, ht, opened, hx, hi, Bool.false_eq_true, if_false]
          rw [tailScan_none]
      · intro h
        simp [ht] at h
      · intro h
        by_cases hx : g.header.typeflag = 120
        · simpa [hx] using le_roundUp e
        · simp [hx, hi] at h
      · intro body h
        by_cases hx : g.header.typeflag = 120
        · simp only [hx, if_true, Option.some.injEq] at h ⊢
          subst h
          simpa using hmax (by rw [hx]; rfl)
        · simp [hx, hi] at h

theorem inspect_inner (g : HeaderGuard H R) : g.inspect.2.inner = g.inner := by
  unfold inspect
  dsimp only
  repeat' split
  all_goals rfl

@[simp] theorem settle_inner (g : HeaderGuard H R) : g.settle.2.inner = g.inner := by
  unfold settle
  split
  · split
    · rfl
    · split <;> rfl
  · rfl

/-- When the last payload byte is through, the guard is where the reference scan goes on. -/
theorem settle_spec (g : HeaderGuard H R) (hf : g.filled = 0) (he : g.emitted = 0) (hn : g.nextData = 0)
    (ht : g.trailer = false) (hnt : g.nextTrailer = false)
    (hp : g.paxBody ≠ none → g.paxRemaining ≤ g.dataRemaining)
    (hl : ∀ body, g.paxBody = some body → body.length + g.paxRemaining ≤ g.maxMetadataBytes)
    (hd : g.dataRemaining ≤ u64Max) (s : List UInt8) :
    match g.settle with
    | (.error e, _) =>
      tailScan H g.maxMetadataBytes g.dataRemaining g.paxSize g.paxBody g.paxRemaining s = ⟨0, some e⟩
    | (.ok (), g') => g'.Inv ∧ g'.held = [] ∧ g'.inner = g.inner ∧
      g'.ahead s = tailScan H g.maxMetadataBytes g.dataRemaining g.paxSize g.paxBody g.paxRemaining s := by
  by_cases h0 : g.dataRemaining = 0
  · cases hb : g.paxBody with
    | none =>
      have hs : g.settle = (.ok (), g) := by simp [settle, h0, hb]
      rw [hs]
      refine ⟨?_, by simp [held, he, hf], rfl, ?_⟩
      · constructor <;> simp [he, hf, hn, ht, hnt, h0, hb]
      · rw [h0, tailScan_none H _ 0 g.paxRemaining 0, tailScan_zero]
        simp [ahead, ht, h0, he, hf, settled]
    | some body =>
      have hr : g.paxRemaining = 0 := by
        have := hp (by simp [hb])
        omega
      rw [h0, hr, tailScan_zero]
      simp only [settled]
      cases hpax : Pax.parsePaxSize body with
      | error e => simp [settle, h0, hb, hpax]
      | ok size =>
        simp only [settle, h0, hb, hpax, if_true]
        refine ⟨?_, by simp [held, he, hf], trivial, by simp [ahead, ht, he, hf]⟩
        constructor <;> simp [he, hf, hn, ht, hnt]
  · have hs : g.settle = (.ok (), g) := by simp [settle, h0]
    rw [hs]
    refine ⟨?_, by simp [held, he, hf], rfl, by simp [ahead, ht, Nat.pos_of_ne_zero h0]⟩
    exact
      { emitted_lt := by omega
        filled_le := by omega
        full := by omega
        collecting := fun _ => ⟨by omega, hn, by rw [hnt, ht]⟩
        data := fun _ => ⟨hf, he, ht⟩
        after := by simp [ht]
        last := by simp [hnt]
        pax := fun h => ⟨by have := hp h; omega, by omega⟩
        pax_le := hl
        data_le := hd
        next_le := by omega }

/-- Handing out header bytes moves along the planned scan, and its last byte starts the payload. -/
theorem emit_spec (g : HeaderGuard H R) (out : ReadBuf) (hout : 0 < out.remaining)
    (hf : g.filled = 512) (he : g.emitted < 512) (h0 : g.dataRemaining = 0) (ht : g.trailer = false)
    (hlast : g.nextTrailer = true → g.nextData = 0 ∧ g.paxBody = none)
    (hp : g.paxBody ≠ none → g.paxRemaining ≤ g.nextData)
    (hl : ∀ body, g.paxBody = some body → body.length + g.paxRemaining ≤ g.maxMetadataBytes)
    (hd : g.nextData ≤ u64Max) (s : List UInt8) :
    (g.emit out).reader.inner = g.inner ∧
    (((g.emit out).outcome = .ready (.ok ()) ∧ out.added (g.emit out).buf ≠ [] ∧
        (g.emit out).reader.Inv ∧
        g.header.bytes.drop g.emitted = out.added (g.emit out).buf ++ (g.emit out).reader.held ∧
        (g.planned s).shift (512 - g.emitted) =
          ((g.emit out).reader.ahead s).shift (out.added (g.emit out).buf).length) ∨
      (∃ e, (g.emit out).outcome = .ready (.error (.own e)) ∧
        out.added (g.emit out).buf = g.header.bytes.drop g.emitted ∧
        (g.planned s).shift (512 - g.emitted) = ⟨512 - g.emitted, some e⟩)) := by
  generalize hc : min out.remaining (512 - g.emitted) = count
  have hc0 : 0 < count := by omega
  have hcl : ((g.header.bytes.drop g.emitted).take count).length = count := by
    simp only [List.length_take, List.length_drop, Block.length_bytes]
    omega
  by_cases hfin : g.emitted + count = 512
  · have hall : (g.header.bytes.drop g.emitted).take count = g.header.bytes.drop g.emitted := by
      apply List.take_of_length_le
      simp only [List.length_drop, Block.length_bytes]
      omega
    have hsub : 512 - g.emitted = count := by omega
    generalize hg : ({ g with
      filled := 0
      emitted := 0
      dataRemaining := g.nextData
      nextData := 0
      trailer := g.nextTrailer } : HeaderGuard H R) = g₁
    have hemit : g.emit out = ⟨.ready (g₁.settle.1.mapError .own),
        out.putSlice ((g.header.bytes.drop g.emitted).take count) (by omega), g₁.settle.2⟩ := by
      subst hg
      simp only [emit, hc, hfin, if_true]
    rw [hemit]
    by_cases hnt : g.nextTrailer = true
    · obtain ⟨hn, hb⟩ := hlast hnt
      have hset : g₁.settle = (.ok (), g₁) := by
        subst hg
        simp [settle, hn, hb]
      rw [hset]
      refine ⟨by subst hg; rfl, Or.inl ⟨rfl, ?_, ?_, ?_, ?_⟩⟩
      · rw [ReadBuf.added_putSlice]
        intro h
        rw [h] at hcl
        exact absurd hcl (by simp; omega)
      · subst hg
        constructor <;> simp [hn, hb, hnt]
      · subst hg
        simp [hall, held]
      · subst hg
        simp only [ReadBuf.added_putSlice, ahead, planned, hnt, if_true]
        rw [hcl, hsub]
    · have hnt : g.nextTrailer = false := by simpa using hnt
      have hplan : g.planned s =
          tailScan H g₁.maxMetadataBytes g₁.dataRemaining g₁.paxSize g₁.paxBody g₁.paxRemaining s := by
        subst hg
        simp [planned, hnt]
      have hset := settle_spec g₁ (by subst hg; rfl) (by subst hg; rfl) (by subst hg; rfl)
        (by subst hg; exact hnt) (by subst hg; exact hnt) (by subst hg; exact hp) (by subst hg; exact hl)
        (by subst hg; exact hd) s
      rw [← hplan] at hset
      have hbytes : out.added (out.putSlice ((g.header.bytes.drop g.emitted).take count) (by omega)) =
          g.header.bytes.drop g.emitted := by
        rw [ReadBuf.added_putSlice, hall]
      have hin : g₁.settle.2.inner = g.inner := by
        rw [settle_inner]
        subst hg
        rfl
      refine ⟨hin, ?_⟩
      rcases hs : g₁.settle with ⟨_ | _, g₂⟩ <;> rw [hs] at hset <;> simp only at hset
      · refine Or.inr ⟨_, rfl, hbytes, ?_⟩
        rw [hset]
        rfl
      · obtain ⟨hinv, hheld, -, hah⟩ := hset
        refine Or.inl ⟨rfl, ?_, hinv, ?_, ?_⟩
        · rw [hbytes, ← hall]
          intro h
          rw [h] at hcl
          exact absurd hcl (by simp; omega)
        · rw [hbytes, hheld, List.append_nil]
        · rw [hbytes, List.length_drop, Block.length_bytes]
          exact congrArg _ hah.symm
  · have hemit : g.emit out = ⟨.ready (.ok ()), out.putSlice ((g.header.bytes.drop g.emitted).take count)
        (by omega), { g with emitted := g.emitted + count }⟩ := by
      simp only [emit, hc, hfin, if_false]
    rw [hemit]
    refine ⟨rfl, Or.inl ⟨rfl, ?_, ?_, ?_, ?_⟩⟩
    · rw [ReadBuf.added_putSlice]
      intro h
      rw [h] at hcl
      exact absurd hcl (by simp; omega)
    · exact
        { emitted_lt := by simp only; omega
          filled_le := by simp only; omega
          full := fun _ => hf
          collecting := by simp only; omega
          data := by simp [h0]
          after := by simp [ht]
          last := hlast
          pax := fun h => ⟨by have := hp h; simp only; omega, by simp only; omega⟩
          pax_le := hl
          data_le := by simp [h0]
          next_le := hd }
    · rw [ReadBuf.added_putSlice, held, if_neg (by simp only; omega), ← List.drop_drop,
        List.take_append_drop]
    · simp only [ReadBuf.added_putSlice, ahead, ht, h0, Bool.false_eq_true, if_false, Nat.lt_irrefl]
      rw [hcl, if_pos (by omega), Verdict.shift_shift, show count + (512 - (g.emitted + count)) = 512 - g.emitted
        by omega]
      rfl

/-- Capturing keeps the front of a PAX body and counts down what is missing of it. -/
theorem capture_eq (g : HeaderGuard H R) (bytes : List UInt8) (hk : g.paxBody ≠ none → g.paxRemaining ≤ usizeMax) :
    g.capture bytes = { g with
      paxBody := g.paxBody.map (· ++ bytes.take g.paxRemaining)
      paxRemaining := if g.paxBody = none then g.paxRemaining else g.paxRemaining - bytes.length } := by
  cases hb : g.paxBody with
  | none =>
    cases g
    simp only at hb
    subst hb
    rfl
  | some body =>
    have hu := hk (by simp [hb])
    have hk : min bytes.length (min g.paxRemaining usizeMax) = min bytes.length g.paxRemaining := by omega
    have ht : bytes.take (min bytes.length g.paxRemaining) = bytes.take g.paxRemaining := by
      rw [List.take_eq_take_iff]
      omega
    simp only [capture, hb, hk, ht, Option.map_some, reduceCtorEq, if_false]
    congr 1
    omega

variable [AsyncRead IoError R] (F : Feed IoError R) (stop : Option IoError)

/-- Polls that cost no delay led from `r` to a reader that owed `s`; it failed with `e` and
became `r'`. -/
def Struck (r : R) (s : List UInt8) (e : IoError) (r' : R) : Prop :=
  ∃ r₁ b, F.Owes r₁ s stop ∧ 0 < b.remaining ∧ (pollRead r₁ b).outcome = .ready (.error e) ∧
    (pollRead r₁ b).reader = r' ∧ ∀ P : F.Fair, P.delay r₁ ≤ P.delay r

section Strikes

variable {F stop} {r r' : R} {s : List UInt8} {e : IoError} (h : Struck F stop r s e r')
  (hhushed : F.Hushed stop)
include h hhushed

theorem Struck.owes : F.Owes r' s stop ∨ stop = some e ∧ s = [] := by
  obtain ⟨r₁, b, howes, hb, ho, rfl, -⟩ := h
  have hbuf := hhushed howes hb ho
  refine (F.fault howes hb ho).imp (fun h => h.2) fun hlast => ⟨hlast.1, ?_⟩
  rw [← hlast.2, hbuf, ReadBuf.added_self]

theorem Struck.delay (P : F.Fair) : P.delay r' < P.delay r ∨ stop = some e ∧ s = [] := by
  obtain ⟨r₁, b, howes, hb, ho, rfl, hle⟩ := h
  have hbuf := hhushed howes hb ho
  refine (P.fault howes hb ho).imp (fun hlt => hlt.trans_le (hle P)) fun hlast => ⟨hlast.1, ?_⟩
  rw [← hlast.2, hbuf, ReadBuf.added_self]

theorem Struck.last (hF : F.Faultless) : stop = some e ∧ s = [] := by
  obtain ⟨r₁, b, howes, hb, ho, -, -⟩ := h
  have hbuf := hhushed howes hb ho
  obtain ⟨hstop, hs⟩ := hF.fault howes hb ho
  exact ⟨hstop, by rw [← hs, hbuf, ReadBuf.added_self]⟩

end Strikes

/-- Filling changes the header and how much of it is filled, and nothing else. -/
theorem fill_leaves (fuel : Nat) {g : HeaderGuard H R} (hfuel : 512 - g.filled ≤ fuel) (hfilled : g.filled ≤ 512) :
    ∃ r h f, (g.fill fuel).2 = { g with inner := r, header := h, filled := f } ∧ f ≤ 512 ∧
      ((g.fill fuel).1 = .full ↔ f = 512) := by
  induction fuel generalizing g with
  | zero => exact ⟨g.inner, g.header, g.filled, rfl, hfilled, iff_of_true rfl (by omega)⟩
  | succ fuel ih =>
    rw [fill]
    by_cases hf : g.filled < 512
    · rw [dif_pos hf]
      dsimp only
      cases (pollRead g.inner (.new (512 - g.filled))).outcome with
      | pending => exact ⟨_, _, _, rfl, hfilled, iff_of_false (by simp) hf.ne⟩
      | ready res =>
        cases res with
        | error e => exact ⟨_, _, _, rfl, hfilled, iff_of_false (by simp) hf.ne⟩
        | ok =>
          have hlen : (pollRead g.inner (.new (512 - g.filled))).buf.filled.length ≤ 512 - g.filled :=
            length_pollRead_new _ _
          dsimp only
          by_cases hnil : (pollRead g.inner (.new (512 - g.filled))).buf.filled = []
          · rw [if_pos hnil]
            exact ⟨_, _, _, rfl, hfilled, iff_of_false (by simp) hf.ne⟩
          · have hpos := List.length_pos_iff.mpr hnil
            rw [if_neg hnil]
            apply ih
            · show 512 - (g.filled + _) ≤ fuel
              omega
            · show g.filled + _ ≤ 512
              omega
    · rw [dif_neg hf]
      exact ⟨g.inner, g.header, g.filled, rfl, hfilled, iff_of_true rfl (by omega)⟩

/-- The header loop moves bytes from the inner reader into the header block, and nothing else. -/
theorem fill_spec (fuel : Nat) (g : HeaderGuard H R) (s : List UInt8) (hfuel : 512 ≤ g.filled + fuel)
    (hle : g.filled ≤ 512) (howes : F.Owes g.inner s stop) :
    ∃ r h f used s', (g.fill fuel).2 = { g with inner := r, header := h, filled := f } ∧ f ≤ 512 ∧
      s = used ++ s' ∧ g.header.bytes.take g.filled ++ used = h.bytes.take f ∧
      match (g.fill fuel).1 with
      | .full => f = 512 ∧ F.Owes r s' stop ∧ ∀ P : F.Fair, P.delay r ≤ P.delay g.inner
      | .eof => f < 512 ∧ F.Owes r s' stop ∧ s' = [] ∧ stop = none ∧ EofSince g.inner r ∧
          ∀ P : F.Fair, P.delay r ≤ P.delay g.inner
      | .pending => f < 512 ∧ F.Owes r s' stop ∧ ∀ P : F.Fair, P.delay r < P.delay g.inner
      | .failed e => f < 512 ∧ Struck F stop g.inner s' e r := by
  induction fuel generalizing g s with
  | zero =>
    exact ⟨g.inner, g.header, g.filled, [], s, rfl, hle, rfl, List.append_nil _, by omega, howes, fun _ => le_refl _⟩
  | succ fuel ih =>
    by_cases hf : g.filled < 512
    · have hb : 0 < (ReadBuf.new (512 - g.filled)).remaining := by
        rw [ReadBuf.new_remaining]
        omega
      cases ho : (pollRead g.inner (.new (512 - g.filled))).outcome with
      | pending =>
        obtain ⟨-, hl⟩ := F.pending howes hb ho
        refine ⟨(pollRead g.inner (.new (512 - g.filled))).reader, g.header, g.filled, [], s, ?_, hle, rfl,
          List.append_nil _, ?_⟩
        · simp only [fill, hf, ho, dif_pos]
        · simp only [fill, hf, ho, dif_pos]
          exact ⟨trivial, hl, fun P => P.pending howes hb ho⟩
      | ready res =>
        cases res with
        | error e =>
          refine ⟨(pollRead g.inner (.new (512 - g.filled))).reader, g.header, g.filled, [], s, ?_, hle, rfl,
            List.append_nil _, ?_⟩
          · simp only [fill, hf, ho, dif_pos]
          · simp only [fill, hf, ho, dif_pos]
            exact ⟨trivial, _, _, howes, hb, ho, rfl, fun _ => le_refl _⟩
        | ok =>
          obtain ⟨s', hs, hl, hend⟩ := F.chunk howes hb ho
          have hdelay := fun P : F.Fair => P.chunk howes hb ho
          have hfit := length_pollRead_new g.inner (512 - g.filled)
          have heof := EofSince.of_nil hb ho
          have hlater : ∀ r', EofSince (pollRead g.inner (.new (512 - g.filled))).reader r' →
              EofSince g.inner r' := fun r' h => .later _ hb h
          rw [ReadBuf.added_new] at hs hend heof
          generalize hp : pollRead g.inner (.new (512 - g.filled)) = p at *
          by_cases hnil : p.buf.filled = []
          · have hres : g.fill (fuel + 1) = (.eof, { g with inner := p.reader }) := by
              simp only [fill, hf, hp, ho, hnil, dif_pos, if_true]
            rw [hres]
            rw [hnil, List.nil_append] at hs
            exact ⟨p.reader, g.header, g.filled, [], s', rfl, hle, hs, List.append_nil _, hf, hl, (hend hnil).1,
              (hend hnil).2, heof hnil, hdelay⟩
          · have hpos : 0 < p.buf.filled.length := List.length_pos_iff.mpr hnil
            generalize hg₁ : ({ g with
                inner := p.reader, header := g.header.splice g.filled p.buf.filled (by omega),
                filled := g.filled + p.buf.filled.length } : HeaderGuard H R) = g₁
            have hres : g.fill (fuel + 1) = fill fuel g₁ := by
              subst hp hg₁
              simp only [fill, hf, ho, hnil, dif_pos, if_false]
            obtain ⟨r, h, f, used, s'', he, hle', hs', hbytes, hm⟩ := ih g₁ s'
              (by subst hg₁; simp only; omega) (by subst hg₁; simp only; omega) (by subst hg₁; exact hl)
            rw [hres]
            refine ⟨r, h, f, p.buf.filled ++ used, s'', by rw [he, ← hg₁], hle', ?_, ?_, ?_⟩
            · rw [hs, hs', List.append_assoc]
            · rw [← hbytes, ← hg₁, Block.take_splice, List.append_assoc]
            · have hin : g₁.inner = p.reader := by rw [← hg₁]
              rw [hin] at hm
              cases hfl : (fill fuel g₁).1 <;> rw [hfl] at hm
              · exact ⟨hm.1, hm.2.1, fun P => (hm.2.2 P).trans (hdelay P)⟩
              · obtain ⟨hlt, hlr, hnil', hstop, he', hle''⟩ := hm
                exact ⟨hlt, hlr, hnil', hstop, hlater r he', fun P => (hle'' P).trans (hdelay P)⟩
              · exact ⟨hm.1, hm.2.1, fun P => (hm.2.2 P).trans_le (hdelay P)⟩
              · obtain ⟨hlt, r₁, b, h₁, h₂, h₃, h₄, h₅⟩ := hm
                exact ⟨hlt, r₁, b, h₁, h₂, h₃, h₄, fun P => (h₅ P).trans (hdelay P)⟩
    · have hres : g.fill (fuel + 1) = (.full, g) := by simp only [fill, hf, dif_neg, not_false_eq_true]
      rw [hres]
      exact ⟨g.inner, g.header, g.filled, [], s, rfl, hle, rfl, List.append_nil _, by omega, howes,
        fun _ => le_refl _⟩

/-- `g` is between polls and its inner reader owes `s` before it ends with `stop`; an error
at the end comes without bytes. -/
structure Between (g : HeaderGuard H R) (s : List UInt8) : Prop where
  inv : g.Inv
  owes : F.Owes g.inner s stop
  hushed : F.Hushed stop

/-- From `g`, having taken `used`, the guard hands out `bytes` and moves on to `g'`, whatever
comes after. -/
structure Moves (g : HeaderGuard H R) (used bytes : List UInt8) (g' : HeaderGuard H R) : Prop where
  inv : g'.Inv
  bytes_eq : g.held ++ used = bytes ++ g'.held
  ahead_eq : ∀ t, g.ahead (used ++ t) = (g'.ahead t).shift bytes.length

/-- From `g`, having taken `used`, the guard hands out `bytes` and fails with `e`, whatever comes
after: it refuses a header before any byte of it is out, or a PAX body with its last byte. -/
inductive Stops (g : HeaderGuard H R) (used : List UInt8) : List UInt8 → Error → Prop where
  | refused {e : Error} (h : ∀ t, g.ahead (used ++ t) = ⟨0, some e⟩) : Stops g used [] e
  | spoiled {e : Error} (hne : g.held ++ used ≠ []) (h : ∀ t, g.ahead (used ++ t) = ⟨(g.held ++ used).length, some e⟩) :
      Stops g used (g.held ++ used) e

omit [AsyncRead IoError R] in
theorem Moves.idle {g g' : HeaderGuard H R} {used : List UInt8} (hinv : g'.Inv) (hbytes : g.held ++ used = g'.held)
    (hahead : ∀ t, g.ahead (used ++ t) = g'.ahead t) : Moves g used [] g' :=
  ⟨hinv, hbytes, fun t => by rw [hahead, List.length_nil, Verdict.shift_zero]⟩

omit [AsyncRead IoError R] in
/-- Nothing moves but the inner reader. -/
theorem Moves.still {g g' : HeaderGuard H R} (hinv : g'.Inv) (hheld : g.held = g'.held) (hahead : g.ahead = g'.ahead) :
    Moves g [] [] g' :=
  .idle hinv (by rw [List.append_nil, hheld]) (fun t => by rw [List.nil_append, hahead])

omit [AsyncRead IoError R] in
/-- What is held and owed before and after. -/
theorem Moves.owed {g g' : HeaderGuard H R} {used bytes : List UInt8} (h : Moves g used bytes g') (s : List UInt8) :
    g.held ++ (used ++ s) = bytes ++ (g'.held ++ s) := by
  rw [← List.append_assoc, h.bytes_eq, List.append_assoc]

omit [AsyncRead IoError R] in
theorem Stops.ahead {g : HeaderGuard H R} {used bytes : List UInt8} {e : Error} (h : Stops g used bytes e) (t : List UInt8) :
    g.ahead (used ++ t) = ⟨bytes.length, some e⟩ ∧ bytes <+: g.held ++ (used ++ t) := by
  cases h with
  | refused h => exact ⟨h t, List.nil_prefix⟩
  | spoiled hne h => exact ⟨h t, by rw [← List.append_assoc]; exact List.prefix_append _ _⟩

/-- What one poll with a nonempty buffer may answer: bytes are handed out and the scan moves
past them, or none are because the inner reader was late or failed; or the reference scan
stops right after them. -/
def Answer (g : HeaderGuard H R) (s : List UInt8) (out : ReadBuf) (p : Polled Fault (HeaderGuard H R)) : Prop :=
  ∃ used s', s = used ++ s' ∧
    match p.outcome with
    | .ready (.error (.own e)) => Stops g used (out.added p.buf) e ∧ F.Owes p.reader.inner s' stop
    | .ready (.error (.inner e)) => p.buf = out ∧ Moves g used [] p.reader ∧
        Struck F stop g.inner s' e p.reader.inner ∧ p.reader.ahead [] = ⟨0, none⟩
    | .ready (.ok ()) => Moves g used (out.added p.buf) p.reader ∧ F.Owes p.reader.inner s' stop ∧
        (out.added p.buf = [] → EofSince g.inner p.reader.inner ∧ s' = [] ∧ stop = none ∧
          p.reader.ahead [] = ⟨0, none⟩) ∧
        ∀ P : F.Fair, P.delay p.reader.inner ≤ P.delay g.inner
    | .pending => p.buf = out ∧ Moves g used [] p.reader ∧ F.Owes p.reader.inner s' stop ∧
        ∀ P : F.Fair, P.delay p.reader.inner < P.delay g.inner

/-- Payload bytes move along the scan, and the last one settles a captured body. -/
theorem readData_spec (g : HeaderGuard H R) (s : List UInt8) (hg : Between F stop g s) (hd : 0 < g.dataRemaining)
    (out : ReadBuf) (hout : 0 < out.remaining) : Answer F stop g s out (g.readData out) := by
  obtain ⟨hinv, howes, hhushed⟩ := hg
  obtain ⟨hf, he, ht⟩ := hinv.data hd
  obtain ⟨-, hn, hnt⟩ := hinv.collecting he
  have hcap : min g.dataRemaining usizeMax = g.dataRemaining := Nat.min_eq_left hinv.data_le
  have hb : 0 < (out.take g.dataRemaining).remaining := by
    rw [ReadBuf.take_remaining]
    omega
  have hheld : g.held = [] := by simp [held, he, hf]
  have hah : ∀ s, g.ahead s = tailScan H g.maxMetadataBytes g.dataRemaining g.paxSize g.paxBody
      g.paxRemaining s := by
    simp [ahead, ht, hd]
  cases ho : (pollRead g.inner (out.take g.dataRemaining)).outcome with
  | pending =>
    obtain ⟨-, hl⟩ := F.pending howes hb ho
    refine ⟨[], s, rfl, ?_⟩
    simp only [readData, hcap, ho]
    exact ⟨trivial, .still { hinv with } rfl rfl, hl, fun P => P.pending howes hb ho⟩
  | ready res =>
    cases res with
    | error e =>
      refine ⟨[], s, rfl, ?_⟩
      simp only [readData, hcap, ho]
      refine ⟨trivial, .still { hinv with } rfl rfl, ⟨_, _, howes, hb, ho, rfl, fun _ => le_refl _⟩, ?_⟩
      simp [ahead, ht, hd, tailScan_nil]
    | ok =>
      obtain ⟨s', hs, hl, hend⟩ := F.chunk howes hb ho
      have hdelay := fun P : F.Fair => P.chunk howes hb ho
      have hg := AsyncRead.grows g.inner (out.take g.dataRemaining)
      have hsub := capacity_pollRead_take g.inner out g.dataRemaining
      have heof := EofSince.of_nil hb ho
      rw [ReadBuf.added_take] at hs hend heof
      generalize hp : pollRead g.inner (out.take g.dataRemaining) = p at *
      have hlen : p.buf.filled.length ≤ g.dataRemaining := by
        have := p.buf.fits
        rw [hg.1, ReadBuf.take_capacity] at this
        omega
      generalize hg₂ : ({ g with
        inner := p.reader
        dataRemaining := g.dataRemaining - p.buf.filled.length
        paxBody := g.paxBody.map (· ++ p.buf.filled.take g.paxRemaining)
        paxRemaining := if g.paxBody = none then g.paxRemaining else g.paxRemaining - p.buf.filled.length } :
          HeaderGuard H R) = g₂
      have hres : g.readData out =
          ⟨.ready (g₂.settle.1.mapError .own), out.advance p.buf hsub, g₂.settle.2⟩ := by
        have hk : g.paxBody ≠ none → g.paxRemaining ≤ usizeMax := fun h => by
          have := (hinv.pax h).1
          have := hinv.data_le
          simp only [usizeMax, u64Max] at *
          omega
        subst hp hg₂
        simp only [readData, hcap, ho]
        rw [capture_eq _ _ (by exact hk)]
      have hset := settle_spec g₂ (by subst hg₂; exact hf) (by subst hg₂; exact he) (by subst hg₂; exact hn)
        (by subst hg₂; exact ht) (by subst hg₂; exact hnt.trans ht)
        (by
          intro h
          subst hg₂
          have hpb : g.paxBody ≠ none := fun h' => h (by simp [h'])
          have := (hinv.pax hpb).1
          simp only [hpb, if_false]
          omega)
        (by
          intro body h
          subst hg₂
          cases hpb : g.paxBody with
          | none => simp [hpb] at h
          | some front =>
            have := hinv.pax_le front hpb
            simp only [hpb, Option.map_some, Option.some.injEq] at h
            subst h
            simp only [reduceCtorEq, if_false, List.length_append, List.length_take]
            omega)
        (by subst hg₂; exact (Nat.sub_le _ _).trans hinv.data_le)
      have htail : ∀ t, g.ahead (p.buf.filled ++ t) = (tailScan H g₂.maxMetadataBytes g₂.dataRemaining g₂.paxSize
          g₂.paxBody g₂.paxRemaining t).shift p.buf.filled.length := by
        intro t
        rw [hah, tailScan_append H _ _ _ hlen]
        subst hg₂
        cases g.paxBody with
        | none => rfl
        | some front => rfl
      rw [hres]
      refine ⟨p.buf.filled, s', hs, ?_⟩
      rcases hs₂ : g₂.settle with ⟨_ | _, g₃⟩ <;> simp only [hs₂] at hset
      · simp only [hset] at htail
        simp only [Except.mapError, ReadBuf.added_advance]
        have hpass : g.held ++ p.buf.filled = p.buf.filled := by rw [hheld, List.nil_append]
        have hne : p.buf.filled ≠ [] := by
          intro hnil
          have hstuck := htail []
          rw [hnil, List.append_nil, hah, tailScan_nil H _ hd] at hstuck
          cases hstuck
        have hstop := Stops.spoiled (by rwa [hpass]) (by rw [hpass]; exact htail)
        rw [hpass] at hstop
        refine ⟨hstop, ?_⟩
        have hin := settle_inner g₂
        rw [hs₂] at hin
        rw [hin, ← hg₂]
        exact hl
      · obtain ⟨hinv₃, hheld₃, hin₃, -⟩ := hset []
        have hin : g₃.inner = p.reader := by
          rw [hin₃, ← hg₂]
        simp only [Except.mapError, ReadBuf.added_advance, hin]
        refine ⟨⟨hinv₃, ?_, fun t => ?_⟩, hl, ?_, hdelay⟩
        · rw [hheld, hheld₃, List.append_nil, List.nil_append]
        · rw [htail, (hset t).2.2.2]
        · intro hnil
          obtain ⟨hrest, hstop⟩ := hend hnil
          refine ⟨heof hnil, hrest, hstop, ?_⟩
          rw [(hset []).2.2.2, ← hg₂]
          apply tailScan_nil
          simpa [hnil] using hd

theorem poll_passing {g : HeaderGuard H R} (ht : g.trailer = true) {out : ReadBuf} (hout : ¬ out.remaining = 0) :
    g.poll out = ⟨match (pollRead g.inner out).outcome with
      | .pending => .pending
      | .ready res => .ready (res.mapError .inner), (pollRead g.inner out).buf,
      { g with inner := (pollRead g.inner out).reader }⟩ := by
  unfold poll
  exact (if_neg hout).trans (if_pos ht)

/-- The trailer passes through as the inner reader hands it out. -/
theorem poll_trailer (g : HeaderGuard H R) (s : List UInt8) (hg : Between F stop g s) (ht : g.trailer = true)
    (out : ReadBuf) (hout : 0 < out.remaining) : Answer F stop g s out (g.poll out) := by
  obtain ⟨hinv, howes, hhushed⟩ := hg
  obtain ⟨hf, he⟩ := hinv.after ht
  have hout' : ¬ out.remaining = 0 := by omega
  have hheld : g.held = [] := by simp [held, he, hf]
  have hah : ∀ s, g.ahead s = ⟨s.length, none⟩ := by simp [ahead, ht]
  rw [poll_passing ht hout']
  cases ho : (pollRead g.inner out).outcome with
  | pending =>
    obtain ⟨hbuf, hl⟩ := F.pending howes hout ho
    exact ⟨[], s, rfl, hbuf, .still { hinv with } rfl rfl, hl, fun P => P.pending howes hout ho⟩
  | ready res =>
    cases res with
    | error e =>
      exact ⟨[], s, rfl, hhushed howes hout ho, .still { hinv with } rfl rfl, ⟨_, _, howes, hout, ho, rfl, fun _ => le_refl _⟩, hah []⟩
    | ok =>
      obtain ⟨s', hs, hl, hend⟩ := F.chunk howes hout ho
      have hah' : ∀ r s, ({ g with inner := r } : HeaderGuard H R).ahead s = ⟨s.length, none⟩ :=
        fun _ s => hah s
      have hheld' : ∀ r, ({ g with inner := r } : HeaderGuard H R).held = [] := fun _ => hheld
      refine ⟨_, s', hs, ⟨{ hinv with }, ?_, fun t => ?_⟩, hl, ?_, fun P => P.chunk howes hout ho⟩
      · rw [hheld, hheld', List.append_nil, List.nil_append]
      · rw [hah, hah', List.length_append]
        rfl
      · intro hnil
        exact ⟨EofSince.of_nil hout ho hnil, (hend hnil).1, (hend hnil).2, hah' _ _⟩

/-- Handing out the header and what it leads to is one answer of the guard. -/
theorem answer_emit (g g' : HeaderGuard H R) (s used s' : List UInt8) (out : ReadBuf) (hout : 0 < out.remaining)
    (hf : g'.filled = 512) (he : g'.emitted < 512) (h0 : g'.dataRemaining = 0) (ht : g'.trailer = false)
    (hlast : g'.nextTrailer = true → g'.nextData = 0 ∧ g'.paxBody = none)
    (hp : g'.paxBody ≠ none → g'.paxRemaining ≤ g'.nextData)
    (hl : ∀ body, g'.paxBody = some body → body.length + g'.paxRemaining ≤ g'.maxMetadataBytes)
    (hd : g'.nextData ≤ u64Max) (hs : s = used ++ s') (howes : F.Owes g'.inner s' stop)
    (hdelay : ∀ P : F.Fair, P.delay g'.inner ≤ P.delay g.inner)
    (hheld : g.held ++ used = g'.header.bytes.drop g'.emitted)
    (hah : ∀ t, g.ahead (used ++ t) = (g'.planned t).shift (512 - g'.emitted)) :
    Answer F stop g s out (g'.emit out) := by
  have hspec := emit_spec g' out hout hf he h0 ht hlast hp hl hd
  have hlen : (g'.header.bytes.drop g'.emitted).length = 512 - g'.emitted := by
    rw [List.length_drop, Block.length_bytes]
  refine ⟨used, s', hs, ?_⟩
  obtain ⟨hin, hcase⟩ := hspec []
  rcases hcase with ⟨ho, hne, hinv, hbytes, -⟩ | ⟨e, ho, hbytes, -⟩
  · have hscan : ∀ t, (g'.planned t).shift (512 - g'.emitted) =
        ((g'.emit out).reader.ahead t).shift (out.added (g'.emit out).buf).length := by
      intro t
      rcases (hspec t).2 with ⟨-, -, -, -, hscan⟩ | ⟨e, ho', -⟩
      · exact hscan
      · rw [ho] at ho'
        cases ho'
    simp only [ho, hin]
    exact ⟨⟨hinv, by rw [hheld, hbytes], fun t => by rw [hah, hscan]⟩, howes, fun hnil => absurd hnil hne, hdelay⟩
  · have hscan : ∀ t, (g'.planned t).shift (512 - g'.emitted) = ⟨512 - g'.emitted, some e⟩ := by
      intro t
      rcases (hspec t).2 with ⟨ho', -⟩ | ⟨e', ho', -, hscan⟩
      · rw [ho] at ho'
        cases ho'
      · rw [ho] at ho'
        cases ho'
        exact hscan
    simp only [ho, hin]
    rw [hbytes, ← hheld]
    refine ⟨.spoiled ?_ (fun t => by rw [hah, hscan, hheld, hlen]), howes⟩
    rw [hheld]
    exact List.length_pos_iff.mp (by rw [hlen]; omega)

theorem poll_collecting {g : HeaderGuard H R} (ht : g.trailer = false) (hd : g.dataRemaining = 0) {out : ReadBuf}
    (hout : ¬ out.remaining = 0) :
    g.poll out = match g.fill (512 - g.filled) with
      | (.pending, g) => ⟨.pending, out, g⟩
      | (.failed e, g) => ⟨.ready (.error (.inner e)), out, g⟩
      | (.eof, g) => ⟨.ready (.ok ()), out, g⟩
      | (.full, g) =>
        match if g.emitted = 0 then g.inspect else (.ok (), g) with
        | (.error e, g) => ⟨.ready (.error (.own e)), out, g⟩
        | (.ok (), g) => g.emit out := by
  unfold poll
  exact (if_neg hout).trans ((if_neg (by simp [ht])).trans (if_neg (by omega)))

/-- A header is collected whole, checked once, and only then handed out. -/
theorem poll_header (g : HeaderGuard H R) (s : List UInt8) (hg : Between F stop g s) (ht : g.trailer = false)
    (hd : g.dataRemaining = 0) (out : ReadBuf) (hout : 0 < out.remaining) :
    Answer F stop g s out (g.poll out) := by
  obtain ⟨hinv, howes, hhushed⟩ := hg
  have hout' : ¬ out.remaining = 0 := by omega
  have hpoll := poll_collecting ht hd hout'
  by_cases he : g.emitted = 0
  · obtain ⟨hf, hn, hnt⟩ := hinv.collecting he
    have hpb : g.paxBody = none := by
      by_contra h
      have := (hinv.pax h).2
      omega
    have hheld : g.held = g.header.bytes.take g.filled := by simp [held, he]
    have hah : ∀ s, g.ahead s = scan H g.maxMetadataBytes g.paxSize (g.header.bytes.take g.filled ++ s) := by
      simp [ahead, ht, hd, he]
    obtain ⟨r, h, f, used, s', hres, hfle, hs, hbytes, hm⟩ :=
      fill_spec F stop (512 - g.filled) g s (by omega) hf.le howes
    generalize hg₁ : ({ g with inner := r, header := h, filled := f } : HeaderGuard H R) = g₁ at hres
    have hheld₁ : g₁.held = h.bytes.take f := by subst hg₁; simp [held, he]
    have hah₁ : ∀ s, g₁.ahead s = scan H g.maxMetadataBytes g.paxSize (h.bytes.take f ++ s) := by
      subst hg₁
      simp [ahead, ht, hd, he]
    have hr₁ : g₁.inner = r := by rw [← hg₁]
    have hinv₁ : f < 512 → g₁.Inv := fun hlt => by
      subst hg₁
      exact { hinv with
        filled_le := hfle
        full := fun h => absurd h (by simp only; omega)
        collecting := fun _ => ⟨hlt, hn, hnt⟩
        data := by simp [hd]
        after := by simp [ht] }
    have hmove : g.held ++ used = g₁.held := by
      rw [hheld, hheld₁, hbytes]
    have hscan : ∀ t, g.ahead (used ++ t) = g₁.ahead t := by
      intro t
      rw [hah, hah₁, ← List.append_assoc, hbytes]
    have hnone : f < 512 → g₁.ahead [] = ⟨0, none⟩ := fun hlt => by
      rw [hah₁]
      apply scan_short
      simp only [List.append_nil, List.length_take]
      omega
    rw [hpoll]
    cases hfill : g.fill (512 - g.filled) with
    | mk fl g₂ =>
      rw [hfill] at hres hm
      simp only at hres hm
      subst g₂
      cases fl with
      | pending =>
        rw [← hr₁] at hm
        exact ⟨used, s', hs, rfl, .idle (hinv₁ hm.1) hmove hscan, hm.2⟩
      | failed e =>
        rw [← hr₁] at hm
        exact ⟨used, s', hs, rfl, .idle (hinv₁ hm.1) hmove hscan, hm.2, hnone hm.1⟩
      | eof =>
        obtain ⟨hlt, hl, hrest, hstop, heof, hdelay⟩ := hm
        refine ⟨used, s', hs, ?_⟩
        simp only [ReadBuf.added_self, hr₁]
        exact ⟨.idle (hinv₁ hlt) hmove hscan, hl, fun _ => ⟨heof, hrest, hstop, hnone hlt⟩, hdelay⟩
      | full =>
        obtain ⟨hm, hl, hdelay⟩ := hm
        have hall : h.bytes.take f = h.bytes := by
          apply List.take_of_length_le
          simp [hm]
        have he₁ : g₁.emitted = 0 := by rw [← hg₁]; exact he
        have hplan := inspect_planned g₁ (by rw [← hg₁]; exact hpb) (by rw [← hg₁]; exact hn)
          (by rw [← hg₁]; exact hnt.trans ht)
        simp only [he₁, if_true]
        have hscan' : ∀ t, g.ahead (used ++ t) = scan H g₁.maxMetadataBytes g₁.paxSize (g₁.header.bytes ++ t) := by
          intro t
          rw [hscan, hah₁, hall, ← hg₁]
        cases hins : g₁.inspect with
        | mk res g₃ =>
          simp only [hins] at hplan
          cases res with
          | error e =>
            simp only at hplan
            refine ⟨used, s', hs, ?_⟩
            simp only [ReadBuf.added_self]
            have hin := inspect_inner g₁
            rw [hins, hr₁] at hin
            rw [← hin] at hl
            exact ⟨.refused (fun t => by rw [hscan', hplan]), hl⟩
          | ok =>
            simp only at hplan
            obtain ⟨-, hi₃, hh₃, hf₃, he₃, hd₃, ht₃, hmm, hlast, hpx, hpl, hnd⟩ := hplan []
            have he₃' : g₃.emitted = 0 := he₃.trans he₁
            have hi₃' : g₃.inner = r := hi₃.trans hr₁
            apply answer_emit F stop g g₃ s used s' out hout (by rw [hf₃, ← hg₁]; exact hm) (by omega)
              (by rw [hd₃, ← hg₁]; exact hd) (by rw [ht₃, ← hg₁]; exact ht) hlast hpx hpl hnd hs
              (by rwa [hi₃']) (by rwa [hi₃'])
            · rw [hmove, hheld₁, hall, he₃', hh₃, ← hg₁]
              rfl
            · intro t
              rw [hscan', (hplan t).1, he₃']
  · have hpos : 0 < g.emitted := Nat.pos_of_ne_zero he
    have hf := hinv.full hpos
    have hemit : g.poll out = g.emit out := by
      rw [hpoll, hf]
      simp [fill, he]
    rw [hemit]
    apply answer_emit F stop g g s [] s out hout hf hinv.emitted_lt hd ht hinv.last
      (fun h => by have := (hinv.pax h).1; omega) hinv.pax_le hinv.next_le rfl howes (fun _ => le_refl _)
    · simp [held, he]
    · simp [ahead, ht, hd, hpos]

/-- Every poll with a nonempty buffer answers as the reference scan has it. -/
theorem poll_spec (g : HeaderGuard H R) (s : List UInt8) (hg : Between F stop g s) (out : ReadBuf)
    (hout : 0 < out.remaining) : Answer F stop g s out (g.poll out) := by
  cases ht : g.trailer with
  | true => exact poll_trailer F stop g s hg ht out hout
  | false =>
    by_cases hd : g.dataRemaining = 0
    · exact poll_header F stop g s hg ht hd out hout
    · have hpos := Nat.pos_of_ne_zero hd
      have hpoll : g.poll out = g.readData out := by
        unfold poll
        rw [if_neg (by omega), if_neg (by simp [ht]), if_pos hpos]
      rw [hpoll]
      exact readData_spec F stop g s hg hpos out hout

end Etar.Guard.HeaderGuard
