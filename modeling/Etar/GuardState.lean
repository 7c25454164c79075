import Etar.Gnu
import Etar.GuardSpec
import Etar.PaxGrammar

/-!
# The guard's fields between polls

What holds of the guard's fields in every state that polls lead to, whatever the inner reader
answers and whatever the buffers are. `Indexed` is the same poll with every slice and
subtraction checked; it also says which body it gave to the record parser.
-/
namespace Etar.Guard

open AsyncIo

variable {H : HeaderFields} {R : Type}

open Scan
open Pax.Indexed (Halt slice sub slice_eq sub_eq)

namespace Indexed

/-- `put_slice` panics when the bytes do not fit. -/
def putSlice (out : ReadBuf) (bytes : List UInt8) : Except Halt ReadBuf :=
  if h : bytes.length ≤ out.remaining then .ok (out.putSlice bytes h) else .error .panic

/-- The answer of a poll, and the body it gave to `parse_pax_size` if it did. -/
abbrev Traced (H : HeaderFields) (R : Type) := Polled Fault (HeaderGuard H R) × Option (List UInt8)

/-- What the end of a payload gives to the parser. -/
def given (g : HeaderGuard H R) : Option (List UInt8) := if g.dataRemaining = 0 then g.paxBody else none

def settle (g : HeaderGuard H R) (out : ReadBuf) : Traced H R :=
  (⟨.ready (g.settle.1.mapError .own), out, g.settle.2⟩, given g)

def emit (g : HeaderGuard H R) (out : ReadBuf) : Except Halt (Traced H R) := do
  let left ← sub 512 g.emitted
  let count := min out.remaining left
  let bytes ← slice g.header.bytes g.emitted (g.emitted + count)
  let out ← putSlice out bytes
  let g : HeaderGuard H R := { g with emitted := g.emitted + count }
  if g.emitted = 512 then
    return settle { g with
      filled := 0, emitted := 0, dataRemaining := g.nextData, nextData := 0, trailer := g.nextTrailer } out
  else return (⟨.ready (.ok ()), out, g⟩, none)

def capture (g : HeaderGuard H R) (bytes : List UInt8) : Except Halt (HeaderGuard H R) :=
  match g.paxBody with
  | none => .ok g
  | some body => do
    let keep := min bytes.length (min g.paxRemaining usizeMax)
    let kept ← slice bytes 0 keep
    let left ← sub g.paxRemaining keep
    return { g with paxBody := some (body ++ kept), paxRemaining := left }

variable [AsyncRead IoError R]

/-- The loop that fills the header, for at most `fuel` passes. -/
def fill : Nat → HeaderGuard H R → Except Halt (Fill × HeaderGuard H R)
  | 0, _ => .error .running
  | fuel + 1, g =>
    if g.filled < 512 then do
      let room ← sub 512 g.filled
      let p := pollRead g.inner (.new room)
      match p.outcome with
      | .pending => return (.pending, { g with inner := p.reader })
      | .ready (.error e) => return (.failed e, { g with inner := p.reader })
      | .ready (.ok ()) =>
        if p.buf.filled = [] then return (.eof, { g with inner := p.reader })
        else if h : g.filled + p.buf.filled.length ≤ 512 then
          fill fuel { g with
            inner := p.reader
            header := g.header.splice g.filled p.buf.filled h
            filled := g.filled + p.buf.filled.length }
        else .error .panic
    else return (.full, g)

def readData (g : HeaderGuard H R) (out : ReadBuf) : Except Halt (Traced H R) :=
  let p := pollRead g.inner (out.take (min g.dataRemaining usizeMax))
  let g : HeaderGuard H R := { g with inner := p.reader }
  match p.outcome with
  | .pending => .ok (⟨.pending, out, g⟩, none)
  | .ready (.error e) => .ok (⟨.ready (.error (.inner e)), out, g⟩, none)
  | .ready (.ok ()) => do
    let g ← capture g p.buf.filled
    let out ← putSlice out p.buf.filled
    let left ← sub g.dataRemaining p.buf.filled.length
    return settle { g with dataRemaining := left } out

def poll (g : HeaderGuard H R) (out : ReadBuf) : Except Halt (Traced H R) :=
  if out.remaining = 0 then .ok (⟨.ready (.ok ()), out, g⟩, none)
  else if g.trailer then .ok (g.poll out, none)
  else if 0 < g.dataRemaining then readData g out
  else do
    match ← fill (512 - g.filled + 1) g with
    | (.pending, g) => return (⟨.pending, out, g⟩, none)
    | (.failed e, g) => return (⟨.ready (.error (.inner e)), out, g⟩, none)
    | (.eof, g) => return (⟨.ready (.ok ()), out, g⟩, none)
    | (.full, g) =>
      match if g.emitted = 0 then g.inspect else (.ok (), g) with
      | (.error e, g) => return (⟨.ready (.error (.own e)), out, g⟩, none)
      | (.ok (), g) => emit g out

end Indexed

/-- The record whose body is captured: `header` is of type `x` and declares `raw` bytes, no more
than allowed. -/
structure Declares (H : HeaderFields) (max : Nat) (header : Block) (raw : Nat) : Prop where
  flag : header.typeflag = 120
  size : ∃ r, H.size header = some r ∧ r.toNat = raw
  within : raw ≤ max

/-- An admitted header of type `x` declares what the payload is vetted to. -/
theorem declares_of_vet {max e : Nat} {p : Option Nat} {header : Block} (hv : vet H max p header = .ok e)
    (hflag : header.typeflag = 120) : Declares H max header e := by
  have hx : isExtension header.typeflag = true := by rw [hflag]; rfl
  refine ⟨hflag, ?_, (vet_ok H max hv).2 hx⟩
  unfold vet at hv
  rw [if_neg (by rw [hflag]; decide)] at hv
  cases hr : H.size header with
  | none =>
    rw [hr] at hv
    cases hv
  | some r =>
    rw [hr] at hv
    dsimp only at hv
    rw [if_pos hx] at hv
    split_ifs at hv
    exact ⟨r, rfl, Except.ok.inj hv⟩

/-- `body` was given to the parser after `bytes` were handed out: it is all that the last record
declared, and what follows it is padding. -/
def Given (H : HeaderFields) (max : Nat) (bytes body : List UInt8) : Prop :=
  ∃ front header pad, bytes = front ++ (header.bytes ++ (body ++ pad)) ∧ Declares H max header body.length ∧
    (body ++ pad).length = roundUp body.length

namespace HeaderGuard

/-- The captured `body` is the front of the payload handed out so far, and `dataRemaining` bytes
of the padded payload are still to come. -/
structure Captured (max : Nat) (bytes : List UInt8) (g : HeaderGuard H R) (body : List UInt8) (raw : Nat) : Prop where
  declares : Declares H max g.header raw
  trailer : g.trailer = false
  sum : body.length + g.paxRemaining = raw
  place : ∃ front payload, bytes = front ++ (g.header.bytes ++ payload) ∧ body = payload.take raw ∧
    payload.length + g.dataRemaining = roundUp raw

/-- The header of the record is still being handed out. -/
structure Announced (max : Nat) (bytes : List UInt8) (g : HeaderGuard H R) (body : List UInt8) (raw : Nat) : Prop where
  declares : Declares H max g.header raw
  trailer : g.trailer = false
  nextTrailer : g.nextTrailer = false
  body_nil : body = []
  remaining : g.paxRemaining = raw
  next : g.nextData = roundUp raw
  place : ∃ front, bytes = front ++ g.header.bytes.take g.emitted

/-- The guard between two polls, `bytes` having been handed out. -/
structure State (max : Nat) (bytes : List UInt8) (g : HeaderGuard H R) : Prop where
  limit : g.maxMetadataBytes = max
  filled_le : g.filled ≤ 512
  emitted_lt : g.emitted < 512
  full : 0 < g.emitted → g.filled = 512
  data : 0 < g.dataRemaining → g.filled = 0 ∧ g.emitted = 0
  trailer : g.trailer = false → g.emitted = 0 → g.nextTrailer = false
  announced : 0 < g.emitted → ∀ body, g.paxBody = some body → ∃ raw, g.Announced max bytes body raw
  captured : g.emitted = 0 → ∀ body, g.paxBody = some body → 0 < g.dataRemaining ∧ ∃ raw, g.Captured max bytes body raw

theorem state_new (r : R) (max : Nat) : (new r max : HeaderGuard H R).State max [] where
  limit := rfl
  filled_le := Nat.zero_le _
  emitted_lt := Nat.zero_lt_succ _
  full h := absurd h (Nat.lt_irrefl 0)
  data h := absurd h (Nat.lt_irrefl 0)
  trailer _ _ := rfl
  announced h := absurd h (Nat.lt_irrefl 0)
  captured _ _ h := nomatch h

/-- While payload is due, no more of the body is missing than payload is. -/
theorem Captured.remaining_le {max raw : Nat} {bytes body : List UInt8} {g : HeaderGuard H R}
    (h : g.Captured max bytes body raw) : g.paxRemaining ≤ g.dataRemaining := by
  obtain ⟨front, payload, -, hbody, hlen⟩ := h.place
  have hsum := h.sum
  have hle := le_roundUp raw
  rw [hbody, List.length_take] at hsum
  omega

/-- The end of the payload gives the parser what the record declared. -/
theorem Captured.given {max raw : Nat} {bytes body : List UInt8} {g : HeaderGuard H R}
    (h : g.Captured max bytes body raw) (hd : g.dataRemaining = 0) : Given H max bytes body := by
  obtain ⟨front, payload, hbytes, hbody, hlen⟩ := h.place
  have hle := le_roundUp raw
  have hraw : body.length = raw := by
    rw [hbody, List.length_take]
    omega
  refine ⟨front, g.header, payload.drop raw, ?_, by rw [hraw]; exact h.declares, ?_⟩
  · rw [hbytes, hbody, List.take_append_drop]
  · rw [hraw, hbody, List.take_append_drop]
    omega

theorem settle_state {max : Nat} {bytes : List UInt8} {g : HeaderGuard H R} (hlimit : g.maxMetadataBytes = max)
    (hfilled : g.filled = 0) (hemitted : g.emitted = 0) (htrailer : g.trailer = false → g.nextTrailer = false)
    (hpax : ∀ body, g.paxBody = some body → ∃ raw, g.Captured max bytes body raw) :
    (∀ body, Indexed.given g = some body → Given H max bytes body) ∧ g.settle.2.State max bytes := by
  have hstate : ∀ g' : HeaderGuard H R, g'.maxMetadataBytes = max → g'.filled = 0 → g'.emitted = 0 →
      (g'.trailer = false → g'.nextTrailer = false) →
      (∀ body, g'.paxBody = some body → 0 < g'.dataRemaining ∧ ∃ raw, g'.Captured max bytes body raw) →
      g'.State max bytes := by
    intro g' hl hf he ht hp
    exact ⟨hl, by omega, by omega, fun h => by omega, fun _ => ⟨hf, he⟩, fun h _ => ht h, fun h => by omega,
      fun _ => hp⟩
  unfold Indexed.given settle
  by_cases hd : g.dataRemaining = 0
  · rw [if_pos hd, if_pos hd]
    constructor
    · intro body hb
      obtain ⟨raw, h⟩ := hpax body hb
      exact h.given hd
    · cases hb : g.paxBody with
      | none => exact hstate g hlimit hfilled hemitted htrailer fun body h => by rw [hb] at h; cases h
      | some body =>
        dsimp only
        cases Pax.parsePaxSize body with
        | error e => exact hstate _ hlimit hfilled hemitted htrailer fun _ h => by cases h
        | ok size => exact hstate _ hlimit hfilled hemitted htrailer fun _ h => by cases h
  · rw [if_neg hd, if_neg hd]
    exact ⟨(fun _ h => by cases h), hstate g hlimit hfilled hemitted htrailer fun body hb =>
      ⟨Nat.pos_of_ne_zero hd, hpax body hb⟩⟩

/-- What handing out the header leaves, and what it gives to the parser. -/
theorem emit_state {max : Nat} {bytes : List UInt8} {g : HeaderGuard H R} (hlimit : g.maxMetadataBytes = max)
    (hfilled : g.filled = 512) (hemitted : g.emitted < 512) (hdata : g.dataRemaining = 0)
    (hpax : ∀ body, g.paxBody = some body → ∃ raw, g.Announced max bytes body raw)
    {out : ReadBuf} (hroom : 0 < out.remaining) :
    ∃ given, Indexed.emit g out = .ok (g.emit out, given) ∧
      (∀ body, given = some body → Given H max (bytes ++ out.added (g.emit out).buf) body) ∧
      (g.emit out).reader.State max (bytes ++ out.added (g.emit out).buf) := by
  have hlen := g.header.length_bytes
  have hplace : ∀ front, bytes = front ++ g.header.bytes.take g.emitted → ∀ count,
      bytes ++ (g.header.bytes.drop g.emitted).take count = front ++ g.header.bytes.take (g.emitted + count) := by
    rintro front rfl count
    rw [List.append_assoc, List.take_add]
  generalize hcount : min out.remaining (512 - g.emitted) = count
  have hpos : 0 < count := by omega
  have hslice : slice g.header.bytes g.emitted (g.emitted + count) = .ok ((g.header.bytes.drop g.emitted).take count) := by
    rw [slice_eq (by omega) (by omega), List.drop_take, Nat.add_sub_cancel_left]
  have hput : ((g.header.bytes.drop g.emitted).take count).length ≤ out.remaining :=
    (List.length_take_le _ _).trans (by omega)
  unfold Indexed.emit emit
  rw [sub_eq (by omega)]
  simp only [bind, Except.bind, hcount, hslice, Indexed.putSlice, dif_pos hput]
  by_cases hend : g.emitted + count = 512
  · simp only [if_pos hend]
    refine ⟨_, rfl, ?_⟩
    apply settle_state
    · exact hlimit
    · rfl
    · rfl
    · exact id
    intro body hb
    obtain ⟨raw, h⟩ := hpax body hb
    obtain ⟨front, hfront⟩ := h.place
    refine ⟨raw, h.declares, h.nextTrailer, ?_, front, [], ?_, ?_, ?_⟩
    · rw [h.body_nil]
      exact (Nat.zero_add _).trans h.remaining
    · rw [ReadBuf.added_putSlice, hplace front hfront, hend, ← hlen, List.take_length, List.append_nil]
    · rw [h.body_nil, List.take_nil]
    · exact (Nat.zero_add _).trans h.next
  · rw [if_neg hend, if_neg hend]
    dsimp only
    rw [ReadBuf.added_putSlice]
    refine ⟨none, rfl, (fun _ h => by cases h), hlimit, hfilled.le, ?_, fun _ => hfilled, fun h => ?_, fun _ h => ?_,
      fun _ body hb => ?_, fun h => ?_⟩
    · show g.emitted + count < 512
      omega
    · rw [hdata] at h
      cases h
    · have h : g.emitted + count = 0 := h
      omega
    · obtain ⟨raw, h⟩ := hpax body hb
      obtain ⟨front, hfront⟩ := h.place
      exact ⟨raw, h.declares, h.trailer, h.nextTrailer, h.body_nil, h.remaining, h.next, front, hplace front hfront count⟩
    · have h : g.emitted + count = 0 := h
      omega

theorem capture_checked (g : HeaderGuard H R) (bytes : List UInt8) :
    Indexed.capture g bytes = .ok (g.capture bytes) := by
  unfold Indexed.capture capture
  cases g.paxBody with
  | none => rfl
  | some body =>
    dsimp only
    rw [slice_eq (Nat.zero_le _) (Nat.min_le_left _ _),
      sub_eq ((Nat.min_le_right _ _).trans (Nat.min_le_left _ _))]
    rfl

/-- Capturing touches the captured body alone. -/
theorem capture_leaves (g : HeaderGuard H R) (bytes : List UInt8) :
    ∃ body left, g.capture bytes = { g with paxBody := body, paxRemaining := left } ∧ (g.paxBody = none → body = none) := by
  unfold HeaderGuard.capture
  cases hb : g.paxBody with
  | none => exact ⟨g.paxBody, g.paxRemaining, rfl, fun _ => hb⟩
  | some body => exact ⟨_, _, rfl, fun h => by cases h⟩

/-- Captured bytes are the next bytes of the payload. -/
theorem Captured.capture {max raw : Nat} {bytes body : List UInt8} {g : HeaderGuard H R}
    (h : g.Captured max bytes body raw) (hb : g.paxBody = some body) {chunk : List UInt8}
    (hle : chunk.length ≤ g.dataRemaining) :
    ∃ body', (g.capture chunk).paxBody = some body' ∧
      ({ g.capture chunk with dataRemaining := (g.capture chunk).dataRemaining - chunk.length } : HeaderGuard H R).Captured max
        (bytes ++ chunk) body' raw := by
  obtain ⟨front, payload, hbytes, hbody, hlen⟩ := h.place
  have hsum := h.sum
  have hfits : g.paxRemaining ≤ usizeMax := by
    obtain ⟨r, -, hr⟩ := h.declares.size
    have := r.toNat_lt
    simp only [usizeMax]
    omega
  have hleft : g.paxRemaining = raw - payload.length := by
    rw [hbody, List.length_take] at hsum
    omega
  rw [capture_eq g chunk fun _ => hfits]
  simp only [hb, Option.map_some, reduceCtorEq, if_false, Option.some.injEq, exists_eq_left']
  refine ⟨h.declares, h.trailer, ?_, front, payload ++ chunk, ?_, ?_, ?_⟩
  · simp only [List.length_append, List.length_take]
    omega
  · simp only [hbytes, List.append_assoc]
  · rw [List.take_append, ← hbody, hleft]
  · rw [List.length_append]
    show _ + (g.dataRemaining - chunk.length) = _
    omega

/-- The inner reader is no part of what holds between two polls. -/
theorem State.inner {max : Nat} {bytes : List UInt8} {g : HeaderGuard H R} (h : g.State max bytes) (r : R) :
    ({ g with inner := r } : HeaderGuard H R).State max bytes where
  limit := h.limit
  filled_le := h.filled_le
  emitted_lt := h.emitted_lt
  full := h.full
  data := h.data
  trailer := h.trailer
  announced he body hb := by
    obtain ⟨raw, ha⟩ := h.announced he body hb
    exact ⟨raw, ha.declares, ha.trailer, ha.nextTrailer, ha.body_nil, ha.remaining, ha.next, ha.place⟩
  captured he body hb := by
    obtain ⟨hd, raw, hc⟩ := h.captured he body hb
    exact ⟨hd, raw, hc.declares, hc.trailer, hc.sum, hc.place⟩

theorem State.capture_le {max : Nat} {bytes : List UInt8} {g : HeaderGuard H R} (_ : g.State max bytes)
    {chunk : List UInt8} (hle : chunk.length ≤ g.dataRemaining) : chunk.length ≤ (g.capture chunk).dataRemaining := by
  obtain ⟨body, left, hcapture, -⟩ := capture_leaves g chunk
  rw [hcapture]
  exact hle

/-- Payload that was handed out leaves the same kind of state. -/
theorem State.chunk {max : Nat} {bytes : List UInt8} {g : HeaderGuard H R} (h : g.State max bytes)
    (hdata : 0 < g.dataRemaining) {chunk : List UInt8} (hle : chunk.length ≤ g.dataRemaining) :
    let g' : HeaderGuard H R := { g.capture chunk with dataRemaining := (g.capture chunk).dataRemaining - chunk.length }
    (∀ body, Indexed.given g' = some body → Given H max (bytes ++ chunk) body) ∧
      g'.settle.2.State max (bytes ++ chunk) := by
  obtain ⟨hfilled, hemitted⟩ := h.data hdata
  obtain ⟨body, left, hcapture, hnone⟩ := capture_leaves g chunk
  apply settle_state
  · rw [hcapture]
    exact h.limit
  · rw [hcapture]
    exact hfilled
  · rw [hcapture]
    exact hemitted
  · rw [hcapture]
    exact fun ht => h.trailer ht hemitted
  · intro body' hb'
    cases hb : g.paxBody with
    | none =>
      have hb' : (g.capture chunk).paxBody = some body' := hb'
      rw [hcapture, hnone hb] at hb'
      cases hb'
    | some front =>
      obtain ⟨-, raw, hc⟩ := h.captured hemitted front hb
      obtain ⟨body₁, hbody₁, hc'⟩ := hc.capture hb hle
      obtain rfl := Option.some.inj (hbody₁.symm.trans hb')
      exact ⟨raw, hc'⟩

variable [AsyncRead IoError R]

theorem readData_state {max : Nat} {bytes : List UInt8} {g : HeaderGuard H R} (h : g.State max bytes)
    (hdata : 0 < g.dataRemaining) (out : ReadBuf) :
    ∃ given, Indexed.readData g out = .ok (g.readData out, given) ∧
      (∀ body, given = some body → Given H max (bytes ++ out.added (g.readData out).buf) body) ∧
      (g.readData out).reader.State max (bytes ++ out.added (g.readData out).buf) := by
  obtain ⟨hfilled, hemitted⟩ := h.data hdata
  have hidle : bytes ++ out.added out = bytes := by rw [ReadBuf.added_self, List.append_nil]
  cases ho : (pollRead g.inner (out.take (min g.dataRemaining usizeMax))).outcome with
  | pending =>
    simp only [Indexed.readData, readData, ho, hidle]
    exact ⟨none, rfl, (fun _ h => by cases h), h.inner _⟩
  | ready res =>
    cases res with
    | error e =>
      simp only [Indexed.readData, readData, ho, hidle]
      exact ⟨none, rfl, (fun _ h => by cases h), h.inner _⟩
    | ok =>
      have hroom := capacity_pollRead_take g.inner out (min g.dataRemaining usizeMax)
      have hcap := (AsyncRead.grows g.inner (out.take (min g.dataRemaining usizeMax))).1
      have hfits := (pollRead g.inner (out.take (min g.dataRemaining usizeMax))).buf.fits
      rw [hcap, ReadBuf.take_capacity] at hfits
      have hput : (pollRead g.inner (out.take (min g.dataRemaining usizeMax))).buf.filled.length ≤ out.remaining := by
        omega
      have hle : (pollRead g.inner (out.take (min g.dataRemaining usizeMax))).buf.filled.length ≤ g.dataRemaining := by
        omega
      have h' := h.inner (pollRead g.inner (out.take (min g.dataRemaining usizeMax))).reader
      simp only [Indexed.readData, readData, ho, bind, Except.bind, capture_checked, Indexed.putSlice, dif_pos hput,
        ReadBuf.added_advance]
      have hsub := sub_eq (h'.capture_le hle)
      rw [hsub]
      exact ⟨_, rfl, h'.chunk hdata hle⟩

/-- The loop fills the header in as many passes as bytes are missing. -/
theorem fill_checked (fuel : Nat) {g : HeaderGuard H R} (hfuel : 512 - g.filled ≤ fuel) (hfilled : g.filled ≤ 512) :
    Indexed.fill (fuel + 1) g = .ok (g.fill fuel) := by
  induction fuel generalizing g with
  | zero =>
    rw [Indexed.fill, if_neg (by omega)]
    rfl
  | succ fuel ih =>
    rw [Indexed.fill, fill]
    by_cases hf : g.filled < 512
    · rw [if_pos hf, dif_pos hf, sub_eq hfilled]
      simp only [bind, Except.bind]
      cases (pollRead g.inner (.new (512 - g.filled))).outcome with
      | pending => rfl
      | ready res =>
        cases res with
        | error e => rfl
        | ok =>
          have hlen : (pollRead g.inner (.new (512 - g.filled))).buf.filled.length ≤ 512 - g.filled :=
            length_pollRead_new _ _
          dsimp only
          by_cases hnil : (pollRead g.inner (.new (512 - g.filled))).buf.filled = []
          · rw [if_pos hnil, if_pos hnil]
            rfl
          · have hpos := List.length_pos_iff.mpr hnil
            rw [if_neg hnil, if_neg hnil, dif_pos (by omega)]
            apply ih
            · show 512 - (g.filled + _) ≤ fuel
              omega
            · show g.filled + _ ≤ 512
              omega
    · rw [if_neg hf, dif_neg hf]
      rfl

theorem fill_full {g : HeaderGuard H R} (hf : g.filled = 512) (fuel : Nat) : g.fill fuel = (.full, g) := by
  cases fuel with
  | zero => rfl
  | succ fuel => rw [fill, dif_neg (by omega)]

omit [AsyncRead IoError R] in
/-- What checking a header plans. -/
theorem inspect_plans {max : Nat} {g g' : HeaderGuard H R} (hlimit : g.maxMetadataBytes = max) (hpax : g.paxBody = none)
    (hemitted : g.emitted = 0) (htrailer : g.trailer = false) (hnext : g.nextTrailer = false)
    (h : g.inspect = (.ok (), g')) (bytes : List UInt8) :
    g'.maxMetadataBytes = max ∧ g'.filled = g.filled ∧ g'.emitted = 0 ∧ g'.dataRemaining = g.dataRemaining ∧
      ∀ body, g'.paxBody = some body → ∃ raw, g'.Announced max bytes body raw := by
  cases hz : g.header.isZero with
  | true =>
    rw [inspect, if_pos hz] at h
    cases h
    exact ⟨hlimit, rfl, hemitted, rfl, fun body hb => by rw [hpax] at hb; cases hb⟩
  | false =>
    have hspec := inspect_spec g hz
    cases hv : vet H g.maxMetadataBytes g.paxSize g.header with
    | error e =>
      rw [hv] at hspec
      have hspec : g.inspect.1 = .error e := hspec
      rw [h] at hspec
      cases hspec
    | ok e =>
      rw [hv] at hspec
      have hspec := h.symm.trans hspec
      cases hspec
      refine ⟨hlimit, rfl, hemitted, rfl, fun body hb => ?_⟩
      by_cases hflag : g.header.typeflag = 120
      · simp only [hflag, if_true, Option.some.injEq] at hb
        refine ⟨e, hlimit ▸ declares_of_vet hv hflag, htrailer, hnext, hb.symm, if_pos hflag, rfl, bytes, ?_⟩
        simp only [hemitted, List.take_zero, List.append_nil]
      · simp only [hflag, if_false, hpax] at hb
        cases hb

/-- One poll in a state that polls lead to. -/
theorem poll_state {max : Nat} {bytes : List UInt8} {g : HeaderGuard H R} (h : g.State max bytes) (out : ReadBuf) :
    ∃ given, Indexed.poll g out = .ok (g.poll out, given) ∧
      (∀ body, given = some body → Given H max (bytes ++ out.added (g.poll out).buf) body) ∧
      ((∀ e, (g.poll out).outcome ≠ .ready (.error (.own e))) →
        (g.poll out).reader.State max (bytes ++ out.added (g.poll out).buf)) := by
  have hidle : bytes ++ out.added out = bytes := by rw [ReadBuf.added_self, List.append_nil]
  by_cases hroom : out.remaining = 0
  · rw [Indexed.poll, poll, if_pos hroom, if_pos hroom]
    refine ⟨none, rfl, (fun _ h => by cases h), fun _ => ?_⟩
    dsimp only
    rw [hidle]
    exact h
  cases htrailer : g.trailer with
  | true =>
    rw [Indexed.poll, if_neg hroom, if_pos htrailer, poll_passing htrailer hroom]
    refine ⟨none, rfl, (fun _ h => by cases h), fun _ => ?_⟩
    refine ⟨h.limit, h.filled_le, h.emitted_lt, h.full, h.data, h.trailer, fun he body hb => ?_, fun he body hb => ?_⟩
    · obtain ⟨raw, ha⟩ := h.announced he body hb
      exact absurd (htrailer.symm.trans ha.trailer) (by decide)
    · obtain ⟨-, raw, hc⟩ := h.captured he body hb
      exact absurd (htrailer.symm.trans hc.trailer) (by decide)
  | false =>
    by_cases hdata : 0 < g.dataRemaining
    · have hpoll : g.poll out = g.readData out := by
        rw [poll, if_neg hroom, if_neg (by simp [htrailer]), if_pos hdata]
      obtain ⟨given, hread, hgiven, hstate⟩ := readData_state h hdata out
      rw [hpoll, Indexed.poll, if_neg hroom, if_neg (by simp [htrailer]), if_pos hdata]
      exact ⟨given, hread, hgiven, fun _ => hstate⟩
    · have hdata0 : g.dataRemaining = 0 := by omega
      have hpos : 0 < out.remaining := Nat.pos_of_ne_zero hroom
      rw [poll_collecting htrailer hdata0 hroom, Indexed.poll, if_neg hroom, if_neg (by simp [htrailer]), if_neg hdata,
        fill_checked _ (le_refl _) h.filled_le]
      by_cases hemitted : g.emitted = 0
      · have hpax : g.paxBody = none := by
          cases hb : g.paxBody with
          | none => rfl
          | some body => exact absurd (h.captured hemitted body hb).1 hdata
        have hnext := h.trailer htrailer hemitted
        obtain ⟨r, header, f, hleaves, hle, hfull⟩ := fill_leaves (512 - g.filled) (le_refl _) h.filled_le
        have hkeep : ({ g with inner := r, header := header, filled := f } : HeaderGuard H R).State max bytes := by
          refine ⟨h.limit, hle, h.emitted_lt, fun he => ?_, fun hd => absurd hd hdata, h.trailer, fun he => ?_,
            fun _ body hb => ?_⟩
          · exact absurd hemitted (Nat.pos_iff_ne_zero.mp he)
          · exact absurd hemitted (Nat.pos_iff_ne_zero.mp he)
          · exact absurd (hpax.symm.trans hb) nofun
        generalize g.fill (512 - g.filled) = p at hleaves hfull ⊢
        obtain ⟨fl, g₂⟩ := p
        dsimp only at hleaves hfull
        rw [← hleaves] at hkeep
        cases fl with
        | pending => exact ⟨none, rfl, (fun _ h => by cases h), fun _ => by rw [hidle]; exact hkeep⟩
        | failed e => exact ⟨none, rfl, (fun _ h => by cases h), fun _ => by rw [hidle]; exact hkeep⟩
        | eof => exact ⟨none, rfl, (fun _ h => by cases h), fun _ => by rw [hidle]; exact hkeep⟩
        | full =>
          have hfilled : g₂.filled = 512 := by
            rw [hleaves]
            exact hfull.mp rfl
          have hemitted₂ : g₂.emitted = 0 := by
            rw [hleaves]
            exact hemitted
          have hdata₂ : g₂.dataRemaining = 0 := by
            rw [hleaves]
            exact hdata0
          have hpax₂ : g₂.paxBody = none := by
            rw [hleaves]
            exact hpax
          have htrailer₂ : g₂.trailer = false ∧ g₂.nextTrailer = false := by
            rw [hleaves]
            exact ⟨htrailer, hnext⟩
          have hplans := fun g₃ (hi : g₂.inspect = (.ok (), g₃)) =>
            inspect_plans hkeep.limit hpax₂ hemitted₂ htrailer₂.1 htrailer₂.2 hi bytes
          simp only [bind, Except.bind, hemitted₂, if_true]
          generalize g₂.inspect = q at hplans ⊢
          obtain ⟨res, g₃⟩ := q
          cases res with
          | error e => exact ⟨none, rfl, (fun _ h => by cases h), fun hnot => absurd rfl (hnot e)⟩
          | ok =>
            obtain ⟨hlimit, hfilled₃, hemitted₃, hdata₃, hann⟩ := hplans g₃ rfl
            obtain ⟨given, hemit, hgiven, hstate⟩ := emit_state hlimit (hfilled₃.trans hfilled) (by omega)
              (hdata₃.trans hdata₂) hann hpos
            exact ⟨given, hemit, hgiven, fun _ => hstate⟩
      · have hfull := h.full (Nat.pos_of_ne_zero hemitted)
        rw [fill_full hfull]
        simp only [bind, Except.bind, if_neg hemitted]
        obtain ⟨given, hemit, hgiven, hstate⟩ :=
          emit_state h.limit hfull h.emitted_lt hdata0 (h.announced (Nat.pos_of_ne_zero hemitted)) hpos
        exact ⟨given, hemit, hgiven, fun _ => hstate⟩

/-- Any buffer, and any outcome but an error of the guard's own. -/
def NotRefused (_ : ReadBuf) (o : Poll (Except Fault Unit)) : Prop := ∀ e, o ≠ .ready (.error (.own e))

theorem State.of_run {r : R} {max : Nat} {bytes : List UInt8} {g : HeaderGuard H R}
    (hrun : Run HeaderGuard.poll NotRefused (new r max) bytes g) : g.State max bytes := by
  apply hrun.invariant (P := fun bytes g => g.State max bytes) (state_new r max)
  intro bytes g out h ho
  obtain ⟨-, -, -, hstate⟩ := poll_state h out
  exact hstate ho

/-- The guard's representation after any polls without an own error, with any buffers and over
any inner reader: how much of the header is filled and handed out; a captured body is as far as
it goes what the last `x` header declared, within the limit, and no more of it is missing than
payload is planned. One more poll runs without a panic, and what it gives to the record parser
is exactly the declared bytes behind that header, without their padding. -/
theorem guard_representation {r : R} {max : Nat} {bytes : List UInt8} {g : HeaderGuard H R}
    (hrun : Run HeaderGuard.poll NotRefused (new r max) bytes g) :
    g.filled ≤ 512 ∧ g.emitted < 512 ∧ (0 < g.emitted → g.filled = 512) ∧
    (0 < g.dataRemaining → g.filled = 0 ∧ g.emitted = 0) ∧
    (∀ body, g.paxBody = some body → ∃ raw, Declares H max g.header raw ∧ body.length + g.paxRemaining = raw ∧
      body.length ≤ max ∧ (g.emitted = 0 → g.paxRemaining ≤ g.dataRemaining) ∧
      (0 < g.emitted → g.paxRemaining ≤ g.nextData)) ∧
    ∀ out, ∃ given, Indexed.poll g out = .ok (g.poll out, given) ∧
      ∀ body, given = some body → Given H max (bytes ++ out.added (g.poll out).buf) body := by
  have h := State.of_run hrun
  refine ⟨h.filled_le, h.emitted_lt, h.full, h.data, fun body hb => ?_, fun out => ?_⟩
  · by_cases hemitted : g.emitted = 0
    · obtain ⟨-, raw, hc⟩ := h.captured hemitted body hb
      have hle := hc.declares.within
      have hsum := hc.sum
      exact ⟨raw, hc.declares, hsum, by omega, fun _ => hc.remaining_le, fun he => by omega⟩
    · obtain ⟨raw, ha⟩ := h.announced (Nat.pos_of_ne_zero hemitted) body hb
      have hle := le_roundUp raw
      refine ⟨raw, ha.declares, ?_, ?_, fun he => absurd he hemitted, fun _ => ?_⟩
      · rw [ha.body_nil, ha.remaining, List.length_nil, Nat.zero_add]
      · rw [ha.body_nil]
        exact Nat.zero_le _
      · rw [ha.remaining, ha.next]
        exact hle
  · obtain ⟨given, hpoll, hgiven, -⟩ := poll_state h out
    exact ⟨given, hpoll, hgiven⟩

/-- A PAX record is announced, and five bytes of its body are in. -/
theorem guard_representation_sample :
    let inner : Script IoError := ⟨Gnu.resized 48 0, [.late, .give 699, .fail (.simple .interrupted), .give 4]⟩
    ∃ (bytes body : List UInt8) (g : HeaderGuard gnuFields (Script IoError)),
      Run HeaderGuard.poll NotRefused (new inner 100) bytes g ∧ g.paxBody = some body ∧ body.length = 5 ∧
        (∃ raw, Declares gnuFields 100 g.header raw ∧ body.length + g.paxRemaining = raw) ∧
        ∀ out, ∃ given, Indexed.poll g out = .ok (g.poll out, given) := by
  intro inner
  have hfine : ∀ k < 4, refuses (HeaderGuard.poll (after HeaderGuard.poll (fun _ => .new 1024)
      (new inner 100 : HeaderGuard gnuFields (Script IoError)) k).2 (.new 1024)).outcome = false := by decide +kernel
  have hrun : Run HeaderGuard.poll NotRefused _ _ _ := Run.of_after _ _ fun k hk => ne_own_of_refuses (hfine k hk)
  have hcaptured : (after HeaderGuard.poll (fun _ => .new 1024)
      (new inner 100 : HeaderGuard gnuFields (Script IoError)) 4).2.paxBody.any (·.length == 5) = true := by
    decide +kernel
  obtain ⟨body, hbody, hlength⟩ := (Option.any_eq_true _ _).mp hcaptured
  obtain ⟨-, -, -, -, hdeclares, hpolls⟩ := guard_representation hrun
  obtain ⟨raw, hraw, hsum, -⟩ := hdeclares body hbody
  refine ⟨_, body, _, hrun, hbody, eq_of_beq hlength, ⟨raw, hraw, hsum⟩, fun out => ?_⟩
  obtain ⟨given, hpoll, -⟩ := hpolls out
  exact ⟨given, hpoll⟩

end HeaderGuard

end Etar.Guard
