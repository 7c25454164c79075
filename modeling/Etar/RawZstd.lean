import Etar.Compress
import Etar.Sinks
import Mathlib.Order.Lattice.Nat

/-!
# A concrete zstd codec

Frames of raw blocks: what the zstd format allows at the least, and enough to run the models
with the compressed format. The encoder collects its content and writes a frame when it is
shut down; the decoder collects its source and hands out the content once that has ended.
-/
namespace Etar.RawZstd

open AsyncIo Compress

/-- The magic, a frame header descriptor and a window of 1 KiB. -/
def frameHeader : List UInt8 := zstdMagic ++ [0, 0]

/-- The header of a raw block of `n` bytes. -/
def blockHeader (last : Bool) (n : Nat) : List UInt8 :=
  let v := 8 * n + if last then 1 else 0
  [.ofNat (v % 256), .ofNat (v / 256 % 256), .ofNat (v / 65536)]

/-- `k` raw blocks and an empty last one. -/
def blocks : Nat → List UInt8 → List UInt8
  | 0, _ => blockHeader true 0
  | k + 1, s => blockHeader false (s.take 1024).length ++ (s.take 1024 ++ blocks k (s.drop 1024))

/-- One frame. -/
def frame (s : List UInt8) : List UInt8 := frameHeader ++ blocks ((s.length + 1023) / 1024) s

/-- `Stream inside z s`: from inside a frame or between two, `z` are whole frames of raw blocks
with the content `s`. -/
inductive Stream : Bool → List UInt8 → List UInt8 → Prop where
  | done : Stream false [] []
  | opens {z s : List UInt8} (h : Stream true z s) : Stream false (frameHeader ++ z) s
  | block {last : Bool} {payload z s : List UInt8} (hlen : payload.length ≤ 1024) (h : Stream (!last) z s) :
      Stream true (blockHeader last payload.length ++ (payload ++ z)) (payload ++ s)

/-- A block in front of a stream: whether it is the last, what it holds, and the rest. -/
def block : List UInt8 → Option (Bool × List UInt8 × List UInt8)
  | a :: b :: c :: rest =>
    let v := a.toNat + 256 * b.toNat + 65536 * c.toNat
    if v / 2 % 4 = 0 ∧ v / 8 ≤ 1024 ∧ v / 8 ≤ rest.length then
      some (decide (v % 2 = 1), rest.take (v / 8), rest.drop (v / 8))
    else none
  | _ => none

/-- The content of a stream. Every step takes at least three bytes. -/
def decode : Nat → Bool → List UInt8 → Option (List UInt8)
  | 0, _, _ => none
  | fuel + 1, true, z =>
    match block z with
    | none => none
    | some (last, payload, rest) => (decode fuel (!last) rest).map (payload ++ ·)
  | fuel + 1, false, z =>
    if z = [] then some []
    else if frameHeader <+: z then decode fuel true (z.drop 6)
    else none

theorem block_blockHeader {last : Bool} {payload : List UInt8} (hlen : payload.length ≤ 1024) (z : List UInt8) :
    block (blockHeader last payload.length ++ (payload ++ z)) = some (last, payload, z) := by
  have hv : ∀ v, v < 16384 → (UInt8.ofNat (v % 256)).toNat + 256 * (UInt8.ofNat (v / 256 % 256)).toNat +
      65536 * (UInt8.ofNat (v / 65536)).toNat = v := by
    intro v hv
    simp only [UInt8.toNat_ofNat']
    omega
  have hvalue := hv (8 * payload.length + if last then 1 else 0) (by split <;> omega)
  have hshape : 8 * payload.length + (if last then 1 else 0) = 8 * payload.length + last.toNat := by
    cases last <;> rfl
  have hlast := last.toNat_le
  simp only [blockHeader, List.cons_append, List.nil_append, block, hvalue]
  rw [hshape, show (8 * payload.length + last.toNat) / 8 = payload.length by omega,
    show (8 * payload.length + last.toNat) / 2 % 4 = 0 by omega,
    if_pos ⟨rfl, hlen, by rw [List.length_append]; omega⟩, List.take_left, List.drop_left,
    show (8 * payload.length + last.toNat) % 2 = last.toNat by omega]
  cases last <;> rfl

theorem length_blockHeader (last : Bool) (n : Nat) : (blockHeader last n).length = 3 := rfl

theorem decode_stream {inside : Bool} {z s : List UInt8} (h : Stream inside z s) {fuel : Nat} (hfuel : z.length < fuel) :
    decode fuel inside z = some s := by
  induction h generalizing fuel with
  | done =>
    cases fuel with
    | zero => cases hfuel
    | succ fuel => rfl
  | @opens z s h ih =>
    cases fuel with
    | zero => cases hfuel
    | succ fuel =>
      have hlen : frameHeader.length = 6 := rfl
      rw [List.length_append, hlen] at hfuel
      rw [decode, if_neg (by simp [frameHeader, zstdMagic]), if_pos (List.prefix_append _ _), ← hlen, List.drop_left]
      exact ih (by omega)
  | @block last payload z s hpay h ih =>
    cases fuel with
    | zero => cases hfuel
    | succ fuel =>
      simp only [List.length_append, length_blockHeader] at hfuel
      rw [decode, block_blockHeader hpay]
      simp only [ih (show z.length < fuel by omega), Option.map_some]

/-- Blocks in front of other frames. -/
theorem stream_blocks (k : Nat) {s z t : List UInt8} (hk : s.length ≤ 1024 * k) (h : Stream false z t) :
    Stream true (blocks k s ++ z) (s ++ t) := by
  induction k generalizing s with
  | zero =>
    obtain rfl := List.length_eq_zero_iff.mp (Nat.le_zero.mp hk)
    have hlast : Stream true (blockHeader true ([] : List UInt8).length ++ ([] ++ z)) ([] ++ t) :=
      .block (Nat.zero_le _) h
    exact hlast
  | succ k ih =>
    have hdrop : (s.drop 1024).length ≤ 1024 * k := by
      rw [List.length_drop]
      omega
    have hnext := ih hdrop
    have htake : (s.take 1024).length ≤ 1024 := List.length_take_le ..
    have hblock : Stream true (blockHeader false (s.take 1024).length ++ (s.take 1024 ++ (blocks k (s.drop 1024) ++ z)))
        (s.take 1024 ++ (s.drop 1024 ++ t)) := .block htake hnext
    rw [← List.append_assoc (s.take 1024) (s.drop 1024), List.take_append_drop] at hblock
    rw [blocks, List.append_assoc, List.append_assoc]
    exact hblock

theorem stream_frame (s : List UInt8) {z t : List UInt8} (h : Stream false z t) : Stream false (frame s ++ z) (s ++ t) := by
  rw [frame, List.append_assoc]
  exact .opens (stream_blocks _ (by omega) h)

theorem stream_frames (parts : List (List UInt8)) : Stream false (parts.flatMap frame) parts.flatten := by
  induction parts with
  | nil => exact .done
  | cons s parts ih =>
    rw [List.flatMap_cons, List.flatten_cons]
    exact stream_frame s ih

/-- `z` is a whole encoding of `s`. -/
def Frame (s z : List UInt8) : Prop := zstdMagic <+: z ∧ Stream false z s

theorem frame_frames {parts : List (List UInt8)} (hne : parts ≠ []) : Frame parts.flatten (parts.flatMap frame) := by
  refine ⟨?_, stream_frames parts⟩
  obtain ⟨s, rest, rfl⟩ := List.exists_cons_of_ne_nil hne
  rw [List.flatMap_cons, frame, frameHeader]
  simp only [List.append_assoc]
  exact List.prefix_append _ _

section Encoding

/-- What the encoder has taken, in closed frames and since, and what it has written of the
closed ones. -/
structure Filling where
  closed : List (List UInt8)
  opened : List UInt8
  sent : List UInt8
  queue : List UInt8
  split : sent ++ queue = closed.flatMap frame

namespace Filling

/-- Close the frame, if there is one to close. -/
def close (f : Filling) : Filling :=
  if f.opened = [] ∧ f.closed ≠ [] then f
  else
    { closed := f.closed ++ [f.opened]
      opened := []
      sent := f.sent
      queue := f.queue ++ frame f.opened
      split := by rw [← List.append_assoc, f.split, List.flatMap_append, List.flatMap_singleton] }

/-- The sink took `n` bytes. -/
def advance (f : Filling) (n : Nat) : Filling :=
  { f with
    sent := f.sent ++ f.queue.take n
    queue := f.queue.drop n
    split := by rw [List.append_assoc, List.take_append_drop, f.split] }

/-- Write all that is queued, then shut the sink down. -/
def emit : Nat → Filling → Calls IoError (Poll (Except IoError Unit) × Filling)
  | 0, f => .shutdown fun o => .answer (o, f)
  | n + 1, f =>
    if f.queue = [] then .shutdown fun o => .answer (o, f)
    else .write f.queue fun
      | .pending => .answer (.pending, f)
      | .ready (.error e) => .answer (.ready (.error e), f)
      | .ready (.ok k) =>
        if k = 0 then .answer (.ready (.error (.simple .writeZero)), f) else emit n (f.advance k)

def content (f : Filling) : List UInt8 := f.closed.flatten ++ f.opened

theorem content_close (f : Filling) : f.close.content = f.content ∧ f.close.sent = f.sent ∧
    f.close.opened = [] ∧ f.close.closed ≠ [] := by
  unfold close content
  split
  · rename_i h
    exact ⟨rfl, rfl, h⟩
  · simp

/-- What emitting from `f₀` on ends with: when it succeeds, nothing is queued and the sink was
shut down last. -/
structure Emitted (f₀ : Filling) (log : List (Call IoError)) (p : Poll (Except IoError Unit) × Filling) : Prop where
  blames : Blames log (.shutdown p.1)
  sent : p.2.sent = f₀.sent ++ accepted log
  closed : p.2.closed = f₀.closed
  opened : p.2.opened = f₀.opened
  ok : p.1 = .ready (.ok ()) → p.2.queue = [] ∧ log.getLast? = some (.shutdown (.ready (.ok ())))

theorem emitted_shutdown {f f₀ : Filling} {log : List (Call IoError)} (hq : f.queue = [])
    (hsent : f.sent = f₀.sent ++ accepted log) (hclosed : f.closed = f₀.closed) (hopened : f.opened = f₀.opened)
    (o : Poll (Except IoError Unit)) : Emitted f₀ (log ++ [.shutdown o]) (o, f) where
  blames := ⟨fun hl => ⟨.shutdown o, by simp, hl⟩, fun hf => ⟨.shutdown o, by simp, hf⟩⟩
  sent := by rw [accepted_append, accepted_singleton, Call.accepted_shutdown, List.append_nil, hsent]
  closed := hclosed
  opened := hopened
  ok h := ⟨hq, by rw [List.getLast?_concat, show o = .ready (.ok ()) from h]⟩

/-- A write that took nothing ends the poll as it went. -/
theorem emitted_write {f f₀ : Filling} {log : List (Call IoError)} {o : Poll (Except IoError Nat)}
    {answer : Poll (Except IoError Unit)} (hsent : f.sent = f₀.sent ++ accepted log) (hclosed : f.closed = f₀.closed)
    (hopened : f.opened = f₀.opened) (hnone : taken f.queue o = []) (hlate : answer = .pending → o = .pending)
    (hfaulty : answer ≠ .pending → (Call.write f.queue o).Faulty) (hnot : answer ≠ .ready (.ok ())) :
    Emitted f₀ (log ++ [.write f.queue o]) (answer, f) where
  blames := by
    have hmem : Call.write f.queue o ∈ log ++ [.write f.queue o] := List.mem_append_right _ List.mem_cons_self
    refine ⟨fun hl => ⟨_, hmem, hlate hl⟩, ?_⟩
    rintro ⟨e, he⟩
    have he : answer = .ready (.error e) := he
    exact ⟨_, hmem, hfaulty (by rw [he]; simp)⟩
  sent := by rw [accepted_append, accepted_singleton, Call.accepted_write, hnone, List.append_nil, hsent]
  closed := hclosed
  opened := hopened
  ok h := absurd h hnot

/-- Emitting writes all that is queued, whatever the sink takes at a time. -/
theorem every_emit (n : Nat) {f f₀ : Filling} {log : List (Call IoError)} (hn : f.queue.length ≤ n)
    (hsent : f.sent = f₀.sent ++ accepted log) (hclosed : f.closed = f₀.closed) (hopened : f.opened = f₀.opened) :
    (emit n f).Every (Emitted f₀) log := by
  induction n generalizing f log with
  | zero =>
    have hq : f.queue = [] := List.length_eq_zero_iff.mp (Nat.le_zero.mp hn)
    exact fun o => emitted_shutdown hq hsent hclosed hopened o
  | succ n ih =>
    unfold emit
    split
    · rename_i hq
      exact fun o => emitted_shutdown hq hsent hclosed hopened o
    · rename_i hq
      intro o hle
      cases o with
      | pending => exact emitted_write hsent hclosed hopened rfl (fun _ => rfl) (fun h => absurd rfl h) (by simp)
      | ready res =>
        cases res with
        | error e =>
          exact emitted_write hsent hclosed hopened rfl (fun h => by cases h) (fun _ => Or.inl ⟨e, rfl⟩) (by simp)
        | ok k =>
          dsimp only
          split
          · rename_i h0
            subst h0
            exact emitted_write hsent hclosed hopened rfl (fun h => by cases h) (fun _ => Or.inr ⟨hq, rfl⟩) (by simp)
          · have hpos := List.length_pos_iff.mpr hq
            refine ih ?_ ?_ hclosed hopened
            · simp only [advance, List.length_drop]
              omega
            · simp only [advance, hsent, accepted_append, accepted_singleton, Call.accepted_write, taken_ok,
                List.append_assoc]

end Filling

/-- The encoder of frames. -/
def encoder : Encoder where
  State := Filling
  new := ⟨[], [], [], [], rfl⟩
  write f bytes := .answer (.ready (.ok bytes.length), { f with opened := f.opened ++ bytes })
  flush f := .flush fun o => .answer (o, f)
  shutdown f := Filling.emit f.close.queue.length f.close
  accepts f bytes n h := by
    cases h
    exact le_refl _

def encodes : encoder.Encodes Frame where
  content := Filling.content
  encoded := Filling.sent
  opens := ⟨rfl, rfl⟩
  write f bytes := by
    refine ⟨⟨fun h => (by cases h), fun h => ?_⟩, ?_, ?_⟩
    · rcases h with ⟨e, he⟩ | ⟨hne, h0⟩
      · cases he
      · simp only [Poll.ready.injEq, Except.ok.injEq, List.length_eq_zero_iff] at h0
        exact absurd h0 hne
    · simp
    · simp [Filling.content]
  flush f o := ⟨⟨fun h => ⟨.flush o, by simp, h⟩, fun h => ⟨.flush o, by simp, h⟩⟩, by simp, rfl⟩
  shutdown f := by
    obtain ⟨hcontent, hsent, hopened, hne⟩ := f.content_close
    have hemit : (Filling.emit f.close.queue.length f.close).Every (Filling.Emitted f.close) [] :=
      Filling.every_emit _ (le_refl _) (by simp) rfl rfl
    refine hemit.imp ?_
    rintro log ⟨o, f'⟩ h
    have hs : f'.sent = f.close.sent ++ accepted log := h.sent
    have hc : f'.closed = f.close.closed := h.closed
    have ho : f'.opened = f.close.opened := h.opened
    have hcontent' : f'.content = f.content := by
      rw [← hcontent]
      unfold Filling.content
      rw [hc, ho]
    refine ⟨h.blames, by rw [hs, hsent], hcontent', fun hok => ?_⟩
    obtain ⟨hq, hlast⟩ := h.ok hok
    refine ⟨?_, hlast⟩
    have hq : f'.queue = [] := hq
    have hsplit := f'.split
    rw [hq, List.append_nil] at hsplit
    have hflat : f'.content = f'.closed.flatten := by
      unfold Filling.content
      rw [ho, hopened, List.append_nil]
    show Frame f'.content f'.sent
    rw [hflat, hsplit]
    exact frame_frames (by rwa [hc])

end Encoding

section Decoding

/-- An error of the decoder's own. -/
def corrupt : IoError := .foreign .other "corrupt frame"

/-- What the decoder makes of an encoding: its content, or the error that it has none. -/
def unpack (z : List UInt8) : List UInt8 × Option IoError :=
  match decode (z.length + 1) false z with
  | some s => (s, none)
  | none => ([], some corrupt)

/-- The decoder over its source: what it has of the encoding, then what is left of the
content. -/
inductive Unpacking (X : Type) where
  | taking (inner : X) (got : List UInt8)
  | giving (inner : X) (rest : List UInt8)
  | broken (inner : X)

namespace Unpacking

variable {X : Type}

def inner : Unpacking X → X
  | taking inner _ => inner
  | giving inner _ => inner
  | broken inner => inner

/-- Hand out of the content what fits. -/
def give (inner : X) (rest : List UInt8) (buf : ReadBuf) : Polled IoError (Unpacking X) :=
  ⟨.ready (.ok ()), buf.putSlice (rest.take buf.remaining) (List.length_take_le ..), giving inner (rest.drop buf.remaining)⟩

variable [AsyncRead IoError X]

def poll (u : Unpacking X) (buf : ReadBuf) : Polled IoError (Unpacking X) :=
  match u with
  | giving inner rest => give inner rest buf
  | broken inner => ⟨.ready (.error corrupt), buf, broken inner⟩
  | taking inner got =>
    let p := pollRead inner (.new 8192)
    match p.outcome with
    | .ready (.ok ()) =>
      if p.buf.filled = [] then
        match decode (got.length + 1) false got with
        | some content => give p.reader content buf
        | none => ⟨.ready (.error corrupt), buf, broken p.reader⟩
      else ⟨.pending, buf, taking p.reader (got ++ p.buf.filled)⟩
    | other => ⟨other, buf, taking p.reader got⟩

instance : AsyncRead IoError (Unpacking X) where
  pollRead := poll
  grows u buf := by
    unfold poll
    split
    · exact ⟨rfl, List.prefix_append _ _⟩
    · exact ReadBuf.Grows.refl buf
    · dsimp only
      split
      · split
        · split
          · exact ⟨rfl, List.prefix_append _ _⟩
          · exact ReadBuf.Grows.refl buf
        · exact ReadBuf.Grows.refl buf
      · exact ReadBuf.Grows.refl buf

end Unpacking

/-- The decoder of frames. -/
def decoder (X : Type) [AsyncRead IoError X] : Decoder X where
  Reader := Unpacking X
  read := inferInstance
  new inner := .taking inner []
  inner := Unpacking.inner

namespace Unpacking

variable {X : Type} [AsyncRead IoError X]

/-- One poll while the source lasts, and at its end. -/
inductive Polls (inner : X) (got : List UInt8) (buf : ReadBuf) : Polled IoError (Unpacking X) → Prop where
  | took (ho : (pollRead inner (.new 8192)).outcome = .ready (.ok ())) (hne : (pollRead inner (.new 8192)).buf.filled ≠ []) :
      Polls inner got buf ⟨.pending, buf,
        taking (pollRead inner (.new 8192)).reader (got ++ (pollRead inner (.new 8192)).buf.filled)⟩
  | ended (ho : (pollRead inner (.new 8192)).outcome = .ready (.ok ())) (hnil : (pollRead inner (.new 8192)).buf.filled = [])
      {content : List UInt8} (hcontent : decode (got.length + 1) false got = some content) :
      Polls inner got buf (give (pollRead inner (.new 8192)).reader content buf)
  | failed (ho : (pollRead inner (.new 8192)).outcome = .ready (.ok ())) (hnil : (pollRead inner (.new 8192)).buf.filled = [])
      (hcontent : decode (got.length + 1) false got = none) :
      Polls inner got buf ⟨.ready (.error corrupt), buf, broken (pollRead inner (.new 8192)).reader⟩
  | other (ho : (pollRead inner (.new 8192)).outcome ≠ .ready (.ok ())) :
      Polls inner got buf ⟨(pollRead inner (.new 8192)).outcome, buf, taking (pollRead inner (.new 8192)).reader got⟩

theorem polls (inner : X) (got : List UInt8) (buf : ReadBuf) : Polls inner got buf (pollRead (taking inner got) buf) := by
  show Polls inner got buf (poll (taking inner got) buf)
  simp only [poll]
  split
  · rename_i ho
    split
    · rename_i hnil
      split
      · rename_i content hcontent
        exact .ended ho hnil hcontent
      · rename_i hcontent
        exact .failed ho hnil hcontent
    · rename_i hne
      exact .took ho hne
  · rename_i ho
    exact .other ho

omit [AsyncRead IoError X] in
/-- Handing out the content: in order, and to its end. -/
theorem give_spec (inner : X) (rest : List UInt8) {buf : ReadBuf} (hb : 0 < buf.remaining) :
    rest = buf.added (give inner rest buf).buf ++ rest.drop buf.remaining ∧
      (buf.added (give inner rest buf).buf = [] → rest.drop buf.remaining = []) := by
  simp only [give, ReadBuf.added_putSlice, List.take_append_drop, true_and]
  intro h
  rcases List.take_eq_nil_iff.mp h with h0 | h0
  · omega
  · rw [h0, List.drop_nil]

theorem room : 0 < (ReadBuf.new 8192).remaining := by decide

/-- A source that reported its end owes nothing. -/
theorem nil_of_ended (K : Feed IoError X) {inner : X} {z : List UInt8} (hin : K.Owes inner z none)
    (ho : (pollRead inner (.new 8192)).outcome = .ready (.ok ())) (hnil : (pollRead inner (.new 8192)).buf.filled = []) :
    z = [] := by
  obtain ⟨z', hz, -, hend⟩ := K.chunk hin room ho
  rw [ReadBuf.added_new] at hz hend
  rw [hz, hnil, (hend hnil).1, List.append_nil]

variable (K : Feed IoError X)

/-- Over a feed of an encoding the decoder owes its content, or the error that it has none. -/
def feed : Feed IoError (Unpacking X) where
  Owes u s stop := match u with
    | taking inner got => ∃ z, K.Owes inner z none ∧ unpack (got ++ z) = (s, stop)
    | giving _ rest => rest = s ∧ stop = none
    | broken _ => s = [] ∧ stop = some corrupt
  pending {u s stop buf} h hb ho := by
    cases u with
    | giving inner rest => cases ho
    | broken inner => cases ho
    | taking inner got =>
      obtain ⟨z, hin, hs⟩ := h
      have hp := polls inner got buf
      generalize pollRead (taking inner got) buf = p at hp ho
      cases hp with
      | took hok hne =>
        obtain ⟨z', hz, hin', -⟩ := K.chunk hin room hok
        rw [ReadBuf.added_new] at hz
        exact ⟨rfl, z', hin', by rw [List.append_assoc, ← hz]; exact hs⟩
      | ended hok hnil hcontent => cases ho
      | failed hok hnil hcontent => cases ho
      | other hnot => exact ⟨rfl, z, (K.pending hin room ho).2, hs⟩
  chunk {u s stop buf} h hb ho := by
    cases u with
    | giving inner rest =>
      obtain ⟨rfl, rfl⟩ := h
      obtain ⟨hs, hnil⟩ := give_spec inner rest hb
      exact ⟨_, hs, ⟨rfl, rfl⟩, fun h => ⟨hnil h, rfl⟩⟩
    | broken inner => cases ho
    | taking inner got =>
      obtain ⟨z, hin, hs⟩ := h
      have hp := polls inner got buf
      generalize pollRead (taking inner got) buf = p at hp ho
      cases hp with
      | took hok hne => cases ho
      | @ended hok hnil content hcontent =>
        rw [nil_of_ended K hin hok hnil, List.append_nil, unpack, hcontent] at hs
        obtain ⟨rfl, rfl⟩ := Prod.mk.inj hs
        obtain ⟨hs', hnil'⟩ := give_spec (pollRead inner (.new 8192)).reader content hb
        exact ⟨_, hs', ⟨rfl, rfl⟩, fun h => ⟨hnil' h, rfl⟩⟩
      | failed hok hnil hcontent => cases ho
      | other hnot => exact absurd ho hnot
  fault {u s stop buf e} h hb ho := by
    cases u with
    | giving inner rest => cases ho
    | broken inner =>
      obtain ⟨rfl, rfl⟩ := h
      cases ho
      exact Or.inr ⟨rfl, ReadBuf.added_self buf⟩
    | taking inner got =>
      obtain ⟨z, hin, hs⟩ := h
      have hp := polls inner got buf
      generalize pollRead (taking inner got) buf = p at hp ho
      cases hp with
      | took hok hne => cases ho
      | ended hok hnil hcontent => cases ho
      | failed hok hnil hcontent =>
        rw [nil_of_ended K hin hok hnil, List.append_nil, unpack, hcontent] at hs
        cases hs
        cases ho
        exact Or.inr ⟨rfl, ReadBuf.added_self buf⟩
      | other hnot => exact Or.inl ⟨rfl, z, (K.fault_clean hin room ho).2, hs⟩

variable {K}

/-- The least that a source can still owe. -/
noncomputable def still (K : Feed IoError X) (x : X) : Nat := sInf { n | ∃ z, K.Owes x z none ∧ z.length = n }

theorem still_le {x : X} {z : List UInt8} (h : K.Owes x z none) : still K x ≤ z.length := Nat.sInf_le ⟨z, h, rfl⟩

theorem still_attained {x : X} {z : List UInt8} (h : K.Owes x z none) :
    ∃ z', K.Owes x z' none ∧ z'.length = still K x :=
  Nat.sInf_mem (s := { n | ∃ z, K.Owes x z none ∧ z.length = n }) ⟨_, z, h, rfl⟩

/-- The decoder's errors come without bytes. -/
theorem hushed (stop : Option IoError) : (feed K).Hushed stop := by
  intro u s buf e h hb ho
  cases u with
  | giving inner rest => cases ho
  | broken inner => rfl
  | taking inner got =>
    have hp := polls inner got buf
    generalize pollRead (taking inner got) buf = p at hp ho ⊢
    cases hp with
    | took hok hne => rfl
    | ended hok hnil hcontent => cases ho
    | failed hok hnil hcontent => rfl
    | other hnot => rfl

/-- While the encoding is taken its source is polled on; the content is handed out after its end. -/
def Reached (inner : X) : Unpacking X → Prop
  | taking inner' _ => ∀ x, EofSince inner' x → EofSince inner x
  | giving inner' _ => EofSince inner inner'
  | broken inner' => EofSince inner inner'

theorem Reached.poll {inner : X} {u : Unpacking X} (h : Reached inner u) {buf : ReadBuf} :
    Reached inner (pollRead u buf).reader := by
  cases u with
  | giving inner' rest => exact h
  | broken inner' => exact h
  | taking inner' got =>
    have hp := polls inner' got buf
    generalize pollRead (taking inner' got) buf = p at hp
    cases hp with
    | took hok hne => exact fun x hx => h x (.later _ room hx)
    | ended hok hnil hcontent => exact h _ (.of_nil room hok hnil)
    | failed hok hnil hcontent => exact h _ (.of_nil room hok hnil)
    | other hnot => exact fun x hx => h x (.later _ room hx)

theorem Reached.handed {inner : X} {u : Unpacking X} {bytes : List UInt8} (h : Handed (taking inner []) bytes u) :
    Reached inner u := by
  induction h with
  | start => exact fun _ => id
  | idle _ _ _ _ ih => exact ih.poll
  | chunk _ _ _ _ ih => exact ih.poll

/-- An answer without an error comes after the end of the source. -/
theorem Reached.eofSince {inner : X} {u : Unpacking X} (h : Reached inner u) {buf : ReadBuf}
    (ho : (pollRead u buf).outcome = .ready (.ok ())) : EofSince inner (pollRead u buf).reader.inner := by
  cases u with
  | giving inner' rest => exact h
  | broken inner' => cases ho
  | taking inner' got =>
    have hp := polls inner' got buf
    generalize pollRead (taking inner' got) buf = p at hp ho
    cases hp with
    | took hok hne => cases ho
    | ended hok hnil hcontent => exact h _ (.of_nil room hok hnil)
    | failed hok hnil hcontent => cases ho
    | other hnot => exact absurd ho hnot

theorem faultless (hK : K.Faultless) : (feed K).Faultless := by
  constructor
  intro u s stop buf e h hb ho
  cases u with
  | giving inner rest => cases ho
  | broken inner =>
    obtain ⟨rfl, rfl⟩ := h
    cases ho
    exact ⟨rfl, ReadBuf.added_self buf⟩
  | taking inner got =>
    obtain ⟨z, hin, hs⟩ := h
    have hp := polls inner got buf
    generalize pollRead (taking inner got) buf = p at hp ho
    cases hp with
    | took hok hne => cases ho
    | ended hok hnil hcontent => cases ho
    | failed hok hnil hcontent =>
      rw [nil_of_ended K hin hok hnil, List.append_nil, unpack, hcontent] at hs
      cases hs
      cases ho
      exact ⟨rfl, ReadBuf.added_self buf⟩
    | other hnot => cases (hK.fault hin room ho).1

noncomputable def fair (P : K.Fair) (hK : K.Faultless) : (feed K).Fair where
  delay
    | taking inner _ => P.delay inner + still K inner
    | _ => 0
  pending {u s stop buf} h hb ho := by
    cases u with
    | giving inner rest => cases ho
    | broken inner => cases ho
    | taking inner got =>
      obtain ⟨z, hin, hs⟩ := h
      obtain ⟨z₀, hin₀, hlen⟩ := still_attained hin
      have hp := polls inner got buf
      generalize pollRead (taking inner got) buf = p at hp ho
      cases hp with
      | took hok hne =>
        obtain ⟨z', hz, hin', -⟩ := K.chunk hin₀ room hok
        rw [ReadBuf.added_new] at hz
        have hpos := List.length_pos_iff.mpr hne
        have hle := still_le hin'
        have hdelay := P.chunk hin room hok
        have hsum := congrArg List.length hz
        rw [List.length_append] at hsum
        show P.delay _ + _ < P.delay _ + _
        omega
      | ended hok hnil hcontent => cases ho
      | failed hok hnil hcontent => cases ho
      | other hnot =>
        have hlt := P.pending hin room ho
        have hle := still_le (K.pending hin₀ room ho).2
        show P.delay _ + _ < P.delay _ + _
        omega
  chunk {u s stop buf} h hb ho := by
    cases u with
    | giving inner rest => exact le_refl _
    | broken inner => cases ho
    | taking inner got =>
      have hp := polls inner got buf
      generalize pollRead (taking inner got) buf = p at hp ho
      cases hp with
      | took hok hne => cases ho
      | ended hok hnil hcontent => exact Nat.zero_le _
      | failed hok hnil hcontent => cases ho
      | other hnot => exact absurd ho hnot
  fault h hb ho := Or.inr ((faultless hK).fault h hb ho)

end Unpacking

/-- What the decoder makes of an encoding does not depend on how that arrives. -/
noncomputable def computes {R : Type} [AsyncRead IoError R] (F : Feed IoError R) :
    (decoder (Replay R)).Computes unpack F where
  feed := Unpacking.feed (replayFeed F)
  opens howes _ := ⟨_, howes, rfl⟩
  hushed := Unpacking.hushed
  fair P hF := Unpacking.fair (replayFair P) (replayFeed_faultless hF)
  faultless hF := Unpacking.faultless (replayFeed_faultless hF)

theorem reads_to_end {R : Type} [AsyncRead IoError R] : (decoder (Replay R)).ReadsToEnd := by
  rintro b bytes z ⟨u, buf, h, -, ho, -, rfl⟩
  exact (Unpacking.Reached.handed h).eofSince ho

/-- The decoder undoes the encoder. -/
theorem unpack_frame {s z : List UInt8} (h : Frame s z) : unpack z = (s, none) := by
  rw [unpack, decode_stream h.2 (Nat.lt_succ_self _)]

end Decoding

end Etar.RawZstd
