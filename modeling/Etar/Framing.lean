import Etar.Tar
import Etar.Pax
import Etar.Scan

/-!
# What is assumed of the tar parser

`TarFormat` is what the parser makes of complete records; `Phase` is how far it is in the
stream. `Tar.Frames` assumes that the parser's state follows the phases: it consumes each
record in full and no more, ends at a zero block or at the end of the source on a record
boundary, unless extension records there have no member, fails a body that the source ends
in, and hands errors of the source on. `Tar.ofFormat` is a parser that does so.
-/
namespace Etar

open AsyncIo
open Guard (isExtension)

/-- What the parser makes of complete records. `Ext` is what the extension records before a
member said; a member's payload length is the pending PAX size or its own raw size. -/
structure TarFormat (H : HeaderFields) where
  Ext : Type
  start : Ext
  /-- Accept a header, and its payload length. -/
  size : Ext → Block → Except IoError Nat
  /-- Accept the payload of an extension record. -/
  extend : Ext → Block → List UInt8 → Except IoError Ext
  /-- Accept a member. -/
  entry : Ext → Block → Except IoError TarEntry
  /-- The error for extension records that no member follows. -/
  dangling : Ext → Option IoError
  /-- The `size` value of the local PAX record among the extensions. -/
  paxSize : Ext → Option Nat
  size_extension : ∀ {x h n r}, size x h = .ok n → isExtension h.typeflag = true → H.size h = some r → n = r.toNat
  size_member : ∀ {x h n r}, size x h = .ok n → isExtension h.typeflag = false → H.size h = some r →
    n = (paxSize x).getD r.toNat
  paxSize_start : paxSize start = none
  paxSize_pax : ∀ {x h body x' p}, extend x h body = .ok x' → h.typeflag = 120 →
    Pax.parsePaxSize body = .ok p → paxSize x' = p
  paxSize_keep : ∀ {x h body x'}, extend x h body = .ok x' → h.typeflag ≠ 120 → paxSize x' = paxSize x
  dangling_start : dangling start = none
  dangling_extend : ∀ {x h body x'}, extend x h body = .ok x' → dangling x' ≠ none

/-- How far a parser is in its stream. -/
inductive Phase (X : Type) where
  /-- `got` is the front of a header. -/
  | header (x : X) (got : List UInt8)
  /-- `got` is the front of an extension record's payload and padding. -/
  | payload (x : X) (h : Block) (len : Nat) (got : List UInt8)
  /-- A member is to be handed out; its body has `len` bytes. -/
  | yielding (entry : TarEntry) (len : Nat)
  /-- A member was handed out; so much of its body and padding is left. -/
  | member (left pad : Nat)
  | failed (e : IoError)
  | ended

namespace Phase

variable {H : HeaderFields} (F : TarFormat H)

def after (len : Nat) : Phase F.Ext :=
  if roundUp len = 0 then .header F.start [] else .member len (roundUp len - len)

/-- An extension record is complete. -/
def closed (x : F.Ext) (h : Block) (body : List UInt8) : Phase F.Ext :=
  match F.extend x h body with
  | .error e => .failed e
  | .ok x' => .header x' []

def stopped (x : F.Ext) : Phase F.Ext :=
  match F.dangling x with
  | some e => .failed e
  | none => .ended

/-- A header is complete. -/
def opened (x : F.Ext) (h : Block) : Phase F.Ext :=
  if h.isZero then stopped F x
  else
    match F.size x h with
    | .error e => .failed e
    | .ok len =>
      if isExtension h.typeflag then
        if roundUp len = 0 then closed F x h [] else .payload x h len []
      else
        match F.entry x h with
        | .error e => .failed e
        | .ok entry => .yielding entry len

def need : Phase F.Ext → Nat
  | header _ got => 512 - got.length
  | payload _ _ len got => roundUp len - got.length
  | member left pad => left + pad
  | _ => 0

def eat (bytes : List UInt8) : Phase F.Ext → Phase F.Ext
  | header x got =>
    if h : (got ++ bytes).length = 512 then opened F x ⟨got ++ bytes, h⟩ else header x (got ++ bytes)
  | payload x h len got =>
    if (got ++ bytes).length = roundUp len then closed F x h ((got ++ bytes).take len)
    else payload x h len (got ++ bytes)
  | member left pad =>
    if bytes.length = left + pad then header F.start []
    else member (left - bytes.length) (pad - (bytes.length - left))
  | φ => φ

/-- The source ended: the stream ends here only on a record boundary. -/
def atEof (e : IoError) : Phase F.Ext → Phase F.Ext
  | header x [] => stopped F x
  | yielding entry len => yielding entry len
  | failed e => failed e
  | ended => ended
  | _ => failed e

theorem atEof_cases {φ : Phase F.Ext} (hn : 0 < φ.need F) (e : IoError) :
    (∃ x, φ = .header x [] ∧ φ.atEof F e = .ended) ∨ ∃ e', φ.atEof F e = .failed e' := by
  cases φ with
  | header x got =>
    cases got with
    | nil =>
      cases hx : F.dangling x with
      | some e' => exact Or.inr ⟨e', by simp only [atEof, stopped, hx]⟩
      | none => exact Or.inl ⟨x, rfl, by simp only [atEof, stopped, hx]⟩
    | cons b bs => exact Or.inr ⟨e, rfl⟩
  | payload | member => exact Or.inr ⟨e, rfl⟩
  | yielding | failed | ended => exact absurd hn (Nat.lt_irrefl 0)

/-- A phase between two reads: what it collects is not yet complete. -/
def Good : Phase F.Ext → Prop
  | header _ got => got.length < 512
  | payload _ _ len got => got.length < roundUp len
  | member left pad => 0 < left + pad
  | _ => True

def left {X : Type} : Phase X → Nat
  | member left _ => left
  | _ => 0

@[simp] theorem left_after (len : Nat) : (after F len).left = len := by
  unfold after
  split
  · rename_i h
    have := le_roundUp len
    simp only [left]
    omega
  · rfl

theorem good_after (len : Nat) : (after F len).Good F := by
  unfold after
  split
  · simp [Good]
  · have := le_roundUp len
    simp only [Good]
    omega

theorem good_closed (x : F.Ext) (h : Block) (body : List UInt8) : (closed F x h body).Good F := by
  unfold closed
  split
  · trivial
  · simp [Good]

theorem stopped_of_none {x : F.Ext} (h : F.dangling x = none) : stopped F x = .ended := by
  rw [stopped, h]

theorem good_stopped (x : F.Ext) : (stopped F x).Good F := by
  unfold stopped
  split <;> trivial

theorem good_opened (x : F.Ext) (h : Block) : (opened F x h).Good F := by
  unfold opened
  split
  · exact good_stopped F x
  · split
    · trivial
    · rename_i len _
      split
      · split
        · exact good_closed F x h []
        · show 0 < roundUp len
          omega
      · split <;> trivial

theorem eat_header_lt {x : F.Ext} {got bytes : List UInt8} (h : got.length + bytes.length < 512) :
    (header x got : Phase F.Ext).eat F bytes = header x (got ++ bytes) :=
  dif_neg (by rw [List.length_append]; omega)

theorem eat_header_full {x : F.Ext} {got bytes : List UInt8} (h : (got ++ bytes).length = 512) :
    (header x got : Phase F.Ext).eat F bytes = opened F x ⟨got ++ bytes, h⟩ :=
  dif_pos h

theorem eat_payload_lt {x : F.Ext} {h : Block} {len : Nat} {got bytes : List UInt8}
    (hl : got.length + bytes.length < roundUp len) :
    (payload x h len got : Phase F.Ext).eat F bytes = payload x h len (got ++ bytes) :=
  if_neg (by rw [List.length_append]; omega)

theorem eat_payload_full {x : F.Ext} {h : Block} {len : Nat} {got bytes : List UInt8}
    (hl : got.length + bytes.length = roundUp len) :
    (payload x h len got : Phase F.Ext).eat F bytes = closed F x h ((got ++ bytes).take len) :=
  if_pos (by rw [List.length_append]; exact hl)

theorem eat_member_lt {left pad : Nat} {bytes : List UInt8} (hl : bytes.length < left + pad) :
    (member left pad : Phase F.Ext).eat F bytes =
      member (left - bytes.length) (pad - (bytes.length - left)) :=
  if_neg (by omega)

theorem eat_member_full {left pad : Nat} {bytes : List UInt8} (hl : bytes.length = left + pad) :
    (member left pad : Phase F.Ext).eat F bytes = header F.start [] :=
  if_pos hl

theorem good_eat {φ : Phase F.Ext} {bytes : List UInt8} (hg : φ.Good F) (hl : bytes.length ≤ φ.need F) :
    (φ.eat F bytes).Good F := by
  cases φ with
  | header x got =>
    simp only [need, Good] at hl hg
    by_cases h : got.length + bytes.length < 512
    · rw [eat_header_lt F h]
      show (got ++ bytes).length < 512
      rwa [List.length_append]
    · rw [eat_header_full F (by rw [List.length_append]; omega)]
      exact good_opened F x _
  | payload x h len got =>
    simp only [need, Good] at hl hg
    by_cases h' : got.length + bytes.length < roundUp len
    · rw [eat_payload_lt F h']
      show (got ++ bytes).length < roundUp len
      rwa [List.length_append]
    · rw [eat_payload_full F (by omega)]
      exact good_closed F x h _
  | member left pad =>
    simp only [need] at hl
    by_cases h : bytes.length < left + pad
    · rw [eat_member_lt F h]
      show 0 < left - bytes.length + (pad - (bytes.length - left))
      omega
    · rw [eat_member_full F (by omega)]
      show ([] : List UInt8).length < 512
      decide
  | yielding | failed | ended => trivial

theorem need_pos {φ : Phase F.Ext} (hg : φ.Good F) (hy : ∀ entry len, φ ≠ .yielding entry len)
    (hf : ∀ e, φ ≠ .failed e) (he : φ ≠ .ended) : 0 < φ.need F := by
  cases φ with
  | header x got =>
    simp only [need, Good] at *
    omega
  | payload x h len got =>
    simp only [need, Good] at *
    omega
  | member left pad => exact hg
  | yielding entry len => exact absurd rfl (hy entry len)
  | failed e => exact absurd rfl (hf e)
  | ended => exact absurd rfl he

theorem need_eat {φ : Phase F.Ext} {bytes : List UInt8} (hl : bytes.length < φ.need F) :
    (φ.eat F bytes).need F = φ.need F - bytes.length := by
  cases φ with
  | header x got =>
    simp only [need] at hl
    rw [eat_header_lt F (by omega)]
    simp only [need, List.length_append]
    omega
  | payload x h len got =>
    simp only [need] at hl
    rw [eat_payload_lt F (by omega)]
    simp only [need, List.length_append]
    omega
  | member left pad =>
    simp only [need] at hl
    rw [eat_member_lt F hl]
    simp only [need]
    omega
  | yielding | failed | ended => exact absurd hl (Nat.not_lt_zero _)

theorem eat_eat {φ : Phase F.Ext} {bytes : List UInt8} (hl : bytes.length < φ.need F) (bytes' : List UInt8) :
    (φ.eat F bytes).eat F bytes' = φ.eat F (bytes ++ bytes') := by
  cases φ with
  | header x got =>
    simp only [need] at hl
    rw [eat_header_lt F (by omega)]
    simp only [eat, List.append_assoc]
  | payload x h len got =>
    simp only [need] at hl
    rw [eat_payload_lt F (by omega)]
    simp only [eat, List.append_assoc]
  | member left pad =>
    simp only [need] at hl
    rw [eat_member_lt F hl]
    simp only [eat, List.length_append]
    by_cases h' : bytes.length + bytes'.length = left + pad
    · rw [if_pos (by omega), if_pos h']
    · rw [if_neg (by omega), if_neg h']
      congr 1 <;> omega
  | yielding | failed | ended => exact absurd hl (Nat.not_lt_zero _)

end Phase

/-- The parser `T` follows the phases. -/
structure Tar.Frames (T : Tar) {H : HeaderFields} (F : TarFormat H) where
  phase : T.State → Phase F.Ext
  opens : ∃ s, T.entries = some s ∧ phase s = .header F.start []
  /-- It never asks for more than the phase needs. -/
  ask_read : ∀ {s}, 0 < (phase s).need F → ∃ n, T.ask s = .read n ∧ 0 < n ∧ n ≤ (phase s).need F
  ask_entry : ∀ {s entry len}, phase s = .yielding entry len →
    T.ask s = .item (some (.ok entry)) ∧ phase (T.taken s) = .after F len
  ask_failed : ∀ {s e}, phase s = .failed e → T.ask s = .item (some (.error e))
  ask_ended : ∀ {s}, phase s = .ended → T.ask s = .item none ∧ T.release (T.taken s) = true
  fed_bytes : ∀ {s bytes}, bytes ≠ [] → bytes.length ≤ (phase s).need F →
    phase (T.fed s (.ok bytes)) = (phase s).eat F bytes
  fed_eof : ∀ {s}, 0 < (phase s).need F → ∃ e, phase (T.fed s (.ok [])) = (phase s).atEof F e
  fed_fault : ∀ {s e}, 0 < (phase s).need F → phase (T.fed s (.error e)) = .failed e
  /-- A body poll asks for at most the rest of the body. -/
  body_ask : ∀ {s left pad room}, phase s = .member left pad → 0 < left → 0 < room →
    ∃ n, T.bodyAsk s room = some n ∧ 0 < n ∧ n ≤ left
  body_end : ∀ {s room}, (∃ pad, phase s = .member 0 pad) ∨ phase s = .header F.start [] →
    T.bodyAsk s room = none
  body_bytes : ∀ {s left pad bytes}, phase s = .member left pad → bytes ≠ [] → bytes.length ≤ left →
    phase (T.bodyFed s (.ok bytes)) = (phase s).eat F bytes
  body_eof : ∀ {s left pad}, phase s = .member left pad → 0 < left → phase (T.bodyFed s (.ok [])) = phase s
  body_cut : ∀ {s left pad}, phase s = .member left pad → 0 < left → ∃ e, T.bodyCut s = .error e

/-- The parser whose state is its phase. -/
def Tar.ofFormat {H : HeaderFields} (F : TarFormat H) : Tar where
  State := Phase F.Ext
  entries := some (.header F.start [])
  ask
    | .yielding entry _ => .item (some (.ok entry))
    | .failed e => .item (some (.error e))
    | .ended => .item none
    | φ => .read (φ.need F)
  fed φ
    | .ok [] => φ.atEof F (.simple .unexpectedEof)
    | .ok bytes => φ.eat F bytes
    | .error e => .failed e
  taken
    | .yielding _ len => .after F len
    | φ => φ
  bodyAsk
    | .member left _, _ => if left = 0 then none else some left
    | _, _ => none
  bodyFed φ
    | .ok [] => φ
    | .ok bytes => φ.eat F bytes
    | .error _ => φ
  bodyCut _ := .error (.simple .unexpectedEof)
  release _ := true

def Tar.framesOfFormat {H : HeaderFields} (F : TarFormat H) : (Tar.ofFormat F).Frames F where
  phase φ := φ
  opens := ⟨_, rfl, rfl⟩
  ask_read {φ} hn := by
    refine ⟨_, ?_, hn, le_refl _⟩
    cases φ with
    | header | payload | member => rfl
    | yielding | failed | ended => exact absurd hn (Nat.lt_irrefl 0)
  ask_entry h := by
    subst h
    exact ⟨rfl, rfl⟩
  ask_failed h := by
    subst h
    rfl
  ask_ended h := by
    subst h
    exact ⟨rfl, rfl⟩
  fed_bytes {φ bytes} hne _ := by
    cases bytes with
    | nil => exact absurd rfl hne
    | cons b bs => rfl
  fed_eof _ := ⟨_, rfl⟩
  fed_fault _ := rfl
  body_ask {φ left pad room} h hl _ := by
    subst h
    exact ⟨left, if_neg (Nat.ne_of_gt hl), hl, le_refl _⟩
  body_end h := by
    rcases h with ⟨pad, rfl⟩ | rfl
    · rfl
    · rfl
  body_bytes {φ left pad bytes} _ hne _ := by
    cases bytes with
    | nil => exact absurd rfl hne
    | cons b bs => rfl
  body_eof _ _ := rfl
  body_cut _ _ := ⟨_, rfl⟩

end Etar
