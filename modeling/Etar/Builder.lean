import Etar.AsyncSink
import Etar.Entry
import Etar.Header

/-!
# The tar builder as a parameter

The crate drives a tar builder it does not own. `Builder` is what it sees of it: header
setters, and calls that ask for body bytes and hand bytes to the sink. `drive` polls one
call. What is assumed of the bytes is in `Packing` and `Builder.Packs`: a call writes the
records of a member, or the two zero blocks, in order and in full, or fails.
-/
namespace Etar

open AsyncIo

/-- The text of a header's 100-byte link field. -/
structure LinkField where
  text : List UInt8
  short : text.length ≤ 100
  clean : 0 ∉ text
  deriving DecidableEq

/-- What is set on a `tokio_tar::Header`. -/
structure Header where
  mode : UInt32
  uid : UInt64
  gid : UInt64
  mtime : UInt64
  entryType : EntryType
  size : UInt64
  linkName : LinkField
  deriving DecidableEq

def LinkField.empty : LinkField := ⟨[], Nat.zero_le 100, List.not_mem_nil⟩

/-- `Header::new_gnu`. -/
def Header.newGnu : Header := ⟨0, 0, 0, 0, .regular, 0, .empty⟩

/-- What the builder wants next: bytes of the body, a call on its sink, or to return. -/
inductive Want where
  | read (n : Nat)
  | write (bytes : List UInt8)
  | flush
  | done (result : Except IoError Unit)

/-- `tokio_tar::Builder`, less its sink. -/
structure Builder where
  State : Type
  new : State
  /-- `append_data` of a member with that header and path is called. -/
  appendData : State → Header → List UInt8 → State
  /-- `into_inner` is called. -/
  intoInner : State → State
  want : State → Want
  /-- The answer to a read; no bytes mean the end of the body. -/
  fed : State → Except IoError (List UInt8) → State
  wrote : State → Except IoError Nat → State
  flushed : State → Except IoError Unit → State
  /-- `Header::set_link_name`: what the link field then holds. -/
  setLinkName : List UInt8 → Except IoError LinkField

structure At (B : Builder) (R W : Type) where
  state : B.State
  body : R
  sink : W

structure Driven (B : Builder) (R W : Type) where
  result : Await (Except IoError Unit)
  rest : At B R W
  left : Nat

namespace Builder

variable (B : Builder) {R W : Type} [AsyncRead IoError R] [AsyncWrite IoError W]

def turn (p : At B R W) : At B R W :=
  match B.want p.state with
  | .done _ => p
  | .read n =>
    let q := pollRead p.body (.new n)
    { p with
      body := q.reader
      state := match q.outcome with
        | .pending => p.state
        | .ready (.error e) => B.fed p.state (.error e)
        | .ready (.ok ()) => B.fed p.state (.ok q.buf.filled) }
  | .write bytes =>
    let q := pollWrite p.sink bytes
    { p with
      sink := q.2
      state := match q.1 with
        | .pending => p.state
        | .ready res => B.wrote p.state res }
  | .flush =>
    let q := pollFlush p.sink
    { p with
      sink := q.2
      state := match q.1 with
        | .pending => p.state
        | .ready res => B.flushed p.state res }

/-- A call of the builder, given up after `polls` polls of the body and the sink. -/
def drive : Nat → At B R W → Driven B R W
  | polls, p =>
    match B.want p.state with
    | .done res => ⟨.done res, p, polls⟩
    | _ =>
      match polls with
      | 0 => ⟨.cancelled, p, 0⟩
      | polls + 1 => drive polls (B.turn p)

theorem drive_done {p : At B R W} {res : Except IoError Unit} (h : B.want p.state = .done res) (polls : Nat) :
    B.drive polls p = ⟨.done res, p, polls⟩ := by
  cases polls <;> simp [drive, h]

theorem drive_succ {p : At B R W} (h : ∀ res, B.want p.state ≠ .done res) (polls : Nat) :
    B.drive (polls + 1) p = B.drive polls (B.turn p) := by
  rw [drive]
  split
  · rename_i res hres
    exact absurd hres (h res)
  · rfl

theorem drive_invariant {P : At B R W → Prop} (hturn : ∀ p, P p → P (B.turn p)) (polls : Nat) {p : At B R W}
    (h : P p) : P (B.drive polls p).rest ∧
      ∀ res, (B.drive polls p).result = .done res → B.want (B.drive polls p).rest.state = .done res := by
  induction polls generalizing p with
  | zero =>
    rw [drive]
    split
    · rename_i res hres
      exact ⟨h, fun res' h' => by cases h'; exact hres⟩
    · exact ⟨h, fun res' h' => by cases h'⟩
  | succ polls ih =>
    cases hw : B.want p.state with
    | done res =>
      rw [drive_done B hw]
      exact ⟨h, fun res' h' => by cases h'; exact hw⟩
    | _ =>
      rw [drive_succ B (by simp [hw])]
      exact ih (hturn p h)

theorem drive_more (k : Nat) {polls : Nat} {p : At B R W} (h : (B.drive polls p).result ≠ .cancelled) :
    B.drive (polls + k) p = { B.drive polls p with left := (B.drive polls p).left + k } := by
  induction polls generalizing p with
  | zero =>
    rw [drive] at h
    split at h
    · rename_i res hres
      rw [drive_done B hres, drive_done B hres]
    · exact absurd rfl h
  | succ polls ih =>
    cases hw : B.want p.state with
    | done res => rw [drive_done B hw, drive_done B hw]
    | _ =>
      have hnot : ∀ res, B.want p.state ≠ .done res := by simp [hw]
      rw [drive_succ B hnot] at h
      rw [Nat.add_right_comm, drive_succ B hnot, drive_succ B hnot]
      exact ih h

end Builder

def padding (len : Nat) : List UInt8 := List.replicate (roundUp len - len) 0

theorem length_padding (len : Nat) : (padding len).length = roundUp len - len := List.length_replicate ..

theorem length_append_padding (body : List UInt8) : (body ++ padding body.length).length = roundUp body.length := by
  have := le_roundUp body.length
  rw [List.length_append, length_padding]
  omega

@[simp] theorem padding_zero : padding 0 = [] := rfl

/-- The two zero blocks that end an archive. -/
def terminators : List UInt8 := List.replicate 1024 0

theorem terminators_eq : terminators = Block.zero.bytes ++ List.replicate 512 0 := by
  rw [terminators, show 1024 = 512 + 512 from rfl, List.replicate_add]
  rfl

/-- How far a builder is with a call. -/
inductive Packing where
  /-- So much is to be written before the body is read. -/
  | head (rest : List UInt8)
  /-- The body is copied: `held` was read and not yet written, `count` bytes were read in all. -/
  | copy (held : List UInt8) (count : Nat)
  /-- So much is to be written, and no more read; nothing, between two calls. -/
  | tail (rest : List UInt8)
  | failed (e : IoError)

namespace Packing

/-- What a phase may ask for. -/
inductive Wants : Packing → Want → Prop where
  | head {bytes rest : List UInt8} (hne : bytes ≠ []) (hp : bytes <+: rest) : Wants (.head rest) (.write bytes)
  | copy {bytes held : List UInt8} {count : Nat} (hne : bytes ≠ []) (hp : bytes <+: held) :
      Wants (.copy held count) (.write bytes)
  | tail {bytes rest : List UInt8} (hne : bytes ≠ []) (hp : bytes <+: rest) : Wants (.tail rest) (.write bytes)
  | read {held : List UInt8} {count n : Nat} (hn : 0 < n) : Wants (.copy held count) (.read n)
  | flush (φ : Packing) : Wants φ .flush
  | finished : Wants (.tail []) (.done (.ok ()))
  | failed (e : IoError) : Wants (.failed e) (.done (.error e))

def put (n : Nat) : Packing → Packing
  | head rest => if rest.length ≤ n then copy [] 0 else head (rest.drop n)
  | copy held count => copy (held.drop n) count
  | tail rest => tail (rest.drop n)
  | failed e => failed e

def get (bytes : List UInt8) : Packing → Packing
  | copy held count =>
    if bytes = [] then tail (held ++ padding count) else copy (held ++ bytes) (count + bytes.length)
  | φ => φ

/-- With `hd` in front of the body, `out` was written and `body` read so far. -/
def Covers (hd : List UInt8) : Packing → List UInt8 → List UInt8 → Prop
  | head rest, out, body => out ++ rest = hd ∧ body = []
  | copy held count, out, body => out ++ held = hd ++ body ∧ count = body.length
  | tail rest, out, body => out ++ rest = hd ++ body ++ padding body.length
  | failed _, _, _ => True

theorem Covers.put {hd out body bytes : List UInt8} {φ : Packing} {n : Nat} (h : φ.Covers hd out body)
    (hw : φ.Wants (.write bytes)) (hn : n ≤ bytes.length) : (φ.put n).Covers hd (out ++ bytes.take n) body := by
  have htake : ∀ {rest : List UInt8}, bytes <+: rest → out ++ bytes.take n ++ rest.drop n = out ++ rest := by
    rintro rest ⟨more, rfl⟩
    rw [List.drop_append_of_le_length hn, List.append_assoc, ← List.append_assoc (bytes.take n),
      List.take_append_drop]
  cases hw with
  | @head _ rest hne hp =>
    have hall := htake hp
    simp only [Packing.put]
    split
    · rename_i hle
      rw [List.drop_eq_nil_of_le hle, h.1] at hall
      refine ⟨?_, by rw [h.2]; rfl⟩
      rw [hall, h.2, List.append_nil]
    · exact ⟨hall.trans h.1, h.2⟩
  | copy hne hp => exact ⟨(htake hp).trans h.1, h.2⟩
  | tail hne hp => exact (htake hp).trans h

theorem Covers.get {hd out body : List UInt8} {φ : Packing} {n : Nat} (h : φ.Covers hd out body)
    (hw : φ.Wants (.read n)) (bytes : List UInt8) : (φ.get bytes).Covers hd out (body ++ bytes) := by
  cases hw with
  | read hn =>
    obtain ⟨hout, rfl⟩ := h
    simp only [Packing.get]
    split
    · rename_i hnil
      rw [hnil, List.append_nil]
      show out ++ (_ ++ _) = _
      rw [← List.append_assoc, hout]
    · refine ⟨?_, by rw [List.length_append]⟩
      rw [← List.append_assoc, hout, List.append_assoc]

/-- What is at most still to be written and read with `left` bytes of the body to come. -/
def toDo (left : Nat) : Packing → Nat
  | head rest => rest.length + 2 * left + 514
  | copy held _ => held.length + 2 * left + 513
  | tail rest => rest.length
  | failed _ => 0

theorem toDo_put {φ : Packing} {bytes : List UInt8} {n left : Nat} (hw : φ.Wants (.write bytes)) (hn : 0 < n) :
    (φ.put n).toDo left < φ.toDo left := by
  cases hw with
  | head hne hp =>
    have hlen := hp.length_le
    have hpos := List.length_pos_iff.mpr hne
    simp only [put]
    split
    · simp only [toDo, List.length_nil]
      omega
    · simp only [toDo, List.length_drop]
      omega
  | copy hne hp =>
    have hlen := hp.length_le
    have hpos := List.length_pos_iff.mpr hne
    simp only [put, toDo, List.length_drop]
    omega
  | tail hne hp =>
    have hlen := hp.length_le
    have hpos := List.length_pos_iff.mpr hne
    simp only [put, toDo, List.length_drop]
    omega

theorem toDo_get {φ : Packing} {bytes : List UInt8} {n left : Nat} (hw : φ.Wants (.read n)) :
    (φ.get bytes).toDo left < φ.toDo (bytes.length + left) := by
  cases hw with
  | @read held count n hn =>
    simp only [get]
    split
    · have := roundUp_le count
      simp only [toDo, List.length_append, length_padding]
      omega
    · rename_i hne
      have := List.length_pos_iff.mpr hne
      simp only [toDo, List.length_append]
      omega

end Packing

/-- What the tar crate writes: headers, and names as its records carry them. -/
structure Coding where
  /-- A path as the records carry it; an error when they cannot. -/
  setPath : List UInt8 → Except IoError (List UInt8)
  /-- The header block of a member with that path. -/
  block : Header → List UInt8 → Block
  /-- The header block of the `L` record with a long path. -/
  longName : List UInt8 → Block

def Coding.longRecord (C : Coding) (path : List UInt8) : List UInt8 :=
  (C.longName path).bytes ++ ((path ++ [0]) ++ padding (path.length + 1))

def Coding.head (C : Coding) (header : Header) (path : List UInt8) : List UInt8 :=
  if path.length ≤ 100 then (C.block header path).bytes else C.longRecord path ++ (C.block header path).bytes

theorem Coding.head_ne_nil (C : Coding) (header : Header) (path : List UInt8) : C.head header path ≠ [] := by
  have hlen := (C.block header path).length_bytes
  intro hnil
  simp only [head] at hnil
  split at hnil
  · rw [hnil] at hlen
    cases hlen
  · rw [(List.append_eq_nil_iff.mp hnil).2] at hlen
    cases hlen

/-- The builder `B` writes what `C` says. -/
structure Builder.Packs (B : Builder) (C : Coding) where
  phase : B.State → Packing
  opens : phase B.new = .tail []
  append : ∀ {s header path}, phase s = .tail [] → phase (B.appendData s header path) =
    match C.setPath path with
    | .ok path => .head (C.head header path)
    | .error e => .failed e
  inner : ∀ {s}, phase s = .tail [] → phase (B.intoInner s) = .tail terminators
  wants : ∀ s, (phase s).Wants (B.want s)
  fed_bytes : ∀ {s n}, B.want s = .read n → ∀ bytes, phase (B.fed s (.ok bytes)) = (phase s).get bytes
  fed_fault : ∀ {s n}, B.want s = .read n → ∀ e, phase (B.fed s (.error e)) = .failed e
  wrote_bytes : ∀ {s bytes}, B.want s = .write bytes → ∀ n, 0 < n → n ≤ bytes.length →
    phase (B.wrote s (.ok n)) = (phase s).put n
  wrote_none : ∀ {s bytes}, B.want s = .write bytes → ∃ e, phase (B.wrote s (.ok 0)) = .failed e
  wrote_fault : ∀ {s bytes}, B.want s = .write bytes → ∀ e, phase (B.wrote s (.error e)) = .failed e
  flushed_ok : ∀ {s}, B.want s = .flush → phase (B.flushed s (.ok ())) = phase s
  flushed_fault : ∀ {s}, B.want s = .flush → ∀ e, phase (B.flushed s (.error e)) = .failed e
  /-- How often it still flushes before it does anything else. -/
  flushes : B.State → Nat
  flushed_less : ∀ {s}, B.want s = .flush → flushes (B.flushed s (.ok ())) < flushes s

def Packing.Proper (φ : Packing) : Prop := φ ≠ .head []

theorem Packing.proper_put {φ : Packing} (n : Nat) (h : φ.Proper) : (φ.put n).Proper := by
  cases φ with
  | head rest =>
    simp only [put]
    split
    · simp [Proper]
    · rename_i hlt
      simpa [Proper] using hlt
  | _ => simp [Proper, put]

theorem Packing.proper_get {φ : Packing} (bytes : List UInt8) (h : φ.Proper) : (φ.get bytes).Proper := by
  cases φ with
  | copy held count =>
    simp only [get]
    split <;> simp [Proper]
  | _ => exact h

/-- The builder whose state is its phase. It writes all it has, and reads when it has nothing
to write. -/
def Builder.ofCoding (C : Coding) (setLinkName : List UInt8 → Except IoError LinkField) : Builder where
  State := { φ : Packing // φ.Proper }
  new := ⟨.tail [], by simp [Packing.Proper]⟩
  appendData _ header path :=
    match C.setPath path with
    | .ok path => ⟨.head (C.head header path), by simpa [Packing.Proper] using C.head_ne_nil header path⟩
    | .error e => ⟨.failed e, by simp [Packing.Proper]⟩
  intoInner _ := ⟨.tail terminators, by simp [Packing.Proper]⟩
  want s :=
    match s.1 with
    | .head rest => .write rest
    | .copy held _ => if held = [] then .read 8192 else .write held
    | .tail rest => if rest = [] then .done (.ok ()) else .write rest
    | .failed e => .done (.error e)
  fed s
    | .ok bytes => ⟨s.1.get bytes, Packing.proper_get bytes s.2⟩
    | .error e => ⟨.failed e, by simp [Packing.Proper]⟩
  wrote s
    | .ok n =>
      if n = 0 then ⟨.failed (.simple .writeZero), by simp [Packing.Proper]⟩
      else ⟨s.1.put n, Packing.proper_put n s.2⟩
    | .error e => ⟨.failed e, by simp [Packing.Proper]⟩
  flushed s
    | .ok () => s
    | .error e => ⟨.failed e, by simp [Packing.Proper]⟩
  setLinkName := setLinkName

theorem Builder.want_ofCoding {C : Coding} {setLinkName : List UInt8 → Except IoError LinkField}
    (s : (Builder.ofCoding C setLinkName).State) : (Builder.ofCoding C setLinkName).want s ≠ .flush := by
  obtain ⟨φ, h⟩ := s
  simp only [Builder.ofCoding]
  split
  · simp
  · split <;> simp
  · split <;> simp
  · simp

def Builder.packsOfCoding (C : Coding) (setLinkName : List UInt8 → Except IoError LinkField) :
    (Builder.ofCoding C setLinkName).Packs C where
  phase s := s.1
  opens := rfl
  append {s header path} _ := by
    simp only [Builder.ofCoding]
    cases C.setPath path <;> rfl
  inner _ := rfl
  wants s := by
    obtain ⟨φ, h⟩ := s
    simp only [Builder.ofCoding]
    cases φ with
    | head rest => exact .head (by rintro rfl; exact h rfl) (List.prefix_refl rest)
    | copy held count =>
      dsimp only
      split
      · exact .read (by decide)
      · rename_i hne
        exact .copy hne (List.prefix_refl held)
    | tail rest =>
      dsimp only
      split
      · rename_i hnil
        rw [hnil]
        exact .finished
      · rename_i hne
        exact .tail hne (List.prefix_refl rest)
    | failed e => exact .failed e
  fed_bytes _ _ := rfl
  fed_fault _ _ := rfl
  wrote_bytes _ n hn _ := by
    simp only [Builder.ofCoding]
    rw [if_neg (Nat.ne_of_gt hn)]
  wrote_none _ := ⟨_, rfl⟩
  wrote_fault _ _ := rfl
  flushed_ok _ := rfl
  flushed_fault _ _ := rfl
  flushes _ := 0
  flushed_less {s} h := absurd h (Builder.want_ofCoding s)

end Etar
