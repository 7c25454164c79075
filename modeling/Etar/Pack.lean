import Etar.Builder

/-!
# Packing one entry

`pack` turns an entry into one call of the tar builder: a header with the entry's metadata,
and for a file a body that has to yield exactly the declared size. Every other kind is a
header alone.
-/
namespace Etar

open AsyncIo

/-- One entry to pack. -/
structure PackEntry (R : Type) where
  path : SafePath
  info : Meta
  size : UInt64
  body : Option R

/-- Yields exactly `remaining` bytes; `mismatch` is the flag it borrows from its caller. -/
structure Exact (R : Type) where
  inner : R
  remaining : Nat
  mismatch : Bool

/-- What packing an entry leaves behind. -/
structure Packed (B : Builder) (W : Type) where
  result : Await (Except Error Unit)
  state : B.State
  sink : W

/-- The header common to every kind. -/
def baseHeader (info : Meta) : Header :=
  { Header.newGnu with
    mode := info.mode
    uid := info.uid.toUInt64
    gid := info.gid.toUInt64
    mtime := info.mtimeUnixSecs }

/-- A read error standing for a body that did not match its declared size. -/
def lengthMismatch : IoError := .foreign .invalidData "body length mismatch"

def Exact.new {R : Type} (inner : R) (len : Nat) : Exact R := ⟨inner, len, false⟩

variable {R : Type} [AsyncRead IoError R]

/-- `Exact::poll_read`. -/
def Exact.poll (e : Exact R) (buf : ReadBuf) : Polled IoError (Exact R) :=
  if e.remaining = 0 then ⟨.ready (.ok ()), buf, e⟩
  else
    let p := pollRead e.inner buf
    let read := (buf.added p.buf).length
    match p.outcome with
    | .ready (.ok ()) =>
      if read = 0 then ⟨.ready (.error lengthMismatch), p.buf, { e with inner := p.reader, mismatch := true }⟩
      else if e.remaining < read then
        ⟨.ready (.error lengthMismatch), p.buf.setFilled (buf.filled.length + e.remaining),
          { e with inner := p.reader, mismatch := true }⟩
      else ⟨.ready (.ok ()), p.buf, { e with inner := p.reader, remaining := e.remaining - read }⟩
    | other => ⟨other, p.buf, { e with inner := p.reader }⟩

theorem Exact.grows_poll (e : Exact R) (buf : ReadBuf) : buf.Grows (e.poll buf).buf := by
  have hg := AsyncRead.grows e.inner buf
  unfold Exact.poll
  split
  · exact ReadBuf.Grows.refl buf
  · dsimp only
    split
    · split_ifs
      · exact hg
      · refine ⟨hg.1, ?_⟩
        rw [ReadBuf.setFilled_filled, hg.filled_eq, List.take_length_add_append]
        exact List.prefix_append _ _
      · exact hg
    · exact hg

instance : AsyncRead IoError (Exact R) where
  pollRead := Exact.poll
  grows := Exact.grows_poll

/-- `tokio::io::empty`. -/
structure Empty where
  deriving DecidableEq

instance : AsyncRead IoError Empty where
  pollRead r buf := ⟨.ready (.ok ()), buf, r⟩
  grows _ buf := ReadBuf.Grows.refl buf

variable {B : Builder} {W : Type} [AsyncWrite IoError W]

/-- Stream a file body of exactly `size` bytes into the archive. -/
def appendFile (polls : Nat) (state : B.State) (sink : W) (header : Header) (path : SafePath) (size : UInt64)
    (body : Option R) : Packed B W :=
  let header := { header with entryType := .regular, size := size }
  match body with
  | none => ⟨.done (.error .missingBody), state, sink⟩
  | some body =>
    let d := B.drive polls ⟨B.appendData state header path.bytes, Exact.new body size.toNat, sink⟩
    let result : Await (Except Error Unit) :=
      match d.result with
      | .cancelled => .cancelled
      | .done result =>
        if d.rest.body.mismatch then .done (.error .bodyLengthMismatch)
        else
          match result with
          | .error e => .done (.error (.io e))
          | .ok () =>
            match (read 1 d.left d.rest.body.inner).1 with
            | .cancelled => .cancelled
            | .done (.error e) => .done (.error (.io e))
            | .done (.ok extra) => .done (if extra.length ≠ 0 then .error .bodyLengthMismatch else .ok ())
    ⟨result, d.rest.state, d.rest.sink⟩

/-- Append a bodyless entry, setting a link target when present. -/
def appendMeta (polls : Nat) (state : B.State) (sink : W) (header : Header) (path : SafePath) (kind : EntryType)
    (link : Option (List UInt8)) : Packed B W :=
  let header := { header with entryType := kind, size := 0 }
  let linked : Except IoError Header :=
    match link with
    | none => .ok header
    | some target => (B.setLinkName target).map fun field => { header with linkName := field }
  match linked with
  | .error e => ⟨.done (.error (.io e)), state, sink⟩
  | .ok header =>
    let d := B.drive polls ⟨B.appendData state header path.bytes, Empty.mk, sink⟩
    let result : Await (Except Error Unit) :=
      match d.result with
      | .cancelled => .cancelled
      | .done result => .done (result.mapError .io)
    ⟨result, d.rest.state, d.rest.sink⟩

/-- Append one entry, streaming a file body or emitting a metadata-only record. -/
def pack (polls : Nat) (state : B.State) (sink : W) (entry : PackEntry R) : Packed B W :=
  if entry.info.kind ≠ .file ∧ (entry.size ≠ 0 ∨ entry.body.isSome) then
    ⟨.done (.error .nonFilePayload), state, sink⟩
  else
    let header := baseHeader entry.info
    match entry.info.kind with
    | .file => appendFile polls state sink header entry.path entry.size entry.body
    | .dir => appendMeta polls state sink header entry.path .directory none
    | .symlink target => appendMeta polls state sink header entry.path .symlink (some target)
    | .hardlink target => appendMeta polls state sink header entry.path .link (some target)

end Etar
