import Etar.Pack

/-!
# The archive writer

A `Writer` packs entries one after the other, straight into its sink or through a zstd
encoder, and counts what the sink takes. A call that fails or is dropped before its end
leaves the writer poisoned: `append` and `finish` then refuse.
-/
namespace Etar

open AsyncIo

/-- Output encoding. -/
inductive Format where
  | tar
  | tarZstd
  deriving DecidableEq, Repr

/-- A checked entry supplied to a writer. -/
structure WriteEntry (R : Type) where
  inner : PackEntry R
  checked : (inner.info.kind = .file ∧ inner.body.isSome) ∨
    (inner.info.kind ≠ .file ∧ inner.size = 0 ∧ inner.body = none)

/-- A regular file with an exact declared body length. -/
def WriteEntry.file {R : Type} (path : SafePath) (info : Meta) (size : UInt64) (body : R) :
    Except Error (WriteEntry R) :=
  if h : info.kind = .file then .ok ⟨⟨path, info, size, some body⟩, Or.inl ⟨h, rfl⟩⟩
  else .error .invalidEntryKind

/-- A directory or link without a body. -/
def WriteEntry.metadata (path : SafePath) (info : Meta) : Except Error (WriteEntry Empty) :=
  if h : info.kind = .file then .error .invalidEntryKind
  else .ok ⟨⟨path, info, 0, none⟩, Or.inr ⟨h, rfl, rfl⟩⟩

/-- `u64::saturating_add`. -/
def saturatingAdd (a b : Nat) : Nat := min (a + b) u64Max

/-- Counts the bytes its sink takes. -/
structure Counted (W : Type) where
  inner : W
  bytes : Nat

instance {W : Type} [AsyncWrite IoError W] : AsyncWrite IoError (Counted W) where
  pollWrite c buf :=
    let p := pollWrite c.inner buf
    match p.1 with
    | .ready (.ok n) => (.ready (.ok n), ⟨p.2, saturatingAdd c.bytes n⟩)
    | other => (other, { c with inner := p.2 })
  pollFlush c :=
    let p := pollFlush c.inner
    (p.1, { c with inner := p.2 })
  pollShutdown c :=
    let p := pollShutdown c.inner
    (p.1, { c with inner := p.2 })
  accepts c buf n h := by
    apply AsyncWrite.accepts c.inner buf n
    generalize pollWrite c.inner buf = p at h
    rcases p with ⟨o, w⟩
    dsimp only at h ⊢
    split at h
    · exact h
    · exact h

/-- A compressing writer as a parameter: one poll of it is a tree of calls on its sink. -/
structure Encoder where
  State : Type
  new : State
  write : State → List UInt8 → Calls IoError (Poll (Except IoError Nat) × State)
  flush : State → Calls IoError (Poll (Except IoError Unit) × State)
  shutdown : State → Calls IoError (Poll (Except IoError Unit) × State)
  accepts : ∀ s bytes, (write s bytes).Every (fun _ p => ∀ n, p.1 = .ready (.ok n) → n ≤ bytes.length) []

/-- `ZstdEncoder` over its sink. -/
structure ZstdEncoder (E : Encoder) (W : Type) where
  state : E.State
  inner : W

instance {E : Encoder} {W : Type} [AsyncWrite IoError W] : AsyncWrite IoError (ZstdEncoder E W) where
  pollWrite z bytes :=
    let p := (E.write z.state bytes).run z.inner
    (p.1.1, ⟨p.1.2, p.2⟩)
  pollFlush z :=
    let p := (E.flush z.state).run z.inner
    (p.1.1, ⟨p.1.2, p.2⟩)
  pollShutdown z :=
    let p := (E.shutdown z.state).run z.inner
    (p.1.1, ⟨p.1.2, p.2⟩)
  accepts z bytes := by
    obtain ⟨log, -, h⟩ := (E.accepts z.state bytes).run (.nil z.inner)
    exact h

/-- Finalized sink and number of encoded bytes written. -/
structure WriteOutput (W : Type) where
  sink : W
  encodedBytes : Nat

inductive Inner (B : Builder) (E : Encoder) (W : Type) where
  | tar (builder : B.State) (sink : Counted W)
  | tarZstd (builder : B.State) (sink : ZstdEncoder E (Counted W))

/-- Sequential archive writer. -/
structure Writer (B : Builder) (E : Encoder) (W : Type) where
  inner : Inner B E W
  failed : Bool

namespace Writer

variable {B : Builder} {E : Encoder} {W : Type}

/-- Begin a tar or tar.zst archive on the caller's sink. -/
def new (sink : W) (format : Format) : Writer B E W :=
  let sink : Counted W := ⟨sink, 0⟩
  { inner := match format with
      | .tar => .tar B.new sink
      | .tarZstd => .tarZstd B.new ⟨E.new, sink⟩
    failed := false }

/-- The guard of `append` disarms for `Ok` only: an error poisons the writer, and so does
dropping the call. -/
def guarded (inner : Inner B E W) (result : Await (Except Error Unit)) : Await (Except Error Unit) × Writer B E W :=
  (result, ⟨inner, match result with
    | .done (.ok ()) => false
    | _ => true⟩)

variable [AsyncWrite IoError W] {R : Type} [AsyncRead IoError R]

/-- `Writer::append`, dropped after `polls` polls of the body and the sink. (A future that was
never polled runs no code: with `polls = 0` only what needs no poll is a call of the code.) -/
def append (polls : Nat) (ω : Writer B E W) (entry : WriteEntry R) : Await (Except Error Unit) × Writer B E W :=
  if ω.failed then (.done (.error .aborted), ω)
  else
    match ω.inner with
    | .tar builder sink =>
      let p := pack polls builder sink entry.inner
      guarded (.tar p.state p.sink) p.result
    | .tarZstd builder sink =>
      let p := pack polls builder sink entry.inner
      guarded (.tarZstd p.state p.sink) p.result

/-- Take the sink back from the builder, terminators written, and shut it down. -/
def close {C : Type} [AsyncWrite IoError C] (polls : Nat) (builder : B.State) (sink : C) :
    Await (Except Error Unit) × B.State × C :=
  let d := B.drive polls ⟨B.intoInner builder, Empty.mk, sink⟩
  match d.result with
  | .cancelled => (.cancelled, d.rest.state, d.rest.sink)
  | .done (.error e) => (.done (.error (.io e)), d.rest.state, d.rest.sink)
  | .done (.ok ()) =>
    match AsyncIo.shutdown d.left d.rest.sink with
    | (.cancelled, sink) => (.cancelled, d.rest.state, sink)
    | (.done result, sink) => (.done (result.mapError .io), d.rest.state, sink)

/-- `Writer::finish`, dropped after `polls` polls as `append` is, with what is left of the writer. -/
def finish (polls : Nat) (ω : Writer B E W) : Await (Except Error (WriteOutput W)) × Inner B E W :=
  if ω.failed then (.done (.error .aborted), ω.inner)
  else
    match ω.inner with
    | .tar builder sink =>
      match close polls builder sink with
      | (.cancelled, builder, sink) => (.cancelled, .tar builder sink)
      | (.done (.error e), builder, sink) => (.done (.error e), .tar builder sink)
      | (.done (.ok ()), builder, sink) => (.done (.ok ⟨sink.inner, sink.bytes⟩), .tar builder sink)
    | .tarZstd builder encoder =>
      match close polls builder encoder with
      | (.cancelled, builder, encoder) => (.cancelled, .tarZstd builder encoder)
      | (.done (.error e), builder, encoder) => (.done (.error e), .tarZstd builder encoder)
      | (.done (.ok ()), builder, encoder) =>
        (.done (.ok ⟨encoder.inner.inner, encoder.inner.bytes⟩), .tarZstd builder encoder)

end Writer

end Etar
