import Etar.Open

/-!
# The tar parser as a parameter

The crate drives a tar parser it does not own. `Tar` is what it sees of it: a stream of
entries that asks its source for bytes, and the body of the last entry, which reads from
the same source. `pull` and `TarBody` poll it. What the parser does with the bytes is
assumed in `Etar.Framing`, where results need it.
-/
namespace Etar

open AsyncIo

/-- What the parser wants next: bytes from its source, or to hand out an item. -/
inductive Ask where
  | read (n : Nat)
  | item (i : Option (Except IoError TarEntry))

/-- `tokio_tar::Archive` with its `Entries`. -/
structure Tar where
  State : Type
  /-- `Archive::new` and `Archive::entries`; `none` stands for an error. -/
  entries : Option State
  ask : State → Ask
  /-- The answer to a read; no bytes mean the end of the source. -/
  fed : State → Except IoError (List UInt8) → State
  /-- After the item was handed out. -/
  taken : State → State
  /-- How many bytes a body poll with that much room reads; `none` ends the body. -/
  bodyAsk : State → Nat → Option Nat
  bodyFed : State → Except IoError (List UInt8) → State
  /-- The answer to a body poll with room that got no bytes: the source is at its end. -/
  bodyCut : State → Except IoError Unit
  /-- `Archive::into_inner` gives the source back. -/
  release : State → Bool

variable (T : Tar) {S : Type} [AsyncRead IoError S]

/-- What `pull` ended with, and the source polls left of its budget. -/
structure Pulled (T : Tar) (S : Type) where
  result : Await (Option (Except IoError TarEntry))
  parser : T.State
  source : S
  left : Nat

/-- `Entries::next`, given up after `polls` polls of the source. -/
def Tar.pull : Nat → T.State → S → Pulled T S
  | polls, parser, source =>
    match T.ask parser with
    | .item i => ⟨.done i, T.taken parser, source, polls⟩
    | .read n =>
      match polls with
      | 0 => ⟨.cancelled, parser, source, 0⟩
      | polls + 1 =>
        let p := pollRead source (.new n)
        match p.outcome with
        | .pending => Tar.pull polls parser p.reader
        | .ready (.error e) => Tar.pull polls (T.fed parser (.error e)) p.reader
        | .ready (.ok ()) => Tar.pull polls (T.fed parser (.ok p.buf.filled)) p.reader

/-- The body of the entry handed out last. -/
structure TarBody (T : Tar) (S : Type) where
  parser : T.State
  source : S

def TarBody.poll (b : TarBody T S) (buf : ReadBuf) : Polled IoError (TarBody T S) :=
  match T.bodyAsk b.parser buf.remaining with
  | none => ⟨.ready (.ok ()), buf, b⟩
  | some n =>
    let p := pollRead b.source (buf.take n)
    match p.outcome with
    | .pending => ⟨.pending, buf, { b with source := p.reader }⟩
    | .ready (.error e) => ⟨.ready (.error e), buf, ⟨T.bodyFed b.parser (.error e), p.reader⟩⟩
    | .ready (.ok ()) =>
      ⟨.ready (if p.buf.filled = [] ∧ 0 < buf.remaining then T.bodyCut b.parser else .ok ()),
        buf.advance p.buf (capacity_pollRead_take _ _ _), ⟨T.bodyFed b.parser (.ok p.buf.filled), p.reader⟩⟩

theorem TarBody.grows_poll (b : TarBody T S) (buf : ReadBuf) : buf.Grows (b.poll T buf).buf := by
  unfold TarBody.poll
  split
  · exact ReadBuf.Grows.refl buf
  · dsimp only
    split
    · exact ReadBuf.Grows.refl buf
    · exact ReadBuf.Grows.refl buf
    · exact ⟨rfl, List.prefix_append _ _⟩

instance : AsyncRead IoError (TarBody T S) where
  pollRead := TarBody.poll T
  grows := TarBody.grows_poll T

end Etar
