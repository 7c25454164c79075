import Etar.Guard
import Etar.Tar

/-!
# The archive reader

`nextEntry` takes the next member from the parser and opens it; at the parser's end it
checks the trailer. A shared flag poisons the reader after any failed or cancelled call.
An async call is given a number of source polls, after which its caller drops it.
-/
namespace Etar

open AsyncIo Limit

/-- The byte counters a reader shares with the stack of readers under it. -/
class Counters (S : Type) where
  encoded : S → Nat
  decoded : S → Nat

/-- An owned handle on the parser; the parser itself is shared. -/
structure Handle where
  deriving DecidableEq, Repr

/-- `Reader`. The parser and its source are shared with the entry handed out last. -/
structure Reader (T : Tar) (S : Type) where
  parser : T.State
  source : S
  archive : Option Handle
  entries : Option Handle
  limits : SecurityLimits
  bodyFailed : Bool
  seen : Nat
  done : Bool

/-- `ReadEntry`: its body is read through the reader it is lent by. -/
abbrev ReadEntry := OpenEntry Unit

/-- A view of one validated archive header. -/
structure EntryHeader where
  path : SafePath
  info : Meta
  sizeBytes : Nat
  deriving DecidableEq

/-- `ReadEntry::header`. -/
def ReadEntry.header (entry : ReadEntry) : EntryHeader := ⟨entry.path, entry.info, entry.sizeBytes⟩

/-- Counts from a complete archive validation. -/
structure ValidationReport where
  entries : Nat
  encodedBytes : Nat
  decodedBytes : Nat
  deriving DecidableEq, Repr

namespace Reader

variable {T : Tar} {S : Type}

/-- The part of `Reader::open` after the decoder is chosen and capped. -/
def start (T : Tar) (source : S) (limits : SecurityLimits) : Except Error (Reader T S) :=
  match T.entries with
  | none => .error .malformed
  | some parser => .ok ⟨parser, source, some ⟨⟩, some ⟨⟩, limits, false, 0, false⟩

theorem start_ok {source : S} {limits : SecurityLimits} {r : Reader T S} (h : start T source limits = .ok r) :
    ∃ parser, r = ⟨parser, source, some ⟨⟩, some ⟨⟩, limits, false, 0, false⟩ := by
  unfold start at h
  split at h
  · cases h
  · rename_i parser hparser
    cases h
    exact ⟨parser, rfl⟩

/-- The drop of an armed `AbortOnDrop`. -/
def abort (r : Reader T S) : Reader T S := { r with bodyFailed := true }

def accept (H : HeaderFields) (r : Reader T S) (entry : TarEntry) : Except Error ReadEntry × Reader T S :=
  let r := { r with seen := r.seen + 1 }
  if r.limits.maxEntries.toNat < r.seen then (.error (.limitExceeded "max_entries"), r)
  else (openEntry H entry () r.limits, r)

variable [AsyncRead IoError S] [Counters S]

def encodedBytes (r : Reader T S) : Nat := Counters.encoded r.source

def decodedBytes (r : Reader T S) : Nat := Counters.decoded r.source

/-- An error of the source as the reader reports it. -/
def report (r : Reader T S) (e : IoError) : Error := readError e r.decodedBytes r.limits.maxTotalBytes.toNat

/-- The loop of `verify_end`: count zero bytes to the end of the source. -/
def drain : Nat → Nat → Reader T S → Await (Except Error Unit) × Reader T S
  | 0, _, r => (.cancelled, r)
  | polls + 1, trailing, r =>
    let p := pollRead r.source (.new 8192)
    let r := { r with source := p.reader }
    match p.outcome with
    | .pending => drain polls trailing r
    | .ready (.error e) => (.done (.error (r.report e)), r)
    | .ready (.ok ()) =>
      if p.buf.filled = [] then
        (.done (if trailing < 512 then .error .malformed else .ok ()), r)
      else if p.buf.filled.any (· != 0) then (.done (.error .malformed), r)
      else drain polls (min (trailing + p.buf.filled.length) usizeMax) r

/-- Take the source back from the parser and check that only zeros are left. -/
def verifyEnd (polls : Nat) (r : Reader T S) : Await (Except Error Unit) × Reader T S :=
  let r := { r with entries := none }
  match r.archive with
  | none => (.done (.error .malformed), r)
  | some _ =>
    let r := { r with archive := none }
    if T.release r.parser then drain polls 0 r else (.done (.error .malformed), r)

/-- `Reader::next_entry`, dropped after `polls` polls of the source. (A future that was never
polled runs no code: with `polls = 0` only what needs no poll is a call of the code.) -/
def nextEntry (H : HeaderFields) (polls : Nat) (r : Reader T S) :
    Await (Except Error (Option ReadEntry)) × Reader T S :=
  if r.bodyFailed then (.done (.error .aborted), r)
  else if r.done then (.done (.ok none), r)
  else
    match r.entries with
    | none => (.done (.error .malformed), r.abort)
    | some _ =>
      let next := T.pull polls r.parser r.source
      let r := { r with parser := next.parser, source := next.source }
      match next.result with
      | .cancelled => (.cancelled, r.abort)
      | .done (some (.ok entry)) =>
        match r.accept H entry with
        | (.ok accepted, r) => (.done (.ok (some accepted)), r)
        | (.error e, r) => (.done (.error e), r.abort)
      | .done (some (.error e)) => (.done (.error (r.report e)), r.abort)
      | .done none =>
        match r.verifyEnd next.left with
        | (.cancelled, r) => (.cancelled, r.abort)
        | (.done (.error e), r) => (.done (.error e), r.abort)
        | (.done (.ok ()), r) => (.done (.ok none), { r with done := true })

/-- The body of a lent entry, bounded as the entry has it. -/
def body (r : Reader T S) (entry : ReadEntry) : Bounded (TarBody T S) :=
  ⟨⟨r.parser, r.source⟩, entry.body.remaining, entry.body.failed⟩

/-- One poll of a lent entry's body. -/
def pollBody (r : Reader T S) (entry : ReadEntry) (buf : ReadBuf) :
    Poll (Except IoError Unit) × ReadBuf × ReadEntry × Reader T S :=
  let p := pollRead (r.body entry) buf
  let r := { r with parser := p.reader.inner.parser, source := p.reader.inner.source }
  (p.outcome, p.buf, { entry with body := ⟨(), p.reader.remaining, p.reader.failed⟩ },
    match p.outcome with
    | .ready (.error _) => r.abort
    | _ => r)

/-- `tokio::io::copy` of a body into a sink, given `polls` polls. -/
def copyBody : Nat → Reader T S → ReadEntry → Await (Except IoError Unit) × Reader T S
  | 0, r, _ => (.cancelled, r)
  | polls + 1, r, entry =>
    match r.pollBody entry (.new 8192) with
    | (.pending, _, entry, r) => copyBody polls r entry
    | (.ready (.error e), _, _, r) => (.done (.error e), r)
    | (.ready (.ok ()), buf, entry, r) =>
      if buf.filled = [] then (.done (.ok ()), r) else copyBody polls r entry

/-- The loop of `validate`; each call of it gets `polls` polls. -/
def validateFrom (H : HeaderFields) : Nat → Nat → Reader T S → Await (Except Error ValidationReport)
  | 0, _, _ => .cancelled
  | polls + 1, entries, r =>
    match r.nextEntry H polls with
    | (.cancelled, _) => .cancelled
    | (.done (.error e), _) => .done (.error e)
    | (.done (.ok none), r) => .done (.ok ⟨entries, r.encodedBytes, r.decodedBytes⟩)
    | (.done (.ok (some entry)), r) =>
      match r.copyBody polls entry with
      | (.cancelled, _) => .cancelled
      | (.done (.error e), r) => .done (.error (r.report e))
      | (.done (.ok ()), r) => validateFrom H polls (entries + 1) r

end Reader

section Stack

variable {D : Type} {H : HeaderFields} {count : D → Nat}

/-- The readers between the decoder and the parser. -/
abbrev Source (H : HeaderFields) {D : Type} (count : D → Nat) := Guard.HeaderGuard H (Cap count)

instance : Counters (Source H count) where
  encoded g := count g.inner.inner
  decoded g := g.inner.total

/-- The stack over a decoded source. -/
def stack (decoded : D) (limits : SecurityLimits) : Source H count :=
  Guard.new (Cap.new decoded limits.maxTotalBytes.toNat limits.maxCompressionRatio.toNat)
    limits.maxMetadataBytes.toNat

/-- `Reader::open` from the decoded source on. -/
def Reader.over (T : Tar) (decoded : D) (limits : SecurityLimits) : Except Error (Reader T (Source H count)) :=
  Reader.start T (stack decoded limits) limits

end Stack

end Etar
