import Mathlib.Algebra.GroupWithZero.Nat
import Mathlib.Tactic.Common

/-!
# Errors of the crate and of the readers below it

`Error` is the crate's own enumeration. An `IoError` has a kind and may box a
payload: the crate boxes its own errors in it to carry them through the parser,
and recovers them with a downcast.
-/
namespace Etar

/-- `std::io::ErrorKind`. -/
inductive ErrorKind where
  | notFound | permissionDenied | connectionRefused | connectionReset | hostUnreachable
  | networkUnreachable | connectionAborted | notConnected | addrInUse | addrNotAvailable
  | networkDown | brokenPipe | alreadyExists | wouldBlock | notADirectory | isADirectory
  | directoryNotEmpty | readOnlyFilesystem | staleNetworkFileHandle | invalidInput | invalidData
  | timedOut | writeZero | storageFull | notSeekable | quotaExceeded | fileTooLarge | resourceBusy
  | executableFileBusy | deadlock | crossesDevices | tooManyLinks | invalidFilename
  | argumentListTooLong | interrupted | unsupported | unexpectedEof | outOfMemory | other
  deriving DecidableEq, Repr

mutual

/-- Why an etar operation failed. -/
inductive Error where
  | absolutePath
  | parentEscape
  | emptyPath
  | nulPath
  | missingBody
  | nonFilePayload
  | invalidEntryKind
  | bodyLengthMismatch
  | aborted
  | limitExceeded (which : String)
  | disallowedEntryType
  | malformed
  | io (error : IoError)

/-- `std::io::Error`: without a payload, boxing a crate error, or boxing anything else. -/
inductive IoError where
  | simple (kind : ErrorKind)
  | custom (kind : ErrorKind) (error : Error)
  | foreign (kind : ErrorKind) (message : String)

end

deriving instance DecidableEq for Error, IoError

namespace IoError

def kind : IoError → ErrorKind
  | .simple k => k
  | .custom k _ => k
  | .foreign k _ => k

/-- `get_ref` followed by `downcast_ref::<Error>`. -/
def downcast : IoError → Option Error
  | .custom _ e => some e
  | _ => none

@[simp] theorem kind_custom (k : ErrorKind) (e : Error) : (custom k e).kind = k := rfl
@[simp] theorem downcast_custom (k : ErrorKind) (e : Error) : (custom k e).downcast = some e := rfl

end IoError

/-- `u64::MAX`. -/
def u64Max : Nat := 2 ^ 64 - 1

/-- `usize::MAX` on the 64-bit targets the crate is built for. -/
def usizeMax : Nat := 2 ^ 64 - 1

/-- `u64::checked_add`. -/
def checkedAdd (a b : Nat) : Option Nat := if a + b ≤ u64Max then some (a + b) else none

/-- `u64::checked_mul`. -/
def checkedMul (a b : Nat) : Option Nat := if a * b ≤ u64Max then some (a * b) else none

/-- `u64::saturating_mul`. -/
def saturatingMul (a b : Nat) : Nat := min (a * b) u64Max

/-- Wrapping `u64` addition, as in `AtomicU64::fetch_add`. -/
def wrappingAdd (a b : Nat) : Nat := (a + b) % 2 ^ 64

theorem wrappingAdd_of_lt {a b : Nat} (h : a + b < 2 ^ 64) : wrappingAdd a b = a + b :=
  Nat.mod_eq_of_lt h

theorem checkedAdd_eq_some {a b c : Nat} : checkedAdd a b = some c ↔ a + b ≤ u64Max ∧ c = a + b := by
  unfold checkedAdd
  split <;> rename_i h
  · simp [h, eq_comm]
  · simp [h]

theorem checkedAdd_eq_none {a b : Nat} : checkedAdd a b = none ↔ u64Max < a + b := by
  unfold checkedAdd
  split <;> rename_i h
  · simp [h]
  · simpa using h

end Etar
