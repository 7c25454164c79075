import Etar.Error
import Mathlib.Data.List.Basic

/-!
# Entries, paths and limits

The vocabulary shared by writing and reading: entry kinds and metadata, validated
relative paths, and the limits enforced while reading.
-/
namespace Etar

/-- `Kind`; a link target is any byte string. -/
inductive Kind where
  | file
  | dir
  | symlink (target : List UInt8)
  | hardlink (target : List UInt8)
  deriving DecidableEq, Repr

/-- `Meta`. -/
structure Meta where
  mode : UInt32
  uid : UInt32
  gid : UInt32
  mtimeUnixSecs : UInt64
  kind : Kind
  deriving DecidableEq, Repr

/-- `std::path::Component`, as Unix paths have them. -/
inductive Component where
  | rootDir
  | curDir
  | parentDir
  | normal (name : List UInt8)
  deriving DecidableEq, Repr

/-- The component of one piece between slashes: empty pieces and `.` have none. -/
def component (piece : List UInt8) : Option Component :=
  if piece = [] ∨ piece = [46] then none
  else if piece = [46, 46] then some .parentDir
  else some (.normal piece)

/-- `Path::components` on Unix: a leading slash is the root, a leading `.` is kept. -/
def components (path : List UInt8) : List Component :=
  let pieces := path.splitOn 47
  let body := pieces.filterMap component
  if path.head? = some 47 then .rootDir :: body
  else if pieces.head? = some [46] then .curDir :: body
  else body

def rejectUnsafe : Component → Except Error Unit
  | .rootDir => .error .absolutePath
  | .parentDir => .error .parentEscape
  | .curDir => .ok ()
  | .normal _ => .ok ()

/-- Reject empty, NUL-carrying, absolute and ascending paths. -/
def validate (path : List UInt8) : Except Error Unit :=
  if path = [] then .error .emptyPath
  else if 0 ∈ path then .error .nulPath
  else (components path).forM rejectUnsafe

/-- A relative path that stays in its tree. -/
structure SafePath where
  bytes : List UInt8
  valid : validate bytes = .ok ()
  deriving DecidableEq

theorem SafePath.bytes_inj {p q : SafePath} (h : p.bytes = q.bytes) : p = q := by
  obtain ⟨path, valid⟩ := p
  obtain rfl : path = q.bytes := h
  rfl

def SafePath.new (path : List UInt8) : Except Error SafePath :=
  match h : validate path with
  | .ok () => .ok ⟨path, h⟩
  | .error e => .error e

/-- Resource and safety caps enforced while reading. -/
structure SecurityLimits where
  maxEntries : UInt64
  maxTotalBytes : UInt64
  maxEntryBytes : UInt64
  maxPathLen : UInt64
  maxMetadataBytes : UInt64
  maxCompressionRatio : UInt64
  allowSymlinks : Bool
  allowHardlinks : Bool
  deriving DecidableEq, Repr

def SecurityLimits.default : SecurityLimits where
  maxEntries := 2000000
  maxTotalBytes := 32 * 1024 * 1024 * 1024
  maxEntryBytes := 8 * 1024 * 1024 * 1024
  maxPathLen := 4096
  maxMetadataBytes := 1024 * 1024
  maxCompressionRatio := 200
  allowSymlinks := true
  allowHardlinks := true

namespace SecurityLimits

def withMaxEntries (limits : SecurityLimits) (max : UInt64) : SecurityLimits :=
  { limits with maxEntries := max }

def withMaxTotalBytes (limits : SecurityLimits) (max : UInt64) : SecurityLimits :=
  { limits with maxTotalBytes := max }

def withMaxEntryBytes (limits : SecurityLimits) (max : UInt64) : SecurityLimits :=
  { limits with maxEntryBytes := max }

def withMaxPathLen (limits : SecurityLimits) (max : UInt64) : SecurityLimits :=
  { limits with maxPathLen := max }

def withMaxMetadataBytes (limits : SecurityLimits) (max : UInt64) : SecurityLimits :=
  { limits with maxMetadataBytes := max }

def withMaxCompressionRatio (limits : SecurityLimits) (max : UInt64) : SecurityLimits :=
  { limits with maxCompressionRatio := max }

def withSymlinks (limits : SecurityLimits) (allow : Bool) : SecurityLimits :=
  { limits with allowSymlinks := allow }

def withHardlinks (limits : SecurityLimits) (allow : Bool) : SecurityLimits :=
  { limits with allowHardlinks := allow }

end SecurityLimits

theorem SafePath.clean (p : SafePath) : 0 ∉ p.bytes := by
  have h := p.valid
  unfold validate at h
  split_ifs at h with hnil hnul
  exact hnul

theorem validate_safe (p : SafePath) : SafePath.new p.bytes = .ok p := by
  unfold SafePath.new
  split <;> rename_i h
  · rfl
  · rw [p.valid] at h
    cases h

theorem bytes_of_new {path : List UInt8} {p : SafePath} (h : SafePath.new path = .ok p) : p.bytes = path := by
  unfold SafePath.new at h
  split at h
  · cases h
    rfl
  · cases h

/-- A path is refused only for one of the four path errors. -/
theorem validate_error {path : List UInt8} {e : Error} (h : validate path = .error e) :
    e = .emptyPath ∨ e = .nulPath ∨ e = .absolutePath ∨ e = .parentEscape := by
  unfold validate at h
  split at h
  · cases h
    exact Or.inl rfl
  · split at h
    · cases h
      exact Or.inr (Or.inl rfl)
    · revert h
      induction components path with
      | nil => intro h; cases h
      | cons c cs ih =>
        cases c with
        | rootDir => intro h; cases h; exact Or.inr (Or.inr (Or.inl rfl))
        | parentDir => intro h; cases h; exact Or.inr (Or.inr (Or.inr rfl))
        | curDir => exact ih
        | normal name => exact ih

end Etar
