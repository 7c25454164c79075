import Etar.Cap
import Etar.Entry
import Etar.Header

/-!
# Opening one entry

What the tar parser reports about a member is validated into an `OpenEntry`: the path,
the kind, the sizes and the metadata, in the order the crate checks them.
-/
namespace Etar

open Limit

/-- What the tar parser reports about a member: its raw header, its path and its link
name; an outer `none` stands for any error. -/
structure TarEntry where
  header : Block
  path : Option (List UInt8)
  linkName : Option (Option (List UInt8))
  deriving DecidableEq

/-- A validated entry around a bounded body. -/
structure OpenEntry (B : Type) where
  path : SafePath
  info : Meta
  sizeBytes : Nat
  body : Bounded B

variable (H : HeaderFields)

def validatePath (entry : TarEntry) (limits : SecurityLimits) : Except Error SafePath :=
  match entry.path with
  | none => .error .malformed
  | some raw =>
    if limits.maxPathLen.toNat < raw.length then .error (.limitExceeded "max_path_len")
    else SafePath.new raw

/-- A link entry's untrusted target. -/
def link (entry : TarEntry) : Except Error (List UInt8) :=
  match entry.linkName with
  | none => .error .malformed
  | some none => .error .malformed
  | some (some name) => .ok name

def classify (entry : TarEntry) (limits : SecurityLimits) : Except Error Kind :=
  match H.entryType entry.header with
  | .regular | .continuous => .ok .file
  | .directory => .ok .dir
  | .symlink =>
    if limits.allowSymlinks then (link entry).map .symlink else .error .disallowedEntryType
  | .link =>
    if limits.allowHardlinks then (link entry).map .hardlink else .error .disallowedEntryType
  | _ => .error .disallowedEntryType

/-- Narrow a tar uid or gid to 32 bits. -/
def smallId (id : UInt64) : Except Error UInt32 :=
  if id.toNat < 2 ^ 32 then .ok id.toUInt32 else .error .malformed

/-- `map_err(|_| Error::Malformed)`. -/
def orMalformed {α : Type} : Option α → Except Error α
  | some a => .ok a
  | none => .error .malformed

def readMeta (entry : TarEntry) (kind : Kind) : Except Error Meta := do
  let mode ← orMalformed (H.mode entry.header)
  let uid ← smallId (← orMalformed (H.uid entry.header))
  let gid ← smallId (← orMalformed (H.gid entry.header))
  let mtime ← orMalformed (H.mtime entry.header)
  return ⟨mode, uid, gid, mtime, kind⟩

/-- Validate one entry and wrap its body with the byte bounds. -/
def openEntry {B : Type} (entry : TarEntry) (body : B) (limits : SecurityLimits) : Except Error (OpenEntry B) := do
  let path ← validatePath entry limits
  let kind ← classify H entry limits
  let sizeBytes ← orMalformed (H.size entry.header)
  if kind ≠ .file ∧ sizeBytes ≠ 0 then .error .nonFilePayload
  else if limits.maxEntryBytes.toNat < sizeBytes.toNat then .error (.limitExceeded "max_entry_bytes")
  else
    let info ← readMeta H entry kind
    return ⟨path, info, sizeBytes.toNat, .new body limits.maxEntryBytes.toNat⟩

theorem bind_ok {α β : Type} {x : Except Error α} {f : α → Except Error β} {b : β} (h : x >>= f = .ok b) :
    ∃ a, x = .ok a ∧ f a = .ok b := by
  cases x with
  | error e => cases h
  | ok a => exact ⟨a, rfl, h⟩

theorem bind_error {α β : Type} {x : Except Error α} {f : α → Except Error β} {e : Error}
    (h : x >>= f = .error e) : x = .error e ∨ ∃ a, x = .ok a ∧ f a = .error e := by
  cases x with
  | error e' => cases h; exact Or.inl rfl
  | ok a => exact Or.inr ⟨a, rfl, h⟩

theorem orMalformed_ok {α : Type} {o : Option α} {a : α} (h : orMalformed o = .ok a) : o = some a := by
  cases o with
  | none => cases h
  | some b => cases h; rfl

theorem readMeta_kind {entry : TarEntry} {kind : Kind} {info : Meta} (h : readMeta H entry kind = .ok info) :
    info.kind = kind := by
  unfold readMeta at h
  obtain ⟨mode, -, h⟩ := bind_ok h
  obtain ⟨id, -, h⟩ := bind_ok h
  obtain ⟨uid, -, h⟩ := bind_ok h
  obtain ⟨id, -, h⟩ := bind_ok h
  obtain ⟨gid, -, h⟩ := bind_ok h
  obtain ⟨mtime, -, h⟩ := bind_ok h
  cases h
  rfl

/-- Every gate an opened entry passed. -/
theorem openEntry_ok {B : Type} {entry : TarEntry} {body : B} {limits : SecurityLimits} {opened : OpenEntry B}
    (h : openEntry H entry body limits = .ok opened) :
    validatePath entry limits = .ok opened.path ∧ classify H entry limits = .ok opened.info.kind ∧
      (∃ size, H.size entry.header = some size ∧ opened.sizeBytes = size.toNat ∧
        (opened.info.kind ≠ .file → size = 0)) ∧
      opened.sizeBytes ≤ limits.maxEntryBytes.toNat ∧ readMeta H entry opened.info.kind = .ok opened.info ∧
      opened.body = .new body limits.maxEntryBytes.toNat := by
  unfold openEntry at h
  obtain ⟨path, hpath, h⟩ := bind_ok h
  obtain ⟨kind, hkind, h⟩ := bind_ok h
  obtain ⟨size, hsize, h⟩ := bind_ok h
  split_ifs at h with hbody hmax
  obtain ⟨info, hinfo, h⟩ := bind_ok h
  cases h
  have hk := readMeta_kind H hinfo
  refine ⟨hpath, by rw [hk]; exact hkind, ⟨size, orMalformed_ok hsize, rfl, ?_⟩, Nat.not_lt.mp hmax,
    by rw [hk]; exact hinfo, rfl⟩
  intro hf
  by_contra h0
  exact hbody ⟨hk ▸ hf, h0⟩

/-- The errors a member may be refused with. -/
def Refusal : Error → Prop
  | .io _ => False
  | .aborted => False
  | .limitExceeded which => which = "max_entries" ∨ which = "max_path_len" ∨ which = "max_entry_bytes"
  | _ => True

theorem orMalformed_error {α : Type} {o : Option α} {e : Error} (h : orMalformed o = .error e) : e = .malformed := by
  cases o with
  | none =>
    cases h
    rfl
  | some a => cases h

theorem smallId_error {id : UInt64} {e : Error} (h : smallId id = .error e) : e = .malformed := by
  unfold smallId at h
  split at h
  · cases h
  · cases h
    rfl

theorem validatePath_error {entry : TarEntry} {limits : SecurityLimits} {e : Error}
    (h : validatePath entry limits = .error e) : Refusal e := by
  unfold validatePath at h
  split at h
  · cases h
    trivial
  · split at h
    · cases h
      exact Or.inr (Or.inl rfl)
    · unfold SafePath.new at h
      split at h
      · cases h
      · rename_i e' hv
        cases h
        rcases validate_error hv with rfl | rfl | rfl | rfl <;> trivial

theorem classify_error {entry : TarEntry} {limits : SecurityLimits} {e : Error}
    (h : classify H entry limits = .error e) : e = .malformed ∨ e = .disallowedEntryType := by
  have hlink : ∀ k : List UInt8 → Kind, (link entry).map k = .error e → e = .malformed := by
    intro k h
    unfold link at h
    split at h
    · cases h
      rfl
    · cases h
      rfl
    · cases h
  unfold classify at h
  split at h
  · cases h
  · cases h
  · cases h
  · split at h
    · exact Or.inl (hlink _ h)
    · cases h
      exact Or.inr rfl
  · split at h
    · exact Or.inl (hlink _ h)
    · cases h
      exact Or.inr rfl
  · cases h
    exact Or.inr rfl

theorem readMeta_error {entry : TarEntry} {kind : Kind} {e : Error} (h : readMeta H entry kind = .error e) :
    e = .malformed := by
  unfold readMeta at h
  rcases bind_error h with h | ⟨mode, -, h⟩
  · exact orMalformed_error h
  rcases bind_error h with h | ⟨id, -, h⟩
  · exact orMalformed_error h
  rcases bind_error h with h | ⟨uid, -, h⟩
  · exact smallId_error h
  rcases bind_error h with h | ⟨id, -, h⟩
  · exact orMalformed_error h
  rcases bind_error h with h | ⟨gid, -, h⟩
  · exact smallId_error h
  rcases bind_error h with h | ⟨mtime, -, h⟩
  · exact orMalformed_error h
  cases h

/-- A member is refused for what it is, never as if the source had failed. -/
theorem openEntry_error {B : Type} {entry : TarEntry} {body : B} {limits : SecurityLimits} {e : Error}
    (h : openEntry H entry body limits = .error e) : Refusal e := by
  unfold openEntry at h
  rcases bind_error h with h | ⟨path, -, h⟩
  · exact validatePath_error h
  rcases bind_error h with h | ⟨kind, -, h⟩
  · rcases classify_error H h with rfl | rfl <;> trivial
  rcases bind_error h with h | ⟨size, -, h⟩
  · rw [orMalformed_error h]
    trivial
  split_ifs at h
  · cases h
    trivial
  · cases h
    exact Or.inr (Or.inr rfl)
  · rcases bind_error h with h | ⟨info, -, h⟩
    · rw [readMeta_error H h]
      trivial
    · cases h

end Etar
