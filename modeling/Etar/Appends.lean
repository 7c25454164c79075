import Etar.Admitted
import Etar.WriterRun

/-!
# Archives of whole entries

What a writer's appends leave in its sink, in terms of what the archive is to hold: a member
for every entry, with its name, its metadata as far as the header has room for it, and its
body. Where links fit and bodies have their declared length, every append and the finish of a
writer whose sink does not fail succeed.
-/
namespace Etar

open AsyncIo

/-- An entry given to a writer, whatever its body is read from. -/
structure Submission where
  R : Type
  [read : AsyncRead IoError R]
  entry : WriteEntry R

attribute [instance] Submission.read

def Kind.Fits : Kind → Prop
  | .symlink target | .hardlink target => LinkField.Fits (storedTarget target)
  | _ => True

/-- The low seven octal digits of a mode, which is all a header holds of it. -/
def storedMode (mode : UInt32) : UInt32 := .ofNat (mode.toNat % 8 ^ 7)

theorem storedMode_eq_iff (mode : UInt32) : storedMode mode = mode ↔ mode.toNat < 8 ^ 7 := by
  have hlt := mode.toNat_lt
  have hvalue : (storedMode mode).toNat = mode.toNat % 8 ^ 7 := by
    rw [storedMode, UInt32.toNat_ofNat']
    omega
  rw [← UInt32.toNat_inj, hvalue]
  omega

def Meta.stored (info : Meta) : Meta := { info with mode := storedMode info.mode, kind := info.kind.stored }

def Meta.SameNumbers (a b : Meta) : Prop :=
  a.mode = b.mode ∧ a.uid = b.uid ∧ a.gid = b.gid ∧ a.mtimeUnixSecs = b.mtimeUnixSecs

/-- `Meta::eq`. -/
def Meta.Equal (a b : Meta) : Prop := a.SameNumbers b ∧ a.kind.Equal b.kind

/-- Up to high digits of the mode, metadata are stored as equal ones. -/
theorem Meta.stored_equal {info : Meta} (h : info.mode.toNat < 8 ^ 7) : info.stored.Equal info :=
  ⟨⟨(storedMode_eq_iff _).mpr h, rfl, rfl, rfl⟩, info.kind.stored_equal⟩

def Content.stored (c : Content) : Content := { c with info := c.info.stored }

def Coding.Takes (C : Coding) (path : SafePath) : Prop := ∃ written, C.setPath path.bytes = .ok written

namespace Submission

/-- The entry is stored as `c`: under the name its path is written with, with what the header
holds of its metadata, a target that fits, and all of its body. -/
structure StoredAs (C : Coding) (s : Submission) (c : Content) : Prop where
  path : C.setPath s.entry.inner.path.bytes = .ok c.path.bytes
  info : c.info = s.entry.inner.info.stored
  fits : s.entry.inner.info.kind.Fits
  length : c.data.length = s.entry.inner.size.toNat
  body : ∀ (F : Feed IoError s.R) data, Supplied F s.entry.inner data → c.data = data

/-- The entry can be stored without loss: its path is of names only, its link target and its mode
fit their fields, and its body has the declared length, however it comes. -/
structure Gives (s : Submission) (c : Content) : Prop where
  path : s.entry.inner.path = c.path
  info : s.entry.inner.info = c.info
  normalized : c.path.Normalized
  fits : c.info.kind.Fits
  mode : c.info.mode.toNat < 8 ^ 7
  delivers : ∃ F : Feed IoError s.R, Nonempty F.Fair ∧ F.Faultless ∧ Supplied F s.entry.inner c.data

end Submission

section Stored

variable {B : Builder} (hlinks : B.SetsLinks) {C : Coding} {H : HeaderFields} {F : TarFormat H} (rd : C.Reads F)

include hlinks

/-- A header is made exactly when the target fits. -/
theorem header_ok {R : Type} (entry : PackEntry R) :
    (∃ header, entry.header B = .ok header) ↔ entry.info.kind.Fits := by
  have hset : ∀ target (f : LinkField → Header),
      (∃ header, (B.setLinkName target).map f = .ok header) ↔ LinkField.Fits (storedTarget target) := by
    intro target f
    by_cases hfits : LinkField.Fits (storedTarget target)
    · obtain ⟨field, hfield, -⟩ := hlinks.stores hfits
      rw [hfield]
      exact iff_of_true ⟨_, rfl⟩ hfits
    · obtain ⟨e, he⟩ := hlinks.refuses hfits
      rw [he]
      refine iff_of_false ?_ hfits
      rintro ⟨header, h⟩
      cases h
  unfold PackEntry.header
  cases entry.info.kind with
  | file => exact iff_of_true ⟨_, rfl⟩ trivial
  | dir => exact iff_of_true ⟨_, rfl⟩ trivial
  | symlink target => exact hset target _
  | hardlink target => exact hset target _

theorem header_fields {R : Type} {entry : WriteEntry R} {header : Header} (h : entry.inner.header B = .ok header) :
    header.size = entry.inner.size ∧ header.mode = entry.inner.info.mode ∧
      header.uid = entry.inner.info.uid.toUInt64 ∧ header.gid = entry.inner.info.gid.toUInt64 ∧
      header.mtime = entry.inner.info.mtimeUnixSecs ∧ entry.inner.info.kind.stored.SetOn header := by
  have hzero : entry.inner.info.kind ≠ .file → entry.inner.size = 0 := by
    intro hk
    rcases entry.checked with ⟨hf, -⟩ | ⟨-, h0, -⟩
    · exact absurd hf hk
    · exact h0
  have hset : ∀ {target} {f : LinkField → Header}, (B.setLinkName target).map f = .ok header →
      ∃ field, f field = header ∧ field.text = storedTarget target ∧ storedTarget target ≠ [] := by
    intro target f h
    by_cases hfits : LinkField.Fits (storedTarget target)
    · obtain ⟨field, hfield, htext⟩ := hlinks.stores hfits
      rw [hfield] at h
      exact ⟨field, Except.ok.inj h, htext, hfits.1⟩
    · obtain ⟨e, he⟩ := hlinks.refuses hfits
      rw [he] at h
      cases h
  unfold PackEntry.header at h
  cases hkind : entry.inner.info.kind with
  | file =>
    rw [hkind] at h
    cases h
    exact ⟨rfl, rfl, rfl, rfl, rfl, rfl⟩
  | dir =>
    rw [hkind] at h hzero
    cases h
    exact ⟨(hzero (by simp)).symm, rfl, rfl, rfl, rfl, rfl, rfl⟩
  | symlink target =>
    rw [hkind] at h hzero
    obtain ⟨field, rfl, htext, hne⟩ := hset h
    exact ⟨(hzero (by simp)).symm, rfl, rfl, rfl, rfl, rfl, rfl, htext, hne⟩
  | hardlink target =>
    rw [hkind] at h hzero
    obtain ⟨field, rfl, htext, hne⟩ := hset h
    exact ⟨(hzero (by simp)).symm, rfl, rfl, rfl, rfl, rfl, rfl, htext, hne⟩

include rd

theorem files_of_stored {s : Submission} {m : Member} (h : Stored B C s.entry.inner m) :
    ∃ c, s.StoredAs C c ∧ m.Files c := by
  obtain ⟨hsize, hmode, huid, hgid, hmtime, hkind⟩ := header_fields hlinks h.header
  obtain ⟨q, hpath, -⟩ := rd.setPath h.path
  have hlen : m.body.length = s.entry.inner.size.toNat := by
    have hwhole := h.whole
    rcases s.entry.checked with ⟨-, hb⟩ | ⟨-, h0, hb⟩
    · obtain ⟨b, hb⟩ := Option.isSome_iff_exists.mp hb
      rw [hb] at hwhole
      obtain ⟨e, hend, hm⟩ := hwhole
      exact Exact.length_ended hend hm
    · rw [hb] at hwhole
      rw [hwhole, h0]
      rfl
  refine ⟨⟨q, s.entry.inner.info.stored, m.body⟩,
    ⟨h.path.trans (congrArg _ hpath), rfl, (header_ok hlinks _).mp ⟨_, h.header⟩, hlen, fun F data hdata => h.body_eq hdata⟩,
    ⟨hpath, rfl, ?_, ?_, huid, hgid, hmtime, hkind⟩⟩
  · rw [hsize]
    exact hlen.symm
  · rw [hmode]
    rfl

end Stored

section Runs

variable {B : Builder} {E : Encoder} {C : Coding} {Frame : List UInt8 → List UInt8 → Prop}
variable {W : Type} [AsyncWrite IoError W]

/-- Appends one after the other, all of which succeeded. -/
inductive Writer.Appends (start : Writer B E W) : List Submission → Writer B E W → Prop where
  | start : Appends start [] start
  | append {es : List Submission} {ω : Writer B E W} (h : Appends start es ω) (s : Submission) (polls : Nat)
      (hok : (ω.append polls s.entry).1 = .done (.ok ())) : Appends start (es ++ [s]) (ω.append polls s.entry).2

/-- Where a writer stands that was given `es`: it holds a member for each. -/
structure Writer.Stands (pk : B.Packs C) (enc : E.Encodes Frame) (D : Drain IoError W) (format : Format)
    (es : List Submission) (ω : Writer B E W) (ms : List Member) (cs : List Content) : Prop where
  live : ω.failed = false
  format_eq : ω.inner.format = format
  stored : List.Forall₂ (Submission.StoredAs C) es cs
  files : List.Forall₂ Member.Files ms cs
  holds : ω.inner.Holds pk enc D (C.stream ms)

variable (pk : B.Packs C) (enc : E.Encodes Frame) {D : Drain IoError W}
variable (hlinks : B.SetsLinks) {H : HeaderFields} {F : TarFormat H} (rd : C.Reads F)

include hlinks rd in
theorem stands_of_appends {sink : W} (hsink : D.Holds sink []) {format : Format} {es : List Submission}
    {ω : Writer B E W} (h : (Writer.new sink format).Appends es ω) :
    ∃ ms cs, ω.Stands pk enc D format es ms cs := by
  generalize hstart : (Writer.new sink format : Writer B E W) = start at h
  induction h with
  | start =>
    subst hstart
    refine ⟨[], [], ?_, ?_, .nil, .nil, holds_new pk enc hsink format⟩
    · simp [Writer.new]
    · cases format <;> rfl
  | @append es ω h s polls hok ih =>
    obtain ⟨ms, cs, hstands⟩ := ih
    obtain ⟨hformat, hflag⟩ : (ω.append polls s.entry).2.inner.format = _ ∧ _ := append_flag polls s.entry
    obtain ⟨m, hm, hholds⟩ := append_ok pk enc hstands.holds hok
    obtain ⟨c, hstored, hfiles⟩ := files_of_stored hlinks rd hm
    refine ⟨ms ++ [m], cs ++ [c], hflag.mpr hok, hformat.trans hstands.format_eq,
      List.rel_append hstands.stored (.cons hstored .nil), List.rel_append hstands.files (.cons hfiles .nil), ?_⟩
    rw [Coding.stream, List.flatMap_append, List.flatMap_singleton]
    exact hholds

end Runs

section Successes

variable {B : Builder} {E : Encoder} {C : Coding} {Frame : List UInt8 → List UInt8 → Prop}
variable {W : Type} [AsyncWrite IoError W] (pk : B.Packs C) (enc : E.Encodes Frame) {D : Drain IoError W}

theorem append_more {R : Type} [AsyncRead IoError R] (k : Nat) {polls : Nat} {ω : Writer B E W} {entry : WriteEntry R}
    (h : (ω.append polls entry).1 ≠ .cancelled) : ω.append (polls + k) entry = ω.append polls entry := by
  unfold Writer.append at h ⊢
  split
  · rfl
  · rename_i hf
    rw [if_neg hf] at h
    cases hin : ω.inner with
    | tar builder sink =>
      rw [hin] at h
      simp only [pack_more k (show (pack polls builder sink entry.inner).result ≠ .cancelled from h)]
    | tarZstd builder sink =>
      rw [hin] at h
      simp only [pack_more k (show (pack polls builder sink entry.inner).result ≠ .cancelled from h)]

theorem close_more {S : Type} [AsyncWrite IoError S] (k : Nat) {polls : Nat} {builder : B.State} {sink : S}
    (h : (Writer.close polls builder sink).1 ≠ .cancelled) :
    Writer.close (polls + k) builder sink = Writer.close polls builder sink := by
  unfold Writer.close at h ⊢
  generalize (⟨B.intoInner builder, Empty.mk, sink⟩ : At B Empty S) = p at h ⊢
  have hdrive : (B.drive polls p).result ≠ .cancelled := by
    intro hc
    simp only [hc] at h
    exact h rfl
  rw [B.drive_more k hdrive]
  generalize B.drive polls p = d at h hdrive ⊢
  obtain ⟨res, rest, left⟩ := d
  dsimp only at h hdrive ⊢
  cases res with
  | cancelled => exact absurd rfl hdrive
  | done res =>
    cases res with
    | error e => rfl
    | ok =>
      have hshut : (shutdown left rest.sink).1 ≠ .cancelled := by
        intro hc
        generalize shutdown left rest.sink = p at h hc
        obtain ⟨res, sink'⟩ := p
        obtain rfl : res = .cancelled := hc
        exact h rfl
      dsimp only
      rw [shutdown_more k hshut]

theorem finish_more (k : Nat) {polls : Nat} {ω : Writer B E W} (h : (ω.finish polls).1 ≠ .cancelled) :
    ω.finish (polls + k) = ω.finish polls := by
  unfold Writer.finish at h ⊢
  split
  · rfl
  · rename_i hf
    rw [if_neg hf] at h
    cases hin : ω.inner with
    | tar builder sink =>
      rw [hin] at h
      dsimp only at h
      have hclose : (Writer.close polls builder sink).1 ≠ .cancelled := by
        intro hc
        generalize Writer.close polls builder sink = p at h hc
        obtain ⟨res, builder', sink'⟩ := p
        obtain rfl : res = .cancelled := hc
        exact h rfl
      simp only [close_more k hclose]
    | tarZstd builder sink =>
      rw [hin] at h
      dsimp only at h
      have hclose : (Writer.close polls builder sink).1 ≠ .cancelled := by
        intro hc
        generalize Writer.close polls builder sink = p at h hc
        obtain ⟨res, builder', sink'⟩ := p
        obtain rfl : res = .cancelled := hc
        exact h rfl
      simp only [close_more k hclose]

variable (Q : D.Fair) (hD : D.Faultless)

omit [AsyncWrite IoError W] in
include pk in
theorem close_completes {S : Type} [AsyncWrite IoError S] {K : Drain IoError S} (Q : K.Fair) (hK : K.Faultless)
    {builder : B.State} {sink : S} {s : List UInt8} (hφ : pk.phase builder = .tail []) (hsink : K.Holds sink s) :
    ∃ N, (Writer.close N builder sink).1 = .done (.ok ()) := by
  obtain ⟨N, q, hq⟩ := drive_completes pk Empty.fair Empty.faultless Q hK
    (p := ⟨B.intoInner builder, Empty.mk, sink⟩) ⟨rfl, rfl⟩ hsink
    (fun e he => by cases (pk.inner hφ).symm.trans he)
  have hholds := intoInner_ok pk hφ hsink (hq 0) rfl
  obtain ⟨N', hN'⟩ := shutdown_completes Q hK hholds
  refine ⟨N + N', ?_⟩
  have hdone := hN' N' (le_refl N')
  unfold Writer.close
  rw [hq]
  dsimp only at hdone ⊢
  generalize shutdown N' q.sink = p at hdone
  obtain ⟨res, sink'⟩ := p
  obtain rfl : res = .done (.ok ()) := hdone
  rfl

include pk enc Q hD in
theorem finish_completes {ω : Writer B E W} {s : List UInt8} (hlive : ω.failed = false)
    (h : ω.inner.Holds pk enc D s) : ∃ N out, (ω.finish N).1 = .done (.ok out) := by
  obtain ⟨inner, failed⟩ := ω
  obtain rfl : failed = false := hlive
  cases inner with
  | tar builder sink =>
    obtain ⟨N, hN⟩ := close_completes pk (Counted.fair Q) (Counted.faultless hD) h.1 h.2
    refine ⟨N, ?_⟩
    simp only [Writer.finish, Bool.false_eq_true, if_false]
    generalize Writer.close N builder sink = p at hN
    obtain ⟨res, builder', sink'⟩ := p
    obtain rfl : res = .done (.ok ()) := hN
    exact ⟨_, rfl⟩
  | tarZstd builder sink =>
    obtain ⟨N, hN⟩ := close_completes pk (ZstdEncoder.fair enc (Counted.fair Q))
      (ZstdEncoder.faultless enc (Counted.faultless hD)) h.1 h.2
    refine ⟨N, ?_⟩
    simp only [Writer.finish, Bool.false_eq_true, if_false]
    generalize Writer.close N builder sink = p at hN
    obtain ⟨res, builder', sink'⟩ := p
    obtain rfl : res = .done (.ok ()) := hN
    exact ⟨_, rfl⟩

include pk enc Q hD in
theorem append_completes {ω : Writer B E W} {tar : List UInt8} (hlive : ω.failed = false)
    (h : ω.inner.Holds pk enc D tar) {s : Submission} {G : Feed IoError s.R} (P : G.Fair) (hG : G.Faultless)
    {data : List UInt8} (hdata : Supplied G s.entry.inner data) {header : Header}
    (hheader : s.entry.inner.header B = .ok header) {path : List UInt8}
    (hpath : C.setPath s.entry.inner.path.bytes = .ok path) : ∃ N, (ω.append N s.entry).1 = .done (.ok ()) := by
  obtain ⟨inner, failed⟩ := ω
  obtain rfl : failed = false := hlive
  cases inner with
  | tar builder sink =>
    obtain ⟨N, hN⟩ := pack_completes pk P hG (Counted.fair Q) (Counted.faultless hD) h.1 h.2 hdata hheader hpath
    exact ⟨N + 0, hN 0⟩
  | tarZstd builder sink =>
    obtain ⟨N, hN⟩ := pack_completes pk P hG (ZstdEncoder.fair enc (Counted.fair Q))
      (ZstdEncoder.faultless enc (Counted.faultless hD)) h.1 h.2 hdata hheader hpath
    exact ⟨N + 0, hN 0⟩

end Successes

end Etar
