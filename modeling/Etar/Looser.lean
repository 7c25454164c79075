import Etar.Compress
import Etar.Exact
import Etar.GuardSpec
import Etar.Bounded
import Etar.PullSpec
import Etar.ReaderRun
import Etar.Tally

/-!
# Looser limits

Limits are ordered by what they let through. Whatever a reader gets done under some limits it
gets done under looser ones as well, poll by poll: limits decide whether a run goes on, never
what it sees.
-/

/-!
## Readers in lockstep

Two readers of which the second answers as the first does for as long as the first does not
fail. What drives them the same way then sees the same of both.
-/
namespace AsyncIo

variable {ε R : Type}

/-- The same answer and the same bytes, and readers that are related again. -/
structure Polled.Alike (rel : R → R → Prop) (p p' : Polled ε R) : Prop where
  outcome : p'.outcome = p.outcome
  buf : p'.buf = p.buf
  reader : rel p.reader p'.reader

/-- An answer that is no error. -/
def Poll.Good {α : Type} (p : Poll (Except ε α)) : Prop := ∀ e, p ≠ .ready (.error e)

@[simp] theorem Poll.good_pending {α : Type} : (.pending : Poll (Except ε α)).Good := by
  intro e h
  cases h

@[simp] theorem Poll.good_ok {α : Type} (a : α) : (.ready (.ok a) : Poll (Except ε α)).Good := by
  intro e h
  cases h

theorem Poll.not_good_error {α : Type} {e : ε} (h : (.ready (.error e) : Poll (Except ε α)).Good) : False := h e rfl

variable [AsyncRead ε R]

/-- A poll of related readers that the first does not fail is answered alike. -/
def Lockstep (rel : R → R → Prop) : Prop :=
  ∀ {r r' : R}, rel r r' → ∀ buf, (pollRead r buf).outcome.Good → (pollRead r buf).Alike rel (pollRead r' buf)

/-- A reader is in lockstep with itself. -/
theorem Lockstep.same : Lockstep (R := R) (· = ·) := by
  intro r r' h buf hgood
  subst h
  exact ⟨rfl, rfl, rfl⟩

end AsyncIo

namespace Etar

open AsyncIo Limit Compress

/-- The second limits allow whatever the first do. -/
structure SecurityLimits.Looser (limits limits' : SecurityLimits) : Prop where
  entries : limits.maxEntries.toNat ≤ limits'.maxEntries.toNat
  totalBytes : limits.maxTotalBytes.toNat ≤ limits'.maxTotalBytes.toNat
  entryBytes : limits.maxEntryBytes.toNat ≤ limits'.maxEntryBytes.toNat
  pathLen : limits.maxPathLen.toNat ≤ limits'.maxPathLen.toNat
  metadataBytes : limits.maxMetadataBytes.toNat ≤ limits'.maxMetadataBytes.toNat
  compressionRatio : limits.maxCompressionRatio.toNat ≤ limits'.maxCompressionRatio.toNat
  symlinks : limits.allowSymlinks = true → limits'.allowSymlinks = true
  hardlinks : limits.allowHardlinks = true → limits'.allowHardlinks = true

instance : LE SecurityLimits := ⟨SecurityLimits.Looser⟩

namespace SecurityLimits

theorem le_refl (limits : SecurityLimits) : limits ≤ limits :=
  ⟨Nat.le_refl _, Nat.le_refl _, Nat.le_refl _, Nat.le_refl _, Nat.le_refl _, Nat.le_refl _, id, id⟩

theorem le_trans {l₁ l₂ l₃ : SecurityLimits} (h : l₁ ≤ l₂) (h' : l₂ ≤ l₃) : l₁ ≤ l₃ where
  entries := Nat.le_trans h.entries h'.entries
  totalBytes := Nat.le_trans h.totalBytes h'.totalBytes
  entryBytes := Nat.le_trans h.entryBytes h'.entryBytes
  pathLen := Nat.le_trans h.pathLen h'.pathLen
  metadataBytes := Nat.le_trans h.metadataBytes h'.metadataBytes
  compressionRatio := Nat.le_trans h.compressionRatio h'.compressionRatio
  symlinks := h'.symlinks ∘ h.symlinks
  hardlinks := h'.hardlinks ∘ h.hardlinks

/-- A setter that lowers its bound only restricts. -/
theorem withMaxEntries_le {limits : SecurityLimits} {max : UInt64} (h : max.toNat ≤ limits.maxEntries.toNat) :
    limits.withMaxEntries max ≤ limits :=
  { limits.le_refl with entries := h }

theorem withMaxTotalBytes_le {limits : SecurityLimits} {max : UInt64}
    (h : max.toNat ≤ limits.maxTotalBytes.toNat) : limits.withMaxTotalBytes max ≤ limits :=
  { limits.le_refl with totalBytes := h }

end SecurityLimits

section Entries

variable {H : HeaderFields} {limits limits' : SecurityLimits} {entry : TarEntry}

theorem validatePath_looser (hle : limits ≤ limits') {path : SafePath} (h : validatePath entry limits = .ok path) :
    validatePath entry limits' = .ok path := by
  unfold validatePath at h ⊢
  split at h
  · cases h
  · split at h
    · cases h
    · rename_i hlen
      rw [if_neg (Nat.not_lt.mpr (Nat.le_trans (Nat.not_lt.mp hlen) hle.pathLen))]
      exact h

theorem classify_looser (hle : limits ≤ limits') {kind : Kind} (h : classify H entry limits = .ok kind) :
    classify H entry limits' = .ok kind := by
  unfold classify at h ⊢
  split at h
  · exact h
  · exact h
  · exact h
  · split at h
    · rename_i hallow
      rw [if_pos (hle.symlinks hallow)]
      exact h
    · cases h
  · split at h
    · rename_i hallow
      rw [if_pos (hle.hardlinks hallow)]
      exact h
    · cases h
  · cases h

/-- An entry that is opened under some limits is the same under looser ones, but for the bound
on its body. -/
theorem openEntry_looser (hle : limits ≤ limits') {e : ReadEntry} (h : openEntry H entry () limits = .ok e) :
    openEntry H entry () limits' = .ok { e with body := .new () limits'.maxEntryBytes.toNat } := by
  obtain ⟨hpath, hkind, ⟨size, hsize, hbytes, hbody⟩, hmax, hmeta, -⟩ := openEntry_ok H h
  unfold openEntry
  rw [validatePath_looser hle hpath, classify_looser hle hkind, hsize]
  have hpayload : ¬ (e.info.kind ≠ .file ∧ size ≠ 0) := fun h => h.2 (hbody h.1)
  have hentry : ¬ limits'.maxEntryBytes.toNat < size.toNat := by
    have := hle.entryBytes
    omega
  show (if _ then _ else if _ then _ else _) = _
  rw [if_neg hpayload, if_neg hentry, hmeta, ← hbytes]
  rfl

end Entries

section Bounds

variable {R : Type}

theorem Limit.breach_looser {total compressed max max' maxRatio maxRatio' read : Nat} (hmax : max ≤ max')
    (hratio : maxRatio ≤ maxRatio') (h : (breach total compressed max maxRatio read).2 = none) :
    breach total compressed max' maxRatio' read = ((breach total compressed max maxRatio read).1, none) := by
  have hmul : saturatingMul compressed maxRatio ≤ saturatingMul compressed maxRatio' :=
    by
    have := Nat.mul_le_mul_left compressed hratio
    unfold saturatingMul
    omega
  unfold breach at h ⊢
  dsimp only at h ⊢
  split_ifs at h with htotal hfloor
  have htotal' : ¬ max' < wrappingAdd total read := by omega
  have hfloor' : ¬ (ratioFloorBytes < wrappingAdd total read ∧ 0 < compressed ∧
      saturatingMul compressed maxRatio' < wrappingAdd total read) := by
    rintro ⟨hlow, hpos, hlt⟩
    exact hfloor ⟨hlow, hpos, by omega⟩
  rw [if_neg htotal', if_neg hfloor']

/-- The same cap with other bounds. -/
abbrev Limit.Cap.bounding {count : R → Nat} (c : Cap count) (max maxRatio : Nat) : Cap count :=
  { c with max := max, maxRatio := maxRatio }

/-- The same cap with looser bounds. -/
inductive Limit.Cap.Looser {count : R → Nat} : Cap count → Cap count → Prop where
  | mk {c : Cap count} {max maxRatio : Nat} (hmax : c.max ≤ max) (hratio : c.maxRatio ≤ maxRatio) :
      Looser c (c.bounding max maxRatio)

variable [AsyncRead IoError R]

/-- What a cap charges a poll of its inner reader with. -/
abbrev Limit.Cap.charge {count : R → Nat} (c : Cap count) (buf : ReadBuf) : Nat × Option String :=
  breach c.total (count (pollRead c.inner buf).reader) c.max c.maxRatio
    (buf.added (pollRead c.inner buf).buf).length

/-- Bytes that break a bound are an error. -/
theorem Limit.Cap.poll_charged_some {count : R → Nat} {c : Cap count} (hf : c.failed = false) {buf : ReadBuf}
    (hread : 0 < (buf.added (pollRead c.inner buf).buf).length) {reason : String}
    (hb : (c.charge buf).2 = some reason) : (c.poll buf).outcome = .ready (.error (capError reason)) := by
  unfold Cap.poll
  dsimp only
  rw [if_neg (by simp [hf]), if_pos hread, hb]

theorem Limit.Cap.poll_charged_none {count : R → Nat} {c : Cap count} (hf : c.failed = false) {buf : ReadBuf}
    (hread : 0 < (buf.added (pollRead c.inner buf).buf).length) (hb : (c.charge buf).2 = none) :
    c.poll buf = ⟨(pollRead c.inner buf).outcome, (pollRead c.inner buf).buf,
      { c with inner := (pollRead c.inner buf).reader, total := (c.charge buf).1 }⟩ := by
  unfold Cap.poll
  dsimp only
  rw [if_neg (by simp [hf]), if_pos hread, hb]

theorem Limit.Cap.poll_uncharged {count : R → Nat} {c : Cap count} (hf : c.failed = false) {buf : ReadBuf}
    (hread : ¬ 0 < (buf.added (pollRead c.inner buf).buf).length) :
    c.poll buf = ⟨(pollRead c.inner buf).outcome, (pollRead c.inner buf).buf,
      { c with inner := (pollRead c.inner buf).reader }⟩ := by
  unfold Cap.poll
  dsimp only
  rw [if_neg (by simp [hf]), if_neg hread]

theorem Limit.Cap.lockstep {count : R → Nat} : Lockstep (Cap.Looser : Cap count → Cap count → Prop) := by
  intro c c' h buf hgood
  obtain ⟨hmax, hratio⟩ := h
  rename_i max maxRatio
  change (c.poll buf).outcome.Good at hgood
  show (c.poll buf).Alike _ ((c.bounding max maxRatio).poll buf)
  by_cases hf : c.failed = true
  · rw [Cap.poll_failed hf] at hgood
    exact (Poll.not_good_error hgood).elim
  · have hf := eq_false_of_ne_true hf
    by_cases hread : 0 < (buf.added (pollRead c.inner buf).buf).length
    · cases hb : (c.charge buf).2 with
      | some reason =>
        rw [Cap.poll_charged_some hf hread hb] at hgood
        exact (Poll.not_good_error hgood).elim
      | none =>
        have hb' : (c.bounding max maxRatio).charge buf = ((c.charge buf).1, none) :=
          breach_looser hmax hratio hb
        have hpoll := Cap.poll_charged_none (c := c.bounding max maxRatio) hf hread (by rw [hb'])
        rw [Cap.poll_charged_none hf hread hb, hpoll, hb']
        exact ⟨rfl, rfl, Cap.Looser.mk (c := ⟨_, _, c.max, c.maxRatio, _⟩) hmax hratio⟩
    · have hpoll := Cap.poll_uncharged (c := c.bounding max maxRatio) hf hread
      rw [Cap.poll_uncharged hf hread, hpoll]
      exact ⟨rfl, rfl, Cap.Looser.mk (c := ⟨_, _, c.max, c.maxRatio, _⟩) hmax hratio⟩

/-- Bounds over readers in lockstep, the second one the looser. -/
inductive Limit.Bounded.Looser (rel : R → R → Prop) : Bounded R → Bounded R → Prop where
  | mk {b : Bounded R} {inner : R} {remaining : Nat} (hinner : rel b.inner inner) (hle : b.remaining ≤ remaining) :
      Looser rel b { b with inner := inner, remaining := remaining }

theorem Limit.Bounded.lockstep {rel : R → R → Prop} (hrel : Lockstep rel) : Lockstep (Bounded.Looser rel) := by
  intro b b' h buf hgood
  obtain ⟨hinner, hle⟩ := h
  rename_i inner remaining
  change (b.poll buf).outcome.Good at hgood
  show (b.poll buf).Alike _ (Bounded.poll { b with inner := inner, remaining := remaining } buf)
  by_cases hf : b.failed = true
  · rw [Bounded.poll_failed hf] at hgood
    exact (Poll.not_good_error hgood).elim
  · have hf := eq_false_of_ne_true hf
    by_cases hover : b.remaining < (b.pulled buf).length
    · rw [Bounded.poll_over hf hover] at hgood
      exact (Poll.not_good_error hgood).elim
    · rw [Bounded.poll_under hf (Nat.not_lt.mp hover)] at hgood ⊢
      obtain ⟨houtcome, hbuf, hreader⟩ := hrel hinner buf hgood
      have hsame : buf.added (pollRead inner buf).buf = b.pulled buf := by rw [hbuf]
      have hunder : (buf.added (pollRead inner buf).buf).length ≤ remaining := by
        rw [hsame]
        omega
      rw [Bounded.poll_under (b := { b with inner := inner, remaining := remaining }) hf hunder]
      refine ⟨houtcome, hbuf, Bounded.Looser.mk (b := ⟨_, _, b.failed⟩) hreader ?_⟩
      show _ ≤ remaining - (buf.added (pollRead inner buf).buf).length
      rw [hsame]
      exact Nat.sub_le_sub_right hle _

end Bounds

namespace Guard.HeaderGuard

variable {H : HeaderFields} {R : Type}

/-- The same guard over another reader, with another bound. -/
abbrev bounding (g : HeaderGuard H R) (inner : R) (max : Nat) : HeaderGuard H R :=
  { g with inner := inner, maxMetadataBytes := max }

/-- Guards over readers in lockstep, the second one the looser. -/
inductive Looser (rel : R → R → Prop) : HeaderGuard H R → HeaderGuard H R → Prop where
  | mk {g : HeaderGuard H R} {inner : R} {max : Nat} (hinner : rel g.inner inner) (hmax : g.maxMetadataBytes ≤ max) :
      Looser rel g (g.bounding inner max)

/-- Settling, inspecting and handing out a header leave guards in lockstep. -/
theorem settle_lockstep {rel : R → R → Prop} {g g' : HeaderGuard H R} (h : Looser rel g g') :
    g'.settle.1 = g.settle.1 ∧ Looser rel g.settle.2 g'.settle.2 := by
  obtain ⟨hinner, hmax⟩ := h
  unfold settle
  dsimp only
  split_ifs
  · cases g.paxBody with
    | none => exact ⟨rfl, ⟨hinner, hmax⟩⟩
    | some body =>
      dsimp only
      cases Pax.parsePaxSize body with
      | error e => exact ⟨rfl, Looser.mk (g := { g with paxBody := none }) hinner hmax⟩
      | ok size => exact ⟨rfl, Looser.mk (g := { g with paxBody := none, paxSize := size }) hinner hmax⟩
  · exact ⟨rfl, ⟨hinner, hmax⟩⟩

/-- A header that passes passes a looser guard. -/
theorem inspect_lockstep {rel : R → R → Prop} {g g' : HeaderGuard H R} (h : Looser rel g g')
    (hok : g.inspect.1 = .ok ()) : g'.inspect.1 = .ok () ∧ Looser rel g.inspect.2 g'.inspect.2 := by
  obtain ⟨hinner, hmax⟩ := h
  rename_i inner max
  unfold inspect at hok ⊢
  by_cases hzero : g.header.isZero = true
  · rw [if_pos hzero, if_pos hzero]
    exact ⟨rfl, Looser.mk (g := { g with nextTrailer := true }) hinner hmax⟩
  · rw [if_neg hzero] at hok
    rw [if_neg hzero, if_neg hzero]
    by_cases hflag : g.header.typeflag ∉ allowedFlags
    · rw [if_pos hflag] at hok
      cases hok
    · rw [if_neg hflag] at hok
      rw [if_neg hflag, if_neg hflag]
      cases hs : H.size g.header with
      | none =>
        rw [hs] at hok
        cases hok
      | some rawSize =>
        rw [hs] at hok
        dsimp only at hok ⊢
        by_cases hlarge : isExtension g.header.typeflag = true ∧ g.maxMetadataBytes < rawSize.toNat
        · rw [if_pos hlarge] at hok
          cases hok
        · have hlarge' : ¬ (isExtension g.header.typeflag = true ∧ max < rawSize.toNat) :=
            fun h => hlarge ⟨h.1, by omega⟩
          rw [if_neg hlarge] at hok
          rw [if_neg hlarge, if_neg hlarge']
          generalize (if isExtension g.header.typeflag = true then rawSize.toNat
            else g.paxSize.getD rawSize.toNat) = size at hok ⊢
          cases hr : checkedAdd size 511 with
          | none =>
            rw [hr] at hok
            cases hok
          | some rounded =>
            exact ⟨rfl, Looser.mk (g := { g with
              paxBody := _, paxRemaining := _, paxSize := _, nextData := _ }) hinner hmax⟩

theorem emit_lockstep {rel : R → R → Prop} {g g' : HeaderGuard H R} (h : Looser rel g g') (out : ReadBuf) :
    (g.emit out).Alike (Looser rel) (g'.emit out) := by
  obtain ⟨hinner, hmax⟩ := h
  rename_i inner max
  have hsettle := settle_lockstep (H := H) (Looser.mk (g := { g with
    filled := 0, emitted := 0, dataRemaining := g.nextData, nextData := 0, trailer := g.nextTrailer }) hinner hmax)
  unfold emit
  dsimp only at hsettle ⊢
  split_ifs
  · obtain ⟨hsame, hlooser⟩ := hsettle
    exact ⟨by rw [hsame], rfl, hlooser⟩
  · exact ⟨rfl, rfl, Looser.mk (g := { g with emitted := _ }) hinner hmax⟩

variable [AsyncRead IoError R] {rel : R → R → Prop}

/-- What filling the header ended with, where it did not fail, it ends with again. -/
theorem fill_lockstep (hrel : Lockstep rel) (fuel : Nat) {g g' : HeaderGuard H R} (h : Looser rel g g')
    (hok : ∀ e, (g.fill fuel).1 ≠ .failed e) :
    (g'.fill fuel).1 = (g.fill fuel).1 ∧ Looser rel (g.fill fuel).2 (g'.fill fuel).2 := by
  induction fuel generalizing g g' with
  | zero => exact ⟨rfl, h⟩
  | succ fuel ih =>
    obtain ⟨hinner, hmax⟩ := h
    rename_i inner max
    unfold fill at hok ⊢
    by_cases hf : g.filled < 512
    · rw [dif_pos hf] at hok
      rw [dif_pos hf, dif_pos hf]
      dsimp only at hok ⊢
      have hpoll := hrel hinner (.new (512 - g.filled))
      cases ho : (pollRead g.inner (.new (512 - g.filled))).outcome with
      | pending =>
        rw [ho] at hpoll
        obtain ⟨houtcome, -, hreader⟩ := hpoll Poll.good_pending
        rw [houtcome, ho]
        exact ⟨rfl, Looser.mk (g := { g with inner := _ }) hreader hmax⟩
      | ready res =>
        cases res with
        | error e =>
          rw [ho] at hok
          exact absurd rfl (hok e)
        | ok =>
          rw [ho] at hpoll hok
          obtain ⟨houtcome, hbuf, hreader⟩ := hpoll (Poll.good_ok ())
          rw [houtcome, ho]
          dsimp only at hok ⊢
          by_cases hnil : (pollRead g.inner (.new (512 - g.filled))).buf.filled = []
          · rw [if_pos hnil, if_pos (hbuf ▸ hnil)]
            exact ⟨rfl, Looser.mk (g := { g with inner := _ }) hreader hmax⟩
          · rw [if_neg hnil] at hok
            rw [if_neg hnil, if_neg (hbuf ▸ hnil)]
            refine ih ?_ hok
            simp only [hbuf]
            exact Looser.mk (g := { g with inner := _, header := _, filled := _ }) hreader hmax
    · rw [dif_neg hf, dif_neg hf]
      exact ⟨rfl, ⟨hinner, hmax⟩⟩

/-- The guard when payload bytes came from its inner reader. -/
abbrev received (g : HeaderGuard H R) (inner : R) (bytes : List UInt8) : HeaderGuard H R :=
  let g : HeaderGuard H R := capture { g with inner := inner } bytes
  { g with dataRemaining := g.dataRemaining - bytes.length }

omit [AsyncRead IoError R] in
theorem received_lockstep {g g' : HeaderGuard H R} (h : Looser rel g g') {inner inner' : R} (hinner : rel inner inner')
    (bytes : List UInt8) : Looser rel (g.received inner bytes) (g'.received inner' bytes) := by
  obtain ⟨-, hmax⟩ := h
  unfold received capture
  dsimp only
  cases g.paxBody with
  | none => exact Looser.mk (g := { g with inner := inner, paxBody := none, dataRemaining := _ }) hinner hmax
  | some body =>
    exact Looser.mk (g := { g with inner := inner, paxBody := _, paxRemaining := _, dataRemaining := _ }) hinner hmax

theorem readData_ok {g : HeaderGuard H R} {out : ReadBuf}
    (ho : (pollRead g.inner (out.take (min g.dataRemaining usizeMax))).outcome = .ready (.ok ())) :
    g.readData out =
      let p := pollRead g.inner (out.take (min g.dataRemaining usizeMax))
      let settled := (g.received p.reader p.buf.filled).settle
      ⟨.ready (settled.1.mapError .own), out.advance p.buf (capacity_pollRead_take _ _ _), settled.2⟩ := by
  simp only [readData, ho]

theorem readData_lockstep (hrel : Lockstep rel) {g g' : HeaderGuard H R} (h : Looser rel g g') {out : ReadBuf}
    (hgood : ∀ e, (g.readData out).outcome ≠ .ready (.error (.inner e))) :
    (g.readData out).Alike (Looser rel) (g'.readData out) := by
  have hlooser := h
  obtain ⟨hinner, hmax⟩ := h
  rename_i inner max
  have hpoll := hrel hinner (out.take (min g.dataRemaining usizeMax))
  cases ho : (pollRead g.inner (out.take (min g.dataRemaining usizeMax))).outcome with
  | pending =>
    rw [ho] at hpoll
    obtain ⟨houtcome, -, hreader⟩ := hpoll Poll.good_pending
    simp only [readData, ho, houtcome]
    exact ⟨rfl, rfl, Looser.mk (g := { g with inner := _ }) hreader hmax⟩
  | ready res =>
    cases res with
    | error e =>
      simp only [readData, ho] at hgood
      exact absurd rfl (hgood e)
    | ok =>
      rw [ho] at hpoll
      obtain ⟨houtcome, hbuf, hreader⟩ := hpoll (Poll.good_ok ())
      rw [readData_ok ho, readData_ok (houtcome.trans ho)]
      have hreceived := received_lockstep hlooser hreader
        (pollRead g.inner (out.take (min g.dataRemaining usizeMax))).buf.filled
      obtain ⟨hsettle, hsettled⟩ := settle_lockstep hreceived
      dsimp only
      simp only [hbuf]
      exact ⟨by rw [hsettle], rfl, hsettled⟩

/-- An answer of the guard that is no error. -/
theorem good_of_io {g : HeaderGuard H R} {out : ReadBuf} (hgood : (pollRead g out).outcome.Good) (e : Fault) :
    (g.poll out).outcome ≠ .ready (.error e) := by
  intro h
  apply hgood e.toIo
  exact pollRead_error.mpr ⟨e, h, rfl⟩

theorem poll_lockstep (hrel : Lockstep rel) {g g' : HeaderGuard H R} (h : Looser rel g g') {out : ReadBuf}
    (hgood : ∀ e, (g.poll out).outcome ≠ .ready (.error e)) : (g.poll out).Alike (Looser rel) (g'.poll out) := by
  have hlooser := h
  obtain ⟨hinner, hmax⟩ := h
  rename_i inner max
  by_cases hroom : out.remaining = 0
  · rw [poll, poll, if_pos hroom, if_pos hroom]
    exact ⟨rfl, rfl, hlooser⟩
  by_cases htrailer : g.trailer = true
  · rw [poll_passing htrailer hroom] at hgood ⊢
    rw [poll_passing (g := g.bounding inner max) htrailer hroom]
    have hpoll := hrel hinner out
    cases ho : (pollRead g.inner out).outcome with
    | pending =>
      rw [ho] at hpoll
      obtain ⟨houtcome, hbuf, hreader⟩ := hpoll Poll.good_pending
      dsimp only
      rw [houtcome, ho]
      exact ⟨rfl, hbuf, Looser.mk (g := { g with inner := _ }) hreader hmax⟩
    | ready res =>
      cases res with
      | error e =>
        rw [ho] at hgood
        exact absurd rfl (hgood (.inner e))
      | ok =>
        rw [ho] at hpoll
        obtain ⟨houtcome, hbuf, hreader⟩ := hpoll (Poll.good_ok ())
        dsimp only
        rw [houtcome, ho]
        exact ⟨rfl, hbuf, Looser.mk (g := { g with inner := _ }) hreader hmax⟩
  have htrailer := eq_false_of_ne_true htrailer
  by_cases hdata : g.dataRemaining = 0
  · have hcollect := poll_collecting htrailer hdata hroom
    have hcollect' := poll_collecting (g := g.bounding inner max) htrailer hdata hroom
    rw [hcollect] at hgood ⊢
    rw [hcollect']
    have hfill := fill_lockstep hrel (512 - g.filled) hlooser
    generalize g.fill (512 - g.filled) = q at hgood hfill ⊢
    generalize (g.bounding inner max).fill (512 - (g.bounding inner max).filled) = q' at hfill ⊢
    obtain ⟨res, g₁⟩ := q
    obtain ⟨res', g₁'⟩ := q'
    cases res with
    | failed e => exact absurd rfl (hgood (.inner e))
    | pending =>
      obtain ⟨hres, hlooser₁⟩ := hfill (fun e h => by cases h)
      cases hres
      exact ⟨rfl, rfl, hlooser₁⟩
    | eof =>
      obtain ⟨hres, hlooser₁⟩ := hfill (fun e h => by cases h)
      cases hres
      exact ⟨rfl, rfl, hlooser₁⟩
    | full =>
      obtain ⟨hres, hlooser₁⟩ := hfill (fun e h => by cases h)
      cases hres
      have hemitted : g₁'.emitted = g₁.emitted := by
        obtain ⟨-, -⟩ := hlooser₁
        rfl
      dsimp only at hgood ⊢
      rw [hemitted]
      by_cases hstart : g₁.emitted = 0
      · rw [if_pos hstart] at hgood
        rw [if_pos hstart, if_pos hstart]
        have hinspect := inspect_lockstep hlooser₁
        generalize g₁.inspect = i at hgood hinspect ⊢
        generalize g₁'.inspect = i' at hinspect ⊢
        obtain ⟨verdict, g₂⟩ := i
        obtain ⟨verdict', g₂'⟩ := i'
        cases verdict with
        | error e => exact absurd rfl (hgood (.own e))
        | ok =>
          obtain ⟨hverdict, hlooser₂⟩ := hinspect rfl
          cases hverdict
          exact emit_lockstep hlooser₂ out
      · rw [if_neg hstart, if_neg hstart]
        exact emit_lockstep hlooser₁ out
  · have hpos := Nat.pos_of_ne_zero hdata
    have hread : g.poll out = g.readData out := by
      rw [poll, if_neg hroom, if_neg (by simp [htrailer]), if_pos hpos]
    have hread' : (g.bounding inner max).poll out = (g.bounding inner max).readData out := by
      rw [poll, if_neg hroom, if_neg (by simp [htrailer]), if_pos hpos]
    rw [hread] at hgood ⊢
    rw [hread']
    exact readData_lockstep hrel hlooser fun e => hgood (.inner e)

theorem lockstep (hrel : Lockstep rel) : Lockstep (Looser (H := H) rel) := by
  intro g g' h buf hgood
  obtain ⟨houtcome, hbuf, hreader⟩ := poll_lockstep hrel h (good_of_io hgood)
  refine ⟨?_, hbuf, hreader⟩
  rw [pollRead_outcome, pollRead_outcome, houtcome]

end Guard.HeaderGuard

section Parsers

/-- A parser whose read failed hands out an error next. -/
def Tar.Reports (T : Tar) : Prop :=
  ∀ s n e, T.ask s = .read n → ∃ e', T.ask (T.fed s (.error e)) = .item (some (.error e'))

variable {T : Tar} {S : Type} [AsyncRead IoError S] {rel : S → S → Prop}

/-- Over sources in lockstep the parser hands out the same, up to the first error. -/
theorem Tar.pull_lockstep (hT : T.Reports) (hrel : Lockstep rel) (polls : Nat) {s : T.State} {source source' : S}
    (h : rel source source') (hok : ∀ e, (T.pull polls s source).result ≠ .done (some (.error e))) :
    (T.pull polls s source').result = (T.pull polls s source).result ∧
      (T.pull polls s source').parser = (T.pull polls s source).parser ∧
      (T.pull polls s source').left = (T.pull polls s source).left ∧
      rel (T.pull polls s source).source (T.pull polls s source').source := by
  induction polls generalizing s source source' with
  | zero =>
    cases hask : T.ask s with
    | item i =>
      rw [pull_item hask, pull_item hask]
      exact ⟨rfl, rfl, rfl, h⟩
    | read n =>
      rw [pull_read_zero hask, pull_read_zero hask]
      exact ⟨rfl, rfl, rfl, h⟩
  | succ polls ih =>
    cases hask : T.ask s with
    | item i =>
      rw [pull_item hask, pull_item hask]
      exact ⟨rfl, rfl, rfl, h⟩
    | read n =>
      have hpoll := hrel h (.new n)
      rw [pull_read hask] at hok ⊢
      rw [pull_read hask]
      cases ho : (pollRead source (.new n)).outcome with
      | pending =>
        rw [ho] at hok hpoll
        obtain ⟨houtcome, -, hreader⟩ := hpoll Poll.good_pending
        rw [houtcome, ho]
        exact ih hreader hok
      | ready res =>
        cases res with
        | error e =>
          obtain ⟨e', he'⟩ := hT s n e hask
          rw [ho] at hok
          dsimp only at hok
          rw [pull_item he'] at hok
          exact absurd rfl (hok e')
        | ok =>
          rw [ho] at hok hpoll
          obtain ⟨houtcome, hbuf, hreader⟩ := hpoll (Poll.good_ok ())
          rw [houtcome, ho, hbuf]
          exact ih hreader hok

/-- The same parser over sources in lockstep. -/
def TarBody.Along (rel : S → S → Prop) (b b' : TarBody T S) : Prop :=
  b'.parser = b.parser ∧ rel b.source b'.source

theorem TarBody.lockstep (hrel : Lockstep rel) : Lockstep (TarBody.Along (T := T) rel) := by
  intro b b' h buf hgood
  obtain ⟨hparser, hsource⟩ := h
  change (b.poll T buf).outcome.Good at hgood
  show (b.poll T buf).Alike _ (b'.poll T buf)
  unfold TarBody.poll at hgood ⊢
  rw [hparser]
  cases hask : T.bodyAsk b.parser buf.remaining with
  | none => exact ⟨rfl, rfl, hparser, hsource⟩
  | some n =>
    rw [hask] at hgood
    have hpoll := hrel hsource (buf.take n)
    dsimp only at hgood ⊢
    cases ho : (pollRead b.source (buf.take n)).outcome with
    | pending =>
      rw [ho] at hpoll
      obtain ⟨houtcome, -, hreader⟩ := hpoll Poll.good_pending
      rw [houtcome, ho]
      exact ⟨rfl, rfl, rfl, hreader⟩
    | ready res =>
      cases res with
      | error e =>
        rw [ho] at hgood
        exact (Poll.not_good_error hgood).elim
      | ok =>
        rw [ho] at hpoll
        obtain ⟨houtcome, hbuf, hreader⟩ := hpoll (Poll.good_ok ())
        rw [houtcome, ho]
        simp only [hbuf]
        exact ⟨rfl, rfl, rfl, hreader⟩

end Parsers

section Readers

variable {T : Tar} {S : Type} [AsyncRead IoError S] [Counters S] {rel : S → S → Prop} {H : HeaderFields}

/-- An entry as looser limits have it: with another bound on its body. -/
def OpenEntry.bounding (e : ReadEntry) (remaining : Nat) : ReadEntry :=
  { e with body := { e.body with remaining := remaining } }

/-- Readers over sources in lockstep, the second one the looser. -/
inductive Reader.Looser (rel : S → S → Prop) : Reader T S → Reader T S → Prop where
  | mk {r : Reader T S} {source : S} {limits : SecurityLimits} (hsource : rel r.source source)
      (hle : r.limits ≤ limits) : Looser rel r { r with source := source, limits := limits }

omit [AsyncRead IoError S] [Counters S] in
theorem Reader.Looser.abort {r r' : Reader T S} (h : Reader.Looser rel r r') : Reader.Looser rel r.abort r'.abort := by
  obtain ⟨hsource, hle⟩ := h
  exact Reader.Looser.mk (r := { r with bodyFailed := true }) hsource hle

theorem Reader.drain_lockstep (hrel : Lockstep rel) (polls trailing : Nat) {r r' : Reader T S}
    (h : Reader.Looser rel r r') (hok : ∀ e, (r.drain polls trailing).1 ≠ .done (.error e)) :
    (r'.drain polls trailing).1 = (r.drain polls trailing).1 ∧
      Reader.Looser rel (r.drain polls trailing).2 (r'.drain polls trailing).2 := by
  induction polls generalizing trailing r r' with
  | zero => exact ⟨rfl, h⟩
  | succ polls ih =>
    obtain ⟨hsource, hle⟩ := h
    rename_i source limits
    have hpoll := hrel hsource (.new 8192)
    unfold drain at hok ⊢
    dsimp only at hok ⊢
    cases ho : (pollRead r.source (.new 8192)).outcome with
    | pending =>
      rw [ho] at hok hpoll
      obtain ⟨houtcome, -, hreader⟩ := hpoll Poll.good_pending
      rw [houtcome, ho]
      exact ih _ (Reader.Looser.mk (r := { r with source := _ }) hreader hle) hok
    | ready res =>
      cases res with
      | error e =>
        rw [ho] at hok
        exact absurd rfl (hok _)
      | ok =>
        rw [ho] at hok hpoll
        obtain ⟨houtcome, hbuf, hreader⟩ := hpoll (Poll.good_ok ())
        have hlooser := Reader.Looser.mk (r := { r with source := _ }) hreader hle
        rw [houtcome, ho, hbuf]
        dsimp only at hok ⊢
        split_ifs at hok ⊢
        · exact ⟨rfl, hlooser⟩
        · exact ⟨rfl, hlooser⟩
        · exact ⟨rfl, hlooser⟩
        · exact ih _ hlooser hok

theorem Reader.verifyEnd_lockstep (hrel : Lockstep rel) (polls : Nat) {r r' : Reader T S}
    (h : Reader.Looser rel r r') (hok : ∀ e, (r.verifyEnd polls).1 ≠ .done (.error e)) :
    (r'.verifyEnd polls).1 = (r.verifyEnd polls).1 ∧ Reader.Looser rel (r.verifyEnd polls).2 (r'.verifyEnd polls).2 := by
  obtain ⟨hsource, hle⟩ := h
  rename_i source limits
  unfold verifyEnd at hok ⊢
  dsimp only at hok ⊢
  cases ha : r.archive with
  | none => exact ⟨rfl, Reader.Looser.mk (r := { r with entries := none, archive := none }) hsource hle⟩
  | some handle =>
    rw [ha] at hok
    dsimp only at hok ⊢
    split_ifs at hok ⊢
    · exact drain_lockstep hrel polls 0
        (Reader.Looser.mk (r := { r with entries := none, archive := none }) hsource hle) hok
    · exact absurd rfl (hok _)

/-- An answer as looser limits have it. -/
def widen (limits : SecurityLimits) :
    Await (Except Error (Option ReadEntry)) → Await (Except Error (Option ReadEntry))
  | .done (.ok (some e)) => .done (.ok (some (e.bounding limits.maxEntryBytes.toNat)))
  | res => res

omit [AsyncRead IoError S] [Counters S] in
theorem Reader.accept_lockstep {r r' : Reader T S} (h : Reader.Looser rel r r') (entry : TarEntry) {e : ReadEntry}
    (hok : (r.accept H entry).1 = .ok e) :
    (r'.accept H entry).1 = .ok (e.bounding r'.limits.maxEntryBytes.toNat) ∧
      e.body.remaining ≤ r'.limits.maxEntryBytes.toNat ∧
      Reader.Looser rel (r.accept H entry).2 (r'.accept H entry).2 := by
  obtain ⟨hsource, hle⟩ := h
  rename_i source limits
  unfold accept at hok ⊢
  dsimp only at hok ⊢
  split_ifs at hok with hmany
  have hmany' : ¬ limits.maxEntries.toNat < r.seen + 1 := by
    have := hle.entries
    omega
  rw [if_neg hmany, if_neg hmany']
  have hbody := (openEntry_ok H hok).2.2.2.2.2
  refine ⟨?_, by rw [hbody]; exact hle.entryBytes, Reader.Looser.mk (r := { r with seen := r.seen + 1 }) hsource hle⟩
  rw [openEntry_looser hle hok, OpenEntry.bounding, hbody]
  rfl

omit [Counters S] in
/-- Readers that stay related when the parser answered both. -/
theorem Reader.Looser.pulled (hT : T.Reports) (hrel : Lockstep rel) (polls : Nat) {r r' : Reader T S}
    (h : Reader.Looser rel r r') (hok : ∀ e, (T.pull polls r.parser r.source).result ≠ .done (some (.error e))) :
    (T.pull polls r'.parser r'.source).result = (T.pull polls r.parser r.source).result ∧
      (T.pull polls r'.parser r'.source).left = (T.pull polls r.parser r.source).left ∧
      Reader.Looser rel (r.pulled polls) (r'.pulled polls) := by
  obtain ⟨hsource, hle⟩ := h
  obtain ⟨hresult, hparser, hleft, hsource'⟩ := Tar.pull_lockstep hT hrel polls hsource hok
  refine ⟨hresult, hleft, ?_⟩
  unfold Reader.pulled
  dsimp only
  rw [hparser]
  exact Reader.Looser.mk (r := { r with parser := _, source := _ }) hsource' hle

omit [AsyncRead IoError S] [Counters S] in
theorem Reader.Looser.source {r r' : Reader T S} (h : Reader.Looser rel r r') :
    rel r.source r'.source := by
  obtain ⟨hsource, -⟩ := h
  exact hsource

omit [AsyncRead IoError S] [Counters S] in
theorem Reader.Looser.fields {r r' : Reader T S} (h : Reader.Looser rel r r') :
    r'.bodyFailed = r.bodyFailed ∧ r'.done = r.done ∧ r'.entries = r.entries ∧ r'.seen = r.seen := by
  obtain ⟨-, -⟩ := h
  exact ⟨rfl, rfl, rfl, rfl⟩

theorem Reader.nextEntry_lockstep (hT : T.Reports) (hrel : Lockstep rel) (polls : Nat) {r r' : Reader T S}
    (h : Reader.Looser rel r r') (hok : ∀ e, (r.nextEntry H polls).1 ≠ .done (.error e)) :
    (r'.nextEntry H polls).1 = widen r'.limits (r.nextEntry H polls).1 ∧
      (∀ e, lent (r.nextEntry H polls).1 = some e → e.body.remaining ≤ r'.limits.maxEntryBytes.toNat) ∧
      Reader.Looser rel (r.nextEntry H polls).2 (r'.nextEntry H polls).2 := by
  obtain ⟨hfailed, hdone, hentries, -⟩ := h.fields
  by_cases hf : r.bodyFailed = true
  · rw [nextEntry, if_pos hf] at hok
    exact absurd rfl (hok _)
  by_cases hd : r.done = true
  · rw [nextEntry, nextEntry, if_neg hf, if_pos hd, if_neg (by rwa [hfailed]), if_pos (by rwa [hdone])]
    exact ⟨rfl, (fun e h => by cases h), h⟩
  by_cases he : r.entries = none
  · rw [nextEntry, if_neg hf, if_neg hd, he] at hok
    exact absurd rfl (hok _)
  obtain ⟨handle, he⟩ := Option.ne_none_iff_exists'.mp he
  have hf := eq_false_of_ne_true hf
  have hd := eq_false_of_ne_true hd
  have hlive := nextEntry_live (H := H) hf hd he polls
  have hlive' := nextEntry_live (H := H) (hfailed.trans hf) (hdone.trans hd) (hentries.trans he) polls
  rw [hlive] at hok ⊢
  rw [hlive']
  have hpull := h.pulled hT hrel polls
  cases hres : (T.pull polls r.parser r.source).result with
  | cancelled =>
    obtain ⟨hresult, -, hpulled⟩ := hpull (by simp [hres])
    rw [hresult, hres]
    exact ⟨rfl, (fun e h => by cases h), hpulled.abort⟩
  | done item =>
    cases item with
    | none =>
      obtain ⟨hresult, hleft, hpulled⟩ := hpull (by simp [hres])
      rw [hres] at hok
      rw [hresult, hres, hleft]
      have hverify := verifyEnd_lockstep hrel (T.pull polls r.parser r.source).left hpulled
      dsimp only at hok ⊢
      generalize (r.pulled polls).verifyEnd (T.pull polls r.parser r.source).left = v at hok hverify ⊢
      generalize (r'.pulled polls).verifyEnd (T.pull polls r.parser r.source).left = v' at hverify ⊢
      obtain ⟨res, r₁⟩ := v
      obtain ⟨res', r₁'⟩ := v'
      cases res with
      | cancelled =>
        obtain ⟨hsame, hlooser⟩ := hverify (by simp)
        cases hsame
        exact ⟨rfl, (fun e h => by cases h), hlooser.abort⟩
      | done res =>
        cases res with
        | error e => exact absurd rfl (hok e)
        | ok =>
          obtain ⟨hsame, hlooser⟩ := hverify (by simp)
          cases hsame
          obtain ⟨hsource, hle⟩ := hlooser
          exact ⟨rfl, (fun e h => by cases h), Reader.Looser.mk (r := { r₁ with done := true }) hsource hle⟩
    | some item =>
      cases item with
      | error e =>
        rw [hres] at hok
        exact absurd rfl (hok _)
      | ok entry =>
        obtain ⟨hresult, -, hpulled⟩ := hpull (by simp [hres])
        rw [hres] at hok
        rw [hresult, hres]
        have haccept := fun e : ReadEntry => accept_lockstep (H := H) (e := e) hpulled entry
        dsimp only at hok ⊢
        generalize (r.pulled polls).accept H entry = a at hok haccept ⊢
        generalize (r'.pulled polls).accept H entry = a' at haccept ⊢
        obtain ⟨res, r₁⟩ := a
        obtain ⟨res', r₁'⟩ := a'
        cases res with
        | error e => exact absurd rfl (hok e)
        | ok e =>
          obtain ⟨hsame, hbound, hlooser⟩ := haccept e rfl
          cases hsame
          refine ⟨rfl, fun e' he' => ?_, hlooser⟩
          cases he'
          exact hbound

/-- Lent entries, of which the second may be read further. -/
inductive OpenEntry.Looser : ReadEntry → ReadEntry → Prop where
  | mk {e : ReadEntry} {remaining : Nat} (hle : e.body.remaining ≤ remaining) : Looser e (e.bounding remaining)

omit [Counters S] in
theorem Reader.pollBody_lockstep (hrel : Lockstep rel) {r r' : Reader T S} (h : Reader.Looser rel r r')
    {e e' : ReadEntry} (he : OpenEntry.Looser e e') (buf : ReadBuf) (hgood : (r.pollBody e buf).1.Good) :
    (r'.pollBody e' buf).1 = (r.pollBody e buf).1 ∧ (r'.pollBody e' buf).2.1 = (r.pollBody e buf).2.1 ∧
      OpenEntry.Looser (r.pollBody e buf).2.2.1 (r'.pollBody e' buf).2.2.1 ∧
      Reader.Looser rel (r.pollBody e buf).2.2.2 (r'.pollBody e' buf).2.2.2 := by
  obtain ⟨hsource, hle⟩ := h
  rename_i source limits
  obtain ⟨hbound⟩ := he
  rename_i remaining
  have hbody : Bounded.Looser (TarBody.Along rel) (r.body e)
      (Reader.body { r with source := source, limits := limits } (e.bounding remaining)) :=
    Bounded.Looser.mk (b := r.body e) ⟨rfl, hsource⟩ hbound
  obtain ⟨houtcome, hbuf, hreader⟩ := Bounded.lockstep (TarBody.lockstep hrel) hbody buf hgood
  unfold pollBody at hgood ⊢
  dsimp only at hgood ⊢
  generalize pollRead (r.body e) buf = p at hgood houtcome hbuf hreader ⊢
  generalize pollRead (Reader.body { r with source := source, limits := limits } (e.bounding remaining)) buf = p'
    at houtcome hbuf hreader ⊢
  obtain ⟨o, b, reader⟩ := p
  obtain ⟨o', b', reader'⟩ := p'
  cases houtcome
  cases hbuf
  obtain ⟨⟨hparser, hsource'⟩, hle'⟩ := hreader
  rename_i inner remaining'
  refine ⟨rfl, rfl, OpenEntry.Looser.mk (e := { e with body := ⟨(), _, _⟩ }) hle', ?_⟩
  have hmoved : Reader.Looser rel { r with parser := reader.inner.parser, source := reader.inner.source }
      { r with parser := inner.parser, source := inner.source, limits := limits } := by
    rw [hparser]
    exact Reader.Looser.mk (r := { r with parser := _, source := _ }) hsource' hle
  cases o with
  | pending => exact hmoved
  | ready res =>
    cases res with
    | error err => exact (Poll.not_good_error hgood).elim
    | ok => exact hmoved

omit [Counters S] in
/-- Copying a body goes as it went. -/
theorem Reader.copyBody_lockstep (hrel : Lockstep rel) (polls : Nat) {r r' : Reader T S} (h : Reader.Looser rel r r')
    {e e' : ReadEntry} (he : OpenEntry.Looser e e') (hok : ∀ err, (r.copyBody polls e).1 ≠ .done (.error err)) :
    (r'.copyBody polls e').1 = (r.copyBody polls e).1 ∧
      Reader.Looser rel (r.copyBody polls e).2 (r'.copyBody polls e').2 := by
  induction polls generalizing r r' e e' with
  | zero => exact ⟨rfl, h⟩
  | succ polls ih =>
    have hpoll := pollBody_lockstep hrel h he (.new 8192)
    unfold copyBody at hok ⊢
    generalize r.pollBody e (.new 8192) = p at hok hpoll ⊢
    generalize r'.pollBody e' (.new 8192) = p' at hpoll ⊢
    obtain ⟨o, b, e₁, r₁⟩ := p
    obtain ⟨o', b', e₁', r₁'⟩ := p'
    cases o with
    | pending =>
      obtain ⟨ho, -, he₁, hr₁⟩ := hpoll Poll.good_pending
      cases ho
      exact ih hr₁ he₁ hok
    | ready res =>
      cases res with
      | error err => exact absurd rfl (hok err)
      | ok =>
        obtain ⟨ho, hb, he₁, hr₁⟩ := hpoll (Poll.good_ok ())
        cases ho
        cases hb
        dsimp only at hok ⊢
        split_ifs at hok ⊢
        · exact ⟨rfl, hr₁⟩
        · exact ih hr₁ he₁ hok

/-- A validation that does not fail answers alike, also that it was given up. -/
theorem Reader.validateFrom_lockstep (hT : T.Reports) (hrel : Lockstep rel)
    (hcount : ∀ {s s' : S}, rel s s' → Counters.encoded s' = Counters.encoded s ∧ Counters.decoded s' = Counters.decoded s)
    (polls entries : Nat) {r r' : Reader T S} (h : Reader.Looser rel r r')
    (hok : ∀ e, r.validateFrom H polls entries ≠ .done (.error e)) :
    r'.validateFrom H polls entries = r.validateFrom H polls entries := by
  induction polls generalizing entries r r' with
  | zero => rfl
  | succ polls ih =>
    have hnext := nextEntry_lockstep (H := H) hT hrel polls h
    unfold validateFrom at hok ⊢
    generalize r.nextEntry H polls = p at hok hnext ⊢
    generalize r'.nextEntry H polls = p' at hnext ⊢
    obtain ⟨res, r₁⟩ := p
    obtain ⟨res', r₁'⟩ := p'
    cases res with
    | cancelled =>
      obtain ⟨hsame, -⟩ := hnext (by simp)
      cases hsame
      rfl
    | done res =>
      cases res with
      | error e => exact absurd rfl (hok e)
      | ok entry =>
        obtain ⟨hsame, hbound, hlooser⟩ := hnext (by simp)
        cases entry with
        | none =>
          cases hsame
          obtain ⟨hencoded, hdecoded⟩ := hcount hlooser.source
          simp only [encodedBytes, decodedBytes, hencoded, hdecoded]
        | some e =>
          cases hsame
          have hcopy := copyBody_lockstep hrel polls hlooser (OpenEntry.Looser.mk (hbound e rfl))
          dsimp only at hok ⊢
          generalize r₁.copyBody polls e = c at hok hcopy ⊢
          generalize r₁'.copyBody polls (e.bounding r'.limits.maxEntryBytes.toNat) = c' at hcopy ⊢
          obtain ⟨res, r₂⟩ := c
          obtain ⟨res', r₂'⟩ := c'
          cases res with
          | cancelled =>
            obtain ⟨hsame, -⟩ := hcopy (by simp)
            cases hsame
            rfl
          | done res =>
            cases res with
            | error e => exact absurd rfl (hok _)
            | ok =>
              obtain ⟨hsame, hlooser₂⟩ := hcopy (by simp)
              cases hsame
              exact ih (entries + 1) hlooser₂ hok

theorem lent_widen (limits : SecurityLimits) (res : Await (Except Error (Option ReadEntry))) :
    lent (widen limits res) = (lent res).map fun e => e.bounding limits.maxEntryBytes.toNat := by
  cases res with
  | cancelled => rfl
  | done res =>
    cases res with
    | error e => rfl
    | ok entry => cases entry <;> rfl

/-- What the caller saw, as looser limits have it. -/
def Event.widened (limits : SecurityLimits) : Event → Event
  | next res => .next (widen limits res)
  | ev => ev

/-- Whether a step answered with an error. -/
def Event.fails : Event → Bool
  | next (.done (.error _)) => true
  | read (.ready (.error _)) _ => true
  | _ => false

theorem Event.fails_of_good {ev : Event} (h : ¬ ev.Bad) : ev.fails = false := by
  cases ev with
  | next res =>
    cases res with
    | cancelled => rfl
    | done res =>
      cases res with
      | error e => exact absurd trivial h
      | ok entry => rfl
  | read o bytes =>
    cases o with
    | pending => rfl
    | ready res =>
      cases res with
      | error e => exact absurd trivial h
      | ok => rfl
  | drop => rfl

/-- Sessions of readers in lockstep, the second one under `limits`. -/
structure Session.Looser (rel : S → S → Prop) (limits : SecurityLimits) (σ σ' : Session T S) : Prop where
  reader : Reader.Looser rel σ.reader σ'.reader
  limits_eq : σ'.reader.limits = limits
  entry : ∀ e, σ.entry = some e → ∃ e', σ'.entry = some e' ∧ OpenEntry.Looser e e'
  dropped : σ.entry = none → σ'.entry = none

variable {room : ReadBuf → Prop} {limits : SecurityLimits}

/-- A step that does not fail can be taken under looser limits, and shows the same. -/
theorem Session.Looser.step (hT : T.Reports) (hrel : Lockstep rel) {σ σ' σ₁ : Session T S} {ev : Event}
    (h : Session.Looser rel limits σ σ') (hstep : σ.Step H room ev σ₁) (hok : ev.fails = false) :
    ∃ σ₁', σ'.Step H room (ev.widened limits) σ₁' ∧ Session.Looser rel limits σ₁ σ₁' := by
  obtain ⟨r', entry'⟩ := σ'
  obtain ⟨hreader, hlimits, hentry, hdropped⟩ := h
  cases hlimits
  cases hstep with
  | next r polls =>
    cases hdropped rfl
    obtain ⟨hsame, hbound, hlooser⟩ := Reader.nextEntry_lockstep (H := H) hT hrel polls hreader
      (fun e he => by rw [he] at hok; cases hok)
    refine ⟨⟨(r'.nextEntry H polls).2, lent (widen r'.limits (r.nextEntry H polls).1)⟩, ?_, hlooser,
      (Reader.nextEntry_kept r' polls).1, ?_, ?_⟩
    · have hstep' : Session.Step H room _ _ _ := .next r' polls
      rw [hsame] at hstep'
      exact hstep'
    · intro e he
      change lent _ = some e at he
      refine ⟨_, ?_, OpenEntry.Looser.mk (hbound e he)⟩
      show lent _ = _
      rw [lent_widen, he]
      rfl
    · intro he
      change lent _ = none at he
      show lent _ = _
      rw [lent_widen, he]
      rfl
  | read r e buf hb =>
    obtain ⟨e', he', hentry'⟩ := hentry e rfl
    cases he'
    have hgood : (r.pollBody e buf).1.Good := fun err herr => by rw [herr] at hok; cases hok
    obtain ⟨ho, hbuf, hentry₁, hlooser⟩ := Reader.pollBody_lockstep hrel hreader hentry' buf hgood
    refine ⟨⟨(r'.pollBody e' buf).2.2.2, some (r'.pollBody e' buf).2.2.1⟩, ?_, hlooser,
      (Reader.pollBody_kept r' e' buf).1, ?_, ?_⟩
    · have hstep' : Session.Step H room _ _ _ := .read r' e' buf hb
      rw [ho, hbuf] at hstep'
      exact hstep'
    · intro e₁ he₁
      cases he₁
      exact ⟨_, rfl, hentry₁⟩
    · intro he₁
      cases he₁
  | drop r e =>
    obtain ⟨e', he', -⟩ := hentry e rfl
    cases he'
    exact ⟨⟨r', none⟩, .drop r' e', hreader, rfl, (fun e h => by cases h), fun _ => rfl⟩

/-- A history without a failure is one under looser limits. -/
theorem Session.Looser.run (hT : T.Reports) (hrel : Lockstep rel) {start start' σ : Session T S} {evs : List Event}
    (h : Session.Looser rel limits start start') (hrun : Session.Run H room start evs σ)
    (hok : ∀ ev ∈ evs, ev.fails = false) :
    ∃ σ', Session.Run H room start' (evs.map (Event.widened limits)) σ' ∧ Session.Looser rel limits σ σ' := by
  induction hrun with
  | start => exact ⟨start', .start, h⟩
  | step hrun hs ih =>
    obtain ⟨σ', hrun', hlooser⟩ := ih fun ev hev => hok ev (List.mem_append_left _ hev)
    obtain ⟨σ₁', hs', hlooser'⟩ := hlooser.step hT hrel hs (hok _ (List.mem_append_right _ List.mem_cons_self))
    rw [List.map_append]
    exact ⟨σ₁', .step hrun' hs', hlooser'⟩

end Readers

section Stacks

variable {H : HeaderFields} {D : Type} [AsyncRead IoError D] {count : D → Nat} {limits limits' : SecurityLimits}

/-- The guards and caps over one decoded source. -/
abbrev Stacked (H : HeaderFields) (count : D → Nat) : Source H count → Source H count → Prop :=
  Guard.HeaderGuard.Looser Cap.Looser

theorem stacked_lockstep : Lockstep (Stacked H count) := Guard.HeaderGuard.lockstep Cap.lockstep

omit [AsyncRead IoError D] in
theorem stacked_counters {s s' : Source H count} (h : Stacked H count s s') :
    Counters.encoded s' = Counters.encoded s ∧ Counters.decoded s' = Counters.decoded s := by
  obtain ⟨hinner, -⟩ := h
  rename_i inner max
  show count inner.inner = count s.inner.inner ∧ inner.total = s.inner.total
  generalize s.inner = c at hinner
  obtain ⟨-, -⟩ := hinner
  exact ⟨rfl, rfl⟩

omit [AsyncRead IoError D] in
theorem stacked_stack (hle : limits ≤ limits') (d : D) : Stacked H count (stack d limits) (stack d limits') :=
  Guard.HeaderGuard.Looser.mk (g := stack d limits)
    (Cap.Looser.mk (c := Cap.new d limits.maxTotalBytes.toNat limits.maxCompressionRatio.toNat)
      hle.totalBytes hle.compressionRatio) hle.metadataBytes

omit [AsyncRead IoError D] in
theorem over_looser {T : Tar} (hle : limits ≤ limits') {d : D} {r : Reader T (Source H count)}
    (h : Reader.over T d limits = .ok r) :
    ∃ r', Reader.over T d limits' = .ok r' ∧ Reader.Looser (Stacked H count) r r' ∧ r'.limits = limits' := by
  unfold Reader.over Reader.start at h ⊢
  cases hentries : T.entries with
  | none =>
    rw [hentries] at h
    cases h
  | some parser =>
    rw [hentries] at h
    cases h
    exact ⟨_, rfl, Reader.Looser.mk (r := ⟨parser, stack d limits, some ⟨⟩, some ⟨⟩, limits, false, 0, false⟩)
      (stacked_stack hle d) hle, rfl⟩

variable {T : Tar} {R : Type} [AsyncRead IoError R] {dec : Decoder (Replay R)}

/-- What opens under some limits opens under looser ones. -/
theorem open_looser (hle : limits ≤ limits') {polls : Nat} {source : R}
    {r : Reader T (Source H (Decoded.count : Decoded dec → Nat))}
    (h : Reader.open T dec polls source limits = .done (.ok r)) :
    ∃ r', Reader.open T dec polls source limits' = .done (.ok r') ∧
      Reader.Looser (Stacked H (Decoded.count : Decoded dec → Nat)) r r' ∧ r'.limits = limits' := by
  unfold Reader.open at h ⊢
  cases hd : Compress.decoded dec polls (Meter.new source) with
  | cancelled =>
    rw [hd] at h
    cases h
  | done res =>
    rw [hd] at h
    cases res with
    | error e => cases h
    | ok d =>
      obtain ⟨r', hr', hlooser, hlimits⟩ := over_looser (H := H) (T := T) hle (Await.done.inj h)
      exact ⟨r', congrArg Await.done hr', hlooser, hlimits⟩

/-- What is validated under some limits is validated under looser ones, with the same report. -/
theorem validate_looser (hT : T.Reports) (hle : limits ≤ limits') {polls : Nat} {source : R} {report : ValidationReport}
    (h : Reader.validate H T dec polls source limits = .done (.ok report)) :
    Reader.validate H T dec polls source limits' = .done (.ok report) := by
  unfold Reader.validate at h
  cases hr : Reader.open (H := H) T dec polls source limits with
  | cancelled =>
    rw [hr] at h
    cases h
  | done res =>
    rw [hr] at h
    cases res with
    | error e => cases h
    | ok r =>
      obtain ⟨r', hr', hlooser, -⟩ := open_looser hle hr
      unfold Reader.validate
      rw [hr']
      dsimp only at h ⊢
      rw [Reader.validateFrom_lockstep hT stacked_lockstep stacked_counters polls 0 hlooser (by simp [h]), h]

/-- A parser that keeps its phase reports the errors it is fed. -/
theorem Tar.reports_ofFormat (F : TarFormat H) : (Tar.ofFormat F).Reports := fun _ _ e _ => ⟨e, rfl⟩

/-- Limits that just admit the archive of one directory. -/
def Gnu.tight : SecurityLimits := (SecurityLimits.default.withMaxEntries 1).withMaxTotalBytes 1536

theorem Gnu.tight_le : tight ≤ .default :=
  SecurityLimits.le_trans (SecurityLimits.withMaxTotalBytes_le (by decide))
    (SecurityLimits.withMaxEntries_le (by decide))

theorem validate_looser_sample :
    Reader.validate gnuFields Gnu.tar (RawZstd.decoder (Replay (Script IoError))) 40
      ⟨Gnu.plain, [.give 4, .late, .give 1021]⟩ .default = .done (.ok ⟨1, 1536, 1536⟩) := by
  have htight : Reader.validate gnuFields Gnu.tar (RawZstd.decoder (Replay (Script IoError))) 40
      ⟨Gnu.plain, [.give 4, .late, .give 1021]⟩ Gnu.tight = .done (.ok ⟨1, 1536, 1536⟩) := by decide +kernel
  exact validate_looser (Tar.reports_ofFormat Gnu.format) Gnu.tight_le htight

/-- Whatever callers see without an error under some limits, cancelled calls included, they see
under looser ones: the same entries, the same bytes, the same counts. -/
theorem sessions_looser (hT : T.Reports) (hle : limits ≤ limits') {polls : Nat} {source : R} {room : ReadBuf → Prop}
    {r : Opened T H dec} (hr : Reader.open T dec polls source limits = .done (.ok r)) {evs : List Event}
    {σ : Session T (Source H (Decoded.count : Decoded dec → Nat))} (hrun : Session.Run H room ⟨r, none⟩ evs σ)
    (hok : ∀ ev ∈ evs, ev.fails = false) :
    ∃ (r' : Opened T H dec) (σ' : Session T (Source H (Decoded.count : Decoded dec → Nat))),
      Reader.open T dec polls source limits' = .done (.ok r') ∧
      Session.Run H room ⟨r', none⟩ (evs.map (Event.widened limits')) σ' ∧
      σ'.reader.encodedBytes = σ.reader.encodedBytes ∧ σ'.reader.decodedBytes = σ.reader.decodedBytes := by
  obtain ⟨r', hr', hlooser, hlimits⟩ := open_looser hle hr
  have hstart : Session.Looser (Stacked H (Decoded.count : Decoded dec → Nat)) limits' ⟨r, none⟩ ⟨r', none⟩ :=
    ⟨hlooser, hlimits, (fun e h => by cases h), fun _ => rfl⟩
  obtain ⟨σ', hrun', hlooser'⟩ := hstart.run hT stacked_lockstep hrun hok
  obtain ⟨hencoded, hdecoded⟩ := stacked_counters hlooser'.reader.source
  exact ⟨r', σ', hr', hrun', hencoded, hdecoded⟩

/-- Open an archive and replay calls on it. -/
def Gnu.replayed (limits : SecurityLimits) (source : Script IoError) (moves : List Move) :
    Option (List Event × Session Gnu.tar (Source gnuFields
      (Decoded.count : Decoded (RawZstd.decoder (Replay (Script IoError))) → Nat))) :=
  match Reader.open (H := gnuFields) Gnu.tar (RawZstd.decoder (Replay (Script IoError))) 9 source limits with
  | .done (.ok r) => Session.replay gnuFields moves [] ⟨r, none⟩
  | _ => none

theorem Gnu.run_replayed {limits : SecurityLimits} {source : Script IoError} {moves : List Move} {evs : List Event}
    {σ : Session Gnu.tar (Source gnuFields (Decoded.count : Decoded (RawZstd.decoder (Replay (Script IoError))) → Nat))}
    (h : replayed limits source moves = some (evs, σ)) :
    ∃ r : Opened Gnu.tar gnuFields (RawZstd.decoder (Replay (Script IoError))),
      Reader.open Gnu.tar _ 9 source limits = .done (.ok r) ∧ Session.Run gnuFields (fun _ => True) ⟨r, none⟩ evs σ := by
  unfold replayed at h
  split at h
  · rename_i r hr
    exact ⟨r, hr, Session.replay_run gnuFields .start h⟩
  · cases h

/-- Whether a step goes well and does not end the traversal. -/
def Event.goes : Event → Bool
  | next (.done (.ok (some _))) => true
  | next _ => false
  | read (.ready (.error _)) _ => false
  | read _ _ => true
  | drop => true

theorem Event.goes_spec {ev : Event} (h : ev.goes = true) : ev.Goes := by
  cases ev with
  | next res =>
    cases res with
    | cancelled => cases h
    | done res =>
      cases res with
      | error e => cases h
      | ok entry =>
        cases entry with
        | none => cases h
        | some e => trivial
  | read o bytes =>
    cases o with
    | pending => trivial
    | ready res =>
      cases res with
      | error e => cases h
      | ok => trivial
  | drop => trivial

/-- Whether a step is the clean end. -/
def Event.ends : Event → Bool
  | next (.done (.ok none)) => true
  | _ => false

/-- A replay that goes well and comes to the clean end, after `k` entries. -/
def Gnu.walks (limits : SecurityLimits) (source : Script IoError) (moves : List Move) (k : Nat) : Bool :=
  (replayed limits source moves).any fun p =>
    p.1.dropLast.all Event.goes && p.1.getLast?.any Event.ends && (handed p.1.dropLast).length == k

theorem Gnu.run_walks {limits : SecurityLimits} {source : Script IoError} {moves : List Move} {k : Nat}
    (h : walks limits source moves k = true) :
    ∃ (r : Opened Gnu.tar gnuFields (RawZstd.decoder (Replay (Script IoError)))) (pre : List Event) (σ : _),
      Reader.open Gnu.tar _ 9 source limits = .done (.ok r) ∧ (∀ ev ∈ pre, ev.Goes) ∧ (handed pre).length = k ∧
      Session.Run gnuFields (fun _ => True) ⟨r, none⟩ (pre ++ [.next (.done (.ok none))]) σ := by
  obtain ⟨⟨evs, σ⟩, hreplayed, hp⟩ := (Option.any_eq_true _ _).mp h
  simp only [Bool.and_eq_true, List.all_eq_true, beq_iff_eq] at hp
  obtain ⟨⟨hgoes, hlast⟩, hhanded⟩ := hp
  obtain ⟨r, hr, hrun⟩ := run_replayed hreplayed
  obtain ⟨ev, hev, hends⟩ := (Option.any_eq_true _ _).mp hlast
  obtain ⟨pre, rfl⟩ := List.getLast?_eq_some_iff.mp hev
  rw [List.dropLast_concat] at hgoes hhanded
  obtain rfl : ev = .next (.done (.ok none)) := by
    unfold Event.ends at hends
    split at hends
    · rfl
    · cases hends
  exact ⟨r, pre, σ, hr, fun ev hev => Event.goes_spec (hgoes ev hev), hhanded, hrun⟩

/-- A directory is handed out, its body read, and the end found. -/
theorem sessions_looser_sample :
    ∃ (r : Opened Gnu.tar gnuFields (RawZstd.decoder (Replay (Script IoError)))) (evs : List Event) (σ : _),
      Reader.open Gnu.tar _ 9 ⟨Gnu.plain, [.give 4, .late, .give 1021]⟩ .default = .done (.ok r) ∧
      Session.Run gnuFields (fun _ => True) ⟨r, none⟩ evs σ ∧ evs.length = 4 ∧ σ.reader.decodedBytes = 1536 := by
  have hgoes : (Gnu.replayed Gnu.tight ⟨Gnu.plain, [.give 4, .late, .give 1021]⟩
      [.next 20, .read 1, .drop, .next 20]).any (fun p => p.1.all (fun ev => !ev.fails) && p.1.length == 4 &&
        p.2.reader.decodedBytes == 1536) = true := by decide +kernel
  obtain ⟨⟨evs, σ⟩, hreplayed, hgoes⟩ := (Option.any_eq_true _ _).mp hgoes
  simp only [Bool.and_eq_true, List.all_eq_true, Bool.not_eq_true', beq_iff_eq] at hgoes
  obtain ⟨⟨hok, hlength⟩, hdecoded⟩ := hgoes
  obtain ⟨r, hr, hrun⟩ := Gnu.run_replayed hreplayed
  obtain ⟨r', σ', hr', hrun', -, hsame⟩ :=
    sessions_looser (Tar.reports_ofFormat Gnu.format) Gnu.tight_le hr hrun hok
  exact ⟨r', _, σ', hr', hrun', by rw [List.length_map, hlength], hsame.trans hdecoded⟩

end Stacks

end Etar
