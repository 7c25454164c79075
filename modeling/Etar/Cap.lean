import Etar.AsyncIo
import Etar.Error

/-!
# Byte limits on readers

`Meter` counts the encoded bytes, `Cap` bounds the decoded ones and their ratio to the
encoded ones, `Bounded` bounds one entry body. Each looks at what a poll of its inner
reader added, and takes it back out of the caller's buffer when it breaks a limit.
-/
namespace Etar.Limit

open AsyncIo

/-- `RATIO_FLOOR_BYTES`. -/
def ratioFloorBytes : Nat := 8 * 1024 * 1024

/-- A read error standing for a breached byte cap. -/
def capError (which : String) : IoError := .custom .invalidData (.limitExceeded which)

/-- Charge `read` decoded bytes to `total`, and report which cap is now breached. -/
def breach (total compressed max maxRatio read : Nat) : Nat × Option String :=
  let now := wrappingAdd total read
  (now,
    if max < now then some "max_total_bytes"
    else if ratioFloorBytes < now ∧ 0 < compressed ∧ saturatingMul compressed maxRatio < now then
      some "max_compression_ratio"
    else none)

/-- A parser's read error as the crate reports it. -/
def readError (error : IoError) (total max : Nat) : Error :=
  if max < total then .limitExceeded "max_total_bytes"
  else
    match error.downcast with
    | some (.limitExceeded which) => .limitExceeded which
    | some .disallowedEntryType => .disallowedEntryType
    | some (.io _) => .io error
    | _ => .malformed

variable {R : Type}

/-- Counts the bytes pulled from the source. -/
structure Meter (R : Type) where
  inner : R
  count : Nat

/-- Caps one entry's body. -/
structure Bounded (R : Type) where
  inner : R
  remaining : Nat
  failed : Bool

/-- Bounds total decoded bytes and the decompression ratio. The counter of encoded bytes
belongs to the `Meter` below: `count` reads it off the inner reader. -/
structure Cap (count : R → Nat) where
  inner : R
  total : Nat
  max : Nat
  maxRatio : Nat
  failed : Bool

def Meter.new (inner : R) : Meter R := ⟨inner, 0⟩

def Bounded.new (inner : R) (entryMax : Nat) : Bounded R := ⟨inner, entryMax, false⟩

def Cap.new {count : R → Nat} (inner : R) (max maxRatio : Nat) : Cap count := ⟨inner, 0, max, maxRatio, false⟩

variable [AsyncRead IoError R]

/-- `Meter::poll_read`: a source's own error is boxed, so that it is told from the caps'. -/
def Meter.poll (m : Meter R) (buf : ReadBuf) : Polled IoError (Meter R) :=
  let p := pollRead m.inner buf
  let read := (buf.added p.buf).length
  ⟨match p.outcome with
    | .ready (.error e) => .ready (.error (.custom e.kind (.io e)))
    | other => other,
    p.buf, ⟨p.reader, if 0 < read then wrappingAdd m.count read else m.count⟩⟩

/-- `Bounded::poll_read`. -/
def Bounded.poll (b : Bounded R) (buf : ReadBuf) : Polled IoError (Bounded R) :=
  if b.failed then ⟨.ready (.error (capError "aborted entry body")), buf, b⟩
  else
    let p := pollRead b.inner buf
    let read := (buf.added p.buf).length
    if b.remaining < read then
      ⟨.ready (.error (capError "max_entry_bytes")), p.buf.setFilled buf.filled.length,
        { b with inner := p.reader, failed := true }⟩
    else ⟨p.outcome, p.buf, { b with inner := p.reader, remaining := b.remaining - read }⟩

/-- `Cap::poll_read`. -/
def Cap.poll {count : R → Nat} (c : Cap count) (buf : ReadBuf) : Polled IoError (Cap count) :=
  if c.failed then ⟨.ready (.error (capError "aborted")), buf, c⟩
  else
    let p := pollRead c.inner buf
    let read := (buf.added p.buf).length
    if 0 < read then
      let charged := breach c.total (count p.reader) c.max c.maxRatio read
      match charged.2 with
      | some reason => ⟨.ready (.error (capError reason)), p.buf.setFilled buf.filled.length,
          { c with inner := p.reader, total := charged.1, failed := true }⟩
      | none => ⟨p.outcome, p.buf, { c with inner := p.reader, total := charged.1 }⟩
    else ⟨p.outcome, p.buf, { c with inner := p.reader }⟩

instance : AsyncRead IoError (Meter R) where
  pollRead := Meter.poll
  grows m b := AsyncRead.grows m.inner b

theorem Bounded.grows_poll (b : Bounded R) (buf : ReadBuf) : buf.Grows (b.poll buf).buf := by
  have hg := AsyncRead.grows b.inner buf
  unfold Bounded.poll
  dsimp only
  split_ifs
  · exact ReadBuf.Grows.refl buf
  · rw [hg.setFilled_eq]
    exact ReadBuf.Grows.refl buf
  · exact hg

instance : AsyncRead IoError (Bounded R) where
  pollRead := Bounded.poll
  grows := Bounded.grows_poll

namespace Cap

variable {count : R → Nat}

theorem grows_poll (c : Cap count) (buf : ReadBuf) : buf.Grows (c.poll buf).buf := by
  have hg := AsyncRead.grows c.inner buf
  unfold Cap.poll
  dsimp only
  split_ifs
  · exact ReadBuf.Grows.refl buf
  · split
    · rw [hg.setFilled_eq]
      exact ReadBuf.Grows.refl buf
    · exact hg
  · exact hg

instance : AsyncRead IoError (Cap count) where
  pollRead := Cap.poll
  grows := grows_poll

/-- The bound `now` decoded bytes break when `input` bytes were read for them; the total
takes precedence. -/
def broken (max maxRatio now input : Nat) : Option String :=
  if max < now then some "max_total_bytes"
  else if ratioFloorBytes < now ∧ 0 < input ∧ saturatingMul input maxRatio < now then
    some "max_compression_ratio"
  else none

theorem broken_eq_none {max maxRatio now input : Nat} :
    broken max maxRatio now input = none ↔
      now ≤ max ∧ (ratioFloorBytes < now → 0 < input → now ≤ saturatingMul input maxRatio) := by
  unfold broken
  split_ifs with h1 h2
  · simp [Nat.not_le.mpr h1]
  · simp [Nat.not_lt.mp h1, h2]
  · refine iff_of_true rfl ⟨Nat.not_lt.mp h1, fun hf hi => ?_⟩
    exact Nat.not_lt.mp fun h => h2 ⟨hf, hi, h⟩

theorem poll_failed {c : Cap count} (h : c.failed = true) (buf : ReadBuf) :
    c.poll buf = ⟨.ready (.error (capError "aborted")), buf, c⟩ := by
  simp [poll, h]

/-- Bytes that break a bound do not get out. -/
theorem poll_broken {c : Cap count} (h : c.failed = false) {buf : ReadBuf} {which : String}
    (hsum : c.total + (buf.added (pollRead c.inner buf).buf).length < 2 ^ 64)
    (hne : buf.added (pollRead c.inner buf).buf ≠ [])
    (hb : broken c.max c.maxRatio (c.total + (buf.added (pollRead c.inner buf).buf).length)
      (count (pollRead c.inner buf).reader) = some which) :
    c.poll buf = ⟨.ready (.error (capError which)), buf, { c with
      inner := (pollRead c.inner buf).reader
      total := c.total + (buf.added (pollRead c.inner buf).buf).length
      failed := true }⟩ := by
  have hpos := List.length_pos_iff.mpr hne
  simp only [broken] at hb
  simp only [poll, h, Bool.false_eq_true, if_false, hpos, if_true, breach, wrappingAdd_of_lt hsum, hb,
    (AsyncRead.grows c.inner buf).setFilled_eq]

/-- While no bound is broken the inner reader's answer is handed on. -/
theorem poll_within {c : Cap count} (h : c.failed = false) {buf : ReadBuf}
    (hsum : c.total + (buf.added (pollRead c.inner buf).buf).length < 2 ^ 64)
    (hb : buf.added (pollRead c.inner buf).buf ≠ [] →
      broken c.max c.maxRatio (c.total + (buf.added (pollRead c.inner buf).buf).length)
        (count (pollRead c.inner buf).reader) = none) :
    c.poll buf = ⟨(pollRead c.inner buf).outcome, (pollRead c.inner buf).buf, { c with
      inner := (pollRead c.inner buf).reader
      total := c.total + (buf.added (pollRead c.inner buf).buf).length }⟩ := by
  by_cases hne : buf.added (pollRead c.inner buf).buf = []
  · simp [poll, h, hne]
  · have hpos := List.length_pos_iff.mpr hne
    have hb := hb hne
    simp only [broken] at hb
    simp only [poll, h, Bool.false_eq_true, if_false, hpos, if_true, breach, wrappingAdd_of_lt hsum, hb]

/-- A cap that has not failed breaks a bound and fails, or hands on the inner answer. -/
theorem poll_cases {c : Cap count} (h : c.failed = false) (buf : ReadBuf)
    (hsum : c.total + (buf.added (pollRead c.inner buf).buf).length < 2 ^ 64) :
    (∃ which, buf.added (pollRead c.inner buf).buf ≠ [] ∧
      broken c.max c.maxRatio (c.total + (buf.added (pollRead c.inner buf).buf).length)
        (count (pollRead c.inner buf).reader) = some which ∧
      c.poll buf = ⟨.ready (.error (capError which)), buf, { c with
        inner := (pollRead c.inner buf).reader
        total := c.total + (buf.added (pollRead c.inner buf).buf).length
        failed := true }⟩) ∨
    ((buf.added (pollRead c.inner buf).buf ≠ [] →
        broken c.max c.maxRatio (c.total + (buf.added (pollRead c.inner buf).buf).length)
          (count (pollRead c.inner buf).reader) = none) ∧
      c.poll buf = ⟨(pollRead c.inner buf).outcome, (pollRead c.inner buf).buf, { c with
        inner := (pollRead c.inner buf).reader
        total := c.total + (buf.added (pollRead c.inner buf).buf).length }⟩) := by
  by_cases hne : buf.added (pollRead c.inner buf).buf = []
  · exact Or.inr ⟨fun h' => absurd hne h', poll_within h hsum (fun h' => absurd hne h')⟩
  · cases hb : broken c.max c.maxRatio (c.total + (buf.added (pollRead c.inner buf).buf).length)
        (count (pollRead c.inner buf).reader) with
    | some which => exact Or.inl ⟨which, hne, rfl, poll_broken h hsum hne hb⟩
    | none => exact Or.inr ⟨fun _ => rfl, poll_within h hsum (fun _ => hb)⟩

/-- Any poll of the inner reader, any outcome. -/
def anyPoll (_ : ReadBuf) (_ : Poll (Except IoError Unit)) : Prop := True

/-- What a run of polls leaves: the released bytes are within the total, and until the cap
fails it has handed on a run of the inner reader and charged just that. -/
structure Released (count : R → Nat) (inner : R) (max maxRatio : Nat) (bytes : List UInt8) (c : Cap count) :
    Prop where
  max_eq : c.max = max
  maxRatio_eq : c.maxRatio = maxRatio
  within : bytes.length ≤ max
  charged : c.failed = false → c.total = bytes.length ∧ Run pollRead anyPoll inner bytes c.inner
  failure : c.failed = true → ∃ r buf which, Run pollRead anyPoll inner bytes r ∧
    buf.added (pollRead r buf).buf ≠ [] ∧
    broken max maxRatio (bytes.length + (buf.added (pollRead r buf).buf).length)
      (count (pollRead r buf).reader) = some which

variable {inner : R} {max maxRatio : Nat}

/-- The inner reader hands out fewer than 2^64 bytes in all. -/
def Few (inner : R) : Prop := ∀ bytes r, Run pollRead anyPoll inner bytes r → bytes.length < 2 ^ 64

theorem Released.pulled_lt (hfew : Few inner) {bytes : List UInt8} {c : Cap count}
    (h : Released count inner max maxRatio bytes c) (hc : c.failed = false) (buf : ReadBuf) :
    c.total + (buf.added (pollRead c.inner buf).buf).length < 2 ^ 64 := by
  obtain ⟨ht, hrun⟩ := h.charged hc
  rw [ht, ← List.length_append]
  exact hfew _ _ (hrun.poll buf trivial)

theorem Released.poll (hfew : Few inner) {bytes : List UInt8} {c : Cap count}
    (h : Released count inner max maxRatio bytes c) (buf : ReadBuf) :
    Released count inner max maxRatio (bytes ++ buf.added (c.poll buf).buf) (c.poll buf).reader := by
  cases hc : c.failed with
  | true =>
    rw [poll_failed hc, ReadBuf.added_self, List.append_nil]
    exact h
  | false =>
    obtain ⟨ht, hrun⟩ := h.charged hc
    have hsum := h.pulled_lt hfew hc buf
    rcases poll_cases hc buf hsum with ⟨which, hne, hb, hp⟩ | ⟨hb, hp⟩
    · rw [hp, ReadBuf.added_self, List.append_nil]
      rw [h.max_eq, h.maxRatio_eq, ht] at hb
      exact ⟨h.max_eq, h.maxRatio_eq, h.within, by simp, fun _ => ⟨c.inner, buf, which, hrun, hne, hb⟩⟩
    · rw [hp]
      refine ⟨h.max_eq, h.maxRatio_eq, ?_, fun _ => ⟨?_, hrun.poll buf trivial⟩, by simp [hc]⟩
      · by_cases hne : buf.added (pollRead c.inner buf).buf = []
        · rw [hne, List.append_nil]
          exact h.within
        · have := (broken_eq_none.mp (hb hne)).1
          rw [h.max_eq, ht] at this
          rwa [List.length_append]
      · rw [List.length_append, ← ht]

theorem Released.of_run (hfew : Few inner) {bytes : List UInt8} {c : Cap count}
    (hrun : Run Cap.poll anyPoll (Cap.new inner max maxRatio) bytes c) :
    Released count inner max maxRatio bytes c :=
  hrun.invariant ⟨rfl, rfl, Nat.zero_le _, fun _ => ⟨rfl, .start inner⟩, by simp [Cap.new]⟩
    (fun _ _ buf h _ => h.poll hfew buf)

/-- After any run, one more poll: the bytes released in all are within both bounds and are
what the counter holds; bytes that would break a bound stay inside, the buffer is put back
and the bound named; a failed cap releases nothing more; and a cap no prefix makes fail is
the inner reader itself. -/
theorem cap_bounds_release (hfew : Few inner) {bytes : List UInt8} {c : Cap count}
    (hrun : Run Cap.poll anyPoll (Cap.new inner max maxRatio) bytes c) (buf : ReadBuf) :
    let p := c.poll buf
    let q := pollRead c.inner buf
    let released := bytes.length + (buf.added p.buf).length
    let pulled := bytes.length + (buf.added q.buf).length
    released ≤ max ∧
    (buf.added p.buf ≠ [] → ratioFloorBytes < released → 0 < count p.reader.inner →
      released ≤ saturatingMul (count p.reader.inner) maxRatio) ∧
    (p.reader.failed = false → p.reader.total = released) ∧
    (c.failed = false → buf.added q.buf ≠ [] →
      ∀ which, broken max maxRatio pulled (count q.reader) = some which →
        p.buf = buf ∧ p.outcome = .ready (.error (capError which)) ∧ p.reader.failed = true) ∧
    (c.failed = true → p.buf = buf ∧ (∃ e, p.outcome = .ready (.error e)) ∧ p.reader = c) ∧
    ((∀ bytes' r buf', Run pollRead anyPoll inner bytes' r → buf'.added (pollRead r buf').buf ≠ [] →
        broken max maxRatio (bytes'.length + (buf'.added (pollRead r buf').buf).length)
          (count (pollRead r buf').reader) = none) →
      c.failed = false ∧ Run pollRead anyPoll inner bytes c.inner ∧
        p.outcome = q.outcome ∧ p.buf = q.buf ∧ p.reader.inner = q.reader) := by
  have h := Released.of_run hfew hrun
  have h' := h.poll hfew buf
  refine ⟨by simpa using h'.within, ?_, ?_, ?_, ?_, ?_⟩
  · intro hne hfloor hinput
    cases hc : c.failed with
    | true => simp [poll_failed hc] at hne
    | false =>
      have ht := (h.charged hc).1
      rcases poll_cases hc buf (h.pulled_lt hfew hc buf) with ⟨which, -, -, hp⟩ | ⟨hb, hp⟩
      · rw [hp, ReadBuf.added_self] at hne
        exact absurd rfl hne
      · rw [hp] at hne hfloor hinput ⊢
        have := (broken_eq_none.mp (hb hne)).2
        rw [h.maxRatio_eq, ht] at this
        exact this hfloor hinput
  · intro hc
    simpa using (h'.charged hc).1
  · intro hc hne which hb
    have ht := (h.charged hc).1
    rw [poll_broken hc (h.pulled_lt hfew hc buf) hne (by rw [h.max_eq, h.maxRatio_eq, ht]; exact hb)]
    exact ⟨rfl, rfl, rfl⟩
  · intro hc
    rw [poll_failed hc]
    exact ⟨rfl, ⟨_, rfl⟩, rfl⟩
  · intro hnone
    have hc : c.failed = false := by
      cases hc : c.failed with
      | false => rfl
      | true =>
        obtain ⟨r, buf', which, hr, hne, hb⟩ := h.failure hc
        rw [hnone bytes r buf' hr hne] at hb
        cases hb
    obtain ⟨ht, hin⟩ := h.charged hc
    rw [poll_within hc (h.pulled_lt hfew hc buf) (fun hne => by
      rw [h.max_eq, h.maxRatio_eq, ht]
      exact hnone bytes c.inner buf hin hne)]
    exact ⟨hc, hin, rfl, rfl, rfl⟩

/-- Three bytes against a total of two: the first poll breaks the bound. -/
theorem cap_bounds_release_sample :
    let c : Cap (fun _ : Script IoError => 0) := Cap.new ⟨[1, 2, 3], []⟩ 2 200
    (c.poll (.new 4)).buf = .new 4 ∧
      (c.poll (.new 4)).outcome = .ready (.error (capError "max_total_bytes")) ∧
      (c.poll (.new 4)).reader.failed = true :=
  (cap_bounds_release (fun _ _ hrun => by
    have h := congrArg List.length (Script.rest_eq_of_run hrun)
    rw [List.length_append] at h
    simp only [List.length_cons, List.length_nil] at h
    omega) (.start _) (.new 4)).2.2.2.1 rfl (by decide) "max_total_bytes" (by decide)

section Feeds

/-- Whatever the counters say, a cap fails and releases nothing, or hands on the inner answer. -/
theorem poll_any {c : Cap count} (h : c.failed = false) (buf : ReadBuf) :
    (∃ e c', c.poll buf = ⟨.ready (.error e), buf, c'⟩ ∧ c'.failed = true) ∨
    ∃ total, c.poll buf = ⟨(pollRead c.inner buf).outcome, (pollRead c.inner buf).buf,
      { c with inner := (pollRead c.inner buf).reader, total := total }⟩ := by
  unfold poll
  rw [if_neg (by simp [h])]
  dsimp only
  split
  · split
    · rw [(AsyncRead.grows c.inner buf).setFilled_eq]
      exact Or.inl ⟨_, _, rfl, rfl⟩
    · exact Or.inr ⟨_, rfl⟩
  · exact Or.inr ⟨_, rfl⟩

/-- A cap that has not failed polls its inner reader, whatever comes of it. -/
theorem inner_poll {c : Cap count} (h : c.failed = false) (buf : ReadBuf) :
    (c.poll buf).reader.inner = (pollRead c.inner buf).reader := by
  unfold poll
  rw [if_neg (by simp [h])]
  dsimp only
  split
  · split <;> rfl
  · rfl

variable (F : Feed IoError R)

/-- The cap over a feed: it owes what the feed owes, and a failed cap may owe anything,
for it only reports errors. -/
def feed : Feed IoError (Cap count) where
  Owes c s stop := c.failed = true ∨ F.Owes c.inner s stop
  pending {c s stop buf} hc hb ho := by
    simp only [pollRead] at ho ⊢
    cases hf : c.failed with
    | true =>
      rw [poll_failed hf] at ho
      cases ho
    | false =>
      rcases poll_any hf buf with ⟨e, c', hp, -⟩ | ⟨total, hp⟩
      · rw [hp] at ho
        cases ho
      · rw [hp] at ho ⊢
        obtain ⟨hbuf, hr'⟩ := F.pending (hc.resolve_left (by simp [hf])) hb ho
        exact ⟨hbuf, Or.inr hr'⟩
  chunk {c s stop buf} hc hb ho := by
    simp only [pollRead] at ho ⊢
    cases hf : c.failed with
    | true =>
      rw [poll_failed hf] at ho
      cases ho
    | false =>
      rcases poll_any hf buf with ⟨e, c', hp, -⟩ | ⟨total, hp⟩
      · rw [hp] at ho
        cases ho
      · rw [hp] at ho ⊢
        obtain ⟨s', hs, hr', hend⟩ := F.chunk (hc.resolve_left (by simp [hf])) hb ho
        exact ⟨s', hs, Or.inr hr', hend⟩
  fault {c s stop buf e} hc hb ho := by
    simp only [pollRead] at ho ⊢
    cases hf : c.failed with
    | true =>
      rw [poll_failed hf]
      exact Or.inl ⟨rfl, Or.inl hf⟩
    | false =>
      rcases poll_any hf buf with ⟨e', c', hp, hc'⟩ | ⟨total, hp⟩
      · rw [hp]
        exact Or.inl ⟨rfl, Or.inl hc'⟩
      · rw [hp] at ho ⊢
        rcases F.fault (hc.resolve_left (by simp [hf])) hb ho with ⟨hbuf, hr'⟩ | h
        · exact Or.inl ⟨hbuf, Or.inr hr'⟩
        · exact Or.inr h

/-- No run of polls from here on breaks a bound. -/
def NoTrip (c : Cap count) : Prop :=
  ∀ bytes r buf, Run pollRead anyPoll c.inner bytes r → buf.added (pollRead r buf).buf ≠ [] →
    broken c.max c.maxRatio (c.total + bytes.length + (buf.added (pollRead r buf).buf).length)
      (count (pollRead r buf).reader) = none

/-- One poll of a cap that does not trip is one poll of its inner reader. -/
theorem NoTrip.poll {c : Cap count} (h : c.NoTrip) (hc : c.failed = false) (hmax : c.max ≤ u64Max)
    (htotal : c.total ≤ c.max) (buf : ReadBuf) :
    c.poll buf = ⟨(pollRead c.inner buf).outcome, (pollRead c.inner buf).buf, { c with
        inner := (pollRead c.inner buf).reader
        total := c.total + (buf.added (pollRead c.inner buf).buf).length }⟩ ∧
      (c.poll buf).reader.NoTrip ∧ (c.poll buf).reader.total ≤ c.max := by
  have hnone := h [] c.inner buf (.start _)
  have hle : c.total + (buf.added (pollRead c.inner buf).buf).length ≤ c.max := by
    by_cases hne : buf.added (pollRead c.inner buf).buf = []
    · rw [hne]
      exact htotal
    · exact (broken_eq_none.mp (hnone hne)).1
  have hsum : c.total + (buf.added (pollRead c.inner buf).buf).length < 2 ^ 64 := by
    simp only [u64Max] at hmax
    omega
  have hp := poll_within hc hsum hnone
  refine ⟨hp, ?_, by rw [hp]; exact hle⟩
  rw [hp]
  intro bytes r buf' hrun hne
  have := h _ r buf' ((Run.poll buf (.start c.inner) trivial).trans hrun) hne
  rw [List.nil_append, List.length_append, ← Nat.add_assoc] at this
  exact this

/-- A cap that has not tripped and will not. -/
structure Open (c : Cap count) : Prop where
  failed : c.failed = false
  noTrip : c.NoTrip
  max_le : c.max ≤ u64Max
  total_le : c.total ≤ c.max

theorem Open.poll {c : Cap count} (h : c.Open) (buf : ReadBuf) :
    pollRead c buf = ⟨(pollRead c.inner buf).outcome, (pollRead c.inner buf).buf, { c with
        inner := (pollRead c.inner buf).reader
        total := c.total + (buf.added (pollRead c.inner buf).buf).length }⟩ ∧
      (pollRead c buf).reader.Open := by
  obtain ⟨hp, hn, ht⟩ := h.noTrip.poll h.failed h.max_le h.total_le buf
  refine ⟨hp, ?_⟩
  show (c.poll buf).reader.Open
  rw [hp] at hn ht ⊢
  exact ⟨h.failed, hn, h.max_le, ht⟩

/-- A cap that does not trip over a feed is that feed. -/
def within : Feed IoError (Cap count) where
  Owes c s stop := c.Open ∧ F.Owes c.inner s stop
  pending {c s stop buf} hc hb ho := by
    obtain ⟨hp, hopen⟩ := hc.1.poll buf
    rw [hp] at ho hopen ⊢
    obtain ⟨hbuf, hr'⟩ := F.pending hc.2 hb ho
    exact ⟨hbuf, hopen, hr'⟩
  chunk {c s stop buf} hc hb ho := by
    obtain ⟨hp, hopen⟩ := hc.1.poll buf
    rw [hp] at ho hopen ⊢
    obtain ⟨s', hs, hr', hend⟩ := F.chunk hc.2 hb ho
    exact ⟨s', hs, ⟨hopen, hr'⟩, hend⟩
  fault {c s stop buf e} hc hb ho := by
    obtain ⟨hp, hopen⟩ := hc.1.poll buf
    rw [hp] at ho hopen ⊢
    rcases F.fault hc.2 hb ho with ⟨hbuf, hr'⟩ | h
    · exact Or.inl ⟨hbuf, hopen, hr'⟩
    · exact Or.inr h

variable {F}

def within_fair (P : F.Fair) : (within F : Feed IoError (Cap count)).Fair where
  delay c := P.delay c.inner
  pending {c s stop buf} hc hb ho := by
    have hp := (hc.1.poll buf).1
    rw [hp] at ho ⊢
    exact P.pending hc.2 hb ho
  chunk {c s stop buf} hc hb ho := by
    have hp := (hc.1.poll buf).1
    rw [hp] at ho ⊢
    exact P.chunk hc.2 hb ho
  fault {c s stop buf e} hc hb ho := by
    have hp := (hc.1.poll buf).1
    rw [hp] at ho ⊢
    exact P.fault hc.2 hb ho

theorem within_faultless (hF : F.Faultless) : (within F : Feed IoError (Cap count)).Faultless := by
  constructor
  intro c s stop buf e hc hb ho
  have hp := (hc.1.poll buf).1
  rw [hp] at ho ⊢
  exact hF.fault hc.2 hb ho

end Feeds

end Cap

end Etar.Limit
