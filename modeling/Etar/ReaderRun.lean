import Etar.Gnu
import Etar.Reader

/-!
# The life of a reader

A session is a reader with the entry it has lent out. Its steps are the calls a caller can
make, cancelled ones included; `reader_lifecycle` says what every history of them leaves.
-/
namespace Etar

open AsyncIo Limit

/-- A reader and the entry it has lent out. -/
structure Session (T : Tar) (S : Type) where
  reader : Reader T S
  entry : Option ReadEntry

/-- What the caller saw of one step. -/
inductive Event where
  | next (result : Await (Except Error (Option ReadEntry)))
  | read (outcome : Poll (Except IoError Unit)) (bytes : List UInt8)
  | drop

/-- A call that failed, or that its caller gave up. -/
def Event.Bad : Event → Prop
  | next .cancelled => True
  | next (.done (.error _)) => True
  | next (.done (.ok _)) => False
  | read (.ready (.error _)) _ => True
  | read _ _ => False
  | drop => False

/-- The entry a call lends out. -/
def lent : Await (Except Error (Option ReadEntry)) → Option ReadEntry
  | .done (.ok entry) => entry
  | _ => none

variable (H : HeaderFields) (room : ReadBuf → Prop) {T : Tar} {S : Type} [AsyncRead IoError S] [Counters S]

/-- One step of a session; an entry has to be dropped before the reader is used again.
Bodies are read into buffers that `room` allows. -/
inductive Session.Step : Session T S → Event → Session T S → Prop where
  | next (r : Reader T S) (polls : Nat) :
      Step ⟨r, none⟩ (.next (r.nextEntry H polls).1)
        ⟨(r.nextEntry H polls).2, lent (r.nextEntry H polls).1⟩
  | read (r : Reader T S) (entry : ReadEntry) (buf : ReadBuf) (hb : room buf) :
      Step ⟨r, some entry⟩ (.read (r.pollBody entry buf).1 (buf.added (r.pollBody entry buf).2.1))
        ⟨(r.pollBody entry buf).2.2.2, some (r.pollBody entry buf).2.2.1⟩
  | drop (r : Reader T S) (entry : ReadEntry) : Step ⟨r, some entry⟩ .drop ⟨r, none⟩

/-- The steps so far, and the session they led to. -/
inductive Session.Run (start : Session T S) : List Event → Session T S → Prop where
  | start : Run start [] start
  | step {evs : List Event} {σ σ' : Session T S} {ev : Event} (h : Run start evs σ) (hs : σ.Step H room ev σ') :
      Run start (evs ++ [ev]) σ'

/-- What every step keeps holds at the end of every run. -/
theorem Session.Run.invariant {P : List Event → Session T S → Prop} {start σ : Session T S} {evs : List Event}
    (hrun : Run H room start evs σ) (hstart : P [] start)
    (hstep : ∀ evs σ σ' ev, P evs σ → σ.Step H room ev σ' → P (evs ++ [ev]) σ') : P evs σ := by
  induction hrun with
  | start => exact hstart
  | step h hs ih => exact hstep _ _ _ _ ih hs

/-- A call a caller can make, for replaying histories. -/
inductive Move where
  | next (polls : Nat)
  | read (size : Nat)
  | drop

/-- Make one call, if the session allows it. -/
def Session.move (σ : Session T S) : Move → Option (Event × Session T S)
  | .next polls =>
    match σ.entry with
    | none => some (.next (σ.reader.nextEntry H polls).1,
        ⟨(σ.reader.nextEntry H polls).2, lent (σ.reader.nextEntry H polls).1⟩)
    | some _ => none
  | .read size =>
    match σ.entry with
    | none => none
    | some entry =>
      let p := σ.reader.pollBody entry (.new size)
      some (.read p.1 ((ReadBuf.new size).added p.2.1), ⟨p.2.2.2, some p.2.2.1⟩)
  | .drop => σ.entry.map fun _ => (.drop, ⟨σ.reader, none⟩)

/-- Replay calls from the history `evs` on. -/
def Session.replay : List Move → List Event → Session T S → Option (List Event × Session T S)
  | [], evs, σ => some (evs, σ)
  | m :: moves, evs, σ => (σ.move H m).bind fun p => Session.replay moves (evs ++ [p.1]) p.2

theorem Session.move_step {σ σ' : Session T S} {m : Move} {ev : Event} (h : σ.move H m = some (ev, σ')) :
    σ.Step H (fun _ => True) ev σ' := by
  rcases σ with ⟨r, entry⟩
  cases m with
  | next polls =>
    cases entry with
    | none =>
      cases h
      exact .next r polls
    | some entry => cases h
  | read size =>
    cases entry with
    | none => cases h
    | some entry =>
      cases h
      exact .read r entry (.new size) trivial
  | drop =>
    cases entry with
    | none => cases h
    | some entry =>
      cases h
      exact .drop r entry

/-- What can be replayed is a history. -/
theorem Session.replay_run {start σ σ' : Session T S} {moves : List Move} {evs evs' : List Event}
    (hrun : Session.Run H (fun _ => True) start evs σ) (h : Session.replay H moves evs σ = some (evs', σ')) :
    Session.Run H (fun _ => True) start evs' σ' := by
  induction moves generalizing evs σ with
  | nil =>
    cases h
    exact hrun
  | cons m moves ih =>
    obtain ⟨⟨ev, σ₁⟩, hmove, hrest⟩ := Option.bind_eq_some_iff.mp h
    exact ih (.step hrun (Session.move_step H hmove)) hrest

theorem readError_ne_aborted (e : IoError) (total max : Nat) : readError e total max ≠ .aborted := by
  intro h
  unfold readError at h
  split at h
  · cases h
  · split at h <;> cases h

theorem openEntry_ne_aborted {B : Type} (entry : TarEntry) (body : B) (limits : SecurityLimits) :
    openEntry H entry body limits ≠ .error .aborted := by
  intro h
  have hrefusal := openEntry_error H h
  exact hrefusal

namespace Reader

variable {H}

/-- Draining moves the source only, and never reports an aborted operation. -/
theorem drain_spec (polls trailing : Nat) (r : Reader T S) :
    (∃ source, (r.drain polls trailing).2 = { r with source := source }) ∧
      (r.drain polls trailing).1 ≠ .done (.error .aborted) := by
  induction polls generalizing trailing r with
  | zero => exact ⟨⟨r.source, rfl⟩, by simp [drain]⟩
  | succ polls ih =>
    unfold drain
    dsimp only
    cases (pollRead r.source (.new 8192)).outcome with
    | pending => exact ih trailing { r with source := (pollRead r.source (.new 8192)).reader }
    | ready res =>
      cases res with
      | error e => exact ⟨⟨_, rfl⟩, by simpa [report] using readError_ne_aborted _ _ _⟩
      | ok =>
        dsimp only
        split_ifs
        · exact ⟨⟨_, rfl⟩, by simp⟩
        · exact ⟨⟨_, rfl⟩, by simp⟩
        · exact ⟨⟨_, rfl⟩, by simp⟩
        · exact ih _ { r with source := (pollRead r.source (.new 8192)).reader }

/-- So does the check of the end, besides taking the parser. -/
theorem verifyEnd_spec (polls : Nat) (r : Reader T S) :
    (∃ source archive, (r.verifyEnd polls).2 = { r with source := source, archive := archive, entries := none }) ∧
      (r.verifyEnd polls).1 ≠ .done (.error .aborted) := by
  unfold verifyEnd
  dsimp only
  split
  · exact ⟨⟨r.source, r.archive, rfl⟩, by simp⟩
  · split
    · obtain ⟨⟨source, h⟩, hne⟩ := drain_spec polls 0 { r with entries := none, archive := none }
      exact ⟨⟨source, none, h⟩, hne⟩
    · exact ⟨⟨r.source, none, rfl⟩, by simp⟩

omit [AsyncRead IoError S] [Counters S] in
theorem accept_spec (r : Reader T S) (entry : TarEntry) :
    (r.accept H entry).2 = { r with seen := r.seen + 1 } ∧ (r.accept H entry).1 ≠ .error .aborted := by
  unfold accept
  dsimp only
  split
  · exact ⟨rfl, by simp⟩
  · exact ⟨rfl, openEntry_ne_aborted H entry () r.limits⟩

/-- The reader once the parser has answered. -/
def pulled (polls : Nat) (r : Reader T S) : Reader T S :=
  { r with parser := (T.pull polls r.parser r.source).parser, source := (T.pull polls r.parser r.source).source }

omit [Counters S] in
@[simp] theorem pulled_bodyFailed (polls : Nat) (r : Reader T S) : (r.pulled polls).bodyFailed = r.bodyFailed := rfl
omit [Counters S] in
@[simp] theorem pulled_done (polls : Nat) (r : Reader T S) : (r.pulled polls).done = r.done := rfl
omit [Counters S] in
@[simp] theorem pulled_archive (polls : Nat) (r : Reader T S) : (r.pulled polls).archive = r.archive := rfl
omit [Counters S] in
@[simp] theorem pulled_entries (polls : Nat) (r : Reader T S) : (r.pulled polls).entries = r.entries := rfl
omit [Counters S] in
@[simp] theorem pulled_limits (polls : Nat) (r : Reader T S) : (r.pulled polls).limits = r.limits := rfl
omit [Counters S] in
@[simp] theorem pulled_seen (polls : Nat) (r : Reader T S) : (r.pulled polls).seen = r.seen := rfl
omit [AsyncRead IoError S] [Counters S] in
@[simp] theorem abort_bodyFailed (r : Reader T S) : r.abort.bodyFailed = true := rfl
omit [AsyncRead IoError S] [Counters S] in
@[simp] theorem abort_done (r : Reader T S) : r.abort.done = r.done := rfl

/-- A live reader answers with what it makes of the parser's answer. -/
theorem nextEntry_live {r : Reader T S} (hf : r.bodyFailed = false) (hd : r.done = false) {handle : Handle}
    (he : r.entries = some handle) (polls : Nat) :
    r.nextEntry H polls =
      match (T.pull polls r.parser r.source).result with
      | .cancelled => (.cancelled, (r.pulled polls).abort)
      | .done (some (.ok entry)) =>
        match (r.pulled polls).accept H entry with
        | (.ok accepted, r) => (.done (.ok (some accepted)), r)
        | (.error e, r) => (.done (.error e), r.abort)
      | .done (some (.error e)) => (.done (.error ((r.pulled polls).report e)), (r.pulled polls).abort)
      | .done none =>
        match (r.pulled polls).verifyEnd (T.pull polls r.parser r.source).left with
        | (.cancelled, r) => (.cancelled, r.abort)
        | (.done (.error e), r) => (.done (.error e), r.abort)
        | (.done (.ok ()), r) => (.done (.ok none), { r with done := true }) := by
  unfold nextEntry
  rw [if_neg (by simp [hf]), if_neg (by simp [hd])]
  split
  · rename_i h
    rw [he] at h
    cases h
  · rfl

/-- What one call of `next_entry` does: a poisoned or finished reader stays as it is; any
other is poisoned by an error or a cancellation, finished by a clean end, and else keeps
its parser. -/
theorem nextEntry_cases (r : Reader T S) (polls : Nat) :
    (r.bodyFailed = true ∧ r.nextEntry H polls = (.done (.error .aborted), r)) ∨
    (r.bodyFailed = false ∧ r.done = true ∧ r.nextEntry H polls = (.done (.ok none), r)) ∨
    (r.bodyFailed = false ∧ r.done = false ∧
      match (r.nextEntry H polls).1 with
      | .cancelled => (r.nextEntry H polls).2.bodyFailed = true ∧ (r.nextEntry H polls).2.done = false
      | .done (.error e) => e ≠ .aborted ∧ (r.nextEntry H polls).2.bodyFailed = true ∧
          (r.nextEntry H polls).2.done = false
      | .done (.ok (some _)) => (r.nextEntry H polls).2.bodyFailed = false ∧
          (r.nextEntry H polls).2.done = false ∧ (r.nextEntry H polls).2.archive = r.archive ∧
          (r.nextEntry H polls).2.entries = r.entries
      | .done (.ok none) => (r.nextEntry H polls).2.bodyFailed = false ∧ (r.nextEntry H polls).2.done = true) := by
  cases hf : r.bodyFailed with
  | true => exact Or.inl ⟨rfl, by simp [nextEntry, hf]⟩
  | false =>
    cases hd : r.done with
    | true => exact Or.inr (Or.inl ⟨rfl, rfl, by simp [nextEntry, hf, hd]⟩)
    | false =>
      refine Or.inr (Or.inr ⟨rfl, rfl, ?_⟩)
      cases he : r.entries with
      | none => simp [nextEntry, hf, hd, he, abort]
      | some handle =>
        rw [nextEntry_live hf hd he]
        cases (T.pull polls r.parser r.source).result with
        | cancelled => exact ⟨rfl, hd⟩
        | done i =>
          cases i with
          | none =>
            obtain ⟨⟨source, archive, hv₂⟩, hne⟩ :=
              verifyEnd_spec (T.pull polls r.parser r.source).left (r.pulled polls)
            rcases hv : (r.pulled polls).verifyEnd (T.pull polls r.parser r.source).left with ⟨res, r₂⟩
            rw [hv] at hv₂ hne
            simp only at hv₂
            subst hv₂
            cases res with
            | cancelled => exact ⟨rfl, hd⟩
            | done res =>
              cases res with
              | error e => exact ⟨fun h => hne (by rw [h]), rfl, hd⟩
              | ok => exact ⟨hf, rfl⟩
          | some res =>
            cases res with
            | error e => exact ⟨readError_ne_aborted _ _ _, rfl, hd⟩
            | ok entry =>
              obtain ⟨hacc, hne⟩ := accept_spec (H := H) (r.pulled polls) entry
              dsimp only
              rcases ha : (r.pulled polls).accept H entry with ⟨res, r₂⟩
              rw [ha] at hacc hne
              simp only at hacc hne
              subst hacc
              cases res with
              | error e => exact ⟨fun h => hne (by rw [h]), rfl, hd⟩
              | ok accepted => exact ⟨hf, hd, rfl, he⟩

/-- A call keeps the limits, and counts entries only when the parser hands one out. -/
theorem nextEntry_kept (r : Reader T S) (polls : Nat) :
    (r.nextEntry H polls).2.limits = r.limits ∧ r.seen ≤ (r.nextEntry H polls).2.seen ∧
      ((r.nextEntry H polls).1 = .done (.ok none) → (r.nextEntry H polls).2.seen = r.seen) := by
  cases hf : r.bodyFailed with
  | true => simp [nextEntry, hf]
  | false =>
    cases hd : r.done with
    | true => simp [nextEntry, hf, hd]
    | false =>
      cases he : r.entries with
      | none => simp [nextEntry, hf, hd, he, abort]
      | some handle =>
        rw [nextEntry_live hf hd he]
        cases (T.pull polls r.parser r.source).result with
        | cancelled => exact ⟨rfl, le_refl _, by simp⟩
        | done i =>
          cases i with
          | none =>
            obtain ⟨⟨source, archive, hv₂⟩, -⟩ :=
              verifyEnd_spec (T.pull polls r.parser r.source).left (r.pulled polls)
            rcases hv : (r.pulled polls).verifyEnd (T.pull polls r.parser r.source).left with ⟨res, r₂⟩
            rw [hv] at hv₂
            simp only at hv₂
            subst hv₂
            cases res with
            | cancelled => exact ⟨rfl, le_refl _, by simp⟩
            | done res => cases res <;> exact ⟨rfl, le_refl _, fun _ => rfl⟩
          | some res =>
            cases res with
            | error e => exact ⟨rfl, le_refl _, by simp⟩
            | ok entry =>
              have hacc := (accept_spec (H := H) (r.pulled polls) entry).1
              dsimp only
              rcases ha : (r.pulled polls).accept H entry with ⟨res, r₂⟩
              rw [ha] at hacc
              simp only at hacc
              subst hacc
              cases res <;> exact ⟨rfl, Nat.le_succ _, by simp⟩

omit [Counters S] in
theorem pollBody_kept (r : Reader T S) (entry : ReadEntry) (buf : ReadBuf) :
    (r.pollBody entry buf).2.2.2.limits = r.limits ∧ (r.pollBody entry buf).2.2.2.seen = r.seen ∧
      (r.pollBody entry buf).2.2.1 = { entry with body := (r.pollBody entry buf).2.2.1.body } := by
  unfold pollBody
  dsimp only
  cases (pollRead (r.body entry) buf).outcome with
  | pending => exact ⟨rfl, rfl, rfl⟩
  | ready res => cases res <;> exact ⟨rfl, rfl, rfl⟩

omit [Counters S] in
/-- A body poll moves the parser and its source, and poisons the reader if it fails. -/
theorem pollBody_spec (r : Reader T S) (entry : ReadEntry) (buf : ReadBuf) :
    (r.pollBody entry buf).2.2.2.done = r.done ∧ (r.pollBody entry buf).2.2.2.archive = r.archive ∧
      (r.pollBody entry buf).2.2.2.entries = r.entries ∧
      (r.pollBody entry buf).2.2.2.bodyFailed =
        match (r.pollBody entry buf).1 with
        | .ready (.error _) => true
        | _ => r.bodyFailed := by
  unfold pollBody
  dsimp only
  cases (pollRead (r.body entry) buf).outcome with
  | pending => exact ⟨rfl, rfl, rfl, rfl⟩
  | ready res => cases res <;> exact ⟨rfl, rfl, rfl, rfl⟩

omit [Counters S] in
/-- A body poll does not repair a broken reader. -/
theorem pollBody_broken {r : Reader T S} (hf : r.bodyFailed = true) (entry : ReadEntry) (buf : ReadBuf) :
    (r.pollBody entry buf).2.2.2.bodyFailed = true := by
  rw [(r.pollBody_spec entry buf).2.2.2, hf]
  cases (r.pollBody entry buf).1 with
  | pending => rfl
  | ready res => cases res <;> rfl

end Reader

/-- What a history leaves: the flags tell what happened, a finished reader has lent nothing
out, and a live one has its parser and its entry stream. -/
structure Lifecycle (evs : List Event) (σ : Session T S) : Prop where
  poisoned : σ.reader.bodyFailed = true ↔ ∃ ev ∈ evs, ev.Bad
  finished : σ.reader.done = true ↔ Event.next (.done (.ok none)) ∈ evs
  last : σ.reader.done = true → σ.reader.bodyFailed = false ∧ σ.entry = none
  live : σ.reader.bodyFailed = false → σ.reader.done = false →
    σ.reader.archive.isSome ∧ σ.reader.entries.isSome

variable {H room}

omit [AsyncRead IoError S] [Counters S] in
theorem lifecycle_start {source : S} {limits : SecurityLimits} {r : Reader T S}
    (hstart : Reader.start T source limits = .ok r) : Lifecycle [] ⟨r, none⟩ := by
  obtain ⟨parser, rfl⟩ := Reader.start_ok hstart
  exact ⟨by simp, by simp, by simp, by simp⟩

omit [AsyncRead IoError S] [Counters S] in
/-- Where an entry is lent, no clean end was reported. -/
theorem Lifecycle.not_done {evs : List Event} {σ : Session T S} (h : Lifecycle evs σ) {e : ReadEntry}
    (he : σ.entry = some e) : σ.reader.done = false := by
  cases hd : σ.reader.done with
  | false => rfl
  | true =>
    rw [(h.last hd).2] at he
    cases he

theorem Lifecycle.step {evs : List Event} {σ σ' : Session T S} {ev : Event} (h : Lifecycle evs σ)
    (hs : σ.Step H room ev σ') : Lifecycle (evs ++ [ev]) σ' := by
  cases hs with
  | next r polls =>
    rcases Reader.nextEntry_cases (H := H) r polls with ⟨hf, he⟩ | ⟨hf, hd, he⟩ | ⟨hf, hd, hm⟩
    · rw [he]
      refine ⟨?_, ?_, ?_, ?_⟩
      · simp [Event.Bad, hf]
      · simpa using h.finished
      · intro hd
        have hf' : r.bodyFailed = false := (h.last hd).1
        rw [hf] at hf'
        cases hf'
      · intro hf'
        have hf' : r.bodyFailed = false := hf'
        rw [hf] at hf'
        cases hf'
    · rw [he]
      refine ⟨?_, by simp [hd], fun _ => ⟨hf, rfl⟩, ?_⟩
      · simpa [Event.Bad] using h.poisoned
      · intro _ hd'
        have hd' : r.done = false := hd'
        rw [hd] at hd'
        cases hd'
    · have hp : ¬ ∃ ev ∈ evs, ev.Bad := fun hb => by
        have := h.poisoned.mpr hb
        simp [hf] at this
      have hn : Event.next (.done (.ok none)) ∉ evs := fun hm => by
        have := h.finished.mpr hm
        simp [hd] at this
      have hl := h.live hf hd
      rcases hr : r.nextEntry H polls with ⟨res, r'⟩
      rw [hr] at hm
      cases res with
      | cancelled =>
        obtain ⟨hf', hd'⟩ := hm
        simp only at hf' hd'
        exact ⟨by simp [hf', Event.Bad], by simp [hd', hn], by simp [hd'], by simp [hf']⟩
      | done res =>
        cases res with
        | error e =>
          obtain ⟨-, hf', hd'⟩ := hm
          simp only at hf' hd'
          exact ⟨by simp [hf', Event.Bad], by simp [hd', hn], by simp [hd'], by simp [hf']⟩
        | ok o =>
          cases o with
          | none =>
            obtain ⟨hf', hd'⟩ := hm
            simp only at hf' hd'
            exact ⟨by simpa [hf', Event.Bad] using hp, by simp [hd'], fun _ => ⟨hf', rfl⟩, by simp [hd']⟩
          | some entry =>
            obtain ⟨hf', hd', ha, he⟩ := hm
            simp only at hf' hd' ha he
            refine ⟨by simpa [hf', Event.Bad] using hp, by simp [hd', hn], by simp [hd'], fun _ _ => ?_⟩
            rw [ha, he]
            exact hl
  | read r entry buf hb =>
    obtain ⟨hd, ha, he, hf⟩ := r.pollBody_spec entry buf
    have hlast : r.done = false := by
      cases hr : r.done with
      | false => rfl
      | true => exact absurd (h.last hr).2 (by simp)
    refine ⟨?_, ?_, ?_, ?_⟩
    · rw [hf]
      have hp : r.bodyFailed = true ↔ ∃ ev ∈ evs, ev.Bad := h.poisoned
      cases ho : (r.pollBody entry buf).1 with
      | pending => simp [Event.Bad, hp]
      | ready res => cases res <;> simp [Event.Bad, hp]
    · simpa [hd] using h.finished
    · simp [hd, hlast]
    · intro hf' _
      rw [ha, he]
      refine h.live ?_ hlast
      rw [hf] at hf'
      revert hf'
      split <;> simp
  | drop r entry =>
    exact ⟨by simpa [Event.Bad] using h.poisoned, by simpa using h.finished,
      fun hd => ⟨(h.last hd).1, rfl⟩, h.live⟩

theorem Lifecycle.of_run {source : S} {limits : SecurityLimits} {r : Reader T S}
    (hstart : Reader.start T source limits = .ok r) {evs : List Event} {σ : Session T S}
    (hrun : Session.Run H room ⟨r, none⟩ evs σ) : Lifecycle evs σ :=
  hrun.invariant H room (lifecycle_start hstart) (fun _ _ _ _ h hs => h.step hs)

/-- After any history, `next_entry` reports an aborted operation exactly when an earlier
call or body read failed or was given up; a finished reader stays finished; and a live one
has its parser and its entry stream. -/
theorem reader_lifecycle {source : S} {limits : SecurityLimits} {r : Reader T S}
    (hstart : Reader.start T source limits = .ok r) {evs : List Event} {σ : Session T S}
    (hrun : Session.Run H room ⟨r, none⟩ evs σ) :
    (∀ polls, (σ.reader.nextEntry H polls).1 = .done (.error .aborted) ↔ ∃ ev ∈ evs, ev.Bad) ∧
    ((∃ ev ∈ evs, ev.Bad) → ∀ polls, (σ.reader.nextEntry H polls).1 = .done (.error .aborted)) ∧
    (Event.next (.done (.ok none)) ∈ evs → ∀ polls, (σ.reader.nextEntry H polls).1 = .done (.ok none)) ∧
    (σ.reader.bodyFailed = false → σ.reader.done = false →
      σ.reader.archive.isSome ∧ σ.reader.entries.isSome) := by
  have h := Lifecycle.of_run hstart hrun
  have haborted : ∀ polls, (σ.reader.nextEntry H polls).1 = .done (.error .aborted) ↔
      σ.reader.bodyFailed = true := by
    intro polls
    rcases Reader.nextEntry_cases (H := H) σ.reader polls with ⟨hf, he⟩ | ⟨hf, hd, he⟩ | ⟨hf, hd, hm⟩
    · simp [hf, he]
    · simp [hf, he]
    · constructor
      · intro heq
        rw [heq] at hm
        exact absurd rfl hm.1
      · intro h'
        simp [hf] at h'
  refine ⟨fun polls => (haborted polls).trans h.poisoned,
    fun hb polls => (haborted polls).mpr (h.poisoned.mpr hb), ?_, h.live⟩
  intro hn polls
  have hd := h.finished.mpr hn
  simp [Reader.nextEntry, hd, (h.last hd).1]

/-- A fresh reader over a decoded stream, with a parser that follows its phases. -/
def fresh (F : TarFormat gnuFields) (limits : SecurityLimits) (decoded : Script IoError) :
    Reader (.ofFormat F) (Source gnuFields fun _ : Script IoError => 0) :=
  ⟨.header F.start [], stack decoded limits, some ⟨⟩, some ⟨⟩, limits, false, 0, false⟩

theorem over_fresh (F : TarFormat gnuFields) (limits : SecurityLimits) (decoded : Script IoError) :
    Reader.over (.ofFormat F) decoded limits = .ok (fresh F limits decoded) := rfl

/-- Whether a call was given up. -/
def Event.cancelled : Event → Bool
  | next .cancelled => true
  | _ => false

/-- Given up while its source is late, a reader stays aborted. -/
theorem reader_lifecycle_sample :
    ∃ r : Reader Gnu.tar (Source gnuFields fun _ : Script IoError => 0),
      Reader.over Gnu.tar ⟨Gnu.plain, [.give 100, .late]⟩ .default = .ok r ∧
        (Event.next (r.nextEntry gnuFields 1).1).cancelled = true ∧
        ((r.nextEntry gnuFields 1).2.nextEntry gnuFields 9).1 = .done (.error .aborted) := by
  have hlate : (Event.next ((fresh Gnu.format .default ⟨Gnu.plain, [.give 100, .late]⟩).nextEntry gnuFields 1).1).cancelled
      = true := by
    decide +kernel
  refine ⟨_, over_fresh Gnu.format .default ⟨Gnu.plain, [.give 100, .late]⟩, hlate, ?_⟩
  have hover := over_fresh Gnu.format .default ⟨Gnu.plain, [.give 100, .late]⟩
  generalize fresh Gnu.format .default ⟨Gnu.plain, [.give 100, .late]⟩ = r at hlate hover
  have hrun : Session.Run gnuFields (fun _ => True) ⟨r, none⟩ [.next (r.nextEntry gnuFields 1).1] _ :=
    .step .start (.next r 1)
  refine (reader_lifecycle hover hrun).2.1 ⟨_, List.mem_singleton_self _, ?_⟩ 9
  cases hres : (r.nextEntry gnuFields 1).1 with
  | cancelled => trivial
  | done res =>
    rw [hres] at hlate
    cases hlate

end Etar
