import Etar.Transparent
import Mathlib.Data.List.Forall2

/-!
# A reader is a cursor

What an archive is to its callers: a listing of entries with their data, and a cursor that goes over
it once, front to back, and is lost for good when anything fails. Every session is such a cursor on
the listing of its decoded stream, whatever the source, the parser, the limits and the caller do; and
it fails for a reason.
-/

/-!
## Labelled systems

A system has starts and labelled steps; a run is what its labels were and where they led. A
simulation reads the runs of one system as runs of another: each label by what it looks like, each
history by the state it stands for.
-/
namespace Labelled

variable {L M S T : Type}

/-- States to start from, and labelled steps. -/
structure System (L S : Type) where
  Start : S → Prop
  Step : S → L → S → Prop

/-- The labels so far, and the state they led to. -/
inductive System.Run (A : System L S) : List L → S → Prop where
  | start {s : S} (h : A.Start s) : A.Run [] s
  | step {ls : List L} {s s' : S} {l : L} (h : A.Run ls s) (hs : A.Step s l s') : A.Run (ls ++ [l]) s'

/-- What the starts have and every step keeps, every run has. -/
theorem System.Run.invariant {A : System L S} {P : List L → S → Prop} (hstart : ∀ s, A.Start s → P [] s)
    (hstep : ∀ ls s l s', P ls s → A.Step s l s' → P (ls ++ [l]) s') {ls : List L} {s : S} (hrun : A.Run ls s) :
    P ls s := by
  induction hrun with
  | start h => exact hstart _ h
  | step h hs ih => exact hstep _ _ _ _ ih hs

/-- Runs of `C`, with their labels seen through `see`, are runs of `A` to what they stand for. -/
structure Simulation (C : System L S) (A : System M T) (see : L → M) (abs : List L → S → T) : Prop where
  start : ∀ {s}, C.Start s → A.Start (abs [] s)
  step : ∀ {ls s l s'}, C.Run ls s → C.Step s l s' → A.Step (abs ls s) (see l) (abs (ls ++ [l]) s')

theorem Simulation.run {C : System L S} {A : System M T} {see : L → M} {abs : List L → S → T}
    (h : Simulation C A see abs) {ls : List L} {s : S} (hrun : C.Run ls s) : A.Run (ls.map see) (abs ls s) := by
  induction hrun with
  | start hs => exact .start (h.start hs)
  | step hrun hs ih =>
    rw [List.map_append]
    exact .step ih (h.step hrun hs)

end Labelled

namespace Etar

open AsyncIo Limit Compress Guard

/-- Entries with their data, in order; an entry that cannot be opened has nothing to show. A listing
is closed when the archive is known to be whole. -/
structure Listing (α : Type) where
  entries : List (Option α × List UInt8)
  closed : Prop

/-- What a call in front of an entry may fail with, and a read inside of one. -/
structure Excuses where
  call : Nat → Error → Prop
  read : Nat → IoError → Prop

/-- What a caller sees of one step. -/
inductive Sight (α : Type) where
  | entry (a : α)
  | ended
  | fails (e : Error)
  | givenUp
  | aborted
  | waits
  | bytes (bytes : List UInt8)
  | idles
  | breaks (e : IoError)
  | drop

/-- Where a cursor is: in front of an entry, in an entry of which some bytes were read, behind the
last entry, or broken. -/
inductive Cursor where
  | before (k : Nat)
  | inside (k : Nat) (front : List UInt8)
  | ended
  | broken (lent : Bool)

namespace Cursor

variable {α : Type} (L : Listing α) (X : Excuses)

/-- What a cursor may show. A read with room that brings nothing of a closed listing is at the end of
the data, one without room idles. Only the caller gives a call up. -/
inductive Step : Cursor → Sight α → Cursor → Prop where
  | entry {k : Nat} {a : α} {data : List UInt8} (h : L.entries[k]? = some (some a, data)) :
      Step (before k) (.entry a) (inside k [])
  | ended {k : Nat} (h : L.entries.length ≤ k) (hclosed : L.closed) : Step (before k) .ended ended
  | again : Step ended .ended ended
  | fails {k : Nat} {e : Error} (h : X.call k e) : Step (before k) (.fails e) (broken false)
  | gives_up (k : Nat) : Step (before k) .givenUp (broken false)
  | aborted : Step (broken false) .aborted (broken false)
  | waits {k : Nat} {front : List UInt8} : Step (inside k front) .waits (inside k front)
  | bytes {k : Nat} {a : Option α} {data front bytes : List UInt8} (h : L.entries[k]? = some (a, data))
      (hfront : front ++ bytes <+: data) (hend : bytes = [] → L.closed → front = data) :
      Step (inside k front) (.bytes bytes) (inside k (front ++ bytes))
  | idles {k : Nat} {front : List UInt8} : Step (inside k front) .idles (inside k front)
  | breaks {k : Nat} {front : List UInt8} {e : IoError} (h : X.read k e) :
      Step (inside k front) (.breaks e) (broken true)
  | drop {k : Nat} {front : List UInt8} : Step (inside k front) .drop (before (k + 1))
  | waits_on : Step (broken true) .waits (broken true)
  | reads_on (bytes : List UInt8) : Step (broken true) (.bytes bytes) (broken true)
  | idles_on : Step (broken true) .idles (broken true)
  | breaks_on (e : IoError) : Step (broken true) (.breaks e) (broken true)
  | drops_broken : Step (broken true) .drop (broken false)

/-- A cursor in front of the first entry. -/
def system : Labelled.System (Sight α) Cursor := ⟨(· = before 0), Step L X⟩

end Cursor

section Transcripts

variable {α : Type}

/-- The entries seen so far and what was read of each, and whether every read went well. -/
structure Notes (α : Type) where
  rows : List (α × List UInt8)
  live : Bool

/-- Note what is seen; nothing is noted after a failed read. -/
def Notes.note (n : Notes α) : Sight α → Notes α
  | .entry a => if n.live then { n with rows := n.rows ++ [(a, [])] } else n
  | .bytes bytes =>
    if n.live then { n with rows := n.rows.dropLast ++ (n.rows.getLast?.map fun p => (p.1, p.2 ++ bytes)).toList }
    else n
  | .breaks _ => { n with live := false }
  | _ => n

def notes (seen : List (Sight α)) : Notes α := seen.foldl Notes.note ⟨[], true⟩

/-- Nothing read is nothing to note. -/
@[simp] theorem Notes.note_nil (n : Notes α) : n.note (.bytes []) = n := by
  obtain ⟨rows, live⟩ := n
  cases live with
  | false => rfl
  | true =>
    rcases List.eq_nil_or_concat rows with rfl | ⟨rows, row, rfl⟩
    · rfl
    · simp [Notes.note]

@[simp] theorem notes_append (seen : List (Sight α)) (s : Sight α) : notes (seen ++ [s]) = (notes seen).note s :=
  List.foldl_append

/-- The entries seen, each with what was read of it up to the first failed read. -/
def transcript (seen : List (Sight α)) : List (α × List UInt8) := (notes seen).rows

variable (L : Listing α)

/-- The first entries listed, each with the front of its data. -/
def Listing.Shows (t : List (α × List UInt8)) : Prop :=
  List.Forall₂ (fun e p => p.1 = some e.1 ∧ e.2 <+: p.2) t (L.entries.take t.length)

variable {L} {X : Excuses}

theorem Listing.Shows.concat {t : List (α × List UInt8)} (h : L.Shows t) {a : α} {data front : List UInt8}
    (hk : L.entries[t.length]? = some (some a, data)) (hfront : front <+: data) : L.Shows (t ++ [(a, front)]) := by
  obtain ⟨hlt, heq⟩ := List.getElem?_eq_some_iff.mp hk
  have htake : L.entries.take (t ++ [(a, front)]).length = L.entries.take t.length ++ [(some a, data)] := by
    rw [List.length_append, List.length_singleton, List.take_add_one, hk]
    rfl
  unfold Listing.Shows
  rw [htake]
  exact List.rel_append h (.cons ⟨rfl, hfront⟩ .nil)

/-- What the notes of a run hold where the cursor is. -/
def Cursor.Noted (L : Listing α) (n : Notes α) : Cursor → Prop
  | before k => n.live = true ∧ n.rows.length = k ∧ L.Shows n.rows
  | inside k front => n.live = true ∧ ∃ t a data, n.rows = t ++ [(a, front)] ∧ t.length = k ∧ L.Shows t ∧
      L.entries[k]? = some (some a, data) ∧ front <+: data
  | ended => n.rows.length = L.entries.length ∧ L.closed ∧ L.Shows n.rows
  | broken lent => (lent = true → n.live = false) ∧ L.Shows n.rows

theorem Cursor.Noted.shows {n : Notes α} {c : Cursor} (h : c.Noted L n) : L.Shows n.rows := by
  cases c with
  | before k => exact h.2.2
  | inside k front =>
    obtain ⟨-, t, a, data, hrows, rfl, ht, hk, hfront⟩ := h
    rw [hrows]
    exact ht.concat hk hfront
  | ended => exact h.2.2
  | broken lent => exact h.2

theorem Cursor.Noted.step {n : Notes α} {c c' : Cursor} {s : Sight α} (h : c.Noted L n) (hs : c.Step L X s c') :
    c'.Noted L (n.note s) := by
  cases hs with
  | entry hk =>
    obtain ⟨hlive, rfl, hshows⟩ := h
    rw [Notes.note, if_pos hlive]
    exact ⟨hlive, n.rows, _, _, rfl, rfl, hshows, hk, List.nil_prefix⟩
  | ended hk hclosed =>
    obtain ⟨-, rfl, hshows⟩ := h
    have hle : n.rows.length ≤ L.entries.length := by
      rw [List.Forall₂.length_eq hshows]
      exact List.length_take_le' ..
    exact ⟨Nat.le_antisymm hle hk, hclosed, hshows⟩
  | again => exact h
  | fails => exact ⟨(fun h => by cases h), h.shows⟩
  | gives_up k => exact ⟨(fun h => by cases h), h.shows⟩
  | aborted => exact h
  | waits => exact h
  | @bytes k a data front bytes hk hfront hend =>
    obtain ⟨hlive, t, b, data', hrows, ht, hshows, hk', -⟩ := h
    rw [hk] at hk'
    cases hk'
    rw [Notes.note, if_pos hlive, hrows]
    exact ⟨hlive, t, b, data, by simp, ht, hshows, hk, hfront⟩
  | idles => exact h
  | breaks => exact ⟨fun _ => rfl, h.shows⟩
  | drop =>
    obtain ⟨hlive, t, a, data, hrows, ht, -⟩ := id h
    have hlength : n.rows.length = t.length + 1 := by rw [hrows, List.length_append, List.length_singleton]
    exact ⟨hlive, hlength.trans (congrArg (· + 1) ht), h.shows⟩
  | waits_on => exact h
  | reads_on bytes =>
    rw [Notes.note, h.1 rfl]
    exact h
  | idles_on => exact h
  | breaks_on e => exact ⟨fun _ => rfl, h.2⟩
  | drops_broken => exact ⟨(fun h => by cases h), h.2⟩

/-- Every run of a cursor shows the first entries listed, in order and each with the front of its
data. -/
theorem Cursor.noted_of_run {seen : List (Sight α)} {c : Cursor} (hrun : (Cursor.system L X).Run seen c) :
    c.Noted L (notes seen) := by
  refine hrun.invariant (P := fun seen c => c.Noted L (notes seen)) ?_ ?_
  · intro c hc
    obtain rfl : c = .before 0 := hc
    exact ⟨rfl, rfl, .nil⟩
  · intro seen c s c' h hs
    rw [notes_append]
    exact h.step hs

end Transcripts

section Sessions

variable {T : Tar} {S : Type} [AsyncRead IoError S] [Counters S] {H : HeaderFields} {F : TarFormat H}

/-- What a caller sees of a step of a session. -/
def Event.sight : Event → Sight EntryHeader
  | .next .cancelled => .givenUp
  | .next (.done (.error e)) => if e = .aborted then .aborted else .fails e
  | .next (.done (.ok none)) => .ended
  | .next (.done (.ok (some entry))) => .entry entry.header
  | .read .pending _ => .waits
  | .read (.ready (.ok ())) bytes => .bytes bytes
  | .read (.ready (.error e)) _ => .breaks e
  | .drop => .drop

/-- A step with what its caller knows of it besides: whether the buffer of a read had room. -/
structure Deed where
  event : Event
  roomy : Bool

/-- What a caller sees of it; a read without room tells nothing. -/
def Deed.sight : Deed → Sight EntryHeader
  | ⟨.read (.ready (.ok ())) _, false⟩ => .idles
  | ⟨ev, _⟩ => ev.sight

/-- The cursor that a session stands for. -/
def Session.cursor (evs : List Event) (σ : Session T S) : Cursor :=
  if σ.reader.bodyFailed then .broken σ.entry.isSome
  else if σ.reader.done then .ended
  else
    match σ.entry with
    | none => .before σ.reader.seen
    | some _ => .inside (σ.reader.seen - 1) (bodyRead evs)

/-- Sessions as a labelled system, with buffers of any size. -/
def Session.system (H : HeaderFields) (start : Session T S) : Labelled.System Deed (Session T S) where
  Start := (· = start)
  Step σ d σ' := σ.Step H (fun buf => d.roomy = true ↔ 0 < buf.remaining) d.event σ'

theorem Session.Step.mono {room room' : ReadBuf → Prop} (hle : ∀ buf, room buf → room' buf) {σ σ' : Session T S}
    {ev : Event} (h : σ.Step H room ev σ') : σ.Step H room' ev σ' := by
  cases h with
  | next r polls => exact .next r polls
  | read r entry buf hb => exact .read r entry buf (hle buf hb)
  | drop r entry => exact .drop r entry

variable {start σ : Session T S}

theorem Session.run_of_deeds {ds : List Deed} (h : (Session.system H start).Run ds σ) :
    Session.Run H (fun _ => True) start (ds.map Deed.event) σ := by
  induction h with
  | start h =>
    obtain rfl := h
    exact .start
  | step h hs ih =>
    rw [List.map_append]
    exact .step ih (hs.mono fun _ _ => trivial)

theorem Session.deeds_of_run {room : ReadBuf → Prop} {evs : List Event} (h : Session.Run H room start evs σ) :
    ∃ ds, ds.map Deed.event = evs ∧ (Session.system H start).Run ds σ := by
  induction h with
  | start => exact ⟨[], rfl, .start rfl⟩
  | @step evs σ σ' ev h hs ih =>
    obtain ⟨ds, rfl, hrun⟩ := ih
    obtain ⟨roomy, hs'⟩ : ∃ roomy, (Session.system H start).Step σ ⟨ev, roomy⟩ σ' := by
      cases hs with
      | next r polls => exact ⟨true, .next r polls⟩
      | read r entry buf hb => exact ⟨decide (0 < buf.remaining), .read r entry buf decide_eq_true_iff⟩
      | drop r entry => exact ⟨true, .drop r entry⟩
    exact ⟨ds ++ [⟨ev, roomy⟩], List.map_append, .step hrun hs'⟩

/-- What is noted of a run does not depend on the room in the buffers. -/
theorem Session.notes_deeds {ds : List Deed} (h : (Session.system H start).Run ds σ) :
    notes (ds.map Deed.sight) = notes ((ds.map Deed.event).map Event.sight) := by
  induction h with
  | start => rfl
  | @step ds σ σ' d h hs ih =>
    obtain ⟨ev, roomy⟩ := d
    simp only [List.map_append, List.map_cons, List.map_nil, notes_append, ih]
    cases hs with
    | next r polls => rfl
    | drop r entry => rfl
    | read r entry buf hb =>
      cases roomy with
      | true =>
        cases (r.pollBody entry buf).1 with
        | pending => rfl
        | ready res => cases res <;> rfl
      | false =>
        have hroom : buf.remaining = 0 := by simpa using hb
        have hnil : buf.added (r.pollBody entry buf).2.1 = [] := by
          have hlen := (AsyncRead.grows (r.body entry) buf).length_added
          rw [hroom, Nat.le_zero] at hlen
          exact List.eq_nil_of_length_eq_zero hlen
        rw [hnil]
        cases (r.pollBody entry buf).1 with
        | pending => rfl
        | ready res =>
          cases res with
          | error e => rfl
          | ok => exact (Notes.note_nil _).symm

variable (H) in
/-- What an outline lists under some limits. -/
def Outline.listing (limits : SecurityLimits) (stop : Option IoError) (w : Outline) : Listing EntryHeader where
  entries := w.items.map fun i => (((openEntry H i.entry () limits).toOption).map ReadEntry.header, i.body)
  closed := stop = none ∧ ∃ t, w.stop = .zero t ∧ ZeroTrailer t

variable (H) in
/-- The excuses are all that live sessions need. -/
structure Excuses.Cover (X : Excuses) (start : Session T S) : Prop where
  call : ∀ {evs r polls e}, Session.Run H (fun _ => True) start evs ⟨r, none⟩ → r.bodyFailed = false →
    r.done = false → (r.nextEntry H polls).1 = .done (.error e) → X.call r.seen e
  read : ∀ {evs r entry buf e}, Session.Run H (fun _ => True) start evs ⟨r, some entry⟩ → r.bodyFailed = false →
    r.done = false → (r.pollBody entry buf).1 = .ready (.error e) → X.read (r.seen - 1) e

/-- Any excuse will do. -/
def Excuses.any : Excuses := ⟨fun _ _ => True, fun _ _ => True⟩

theorem Excuses.any_cover : Excuses.any.Cover H start := ⟨fun _ _ _ _ => trivial, fun _ _ _ _ => trivial⟩

omit [AsyncRead IoError S] [Counters S] in
/-- A session that is neither broken nor at the end went well. -/
theorem Lifecycle.goes {evs : List Event} (h : Lifecycle evs σ) (hf : σ.reader.bodyFailed = false)
    (hd : σ.reader.done = false) : ∀ ev ∈ evs, ev.Goes := by
  intro ev hev
  have hbad : ¬ ev.Bad := by
    intro hbad
    rw [h.poisoned.mpr ⟨ev, hev, hbad⟩] at hf
    cases hf
  cases ev with
  | next res =>
    cases res with
    | cancelled => exact hbad trivial
    | done res =>
      cases res with
      | error e => exact hbad trivial
      | ok entry =>
        cases entry with
        | some e => trivial
        | none =>
          rw [h.finished.mpr hev] at hd
          cases hd
  | read o bytes =>
    cases o with
    | pending => trivial
    | ready res =>
      cases res with
      | error e => exact hbad trivial
      | ok => trivial
  | drop => trivial

end Sessions

section Readers

variable {T : Tar} {H : HeaderFields} {F : TarFormat H} (fr : T.Frames F)
variable {D : Type} [AsyncRead IoError D] {count : D → Nat} {K : Feed IoError D}
variable {d : D} {bytes : List UInt8} {stop : Option IoError} (hhushed : K.Hushed stop) (howes : K.Owes d bytes stop)
variable (hn : bytes.length < 2 ^ 64) {limits : SecurityLimits} {r : Reader T (Source H count)}
variable (hstart : Reader.over T d limits = .ok r) {evs : List Event}

/-- What the reader lists: the entries of its decoded stream, closed where the stream ends well. -/
abbrev listing (F : TarFormat H) (limits : SecurityLimits) (bytes : List UInt8) (stop : Option IoError) :
    Listing EntryHeader :=
  (outline F limits bytes).listing H limits ((guardStop H limits bytes).or stop)

theorem listing_nth (limits : SecurityLimits) {w : Outline} {k : Nat} {i : Item} (hi : w.items[k]? = some i)
    {e : ReadEntry} (ho : openEntry H i.entry () limits = .ok e) (stop : Option IoError) :
    (w.listing H limits stop).entries[k]? = some (some e.header, i.body) := by
  unfold Outline.listing
  rw [List.getElem?_map, hi, Option.map_some, ho]
  rfl

include hhushed howes hstart in
/-- A session follows the outline of the stream that its cap charges. -/
theorem follows_charging {room : ReadBuf → Prop} {σ : Session T (Source H count)}
    (hrun : Session.Run H room ⟨r, none⟩ evs σ) :
    Follows H fr (HeaderGuard.feed (Cap.charging K hn limits.maxTotalBytes.toNat))
      ((guardStop H limits bytes).or stop) (outline F limits bytes) limits evs σ :=
  (follows_of_run idle_guard
    (owes_stack_to (Cap.hushed_charging hhushed hn _) (Cap.owes_charging howes hn _ _)) hstart hrun).2

variable {X : Excuses}

include fr hhushed howes hn hstart in
/-- A call of a live session is a step of its cursor. -/
theorem cursor_next {r₁ : Reader T (Source H count)} (hrun : Session.Run H (fun _ => True) ⟨r, none⟩ evs ⟨r₁, none⟩)
    (hf : r₁.bodyFailed = false) (hd : r₁.done = false) (polls : Nat)
    (hX : ∀ e, (r₁.nextEntry H polls).1 = .done (.error e) → X.call r₁.seen e) :
    Cursor.Step (listing F limits bytes stop) X (.before r₁.seen) (Event.next (r₁.nextEntry H polls).1).sight
      (Session.cursor (evs ++ [.next (r₁.nextEntry H polls).1])
        ⟨(r₁.nextEntry H polls).2, lent (r₁.nextEntry H polls).1⟩) := by
  have hfollows := follows_charging fr hhushed howes hn hstart hrun
  have hlimits : r₁.limits = limits := hfollows.limits_eq
  obtain ⟨s, hon, -⟩ := hfollows.live hf hd
  have hcalled := next_on (H := H) polls hon
  have hcases := Reader.nextEntry_cases (H := H) r₁ polls
  rw [hf, hd] at hcases
  simp only [Bool.false_eq_true, false_and, true_and, false_or] at hcases
  unfold Called at hcalled
  unfold Session.cursor
  cases hres : (r₁.nextEntry H polls).1 with
  | cancelled =>
    rw [hres] at hcases
    rw [hcases.1]
    exact .gives_up _
  | done res =>
    rw [hres] at hcases hcalled
    cases res with
    | error e =>
      rw [hcases.2.1]
      have hsight : (Event.next (.done (.error e))).sight = .fails e := if_neg hcases.1
      rw [hsight]
      exact .fails (hX e hres)
    | ok entry =>
      cases entry with
      | none =>
        obtain ⟨t, ht, hstop, hz, hlen, hle, -⟩ := hcalled
        rw [hcases.1, hcases.2]
        have hlength : (listing F limits bytes stop).entries.length ≤ r₁.seen := (List.length_map ..).trans_le hle
        exact .ended hlength ⟨hstop, t, ht, hz, hlen⟩
      | some e =>
        obtain ⟨i, s', hi, ho, hone, -⟩ := hcalled
        rw [hlimits] at ho
        rw [hcases.1, hcases.2.1, hone, bodyRead_append]
        exact .entry (listing_nth (H := H) limits hi ho ((guardStop H limits bytes).or stop))

include fr hhushed howes hn hstart in
/-- A body poll of a live session is a step of its cursor. -/
theorem cursor_read {r₁ : Reader T (Source H count)} {e : ReadEntry}
    (hrun : Session.Run H (fun _ => True) ⟨r, none⟩ evs ⟨r₁, some e⟩) (hf : r₁.bodyFailed = false)
    (hd : r₁.done = false) {buf : ReadBuf} {roomy : Bool} (hb : roomy = true ↔ 0 < buf.remaining)
    (hX : ∀ io, (r₁.pollBody e buf).1 = .ready (.error io) → X.read (r₁.seen - 1) io) :
    Cursor.Step (listing F limits bytes stop) X (.inside (r₁.seen - 1) (bodyRead evs))
      (Deed.sight ⟨.read (r₁.pollBody e buf).1 (buf.added (r₁.pollBody e buf).2.1), roomy⟩)
      (Session.cursor (evs ++ [.read (r₁.pollBody e buf).1 (buf.added (r₁.pollBody e buf).2.1)])
        ⟨(r₁.pollBody e buf).2.2.2, some (r₁.pollBody e buf).2.2.1⟩) := by
  have hfollows := follows_charging fr hhushed howes hn hstart hrun
  obtain ⟨s, hon, hreads⟩ := hfollows.live hf hd
  obtain ⟨i, hlends, -⟩ := hfollows.lent e rfl
  have hr := hreads e i rfl hlends
  rw [← hfollows.limits_eq] at hr
  have hnth := listing_nth (H := H) limits hlends.nth hlends.opened ((guardStop H limits bytes).or stop)
  obtain ⟨-, hkept, -⟩ := r₁.pollBody_kept e buf
  obtain ⟨hdone, -, -, hfailed⟩ := r₁.pollBody_spec e buf
  unfold Session.cursor
  rw [hkept, hdone, hfailed, hd, hf, bodyRead_append]
  cases roomy with
  | false =>
    have hroom : buf.remaining = 0 := by simpa using hb
    obtain ⟨parser, -, hidles⟩ := pollBody_idle fr idle_guard hr.lending hr.failed hroom
    rw [hidles, ReadBuf.added_self, Event.collect_nil]
    exact .idles
  | true =>
    have hreading := read_on (H := H) hon hr (hb.mp rfl)
    unfold Reading at hreading
    cases ho : (r₁.pollBody e buf).1 with
    | pending =>
      rw [ho] at hreading
      rw [hreading.1, ReadBuf.added_self, Event.collect_nil]
      exact .waits
    | ready res =>
      cases res with
      | error err => exact .breaks (hX err ho)
      | ok =>
        rw [ho] at hreading
        obtain ⟨s', -, -, hrest, hend, -⟩ := hreading
        refine .bytes hnth ?_ ?_
        · rw [hrest.body]
          exact List.prefix_append _ _
        · rintro hnil -
          have hbody := hrest.body
          rw [hend hnil, List.take_zero, hnil, List.append_nil, List.append_nil] at hbody
          exact hbody.symm

/-- A body poll of a broken session leaves it broken. -/
theorem cursor_read_broken {L : Listing EntryHeader} {r₁ : Reader T (Source H count)} (hf : r₁.bodyFailed = true)
    (e : ReadEntry) (buf : ReadBuf) (roomy : Bool) :
    Cursor.Step L X (Session.cursor evs ⟨r₁, some e⟩)
      (Deed.sight ⟨.read (r₁.pollBody e buf).1 (buf.added (r₁.pollBody e buf).2.1), roomy⟩)
      (Session.cursor (evs ++ [.read (r₁.pollBody e buf).1 (buf.added (r₁.pollBody e buf).2.1)])
        ⟨(r₁.pollBody e buf).2.2.2, some (r₁.pollBody e buf).2.2.1⟩) := by
  have hbefore : Session.cursor evs ⟨r₁, some e⟩ = .broken true := if_pos hf
  have hafter : Session.cursor (evs ++ [.read (r₁.pollBody e buf).1 (buf.added (r₁.pollBody e buf).2.1)])
      ⟨(r₁.pollBody e buf).2.2.2, some (r₁.pollBody e buf).2.2.1⟩ = .broken true := if_pos (Reader.pollBody_broken hf e buf)
  rw [hbefore, hafter]
  cases (r₁.pollBody e buf).1 with
  | pending => exact .waits_on
  | ready res =>
    cases res with
    | error err => exact .breaks_on err
    | ok =>
      cases roomy with
      | false => exact .idles_on
      | true => exact .reads_on _

include fr hhushed howes hn hstart in
/-- Sessions are cursors on the listing of the decoded stream. -/
theorem cursor_simulates (hX : X.Cover H ⟨r, none⟩) :
    Labelled.Simulation (Session.system H ⟨r, none⟩) (Cursor.system (listing F limits bytes stop) X) Deed.sight
      fun ds σ => Session.cursor (ds.map Deed.event) σ where
  start := by
    intro σ hσ
    obtain rfl := hσ
    obtain ⟨parser, rfl⟩ := Reader.start_ok hstart
    rfl
  step := by
    intro ds σ d σ' hrun hs
    replace hrun := Session.run_of_deeds hrun
    obtain ⟨ev, roomy⟩ := d
    rw [List.map_append]
    generalize ds.map Deed.event = evs at hrun
    have hlife := Lifecycle.of_run hstart hrun
    cases hs with
    | next r₁ polls =>
      show Cursor.Step _ _ _ (Event.next _).sight _
      by_cases hf : r₁.bodyFailed = true
      · have hnext : r₁.nextEntry H polls = (.done (.error .aborted), r₁) := by rw [Reader.nextEntry, if_pos hf]
        simp only [hnext, lent, Session.cursor, hf]
        exact .aborted
      have hf := eq_false_of_ne_true hf
      by_cases hd : r₁.done = true
      · have hnext : r₁.nextEntry H polls = (.done (.ok none), r₁) := by simp [Reader.nextEntry, hf, hd]
        simp only [hnext, lent, Session.cursor, hf, hd]
        exact .again
      have hd := eq_false_of_ne_true hd
      have hstep := cursor_next fr hhushed howes hn hstart hrun hf hd polls fun e he => hX.call hrun hf hd he
      simp only [Session.cursor, hf, hd] at hstep ⊢
      exact hstep
    | read r₁ e buf hb =>
      by_cases hf : r₁.bodyFailed = true
      · exact cursor_read_broken hf e buf roomy
      have hf := eq_false_of_ne_true hf
      have hd : r₁.done = false := hlife.not_done rfl
      have hstep := cursor_read fr hhushed howes hn hstart hrun hf hd hb fun io ho => hX.read hrun hf hd ho
      have hbefore : Session.cursor evs ⟨r₁, some e⟩ = .inside (r₁.seen - 1) (bodyRead evs) := by
        simp [Session.cursor, hf, hd]
      rw [hbefore]
      exact hstep
    | drop r₁ e =>
      have hd : r₁.done = false := hlife.not_done rfl
      show Cursor.Step _ _ _ .drop _
      by_cases hf : r₁.bodyFailed = true
      · simp only [Session.cursor, hf]
        exact .drops_broken
      have hf := eq_false_of_ne_true hf
      obtain ⟨i, hlends, -⟩ := (follows_charging fr hhushed howes hn hstart hrun).lent e rfl
      have hstep : Cursor.Step (listing F limits bytes stop) X (.inside (r₁.seen - 1) (bodyRead evs)) .drop
          (.before (r₁.seen - 1 + 1)) := .drop
      rw [Nat.sub_add_cancel hlends.pos] at hstep
      simp only [Session.cursor, hf, hd]
      exact hstep

end Readers

section Archives

variable {T : Tar} {H : HeaderFields} {F : TarFormat H} (fr : T.Frames F)
variable {R : Type} [AsyncRead IoError R] {dec : Decoder (Replay R)} {decode : List UInt8 → List UInt8 × Option IoError}
variable {S : Feed IoError R} (hC : dec.Computes decode S) {source : R} {z : List UInt8} (howes : S.Owes source z none)
variable (hD : (contents decode z).1.length < 2 ^ 64) {limits : SecurityLimits} {polls : Nat} {r : Opened T H dec}
variable (hr : Reader.open T dec polls source limits = .done (.ok r))
variable {σ : Session T (Source H (Decoded.count : Decoded dec → Nat))}

include hC howes hD hr

variable {evs : List Event} {room : ReadBuf → Prop} (hrun : Session.Run H room ⟨r, none⟩ evs σ)

include fr hrun

/-- What a session was shown stands for its cursor. -/
theorem noted_of_session :
    (Session.cursor evs σ).Noted (listing F limits (contents decode z).1 (contents decode z).2)
      (notes (evs.map Event.sight)) := by
  obtain ⟨d, hd, hstart⟩ := open_ok hr
  obtain ⟨b, hb⟩ := sniffed hd
  obtain ⟨ds, rfl, hdeeds⟩ := Session.deeds_of_run hrun
  rw [← Session.notes_deeds hdeeds]
  exact Cursor.noted_of_run ((cursor_simulates fr (hC.hushed_decoded _)
    ((hb (G := Meter.feed S) ⟨none, rfl, howes⟩).decodes hC) hD hstart Excuses.any_cover).run hdeeds)

/-- Once the end was reported, the whole listing was shown, and it is closed. -/
theorem ended_of_mem (hmem : Event.next (.done (.ok none)) ∈ evs) :
    (transcript (evs.map Event.sight)).length = (outline F limits (contents decode z).1).items.length ∧
      (listing F limits (contents decode z).1 (contents decode z).2).closed := by
  obtain ⟨d, hd, hstart⟩ := open_ok hr
  have hnoted := noted_of_session (F := F) fr hC howes hD hr hrun
  have hlife := Lifecycle.of_run hstart hrun
  have hdone := hlife.finished.mpr hmem
  have hended : Session.cursor evs σ = .ended := by simp [Session.cursor, (hlife.last hdone).1, hdone]
  rw [hended] at hnoted
  obtain ⟨hlength, hclosed, -⟩ := hnoted
  exact ⟨hlength.trans (List.length_map ..), hclosed⟩

/-- What a session was shown is the front of its listing, entry by entry and byte by byte, up to the
first failed read; and all of it once the end was reported, which only a closed listing has. -/
theorem sessions_show_the_listing :
    (listing F limits (contents decode z).1 (contents decode z).2).Shows (transcript (evs.map Event.sight)) ∧
    (Event.next (.done (.ok none)) ∈ evs →
      (transcript (evs.map Event.sight)).length = (outline F limits (contents decode z).1).items.length ∧
        (listing F limits (contents decode z).1 (contents decode z).2).closed) :=
  ⟨(noted_of_session fr hC howes hD hr hrun).shows, ended_of_mem fr hC howes hD hr hrun⟩

end Archives

section Samples

theorem Gnu.short_packed : (contents RawZstd.unpack packed).1.length < 2 ^ 64 := by
  rw [contents_packed]
  decide +kernel

/-- The error a call answered with. -/
def Event.failure : Event → Option Error
  | next (.done (.error e)) => some e
  | _ => none

/-- The directory is all that is shown up to the end. -/
theorem sessions_show_the_listing_sample :
    ∃ evs : List Event, (transcript (evs.map Event.sight)).length =
      (outline Gnu.format .default (contents RawZstd.unpack Gnu.packed).1).items.length := by
  have hwalks : Gnu.walks .default ⟨Gnu.packed, []⟩ [.next 20, .read 0, .read 1, .drop, .next 20] 1 = true := by
    decide +kernel
  obtain ⟨r, pre, σ, hr, -, -, hrun⟩ := Gnu.run_walks hwalks
  have hmem : Event.next (.done (.ok none)) ∈ pre ++ [Event.next (.done (.ok none))] :=
    List.mem_append_right _ (List.mem_singleton_self _)
  exact ⟨_, ((sessions_show_the_listing Gnu.frames (RawZstd.computes Script.steadyFeed)
    (Gnu.owes_script Gnu.packed) Gnu.short_packed hr hrun).2 hmem).1⟩

end Samples

end Etar
