import Etar.AsyncIo

/-!
# Poll-based byte sinks

A sink is polled to take bytes, to flush and to shut down; it may take fewer bytes than it
is offered, answer late or fail. A `Drain` describes a sink from outside: the bytes it has
taken. A writer on top of a sink makes several calls in one poll; `Calls` is the tree of
them, and `Every` what holds on every path through it.
-/
namespace AsyncIo

/-- A sink: a poll takes at most the bytes it is offered. -/
class AsyncWrite (ε : outParam Type) (W : Type) where
  pollWrite : W → List UInt8 → Poll (Except ε Nat) × W
  pollFlush : W → Poll (Except ε Unit) × W
  pollShutdown : W → Poll (Except ε Unit) × W
  accepts : ∀ w bytes n, (pollWrite w bytes).1 = .ready (.ok n) → n ≤ bytes.length

export AsyncWrite (pollWrite pollFlush pollShutdown)

section Calls

variable {ε : Type}

/-- A call on a sink, with its answer. -/
inductive Call (ε : Type) where
  | write (bytes : List UInt8) (answer : Poll (Except ε Nat))
  | flush (answer : Poll (Except ε Unit))
  | shutdown (answer : Poll (Except ε Unit))
  deriving DecidableEq

/-- The bytes an answer to a write has taken. -/
def taken (bytes : List UInt8) : Poll (Except ε Nat) → List UInt8
  | .ready (.ok n) => bytes.take n
  | _ => []

@[simp] theorem taken_ok (bytes : List UInt8) (n : Nat) :
    taken bytes (.ready (.ok n) : Poll (Except ε Nat)) = bytes.take n := rfl
@[simp] theorem taken_error (bytes : List UInt8) (e : ε) :
    taken bytes (.ready (.error e) : Poll (Except ε Nat)) = [] := rfl
@[simp] theorem taken_pending (bytes : List UInt8) :
    taken bytes (.pending : Poll (Except ε Nat)) = [] := rfl

namespace Call

def accepted : Call ε → List UInt8
  | write bytes answer => taken bytes answer
  | _ => []

def Late : Call ε → Prop
  | write _ answer => answer = .pending
  | flush answer => answer = .pending
  | shutdown answer => answer = .pending

/-- A call that failed; a write that takes nothing of what it is offered counts as one. -/
def Faulty : Call ε → Prop
  | write bytes answer => (∃ e, answer = .ready (.error e)) ∨ (bytes ≠ [] ∧ answer = .ready (.ok 0))
  | flush answer => ∃ e, answer = .ready (.error e)
  | shutdown answer => ∃ e, answer = .ready (.error e)

@[simp] theorem accepted_write (bytes : List UInt8) (answer : Poll (Except ε Nat)) :
    (write bytes answer).accepted = taken bytes answer := rfl
@[simp] theorem accepted_flush (answer : Poll (Except ε Unit)) : (flush answer).accepted = [] := rfl
@[simp] theorem accepted_shutdown (answer : Poll (Except ε Unit)) : (shutdown answer).accepted = [] := rfl

end Call

/-- The bytes taken in a sequence of calls. -/
def accepted (log : List (Call ε)) : List UInt8 := log.flatMap Call.accepted

@[simp] theorem accepted_nil : accepted ([] : List (Call ε)) = [] := rfl
@[simp] theorem accepted_append (log log' : List (Call ε)) :
    accepted (log ++ log') = accepted log ++ accepted log' := List.flatMap_append
@[simp] theorem accepted_singleton (c : Call ε) : accepted [c] = c.accepted := by
  simp [accepted]

/-- One call on a sink. -/
inductive Did {W : Type} [AsyncWrite ε W] : W → Call ε → W → Prop where
  | write (w : W) (bytes : List UInt8) : Did w (.write bytes (pollWrite w bytes).1) (pollWrite w bytes).2
  | flush (w : W) : Did w (.flush (pollFlush w).1) (pollFlush w).2
  | shutdown (w : W) : Did w (.shutdown (pollShutdown w).1) (pollShutdown w).2

/-- Calls on a sink, one after the other. -/
inductive Trace {W : Type} [AsyncWrite ε W] : W → List (Call ε) → W → Prop where
  | nil (w : W) : Trace w [] w
  | snoc {w w' w'' : W} {log : List (Call ε)} {c : Call ε} (h : Trace w log w') (hc : Did w' c w'') :
      Trace w (log ++ [c]) w''

end Calls

section Drains

variable {ε W : Type} [AsyncWrite ε W]

/-- A sink seen from outside: `Holds w s` says that `w` has taken the bytes `s`. -/
structure Drain (ε W : Type) [AsyncWrite ε W] where
  Holds : W → List UInt8 → Prop
  took : ∀ {w w' c s}, Did w c w' → Holds w s → Holds w' (s ++ c.accepted)

/-- A drain that is late only so many times in all. -/
structure Drain.Fair (D : Drain ε W) where
  delay : W → Nat
  late : ∀ {w w' c s}, Did w c w' → D.Holds w s → c.Late → delay w' < delay w
  kept : ∀ {w w' c s}, Did w c w' → D.Holds w s → delay w' ≤ delay w

/-- A drain none of whose calls fail. -/
structure Drain.Faultless (D : Drain ε W) : Prop where
  sound : ∀ {w w' c s}, Did w c w' → D.Holds w s → ¬ c.Faulty

theorem Drain.trace (D : Drain ε W) {w w' : W} {log : List (Call ε)} {s : List UInt8} (h : Trace w log w')
    (hw : D.Holds w s) : D.Holds w' (s ++ accepted log) := by
  induction h with
  | nil => rwa [accepted_nil, List.append_nil]
  | snoc h hc ih =>
    rw [accepted_append, accepted_singleton, ← List.append_assoc]
    exact D.took hc ih

theorem Drain.Fair.trace {D : Drain ε W} (P : D.Fair) {w w' : W} {log : List (Call ε)} {s : List UInt8}
    (h : Trace w log w') (hw : D.Holds w s) :
    P.delay w' ≤ P.delay w ∧ ((∃ c ∈ log, c.Late) → P.delay w' < P.delay w) := by
  induction h with
  | nil => exact ⟨le_refl _, fun ⟨c, hc, _⟩ => by cases hc⟩
  | snoc h hc ih =>
    have hw' := D.trace h hw
    have hle := P.kept hc hw'
    refine ⟨hle.trans ih.1, ?_⟩
    rintro ⟨c', hc', hlate⟩
    rcases List.mem_append.mp hc' with hc' | hc'
    · exact hle.trans_lt (ih.2 ⟨c', hc', hlate⟩)
    · rw [List.mem_singleton] at hc'
      subst hc'
      exact (P.late hc hw' hlate).trans_le ih.1

theorem Drain.Faultless.trace {D : Drain ε W} (hD : D.Faultless) {w w' : W} {log : List (Call ε)}
    {s : List UInt8} (h : Trace w log w') (hw : D.Holds w s) : ∀ c ∈ log, ¬ c.Faulty := by
  induction h with
  | nil =>
    intro c hc
    cases hc
  | snoc h hc ih =>
    intro c' hc'
    rcases List.mem_append.mp hc' with hc' | hc'
    · exact ih c' hc'
    · rw [List.mem_singleton] at hc'
      subst hc'
      exact hD.sound hc (D.trace h hw)

end Drains

section Trees

variable {ε α : Type}

/-- The calls one poll of a writer makes on its sink, each decided by the answers before. -/
inductive Calls (ε α : Type) where
  | answer (a : α) : Calls ε α
  | write (bytes : List UInt8) (next : Poll (Except ε Nat) → Calls ε α) : Calls ε α
  | flush (next : Poll (Except ε Unit) → Calls ε α) : Calls ε α
  | shutdown (next : Poll (Except ε Unit) → Calls ε α) : Calls ε α

namespace Calls

def run {W : Type} [AsyncWrite ε W] : Calls ε α → W → α × W
  | .answer a, w => (a, w)
  | .write bytes next, w => (next (pollWrite w bytes).1).run (pollWrite w bytes).2
  | .flush next, w => (next (pollFlush w).1).run (pollFlush w).2
  | .shutdown next, w => (next (pollShutdown w).1).run (pollShutdown w).2

/-- `P` holds of the calls made and of the result, on every path through the tree. -/
def Every (P : List (Call ε) → α → Prop) : List (Call ε) → Calls ε α → Prop
  | log, .answer a => P log a
  | log, .write bytes next =>
    ∀ o, (∀ n, o = .ready (.ok n) → n ≤ bytes.length) → (next o).Every P (log ++ [.write bytes o])
  | log, .flush next => ∀ o, (next o).Every P (log ++ [.flush o])
  | log, .shutdown next => ∀ o, (next o).Every P (log ++ [.shutdown o])

/-- A run takes one of the paths. -/
theorem Every.run {W : Type} [AsyncWrite ε W] {P : List (Call ε) → α → Prop} {t : Calls ε α}
    {log : List (Call ε)} (h : t.Every P log) {w₀ w : W} (hw : Trace w₀ log w) :
    ∃ log', Trace w₀ log' (t.run w).2 ∧ P log' (t.run w).1 := by
  induction t generalizing log w with
  | answer a => exact ⟨log, hw, h⟩
  | write bytes next ih => exact ih _ (h _ (AsyncWrite.accepts w bytes)) (hw.snoc (.write w bytes))
  | flush next ih => exact ih _ (h _) (hw.snoc (.flush w))
  | shutdown next ih => exact ih _ (h _) (hw.snoc (.shutdown w))

theorem Every.imp {P Q : List (Call ε) → α → Prop} (hPQ : ∀ log a, P log a → Q log a) {t : Calls ε α}
    {log : List (Call ε)} (h : t.Every P log) : t.Every Q log := by
  induction t generalizing log with
  | answer a => exact hPQ _ _ h
  | write bytes next ih => exact fun o ho => ih o (h o ho)
  | flush next ih => exact fun o => ih o (h o)
  | shutdown next ih => exact fun o => ih o (h o)

end Calls

end Trees

section Shutdown

variable {ε W : Type} [AsyncWrite ε W]

/-- `AsyncWriteExt::shutdown`, dropped after `polls` polls. -/
def shutdown : Nat → W → Await (Except ε Unit) × W
  | 0, w => (.cancelled, w)
  | polls + 1, w =>
    match pollShutdown w with
    | (.pending, w) => shutdown polls w
    | (.ready res, w) => (.done res, w)

/-- Shutting down takes no bytes, and its result is the answer to the last call. -/
theorem shutdown_spec (D : Drain ε W) (polls : Nat) {w : W} {s : List UInt8} (h : D.Holds w s) :
    D.Holds (shutdown polls w).2 s ∧ ∀ res, (shutdown polls w).1 = .done res →
      ∃ w₁, D.Holds w₁ s ∧ Did w₁ (.shutdown (.ready res)) (shutdown polls w).2 := by
  induction polls generalizing w with
  | zero => exact ⟨h, fun res h => by cases h⟩
  | succ polls ih =>
    have hdid := Did.shutdown w
    have hholds := D.took hdid h
    rw [Call.accepted_shutdown, List.append_nil] at hholds
    unfold shutdown
    generalize pollShutdown w = p at hdid hholds
    rcases p with ⟨o, w'⟩
    cases o with
    | pending => exact ih hholds
    | ready res =>
      refine ⟨hholds, fun res' h' => ?_⟩
      cases h'
      exact ⟨w, h, hdid⟩

/-- A shutdown that was not given up goes the same way with more polls. -/
theorem shutdown_more (k : Nat) {polls : Nat} {w : W} (h : (shutdown polls w).1 ≠ .cancelled) :
    shutdown (polls + k) w = shutdown polls w := by
  induction polls generalizing w with
  | zero => exact absurd rfl h
  | succ polls ih =>
    rw [Nat.add_right_comm, shutdown, shutdown]
    rw [shutdown] at h
    generalize pollShutdown w = p at h ⊢
    rcases p with ⟨o, w'⟩
    cases o with
    | pending => exact ih h
    | ready res => rfl

theorem shutdown_completes {D : Drain ε W} (P : D.Fair) (hD : D.Faultless) {w : W} {s : List UInt8}
    (h : D.Holds w s) : ∃ N, ∀ polls, N ≤ polls → (shutdown polls w).1 = .done (.ok ()) := by
  induction hd : P.delay w using Nat.strong_induction_on generalizing w with
  | _ d ih =>
    have hdid := Did.shutdown w
    have hlate := P.late hdid h
    have hsound := hD.sound hdid h
    have hholds := D.took hdid h
    rw [Call.accepted_shutdown, List.append_nil] at hholds
    cases ho : (pollShutdown w).1 with
    | pending =>
      obtain ⟨N, hN⟩ := ih _ (hd ▸ hlate ho) hholds rfl
      refine ⟨N + 1, fun polls hp => ?_⟩
      obtain ⟨k, rfl⟩ := Nat.exists_eq_add_of_le' (Nat.le_trans (Nat.le_add_left 1 N) hp)
      rw [shutdown]
      generalize pollShutdown w = p at ho hN
      rcases p with ⟨o, w'⟩
      obtain rfl : o = .pending := ho
      exact hN k (Nat.le_of_succ_le_succ hp)
    | ready res =>
      cases res with
      | error e => exact absurd ⟨e, ho⟩ hsound
      | ok =>
        refine ⟨1, fun polls hp => ?_⟩
        obtain ⟨k, rfl⟩ := Nat.exists_eq_add_of_le' hp
        rw [shutdown]
        generalize pollShutdown w = p at ho
        rcases p with ⟨o, w'⟩
        obtain rfl : o = .ready (.ok ()) := ho
        rfl

end Shutdown

section Recorders

variable {ε W : Type} [AsyncWrite ε W]

/-- A sink with a memory of the calls it answered. -/
structure Recorder (ε W : Type) where
  inner : W
  log : List (Call ε)

def Recorder.new (inner : W) : Recorder ε W := ⟨inner, []⟩

instance : AsyncWrite ε (Recorder ε W) where
  pollWrite r bytes :=
    let p := pollWrite r.inner bytes
    (p.1, ⟨p.2, r.log ++ [.write bytes p.1]⟩)
  pollFlush r :=
    let p := pollFlush r.inner
    (p.1, ⟨p.2, r.log ++ [.flush p.1]⟩)
  pollShutdown r :=
    let p := pollShutdown r.inner
    (p.1, ⟨p.2, r.log ++ [.shutdown p.1]⟩)
  accepts r := AsyncWrite.accepts r.inner

theorem Recorder.did {r r' : Recorder ε W} {c : Call ε} (h : Did r c r') :
    Did r.inner c r'.inner ∧ r'.log = r.log ++ [c] := by
  cases h with
  | write bytes => exact ⟨.write r.inner bytes, rfl⟩
  | flush => exact ⟨.flush r.inner, rfl⟩
  | shutdown => exact ⟨.shutdown r.inner, rfl⟩

theorem Recorder.log_of_trace {r r' : Recorder ε W} {log : List (Call ε)} (h : Trace r log r') :
    r'.log = r.log ++ log := by
  induction h with
  | nil => rw [List.append_nil]
  | snoc h hc ih => rw [(Recorder.did hc).2, ih, List.append_assoc]

/-- A recorder knows what its sink has taken. -/
def Recorder.drain : Drain ε (Recorder ε W) where
  Holds r s := accepted r.log = s
  took h hs := by
    rw [(Recorder.did h).2, accepted_append, accepted_singleton, hs]

end Recorders

section Memories

variable {ε : Type}

/-- A sink in memory that takes at most `chunk + 1` bytes at a time. -/
structure Memory (ε : Type) where
  bytes : List UInt8
  chunk : Nat
  deriving DecidableEq

instance : AsyncWrite ε (Memory ε) where
  pollWrite m bytes :=
    (.ready (.ok (min bytes.length (m.chunk + 1))), { m with bytes := m.bytes ++ bytes.take (m.chunk + 1) })
  pollFlush m := (.ready (.ok ()), m)
  pollShutdown m := (.ready (.ok ()), m)
  accepts m bytes n h := by
    cases h
    exact Nat.min_le_left ..

namespace Memory

def drain : Drain ε (Memory ε) where
  Holds m s := m.bytes = s
  took {m m' c s} h hs := by
    subst hs
    cases h with
    | write bytes =>
      show m.bytes ++ bytes.take (m.chunk + 1) = m.bytes ++ bytes.take (min bytes.length (m.chunk + 1))
      rw [Nat.min_comm, ← List.take_take, List.take_length]
    | flush => exact (List.append_nil _).symm
    | shutdown => exact (List.append_nil _).symm

def fair : (drain : Drain ε (Memory ε)).Fair where
  delay _ := 0
  late h _ hl := by cases h <;> cases hl
  kept _ _ := le_refl _

theorem holds_empty (chunk : Nat) : drain.Holds (⟨[], chunk⟩ : Memory ε) [] := rfl

theorem faultless : (drain : Drain ε (Memory ε)).Faultless := by
  constructor
  intro m m' c s h _ hf
  cases h with
  | write bytes =>
    rcases hf with ⟨e, he⟩ | ⟨hne, h0⟩
    · cases he
    · have hpos := List.length_pos_iff.mpr hne
      have h0 : min bytes.length (m.chunk + 1) = 0 := by
        injection h0 with h0
        injection h0
      omega
  | flush => obtain ⟨e, he⟩ := hf; cases he
  | shutdown => obtain ⟨e, he⟩ := hf; cases he

end Memory

end Memories

end AsyncIo
