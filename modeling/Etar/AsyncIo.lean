import Mathlib.Data.List.Basic
import Mathlib.Data.List.Infix
import Mathlib.Tactic.Common

/-!
# Poll-based byte readers

A reader is polled with a partly filled buffer and answers with an outcome,
the buffer and its next state. A `Feed` describes a reader from outside: the
bytes it still owes and how it ends, for every way of cutting them into polls.
Nothing here depends on what the bytes mean.
-/
namespace AsyncIo

/-- The answer of one poll. -/
inductive Poll (α : Type) where
  | pending : Poll α
  | ready : α → Poll α
  deriving DecidableEq, Repr

/-- A caller's buffer: the bytes filled so far, within a fixed capacity. -/
structure ReadBuf where
  filled : List UInt8
  capacity : Nat
  fits : filled.length ≤ capacity
  deriving DecidableEq

namespace ReadBuf

def new (n : Nat) : ReadBuf := ⟨[], n, Nat.zero_le n⟩

def remaining (b : ReadBuf) : Nat := b.capacity - b.filled.length

theorem length_add_remaining (b : ReadBuf) : b.filled.length + b.remaining = b.capacity := by
  have := b.fits
  simp only [remaining]
  omega

/-- Append bytes that fit. -/
def putSlice (b : ReadBuf) (bytes : List UInt8) (h : bytes.length ≤ b.remaining) : ReadBuf :=
  ⟨b.filled ++ bytes, b.capacity, by
    have := b.length_add_remaining
    rw [List.length_append]
    omega⟩

/-- Forget every filled byte past the first `n`. -/
def setFilled (b : ReadBuf) (n : Nat) : ReadBuf :=
  ⟨b.filled.take n, b.capacity, (List.length_take_le' n b.filled).trans b.fits⟩

/-- A buffer over at most `n` bytes of the unfilled part. -/
def take (b : ReadBuf) (n : Nat) : ReadBuf := new (min n b.remaining)

/-- Adopt what a buffer over the unfilled part has received. -/
def advance (b sub : ReadBuf) (h : sub.capacity ≤ b.remaining) : ReadBuf :=
  b.putSlice sub.filled (sub.fits.trans h)

/-- What `b'` holds beyond the filled bytes of `b`. -/
def added (b b' : ReadBuf) : List UInt8 := b'.filled.drop b.filled.length

/-- The filled bytes stay, and only the capacity's rest is used. -/
def Grows (b b' : ReadBuf) : Prop := b'.capacity = b.capacity ∧ b.filled <+: b'.filled

@[simp] theorem new_filled (n : Nat) : (new n).filled = [] := rfl
@[simp] theorem new_capacity (n : Nat) : (new n).capacity = n := rfl
@[simp] theorem new_remaining (n : Nat) : (new n).remaining = n := rfl
@[simp] theorem putSlice_filled (b : ReadBuf) (bytes : List UInt8) (h : bytes.length ≤ b.remaining) :
    (b.putSlice bytes h).filled = b.filled ++ bytes := rfl
@[simp] theorem putSlice_capacity (b : ReadBuf) (bytes : List UInt8) (h : bytes.length ≤ b.remaining) :
    (b.putSlice bytes h).capacity = b.capacity := rfl
@[simp] theorem setFilled_filled (b : ReadBuf) (n : Nat) : (b.setFilled n).filled = b.filled.take n := rfl
@[simp] theorem setFilled_capacity (b : ReadBuf) (n : Nat) : (b.setFilled n).capacity = b.capacity := rfl
@[simp] theorem take_capacity (b : ReadBuf) (n : Nat) : (b.take n).capacity = min n b.remaining := rfl
@[simp] theorem take_filled (b : ReadBuf) (n : Nat) : (b.take n).filled = [] := rfl
@[simp] theorem take_remaining (b : ReadBuf) (n : Nat) : (b.take n).remaining = min n b.remaining := rfl
@[simp] theorem advance_filled (b sub : ReadBuf) (h : sub.capacity ≤ b.remaining) :
    (b.advance sub h).filled = b.filled ++ sub.filled := rfl
@[simp] theorem added_new (n : Nat) (b : ReadBuf) : (new n).added b = b.filled := rfl
@[simp] theorem added_take (b b' : ReadBuf) (n : Nat) : (b.take n).added b' = b'.filled := rfl
@[simp] theorem added_self (b : ReadBuf) : b.added b = [] := by simp [added]
@[simp] theorem added_putSlice (b : ReadBuf) (bytes : List UInt8) (h : bytes.length ≤ b.remaining) :
    b.added (b.putSlice bytes h) = bytes := by simp [added]
@[simp] theorem added_advance (b sub : ReadBuf) (h : sub.capacity ≤ b.remaining) :
    b.added (b.advance sub h) = sub.filled := by simp [advance]

theorem ext_of {b b' : ReadBuf} (hf : b.filled = b'.filled) (hc : b.capacity = b'.capacity) : b = b' := by
  cases b
  cases b'
  cases hf
  cases hc
  rfl

theorem Grows.refl (b : ReadBuf) : b.Grows b := ⟨rfl, List.prefix_rfl⟩

theorem Grows.filled_eq {b b' : ReadBuf} (h : b.Grows b') : b'.filled = b.filled ++ b.added b' := by
  obtain ⟨t, ht⟩ := h.2
  simp [added, ← ht]

theorem Grows.length_added {b b' : ReadBuf} (h : b.Grows b') : (b.added b').length ≤ b.remaining := by
  have hb := b.length_add_remaining
  have hl := congrArg List.length h.filled_eq
  have hf := b'.fits
  rw [h.1] at hf
  rw [List.length_append] at hl
  omega

/-- Truncating a grown buffer at its old length restores the old buffer. -/
theorem Grows.setFilled_eq {b b' : ReadBuf} (h : b.Grows b') : b'.setFilled b.filled.length = b :=
  ext_of (by rw [setFilled_filled, h.filled_eq, List.take_left]) h.1

theorem Grows.eq_of_added_nil {b b' : ReadBuf} (h : b.Grows b') (ha : b.added b' = []) : b' = b :=
  ext_of (by rw [h.filled_eq, ha, List.append_nil]) h.1

end ReadBuf

/-- What one poll leaves behind. -/
structure Polled (ε R : Type) where
  outcome : Poll (Except ε Unit)
  buf : ReadBuf
  reader : R

/-- A reader: each poll may only append to the buffer it is given. -/
class AsyncRead (ε : outParam Type) (R : Type) where
  pollRead : R → ReadBuf → Polled ε R
  grows : ∀ (r : R) (b : ReadBuf), b.Grows (pollRead r b).buf

export AsyncRead (pollRead)

theorem capacity_pollRead_take {ε R : Type} [AsyncRead ε R] (r : R) (b : ReadBuf) (n : Nat) :
    (pollRead r (b.take n)).buf.capacity ≤ b.remaining := by
  rw [(AsyncRead.grows r (b.take n)).1]
  exact Nat.min_le_right _ _

theorem length_pollRead_new {ε R : Type} [AsyncRead ε R] (r : R) (n : Nat) :
    (pollRead r (.new n)).buf.filled.length ≤ n := by
  have h := (pollRead r (.new n)).buf.fits
  rwa [(AsyncRead.grows r (.new n)).1] at h

section Runs

variable {ε R : Type}

/-- `Run poll ok r bytes r'`: polls lead from `r` to `r'` and hand out `bytes` in all;
`ok` allows every buffer given and the outcome it got. -/
inductive Run (poll : R → ReadBuf → Polled ε R) (ok : ReadBuf → Poll (Except ε Unit) → Prop) :
    R → List UInt8 → R → Prop where
  | start (r : R) : Run poll ok r [] r
  | poll {r r' : R} {bytes : List UInt8} (b : ReadBuf) (h : Run poll ok r bytes r')
      (ho : ok b (poll r' b).outcome) :
      Run poll ok r (bytes ++ b.added (poll r' b).buf) (poll r' b).reader

/-- A property of the bytes handed out and the state that every allowed poll keeps
holds at the end of every run. -/
theorem Run.invariant {poll : R → ReadBuf → Polled ε R} {ok : ReadBuf → Poll (Except ε Unit) → Prop}
    {P : List UInt8 → R → Prop} {r r' : R} {bytes : List UInt8}
    (hrun : Run poll ok r bytes r') (hstart : P [] r)
    (hstep : ∀ bytes r b, P bytes r → ok b (poll r b).outcome →
      P (bytes ++ b.added (poll r b).buf) (poll r b).reader) : P bytes r' := by
  induction hrun with
  | start => exact hstart
  | poll b h ho ih => exact hstep _ _ b ih ho

/-- The bytes handed out and the state after `n` polls with the buffers `bufs`. -/
def after (poll : R → ReadBuf → Polled ε R) (bufs : Nat → ReadBuf) (r : R) : Nat → List UInt8 × R
  | 0 => ([], r)
  | n + 1 =>
    let at_ := after poll bufs r n
    let p := poll at_.2 (bufs n)
    (at_.1 ++ (bufs n).added p.buf, p.reader)

/-- Polls that are all allowed are a run. -/
theorem Run.of_after {poll : R → ReadBuf → Polled ε R} {ok : ReadBuf → Poll (Except ε Unit) → Prop} (bufs : Nat → ReadBuf)
    (r : R) {n : Nat} (h : ∀ k < n, ok (bufs k) (poll (after poll bufs r k).2 (bufs k)).outcome) :
    Run poll ok r (after poll bufs r n).1 (after poll bufs r n).2 := by
  induction n with
  | zero => exact .start r
  | succ n ih => exact (ih fun k hk => h k (hk.trans n.lt_succ_self)).poll (bufs n) (h n n.lt_succ_self)

/-- A run from a state some run reached goes on from there. -/
theorem Run.trans {poll : R → ReadBuf → Polled ε R} {ok : ReadBuf → Poll (Except ε Unit) → Prop}
    {r r' r'' : R} {bytes bytes' : List UInt8} (h : Run poll ok r bytes r') (h' : Run poll ok r' bytes' r'') :
    Run poll ok r (bytes ++ bytes') r'' := by
  induction h' with
  | start => rwa [List.append_nil]
  | poll b _ ho ih =>
    rw [← List.append_assoc]
    exact ih.poll b ho

/-- When every poll that is not the last keeps `P` and makes `μ` smaller, any polling comes,
by a run that keeps `P`, to its last poll. -/
theorem Run.comes_to_last {poll : R → ReadBuf → Polled ε R} {ok : ReadBuf → Poll (Except ε Unit) → Prop}
    {last : ReadBuf → Polled ε R → Prop} {P : List UInt8 → R → Prop} (μ : List UInt8 → R → Nat)
    (hstep : ∀ bytes r b, P bytes r → 0 < b.remaining → ¬ last b (poll r b) →
      ok b (poll r b).outcome ∧ P (bytes ++ b.added (poll r b).buf) (poll r b).reader ∧
        μ (bytes ++ b.added (poll r b).buf) (poll r b).reader < μ bytes r)
    (bufs : Nat → ReadBuf) (hbufs : ∀ n, 0 < (bufs n).remaining) {r : R} (hstart : P [] r) :
    ∃ n, Run poll ok r (after poll bufs r n).1 (after poll bufs r n).2 ∧
      P (after poll bufs r n).1 (after poll bufs r n).2 ∧
      last (bufs n) (poll (after poll bufs r n).2 (bufs n)) := by
  have hgo : ∀ m n, μ (after poll bufs r n).1 (after poll bufs r n).2 = m →
      Run poll ok r (after poll bufs r n).1 (after poll bufs r n).2 →
      P (after poll bufs r n).1 (after poll bufs r n).2 →
      ∃ n, Run poll ok r (after poll bufs r n).1 (after poll bufs r n).2 ∧
        P (after poll bufs r n).1 (after poll bufs r n).2 ∧
        last (bufs n) (poll (after poll bufs r n).2 (bufs n)) := by
    intro m
    induction m using Nat.strong_induction_on with
    | _ m ih =>
      intro n hm hrun hP
      by_cases hl : last (bufs n) (poll (after poll bufs r n).2 (bufs n))
      · exact ⟨n, hrun, hP, hl⟩
      · obtain ⟨hok, hP', hlt⟩ := hstep _ _ _ hP (hbufs n) hl
        exact ih _ (hm ▸ hlt) (n + 1) rfl (hrun.poll (bufs n) hok) hP'
  exact hgo _ 0 rfl (.start r) hstart

end Runs

section Feeds

variable {ε R : Type}

/-- A reader seen from outside: `Owes r s stop` allows `r` to hand out the bytes `s` and then
end, cleanly or with the error `stop`. A poll may answer late, or with an error that costs
nothing, any number of times. -/
structure Feed (ε R : Type) [AsyncRead ε R] where
  Owes : R → List UInt8 → Option ε → Prop
  pending : ∀ {r s stop b}, Owes r s stop → 0 < b.remaining → (pollRead r b).outcome = .pending →
    (pollRead r b).buf = b ∧ Owes (pollRead r b).reader s stop
  chunk : ∀ {r s stop b}, Owes r s stop → 0 < b.remaining → (pollRead r b).outcome = .ready (.ok ()) →
    ∃ s', s = b.added (pollRead r b).buf ++ s' ∧ Owes (pollRead r b).reader s' stop ∧
      (b.added (pollRead r b).buf = [] → s' = [] ∧ stop = none)
  fault : ∀ {r s stop b e}, Owes r s stop → 0 < b.remaining → (pollRead r b).outcome = .ready (.error e) →
    ((pollRead r b).buf = b ∧ Owes (pollRead r b).reader s stop) ∨
    (stop = some e ∧ b.added (pollRead r b).buf = s)

/-- A feed that is late, or fails at no cost, only so many times in all. -/
structure Feed.Fair [AsyncRead ε R] (F : Feed ε R) where
  delay : R → Nat
  pending : ∀ {r s stop b}, F.Owes r s stop → 0 < b.remaining → (pollRead r b).outcome = .pending →
    delay (pollRead r b).reader < delay r
  chunk : ∀ {r s stop b}, F.Owes r s stop → 0 < b.remaining → (pollRead r b).outcome = .ready (.ok ()) →
    delay (pollRead r b).reader ≤ delay r
  fault : ∀ {r s stop b e}, F.Owes r s stop → 0 < b.remaining → (pollRead r b).outcome = .ready (.error e) →
    delay (pollRead r b).reader < delay r ∨ (stop = some e ∧ b.added (pollRead r b).buf = s)

/-- The only error the feed reports is its last answer. -/
structure Feed.Faultless [AsyncRead ε R] (F : Feed ε R) : Prop where
  fault : ∀ {r s stop b e}, F.Owes r s stop → 0 < b.remaining → (pollRead r b).outcome = .ready (.error e) →
    stop = some e ∧ b.added (pollRead r b).buf = s

/-- The feed that says nothing of any reader. -/
def Feed.never [AsyncRead ε R] : Feed ε R where
  Owes _ _ _ := False
  pending h := h.elim
  chunk h := h.elim
  fault h := h.elim

theorem Feed.never_faultless [AsyncRead ε R] : (Feed.never : Feed ε R).Faultless := ⟨fun h => h.elim⟩

/-- A poll hands out no more than is owed. -/
theorem Feed.added_le [AsyncRead ε R] (F : Feed ε R) {r : R} {s : List UInt8} {stop : Option ε} {b : ReadBuf}
    (hr : F.Owes r s stop) (hb : 0 < b.remaining) : (b.added (pollRead r b).buf).length ≤ s.length := by
  cases ho : (pollRead r b).outcome with
  | pending =>
    rw [(F.pending hr hb ho).1]
    simp
  | ready res =>
    cases res with
    | ok =>
      obtain ⟨s', hs, -⟩ := F.chunk hr hb ho
      rw [hs, List.length_append]
      omega
    | error e =>
      rcases F.fault hr hb ho with ⟨hbuf, -⟩ | ⟨-, hs⟩
      · rw [hbuf]
        simp
      · rw [hs]

/-- Before a clean end an error costs nothing. -/
theorem Feed.fault_clean [AsyncRead ε R] (F : Feed ε R) {r : R} {s : List UInt8} {b : ReadBuf} {e : ε}
    (hr : F.Owes r s none) (hb : 0 < b.remaining) (ho : (pollRead r b).outcome = .ready (.error e)) :
    (pollRead r b).buf = b ∧ F.Owes (pollRead r b).reader s none := by
  rcases F.fault hr hb ho with h | ⟨h, -⟩
  · exact h
  · cases h

/-- Before a clean end every poll with room takes from the front of what is owed. -/
theorem Feed.takes [AsyncRead ε R] (F : Feed ε R) {r : R} {s : List UInt8} (hr : F.Owes r s none) {b : ReadBuf}
    (hb : 0 < b.remaining) :
    ∃ s', s = b.added (pollRead r b).buf ++ s' ∧ F.Owes (pollRead r b).reader s' none := by
  have hidle : (pollRead r b).buf = b → s = b.added (pollRead r b).buf ++ s := by
    intro h
    rw [h, ReadBuf.added_self]
    rfl
  cases ho : (pollRead r b).outcome with
  | pending =>
    obtain ⟨hbuf, hr'⟩ := F.pending hr hb ho
    exact ⟨s, hidle hbuf, hr'⟩
  | ready res =>
    cases res with
    | ok =>
      obtain ⟨s', hs, hr', -⟩ := F.chunk hr hb ho
      exact ⟨s', hs, hr'⟩
    | error e =>
      obtain ⟨hbuf, hr'⟩ := F.fault_clean hr hb ho
      exact ⟨s, hidle hbuf, hr'⟩

/-- A poll without room costs the feed nothing. -/
def Feed.Patient [AsyncRead ε R] (F : Feed ε R) : Prop :=
  ∀ {r s stop b}, F.Owes r s stop → b.remaining = 0 → F.Owes (pollRead r b).reader s stop

/-- So does one without room of a feed that it costs nothing. -/
theorem Feed.Patient.poll [AsyncRead ε R] {F : Feed ε R} (hF : F.Patient) {r : R} {s : List UInt8}
    (hr : F.Owes r s none) (b : ReadBuf) :
    ∃ s', s = b.added (pollRead r b).buf ++ s' ∧ F.Owes (pollRead r b).reader s' none := by
  by_cases hroom : b.remaining = 0
  · have hlen := (AsyncRead.grows r b).length_added
    rw [hroom, Nat.le_zero, List.length_eq_zero_iff] at hlen
    exact ⟨s, by rw [hlen]; rfl, hF hr hroom⟩
  · exact F.takes hr (Nat.pos_of_ne_zero hroom)

/-- The errors of a feed that ends with `stop` come without bytes. -/
def Feed.Hushed [AsyncRead ε R] (F : Feed ε R) (stop : Option ε) : Prop :=
  ∀ {r s b e}, F.Owes r s stop → 0 < b.remaining → (pollRead r b).outcome = .ready (.error e) → (pollRead r b).buf = b

theorem Feed.hushed_none [AsyncRead ε R] (F : Feed ε R) : F.Hushed none :=
  fun hr hb ho => (F.fault_clean hr hb ho).1

/-- A feed over the readers with a property that polls keep. -/
def Feed.restrict [AsyncRead ε R] (F : Feed ε R) (Q : R → Prop) (hQ : ∀ r b, Q r → Q (pollRead r b).reader) :
    Feed ε R where
  Owes r s stop := F.Owes r s stop ∧ Q r
  pending {r s stop b} hr hb ho := by
    obtain ⟨hbuf, hr'⟩ := F.pending hr.1 hb ho
    exact ⟨hbuf, hr', hQ r b hr.2⟩
  chunk {r s stop b} hr hb ho := by
    obtain ⟨s', hs, hr', hend⟩ := F.chunk hr.1 hb ho
    exact ⟨s', hs, ⟨hr', hQ r b hr.2⟩, hend⟩
  fault {r s stop b e} hr hb ho :=
    (F.fault hr.1 hb ho).imp_left fun ⟨hbuf, hr'⟩ => ⟨hbuf, hr', hQ r b hr.2⟩

def Feed.Fair.restrict [AsyncRead ε R] {F : Feed ε R} (P : F.Fair) (Q : R → Prop)
    (hQ : ∀ r b, Q r → Q (pollRead r b).reader) : (F.restrict Q hQ).Fair where
  delay := P.delay
  pending hr := P.pending hr.1
  chunk hr := P.chunk hr.1
  fault hr := P.fault hr.1

/-- A feed over the readers with a property, also of what they owe, that polls keep. -/
def Feed.refine [AsyncRead ε R] (F : Feed ε R) (Q : R → List UInt8 → Prop)
    (hQ : ∀ {r s b stop}, 0 < b.remaining →
      ((pollRead r b).outcome = .ready (.ok ()) ∨ (pollRead r b).buf = b) →
      F.Owes r (b.added (pollRead r b).buf ++ s) stop → Q r (b.added (pollRead r b).buf ++ s) →
      Q (pollRead r b).reader s) : Feed ε R where
  Owes r s stop := F.Owes r s stop ∧ Q r s
  pending {r s stop b} hr hb ho := by
    obtain ⟨hbuf, hr'⟩ := F.pending hr.1 hb ho
    have hadded : b.added (pollRead r b).buf ++ s = s := by rw [hbuf, ReadBuf.added_self, List.nil_append]
    exact ⟨hbuf, hr', hQ hb (Or.inr hbuf) (by rw [hadded]; exact hr.1) (by rw [hadded]; exact hr.2)⟩
  chunk hr hb ho := by
    obtain ⟨s', rfl, hr', hend⟩ := F.chunk hr.1 hb ho
    exact ⟨s', rfl, ⟨hr', hQ hb (Or.inl ho) hr.1 hr.2⟩, hend⟩
  fault {r s stop b e} hr hb ho := by
    apply (F.fault hr.1 hb ho).imp_left
    rintro ⟨hbuf, hr'⟩
    have hadded : b.added (pollRead r b).buf ++ s = s := by rw [hbuf, ReadBuf.added_self, List.nil_append]
    exact ⟨hbuf, hr', hQ hb (Or.inr hbuf) (by rw [hadded]; exact hr.1) (by rw [hadded]; exact hr.2)⟩

/-- Polls lead from `r` to `r'`, and the last of them reported the end. -/
inductive EofSince [AsyncRead ε R] : R → R → Prop where
  | now {r r' : R} (b : ReadBuf) (hb : 0 < b.remaining) (h : pollRead r b = ⟨.ready (.ok ()), b, r'⟩) :
      EofSince r r'
  | later {r r' : R} (b : ReadBuf) (hb : 0 < b.remaining) (h : EofSince (pollRead r b).reader r') :
      EofSince r r'

/-- An answer without bytes and without error is the end. -/
theorem EofSince.of_nil [AsyncRead ε R] {r : R} {b : ReadBuf} (hb : 0 < b.remaining)
    (ho : (pollRead r b).outcome = .ready (.ok ())) (hn : b.added (pollRead r b).buf = []) :
    EofSince r (pollRead r b).reader := by
  have hbuf := (AsyncRead.grows r b).eq_of_added_nil hn
  refine .now b hb ?_
  generalize pollRead r b = p at *
  cases p
  simp only at ho hbuf
  rw [ho, hbuf]

/-- Polls with room lead from `r` to `r'`; the ready ones handed out `bytes` in all. -/
inductive Handed [AsyncRead ε R] : R → List UInt8 → R → Prop where
  | start (r : R) : Handed r [] r
  | idle {r r' : R} {bytes : List UInt8} (h : Handed r bytes r') (b : ReadBuf) (hb : 0 < b.remaining)
      (ho : (pollRead r' b).outcome ≠ .ready (.ok ())) : Handed r bytes (pollRead r' b).reader
  | chunk {r r' : R} {bytes : List UInt8} (h : Handed r bytes r') (b : ReadBuf) (hb : 0 < b.remaining)
      (ho : (pollRead r' b).outcome = .ready (.ok ())) :
      Handed r (bytes ++ b.added (pollRead r' b).buf) (pollRead r' b).reader

/-- `Handed`, and the last poll reported the end. -/
def Ended [AsyncRead ε R] (r : R) (bytes : List UInt8) (r' : R) : Prop :=
  ∃ r₁ b, Handed r bytes r₁ ∧ 0 < b.remaining ∧ (pollRead r₁ b).outcome = .ready (.ok ()) ∧
    b.added (pollRead r₁ b).buf = [] ∧ (pollRead r₁ b).reader = r'

/-- A feed hands out what it owes, in order. -/
theorem Feed.handed [AsyncRead ε R] (F : Feed ε R) {r r' : R} {bytes s : List UInt8} (h : Handed r bytes r')
    (hr : F.Owes r s none) : ∃ s', s = bytes ++ s' ∧ F.Owes r' s' none := by
  induction h with
  | start => exact ⟨s, rfl, hr⟩
  | @idle r' bytes h b hb ho ih =>
    obtain ⟨s', hs, howes⟩ := ih
    refine ⟨s', hs, ?_⟩
    cases hp : (pollRead r' b).outcome with
    | pending => exact (F.pending howes hb hp).2
    | ready res =>
      cases res with
      | ok => exact absurd hp ho
      | error e => exact (F.fault_clean howes hb hp).2
  | chunk h b hb ho ih =>
    obtain ⟨s', hs, howes⟩ := ih
    obtain ⟨s'', hs', howes', -⟩ := F.chunk howes hb ho
    exact ⟨s'', by rw [hs, hs', List.append_assoc], howes'⟩

/-- A feed that reported the end has handed out all it owed. -/
theorem Feed.ended [AsyncRead ε R] (F : Feed ε R) {r r' : R} {bytes s : List UInt8} (h : Ended r bytes r')
    (hr : F.Owes r s none) : s = bytes ∧ F.Owes r' [] none := by
  obtain ⟨r₁, b, h, hb, ho, hnil, rfl⟩ := h
  obtain ⟨s', hs, howes⟩ := F.handed h hr
  obtain ⟨s'', hs', howes', hend⟩ := F.chunk howes hb ho
  obtain rfl := (hend hnil).1
  rw [hnil] at hs'
  exact ⟨by rw [hs, hs', List.append_nil, List.append_nil], howes'⟩

/-- What is handed out from a state that was reached comes after what was handed out before. -/
theorem Handed.ended [AsyncRead ε R] {r r₁ r' : R} {bytes : List UInt8} (h : Handed r bytes r₁) (hend : EofSince r₁ r') :
    ∃ bytes', Ended r bytes' r' := by
  induction hend generalizing bytes with
  | @now r₁ r' b hb hp => exact ⟨bytes, r₁, b, h, hb, by rw [hp], by rw [hp]; exact ReadBuf.added_self b, by rw [hp]⟩
  | @later r₁ r' b hb _ ih =>
    by_cases ho : (pollRead r₁ b).outcome = .ready (.ok ())
    · exact ih (h.chunk b hb ho)
    · exact ih (h.idle b hb ho)

/-- An end reported later was reported since. -/
theorem Handed.eofSince [AsyncRead ε R] {r r₁ r' : R} {bytes : List UInt8} (h : Handed r bytes r₁) (hend : EofSince r₁ r') :
    EofSince r r' := by
  induction h with
  | start => exact hend
  | idle _ b hb _ ih => exact ih (.later b hb hend)
  | chunk _ b hb _ ih => exact ih (.later b hb hend)

theorem Ended.eofSince [AsyncRead ε R] {r r' : R} {bytes : List UInt8} (h : Ended r bytes r') : EofSince r r' := by
  obtain ⟨r₁, b, h, hb, ho, hnil, rfl⟩ := h
  exact h.eofSince (.of_nil hb ho hnil)

/-- After it reported the end a feed owes nothing. -/
theorem Feed.eofSince [AsyncRead ε R] (F : Feed ε R) {r r' : R} (h : EofSince r r') {s : List UInt8}
    (hr : F.Owes r s none) : F.Owes r' [] none := by
  obtain ⟨bytes, hend⟩ := (Handed.start r).ended h
  exact (F.ended hend hr).2

/-- The poll that reports the end. -/
def AtEof (b : ReadBuf) (p : Polled ε R) : Prop := p.outcome = .ready (.ok ()) ∧ b.added p.buf = []

/-- Any polling of a fair feed comes to its end, and has handed out all it owed. -/
theorem Feed.Fair.delivers [AsyncRead ε R] {F : Feed ε R} (P : F.Fair) {r : R} {s : List UInt8}
    (hr : F.Owes r s none) (bufs : Nat → ReadBuf) (hbufs : ∀ n, 0 < (bufs n).remaining) :
    ∃ n, (after pollRead bufs r n).1 = s ∧ AtEof (bufs n) (pollRead (after pollRead bufs r n).2 (bufs n)) := by
  have hstep : ∀ bytes r (b : ReadBuf), (∃ s', s = bytes ++ s' ∧ F.Owes r s' none) → 0 < b.remaining →
      ¬ AtEof b (pollRead r b) →
      True ∧ (∃ s', s = bytes ++ b.added (pollRead r b).buf ++ s' ∧ F.Owes (pollRead r b).reader s' none) ∧
        P.delay (pollRead r b).reader + (s.length - (bytes ++ b.added (pollRead r b).buf).length) <
          P.delay r + (s.length - bytes.length) := by
    rintro bytes r b ⟨s', rfl, howes⟩ hb hl
    have hidle : (pollRead r b).buf = b → bytes ++ b.added (pollRead r b).buf = bytes := by
      intro h
      rw [h, ReadBuf.added_self, List.append_nil]
    cases ho : (pollRead r b).outcome with
    | pending =>
      obtain ⟨hbuf, howes'⟩ := F.pending howes hb ho
      have hlt := P.pending howes hb ho
      rw [hidle hbuf]
      exact ⟨trivial, ⟨s', rfl, howes'⟩, Nat.add_lt_add_right hlt _⟩
    | ready res =>
      cases res with
      | ok =>
        obtain ⟨s'', rfl, howes', -⟩ := F.chunk howes hb ho
        have hle := P.chunk howes hb ho
        have hpos := List.length_pos_iff.mpr fun hnil => hl ⟨ho, hnil⟩
        refine ⟨trivial, ⟨s'', (List.append_assoc ..).symm, howes'⟩, ?_⟩
        simp only [List.length_append]
        omega
      | error e =>
        obtain ⟨hbuf, howes'⟩ := F.fault_clean howes hb ho
        have hlt := (P.fault howes hb ho).resolve_right fun h => nomatch h.1
        rw [hidle hbuf]
        exact ⟨trivial, ⟨s', rfl, howes'⟩, Nat.add_lt_add_right hlt _⟩
  have hlast : ∃ n, Run pollRead (fun _ _ => True) r (after pollRead bufs r n).1 (after pollRead bufs r n).2 ∧
      (∃ s', s = (after pollRead bufs r n).1 ++ s' ∧ F.Owes (after pollRead bufs r n).2 s' none) ∧
      AtEof (bufs n) (pollRead (after pollRead bufs r n).2 (bufs n)) :=
    Run.comes_to_last (P := fun bytes r => ∃ s', s = bytes ++ s' ∧ F.Owes r s' none)
      (fun bytes r => P.delay r + (s.length - bytes.length)) hstep bufs hbufs ⟨s, rfl, hr⟩
  obtain ⟨n, -, ⟨s', hs, howes⟩, ho, hnil⟩ := hlast
  obtain ⟨s'', rfl, -, hend⟩ := F.chunk howes (hbufs n) ho
  rw [hnil, (hend hnil).1, List.append_nil, List.append_nil] at hs
  exact ⟨n, hs.symm, ho, hnil⟩

/-- A feed that remembers what was handed out since `r₀`, when it owed `s₀`. -/
def Feed.since [AsyncRead ε R] (F : Feed ε R) (r₀ : R) (s₀ : List UInt8) : Feed ε R :=
  F.refine (fun r s => ∃ bytes, Handed r₀ bytes r ∧ s₀ = bytes ++ s) fun {r s b stop} hb ho _ ⟨bytes, h, hs⟩ => by
    by_cases hok : (pollRead r b).outcome = .ready (.ok ())
    · exact ⟨_, h.chunk b hb hok, by rw [hs, List.append_assoc]⟩
    · have hbuf := ho.resolve_left hok
      exact ⟨bytes, h.idle b hb hok, by rw [hs, hbuf, ReadBuf.added_self, List.nil_append]⟩

end Feeds

section Scripts

variable {ε : Type}

/-- What a scripted reader does at one poll. -/
inductive Beat (ε : Type) where
  | late : Beat ε
  | fail : ε → Beat ε
  | give : Nat → Beat ε
  deriving DecidableEq

/-- A reader that owes `rest` and hands it out to a script: one beat a poll, and as much
as fits once the script is over. -/
structure Script (ε : Type) where
  rest : List UInt8
  beats : List (Beat ε)
  deriving DecidableEq

namespace Script

/-- Hand out at most `n` bytes. -/
def give (s : Script ε) (n : Nat) (b : ReadBuf) : Polled ε (Script ε) :=
  let count := min n b.remaining
  ⟨.ready (.ok ()), b.putSlice (s.rest.take count) ((List.length_take_le _ _).trans (Nat.min_le_right _ _)),
    { s with rest := s.rest.drop count }⟩

def poll (s : Script ε) (b : ReadBuf) : Polled ε (Script ε) :=
  match s.beats with
  | [] => s.give b.remaining b
  | .late :: beats => ⟨.pending, b, { s with beats := beats }⟩
  | .fail e :: beats => ⟨.ready (.error e), b, { s with beats := beats }⟩
  | .give n :: beats => Script.give { s with beats := beats } (n + 1) b

theorem grows_give (s : Script ε) (n : Nat) (b : ReadBuf) : b.Grows (s.give n b).buf :=
  ⟨rfl, List.prefix_append _ _⟩

instance : AsyncRead ε (Script ε) where
  pollRead := poll
  grows s b := by
    unfold poll
    split
    · exact grows_give ..
    · exact ReadBuf.Grows.refl b
    · exact ReadBuf.Grows.refl b
    · exact grows_give ..

/-- Each poll moves bytes from the front of `rest` into the buffer. -/
theorem rest_eq (s : Script ε) (b : ReadBuf) :
    s.rest = b.added (pollRead s b).buf ++ (pollRead s b).reader.rest := by
  cases hs : s.beats with
  | nil => simp [pollRead, poll, hs, give]
  | cons beat beats => cases beat <;> simp [pollRead, poll, hs, give]

theorem rest_eq_of_run {ok : ReadBuf → Poll (Except ε Unit) → Prop} {s s' : Script ε} {bytes : List UInt8}
    (hrun : Run pollRead ok s bytes s') : s.rest = bytes ++ s'.rest :=
  hrun.invariant (P := fun bytes s' => s.rest = bytes ++ s'.rest) rfl (fun bytes s' b h _ => by
    rw [h, rest_eq s' b, List.append_assoc])

/-- A script only decides the timing: the bytes are `rest`, and the end is clean. -/
def feed : Feed ε (Script ε) where
  Owes r s stop := r.rest = s ∧ stop = none
  pending {r s stop b} hr _ ho := by
    cases hs : r.beats with
    | nil => simp [pollRead, poll, hs, give] at ho
    | cons beat beats =>
      cases beat <;> simp [pollRead, poll, hs, give] at ho ⊢
      exact hr
  chunk {r s stop b} hr hb ho := by
    obtain ⟨rfl, rfl⟩ := hr
    refine ⟨_, rest_eq r b, ⟨rfl, rfl⟩, fun hn => ⟨?_, rfl⟩⟩
    have hrest := rest_eq r b
    rw [hn, List.nil_append] at hrest
    rw [← hrest]
    cases hs : r.beats with
    | nil =>
      simp only [pollRead, poll, hs, give, ReadBuf.added_putSlice, List.take_eq_nil_iff] at hn
      exact hn.resolve_left (by omega)
    | cons beat beats =>
      cases beat with
      | give n =>
        simp only [pollRead, poll, hs, give, ReadBuf.added_putSlice, List.take_eq_nil_iff] at hn
        exact hn.resolve_left (by omega)
      | _ => simp [pollRead, poll, hs] at ho
  fault {r s stop b e} hr _ ho := by
    left
    cases hs : r.beats with
    | nil => simp [pollRead, poll, hs, give] at ho
    | cons beat beats =>
      cases beat <;> simp [pollRead, poll, hs, give] at ho ⊢
      exact hr

theorem patient : (feed : Feed ε (Script ε)).Patient := by
  intro r s stop b hr hb
  have hrest := rest_eq r b
  have hlen := (AsyncRead.grows r b).length_added
  rw [hb, Nat.le_zero, List.length_eq_zero_iff] at hlen
  rw [hlen, List.nil_append] at hrest
  exact ⟨hrest ▸ hr.1, hr.2⟩

/-- Every beat is played once. -/
def fair : (feed : Feed ε (Script ε)).Fair where
  delay r := r.beats.length
  pending {r s stop b} _ _ ho := by
    cases hs : r.beats with
    | nil => simp [pollRead, poll, hs, give] at ho
    | cons beat beats => cases beat <;> simp [pollRead, poll, hs, give] at ho ⊢
  chunk {r s stop b} _ _ ho := by
    cases hs : r.beats with
    | nil => simp [pollRead, poll, hs, give]
    | cons beat beats => cases beat <;> simp [pollRead, poll, hs, give] at ho ⊢
  fault {r s stop b e} _ _ ho := by
    left
    cases hs : r.beats with
    | nil => simp [pollRead, poll, hs, give] at ho
    | cons beat beats => cases beat <;> simp [pollRead, poll, hs, give] at ho ⊢

/-- A script without failures. -/
def Steady (s : Script ε) : Prop := ∀ e, .fail e ∉ s.beats

theorem steady_poll (s : Script ε) (b : ReadBuf) (h : s.Steady) : (pollRead s b).reader.Steady := by
  intro e he
  cases hs : s.beats with
  | nil =>
    simp only [pollRead, poll, hs, give] at he
    cases he
  | cons beat beats =>
    refine h e ?_
    rw [hs]
    apply List.mem_cons_of_mem
    cases beat <;> simpa only [pollRead, poll, hs, give] using he

/-- The scripts without failures. -/
def steadyFeed : Feed ε (Script ε) := feed.restrict Steady steady_poll

def steadyFair : (steadyFeed : Feed ε (Script ε)).Fair := fair.restrict Steady steady_poll

theorem steady_faultless : (steadyFeed : Feed ε (Script ε)).Faultless := by
  constructor
  intro s bytes stop b e hs hb ho
  cases hbeats : s.beats with
  | nil => simp [pollRead, poll, hbeats, give] at ho
  | cons beat beats =>
    cases beat with
    | fail e' => exact absurd (by rw [hbeats]; exact List.mem_cons_self) (hs.2 e')
    | late => simp [pollRead, poll, hbeats] at ho
    | give n => simp [pollRead, poll, hbeats, give] at ho

end Script

end Scripts

/-- How the caller's wait for an async call ended: with its result, or by dropping it. -/
inductive Await (α : Type) where
  | done : α → Await α
  | cancelled : Await α
  deriving DecidableEq, Repr

/-- A call that answers within `n` polls, and is not changed by more, gives that answer only. -/
theorem Await.settles {α : Type} {f : Nat → Await α} (hmore : ∀ k polls, f polls ≠ .cancelled → f (polls + k) = f polls)
    {n : Nat} {a : α} (h : f n = .done a) :
    (∀ polls, n ≤ polls → f polls = .done a) ∧ ∀ polls, f polls ≠ .cancelled → f polls = .done a := by
  constructor
  · intro polls hle
    obtain ⟨k, rfl⟩ := Nat.exists_eq_add_of_le hle
    exact (hmore k n (by simp [h])).trans h
  · intro polls hwait
    rw [← hmore n polls hwait, Nat.add_comm]
    exact (hmore polls n (by simp [h])).trans h

section Reading

variable {ε R : Type} [AsyncRead ε R]

/-- `AsyncReadExt::read` into `n` bytes, dropped after `polls` polls; what it read, the
reader and the polls left. -/
def read (n : Nat) : Nat → R → Await (Except ε (List UInt8)) × R × Nat
  | 0, r => (.cancelled, r, 0)
  | polls + 1, r =>
    let p := pollRead r (.new n)
    match p.outcome with
    | .pending => read n polls p.reader
    | .ready (.error e) => (.done (.error e), p.reader, polls)
    | .ready (.ok ()) => (.done (.ok p.buf.filled), p.reader, polls)

/-- A read that was not given up goes the same way with more polls. -/
theorem read_more (n k : Nat) {polls : Nat} {r : R} (h : (read n polls r).1 ≠ .cancelled) :
    (read n (polls + k) r).1 = (read n polls r).1 := by
  induction polls generalizing r with
  | zero => exact absurd rfl h
  | succ polls ih =>
    rw [Nat.add_right_comm, read, read]
    rw [read] at h
    cases ho : (pollRead r (.new n)).outcome with
    | pending =>
      simp only [ho] at h ⊢
      exact ih h
    | ready res => cases res <;> rfl

/-- A read of a fair feed that does not fail completes, and takes the next bytes. -/
theorem read_completes {F : Feed ε R} (P : F.Fair) (hF : F.Faultless) {n : Nat} (hn : 0 < n) {r : R}
    {s : List UInt8} (h : F.Owes r s none) :
    ∃ N bytes s' r', s = bytes ++ s' ∧ bytes.length ≤ n ∧ F.Owes r' s' none ∧ (bytes = [] → s' = []) ∧
      P.delay r' ≤ P.delay r ∧ ∀ polls, read n (N + polls) r = (.done (.ok bytes), r', polls) := by
  induction hd : P.delay r using Nat.strong_induction_on generalizing r with
  | _ d ih =>
    have hroom : 0 < (ReadBuf.new n).remaining := hn
    cases ho : (pollRead r (.new n)).outcome with
    | pending =>
      have hlt := P.pending h hroom ho
      obtain ⟨N, bytes, s', r', hs, hlen, howes, hend, hdelay, hread⟩ :=
        ih _ (hd ▸ hlt) (F.pending h hroom ho).2 rfl
      refine ⟨N + 1, bytes, s', r', hs, hlen, howes, hend, by omega, fun polls => ?_⟩
      rw [Nat.add_right_comm, read]
      simp only [ho]
      exact hread polls
    | ready res =>
      cases res with
      | error e => cases (hF.fault h hroom ho).1
      | ok =>
        obtain ⟨s', hs, howes, hend⟩ := F.chunk h hroom ho
        rw [ReadBuf.added_new] at hs hend
        refine ⟨1, _, s', _, hs, length_pollRead_new r n, howes, fun hn => (hend hn).1, ?_, fun polls => ?_⟩
        · rw [← hd]
          exact P.chunk h hroom ho
        · rw [Nat.add_comm, read]
          simp only [ho]

end Reading

end AsyncIo
