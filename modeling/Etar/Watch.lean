import Etar.Buffered

/-!
# Watching a reader for its first error

A `Watch` follows a reader while its polls go well, and says what an error leaves behind. It
needs no account of the bytes, so it covers readers of any kind; the readers stacked on a
watched one are watched in turn. `Logged` is the watch at the bottom: a reader that keeps the
errors it has answered with.
-/
namespace AsyncIo

variable {ε R : Type}

/-- Polls lead from one state to another, none of them failed, or just the last one did. -/
inductive Asked [AsyncRead ε R] : R → Option ε → R → Prop where
  | start (r : R) : Asked r none r
  | more {r r' : R} (b : ReadBuf) (h : Asked r none r') (ho : ∀ e, (pollRead r' b).outcome ≠ .ready (.error e)) :
      Asked r none (pollRead r' b).reader
  | fault {r r' : R} {e : ε} (b : ReadBuf) (h : Asked r none r') (ho : (pollRead r' b).outcome = .ready (.error e)) :
      Asked r (some e) (pollRead r' b).reader

/-- The error of a poll that failed. -/
def Poll.fault : Poll (Except ε Unit) → Option ε
  | .ready (.error e) => some e
  | _ => none

theorem Poll.fault_eq_some {o : Poll (Except ε Unit)} {e : ε} : o.fault = some e ↔ o = .ready (.error e) := by
  cases o with
  | pending => simp [fault]
  | ready res => cases res <;> simp [fault]

theorem Poll.fault_eq_none {o : Poll (Except ε Unit)} : o.fault = none ↔ ∀ e, o ≠ .ready (.error e) := by
  cases o with
  | pending => simp [fault]
  | ready res => cases res <;> simp [fault]

theorem Asked.once [AsyncRead ε R] (r : R) (b : ReadBuf) :
    Asked r (pollRead r b).outcome.fault (pollRead r b).reader := by
  cases ho : (pollRead r b).outcome.fault with
  | none => exact .more b (.start r) (Poll.fault_eq_none.mp ho)
  | some e => exact .fault b (.start r) (Poll.fault_eq_some.mp ho)

/-- A reader watched for its first error. -/
structure Watch (ε R : Type) [AsyncRead ε R] where
  Intact : R → Prop
  Blamed : R → ε → Prop
  ok : ∀ {r b}, Intact r → (∀ e, (pollRead r b).outcome ≠ .ready (.error e)) → Intact (pollRead r b).reader
  fault : ∀ {r b e}, Intact r → (pollRead r b).outcome = .ready (.error e) → Blamed (pollRead r b).reader e

/-- What one poll of a watched reader leaves. -/
def Watch.After [AsyncRead ε R] (W : Watch ε R) (r : R) : Option ε → Prop
  | none => W.Intact r
  | some e => W.Blamed r e

theorem Watch.asked [AsyncRead ε R] (W : Watch ε R) {r r' : R} {o : Option ε} (h : Asked r o r')
    (hr : W.Intact r) : W.After r' o := by
  induction h with
  | start => exact hr
  | more b _ ho ih => exact W.ok ih ho
  | fault b _ ho ih => exact W.fault ih ho

/-- The watch of a reader whose polls come down to polls of the reader `inner` below it, with
the same error. -/
def Watch.through {R' : Type} [AsyncRead ε R] [AsyncRead ε R'] (W : Watch ε R) (inner : R' → R)
    (hasked : ∀ r b, Asked (inner r) (pollRead r b).outcome.fault (inner (pollRead r b).reader)) : Watch ε R' where
  Intact r := W.Intact (inner r)
  Blamed r e := W.Blamed (inner r) e
  ok {r b} h ho := by
    have ha := W.asked (hasked r b) h
    rwa [Poll.fault_eq_none.mpr ho] at ha
  fault {r b e} h ho := by
    have ha := W.asked (hasked r b) h
    rwa [Poll.fault_eq_some.mpr ho] at ha

/-- The watch over readers with a property that every poll keeps and that bounds the errors. -/
def Watch.always [AsyncRead ε R] (Q : R → Prop) (E : ε → Prop)
    (hQ : ∀ r b, Q r → Q (pollRead r b).reader ∧ ∀ e, (pollRead r b).outcome = .ready (.error e) → E e) :
    Watch ε R where
  Intact := Q
  Blamed r e := Q r ∧ E e
  ok {r b} h _ := (hQ r b h).1
  fault {r b e} h ho := ⟨(hQ r b h).1, (hQ r b h).2 e ho⟩

/-- The watch over readers of which nothing is known. -/
def Watch.all [AsyncRead ε R] : Watch ε R :=
  .always (fun _ => True) (fun _ => True) (fun _ _ _ => ⟨trivial, fun _ _ => trivial⟩)

/-- A reader whose errors come without bytes. -/
def Quiet (R : Type) [AsyncRead ε R] : Prop :=
  ∀ (r : R) (b : ReadBuf) (e : ε), (pollRead r b).outcome = .ready (.error e) → (pollRead r b).buf = b

theorem Script.quiet : Quiet (Script ε) := by
  intro s b e ho
  cases hs : s.beats with
  | nil => simp [pollRead, poll, hs, give] at ho
  | cons beat beats =>
    cases beat with
    | fail e' => simp [pollRead, poll, hs]
    | late => simp [pollRead, poll, hs] at ho
    | give n => simp [pollRead, poll, hs, give] at ho

/-- A reader and the errors it has answered with. -/
structure Logged (ε R : Type) where
  inner : R
  faults : List ε

namespace Logged

variable [AsyncRead ε R]

def new (inner : R) : Logged ε R := ⟨inner, []⟩

instance : AsyncRead ε (Logged ε R) where
  pollRead l b :=
    let p := pollRead l.inner b
    ⟨p.outcome, p.buf, ⟨p.reader, match p.outcome with
      | .ready (.error e) => l.faults ++ [e]
      | _ => l.faults⟩⟩
  grows l b := AsyncRead.grows l.inner b

theorem faults_poll (l : Logged ε R) (b : ReadBuf) :
    (pollRead l b).reader.faults = match (pollRead l b).outcome with
      | .ready (.error e) => l.faults ++ [e]
      | _ => l.faults := rfl

/-- Nothing is logged until the first error, and then just that. -/
def watch : Watch ε (Logged ε R) where
  Intact l := l.faults = []
  Blamed l e := l.faults = [e]
  ok {l b} h ho := by
    rw [faults_poll]
    split
    · rename_i e he
      exact absurd he (ho e)
    · exact h
  fault {l b e} h ho := by
    rw [faults_poll, ho, h]
    rfl

theorem quiet (h : Quiet R) : Quiet (Logged ε R) := fun l b e ho => h l.inner b e ho

end Logged

namespace Chain

variable [AsyncRead ε R]

/-- A poll is at most one poll of the reader behind the bytes in hand. -/
theorem asked_poll (c : Chain R) (buf : ReadBuf) :
    Asked c.second (pollRead c buf).outcome.fault (pollRead c buf).reader.second := by
  show Asked c.second (c.poll buf).outcome.fault (c.poll buf).reader.second
  by_cases h : c.doneFirst = false ∧ c.first.take buf.remaining ≠ []
  · rw [poll, if_pos h]
    exact .start c.second
  · rw [poll, if_neg h]
    exact .once c.second buf

def watch (W : Watch ε R) : Watch ε (Chain R) := W.through second asked_poll

theorem quiet (h : Quiet R) : Quiet (Chain R) := by
  intro c buf e ho
  change (c.poll buf).buf = buf
  change (c.poll buf).outcome = _ at ho
  unfold poll at ho ⊢
  split at ho
  · cases ho
  · rename_i hc
    rw [if_neg hc]
    exact h c.second buf e ho

end Chain

namespace BufReader

variable {capacity : Nat} [AsyncRead ε R]

/-- A poll is at most one poll of the reader below. -/
theorem asked_poll (b : BufReader capacity R) (buf : ReadBuf) :
    Asked b.inner (pollRead b buf).outcome.fault (pollRead b buf).reader.inner := by
  have hp := polls b buf
  generalize pollRead b buf = p at hp
  cases hp with
  | served h => exact .start b.inner
  | passed h => exact .once b.inner buf
  | filled h ho => exact .more (.new capacity) (.start b.inner) (by simp [ho])
  | other h ho => exact .once b.inner (.new capacity)

def watch (W : Watch ε R) : Watch ε (BufReader capacity R) := W.through inner asked_poll

theorem quiet (h : Quiet R) : Quiet (BufReader capacity R) := by
  intro b buf e ho
  have hp := polls b buf
  generalize pollRead b buf = p at hp ho
  cases hp with
  | served h => cases ho
  | passed hb => exact h b.inner buf e ho
  | filled h ho' => cases ho
  | other h ho' => rfl

end BufReader

end AsyncIo
