import Etar.ReaderRun

/-!
# A validation and what it leaves

`validate` answers with a report or an error and drops its reader. `validating` is the same
loop with the session it ends in and the number of its calls of `next_entry`.
-/
namespace Etar

open AsyncIo Limit

/-- What a validation answers, after how many calls of `next_entry`, and the session it ends in. -/
structure Validation (T : Tar) (S : Type) where
  result : Await (Except Error ValidationReport)
  calls : Nat
  last : Session T S

namespace Reader

variable {T : Tar} {S : Type} [AsyncRead IoError S] [Counters S] (H : HeaderFields)

/-- `copyBody` with the entry it was copying. -/
def copying : Nat → Reader T S → ReadEntry → Await (Except IoError Unit) × Session T S
  | 0, r, entry => (.cancelled, ⟨r, some entry⟩)
  | polls + 1, r, entry =>
    match r.pollBody entry (.new 8192) with
    | (.pending, _, entry, r) => copying polls r entry
    | (.ready (.error e), _, entry, r) => (.done (.error e), ⟨r, some entry⟩)
    | (.ready (.ok ()), buf, entry, r) =>
      if buf.filled = [] then (.done (.ok ()), ⟨r, some entry⟩) else copying polls r entry

/-- `validateFrom` with its calls so far and the session it ends in. -/
def validating : Nat → Nat → Nat → Reader T S → Validation T S
  | 0, calls, _, r => ⟨.cancelled, calls, ⟨r, none⟩⟩
  | polls + 1, calls, entries, r =>
    match r.nextEntry H polls with
    | (.cancelled, r) => ⟨.cancelled, calls + 1, ⟨r, none⟩⟩
    | (.done (.error e), r) => ⟨.done (.error e), calls + 1, ⟨r, none⟩⟩
    | (.done (.ok none), r) => ⟨.done (.ok ⟨entries, r.encodedBytes, r.decodedBytes⟩), calls + 1, ⟨r, none⟩⟩
    | (.done (.ok (some entry)), r) =>
      match r.copying polls entry with
      | (.cancelled, σ) => ⟨.cancelled, calls + 1, σ⟩
      | (.done (.error e), σ) => ⟨.done (.error (σ.reader.report e)), calls + 1, σ⟩
      | (.done (.ok ()), σ) => validating polls (calls + 1) (entries + 1) σ.reader

omit [Counters S] in
theorem copying_eq (polls : Nat) (r : Reader T S) (entry : ReadEntry) :
    r.copyBody polls entry = ((r.copying polls entry).1, (r.copying polls entry).2.reader) := by
  induction polls generalizing r entry with
  | zero => rfl
  | succ polls ih =>
    rw [copyBody, copying]
    rcases r.pollBody entry (.new 8192) with ⟨o, buf, entry', r'⟩
    cases o with
    | pending => exact ih r' entry'
    | ready res =>
      cases res with
      | error e => rfl
      | ok =>
        by_cases hnil : buf.filled = []
        · simp only [hnil, if_true]
        · simp only [hnil, if_false]
          exact ih r' entry'

theorem validating_eq (polls calls entries : Nat) (r : Reader T S) :
    r.validateFrom H polls entries = (r.validating H polls calls entries).result := by
  induction polls generalizing calls entries r with
  | zero => rfl
  | succ polls ih =>
    rw [validateFrom, validating]
    rcases r.nextEntry H polls with ⟨res, r'⟩
    cases res with
    | cancelled => rfl
    | done res =>
      cases res with
      | error e => rfl
      | ok o =>
        cases o with
        | none => rfl
        | some entry =>
          simp only [copying_eq]
          rcases r'.copying polls entry with ⟨res, σ⟩
          cases res with
          | cancelled => rfl
          | done res =>
            cases res with
            | error e => rfl
            | ok => exact ih (calls + 1) (entries + 1) σ.reader

end Reader

end Etar
