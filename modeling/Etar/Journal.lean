import Etar.Appends
import Etar.PackExact
import Etar.Torn

/-!
# The journal of a writer

Whatever comes of its calls, a writer keeps a journal: whole members, one for each append that
succeeded and in their order, and once a call failed or was given up, the front of one more behind them.
Nothing is taken back, and nothing is written behind a torn front.
-/
namespace Etar

open AsyncIo

section Journals

variable {B : Builder} {C : Coding}

/-- What an archive holds before its end: whole members, and where it was cut off, the front of the one
that was being written. -/
structure Journal where
  members : List Member
  torn : Option (List UInt8)

namespace Journal

def empty : Journal := ⟨[], none⟩

/-- The tar bytes of a journal. -/
def bytes (C : Coding) (j : Journal) : List UInt8 := C.stream j.members ++ j.torn.getD []

/-- One append, and what it came to. An entry is stored whole or tears the journal, which then takes no
more. -/
inductive Step (B : Builder) (C : Coding) : Journal → Submission × Await (Except Error Unit) → Journal → Prop where
  | stores {ms : List Member} {s : Submission} {m : Member} (h : Stored B C s.entry.inner m) :
      Step B C ⟨ms, none⟩ (s, .done (.ok ())) ⟨ms ++ [m], none⟩
  | tears {ms : List Member} {s : Submission} {o : Await (Except Error Unit)} {out : List UInt8}
      (ho : o ≠ .done (.ok ())) (h : out = [] ∨ ∃ m, Torn B C s.entry.inner m out) :
      Step B C ⟨ms, none⟩ (s, o) ⟨ms, some out⟩
  | refuses {ms : List Member} {s : Submission} {out : List UInt8} :
      Step B C ⟨ms, some out⟩ (s, .done (.error .aborted)) ⟨ms, some out⟩

/-- Appends one after the other. -/
inductive Run (B : Builder) (C : Coding) (start : Journal) :
    List (Submission × Await (Except Error Unit)) → Journal → Prop where
  | start : Run B C start [] start
  | step {calls : List (Submission × Await (Except Error Unit))} {j j' : Journal}
      {call : Submission × Await (Except Error Unit)} (h : Run B C start calls j) (hs : Step B C j call j') :
      Run B C start (calls ++ [call]) j'

/-- No append takes a member back. -/
theorem Step.grows {j j' : Journal} {call : Submission × Await (Except Error Unit)} (h : Step B C j call j') :
    j.members <+: j'.members := by
  cases h with
  | stores h => exact List.prefix_append _ _
  | tears ho h => exact List.prefix_rfl
  | refuses => exact List.prefix_rfl

theorem Run.grows {j j' : Journal} {calls : List (Submission × Await (Except Error Unit))} (h : Run B C j calls j') :
    j.members <+: j'.members := by
  induction h with
  | start => exact List.prefix_rfl
  | step _ hs ih => exact ih.trans hs.grows

end Journal

end Journals

section Runs

variable {B : Builder} {E : Encoder} {C : Coding} {Frame : List UInt8 → List UInt8 → Prop}
variable {W : Type} [AsyncWrite IoError W]

/-- The sink under a writer. -/
def Inner.sink : Inner B E W → W
  | .tar _ sink => sink.inner
  | .tarZstd _ encoder => encoder.inner.inner

variable (pk : B.Packs C) in
/-- Closing has written the front of the terminators, and when it succeeds all of them. -/
theorem close_front {S : Type} [AsyncWrite IoError S] {K : Drain IoError S} {builder : B.State} {sink : S} {s : List UInt8}
    (hφ : pk.phase builder = .tail []) (hsink : K.Holds sink s) (polls : Nat) :
    ∃ closing, K.Holds (Writer.close polls builder sink).2.2 (s ++ closing) ∧ closing <+: terminators ∧
      ((Writer.close polls builder sink).1 = .done (.ok ()) → closing = terminators) := by
  by_cases hok : (Writer.close polls builder sink).1 = .done (.ok ())
  · exact ⟨terminators, (close_ok pk hφ hsink polls hok).1, List.prefix_rfl, fun _ => rfl⟩
  have hphase := @Builder.Packs.inner _ _ pk builder hφ
  have hstart : Fronted pk K Empty.Left Empty.mk terminators s 0 ⟨B.intoInner builder, Empty.mk, sink⟩ := by
    refine ⟨[], by rwa [List.append_nil], Or.inr ⟨?_, [], 0, .start _, rfl, rfl, ?_, fun _ _ => rfl⟩⟩
    · intro e he
      rw [hphase] at he
      cases he
    · simp only [hphase]
      show [] ++ terminators = terminators ++ [] ++ padding 0
      simp
  obtain ⟨closing, hholds, body, r, k, -, -, hlen, hfront⟩ := drive_front Empty.quota polls hstart
  obtain rfl : body = [] := List.length_eq_zero_iff.mp (by omega)
  have hclosing : closing <+: terminators := by
    rcases hfront with hfront | ⟨-, hfront⟩
    · rwa [List.append_nil] at hfront
    · rwa [List.append_nil, show padding 0 = [] from rfl, List.append_nil] at hfront
  refine ⟨closing, ?_, hclosing, fun h => absurd h hok⟩
  unfold Writer.close
  dsimp only
  generalize B.drive (R := Empty) (W := S) polls ⟨B.intoInner builder, Empty.mk, sink⟩ = d at hholds
  cases d.result with
  | cancelled => exact hholds
  | done result =>
    cases result with
    | error e => exact hholds
    | ok =>
      have hshut := (shutdown_spec K d.left hholds).1
      generalize AsyncIo.shutdown d.left d.rest.sink = p at hshut
      rcases p with ⟨_ | _, sink'⟩ <;> exact hshut

/-- Appends one after the other, whatever came of them. -/
inductive Writer.Tries (start : Writer B E W) : List Submission → Writer B E W → Prop where
  | start : Tries start [] start
  | append {es : List Submission} {ω : Writer B E W} (h : Tries start es ω) (s : Submission) (polls : Nat) :
      Tries start (es ++ [s]) (ω.append polls s.entry).2

/-- Appends one after the other, each with what came of it. -/
inductive Writer.Trying (start : Writer B E W) : List (Submission × Await (Except Error Unit)) → Writer B E W → Prop where
  | start : Trying start [] start
  | append {calls : List (Submission × Await (Except Error Unit))} {ω : Writer B E W} (h : Trying start calls ω)
      (s : Submission) (polls : Nat) :
      Trying start (calls ++ [(s, (ω.append polls s.entry).1)]) (ω.append polls s.entry).2

theorem Writer.Tries.trying {start ω : Writer B E W} {es : List Submission} (h : start.Tries es ω) :
    ∃ calls, calls.map Prod.fst = es ∧ start.Trying calls ω := by
  induction h with
  | start => exact ⟨[], rfl, .start⟩
  | append _ s polls ih =>
    obtain ⟨calls, rfl, htrying⟩ := ih
    exact ⟨_, by rw [List.map_append]; rfl, htrying.append s polls⟩

/-- The tar bytes that the archive was given are `s`. -/
def Inner.Takes (enc : E.Encodes Frame) (D : Drain IoError W) : Inner B E W → List UInt8 → Prop
  | .tar _ sink, s => (Counted.drain D).Holds sink s
  | .tarZstd _ encoder, s => (ZstdEncoder.drain enc (Counted.drain D)).Holds encoder s

variable (pk : B.Packs C) (enc : E.Encodes Frame) {D : Drain IoError W}

variable {pk enc} in
theorem Inner.Holds.takes {inner : Inner B E W} {s : List UInt8} (h : inner.Holds pk enc D s) : inner.Takes enc D s := by
  cases inner with
  | tar builder sink => exact h.2
  | tarZstd builder encoder => exact h.2

variable {enc} in
theorem Inner.Takes.sink_holds {inner : Inner B E W} (hformat : inner.format = .tar) {s : List UInt8}
    (h : inner.Takes enc D s) : D.Holds inner.sink s := by
  cases inner with
  | tar builder sink => exact h.1
  | tarZstd builder encoder => cases hformat

/-- A writer that keeps the journal `j`: it has given its archive the bytes of it, and it goes on as long
as the journal is not torn. -/
structure Writer.Keeps (pk : B.Packs C) (enc : E.Encodes Frame) (D : Drain IoError W) (format : Format)
    (ω : Writer B E W) (j : Journal) : Prop where
  format_eq : ω.inner.format = format
  failed : ω.failed = j.torn.isSome
  takes : ω.inner.Takes enc D (j.bytes C)
  holds : j.torn = none → ω.inner.Holds pk enc D (C.stream j.members)

theorem Writer.keeps_new {sink : W} (hsink : D.Holds sink []) (format : Format) :
    (Writer.new sink format : Writer B E W).Keeps pk enc D format .empty := by
  have hholds := holds_new (B := B) pk enc hsink format
  exact ⟨by cases format <;> rfl, rfl, hholds.takes, fun _ => hholds⟩

variable {pk enc} in
/-- A plain writer has given its sink the bytes of its journal. -/
theorem Writer.Keeps.sink_holds {ω : Writer B E W} {j : Journal} (h : ω.Keeps pk enc D .tar j) :
    D.Holds ω.inner.sink (j.bytes C) :=
  Inner.Takes.sink_holds h.format_eq h.takes

/-- A call that does not succeed leaves the front of how its entry is stored. -/
theorem append_tears {ω : Writer B E W} {s : List UInt8} (hf : ω.failed = false) (h : ω.inner.Holds pk enc D s)
    (polls : Nat) {R : Type} [AsyncRead IoError R] (entry : WriteEntry R) :
    ∃ out, (ω.append polls entry).2.inner.Takes enc D (s ++ out) ∧ (out = [] ∨ ∃ m, Torn B C entry.inner m out) := by
  rcases ω with ⟨inner, failed⟩
  obtain rfl : failed = false := hf
  cases inner with
  | tar builder sink => exact pack_front pk h.1 h.2 entry polls
  | tarZstd builder encoder => exact pack_front pk h.1 h.2 entry polls

/-- One more append is one more step of the journal. -/
theorem Writer.Keeps.append {format : Format} {ω : Writer B E W} {j : Journal} (h : ω.Keeps pk enc D format j)
    (s : Submission) (polls : Nat) :
    ∃ j', Journal.Step B C j (s, (ω.append polls s.entry).1) j' ∧
      (ω.append polls s.entry).2.Keeps pk enc D format j' := by
  obtain ⟨hformat, hfailed, htakes, hholds⟩ := h
  rcases j with ⟨ms, torn⟩
  cases torn with
  | some out =>
    rw [append_failed hfailed]
    exact ⟨⟨ms, some out⟩, .refuses, hformat, hfailed, htakes, fun h => by cases h⟩
  | none =>
    have hlive : ω.failed = false := hfailed
    have hholds := hholds rfl
    obtain ⟨hformat', hflag⟩ := append_flag (ω := ω) polls s.entry
    by_cases hok : (ω.append polls s.entry).1 = .done (.ok ())
    · obtain ⟨m, hstored, hholds'⟩ := append_ok pk enc hholds hok
      have hstream : C.stream (ms ++ [m]) = C.stream ms ++ C.records m := by
        rw [Coding.stream, List.flatMap_append, List.flatMap_singleton]
        rfl
      rw [← hstream] at hholds'
      refine ⟨⟨ms ++ [m], none⟩, by rw [hok]; exact .stores hstored, hformat'.trans hformat, hflag.mpr hok, ?_, fun _ => hholds'⟩
      unfold Journal.bytes
      rw [Option.getD_none, List.append_nil]
      exact hholds'.takes
    · obtain ⟨out, htakes', htorn⟩ := append_tears pk enc hlive hholds polls s.entry
      have hpoisoned : (ω.append polls s.entry).2.failed = true := by
        by_contra hlive'
        exact hok (hflag.mp (eq_false_of_ne_true hlive'))
      exact ⟨⟨ms, some out⟩, .tears hok htorn, hformat'.trans hformat, hpoisoned, htakes', fun h => by cases h⟩

/-- Appends are steps of the journal, whatever comes of them. -/
theorem Writer.Keeps.trying {format : Format} {ω₀ ω : Writer B E W} {j₀ : Journal} (h₀ : ω₀.Keeps pk enc D format j₀)
    {calls : List (Submission × Await (Except Error Unit))} (h : ω₀.Trying calls ω) :
    ∃ j, Journal.Run B C j₀ calls j ∧ ω.Keeps pk enc D format j := by
  induction h with
  | start => exact ⟨j₀, .start, h₀⟩
  | append h s polls ih =>
    obtain ⟨j, hrun, hkeeps⟩ := ih
    obtain ⟨j', hstep, hkeeps'⟩ := hkeeps.append pk enc s polls
    exact ⟨j', .step hrun hstep, hkeeps'⟩

/-- Finishing adds the terminators, or the front of them when it does not succeed. -/
theorem finish_takes {ω : Writer B E W} {s : List UInt8} (hf : ω.failed = false) (h : ω.inner.Holds pk enc D s)
    (polls : Nat) : ∃ closing, (ω.finish polls).2.Takes enc D (s ++ closing) ∧ closing <+: terminators ∧
      ∀ out, (ω.finish polls).1 = .done (.ok out) → closing = terminators := by
  rcases ω with ⟨inner, failed⟩
  obtain rfl : failed = false := hf
  cases inner with
  | tar builder sink =>
    obtain ⟨closing, hholds, hfront, hok⟩ := close_front pk h.1 h.2 polls
    simp only [Writer.finish, Bool.false_eq_true, if_false]
    generalize Writer.close polls builder sink = p at hholds hok
    rcases p with ⟨res, builder', sink'⟩
    cases res with
    | cancelled => exact ⟨closing, hholds, hfront, fun out hout => by cases hout⟩
    | done res =>
      cases res with
      | error e => exact ⟨closing, hholds, hfront, fun out hout => by cases hout⟩
      | ok => exact ⟨closing, hholds, hfront, fun _ _ => hok rfl⟩
  | tarZstd builder encoder =>
    obtain ⟨closing, hholds, hfront, hok⟩ := close_front pk h.1 h.2 polls
    simp only [Writer.finish, Bool.false_eq_true, if_false]
    generalize Writer.close polls builder encoder = p at hholds hok
    rcases p with ⟨res, builder', encoder'⟩
    cases res with
    | cancelled => exact ⟨closing, hholds, hfront, fun out hout => by cases hout⟩
    | done res =>
      cases res with
      | error e => exact ⟨closing, hholds, hfront, fun out hout => by cases hout⟩
      | ok => exact ⟨closing, hholds, hfront, fun _ _ => hok rfl⟩

include pk in
/-- A writer of either format refines a journal: whatever comes of its calls, the tar bytes it has given
its archive are the members of the appends that succeeded, in their order, and, once a call did not
succeed, the front of the entry of that call. `finish` then adds nothing; before that it adds the
terminators, or the front of them when it fails itself. -/
theorem writer_keeps_a_journal {sink : W} (hsink : D.Holds sink []) {format : Format}
    {calls : List (Submission × Await (Except Error Unit))} {ω : Writer B E W}
    (h : (Writer.new sink format : Writer B E W).Trying calls ω) :
    ∃ j : Journal, Journal.Run B C .empty calls j ∧ ω.inner.Takes enc D (j.bytes C) ∧
      ∀ polls, ∃ closing, (ω.finish polls).2.Takes enc D (j.bytes C ++ closing) ∧ closing <+: terminators ∧
        (j.torn.isSome → closing = [] ∧ (ω.finish polls).1 = .done (.error .aborted)) ∧
        ∀ out, (ω.finish polls).1 = .done (.ok out) → closing = terminators := by
  obtain ⟨j, hrun, hkeeps⟩ := (Writer.keeps_new pk enc hsink format).trying pk enc h
  refine ⟨j, hrun, hkeeps.takes, fun polls => ?_⟩
  cases htorn : j.torn with
  | some out =>
    have hf : ω.failed = true := by rw [hkeeps.failed, htorn]; rfl
    have hfinish : ω.finish polls = (.done (.error .aborted), ω.inner) := by simp [Writer.finish, hf]
    rw [hfinish]
    refine ⟨[], ?_, List.nil_prefix, fun _ => ⟨rfl, rfl⟩, fun _ hout => by cases hout⟩
    rw [List.append_nil]
    exact hkeeps.takes
  | none =>
    have hf : ω.failed = false := by rw [hkeeps.failed, htorn]; rfl
    obtain ⟨closing, htakes, hfront, hok⟩ := finish_takes pk enc hf (hkeeps.holds htorn) polls
    have hbytes : j.bytes C = C.stream j.members := by
      rw [Journal.bytes, htorn, Option.getD_none, List.append_nil]
    rw [hbytes]
    exact ⟨closing, htakes, hfront, fun hsome => by simp at hsome, hok⟩

end Runs

section Samples

/-- A file whose body comes byte by byte. -/
def slowFile : WriteEntry (Script IoError) := ⟨sampleFile, Or.inl ⟨rfl, rfl⟩⟩

/-- A writer that was given a directory, and a file that was given up after the first byte of its body. -/
def givenUp : Writer Gnu.builder RawZstd.encoder (Recorder IoError (Memory IoError)) :=
  ((sampleWriter.append 9 sampleDir).2.append 3 slowFile).2

/-- Its journal has the directory, and is torn behind the first byte of the file. -/
theorem writer_keeps_a_journal_sample : ∃ j : Journal,
    Journal.Run Gnu.builder Gnu.coding .empty [(⟨Empty, sampleDir⟩, .done (.ok ())), (⟨Script IoError, slowFile⟩, .cancelled)] j ∧
      accepted givenUp.inner.sink.log = j.bytes Gnu.coding ∧ (j.bytes Gnu.coding).length = 1025 := by
  have hdir : (sampleWriter.append 9 sampleDir).1 = .done (.ok ()) := by decide +kernel
  have hfile : ((sampleWriter.append 9 sampleDir).2.append 3 slowFile).1 = .cancelled := by decide +kernel
  have hlength : (accepted givenUp.inner.sink.log).length = 1025 := by decide +kernel
  have htrying : sampleWriter.Trying ([(⟨Empty, sampleDir⟩, (sampleWriter.append 9 sampleDir).1)] ++
      [(⟨Script IoError, slowFile⟩, ((sampleWriter.append 9 sampleDir).2.append 3 slowFile).1)]) givenUp :=
    .append (.append .start ⟨Empty, sampleDir⟩ 9) ⟨Script IoError, slowFile⟩ 3
  have hformat : givenUp.inner.format = .tar := by decide +kernel
  rw [hdir, hfile] at htrying
  generalize givenUp = ω at hlength htrying hformat ⊢
  have hnew : Recorder.drain.Holds (Recorder.new ⟨[], 511⟩ : Recorder IoError (Memory IoError)) [] := rfl
  obtain ⟨j, hrun, htakes, -⟩ := writer_keeps_a_journal Gnu.packs RawZstd.encodes hnew htrying
  have hbytes : accepted ω.inner.sink.log = j.bytes Gnu.coding := Inner.Takes.sink_holds hformat htakes
  exact ⟨j, hrun, hbytes, hbytes ▸ hlength⟩

end Samples

end Etar
