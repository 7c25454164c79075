import Etar.GnuCoding
import Etar.RawZstd

/-!
# Runs of the archive writer

A writer whose appends all succeeded holds whole records and nothing else; one that failed
or was dropped refuses everything after. Only the first is handed back, with its terminators
written, shut down, and with every byte its sink took counted.
-/
namespace Etar

open AsyncIo

variable {B : Builder} {E : Encoder} {C : Coding} {Frame : List UInt8 → List UInt8 → Prop}
variable {W : Type} [AsyncWrite IoError W]

/-- Any appends, one after the other, each with its result. -/
inductive Writer.Run : Writer B E W → List (Await (Except Error Unit)) → Writer B E W → Prop where
  | start (ω : Writer B E W) : Run ω [] ω
  | append {ω ω' : Writer B E W} {evs : List (Await (Except Error Unit))} (h : Run ω evs ω') (polls : Nat)
      {R : Type} [AsyncRead IoError R] (entry : WriteEntry R) :
      Run ω (evs ++ [(ω'.append polls entry).1]) (ω'.append polls entry).2

namespace Inner

def format : Inner B E W → Format
  | .tar _ _ => .tar
  | .tarZstd _ _ => .tarZstd

/-- Between two calls, with the tar bytes `s` handed to the sink. -/
def Holds (pk : B.Packs C) (enc : E.Encodes Frame) (D : Drain IoError W) : Inner B E W → List UInt8 → Prop
  | .tar builder sink, s => pk.phase builder = .tail [] ∧ (Counted.drain D).Holds sink s
  | .tarZstd builder sink, s =>
    pk.phase builder = .tail [] ∧ (ZstdEncoder.drain enc (Counted.drain D)).Holds sink s

end Inner

variable (pk : B.Packs C) (enc : E.Encodes Frame) {D : Drain IoError W}

theorem holds_new {sink : W} (h : D.Holds sink []) (format : Format) :
    (Writer.new sink format : Writer B E W).inner.Holds pk enc D [] := by
  have hcounted : (Counted.drain D).Holds ⟨sink, 0⟩ [] := ⟨h, rfl⟩
  cases format with
  | tar => exact ⟨pk.opens, hcounted⟩
  | tarZstd => exact ⟨pk.opens, by rw [enc.opens.2]; exact hcounted, enc.opens.1⟩

section Appending

variable {R : Type} [AsyncRead IoError R] {ω : Writer B E W}

theorem append_failed (hf : ω.failed = true) (polls : Nat) (entry : WriteEntry R) :
    ω.append polls entry = (.done (.error .aborted), ω) := by
  simp [Writer.append, hf]

/-- An append leaves the format, and poisons the writer unless it succeeds. -/
theorem append_flag (polls : Nat) (entry : WriteEntry R) :
    (ω.append polls entry).2.inner.format = ω.inner.format ∧
      ((ω.append polls entry).2.failed = false ↔ (ω.append polls entry).1 = .done (.ok ())) := by
  cases hf : ω.failed with
  | true => simp [append_failed hf, hf]
  | false =>
    have hflag : ∀ (inner : Inner B E W) (result : Await (Except Error Unit)),
        (Writer.guarded inner result).2.failed = false ↔ (Writer.guarded inner result).1 = .done (.ok ()) := by
      intro inner result
      cases result with
      | cancelled => simp [Writer.guarded]
      | done result => cases result <;> simp [Writer.guarded]
    rcases ω with ⟨inner, failed⟩
    obtain rfl : failed = false := hf
    cases inner with
    | tar builder sink => exact ⟨rfl, hflag _ _⟩
    | tarZstd builder sink => exact ⟨rfl, hflag _ _⟩

include pk enc in
theorem append_ok {s : List UInt8} (h : ω.inner.Holds pk enc D s) {polls : Nat} {entry : WriteEntry R}
    (hok : (ω.append polls entry).1 = .done (.ok ())) :
    ∃ m, Stored B C entry.inner m ∧ (ω.append polls entry).2.inner.Holds pk enc D (s ++ C.records m) := by
  cases hf : ω.failed with
  | true =>
    rw [append_failed hf] at hok
    cases hok
  | false =>
    rcases ω with ⟨inner, failed⟩
    obtain rfl : failed = false := hf
    cases inner with
    | tar builder sink =>
      obtain ⟨hφ, m, hstored, hholds⟩ := pack_ok pk h.1 h.2 hok
      exact ⟨m, hstored, hφ, hholds⟩
    | tarZstd builder sink =>
      obtain ⟨hφ, m, hstored, hholds⟩ := pack_ok pk h.1 h.2 hok
      exact ⟨m, hstored, hφ, hholds⟩

end Appending

section Closing

variable {S : Type} [AsyncWrite IoError S] {K : Drain IoError S} {builder : B.State} {sink : S} {s : List UInt8}

omit [AsyncWrite IoError W] in
include pk in
/-- A call of `into_inner` that succeeds has written the two zero blocks. -/
theorem intoInner_ok (hφ : pk.phase builder = .tail []) (hsink : K.Holds sink s) {polls : Nat}
    {d : Driven B Empty S} (hd : B.drive polls ⟨B.intoInner builder, Empty.mk, sink⟩ = d)
    (hok : d.result = .done (.ok ())) : K.Holds d.rest.sink (s ++ terminators) := by
  have hstart : Covered pk K (fun _ _ => True) terminators s Empty.mk
      ⟨B.intoInner builder, Empty.mk, sink⟩ := by
    refine ⟨[], [], by rwa [List.append_nil], .start _, ?_, fun _ _ => trivial⟩
    simp only [pk.inner hφ]
    show [] ++ terminators = terminators ++ [] ++ padding 0
    simp
  obtain ⟨-, hdone⟩ := drive_covered (fun _ _ _ => trivial) polls hstart
  rw [hd] at hdone
  obtain ⟨-, body, hholds, hbody, -⟩ := hdone hok
  obtain ⟨s', hs, -⟩ := Empty.feed.handed hbody ⟨rfl, rfl⟩
  obtain ⟨rfl, -⟩ := List.append_eq_nil_iff.mp hs.symm
  simpa using hholds

omit [AsyncWrite IoError W] in
include pk in
theorem close_ok (hφ : pk.phase builder = .tail []) (hsink : K.Holds sink s) (polls : Nat)
    (hok : (Writer.close polls builder sink).1 = .done (.ok ())) :
    K.Holds (Writer.close polls builder sink).2.2 (s ++ terminators) ∧
      ∃ sink', K.Holds sink' (s ++ terminators) ∧
        Did sink' (.shutdown (.ready (.ok ()))) (Writer.close polls builder sink).2.2 := by
  unfold Writer.close at hok ⊢
  generalize hdrive : B.drive (R := Empty) (W := S) polls _ = d at hok ⊢
  cases hd : d.result with
  | cancelled =>
    simp only [hd] at hok
    cases hok
  | done result =>
    cases result with
    | error e =>
      simp only [hd] at hok
      cases hok
    | ok =>
      have hholds := intoInner_ok pk hφ hsink hdrive hd
      obtain ⟨hend, hlast⟩ := shutdown_spec K d.left hholds
      simp only [hd] at hok ⊢
      generalize AsyncIo.shutdown d.left d.rest.sink = p at hok hend hlast ⊢
      rcases p with ⟨res, sink'⟩
      cases res with
      | cancelled => cases hok
      | done res =>
        cases res with
        | error e => cases hok
        | ok => exact ⟨hend, hlast _ rfl⟩

end Closing

/-- What the writer of a format has put into its sink when its tar bytes are `s`. -/
def Format.Encodes (Frame : List UInt8 → List UInt8 → Prop) (format : Format) (s out : List UInt8) : Prop :=
  match format with
  | .tar => out = s
  | .tarZstd => Frame s out

include pk in
/-- A sink that is handed back holds the whole archive, was shut down last, and was counted. -/
theorem finish_ok {ω : Writer B E W} {s : List UInt8} (h : ω.inner.Holds pk enc D s) {polls : Nat}
    {out : WriteOutput W} (hok : (ω.finish polls).1 = .done (.ok out)) :
    ω.failed = false ∧ ∃ bytes, ω.inner.format.Encodes Frame (s ++ terminators) bytes ∧
      D.Holds out.sink bytes ∧ out.encodedBytes = min bytes.length u64Max ∧
      ∃ w log, Trace w log out.sink ∧ log.getLast? = some (.shutdown (.ready (.ok ()))) := by
  rcases ω with ⟨inner, failed⟩
  cases failed with
  | true => cases hok
  | false =>
    refine ⟨rfl, ?_⟩
    cases inner with
    | tar builder sink =>
      have hclose := close_ok pk h.1 h.2 polls
      simp only [Writer.finish, Bool.false_eq_true, if_false] at hok
      generalize Writer.close polls builder sink = p at hok hclose
      rcases p with ⟨res, builder', sink'⟩
      cases res with
      | cancelled => cases hok
      | done res =>
        cases res with
        | error e => cases hok
        | ok =>
          cases hok
          obtain ⟨⟨hholds, hbytes⟩, w, -, hdid⟩ := hclose rfl
          exact ⟨_, rfl, hholds, hbytes, w.inner, _, .snoc (.nil _) (Counted.did hdid).1, by simp⟩
    | tarZstd builder sink =>
      have hclose := close_ok pk h.1 h.2 polls
      simp only [Writer.finish, Bool.false_eq_true, if_false] at hok
      generalize Writer.close polls builder sink = p at hok hclose
      rcases p with ⟨res, builder', sink'⟩
      cases res with
      | cancelled => cases hok
      | done res =>
        cases res with
        | error e => cases hok
        | ok =>
          cases hok
          obtain ⟨⟨⟨hholds, hbytes⟩, hcontent⟩, z, -, hdid⟩ := hclose rfl
          obtain ⟨log, htrace, -, -, -, hframe⟩ := ZstdEncoder.did enc hdid
          obtain ⟨hframe, hlast⟩ := hframe rfl
          rw [hcontent] at hframe
          refine ⟨_, hframe, hholds, hbytes, z.inner.inner, log, ?_, hlast⟩
          exact Counted.trace htrace

/-- Where a run stands: the flag tells whether an append failed or was dropped, and without
that the writer holds a member for every append. -/
structure Writer.Standing (D : Drain IoError W) (format : Format) (evs : List (Await (Except Error Unit)))
    (ω : Writer B E W) : Prop where
  format_eq : ω.inner.format = format
  flag : ω.failed = false ↔ ∀ ev ∈ evs, ev = .done (.ok ())
  holds : ω.failed = false → ∃ ms : List Member, ms.length = evs.length ∧ ω.inner.Holds pk enc D (C.stream ms)

theorem standing_of_run {sink : W} (hsink : D.Holds sink []) {format : Format}
    {evs : List (Await (Except Error Unit))} {ω : Writer B E W} (hrun : Writer.Run (.new sink format) evs ω) :
    ω.Standing pk enc D format evs := by
  generalize hω₀ : (Writer.new sink format : Writer B E W) = ω₀ at hrun
  induction hrun with
  | start =>
    subst hω₀
    refine ⟨?_, ?_, fun _ => ⟨[], rfl, holds_new pk enc hsink format⟩⟩
    · cases format <;> rfl
    · simp [Writer.new]
  | @append ω evs h polls R _ entry ih =>
    obtain ⟨hformat, hflag⟩ : (ω.append polls entry).2.inner.format = _ ∧ _ := append_flag polls entry
    refine ⟨hformat.trans ih.format_eq, ?_, ?_⟩
    · rw [hflag]
      constructor
      · intro hok ev hev
        rcases List.mem_append.mp hev with hev | hev
        · refine ih.flag.mp ?_ ev hev
          cases hf : ω.failed with
          | false => rfl
          | true =>
            rw [append_failed hf] at hok
            cases hok
        · rw [List.mem_singleton.mp hev]
          exact hok
      · intro hall
        exact hall _ (List.mem_append_right _ (List.mem_singleton_self _))
    · intro hf
      have hok := hflag.mp hf
      have hlive : ω.failed = false := by
        cases hf : ω.failed with
        | false => rfl
        | true =>
          rw [append_failed hf] at hok
          cases hok
      obtain ⟨ms, hlen, hholds⟩ := ih.holds hlive
      obtain ⟨m, -, hholds'⟩ := append_ok pk enc hholds hok
      refine ⟨ms ++ [m], by simp [hlen], ?_⟩
      rw [Coding.stream, List.flatMap_append, List.flatMap_singleton]
      exact hholds'

include pk enc in
/-- After an append that failed or was dropped, the writer refuses, and writes nothing more.
The sink is handed back only when every append succeeded: it then holds all members and the
terminators, encoded whole for its format, was shut down last, and was counted byte for byte. -/
theorem writer_lifecycle {sink : W} {format : Format} {evs : List (Await (Except Error Unit))}
    {ω : Writer B E (Recorder IoError W)} (hrun : Writer.Run (.new (.new sink) format) evs ω) :
    ((∃ ev ∈ evs, ev ≠ .done (.ok ())) →
      (∀ polls (R : Type) [AsyncRead IoError R] (entry : WriteEntry R),
        ω.append polls entry = (.done (.error .aborted), ω)) ∧
      ∀ polls, ω.finish polls = (.done (.error .aborted), ω.inner)) ∧
    ∀ polls out, (ω.finish polls).1 = .done (.ok out) →
      (∀ ev ∈ evs, ev = .done (.ok ())) ∧
      (∃ ms : List Member, ms.length = evs.length ∧
        format.Encodes Frame (C.stream ms ++ terminators) (accepted out.sink.log)) ∧
      out.sink.log.getLast? = some (.shutdown (.ready (.ok ()))) ∧
      ((accepted out.sink.log).length < 2 ^ 64 → out.encodedBytes = (accepted out.sink.log).length) := by
  have hnew : Recorder.drain.Holds (Recorder.new sink : Recorder IoError W) [] := rfl
  have hstand := standing_of_run pk enc hnew hrun
  refine ⟨?_, ?_⟩
  · rintro ⟨ev, hev, hbad⟩
    have hf : ω.failed = true := by
      cases hf : ω.failed with
      | true => rfl
      | false => exact absurd (hstand.flag.mp hf ev hev) hbad
    refine ⟨fun polls R _ entry => append_failed hf polls entry, fun polls => ?_⟩
    simp [Writer.finish, hf]
  · intro polls out hok
    have hlive : ω.failed = false := by
      cases hf : ω.failed with
      | false => rfl
      | true =>
        simp only [Writer.finish, hf, if_true] at hok
        cases hok
    obtain ⟨ms, hlen, hholds⟩ := hstand.holds hlive
    obtain ⟨-, bytes, hencodes, hsink, hcount, w, log, htrace, hlast⟩ := finish_ok pk enc hholds hok
    rw [hstand.format_eq] at hencodes
    obtain rfl : accepted out.sink.log = bytes := hsink
    refine ⟨hstand.flag.mp hlive, ⟨ms, hlen, hencodes⟩, ?_, ?_⟩
    · rw [Recorder.log_of_trace htrace, List.getLast?_append, hlast]
      rfl
    · intro hlt
      rw [hcount, u64Max]
      omega

section Samples

/-- A directory to write. -/
def sampleDir : WriteEntry Empty :=
  ⟨⟨⟨[100], by decide⟩, ⟨493, 1000, 1000, 1700000000, .dir⟩, 0, none⟩, Or.inr ⟨by decide, rfl, rfl⟩⟩

/-- A writer into memory. -/
def sampleWriter : Writer Gnu.builder RawZstd.encoder (Recorder IoError (Memory IoError)) :=
  .new (.new ⟨[], 511⟩) .tar

/-- A sink handed back, by the bytes it has taken and those counted. -/
def counts (res : Await (Except Error (WriteOutput (Recorder IoError (Memory IoError))))) : Option (Nat × Nat) :=
  match res with
  | .done (.ok out) => some ((accepted out.sink.log).length, out.encodedBytes)
  | _ => none

/-- A cancelled append leaves nothing to finish; a whole one is counted to the byte. -/
theorem writer_lifecycle_sample :
    (∀ polls, ((sampleWriter.append 1 sampleDir).2.finish polls).1 = .done (.error .aborted)) ∧
      ∃ out, ((sampleWriter.append 9 sampleDir).2.finish 9).1 = .done (.ok out) ∧
        out.encodedBytes = (accepted out.sink.log).length := by
  constructor
  · intro polls
    have hrun := Writer.Run.append (.start sampleWriter) 1 sampleDir
    have hcancelled : (sampleWriter.append 1 sampleDir).1 = .cancelled := by decide +kernel
    obtain ⟨hrefused, -⟩ := writer_lifecycle Gnu.packs RawZstd.encodes hrun
    have hbad : ∃ ev ∈ [] ++ [(sampleWriter.append 1 sampleDir).1], ev ≠ .done (.ok ()) :=
      ⟨_, List.mem_cons_self, by rw [hcancelled]; simp⟩
    rw [(hrefused hbad).2 polls]
  · have hcounts : counts ((sampleWriter.append 9 sampleDir).2.finish 9).1 = some (1536, 1536) := by decide +kernel
    have hrun := Writer.Run.append (.start sampleWriter) 9 sampleDir
    obtain ⟨-, hfinished⟩ := writer_lifecycle Gnu.packs RawZstd.encodes hrun
    cases hres : ((sampleWriter.append 9 sampleDir).2.finish 9).1 with
    | cancelled =>
      rw [hres] at hcounts
      cases hcounts
    | done res =>
      cases res with
      | error e =>
        rw [hres] at hcounts
        cases hcounts
      | ok out =>
        rw [hres] at hcounts
        have hlen := congrArg Prod.fst (Option.some.inj hcounts)
        simp only at hlen
        exact ⟨out, rfl, (hfinished 9 out hres).2.2.2 (by rw [hlen]; decide)⟩

end Samples

end Etar
