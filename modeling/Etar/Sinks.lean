import Etar.Writer

/-!
# The sinks under the writer

The counter takes what its sink takes and counts it. What is assumed of the zstd encoder is
in `Encoder.Encodes`: it puts the encoding of what it has taken into its sink, ends the frame
when it is shut down, and is late or fails only when its sink is or does.
-/
namespace Etar

open AsyncIo

namespace Counted

variable {W : Type} [AsyncWrite IoError W]

/-- A call on the counter is one call on its sink, and counts what that takes. -/
theorem did {c c' : Counted W} {call : Call IoError} (h : Did c call c') :
    Did c.inner call c'.inner ∧
      (c.bytes ≤ u64Max → c'.bytes = saturatingAdd c.bytes call.accepted.length) := by
  have hnone : c.bytes ≤ u64Max → c.bytes = saturatingAdd c.bytes 0 := fun h => (Nat.min_eq_left h).symm
  cases h with
  | write bytes =>
    have hdid := Did.write c.inner bytes
    have hle := AsyncWrite.accepts c.inner bytes
    simp only [pollWrite]
    generalize AsyncWrite.pollWrite c.inner bytes = p at hdid hle
    rcases p with ⟨o, w⟩
    cases o with
    | pending => exact ⟨hdid, hnone⟩
    | ready res =>
      cases res with
      | error e => exact ⟨hdid, hnone⟩
      | ok n =>
        refine ⟨hdid, fun _ => ?_⟩
        rw [Call.accepted_write, taken_ok, List.length_take, Nat.min_eq_left (hle n rfl)]
  | flush => exact ⟨.flush c.inner, hnone⟩
  | shutdown => exact ⟨.shutdown c.inner, hnone⟩

theorem trace {c c' : Counted W} {log : List (Call IoError)} (h : Trace c log c') : Trace c.inner log c'.inner := by
  induction h with
  | nil => exact .nil _
  | snoc h hc ih => exact ih.snoc (did hc).1

variable (D : Drain IoError W)

/-- The counter over a drain: it holds what the drain holds, and has counted that. -/
def drain : Drain IoError (Counted W) where
  Holds c s := D.Holds c.inner s ∧ c.bytes = min s.length u64Max
  took h hc := by
    obtain ⟨hin, hbytes⟩ := did h
    refine ⟨D.took hin hc.1, ?_⟩
    rw [hbytes (by rw [hc.2]; exact Nat.min_le_right _ _), hc.2, List.length_append, saturatingAdd]
    omega

variable {D}

def fair (P : D.Fair) : (drain D).Fair where
  delay c := P.delay c.inner
  late h hc := P.late (did h).1 hc.1
  kept h hc := P.kept (did h).1 hc.1

theorem faultless (hD : D.Faultless) : (drain D).Faultless :=
  ⟨fun h hc => hD.sound (did h).1 hc.1⟩

end Counted

/-- A late or failing answer of a writer comes from its sink: so did one of its calls. -/
def Blames (log : List (Call IoError)) (call : Call IoError) : Prop :=
  (call.Late → ∃ c ∈ log, c.Late) ∧ (call.Faulty → ∃ c ∈ log, c.Faulty)

/-- What is assumed of the encoder; `Frame s z` says that `z` is a whole encoding of `s`. -/
structure Encoder.Encodes (E : Encoder) (Frame : List UInt8 → List UInt8 → Prop) where
  content : E.State → List UInt8
  encoded : E.State → List UInt8
  opens : content E.new = [] ∧ encoded E.new = []
  write : ∀ s bytes, (E.write s bytes).Every (fun log p => Blames log (.write bytes p.1) ∧
    encoded p.2 = encoded s ++ accepted log ∧ content p.2 = content s ++ taken bytes p.1) []
  flush : ∀ s, (E.flush s).Every (fun log p => Blames log (.flush p.1) ∧
    encoded p.2 = encoded s ++ accepted log ∧ content p.2 = content s) []
  shutdown : ∀ s, (E.shutdown s).Every (fun log p => Blames log (.shutdown p.1) ∧
    encoded p.2 = encoded s ++ accepted log ∧ content p.2 = content s ∧
    (p.1 = .ready (.ok ()) → Frame (content p.2) (encoded p.2) ∧
      log.getLast? = some (.shutdown (.ready (.ok ()))))) []

namespace ZstdEncoder

variable {E : Encoder} {Frame : List UInt8 → List UInt8 → Prop} (enc : E.Encodes Frame)
variable {W : Type} [AsyncWrite IoError W]

/-- A call on the encoder is a sequence of calls on its sink. -/
theorem did {z z' : ZstdEncoder E W} {call : Call IoError} (h : Did z call z') :
    ∃ log, Trace z.inner log z'.inner ∧ Blames log call ∧
      enc.encoded z'.state = enc.encoded z.state ++ accepted log ∧
      enc.content z'.state = enc.content z.state ++ call.accepted ∧
      (call = .shutdown (.ready (.ok ())) → Frame (enc.content z'.state) (enc.encoded z'.state) ∧
        log.getLast? = some (.shutdown (.ready (.ok ())))) := by
  cases h with
  | write bytes =>
    obtain ⟨log, htrace, hblames, hencoded, hcontent⟩ := (enc.write z.state bytes).run (.nil z.inner)
    exact ⟨log, htrace, hblames, hencoded, hcontent, fun h => by cases h⟩
  | flush =>
    obtain ⟨log, htrace, hblames, hencoded, hcontent⟩ := (enc.flush z.state).run (.nil z.inner)
    exact ⟨log, htrace, hblames, hencoded, by rw [Call.accepted_flush, List.append_nil]; exact hcontent,
      fun h => by cases h⟩
  | shutdown =>
    obtain ⟨log, htrace, hblames, hencoded, hcontent, hframe⟩ := (enc.shutdown z.state).run (.nil z.inner)
    exact ⟨log, htrace, hblames, hencoded, by rw [Call.accepted_shutdown, List.append_nil]; exact hcontent,
      fun h => hframe (Call.shutdown.inj h)⟩

variable (D : Drain IoError W)

/-- The encoder over a drain: it has taken the content of what the drain holds. -/
def drain : Drain IoError (ZstdEncoder E W) where
  Holds z s := D.Holds z.inner (enc.encoded z.state) ∧ enc.content z.state = s
  took h hz := by
    obtain ⟨log, htrace, -, hencoded, hcontent, -⟩ := did enc h
    rw [hencoded, hcontent, hz.2]
    exact ⟨D.trace htrace hz.1, rfl⟩

variable {D}

def fair (P : D.Fair) : (drain enc D).Fair where
  delay z := P.delay z.inner
  late h hz hlate := by
    obtain ⟨log, htrace, hblames, -⟩ := did enc h
    exact (P.trace htrace hz.1).2 (hblames.1 hlate)
  kept h hz := by
    obtain ⟨log, htrace, -⟩ := did enc h
    exact (P.trace htrace hz.1).1

theorem faultless (hD : D.Faultless) : (drain enc D).Faultless := by
  constructor
  intro z z' call s h hz hfaulty
  obtain ⟨log, htrace, hblames, -⟩ := did enc h
  obtain ⟨c, hc, hbad⟩ := hblames.2 hfaulty
  exact hD.trace htrace hz.1 c hc hbad

end ZstdEncoder

end Etar
