import Etar.Cause

/-!
# The ratio and uncompressed archives

Over a source without the zstd magic every decoded byte was counted by the meter before: it
was pulled, sniffed, buffered and charged in this order. So the ratio bound, if it is at least
one, is never broken.
-/
namespace Etar

open AsyncIo Limit Compress Guard

section Pacing

variable {R : Type} [AsyncRead IoError R] (source : R)

/-- The meter has counted just the bytes it pulled from the source, at least `n` of them. -/
def Metered (n : Nat) (m : Meter R) : Prop :=
  ∃ pulled, Run pollRead Cap.anyPoll source pulled m.inner ∧ m.count = pulled.length ∧ n ≤ pulled.length

/-- The bytes charged, buffered and replayed were all counted. -/
def Paced (n : Nat) (b : Replay R) : Prop := Metered source (n + b.buffer.length + b.inner.held.length) b.inner.second

variable {source}

theorem Metered.mono {n k : Nat} {m : Meter R} (h : Metered source n m) (hle : k ≤ n) : Metered source k m := by
  obtain ⟨pulled, hrun, hcount, hn⟩ := h
  exact ⟨pulled, hrun, hcount, hle.trans hn⟩

theorem Metered.poll (hfew : Cap.Few source) {n : Nat} {m : Meter R} (h : Metered source n m) (b : ReadBuf) :
    Metered source (n + (b.added (pollRead m b).buf).length) (pollRead m b).reader := by
  obtain ⟨pulled, hrun, hcount, hn⟩ := h
  have hrun' := hrun.poll b trivial
  have hlt := hfew _ _ hrun'
  rw [List.length_append] at hlt
  refine ⟨_, hrun', ?_, ?_⟩
  · show (if 0 < (b.added (pollRead m.inner b).buf).length then
      wrappingAdd m.count (b.added (pollRead m.inner b).buf).length else m.count) = _
    rw [hcount, List.length_append]
    split_ifs with h0
    · exact wrappingAdd_of_lt hlt
    · omega
  · show n + (b.added (pollRead m.inner b).buf).length ≤ _
    rw [List.length_append]
    omega

theorem Metered.chain (hfew : Cap.Few source) {n : Nat} {c : Chain (Meter R)}
    (h : Metered source (n + c.held.length) c.second) (b : ReadBuf) :
    Metered source (n + (b.added (pollRead c b).buf).length + (pollRead c b).reader.held.length)
      (pollRead c b).reader.second := by
  show Metered source (n + (b.added (c.poll b).buf).length + (c.poll b).reader.held.length) (c.poll b).reader.second
  by_cases hc : c.doneFirst = false ∧ c.first.take b.remaining ≠ []
  · rw [Chain.poll, if_pos hc]
    refine h.mono (le_of_eq ?_)
    have hsplit := congrArg List.length (List.take_append_drop b.remaining c.first)
    rw [List.length_append] at hsplit
    simp only [ReadBuf.added_putSlice, Chain.held, hc.1, Bool.false_eq_true, if_false]
    omega
  · rw [Chain.poll, if_neg hc]
    refine (h.poll hfew b).mono ?_
    simp only [Chain.held, if_true, List.length_nil]
    omega

theorem Paced.poll (hfew : Cap.Few source) {n : Nat} {b : Replay R} (h : Paced source n b) (buf : ReadBuf) :
    Paced source (n + (buf.added (pollRead b buf).buf).length) (pollRead b buf).reader := by
  have hserve : ∀ {k : Nat} {b : Replay R}, Paced source k b →
      Paced source (k + (buf.added (BufReader.serve b buf : Polled IoError _).buf).length)
        (BufReader.serve b buf : Polled IoError _).reader := by
    intro k b h
    refine h.mono (le_of_eq ?_)
    have hsplit := congrArg List.length (List.take_append_drop buf.remaining b.buffer)
    rw [List.length_append] at hsplit
    simp only [BufReader.serve, ReadBuf.added_putSlice]
    omega
  have hchain : ∀ buf' : ReadBuf, b.buffer = [] →
      Metered source (n + (buf'.added (pollRead b.inner buf').buf).length + (pollRead b.inner buf').reader.held.length)
        (pollRead b.inner buf').reader.second := by
    intro buf' hnil
    refine Metered.chain hfew ?_ buf'
    have h' : Metered source (n + b.buffer.length + b.inner.held.length) b.inner.second := h
    rwa [hnil] at h'
  have hp := BufReader.polls b buf
  generalize pollRead b buf = p at hp
  cases hp with
  | served hne => exact hserve h
  | passed hnil =>
    refine (hchain buf hnil).mono (le_of_eq ?_)
    simp only [hnil, List.length_nil, Nat.add_zero]
  | filled hnil ho =>
    refine hserve ((hchain (.new bufCap) hnil).mono (le_of_eq ?_))
    rw [ReadBuf.added_new]
  | other hnil ho =>
    refine (hchain (.new bufCap) hnil).mono ?_
    simp only [hnil, List.length_nil, ReadBuf.added_self]
    omega

/-- What was handed out was counted. -/
theorem metered_of_handed (hfew : Cap.Few source) {bytes : List UInt8} {m : Meter R}
    (h : Handed (Meter.new source) bytes m) : Metered source bytes.length m := by
  induction h with
  | start => exact ⟨[], .start source, rfl, le_refl _⟩
  | idle h b hb ho ih => exact (ih.poll hfew b).mono (Nat.le_add_right _ _)
  | chunk h b hb ho ih =>
    rw [List.length_append]
    exact ih.poll hfew b

theorem handed_of_metered {bytes : List UInt8} {m : Meter R} (h : Handed (Meter.new source) bytes m) :
    Handed source bytes m.inner := by
  induction h with
  | start => exact .start source
  | @idle m bytes h b hb ho ih =>
    refine ih.idle b hb fun ho' => ho ?_
    rw [Meter.outcome_poll, ho']
  | chunk h b hb ho ih => exact ih.chunk b hb (Meter.inner_ok ho)

/-- What was peeked was handed out. -/
theorem peek_handed {S : Type} [AsyncRead IoError S] {start : S} (polls : Nat) {seen magic : List UInt8} {r r' : S}
    (h : Handed start seen r) (hp : peek polls seen r = (.done (.ok magic), r')) : Handed start magic r' := by
  induction polls generalizing seen r with
  | zero =>
    unfold peek at hp
    by_cases hseen : seen.length < peekLen
    · rw [if_pos hseen] at hp
      cases hp
    · rw [if_neg hseen] at hp
      cases hp
      exact h
  | succ polls ih =>
    unfold peek at hp
    by_cases hseen : seen.length < peekLen
    · rw [if_pos hseen] at hp
      have hroom : 0 < (ReadBuf.new (peekLen - seen.length)).remaining := by
        rw [ReadBuf.new_remaining]
        omega
      dsimp only at hp
      cases ho : (pollRead r (.new (peekLen - seen.length))).outcome with
      | pending =>
        rw [ho] at hp
        exact ih (h.idle _ hroom (by simp [ho])) hp
      | ready res =>
        rw [ho] at hp
        cases res with
        | error e => cases hp
        | ok =>
          have h' := h.chunk _ hroom ho
          rw [ReadBuf.added_new] at h'
          dsimp only at hp
          by_cases hnil : (pollRead r (.new (peekLen - seen.length))).buf.filled = []
          · rw [if_pos hnil] at hp
            cases hp
            rw [hnil, List.append_nil] at h'
            exact h'
          · rw [if_neg hnil] at hp
            exact ih h' hp
    · rw [if_neg hseen] at hp
      cases hp
      exact h

variable {dec : Decoder (Replay R)}

/-- A source without the magic is replayed as it is, with what was peeked counted. -/
theorem decoded_plain (hraw : ∀ bytes r, Handed source bytes r → ¬ zstdMagic <+: bytes) (hfew : Cap.Few source)
    {polls : Nat} {d : Decoded dec} (h : decoded dec polls (.new source) = .done (.ok d)) :
    ∃ b, d = .plain b ∧ Paced source 0 b := by
  unfold decoded at h
  cases hp : peek polls [] (Meter.new source) with
  | mk res m =>
    rw [hp] at h
    cases res with
    | cancelled => cases h
    | done res =>
      cases res with
      | error e => cases h
      | ok magic =>
        have hhanded := peek_handed polls (.start _) hp
        have hnot := hraw magic m.inner (handed_of_metered hhanded)
        cases h
        refine ⟨.new bufCap (.new magic m), if_neg hnot, ?_⟩
        have hmetered := metered_of_handed hfew hhanded
        refine hmetered.mono (le_of_eq ?_)
        simp [BufReader.new, Chain.new, Chain.held]

end Pacing

section Caps

variable {R : Type} [AsyncRead IoError R] (source : R) {dec : Decoder (Replay R)}

/-- A cap over an uncompressed source that has charged no more than was counted. -/
structure InPace (c : Cap (Decoded.count : Decoded dec → Nat)) : Prop where
  ratio : 1 ≤ c.maxRatio
  paced : ∃ b, c.inner = .plain b ∧ Paced source c.total b

variable {source}

theorem InPace.counted (hfew : Cap.Few source) {c : Cap (Decoded.count : Decoded dec → Nat)} (h : InPace source c) :
    c.total ≤ Decoded.count c.inner ∧ Decoded.count c.inner < 2 ^ 64 := by
  obtain ⟨b, hb, pulled, hrun, hcount, hle⟩ := h.paced
  have hlt := hfew _ _ hrun
  rw [hb]
  show c.total ≤ b.inner.second.count ∧ b.inner.second.count < 2 ^ 64
  omega

/-- A bound of at least one cannot be broken by fewer decoded bytes than encoded ones. -/
theorem breach_ratio {total compressed max ratio read : Nat} (hratio : 1 ≤ ratio) (hlt : compressed < 2 ^ 64)
    (hsum : total + read ≤ compressed) :
    (breach total compressed max ratio read).2 ≠ some "max_compression_ratio" := by
  have hle : compressed ≤ saturatingMul compressed ratio :=
    le_min (Nat.le_mul_of_pos_right _ hratio) (Nat.le_pred_of_lt hlt)
  have hnow : wrappingAdd total read = total + read := wrappingAdd_of_lt (hsum.trans_lt hlt)
  unfold breach
  dsimp only
  rw [hnow]
  split_ifs with htotal hbroken
  · simp
  · omega
  · simp

/-- An error that does not name the ratio. -/
def Harmless (e : IoError) : Prop := e.downcast ≠ some (.limitExceeded "max_compression_ratio")

theorem harmless_replay {b : Replay R} {buf : ReadBuf} {e : IoError} (ho : (pollRead b buf).outcome = .ready (.error e)) :
    Harmless e := by
  have h : ∀ e, (replayWatch (Watch.all : Watch IoError R)).Blamed (pollRead b buf).reader e → Harmless e := by
    rintro e ⟨fault, rfl, -⟩
    simp [Harmless, boxed]
  exact h e ((replayWatch Watch.all).fault trivial ho)

theorem InPace.poll (hfew : Cap.Few source) {c : Cap (Decoded.count : Decoded dec → Nat)} (h : InPace source c)
    (buf : ReadBuf) : InPace source (c.poll buf).reader ∧
      ∀ e, (c.poll buf).outcome = .ready (.error e) → Harmless e := by
  cases hf : c.failed with
  | true =>
    rw [Cap.poll_failed hf]
    refine ⟨h, ?_⟩
    rintro e ⟨⟩
    simp [Harmless, capError]
  | false =>
    obtain ⟨b, hb, hpaced⟩ := h.paced
    have hpoll := hpaced.poll hfew buf
    have hinner : pollRead c.inner buf = ⟨(pollRead b buf).outcome, (pollRead b buf).buf, .plain (pollRead b buf).reader⟩ := by
      rw [hb]
      rfl
    have hpace : ∀ total failed, total = c.total + (buf.added (pollRead b buf).buf).length →
        InPace source { c with inner := (.plain (pollRead b buf).reader : Decoded dec), total := total, failed := failed } := by
      rintro total failed rfl
      exact ⟨h.ratio, _, rfl, hpoll⟩
    obtain ⟨pulled, hrun, hcount, hle⟩ := hpoll
    have hlt := hfew _ _ hrun
    have hsum : c.total + (buf.added (pollRead b buf).buf).length ≤ (pollRead b buf).reader.inner.second.count := by omega
    have hsum' : c.total + (buf.added (pollRead b buf).buf).length < 2 ^ 64 := by omega
    rw [Cap.poll, if_neg (by simp [hf]), hinner]
    dsimp only
    by_cases hread : 0 < (buf.added (pollRead b buf).buf).length
    · rw [if_pos hread]
      have hcount' : (pollRead b buf).reader.inner.second.count < 2 ^ 64 := by omega
      have hnow : ∀ count, (breach c.total count c.max c.maxRatio (buf.added (pollRead b buf).buf).length).1 =
          c.total + (buf.added (pollRead b buf).buf).length := fun count => wrappingAdd_of_lt hsum'
      have hwhich : ∀ count which, (breach c.total count c.max c.maxRatio (buf.added (pollRead b buf).buf).length).2 =
          some which → which = "max_total_bytes" ∨ which = "max_compression_ratio" := by
        intro count which hw
        unfold breach at hw
        dsimp only at hw
        split_ifs at hw
        · exact Or.inl (Option.some.inj hw).symm
        · exact Or.inr (Option.some.inj hw).symm
      cases hbreach : (breach c.total (Decoded.count (.plain (pollRead b buf).reader : Decoded dec)) c.max c.maxRatio
          (buf.added (pollRead b buf).buf).length).2 with
      | some which =>
        refine ⟨hpace _ _ (hnow _), ?_⟩
        rintro e ⟨⟩
        have hne : which ≠ "max_compression_ratio" := by
          rintro rfl
          exact breach_ratio h.ratio hcount' hsum hbreach
        rcases hwhich _ _ hbreach with rfl | rfl
        · simp [Harmless, capError]
        · exact absurd rfl hne
      | none => exact ⟨hpace _ _ (hnow _), fun e ho => harmless_replay ho⟩
    · rw [if_neg hread]
      exact ⟨hpace _ _ (by omega), fun e ho => harmless_replay ho⟩

/-- No poll of the stack over an uncompressed source fails with the ratio. -/
theorem inPace_stack (hfew : Cap.Few source) (H : HeaderFields) (g : Source H (Decoded.count : Decoded dec → Nat))
    (out : ReadBuf) (h : InPace source g.inner) : InPace source (pollRead g out).reader.inner ∧
      ∀ e, (pollRead g out).outcome = .ready (.error e) → Harmless e := by
  let W : Watch IoError (Cap (Decoded.count : Decoded dec → Nat)) :=
    Watch.always (InPace source) Harmless (fun c buf hc => hc.poll hfew buf)
  have ha := W.asked (HeaderGuard.asked_poll g out) h
  have hown : ∀ e, (g.poll out).outcome = .ready (.error (.own e)) → Harmless (Fault.own e).toIo := by
    intro e ho
    rcases HeaderGuard.poll_own_error ho with rfl | rfl | rfl <;> simp [Harmless, Fault.toIo]
  simp only [pollRead]
  generalize g.poll out = p at ha hown
  rcases p with ⟨o, buf, g'⟩
  cases o with
  | pending => exact ⟨ha, by simp⟩
  | ready res =>
    cases res with
    | ok => exact ⟨ha, by rintro e ⟨⟩⟩
    | error f =>
      cases f with
      | inner e =>
        refine ⟨ha.1, ?_⟩
        rintro e' ⟨⟩
        exact ha.2
      | own e =>
        refine ⟨ha, ?_⟩
        rintro e' ⟨⟩
        exact hown e rfl

end Caps

section Reports

variable {T : Tar} {S : Type} [AsyncRead IoError S] {H : HeaderFields} {F : TarFormat H}

/-- The caller was told of the limit `which`. -/
def Event.Reports (which : String) : Event → Prop
  | next (.done (.error e)) => e = .limitExceeded which
  | read (.ready (.error e)) _ => e.downcast = some (.limitExceeded which)
  | _ => False

theorem report_harmless {e : IoError} (h : Harmless e) (total max : Nat) :
    readError e total max ≠ .limitExceeded "max_compression_ratio" := by
  unfold readError
  split
  · simp
  · split
    · rename_i which he
      rintro ⟨⟩
      exact h he
    · simp
    · simp
    · simp

theorem harmless_of_foreign {e : IoError} (h : e.downcast = none) : Harmless e := by
  rw [Harmless, h]
  simp

variable {W : Watch IoError S} [Counters S]

theorem harmless_traced (hW : ∀ s e, W.Blamed s e → Harmless e) {r : Reader T S} {e : Error} (h : Traced W r e) :
    e ≠ .limitExceeded "max_compression_ratio" := by
  rcases h with ⟨io, rfl, hblame | ⟨-, hio⟩⟩ | ⟨-, hr⟩
  · exact report_harmless (hW _ _ hblame) _ _
  · exact report_harmless (harmless_of_foreign hio) _ _
  · rintro rfl
    rcases hr with hr | hr | hr <;> simp at hr

omit [Counters S] in
/-- A body poll in whatever state, over a source that is watched throughout. -/
theorem body_always {Q : S → Prop} {E : IoError → Prop}
    (hQ : ∀ s b, Q s → Q (pollRead s b).reader ∧ ∀ e, (pollRead s b).outcome = .ready (.error e) → E e)
    (hcut : ∀ s e, T.bodyCut s = .error e → E e) {b : TarBody T S} (h : Q b.source) (buf : ReadBuf) :
    Q (b.poll T buf).reader.source ∧ ∀ e, (b.poll T buf).outcome = .ready (.error e) → E e := by
  unfold TarBody.poll
  cases T.bodyAsk b.parser buf.remaining with
  | none => exact ⟨h, fun e he => by cases he⟩
  | some n =>
    obtain ⟨hQ', hE⟩ := hQ b.source (buf.take n) h
    dsimp only
    cases ho : (pollRead b.source (buf.take n)).outcome with
    | pending => exact ⟨hQ', fun e he => by cases he⟩
    | ready res =>
      cases res with
      | ok =>
        refine ⟨hQ', fun e he => ?_⟩
        dsimp only at he
        split at he
        · exact hcut b.parser e (Poll.ready.inj he)
        · cases he
      | error e =>
        refine ⟨hQ', ?_⟩
        rintro e' ⟨⟩
        exact hE e ho

omit [Counters S] in
theorem pollBody_always {Q : S → Prop}
    (hQ : ∀ s b, Q s → Q (pollRead s b).reader ∧ ∀ e, (pollRead s b).outcome = .ready (.error e) → Harmless e)
    (hcut : ∀ s e, T.bodyCut s = .error e → Harmless e) {r : Reader T S} (h : Q r.source) (entry : ReadEntry) (buf : ReadBuf) :
    Q (r.pollBody entry buf).2.2.2.source ∧ ∀ e, (r.pollBody entry buf).1 = .ready (.error e) → Harmless e := by
  have hb := body_always (T := T) (Q := Q) (E := Harmless) hQ hcut (b := ⟨r.parser, r.source⟩) h buf
  have hbounded : Q (pollRead (r.body entry) buf).reader.inner.source ∧
      ∀ e, (pollRead (r.body entry) buf).outcome = .ready (.error e) → Harmless e := by
    show Q (Bounded.poll (r.body entry) buf).reader.inner.source ∧
      ∀ e, (Bounded.poll (r.body entry) buf).outcome = .ready (.error e) → Harmless e
    unfold Bounded.poll
    split
    · refine ⟨h, ?_⟩
      rintro e ⟨⟩
      simp [Harmless, capError]
    · dsimp only
      split
      · refine ⟨hb.1, ?_⟩
        rintro e ⟨⟩
        simp [Harmless, capError]
      · exact hb
  unfold Reader.pollBody
  dsimp only
  refine ⟨?_, hbounded.2⟩
  cases (pollRead (r.body entry) buf).outcome with
  | pending => exact hbounded.1
  | ready res => cases res <;> exact hbounded.1

variable {Q : S → Prop}
  (hQ : ∀ s b, Q s → Q (pollRead s b).reader ∧ ∀ e, (pollRead s b).outcome = .ready (.error e) → Harmless e)

include hQ

/-- Over a source whose errors never name the ratio no step of a session does. -/
theorem silent_of_run {fr : T.Frames F} (hon : fr.Honest) {room : ReadBuf → Prop} {source : S} {limits : SecurityLimits}
    {r : Reader T S} (hsource : Q source) (hstart : Reader.start T source limits = .ok r) {evs : List Event}
    {σ : Session T S} (hrun : Session.Run H room ⟨r, none⟩ evs σ) :
    (∀ ev ∈ evs, ¬ ev.Reports "max_compression_ratio") ∧ ∀ entry, σ.entry = some entry → Q σ.reader.source := by
  have hW : ∀ s e, (Watch.always Q Harmless hQ).Blamed s e → Harmless e := fun s e h => h.2
  induction hrun with
  | start => exact ⟨by simp, by simp⟩
  | @step evs σ σ' ev hrun hs ih =>
    obtain ⟨hsilent, hlent⟩ := ih
    have hsnoc : ¬ ev.Reports "max_compression_ratio" → ∀ ev' ∈ evs ++ [ev], ¬ ev'.Reports "max_compression_ratio" := by
      intro hev ev' hmem
      rcases List.mem_append.mp hmem with hmem | hmem
      · exact hsilent ev' hmem
      · rw [List.mem_singleton.mp hmem]
        exact hev
    cases hs with
    | next r' polls =>
      rcases Reader.nextEntry_cases (H := H) r' polls with ⟨-, he⟩ | ⟨-, -, he⟩ | ⟨hf, hd, -⟩
      · rw [he] at hsnoc ⊢
        exact ⟨hsnoc (by simp [Event.Reports]), fun entry he => by cases he⟩
      · rw [he] at hsnoc ⊢
        exact ⟨hsnoc (by simp [Event.Reports]), fun entry he => by cases he⟩
      · have hlife := Lifecycle.of_run hstart hrun
        have hgood : ∀ ev ∈ evs, ¬ ev.Bad := by
          intro ev hev hbad
          have hf' : r'.bodyFailed = true := hlife.poisoned.mpr ⟨ev, hev, hbad⟩
          exact absurd (hf.symm.trans hf') (by simp)
        have hun : Unbroken fr (Watch.always Q Harmless hQ) ⟨r', none⟩ :=
          unbroken_of_run hon hsource hstart hrun hgood
        obtain ⟨ha, hes⟩ := hlife.live hf hd
        have hc := nextEntry_watch (H := H) hon polls hf hd ha hes (hun.steady hd)
        generalize r'.nextEntry H polls = p at hc hsnoc
        rcases p with ⟨res, r₂⟩
        cases res with
        | cancelled => exact ⟨hsnoc id, fun entry he => by cases he⟩
        | done res =>
          cases res with
          | error e => exact ⟨hsnoc (harmless_traced hW hc), fun entry he => by cases he⟩
          | ok o =>
            cases o with
            | none => exact ⟨hsnoc id, fun entry he => by cases he⟩
            | some entry => exact ⟨hsnoc id, fun _ _ => hc.1.source⟩
    | read r' entry buf hb =>
      have hcut : ∀ s e, T.bodyCut s = .error e → Harmless e := fun s e h => harmless_of_foreign (hon.cut h)
      obtain ⟨hsource', hE⟩ := pollBody_always hQ hcut (r := r') (hlent entry rfl) entry buf
      refine ⟨hsnoc ?_, fun _ _ => hsource'⟩
      cases ho : (r'.pollBody entry buf).1 with
      | pending => exact id
      | ready res =>
        cases res with
        | ok => exact id
        | error e => exact hE e ho
    | drop r' entry => exact ⟨hsnoc id, fun entry he => by cases he⟩

/-- Nor does a validation. -/
theorem silent_of_validating {fr : T.Frames F} (hon : fr.Honest) {source : S} {limits : SecurityLimits} {r : Reader T S}
    (hsource : Q source) (hstart : Reader.start T source limits = .ok r) (polls : Nat) :
    r.validateFrom H polls 0 ≠ .done (.error (.limitExceeded "max_compression_ratio")) := by
  intro herr
  have hW : ∀ s e, (Watch.always Q Harmless hQ).Blamed s e → Harmless e := fun s e h => h.2
  rw [Reader.validating_eq H polls 0 0] at herr
  obtain ⟨hfail, -⟩ := failed_of_validating (W := Watch.always Q Harmless hQ) hon hsource hstart herr
  rcases hfail with ⟨-, htraced⟩ | ⟨entry, io, -, he, ⟨hfrom, -⟩ | ⟨-, -, rfl⟩⟩
  · exact harmless_traced hW htraced rfl
  · exact harmless_traced hW (Or.inl ⟨io, he, hfrom⟩) rfl
  · exact report_harmless (by simp [Harmless, capError]) _ _ he.symm

end Reports

section Raw

variable {T : Tar} {H : HeaderFields} {F : TarFormat H} {R : Type} [AsyncRead IoError R]

/-- The cap over a source without the zstd magic is in pace when it is made. -/
theorem in_pace_new {dec : Decoder (Replay R)} {source : R} (hraw : ∀ bytes r, Handed source bytes r → ¬ zstdMagic <+: bytes)
    (hfew : Cap.Few source) {limits : SecurityLimits} (hratio : 1 ≤ limits.maxCompressionRatio.toNat) {polls : Nat}
    {d : Decoded dec} (hd : decoded dec polls (.new source) = .done (.ok d)) :
    InPace source (Cap.new d limits.maxTotalBytes.toNat limits.maxCompressionRatio.toNat) := by
  obtain ⟨b, hb, hpaced⟩ := decoded_plain hraw hfew hd
  exact ⟨hratio, b, hb, hpaced⟩

/-- So is the cap below a reader that was opened. -/
theorem in_pace_open {dec : Decoder (Replay R)} {source : R} (hraw : ∀ bytes r, Handed source bytes r → ¬ zstdMagic <+: bytes)
    (hfew : Cap.Few source) {limits : SecurityLimits} (hratio : 1 ≤ limits.maxCompressionRatio.toNat) {polls : Nat}
    {r : Reader T (Source H (Decoded.count : Decoded dec → Nat))}
    (hr : Reader.open T dec polls source limits = .done (.ok r)) :
    Reader.start T r.source limits = .ok r ∧ InPace source r.source.inner := by
  unfold Reader.open at hr
  cases hd : decoded dec polls (Meter.new source) with
  | cancelled =>
    rw [hd] at hr
    cases hr
  | done res =>
    rw [hd] at hr
    cases res with
    | error e => cases hr
    | ok d =>
      simp only [Await.done.injEq] at hr
      obtain ⟨parser, hstart⟩ := Reader.start_ok hr
      have hsource : r.source = stack d limits := by rw [hstart]
      rw [hsource]
      exact ⟨hr, in_pace_new hraw hfew hratio hd⟩

/-- Over any source without the zstd magic and any ratio of at least one: whatever polls the cap
is given, it has charged no more bytes than were counted and does not break the ratio; no
step of any session reports the ratio, and neither does a validation. -/
theorem raw_archives_keep_the_ratio {fr : T.Frames F} (hon : fr.Honest) (dec : Decoder (Replay R)) {source : R}
    (hraw : ∀ bytes r, Handed source bytes r → ¬ zstdMagic <+: bytes) (hfew : Cap.Few source) {limits : SecurityLimits}
    (hratio : 1 ≤ limits.maxCompressionRatio.toNat) (polls : Nat) :
    (∀ d : Decoded dec, decoded dec polls (.new source) = .done (.ok d) →
      ∀ bytes (c : Cap (Decoded.count : Decoded dec → Nat)), Run Cap.poll Cap.anyPoll
        (Cap.new d limits.maxTotalBytes.toNat limits.maxCompressionRatio.toNat) bytes c →
      c.total ≤ Decoded.count c.inner ∧ Decoded.count c.inner < 2 ^ 64 ∧
        ∀ buf, (c.poll buf).outcome ≠ .ready (.error (capError "max_compression_ratio"))) ∧
    (∀ (r : Reader T (Source H (Decoded.count : Decoded dec → Nat))) (room : ReadBuf → Prop) (evs : List Event)
      (σ : Session T _), Reader.open T dec polls source limits = .done (.ok r) →
      Session.Run H room ⟨r, none⟩ evs σ → ∀ ev ∈ evs, ¬ ev.Reports "max_compression_ratio") ∧
    Reader.validate H T dec polls source limits ≠ .done (.error (.limitExceeded "max_compression_ratio")) := by
  refine ⟨?_, ?_, ?_⟩
  · intro d hd bytes c hrun
    have hin : InPace source c := by
      have h : ∀ bytes c, Run Cap.poll Cap.anyPoll
          (Cap.new d limits.maxTotalBytes.toNat limits.maxCompressionRatio.toNat) bytes c → InPace source c := by
        intro bytes c hrun
        induction hrun with
        | start => exact in_pace_new hraw hfew hratio hd
        | poll b h ho ih => exact (ih.poll hfew b).1
      exact h bytes c hrun
    obtain ⟨hle, hlt⟩ := hin.counted hfew
    refine ⟨hle, hlt, fun buf ho => ?_⟩
    exact (hin.poll hfew buf).2 _ ho rfl
  · intro r room evs σ hr hrun
    obtain ⟨hstart, hin⟩ := in_pace_open hraw hfew hratio hr
    exact (silent_of_run (Q := fun g => InPace source g.inner) (inPace_stack hfew H) hon hin hstart hrun).1
  · intro herr
    unfold Reader.validate at herr
    cases hr : Reader.open (H := H) T dec polls source limits with
    | cancelled =>
      rw [hr] at herr
      cases herr
    | done res =>
      rw [hr] at herr
      cases res with
      | error e =>
        obtain rfl : e = .limitExceeded "max_compression_ratio" := by simpa using herr
        unfold Reader.open at hr
        cases hd : decoded dec polls (Meter.new source) with
        | cancelled =>
          rw [hd] at hr
          cases hr
        | done res =>
          rw [hd] at hr
          cases res with
          | error io => simp at hr
          | ok d =>
            simp only [Await.done.injEq, Reader.over, Reader.start] at hr
            split at hr <;> simp at hr
      | ok r =>
        obtain ⟨hstart, hin⟩ := in_pace_open hraw hfew hratio hr
        exact silent_of_validating (Q := fun g => InPace source g.inner) (inPace_stack hfew H) hon hin hstart polls herr

/-- A scripted source hands out what it owes at most. -/
theorem few_script {s : Script IoError} (h : s.rest.length < 2 ^ 64) : Cap.Few s := by
  intro bytes r hrun
  have hlen := congrArg List.length (Script.rest_eq_of_run hrun)
  rw [List.length_append] at hlen
  omega

/-- An archive of a single directory, in three pieces and under a ratio of one: it is validated,
and no session over it is told of the ratio. -/
theorem raw_archives_keep_the_ratio_sample :
    let source : Script IoError := ⟨Gnu.plain, [.give 3, .late, .give 600]⟩
    let limits := SecurityLimits.default.withMaxCompressionRatio 1
    Reader.validate gnuFields Gnu.tar (RawZstd.decoder _) 80 source limits = .done (.ok ⟨1, 1536, 1536⟩) ∧
      ∃ r, Reader.open (H := gnuFields) Gnu.tar (RawZstd.decoder _) 80 source limits = .done (.ok r) ∧
        ∀ evs σ, Session.Run gnuFields (fun _ => True) ⟨r, none⟩ evs σ →
          ∀ ev ∈ evs, ¬ ev.Reports "max_compression_ratio" := by
  intro source limits
  have hreport : Reader.validate gnuFields Gnu.tar (RawZstd.decoder _) 80 source limits = .done (.ok ⟨1, 1536, 1536⟩) := by
    decide +kernel
  refine ⟨hreport, ?_⟩
  obtain ⟨r, hr⟩ : ∃ r, Reader.open (H := gnuFields) Gnu.tar (RawZstd.decoder _) 80 source limits = .done (.ok r) := by
    unfold Reader.validate at hreport
    split at hreport
    · cases hreport
    · cases hreport
    · rename_i r hr
      exact ⟨r, hr⟩
  refine ⟨r, hr, fun evs σ hrun => ?_⟩
  have hrest : ∀ bytes r, Handed source bytes r → Gnu.plain = bytes ++ r.rest := by
    intro bytes r h
    obtain ⟨s', hs, hr, -⟩ := Script.feed.handed h (show Script.feed.Owes _ Gnu.plain none from ⟨rfl, rfl⟩)
    rw [hs, hr]
  have hlen : source.rest.length < 2 ^ 64 := by decide +kernel
  refine (raw_archives_keep_the_ratio Gnu.honest (RawZstd.decoder _) ?_ (few_script hlen) (by decide) 80).2.1 r _ evs σ
    hr hrun
  intro bytes r h hmagic
  obtain ⟨rest, rfl⟩ := hmagic
  have hhead : some (100 : UInt8) = some 40 := congrArg List.head? (hrest _ r h)
  cases hhead

end Raw

end Etar
