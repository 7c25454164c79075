import Etar.PullSpec
import Etar.ReaderRun

/-!
# One call of the reader over a feed

What `nextEntry` and a body poll answer when the source owes `s`, and where they leave the
reader. Runs of sessions keep `Stands`.
-/
namespace Etar

open AsyncIo Limit

variable {T : Tar} {S : Type} [AsyncRead IoError S] [Counters S] {H : HeaderFields} {F : TarFormat H}
variable (fr : T.Frames F) (G : Feed IoError S) (stop : Option IoError) (I : Phase F.Ext → List UInt8 → Prop)

/-- What draining the source may answer, and the source it leaves. -/
def DrainAnswer (polls trailing : Nat) (r : Reader T S) (s : List UInt8)
    (p : Await (Except Error Unit) × Reader T S) : Prop :=
  match p.1 with
  | .cancelled => ∀ P : G.Fair, polls ≤ P.delay r.source + s.length
  | .done (.ok ()) => stop = none ∧ (∀ b ∈ s, b = 0) ∧ 512 ≤ trailing + s.length ∧ SourceEnd G p.2.source
  | .done (.error e) =>
    (e = .malformed ∧ (∃ s', G.Owes p.2.source s' stop) ∧
      ((∃ b ∈ s, b ≠ 0) ∨ stop = none ∧ (∀ b ∈ s, b = 0) ∧ trailing + s.length < 512)) ∨
    ∃ io z s', s = z ++ s' ∧ (∀ b ∈ z, b = 0) ∧ e = p.2.report io ∧ SourceFault G stop 8192 s' io p.2.source

variable {G stop}

theorem drain_answer (polls trailing : Nat) (r : Reader T S) {s : List UInt8} (howes : G.Owes r.source s stop) :
    DrainAnswer G stop polls trailing r s (r.drain polls trailing) := by
  have hmax : usizeMax = 18446744073709551615 := rfl
  induction polls generalizing trailing r s with
  | zero => exact fun P => Nat.zero_le _
  | succ polls ih =>
    have hb : 0 < (ReadBuf.new 8192).remaining := by decide
    unfold Reader.drain
    dsimp only
    cases ho : (pollRead r.source (.new 8192)).outcome with
    | pending =>
      obtain ⟨-, howes'⟩ := G.pending howes hb ho
      have h := ih trailing { r with source := (pollRead r.source (.new 8192)).reader } howes'
      dsimp only
      generalize Reader.drain polls trailing { r with source := (pollRead r.source (.new 8192)).reader } = p at h
      obtain ⟨res, r'⟩ := p
      cases res with
      | cancelled =>
        intro P
        have hpolls : polls ≤ P.delay (pollRead r.source (.new 8192)).reader + s.length := h P
        have := P.pending howes hb ho
        omega
      | done res => cases res <;> exact h
    | ready res =>
      cases res with
      | error e => exact Or.inr ⟨e, [], s, rfl, by simp, rfl, r.source, _, howes, hb, le_refl _, ho, rfl⟩
      | ok =>
        obtain ⟨s', hs, howes', hend⟩ := G.chunk howes hb ho
        rw [ReadBuf.added_new] at hs hend
        dsimp only
        split_ifs with hnil hshort hnz
        · obtain ⟨hs', hstop⟩ := hend hnil
          rw [hnil, hs'] at hs
          subst hs
          exact Or.inl ⟨rfl, ⟨s', howes'⟩, Or.inr ⟨hstop, by simp, hshort⟩⟩
        · obtain ⟨hs', hstop⟩ := hend hnil
          rw [hnil, hs'] at hs
          subst hs
          rw [hstop] at howes
          exact ⟨hstop, by simp, Nat.not_lt.mp hshort, r.source, _, howes, hb, ho, hnil, rfl⟩
        · refine Or.inl ⟨rfl, ⟨s', howes'⟩, Or.inl ?_⟩
          obtain ⟨b, hmem, hne⟩ := List.any_eq_true.mp hnz
          exact ⟨b, by rw [hs]; exact List.mem_append_left _ hmem, by simpa using hne⟩
        · have hzero : ∀ b ∈ (pollRead r.source (.new 8192)).buf.filled, b = 0 := by
            intro b hmem
            by_contra hne
            exact hnz (List.any_eq_true.mpr ⟨b, hmem, by simpa using hne⟩)
          have hpos := List.length_pos_iff.mpr hnil
          have h := ih (min (trailing + (pollRead r.source (.new 8192)).buf.filled.length) usizeMax)
            { r with source := (pollRead r.source (.new 8192)).reader } howes'
          have hlen := congrArg List.length hs
          rw [List.length_append] at hlen
          generalize Reader.drain polls (min (trailing + (pollRead r.source (.new 8192)).buf.filled.length)
              usizeMax) { r with source := (pollRead r.source (.new 8192)).reader } = p at h
          obtain ⟨res, r'⟩ := p
          cases res with
          | cancelled =>
            intro P
            have hpolls : polls ≤ P.delay (pollRead r.source (.new 8192)).reader + s'.length := h P
            have := P.chunk howes hb ho
            omega
          | done res =>
            cases res with
            | ok =>
              obtain ⟨hstop, hz, hl, hend⟩ := h
              refine ⟨hstop, ?_, by omega, hend⟩
              rw [hs]
              exact List.forall_mem_append.mpr ⟨hzero, hz⟩
            | error e =>
              rcases h with ⟨he, hleft, ⟨b, hm, hne⟩ | ⟨hstop, hz, hshort⟩⟩ | ⟨io, z, s'', hs', hz, hfault⟩
              · exact Or.inl ⟨he, hleft, Or.inl ⟨b, by rw [hs]; exact List.mem_append_right _ hm, hne⟩⟩
              · refine Or.inl ⟨he, hleft, Or.inr ⟨hstop, ?_, by omega⟩⟩
                rw [hs]
                exact List.forall_mem_append.mpr ⟨hzero, hz⟩
              · refine Or.inr ⟨io, _ ++ z, s'', ?_, List.forall_mem_append.mpr ⟨hzero, hz⟩, hfault⟩
                rw [hs, hs', List.append_assoc]

variable (G stop)

/-- Where a live reader stands: its source owes `s`. -/
structure Stands (r : Reader T S) (s : List UInt8) : Prop where
  failed : r.bodyFailed = false
  done : r.done = false
  archive : r.archive.isSome
  entries : r.entries.isSome
  good : (fr.phase r.parser).Good F
  owes : G.Owes r.source s stop
  kept : I (fr.phase r.parser) s

variable {G stop I} in
omit [Counters S] in
/-- A fresh reader is at the start of its stream. -/
theorem stands_start {source : S} {s : List UInt8} {limits : SecurityLimits} {r : Reader T S}
    (howes : G.Owes source s stop) (hstart : Reader.start T source limits = .ok r) (hI : I (.header F.start []) s) :
    Stands fr G stop I r s ∧ r.seen = 0 ∧ r.limits = limits := by
  obtain ⟨parser, hp, hφ⟩ := fr.opens
  simp only [Reader.start, hp] at hstart
  cases hstart
  refine ⟨⟨rfl, rfl, rfl, rfl, ?_, howes, ?_⟩, rfl, rfl⟩
  · rw [hφ]
    simp [Phase.Good]
  · rw [hφ]
    exact hI

/-- What a call on a live reader may answer. -/
def NextAnswer (polls : Nat) (r : Reader T S) (s : List UInt8)
    (p : Await (Except Error (Option ReadEntry)) × Reader T S) : Prop :=
  match p.1 with
  | .cancelled => ∀ P : G.Fair, polls ≤ P.delay r.source + s.length + 1
  | .done (.ok (some e)) => ∃ entry len s', openEntry H entry () r.limits = .ok e ∧
      r.seen + 1 ≤ r.limits.maxEntries.toNat ∧ I (.yielding entry len) s' ∧
      p.2 = { r with parser := p.2.parser, source := p.2.source, seen := r.seen + 1 } ∧
      fr.phase p.2.parser = .after F len ∧ G.Owes p.2.source s' stop ∧
      ∀ P : G.Fair, P.delay p.2.source + s'.length ≤ P.delay r.source + s.length
  | .done (.ok none) => ∃ s', I .ended s' ∧ stop = none ∧ (∀ b ∈ s', b = 0) ∧ 512 ≤ s'.length ∧
      SourceEnd G p.2.source
  | .done (.error e) =>
      (∃ io, e = p.2.report io ∧ Blame fr G stop I io p.2.source) ∨
      (∃ io z s', e = p.2.report io ∧ SourceFault G stop 8192 s' io p.2.source ∧ (∀ b ∈ z, b = 0) ∧
        (I .ended (z ++ s') ∨ stop = none)) ∨
      (∃ entry len s', I (.yielding entry len) s' ∧ G.Owes p.2.source s' stop ∧
        if r.limits.maxEntries.toNat < r.seen + 1 then e = .limitExceeded "max_entries"
        else openEntry H entry () r.limits = .error e) ∨
      (∃ r' s', G.Owes r' s' stop ∧ I .ended s' ∧ e = .malformed ∧ (∃ s₂, G.Owes p.2.source s₂ stop) ∧
        ((∃ b ∈ s', b ≠ 0) ∨ stop = none ∧ (∀ b ∈ s', b = 0) ∧ s'.length < 512)) ∨
      (stop = none ∧ e = .malformed ∧ (∃ s₂, G.Owes p.2.source s₂ stop) ∧ ∃ x, I (.header x []) [])

variable {G stop I}

omit [Counters S] in
/-- A reader that has handed out an entry stands behind its header. -/
theorem Stands.entered {J : Phase F.Ext → List UInt8 → Prop} {r r' : Reader T S} {s s' : List UInt8} {len : Nat}
    (h : Stands fr G stop I r s) (hr : r' = { r with parser := r'.parser, source := r'.source, seen := r.seen + 1 })
    (hφ : fr.phase r'.parser = .after F len) (howes : G.Owes r'.source s' stop) (hJ : J (.after F len) s') :
    Stands fr G stop J r' s' := by
  refine ⟨(congrArg Reader.bodyFailed hr).trans h.failed, (congrArg Reader.done hr).trans h.done, ?_, ?_, ?_,
    howes, ?_⟩
  · rw [congrArg Reader.archive hr]
    exact h.archive
  · rw [congrArg Reader.entries hr]
    exact h.entries
  · rw [hφ]
    exact Phase.good_after F len
  · rw [hφ]
    exact hJ

omit [Counters S] in
/-- One poll of a lent body is one poll of the parser's, less what goes over the limit. -/
theorem body_poll {r : Reader T S} {entry : ReadEntry} (hf : entry.body.failed = false) (buf : ReadBuf) :
    pollRead (r.body entry) buf =
      let q := pollRead (⟨r.parser, r.source⟩ : TarBody T S) buf
      if entry.body.remaining < (buf.added q.buf).length then
        ⟨.ready (.error (capError "max_entry_bytes")), q.buf.setFilled buf.filled.length,
          ⟨q.reader, entry.body.remaining, true⟩⟩
      else ⟨q.outcome, q.buf, ⟨q.reader, entry.body.remaining - (buf.added q.buf).length, false⟩⟩ := by
  show Bounded.poll (r.body entry) buf = _
  unfold Bounded.poll Reader.body
  rw [if_neg (by simp [hf])]
  simp only [hf]

theorem next_answer (hkept : Kept I) (polls : Nat) {r : Reader T S} {s : List UInt8}
    (h : Stands fr G stop I r s) : NextAnswer fr G stop I polls r s (r.nextEntry H polls) := by
  obtain ⟨handle, he⟩ := Option.isSome_iff_exists.mp h.entries
  rw [Reader.nextEntry_live h.failed h.done he]
  have hp := pull_spec fr hkept polls h.good h.owes h.kept
  cases hres : (T.pull polls r.parser r.source).result with
  | cancelled =>
    simp only [PullAnswer, hres] at hp
    exact hp
  | done i =>
    cases i with
    | some res =>
      cases res with
      | error e =>
        simp only [PullAnswer, hres] at hp
        exact Or.inl ⟨e, rfl, hp⟩
      | ok entry =>
        simp only [PullAnswer, hres] at hp
        obtain ⟨len, s', howes, hI, hφ, hcost⟩ := hp
        dsimp only
        unfold Reader.accept
        dsimp only
        split_ifs with hmax
        all_goals rw [Reader.pulled_limits, Reader.pulled_seen] at hmax
        · exact Or.inr (Or.inr (Or.inl ⟨entry, len, s', hI, howes, by rw [if_pos hmax]⟩))
        · cases ho : openEntry H entry () (r.pulled polls).limits with
          | error e =>
            exact Or.inr (Or.inr (Or.inl ⟨entry, len, s', hI, howes, by rw [if_neg hmax]; exact ho⟩))
          | ok e => exact ⟨entry, len, s', ho, Nat.not_lt.mp hmax, hI, rfl, hφ, howes, hcost⟩
    | none =>
      simp only [PullAnswer, hres] at hp
      obtain ⟨s', howes, hrel, hI, hcost⟩ := hp
      obtain ⟨archive, ha⟩ := Option.isSome_iff_exists.mp h.archive
      have hv : (r.pulled polls).verifyEnd (T.pull polls r.parser r.source).left =
          Reader.drain (T.pull polls r.parser r.source).left 0
            { r.pulled polls with entries := none, archive := none } := by
        unfold Reader.verifyEnd
        dsimp only
        split
        · rename_i h
          rw [Reader.pulled_archive, ha] at h
          cases h
        · exact if_pos hrel
      have hd : DrainAnswer G stop (T.pull polls r.parser r.source).left 0
          { r.pulled polls with entries := none, archive := none } s'
          (Reader.drain (T.pull polls r.parser r.source).left 0
            { r.pulled polls with entries := none, archive := none }) := drain_answer _ 0 _ howes
      dsimp only
      rw [hv]
      generalize Reader.drain (T.pull polls r.parser r.source).left 0
        { r.pulled polls with entries := none, archive := none } = d at hd
      rcases d with ⟨res, r'⟩
      cases res with
      | cancelled =>
        intro P
        have hleft : (T.pull polls r.parser r.source).left ≤
            P.delay (T.pull polls r.parser r.source).source + s'.length := hd P
        have := hcost P
        omega
      | done res =>
        cases res with
        | ok =>
          obtain ⟨hstop, hz, hl, hend⟩ := hd
          rw [Nat.zero_add] at hl
          rcases hI with hI | ⟨rfl, -⟩
          · exact ⟨s', hI, hstop, hz, hl, hend⟩
          · exact absurd hl (by simp)
        | error e =>
          rcases hd with ⟨he, hleft, hd⟩ | ⟨io, z, s'', hs', hz, he, hfault⟩
          · rcases hI with hI | ⟨rfl, hstop, hx⟩
            · rw [Nat.zero_add] at hd
              exact Or.inr (Or.inr (Or.inr (Or.inl ⟨_, s', howes, hI, he, hleft, hd⟩)))
            · exact Or.inr (Or.inr (Or.inr (Or.inr ⟨hstop, he, hleft, hx⟩)))
          · refine Or.inr (Or.inl ⟨io, z, s'', he, hfault, hz, ?_⟩)
            rcases hI with hI | ⟨-, hstop, -⟩
            · rw [hs'] at hI
              exact Or.inl hI
            · exact Or.inr hstop

omit [Counters S] in
/-- A poll of a body that is through ends it, and nothing else. -/
theorem pollBody_done {r : Reader T S} (hl : Lending (fr.phase r.parser)) (h0 : (fr.phase r.parser).left = 0)
    {entry : ReadEntry} (hf : entry.body.failed = false) (buf : ReadBuf) :
    r.pollBody entry buf = (.ready (.ok ()), buf, entry, r) := by
  have hp : pollRead (r.body entry) buf = ⟨.ready (.ok ()), buf, r.body entry⟩ := by
    show Bounded.poll (r.body entry) buf = _
    have hq : pollRead (r.body entry).inner buf = ⟨.ready (.ok ()), buf, (r.body entry).inner⟩ :=
      body_done fr (b := ⟨r.parser, r.source⟩) hl h0 buf
    unfold Bounded.poll
    rw [if_neg (by simp [Reader.body, hf])]
    simp [hq]
  unfold Reader.pollBody
  rw [hp]
  rfl

/-- A poll without room changes nothing. -/
def Idle (S : Type) [AsyncRead IoError S] : Prop :=
  ∀ (s : S) (b : ReadBuf), b.remaining = 0 → pollRead s b = ⟨.ready (.ok ()), b, s⟩

omit [Counters S] in
/-- A body read without room leaves the body where it is. -/
theorem pollBody_idle (hidle : Idle S) {r : Reader T S} (hl : Lending (fr.phase r.parser)) {entry : ReadEntry}
    (hf : entry.body.failed = false) {buf : ReadBuf} (hb : buf.remaining = 0) :
    ∃ parser, fr.phase parser = fr.phase r.parser ∧
      r.pollBody entry buf = (.ready (.ok ()), buf, entry, { r with parser := parser }) := by
  obtain ⟨parser, hφ, hp⟩ : ∃ parser, fr.phase parser = fr.phase r.parser ∧
      pollRead (⟨r.parser, r.source⟩ : TarBody T S) buf = ⟨.ready (.ok ()), buf, ⟨parser, r.source⟩⟩ := by
    show ∃ parser, _ ∧ TarBody.poll T _ buf = _
    unfold TarBody.poll
    cases hask : T.bodyAsk r.parser buf.remaining with
    | none => exact ⟨r.parser, rfl, rfl⟩
    | some n =>
      have hroom : (buf.take n).remaining = 0 := by
        rw [ReadBuf.take_remaining, hb, Nat.min_zero]
      refine ⟨T.bodyFed r.parser (.ok []), ?_, ?_⟩
      · rcases hl with ⟨left, pad, hφ⟩ | hφ
        · cases left with
          | zero =>
            rw [fr.body_end (Or.inl ⟨pad, hφ⟩)] at hask
            cases hask
          | succ left => exact fr.body_eof hφ (Nat.succ_pos left)
        · rw [fr.body_end (Or.inr hφ)] at hask
          cases hask
      · have hbuf : ∀ h, buf.advance (buf.take n) h = buf := fun h => by simp [ReadBuf.advance, ReadBuf.putSlice]
        simp only [hidle r.source _ hroom, ReadBuf.take_filled, hbuf, hb, Nat.lt_irrefl, and_false, if_false]
  refine ⟨parser, hφ, ?_⟩
  have hpoll : pollRead (r.body entry) buf = ⟨.ready (.ok ()), buf, ⟨⟨parser, r.source⟩, entry.body.remaining, false⟩⟩ := by
    show Bounded.poll (r.body entry) buf = _
    unfold Bounded.poll Reader.body
    rw [if_neg (by simp [hf])]
    simp [hp, hf]
  unfold Reader.pollBody
  rw [hpoll]
  dsimp only
  rw [← hf]

omit [Counters S] in
include fr in
/-- So a read that fails had room. -/
theorem pollBody_room (hidle : Idle S) {r : Reader T S} (hl : Lending (fr.phase r.parser)) {entry : ReadEntry}
    (hf : entry.body.failed = false) {buf : ReadBuf} {e : IoError}
    (he : (r.pollBody entry buf).1 = .ready (.error e)) : 0 < buf.remaining := by
  by_contra h0
  obtain ⟨parser, -, hidles⟩ := pollBody_idle fr hidle hl hf (Nat.eq_zero_of_not_pos h0)
  rw [hidles] at he
  cases he

variable (G stop I)

/-- What a poll of a lent body may answer. -/
def ReadAnswer (r : Reader T S) (s : List UInt8) (entry : ReadEntry) (buf : ReadBuf)
    (p : Poll (Except IoError Unit) × ReadBuf × ReadEntry × Reader T S) : Prop :=
  match p.1 with
  | .ready (.error e) => SourceFault G stop (fr.phase r.parser).left s e p.2.2.2.source ∨
      (s = [] ∧ stop = none ∧ 0 < (fr.phase r.parser).left ∧ G.Owes p.2.2.2.source [] stop ∧
        T.bodyCut r.parser = .error e) ∨
      e = capError "max_entry_bytes" ∧ ∃ bytes s', s = bytes ++ s' ∧ G.Owes p.2.2.2.source s' stop ∧
        entry.body.remaining < bytes.length ∧ bytes.length ≤ (fr.phase r.parser).left
  | .pending => p.2.1 = buf ∧ p.2.2.1 = entry ∧ Stands fr G stop I p.2.2.2 s ∧
      p.2.2.2 = { r with source := p.2.2.2.source } ∧
      ∀ P : G.Fair, P.delay p.2.2.2.source < P.delay r.source
  | .ready (.ok ()) => ∃ s', s = buf.added p.2.1 ++ s' ∧ Stands fr G stop I p.2.2.2 s' ∧
      Lending (fr.phase p.2.2.2.parser) ∧
      p.2.2.1 = { entry with body := ⟨(), entry.body.remaining - (buf.added p.2.1).length, false⟩ } ∧
      (buf.added p.2.1).length ≤ entry.body.remaining ∧
      p.2.2.2 = { r with parser := p.2.2.2.parser, source := p.2.2.2.source } ∧
      (fr.phase r.parser).left = (buf.added p.2.1).length + (fr.phase p.2.2.2.parser).left ∧
      (buf.added p.2.1 = [] → (fr.phase r.parser).left = 0) ∧
      ∀ P : G.Fair, P.delay p.2.2.2.source ≤ P.delay r.source

variable {G stop I}

omit [Counters S] in
theorem read_answer (hkept : Kept I) {r : Reader T S} {s : List UInt8} (h : Stands fr G stop I r s)
    (hl : Lending (fr.phase r.parser)) {entry : ReadEntry} (hf : entry.body.failed = false) {buf : ReadBuf}
    (hbuf : 0 < buf.remaining) : ReadAnswer fr G stop I r s entry buf (r.pollBody entry buf) := by
  have hb := body_spec fr hkept (b := ⟨r.parser, r.source⟩) ⟨hl, h.good, h.owes, h.kept⟩ hbuf
  have hgrow := AsyncRead.grows (⟨r.parser, r.source⟩ : TarBody T S) buf
  change BodyAnswer fr G stop I _ s buf (pollRead (⟨r.parser, r.source⟩ : TarBody T S) buf) at hb
  unfold Reader.pollBody
  rw [body_poll hf buf]
  generalize pollRead (⟨r.parser, r.source⟩ : TarBody T S) buf = q at hb hgrow
  rcases q with ⟨o, buf', b'⟩
  by_cases hcap : entry.body.remaining < (buf.added buf').length
  · simp only [hcap, if_true, ReadAnswer]
    refine Or.inr (Or.inr ⟨trivial, buf.added buf', ?_⟩)
    cases o with
    | pending =>
      obtain ⟨hb', -⟩ := hb
      simp only at hb'
      rw [hb', ReadBuf.added_self] at hcap
      exact absurd hcap (Nat.not_lt_zero _)
    | ready res =>
      cases res with
      | error e =>
        obtain ⟨hb', -⟩ := hb
        simp only at hb'
        rw [hb', ReadBuf.added_self] at hcap
        exact absurd hcap (Nat.not_lt_zero _)
      | ok =>
        obtain ⟨s', hlent, hs, hleft, -⟩ := hb
        simp only at hlent hs hleft
        exact ⟨s', hs, hlent.owes, hcap, by omega⟩
  · simp only [hcap, if_false]
    cases o with
    | pending =>
      obtain ⟨hb', hlent, hparser, hdelay⟩ := hb
      simp only at hb' hlent hparser hdelay
      refine ⟨hb', ?_, ⟨h.failed, h.done, h.archive, h.entries, hlent.good, hlent.owes, hlent.kept⟩, ?_, hdelay⟩
      · rw [hb', ReadBuf.added_self, List.length_nil, Nat.sub_zero, ← hf]
      · rw [hparser]
    | ready res =>
      cases res with
      | error e =>
        exact hb.2.imp_right Or.inl
      | ok =>
        obtain ⟨s', hlent, hs, hleft, hend, hdelay⟩ := hb
        simp only at hlent hs hleft hend hdelay
        exact ⟨s', hs, ⟨h.failed, h.done, h.archive, h.entries, hlent.good, hlent.owes, hlent.kept⟩,
          hlent.lending, rfl, Nat.not_lt.mp hcap, rfl, hleft, hend, hdelay⟩

end Etar
