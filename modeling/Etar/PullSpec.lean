import Etar.Framing

/-!
# The parser over a feed

One `pull` over a source that owes `s`: what it hands out, where it stands then, and what
the source still owes. `I` is any relation between a phase and the bytes ahead of it that
taking bytes keeps.
-/
namespace Etar

open AsyncIo

variable {T : Tar} {S : Type} [AsyncRead IoError S]

theorem pull_item {parser : T.State} {i : Option (Except IoError TarEntry)} (h : T.ask parser = .item i)
    (polls : Nat) (source : S) : T.pull polls parser source = ⟨.done i, T.taken parser, source, polls⟩ := by
  cases polls <;> simp [Tar.pull, h]

theorem pull_read_zero {parser : T.State} {n : Nat} (h : T.ask parser = .read n) (source : S) :
    T.pull 0 parser source = ⟨.cancelled, parser, source, 0⟩ := by
  simp [Tar.pull, h]

theorem pull_read {parser : T.State} {n : Nat} (h : T.ask parser = .read n) (polls : Nat) (source : S) :
    T.pull (polls + 1) parser source =
      match (pollRead source (.new n)).outcome with
      | .pending => T.pull polls parser (pollRead source (.new n)).reader
      | .ready (.error e) => T.pull polls (T.fed parser (.error e)) (pollRead source (.new n)).reader
      | .ready (.ok ()) =>
        T.pull polls (T.fed parser (.ok (pollRead source (.new n)).buf.filled)) (pollRead source (.new n)).reader := by
  cases ho : (pollRead source (.new n)).outcome with
  | pending =>
    rw [Tar.pull, h]
    simp only [ho]
  | ready res =>
    rw [Tar.pull, h]
    cases res <;> simp only [ho]

variable {H : HeaderFields} {F : TarFormat H}

/-- Taking bytes keeps `I`. -/
def Kept (I : Phase F.Ext → List UInt8 → Prop) : Prop :=
  ∀ {φ bytes s}, φ.Good F → bytes ≠ [] → bytes.length ≤ φ.need F → I φ (bytes ++ s) → I (φ.eat F bytes) s

variable (fr : T.Frames F) (G : Feed IoError S) (stop : Option IoError) (I : Phase F.Ext → List UInt8 → Prop)

/-- The source failed with `e` when it owed `s`, polled for at most `room` bytes, and is `r'` now. -/
def SourceFault (room : Nat) (s : List UInt8) (e : IoError) (r' : S) : Prop :=
  ∃ r b, G.Owes r s stop ∧ 0 < b.remaining ∧ b.remaining ≤ room ∧ (pollRead r b).outcome = .ready (.error e) ∧
    (pollRead r b).reader = r'

/-- The source can fail. -/
def Faulty : Prop := ∃ room s e r', SourceFault G stop room s e r'

/-- The source reported its end, and is `r'` now. -/
def SourceEnd (r' : S) : Prop :=
  ∃ r b, G.Owes r [] none ∧ 0 < b.remaining ∧ (pollRead r b).outcome = .ready (.ok ()) ∧
    b.added (pollRead r b).buf = [] ∧ (pollRead r b).reader = r'

/-- Why the parser reports `e`: on its own account, for the end of the source, or because the
source, now `r'`, failed with it. -/
inductive Blame (e : IoError) (r' : S) : Prop where
  | own {s : List UInt8} (howes : G.Owes r' s stop) (h : I (.failed e) s)
  | eof {parser : T.State} (howes : G.Owes r' [] stop) (hn : 0 < (fr.phase parser).need F) (h : I (fr.phase parser) []) (hs : stop = none)
      (he : fr.phase (T.fed parser (.ok [])) = .failed e)
  | source {φ : Phase F.Ext} {s : List UInt8} (hn : 0 < φ.need F) (h : I φ s)
      (hfault : SourceFault G stop (φ.need F) s e r')

/-- What `pull` may return when its source owed `s`; `polls` bounds its work. -/
def PullAnswer (polls : Nat) (source : S) (s : List UInt8) (p : Pulled T S) : Prop :=
  match p.result with
  | .cancelled => ∀ P : G.Fair, polls ≤ P.delay source + s.length + 1
  | .done (some (.ok entry)) => ∃ len s', G.Owes p.source s' stop ∧ I (.yielding entry len) s' ∧
      fr.phase p.parser = .after F len ∧
      ∀ P : G.Fair, P.delay p.source + s'.length ≤ P.delay source + s.length
  | .done (some (.error e)) => Blame fr G stop I e p.source
  | .done none => ∃ s', G.Owes p.source s' stop ∧ T.release p.parser = true ∧
      (I .ended s' ∨ s' = [] ∧ stop = none ∧ ∃ x, I (.header x []) []) ∧
      ∀ P : G.Fair, P.delay p.source + s'.length + polls ≤ P.delay source + s.length + 1 + p.left

variable {G stop I}

theorem not_faulty (hG : G.Faultless) : ¬ Faulty G none := by
  rintro ⟨room, s, e, r', r, b, howes, hb, -, ho, -⟩
  cases (hG.fault howes hb ho).1

/-- A phase that has something to hand out does so at once. -/
theorem pull_ready {parser : T.State} {source : S} {s : List UInt8} (hgood : (fr.phase parser).Good F)
    (hn : ¬ 0 < (fr.phase parser).need F) (howes : G.Owes source s stop) (hI : I (fr.phase parser) s)
    (polls : Nat) : PullAnswer fr G stop I polls source s (T.pull polls parser source) := by
  cases hφ : fr.phase parser with
  | yielding entry len =>
    obtain ⟨hask, hafter⟩ := fr.ask_entry hφ
    rw [pull_item hask]
    rw [hφ] at hI
    exact ⟨len, s, howes, hI, hafter, fun P => le_refl _⟩
  | failed e =>
    rw [pull_item (fr.ask_failed hφ)]
    rw [hφ] at hI
    exact .own howes hI
  | ended =>
    obtain ⟨hask, hrel⟩ := fr.ask_ended hφ
    rw [pull_item hask]
    rw [hφ] at hI
    exact ⟨s, howes, hrel, Or.inl hI, fun P => by simp only; omega⟩
  | header | payload | member =>
    exact absurd (Phase.need_pos F hgood (by simp [hφ]) (by simp [hφ]) (by simp [hφ])) hn

/-- One more poll that made progress. -/
theorem PullAnswer.step {polls : Nat} {source source' : S} {s s' : List UInt8} {p : Pulled T S}
    (h : PullAnswer fr G stop I polls source' s' p)
    (hlt : ∀ P : G.Fair, P.delay source' + s'.length < P.delay source + s.length) :
    PullAnswer fr G stop I (polls + 1) source s p := by
  unfold PullAnswer at *
  split at h
  · exact fun P => by
      have := h P
      have := hlt P
      omega
  · obtain ⟨len, s₂, howes, hI, hφ, hcost⟩ := h
    exact ⟨len, s₂, howes, hI, hφ, fun P => by
      have := hcost P
      have := hlt P
      omega⟩
  · exact h
  · obtain ⟨s₂, howes, hrel, hI, hcost⟩ := h
    exact ⟨s₂, howes, hrel, hI, fun P => by
      have := hcost P
      have := hlt P
      omega⟩

/-- The end of the source ends the stream, or fails it. -/
theorem pull_eof {polls : Nat} {parser : T.State} {source source' : S} {s : List UInt8}
    (hn : 0 < (fr.phase parser).need F) (howes : G.Owes source' [] stop)
    (hstop : stop = none) (hI : I (fr.phase parser) [])
    (hle : ∀ P : G.Fair, P.delay source' ≤ P.delay source) :
    PullAnswer fr G stop I (polls + 1) source s (T.pull polls (T.fed parser (.ok [])) source') := by
  obtain ⟨e, hfed⟩ := fr.fed_eof hn
  rcases Phase.atEof_cases F hn e with ⟨x, hx, hended⟩ | ⟨e', hfailed⟩
  · rw [hended] at hfed
    rw [hx] at hI
    obtain ⟨hask, hrel⟩ := fr.ask_ended hfed
    rw [pull_item hask]
    refine ⟨[], howes, hrel, Or.inr ⟨rfl, hstop, x, hI⟩, fun P => ?_⟩
    have := hle P
    simp only [List.length_nil]
    omega
  · have hφ := hfed.trans hfailed
    rw [pull_item (fr.ask_failed hφ)]
    exact .eof howes hn hI hstop hφ

theorem pull_spec (hkept : Kept I) (polls : Nat) {parser : T.State} {source : S} {s : List UInt8}
    (hgood : (fr.phase parser).Good F) (howes : G.Owes source s stop) (hI : I (fr.phase parser) s) :
    PullAnswer fr G stop I polls source s (T.pull polls parser source) := by
  induction polls generalizing parser source s with
  | zero =>
    by_cases hn : 0 < (fr.phase parser).need F
    · obtain ⟨n, hask, -, -⟩ := fr.ask_read hn
      rw [pull_read_zero hask]
      exact fun P => Nat.zero_le _
    · exact pull_ready fr hgood hn howes hI 0
  | succ polls ih =>
    by_cases hn : 0 < (fr.phase parser).need F
    · obtain ⟨n, hask, hpos, hle⟩ := fr.ask_read hn
      have hb : 0 < (ReadBuf.new n).remaining := hpos
      rw [pull_read hask]
      cases ho : (pollRead source (.new n)).outcome with
      | pending =>
        obtain ⟨-, howes'⟩ := G.pending howes hb ho
        exact (ih hgood howes' hI).step fr (fun P => Nat.add_lt_add_right (P.pending howes hb ho) _)
      | ready res =>
        cases res with
        | error e =>
          have hφ := fr.fed_fault (e := e) hn
          dsimp only
          rw [pull_item (fr.ask_failed hφ)]
          exact .source hn hI ⟨source, .new n, howes, hb, hle, ho, rfl⟩
        | ok =>
          obtain ⟨s', hs, howes', hend⟩ := G.chunk howes hb ho
          have hlen := length_pollRead_new source n
          rw [ReadBuf.added_new] at hs hend
          dsimp only
          by_cases hnil : (pollRead source (.new n)).buf.filled = []
          · obtain ⟨hs', hstop⟩ := hend hnil
            rw [hnil, List.nil_append] at hs
            rw [hnil]
            rw [hs, hs'] at hI
            rw [hs'] at howes'
            exact pull_eof fr hn howes' hstop hI (fun P => P.chunk howes hb ho)
          · have hφ := fr.fed_bytes hnil (hlen.trans hle)
            rw [hs] at hI
            have hpos' := List.length_pos_iff.mpr hnil
            refine (ih ?_ howes' ?_).step fr (fun P => ?_)
            · rw [hφ]
              exact Phase.good_eat F hgood (hlen.trans hle)
            · rw [hφ]
              exact hkept hgood hnil (hlen.trans hle) hI
            · have := P.chunk howes hb ho
              rw [hs, List.length_append]
              omega
    · exact pull_ready fr hgood hn howes hI _

/-- A parser lends a body until it goes on to the next header. -/
def Lending (φ : Phase F.Ext) : Prop := (∃ left pad, φ = .member left pad) ∨ φ = .header F.start []

theorem lending_after (len : Nat) : Lending (Phase.after F len) := by
  unfold Phase.after
  split
  · exact Or.inr rfl
  · exact Or.inl ⟨_, _, rfl⟩

variable (G stop I)

/-- Where a lent body stands: its source owes `s`. -/
structure Lent (b : TarBody T S) (s : List UInt8) : Prop where
  lending : Lending (fr.phase b.parser)
  good : (fr.phase b.parser).Good F
  owes : G.Owes b.source s stop
  kept : I (fr.phase b.parser) s

/-- One poll of a lent body hands out bytes of the body, or fails: with its source, or for a
source that ends in the body. A poll without bytes is late, or at the end of the body. -/
def BodyAnswer (b : TarBody T S) (s : List UInt8) (buf : ReadBuf) (p : Polled IoError (TarBody T S)) : Prop :=
  match p.outcome with
  | .ready (.error e) => p.buf = buf ∧ (SourceFault G stop (fr.phase b.parser).left s e p.reader.source ∨
      s = [] ∧ stop = none ∧ 0 < (fr.phase b.parser).left ∧ G.Owes p.reader.source [] stop ∧
        T.bodyCut b.parser = .error e)
  | .pending => p.buf = buf ∧ Lent fr G stop I p.reader s ∧ p.reader.parser = b.parser ∧
      ∀ P : G.Fair, P.delay p.reader.source < P.delay b.source
  | .ready (.ok ()) => ∃ s', Lent fr G stop I p.reader s' ∧ s = buf.added p.buf ++ s' ∧
      (fr.phase b.parser).left = (buf.added p.buf).length + (fr.phase p.reader.parser).left ∧
      (buf.added p.buf = [] → (fr.phase b.parser).left = 0) ∧
      ∀ P : G.Fair, P.delay p.reader.source ≤ P.delay b.source

variable {G stop I}

/-- A body that is through asks for nothing. -/
theorem body_through {parser : T.State} (hl : Lending (fr.phase parser)) (h0 : (fr.phase parser).left = 0)
    (room : Nat) : T.bodyAsk parser room = none := by
  apply fr.body_end
  rcases hl with ⟨left, pad, h⟩ | h
  · rw [h] at h0
    simp only [Phase.left] at h0
    subst h0
    exact Or.inl ⟨pad, h⟩
  · exact Or.inr h

/-- A poll of a body that is through is its end. -/
theorem body_done {b : TarBody T S} (hl : Lending (fr.phase b.parser)) (h0 : (fr.phase b.parser).left = 0)
    (buf : ReadBuf) : b.poll T buf = ⟨.ready (.ok ()), buf, b⟩ := by
  unfold TarBody.poll
  rw [body_through fr hl h0]

theorem body_spec (hkept : Kept I) {b : TarBody T S} {s : List UInt8} (hb : Lent fr G stop I b s)
    {buf : ReadBuf} (hbuf : 0 < buf.remaining) : BodyAnswer fr G stop I b s buf (b.poll T buf) := by
  by_cases h0 : (fr.phase b.parser).left = 0
  · rw [body_done fr hb.lending h0]
    exact ⟨s, hb, by simp, by simp, fun _ => h0, fun P => le_refl _⟩
  · obtain ⟨left, pad, hφ⟩ : ∃ left pad, fr.phase b.parser = .member left pad := by
      rcases hb.lending with h | h
      · exact h
      · rw [h] at h0
        exact absurd rfl h0
    have hleft : 0 < left := by
      rw [hφ] at h0
      exact Nat.pos_of_ne_zero h0
    obtain ⟨n, hask, hn, hle⟩ := fr.body_ask hφ hleft hbuf
    have hroom : 0 < (buf.take n).remaining := by
      rw [ReadBuf.take_remaining]
      omega
    cases ho : (pollRead b.source (buf.take n)).outcome with
    | pending =>
      obtain ⟨-, howes⟩ := G.pending hb.owes hroom ho
      simp only [TarBody.poll, hask, ho]
      exact ⟨rfl, ⟨hb.lending, hb.good, howes, hb.kept⟩, rfl, fun P => P.pending hb.owes hroom ho⟩
    | ready res =>
      cases res with
      | error e =>
        simp only [TarBody.poll, hask, ho]
        refine ⟨rfl, Or.inl ⟨b.source, buf.take n, hb.owes, hroom, ?_, ho, rfl⟩⟩
        rw [ReadBuf.take_remaining, hφ]
        exact (Nat.min_le_left _ _).trans hle
      | ok =>
        obtain ⟨s', hs, howes, hnil⟩ := G.chunk hb.owes hroom ho
        have hlen : (pollRead b.source (buf.take n)).buf.filled.length ≤ left := by
          have := (pollRead b.source (buf.take n)).buf.fits
          rw [(AsyncRead.grows b.source (buf.take n)).1, ReadBuf.take_capacity] at this
          omega
        rw [ReadBuf.added_take] at hs hnil
        by_cases hempty : (pollRead b.source (buf.take n)).buf.filled = []
        · obtain ⟨hs', hstop⟩ := hnil hempty
          obtain ⟨e, hcut⟩ := fr.body_cut hφ hleft
          rw [hempty, List.nil_append] at hs
          rw [hs'] at howes
          have hadvance : ∀ h, buf.advance (pollRead b.source (buf.take n)).buf h = buf := fun h => by
            simp [ReadBuf.advance, ReadBuf.putSlice, hempty]
          simp only [TarBody.poll, hask, ho, BodyAnswer, hempty, hbuf, and_self, if_true, hcut, hadvance]
          refine ⟨trivial, Or.inr ⟨hs.trans hs', hstop, ?_, howes, trivial⟩⟩
          rw [hφ]
          exact hleft
        · simp only [TarBody.poll, hask, ho, BodyAnswer, hempty, false_and, if_false, ReadBuf.added_advance]
          refine ⟨s', ?_⟩
          have hφ' := fr.body_bytes hφ hempty hlen
          have hneed : (pollRead b.source (buf.take n)).buf.filled.length ≤ (fr.phase b.parser).need F := by
            rw [hφ]
            exact hlen.trans (Nat.le_add_right _ _)
          have hI := hb.kept
          rw [hs] at hI
          refine ⟨⟨?_, ?_, howes, ?_⟩, hs, ?_, False.elim, fun P => P.chunk hb.owes hroom ho⟩
          · rw [hφ', hφ]
            by_cases hall : (pollRead b.source (buf.take n)).buf.filled.length < left + pad
            · rw [Phase.eat_member_lt F hall]
              exact Or.inl ⟨_, _, rfl⟩
            · rw [Phase.eat_member_full F (by omega)]
              exact Or.inr rfl
          · rw [hφ']
            exact Phase.good_eat F hb.good hneed
          · rw [hφ']
            exact hkept hb.good hempty hneed hI
          · rw [hφ', hφ]
            by_cases hall : (pollRead b.source (buf.take n)).buf.filled.length < left + pad
            · rw [Phase.eat_member_lt F hall]
              simp only [Phase.left]
              omega
            · rw [Phase.eat_member_full F (by omega)]
              simp only [Phase.left]
              omega

end Etar
