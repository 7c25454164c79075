import Etar.NextSpec
import Etar.Validation
import Etar.Watch

/-!
# The first error of a reader

A reader over a watched source: as long as no call and no body read failed the source is
intact, and the first failure is the source's, the parser's own, a body's bound, or the
refusal of a member.
-/
namespace Etar

open AsyncIo Limit

variable {T : Tar} {S : Type} [AsyncRead IoError S] {H : HeaderFields} {F : TarFormat H}

/-- What is assumed of the parser's own errors: none carries an error of the crate. -/
structure Tar.Frames.Honest (fr : T.Frames F) : Prop where
  size : ∀ {x h e}, F.size x h = .error e → e.downcast = none
  extend : ∀ {x h body e}, F.extend x h body = .error e → e.downcast = none
  entry : ∀ {x h e}, F.entry x h = .error e → e.downcast = none
  dangling : ∀ {x e}, F.dangling x = some e → e.downcast = none
  eof : ∀ {s}, 0 < (fr.phase s).need F →
    ∃ e, e.downcast = none ∧ fr.phase (T.fed s (.ok [])) = (fr.phase s).atEof F e
  cut : ∀ {s e}, T.bodyCut s = .error e → e.downcast = none

theorem Gnu.honest : Gnu.frames.Honest where
  size {x h e} he := by
    change Gnu.size x h = _ at he
    unfold Gnu.size at he
    split at he
    · split at he
      · cases he
        rfl
      · cases he
    · cases he
      rfl
  extend {x h body e} he := by
    change Gnu.extend x h body = _ at he
    unfold Gnu.extend at he
    split at he
    · split at he
      · cases he
        rfl
      · split at he
        · cases he
          rfl
        · split at he
          · cases he
            rfl
          · cases he
    · split at he
      · split at he
        · cases he
          rfl
        · cases he
      · split at he
        · cases he
          rfl
        · cases he
  entry he := by cases he
  dangling {x e} he := by
    change Gnu.dangling x = _ at he
    unfold Gnu.dangling at he
    split at he
    · cases he
      rfl
    · cases he
  eof _ := ⟨.simple .unexpectedEof, rfl, rfl⟩
  cut he := by
    cases he
    rfl

/-- If the phase failed, the parser did so on its own account. -/
def Phase.Own (φ : Phase F.Ext) : Prop := ∀ e, φ = .failed e → e.downcast = none

namespace Phase

theorem own_of_ne {φ : Phase F.Ext} (h : ∀ e, φ ≠ .failed e) : φ.Own := fun e he => absurd he (h e)

theorem own_after (len : Nat) : (after F len).Own := by
  apply own_of_ne
  intro e he
  unfold after at he
  split at he <;> cases he

variable {fr : T.Frames F} (hon : fr.Honest)

include hon

theorem own_closed (x : F.Ext) (h : Block) (body : List UInt8) : (closed F x h body).Own := by
  intro e he
  unfold closed at he
  split at he
  · rename_i e' hx
    cases he
    exact hon.extend hx
  · cases he

theorem own_stopped (x : F.Ext) : (stopped F x).Own := by
  intro e he
  unfold stopped at he
  split at he
  · rename_i e' hx
    cases he
    exact hon.dangling hx
  · cases he

theorem own_opened (x : F.Ext) (h : Block) : (opened F x h).Own := by
  intro e he
  unfold opened at he
  split at he
  · exact own_stopped hon x e he
  · split at he
    · rename_i e' hs
      cases he
      exact hon.size hs
    · split at he
      · split at he
        · exact own_closed hon x h [] e he
        · cases he
      · split at he
        · rename_i e' hentry
          cases he
          exact hon.entry hentry
        · cases he

theorem own_eat {φ : Phase F.Ext} (hφ : φ.Own) (bytes : List UInt8) : (φ.eat F bytes).Own := by
  cases φ with
  | header x got =>
    intro e he
    rw [eat] at he
    split at he
    · exact own_opened hon x _ e he
    · cases he
  | payload x h len got =>
    intro e he
    rw [eat] at he
    split at he
    · exact own_closed hon x h _ e he
    · cases he
  | member left pad =>
    intro e he
    rw [eat] at he
    split at he <;> cases he
  | yielding entry len => exact hφ
  | failed e => exact hφ
  | ended => exact hφ

theorem own_atEof {φ : Phase F.Ext} (hφ : φ.Own) {e : IoError} (he : e.downcast = none) : (φ.atEof F e).Own := by
  cases φ with
  | header x got =>
    cases got with
    | nil => exact own_stopped hon x
    | cons b bs =>
      rintro e' ⟨⟩
      exact he
  | payload x h len got =>
    rintro e' ⟨⟩
    exact he
  | member left pad =>
    rintro e' ⟨⟩
    exact he
  | yielding entry len => exact hφ
  | failed e => exact hφ
  | ended => exact hφ

end Phase

variable (fr : T.Frames F) (W : Watch IoError S)

/-- An error the parser hands out: of the source, or its own. -/
def Handed.From (source : S) (e : IoError) : Prop := W.Blamed source e ∨ W.Intact source ∧ e.downcast = none

/-- What `pull` may return over a watched source. -/
def PullLeaves (p : Pulled T S) : Prop :=
  match p.result with
  | .cancelled => True
  | .done (some (.ok _)) => W.Intact p.source ∧ ∃ len, fr.phase p.parser = .after F len
  | .done (some (.error e)) => Handed.From W p.source e
  | .done none => W.Intact p.source ∧ T.release p.parser = true

variable {fr W}

theorem pull_watch (hon : fr.Honest) (polls : Nat) {parser : T.State} {source : S}
    (hgood : (fr.phase parser).Good F) (hown : (fr.phase parser).Own) (hsource : W.Intact source) :
    PullLeaves fr W (T.pull polls parser source) := by
  have hready : ∀ {parser : T.State} {source : S} (polls : Nat), (fr.phase parser).Good F → (fr.phase parser).Own →
      W.Intact source → ¬ 0 < (fr.phase parser).need F → PullLeaves fr W (T.pull polls parser source) := by
    intro parser source polls hgood hown hsource hn
    cases hφ : fr.phase parser with
    | yielding entry len =>
      obtain ⟨hask, hafter⟩ := fr.ask_entry hφ
      rw [pull_item hask]
      exact ⟨hsource, len, hafter⟩
    | failed e =>
      rw [pull_item (fr.ask_failed hφ)]
      exact Or.inr ⟨hsource, hown e hφ⟩
    | ended =>
      obtain ⟨hask, hrel⟩ := fr.ask_ended hφ
      rw [pull_item hask]
      exact ⟨hsource, hrel⟩
    | header | payload | member =>
      exact absurd (Phase.need_pos F hgood (by simp [hφ]) (by simp [hφ]) (by simp [hφ])) hn
  induction polls generalizing parser source with
  | zero =>
    by_cases hn : 0 < (fr.phase parser).need F
    · obtain ⟨n, hask, -, -⟩ := fr.ask_read hn
      rw [pull_read_zero hask]
      trivial
    · exact hready 0 hgood hown hsource hn
  | succ polls ih =>
    by_cases hn : 0 < (fr.phase parser).need F
    · obtain ⟨n, hask, hpos, hle⟩ := fr.ask_read hn
      rw [pull_read hask]
      cases ho : (pollRead source (.new n)).outcome with
      | pending => exact ih hgood hown (W.ok hsource (by simp [ho]))
      | ready res =>
        cases res with
        | error e =>
          dsimp only
          rw [pull_item (fr.ask_failed (fr.fed_fault hn))]
          exact Or.inl (W.fault hsource ho)
        | ok =>
          have hsource' := W.ok (b := .new n) hsource (by simp [ho])
          have hlen := length_pollRead_new source n
          dsimp only
          by_cases hnil : (pollRead source (.new n)).buf.filled = []
          · rw [hnil]
            obtain ⟨e, he, hφ⟩ := hon.eof hn
            have hown' : (fr.phase (T.fed parser (.ok []))).Own := by
              rw [hφ]
              exact Phase.own_atEof hon hown he
            have hgood' : (fr.phase (T.fed parser (.ok []))).Good F := by
              rw [hφ]
              generalize fr.phase parser = φ
              cases φ with
              | header x got =>
                cases got with
                | nil => exact Phase.good_stopped F x
                | cons b bs => trivial
              | _ => trivial
            exact ih hgood' hown' hsource'
          · have hφ := fr.fed_bytes hnil (hlen.trans hle)
            refine ih ?_ ?_ hsource'
            · rw [hφ]
              exact Phase.good_eat F hgood (hlen.trans hle)
            · rw [hφ]
              exact Phase.own_eat hon hown _
    · exact hready _ hgood hown hsource hn

variable [Counters S]

variable (fr W)

/-- Between two calls that went well: the parser is in the stream and the source intact. -/
structure Steady (r : Reader T S) : Prop where
  good : (fr.phase r.parser).Good F
  own : (fr.phase r.parser).Own
  source : W.Intact r.source

/-- What a call that failed leaves: the error of the source or the parser as the reader
reports it, or a refusal over an intact source. -/
def Traced (r : Reader T S) (e : Error) : Prop :=
  (∃ io, e = r.report io ∧ Handed.From W r.source io) ∨ W.Intact r.source ∧ Refusal e

variable {fr W}

theorem drain_watch (polls trailing : Nat) {r : Reader T S} (h : W.Intact r.source) :
    match r.drain polls trailing with
    | (.done (.error e), r') => Traced W r' e
    | _ => True := by
  induction polls generalizing trailing r with
  | zero => trivial
  | succ polls ih =>
    rw [Reader.drain]
    cases ho : (pollRead r.source (.new 8192)).outcome with
    | pending => exact ih trailing (r := { r with source := (pollRead r.source (.new 8192)).reader }) (W.ok h (by simp [ho]))
    | ready res =>
      cases res with
      | error e => exact Or.inl ⟨e, rfl, Or.inl (W.fault h ho)⟩
      | ok =>
        have h' := W.ok (b := .new 8192) h (by simp [ho])
        dsimp only
        by_cases hnil : (pollRead r.source (.new 8192)).buf.filled = []
        · rw [if_pos hnil]
          by_cases hshort : trailing < 512
          · rw [if_pos hshort]
            exact Or.inr ⟨h', trivial⟩
          · rw [if_neg hshort]
            trivial
        · rw [if_neg hnil]
          by_cases hnz : ((pollRead r.source (.new 8192)).buf.filled.any (· != 0)) = true
          · rw [if_pos hnz]
            exact Or.inr ⟨h', trivial⟩
          · rw [if_neg hnz]
            exact ih _ (r := { r with source := (pollRead r.source (.new 8192)).reader }) h'

/-- What one call leaves of a steady reader. -/
def CallLeaves (fr : T.Frames F) (W : Watch IoError S) (p : Await (Except Error (Option ReadEntry)) × Reader T S) :
    Prop :=
  match p.1 with
  | .done (.error e) => Traced W p.2 e
  | .done (.ok (some entry)) => Steady fr W p.2 ∧ Lending (fr.phase p.2.parser) ∧ entry.body.failed = false
  | _ => True

theorem nextEntry_watch (hon : fr.Honest) (polls : Nat) {r : Reader T S} (hf : r.bodyFailed = false)
    (hd : r.done = false) (ha : r.archive.isSome) (he : r.entries.isSome) (h : Steady fr W r) :
    CallLeaves fr W (r.nextEntry H polls) := by
  obtain ⟨handle, he⟩ := Option.isSome_iff_exists.mp he
  obtain ⟨archive, ha⟩ := Option.isSome_iff_exists.mp ha
  rw [Reader.nextEntry_live hf hd he]
  have hp := pull_watch hon polls h.good h.own h.source
  cases hres : (T.pull polls r.parser r.source).result with
  | cancelled => trivial
  | done i =>
    cases i with
    | some res =>
      cases res with
      | error e =>
        simp only [PullLeaves, hres] at hp
        exact Or.inl ⟨e, rfl, hp⟩
      | ok entry =>
        simp only [PullLeaves, hres] at hp
        obtain ⟨hsource, len, hφ⟩ := hp
        dsimp only
        unfold Reader.accept
        dsimp only
        by_cases hmax : (r.pulled polls).limits.maxEntries.toNat < (r.pulled polls).seen + 1
        · rw [if_pos hmax]
          exact Or.inr ⟨hsource, Or.inl rfl⟩
        · rw [if_neg hmax]
          cases ho : openEntry H entry () (r.pulled polls).limits with
          | error e => exact Or.inr ⟨hsource, openEntry_error H ho⟩
          | ok e =>
            have hbody := (openEntry_ok H ho).2.2.2.2.2
            refine ⟨⟨?_, ?_, hsource⟩, ?_, by rw [hbody]; rfl⟩
            · show (fr.phase (T.pull polls r.parser r.source).parser).Good F
              rw [hφ]
              exact Phase.good_after F len
            · show (fr.phase (T.pull polls r.parser r.source).parser).Own
              rw [hφ]
              exact Phase.own_after len
            · show Lending (fr.phase (T.pull polls r.parser r.source).parser)
              rw [hφ]
              exact lending_after len
    | none =>
      simp only [PullLeaves, hres] at hp
      obtain ⟨hsource, hrel⟩ := hp
      have hv : (r.pulled polls).verifyEnd (T.pull polls r.parser r.source).left =
          Reader.drain (T.pull polls r.parser r.source).left 0
            { r.pulled polls with entries := none, archive := none } := by
        unfold Reader.verifyEnd
        dsimp only
        split
        · rename_i hn
          rw [Reader.pulled_archive, ha] at hn
          cases hn
        · exact if_pos hrel
      dsimp only
      rw [hv]
      have hdrain := drain_watch (T.pull polls r.parser r.source).left 0
        (r := { r.pulled polls with entries := none, archive := none }) hsource
      generalize Reader.drain (T.pull polls r.parser r.source).left 0
        { r.pulled polls with entries := none, archive := none } = d at hdrain
      rcases d with ⟨res, r'⟩
      cases res with
      | cancelled => trivial
      | done res =>
        cases res with
        | ok => trivial
        | error e => exact hdrain

/-- What a body poll leaves of a steady reader. -/
def BodyLeaves (fr : T.Frames F) (W : Watch IoError S) (p : Poll (Except IoError Unit) × ReadBuf × ReadEntry × Reader T S) :
    Prop :=
  match p.1 with
  | .ready (.error e) => Handed.From W p.2.2.2.source e ∧ p.2.2.1.body.failed = false ∨
      W.Intact p.2.2.2.source ∧ p.2.2.1.body.failed = true ∧ e = capError "max_entry_bytes"
  | _ => Steady fr W p.2.2.2 ∧ Lending (fr.phase p.2.2.2.parser) ∧ p.2.2.1.body.failed = false

omit [Counters S] in
/-- One poll of a lent body: it moves on, is through, or fails with its source or for it. -/
theorem body_watch (hon : fr.Honest) {b : TarBody T S} (hgood : (fr.phase b.parser).Good F) (hl : Lending (fr.phase b.parser))
    (hsource : W.Intact b.source) (buf : ReadBuf) :
    match (b.poll T buf).outcome with
    | .ready (.error e) => Handed.From W (b.poll T buf).reader.source e ∧ (b.poll T buf).buf = buf
    | _ => W.Intact (b.poll T buf).reader.source ∧ (fr.phase (b.poll T buf).reader.parser).Good F ∧
        Lending (fr.phase (b.poll T buf).reader.parser) := by
  unfold TarBody.poll
  cases hask : T.bodyAsk b.parser buf.remaining with
  | none => exact ⟨hsource, hgood, hl⟩
  | some n =>
    obtain ⟨left, pad, hφ⟩ : ∃ left pad, fr.phase b.parser = .member left pad := by
      rcases hl with h | h
      · exact h
      · rw [fr.body_end (Or.inr h)] at hask
        cases hask
    have hleft : 0 < left := by
      by_contra h0
      obtain rfl := Nat.eq_zero_of_not_pos h0
      rw [fr.body_end (Or.inl ⟨pad, hφ⟩)] at hask
      cases hask
    dsimp only
    cases ho : (pollRead b.source (buf.take n)).outcome with
    | pending => exact ⟨W.ok hsource (by simp [ho]), hgood, hl⟩
    | ready res =>
      cases res with
      | error e => exact ⟨Or.inl (W.fault hsource ho), rfl⟩
      | ok =>
        have hsource' := W.ok (b := buf.take n) hsource (by simp [ho])
        dsimp only
        by_cases hnil : (pollRead b.source (buf.take n)).buf.filled = []
        · have hadvance : ∀ h, buf.advance (pollRead b.source (buf.take n)).buf h = buf := fun h => by
            simp [ReadBuf.advance, ReadBuf.putSlice, hnil]
          simp only [hnil, true_and, hadvance]
          by_cases hroom : 0 < buf.remaining
          · obtain ⟨e, hcut⟩ := fr.body_cut hφ hleft
            rw [if_pos hroom, hcut]
            exact ⟨Or.inr ⟨hsource', hon.cut hcut⟩, trivial⟩
          · rw [if_neg hroom, fr.body_eof hφ hleft]
            exact ⟨hsource', hgood, hl⟩
        · rw [if_neg (fun h => hnil h.1)]
          refine ⟨hsource', ?_⟩
          have hcap : (pollRead b.source (buf.take n)).buf.filled.length ≤ min n buf.remaining := by
            have := (pollRead b.source (buf.take n)).buf.fits
            rwa [(AsyncRead.grows b.source (buf.take n)).1, ReadBuf.take_capacity] at this
          have hpos := List.length_pos_iff.mpr hnil
          obtain ⟨n', hask', -, hle⟩ := fr.body_ask hφ hleft (show 0 < buf.remaining by omega)
          obtain rfl := Option.some.inj (hask.symm.trans hask')
          have hlen : (pollRead b.source (buf.take n)).buf.filled.length ≤ left := by omega
          rw [fr.body_bytes hφ hnil hlen]
          rw [hφ] at hgood ⊢
          refine ⟨Phase.good_eat F hgood (hlen.trans (Nat.le_add_right _ _)), ?_⟩
          by_cases hall : (pollRead b.source (buf.take n)).buf.filled.length < left + pad
          · rw [Phase.eat_member_lt F hall]
            exact Or.inl ⟨_, _, rfl⟩
          · rw [Phase.eat_member_full F (by omega)]
            exact Or.inr rfl

omit [Counters S] in
theorem pollBody_watch (hon : fr.Honest) {r : Reader T S} (h : Steady fr W r) (hl : Lending (fr.phase r.parser)) {entry : ReadEntry}
    (hf : entry.body.failed = false) (buf : ReadBuf) : BodyLeaves fr W (r.pollBody entry buf) := by
  have hb := body_watch hon (b := ⟨r.parser, r.source⟩) h.good hl h.source buf
  change match (pollRead (⟨r.parser, r.source⟩ : TarBody T S) buf).outcome with
    | .ready (.error e) => Handed.From W (pollRead (⟨r.parser, r.source⟩ : TarBody T S) buf).reader.source e ∧
        (pollRead (⟨r.parser, r.source⟩ : TarBody T S) buf).buf = buf
    | _ => W.Intact (pollRead (⟨r.parser, r.source⟩ : TarBody T S) buf).reader.source ∧
        (fr.phase (pollRead (⟨r.parser, r.source⟩ : TarBody T S) buf).reader.parser).Good F ∧
        Lending (fr.phase (pollRead (⟨r.parser, r.source⟩ : TarBody T S) buf).reader.parser) at hb
  unfold Reader.pollBody
  rw [body_poll hf buf]
  generalize pollRead (⟨r.parser, r.source⟩ : TarBody T S) buf = q at hb
  rcases q with ⟨o, buf', b'⟩
  by_cases hcap : entry.body.remaining < (buf.added buf').length
  · simp only [hcap, if_true, BodyLeaves]
    cases o with
    | pending => exact Or.inr ⟨hb.1, trivial, trivial⟩
    | ready res =>
      cases res with
      | ok => exact Or.inr ⟨hb.1, trivial, trivial⟩
      | error e =>
        have hbuf : buf' = buf := hb.2
        rw [hbuf, ReadBuf.added_self] at hcap
        exact absurd hcap (Nat.not_lt_zero _)
  · simp only [hcap, if_false, BodyLeaves]
    have hown : ∀ φ : Phase F.Ext, Lending φ → φ.Own := by
      intro φ hφ
      apply Phase.own_of_ne
      rcases hφ with ⟨left, pad, rfl⟩ | rfl
      · exact fun e he => by cases he
      · exact fun e he => by cases he
    cases o with
    | pending => exact ⟨⟨hb.2.1, hown _ hb.2.2, hb.1⟩, hb.2.2, trivial⟩
    | ready res =>
      cases res with
      | ok => exact ⟨⟨hb.2.1, hown _ hb.2.2, hb.1⟩, hb.2.2, trivial⟩
      | error e => exact Or.inl ⟨hb.1, trivial⟩

/-- A session that went well so far. -/
structure Unbroken (fr : T.Frames F) (W : Watch IoError S) (σ : Session T S) : Prop where
  steady : σ.reader.done = false → Steady fr W σ.reader
  lent : ∀ entry, σ.entry = some entry →
    σ.reader.done = false ∧ Lending (fr.phase σ.reader.parser) ∧ entry.body.failed = false

omit [Counters S] in
theorem unbroken_start {source : S} {limits : SecurityLimits} {r : Reader T S} (hsource : W.Intact source)
    (hstart : Reader.start T source limits = .ok r) : Unbroken fr W ⟨r, none⟩ := by
  obtain ⟨parser, hp, hφ⟩ := fr.opens
  simp only [Reader.start, hp] at hstart
  cases hstart
  refine ⟨fun _ => ⟨?_, ?_, hsource⟩, fun entry he => by cases he⟩
  · rw [hφ]
    simp [Phase.Good]
  · rw [hφ]
    exact Phase.own_of_ne (fun e he => by cases he)

theorem Unbroken.step (hon : fr.Honest) {room : ReadBuf → Prop} {evs : List Event} {σ σ' : Session T S} {ev : Event}
    (hlife : Lifecycle evs σ) (hgood : ∀ ev ∈ evs, ¬ ev.Bad) (h : Unbroken fr W σ) (hs : σ.Step H room ev σ')
    (hev : ¬ ev.Bad) : Unbroken fr W σ' := by
  have hf : σ.reader.bodyFailed = false := by
    cases hf : σ.reader.bodyFailed with
    | false => rfl
    | true =>
      obtain ⟨ev, hmem, hbad⟩ := hlife.poisoned.mp hf
      exact absurd hbad (hgood ev hmem)
  cases hs with
  | next r polls =>
    rcases Reader.nextEntry_cases (H := H) r polls with ⟨hf', -⟩ | ⟨-, hd, he⟩ | ⟨-, hd, hm⟩
    · exact absurd (hf.symm.trans hf') (by simp)
    · rw [he]
      exact ⟨fun hd' => absurd (hd.symm.trans hd') (by simp), fun entry he => by cases he⟩
    · obtain ⟨ha, hes⟩ := hlife.live hf hd
      have hc := nextEntry_watch (H := H) hon polls hf hd ha hes (h.steady hd)
      generalize r.nextEntry H polls = p at hc hm hev
      rcases p with ⟨res, r'⟩
      cases res with
      | cancelled => exact absurd trivial hev
      | done res =>
        cases res with
        | error e => exact absurd trivial hev
        | ok o =>
          cases o with
          | none => exact ⟨fun hd' => absurd (hm.2.symm.trans hd') (by simp), fun entry he => by cases he⟩
          | some entry =>
            refine ⟨fun _ => hc.1, ?_⟩
            rintro entry' ⟨⟩
            exact ⟨hm.2.1, hc.2⟩
  | read r entry buf hb =>
    obtain ⟨hd, hl, hfail⟩ := h.lent entry rfl
    have hc := pollBody_watch hon (h.steady hd) hl hfail buf
    have hd' := (Reader.pollBody_spec r entry buf).1
    generalize r.pollBody entry buf = p at hc hd' hev
    rcases p with ⟨o, buf', entry', r'⟩
    have hkeep : Steady fr W r' ∧ Lending (fr.phase r'.parser) ∧ entry'.body.failed = false := by
      cases o with
      | pending => exact hc
      | ready res =>
        cases res with
        | ok => exact hc
        | error e => exact absurd trivial hev
    refine ⟨fun _ => hkeep.1, ?_⟩
    rintro entry'' ⟨⟩
    exact ⟨hd'.trans hd, hkeep.2⟩
  | drop r entry => exact ⟨h.steady, fun entry he => by cases he⟩

theorem unbroken_of_run (hon : fr.Honest) {room : ReadBuf → Prop} {source : S} {limits : SecurityLimits} {r : Reader T S}
    (hsource : W.Intact source) (hstart : Reader.start T source limits = .ok r) {evs : List Event} {σ : Session T S}
    (hrun : Session.Run H room ⟨r, none⟩ evs σ) (hgood : ∀ ev ∈ evs, ¬ ev.Bad) : Unbroken fr W σ := by
  induction hrun with
  | start => exact unbroken_start hsource hstart
  | step hrun hs ih =>
    have hgood' := fun ev hev => hgood ev (List.mem_append_left _ hev)
    exact (ih hgood').step hon (Lifecycle.of_run hstart hrun) hgood' hs (hgood _ (by simp))

/-- The first call to fail tells what went wrong. -/
theorem first_error (hon : fr.Honest) {room : ReadBuf → Prop} {source : S} {limits : SecurityLimits} {r : Reader T S}
    (hsource : W.Intact source) (hstart : Reader.start T source limits = .ok r) {evs : List Event} {σ : Session T S}
    (hrun : Session.Run H room ⟨r, none⟩ evs σ) (hgood : ∀ ev ∈ evs, ¬ ev.Bad) {polls : Nat} {e : Error}
    (he : (σ.reader.nextEntry H polls).1 = .done (.error e)) : Traced W (σ.reader.nextEntry H polls).2 e := by
  have hlife := Lifecycle.of_run hstart hrun
  have h := unbroken_of_run hon hsource hstart hrun hgood
  rcases Reader.nextEntry_cases (H := H) σ.reader polls with ⟨hf, -⟩ | ⟨-, -, hn⟩ | ⟨hf, hd, -⟩
  · obtain ⟨ev, hmem, hbad⟩ := hlife.poisoned.mp hf
    exact absurd hbad (hgood ev hmem)
  · rw [hn] at he
    cases he
  · obtain ⟨ha, hes⟩ := hlife.live hf hd
    have hc := nextEntry_watch (H := H) hon polls hf hd ha hes (h.steady hd)
    simp only [CallLeaves, he] at hc
    exact hc

omit [Counters S] in
/-- What a copy that failed leaves: an error of the source or of the parser, or the body's own bound. -/
theorem copying_watch (hon : fr.Honest) (polls : Nat) {r : Reader T S} (h : Steady fr W r) (hl : Lending (fr.phase r.parser))
    {entry : ReadEntry} (hf : entry.body.failed = false) :
    match r.copying polls entry with
    | (.done (.ok ()), σ) => Steady fr W σ.reader
    | (.done (.error e), σ) => ∃ entry', σ.entry = some entry' ∧
        (Handed.From W σ.reader.source e ∧ entry'.body.failed = false ∨
          W.Intact σ.reader.source ∧ entry'.body.failed = true ∧ e = capError "max_entry_bytes")
    | _ => True := by
  induction polls generalizing r entry with
  | zero => trivial
  | succ polls ih =>
    have hc := pollBody_watch hon h hl hf (.new 8192)
    rw [Reader.copying]
    generalize r.pollBody entry (.new 8192) = p at hc
    rcases p with ⟨o, buf, entry', r'⟩
    cases o with
    | pending => exact ih hc.1 hc.2.1 hc.2.2
    | ready res =>
      cases res with
      | error e => exact ⟨entry', rfl, hc⟩
      | ok =>
        by_cases hnil : buf.filled = []
        · simp only [hnil, if_true]
          exact hc.1
        · simp only [hnil, if_false]
          exact ih hc.1 hc.2.1 hc.2.2

omit [Counters S] in
/-- Copying keeps what the flags say. -/
theorem copying_kept (polls : Nat) (r : Reader T S) (entry : ReadEntry) :
    (r.copying polls entry).2.reader.done = r.done ∧ (r.copying polls entry).2.reader.archive = r.archive ∧
      (r.copying polls entry).2.reader.entries = r.entries ∧ (r.copying polls entry).2.reader.limits = r.limits ∧
      ((r.copying polls entry).1 = .done (.ok ()) →
        (r.copying polls entry).2.reader.bodyFailed = r.bodyFailed) := by
  induction polls generalizing r entry with
  | zero => exact ⟨rfl, rfl, rfl, rfl, fun h => by cases h⟩
  | succ polls ih =>
    obtain ⟨hd, ha, hes, hf⟩ := Reader.pollBody_spec r entry (.new 8192)
    have hlimits := (Reader.pollBody_kept r entry (.new 8192)).1
    rw [Reader.copying]
    generalize r.pollBody entry (.new 8192) = p at hd ha hes hf hlimits
    rcases p with ⟨o, buf, entry', r'⟩
    simp only at hd ha hes hf hlimits
    have hih := ih r' entry'
    rw [hd, ha, hes, hlimits] at hih
    cases o with
    | pending =>
      rw [hf] at hih
      exact hih
    | ready res =>
      cases res with
      | error e => exact ⟨hd, ha, hes, hlimits, fun h => by cases h⟩
      | ok =>
        rw [hf] at hih
        by_cases hnil : buf.filled = []
        · simp only [hnil, if_true]
          exact ⟨hd, ha, hes, hlimits, fun _ => hf⟩
        · simp only [hnil, if_false]
          exact hih

/-- What a validation that failed leaves: a call that failed, or a copy that did. -/
def Failed (W : Watch IoError S) (σ : Session T S) (e : Error) : Prop :=
  σ.entry = none ∧ Traced W σ.reader e ∨
    ∃ entry io, σ.entry = some entry ∧ e = σ.reader.report io ∧
      (Handed.From W σ.reader.source io ∧ entry.body.failed = false ∨
        W.Intact σ.reader.source ∧ entry.body.failed = true ∧ io = capError "max_entry_bytes")

theorem validating_watch (hon : fr.Honest) (polls calls entries : Nat) {r : Reader T S} (hf : r.bodyFailed = false)
    (hd : r.done = false) (ha : r.archive.isSome) (he : r.entries.isSome) (h : Steady fr W r) {e : Error}
    (herr : (r.validating H polls calls entries).result = .done (.error e)) :
    Failed W (r.validating H polls calls entries).last e := by
  induction polls generalizing calls entries r with
  | zero => cases herr
  | succ polls ih =>
    have hc := nextEntry_watch (H := H) hon polls hf hd ha he h
    have hm := Reader.nextEntry_cases (H := H) r polls
    rw [hf, hd] at hm
    rw [Reader.validating] at herr ⊢
    generalize r.nextEntry H polls = p at hc hm herr
    rcases p with ⟨res, r'⟩
    cases res with
    | cancelled => cases herr
    | done res =>
      cases res with
      | error e' =>
        cases herr
        exact Or.inl ⟨rfl, hc⟩
      | ok o =>
        cases o with
        | none => cases herr
        | some entry =>
          rcases hm with ⟨hm, -⟩ | ⟨-, hm, -⟩ | ⟨-, -, hm⟩
          · cases hm
          · cases hm
          · obtain ⟨hf', hd', ha', he'⟩ := hm
            simp only at hf' hd' ha' he'
            have hcopy := copying_watch hon polls hc.1 hc.2.1 hc.2.2
            obtain ⟨hd₂, ha₂, he₂, -, hf₂⟩ := copying_kept polls r' entry
            dsimp only at herr ⊢
            generalize r'.copying polls entry = q at hcopy hd₂ ha₂ he₂ hf₂ herr
            rcases q with ⟨res, σ⟩
            cases res with
            | cancelled => cases herr
            | done res =>
              cases res with
              | error io =>
                cases herr
                obtain ⟨entry', hentry, hwhy⟩ := hcopy
                exact Or.inr ⟨entry', io, hentry, rfl, hwhy⟩
              | ok =>
                have hf₂ : σ.reader.bodyFailed = r'.bodyFailed := hf₂ rfl
                simp only at hd₂ ha₂ he₂
                exact ih (calls + 1) (entries + 1) (hf₂.trans hf') (hd₂.trans hd') (by rw [ha₂, ha']; exact ha)
                  (by rw [he₂, he']; exact he) hcopy herr

end Etar
