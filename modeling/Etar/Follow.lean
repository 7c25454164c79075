import Etar.Along

/-!
# Sessions along an outline

A session over a feed hands out the members of the feed's outline one after the other, each
opened from its item, and its bodies byte for byte. It ends only where the outline ends at a
zero block.
-/
namespace Etar

open AsyncIo Limit

/-- What was read of the body lent out last. -/
def Event.collect (read : List UInt8) : Event → List UInt8
  | next _ => []
  | .read _ bytes => read ++ bytes
  | drop => read

def bodyRead (evs : List Event) : List UInt8 := evs.foldl Event.collect []

@[simp] theorem Event.collect_nil (read : List UInt8) (o : Poll (Except IoError Unit)) :
    Event.collect read (.read o []) = read :=
  List.append_nil _

@[simp] theorem bodyRead_append (evs : List Event) (ev : Event) :
    bodyRead (evs ++ [ev]) = ev.collect (bodyRead evs) := by
  simp [bodyRead]

variable {T : Tar} {S : Type} [AsyncRead IoError S] [Counters S] (H : HeaderFields) {F : TarFormat H}
variable (fr : T.Frames F) (G : Feed IoError S) (stop : Option IoError) (w : Outline) (limits : SecurityLimits)

/-- Where a session stands on the outline `w` after some steps. -/
structure Follows (evs : List Event) (σ : Session T S) : Prop where
  limits_eq : σ.reader.limits = limits
  live : σ.reader.bodyFailed = false → σ.reader.done = false →
    ∃ s, On fr G stop w σ.reader s ∧
      ∀ e i, σ.entry = some e → Lends H w limits σ.reader.seen e i →
        Reads limits (fr.phase σ.reader.parser) s (bodyRead evs) e i
  lent : ∀ e, σ.entry = some e → ∃ i, Lends H w limits σ.reader.seen e i ∧
    (σ.reader.bodyFailed = true → 0 < i.len)
  accepted : σ.reader.bodyFailed = false → σ.reader.seen ≤ limits.maxEntries.toNat ∧
    ∀ i ∈ w.items.take σ.reader.seen, ∃ e : ReadEntry, openEntry H i.entry () limits = .ok e
  finished : σ.reader.done = true → ∃ t, w.stop = .zero t ∧ stop = none ∧ (∀ b ∈ t, b = 0) ∧ 512 ≤ t.length ∧
    w.items.length ≤ σ.reader.seen

variable {H fr G stop w limits}

theorem Lends.inj {seen : Nat} {e : ReadEntry} {i i' : Item} (h : Lends H w limits seen e i)
    (h' : Lends H w limits seen e i') : i = i' :=
  Option.some.inj (h.nth.symm.trans h'.nth)

/-- Reading changes only the entry's body. -/
theorem Lends.read {seen : Nat} {e e' : ReadEntry} {i : Item} (h : Lends H w limits seen e i)
    (he : e' = { e with body := e'.body }) : Lends H w limits seen e' i := by
  have ho := h.opened
  refine ⟨h.pos, h.nth, ?_⟩
  rw [he]
  exact ho

omit [Counters S] in
theorem follows_start {source : S} {s : List UInt8} {r : Reader T S} (howes : G.Owes source s stop)
    (hstart : Reader.start T source limits = .ok r) :
    Follows H fr G stop ((Phase.header F.start []).walk F s) limits [] ⟨r, none⟩ := by
  obtain ⟨hst, hseen, hlimits⟩ := stands_start fr
    (I := fun φ s' => φ.walk F s' = ((Phase.header F.start []).walk F s).after 0) howes hstart rfl
  have hon : On fr G stop ((Phase.header F.start []).walk F s) r s := by
    unfold On
    rw [hseen]
    exact hst
  refine ⟨hlimits, fun _ _ => ⟨s, hon, ?_⟩, ?_, ?_, ?_⟩
  · intro e i h
    cases h
  · intro e h
    cases h
  · intro _
    show r.seen ≤ _ ∧ _
    rw [hseen]
    simp
  · intro h
    have hdone := hst.done
    rw [h] at hdone
    cases hdone

/-- One call: a member handed out is the next item, and a clean end is the outline's. -/
theorem follows_next {evs : List Event} {r : Reader T S} (h : Follows H fr G stop w limits evs ⟨r, none⟩)
    (polls : Nat) :
    Follows H fr G stop w limits (evs ++ [.next (r.nextEntry H polls).1])
      ⟨(r.nextEntry H polls).2, lent (r.nextEntry H polls).1⟩ := by
  obtain ⟨hlimits, -, hseen⟩ := Reader.nextEntry_kept (H := H) r polls
  have hl : r.limits = limits := h.limits_eq
  rcases Reader.nextEntry_cases (H := H) r polls with ⟨hf, he⟩ | ⟨hf, hd, he⟩ | ⟨hf, hd, hm⟩
  · rw [he]
    refine ⟨hl, ?_, ?_, ?_, h.finished⟩
    · intro hf'
      simp [hf] at hf'
    · intro e he
      cases he
    · intro hf'
      simp [hf] at hf'
  · rw [he]
    refine ⟨hl, ?_, ?_, h.accepted, h.finished⟩
    · intro _ hd'
      simp [hd] at hd'
    · intro e he
      cases he
  · obtain ⟨s, hst, -⟩ := h.live hf hd
    have ha := next_on (H := H) polls hst
    rcases hr : r.nextEntry H polls with ⟨res, r'⟩
    rw [hr] at hm ha hlimits hseen
    have hbad : r'.bodyFailed = true → r'.done = false → lent res = none →
        Follows H fr G stop w limits (evs ++ [.next res]) ⟨r', lent res⟩ := by
      intro hf' hd' hn
      refine ⟨hlimits.trans hl, by simp [hf'], ?_, by simp [hf'], by simp [hd']⟩
      intro e he
      rw [hn] at he
      cases he
    cases res with
    | cancelled => exact hbad hm.1 hm.2 rfl
    | done res =>
      cases res with
      | error e => exact hbad hm.2.1 hm.2.2 rfl
      | ok o =>
        obtain ⟨hmax, hacc⟩ := h.accepted hf
        cases o with
        | none =>
          obtain ⟨t, hw, hstop, hz, h512, hall, -⟩ := ha
          have hs : r'.seen = r.seen := hseen rfl
          refine ⟨hlimits.trans hl, ?_, ?_, ?_, ?_⟩
          · intro _ hd'
            exact absurd (hm.2.symm.trans hd') (by simp)
          · intro e he
            cases he
          · intro _
            rw [hs]
            exact ⟨hmax, hacc⟩
          · intro _
            rw [hs]
            exact ⟨t, hw, hstop, hz, h512, hall⟩
        | some e =>
          obtain ⟨i, s', hnth, ho, hs, hmax', -, hon, hreads, -⟩ := ha
          simp only at hs hmax' hon hreads
          rw [hl] at ho hmax' hreads
          have hlends : Lends H w limits r'.seen e i := by
            rw [hs]
            exact ⟨Nat.succ_pos _, hnth, by rw [ho, ← (openEntry_ok H ho).2.2.2.2.2]⟩
          refine ⟨hlimits.trans hl, ?_, ?_, ?_, ?_⟩
          · intro _ _
            refine ⟨s', hon, ?_⟩
            intro e' i' he' hi'
            cases he'
            obtain rfl := hlends.inj hi'
            rw [bodyRead_append]
            exact hreads
          · intro e' he'
            cases he'
            refine ⟨i, hlends, ?_⟩
            intro hf'
            exact absurd (hm.1.symm.trans hf') (by simp)
          · intro _
            refine ⟨hmax', ?_⟩
            intro i' hi
            rw [hs, List.take_add_one, hnth] at hi
            rcases List.mem_append.mp hi with hi | hi
            · exact hacc i' hi
            · rw [Option.toList_some, List.mem_singleton] at hi
              rw [hi]
              exact ⟨e, ho⟩
          · intro hd'
            exact absurd (hm.2.1.symm.trans hd') (by simp)

omit [Counters S] in
/-- One body poll: the bytes read are the item's, in order. -/
theorem follows_read (hidle : Idle S) {evs : List Event} {r : Reader T S} {e : ReadEntry}
    (hl : Lifecycle evs ⟨r, some e⟩) (h : Follows H fr G stop w limits evs ⟨r, some e⟩) (buf : ReadBuf) :
    Follows H fr G stop w limits
      (evs ++ [.read (r.pollBody e buf).1 (buf.added (r.pollBody e buf).2.1)])
      ⟨(r.pollBody e buf).2.2.2, some (r.pollBody e buf).2.2.1⟩ := by
  obtain ⟨hd, -, -, hfail⟩ := Reader.pollBody_spec r e buf
  obtain ⟨hlimits, hseen, hentry⟩ := Reader.pollBody_kept r e buf
  have hdone : r.done = false := by
    cases hr : r.done with
    | false => rfl
    | true => exact absurd (hl.last hr).2 (by simp)
  obtain ⟨i, hlends, hpos⟩ := h.lent e rfl
  simp only at hlends hpos
  cases hf : r.bodyFailed with
  | true =>
    have hf' : (r.pollBody e buf).2.2.2.bodyFailed = true := by
      rw [hfail, hf]
      split <;> rfl
    refine ⟨hlimits.trans h.limits_eq, by simp [hf'], ?_, by simp [hf'], by simp [hd, hdone]⟩
    intro e' he'
    obtain rfl := Option.some.inj he'
    rw [hseen]
    exact ⟨i, hlends.read hentry, fun _ => hpos hf⟩
  | false =>
    obtain ⟨s, hst, hreads⟩ := h.live hf hdone
    have hr := hreads e i rfl hlends
    have hlen := hr.len
    have hl : r.limits = limits := h.limits_eq
    simp only at hlen hr hst
    rw [← hl] at hr
    have ha : 0 < buf.remaining → _ := read_on (H := H) hst hr
    have hidled : buf.remaining = 0 → _ := pollBody_idle fr hidle hr.lending hr.failed
    have haccepted := h.accepted hf
    simp only at haccepted
    have hthrough : (fr.phase r.parser).left = 0 → r.pollBody e buf = (.ready (.ok ()), buf, e, r) :=
      fun h0 => pollBody_done fr hr.lending h0 hr.failed buf
    rcases hp : r.pollBody e buf with ⟨o, buf', e', r'⟩
    rw [hp] at ha hidled hfail hd hlimits hseen hentry hthrough
    simp only at hfail hd hlimits hseen hentry ⊢
    have hlent : ∀ e'' : ReadEntry, some e' = some e'' → ∃ i, Lends H w limits r'.seen e'' i ∧
        (r'.bodyFailed = true → 0 < i.len) := by
      intro e'' he''
      obtain rfl := Option.some.inj he''
      rw [hseen]
      refine ⟨i, hlends.read hentry, fun hf' => ?_⟩
      by_contra h0
      have hr' := congrArg (fun q => q.2.2.2) (hthrough (by omega))
      simp only at hr'
      rw [hr', hf] at hf'
      cases hf'
    have hkeep : ∀ s', r'.bodyFailed = false → On fr G stop w r' s' →
        Reads r.limits (fr.phase r'.parser) s' (bodyRead evs ++ buf.added buf') e' i →
        Follows H fr G stop w limits (evs ++ [.read o (buf.added buf')]) ⟨r', some e'⟩ := by
      intro s' hf' hst' hreads'
      refine ⟨hlimits.trans hl, ?_, hlent, ?_, ?_⟩
      · intro _ _
        refine ⟨s', hst', ?_⟩
        intro e'' i' he'' hi'
        obtain rfl := Option.some.inj he''
        simp only [hseen] at hi'
        obtain rfl := (hlends.read hentry).inj hi'
        rw [bodyRead_append, ← hl]
        exact hreads'
      · intro _
        simp only [hseen]
        exact haccepted
      · intro hd'
        rw [hd, hdone] at hd'
        cases hd'
    by_cases hroom : buf.remaining = 0
    · obtain ⟨parser, hφ, hsteady⟩ := hidled hroom
      cases hsteady
      refine hkeep s hf ⟨hst.failed, hst.done, hst.archive, hst.entries, hφ ▸ hst.good, hst.owes, hφ ▸ hst.kept⟩ ?_
      rw [ReadBuf.added_self, List.append_nil]
      exact hφ ▸ hr
    replace ha := ha (Nat.pos_of_ne_zero hroom)
    cases o with
    | pending =>
      obtain ⟨hbuf, hon, hreads', -⟩ := ha
      simp only at hbuf hon hreads'
      refine hkeep s (hfail.trans hf) hon ?_
      rw [hbuf, ReadBuf.added_self, List.append_nil]
      exact hreads'
    | ready res =>
      cases res with
      | error e =>
        refine ⟨hlimits.trans hl, by simp [hfail], hlent, by simp [hfail], ?_⟩
        intro hd'
        rw [hd, hdone] at hd'
        cases hd'
      | ok =>
        obtain ⟨s', -, hon, hreads', -⟩ := ha
        exact hkeep s' (hfail.trans hf) hon hreads'

theorem follows_of_run (hidle : Idle S) {room : ReadBuf → Prop} {source : S} {s : List UInt8} {r : Reader T S}
    (howes : G.Owes source s stop) (hstart : Reader.start T source limits = .ok r) {evs : List Event}
    {σ : Session T S} (hrun : Session.Run H room ⟨r, none⟩ evs σ) :
    Lifecycle evs σ ∧ Follows H fr G stop ((Phase.header F.start []).walk F s) limits evs σ := by
  refine hrun.invariant H room
    (P := fun evs σ => Lifecycle evs σ ∧ Follows H fr G stop ((Phase.header F.start []).walk F s) limits evs σ)
    ⟨lifecycle_start hstart, follows_start howes hstart⟩ ?_
  intro evs σ σ' ev ⟨hlife, hfol⟩ hs
  refine ⟨hlife.step hs, ?_⟩
  cases hs with
  | next r polls => exact follows_next hfol polls
  | read r entry buf hb => exact follows_read hidle hlife hfol buf
  | drop r entry =>
    refine ⟨hfol.limits_eq, ?_, ?_, hfol.accepted, hfol.finished⟩
    · intro hf hd
      obtain ⟨s, hst, -⟩ := hfol.live hf hd
      exact ⟨s, hst, fun e i he => by cases he⟩
    · intro e he
      cases he

section Stack

open Guard Scan

variable {R : Type} [AsyncRead IoError R] {count : R → Nat}

/-- What the parser makes of the decoded stream `bytes` behind the guard. -/
def outline (F : TarFormat H) (limits : SecurityLimits) (bytes : List UInt8) : Outline :=
  (Phase.header F.start []).walk F (bytes.take (scan H limits.maxMetadataBytes.toNat none bytes).passed)

/-- What the guard stops the decoded stream with. -/
def guardStop (H : HeaderFields) (limits : SecurityLimits) (bytes : List UInt8) : Option IoError :=
  (scan H limits.maxMetadataBytes.toNat none bytes).fault.map fun e => (Fault.own e).toIo

theorem guardStop_eq_none {limits : SecurityLimits} {bytes : List UInt8} :
    guardStop H limits bytes = none ↔ (scan H limits.maxMetadataBytes.toNat none bytes).fault = none :=
  Option.map_eq_none_iff

/-- The stack over a decoded source stops as the guard or else the source does. -/
theorem owes_stack_to {C : Feed IoError (Cap count)} {decoded : R} {limits : SecurityLimits} {bytes : List UInt8}
    {stop : Option IoError} (hhushed : C.Hushed stop)
    (howes : C.Owes (.new decoded limits.maxTotalBytes.toNat limits.maxCompressionRatio.toNat) bytes stop) :
    (HeaderGuard.feed C : Feed IoError (Source H count)).Owes (stack decoded limits)
      (bytes.take (scan H limits.maxMetadataBytes.toNat none bytes).passed) ((guardStop H limits bytes).or stop) := by
  refine ⟨bytes, stop, ⟨HeaderGuard.inv_new _ _, howes, hhushed⟩, ?_, ?_⟩
  · simp only [stack, HeaderGuard.held_new, HeaderGuard.ahead_new, List.nil_append]
  · simp only [stack, HeaderGuard.ahead_new]
    rfl

theorem owes_stack {C : Feed IoError (Cap count)} {decoded : R} {limits : SecurityLimits} {bytes : List UInt8}
    (howes : C.Owes (.new decoded limits.maxTotalBytes.toNat limits.maxCompressionRatio.toNat) bytes none) :
    (HeaderGuard.feed C : Feed IoError (Source H count)).Owes (stack decoded limits)
      (bytes.take (scan H limits.maxMetadataBytes.toNat none bytes).passed) (guardStop H limits bytes) := by
  have h := owes_stack_to (H := H) C.hushed_none howes
  rwa [Option.or_none] at h

/-- A read without room changes nothing in the guard. -/
theorem idle_guard : Idle (HeaderGuard H R) := by
  intro g b hb
  show (⟨_, _, _⟩ : Polled IoError (HeaderGuard H R)) = _
  unfold HeaderGuard.poll
  rw [if_pos hb]
  rfl

/-- Sessions of a reader over a decoded stream follow its outline, whatever the buffers. -/
theorem follows_over {room : ReadBuf → Prop} {T : Tar} {F : TarFormat H} (fr : T.Frames F) {C : Feed IoError (Cap count)} {decoded : R}
    {limits : SecurityLimits} {bytes : List UInt8}
    (howes : C.Owes (.new decoded limits.maxTotalBytes.toNat limits.maxCompressionRatio.toNat) bytes none)
    {r : Reader T (Source H count)} (hstart : Reader.over T decoded limits = .ok r) {evs : List Event}
    {σ : Session T (Source H count)} (hrun : Session.Run H room ⟨r, none⟩ evs σ) :
    Lifecycle evs σ ∧ Follows H fr (HeaderGuard.feed C) (guardStop H limits bytes) (outline F limits bytes) limits
      evs σ :=
  follows_of_run idle_guard (owes_stack howes) hstart hrun

/-- The outline of a decoded stream is made of its records. -/
theorem outlined_outline (F : TarFormat H) (limits : SecurityLimits) (bytes : List UInt8) :
    Outlined F limits.maxMetadataBytes.toNat none F.start bytes (outline F limits bytes) :=
  outlined F.paxSize_start bytes

end Stack

end Etar
