import Etar.Follow
import Etar.Validation

/-!
# A clean end

A traversal comes to `Ok(None)` over exactly the streams made of complete accepted records,
a zero block and a zero trailer of at least another block. Validation inherits this: cuts
and appended bytes are found, appended zeros are not.
-/
namespace Etar

open AsyncIo Limit Guard Scan

variable {H : HeaderFields} (F : TarFormat H) (limits : SecurityLimits)

/-- Complete records that the guard, the parser and `open_entry` accept, and a zero block. -/
structure Archive (bytes recs : List UInt8) (items : List Item) (trailer : List UInt8) : Prop where
  bytes_eq : bytes = recs ++ (Block.zero.bytes ++ trailer)
  framed : Framed F limits.maxMetadataBytes.toNat none F.start recs items
  opened : ∀ i ∈ items, ∃ e : ReadEntry, openEntry H i.entry () limits = .ok e
  few : items.length ≤ limits.maxEntries.toNat

/-- What has to follow the zero block: zeros only, at least a block of them. -/
def ZeroTrailer (t : List UInt8) : Prop := (∀ b ∈ t, b = 0) ∧ 512 ≤ t.length

/-- An archive with nothing missing and nothing added. -/
def Clean (bytes : List UInt8) : Prop :=
  ∃ recs items trailer, Archive F limits bytes recs items trailer ∧ ZeroTrailer trailer

variable {F limits}

theorem Archive.outline {bytes recs trailer : List UInt8} {items : List Item}
    (h : Archive F limits bytes recs items trailer) :
    outline F limits bytes = ⟨items, .zero trailer⟩ ∧ guardStop H limits bytes = none := by
  have hscan := h.framed.scan trailer
  rw [← h.bytes_eq] at hscan
  refine ⟨?_, guardStop_eq_none.mpr (by rw [hscan])⟩
  unfold Etar.outline
  rw [hscan, List.take_length, h.bytes_eq]
  exact h.framed.walk trailer

/-- Bytes behind an archive belong to its trailer. -/
theorem Archive.append {bytes recs trailer : List UInt8} {items : List Item}
    (h : Archive F limits bytes recs items trailer) (more : List UInt8) :
    Archive F limits (bytes ++ more) recs items (trailer ++ more) :=
  ⟨by rw [h.bytes_eq, List.append_assoc, List.append_assoc], h.framed, h.opened, h.few⟩

/-- A stream is an archive in one way only. -/
theorem Archive.unique {bytes recs recs' t t' : List UInt8} {items items' : List Item}
    (h : Archive F limits bytes recs items t) (h' : Archive F limits bytes recs' items' t') :
    recs = recs' ∧ items = items' ∧ t = t' := by
  have ho := h.outline.1.symm.trans h'.outline.1
  have ht : t = t' := End.zero.inj (congrArg Outline.stop ho)
  have hb := h.bytes_eq.symm.trans h'.bytes_eq
  subst ht
  exact ⟨List.append_cancel_right hb, congrArg Outline.items ho, rfl⟩

/-- A clean archive cut before the end of its second zero block is not clean. -/
theorem Archive.cut {bytes recs t : List UInt8} {items : List Item} (h : Archive F limits bytes recs items t)
    {n : Nat} (hn : n < recs.length + 1024) : ¬ Clean F limits (bytes.take n) := by
  rintro ⟨recs', items', t', h', -, hlen⟩
  have ha := h'.append (bytes.drop n)
  rw [List.take_append_drop] at ha
  obtain ⟨rfl, -, rfl⟩ := h.unique ha
  have hl := congrArg List.length h'.bytes_eq
  simp only [List.length_take, List.length_append, Block.length_bytes] at hl
  omega

section Calls

variable {T : Tar} {S : Type} [AsyncRead IoError S] [Counters S]
variable {fr : T.Frames F} {G : Feed IoError S} {w : Outline} {stop : Option IoError}

/-- Over an archive a call fails only for the trailer. -/
theorem call_error (hG : G.Faultless) {items : List Item} {t : List UInt8}
    (hopened : ∀ i ∈ items, ∃ e : ReadEntry, openEntry H i.entry () limits = .ok e)
    (hfew : items.length ≤ limits.maxEntries.toNat) {r : Reader T S} {s : List UInt8}
    (h : On fr G none ⟨items, .zero t⟩ r s) (hl : r.limits = limits) {polls : Nat} {e : Error}
    (he : (r.nextEntry H polls).1 = .done (.error e)) : e = .malformed ∧ ¬ ZeroTrailer t := by
  have ha := next_on (H := H) polls h
  simp only [Called, he] at ha
  rcases ha with hstop | hfault | ⟨i, hi, hbad⟩ | ⟨t', ht, he, hbad⟩
  · exact absurd rfl (hstop t)
  · exact absurd hfault (not_faulty hG)
  · rcases hbad with hbad | hbad
    · obtain ⟨hlt, -⟩ := List.getElem?_eq_some_iff.mp hi
      rw [hl] at hbad
      omega
    · obtain ⟨e', he'⟩ := hopened i (List.mem_of_getElem? hi)
      rw [hl, he'] at hbad
      cases hbad
  · cases ht
    refine ⟨he, fun hz => ?_⟩
    rcases hbad with ⟨b, hb, hne⟩ | hlt
    · exact hne (hz.1 b hb)
    · exact absurd hz.2 (Nat.not_le.mpr hlt)

/-- A call of a session over a fair feed completes when it is given enough polls. -/
theorem Follows.completes {evs : List Event} {σ : Session T S} (h : Follows H fr G stop w limits evs σ) (P : G.Fair) :
    ∃ N, ∀ polls, N ≤ polls → (σ.reader.nextEntry H polls).1 ≠ .cancelled := by
  cases hf : σ.reader.bodyFailed with
  | true => exact ⟨0, fun polls _ => by simp [Reader.nextEntry, hf]⟩
  | false =>
    cases hd : σ.reader.done with
    | true => exact ⟨0, fun polls _ => by simp [Reader.nextEntry, hf, hd]⟩
    | false =>
      obtain ⟨s, hon, -⟩ := h.live hf hd
      refine ⟨P.delay σ.reader.source + s.length + 2, fun polls hN hc => ?_⟩
      have ha := next_on (H := H) polls hon
      simp only [Called, hc] at ha
      have := ha P
      omega

end Calls

section Traversals

variable {T : Tar} {S : Type} [AsyncRead IoError S] [Counters S]

/-- A traversal: a caller that waits for every call, whose body reads, in any buffers, do not fail,
and who always goes on to a next call. -/
structure Traversal (H : HeaderFields) (start : Session T S) where
  session : Nat → Session T S
  event : Nat → Event
  starts : session 0 = start
  steps : ∀ n, (session n).Step H (fun _ => True) (event n) (session (n + 1))
  waits : ∀ n, event n ≠ .next .cancelled
  reads : ∀ n e bytes, event n ≠ .read (.ready (.error e)) bytes
  goes_on : ∀ n, ∃ m, n ≤ m ∧ ∃ res, event m = .next res

namespace Traversal

variable {start : Session T S} (tr : Traversal H start)

/-- The steps before the `n`th. -/
def history (n : Nat) : List Event := (List.range n).map tr.event

theorem history_succ (n : Nat) : tr.history (n + 1) = tr.history n ++ [tr.event n] := by
  simp [history, List.range_succ]

theorem run (n : Nat) : Session.Run H (fun _ => True) start (tr.history n) (tr.session n) := by
  induction n with
  | zero =>
    rw [tr.starts]
    exact .start
  | succ n ih =>
    rw [history_succ]
    exact .step ih (tr.steps n)

theorem mem_history {n m : Nat} (h : m < n) : tr.event m ∈ tr.history n :=
  List.mem_map_of_mem (List.mem_range.mpr h)

theorem seen_mono {n m : Nat} (h : n ≤ m) : (tr.session n).reader.seen ≤ (tr.session m).reader.seen := by
  induction h with
  | refl => exact le_refl _
  | @step m _ ih =>
    refine ih.trans ?_
    have hs := tr.steps m
    generalize tr.session m = σ at hs
    generalize tr.session (m + 1) = σ' at hs
    generalize tr.event m = ev at hs
    cases hs with
    | next r polls => exact (Reader.nextEntry_kept r polls).2.1
    | read r entry buf hb => exact (Reader.pollBody_kept r entry buf).2.1.ge
    | drop r entry => exact le_refl _

variable {F : TarFormat H} {fr : T.Frames F} {G : Feed IoError S} {w : Outline} {stop : Option IoError}
variable {limits : SecurityLimits}

/-- A traversal that went well so far stands on its outline. -/
theorem on_outline {n : Nat} (hgood : ∀ ev ∈ tr.history n, ¬ ev.Bad)
    (hnever : ∀ n, tr.event n ≠ .next (.done (.ok none))) (hlife : Lifecycle (tr.history n) (tr.session n))
    (hfol : Follows H fr G stop w limits (tr.history n) (tr.session n)) :
    ∃ s, On fr G stop w (tr.session n).reader s := by
  have hf : (tr.session n).reader.bodyFailed = false := by
    cases hf : (tr.session n).reader.bodyFailed with
    | false => rfl
    | true =>
      obtain ⟨ev, hev, hbad⟩ := hlife.poisoned.mp hf
      exact absurd hbad (hgood ev hev)
  have hd : (tr.session n).reader.done = false := by
    cases hd : (tr.session n).reader.done with
    | false => rfl
    | true =>
      obtain ⟨m, -, hm⟩ := List.mem_map.mp (hlife.finished.mp hd)
      exact absurd hm (hnever m)
  obtain ⟨s, hon, -⟩ := hfol.live hf hd
  exact ⟨s, hon⟩

section Archives

variable {items : List Item} {t : List UInt8} (hG : G.Faultless)
  (hopened : ∀ i ∈ items, ∃ e : ReadEntry, openEntry H i.entry () limits = .ok e)
  (hfew : items.length ≤ limits.maxEntries.toNat) (hz : ZeroTrailer t)
  (hfol : ∀ n, Lifecycle (tr.history n) (tr.session n) ∧
    Follows H fr G none ⟨items, .zero t⟩ limits (tr.history n) (tr.session n))
  (hnever : ∀ n, tr.event n ≠ .next (.done (.ok none)))

include hG hopened hfew hz hfol hnever

/-- Over an archive with a zero trailer no call of a traversal fails. -/
theorem not_bad (n : Nat) : ∀ ev ∈ tr.history n, ¬ ev.Bad := by
  induction n with
  | zero =>
    intro ev hev
    cases hev
  | succ n ih =>
    intro ev hev
    rw [history_succ] at hev
    rcases List.mem_append.mp hev with hev | hev
    · exact ih ev hev
    · rw [List.mem_singleton] at hev
      subst hev
      obtain ⟨hlife, hfoln⟩ := hfol n
      obtain ⟨s, hon⟩ := tr.on_outline ih hnever hlife hfoln
      have hl := hfoln.limits_eq
      have hs := tr.steps n
      have hwait := tr.waits n
      have hread := tr.reads n
      generalize tr.session n = σ at hs hon hl
      generalize tr.session (n + 1) = σ' at hs
      generalize tr.event n = ev at hs hwait hread
      cases hs with
      | next r polls =>
        cases hres : (r.nextEntry H polls).1 with
        | cancelled => exact absurd (by rw [hres]) hwait
        | done res =>
          cases res with
          | error e => exact absurd hz (call_error hG hopened hfew hon hl hres).2
          | ok o => exact id
      | read r entry buf hb =>
        cases hres : (r.pollBody entry buf).1 with
        | pending => exact id
        | ready res =>
          cases res with
          | error e => exact absurd (by rw [hres]) (hread e _)
          | ok => exact id
      | drop r entry => exact id

/-- Every call hands out one more member. -/
theorem seen_next {n : Nat} {res : Await (Except Error (Option ReadEntry))} (hev : tr.event n = .next res) :
    (tr.session (n + 1)).reader.seen = (tr.session n).reader.seen + 1 := by
  obtain ⟨hlife, hfoln⟩ := hfol n
  obtain ⟨s, hon⟩ := tr.on_outline (tr.not_bad hG hopened hfew hz hfol hnever n) hnever hlife hfoln
  have hgood := tr.not_bad hG hopened hfew hz hfol hnever (n + 1) _ (tr.mem_history (Nat.lt_succ_self n))
  have hnot := hnever n
  have hs := tr.steps n
  generalize tr.session n = σ at hs hon
  generalize tr.session (n + 1) = σ' at hs
  generalize tr.event n = ev at hs hgood hnot hev
  cases hs with
  | next r polls =>
    have ha := next_on (H := H) polls hon
    cases hres : (r.nextEntry H polls).1 with
    | cancelled =>
      rw [hres] at hgood
      exact absurd trivial hgood
    | done res =>
      cases res with
      | error e =>
        rw [hres] at hgood
        exact absurd trivial hgood
      | ok o =>
        cases o with
        | none => exact absurd (by rw [hres]) hnot
        | some e =>
          simp only [Called, hres] at ha
          obtain ⟨i, s', -, -, hseen, -⟩ := ha
          exact hseen
  | read r entry buf hb => cases hev
  | drop r entry => cases hev

theorem seen_unbounded (k : Nat) : ∃ n, k ≤ (tr.session n).reader.seen := by
  induction k with
  | zero => exact ⟨0, Nat.zero_le _⟩
  | succ k ih =>
    obtain ⟨n, hn⟩ := ih
    obtain ⟨m, hle, res, hev⟩ := tr.goes_on n
    refine ⟨m + 1, ?_⟩
    rw [tr.seen_next hG hopened hfew hz hfol hnever hev]
    exact Nat.succ_le_succ (hn.trans (tr.seen_mono hle))

end Archives

end Traversal

end Traversals

section Validation

variable {T : Tar} {S : Type} [AsyncRead IoError S] [Counters S]
variable {fr : T.Frames F} {G : Feed IoError S} {w : Outline} {stop : Option IoError}

/-- What copying a body to its end answers. -/
def Copied (fr : T.Frames F) (G : Feed IoError S) (stop : Option IoError) (w : Outline) (polls : Nat)
    (r : Reader T S) (s : List UInt8) (i : Item) (p : Await (Except IoError Unit) × Reader T S) : Prop :=
  match p.1 with
  | .cancelled => ∀ P : G.Fair, polls ≤ P.delay r.source + s.length
  | .done (.ok ()) => ∃ s', On fr G stop w p.2 s' ∧ p.2.seen = r.seen ∧ p.2.limits = r.limits ∧
      i.len ≤ r.limits.maxEntryBytes.toNat ∧
      ∀ P : G.Fair, P.delay p.2.source + s'.length ≤ P.delay r.source + s.length
  | .done (.error _) => Faulty G stop ∨ (∀ t, w.stop ≠ .zero t) ∨ r.limits.maxEntryBytes.toNat < i.len

omit [Counters S] in
/-- One more poll that made progress. -/
theorem Copied.step {polls : Nat} {r r' : Reader T S} {s s' : List UInt8} {i : Item}
    {p : Await (Except IoError Unit) × Reader T S} (h : Copied fr G stop w polls r' s' i p)
    (hseen : r'.seen = r.seen) (hlimits : r'.limits = r.limits)
    (hlt : ∀ P : G.Fair, P.delay r'.source + s'.length < P.delay r.source + s.length) :
    Copied fr G stop w (polls + 1) r s i p := by
  unfold Copied at *
  rw [hseen, hlimits] at h
  split at h
  · intro P
    have := h P
    have := hlt P
    omega
  · obtain ⟨s₂, hon, hs, hl, hlen, hcost⟩ := h
    exact ⟨s₂, hon, hs, hl, hlen, fun P => (hcost P).trans (hlt P).le⟩
  · exact h

omit [Counters S] in
theorem copied (polls : Nat) {r : Reader T S} {s read : List UInt8} {e : ReadEntry} {i : Item}
    (h : On fr G stop w r s) (hr : Reads r.limits (fr.phase r.parser) s read e i) :
    Copied fr G stop w polls r s i (r.copyBody polls e) := by
  induction polls generalizing r s read e with
  | zero => exact fun P => Nat.zero_le _
  | succ polls ih =>
    have hroom : 0 < (ReadBuf.new 8192).remaining := by decide
    have ha := read_on (H := H) h hr hroom
    obtain ⟨hlimits, hseen, -⟩ := Reader.pollBody_kept r e (.new 8192)
    unfold Reader.copyBody
    generalize r.pollBody e (.new 8192) = p at ha hlimits hseen
    rcases p with ⟨o, buf, e', r'⟩
    simp only at hlimits hseen
    cases o with
    | pending =>
      obtain ⟨-, hon, hreads, hdelay⟩ := ha
      simp only at hon hreads hdelay
      rw [← hlimits] at hreads
      exact (ih hon hreads).step hseen hlimits fun P => Nat.add_lt_add_right (hdelay P) _
    | ready res =>
      cases res with
      | error err => exact ha
      | ok =>
        obtain ⟨s', hs, hon, hreads, hend, hdelay⟩ := ha
        simp only [ReadBuf.added_new] at hs hon hreads hend hdelay
        by_cases hnil : buf.filled = []
        · simp only [hnil, if_true]
          rw [hnil, List.nil_append] at hs
          refine ⟨s', hon, hseen, hlimits, ?_, fun P => ?_⟩
          · have h0 := hend hnil
            have hb := hreads.bound
            have hl := hreads.len
            omega
          · rw [hs]
            exact Nat.add_le_add_right (hdelay P) _
        · simp only [hnil, if_false]
          rw [← hlimits] at hreads
          have hpos := List.length_pos_iff.mpr hnil
          refine (ih hon hreads).step hseen hlimits fun P => ?_
          have := hdelay P
          rw [hs, List.length_append]
          omega

/-- What the rest of a validation answers, and after how many more calls. -/
def Validated (H : HeaderFields) (G : Feed IoError S) (stop : Option IoError) (w : Outline)
    (polls calls entries : Nat) (r : Reader T S) (s : List UInt8) (v : Validation T S) : Prop :=
  v.calls ≤ calls + (w.items.length - r.seen) + 1 ∧
  match v.result with
  | .cancelled => ∀ P : G.Fair, polls ≤ P.delay r.source + s.length + (w.items.length - r.seen) + 2
  | .done (.ok report) => ∃ t, w.stop = .zero t ∧ stop = none ∧ ZeroTrailer t ∧
      (∀ i ∈ w.items.drop r.seen, i.len ≤ r.limits.maxEntryBytes.toNat ∧
        ∃ e : ReadEntry, openEntry H i.entry () r.limits = .ok e) ∧
      w.items.length ≤ max r.seen r.limits.maxEntries.toNat ∧
      report = ⟨entries + (w.items.length - r.seen), v.last.reader.encodedBytes, v.last.reader.decodedBytes⟩ ∧
      SourceEnd G v.last.reader.source
  | .done (.error e) => (∀ t, w.stop ≠ .zero t) ∨ Faulty G stop ∨
      (∃ i ∈ w.items, r.limits.maxEntryBytes.toNat < i.len) ∨ r.limits.maxEntries.toNat < w.items.length ∨
      (∃ i ∈ w.items, openEntry H i.entry () r.limits = .error e) ∨
      (∃ t, w.stop = .zero t ∧ e = .malformed ∧ ¬ ZeroTrailer t)

theorem validated (polls calls entries : Nat) {r : Reader T S} {s : List UInt8} (h : On fr G stop w r s) :
    Validated H G stop w polls calls entries r s (r.validating H polls calls entries) := by
  induction polls generalizing calls entries r s with
  | zero => exact ⟨by simp only [Reader.validating]; omega, fun P => Nat.zero_le _⟩
  | succ polls ih =>
    have ha := next_on (H := H) polls h
    unfold Reader.validating
    generalize r.nextEntry H polls = p at ha
    rcases p with ⟨res, r'⟩
    cases res with
    | cancelled =>
      refine ⟨by dsimp only; omega, fun P => ?_⟩
      have : polls ≤ P.delay r.source + s.length + 1 := ha P
      omega
    | done res =>
      cases res with
      | error e =>
        refine ⟨by dsimp only; omega, ?_⟩
        rcases ha with hstop | hfault | ⟨i, hi, hbad⟩ | ⟨t, ht, he, hbad⟩
        · exact Or.inl hstop
        · exact Or.inr (Or.inl hfault)
        · obtain ⟨hlt, -⟩ := List.getElem?_eq_some_iff.mp hi
          rcases hbad with hbad | hbad
          · exact Or.inr (Or.inr (Or.inr (Or.inl (by omega))))
          · exact Or.inr (Or.inr (Or.inr (Or.inr (Or.inl ⟨i, List.mem_of_getElem? hi, hbad⟩))))
        · refine Or.inr (Or.inr (Or.inr (Or.inr (Or.inr ⟨t, ht, he, fun hz => ?_⟩))))
          rcases hbad with ⟨b, hb, hne⟩ | hlt
          · exact hne (hz.1 b hb)
          · exact absurd hz.2 (Nat.not_le.mpr hlt)
      | ok o =>
        cases o with
        | none =>
          obtain ⟨t, hw, hstop, hz, h512, hall, hend⟩ := ha
          refine ⟨by dsimp only; omega, t, hw, hstop, ⟨hz, h512⟩, ?_, by omega, ?_, hend⟩
          · rw [List.drop_eq_nil_of_le hall]
            simp
          · rw [Nat.sub_eq_zero_of_le hall, Nat.add_zero]
        | some e =>
          obtain ⟨i, s', hi, ho, hseen, hmax, hlimits, hon, hreads, hcost⟩ := ha
          simp only at hseen hmax hlimits hon hreads hcost
          rw [← hlimits] at hreads
          have hc := copied polls hon hreads
          rw [Reader.copying_eq] at hc
          dsimp only
          generalize r'.copying polls e = q at hc
          rcases q with ⟨res, σ⟩
          obtain ⟨hlt, -⟩ := List.getElem?_eq_some_iff.mp hi
          cases res with
          | cancelled =>
            refine ⟨by dsimp only; omega, fun P => ?_⟩
            have : polls ≤ P.delay r'.source + s'.length := hc P
            have := hcost P
            omega
          | done res =>
            cases res with
            | error err =>
              refine ⟨by dsimp only; omega, ?_⟩
              rcases hc with hfault | hstop | hlen
              · exact Or.inr (Or.inl hfault)
              · exact Or.inl hstop
              · rw [hlimits] at hlen
                exact Or.inr (Or.inr (Or.inl ⟨i, List.mem_of_getElem? hi, hlen⟩))
            | ok =>
              obtain ⟨s₂, hon₂, hseen₂, hlimits₂, hlen, hcost₂⟩ := hc
              simp only at hon₂ hseen₂ hlimits₂ hcost₂
              obtain ⟨hcalls, hv⟩ := ih (calls + 1) (entries + 1) hon₂
              dsimp only
              generalize σ.reader.validating H polls (calls + 1) (entries + 1) = v at hcalls hv
              rw [hseen₂, hseen] at hcalls
              refine ⟨by omega, ?_⟩
              rw [hlimits₂, hlimits, hseen₂, hseen] at hv
              rcases v with ⟨res, calls', last⟩
              cases res with
              | cancelled =>
                intro P
                have := hv P
                have := hcost P
                have := hcost₂ P
                omega
              | done res =>
                cases res with
                | error e => exact hv
                | ok report =>
                  obtain ⟨t, hw, hstop, hz, hall, hfew, hreport, hend⟩ := hv
                  refine ⟨t, hw, hstop, hz, ?_, by omega, ?_, hend⟩
                  · intro i' hi'
                    rw [List.drop_eq_getElem_cons hlt] at hi'
                    rcases List.mem_cons.mp hi' with rfl | hi'
                    · have hi₀ := (List.getElem?_eq_getElem hlt).symm.trans hi
                      rw [Option.some.inj hi₀]
                      refine ⟨?_, e, ho⟩
                      rw [← hlimits]
                      exact hlen
                    · exact hall i' hi'
                  · rw [hreport, show entries + 1 + (w.items.length - (r.seen + 1)) =
                      entries + (w.items.length - r.seen) by omega]

end Validation

section Readers

variable {T : Tar} {F : TarFormat H} {R : Type} [AsyncRead IoError R] {count : R → Nat} {D : Feed IoError R}
variable {limits : SecurityLimits} {decoded : R} {bytes : List UInt8} {r : Reader T (Source H count)}

/-- A decoded source with these bytes, on which the total and the ratio do not trip. -/
structure Supplies (D : Feed IoError R) (count : R → Nat) (limits : SecurityLimits) (decoded : R)
    (bytes : List UInt8) : Prop where
  owes : D.Owes decoded bytes none
  untripped : (Cap.new decoded limits.maxTotalBytes.toNat limits.maxCompressionRatio.toNat : Cap count).NoTrip

theorem Supplies.owes_cap (h : Supplies D count limits decoded bytes) :
    (Cap.within D : Feed IoError (Cap count)).Owes
      (.new decoded limits.maxTotalBytes.toNat limits.maxCompressionRatio.toNat) bytes none :=
  ⟨⟨rfl, h.untripped, Nat.le_sub_one_of_lt limits.maxTotalBytes.toNat_lt, Nat.zero_le _⟩, h.owes⟩

/-- The feed under the parser. -/
abbrev guarded (H : HeaderFields) (D : Feed IoError R) (count : R → Nat) : Feed IoError (Source H count) :=
  HeaderGuard.feed (Cap.within D)

variable (fr : T.Frames F)

theorem Supplies.follows (h : Supplies D count limits decoded bytes) (hstart : Reader.over T decoded limits = .ok r)
    {room : ReadBuf → Prop} {evs : List Event} {σ : Session T (Source H count)}
    (hrun : Session.Run H room ⟨r, none⟩ evs σ) : Lifecycle evs σ ∧ Follows H fr (guarded H D count) (guardStop H limits bytes) (outline F limits bytes) limits
      evs σ :=
  follows_over fr h.owes_cap hstart hrun

omit [AsyncRead IoError R] in
theorem start_fields (hstart : Reader.over T decoded limits = .ok r) :
    r.seen = 0 ∧ r.limits = limits ∧ r.bodyFailed = false ∧ r.done = false := by
  obtain ⟨parser, rfl⟩ := Reader.start_ok hstart
  exact ⟨rfl, rfl, rfl, rfl⟩

theorem Supplies.on (h : Supplies D count limits decoded bytes) (hstart : Reader.over T decoded limits = .ok r) :
    ∃ s, On fr (guarded H D count) (guardStop H limits bytes) (outline F limits bytes) r s := by
  obtain ⟨-, -, hf, hd⟩ := start_fields hstart
  have hfollows : Follows H fr (guarded H D count) _ _ _ _ _ := follows_start (owes_stack h.owes_cap) hstart
  obtain ⟨s, hon, -⟩ := hfollows.live hf hd
  exact ⟨s, hon⟩

variable {fr}

/-- What a validation that answers `Ok` has seen. -/
theorem clean_of_outline {t : List UInt8} (hstop : (outline F limits bytes).stop = .zero t)
    (hopened : ∀ i ∈ (outline F limits bytes).items, ∃ e : ReadEntry, openEntry H i.entry () limits = .ok e)
    (hfew : (outline F limits bytes).items.length ≤ limits.maxEntries.toNat) :
    ∃ recs, Archive F limits bytes recs (outline F limits bytes).items t := by
  obtain ⟨recs, hbytes, hframed⟩ := (outlined_outline F limits bytes).framed hstop
  exact ⟨recs, hbytes, hframed, hopened, hfew⟩

variable (P : D.Fair) (hD : D.Faultless)

include hD in
/-- The only error under the parser is the guard's last answer. -/
theorem guarded_faultless : (guarded H D count).Faultless :=
  HeaderGuard.faultless (Cap.within_faultless hD)

variable (fr)

include fr hD in
/-- Any traversal comes to a clean end over a clean archive, and over nothing else. -/
theorem traversal_ends_iff (h : Supplies D count limits decoded bytes)
    (hstart : Reader.over T decoded limits = .ok r) (tr : Traversal H ⟨r, none⟩) :
    (∃ n, tr.event n = .next (.done (.ok none))) ↔ Clean F limits bytes := by
  constructor
  · rintro ⟨n, hn⟩
    obtain ⟨hlife, hfol⟩ := h.follows fr hstart (tr.run (n + 1))
    have hend : Event.next (.done (.ok none)) ∈ tr.history (n + 1) := by
      rw [← hn]
      exact tr.mem_history (Nat.lt_succ_self n)
    have hd := hlife.finished.mpr hend
    obtain ⟨t, hstop, -, hz, h512, hall⟩ := hfol.finished hd
    obtain ⟨hmax, hacc⟩ := hfol.accepted (hlife.last hd).1
    rw [List.take_of_length_le hall] at hacc
    obtain ⟨recs, harch⟩ := clean_of_outline hstop hacc (hall.trans hmax)
    exact ⟨recs, _, t, harch, hz, h512⟩
  · rintro ⟨recs, items, t, harch, hz⟩
    by_contra hnever
    have hnever : ∀ n, tr.event n ≠ .next (.done (.ok none)) := fun n hn => hnever ⟨n, hn⟩
    have hfol : ∀ n, Lifecycle (tr.history n) (tr.session n) ∧
        Follows H fr (guarded H D count) none ⟨items, .zero t⟩ limits (tr.history n) (tr.session n) := by
      intro n
      have := h.follows fr hstart (tr.run n)
      rwa [harch.outline.1, harch.outline.2] at this
    have hG : (guarded H D count).Faultless := guarded_faultless hD
    obtain ⟨n, hn⟩ := tr.seen_unbounded hG harch.opened harch.few hz hfol hnever (limits.maxEntries.toNat + 1)
    obtain ⟨hlife, hfoln⟩ := hfol n
    have hgood := tr.not_bad hG harch.opened harch.few hz hfol hnever n
    have hf : (tr.session n).reader.bodyFailed = false := by
      cases hf : (tr.session n).reader.bodyFailed with
      | false => rfl
      | true =>
        obtain ⟨ev, hev, hbad⟩ := hlife.poisoned.mp hf
        exact absurd hbad (hgood ev hev)
    have := (hfoln.accepted hf).1
    omega

include fr P in
/-- Every call that is given enough polls completes. -/
theorem calls_complete (h : Supplies D count limits decoded bytes) (hstart : Reader.over T decoded limits = .ok r)
    {room : ReadBuf → Prop} {evs : List Event} {σ : Session T (Source H count)}
    (hrun : Session.Run H room ⟨r, none⟩ evs σ) : ∃ N, ∀ polls, N ≤ polls → (σ.reader.nextEntry H polls).1 ≠ .cancelled :=
  (h.follows fr hstart hrun).2.completes (HeaderGuard.fair (Cap.within_fair P))

include fr P in
/-- A validation that is given enough polls completes. -/
theorem validation_completes (h : Supplies D count limits decoded bytes)
    (hstart : Reader.over T decoded limits = .ok r) :
    ∃ N, ∀ polls, N ≤ polls → ∃ res s, r.validateFrom H polls 0 = .done res ∧
      (r.validating H polls 0 0).result = .done res ∧
      Validated H (guarded H D count) (guardStop H limits bytes) (outline F limits bytes) polls 0 0 r s
        (r.validating H polls 0 0) := by
  obtain ⟨s, hon⟩ := h.on fr hstart
  have PG : (guarded H D count).Fair := HeaderGuard.fair (Cap.within_fair P)
  refine ⟨PG.delay r.source + s.length + ((outline F limits bytes).items.length - r.seen) + 3, fun polls hN => ?_⟩
  have hv : Validated H (guarded H D count) _ (outline F limits bytes) polls 0 0 r s _ := validated polls 0 0 hon
  rw [Reader.validating_eq H polls 0 0 r]
  cases hres : (r.validating H polls 0 0).result with
  | cancelled =>
    have hcost := hv.2
    rw [hres] at hcost
    have := hcost PG
    omega
  | done res => exact ⟨res, s, rfl, rfl, hv⟩

/-- An accepted validation read a clean archive, and no body over the limit. -/
theorem clean_of_validated (hstart : Reader.over T decoded limits = .ok r) {polls : Nat} {s : List UInt8}
    {G : Feed IoError (Source H count)} {stop : Option IoError} {v : Validation T (Source H count)}
    {report : ValidationReport} (hv : Validated H G stop (outline F limits bytes) polls 0 0 r s v)
    (hres : v.result = .done (.ok report)) :
    ∃ recs items trailer, Archive F limits bytes recs items trailer ∧ ZeroTrailer trailer ∧
      (∀ i ∈ items, i.len ≤ limits.maxEntryBytes.toNat) ∧
      report = ⟨items.length, v.last.reader.encodedBytes, v.last.reader.decodedBytes⟩ ∧
      SourceEnd G v.last.reader.source := by
  obtain ⟨hseen, hl, -, -⟩ := start_fields hstart
  have hok := hv.2
  rw [hres] at hok
  obtain ⟨t, hstop, -, hz, hall, hfew, hreport, hend⟩ := hok
  rw [hseen, List.drop_zero, hl] at hall
  rw [hseen, hl] at hfew
  rw [hseen, Nat.sub_zero, Nat.zero_add] at hreport
  obtain ⟨recs, harch⟩ := clean_of_outline hstop (fun i hi => (hall i hi).2) (by omega)
  exact ⟨recs, _, t, harch, hz, fun i hi => (hall i hi).1, hreport, hend⟩

include fr P hD in
/-- Over an archive whose bodies are within the limit, validation judges the trailer. -/
theorem validation_of_archive (h : Supplies D count limits decoded bytes)
    (hstart : Reader.over T decoded limits = .ok r) {recs trailer : List UInt8} {items : List Item}
    (harch : Archive F limits bytes recs items trailer) (hlen : ∀ i ∈ items, i.len ≤ limits.maxEntryBytes.toNat) :
    ∃ N, ∀ polls, N ≤ polls →
      (ZeroTrailer trailer → ∃ report, r.validateFrom H polls 0 = .done (.ok report)) ∧
      (¬ ZeroTrailer trailer → r.validateFrom H polls 0 = .done (.error .malformed)) := by
  obtain ⟨-, hl, -, -⟩ := start_fields hstart
  have hG : (guarded H D count).Faultless := guarded_faultless hD
  obtain ⟨N, hN⟩ := validation_completes fr P h hstart
  refine ⟨N, fun polls hp => ?_⟩
  obtain ⟨res, s, hres, hlast, -, hv⟩ := hN polls hp
  rw [harch.outline.1, harch.outline.2, hlast] at hv
  rw [hres]
  cases res with
  | ok report =>
    obtain ⟨t, hstop, -, hz, -⟩ := hv
    cases hstop
    exact ⟨fun _ => ⟨report, rfl⟩, fun hnz => absurd hz hnz⟩
  | error e =>
    have he : e = .malformed ∧ ¬ ZeroTrailer trailer := by
      rcases hv with hstop | hfault | ⟨i, hi, hlt⟩ | hlt | ⟨i, hi, ho⟩ | ⟨t, hstop, he, hz⟩
      · exact absurd rfl (hstop trailer)
      · exact absurd hfault (not_faulty hG)
      · rw [hl] at hlt
        exact absurd (hlen i hi) (Nat.not_le.mpr hlt)
      · rw [hl] at hlt
        exact absurd harch.few (Nat.not_le.mpr hlt)
      · obtain ⟨e', he'⟩ := harch.opened i hi
        rw [hl, he'] at ho
        cases ho
      · cases hstop
        exact ⟨he, hz⟩
    exact ⟨fun hz => absurd hz he.2, fun _ => by rw [he.1]⟩

include fr P hD in
/-- A traversal comes to `Ok(None)` over exactly the clean archives, whatever the reads are.
What validation accepted it rejects when it is cut before the end of the second zero block,
or when anything but zeros is appended, and accepts with zeros appended. -/
theorem clean_end_is_verified (h : Supplies D count limits decoded bytes)
    (hstart : Reader.over T decoded limits = .ok r) :
    (∀ evs σ, Session.Run H (fun _ => True) ⟨r, none⟩ evs σ →
      ∃ N, ∀ polls, N ≤ polls → (σ.reader.nextEntry H polls).1 ≠ .cancelled) ∧
    (∀ tr : Traversal H ⟨r, none⟩, (∃ n, tr.event n = .next (.done (.ok none))) ↔ Clean F limits bytes) ∧
    (∀ polls report, r.validateFrom H polls 0 = .done (.ok report) →
      ∃ recs items trailer, Archive F limits bytes recs items trailer ∧ ZeroTrailer trailer ∧
        (∀ n, n < recs.length + 1024 → ∀ decoded' (r' : Reader T (Source H count)),
          Supplies D count limits decoded' (bytes.take n) → Reader.over T decoded' limits = .ok r' →
          ∃ N, ∀ polls, N ≤ polls → ∃ e, r'.validateFrom H polls 0 = .done (.error e)) ∧
        (∀ more, (∃ b ∈ more, b ≠ 0) → ∀ decoded' (r' : Reader T (Source H count)),
          Supplies D count limits decoded' (bytes ++ more) → Reader.over T decoded' limits = .ok r' →
          ∃ N, ∀ polls, N ≤ polls → r'.validateFrom H polls 0 = .done (.error .malformed)) ∧
        (∀ more, (∀ b ∈ more, b = 0) → ∀ decoded' (r' : Reader T (Source H count)),
          Supplies D count limits decoded' (bytes ++ more) → Reader.over T decoded' limits = .ok r' →
          ∃ N, ∀ polls, N ≤ polls → ∃ report', r'.validateFrom H polls 0 = .done (.ok report'))) := by
  refine ⟨fun evs σ hrun => calls_complete fr P h hstart hrun, fun tr => traversal_ends_iff fr hD h hstart tr, ?_⟩
  intro polls report hres
  obtain ⟨s, hon⟩ := h.on fr hstart
  have hv : Validated H (guarded H D count) _ (outline F limits bytes) polls 0 0 r s _ := validated polls 0 0 hon
  rw [Reader.validating_eq H polls 0 0 r] at hres
  obtain ⟨recs, items, trailer, harch, hz, hlen, -⟩ := clean_of_validated hstart hv hres
  refine ⟨recs, items, trailer, harch, hz, ?_, ?_, ?_⟩
  · intro n hn decoded' r' h' hstart'
    obtain ⟨N, hN⟩ := validation_completes fr P h' hstart'
    refine ⟨N, fun polls hp => ?_⟩
    obtain ⟨res, s', hres', hlast, hv'⟩ := hN polls hp
    rw [hres']
    cases res with
    | error e => exact ⟨e, rfl⟩
    | ok report' =>
      obtain ⟨recs', items', trailer', harch', hz', -⟩ := clean_of_validated hstart' hv' hlast
      exact absurd ⟨recs', items', trailer', harch', hz'⟩ (harch.cut hn)
  · intro more ⟨b, hb, hne⟩ decoded' r' h' hstart'
    obtain ⟨N, hN⟩ := validation_of_archive fr P hD h' hstart' (harch.append more) hlen
    refine ⟨N, fun polls hp => (hN polls hp).2 fun hz' => ?_⟩
    exact hne (hz'.1 b (List.mem_append_right _ hb))
  · intro more hmore decoded' r' h' hstart'
    obtain ⟨N, hN⟩ := validation_of_archive fr P hD h' hstart' (harch.append more) hlen
    refine ⟨N, fun polls hp => (hN polls hp).1 ⟨?_, ?_⟩⟩
    · intro b hb
      rcases List.mem_append.mp hb with hb | hb
      · exact hz.1 b hb
      · exact hmore b hb
    · have := hz.2
      rw [List.length_append]
      omega

/-- Nothing read off a script within the total breaks the cap. -/
theorem untripped_script {bytes : List UInt8} (hlen : bytes.length ≤ limits.maxTotalBytes.toNat)
    (beats : List (Beat IoError)) :
    (Cap.new ⟨bytes, beats⟩ limits.maxTotalBytes.toNat
      limits.maxCompressionRatio.toNat : Cap fun _ : Script IoError => 0).NoTrip := by
  intro out s b hrun hne
  have hrest := Script.rest_eq_of_run hrun
  rw [Script.rest_eq s b] at hrest
  have hl := congrArg List.length hrest
  simp only [Cap.new, List.length_append] at hl
  refine Cap.broken_eq_none.mpr ⟨?_, fun _ h0 => absurd h0 (Nat.lt_irrefl 0)⟩
  simp only [Cap.new]
  omega

theorem supplies_script {bytes : List UInt8} (hlen : bytes.length ≤ limits.maxTotalBytes.toNat) :
    Supplies Script.steadyFeed (fun _ => 0) limits ⟨bytes, []⟩ bytes :=
  ⟨⟨⟨rfl, rfl⟩, by intro e he; cases he⟩, untripped_script hlen []⟩

/-- A file of five bytes with a path of 150, and a link to it. -/
def Gnu.assorted : List UInt8 :=
  (member 76 151).block.bytes ++ pad 512 (List.replicate 150 97) ++
    (member 48 5).block.bytes ++ pad 512 [104, 101, 108, 108, 111] ++
    ({ member 50 0 with name := [108], link := List.replicate 99 97 } : Fields).block.bytes ++ List.replicate 1024 0

/-- The archive of a file and a link is accepted; with a byte appended it is malformed, and cut
within the record of the long path it is an error. -/
theorem clean_end_is_verified_sample :
    (fresh Gnu.format .default ⟨Gnu.assorted, []⟩).validateFrom gnuFields 40 0 = .done (.ok ⟨2, 0, 3584⟩) ∧
    (∃ N, ∀ polls, N ≤ polls → (fresh Gnu.format .default ⟨Gnu.assorted ++ [1], []⟩).validateFrom gnuFields polls 0 =
      .done (.error .malformed)) ∧
    ∀ n < 1024, ∃ N, ∀ polls, N ≤ polls →
      ∃ e, (fresh Gnu.format .default ⟨Gnu.assorted.take n, []⟩).validateFrom gnuFields polls 0 = .done (.error e) := by
  have hres : (fresh Gnu.format .default ⟨Gnu.assorted, []⟩).validateFrom gnuFields 40 0 = .done (.ok ⟨2, 0, 3584⟩) := by
    decide +kernel
  have hlen : (Gnu.assorted ++ [1]).length ≤ SecurityLimits.default.maxTotalBytes.toNat := by decide +kernel
  have hlen' : Gnu.assorted.length ≤ SecurityLimits.default.maxTotalBytes.toNat := by decide +kernel
  obtain ⟨recs, items, trailer, -, -, hcut, happend, -⟩ := (clean_end_is_verified Gnu.frames Script.steadyFair
    Script.steady_faultless (supplies_script hlen') (over_fresh _ _ _)).2.2 40 _ hres
  refine ⟨hres, happend [1] ⟨1, by decide, by decide⟩ _ _ (supplies_script hlen) (over_fresh _ _ _), ?_⟩
  intro n hn
  have hshort : (Gnu.assorted.take n).length ≤ SecurityLimits.default.maxTotalBytes.toNat :=
    (List.length_take_le' _ _).trans hlen'
  exact hcut n (by omega) _ _ (supplies_script hshort) (over_fresh _ _ _)

end Readers

end Etar
