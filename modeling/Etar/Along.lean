import Etar.NextSpec
import Etar.Records

/-!
# One call along an outline

A reader whose parser is on the outline `w` of the bytes ahead: what a call and a body poll
answer, in terms of the outline's items and of what it stops at.
-/
namespace Etar

open AsyncIo Limit

variable {T : Tar} {S : Type} [AsyncRead IoError S] [Counters S] {H : HeaderFields} {F : TarFormat H}
variable (fr : T.Frames F) (G : Feed IoError S) (stop : Option IoError) (w : Outline)

/-- A live reader that has handed out `seen` items of the outline and has `s` ahead. -/
abbrev On (r : Reader T S) (s : List UInt8) : Prop :=
  Stands fr G stop (fun φ s => φ.walk F s = w.after r.seen) r s

/-- A lent body at `φ` with `s` ahead, of which `read` was read before. -/
structure Reads (limits : SecurityLimits) (φ : Phase F.Ext) (s read : List UInt8) (e : ReadEntry) (i : Item) :
    Prop where
  lending : Lending φ
  failed : e.body.failed = false
  bound : e.body.remaining + read.length = limits.maxEntryBytes.toNat
  len : i.len = read.length + φ.left
  body : i.body = read ++ s.take φ.left

variable (H)

/-- The entry `e` was opened from the item handed out last, `i`. -/
structure Lends (limits : SecurityLimits) (seen : Nat) (e : ReadEntry) (i : Item) : Prop where
  pos : 0 < seen
  nth : w.items[seen - 1]? = some i
  opened : openEntry H i.entry () limits = .ok { e with body := .new () limits.maxEntryBytes.toNat }

/-- What a call answers. -/
def Called (polls : Nat) (r : Reader T S) (s : List UInt8)
    (p : Await (Except Error (Option ReadEntry)) × Reader T S) : Prop :=
  match p.1 with
  | .cancelled => ∀ P : G.Fair, polls ≤ P.delay r.source + s.length + 1
  | .done (.ok (some e)) => ∃ i s', w.items[r.seen]? = some i ∧ openEntry H i.entry () r.limits = .ok e ∧
      p.2.seen = r.seen + 1 ∧ p.2.seen ≤ r.limits.maxEntries.toNat ∧ p.2.limits = r.limits ∧
      On fr G stop w p.2 s' ∧ Reads r.limits (fr.phase p.2.parser) s' [] e i ∧
      ∀ P : G.Fair, P.delay p.2.source + s'.length ≤ P.delay r.source + s.length
  | .done (.ok none) => ∃ t, w.stop = .zero t ∧ stop = none ∧ (∀ b ∈ t, b = 0) ∧ 512 ≤ t.length ∧
      w.items.length ≤ r.seen ∧ SourceEnd G p.2.source
  | .done (.error e) => (∀ t, w.stop ≠ .zero t) ∨ Faulty G stop ∨
      (∃ i, w.items[r.seen]? = some i ∧
        (r.limits.maxEntries.toNat < r.seen + 1 ∨ openEntry H i.entry () r.limits = .error e)) ∨
      (∃ t, w.stop = .zero t ∧ e = .malformed ∧ ((∃ b ∈ t, b ≠ 0) ∨ t.length < 512))

/-- What a body poll answers. -/
def Reading (r : Reader T S) (s read : List UInt8) (i : Item) (buf : ReadBuf)
    (p : Poll (Except IoError Unit) × ReadBuf × ReadEntry × Reader T S) : Prop :=
  match p.1 with
  | .pending => p.2.1 = buf ∧ On fr G stop w p.2.2.2 s ∧
      Reads r.limits (fr.phase p.2.2.2.parser) s read p.2.2.1 i ∧
      ∀ P : G.Fair, P.delay p.2.2.2.source < P.delay r.source
  | .ready (.ok ()) => ∃ s', s = buf.added p.2.1 ++ s' ∧ On fr G stop w p.2.2.2 s' ∧
      Reads r.limits (fr.phase p.2.2.2.parser) s' (read ++ buf.added p.2.1) p.2.2.1 i ∧
      (buf.added p.2.1 = [] → (fr.phase p.2.2.2.parser).left = 0) ∧
      ∀ P : G.Fair, P.delay p.2.2.2.source ≤ P.delay r.source
  | .ready (.error _) => Faulty G stop ∨ (∀ t, w.stop ≠ .zero t) ∨ r.limits.maxEntryBytes.toNat < i.len

variable {H fr G stop w}

/-- Bytes that end inside a record are not an end of the archive. -/
theorem stop_of_short {φ : Phase F.Ext} {k : Nat} (hn : 0 < φ.need F) (h : φ.walk F [] = w.after k)
    (t : List UInt8) : w.stop ≠ .zero t := by
  intro hw
  rw [Phase.walk_short F (s := []) hn] at h
  have hs := congrArg Outline.stop h
  rw [Outline.stop_after, hw] at hs
  unfold Phase.short at hs
  simp only at hs
  split at hs <;> cases hs

/-- Nothing is read yet of an entry that was just opened. -/
theorem reads_opened {entry : TarEntry} {e : ReadEntry} {limits : SecurityLimits} {len : Nat} {s : List UInt8}
    (ho : openEntry H entry () limits = .ok e) :
    Reads limits (Phase.after F len) s [] e ⟨entry, len, s.take len⟩ := by
  have hbody := (openEntry_ok H ho).2.2.2.2.2
  refine ⟨lending_after len, ?_, ?_, ?_, ?_⟩
  · rw [hbody]
    rfl
  · rw [hbody]
    rfl
  · simp
  · simp

theorem next_on (polls : Nat) {r : Reader T S} {s : List UInt8} (h : On fr G stop w r s) :
    Called H fr G stop w polls r s (r.nextEntry H polls) := by
  have ha := next_answer (H := H) fr (kept_walk (w.after r.seen)) polls h
  obtain ⟨hlimits, -, -⟩ := Reader.nextEntry_kept (H := H) r polls
  rcases hr : r.nextEntry H polls with ⟨res, r'⟩
  rw [hr] at ha hlimits
  cases res with
  | cancelled => exact ha
  | done res =>
    cases res with
    | error e =>
      rcases ha with ⟨io, -, hb⟩ | ⟨io, z, s', -, hfault, -⟩ | ⟨entry, len, s', hI, -, hbad⟩ | ⟨-, s', -, hI, he, -, hbad⟩ |
        ⟨-, -, -, x, hI⟩
      · cases hb with
        | own _ hI =>
          refine Or.inl fun t hw => ?_
          rw [Phase.walk_failed] at hI
          have hs := congrArg Outline.stop hI
          rw [Outline.stop_after, hw] at hs
          cases hs
        | eof _ hn hI hs he => exact Or.inl (stop_of_short hn hI)
        | source hn hI hfault => exact Or.inr (Or.inl ⟨_, _, _, _, hfault⟩)
      · exact Or.inr (Or.inl ⟨_, _, _, _, hfault⟩)
      · rw [Phase.walk_yielding] at hI
        refine Or.inr (Or.inr (Or.inl ⟨_, (Outline.cons_eq_after hI).1, ?_⟩))
        by_cases hmax : r.limits.maxEntries.toNat < r.seen + 1
        · exact Or.inl hmax
        · rw [if_neg hmax] at hbad
          exact Or.inr hbad
      · rw [Phase.walk_ended] at hI
        exact Or.inr (Or.inr (Or.inr ⟨s', (congrArg Outline.stop hI).symm, he, hbad.imp_right fun h => h.2.2⟩))
      · exact Or.inl (stop_of_short (by simp [Phase.need]) hI)
    | ok o =>
      cases o with
      | none =>
        obtain ⟨s', hI, hstop, hz, h512, hend⟩ := ha
        rw [Phase.walk_ended] at hI
        have hitems : w.items.drop r.seen = [] := (congrArg Outline.items hI).symm
        exact ⟨s', (congrArg Outline.stop hI).symm, hstop, hz, h512, List.drop_eq_nil_iff.mp hitems, hend⟩
      | some e =>
        obtain ⟨entry, len, s', ho, hmax, hI, hr', hφ, howes, hcost⟩ := ha
        simp only at hφ hr' howes
        rw [Phase.walk_yielding] at hI
        obtain ⟨hnth, hI'⟩ := Outline.cons_eq_after hI
        have hs : r'.seen = r.seen + 1 := congrArg Reader.seen hr'
        refine ⟨⟨entry, len, s'.take len⟩, s', hnth, ho, hs, ?_, hlimits, ?_, ?_, hcost⟩
        · rw [hs]
          exact hmax
        · exact h.entered fr hr' hφ howes (hI'.trans (congrArg w.after hs.symm))
        · rw [hφ]
          exact reads_opened ho

omit [Counters S] in
theorem read_on {r : Reader T S} {s read : List UInt8} {e : ReadEntry} {i : Item} (h : On fr G stop w r s)
    (hr : Reads r.limits (fr.phase r.parser) s read e i) {buf : ReadBuf} (hbuf : 0 < buf.remaining) :
    Reading H fr G stop w r s read i buf (r.pollBody e buf) := by
  have ha := read_answer fr (kept_walk (w.after r.seen)) h hr.lending hr.failed hbuf
  obtain ⟨hlimits, hseen, -⟩ := Reader.pollBody_kept r e buf
  rcases hp : r.pollBody e buf with ⟨o, buf', e', r'⟩
  rw [hp] at ha hlimits hseen
  simp only at hlimits hseen
  have hon : ∀ {s'}, Stands fr G stop (fun φ s => φ.walk F s = w.after r.seen) r' s' → On fr G stop w r' s' := by
    intro s' hst
    rw [← hseen] at hst
    exact hst
  cases o with
  | pending =>
    obtain ⟨hbuf', he', hst, hr', hdelay⟩ := ha
    simp only at hbuf' he' hst hr' hdelay
    have hparser : r'.parser = r.parser := by rw [hr']
    refine ⟨hbuf', hon hst, ?_, hdelay⟩
    simp only [hparser, he']
    exact hr
  | ready res =>
    cases res with
    | error err =>
      rcases ha with hfault | ⟨hnil, -, hpos, -⟩ | ⟨-, bytes, s', -, -, hlt, hle⟩
      · exact Or.inl ⟨_, _, _, _, hfault⟩
      · refine Or.inr (Or.inl ?_)
        have hkept := h.kept
        rw [hnil] at hkept
        rcases hr.lending with ⟨left, pad, hφ⟩ | hφ
        · rw [hφ] at hpos hkept
          simp only [Phase.left] at hpos
          exact stop_of_short (by simp only [Phase.need]; omega) hkept
        · rw [hφ] at hpos
          exact absurd hpos (Nat.lt_irrefl 0)
      · refine Or.inr (Or.inr ?_)
        have hb := hr.bound
        have hlen := hr.len
        omega
    | ok =>
      obtain ⟨s', hs, hst, hlending, he', hle, hr', hleft, hend, hdelay⟩ := ha
      simp only at hs hst hlending he' hle hr' hleft hend hdelay
      refine ⟨s', hs, hon hst, ?_, ?_, hdelay⟩
      · have hb := hr.bound
        refine ⟨hlending, by simp only [he'], ?_, ?_, ?_⟩
        · simp only [he', List.length_append]
          omega
        · rw [hr.len, hleft, List.length_append, Nat.add_assoc]
        · rw [hr.body, hs, hleft, List.append_assoc, List.take_length_add_append]
      · intro hnil
        simp only at hnil
        have h0 := hend hnil
        rw [hnil] at hleft
        simp only [List.length_nil] at hleft ⊢
        omega

end Etar
