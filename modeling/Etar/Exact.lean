import Etar.Follow
import Etar.FirstError
import Etar.Spoilt

/-!
# The verdict on a stream

What a call, a body and a whole validation answer over a stream, as functions of its outline and
of what it stops with. A reader answers just that, or the source below it is `Out`, which over a
cap means that it broke a bound.
-/
namespace Etar

open AsyncIo Limit
open Guard.HeaderGuard (Sharp)

/-- An error of the source as it is reported while no bound is broken. -/
def told (e : IoError) : Error := readError e 0 0

variable (H : HeaderFields)

/-- What a call makes of the next item. -/
def Item.entered (limits : SecurityLimits) (seen : Nat) (i : Item) : Except Error ReadEntry :=
  if limits.maxEntries.toNat < seen + 1 then .error (.limitExceeded "max_entries") else openEntry H i.entry () limits

/-- What reading a body to its end makes of an item, when the source stops with `stop`. -/
def Item.readThrough (limits : SecurityLimits) (stop : Option IoError) (i : Item) : Except Error Unit :=
  if limits.maxEntryBytes.toNat < i.body.length then .error (.limitExceeded "max_entry_bytes")
  else if i.body.length < i.len then
    match stop with
    | some e => .error (told e)
    | none => .error .malformed
  else .ok ()

/-- What a call makes of the end of an outline, when the source stops with `stop`. -/
def End.verdict (stop : Option IoError) : End → Except Error Unit
  | .refused e => .error (told e)
  | .zero t =>
    if t.any (· != 0) then .error .malformed
    else
      match stop with
      | some e => .error (told e)
      | none => if t.length < 512 then .error .malformed else .ok ()
  | _ =>
    match stop with
    | some e => .error (told e)
    | none => .error .malformed

/-- What a validation makes of the items from the `seen`th on: their number in all. -/
def verdict (limits : SecurityLimits) (stop : Option IoError) (last : End) : List Item → Nat → Except Error Nat
  | [], seen => do
    last.verdict stop
    return seen
  | i :: items, seen => do
    let _ ← i.entered H limits seen
    i.readThrough limits stop
    verdict limits stop last items (seen + 1)

variable {H} {F : TarFormat H}

/-- What is read of a stream: all of it but the last byte of a spoilt one. -/
def heard (spoilt : Bool) (s : List UInt8) : List UInt8 := if spoilt then s.dropLast else s

theorem heard_append {spoilt : Bool} (bytes : List UInt8) {s : List UInt8} (h : spoilt = true → s ≠ []) :
    heard spoilt (bytes ++ s) = bytes ++ heard spoilt s := by
  unfold heard
  split
  · rename_i hs
    exact List.dropLast_append_of_ne_nil (h hs)
  · rfl

/-- The outline of what is read of the bytes ahead. -/
def Ahead (F : TarFormat H) (spoilt : Bool) (w : Outline) (φ : Phase F.Ext) (s : List UInt8) : Prop :=
  (spoilt = true → s ≠ []) → φ.walk F (heard spoilt s) = w

theorem kept_ahead (spoilt : Bool) (w : Outline) : Kept (Ahead F spoilt w) := by
  intro φ bytes s _ hne hl h hs
  rw [Phase.walk_eat F hne hl, ← heard_append bytes hs]
  exact h fun _ => List.append_ne_nil_of_left_ne_nil hne _

/-- A stream that is over before the phase is. -/
theorem stop_short {φ : Phase F.Ext} {s : List UInt8} {w : Outline} {k : Nat} (hn : s.length < φ.need F)
    (h : φ.walk F s = w.after k) : w.items.length ≤ k ∧ (w.stop = .boundary ∨ w.stop = .cut) := by
  rw [Phase.walk_short F hn] at h
  have hitems := congrArg Outline.items h
  have hstop := congrArg Outline.stop h
  refine ⟨List.drop_eq_nil_iff.mp hitems.symm, ?_⟩
  rw [Outline.stop_after] at hstop
  rw [← hstop]
  unfold Phase.short
  dsimp only
  split
  · exact Or.inl rfl
  · exact Or.inr rfl

section Faults

variable {S : Type} [AsyncRead IoError S] {G : Feed IoError S} {stop : Option IoError} {spoilt : Bool}
  {Within Out : S → Prop}

/-- An error of the source comes when nothing more is read. -/
theorem Sharp.fault (hsharp : Sharp G stop spoilt Within Out) {room : Nat} {s : List UInt8} {e : IoError} {r' : S}
    (h : SourceFault G stop room s e r') :
    Within r' ∧ (Out r' ∨ stop = some e ∧ (heard spoilt s).length < room ∧ (spoilt = false → s = [])) := by
  obtain ⟨r, b, howes, hb, hroom, ho, rfl⟩ := h
  refine (hsharp.last howes hb ho).imp_right <| Or.imp_right fun ⟨hstop, hlen, hnil⟩ => ⟨hstop, ?_, hnil⟩
  cases spoilt with
  | true =>
    have hpos := List.length_pos_iff.mpr (hsharp.keeps howes rfl).1
    show s.dropLast.length < room
    rw [List.length_dropLast]
    omega
  | false =>
    rw [hnil rfl]
    exact hb.trans_le hroom

end Faults

variable {T : Tar} {S : Type} [AsyncRead IoError S] [Counters S]
variable (fr : T.Frames F) (G : Feed IoError S) (stop : Option IoError) (spoilt : Bool)
  (Within Out : S → Prop) (w : Outline)

/-- A live reader that has handed out `seen` items of the outline of what it reads. -/
abbrev Hears (r : Reader T S) (s : List UInt8) : Prop := Stands fr G stop (Ahead F spoilt (w.after r.seen)) r s

/-- What a call answers. -/
def Decided (r : Reader T S) (p : Await (Except Error (Option ReadEntry)) × Reader T S) : Prop :=
  match p.1 with
  | .cancelled => True
  | .done (.ok (some e)) => ∃ i s', w.items[r.seen]? = some i ∧ i.entered H r.limits r.seen = .ok e ∧
      p.2.seen = r.seen + 1 ∧ p.2.limits = r.limits ∧ Hears fr G stop spoilt w p.2 s' ∧
      Reads r.limits (fr.phase p.2.parser) (heard spoilt s') [] e i
  | .done (.ok none) => w.items.length ≤ r.seen ∧ w.stop.verdict stop = .ok () ∧ SourceEnd G p.2.source
  | .done (.error e) => Within p.2.source ∧ (Out p.2.source ∨ (p.2.decodedBytes ≤ p.2.limits.maxTotalBytes.toNat →
      (∃ i, w.items[r.seen]? = some i ∧ i.entered H r.limits r.seen = .error e) ∨
      w.items.length ≤ r.seen ∧ w.stop.verdict stop = .error e))

variable {fr G stop spoilt Within Out w}

omit [AsyncRead IoError S] in
theorem told_report {r : Reader T S} (h : r.decodedBytes ≤ r.limits.maxTotalBytes.toNat) (e : IoError) :
    r.report e = told e := by
  unfold Reader.report told readError
  rw [if_neg (Nat.not_lt.mpr h), if_neg (Nat.lt_irrefl 0)]

theorem told_of_foreign {e : IoError} (h : e.downcast = none) : told e = .malformed := by
  unfold told readError
  rw [if_neg (Nat.lt_irrefl 0), h]

theorem End.verdict_short {stop : Option IoError} {last : End} (h : last = .boundary ∨ last = .cut) :
    (∀ e, stop = some e → last.verdict stop = .error (told e)) ∧
      (stop = none → last.verdict stop = .error .malformed) := by
  constructor
  · rintro e rfl
    rcases h with rfl | rfl <;> rfl
  · rintro rfl
    rcases h with rfl | rfl <;> rfl

theorem any_ne_zero {t : List UInt8} : t.any (· != 0) = true ↔ ∃ b ∈ t, b ≠ 0 := by
  rw [List.any_eq_true]
  constructor
  · rintro ⟨b, hb, hne⟩
    exact ⟨b, hb, bne_iff_ne.mp hne⟩
  · rintro ⟨b, hb, hne⟩
    exact ⟨b, hb, bne_iff_ne.mpr hne⟩

theorem any_zero {t : List UInt8} (h : ∀ b ∈ t, b = 0) : t.any (· != 0) = false := by
  cases ha : t.any (· != 0) with
  | false => rfl
  | true =>
    obtain ⟨b, hb, hne⟩ := any_ne_zero.mp ha
    exact absurd (h b hb) hne

/-- A nonzero byte behind the zero block is malformed, whatever comes after. -/
theorem End.verdict_nonzero {t : List UInt8} (h : ∃ b ∈ t, b ≠ 0) (stop : Option IoError) :
    (End.zero t).verdict stop = .error .malformed := if_pos (any_ne_zero.mpr h)

/-- Zeros behind the zero block are judged by their end. -/
theorem End.verdict_zeros {t : List UInt8} (h : ∀ b ∈ t, b = 0) (stop : Option IoError) :
    (End.zero t).verdict stop = match stop with
      | some e => .error (told e)
      | none => if t.length < 512 then .error .malformed else .ok () := if_neg (by simp [any_zero h])

section Calls

variable (hsharp : Sharp G stop spoilt Within Out) (hwhole : spoilt = true → Whole w) (hon : fr.Honest)

include hsharp

omit [Counters S] in
/-- The outline of what a reader still reads. -/
theorem Hears.walk {r : Reader T S} {s : List UInt8} (h : Hears fr G stop spoilt w r s) :
    (fr.phase r.parser).walk F (heard spoilt s) = w.after r.seen :=
  h.kept fun hs => (hsharp.keeps h.owes hs).1

omit [Counters S] in
/-- A stream with a clean end is not spoilt. -/
theorem Hears.clean {r : Reader T S} {s : List UInt8} (h : Hears fr G stop spoilt w r s) (hstop : stop = none) :
    spoilt = false := by
  cases hs : spoilt with
  | false => rfl
  | true => exact absurd hstop (hsharp.keeps h.owes hs).2

include hon

omit [Counters S] in
/-- What the parser fails with is the verdict on the end of the outline. -/
theorem blame_verdict {k : Nat} {io : IoError} {r' : S} (hclean : stop = none → spoilt = false)
    (hb : Blame fr G stop (Ahead F spoilt (w.after k)) io r') :
    Within r' ∧ (Out r' ∨ w.items.length ≤ k ∧ w.stop.verdict stop = .error (told io)) := by
  cases hb with
  | own howes hI =>
    have hw := hI fun hs => (hsharp.keeps howes hs).1
    rw [Phase.walk_failed] at hw
    have hend : End.refused io = w.stop := congrArg Outline.stop hw
    rw [← hend]
    exact ⟨hsharp.within howes, Or.inr ⟨List.drop_eq_nil_iff.mp (congrArg Outline.items hw).symm, rfl⟩⟩
  | @eof parser howes hn hI hs hfed =>
    have hw := hI fun hsp => by rw [hclean hs] at hsp; cases hsp
    rw [hclean hs] at hw
    obtain ⟨hitems, hend⟩ := stop_short (s := []) hn hw
    obtain ⟨e, hforeign, hfed'⟩ := hon.eof hn
    have hown : (fr.phase parser).Own := by
      refine Phase.own_of_ne fun e' hp => ?_
      rw [hp] at hn
      exact absurd hn (Nat.lt_irrefl 0)
    have hio : io.downcast = none := Phase.own_atEof hon hown hforeign io (hfed'.symm.trans hfed)
    rw [told_of_foreign hio]
    exact ⟨hsharp.within howes, Or.inr ⟨hitems, (End.verdict_short hend).2 hs⟩⟩
  | @source φ s hn hI hfault =>
    refine (Sharp.fault hsharp hfault).imp_right <| Or.imp_right fun ⟨hstop, hlen, _⟩ => ?_
    obtain ⟨r, b, howes, -⟩ := hfault
    obtain ⟨hitems, hend⟩ := stop_short hlen (hI fun hs => (hsharp.keeps howes hs).1)
    exact ⟨hitems, (End.verdict_short hend).1 _ hstop⟩

include hwhole

theorem next_exact (polls : Nat) {r : Reader T S} {s : List UInt8} (h : Hears fr G stop spoilt w r s) :
    Decided fr G stop spoilt Within Out w r (r.nextEntry H polls) := by
  have ha := next_answer (H := H) fr (kept_ahead spoilt (w.after r.seen)) polls h
  obtain ⟨hlimits, -, -⟩ := Reader.nextEntry_kept (H := H) r polls
  have hclean := h.clean hsharp
  -- at a zero block the stream is not spoilt
  have hzero : ∀ {t}, (spoilt = true → t ≠ []) → Ahead F spoilt (w.after r.seen) .ended t →
      spoilt = false ∧ w.items.length ≤ r.seen ∧ w.stop = .zero t := by
    intro t ht hI
    have hw := hI ht
    rw [Phase.walk_ended] at hw
    have hend : End.zero (heard spoilt t) = w.stop := congrArg Outline.stop hw
    have hsp : spoilt = false := by
      cases hs : spoilt with
      | false => rfl
      | true => exact absurd hend.symm ((hwhole hs).stop _)
    rw [hsp] at hend
    exact ⟨hsp, List.drop_eq_nil_iff.mp (congrArg Outline.items hw).symm, hend.symm⟩
  rcases hr : r.nextEntry H polls with ⟨res, r'⟩
  rw [hr] at ha hlimits
  cases res with
  | cancelled => trivial
  | done res =>
    cases res with
    | error e =>
      rcases ha with ⟨io, he, hb⟩ | ⟨io, z, s', he, hfault, hz, hI⟩ | ⟨entry, len, s', hI, howes, hbad⟩ |
        ⟨r₀, s', howes, hI, he, hleft, hbad⟩ | ⟨hstop, he, hleft, x, hI⟩
      · refine (blame_verdict hsharp hon hclean hb).imp_right <| Or.imp_right fun ⟨hitems, hv⟩ hle => Or.inr ⟨hitems, ?_⟩
        rw [hv, he, told_report hle]
      · refine (Sharp.fault hsharp hfault).imp_right <| Or.imp_right fun ⟨hstop, _, hnil⟩ hle => Or.inr ?_
        rcases hI with hI | hnone
        · obtain ⟨r₁, b, howes, -⟩ := hfault
          have hne : spoilt = true → z ++ s' ≠ [] :=
            fun hs => List.append_ne_nil_of_right_ne_nil _ (hsharp.keeps howes hs).1
          obtain ⟨hsp, hitems, hend⟩ := hzero hne hI
          rw [hnil hsp, List.append_nil] at hend
          refine ⟨hitems, ?_⟩
          rw [hend, he, told_report hle, hstop, End.verdict_zeros hz]
        · rw [hnone] at hstop
          cases hstop
      · have hw := hI fun hs => (hsharp.keeps howes hs).1
        rw [Phase.walk_yielding] at hw
        refine ⟨hsharp.within howes, Or.inr fun _ => Or.inl ⟨_, (Outline.cons_eq_after hw).1, ?_⟩⟩
        unfold Item.entered
        split_ifs at hbad ⊢ with hmax
        · rw [hbad]
        · exact hbad
      · obtain ⟨hsp, hitems, hend⟩ := hzero (fun hs => (hsharp.keeps howes hs).1) hI
        refine ⟨hleft.elim fun _ => hsharp.within, Or.inr fun _ => Or.inr ⟨hitems, ?_⟩⟩
        rw [hend, he]
        rcases hbad with hne | ⟨hstop, hz, hlt⟩
        · exact End.verdict_nonzero hne stop
        · rw [End.verdict_zeros hz, hstop]
          exact if_pos hlt
      · have hw := hI fun hs => by rw [hclean hstop] at hs; cases hs
        rw [hclean hstop] at hw
        obtain ⟨hitems, hend⟩ := stop_short (s := []) (by simp [Phase.need]) hw
        refine ⟨hleft.elim fun _ => hsharp.within, Or.inr fun _ => Or.inr ⟨hitems, ?_⟩⟩
        rw [he]
        exact (End.verdict_short hend).2 hstop
    | ok o =>
      cases o with
      | none =>
        obtain ⟨s', hI, hstop, hz, h512, hend⟩ := ha
        obtain ⟨-, hitems, hend'⟩ := hzero (fun hs => by rw [hclean hstop] at hs; cases hs) hI
        refine ⟨hitems, ?_, hend⟩
        rw [hend', hstop, End.verdict_zeros hz]
        exact if_neg (Nat.not_lt.mpr h512)
      | some e =>
        obtain ⟨entry, len, s', ho, hmax, hI, hr', hφ, howes, -⟩ := ha
        simp only at hφ hr' howes
        have hne : spoilt = true → s' ≠ [] := fun hs => (hsharp.keeps howes hs).1
        have hw := hI hne
        rw [Phase.walk_yielding] at hw
        obtain ⟨hnth, hw'⟩ := Outline.cons_eq_after hw
        have hs : r'.seen = r.seen + 1 := congrArg Reader.seen hr'
        refine ⟨⟨entry, len, (heard spoilt s').take len⟩, s', hnth, ?_, hs, hlimits, ?_, ?_⟩
        · unfold Item.entered
          rw [if_neg (Nat.not_lt.mpr hmax)]
          exact ho
        · exact h.entered fr hr' hφ howes fun _ => hw'.trans (congrArg w.after hs.symm)
        · rw [hφ]
          exact reads_opened ho

end Calls

theorem Item.readThrough_ok {limits : SecurityLimits} {stop : Option IoError} {i : Item}
    (hle : i.body.length ≤ limits.maxEntryBytes.toNat) (h : i.len ≤ i.body.length) :
    i.readThrough limits stop = .ok () := by
  unfold Item.readThrough
  rw [if_neg (Nat.not_lt.mpr hle), if_neg (Nat.not_lt.mpr h)]

theorem Item.readThrough_over {limits : SecurityLimits} {stop : Option IoError} {i : Item}
    (hlt : limits.maxEntryBytes.toNat < i.body.length) :
    i.readThrough limits stop = .error (told (capError "max_entry_bytes")) := if_pos hlt

theorem Item.readThrough_cut {limits : SecurityLimits} {e : IoError} {i : Item}
    (hle : i.body.length ≤ limits.maxEntryBytes.toNat) (hlt : i.body.length < i.len) :
    i.readThrough limits (some e) = .error (told e) := by
  unfold Item.readThrough
  rw [if_neg (Nat.not_lt.mpr hle), if_pos hlt]

/-- A body that the source ends in is malformed. -/
theorem Item.readThrough_ended {limits : SecurityLimits} {i : Item}
    (hle : i.body.length ≤ limits.maxEntryBytes.toNat) (hlt : i.body.length < i.len) :
    i.readThrough limits none = .error .malformed := by
  unfold Item.readThrough
  rw [if_neg (Nat.not_lt.mpr hle), if_pos hlt]

variable (fr G stop spoilt Within Out w)

/-- What a body poll answers. -/
def BodyDecided (r : Reader T S) (s read : List UInt8) (i : Item) (buf : ReadBuf)
    (p : Poll (Except IoError Unit) × ReadBuf × ReadEntry × Reader T S) : Prop :=
  match p.1 with
  | .pending => p.2.1 = buf ∧ Hears fr G stop spoilt w p.2.2.2 s ∧
      Reads r.limits (fr.phase p.2.2.2.parser) (heard spoilt s) read p.2.2.1 i
  | .ready (.ok ()) => ∃ s', Hears fr G stop spoilt w p.2.2.2 s' ∧
      Reads r.limits (fr.phase p.2.2.2.parser) (heard spoilt s') (read ++ buf.added p.2.1) p.2.2.1 i ∧
      (buf.added p.2.1 = [] → i.readThrough r.limits stop = .ok ())
  | .ready (.error e) => Within p.2.2.2.source ∧
      (Out p.2.2.2.source ∨ i.readThrough r.limits stop = .error (told e))

variable {fr G stop spoilt Within Out w}

section Bodies

variable (hsharp : Sharp G stop spoilt Within Out) (hbodies : ∀ i ∈ w.items, spoilt = true → i.body.length = i.len)
  (hon : fr.Honest)

include hsharp hbodies hon

omit [Counters S] in
theorem read_exact {r : Reader T S} {s read : List UInt8} {e : ReadEntry} {i : Item} (hi : i ∈ w.items)
    (h : Hears fr G stop spoilt w r s) (hr : Reads r.limits (fr.phase r.parser) (heard spoilt s) read e i)
    {buf : ReadBuf} (hbuf : 0 < buf.remaining) :
    BodyDecided fr G stop spoilt Within Out w r s read i buf (r.pollBody e buf) := by
  have ha := read_answer fr (kept_ahead spoilt (w.after r.seen)) h hr.lending hr.failed hbuf
  obtain ⟨-, hseen, -⟩ := Reader.pollBody_kept r e buf
  rcases hp : r.pollBody e buf with ⟨o, buf', e', r'⟩
  rw [hp] at ha hseen
  simp only at hseen
  have hbound := hr.bound
  have hbody := congrArg List.length hr.body
  rw [List.length_append, List.length_take] at hbody
  cases o with
  | pending =>
    obtain ⟨hbuf', he', hst, hr', -⟩ := ha
    simp only at hbuf' he' hst hr'
    have hparser : r'.parser = r.parser := by rw [hr']
    refine ⟨hbuf', by rw [← hseen] at hst; exact hst, ?_⟩
    simp only [hparser, he']
    exact hr
  | ready res =>
    cases res with
    | error io =>
      rcases ha with hfault | ⟨rfl, hstop, hpos, howes, hcut⟩ | ⟨rfl, bytes, s', hs, howes, hlt, hle⟩
      · refine (Sharp.fault hsharp hfault).imp_right <| Or.imp_right fun ⟨hstop, hlen, hnil⟩ => ?_
        have hshort : i.body.length < i.len := by
          rw [hr.len]
          omega
        have hsp : spoilt = false := by
          cases hs : spoilt with
          | false => rfl
          | true => exact absurd (hbodies i hi hs) hshort.ne
        rw [hnil hsp] at hbody
        rw [hstop]
        refine Item.readThrough_cut ?_ hshort
        rw [hsp] at hbody
        have : (heard false ([] : List UInt8)).length = 0 := rfl
        omega
      · have : (heard spoilt ([] : List UInt8)).length = 0 := by
          unfold heard
          split <;> rfl
        have hlen := hr.len
        refine ⟨hsharp.within howes, Or.inr ?_⟩
        rw [hstop, told_of_foreign (hon.cut hcut)]
        exact Item.readThrough_ended (by omega) (by omega)
      · refine ⟨hsharp.within howes, Or.inr (Item.readThrough_over ?_)⟩
        rw [hs, heard_append bytes fun hs => (hsharp.keeps howes hs).1, List.length_append] at hbody
        omega
    | ok =>
      obtain ⟨s', hs, hst, hlending, he', hle, hr', hleft, hend, -⟩ := ha
      simp only at hs hst hlending he' hle hr' hleft hend
      have hne : spoilt = true → s' ≠ [] := fun hsp => (hsharp.keeps hst.owes hsp).1
      rw [hs, heard_append _ hne] at hr hbody
      refine ⟨s', by rw [← hseen] at hst; exact hst, ⟨hlending, by simp only [he'], ?_, ?_, ?_⟩, fun hnil => ?_⟩
      · simp only [he', List.length_append]
        omega
      · rw [hr.len, hleft, List.length_append, Nat.add_assoc]
      · rw [hr.body, hleft, List.append_assoc, List.take_length_add_append]
      · simp only at hnil
        have hlen := hr.len
        have h0 := hend hnil
        exact Item.readThrough_ok (by omega) (by omega)

omit [Counters S] in
/-- Copying a body to its end. -/
theorem copy_exact (polls : Nat) {r : Reader T S} {s read : List UInt8} {e : ReadEntry} {i : Item} (hi : i ∈ w.items)
    (h : Hears fr G stop spoilt w r s) (hr : Reads r.limits (fr.phase r.parser) (heard spoilt s) read e i) :
    match r.copying polls e with
    | (.cancelled, _) => True
    | (.done (.ok ()), σ) => (∃ s', Hears fr G stop spoilt w σ.reader s') ∧ σ.reader.seen = r.seen ∧
        σ.reader.limits = r.limits ∧ i.readThrough r.limits stop = .ok ()
    | (.done (.error io), σ) => Within σ.reader.source ∧
        (Out σ.reader.source ∨ i.readThrough r.limits stop = .error (told io)) := by
  induction polls generalizing r s read e with
  | zero => trivial
  | succ polls ih =>
    have hroom : 0 < (ReadBuf.new 8192).remaining := by decide
    have ha := read_exact hsharp hbodies hon hi h hr hroom
    obtain ⟨hlimits, hseen, -⟩ := Reader.pollBody_kept r e (.new 8192)
    unfold Reader.copying
    generalize r.pollBody e (.new 8192) = p at ha hlimits hseen
    rcases p with ⟨o, buf, e', r'⟩
    simp only at hlimits hseen
    cases o with
    | pending =>
      obtain ⟨-, hon, hreads⟩ := ha
      simp only at hon hreads
      rw [← hlimits] at hreads
      have hrest := ih hon hreads
      rwa [hlimits, hseen] at hrest
    | ready res =>
      cases res with
      | error io => exact ha
      | ok =>
        obtain ⟨s', hon, hreads, hend⟩ := ha
        simp only [ReadBuf.added_new] at hon hreads hend
        by_cases hnil : buf.filled = []
        · simp only [hnil, if_true]
          exact ⟨⟨s', hon⟩, hseen, hlimits, hend hnil⟩
        · simp only [hnil, if_false]
          rw [← hlimits] at hreads
          have hrest := ih hon hreads
          rwa [hlimits, hseen] at hrest

end Bodies

section Validations

variable (hsharp : Sharp G stop spoilt Within Out) (hwhole : spoilt = true → Whole w) (hon : fr.Honest)

include hsharp hwhole hon

/-- A validation answers the verdict on the rest of the outline, or the source is `Out`. -/
theorem validating_exact (polls calls : Nat) {r : Reader T S} {s : List UInt8} (h : Hears fr G stop spoilt w r s) :
    let v := r.validating H polls calls r.seen
    match v.result with
    | .cancelled => True
    | .done (.ok report) => verdict H r.limits stop w.stop (w.items.drop r.seen) r.seen = .ok report.entries
    | .done (.error e) => Within v.last.reader.source ∧ (Out v.last.reader.source ∨
        (v.last.reader.decodedBytes ≤ v.last.reader.limits.maxTotalBytes.toNat →
          verdict H r.limits stop w.stop (w.items.drop r.seen) r.seen = .error e)) := by
  induction polls generalizing calls r s with
  | zero => trivial
  | succ polls ih =>
    have ha := next_exact (H := H) hsharp hwhole hon polls h
    unfold Reader.validating
    generalize r.nextEntry H polls = p at ha
    rcases p with ⟨res, r'⟩
    cases res with
    | cancelled => trivial
    | done res =>
      cases res with
      | error e =>
        refine ha.imp_right <| Or.imp_right fun hv hle => ?_
        rcases hv hle with ⟨i, hi, hentered⟩ | ⟨hitems, hend⟩
        · obtain ⟨hlt, hi⟩ := List.getElem?_eq_some_iff.mp hi
          rw [List.drop_eq_getElem_cons hlt, hi, verdict, hentered]
          rfl
        · rw [List.drop_eq_nil_of_le hitems, verdict, hend]
          rfl
      | ok o =>
        cases o with
        | none =>
          obtain ⟨hitems, hend, -⟩ := ha
          show verdict H r.limits stop w.stop (w.items.drop r.seen) r.seen = .ok r.seen
          rw [List.drop_eq_nil_of_le hitems, verdict, hend]
          rfl
        | some e =>
          obtain ⟨i, s', hi, hentered, hseen, hlimits, hears, hreads⟩ := ha
          simp only at hseen hlimits hears hreads
          have hmem := List.mem_of_getElem? hi
          obtain ⟨hlt, hi⟩ := List.getElem?_eq_some_iff.mp hi
          rw [← hlimits] at hreads
          have hc := copy_exact hsharp (fun i hi hs => (hwhole hs).bodies i hi) hon polls hmem hears hreads
          dsimp only
          rw [List.drop_eq_getElem_cons hlt, hi, verdict, hentered]
          generalize r'.copying polls e = q at hc
          rcases q with ⟨res, σ⟩
          rw [hlimits] at hc
          cases res with
          | cancelled => trivial
          | done res =>
            cases res with
            | error io =>
              refine hc.imp_right <| Or.imp_right fun hv hle => ?_
              show _ = Except.error (σ.reader.report io)
              rw [told_report hle]
              simp only [hv]
              rfl
            | ok =>
              obtain ⟨⟨s₂, hears₂⟩, hseen₂, hlimits₂, hthrough⟩ := hc
              have hv := ih (calls + 1) hears₂
              rw [hseen₂, hseen, hlimits₂] at hv
              simp only [hthrough]
              exact hv

end Validations

section Sessions

variable (H) in
/-- What the `k`th call of a traversal answers. -/
def Outline.call (limits : SecurityLimits) (stop : Option IoError) (w : Outline) (k : Nat) :
    Except Error (Option ReadEntry) :=
  match w.items[k]? with
  | some i => (i.entered H limits k).map some
  | none => (w.stop.verdict stop).map fun _ => none

/-- The entry an event hands out. -/
def Event.entry : Event → Option ReadEntry
  | next (.done (.ok e)) => e
  | _ => none

/-- The entries a history handed out. -/
def handed (evs : List Event) : List ReadEntry := evs.filterMap Event.entry

/-- A step that goes well and does not end the traversal. -/
def Event.Goes : Event → Prop
  | next (.done (.ok (some _))) => True
  | next _ => False
  | read (.ready (.error _)) _ => False
  | read _ _ => True
  | drop => True

@[simp] theorem handed_append (evs evs' : List Event) : handed (evs ++ evs') = handed evs ++ handed evs' :=
  List.filterMap_append

theorem Event.Goes.not_bad {ev : Event} (h : ev.Goes) : ¬ ev.Bad := by
  cases ev with
  | next res =>
    cases res with
    | cancelled => cases h
    | done res => cases res <;> first | exact id | cases h
  | read o bytes =>
    cases o with
    | pending => exact id
    | ready res => cases res <;> first | exact id | cases h
  | drop => exact id

/-- A decided call that went well answers as the outline has it. -/
theorem Decided.call_ok {r : Reader T S} {p : Await (Except Error (Option ReadEntry)) × Reader T S}
    (h : Decided fr G stop spoilt Within Out w r p) {o : Option ReadEntry} (hp : p.1 = .done (.ok o)) :
    w.call H r.limits stop r.seen = .ok o := by
  unfold Decided at h
  rw [hp] at h
  unfold Outline.call
  cases o with
  | none =>
    obtain ⟨hitems, hend, -⟩ := h
    simp only [List.getElem?_eq_none hitems, hend, Except.map]
  | some e =>
    obtain ⟨i, s', hi, hentered, -⟩ := h
    simp only [hi, hentered, Except.map]

/-- So does one that failed, unless the source is `Out`. -/
theorem Decided.call_error {r : Reader T S} {p : Await (Except Error (Option ReadEntry)) × Reader T S}
    (h : Decided fr G stop spoilt Within Out w r p) {e : Error} (hp : p.1 = .done (.error e)) :
    Within p.2.source ∧ (Out p.2.source ∨
      (p.2.decodedBytes ≤ p.2.limits.maxTotalBytes.toNat → w.call H r.limits stop r.seen = .error e)) := by
  unfold Decided at h
  rw [hp] at h
  refine h.imp_right <| Or.imp_right fun hv hle => ?_
  unfold Outline.call
  rcases hv hle with ⟨i, hi, hentered⟩ | ⟨hitems, hend⟩
  · simp only [hi, hentered, Except.map]
  · simp only [List.getElem?_eq_none hitems, hend, Except.map]

variable (fr G stop spoilt w) in
/-- Where a traversal that went well stands. -/
structure Heeds (limits : SecurityLimits) (evs : List Event) (σ : Session T S) : Prop where
  limits_eq : σ.reader.limits = limits
  seen_eq : σ.reader.seen = (handed evs).length
  calls : ∀ k e, (handed evs)[k]? = some e → w.call H limits stop k = .ok (some e)
  hears : ∃ s, Hears fr G stop spoilt w σ.reader s ∧ ∀ e, σ.entry = some e →
    ∃ i read, w.items[σ.reader.seen - 1]? = some i ∧ Reads limits (fr.phase σ.reader.parser) (heard spoilt s) read e i

variable {limits : SecurityLimits}
variable (hsharp : Sharp G stop spoilt Within Out) (hwhole : spoilt = true → Whole w) (hon : fr.Honest) (hidle : Idle S)
variable {room : ReadBuf → Prop}

include hsharp hwhole hon hidle

theorem Heeds.step {evs : List Event} {σ σ' : Session T S} {ev : Event} (h : Heeds fr G stop spoilt w limits evs σ)
    (hs : σ.Step H room ev σ') (hgoes : ev.Goes) : Heeds fr G stop spoilt w limits (evs ++ [ev]) σ' := by
  obtain ⟨hlimits, hseen, hcalls, s, hears, hlent⟩ := h
  cases hs with
  | next r polls =>
    have ha := next_exact (H := H) hsharp hwhole hon polls hears
    cases hres : (r.nextEntry H polls).1 with
    | cancelled =>
      rw [hres] at hgoes
      cases hgoes
    | done res =>
      rw [hres] at hgoes
      cases res with
      | error e => cases hgoes
      | ok o =>
        cases o with
        | none => cases hgoes
        | some e =>
          unfold Decided at ha
          rw [hres] at ha
          obtain ⟨i, s', hi, hentered, hseen', hlimits', hears', hreads⟩ := ha
          have hhanded : handed [Event.next (.done (.ok (some e)))] = [e] := rfl
          refine ⟨hlimits'.trans hlimits, ?_, ?_, s', hears', ?_⟩
          · rw [handed_append, hhanded, List.length_append, ← hseen]
            exact hseen'
          · intro k e' hk
            rw [handed_append, hhanded] at hk
            by_cases hlt : k < (handed evs).length
            · rw [List.getElem?_append_left hlt] at hk
              exact hcalls k e' hk
            · rw [List.getElem?_append_right (Nat.le_of_not_lt hlt)] at hk
              obtain ⟨hk0, hke⟩ := List.getElem?_eq_some_iff.mp hk
              simp only [List.length_singleton] at hk0
              obtain rfl : k = (handed evs).length := by omega
              simp only [Nat.sub_self, List.getElem_cons_zero] at hke
              subst hke
              unfold Outline.call
              rw [← hseen, ← hlimits]
              simp only [hi, hentered, Except.map]
          · intro e' he'
            obtain rfl : e = e' := Option.some.inj he'
            have hnth : w.items[(r.nextEntry H polls).2.seen - 1]? = some i := by
              rw [hseen']
              exact hi
            exact ⟨i, [], hnth, hlimits ▸ hreads⟩
  | read r entry buf hb =>
    obtain ⟨i, read, hnth, hreads⟩ := hlent entry rfl
    have hi := List.mem_of_getElem? hnth
    obtain ⟨hlimits', hseen', -⟩ := Reader.pollBody_kept r entry buf
    have hsame : ∀ o bytes, handed (evs ++ [.read o bytes]) = handed evs := by
      intro o bytes
      rw [handed_append]
      exact List.append_nil _
    have hidled : buf.remaining = 0 → _ := pollBody_idle fr hidle hreads.lending hreads.failed
    have ha : 0 < buf.remaining → _ := read_exact hsharp (fun i hi hs => (hwhole hs).bodies i hi) hon hi hears
      (by rw [hlimits]; exact hreads)
    rcases hp : r.pollBody entry buf with ⟨o, buf', e', r'⟩
    rw [hp] at ha hidled hlimits' hseen' hgoes
    dsimp only at hlimits' hseen' hgoes hlimits hnth
    have hkeep : ∀ {s' read'}, Hears fr G stop spoilt w r' s' →
        Reads limits (fr.phase r'.parser) (heard spoilt s') read' e' i →
        Heeds fr G stop spoilt w limits (evs ++ [.read o (buf.added buf')]) ⟨r', some e'⟩ := by
      intro s' read' hears' hreads'
      refine ⟨hlimits'.trans hlimits, ?_, ?_, s', hears', ?_⟩
      · rw [hsame]
        exact hseen'.trans hseen
      · rw [hsame]
        exact hcalls
      · rintro e'' he''
        obtain rfl : e' = e'' := Option.some.inj he''
        exact ⟨i, read', by rw [hseen']; exact hnth, hreads'⟩
    by_cases hroom : buf.remaining = 0
    · obtain ⟨parser, hφ, hsteady⟩ := hidled hroom
      cases hsteady
      apply @hkeep s read
      · exact ⟨hears.failed, hears.done, hears.archive, hears.entries, hφ ▸ hears.good, hears.owes, hφ ▸ hears.kept⟩
      · exact hφ ▸ hreads
    replace ha := ha (Nat.pos_of_ne_zero hroom)
    cases o with
    | pending =>
      obtain ⟨-, hears', hreads'⟩ := ha
      exact hkeep hears' (hlimits ▸ hreads')
    | ready res =>
      cases res with
      | error e => cases hgoes
      | ok =>
        obtain ⟨s', hears', hreads', -⟩ := ha
        exact hkeep hears' (hlimits ▸ hreads')
  | drop r entry =>
    refine ⟨hlimits, ?_, ?_, s, hears, nofun⟩
    · rw [handed_append]
      exact hseen.trans (congrArg List.length (List.append_nil _).symm)
    · rw [handed_append, show handed [Event.drop] = [] from rfl, List.append_nil]
      exact hcalls

/-- A traversal that went well so far handed out the first items of the outline. -/
theorem heeds_of_run {source : S} {s : List UInt8} {r : Reader T S} (howes : G.Owes source s stop)
    (hw : (Phase.header F.start []).walk F (heard spoilt s) = w) (hstart : Reader.start T source limits = .ok r)
    {evs : List Event} {σ : Session T S} (hrun : Session.Run H room ⟨r, none⟩ evs σ) (hgoes : ∀ ev ∈ evs, ev.Goes) :
    Heeds fr G stop spoilt w limits evs σ := by
  induction hrun with
  | start =>
    obtain ⟨hst, hseen, hlimits⟩ := stands_start fr (I := Ahead F spoilt (w.after 0)) howes hstart fun _ => hw
    refine ⟨hlimits, hseen, nofun, s, ?_, nofun⟩
    unfold Hears
    rw [hseen]
    exact hst
  | step h hs ih =>
    refine (ih fun ev hev => hgoes ev (List.mem_append_left _ hev)).step hsharp hwhole hon hidle hs (hgoes _ ?_)
    exact List.mem_append_right _ (List.mem_singleton_self _)

end Sessions

end Etar
