import Etar.Repack
import Etar.Unfinished

/-!
# What comes before the damage

Records that are complete are read in full, whatever follows them: the front of one more, as a
writer leaves it that was cut off, or anything else. What was appended to a plain archive can be
read back even if it is never finished.
-/
namespace Etar

open AsyncIo Limit Guard Compress Scan
open Guard.HeaderGuard (Sharp Spoilt sharp)

section Records

variable {H : HeaderFields} {F : TarFormat H} {max : Nat} {p : Option Nat} {x : F.Ext} {recs : List UInt8}
  {items : List Item}

/-- The guard lets complete records through, whatever follows them. -/
theorem Framed.scan_past (hf : Framed F max p x recs items) (s : List UInt8) :
    ∃ p', Scan.scan H max p (recs ++ s) = (Scan.scan H max p' s).shift recs.length := by
  induction hf with
  | nil p x => exact ⟨p, by simp⟩
  | extension ha hk hp hc he hr ih =>
    obtain ⟨p', hscan⟩ := ih
    refine ⟨p', ?_⟩
    rw [List.append_assoc, List.append_assoc _ _ s, scan_record max ha.nonzero ha.vet hp hc, hscan, Verdict.shift_shift,
      ← List.length_append, List.append_assoc (Block.bytes _)]
  | member ha hk hp he hr ih =>
    obtain ⟨p', hscan⟩ := ih
    refine ⟨p', ?_⟩
    rw [List.append_assoc, List.append_assoc _ _ s, scan_record max ha.nonzero ha.vet hp (carry_member hk _), hscan,
      Verdict.shift_shift, ← List.length_append, List.append_assoc (Block.bytes _)]

/-- The parser hands out the members of complete records first. -/
theorem Framed.walk_past (hf : Framed F max p x recs items) (s : List UInt8) :
    items <+: ((Phase.header x []).walk F (recs ++ s)).items := by
  induction hf with
  | nil p x => exact List.nil_prefix
  | extension ha hk hp hc he hr ih =>
    rw [List.append_assoc, List.append_assoc _ _ s, walk_block, walk_extension ha.nonzero ha.size hk, ← hp,
      if_neg (by simp), take_body, List.drop_left, Phase.closed, he]
    exact ih
  | member ha hk hp he hr ih =>
    rw [List.append_assoc, List.append_assoc _ _ s, walk_block, walk_member ha.nonzero ha.size hk he, ← hp,
      if_neg (by simp), take_body, List.drop_left]
    exact (List.prefix_cons_inj _).mpr ih

/-- A stream does not spoil with the last of its complete records. -/
theorem Framed.not_spoiled {limits : SecurityLimits}
    (hf : Framed F limits.maxMetadataBytes.toNat none F.start recs items) (e : Error) :
    ¬ ∀ t, Scan.scan H limits.maxMetadataBytes.toNat none (recs ++ t) = ⟨recs.length, some e⟩ := by
  intro hspoils
  have hzero := hf.scan []
  rw [hspoils] at hzero
  cases congrArg Verdict.fault hzero

/-- What is read of a stream begins with the members of its complete records. -/
theorem Framed.lines_past {limits : SecurityLimits}
    (hf : Framed F limits.maxMetadataBytes.toNat none F.start recs items) (s : List UInt8) :
    items <+: (lines F limits (recs ++ s)).items := by
  obtain ⟨p', hscan⟩ := hf.scan_past s
  have hpassed : (Scan.scan H limits.maxMetadataBytes.toNat none (recs ++ s)).passed =
      recs.length + (Scan.scan H limits.maxMetadataBytes.toNat p' s).passed := by rw [hscan]; rfl
  have hrest : spoils H limits (recs ++ s) = true →
      s.take (Scan.scan H limits.maxMetadataBytes.toNat p' s).passed ≠ [] := by
    intro hspoils hnil
    obtain ⟨used, s', e, hbytes, -, hused⟩ := spoils_iff.mp hspoils
    have hlength : used.length = recs.length + (Scan.scan H limits.maxMetadataBytes.toNat p' s).passed := by
      rw [← hpassed, hbytes, hused]
    have hsame : used.length = recs.length := by
      have hle := congrArg List.length hbytes
      simp only [List.length_append] at hle
      rcases List.take_eq_nil_iff.mp hnil with h0 | rfl
      · omega
      · simp only [List.length_nil] at hle
        omega
    obtain ⟨rfl, -⟩ := List.append_inj hbytes hsame.symm
    exact hf.not_spoiled e hused
  unfold lines
  rw [hpassed, List.take_length_add_append, heard_append recs hrest]
  exact hf.walk_past _

end Records

section Bodies

variable {T : Tar} {S : Type} [AsyncRead IoError S] {H : HeaderFields} {F : TarFormat H} {fr : T.Frames F}
variable {G : Feed IoError S} {stop : Option IoError} {spoilt : Bool} {w : Outline} {Within Out : S → Prop}

/-- A lent body of which `s` is not read yet, and whose item is all there and within the limit. -/
def LentBody.Rest (fr : T.Frames F) (G : Feed IoError S) (stop : Option IoError) (spoilt : Bool) (w : Outline)
    (l : LentBody T S) (s : List UInt8) : Prop :=
  ∃ ahead read i, i ∈ w.items ∧ Hears fr G stop spoilt w l.reader ahead ∧
    Reads l.reader.limits (fr.phase l.reader.parser) (heard spoilt ahead) read l.entry i ∧
    i.body.length = i.len ∧ i.len ≤ l.reader.limits.maxEntryBytes.toNat ∧ i.body = read ++ s

variable (hsharp : Sharp G stop spoilt Within Out) (hout : ∀ s, ¬ Out s) (hwhole : spoilt = true → Whole w)
variable (hon : fr.Honest)

namespace LentBody

include hsharp hwhole hon

theorem Rest.pending {l : LentBody T S} {s : List UInt8} {b : ReadBuf} (h : l.Rest fr G stop spoilt w s)
    (hb : 0 < b.remaining) (ho : (pollRead l b).outcome = .pending) :
    (pollRead l b).buf = b ∧ (pollRead l b).reader.Rest fr G stop spoilt w s ∧
      ∀ P : G.Fair, P.delay (pollRead l b).reader.reader.source < P.delay l.reader.source := by
  obtain ⟨ahead, read, i, hi, hears, hreads, hfull, hlen, hbody⟩ := h
  have ha := read_exact hsharp (fun i hi hs => (hwhole hs).bodies i hi) hon hi hears hreads hb
  have hdelay := read_answer fr (kept_ahead spoilt (w.after l.reader.seen)) hears hreads.lending hreads.failed hb
  have hlimits := (Reader.pollBody_kept l.reader l.entry b).1
  have ho : (l.reader.pollBody l.entry b).1 = .pending := ho
  unfold BodyDecided at ha
  unfold ReadAnswer at hdelay
  rw [ho] at ha hdelay
  obtain ⟨hbuf, hears', hreads'⟩ := ha
  rw [← hlimits] at hreads' hlen
  exact ⟨hbuf, ⟨ahead, read, i, hi, hears', hreads', hfull, hlen, hbody⟩, hdelay.2.2.2.2⟩

theorem Rest.chunk {l : LentBody T S} {s : List UInt8} {b : ReadBuf} (h : l.Rest fr G stop spoilt w s)
    (hb : 0 < b.remaining) (ho : (pollRead l b).outcome = .ready (.ok ())) :
    (∃ s', s = b.added (pollRead l b).buf ++ s' ∧ (pollRead l b).reader.Rest fr G stop spoilt w s' ∧
      (b.added (pollRead l b).buf = [] → s' = [])) ∧
      ∀ P : G.Fair, P.delay (pollRead l b).reader.reader.source ≤ P.delay l.reader.source := by
  obtain ⟨ahead, read, i, hi, hears, hreads, hfull, hlen, hbody⟩ := h
  have ha := read_exact hsharp (fun i hi hs => (hwhole hs).bodies i hi) hon hi hears hreads hb
  have hanswer := read_answer fr (kept_ahead spoilt (w.after l.reader.seen)) hears hreads.lending hreads.failed hb
  have hlimits := (Reader.pollBody_kept l.reader l.entry b).1
  have hs : s = (heard spoilt ahead).take (fr.phase l.reader.parser).left :=
    List.append_cancel_left (hbody.symm.trans hreads.body)
  have ho : (l.reader.pollBody l.entry b).1 = .ready (.ok ()) := ho
  unfold BodyDecided at ha
  unfold ReadAnswer at hanswer
  rw [ho] at ha hanswer
  obtain ⟨ahead', hears', hreads', -⟩ := ha
  obtain ⟨-, -, -, -, -, -, -, -, hend, hdelay⟩ := hanswer
  have hbody' := hreads'.body
  rw [hbody, List.append_assoc, List.append_cancel_left_eq] at hbody'
  rw [← hlimits] at hreads' hlen
  refine ⟨⟨_, hbody', ⟨ahead', _, i, hi, hears', hreads', hfull, hlen, hreads'.body⟩, fun hnil => ?_⟩, hdelay⟩
  have hs0 : s = [] := by
    rw [hs, hend hnil, List.take_zero]
  rw [hs0] at hbody'
  exact (List.append_eq_nil_iff.mp hbody'.symm).2

include hout

/-- Reading it does not fail. -/
theorem Rest.not_error {l : LentBody T S} {s : List UInt8} {b : ReadBuf} (h : l.Rest fr G stop spoilt w s)
    (hb : 0 < b.remaining) {e : IoError} : (pollRead l b).outcome ≠ .ready (.error e) := by
  intro ho
  obtain ⟨ahead, read, i, hi, hears, hreads, hfull, hlen, -⟩ := h
  have ha := read_exact hsharp (fun i hi hs => (hwhole hs).bodies i hi) hon hi hears hreads hb
  have ho : (l.reader.pollBody l.entry b).1 = .ready (.error e) := ho
  unfold BodyDecided at ha
  rw [ho] at ha
  rcases ha.2 with hbroken | hthrough
  · exact hout _ hbroken
  · rw [Item.readThrough_ok (hfull.le.trans hlen) hfull.ge] at hthrough
    cases hthrough

variable (fr) in
/-- The rest of a lent body that is all there. -/
def restFeed : Feed IoError (LentBody T S) where
  Owes l s stop' := stop' = none ∧ l.Rest fr G stop spoilt w s
  pending h hb ho := by
    obtain ⟨hbuf, hl, -⟩ := h.2.pending hsharp hwhole hon hb ho
    exact ⟨hbuf, h.1, hl⟩
  chunk h hb ho := by
    obtain ⟨⟨s', hs, hl, hend⟩, -⟩ := h.2.chunk hsharp hwhole hon hb ho
    exact ⟨s', hs, ⟨h.1, hl⟩, fun hnil => ⟨hend hnil, h.1⟩⟩
  fault h hb ho := absurd ho (h.2.not_error hsharp hout hwhole hon hb)

def restFair (P : G.Fair) : (restFeed fr hsharp hout hwhole hon).Fair where
  delay l := P.delay l.reader.source
  pending h hb ho := (h.2.pending hsharp hwhole hon hb ho).2.2 P
  chunk h hb ho := (h.2.chunk hsharp hwhole hon hb ho).2 P
  fault h hb ho := absurd ho (h.2.not_error hsharp hout hwhole hon hb)

end LentBody

end Bodies

namespace Limit.Cap

variable {R : Type} [AsyncRead IoError R] {count : R → Nat} {start : R} {max maxRatio : Nat} {D : Feed IoError R}
variable (hmax : max < 2 ^ 64) (hratio : KeepsRatio count maxRatio start)

theorem kept_hushed {stop : Option IoError} (hD : D.Hushed stop) : (kept D hmax hratio).Hushed stop := by
  intro c s b e hc hb ho
  rw [hc.2.poll hmax hratio hb (D.added_le hc.1 hb)] at ho ⊢
  exact hD hc.1 hb ho

theorem kept_within {c : Cap count} {s : List UInt8} {stop : Option IoError} (h : (kept D hmax hratio).Owes c s stop) :
    c.total ≤ max := by
  have hroom := h.2.room
  omega

/-- The error a kept cap ends with is the last answer below. -/
theorem kept_last (hD : D.Faultless) {c : Cap count} {s : List UInt8} {stop : Option IoError} {b : ReadBuf} {e : IoError}
    (h : (kept D hmax hratio).Owes c s stop) (hb : 0 < b.remaining) (ho : (pollRead c b).outcome = .ready (.error e)) :
    (pollRead c b).reader.total ≤ max ∧ stop = some e ∧ b.added (pollRead c b).buf = s := by
  refine ⟨?_, (kept_faultless hmax hratio hD).fault h hb ho⟩
  have hle := D.added_le h.1 hb
  have hroom := h.2.room
  rw [h.2.poll hmax hratio hb hle]
  dsimp only
  omega

end Limit.Cap

namespace Guard.HeaderGuard

variable {H : HeaderFields} {R : Type} [AsyncRead IoError R] {F : Feed IoError R} {spoilt : Bool}

theorem owes_of_sharp {g : HeaderGuard H R} {s : List UInt8} {stop : Option IoError} (h : (sharp F spoilt).Owes g s stop) :
    (feed F).Owes g s stop := by
  obtain ⟨rest, stop', hbt, -, hs, hstop⟩ := h
  exact ⟨rest, stop', hbt, hs, hstop⟩

def sharp_fair (P : F.Fair) (spoilt : Bool) : (sharp F spoilt : Feed IoError (HeaderGuard H R)).Fair where
  delay := (fair P).delay
  pending h := (fair P).pending (owes_of_sharp h)
  chunk h := (fair P).chunk (owes_of_sharp h)
  fault h := (fair P).fault (owes_of_sharp h)

end Guard.HeaderGuard

section Sessions

variable {T : Tar} {S : Type} [AsyncRead IoError S] [Counters S] {H : HeaderFields} {F : TarFormat H} {fr : T.Frames F}
variable {G : Feed IoError S} {stop : Option IoError} {spoilt : Bool} {w : Outline} {Within Out : S → Prop}
variable {limits : SecurityLimits} {items : List Item} {cs : List Content} {evs : List Event} {σ : Session T S}
variable {room : ReadBuf → Prop}

variable (H fr G stop spoilt w limits) in
/-- Where a session stands on what it reads, while nothing has failed. -/
structure Tracks (evs : List Event) (σ : Session T S) : Prop where
  limits_eq : σ.reader.limits = limits
  seen_eq : σ.reader.seen = (handed evs).length
  hears : ∃ s, Hears fr G stop spoilt w σ.reader s ∧ ∀ e, σ.entry = some e →
    ∃ i, Lends H w limits σ.reader.seen e i ∧
      Reads limits (fr.phase σ.reader.parser) (heard spoilt s) (bodyRead evs) e i

/-- The contents were all handed out, and no entry that shows one of them is lent any more. -/
def Past (cs : List Content) (evs : List Event) (σ : Session T S) : Prop :=
  cs.length < (handed evs).length ∨
    cs.length ≤ (handed evs).length ∧ σ.entry = none ∧ (σ.reader.bodyFailed = true ∨ σ.reader.done = true)

/-- The entries handed out first show the contents. -/
def Served (limits : SecurityLimits) (cs : List Content) (evs : List Event) : Prop :=
  (handed evs).take cs.length = (cs.take (handed evs).length).map (·.opened limits)

theorem Served.snoc (h : Served limits cs evs) {ev : Event}
    (hnext : ∀ e c, ev.entry = some e → cs[(handed evs).length]? = some c → e = c.opened limits) :
    Served limits cs (evs ++ [ev]) := by
  unfold Served at h ⊢
  cases he : ev.entry with
  | none =>
    have hnil : handed [ev] = [] := List.filterMap_cons_none he
    rw [handed_append, hnil, List.append_nil]
    exact h
  | some e =>
    have hone : handed [ev] = [e] := List.filterMap_cons_some he
    rw [handed_append, hone, List.length_append, List.length_singleton, List.take_add_one, List.map_append, ← h]
    cases hc : cs[(handed evs).length]? with
    | none =>
      rw [List.take_append_of_le_length (List.getElem?_eq_none_iff.mp hc)]
      exact (List.append_nil _).symm
    | some c =>
      obtain ⟨hlt, -⟩ := List.getElem?_eq_some_iff.mp hc
      rw [List.take_of_length_le (by rw [List.length_append, List.length_singleton]; exact hlt),
        List.take_of_length_le hlt.le, hnext e c he hc]
      rfl

theorem Past.step (h : Past cs evs σ) {σ' : Session T S} {ev : Event} (hs : σ.Step H room ev σ') :
    Past cs (evs ++ [ev]) σ' := by
  have hgrows : (handed evs).length ≤ (handed (evs ++ [ev])).length := by
    rw [handed_append, List.length_append]
    exact Nat.le_add_right _ _
  rcases h with hlt | ⟨hle, hnone, hover⟩
  · exact Or.inl (hlt.trans_le hgrows)
  · refine Or.inr ⟨hle.trans hgrows, ?_⟩
    cases hs with
    | next r polls =>
      rcases Reader.nextEntry_cases (H := H) r polls with ⟨hf, he⟩ | ⟨-, hd, he⟩ | ⟨hf, hd, -⟩
      · rw [he]
        exact ⟨rfl, Or.inl hf⟩
      · rw [he]
        exact ⟨rfl, Or.inr hd⟩
      · rcases hover with hf' | hd'
        · exact absurd (hf.symm.trans hf') (by simp)
        · exact absurd (hd.symm.trans hd') (by simp)
    | read r entry buf hb => cases hnone
    | drop r entry => cases hnone

variable (hroom : Room H limits items cs) (hfront : items <+: w.items)

include hroom hfront in
/-- The first items of the outline show the contents, and are entered. -/
theorem Room.first {k : Nat} (hk : k < cs.length) :
    ∃ i c, w.items[k]? = some i ∧ cs[k]? = some c ∧ i.Shows (H := H) limits c ∧
      i.entered H limits k = .ok (c.opened limits) := by
  have hlt : k < items.length := hroom.shows.length_eq ▸ hk
  obtain ⟨c, hc, hshows⟩ := hroom.nth (List.getElem?_eq_getElem hlt)
  obtain ⟨more, hmore⟩ := hfront
  refine ⟨items[k], c, ?_, hc, hshows, ?_⟩
  · rw [← hmore, List.getElem?_append_left hlt, List.getElem?_eq_getElem hlt]
  · have hfew := hroom.few
    unfold Item.entered
    rw [if_neg (by omega)]
    exact hshows.opened

variable (hsharp : Sharp G stop spoilt Within Out) (hout : ∀ s, ¬ Out s) (hwhole : spoilt = true → Whole w)
variable (hon : fr.Honest) (hwithin : ∀ {s : S}, Within s → Counters.decoded s ≤ limits.maxTotalBytes.toNat)
variable (hidle : Idle S)

omit [Counters S] in
include hroom hfront in
/-- The rest of a lent body, if it is that of one of the contents. -/
theorem Tracks.rest (h : Tracks H fr G stop spoilt w limits evs σ) {e : ReadEntry} (he : σ.entry = some e)
    (hle : (handed evs).length ≤ cs.length) : ∃ c rest, cs[(handed evs).length - 1]? = some c ∧
      { e with body := .new () limits.maxEntryBytes.toNat } = c.opened limits ∧ c.data = bodyRead evs ++ rest ∧
      (⟨σ.reader, e⟩ : LentBody T S).Rest fr G stop spoilt w rest := by
  obtain ⟨s, hears, hlent⟩ := h.hears
  obtain ⟨i, hlends, hreads⟩ := hlent e he
  have hpos := hlends.pos
  have hnth := hlends.nth
  rw [h.seen_eq] at hpos hnth
  obtain ⟨j, c, hj, hc, hshows, -⟩ := hroom.first hfront (k := (handed evs).length - 1) (by omega)
  obtain rfl : i = j := Option.some.inj (hnth.symm.trans hj)
  have hopened := hlends.opened.symm.trans hshows.opened
  have hsmall := hroom.small c (List.mem_of_getElem? hc)
  refine ⟨c, _, hc, Except.ok.inj hopened, hshows.body.symm.trans hreads.body, s, _, i, List.mem_of_getElem? hj, hears,
    ?_, ?_, ?_, hreads.body⟩
  · rw [h.limits_eq]
    exact hreads
  · rw [hshows.body, hshows.len]
  · rw [h.limits_eq, hshows.len]
    exact hsmall

include hroom hfront hsharp hout hwhole hon hwithin in
/-- A call that was waited for hands out the next content while there is one. -/
theorem Tracks.next {r : Reader T S} (h : Tracks H fr G stop spoilt w limits evs ⟨r, none⟩) {polls : Nat}
    (hwait : (r.nextEntry H polls).1 ≠ .cancelled) :
    (∃ e, (r.nextEntry H polls).1 = .done (.ok (some e)) ∧
      Tracks H fr G stop spoilt w limits (evs ++ [.next (.done (.ok (some e)))]) ⟨(r.nextEntry H polls).2, some e⟩ ∧
      ∀ c, cs[(handed evs).length]? = some c → e = c.opened limits) ∨
    lent (r.nextEntry H polls).1 = none ∧ cs.length ≤ (handed evs).length ∧
      ((r.nextEntry H polls).2.bodyFailed = true ∨ (r.nextEntry H polls).2.done = true) := by
  obtain ⟨hlimits, hseen, s, hears, -⟩ := h
  have hl : r.limits = limits := hlimits
  have hlen : r.seen = (handed evs).length := hseen
  have ha := next_exact (H := H) hsharp hwhole hon polls hears
  obtain ⟨hkept, -, -⟩ := Reader.nextEntry_kept (H := H) r polls
  rcases Reader.nextEntry_cases (H := H) r polls with ⟨hf, -⟩ | ⟨-, hd, -⟩ | ⟨-, -, hm⟩
  · exact absurd (hears.failed.symm.trans hf) (by simp)
  · exact absurd (hears.done.symm.trans hd) (by simp)
  unfold Decided at ha
  cases hres : (r.nextEntry H polls).1 with
  | cancelled => exact absurd hres hwait
  | done res =>
    rw [hres] at ha hm
    cases res with
    | error e =>
      refine Or.inr ⟨rfl, ?_, Or.inl hm.2.1⟩
      by_contra hlt
      obtain ⟨i, c, hi, -, -, hentered⟩ := hroom.first hfront (Nat.lt_of_not_le hlt)
      obtain ⟨hin, hwhy⟩ := ha
      have hle : (r.nextEntry H polls).2.decodedBytes ≤ (r.nextEntry H polls).2.limits.maxTotalBytes.toNat := by
        rw [hkept, hl]
        exact hwithin hin
      rcases hwhy.resolve_left (hout _) hle with ⟨j, hj, hbad⟩ | ⟨hall, -⟩
      · rw [hlen] at hj hbad
        obtain rfl : i = j := Option.some.inj (hi.symm.trans hj)
        rw [hl, hentered] at hbad
        cases hbad
      · rw [List.getElem?_eq_none (hall.trans hlen.le)] at hi
        cases hi
    | ok o =>
      cases o with
      | none =>
        refine Or.inr ⟨rfl, ?_, Or.inr hm.2⟩
        rw [← hlen, ← hroom.shows.length_eq]
        exact hfront.length_le.trans ha.1
      | some e =>
        obtain ⟨i, s', hi, hentered, hseen', hlimits', hears', hreads⟩ := ha
        have hhanded : handed [Event.next (.done (.ok (some e)))] = [e] := rfl
        rw [hl] at hentered hlimits' hreads
        rw [hlen] at hi hentered hseen'
        have hopened : openEntry H i.entry () limits = .ok e := by
          unfold Item.entered at hentered
          split at hentered
          · cases hentered
          · exact hentered
        refine Or.inl ⟨e, rfl, ⟨hlimits', ?_, s', hears', ?_⟩, fun c hc => ?_⟩
        · rw [handed_append, hhanded, List.length_append]
          exact hseen'
        · intro e' he'
          obtain rfl : e = e' := Option.some.inj he'
          refine ⟨i, ⟨?_, ?_, ?_⟩, ?_⟩
          · show 0 < (r.nextEntry H polls).2.seen
            rw [hseen']
            exact Nat.succ_pos _
          · show w.items[(r.nextEntry H polls).2.seen - 1]? = some i
            rw [hseen', Nat.add_sub_cancel]
            exact hi
          · rw [hopened, ← (openEntry_ok H hopened).2.2.2.2.2]
          · rw [bodyRead_append]
            exact hreads
        · obtain ⟨hlt, -⟩ := List.getElem?_eq_some_iff.mp hc
          obtain ⟨j, c', hj, hc', -, hentered'⟩ := hroom.first hfront hlt
          obtain rfl : i = j := Option.some.inj (hi.symm.trans hj)
          obtain rfl : c = c' := Option.some.inj (hc.symm.trans hc')
          exact Except.ok.inj (hentered.symm.trans hentered')

omit [Counters S] in
include hroom hfront hsharp hout hwhole hon hidle in
/-- A read of a lent body does not fail while it is that of one of the contents. -/
theorem Tracks.read {r : Reader T S} {entry : ReadEntry} (h : Tracks H fr G stop spoilt w limits evs ⟨r, some entry⟩)
    (buf : ReadBuf) :
    Tracks H fr G stop spoilt w limits (evs ++ [.read (r.pollBody entry buf).1 (buf.added (r.pollBody entry buf).2.1)])
        ⟨(r.pollBody entry buf).2.2.2, some (r.pollBody entry buf).2.2.1⟩ ∨
      cs.length < (handed evs).length := by
  have htracks := h
  obtain ⟨hlimits, hseen, s, hears, hlent⟩ := h
  obtain ⟨i, hlends, hreads⟩ := hlent entry rfl
  obtain ⟨hlimits', hseen', hentry⟩ := Reader.pollBody_kept r entry buf
  have hl : r.limits = limits := hlimits
  have hidled : buf.remaining = 0 → _ := pollBody_idle fr hidle hreads.lending hreads.failed
  have ha : 0 < buf.remaining → _ := read_exact hsharp (fun i hi hs => (hwhole hs).bodies i hi) hon
    (List.mem_of_getElem? hlends.nth) hears (by rw [hl]; exact hreads)
  have hfails : 0 < buf.remaining → ∀ e, (r.pollBody entry buf).1 = .ready (.error e) →
      cs.length < (handed evs).length := by
    intro hb e ho
    by_contra hle
    obtain ⟨c, rest, -, -, -, hrest⟩ := htracks.rest hroom hfront rfl (Nat.le_of_not_lt hle)
    exact hrest.not_error hsharp hout hwhole hon hb ho
  rcases hp : r.pollBody entry buf with ⟨o, buf', e', r'⟩
  rw [hp] at ha hidled hfails hlimits' hseen' hentry
  dsimp only at hlimits' hseen' hentry hfails ⊢
  have hkeep : ∀ {s'}, Hears fr G stop spoilt w r' s' →
      Reads limits (fr.phase r'.parser) (heard spoilt s') (bodyRead evs ++ buf.added buf') e' i →
      Tracks H fr G stop spoilt w limits (evs ++ [.read o (buf.added buf')]) ⟨r', some e'⟩ := by
    intro s' hears' hreads'
    refine ⟨hlimits'.trans hl, ?_, s', hears', ?_⟩
    · rw [handed_append]
      exact (hseen'.trans hseen).trans (congrArg List.length (List.append_nil _).symm)
    · intro e'' he''
      obtain rfl : e' = e'' := Option.some.inj he''
      refine ⟨i, ?_, by rw [bodyRead_append]; exact hreads'⟩
      show Lends H w limits r'.seen e' i
      rw [hseen']
      exact hlends.read hentry
  by_cases hb : buf.remaining = 0
  · obtain ⟨parser, hφ, hsteady⟩ := hidled hb
    cases hsteady
    refine Or.inl (@hkeep s ?_ ?_)
    · exact ⟨hears.failed, hears.done, hears.archive, hears.entries, hφ ▸ hears.good, hears.owes, hφ ▸ hears.kept⟩
    · rw [ReadBuf.added_self, List.append_nil]
      exact hφ ▸ hreads
  replace hb := Nat.pos_of_ne_zero hb
  replace ha := ha hb
  unfold BodyDecided at ha
  cases o with
  | pending =>
    obtain ⟨hbuf, hears', hreads'⟩ := ha
    refine Or.inl (hkeep hears' ?_)
    rw [show buf' = buf from hbuf, ReadBuf.added_self, List.append_nil, ← hl]
    exact hreads'
  | ready res =>
    cases res with
    | error e => exact Or.inr (hfails hb e rfl)
    | ok =>
      obtain ⟨s', hears', hreads', -⟩ := ha
      exact Or.inl (hkeep hears' (hl ▸ hreads'))

include hroom hfront hsharp hout hwhole hon hwithin hidle in
/-- One step of a caller who waits. -/
theorem Tracks.step (h : Tracks H fr G stop spoilt w limits evs σ) {σ' : Session T S} {ev : Event}
    (hs : σ.Step H room ev σ') (hwait : ev ≠ .next .cancelled) :
    (Tracks H fr G stop spoilt w limits (evs ++ [ev]) σ' ∨ Past cs (evs ++ [ev]) σ') ∧
      ∀ e c, ev.entry = some e → cs[(handed evs).length]? = some c → e = c.opened limits := by
  have hgrows : (handed evs).length ≤ (handed (evs ++ [ev])).length := by
    rw [handed_append, List.length_append]
    exact Nat.le_add_right _ _
  cases hs with
  | next r polls =>
    have hnot : (r.nextEntry H polls).1 ≠ .cancelled := fun hc => hwait (by rw [hc])
    rcases h.next hroom hfront hsharp hout hwhole hon hwithin hnot with
      ⟨e, hres, htracks, hnext⟩ | ⟨hnone, hle, hover⟩
    · rw [hres]
      refine ⟨Or.inl htracks, fun e' c he' hc => ?_⟩
      obtain rfl : e = e' := Option.some.inj he'
      exact hnext c hc
    · refine ⟨Or.inr (Or.inr ⟨hle.trans hgrows, hnone, hover⟩), fun e c _ hc => ?_⟩
      rw [List.getElem?_eq_none hle] at hc
      cases hc
  | read r entry buf hb =>
    refine ⟨?_, fun e c he => by cases he⟩
    rcases h.read hroom hfront hsharp hout hwhole hon hidle buf with htracks | hlt
    · exact Or.inl htracks
    · exact Or.inr (Or.inl (hlt.trans_le hgrows))
  | drop r entry =>
    obtain ⟨hlimits, hseen, s, hears, -⟩ := h
    refine ⟨Or.inl ⟨hlimits, ?_, s, hears, fun e he => by cases he⟩, fun e c he => by cases he⟩
    rw [handed_append]
    exact hseen.trans (congrArg List.length (List.append_nil _).symm)

include hroom hfront hsharp hout hwhole hon hwithin hidle in
theorem tracks_of_run {start : Session T S} (hstart : Tracks H fr G stop spoilt w limits [] start)
    (hrun : Session.Run H room start evs σ) (hwaits : ∀ ev ∈ evs, ev ≠ .next .cancelled) :
    Served limits cs evs ∧ (Tracks H fr G stop spoilt w limits evs σ ∨ Past cs evs σ) := by
  induction hrun with
  | start => exact ⟨by unfold Served; simp [handed], Or.inl hstart⟩
  | @step evs σ σ' ev hrun hs ih =>
    obtain ⟨hserved, hstands⟩ := ih fun ev' hev => hwaits ev' (List.mem_append_left _ hev)
    rcases hstands with htracks | hpast
    · obtain ⟨hstands', hnext⟩ := htracks.step hroom hfront hsharp hout hwhole hon hwithin hidle hs
        (hwaits ev (List.mem_append_right _ (List.mem_singleton_self ev)))
      exact ⟨hserved.snoc hnext, hstands'⟩
    · refine ⟨hserved.snoc fun e c _ hc => ?_, Or.inr (hpast.step hs)⟩
      obtain ⟨hlt, -⟩ := List.getElem?_eq_some_iff.mp hc
      rcases hpast with hgone | ⟨hle, -⟩ <;> omega

variable (H) in
/-- What a session shows of a stream that begins with the contents `cs`, whatever was called and
read so far: they came first, and in order; the next call hands out the next one of them; and the
rest of a body that belongs to one of them is what a caller gets who reads on. -/
structure Session.Salvages (limits : SecurityLimits) (cs : List Content) (evs : List Event) (σ : Session T S) : Prop where
  entries : Served limits cs evs
  next : σ.entry = none → ∀ c, cs[(handed evs).length]? = some c → ∃ N, ∀ polls, N ≤ polls →
    (σ.reader.nextEntry H polls).1 = .done (.ok (some (c.opened limits)))
  body : ∀ e, σ.entry = some e → (handed evs).length ≤ cs.length → ∃ c rest, cs[(handed evs).length - 1]? = some c ∧
    e.path = c.path ∧ e.info = c.info ∧ c.data = bodyRead evs ++ rest ∧
    (∀ bytes l, Ended (⟨σ.reader, e⟩ : LentBody T S) bytes l → bytes = rest) ∧
    ∀ bufs : Nat → ReadBuf, (∀ n, 0 < (bufs n).remaining) →
      ∃ n, (after pollRead bufs (⟨σ.reader, e⟩ : LentBody T S) n).1 = rest ∧
        AtEof (bufs n) (pollRead (after pollRead bufs (⟨σ.reader, e⟩ : LentBody T S) n).2 (bufs n))

include hroom hfront hsharp hout hwhole hon hwithin hidle in
theorem salvages_of_run (P : G.Fair) {start : Session T S} (hstart : Tracks H fr G stop spoilt w limits [] start)
    (hrun : Session.Run H room start evs σ) (hwaits : ∀ ev ∈ evs, ev ≠ .next .cancelled)
    (hends : ∃ N, ∀ polls, N ≤ polls → (σ.reader.nextEntry H polls).1 ≠ .cancelled) : σ.Salvages H limits cs evs := by
  obtain ⟨hserved, hstands⟩ := tracks_of_run hroom hfront hsharp hout hwhole hon hwithin hidle hstart hrun hwaits
  refine ⟨hserved, ?_, ?_⟩
  · intro hnone c hc
    obtain ⟨hlt, -⟩ := List.getElem?_eq_some_iff.mp hc
    rcases hstands with htracks | hgone | ⟨hle, -⟩
    · obtain ⟨r, entry⟩ := σ
      obtain rfl : entry = none := hnone
      obtain ⟨N, hN⟩ := hends
      refine ⟨N, fun polls hpolls => ?_⟩
      rcases htracks.next hroom hfront hsharp hout hwhole hon hwithin (hN polls hpolls) with
        ⟨e, hres, -, hnext⟩ | ⟨-, hle, -⟩
      · rw [← hnext c hc]
        exact hres
      · omega
    · omega
    · omega
  · intro e he hle
    rcases hstands with htracks | hgone | ⟨-, hnone, -⟩
    · obtain ⟨c, rest, hc, hopened, hdata, hrest⟩ := htracks.rest hroom hfront he hle
      have howes : (LentBody.restFeed fr hsharp hout hwhole hon).Owes ⟨σ.reader, e⟩ rest none := ⟨rfl, hrest⟩
      refine ⟨c, rest, hc, congrArg OpenEntry.path hopened, congrArg OpenEntry.info hopened, hdata, ?_, ?_⟩
      · intro bytes l hend
        exact ((LentBody.restFeed fr hsharp hout hwhole hon).ended hend howes).1.symm
      · exact (LentBody.restFair hsharp hout hwhole hon P).delivers howes
    · omega
    · rw [hnone] at he
      cases he

end Sessions

section Stacks

variable {D : Type} [AsyncRead IoError D] {count : D → Nat} {K : Feed IoError D} {H : HeaderFields}
variable {limits : SecurityLimits} {d : D} {bytes : List UInt8} {stop : Option IoError}
variable (hmax : limits.maxTotalBytes.toNat < 2 ^ 64)
variable (hratio : Cap.KeepsRatio count limits.maxCompressionRatio.toNat d)

/-- The guard over a cap that breaks no bound, its streams spoilt as `bytes` are. -/
noncomputable abbrev sharpAdmitted (H : HeaderFields) (K : Feed IoError D) (hmax : limits.maxTotalBytes.toNat < 2 ^ 64)
    (hratio : Cap.KeepsRatio count limits.maxCompressionRatio.toNat d) (bytes : List UInt8) : Feed IoError (Source H count) :=
  sharp (Cap.kept K hmax hratio) (spoils H limits bytes)

/-- Below a cap that breaks no bound only the last answer is an error. -/
theorem sharp_admitted (hK : K.Faultless) : Sharp (sharpAdmitted H K hmax hratio bytes) stop (spoils H limits bytes)
    (fun g => g.inner.total ≤ limits.maxTotalBytes.toNat) (fun _ => False) :=
  HeaderGuard.sharp_sharp (F := Cap.kept K hmax hratio)
    (fun c => c.total ≤ limits.maxTotalBytes.toNat) (fun _ => False) (fun h => Cap.kept_within _ hratio h)
    fun h hb ho => (Cap.kept_last _ hratio hK h hb ho).imp_right Or.inr

/-- A reader that was just opened stands at the front of what it reads. -/
theorem tracks_start {T : Tar} {F : TarFormat H} (fr : T.Frames F) (hhushed : K.Hushed stop) (howes : K.Owes d bytes stop)
    (htotal : bytes.length ≤ limits.maxTotalBytes.toNat) {r : Reader T (Source H count)}
    (hstart : Reader.over T d limits = .ok r) : Tracks H fr (sharpAdmitted H K hmax hratio bytes)
      ((guardStop H limits bytes).or stop) (spoils H limits bytes) (lines F limits bytes) limits [] ⟨r, none⟩ := by
  have hkept := Cap.owes_kept hmax hratio howes htotal
  have hsource : (sharpAdmitted H K hmax hratio bytes).Owes (stack d limits)
      (bytes.take (scan H limits.maxMetadataBytes.toNat none bytes).passed) ((guardStop H limits bytes).or stop) := by
    refine ⟨bytes, stop, ⟨HeaderGuard.inv_new _ _, hkept, Cap.kept_hushed _ hratio hhushed⟩, spoilt_stack, ?_, ?_⟩
    · simp only [stack, HeaderGuard.held_new, HeaderGuard.ahead_new, List.nil_append]
    · simp only [stack, HeaderGuard.ahead_new]
      rfl
  obtain ⟨hst, hseen, hlimits⟩ := stands_start fr
    (I := Ahead F (spoils H limits bytes) ((lines F limits bytes).after 0)) hsource hstart fun _ => rfl
  refine ⟨hlimits, hseen, bytes.take (scan H limits.maxMetadataBytes.toNat none bytes).passed, ?_, fun e he => by cases he⟩
  unfold Hears
  rw [hseen]
  exact hst

end Stacks

section Archives

/-- A reader over `source` opens, and shows `cs` first to every caller who waits for it. -/
structure ReadsFirst {R : Type} [AsyncRead IoError R] (T : Tar) (H : HeaderFields) (dec : Decoder (Replay R))
    (limits : SecurityLimits) (cs : List Content) (source : R) : Prop where
  opens : ∃ N, ∀ polls, N ≤ polls → ∃ r : Opened T H dec, Reader.open T dec polls source limits = .done (.ok r)
  salvages : ∀ polls (r : Opened T H dec), Reader.open T dec polls source limits = .done (.ok r) →
    ∀ room evs σ, Session.Run H room ⟨r, none⟩ evs σ → (∀ ev ∈ evs, ev ≠ .next .cancelled) →
      σ.Salvages H limits cs evs

theorem Content.recordLength_dvd (c : Content) : 512 ∣ c.recordLength := by
  have hround : ∀ n, 512 ∣ roundUp n := fun n => ⟨(n + 511) / 512, by unfold roundUp; omega⟩
  unfold Content.recordLength
  have hpath := hround (c.path.bytes.length + 1)
  have hdata := hround c.data.length
  split <;> omega

theorem Coding.stream_dvd {C : Coding} {ms : List Member} {cs : List Content} (h : List.Forall₂ Member.Files ms cs) :
    512 ∣ (C.stream ms).length := by
  induction h with
  | nil => exact Nat.dvd_zero 512
  | cons hfiles _ ih =>
    rw [Coding.stream, List.flatMap_cons, List.length_append, hfiles.length_records]
    exact Nat.dvd_add (Content.recordLength_dvd _) ih

/-- Records that fit `u64` leave room for the rest of a block. -/
theorem Coding.stream_fits {C : Coding} {ms : List Member} {cs : List Content} (h : List.Forall₂ Member.Files ms cs)
    (hlt : (C.stream ms).length < 2 ^ 64) : (C.stream ms).length + 511 ≤ u64Max := by
  have hdvd := Coding.stream_dvd (C := C) h
  unfold u64Max
  omega

variable {T : Tar} {H : HeaderFields} {F : TarFormat H} (fr : T.Frames F) (hon : fr.Honest) (hT : T.Reports)
variable {C : Coding} (rd : C.Reads F) {R : Type} [AsyncRead IoError R]
variable {dec : Decoder (Replay R)} {decode : List UInt8 → List UInt8 × Option IoError}
variable {S : Feed IoError R} (hC : dec.Computes decode S) (P : S.Fair) (hS : S.Faultless)
variable {source : R} {z : List UInt8} (howes : S.Owes source z none) {limits : SecurityLimits}

include fr hon hT rd hC P hS howes in
/-- The members at the front of a decoded stream are read in full, whatever follows them and whatever
the stream ends with. -/
theorem reads_first {ms : List Member} {cs : List Content} (hfiles : List.Forall₂ Member.Files ms cs)
    (hpre : C.stream ms <+: (contents decode z).1) (hadmits : limits.Admits dec decode cs source z) :
    ReadsFirst T H dec limits cs source := by
  refine ⟨open_completes fr P hS howes, ?_⟩
  intro polls r hr room evs σ hrun hwaits
  obtain ⟨d, hd, hstart⟩ := open_ok hr
  obtain ⟨b, hb⟩ := sniffed hd
  have hdecodes := (hb (G := Meter.feed S) ⟨none, rfl, howes⟩).decodes hC
  have htotal := hadmits.total
  have hD : (contents decode z).1.length < 2 ^ 64 := htotal.trans_lt limits.maxTotalBytes.toNat_lt
  obtain ⟨more, hmore⟩ := hpre
  obtain ⟨items, hframed, hshows⟩ := framed_members rd hfiles hadmits.entries
    (Coding.stream_fits hfiles (by rw [← hmore, List.length_append] at hD; omega))
  have hroom : Room H limits items cs := ⟨hshows, hadmits.count, fun c hc => (hadmits.entries c hc).entry_bytes⟩
  have hfront := hframed.lines_past more
  rw [hmore] at hfront
  have hratio := hadmits.ratio polls d hd
  have hfaultless : (Decoded.feed (replayFeed S) hC.feed).Faultless :=
    Decoded.faultless (replayFeed_faultless hS) (hC.faultless hS)
  have PK : hC.decoded.Fair := Decoded.fair (replayFair P) (hC.fair P hS)
  have htracks := tracks_start limits.maxTotalBytes.toNat_lt hratio fr (hC.hushed_decoded _) hdecodes htotal hstart
  have hends := (calls_end fr hT PK (hC.hushed_decoded _) hdecodes hD hstart hrun).1
  exact salvages_of_run hroom hfront (sharp_admitted limits.maxTotalBytes.toNat_lt hratio hfaultless) (fun _ => id)
    (whole_lines F) hon (fun h => h) idle_guard
    (HeaderGuard.sharp_fair (Cap.kept_fair limits.maxTotalBytes.toNat_lt hratio PK) _) htracks hrun hwaits hends

/-- Any reader over a source of the bytes `z`, under limits that admit `cs`, shows `cs` first. -/
def ReadableFirst (T : Tar) (H : HeaderFields) (decode : List UInt8 → List UInt8 × Option IoError) (z : List UInt8)
    (cs : List Content) : Prop :=
  ∀ {R : Type} [AsyncRead IoError R] (dec : Decoder (Replay R)) (S : Feed IoError R), dec.Computes decode S →
    S.Fair → S.Faultless → ∀ source, S.Owes source z none →
    ∀ limits : SecurityLimits, limits.Admits dec decode cs source z → ReadsFirst T H dec limits cs source

variable {B : Builder} {E : Encoder} {Frame : List UInt8 → List UInt8 → Prop} (pk : B.Packs C) (enc : E.Encodes Frame)
variable {W : Type} [AsyncWrite IoError W] {D : Drain IoError W}

include fr hon hT rd pk enc in
/-- What was appended to a plain archive survives: however the later appends came out, and though
the archive is never finished, a reader over what the sink holds, or over any stream that begins as
it does, hands out the entries that were appended first and all of their bodies. -/
theorem appended_entries_survive (hlinks : B.SetsLinks) {sink : W} (hsink : D.Holds sink []) {good es : List Submission}
    {ω₀ ω : Writer B E W} (h₀ : (Writer.new sink .tar).Appends good ω₀) (h : ω₀.Tries es ω) :
    ∃ cs s out, List.Forall₂ (Submission.StoredAs C) good cs ∧ D.Holds ω.inner.sink (s ++ out) ∧
      ∀ more, ¬ zstdMagic <+: s ++ more → ReadableFirst T H decode (s ++ more) cs := by
  obtain ⟨ms, cs, hstands⟩ := stands_of_appends pk enc hlinks rd hsink h₀
  have hkeeps : ω₀.Keeps pk enc D .tar ⟨ms, none⟩ := by
    refine ⟨hstands.format_eq, hstands.live, ?_, fun _ => hstands.holds⟩
    unfold Journal.bytes
    rw [Option.getD_none, List.append_nil]
    exact hstands.holds.takes
  obtain ⟨calls, -, htrying⟩ := h.trying
  obtain ⟨j, hrun, hkeeps'⟩ := hkeeps.trying pk enc htrying
  obtain ⟨more, hmore⟩ := hrun.grows
  refine ⟨cs, C.stream ms, C.stream more ++ j.torn.getD [], hstands.stored, ?_, ?_⟩
  · have hholds := hkeeps'.sink_holds
    rwa [Journal.bytes, ← hmore, Coding.stream, List.flatMap_append, List.append_assoc] at hholds
  · intro more hmagic R _ dec S hC P hS source howes limits hadmits
    refine reads_first fr hon hT rd hC P hS howes hstands.files ?_ hadmits
    rw [contents, if_neg hmagic]
    exact List.prefix_append _ _

end Archives

section Samples

/-- A directory was appended, and then a file that was cut off: the directory is read back. -/
theorem appended_entries_survive_sample : ReadsFirst Gnu.tar gnuFields (RawZstd.decoder (Replay (Script IoError)))
    .default [directory ⟨[100], by decide⟩] ⟨cutShort.inner.sink.bytes, []⟩ := by
  have hok : (plainWriter.append 9 (toWrite ⟨[100], by decide⟩).entry).1 = .done (.ok ()) := by decide +kernel
  have hlength : cutShort.inner.sink.bytes.length = 1025 := by decide +kernel
  have hmagic : ¬ zstdMagic <+: cutShort.inner.sink.bytes := by decide +kernel
  have hnormal : (⟨[100], by decide⟩ : SafePath).Normalized := by decide
  have happends : plainWriter.Appends [toWrite ⟨[100], by decide⟩] _ := .append .start _ 9 hok
  have htries : (plainWriter.append 9 (toWrite ⟨[100], by decide⟩).entry).2.Tries [shortFile] cutShort :=
    .append .start shortFile 9
  have hsurvives : ∃ cs s out, List.Forall₂ (Submission.StoredAs Gnu.coding) [toWrite ⟨[100], by decide⟩] cs ∧
      cutShort.inner.sink.bytes = s ++ out ∧
      ∀ more, ¬ zstdMagic <+: s ++ more → ReadableFirst Gnu.tar gnuFields RawZstd.unpack (s ++ more) cs :=
    appended_entries_survive Gnu.frames Gnu.honest Gnu.reports Gnu.reads Gnu.packs RawZstd.encodes Gnu.setsLinks
      (Memory.holds_empty 511) happends htries
  obtain ⟨cs, s, out, hstored, hbytes, hreads⟩ := hsurvives
  obtain rfl := stored_of_gives Gnu.reads (.cons (gives_directory hnormal) .nil) hstored
  rw [hbytes] at hmagic hlength ⊢
  refine hreads out hmagic _ _ (RawZstd.computes _) Script.steadyFair Script.steady_faultless _ (Gnu.owes_script _) _ ?_
  refine admits_plain (by simp) ?_ (by decide) (by omega) hmagic
  intro c hc
  rw [List.mem_singleton.mp hc]
  exact allowed_directory (by decide)

end Samples

end Etar
