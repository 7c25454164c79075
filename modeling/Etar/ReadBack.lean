import Etar.Admitted
import Etar.Exact

/-!
# Reading members back

A session over an archive of members, with limits that admit it, cannot fail unless its caller
gives up a call: it hands out the entries that the members hold, in order and byte for byte,
and then `Ok(None)`.
-/
namespace Etar

open AsyncIo Limit Guard Compress

section Bodies

variable {T : Tar} {S : Type} [AsyncRead IoError S]

/-- A lent body, as a reader. -/
structure LentBody (T : Tar) (S : Type) where
  reader : Reader T S
  entry : ReadEntry

instance : AsyncRead IoError (LentBody T S) where
  pollRead l buf :=
    let p := l.reader.pollBody l.entry buf
    ⟨p.1, p.2.1, ⟨p.2.2.2, p.2.2.1⟩⟩
  grows l buf := AsyncRead.grows (l.reader.body l.entry) buf

variable {H : HeaderFields} {F : TarFormat H}

/-- A lent body of which `s` is not read yet; its item is within the limit. -/
def LentBody.Left (fr : T.Frames F) (G : Feed IoError S) (items : List Item) (t : List UInt8) (l : LentBody T S)
    (s : List UInt8) : Prop :=
  ∃ ahead read i, On fr G none ⟨items, .zero t⟩ l.reader ahead ∧
    Reads l.reader.limits (fr.phase l.reader.parser) ahead read l.entry i ∧
    i.len ≤ l.reader.limits.maxEntryBytes.toNat ∧ i.body = read ++ s

variable {fr : T.Frames F} {G : Feed IoError S} {items : List Item} {t : List UInt8}

namespace LentBody

theorem Left.pending {l : LentBody T S} {s : List UInt8} {b : ReadBuf} (h : l.Left fr G items t s)
    (hb : 0 < b.remaining) (ho : (pollRead l b).outcome = .pending) :
    (pollRead l b).buf = b ∧ (pollRead l b).reader.Left fr G items t s ∧
      ∀ P : G.Fair, P.delay (pollRead l b).reader.reader.source < P.delay l.reader.source := by
  obtain ⟨ahead, read, i, hon, hreads, hlen, hbody⟩ := h
  have ha := read_on (H := H) hon hreads hb
  have hlimits := (Reader.pollBody_kept l.reader l.entry b).1
  have ho : (l.reader.pollBody l.entry b).1 = .pending := ho
  unfold Reading at ha
  rw [ho] at ha
  obtain ⟨hbuf, hon', hreads', hdelay⟩ := ha
  rw [← hlimits] at hreads' hlen
  exact ⟨hbuf, ⟨ahead, read, i, hon', hreads', hlen, hbody⟩, hdelay⟩

theorem Left.chunk {l : LentBody T S} {s : List UInt8} {b : ReadBuf} (h : l.Left fr G items t s)
    (hb : 0 < b.remaining) (ho : (pollRead l b).outcome = .ready (.ok ())) :
    (∃ s', s = b.added (pollRead l b).buf ++ s' ∧ (pollRead l b).reader.Left fr G items t s' ∧
      (b.added (pollRead l b).buf = [] → s' = [])) ∧
      ∀ P : G.Fair, P.delay (pollRead l b).reader.reader.source ≤ P.delay l.reader.source := by
  obtain ⟨ahead, read, i, hon, hreads, hlen, hbody⟩ := h
  have ha := read_on (H := H) hon hreads hb
  have hlimits := (Reader.pollBody_kept l.reader l.entry b).1
  have ho : (l.reader.pollBody l.entry b).1 = .ready (.ok ()) := ho
  unfold Reading at ha
  rw [ho] at ha
  obtain ⟨ahead', -, hon', hreads', hend, hdelay⟩ := ha
  have hbody' := hreads'.body
  rw [hbody, List.append_assoc, List.append_cancel_left_eq] at hbody'
  rw [← hlimits] at hreads' hlen
  refine ⟨⟨_, hbody', ⟨ahead', _, i, hon', hreads', hlen, hreads'.body⟩, fun hnil => ?_⟩, hdelay⟩
  exact List.take_eq_nil_iff.mpr (Or.inl (hend hnil))

/-- Reading it does not fail. -/
theorem Left.not_error (hG : G.Faultless) {l : LentBody T S} {s : List UInt8} {b : ReadBuf}
    (h : l.Left fr G items t s) (hb : 0 < b.remaining) {e : IoError} : (pollRead l b).outcome ≠ .ready (.error e) := by
  intro ho
  obtain ⟨ahead, read, i, hon, hreads, hlen, -⟩ := h
  have ha := read_on (H := H) hon hreads hb
  have ho : (l.reader.pollBody l.entry b).1 = .ready (.error e) := ho
  unfold Reading at ha
  rw [ho] at ha
  rcases ha with hfault | hstop | hlt
  · exact not_faulty hG hfault
  · exact hstop t rfl
  · exact absurd hlen (Nat.not_le.mpr hlt)

variable (fr items t) in
/-- The rest of a lent body over a feed. -/
def feed (hG : G.Faultless) : Feed IoError (LentBody T S) where
  Owes l s stop := stop = none ∧ l.Left fr G items t s
  pending h hb ho := by
    obtain ⟨hbuf, hl, -⟩ := h.2.pending hb ho
    exact ⟨hbuf, h.1, hl⟩
  chunk h hb ho := by
    obtain ⟨⟨s', hs, hl, hend⟩, -⟩ := h.2.chunk hb ho
    exact ⟨s', hs, ⟨h.1, hl⟩, fun hnil => ⟨hend hnil, h.1⟩⟩
  fault h hb ho := absurd ho (h.2.not_error hG hb)

def fair (hG : G.Faultless) (P : G.Fair) : (feed fr items t hG).Fair where
  delay l := P.delay l.reader.source
  pending h hb ho := (h.2.pending hb ho).2.2 P
  chunk h hb ho := (h.2.chunk hb ho).2 P
  fault h hb ho := absurd ho (h.2.not_error hG hb)

end LentBody

end Bodies

section Sessions

variable {T : Tar} {S : Type} [AsyncRead IoError S] [Counters S] (H : HeaderFields)

/-- What a session over the contents `cs` shows, whatever was called and read so far: nothing
failed, the entries came in order, and all of them before the end; the next call hands out the
next one or the end; and the rest of a lent body is what a caller gets who reads on. -/
structure Session.Yields (limits : SecurityLimits) (cs : List Content) (evs : List Event) (σ : Session T S) : Prop where
  good : ∀ ev ∈ evs, ¬ ev.Bad
  entries : handed evs = (cs.take (handed evs).length).map (·.opened limits)
  ended : Event.next (.done (.ok none)) ∈ evs → (handed evs).length = cs.length
  next : σ.entry = none → ∃ N, ∀ polls, N ≤ polls →
    (σ.reader.nextEntry H polls).1 = .done (.ok (cs[(handed evs).length]?.map (·.opened limits)))
  body : ∀ e, σ.entry = some e → ∃ c rest, cs[(handed evs).length - 1]? = some c ∧
    e.path = c.path ∧ e.info = c.info ∧ c.data = bodyRead evs ++ rest ∧
    (∀ bytes l, Ended (⟨σ.reader, e⟩ : LentBody T S) bytes l → bytes = rest) ∧
    ∀ bufs : Nat → ReadBuf, (∀ n, 0 < (bufs n).remaining) →
      ∃ n, (after pollRead bufs (⟨σ.reader, e⟩ : LentBody T S) n).1 = rest ∧
        AtEof (bufs n) (pollRead (after pollRead bufs (⟨σ.reader, e⟩ : LentBody T S) n).2 (bufs n))

variable {H} {F : TarFormat H} {fr : T.Frames F} {G : Feed IoError S} {items : List Item} {t : List UInt8}
variable {limits : SecurityLimits} {cs : List Content}

/-- The items show the contents, and the limits have room for them. -/
structure Room (H : HeaderFields) (limits : SecurityLimits) (items : List Item) (cs : List Content) : Prop where
  shows : List.Forall₂ (Item.Shows (H := H) limits) items cs
  few : cs.length ≤ limits.maxEntries.toNat
  small : ∀ c ∈ cs, c.data.length ≤ limits.maxEntryBytes.toNat

theorem Room.nth (h : Room H limits items cs) {k : Nat} {i : Item} (hi : items[k]? = some i) :
    ∃ c, cs[k]? = some c ∧ i.Shows (H := H) limits c := by
  obtain ⟨hlt, rfl⟩ := List.getElem?_eq_some_iff.mp hi
  have hlt' : k < cs.length := h.shows.length_eq ▸ hlt
  exact ⟨cs[k], List.getElem?_eq_getElem hlt', h.shows.get hlt hlt'⟩

theorem Room.opened (h : Room H limits items cs) :
    ∀ i ∈ items, ∃ e : ReadEntry, openEntry H i.entry () limits = .ok e := by
  intro i hi
  obtain ⟨k, hk⟩ := List.mem_iff_getElem?.mp hi
  obtain ⟨c, -, hshows⟩ := h.nth hk
  exact ⟨_, hshows.opened⟩

/-- Where a session stands whose caller waited for every call. -/
structure InOrder (limits : SecurityLimits) (cs : List Content) (evs : List Event) (σ : Session T S) : Prop where
  good : ∀ ev ∈ evs, ¬ ev.Bad
  seen : σ.reader.seen = (handed evs).length
  entries : handed evs = (cs.take (handed evs).length).map (·.opened limits)

variable {evs : List Event} {σ : Session T S}

omit [AsyncRead IoError S] [Counters S] in
theorem InOrder.not_failed (h : InOrder limits cs evs σ) (hlife : Lifecycle evs σ) : σ.reader.bodyFailed = false := by
  cases hf : σ.reader.bodyFailed with
  | false => rfl
  | true =>
    obtain ⟨ev, hev, hbad⟩ := hlife.poisoned.mp hf
    exact absurd hbad (h.good ev hev)

omit [Counters S] in
/-- The lent body has left what was not read of the data. -/
theorem InOrder.lends (h : InOrder limits cs evs σ) (hroom : Room H limits items cs) (hlife : Lifecycle evs σ)
    (hfol : Follows H fr G none ⟨items, .zero t⟩ limits evs σ) {e : ReadEntry} (he : σ.entry = some e) :
    ∃ c rest, cs[(handed evs).length - 1]? = some c ∧
      { e with body := .new () limits.maxEntryBytes.toNat } = c.opened limits ∧ c.data = bodyRead evs ++ rest ∧
      (⟨σ.reader, e⟩ : LentBody T S).Left fr G items t rest := by
  have hd : σ.reader.done = false := hlife.not_done he
  obtain ⟨ahead, hon, hreads⟩ := hfol.live (h.not_failed hlife) hd
  obtain ⟨i, hlends, -⟩ := hfol.lent e he
  have hr := hreads e i he hlends
  obtain ⟨c, hc, hshows⟩ := hroom.nth hlends.nth
  rw [h.seen] at hc
  have hopened := hlends.opened.symm.trans hshows.opened
  refine ⟨c, _, hc, Except.ok.inj hopened, hshows.body.symm.trans hr.body, ahead, _, i, hon, ?_, ?_, hr.body⟩
  · rw [hfol.limits_eq]
    exact hr
  · rw [hfol.limits_eq, hshows.len]
    exact hroom.small c (List.mem_of_getElem? hc)

variable (hidle : Idle S) {room : ReadBuf → Prop}
variable (hG : G.Faultless) (hz : ZeroTrailer t) (hroom : Room H limits items cs)

include hG hz hroom

/-- A call that was waited for hands out the next content, or reports the end after the last. -/
theorem InOrder.next {r : Reader T S} (h : InOrder limits cs evs ⟨r, none⟩) (hlife : Lifecycle evs ⟨r, none⟩)
    (hfol : Follows H fr G none ⟨items, .zero t⟩ limits evs ⟨r, none⟩) {polls : Nat}
    (hwait : (r.nextEntry H polls).1 ≠ .cancelled) :
    (r.nextEntry H polls).1 = .done (.ok (cs[(handed evs).length]?.map (·.opened limits))) ∧
      (r.nextEntry H polls).2.seen = r.seen + (lent (r.nextEntry H polls).1).toList.length := by
  have hlimits : r.limits = limits := hfol.limits_eq
  have hseen : r.seen = (handed evs).length := h.seen
  have hend : items.length ≤ r.seen → cs[(handed evs).length]? = none := by
    intro hle
    rw [List.getElem?_eq_none_iff, ← hroom.shows.length_eq, ← hseen]
    exact hle
  rcases Reader.nextEntry_cases (H := H) r polls with ⟨hf, -⟩ | ⟨-, hd, he⟩ | ⟨hf, hd, -⟩
  · have hf' : r.bodyFailed = false := h.not_failed hlife
    rw [hf] at hf'
    cases hf'
  · obtain ⟨-, -, -, -, -, hall⟩ := hfol.finished hd
    rw [he, hend hall]
    exact ⟨rfl, rfl⟩
  · obtain ⟨s, hon, -⟩ := hfol.live hf hd
    have ha := next_on (H := H) polls hon
    have hkept := (Reader.nextEntry_kept (H := H) r polls).2.2
    cases hres : (r.nextEntry H polls).1 with
    | cancelled => exact absurd hres hwait
    | done res =>
      unfold Called at ha
      rw [hres] at ha hkept
      cases res with
      | error e =>
        exact absurd hz (call_error hG hroom.opened (by rw [hroom.shows.length_eq]; exact hroom.few) hon hlimits hres).2
      | ok o =>
        cases o with
        | none =>
          obtain ⟨-, -, -, -, -, hall, -⟩ := ha
          rw [hend hall, hkept rfl]
          exact ⟨rfl, rfl⟩
        | some e =>
          obtain ⟨i, s', hi, hopened, hnext, -⟩ := ha
          obtain ⟨c, hc, hshows⟩ := hroom.nth hi
          rw [hlimits, hshows.opened] at hopened
          rw [← hseen, hc, ← Except.ok.inj hopened]
          exact ⟨rfl, hnext⟩

include hidle in
/-- One step: a call hands out the next content, and reads do not fail. -/
theorem InOrder.step (h : InOrder limits cs evs σ) (hlife : Lifecycle evs σ)
    (hfol : Follows H fr G none ⟨items, .zero t⟩ limits evs σ) {σ' : Session T S} {ev : Event}
    (hs : σ.Step H room ev σ') (hwait : ev ≠ .next .cancelled) : InOrder limits cs (evs ++ [ev]) σ' := by
  have hgood : ¬ ev.Bad → ∀ ev' ∈ evs ++ [ev], ¬ ev'.Bad := by
    intro hev ev' hmem
    rcases List.mem_append.mp hmem with hmem | hmem
    · exact h.good ev' hmem
    · rwa [List.mem_singleton.mp hmem]
  have hsame : ev.entry = none → handed (evs ++ [ev]) = handed evs := by
    intro hnone
    have hnil : handed [ev] = [] := List.filterMap_cons_none hnone
    rw [handed_append, hnil, List.append_nil]
  cases hs with
  | next r polls =>
    have hwaited : (r.nextEntry H polls).1 ≠ .cancelled := fun hc => hwait (by rw [hc])
    obtain ⟨hres, hseen⟩ := h.next hG hz hroom hlife hfol hwaited
    have hlen : r.seen = (handed evs).length := h.seen
    cases hc : cs[(handed evs).length]? with
    | none =>
      rw [hc] at hres
      rw [hres] at hseen hgood hsame ⊢
      rw [show lent (.done (.ok (Option.map _ none))) = none from rfl] at hseen
      refine ⟨hgood id, ?_, ?_⟩
      · rw [hsame rfl]
        exact hseen.trans hlen
      · rw [hsame rfl]
        exact h.entries
    | some c =>
      rw [hc] at hres
      rw [hres] at hseen hgood hsame ⊢
      have hhanded : handed (evs ++ [.next (.done (.ok (some (c.opened limits))))]) = handed evs ++ [c.opened limits] :=
        handed_append _ _
      refine ⟨hgood id, ?_, ?_⟩
      · rw [Option.map_some, hhanded, List.length_append, ← hlen]
        exact hseen
      · rw [Option.map_some, hhanded, List.length_append, List.length_singleton, List.take_add_one, hc, List.map_append,
          ← h.entries]
        rfl
  | read r entry buf hb =>
    obtain ⟨c, rest, -, -, -, hleft⟩ := h.lends hroom hlife hfol rfl
    have hseen := (Reader.pollBody_kept r entry buf).2.1
    refine ⟨hgood ?_, ?_, ?_⟩
    · cases ho : (r.pollBody entry buf).1 with
      | pending => exact id
      | ready res =>
        cases res with
        | ok => exact id
        | error e =>
          have hroom : 0 < buf.remaining := by
            obtain ⟨ahead, _, i, -, hreads, -, -⟩ := hleft
            exact pollBody_room fr hidle hreads.lending hreads.failed ho
          exact absurd ho (hleft.not_error hG hroom)
    · rw [hsame rfl]
      exact hseen.trans h.seen
    · rw [hsame rfl]
      exact h.entries
  | drop r entry =>
    refine ⟨hgood id, ?_, ?_⟩
    · rw [hsame rfl]
      exact h.seen
    · rw [hsame rfl]
      exact h.entries

include hidle in
theorem inOrder_of_run {start : Session T S} (hseen : start.reader.seen = 0)
    (hfol : ∀ evs σ, Session.Run H room start evs σ →
      Lifecycle evs σ ∧ Follows H fr G none ⟨items, .zero t⟩ limits evs σ)
    (hrun : Session.Run H room start evs σ) (hwaits : ∀ ev ∈ evs, ev ≠ .next .cancelled) :
    InOrder limits cs evs σ := by
  induction hrun with
  | start => exact ⟨by simp, hseen, rfl⟩
  | @step evs σ σ' ev hrun hs ih =>
    obtain ⟨hlife, hfollows⟩ := hfol evs σ hrun
    have hin := ih fun ev' hev => hwaits ev' (List.mem_append_left _ hev)
    exact hin.step hidle hG hz hroom hlife hfollows hs (hwaits ev (List.mem_append_right _ (List.mem_singleton_self ev)))

/-- A session whose caller waited for every call yields the contents. -/
theorem InOrder.yields (h : InOrder limits cs evs σ) (hlife : Lifecycle evs σ)
    (hfol : Follows H fr G none ⟨items, .zero t⟩ limits evs σ) (P : G.Fair) : σ.Yields H limits cs evs := by
  refine ⟨h.good, h.entries, ?_, ?_, ?_⟩
  · intro hend
    obtain ⟨-, -, -, -, -, hall⟩ := hfol.finished (hlife.finished.mpr hend)
    have hle := congrArg List.length h.entries
    rw [List.length_map, List.length_take] at hle
    rw [h.seen] at hall
    have := hroom.shows.length_eq
    simp only at hall
    omega
  · intro hnone
    obtain ⟨r, entry⟩ := σ
    obtain rfl : entry = none := hnone
    obtain ⟨N, hN⟩ := hfol.completes P
    exact ⟨N, fun polls hp => (h.next hG hz hroom hlife hfol (hN polls hp)).1⟩
  · intro e he
    obtain ⟨c, rest, hc, hopened, hdata, hleft⟩ := h.lends hroom hlife hfol he
    have howes : (LentBody.feed fr items t hG).Owes ⟨σ.reader, e⟩ rest none := ⟨rfl, hleft⟩
    refine ⟨c, rest, hc, congrArg OpenEntry.path hopened, congrArg OpenEntry.info hopened, hdata, ?_, ?_⟩
    · intro bytes l hend
      exact ((LentBody.feed fr items t hG).ended hend howes).1.symm
    · exact (LentBody.fair hG P).delivers howes

end Sessions

section Archives

variable {R : Type} [AsyncRead IoError R]

/-- A reader over `source` opens, and yields `cs` to every caller who waits for it, whatever the
buffers are. -/
structure ReadsBack (T : Tar) (H : HeaderFields) (dec : Decoder (Replay R)) (limits : SecurityLimits) (cs : List Content)
    (source : R) : Prop where
  opens : ∃ N, ∀ polls, N ≤ polls → ∃ r : Opened T H dec, Reader.open T dec polls source limits = .done (.ok r)
  yields : ∀ polls (r : Opened T H dec), Reader.open T dec polls source limits = .done (.ok r) →
    ∀ evs σ, Session.Run H (fun _ => True) ⟨r, none⟩ evs σ → (∀ ev ∈ evs, ev ≠ .next .cancelled) →
      σ.Yields H limits cs evs

variable {T : Tar} {H : HeaderFields} {F : TarFormat H} (fr : T.Frames F) {C : Coding} (rd : C.Reads F)
variable {dec : Decoder (Replay R)} {decode : List UInt8 → List UInt8 × Option IoError}
variable {S : Feed IoError R} (hC : dec.Computes decode S) (P : S.Fair) (hS : S.Faultless)
variable {source : R} {z : List UInt8} (howes : S.Owes source z none) {limits : SecurityLimits}

include fr P hS howes in
/-- A source that does not fail is opened when it is given enough polls. -/
theorem open_completes : ∃ N, ∀ polls, N ≤ polls →
    ∃ r : Opened T H dec, Reader.open T dec polls source limits = .done (.ok r) := by
  have hmeter : (Meter.feed S).Owes (.new source) z none := ⟨none, rfl, howes⟩
  obtain ⟨parser, hparser, -⟩ := fr.opens
  refine ⟨(Meter.fair P).delay (.new source) + z.length + 1, fun polls hp => ?_⟩
  obtain ⟨d, hd⟩ : ∃ d : Decoded dec, decoded dec polls (.new source) = .done (.ok d) :=
    decoded_completes (Meter.fair P) (Meter.faultless hS) hmeter hp
  unfold Reader.open Reader.over Reader.start
  rw [hd, hparser]
  exact ⟨_, rfl⟩

/-- The capped stream that limits admit. -/
abbrev admittedFeed {d : Decoded dec} (hratio : Cap.KeepsRatio Decoded.count limits.maxCompressionRatio.toNat d) :
    Feed IoError (Cap (Decoded.count : Decoded dec → Nat)) :=
  Cap.kept hC.decoded limits.maxTotalBytes.toNat_lt hratio

include fr rd hC P hS howes in
/-- The archive of members that limits admit is read back as what they hold. -/
theorem reads_back {ms : List Member} {cs : List Content} (hfiles : List.Forall₂ Member.Files ms cs)
    (hz : contents decode z = (C.stream ms ++ terminators, none)) (hadmits : limits.Admits dec decode cs source z) :
    ReadsBack T H dec limits cs source := by
  refine ⟨open_completes fr P hS howes, ?_⟩
  intro polls r hr evs σ hrun hwaits
  obtain ⟨d, hd, hstart⟩ := open_ok hr
  obtain ⟨b, hb⟩ := sniffed hd
  have hdecodes := (hb (G := Meter.feed S) ⟨none, rfl, howes⟩).decodes hC
  have htotal := hadmits.total
  rw [hz] at hdecodes htotal
  obtain ⟨items, trailer, harch, hzero, hshows⟩ :=
    archive_of_members rd hfiles hadmits.entries (htotal.trans (Nat.le_pred_of_lt limits.maxTotalBytes.toNat_lt))
      hadmits.count
  have hratio := hadmits.ratio polls d hd
  have hkept : (admittedFeed hC hratio).Owes _ _ none := Cap.owes_kept _ hratio hdecodes htotal
  have hfol : ∀ evs σ, Session.Run H (fun _ => True) ⟨r, none⟩ evs σ → Lifecycle evs σ ∧
      Follows H fr (HeaderGuard.feed (admittedFeed hC hratio)) none ⟨items, .zero trailer⟩ limits evs σ := by
    intro evs σ hrun
    have h := follows_over fr hkept hstart hrun
    rwa [harch.outline.1, harch.outline.2] at h
  have hfaultless : (HeaderGuard.feed (H := H) (admittedFeed hC hratio)).Faultless :=
    HeaderGuard.faultless (Cap.kept_faultless _ hratio (Decoded.faultless (replayFeed_faultless hS) (hC.faultless hS)))
  have hfair : (HeaderGuard.feed (H := H) (admittedFeed hC hratio)).Fair :=
    HeaderGuard.fair (Cap.kept_fair _ hratio (Decoded.fair (replayFair P) (hC.fair P hS)))
  have hroom : Room H limits items cs := ⟨hshows, hadmits.count, fun c hc => (hadmits.entries c hc).entry_bytes⟩
  have hin := inOrder_of_run idle_guard hfaultless hzero hroom (start_fields hstart).1 hfol hrun hwaits
  obtain ⟨hlife, hfollows⟩ := hfol evs σ hrun
  exact hin.yields hfaultless hzero hroom hlife hfollows hfair

end Archives

end Etar
