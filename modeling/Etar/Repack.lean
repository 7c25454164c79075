import Etar.Finished

/-!
# Copying an archive

A caller may give a writer every entry a reader lends, with the lent body as the body to write, so
that no more of an archive is held than what is on its way. The copy of a finished archive encodes
the same tar bytes, in whatever format either of them is.
-/
namespace Etar

open AsyncIo Limit Compress Guard

section Lent

variable {T : Tar} {S : Type} [AsyncRead IoError S]

/-- An entry to write that is made of one lent by `r`: of its header alone, or with its body. -/
inductive Relay (r : Reader T S) (e : ReadEntry) : Submission → Prop where
  | file {entry : WriteEntry (LentBody T S)}
      (h : WriteEntry.file e.header.path e.header.info (.ofNat e.header.sizeBytes) ⟨r, e⟩ = .ok entry) :
      Relay r e ⟨LentBody T S, entry⟩
  | metadata {entry : WriteEntry Empty} (h : WriteEntry.metadata e.header.path e.header.info = .ok entry) :
      Relay r e ⟨Empty, entry⟩

/-- What can be stored without loss. -/
structure Content.Storable (c : Content) : Prop where
  normalized : c.path.Normalized
  fits : c.info.kind.Fits
  mode : c.info.mode.toNat < 8 ^ 7
  bodiless : c.info.kind ≠ .file → c.data = []

theorem Submission.Gives.storable {s : Submission} {c : Content} (h : s.Gives c) : c.Storable := by
  obtain ⟨G, -, -, hdata⟩ := h.delivers
  refine ⟨h.normalized, h.fits, h.mode, fun hkind => ?_⟩
  cases s.entry.checked with
  | inl hfile =>
    rw [← h.info] at hkind
    exact absurd hfile.1 hkind
  | inr hmeta =>
    have hlength := hdata.length
    rw [hmeta.2.1] at hlength
    exact List.length_eq_zero_iff.mp hlength

/-- Of a content that was lent unread, a content that can be stored is made an entry that gives it. -/
theorem Relay.gives {r : Reader T S} {e : ReadEntry} {s : Submission} (h : Relay r e s) {c : Content} (hc : c.Storable)
    (hpath : e.path = c.path) (hinfo : e.info = c.info) (hsize : e.sizeBytes = c.data.length)
    (hlen : c.data.length < 2 ^ 64) {G : Feed IoError (LentBody T S)} (P : G.Fair) (hG : G.Faultless)
    (howes : G.Owes ⟨r, e⟩ c.data none) : s.Gives c := by
  cases h with
  | file h =>
    unfold WriteEntry.file at h
    split at h
    · cases h
      refine ⟨hpath, hinfo, hc.normalized, hc.fits, hc.mode, G, ⟨P⟩, hG, ?_, ?_⟩
      · intro b hb
        cases hb
        exact howes
      · show c.data.length = (UInt64.ofNat e.sizeBytes).toNat
        rw [hsize, UInt64.toNat_ofNat_of_lt' hlen]
    · cases h
  | metadata h =>
    unfold WriteEntry.metadata at h
    split at h
    · cases h
    · rename_i hkind
      cases h
      refine ⟨hpath, hinfo, hc.normalized, hc.fits, hc.mode, Empty.feed, ⟨Empty.fair⟩, Empty.faultless, ?_, ?_⟩
      · intro b hb
        cases hb
      · have hkind : e.info.kind ≠ .file := hkind
        rw [hinfo] at hkind
        rw [hc.bodiless hkind]
        rfl

/-- Entries that give one content are the same. -/
theorem Submission.Gives.same {s s' : Submission} {c : Content} (h : s.Gives c) (h' : s'.Gives c) : s.Same s' := by
  obtain ⟨F, -, -, hdata⟩ := h.delivers
  obtain ⟨F', -, -, hdata'⟩ := h'.delivers
  refine ⟨h.path.trans h'.path.symm, h.info.trans h'.info.symm, ?_, c.data, ⟨F, hdata⟩, F', hdata'⟩
  exact UInt64.toNat_inj.mp (hdata.length.symm.trans hdata'.length)

variable {H : HeaderFields} {F : TarFormat H} {fr : T.Frames F} {G : Feed IoError S} {items : List Item} {t : List UInt8}

theorem LentBody.faultless (hG : G.Faultless) : (LentBody.feed fr items t hG).Faultless where
  fault h hb ho := absurd ho (h.2.not_error hG hb)

variable [Counters S] (H)

/-- A session whose caller made an entry to write of each that was lent, before reading of it. What
is read of it later is what the writer asks for, or anything else. -/
inductive Session.Relays (start : Session T S) : List Event → Session T S → List Submission → Prop where
  | start : Relays start [] start []
  | lent {evs : List Event} {r : Reader T S} {es : List Submission} (h : Relays start evs ⟨r, none⟩ es) {polls : Nat}
      {e : ReadEntry} (hok : (r.nextEntry H polls).1 = .done (.ok (some e))) {s : Submission}
      (hs : Relay (r.nextEntry H polls).2 e s) :
      Relays start (evs ++ [.next (.done (.ok (some e)))]) ⟨(r.nextEntry H polls).2, some e⟩ (es ++ [s])
  | other {evs : List Event} {σ σ' : Session T S} {es : List Submission} (h : Relays start evs σ es) {ev : Event}
      (hs : σ.Step H (fun _ => True) ev σ') (hnone : ev.entry = none) : Relays start (evs ++ [ev]) σ' es

variable {H} {start σ : Session T S} {evs : List Event} {es : List Submission}

theorem Session.Relays.run (h : Session.Relays H start evs σ es) : Session.Run H (fun _ => True) start evs σ := by
  induction h with
  | start => exact .start
  | @lent evs r es h polls e hok s hs ih =>
    have hstep : Session.Step H (fun _ => True) ⟨r, none⟩ _ _ := .next r polls
    rw [hok] at hstep
    exact ih.step hstep
  | other h hs hnone ih => exact ih.step hs

variable {limits : SecurityLimits} {cs : List Content}

/-- The entries made so far give the contents handed out so far. -/
theorem Session.Relays.gives (hidle : Idle S) (hG : G.Faultless) (P : G.Fair) (hz : ZeroTrailer t) (hroom : Room H limits items cs)
    (hseen : start.reader.seen = 0) (hfol : ∀ evs σ, Session.Run H (fun _ => True) start evs σ →
      Lifecycle evs σ ∧ Follows H fr G none ⟨items, .zero t⟩ limits evs σ) (hcs : ∀ c ∈ cs, c.Storable)
    (h : Session.Relays H start evs σ es) (hwaits : ∀ ev ∈ evs, ev ≠ .next .cancelled) :
    List.Forall₂ Submission.Gives es (cs.take (handed evs).length) := by
  induction h with
  | start => exact .nil
  | @lent evs r es h polls e hok s hs ih =>
    have hrun := (Session.Relays.lent h hok hs).run
    have hin := inOrder_of_run hidle hG hz hroom hseen hfol hrun hwaits
    obtain ⟨hlife, hfollows⟩ := hfol _ _ hrun
    obtain ⟨c, rest, hc, hopened, hdata, hleft⟩ := hin.lends hroom hlife hfollows rfl
    have hhanded : handed (evs ++ [.next (.done (.ok (some e)))]) = handed evs ++ [e] := handed_append _ _
    rw [hhanded, List.length_append, List.length_singleton, Nat.add_sub_cancel] at hc
    rw [bodyRead_append] at hdata
    obtain rfl : c.data = rest := hdata
    have hmem := List.mem_of_getElem? hc
    have hlen := (hroom.small c hmem).trans_lt limits.maxEntryBytes.toNat_lt
    have hgives := hs.gives (hcs c hmem) (congrArg OpenEntry.path hopened) (congrArg OpenEntry.info hopened)
      (congrArg OpenEntry.sizeBytes hopened) hlen (LentBody.fair hG P) (LentBody.faultless hG) ⟨rfl, hleft⟩
    rw [hhanded, List.length_append, List.length_singleton, List.take_add_one, hc]
    exact List.rel_append (ih fun ev hev => hwaits ev (List.mem_append_left _ hev)) (.cons hgives .nil)
  | @other evs σ σ' es h ev hs hnone ih =>
    have hnil : handed [ev] = [] := List.filterMap_cons_none hnone
    rw [handed_append, hnil, List.append_nil]
    exact ih fun ev hev => hwaits ev (List.mem_append_left _ hev)

end Lent

section Archives

variable {T : Tar} {H : HeaderFields} {F : TarFormat H} (fr : T.Frames F) {C : Coding} (rd : C.Reads F)
variable {decode : List UInt8 → List UInt8 × Option IoError}

include fr rd in
/-- An opened reader over an archive of members that limits admit follows its items without a fault. -/
theorem followed_of_members {R : Type} [AsyncRead IoError R] {dec : Decoder (Replay R)} {S : Feed IoError R}
    (hC : dec.Computes decode S) (P : S.Fair) (hS : S.Faultless) {source : R} {z : List UInt8}
    (howes : S.Owes source z none) {limits : SecurityLimits} {ms : List Member} {cs : List Content}
    (hfiles : List.Forall₂ Member.Files ms cs) (hz : contents decode z = (C.stream ms ++ terminators, none))
    (hadmits : limits.Admits dec decode cs source z) {polls : Nat} {r : Opened T H dec}
    (hr : Reader.open T dec polls source limits = .done (.ok r)) :
    ∃ G : Feed IoError (Source H (Decoded.count : Decoded dec → Nat)), G.Faultless ∧ Nonempty G.Fair ∧
      ∃ items t, ZeroTrailer t ∧ Room H limits items cs ∧ r.seen = 0 ∧
        ∀ evs σ, Session.Run H (fun _ => True) ⟨r, none⟩ evs σ →
          Lifecycle evs σ ∧ Follows H fr G none ⟨items, .zero t⟩ limits evs σ := by
  obtain ⟨d, hd, hstart⟩ := open_ok hr
  obtain ⟨b, hb⟩ := sniffed hd
  have hdecodes := (hb (G := Meter.feed S) ⟨none, rfl, howes⟩).decodes hC
  have htotal := hadmits.total
  rw [hz] at hdecodes htotal
  obtain ⟨items, trailer, harch, hzero, hshows⟩ :=
    archive_of_members rd hfiles hadmits.entries (htotal.trans (Nat.le_pred_of_lt limits.maxTotalBytes.toNat_lt))
      hadmits.count
  have hratio := hadmits.ratio polls d hd
  have hkept : (admittedFeed hC hratio).Owes _ _ none := Cap.owes_kept _ hratio hdecodes htotal
  have hfaultless : (HeaderGuard.feed (H := H) (admittedFeed hC hratio)).Faultless :=
    HeaderGuard.faultless (Cap.kept_faultless _ hratio (Decoded.faultless (replayFeed_faultless hS) (hC.faultless hS)))
  have hfair : (HeaderGuard.feed (H := H) (admittedFeed hC hratio)).Fair :=
    HeaderGuard.fair (Cap.kept_fair _ hratio (Decoded.fair (replayFair P) (hC.fair P hS)))
  refine ⟨_, hfaultless, ⟨hfair⟩, items, trailer, hzero,
    ⟨hshows, hadmits.count, fun c hc => (hadmits.entries c hc).entry_bytes⟩, (start_fields hstart).1, ?_⟩
  intro evs σ hrun
  have h := follows_over fr hkept hstart hrun
  rwa [harch.outline.1, harch.outline.2] at h

variable (B : Builder) (E : Encoder) (Frame : List UInt8 → List UInt8 → Prop) {W : Type} [AsyncWrite IoError W]
variable (D : Drain IoError W)

/-- A caller who reads the bytes `z` under limits that admit `cs`, and gives what is lent to a new
writer: an append succeeds if it is waited for, and once the reader came to its end and the writer
is finished, its sink holds an encoding of `tar`. -/
def CopiesAs (T : Tar) (H : HeaderFields) (decode : List UInt8 → List UInt8 × Option IoError) (z : List UInt8)
    (cs : List Content) (tar : List UInt8) : Prop :=
  ∀ {R : Type} [AsyncRead IoError R] (dec : Decoder (Replay R)) (S : Feed IoError R), dec.Computes decode S →
    S.Fair → S.Faultless → ∀ source, S.Owes source z none →
    ∀ limits : SecurityLimits, limits.Admits dec decode cs source z →
    ∀ polls (r : Opened T H dec), Reader.open T dec polls source limits = .done (.ok r) →
    ∀ evs σ es, Session.Relays H ⟨r, none⟩ evs σ es → (∀ ev ∈ evs, ev ≠ .next .cancelled) →
    ∀ (sink : W) (format : Format), D.Holds sink [] →
      (∀ before s (ω : Writer B E W), before ++ [s] <+: es → (Writer.new sink format).Appends before ω →
        (∃ N, ∀ polls, N ≤ polls → (ω.append polls s.entry).1 = .done (.ok ())) ∧
          ∀ polls, (ω.append polls s.entry).1 ≠ .cancelled → (ω.append polls s.entry).1 = .done (.ok ())) ∧
      (Event.next (.done (.ok none)) ∈ evs → ∀ ω : Writer B E W, (Writer.new sink format).Appends es ω →
        ∀ polls out, (ω.finish polls).1 = .done (.ok out) → ∃ z', D.Holds out.sink z' ∧ format.Encodes Frame tar z')

variable {B E Frame D} (pk : B.Packs C) (enc : E.Encodes Frame)

omit [AsyncWrite IoError W] in
/-- Entries that give the same contents are the same. -/
theorem same_of_gives {es es' : List Submission} {cs : List Content} (h : List.Forall₂ Submission.Gives es cs)
    (h' : List.Forall₂ Submission.Gives es' cs) : List.Forall₂ Submission.Same es es' := by
  induction h generalizing es' with
  | nil =>
    cases h'
    exact .nil
  | cons hs _ ih =>
    cases h' with
    | cons hs' hes' => exact .cons (hs.same hs') (ih hes')

theorem gives_of_mem {es : List Submission} {cs : List Content} (h : List.Forall₂ Submission.Gives es cs)
    {s : Submission} (hs : s ∈ es) : ∃ c ∈ cs, s.Gives c := by
  induction h with
  | nil => cases hs
  | cons hgives _ ih =>
    cases hs with
    | head => exact ⟨_, List.mem_cons_self, hgives⟩
    | tail _ hs =>
      obtain ⟨c, hc, hgives⟩ := ih hs
      exact ⟨c, List.mem_cons_of_mem _ hc, hgives⟩

theorem storable_of_gives {es : List Submission} {cs : List Content} (h : List.Forall₂ Submission.Gives es cs) :
    ∀ c ∈ cs, c.Storable := by
  induction h with
  | nil => exact fun c hc => by cases hc
  | cons hgives _ ih =>
    intro c hc
    cases hc with
    | head => exact hgives.storable
    | tail _ hc => exact ih c hc

/-- A content is stored as it is when its target is joined already. -/
theorem Submission.Gives.stored_eq {s : Submission} {c : Content} (h : s.Gives c)
    (hjoined : c.info.kind.stored = c.info.kind) : c.stored = c := by
  unfold Content.stored Meta.stored
  rw [(storedMode_eq_iff _).mpr h.mode, hjoined]

include rd in
/-- The members of entries hold what the entries give, and the builder takes their paths. -/
theorem files_of_gives (hlinks : B.SetsLinks) {es : List Submission} {cs : List Content}
    (h : List.Forall₂ Submission.Gives es cs) (hjoined : ∀ c ∈ cs, c.info.kind.stored = c.info.kind) {ms : List Member}
    (hms : List.Forall₂ (fun (s : Submission) m => Stored B C s.entry.inner m) es ms) :
    List.Forall₂ (Submission.StoredAs C) es cs ∧ List.Forall₂ Member.Files ms cs ∧ ∀ c ∈ cs, C.Takes c.path := by
  induction h generalizing ms with
  | nil =>
    cases hms
    exact ⟨.nil, .nil, fun c hc => by cases hc⟩
  | cons hgives _ ih =>
    obtain ⟨hfirst, hrest⟩ := List.forall_mem_cons.mp hjoined
    cases hms with
    | cons hm hms =>
      obtain ⟨c, hstored, hfiles⟩ := files_of_stored hlinks rd hm
      obtain rfl := (hgives.stored rd hstored).trans (hgives.stored_eq hfirst)
      obtain ⟨hall, hallFiles, hallTaken⟩ := ih hrest hms
      have htaken : C.Takes c.path := ⟨_, hgives.path ▸ hstored.path⟩
      exact ⟨.cons hstored hall, .cons hfiles hallFiles, List.forall_mem_cons.mpr ⟨htaken, hallTaken⟩⟩

include pk enc fr rd in
/-- The copy of a finished archive, made of the bodies a reader lends, encodes the same tar bytes:
a compressed archive copied into the plain format is the plain one, and a plain one that was
compressed and copied back is itself. Its entries were such as are stored without loss, with targets
that are joined already. -/
theorem copies_encode_the_same (hlinks : B.SetsLinks) (hnamed : C.Named) (hundoes : Undoes decode Frame) (Q : D.Fair)
    (hD : D.Faultless) {sink : W} (hsink : D.Holds sink []) {format : Format} {es : List Submission}
    {cs : List Content} (hgives : List.Forall₂ Submission.Gives es cs)
    (hjoined : ∀ c ∈ cs, c.info.kind.stored = c.info.kind) {ω : Writer B E W}
    (h : (Writer.new sink format).Appends es ω) (hfirst : format = .tar → Unmistaken C es) {polls : Nat}
    {out : WriteOutput W} (hok : (ω.finish polls).1 = .done (.ok out)) :
    ∃ tar z, D.Holds out.sink z ∧ format.Encodes Frame tar z ∧ CopiesAs B E Frame D T H decode z cs tar := by
  obtain ⟨ms, hmembers, hformat, hholds⟩ := stored_of_appends pk enc hsink h
  obtain ⟨hstored, hfiles, htaken⟩ := files_of_gives rd hlinks hgives hjoined hmembers
  obtain ⟨-, z, hencodes, hsinkz, -⟩ := finish_ok pk enc hholds hok
  rw [hformat] at hencodes
  refine ⟨C.stream ms ++ terminators, z, hsinkz, hencodes, ?_⟩
  intro R _ dec S hC P hS source howes limits hadmits polls r hr evs σ es' hrelays hwaits sink' format' hsink'
  have hz := contents_written hnamed hundoes hfirst hstored hfiles hencodes
  obtain ⟨G, hG, ⟨PG⟩, items, t, hzero, hroom, hseen, hfol⟩ := followed_of_members fr rd hC P hS howes hfiles hz hadmits hr
  have hcopied := hrelays.gives idle_guard hG PG hzero hroom hseen hfol (storable_of_gives hgives) hwaits
  constructor
  · intro before s ω' hpre happends
    have hmem : s ∈ es' := hpre.subset (List.mem_append_right _ (List.mem_singleton_self s))
    obtain ⟨c, hc, hs⟩ := gives_of_mem hcopied hmem
    obtain ⟨K, ⟨PK⟩, hK, hdata⟩ := hs.delivers
    exact append_succeeds pk enc rd hlinks Q hD hsink' happends (hs.info ▸ hs.fits)
      (hs.path ▸ htaken c (List.mem_of_mem_take hc)) PK hK hdata
  · intro hend ω' happends polls' out' hok'
    obtain ⟨hlife, hfollows⟩ := hfol _ _ hrelays.run
    have hin := inOrder_of_run idle_guard hG hzero hroom hseen hfol hrelays.run hwaits
    have hall := (hin.yields hG hzero hroom hlife hfollows PG).ended hend
    rw [hall, List.take_length] at hcopied
    obtain ⟨ms', hmembers', hformat', hholds'⟩ := stored_of_appends pk enc hsink' happends
    obtain rfl := members_eq (same_of_gives hgives hcopied) hmembers hmembers'
    obtain ⟨-, z', hencodes', hsinkz', -⟩ := finish_ok pk enc hholds' hok'
    rw [hformat'] at hencodes'
    exact ⟨z', hsinkz', hencodes'⟩

end Archives

section Samples

/-- A plain archive that comes in parts is copied into a compressed one. -/
theorem copies_encode_the_same_sample :
    ∃ z, written 511 [pairFile []] = some z ∧
      ∃ (polls : Nat) (r : Opened Gnu.tar gnuFields (RawZstd.decoder (Replay (Script IoError)))) (evs : List Event)
        (σ : Session Gnu.tar _) (s : Submission) (ω : Writer Gnu.builder RawZstd.encoder (Memory IoError)) (more : Nat)
        (out : WriteOutput (Memory IoError)),
        Reader.open Gnu.tar _ polls ⟨z, [.give 4, .late]⟩ .default = .done (.ok r) ∧
          Session.Relays gnuFields ⟨r, none⟩ evs σ [s] ∧ (Writer.new ⟨[], 99⟩ .tarZstd).Appends [s] ω ∧
            (ω.finish more).1 = .done (.ok out) ∧ RawZstd.Frame z out.sink.bytes := by
  have hz : (written 511 [pairFile []]).map (fun z => (z.length, decide (zstdMagic <+: z))) = some (2048, false) := by
    decide +kernel
  obtain ⟨z, hz, hpair⟩ := Option.map_eq_some_iff.mp hz
  obtain ⟨hlen, hraw⟩ := Prod.mk.inj hpair
  have hraw : ¬ zstdMagic <+: z := of_decide_eq_false hraw
  obtain ⟨ω, out, happends, hfinish, rfl⟩ := written_eq_some hz
  have hgives : List.Forall₂ Submission.Gives [pairFile []] [pair] := .cons (gives_pairFile [] (by simp)) .nil
  have hfirst : Unmistaken Gnu.coding [pairFile []] := by
    intro s hs path hpath _
    obtain rfl := Option.some.inj hs
    obtain rfl : [97] = path := Except.ok.inj hpath
    decide
  have hjoined : ∀ c ∈ [pair], c.info.kind.stored = c.info.kind := by
    intro c hc
    rw [List.mem_singleton.mp hc]
    rfl
  obtain ⟨tar, _, rfl, htar, hcopies⟩ := copies_encode_the_same Gnu.frames Gnu.reads Gnu.packs RawZstd.encodes
    Gnu.setsLinks Gnu.named RawZstd.undoes Memory.fair Memory.faultless (Memory.holds_empty 511) hgives
    hjoined happends (fun _ => hfirst) hfinish
  obtain rfl : out.sink.bytes = tar := htar
  -- a reader over it lends the pair, and then ends
  obtain ⟨ms, cs, hstands⟩ := stands_of_appends Gnu.packs RawZstd.encodes Gnu.setsLinks Gnu.reads (Memory.holds_empty 511)
    happends
  obtain rfl : cs = [pair] := stored_of_gives Gnu.reads hgives hstands.stored
  obtain ⟨_, rfl, hreadable⟩ := readable_of_finish Gnu.named Gnu.packs RawZstd.encodes Gnu.frames Gnu.reads RawZstd.undoes
    hstands (fun _ => hfirst) hfinish
  have hsteady : ∀ e : IoError, .fail e ∉ [Beat.give 4, .late] := by simp
  have howes : Script.steadyFeed.Owes (⟨out.sink.bytes, [.give 4, .late]⟩ : Script IoError) out.sink.bytes none :=
    ⟨⟨rfl, rfl⟩, hsteady⟩
  have hallowed : ∀ c ∈ [pair], c.Allowed .default := by
    intro c hc
    rw [List.mem_singleton.mp hc]
    exact allowed_pair
  have hadmits := admits_plain hsteady hallowed (by decide) (by omega) hraw
  obtain ⟨⟨N₀, hopens⟩, hyields⟩ := hreadable _ _ (RawZstd.computes _) Script.steadyFair Script.steady_faultless _ howes
    _ hadmits
  obtain ⟨r, hr⟩ := hopens N₀ (Nat.le_refl N₀)
  obtain ⟨N₁, hnext⟩ := (hyields N₀ r hr [] _ .start (by simp)).next rfl
  have hlent := Session.Relays.lent .start (hnext N₁ (Nat.le_refl N₁)) (.file (dif_pos rfl))
  have hdropped := Session.Relays.other hlent (.drop _ _) rfl
  obtain ⟨N₂, hlast⟩ := (hyields N₀ r hr _ _ hdropped.run (by simp)).next rfl
  have hlast := hlast N₂ (Nat.le_refl N₂)
  have hended := Session.Relays.other hdropped (.next _ N₂) (by rw [hlast]; rfl)
  -- a writer that is given what it lent
  obtain ⟨happend', hfinish'⟩ := hcopies _ _ (RawZstd.computes _) Script.steadyFair Script.steady_faultless _ howes
    _ hadmits N₀ r hr _ _ _ hended (by rw [hlast]; simp) ⟨[], 99⟩ .tarZstd (Memory.holds_empty 99)
  obtain ⟨⟨N₃, h₃⟩, -⟩ := happend' [] _ (.new _ _) (List.prefix_refl _) .start
  have happends' := Writer.Appends.append .start _ N₃ (h₃ N₃ (Nat.le_refl N₃))
  obtain ⟨⟨N₄, out', h₄⟩, -⟩ := finish_succeeds Gnu.packs RawZstd.encodes Gnu.reads Gnu.setsLinks Memory.fair
    Memory.faultless (Memory.holds_empty 99) happends'
  have h₄ := h₄ N₄ (Nat.le_refl N₄)
  obtain ⟨_, rfl, hframe⟩ := hfinish' (List.mem_append_right _ (by rw [hlast]; exact List.mem_singleton_self _)) _
    happends' N₄ out' h₄
  exact ⟨_, hz, N₀, r, _, _, _, _, N₄, out', hr, hended, happends', h₄, hframe⟩

end Samples

end Etar
