import Etar.PackRun
import Etar.Writer

/-!
# What packing an entry does

A packed file is stored with exactly the declared number of body bytes, every other kind
with none. Given enough polls, an entry whose body has the declared length is packed.
-/
namespace Etar

open AsyncIo

section Bodies

variable {R : Type} [AsyncRead IoError R]

namespace Exact

/-- What one poll does: nothing at the declared end, hand on bytes that fit, flag a body that
ends early or goes on, or hand on any other answer. -/
inductive Polls (e : Exact R) (buf : ReadBuf) : Polled IoError (Exact R) → Prop where
  | spent (h0 : e.remaining = 0) : Polls e buf ⟨.ready (.ok ()), buf, e⟩
  | fits (h0 : e.remaining ≠ 0) (ho : (pollRead e.inner buf).outcome = .ready (.ok ()))
      (hpos : 0 < (buf.added (pollRead e.inner buf).buf).length)
      (hle : (buf.added (pollRead e.inner buf).buf).length ≤ e.remaining) :
      Polls e buf ⟨.ready (.ok ()), (pollRead e.inner buf).buf,
        ⟨(pollRead e.inner buf).reader, e.remaining - (buf.added (pollRead e.inner buf).buf).length, e.mismatch⟩⟩
  | flagged (b : ReadBuf) (ho : (pollRead e.inner buf).outcome = .ready (.ok ()))
      (hbad : buf.added (pollRead e.inner buf).buf = [] ∧ e.remaining ≠ 0 ∨
        e.remaining < (buf.added (pollRead e.inner buf).buf).length) :
      Polls e buf ⟨.ready (.error lengthMismatch), b, ⟨(pollRead e.inner buf).reader, e.remaining, true⟩⟩
  | other (h0 : e.remaining ≠ 0) (ho : (pollRead e.inner buf).outcome ≠ .ready (.ok ())) :
      Polls e buf ⟨(pollRead e.inner buf).outcome, (pollRead e.inner buf).buf,
        { e with inner := (pollRead e.inner buf).reader }⟩

theorem polls (e : Exact R) (buf : ReadBuf) : Polls e buf (pollRead e buf) := by
  show Polls e buf (e.poll buf)
  unfold poll
  split
  · rename_i h0
    exact .spent h0
  · rename_i h0
    dsimp only
    split
    · rename_i ho
      split_ifs with hnone hmany
      · exact .flagged _ ho (Or.inl ⟨List.length_eq_zero_iff.mp hnone, h0⟩)
      · exact .flagged _ ho (Or.inr hmany)
      · exact .fits h0 ho (Nat.pos_of_ne_zero hnone) (Nat.le_of_not_lt hmany)
    · rename_i hnot
      exact .other h0 hnot

/-- What was handed out and what remains add up to the declared length. -/
theorem length_handed {r : R} {n : Nat} {body : List UInt8} {e : Exact R} (h : Handed (Exact.new r n) body e)
    (hm : e.mismatch = false) : body.length + e.remaining = n := by
  induction h with
  | start => simp [Exact.new]
  | @idle e body h b hb ho ih =>
    have hp := polls e b
    generalize pollRead e b = p at hp ho hm
    cases hp with
    | spent h0 => exact absurd rfl ho
    | fits h0 hin hpos hle => exact absurd rfl ho
    | flagged b' hin hbad => cases hm
    | other h0 hin => exact ih hm
  | @chunk e body h b hb ho ih =>
    have hp := polls e b
    generalize pollRead e b = p at hp ho hm
    cases hp with
    | spent h0 => simpa using ih hm
    | fits h0 hin hpos hle =>
      have := ih hm
      simp only [List.length_append]
      omega
    | flagged b' hin hbad => cases hm
    | other h0 hin => exact absurd ho hin

theorem length_ended {r : R} {n : Nat} {body : List UInt8} {e : Exact R} (h : Ended (Exact.new r n) body e)
    (hm : e.mismatch = false) : body.length = n := by
  obtain ⟨e₁, b, h, hb, ho, hnil, rfl⟩ := h
  have hp := polls e₁ b
  generalize pollRead e₁ b = p at hp ho hm hnil
  cases hp with
  | spent h0 =>
    have := length_handed h hm
    omega
  | fits h0 hin hpos hle =>
    simp only at hnil
    rw [hnil] at hpos
    exact absurd hpos (Nat.lt_irrefl 0)
  | flagged b' hin hbad => cases hm
  | other h0 hin => exact absurd ho hin

variable (F : Feed IoError R)

/-- A body that owes just the declared length is not flagged. -/
theorem not_flagged {e : Exact R} {s : List UInt8} {b : ReadBuf} (hin : F.Owes e.inner s none)
    (hlen : s.length = e.remaining) (hb : 0 < b.remaining) (ho : (pollRead e.inner b).outcome = .ready (.ok ())) :
    ¬ (b.added (pollRead e.inner b).buf = [] ∧ e.remaining ≠ 0 ∨
      e.remaining < (b.added (pollRead e.inner b).buf).length) := by
  obtain ⟨s', hs, -, hend⟩ := F.chunk hin hb ho
  have hl := congrArg List.length hs
  rw [List.length_append] at hl
  rintro (⟨hnil, h0⟩ | hlt)
  · rw [hnil, (hend hnil).1] at hl
    exact h0 (hlen.symm.trans hl)
  · omega

/-- Over a feed that owes just the declared length nothing is cut off or missing. -/
def feed : Feed IoError (Exact R) where
  Owes e s stop := stop = none ∧ F.Owes e.inner s none ∧ s.length = e.remaining ∧ e.mismatch = false
  pending {e s stop b} he hb ho := by
    obtain ⟨hstop, hin, hlen, hm⟩ := he
    have hp := polls e b
    generalize pollRead e b = p at hp ho
    cases hp with
    | spent h0 => cases ho
    | fits h0 hok hpos hle => cases ho
    | flagged b' hok hbad => cases ho
    | other h0 hnot =>
      obtain ⟨hbuf, hin'⟩ := F.pending hin hb ho
      exact ⟨hbuf, hstop, hin', hlen, hm⟩
  chunk {e s stop b} he hb ho := by
    obtain ⟨rfl, hin, hlen, hm⟩ := he
    have hp := polls e b
    generalize pollRead e b = p at hp ho
    cases hp with
    | spent h0 =>
      rw [h0, List.length_eq_zero_iff] at hlen
      subst hlen
      exact ⟨[], by simp, ⟨rfl, hin, h0.symm, hm⟩, fun _ => ⟨rfl, rfl⟩⟩
    | fits h0 hok hpos hle =>
      obtain ⟨s', hs, hin', hend⟩ := F.chunk hin hb hok
      refine ⟨s', hs, ⟨rfl, hin', ?_, hm⟩, hend⟩
      have hl := congrArg List.length hs
      rw [List.length_append] at hl
      simp only
      omega
    | flagged b' hok hbad => cases ho
    | other h0 hnot => exact absurd ho hnot
  fault {e s stop b err} he hb ho := by
    obtain ⟨rfl, hin, hlen, hm⟩ := he
    have hp := polls e b
    generalize pollRead e b = p at hp ho
    cases hp with
    | spent h0 => cases ho
    | fits h0 hok hpos hle => cases ho
    | flagged b' hok hbad => exact absurd hbad (not_flagged F hin hlen hb hok)
    | other h0 hnot =>
      obtain ⟨hbuf, hin'⟩ := F.fault_clean hin hb ho
      exact Or.inl ⟨hbuf, rfl, hin', hlen, hm⟩

variable {F}

def fair (P : F.Fair) : (feed F).Fair where
  delay e := P.delay e.inner
  pending {e s stop b} he hb ho := by
    have hp := polls e b
    generalize pollRead e b = p at hp ho
    cases hp with
    | spent h0 => cases ho
    | fits h0 hok hpos hle => cases ho
    | flagged b' hok hbad => cases ho
    | other h0 hnot => exact P.pending he.2.1 hb ho
  chunk {e s stop b} he hb ho := by
    have hp := polls e b
    generalize pollRead e b = p at hp ho
    cases hp with
    | spent h0 => exact le_refl _
    | fits h0 hok hpos hle => exact P.chunk he.2.1 hb hok
    | flagged b' hok hbad => cases ho
    | other h0 hnot => exact absurd ho hnot
  fault {e s stop b err} he hb ho := by
    obtain ⟨rfl, hin, hlen, hm⟩ := he
    have hp := polls e b
    generalize pollRead e b = p at hp ho
    cases hp with
    | spent h0 => cases ho
    | fits h0 hok hpos hle => cases ho
    | flagged b' hok hbad => exact absurd hbad (not_flagged F hin hlen hb hok)
    | other h0 hnot =>
      rcases P.fault hin hb ho with hlt | ⟨hstop, -⟩
      · exact Or.inl hlt
      · cases hstop

theorem faultless (hF : F.Faultless) : (feed F).Faultless := by
  constructor
  intro e s stop b err he hb ho
  obtain ⟨rfl, hin, hlen, hm⟩ := he
  have hp := polls e b
  generalize pollRead e b = p at hp ho
  cases hp with
  | spent h0 => cases ho
  | fits h0 hok hpos hle => cases ho
  | flagged b' hok hbad => exact absurd hbad (not_flagged F hin hlen hb hok)
  | other h0 hnot => cases (hF.fault hin hb ho).1

end Exact

namespace Empty

def feed : Feed IoError Empty where
  Owes _ s stop := s = [] ∧ stop = none
  pending _ _ ho := by cases ho
  chunk {r s stop b} hr _ _ := ⟨[], by simp [hr.1, pollRead], ⟨rfl, hr.2⟩, fun _ => ⟨rfl, hr.2⟩⟩
  fault _ _ ho := by cases ho

def fair : feed.Fair where
  delay _ := 0
  pending _ _ ho := by cases ho
  chunk _ _ _ := le_refl _
  fault _ _ ho := by cases ho

theorem faultless : feed.Faultless := by
  constructor
  intro r s stop b e _ _ ho
  cases ho

end Empty

end Bodies

section Entries

variable {B : Builder} {C : Coding} {R W : Type} [AsyncRead IoError R] [AsyncWrite IoError W]

/-- The header `pack` sets for an entry. -/
def PackEntry.header (B : Builder) (entry : PackEntry R) : Except IoError Header :=
  let base := baseHeader entry.info
  match entry.info.kind with
  | .file => .ok { base with entryType := .regular, size := entry.size }
  | .dir => .ok { base with entryType := .directory, size := 0 }
  | .symlink target =>
    (B.setLinkName target).map fun field => { base with entryType := .symlink, size := 0, linkName := field }
  | .hardlink target =>
    (B.setLinkName target).map fun field => { base with entryType := .link, size := 0, linkName := field }

/-- A member as the archive stores it. -/
structure Member where
  header : Header
  path : List UInt8
  body : List UInt8

/-- The records of a member. -/
def Coding.records (C : Coding) (m : Member) : List UInt8 :=
  C.head m.header m.path ++ m.body ++ padding m.body.length

/-- The records of members, one after the other. -/
def Coding.stream (C : Coding) (ms : List Member) : List UInt8 := ms.flatMap C.records

/-- `m` is how `entry` is stored: its body is all that the entry's reader hands out, and as
long as declared. -/
structure Stored (B : Builder) (C : Coding) (entry : PackEntry R) (m : Member) : Prop where
  header : entry.header B = .ok m.header
  path : C.setPath entry.path.bytes = .ok m.path
  whole : match entry.body with
    | some b => ∃ e, Ended (Exact.new b entry.size.toNat) m.body e ∧ e.mismatch = false
    | none => m.body = []

/-- The call of the builder for an entry without a body. -/
theorem pack_meta {entry : PackEntry R} (hk : entry.info.kind ≠ .file) (h0 : entry.size = 0)
    (hb : entry.body = none) (polls : Nat) (state : B.State) (sink : W) :
    pack polls state sink entry =
      match entry.header B with
      | .error e => ⟨.done (.error (.io e)), state, sink⟩
      | .ok header =>
        let d := B.drive polls ⟨B.appendData state header entry.path.bytes, Empty.mk, sink⟩
        ⟨match d.result with
          | .cancelled => .cancelled
          | .done result => .done (result.mapError .io), d.rest.state, d.rest.sink⟩ := by
  unfold pack PackEntry.header
  rw [if_neg (by simp [h0, hb])]
  cases hkind : entry.info.kind with
  | file => exact absurd hkind hk
  | dir => rfl
  | symlink target => rfl
  | hardlink target => rfl

/-- The call of the builder for a file. -/
theorem pack_file {entry : PackEntry R} (hk : entry.info.kind = .file) {b : R} (hb : entry.body = some b)
    (polls : Nat) (state : B.State) (sink : W) :
    pack polls state sink entry = appendFile polls state sink (baseHeader entry.info) entry.path entry.size (some b) := by
  unfold pack
  rw [if_neg (by simp [hk])]
  simp only [hk, hb]

variable (pk : B.Packs C)

/-- A call that failed does not succeed. -/
theorem drive_failed {p : At B R W} {e : IoError} (h : pk.phase p.state = .failed e) (polls : Nat) :
    (B.drive polls p).result ≠ .done (.ok ()) := by
  intro hok
  have hturn : ∀ q : At B R W, (∃ e, pk.phase q.state = .failed e) → ∃ e, pk.phase (B.turn q).state = .failed e := by
    rintro q ⟨e, he⟩
    have hwants := pk.wants q.state
    cases hw : B.want q.state with
    | done res =>
      refine ⟨e, ?_⟩
      rw [Builder.turn, hw]
      exact he
    | read n =>
      rw [hw, he] at hwants
      cases hwants
    | write bytes =>
      rw [hw, he] at hwants
      cases hwants
    | flush =>
      simp only [Builder.turn, hw]
      cases (pollFlush q.sink).1 with
      | pending => exact ⟨e, he⟩
      | ready res =>
        cases res with
        | error e' => exact ⟨e', pk.flushed_fault hw e'⟩
        | ok => exact ⟨e, (pk.flushed_ok hw).trans he⟩
  obtain ⟨⟨e', he'⟩, hdone⟩ := B.drive_invariant (P := fun q => ∃ e, pk.phase q.state = .failed e) hturn polls ⟨e, h⟩
  have hwants := pk.wants (B.drive polls p).rest.state
  rw [hdone _ hok, he'] at hwants
  cases hwants

variable {D : Drain IoError W} {s : List UInt8}

/-- A call of `append_data` that succeeds has written the member, with all the body has. -/
theorem appendData_ok {state : B.State} {sink : W} (hφ : pk.phase state = .tail []) (hsink : D.Holds sink s)
    (header : Header) (path : List UInt8) (body : R) (polls : Nat)
    (hok : (B.drive polls ⟨B.appendData state header path, body, sink⟩).result = .done (.ok ())) :
    let d := B.drive polls ⟨B.appendData state header path, body, sink⟩
    pk.phase d.rest.state = .tail [] ∧ ∃ path' bytes, C.setPath path = .ok path' ∧
      D.Holds d.rest.sink (s ++ C.records ⟨header, path', bytes⟩) ∧ Ended body bytes d.rest.body := by
  have happend : pk.phase (B.appendData state header path) = _ := pk.append hφ
  cases hpath : C.setPath path with
  | error e =>
    rw [hpath] at happend
    exact absurd hok (drive_failed pk happend polls)
  | ok path' =>
    rw [hpath] at happend
    have hstart : Covered pk D (Ended body) (C.head header path') s body
        ⟨B.appendData state header path, body, sink⟩ := by
      refine ⟨[], [], by rwa [List.append_nil], .start body, ?_, ?_⟩
      · simp only [happend]
        exact ⟨rfl, rfl⟩
      · intro rest h
        simp only [happend] at h
        cases h
    obtain ⟨-, hdone⟩ := drive_covered (fun _ _ h => h) polls hstart
    obtain ⟨hphase, bytes, hholds, -, hend⟩ := hdone hok
    exact ⟨hphase, path', bytes, rfl, hholds, hend⟩

/-- An entry that was packed is stored whole. -/
theorem pack_ok {state : B.State} {sink : W} {entry : WriteEntry R} {polls : Nat}
    (hφ : pk.phase state = .tail []) (hsink : D.Holds sink s)
    (hok : (pack polls state sink entry.inner).result = .done (.ok ())) :
    pk.phase (pack polls state sink entry.inner).state = .tail [] ∧
      ∃ m, Stored B C entry.inner m ∧ D.Holds (pack polls state sink entry.inner).sink (s ++ C.records m) := by
  rcases entry.checked with ⟨hk, hb⟩ | ⟨hk, h0, hb⟩
  · obtain ⟨b, hb⟩ := Option.isSome_iff_exists.mp hb
    rw [pack_file hk hb] at hok ⊢
    unfold appendFile at hok ⊢
    dsimp only at hok ⊢
    have happend := appendData_ok pk hφ hsink
      { baseHeader entry.inner.info with entryType := .regular, size := entry.inner.size }
      entry.inner.path.bytes (Exact.new b entry.inner.size.toNat) polls
    dsimp only at happend
    generalize B.drive (R := Exact R) (W := W) polls _ = d at hok happend ⊢
    cases hd : d.result with
    | cancelled =>
      rw [hd] at hok
      cases hok
    | done result =>
      cases hm : d.rest.body.mismatch with
      | true =>
        simp only [hd, hm] at hok
        cases hok
      | false =>
        cases result with
        | error e =>
          simp only [hd, hm] at hok
          cases hok
        | ok =>
          obtain ⟨hphase, path, bytes, hpath, hholds, hend⟩ := happend hd
          refine ⟨hphase, ⟨_, path, bytes⟩, ⟨?_, hpath, ?_⟩, hholds⟩
          · simp [PackEntry.header, hk]
          · rw [hb]
            exact ⟨_, hend, hm⟩
  · rw [pack_meta hk h0 hb] at hok ⊢
    cases hheader : entry.inner.header B with
    | error e =>
      rw [hheader] at hok
      cases hok
    | ok header =>
      rw [hheader] at hok
      dsimp only at hok ⊢
      have happend := appendData_ok pk hφ hsink header entry.inner.path.bytes Empty.mk polls
      dsimp only at happend
      generalize B.drive (R := Empty) (W := W) polls _ = d at hok happend ⊢
      cases hd : d.result with
      | cancelled =>
        rw [hd] at hok
        cases hok
      | done result =>
        cases result with
        | error e =>
          rw [hd] at hok
          cases hok
        | ok =>
          obtain ⟨hphase, path, bytes, hpath, hholds, hend⟩ := happend hd
          obtain ⟨rfl, -⟩ := Empty.feed.ended hend ⟨rfl, rfl⟩
          refine ⟨hphase, ⟨header, path, []⟩, ⟨hheader, hpath, ?_⟩, hholds⟩
          rw [hb]

/-- A member's call of `append_data` that is given enough polls succeeds. -/
theorem appendData_completes {F : Feed IoError R} (P : F.Fair) (hF : F.Faultless) (Q : D.Fair) (hD : D.Faultless)
    {state : B.State} {sink : W} (hφ : pk.phase state = .tail []) (hsink : D.Holds sink s) {path path' : List UInt8}
    (hpath : C.setPath path = .ok path') (header : Header) (body : R) {data : List UInt8}
    (hbody : F.Owes body data none) :
    ∃ N q, F.Owes q.body [] none ∧
      ∀ polls, B.drive (N + polls) ⟨B.appendData state header path, body, sink⟩ = ⟨.done (.ok ()), q, polls⟩ := by
  have happend : pk.phase (B.appendData state header path) = _ := pk.append hφ
  rw [hpath] at happend
  obtain ⟨N, q, hq⟩ := drive_completes pk P hF Q hD (p := ⟨B.appendData state header path, body, sink⟩)
    hbody hsink (fun e he => by cases happend.symm.trans he)
  obtain ⟨-, path', bytes, -, -, hend⟩ :=
    appendData_ok pk hφ hsink header path body (N + 0) (by rw [hq])
  rw [hq] at hend
  exact ⟨N, q, (F.ended hend hbody).2, hq⟩

/-- The body is the whole of what a feed owes, and as long as declared. -/
structure Supplied (F : Feed IoError R) (entry : PackEntry R) (data : List UInt8) : Prop where
  owes : ∀ b, entry.body = some b → F.Owes b data none
  length : data.length = entry.size.toNat

omit [AsyncWrite IoError W] in
/-- The body an entry is stored with is the one supplied. -/
theorem Stored.body_eq {F : Feed IoError R} {entry : WriteEntry R} {m : Member} {data : List UInt8}
    (h : Stored B C entry.inner m) (hdata : Supplied F entry.inner data) : m.body = data := by
  have hwhole := h.whole
  rcases entry.checked with ⟨hk, hb⟩ | ⟨hk, h0, hb⟩
  · obtain ⟨b, hb⟩ := Option.isSome_iff_exists.mp hb
    rw [hb] at hwhole
    obtain ⟨e, hend, -⟩ := hwhole
    exact ((Exact.feed F).ended hend ⟨rfl, hdata.owes b hb, hdata.length, rfl⟩).1.symm
  · rw [hb] at hwhole
    have hlen := hdata.length
    rw [h0] at hlen
    rw [hwhole, List.length_eq_zero_iff.mp hlen]

/-- Packing an entry with its whole body succeeds when it is given enough polls. -/
theorem pack_completes {F : Feed IoError R} (P : F.Fair) (hF : F.Faultless) (Q : D.Fair) (hD : D.Faultless)
    {state : B.State} {sink : W} (hφ : pk.phase state = .tail []) (hsink : D.Holds sink s) {entry : WriteEntry R}
    {data : List UInt8} (hdata : Supplied F entry.inner data) {header : Header}
    (hheader : entry.inner.header B = .ok header) {path : List UInt8}
    (hpath : C.setPath entry.inner.path.bytes = .ok path) :
    ∃ N, ∀ polls, (pack (N + polls) state sink entry.inner).result = .done (.ok ()) := by
  rcases entry.checked with ⟨hk, hb⟩ | ⟨hk, h0, hb⟩
  · obtain ⟨b, hb⟩ := Option.isSome_iff_exists.mp hb
    obtain ⟨N, q, howes, hq⟩ := appendData_completes pk (Exact.fair P) (Exact.faultless hF) Q hD hφ hsink
      hpath { baseHeader entry.inner.info with entryType := .regular, size := entry.inner.size }
      (Exact.new b entry.inner.size.toNat) ⟨rfl, hdata.owes b hb, hdata.length, rfl⟩
    obtain ⟨-, hin, -, hm⟩ := howes
    obtain ⟨N', bytes, s', r', hs, -, -, -, -, hread⟩ := read_completes P hF Nat.one_pos hin
    obtain ⟨rfl, -⟩ := List.append_eq_nil_iff.mp hs.symm
    refine ⟨N + N', fun polls => ?_⟩
    rw [pack_file hk hb, appendFile, Nat.add_assoc]
    simp only [hq, hm, hread]
    rfl
  · obtain ⟨N, q, -, hq⟩ := appendData_completes pk Empty.fair Empty.faultless Q hD hφ hsink
      hpath header Empty.mk ⟨rfl, rfl⟩
    refine ⟨N, fun polls => ?_⟩
    rw [pack_meta hk h0 hb, hheader]
    simp only [hq]
    rfl

/-- Packing that was not given up goes the same way with more polls. -/
theorem pack_more (k : Nat) {polls : Nat} {state : B.State} {sink : W} {entry : WriteEntry R}
    (h : (pack polls state sink entry.inner).result ≠ .cancelled) :
    pack (polls + k) state sink entry.inner = pack polls state sink entry.inner := by
  rcases entry.checked with ⟨hk, hb⟩ | ⟨hk, h0, hb⟩
  · obtain ⟨b, hb⟩ := Option.isSome_iff_exists.mp hb
    rw [pack_file hk hb] at h ⊢
    rw [pack_file hk hb]
    unfold appendFile at h ⊢
    dsimp only at h ⊢
    generalize (⟨B.appendData state _ _, Exact.new b _, sink⟩ : At B (Exact R) W) = p at h ⊢
    have hdrive : (B.drive polls p).result ≠ .cancelled := by
      intro hc
      rw [hc] at h
      exact h rfl
    rw [B.drive_more k hdrive]
    generalize B.drive polls p = d at h hdrive ⊢
    cases hd : d.result with
    | cancelled => exact absurd hd hdrive
    | done result =>
      rw [hd] at h
      cases hm : d.rest.body.mismatch with
      | true => rfl
      | false =>
        cases result with
        | error e => rfl
        | ok =>
          simp only [hm, Bool.false_eq_true, if_false] at h
          have hread : (read 1 d.left d.rest.body.inner).1 ≠ .cancelled := by
            intro hc
            rw [hc] at h
            exact h rfl
          simp only [read_more 1 k hread]
  · rw [pack_meta hk h0 hb] at h ⊢
    rw [pack_meta hk h0 hb]
    cases hheader : entry.inner.header B with
    | error e => rfl
    | ok header =>
      simp only [hheader] at h ⊢
      generalize (⟨B.appendData state _ _, Empty.mk, sink⟩ : At B Empty W) = p at h ⊢
      have hdrive : (B.drive polls p).result ≠ .cancelled := by
        intro hc
        rw [hc] at h
        exact h rfl
      rw [B.drive_more k hdrive]

end Entries

end Etar
