import Etar.Members

/-!
# What a call of the builder leaves

A call that packs an entry writes the front of how the entry is stored, whatever comes of it: with a
body that fails, ends early or goes on, a sink that fails, or given up between any two polls. Of the
body it has written no byte that the entry's reader has not handed out, and none past the declared size.
-/
namespace Etar

open AsyncIo

section Calls

variable {B : Builder} {C : Coding} {R W : Type} [AsyncRead IoError R] [AsyncWrite IoError W]

/-- Bodies that hand out so many bytes more and then end, unless they fail. -/
structure Quota (Ω : R → Nat → Prop) : Prop where
  pending : ∀ {r k b}, Ω r k → 0 < b.remaining → (pollRead r b).outcome = .pending → Ω (pollRead r b).reader k
  chunk : ∀ {r k b}, Ω r k → 0 < b.remaining → (pollRead r b).outcome = .ready (.ok ()) →
    ∃ k', (b.added (pollRead r b).buf).length + k' = k ∧ Ω (pollRead r b).reader k' ∧
      (b.added (pollRead r b).buf = [] → k' = 0)

/-- What is left of a body up to its declared length. -/
def Exact.Left (e : Exact R) (k : Nat) : Prop := e.mismatch = false ∧ e.remaining = k

theorem Exact.quota : Quota (Exact.Left : Exact R → Nat → Prop) := by
  constructor
  · rintro e k b ⟨hm, rfl⟩ hb ho
    have hp := Exact.polls e b
    generalize pollRead e b = p at hp ho
    cases hp with
    | spent h0 => cases ho
    | fits h0 hok hpos hle => cases ho
    | flagged b' hok hbad => cases ho
    | other h0 hnot => exact ⟨hm, rfl⟩
  · rintro e k b ⟨hm, rfl⟩ hb ho
    have hp := Exact.polls e b
    generalize pollRead e b = p at hp ho
    cases hp with
    | spent h0 =>
      simp only [ReadBuf.added_self, List.length_nil]
      exact ⟨0, h0.symm, ⟨hm, h0⟩, fun _ => rfl⟩
    | fits h0 hok hpos hle =>
      refine ⟨_, Nat.add_sub_of_le hle, ⟨hm, rfl⟩, fun hnil => ?_⟩
      simp only at hnil
      rw [hnil] at hpos
      cases hpos
    | flagged b' hok hbad => cases ho
    | other h0 hnot => exact absurd ho hnot

def Empty.Left (_ : Empty) (k : Nat) : Prop := k = 0

theorem Empty.quota : Quota Empty.Left where
  pending h _ _ := h
  chunk {r k b} h _ _ := ⟨0, by simp [pollRead, show k = 0 from h], rfl, fun _ => rfl⟩

/-- The front of a record of `hd`, a body of `n` bytes and its padding, that has no more of the body
than `start` has handed out. -/
def Front (Ω : R → Nat → Prop) (start : R) (hd : List UInt8) (n : Nat) (out : List UInt8) : Prop :=
  ∃ body r k, Handed start body r ∧ Ω r k ∧ body.length + k = n ∧
    (out <+: hd ++ body ∨ k = 0 ∧ out <+: hd ++ body ++ padding n)

theorem front_of_covers {Ω : R → Nat → Prop} {start r : R} {hd out body : List UInt8} {n k : Nat} {φ : Packing}
    (hbody : Handed start body r) (hleft : Ω r k) (hlen : body.length + k = n) (hcov : φ.Covers hd out body)
    (hlive : ∀ e, φ ≠ .failed e) (htail : ∀ rest, φ = .tail rest → k = 0) : Front Ω start hd n out := by
  refine ⟨body, r, k, hbody, hleft, hlen, ?_⟩
  cases φ with
  | head rest =>
    obtain ⟨rfl, rfl⟩ := hcov
    rw [List.append_nil]
    exact Or.inl (List.prefix_append _ _)
  | copy held count =>
    obtain ⟨hout, -⟩ := hcov
    exact Or.inl ⟨held, hout⟩
  | tail rest =>
    obtain rfl := htail rest rfl
    obtain rfl : body.length = n := hlen
    exact Or.inr ⟨rfl, rest, hcov⟩
  | failed e => exact absurd rfl (hlive e)

variable (pk : B.Packs C) (D : Drain IoError W) (Ω : R → Nat → Prop) (start : R) (hd s : List UInt8) (n : Nat)

/-- A call in progress: its body has so much left as is to be read yet. -/
structure Underway (out : List UInt8) (p : At B R W) : Prop where
  live : ∀ e, pk.phase p.state ≠ .failed e
  covers : ∃ body k, Handed start body p.body ∧ Ω p.body k ∧ body.length + k = n ∧
    (pk.phase p.state).Covers hd out body ∧ ∀ rest, pk.phase p.state = .tail rest → k = 0

/-- What a call has written since the sink held `s` is the front of a record, also when it has failed. -/
def Fronted (p : At B R W) : Prop :=
  ∃ out, D.Holds p.sink (s ++ out) ∧
    ((∃ e, pk.phase p.state = .failed e) ∧ Front Ω start hd n out ∨ Underway pk Ω start hd n out p)

variable {pk D Ω start hd s n}

omit [AsyncWrite IoError W] in
theorem Underway.front {out : List UInt8} {p : At B R W} (h : Underway pk Ω start hd n out p) :
    Front Ω start hd n out := by
  obtain ⟨hlive, body, k, hbody, hleft, hlen, hcov, htail⟩ := h
  exact front_of_covers hbody hleft hlen hcov hlive htail

theorem Fronted.front {p : At B R W} (h : Fronted pk D Ω start hd s n p) :
    ∃ out, D.Holds p.sink (s ++ out) ∧ Front Ω start hd n out := by
  obtain ⟨out, hsink, hfront | hunder⟩ := h
  · exact ⟨out, hsink, hfront.2⟩
  · exact ⟨out, hsink, hunder.front⟩

variable (hΩ : Quota Ω)
include hΩ

theorem fronted_read {p : At B R W} {m : Nat} (hw : B.want p.state = .read m) (h : Fronted pk D Ω start hd s n p) :
    Fronted pk D Ω start hd s n (B.turn p) := by
  obtain ⟨out, hsink, hfailed | hunder⟩ := h
  · obtain ⟨⟨e, he⟩, -⟩ := hfailed
    have hwants := pk.wants p.state
    rw [he, hw] at hwants
    cases hwants
  have hfront := hunder.front
  obtain ⟨hlive, body, k, hbody, hleft, hlen, hcov, htail⟩ := hunder
  have hwants := pk.wants p.state
  rw [hw] at hwants
  have hroom : 0 < (ReadBuf.new m).remaining := by
    generalize pk.phase p.state = φ at hwants
    cases hwants with
    | read hn => exact hn
  simp only [Builder.turn, hw]
  cases ho : (pollRead p.body (.new m)).outcome with
  | pending =>
    have hidle := Handed.idle hbody (.new m) hroom (by simp [ho])
    exact ⟨out, hsink, Or.inr ⟨hlive, body, k, hidle, hΩ.pending hleft hroom ho, hlen, hcov, htail⟩⟩
  | ready res =>
    cases res with
    | error e => exact ⟨out, hsink, Or.inl ⟨⟨e, pk.fed_fault hw e⟩, hfront⟩⟩
    | ok =>
      obtain ⟨k', hcount, hleft', hend⟩ := hΩ.chunk hleft hroom ho
      have hchunk := Handed.chunk hbody (.new m) hroom ho
      rw [ReadBuf.added_new] at hcount hend hchunk
      refine ⟨out, hsink, Or.inr ⟨?_, body ++ (pollRead p.body (.new m)).buf.filled, k', hchunk, hleft', ?_, ?_, ?_⟩⟩
      · intro e he
        simp only [pk.fed_bytes hw] at he
        generalize pk.phase p.state = φ at hwants he
        cases hwants with
        | read hn =>
          simp only [Packing.get] at he
          split at he <;> cases he
      · rw [List.length_append]
        omega
      · simp only [pk.fed_bytes hw]
        exact hcov.get hwants _
      · intro rest hr
        simp only [pk.fed_bytes hw] at hr
        generalize pk.phase p.state = φ at hwants hr
        cases hwants with
        | read hn =>
          simp only [Packing.get] at hr
          split at hr
          · rename_i hnil
            exact hend hnil
          · cases hr

omit hΩ in
theorem fronted_write {p : At B R W} {bytes : List UInt8} (hw : B.want p.state = .write bytes)
    (h : Fronted pk D Ω start hd s n p) : Fronted pk D Ω start hd s n (B.turn p) := by
  obtain ⟨out, hsink, hfailed | hunder⟩ := h
  · obtain ⟨⟨e, he⟩, -⟩ := hfailed
    have hwants := pk.wants p.state
    rw [he, hw] at hwants
    cases hwants
  have hfront := hunder.front
  obtain ⟨hlive, body, k, hbody, hleft, hlen, hcov, htail⟩ := hunder
  have hwants := pk.wants p.state
  rw [hw] at hwants
  have hsink' := D.took (.write p.sink bytes) hsink
  rw [Call.accepted_write, List.append_assoc] at hsink'
  simp only [Builder.turn, hw]
  cases ho : (pollWrite p.sink bytes).1 with
  | pending =>
    rw [ho, taken_pending, List.append_nil] at hsink'
    exact ⟨out, hsink', Or.inr ⟨hlive, body, k, hbody, hleft, hlen, hcov, htail⟩⟩
  | ready res =>
    rw [ho] at hsink'
    cases res with
    | error e =>
      rw [taken_error, List.append_nil] at hsink'
      exact ⟨out, hsink', Or.inl ⟨⟨e, pk.wrote_fault hw e⟩, hfront⟩⟩
    | ok m =>
      have hle := AsyncWrite.accepts p.sink bytes m ho
      rcases Nat.eq_zero_or_pos m with rfl | hpos
      · rw [taken_ok, List.take_zero, List.append_nil] at hsink'
        obtain ⟨e, he⟩ := pk.wrote_none hw
        exact ⟨out, hsink', Or.inl ⟨⟨e, he⟩, hfront⟩⟩
      · have hcov' := hcov.put hwants hle
        rw [taken_ok] at hsink'
        refine ⟨out ++ bytes.take m, hsink', Or.inr ⟨?_, body, k, hbody, hleft, hlen, ?_, ?_⟩⟩
        · intro e he
          simp only [pk.wrote_bytes hw m hpos hle] at he
          generalize pk.phase p.state = φ at hwants he hlive
          cases hwants with
          | head hne hp =>
            simp only [Packing.put] at he
            split at he <;> cases he
          | copy hne hp => cases he
          | tail hne hp => cases he
        · simp only [pk.wrote_bytes hw m hpos hle]
          exact hcov'
        · intro rest hr
          simp only [pk.wrote_bytes hw m hpos hle] at hr
          generalize pk.phase p.state = φ at hwants hr htail
          cases hwants with
          | head hne hp =>
            simp only [Packing.put] at hr
            split at hr <;> cases hr
          | copy hne hp => cases hr
          | tail hne hp => exact htail _ rfl

omit hΩ in
theorem fronted_flush {p : At B R W} (hw : B.want p.state = .flush) (h : Fronted pk D Ω start hd s n p) :
    Fronted pk D Ω start hd s n (B.turn p) := by
  obtain ⟨out, hsink, hstands⟩ := h
  have hsink' := D.took (.flush p.sink) hsink
  rw [Call.accepted_flush, List.append_nil] at hsink'
  have hfront : Front Ω start hd n out := by
    rcases hstands with hfailed | hunder
    · exact hfailed.2
    · exact hunder.front
  simp only [Builder.turn, hw]
  cases ho : (pollFlush p.sink).1 with
  | pending => exact ⟨out, hsink', hstands.imp id fun hunder => ⟨hunder.live, hunder.covers⟩⟩
  | ready res =>
    cases res with
    | error e => exact ⟨out, hsink', Or.inl ⟨⟨e, pk.flushed_fault hw e⟩, hfront⟩⟩
    | ok =>
      rcases hstands with ⟨⟨e, he⟩, -⟩ | ⟨hlive, body, k, hbody, hleft, hlen, hcov, htail⟩
      · exact ⟨out, hsink', Or.inl ⟨⟨e, by simp only [pk.flushed_ok hw, he]⟩, hfront⟩⟩
      · have hsame : pk.phase (B.flushed p.state (.ok ())) = pk.phase p.state := pk.flushed_ok hw
        exact ⟨out, hsink', Or.inr ⟨by simpa only [hsame] using hlive, body, k, hbody, hleft, hlen,
          by simpa only [hsame] using hcov, by simpa only [hsame] using htail⟩⟩

theorem fronted_turn (p : At B R W) (h : Fronted pk D Ω start hd s n p) : Fronted pk D Ω start hd s n (B.turn p) := by
  cases hw : B.want p.state with
  | read m => exact fronted_read hΩ hw h
  | write bytes => exact fronted_write hw h
  | flush => exact fronted_flush hw h
  | done res =>
    rw [Builder.turn, hw]
    exact h

/-- Whatever comes of a call, it has written the front of a record. -/
theorem drive_front (polls : Nat) {p : At B R W} (h : Fronted pk D Ω start hd s n p) :
    ∃ out, D.Holds (B.drive polls p).rest.sink (s ++ out) ∧ Front Ω start hd n out :=
  (B.drive_invariant (P := Fronted pk D Ω start hd s n) (fronted_turn hΩ) polls h).1.front

/-- A call of `append_data`, whatever comes of it, has written the front of its record. -/
theorem appendData_front {state : B.State} (hφ : pk.phase state = .tail []) {sink : W} (hsink : D.Holds sink s) (header : Header)
    {path path' : List UInt8} (hpath : C.setPath path = .ok path') {body : R} (hbody : Ω body n) (polls : Nat) :
    ∃ out, D.Holds (B.drive polls ⟨B.appendData state header path, body, sink⟩).rest.sink (s ++ out) ∧
      Front Ω body (C.head header path') n out := by
  have hphase := @Builder.Packs.append _ _ pk state header path hφ
  rw [hpath] at hphase
  have hlive : ∀ e, pk.phase (B.appendData state header path) ≠ .failed e := by
    intro e he
    rw [hphase] at he
    cases he
  apply drive_front hΩ polls (p := ⟨B.appendData state header path, body, sink⟩)
  refine ⟨[], by rwa [List.append_nil], Or.inr ⟨hlive, [], n, .start body, hbody, Nat.zero_add n, ?_, fun rest hr => ?_⟩⟩
  · simp only [hphase]
    exact ⟨rfl, rfl⟩
  · simp only [hphase] at hr
    cases hr

omit hΩ in
variable (pk) in
/-- A call of `append_data` with a path that cannot be written writes nothing. -/
theorem appendData_refused {state : B.State} (hφ : pk.phase state = .tail []) {sink : W} (hsink : D.Holds sink s)
    (header : Header) {path : List UInt8} {e : IoError} (hpath : C.setPath path = .error e) (body : R) (polls : Nat) :
    D.Holds (B.drive polls ⟨B.appendData state header path, body, sink⟩).rest.sink s := by
  have hphase := @Builder.Packs.append _ _ pk state header path hφ
  rw [hpath] at hphase
  have hturn : ∀ p : At B R W, (∃ e, pk.phase p.state = .failed e) ∧ D.Holds p.sink s →
      (∃ e, pk.phase (B.turn p).state = .failed e) ∧ D.Holds (B.turn p).sink s := by
    rintro p ⟨⟨e, he⟩, hholds⟩
    have hwants := pk.wants p.state
    rw [he] at hwants
    cases hw : B.want p.state with
    | read n =>
      rw [hw] at hwants
      cases hwants
    | write bytes =>
      rw [hw] at hwants
      cases hwants
    | flush =>
      have hholds' := D.took (.flush p.sink) hholds
      rw [Call.accepted_flush, List.append_nil] at hholds'
      simp only [Builder.turn, hw]
      cases (pollFlush p.sink).1 with
      | pending => exact ⟨⟨e, he⟩, hholds'⟩
      | ready res =>
        cases res with
        | error e' => exact ⟨⟨e', pk.flushed_fault hw e'⟩, hholds'⟩
        | ok => exact ⟨⟨e, (pk.flushed_ok hw).trans he⟩, hholds'⟩
    | done res =>
      rw [Builder.turn, hw]
      exact ⟨⟨e, he⟩, hholds⟩
  exact (B.drive_invariant (P := fun p => (∃ e, pk.phase p.state = .failed e) ∧ D.Holds p.sink s) hturn polls
    (p := ⟨B.appendData state header path, body, sink⟩) ⟨⟨e, hphase⟩, hsink⟩).1.2

end Calls

section Entries

variable {B : Builder} {C : Coding} {R W : Type} [AsyncRead IoError R] [AsyncWrite IoError W]

omit [AsyncRead IoError R] in
theorem header_packed {entry : PackEntry R} {header : Header} (h : entry.header B = .ok header) :
    header.entryType.Packed ∧ header.size = if entry.info.kind = .file then entry.size else 0 := by
  have hset : ∀ {target} {f : LinkField → Header}, (B.setLinkName target).map f = .ok header →
      ∃ field, f field = header := by
    intro target f h
    cases hfield : B.setLinkName target with
    | error e =>
      rw [hfield] at h
      cases h
    | ok field =>
      rw [hfield] at h
      exact ⟨field, Except.ok.inj h⟩
  unfold PackEntry.header at h
  cases hkind : entry.info.kind with
  | file =>
    rw [hkind] at h
    cases h
    exact ⟨Or.inl rfl, rfl⟩
  | dir =>
    rw [hkind] at h
    cases h
    exact ⟨Or.inr (Or.inl rfl), rfl⟩
  | symlink target =>
    rw [hkind] at h
    obtain ⟨field, rfl⟩ := hset h
    exact ⟨Or.inr (Or.inr (Or.inl rfl)), rfl⟩
  | hardlink target =>
    rw [hkind] at h
    obtain ⟨field, rfl⟩ := hset h
    exact ⟨Or.inr (Or.inr (Or.inr rfl)), rfl⟩

/-- What `Exact` has handed out of a body, the body has, unless it was flagged. -/
theorem Exact.handed_inner {r : R} {n : Nat} {body : List UInt8} {e : Exact R} (h : Handed (Exact.new r n) body e)
    (hm : e.mismatch = false) : Handed r body e.inner := by
  induction h with
  | start => exact .start r
  | @idle e body h b hb ho ih =>
    have hp := Exact.polls e b
    generalize pollRead e b = p at hp ho hm
    cases hp with
    | spent h0 => exact absurd rfl ho
    | fits h0 hin hpos hle => exact absurd rfl ho
    | flagged b' hin hbad => cases hm
    | other h0 hin => exact .idle (ih hm) b hb hin
  | @chunk e body h b hb ho ih =>
    have hp := Exact.polls e b
    generalize pollRead e b = p at hp ho hm
    cases hp with
    | spent h0 => simpa using ih hm
    | fits h0 hin hpos hle => exact .chunk (ih hm) b hb hin
    | flagged b' hin hbad => cases hm
    | other h0 hin => exact absurd ho hin

/-- `out` is the front of how `entry` is stored, with no more of its body than its reader has handed
out, up to the declared length. -/
structure Torn (B : Builder) (C : Coding) (entry : PackEntry R) (m : Member) (out : List UInt8) : Prop where
  header : entry.header B = .ok m.header
  path : C.setPath entry.path.bytes = .ok m.path
  body : match entry.body with
    | some b => ∃ r, Handed b m.body r
    | none => m.body = []
  within : m.body.length ≤ m.header.size.toNat
  front : out <+: C.head m.header m.path ++ m.body ∨ m.body.length = m.header.size.toNat ∧ out <+: C.records m

variable (pk : B.Packs C) {D : Drain IoError W} {s : List UInt8}

include pk in
/-- Packing an entry, whatever comes of it, has written the front of how it is stored. -/
theorem pack_front {state : B.State} {sink : W} (hφ : pk.phase state = .tail []) (hsink : D.Holds sink s)
    (entry : WriteEntry R) (polls : Nat) :
    ∃ out, D.Holds (pack polls state sink entry.inner).sink (s ++ out) ∧
      (out = [] ∨ ∃ m, Torn B C entry.inner m out) := by
  have htorn : ∀ {header path' body out}, entry.inner.header B = .ok header →
      C.setPath entry.inner.path.bytes = .ok path' →
      (match entry.inner.body with | some b => ∃ r, Handed b body r | none => body = []) →
      ∀ {k}, body.length + k = header.size.toNat → (out <+: C.head header path' ++ body ∨
        k = 0 ∧ out <+: C.head header path' ++ body ++ padding header.size.toNat) →
      Torn B C entry.inner ⟨header, path', body⟩ out := by
    intro header path' body out hheader hpath hbody k hlen hfront
    refine ⟨hheader, hpath, hbody, by rw [← hlen]; exact Nat.le_add_right _ _, hfront.imp_right ?_⟩
    rintro ⟨rfl, hwhole⟩
    rw [← hlen] at hwhole
    exact ⟨hlen, hwhole⟩
  rcases entry.checked with ⟨hk, hb⟩ | ⟨hk, h0, hb⟩
  · obtain ⟨b, hb⟩ := Option.isSome_iff_exists.mp hb
    rw [pack_file hk hb]
    have hheader : entry.inner.header B =
        .ok { baseHeader entry.inner.info with entryType := .regular, size := entry.inner.size } := by
      simp [PackEntry.header, hk]
    cases hpath : C.setPath entry.inner.path.bytes with
    | error e =>
      exact ⟨[], by rw [List.append_nil]; exact appendData_refused pk hφ hsink _ hpath _ polls, Or.inl rfl⟩
    | ok path' =>
      have hbody : Exact.Left (Exact.new b entry.inner.size.toNat) entry.inner.size.toNat := ⟨rfl, rfl⟩
      obtain ⟨out, hholds, body, e, k, hhanded, ⟨hm, -⟩, hlen, hfront⟩ := appendData_front Exact.quota hφ hsink
        { baseHeader entry.inner.info with entryType := .regular, size := entry.inner.size } hpath hbody polls
      refine ⟨out, hholds, Or.inr ⟨_, htorn hheader hpath ?_ hlen hfront⟩⟩
      rw [hb]
      exact ⟨_, Exact.handed_inner hhanded hm⟩
  · rw [pack_meta hk h0 hb]
    cases hheader : entry.inner.header B with
    | error e => exact ⟨[], by rwa [List.append_nil], Or.inl rfl⟩
    | ok header =>
      cases hpath : C.setPath entry.inner.path.bytes with
      | error e =>
        exact ⟨[], by rw [List.append_nil]; exact appendData_refused pk hφ hsink _ hpath _ polls, Or.inl rfl⟩
      | ok path' =>
        have hsize : header.size.toNat = 0 := by rw [(header_packed hheader).2, if_neg hk]; rfl
        have hbody : Empty.Left Empty.mk header.size.toNat := hsize
        obtain ⟨out, hholds, body, r, k, -, -, hlen, hfront⟩ :=
          appendData_front Empty.quota hφ hsink header hpath hbody polls
        refine ⟨out, hholds, Or.inr ⟨_, htorn hheader hpath ?_ hlen hfront⟩⟩
        rw [hb]
        exact List.length_eq_zero_iff.mp (by omega)

end Entries

end Etar
