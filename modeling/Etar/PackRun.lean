import Etar.Builder

/-!
# Runs of the tar builder

A call of the builder writes what its phases say and reads its body to the end, whatever the
body and the sink answer. With a body and a sink that are only finitely often late and do not
fail, every call that is given enough polls succeeds.
-/
namespace Etar

open AsyncIo

variable {B : Builder} {C : Coding} {R W : Type} [AsyncRead IoError R] [AsyncWrite IoError W]

section Covering

variable (pk : B.Packs C) (D : Drain IoError W) (E : List UInt8 → R → Prop)

/-- Since a call began with the body `start` and a sink that held `s`, so much was read and
written as the phase says; once the body is done with, `E` holds of it. -/
def Covered (hd s : List UInt8) (start : R) (p : At B R W) : Prop :=
  ∃ out body, D.Holds p.sink (s ++ out) ∧ Handed start body p.body ∧ (pk.phase p.state).Covers hd out body ∧
    ∀ rest, pk.phase p.state = .tail rest → E body p.body

variable {pk D E} {hd s : List UInt8} {start : R}

/-- A call that failed promises nothing more. -/
theorem covered_failed {p : At B R W} {out body : List UInt8} (hsink : D.Holds p.sink (s ++ out))
    (hbody : Handed start body p.body) {e : IoError} (hφ : pk.phase p.state = .failed e) :
    Covered pk D E hd s start p := by
  refine ⟨out, body, hsink, hbody, by rw [hφ]; trivial, fun rest h => ?_⟩
  rw [hφ] at h
  cases h

theorem covered_read {p : At B R W} {n : Nat} (hw : B.want p.state = .read n)
    (hE : ∀ body r, Ended start body r → E body r) (h : Covered pk D E hd s start p) :
    Covered pk D E hd s start (B.turn p) := by
  obtain ⟨out, body, hsink, hbody, hcov, hend⟩ := h
  have hwants := pk.wants p.state
  rw [hw] at hwants
  have hroom : 0 < (ReadBuf.new n).remaining := by
    generalize pk.phase p.state = φ at hwants
    cases hwants with
    | read hn => exact hn
  simp only [Builder.turn, hw]
  cases ho : (pollRead p.body (.new n)).outcome with
  | pending => exact ⟨out, body, hsink, hbody.idle _ hroom (by simp [ho]), hcov, fun rest hr => by
      rw [hr] at hwants
      cases hwants⟩
  | ready res =>
    cases res with
    | error e => exact covered_failed hsink (hbody.idle _ hroom (by simp [ho])) (pk.fed_fault hw e)
    | ok =>
      have hchunk := hbody.chunk _ hroom ho
      rw [ReadBuf.added_new] at hchunk
      refine ⟨out, _, hsink, hchunk, ?_, ?_⟩
      · simp only [pk.fed_bytes hw]
        exact hcov.get hwants _
      · intro rest hr
        simp only [pk.fed_bytes hw] at hr
        generalize pk.phase p.state = φ at hwants hr
        cases hwants with
        | read hn =>
          simp only [Packing.get] at hr
          split at hr
          · rename_i hnil
            rw [hnil, List.append_nil]
            exact hE _ _ ⟨p.body, _, hbody, hroom, ho, by rw [ReadBuf.added_new]; exact hnil, rfl⟩
          · cases hr

theorem covered_write {p : At B R W} {bytes : List UInt8} (hw : B.want p.state = .write bytes)
    (h : Covered pk D E hd s start p) : Covered pk D E hd s start (B.turn p) := by
  obtain ⟨out, body, hsink, hbody, hcov, hend⟩ := h
  have hwants := pk.wants p.state
  rw [hw] at hwants
  have hsink' := D.took (.write p.sink bytes) hsink
  rw [Call.accepted_write, List.append_assoc] at hsink'
  simp only [Builder.turn, hw]
  cases ho : (pollWrite p.sink bytes).1 with
  | pending =>
    rw [ho, taken_pending, List.append_nil] at hsink'
    exact ⟨out, body, hsink', hbody, hcov, hend⟩
  | ready res =>
    rw [ho] at hsink'
    cases res with
    | error e => exact covered_failed hsink' hbody (pk.wrote_fault hw e)
    | ok n =>
      have hle := AsyncWrite.accepts p.sink bytes n ho
      rcases Nat.eq_zero_or_pos n with rfl | hpos
      · obtain ⟨e, he⟩ := pk.wrote_none hw
        exact covered_failed hsink' hbody he
      · refine ⟨_, body, hsink', hbody, ?_, ?_⟩
        · simp only [pk.wrote_bytes hw n hpos hle]
          exact hcov.put hwants hle
        · intro rest hr
          simp only [pk.wrote_bytes hw n hpos hle] at hr
          generalize pk.phase p.state = φ at hwants hr hend
          cases hwants with
          | head hne hp =>
            simp only [Packing.put] at hr
            split at hr <;> cases hr
          | copy hne hp => cases hr
          | tail hne hp => exact hend _ rfl

theorem covered_flush {p : At B R W} (hw : B.want p.state = .flush) (h : Covered pk D E hd s start p) :
    Covered pk D E hd s start (B.turn p) := by
  obtain ⟨out, body, hsink, hbody, hcov, hend⟩ := h
  have hsink' := D.took (.flush p.sink) hsink
  rw [Call.accepted_flush, List.append_nil] at hsink'
  simp only [Builder.turn, hw]
  cases ho : (pollFlush p.sink).1 with
  | pending => exact ⟨out, body, hsink', hbody, hcov, hend⟩
  | ready res =>
    cases res with
    | error e => exact covered_failed hsink' hbody (pk.flushed_fault hw e)
    | ok =>
      refine ⟨out, body, hsink', hbody, ?_, ?_⟩
      · simp only [pk.flushed_ok hw]
        exact hcov
      · simp only [pk.flushed_ok hw]
        exact hend

theorem covered_turn (hE : ∀ body r, Ended start body r → E body r) (p : At B R W)
    (h : Covered pk D E hd s start p) : Covered pk D E hd s start (B.turn p) := by
  cases hw : B.want p.state with
  | read n => exact covered_read hw hE h
  | write bytes => exact covered_write hw h
  | flush => exact covered_flush hw h
  | done res =>
    rw [Builder.turn, hw]
    exact h

/-- A call that succeeds has written all it had to, and is done with its body. -/
theorem drive_covered (hE : ∀ body r, Ended start body r → E body r) (polls : Nat) {p : At B R W}
    (h : Covered pk D E hd s start p) :
    Covered pk D E hd s start (B.drive polls p).rest ∧
      ((B.drive polls p).result = .done (.ok ()) →
        pk.phase (B.drive polls p).rest.state = .tail [] ∧
        ∃ body, D.Holds (B.drive polls p).rest.sink (s ++ (hd ++ body ++ padding body.length)) ∧
          Handed start body (B.drive polls p).rest.body ∧ E body (B.drive polls p).rest.body) := by
  obtain ⟨hcov, hdone⟩ := B.drive_invariant (P := Covered pk D E hd s start) (covered_turn hE) polls h
  refine ⟨hcov, fun hok => ?_⟩
  obtain ⟨out, body, hsink, hbody, hout, hend⟩ := hcov
  have hwants := pk.wants (B.drive polls p).rest.state
  rw [hdone _ hok] at hwants
  have hφ : pk.phase (B.drive polls p).rest.state = .tail [] := by
    generalize pk.phase (B.drive polls p).rest.state = φ at hwants
    cases hwants with
    | finished => rfl
  rw [hφ] at hout
  have hout : out ++ [] = hd ++ body ++ padding body.length := hout
  rw [List.append_nil] at hout
  rw [hout] at hsink
  exact ⟨hφ, body, hsink, hbody, hend [] hφ⟩

end Covering

section Progress

/-- Polls of a body in `Ω r m` cost at most `m` in all, where a byte costs two. -/
structure Costs (Ω : R → Nat → Prop) : Prop where
  pending : ∀ {r m b}, Ω r m → 0 < b.remaining → (pollRead r b).outcome = .pending →
    ∃ m', m' < m ∧ Ω (pollRead r b).reader m'
  chunk : ∀ {r m b}, Ω r m → 0 < b.remaining → (pollRead r b).outcome = .ready (.ok ()) →
    ∃ m', 2 * (b.added (pollRead r b).buf).length + m' ≤ m ∧ Ω (pollRead r b).reader m'
  fault : ∀ {r m b e}, Ω r m → 0 < b.remaining → (pollRead r b).outcome = .ready (.error e) →
    ∃ m', m' ≤ m ∧ Ω (pollRead r b).reader m'

/-- What a fair feed that does not fail costs. -/
theorem costs_of_fair {F : Feed IoError R} (P : F.Fair) (hF : F.Faultless) :
    Costs fun (r : R) m => ∃ s, F.Owes r s none ∧ m = P.delay r + 2 * s.length := by
  constructor
  · rintro r m b ⟨s, h, rfl⟩ hb ho
    have := P.pending h hb ho
    exact ⟨_, by omega, s, (F.pending h hb ho).2, rfl⟩
  · rintro r m b ⟨s, h, rfl⟩ hb ho
    obtain ⟨s', rfl, h', -⟩ := F.chunk h hb ho
    have := P.chunk h hb ho
    refine ⟨_, ?_, s', h', rfl⟩
    rw [List.length_append]
    omega
  · rintro r m b e ⟨s, h, rfl⟩ hb ho
    cases (hF.fault h hb ho).1

variable (pk : B.Packs C) {Ω : R → Nat → Prop} {D : Drain IoError W} (Q : D.Fair)

/-- What bounds the polls a call still makes, flushes apart. -/
def Builder.Packs.work (m : Nat) (p : At B R W) : Nat := m + Q.delay p.sink + (pk.phase p.state).toDo 0

/-- A poll of a call that is not over brings it nearer to its end. -/
theorem turn_progress (hΩ : Costs Ω) (hD : D.Faultless) {p : At B R W} {m : Nat} {s : List UInt8} (hbody : Ω p.body m)
    (hsink : D.Holds p.sink s) (hw : ∀ res, B.want p.state ≠ .done res) :
    ∃ m' s', Ω (B.turn p).body m' ∧ D.Holds (B.turn p).sink s' ∧
      (pk.work Q m' (B.turn p) < pk.work Q m p ∨
        pk.work Q m' (B.turn p) ≤ pk.work Q m p ∧ pk.flushes (B.turn p).state < pk.flushes p.state) := by
  have hwants := pk.wants p.state
  cases hwant : B.want p.state with
  | done res => exact absurd hwant (hw res)
  | read n =>
    rw [hwant] at hwants
    have hroom : 0 < (ReadBuf.new n).remaining := by
      generalize pk.phase p.state = φ at hwants
      cases hwants with
      | read hn => exact hn
    have hget (bytes : List UInt8) :
        ((pk.phase p.state).get bytes).toDo 0 < 2 * bytes.length + (pk.phase p.state).toDo 0 := by
      have hless : ((pk.phase p.state).get bytes).toDo 0 < (pk.phase p.state).toDo (bytes.length + 0) :=
        Packing.toDo_get hwants
      refine Nat.lt_of_lt_of_eq hless ?_
      generalize pk.phase p.state = φ at hwants
      cases hwants with
      | read hn =>
        simp only [Packing.toDo]
        omega
    simp only [Builder.turn, hwant]
    cases ho : (pollRead p.body (.new n)).outcome with
    | pending =>
      obtain ⟨m', hlt, hbody'⟩ := hΩ.pending hbody hroom ho
      refine ⟨m', s, hbody', hsink, Or.inl ?_⟩
      simp only [Builder.Packs.work]
      omega
    | ready res =>
      cases res with
      | error e =>
        obtain ⟨m', hle, hbody'⟩ := hΩ.fault hbody hroom ho
        refine ⟨m', s, hbody', hsink, Or.inl ?_⟩
        simp only [Builder.Packs.work, pk.fed_fault hwant]
        generalize pk.phase p.state = φ at hwants
        cases hwants with
        | read hn =>
          simp only [Packing.toDo]
          omega
      | ok =>
        obtain ⟨m', hle, hbody'⟩ := hΩ.chunk hbody hroom ho
        rw [ReadBuf.added_new] at hle
        have := hget (pollRead p.body (.new n)).buf.filled
        refine ⟨m', s, hbody', hsink, Or.inl ?_⟩
        simp only [Builder.Packs.work, pk.fed_bytes hwant]
        omega
  | write bytes =>
    rw [hwant] at hwants
    have hdid := Did.write p.sink bytes
    have hsound := hD.sound hdid hsink
    have hkept := Q.kept hdid hsink
    simp only [Builder.turn, hwant]
    cases ho : (pollWrite p.sink bytes).1 with
    | pending =>
      have := Q.late hdid hsink ho
      refine ⟨m, _, hbody, D.took hdid hsink, Or.inl ?_⟩
      simp only [Builder.Packs.work]
      omega
    | ready res =>
      cases res with
      | error e => exact absurd (Or.inl ⟨e, ho⟩) hsound
      | ok n =>
        have hle := AsyncWrite.accepts p.sink bytes n ho
        have hne : bytes ≠ [] := by
          generalize pk.phase p.state = φ at hwants
          cases hwants with
          | head hne hp => exact hne
          | copy hne hp => exact hne
          | tail hne hp => exact hne
        have hpos : 0 < n := by
          rcases Nat.eq_zero_or_pos n with rfl | hpos
          · exact absurd (Or.inr ⟨hne, ho⟩) hsound
          · exact hpos
        have hdo : ((pk.phase p.state).put n).toDo 0 < _ := Packing.toDo_put hwants hpos
        refine ⟨m, _, hbody, D.took hdid hsink, Or.inl ?_⟩
        simp only [Builder.Packs.work, pk.wrote_bytes hwant n hpos hle]
        omega
  | flush =>
    have hdid := Did.flush p.sink
    have hsound := hD.sound hdid hsink
    have hkept := Q.kept hdid hsink
    simp only [Builder.turn, hwant]
    cases ho : (pollFlush p.sink).1 with
    | pending =>
      have := Q.late hdid hsink ho
      refine ⟨m, _, hbody, D.took hdid hsink, Or.inl ?_⟩
      simp only [Builder.Packs.work]
      omega
    | ready res =>
      cases res with
      | error e => exact absurd ⟨e, ho⟩ hsound
      | ok =>
        refine ⟨m, _, hbody, D.took hdid hsink, Or.inr ⟨?_, pk.flushed_less hwant⟩⟩
        simp only [Builder.Packs.work, pk.flushed_ok hwant]
        omega

include pk Q in
/-- A call that is given enough polls comes to its end. -/
theorem drive_ends (hΩ : Costs Ω) (hD : D.Faultless) {p : At B R W} {m : Nat} {s : List UInt8} (hbody : Ω p.body m)
    (hsink : D.Holds p.sink s) : ∃ N res q, ∀ polls, B.drive (N + polls) p = ⟨.done res, q, polls⟩ := by
  cases hw : B.want p.state with
  | done res =>
    refine ⟨0, res, p, fun polls => ?_⟩
    rw [B.drive_done hw, Nat.zero_add]
  | _ =>
    have hnot : ∀ res, B.want p.state ≠ .done res := by simp [hw]
    obtain ⟨m', s', hbody', hsink', hless⟩ := turn_progress pk Q hΩ hD hbody hsink hnot
    obtain ⟨N, res, q, hq⟩ := drive_ends hΩ hD hbody' hsink'
    refine ⟨N + 1, res, q, fun polls => ?_⟩
    rw [Nat.add_right_comm, B.drive_succ hnot]
    exact hq polls
termination_by (pk.work Q m p, pk.flushes p.state)
decreasing_by
  all_goals
    rcases hless with hless | ⟨hle, hless⟩
    · exact Prod.Lex.left _ _ hless
    · rcases Nat.lt_or_eq_of_le hle with hlt | heq
      · exact Prod.Lex.left _ _ hlt
      · rw [heq]
        exact Prod.Lex.right _ hless

end Progress

section Success

variable (pk : B.Packs C) {F : Feed IoError R} {D : Drain IoError W}

/-- Neither the body nor the sink has failed, and nor has the call. -/
def Sound (F : Feed IoError R) (D : Drain IoError W) (p : At B R W) : Prop :=
  (∃ s, F.Owes p.body s none) ∧ (∃ s, D.Holds p.sink s) ∧ ∀ e, pk.phase p.state ≠ .failed e

theorem sound_turn (hF : F.Faultless) (hD : D.Faultless) (p : At B R W) (h : Sound pk F D p) :
    Sound pk F D (B.turn p) := by
  obtain ⟨⟨body, hbody⟩, ⟨s, hsink⟩, hφ⟩ := h
  have hwants := pk.wants p.state
  cases hwant : B.want p.state with
  | done res =>
    rw [Builder.turn, hwant]
    exact ⟨⟨body, hbody⟩, ⟨s, hsink⟩, hφ⟩
  | read n =>
    rw [hwant] at hwants
    have hroom : 0 < (ReadBuf.new n).remaining := by
      generalize pk.phase p.state = φ at hwants
      cases hwants with
      | read hn => exact hn
    simp only [Builder.turn, hwant]
    cases ho : (pollRead p.body (.new n)).outcome with
    | pending => exact ⟨⟨body, (F.pending hbody hroom ho).2⟩, ⟨s, hsink⟩, hφ⟩
    | ready res =>
      cases res with
      | error e => cases (hF.fault hbody hroom ho).1
      | ok =>
        obtain ⟨body', -, howes, -⟩ := F.chunk hbody hroom ho
        refine ⟨⟨body', howes⟩, ⟨s, hsink⟩, ?_⟩
        simp only [pk.fed_bytes hwant]
        intro e
        generalize pk.phase p.state = φ at hwants
        cases hwants with
        | read hn =>
          simp only [Packing.get]
          split <;> simp
  | write bytes =>
    rw [hwant] at hwants
    have hdid := Did.write p.sink bytes
    have hsound := hD.sound hdid hsink
    simp only [Builder.turn, hwant]
    cases ho : (pollWrite p.sink bytes).1 with
    | pending => exact ⟨⟨body, hbody⟩, ⟨_, D.took hdid hsink⟩, hφ⟩
    | ready res =>
      cases res with
      | error e => exact absurd (Or.inl ⟨e, ho⟩) hsound
      | ok n =>
        have hle := AsyncWrite.accepts p.sink bytes n ho
        have hpos : 0 < n := by
          rcases Nat.eq_zero_or_pos n with rfl | hpos
          · refine absurd (Or.inr ⟨?_, ho⟩) hsound
            generalize pk.phase p.state = φ at hwants
            cases hwants with
            | head hne hp => exact hne
            | copy hne hp => exact hne
            | tail hne hp => exact hne
          · exact hpos
        refine ⟨⟨body, hbody⟩, ⟨_, D.took hdid hsink⟩, ?_⟩
        simp only [pk.wrote_bytes hwant n hpos hle]
        intro e
        generalize pk.phase p.state = φ at hwants
        cases hwants with
        | head hne hp =>
          simp only [Packing.put]
          split <;> simp
        | copy hne hp => simp [Packing.put]
        | tail hne hp => simp [Packing.put]
  | flush =>
    have hdid := Did.flush p.sink
    have hsound := hD.sound hdid hsink
    simp only [Builder.turn, hwant]
    cases ho : (pollFlush p.sink).1 with
    | pending => exact ⟨⟨body, hbody⟩, ⟨_, D.took hdid hsink⟩, hφ⟩
    | ready res =>
      cases res with
      | error e => exact absurd ⟨e, ho⟩ hsound
      | ok =>
        refine ⟨⟨body, hbody⟩, ⟨_, D.took hdid hsink⟩, ?_⟩
        simp only [pk.flushed_ok hwant]
        exact hφ

/-- A call that is given enough polls succeeds. -/
theorem drive_completes (P : F.Fair) (hF : F.Faultless) (Q : D.Fair) (hD : D.Faultless) {p : At B R W}
    {body s : List UInt8} (hbody : F.Owes p.body body none) (hsink : D.Holds p.sink s)
    (hφ : ∀ e, pk.phase p.state ≠ .failed e) :
    ∃ N q, ∀ polls, B.drive (N + polls) p = ⟨.done (.ok ()), q, polls⟩ := by
  obtain ⟨N, res, q, hq⟩ := drive_ends pk Q (costs_of_fair P hF) hD ⟨body, hbody, rfl⟩ hsink
  have hsound := B.drive_invariant (sound_turn pk hF hD) (N + 0) (p := p) ⟨⟨body, hbody⟩, ⟨s, hsink⟩, hφ⟩
  rw [hq] at hsound
  obtain ⟨⟨-, -, hφ'⟩, hdone⟩ := hsound
  have hwants := pk.wants q.state
  rw [hdone res rfl] at hwants
  refine ⟨N, q, fun polls => ?_⟩
  rw [hq]
  generalize pk.phase q.state = φ at hwants hφ'
  cases hwants with
  | finished => rfl
  | failed e => exact absurd rfl (hφ' e)

end Success

end Etar
