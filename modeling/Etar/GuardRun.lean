import Etar.Gnu
import Etar.GuardSpec

/-!
# The guard as a reader, over whole runs

The guard over a feed is again a feed: it owes what the reference scan lets through
and stops with what the scan stops with. Runs from a fresh guard agree with the scan
of the whole stream and hand the stream out unchanged.
-/
namespace Etar.Guard

open AsyncIo Scan

namespace HeaderGuard

variable {H : HeaderFields} {R : Type} [AsyncRead IoError R]

@[simp] theorem pollRead_buf (g : HeaderGuard H R) (out : ReadBuf) : (pollRead g out).buf = (g.poll out).buf := rfl

@[simp] theorem pollRead_reader (g : HeaderGuard H R) (out : ReadBuf) :
    (pollRead g out).reader = (g.poll out).reader := rfl

theorem pollRead_outcome (g : HeaderGuard H R) (out : ReadBuf) :
    (pollRead g out).outcome = match (g.poll out).outcome with
      | .pending => .pending
      | .ready res => .ready (res.mapError Fault.toIo) := rfl

theorem pollRead_pending {g : HeaderGuard H R} {out : ReadBuf} :
    (pollRead g out).outcome = .pending ↔ (g.poll out).outcome = .pending := by
  rw [pollRead_outcome]
  cases (g.poll out).outcome <;> simp

theorem pollRead_ok {g : HeaderGuard H R} {out : ReadBuf} :
    (pollRead g out).outcome = .ready (.ok ()) ↔ (g.poll out).outcome = .ready (.ok ()) := by
  rw [pollRead_outcome]
  cases (g.poll out).outcome with
  | pending => simp
  | ready res => cases res <;> simp [Except.mapError]

theorem pollRead_error {g : HeaderGuard H R} {out : ReadBuf} {e : IoError} :
    (pollRead g out).outcome = .ready (.error e) ↔
      ∃ f, (g.poll out).outcome = .ready (.error f) ∧ f.toIo = e := by
  rw [pollRead_outcome]
  cases (g.poll out).outcome with
  | pending => simp
  | ready res => cases res <;> simp [Except.mapError]

variable (F : Feed IoError R)

/-- The guard over a feed owes what the reference scan lets through, and stops as the scan or
else the feed does. -/
def feed : Feed IoError (HeaderGuard H R) where
  Owes g s stop := ∃ rest stop', Between F stop' g rest ∧ s = (g.held ++ rest).take (g.ahead rest).passed ∧
    stop = ((g.ahead rest).fault.map fun e => (Fault.own e).toIo).or stop'
  pending {g s stop out} hg hout ho := by
    obtain ⟨rest, stop', hbt, rfl, rfl⟩ := hg
    obtain ⟨used, rest', rfl, h⟩ := poll_spec F stop' g rest hbt out hout
    rw [pollRead_pending.mp ho] at h
    obtain ⟨hbuf, hmoves, howes, -⟩ := h
    exact ⟨hbuf, rest', stop', ⟨hmoves.inv, howes, hbt.hushed⟩, by rw [hmoves.owed, hmoves.ahead_eq]; simp,
      by rw [hmoves.ahead_eq]; rfl⟩
  chunk {g s stop out} hg hout ho := by
    obtain ⟨rest, stop', hbt, rfl, rfl⟩ := hg
    obtain ⟨used, rest', rfl, h⟩ := poll_spec F stop' g rest hbt out hout
    rw [pollRead_ok.mp ho] at h
    obtain ⟨hmoves, howes, hend, -⟩ := h
    refine ⟨_, ?_, ⟨rest', stop', ⟨hmoves.inv, howes, hbt.hushed⟩, rfl, by rw [hmoves.ahead_eq]; rfl⟩, ?_⟩
    · rw [hmoves.owed, hmoves.ahead_eq]
      exact List.take_length_add_append _
    · intro hnil
      obtain ⟨-, hrest, hstop, hah⟩ := hend hnil
      simp only [pollRead_buf] at hnil
      simp only [pollRead_reader]
      rw [hmoves.ahead_eq, hnil, hrest, hah, hstop]
      exact ⟨rfl, rfl⟩
  fault {g s stop out e} hg hout ho := by
    obtain ⟨rest, stop', hbt, rfl, rfl⟩ := hg
    obtain ⟨used, rest', rfl, h⟩ := poll_spec F stop' g rest hbt out hout
    obtain ⟨f, hf, rfl⟩ := pollRead_error.mp ho
    rw [hf] at h
    cases f with
    | inner e =>
      obtain ⟨hbuf, hmoves, hstruck, hah⟩ := h
      rcases hstruck.owes hbt.hushed with howes | ⟨hstop, hnil⟩
      · exact Or.inl ⟨hbuf, rest', stop', ⟨hmoves.inv, howes, hbt.hushed⟩,
          by rw [hmoves.owed, hmoves.ahead_eq]; simp, by rw [hmoves.ahead_eq]; rfl⟩
      · refine Or.inr ?_
        rw [hmoves.ahead_eq, hnil, hah, hstop, pollRead_buf, hbuf, ReadBuf.added_self]
        exact ⟨rfl, rfl⟩
    | own e =>
      obtain ⟨hscan, hpre⟩ := Stops.ahead h.1 rest'
      refine Or.inr ⟨by rw [hscan]; rfl, ?_⟩
      rw [hscan]
      exact List.prefix_iff_eq_take.mp hpre

variable {F}

/-- The guard's own error is the last answer it owes. -/
theorem poll_own {stop : Option IoError} {g : HeaderGuard H R} {s : List UInt8} (hg : Between F stop g s)
    {out : ReadBuf} (hout : 0 < out.remaining) {e : Error} (ho : (g.poll out).outcome = .ready (.error (.own e))) :
    (((g.ahead s).fault.map fun e => (Fault.own e).toIo).or stop) = some (Fault.own e).toIo ∧
      out.added (g.poll out).buf = (g.held ++ s).take (g.ahead s).passed := by
  obtain ⟨used, s', rfl, h⟩ := poll_spec F stop g s hg out hout
  rw [ho] at h
  obtain ⟨hscan, hpre⟩ := Stops.ahead h.1 s'
  rw [hscan]
  exact ⟨rfl, List.prefix_iff_eq_take.mp hpre⟩

/-- An error handed on at the end of the feed is the last answer the guard owes. -/
theorem poll_struck {stop : Option IoError} {g : HeaderGuard H R} {s : List UInt8} (hg : Between F stop g s)
    {out : ReadBuf} (hout : 0 < out.remaining) {e : IoError} (ho : (g.poll out).outcome = .ready (.error (.inner e))) :
    ∃ s', Struck F stop g.inner s' e (g.poll out).reader.inner ∧ (stop = some e → s' = [] →
      (((g.ahead s).fault.map fun e => (Fault.own e).toIo).or stop) = some e ∧
        out.added (g.poll out).buf = (g.held ++ s).take (g.ahead s).passed) := by
  obtain ⟨used, s', rfl, h⟩ := poll_spec F stop g s hg out hout
  rw [ho] at h
  obtain ⟨hbuf, hmoves, hstruck, hah⟩ := h
  refine ⟨s', hstruck, fun hstop hnil => ?_⟩
  rw [hmoves.ahead_eq, hnil, hah, hstop, hbuf, ReadBuf.added_self]
  exact ⟨rfl, rfl⟩

/-- The guard over a fair feed is fair. -/
def fair (P : F.Fair) : (feed F : Feed IoError (HeaderGuard H R)).Fair where
  delay g := P.delay g.inner
  pending {g s stop out} hg hout ho := by
    obtain ⟨rest, stop', hbt, -, -⟩ := hg
    obtain ⟨used, rest', -, h⟩ := poll_spec F stop' g rest hbt out hout
    rw [pollRead_pending.mp ho] at h
    obtain ⟨-, -, -, hdelay⟩ := h
    exact hdelay P
  chunk {g s stop out} hg hout ho := by
    obtain ⟨rest, stop', hbt, -, -⟩ := hg
    obtain ⟨used, rest', -, h⟩ := poll_spec F stop' g rest hbt out hout
    rw [pollRead_ok.mp ho] at h
    obtain ⟨-, -, -, hdelay⟩ := h
    exact hdelay P
  fault {g s stop out e} hg hout ho := by
    obtain ⟨rest, stop', hbt, rfl, rfl⟩ := hg
    obtain ⟨f, hp, rfl⟩ := pollRead_error.mp ho
    cases f with
    | inner e =>
      obtain ⟨s', hstruck, hlast⟩ := poll_struck hbt hout hp
      rcases hstruck.delay hbt.hushed P with hlt | ⟨hstop, hnil⟩
      · exact Or.inl hlt
      · exact Or.inr (hlast hstop hnil)
    | own e => exact Or.inr (poll_own hbt hout hp)

/-- The guard over a faultless feed reports its own errors, and what the feed ends with. -/
theorem faultless (hF : F.Faultless) : (feed F : Feed IoError (HeaderGuard H R)).Faultless := by
  constructor
  intro g s stop out e hg hout ho
  obtain ⟨rest, stop', hbt, rfl, rfl⟩ := hg
  obtain ⟨f, hp, rfl⟩ := pollRead_error.mp ho
  cases f with
  | inner e =>
    obtain ⟨s', hstruck, hlast⟩ := poll_struck hbt hout hp
    obtain ⟨hstop, hnil⟩ := hstruck.last hbt.hushed hF
    exact hlast hstop hnil
  | own e => exact poll_own hbt hout hp

end HeaderGuard

section Boundaries

variable (H : HeaderFields) (max : Nat)

/-- `Boundary s n p`: the stream starts with complete admitted records, none of them headed
by a zero block, that end at `n` and leave the pending size `p`. -/
inductive Boundary (s : List UInt8) : Nat → Option Nat → Prop where
  | start : Boundary s 0 none
  | next {n e : Nat} {p p' : Option Nat} (h : Boundary s n p) (hs : 512 ≤ (s.drop n).length)
      (hz : (Block.ofList (s.drop n) hs).isZero = false) (hv : vet H max p (Block.ofList (s.drop n) hs) = .ok e)
      (hl : 512 + roundUp e ≤ (s.drop n).length)
      (hc : carry p (Block.ofList (s.drop n) hs) (((s.drop n).drop 512).take e) = .ok p') :
      Boundary s (n + (512 + roundUp e)) p'

/-- A scan that stops short of the end without a fault stops at a boundary. -/
theorem scan_short_of_end {s : List UInt8} {n k : Nat} {p : Option Nat} (hb : Boundary H max s n p)
    (hk : scan H max p (s.drop n) = ⟨k, none⟩) (hlt : n + k < s.length) :
    s.length < n + k + 512 ∧ ∃ p', Boundary H max s (n + k) p' := by
  induction hm : s.length - n using Nat.strong_induction_on generalizing n k p with
  | _ m ih =>
    by_cases hs : 512 ≤ (s.drop n).length
    · have hlen : (s.drop n).length = s.length - n := List.length_drop
      cases hz : (Block.ofList (s.drop n) hs).isZero with
      | true =>
        rw [scan_zero H max hs hz] at hk
        cases hk
        omega
      | false =>
        cases hv : vet H max p (Block.ofList (s.drop n) hs) with
        | error e =>
          rw [scan_refused H max hs hz hv] at hk
          cases hk
        | ok e =>
          by_cases hl : (s.drop n).length < 512 + roundUp e
          · rw [scan, dif_pos hs, if_neg (by simp [hz])] at hk
            simp only [hv] at hk
            rw [if_pos hl] at hk
            cases hk
            omega
          · have hl' := Nat.le_of_not_lt hl
            rw [scan, dif_pos hs, if_neg (by simp [hz])] at hk
            simp only [hv] at hk
            rw [if_neg hl] at hk
            cases hc : carry p (Block.ofList (s.drop n) hs) (((s.drop n).drop 512).take e) with
            | error e' =>
              rw [hc] at hk
              cases hk
            | ok p' =>
              rw [hc, List.drop_drop] at hk
              simp only at hk
              cases hr : scan H max p' (s.drop (n + (512 + roundUp e))) with
              | mk k' f =>
                rw [hr] at hk
                cases hk
                simp only at hlt
                have := ih (s.length - (n + (512 + roundUp e))) (by omega) (hb.next hs hz hv hl' hc) hr (by omega) rfl
                rwa [Nat.add_assoc n (512 + roundUp e) k'] at this
    · rw [scan_short H max (Nat.lt_of_not_le hs)] at hk
      cases hk
      have hlen : (s.drop n).length = s.length - n := List.length_drop
      exact ⟨by omega, p, hb⟩

end Boundaries

section Runs

variable {H : HeaderFields} {R : Type} [AsyncRead IoError R] (F : Feed IoError R)

/-- The buffer had room and the guard did not fail by itself. -/
def NotOwn (out : ReadBuf) (o : Poll (Except Fault Unit)) : Prop :=
  0 < out.remaining ∧ ∀ e, o ≠ .ready (.error (.own e))

/-- A poll the caller takes for the end: an own error, or the end of the stream. -/
def Last (out : ReadBuf) (p : Polled Fault (HeaderGuard H R)) : Prop :=
  (∃ e, p.outcome = .ready (.error (.own e))) ∨ (p.outcome = .ready (.ok ()) ∧ out.added p.buf = [])

/-- The run invariant: what was handed out, what is held and the `rest` the inner reader owes
are the stream, and the rest of the scan lies ahead. -/
structure Tracks (max : Nat) (s bytes : List UInt8) (g : HeaderGuard H R) (rest : List UInt8) : Prop where
  between : g.Between F none rest
  bytes_eq : s = bytes ++ (g.held ++ rest)
  scan_eq : scan H max none s = (g.ahead rest).shift bytes.length

theorem tracks_new {r : R} {s : List UInt8} (max : Nat) (howes : F.Owes r s none) :
    Tracks F max s [] (new r max : HeaderGuard H R) s :=
  ⟨⟨HeaderGuard.inv_new r max, howes, F.hushed_none⟩, by rw [HeaderGuard.held_new]; rfl,
    by rw [HeaderGuard.ahead_new]; exact (Verdict.shift_zero _).symm⟩

/-- Every poll but an own error keeps track, and every poll but the last makes progress. -/
theorem Tracks.poll {max : Nat} {s bytes rest : List UInt8} {g : HeaderGuard H R}
    (h : Tracks F max s bytes g rest) {out : ReadBuf} (hok : NotOwn out (g.poll out).outcome) :
    ∃ rest', Tracks F max s (bytes ++ out.added (g.poll out).buf) (g.poll out).reader rest' := by
  obtain ⟨hbt, hbytes, hscan⟩ := h
  obtain ⟨used, rest', rfl, ha⟩ := HeaderGuard.poll_spec F none g rest hbt out hok.1
  have hmove : HeaderGuard.Moves g used (out.added (g.poll out).buf) (g.poll out).reader →
      F.Owes (g.poll out).reader.inner rest' none →
      ∃ rest', Tracks F max s (bytes ++ out.added (g.poll out).buf) (g.poll out).reader rest' := by
    intro hm howes
    refine ⟨rest', ⟨hm.inv, howes, hbt.hushed⟩, ?_, ?_⟩
    · rw [hbytes, hm.owed, List.append_assoc]
    · rw [hscan, hm.ahead_eq, Verdict.shift_shift, List.length_append]
  cases ho : (g.poll out).outcome with
  | pending =>
    rw [ho] at ha
    obtain ⟨hbuf, hm, howes, -⟩ := ha
    exact hmove (by rwa [hbuf, ReadBuf.added_self]) howes
  | ready res =>
    cases res with
    | ok =>
      rw [ho] at ha
      obtain ⟨hm, howes, -⟩ := ha
      exact hmove hm howes
    | error f =>
      cases f with
      | inner e =>
        rw [ho] at ha
        obtain ⟨hbuf, hm, hstruck, -⟩ := ha
        rcases hstruck.owes hbt.hushed with howes | ⟨hstop, -⟩
        · exact hmove (by rwa [hbuf, ReadBuf.added_self]) howes
        · cases hstop
      | own e => exact absurd ho (hok.2 e)

theorem Tracks.of_run {r : R} {s : List UInt8} {max : Nat} (howes : F.Owes r s none)
    {bytes : List UInt8} {g : HeaderGuard H R} (hrun : Run HeaderGuard.poll NotOwn (new r max) bytes g) :
    ∃ rest, Tracks F max s bytes g rest :=
  hrun.invariant (P := fun bytes g => ∃ rest, Tracks F max s bytes g rest) ⟨s, tracks_new F max howes⟩
    (fun _ _ _ ⟨_, h⟩ hok => h.poll F hok)

/-- What a poll that is not the last leaves to do is less than before: fewer bytes, or less delay. -/
theorem progress (P : F.Fair) {g : HeaderGuard H R} {rest : List UInt8} (h : g.Between F none rest)
    {out : ReadBuf} (hout : 0 < out.remaining) (hl : ¬ Last out (g.poll out)) :
    NotOwn out (g.poll out).outcome ∧
      P.delay (g.poll out).reader.inner ≤ P.delay g.inner ∧
      (out.added (g.poll out).buf = [] → P.delay (g.poll out).reader.inner < P.delay g.inner) := by
  obtain ⟨used, rest', -, ha⟩ := HeaderGuard.poll_spec F none g rest h out hout
  cases ho : (g.poll out).outcome with
  | pending =>
    rw [ho] at ha
    obtain ⟨-, -, -, hdelay⟩ := ha
    exact ⟨⟨hout, by simp⟩, (hdelay P).le, fun _ => hdelay P⟩
  | ready res =>
    cases res with
    | ok =>
      rw [ho] at ha
      obtain ⟨-, -, -, hdelay⟩ := ha
      exact ⟨⟨hout, by simp⟩, hdelay P, fun hnil => absurd (Or.inr ⟨ho, hnil⟩) hl⟩
    | error f =>
      cases f with
      | inner e =>
        rw [ho] at ha
        obtain ⟨-, -, hstruck, -⟩ := ha
        rcases hstruck.delay h.hushed P with hlt | ⟨hstop, -⟩
        · exact ⟨⟨hout, by simp⟩, hlt.le, fun _ => hlt⟩
        · cases hstop
      | own e => exact absurd (Or.inl ⟨e, ho⟩) hl

/-- What one poll of a tracked guard tells about the scan of the whole stream. -/
theorem Tracks.answer {max : Nat} {s bytes rest : List UInt8} {g : HeaderGuard H R}
    (h : Tracks F max s bytes g rest) {out : ReadBuf} (hout : 0 < out.remaining) :
    let v := scan H max none s
    let handed := bytes ++ out.added (g.poll out).buf
    handed <+: s.take v.passed ∧
    match (g.poll out).outcome with
    | .ready (.error (.own e)) => v.fault = some e ∧ handed = s.take v.passed
    | .ready (.ok ()) => out.added (g.poll out).buf = [] → v.fault = none ∧ handed = s.take v.passed
    | _ => out.added (g.poll out).buf = [] := by
  obtain ⟨used, rest', hrest, ha⟩ := HeaderGuard.poll_spec F none g rest h.between out hout
  have hv : s.take (scan H max none s).passed = bytes ++ (g.held ++ rest).take (g.ahead rest).passed := by
    rw [h.scan_eq, h.bytes_eq]
    exact List.take_length_add_append _
  have hf : (scan H max none s).fault = (g.ahead rest).fault := by
    rw [h.scan_eq]
    rfl
  simp only [hv, hf]
  subst hrest
  cases ho : (g.poll out).outcome with
  | pending =>
    rw [ho] at ha
    simp only [ha.1, ReadBuf.added_self, List.append_nil, and_true]
    exact List.prefix_append _ _
  | ready res =>
    cases res with
    | ok =>
      rw [ho] at ha
      obtain ⟨hm, -, hend, -⟩ := ha
      have ht : (g.held ++ (used ++ rest')).take (g.ahead (used ++ rest')).passed = out.added (g.poll out).buf ++
          ((g.poll out).reader.held ++ rest').take ((g.poll out).reader.ahead rest').passed := by
        rw [hm.owed, hm.ahead_eq]
        exact List.take_length_add_append _
      rw [ht, ← List.append_assoc]
      refine ⟨List.prefix_append _ _, fun hnil => ?_⟩
      obtain ⟨-, hrest, -, hah⟩ := hend hnil
      rw [hm.ahead_eq, hrest, hah]
      simp
    | error f =>
      cases f with
      | inner e =>
        rw [ho] at ha
        simp only [ha.1, ReadBuf.added_self, List.append_nil, and_true]
        exact List.prefix_append _ _
      | own e =>
        rw [ho] at ha
        obtain ⟨hsc, hpre⟩ := HeaderGuard.Stops.ahead ha.1 rest'
        have ht := List.prefix_iff_eq_take.mp hpre
        rw [hsc]
        simp only [← ht, and_self, List.prefix_refl]

/-- The guard agrees with the reference scan of the whole stream, however it is cut into
reads: what is handed out stays within what the scan lets through, the guard's error is the
scan's and comes right after it, and without a fault the end does. Any polling of a fair
feed comes to such a last poll. -/
theorem guard_agrees_with_scan {r : R} {s : List UInt8} (max : Nat) (howes : F.Owes r s none) :
    (∀ {bytes : List UInt8} {g : HeaderGuard H R}, Run HeaderGuard.poll NotOwn (new r max) bytes g →
      ∀ out : ReadBuf, 0 < out.remaining →
        let v := scan H max none s
        let handed := bytes ++ out.added (g.poll out).buf
        handed <+: s.take v.passed ∧
        match (g.poll out).outcome with
        | .ready (.error (.own e)) => v.fault = some e ∧ handed = s.take v.passed
        | .ready (.ok ()) => out.added (g.poll out).buf = [] → v.fault = none ∧ handed = s.take v.passed
        | _ => out.added (g.poll out).buf = []) ∧
    (F.Fair → ∀ bufs : Nat → ReadBuf, (∀ n, 0 < (bufs n).remaining) →
      ∃ n, let at_ := after HeaderGuard.poll bufs (new r max : HeaderGuard H R) n
        Run HeaderGuard.poll NotOwn (new r max) at_.1 at_.2 ∧ Last (bufs n) (at_.2.poll (bufs n))) := by
  constructor
  · intro bytes g hrun out hout
    obtain ⟨rest, h⟩ := Tracks.of_run F howes hrun
    exact h.answer F hout
  · intro P bufs hbufs
    have hstep : ∀ bytes (g : HeaderGuard H R) (out : ReadBuf), (∃ rest, Tracks F max s bytes g rest) →
        0 < out.remaining → ¬ Last out (g.poll out) →
        NotOwn out (g.poll out).outcome ∧
        (∃ rest, Tracks F max s (bytes ++ out.added (g.poll out).buf) (g.poll out).reader rest) ∧
        s.length - (bytes ++ out.added (g.poll out).buf).length + P.delay (g.poll out).reader.inner <
          s.length - bytes.length + P.delay g.inner := by
      intro bytes g out ⟨rest, h⟩ hout hl
      obtain ⟨hok, hle, hlt⟩ := progress F P h.between hout hl
      obtain ⟨rest', h'⟩ := h.poll F hok
      refine ⟨hok, ⟨rest', h'⟩, ?_⟩
      have hlen := congrArg List.length h'.bytes_eq
      simp only [List.length_append] at hlen ⊢
      by_cases hnil : out.added (g.poll out).buf = []
      · have := hlt hnil
        rw [hnil]
        simp only [List.length_nil]
        omega
      · have := List.length_pos_iff.mpr hnil
        omega
    obtain ⟨n, hrun, -, hl⟩ := Run.comes_to_last
      (fun bytes (g : HeaderGuard H R) => s.length - bytes.length + P.delay g.inner) hstep bufs hbufs
      (r := new r max) ⟨s, tracks_new F max howes⟩
    exact ⟨n, hrun, hl⟩

/-- Whether a poll tells the end of the stream. -/
def tellsEnd (out : ReadBuf) (p : Polled Fault (HeaderGuard H R)) : Bool :=
  match p.outcome with
  | .ready (.ok ()) => out.added p.buf == []
  | _ => false

omit [AsyncRead IoError R] in
theorem eq_of_tellsEnd {out : ReadBuf} {p : Polled Fault (HeaderGuard H R)} (h : tellsEnd out p = true) :
    p.outcome = .ready (.ok ()) ∧ out.added p.buf = [] := by
  unfold tellsEnd at h
  split at h
  · rename_i ho
    exact ⟨ho, eq_of_beq h⟩
  · cases h

/-- A PAX record, its member, and three stray bytes behind them. -/
def strayed : List UInt8 := (Gnu.resized 48 0).take 2048 ++ [1, 2, 3]

/-- A guard over them; they come late, in pieces and with an interruption. -/
def sample : HeaderGuard gnuFields (Script IoError) :=
  new ⟨strayed, [.late, .give 699, .fail (.simple .interrupted), .give 4]⟩ 100

/-- The guard after nine polls. -/
def sampleRun : List UInt8 × HeaderGuard gnuFields (Script IoError) :=
  after HeaderGuard.poll (fun _ => .new 1024) sample 9

theorem sample_run : Run HeaderGuard.poll NotOwn sample sampleRun.1 sampleRun.2 := by
  have hfine : ∀ k < 9, HeaderGuard.refuses (HeaderGuard.poll (after HeaderGuard.poll (fun _ => .new 1024) sample k).2
      (.new 1024)).outcome = false := by decide +kernel
  exact Run.of_after _ _ fun k hk => ⟨by decide, HeaderGuard.ne_own_of_refuses (hfine k hk)⟩

/-- All but the stray bytes is handed out, as the scan has it. -/
theorem guard_agrees_with_scan_sample :
    sampleRun.1.length = 2048 ∧ (scan gnuFields 100 none strayed).fault = none ∧
      sampleRun.1 = strayed.take (scan gnuFields 100 none strayed).passed := by
  have hends : tellsEnd (.new 1024) (sampleRun.2.poll (.new 1024)) = true := by decide +kernel
  obtain ⟨ho, hnil⟩ := eq_of_tellsEnd hends
  have hagrees := (guard_agrees_with_scan Script.feed 100 ⟨rfl, rfl⟩).1 sample_run (.new 1024) (by decide)
  simp only [ho, hnil, List.append_nil] at hagrees
  exact ⟨by decide +kernel, hagrees.2 trivial⟩

/-- The guard hands the stream out as it is, and ends only when its inner reader just did:
then at most an incomplete header, at a boundary before any zero block, is kept back. -/
theorem guard_is_transparent {r : R} {s : List UInt8} (max : Nat) (howes : F.Owes r s none)
    {bytes : List UInt8} {g : HeaderGuard H R} (hrun : Run HeaderGuard.poll NotOwn (new r max) bytes g)
    (out : ReadBuf) (hout : 0 < out.remaining) :
    let handed := bytes ++ out.added (g.poll out).buf
    handed <+: s ∧
    ((g.poll out).outcome = .ready (.ok ()) → out.added (g.poll out).buf = [] →
      EofSince g.inner (g.poll out).reader.inner ∧
      ∃ tail, s = handed ++ tail ∧
        (tail = [] ∨ tail.length < 512 ∧ ∃ p, Boundary H max s handed.length p)) := by
  obtain ⟨rest, h⟩ := Tracks.of_run F howes hrun
  refine ⟨(h.answer F hout).1.trans (List.take_prefix _ _), ?_⟩
  intro ho hnil
  obtain ⟨used, rest', hrest', ha⟩ := HeaderGuard.poll_spec F none g rest h.between out hout
  rw [ho] at ha
  obtain ⟨hm, -, hend, -⟩ := ha
  obtain ⟨heof, hrest, -, hah⟩ := hend hnil
  refine ⟨heof, g.held ++ rest, by rw [hnil, List.append_nil]; exact h.bytes_eq, ?_⟩
  rw [hnil, List.append_nil]
  have hscan : scan H max none s = ⟨bytes.length, none⟩ := by
    rw [h.scan_eq, hrest', hm.ahead_eq, hnil, hrest, hah]
    simp
  by_cases hlt : bytes.length < s.length
  · obtain ⟨hlen, p, hb⟩ := scan_short_of_end H max (.start (s := s)) (k := bytes.length)
      (by rw [List.drop_zero, hscan]) (by omega)
    rw [h.bytes_eq, List.length_append] at hlen
    refine Or.inr ⟨by omega, p, ?_⟩
    rwa [Nat.zero_add] at hb
  · rw [h.bytes_eq, List.length_append] at hlt
    exact Or.inl (List.eq_nil_of_length_eq_zero (by omega))

/-- The stray bytes are kept back. -/
theorem guard_is_transparent_sample : ∃ tail, strayed = sampleRun.1 ++ tail ∧ tail ≠ [] ∧ tail.length < 512 ∧
    ∃ p, Boundary gnuFields 100 strayed sampleRun.1.length p := by
  have hends : tellsEnd (.new 1024) (sampleRun.2.poll (.new 1024)) = true := by decide +kernel
  obtain ⟨ho, hnil⟩ := eq_of_tellsEnd hends
  have htransparent := guard_is_transparent Script.feed 100 ⟨rfl, rfl⟩ sample_run (.new 1024) (by decide)
  simp only [hnil, List.append_nil] at htransparent
  obtain ⟨-, tail, hbytes, htail⟩ := htransparent.2 ho trivial
  have hstray : tail ≠ [] := by
    rintro rfl
    have hlength : strayed.length ≠ sampleRun.1.length := by decide +kernel
    exact hlength (by rw [hbytes, List.append_nil])
  exact ⟨tail, hbytes, hstray, htail.resolve_left hstray⟩

end Runs

end Etar.Guard
