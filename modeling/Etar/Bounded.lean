import Etar.Cap

/-!
# The bound on one entry's body

`Bounded` hands on what its inner reader delivers, and fails for good once that is more than
its cap. What it has delivered and what it has left always add up to the cap.
-/
namespace Etar.Limit.Bounded

open AsyncIo Cap

variable {R : Type} [AsyncRead IoError R]

/-- The bytes one poll of the inner reader adds. -/
abbrev pulled (b : Bounded R) (buf : ReadBuf) : List UInt8 := buf.added (pollRead b.inner buf).buf

theorem poll_failed {b : Bounded R} (h : b.failed = true) (buf : ReadBuf) :
    b.poll buf = ⟨.ready (.error (capError "aborted entry body")), buf, b⟩ := by
  rw [poll, if_pos h]

/-- A chunk past the cap is taken back out of the buffer. -/
theorem poll_over {b : Bounded R} (h : b.failed = false) {buf : ReadBuf} (hover : b.remaining < (b.pulled buf).length) :
    b.poll buf = ⟨.ready (.error (capError "max_entry_bytes")), buf,
      { b with inner := (pollRead b.inner buf).reader, failed := true }⟩ := by
  rw [poll, if_neg (by simp [h])]
  dsimp only
  rw [if_pos hover, (AsyncRead.grows b.inner buf).setFilled_eq]

/-- A chunk within the cap is handed on, with the inner reader's outcome. -/
theorem poll_under {b : Bounded R} (h : b.failed = false) {buf : ReadBuf} (hunder : (b.pulled buf).length ≤ b.remaining) :
    b.poll buf = ⟨(pollRead b.inner buf).outcome, (pollRead b.inner buf).buf,
      { b with inner := (pollRead b.inner buf).reader, remaining := b.remaining - (b.pulled buf).length }⟩ := by
  rw [poll, if_neg (by simp [h])]
  dsimp only
  rw [if_neg (Nat.not_lt.mpr hunder)]

/-- What was delivered of `body` and what is left of the cap `m`: until the bound fails the
inner reader owes the rest, and it fails only when the rest is too long. -/
structure Delivered (F : Feed IoError R) (body : List UInt8) (m : Nat) (bytes : List UInt8) (b : Bounded R) : Prop where
  spent : bytes.length + b.remaining = m
  rest : ∃ s, body = bytes ++ s ∧ (b.failed = false → F.Owes b.inner s none) ∧
    (b.failed = true → b.remaining < s.length)

variable {F : Feed IoError R} {body bytes : List UInt8} {m : Nat} {b : Bounded R}

theorem Delivered.new {inner : R} (howes : F.Owes inner body none) : Delivered F body m [] (Bounded.new inner m) :=
  ⟨Nat.zero_add m, body, rfl, fun _ => howes, fun h => nomatch h⟩

theorem Delivered.too_long (h : Delivered F body m bytes b) (hf : b.failed = true) : m < body.length := by
  obtain ⟨s, rfl, -, hlong⟩ := h.rest
  have hspent := h.spent
  have hlt := hlong hf
  rw [List.length_append]
  omega

theorem Delivered.poll (hF : F.Patient) (h : Delivered F body m bytes b) (buf : ReadBuf) :
    Delivered F body m (bytes ++ buf.added (b.poll buf).buf) (b.poll buf).reader := by
  cases hf : b.failed with
  | true =>
    rw [poll_failed hf, ReadBuf.added_self, List.append_nil]
    exact h
  | false =>
    obtain ⟨s, hbody, howes, -⟩ := h.rest
    obtain ⟨s', hs, howes'⟩ := hF.poll (howes hf) buf
    have hread : s = b.pulled buf ++ s' := hs
    have hspent := h.spent
    by_cases hover : b.remaining < (b.pulled buf).length
    · rw [poll_over hf hover, ReadBuf.added_self, List.append_nil]
      have hlong : b.remaining < s.length := by
        rw [hread, List.length_append]
        exact Nat.lt_add_right _ hover
      exact ⟨hspent, s, hbody, (fun h' => nomatch h'), fun _ => hlong⟩
    · have hunder := Nat.not_lt.mp hover
      rw [poll_under hf hunder]
      refine ⟨?_, s', ?_, fun _ => howes', fun h' => ?_⟩
      · show (bytes ++ b.pulled buf).length + (b.remaining - (b.pulled buf).length) = m
        rw [List.length_append]
        omega
      · rw [hbody, hs, List.append_assoc]
      · rw [hf] at h'
        cases h'

theorem Delivered.of_run (hF : F.Patient) {inner : R} (howes : F.Owes inner body none)
    (hrun : Run Bounded.poll anyPoll (Bounded.new inner m) bytes b) : Delivered F body m bytes b :=
  hrun.invariant (.new howes) (fun _ _ buf h _ => h.poll hF buf)

/-- An end reported into a buffer with room is the end of a body within the cap. -/
theorem Delivered.whole (h : Delivered F body m bytes b) {buf : ReadBuf} (hroom : 0 < buf.remaining)
    (ho : (b.poll buf).outcome = .ready (.ok ())) (hnil : buf.added (b.poll buf).buf = []) :
    bytes = body ∧ body.length ≤ m := by
  cases hf : b.failed with
  | true =>
    rw [poll_failed hf] at ho
    cases ho
  | false =>
    obtain ⟨s, hbody, howes, -⟩ := h.rest
    have hspent := h.spent
    by_cases hover : b.remaining < (b.pulled buf).length
    · rw [poll_over hf hover] at ho
      cases ho
    · rw [poll_under hf (Nat.not_lt.mp hover)] at ho hnil
      obtain ⟨s', hs, -, hend⟩ := F.chunk (howes hf) hroom ho
      obtain ⟨rfl, -⟩ := hend hnil
      rw [hnil] at hs
      rw [hbody, hs, List.append_nil, List.append_nil]
      exact ⟨rfl, by omega⟩

/-- The last poll of a body: its end, or the chunk past the cap. -/
def Last (buf : ReadBuf) (p : Polled IoError (Bounded R)) : Prop :=
  p.reader.failed = true ∨ (p.outcome = .ready (.ok ()) ∧ buf.added p.buf = [])

/-- A poll that is not the last waits or delivers. -/
theorem Delivered.goes_on (P : F.Fair) (hF : F.Patient) (h : Delivered F body m bytes b) (hf : b.failed = false)
    {buf : ReadBuf} (hroom : 0 < buf.remaining) (hlast : ¬ Last buf (b.poll buf)) :
    P.delay (b.poll buf).reader.inner + (body.length - (bytes ++ buf.added (b.poll buf).buf).length) <
      P.delay b.inner + (body.length - bytes.length) := by
  obtain ⟨s, hbody, howes, -⟩ := h.rest
  obtain ⟨s', hs, -⟩ := hF.poll (howes hf) buf
  have hlen := congrArg List.length hbody
  have hlen' := congrArg List.length hs
  simp only [List.length_append] at hlen hlen' ⊢
  by_cases hover : b.remaining < (b.pulled buf).length
  · rw [poll_over hf hover] at hlast
    exact absurd (Or.inl rfl) hlast
  · have hp := poll_under hf (Nat.not_lt.mp hover)
    rw [hp] at hlast ⊢
    dsimp only
    cases ho : (pollRead b.inner buf).outcome with
    | pending =>
      have := P.pending (howes hf) hroom ho
      omega
    | ready res =>
      cases res with
      | ok =>
        have hdelay := P.chunk (howes hf) hroom ho
        have hpos : 0 < (buf.added (pollRead b.inner buf).buf).length :=
          List.length_pos_iff.mpr fun hnil => hlast (Or.inr ⟨ho, hnil⟩)
        omega
      | error e =>
        rcases P.fault (howes hf) hroom ho with hlt | ⟨hstop, -⟩
        · omega
        · cases hstop

/-- Any polling with room comes to the last poll. -/
theorem comes_to_last (P : F.Fair) (hF : F.Patient) {inner : R} (howes : F.Owes inner body none)
    (bufs : Nat → ReadBuf) (hbufs : ∀ n, 0 < (bufs n).remaining) :
    ∃ n, let at_ := after Bounded.poll bufs (Bounded.new inner m) n
      Delivered F body m at_.1 at_.2 ∧ at_.2.failed = false ∧ Last (bufs n) (at_.2.poll (bufs n)) := by
  have hstep : ∀ bytes b (buf : ReadBuf), Delivered F body m bytes b ∧ b.failed = false → 0 < buf.remaining →
      ¬ Last buf (b.poll buf) →
      anyPoll buf (b.poll buf).outcome ∧
      (Delivered F body m (bytes ++ buf.added (b.poll buf).buf) (b.poll buf).reader ∧
        (b.poll buf).reader.failed = false) ∧
      P.delay (b.poll buf).reader.inner + (body.length - (bytes ++ buf.added (b.poll buf).buf).length) <
        P.delay b.inner + (body.length - bytes.length) := by
    intro bytes b buf h hroom hl
    refine ⟨trivial, ⟨h.1.poll hF buf, ?_⟩, h.1.goes_on P hF h.2 hroom hl⟩
    cases hf : (b.poll buf).reader.failed with
    | false => rfl
    | true => exact absurd (Or.inl hf) hl
  obtain ⟨n, -, h, hl⟩ := Run.comes_to_last (fun bytes b => P.delay b.inner + (body.length - bytes.length)) hstep
    bufs hbufs (r := Bounded.new inner m) ⟨.new howes, rfl⟩
  exact ⟨n, h.1, h.2, hl⟩

/-- A poll that makes the bound fail names it, puts the buffer back and was right to fail. -/
theorem Delivered.fails (hF : F.Patient) (h : Delivered F body m bytes b) (hf : b.failed = false) {buf : ReadBuf}
    (hf' : (b.poll buf).reader.failed = true) :
    (b.poll buf).outcome = .ready (.error (capError "max_entry_bytes")) ∧ (b.poll buf).buf = buf ∧ m < body.length := by
  have hlong := (h.poll hF buf).too_long hf'
  by_cases hover : b.remaining < (b.pulled buf).length
  · rw [poll_over hf hover]
    exact ⟨rfl, rfl, hlong⟩
  · rw [poll_under hf (Nat.not_lt.mp hover), hf] at hf'
    cases hf'

/-- A poll that leaves the bound whole is one of the inner reader. -/
theorem hands_on {buf : ReadBuf} (hf' : (b.poll buf).reader.failed = false) :
    (b.poll buf).outcome = (pollRead b.inner buf).outcome ∧ (b.poll buf).buf = (pollRead b.inner buf).buf ∧
      (b.poll buf).reader.inner = (pollRead b.inner buf).reader := by
  cases hf : b.failed with
  | true =>
    rw [poll_failed hf, hf] at hf'
    cases hf'
  | false =>
    by_cases hover : b.remaining < (b.pulled buf).length
    · rw [poll_over hf hover] at hf'
      cases hf'
    · rw [poll_under hf (Nat.not_lt.mp hover)]
      exact ⟨rfl, rfl, rfl⟩

/-- A body under its bound. After any polls with any buffers, one more poll: what was delivered
is a prefix of the body and adds up to the cap with the counter; only a body over the cap makes
the bound fail, with its error and the buffer put back, and a failed bound stays as it is;
otherwise the inner reader's answer is handed on, and an end only comes after the whole body.
Any polling of a fair inner reader comes to that end, or to the error. -/
theorem bounded_delivers (hF : F.Patient) {inner : R} (howes : F.Owes inner body none) (m : Nat) :
    (∀ {bytes : List UInt8} {b : Bounded R}, Run Bounded.poll anyPoll (Bounded.new inner m) bytes b →
      ∀ buf : ReadBuf,
        let p := b.poll buf
        let q := pollRead b.inner buf
        let delivered := bytes ++ buf.added p.buf
        delivered <+: body ∧ delivered.length + p.reader.remaining = m ∧
        (p.reader.failed = true → m < body.length) ∧
        (b.failed = false → p.reader.failed = true →
          p.outcome = .ready (.error (capError "max_entry_bytes")) ∧ p.buf = buf) ∧
        (b.failed = true → p = ⟨.ready (.error (capError "aborted entry body")), buf, b⟩) ∧
        (p.reader.failed = false → p.outcome = q.outcome ∧ p.buf = q.buf ∧ p.reader.inner = q.reader) ∧
        (0 < buf.remaining → p.outcome = .ready (.ok ()) → buf.added p.buf = [] →
          delivered = body ∧ body.length ≤ m)) ∧
    (F.Fair → ∀ bufs : Nat → ReadBuf, (∀ n, 0 < (bufs n).remaining) →
      ∃ n, let at_ := after Bounded.poll bufs (Bounded.new inner m) n
        let p := at_.2.poll (bufs n)
        (body.length ≤ m → at_.1 = body ∧ p.outcome = .ready (.ok ()) ∧ p.buf = bufs n) ∧
        (m < body.length → p.outcome = .ready (.error (capError "max_entry_bytes")) ∧ p.buf = bufs n ∧
          p.reader.failed = true)) := by
  constructor
  · intro bytes b hrun buf
    have h := Delivered.of_run hF howes hrun
    have h' := h.poll hF buf
    obtain ⟨s, hbody, -⟩ := h'.rest
    refine ⟨⟨s, hbody.symm⟩, h'.spent, h'.too_long, fun hf hf' => ?_, fun hf => poll_failed hf buf, hands_on, ?_⟩
    · obtain ⟨ho, hbuf, -⟩ := h.fails hF hf hf'
      exact ⟨ho, hbuf⟩
    · intro hroom ho hnil
      rw [hnil, List.append_nil]
      exact h.whole hroom ho hnil
  · intro P bufs hbufs
    obtain ⟨n, h, hf, hl⟩ := comes_to_last (m := m) P hF howes bufs hbufs
    refine ⟨n, fun hshort => ?_, fun hlong => ?_⟩
    · rcases hl with hf' | ⟨ho, hnil⟩
      · exact absurd (h.fails hF hf hf').2.2 (Nat.not_lt.mpr hshort)
      · exact ⟨(h.whole (hbufs n) ho hnil).1, ho, (Bounded.grows_poll _ _).eq_of_added_nil hnil⟩
    · rcases hl with hf' | ⟨ho, hnil⟩
      · obtain ⟨hpo, hbuf, -⟩ := h.fails hF hf hf'
        exact ⟨hpo, hbuf, hf'⟩
      · exact absurd (h.whole (hbufs n) ho hnil).2 (Nat.not_le.mpr hlong)

/-- Three bytes that come late, one at a time and with an interruption, under a cap of two. -/
theorem bounded_delivers_sample :
    let inner : Script IoError := ⟨[1, 2, 3], [.late, .give 0, .fail (.simple .interrupted), .give 0]⟩
    ∃ n, let at_ := after Bounded.poll (fun _ => .new 4) (Bounded.new inner 2) n
      let p := at_.2.poll (.new 4)
      p.outcome = .ready (.error (capError "max_entry_bytes")) ∧ p.buf = .new 4 ∧ p.reader.failed = true := by
  intro inner
  have howes : Script.feed.Owes inner [1, 2, 3] none := ⟨rfl, rfl⟩
  obtain ⟨n, -, h⟩ := (bounded_delivers Script.patient howes 2).2 Script.fair (fun _ => .new 4) (fun _ => by decide)
  exact ⟨n, h (by decide)⟩

end Etar.Limit.Bounded
