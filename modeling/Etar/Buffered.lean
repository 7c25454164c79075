import Etar.AsyncIo

/-!
# Bytes in hand in front of a reader

`Chain` replays bytes before a reader, `BufReader` reads ahead of its caller. Neither loses,
adds or reorders a byte: over a feed each owes its bytes in hand and then what the feed owes.
-/
namespace AsyncIo

variable {ε R : Type}

/-- A cursor chained in front of a reader; `first` is what the cursor has left. -/
structure Chain (R : Type) where
  first : List UInt8
  doneFirst : Bool
  second : R

/-- A buffered reader; `buffer` is read and not yet handed out. -/
structure BufReader (capacity : Nat) (R : Type) where
  inner : R
  buffer : List UInt8

def Chain.new (first : List UInt8) (second : R) : Chain R := ⟨first, false, second⟩

def BufReader.new (capacity : Nat) (inner : R) : BufReader capacity R := ⟨inner, []⟩

namespace Chain

variable [AsyncRead ε R]

def poll (c : Chain R) (buf : ReadBuf) : Polled ε (Chain R) :=
  if c.doneFirst = false ∧ c.first.take buf.remaining ≠ [] then
    ⟨.ready (.ok ()), buf.putSlice (c.first.take buf.remaining) (List.length_take_le ..),
      { c with first := c.first.drop buf.remaining }⟩
  else
    let p := pollRead c.second buf
    ⟨p.outcome, p.buf, { c with doneFirst := true, second := p.reader }⟩

instance : AsyncRead ε (Chain R) where
  pollRead := poll
  grows c buf := by
    unfold poll
    split
    · exact ⟨rfl, List.prefix_append _ _⟩
    · exact AsyncRead.grows c.second buf

/-- The bytes in hand. -/
def held (c : Chain R) : List UInt8 := if c.doneFirst then [] else c.first

/-- A poll with room hands out bytes in hand, or polls the reader when there are none. -/
theorem poll_cases (c : Chain R) {buf : ReadBuf} (hb : 0 < buf.remaining) :
    (∃ bytes h c', bytes ≠ [] ∧ c.held = bytes ++ c'.held ∧ c'.second = c.second ∧
        pollRead c buf = ⟨.ready (.ok ()), buf.putSlice bytes h, c'⟩) ∨
      (c.held = [] ∧ ∃ c', c'.held = [] ∧ c'.second = (pollRead c.second buf).reader ∧
        pollRead c buf = ⟨(pollRead c.second buf).outcome, (pollRead c.second buf).buf, c'⟩) := by
  show _ ∨ _ ∧ ∃ c', _ ∧ _ ∧ c.poll buf = _
  by_cases h : c.doneFirst = false ∧ c.first.take buf.remaining ≠ []
  · refine Or.inl ⟨_, List.length_take_le .., { c with first := c.first.drop buf.remaining }, h.2, ?_, rfl, if_pos h⟩
    simp [held, h.1]
  · refine Or.inr ⟨?_, { c with doneFirst := true, second := (pollRead c.second buf).reader }, rfl, rfl, if_neg h⟩
    simp only [held]
    split
    · rfl
    · rename_i hd
      have hnil : c.first.take buf.remaining = [] := by
        by_contra hne
        exact h ⟨by simpa using hd, hne⟩
      rcases List.take_eq_nil_iff.mp hnil with h0 | h0
      · omega
      · exact h0

def feed (F : Feed ε R) : Feed ε (Chain R) where
  Owes c s stop := ∃ s', s = c.held ++ s' ∧ F.Owes c.second s' stop
  pending {c s stop buf} hc hb ho := by
    obtain ⟨s', rfl, hin⟩ := hc
    rcases poll_cases c hb with ⟨bytes, h, c', hne, hheld, hsecond, hp⟩ | ⟨hnil, c', hheld, hsecond, hp⟩
    · rw [hp] at ho
      cases ho
    · rw [hp] at ho ⊢
      obtain ⟨hbuf, hin'⟩ := F.pending hin hb ho
      exact ⟨hbuf, s', by rw [hnil, hheld], by rw [hsecond]; exact hin'⟩
  chunk {c s stop buf} hc hb ho := by
    obtain ⟨s', rfl, hin⟩ := hc
    rcases poll_cases c hb with ⟨bytes, h, c', hne, hheld, hsecond, hp⟩ | ⟨hnil, c', hheld, hsecond, hp⟩
    · rw [hp]
      refine ⟨c'.held ++ s', by rw [hheld, ReadBuf.added_putSlice, List.append_assoc],
        ⟨s', rfl, by rw [hsecond]; exact hin⟩, ?_⟩
      rw [ReadBuf.added_putSlice]
      exact fun h => absurd h hne
    · rw [hp] at ho ⊢
      obtain ⟨s'', hs, hin', hend⟩ := F.chunk hin hb ho
      exact ⟨s'', by rw [hnil]; exact hs, ⟨s'', by rw [hheld]; rfl, by rw [hsecond]; exact hin'⟩, hend⟩
  fault {c s stop buf e} hc hb ho := by
    obtain ⟨s', rfl, hin⟩ := hc
    rcases poll_cases c hb with ⟨bytes, h, c', hne, hheld, hsecond, hp⟩ | ⟨hnil, c', hheld, hsecond, hp⟩
    · rw [hp] at ho
      cases ho
    · rw [hp] at ho ⊢
      rcases F.fault hin hb ho with ⟨hbuf, hin'⟩ | ⟨hstop, hs⟩
      · exact Or.inl ⟨hbuf, s', by rw [hnil, hheld], by rw [hsecond]; exact hin'⟩
      · exact Or.inr ⟨hstop, by rw [hnil]; exact hs⟩

variable {F : Feed ε R}

def fair (P : F.Fair) : (feed F).Fair where
  delay c := P.delay c.second
  pending {c s stop buf} hc hb ho := by
    obtain ⟨s', rfl, hin⟩ := hc
    rcases poll_cases c hb with ⟨bytes, h, c', hne, hheld, hsecond, hp⟩ | ⟨hnil, c', hheld, hsecond, hp⟩
    · rw [hp] at ho
      cases ho
    · rw [hp] at ho ⊢
      rw [hsecond]
      exact P.pending hin hb ho
  chunk {c s stop buf} hc hb ho := by
    obtain ⟨s', rfl, hin⟩ := hc
    rcases poll_cases c hb with ⟨bytes, h, c', hne, hheld, hsecond, hp⟩ | ⟨hnil, c', hheld, hsecond, hp⟩
    · rw [hp, hsecond]
    · rw [hp] at ho ⊢
      rw [hsecond]
      exact P.chunk hin hb ho
  fault {c s stop buf e} hc hb ho := by
    obtain ⟨s', rfl, hin⟩ := hc
    rcases poll_cases c hb with ⟨bytes, h, c', hne, hheld, hsecond, hp⟩ | ⟨hnil, c', hheld, hsecond, hp⟩
    · rw [hp] at ho
      cases ho
    · rw [hp] at ho ⊢
      rw [hsecond, hnil]
      exact P.fault hin hb ho

theorem faultless (hF : F.Faultless) : (feed F).Faultless := by
  constructor
  intro c s stop buf e hc hb ho
  obtain ⟨s', rfl, hin⟩ := hc
  rcases poll_cases c hb with ⟨bytes, h, c', hne, hheld, hsecond, hp⟩ | ⟨hnil, c', hheld, hsecond, hp⟩
  · rw [hp] at ho
    cases ho
  · rw [hp] at ho ⊢
    rw [hnil]
    exact hF.fault hin hb ho

end Chain

namespace BufReader

variable {capacity : Nat} [AsyncRead ε R]

/-- Hand out of the buffer what fits. -/
def serve (b : BufReader capacity R) (buf : ReadBuf) : Polled ε (BufReader capacity R) :=
  ⟨.ready (.ok ()), buf.putSlice (b.buffer.take buf.remaining) (List.length_take_le ..),
    { b with buffer := b.buffer.drop buf.remaining }⟩

def poll (b : BufReader capacity R) (buf : ReadBuf) : Polled ε (BufReader capacity R) :=
  if b.buffer = [] then
    if capacity ≤ buf.remaining then
      -- a read as large as the buffer goes past it
      let p := pollRead b.inner buf
      ⟨p.outcome, p.buf, { b with inner := p.reader }⟩
    else
      let p := pollRead b.inner (.new capacity)
      match p.outcome with
      | .ready (.ok ()) => serve ⟨p.reader, p.buf.filled⟩ buf
      | other => ⟨other, buf, { b with inner := p.reader }⟩
  else serve b buf

instance : AsyncRead ε (BufReader capacity R) where
  pollRead := poll
  grows b buf := by
    unfold poll
    split
    · split
      · exact AsyncRead.grows b.inner buf
      · dsimp only
        split
        · exact ⟨rfl, List.prefix_append _ _⟩
        · exact ReadBuf.Grows.refl buf
    · exact ⟨rfl, List.prefix_append _ _⟩

/-- `poll_fill_buf`: the bytes read ahead, after one read when there are none. -/
def fillBuf (b : BufReader capacity R) : Poll (Except ε (List UInt8)) × BufReader capacity R :=
  if b.buffer = [] then
    let p := pollRead b.inner (.new capacity)
    match p.outcome with
    | .pending => (.pending, { b with inner := p.reader })
    | .ready (.error e) => (.ready (.error e), { b with inner := p.reader })
    | .ready (.ok ()) => (.ready (.ok p.buf.filled), ⟨p.reader, p.buf.filled⟩)
  else (.ready (.ok b.buffer), b)

omit [AsyncRead ε R] in
def consume (b : BufReader capacity R) (n : Nat) : BufReader capacity R := { b with buffer := b.buffer.drop n }

/-- A consumer reads, looks at the bytes read ahead or takes some of them, in any order;
what it read and took is `bytes`. -/
inductive Uses (b : BufReader capacity R) : List UInt8 → BufReader capacity R → Prop where
  | start : Uses b [] b
  | read {bytes : List UInt8} {b' : BufReader capacity R} (h : Uses b bytes b') (buf : ReadBuf) :
      Uses b (bytes ++ buf.added (pollRead b' buf).buf) (pollRead b' buf).reader
  | look {bytes : List UInt8} {b' : BufReader capacity R} (h : Uses b bytes b') : Uses b bytes b'.fillBuf.2
  | take {bytes : List UInt8} {b' : BufReader capacity R} (h : Uses b bytes b') (n : Nat) :
      Uses b (bytes ++ b'.buffer.take n) (b'.consume n)

/-- A poll serves the buffer, passes it by, or fills it first. -/
inductive Polls (b : BufReader capacity R) (buf : ReadBuf) : Polled ε (BufReader capacity R) → Prop where
  | served (h : b.buffer ≠ []) : Polls b buf (serve b buf)
  | passed (h : b.buffer = []) : Polls b buf
      ⟨(pollRead b.inner buf).outcome, (pollRead b.inner buf).buf, { b with inner := (pollRead b.inner buf).reader }⟩
  | filled (h : b.buffer = []) (ho : (pollRead b.inner (.new capacity)).outcome = .ready (.ok ())) :
      Polls b buf (serve ⟨(pollRead b.inner (.new capacity)).reader, (pollRead b.inner (.new capacity)).buf.filled⟩ buf)
  | other (h : b.buffer = []) (ho : (pollRead b.inner (.new capacity)).outcome ≠ .ready (.ok ())) :
      Polls b buf ⟨(pollRead b.inner (.new capacity)).outcome, buf,
        { b with inner := (pollRead b.inner (.new capacity)).reader }⟩

theorem polls (b : BufReader capacity R) (buf : ReadBuf) : Polls b buf (pollRead b buf) := by
  show Polls b buf (b.poll buf)
  unfold poll
  split
  · rename_i h
    split
    · exact .passed h
    · dsimp only
      split
      · rename_i ho
        exact .filled h ho
      · rename_i ho
        exact .other h ho
  · rename_i h
    exact .served h

omit [AsyncRead ε R] in
theorem serve_spec (b : BufReader capacity R) {buf : ReadBuf} (hb : 0 < buf.remaining) :
    let p := (serve b buf : Polled ε _)
    b.buffer = buf.added p.buf ++ p.reader.buffer ∧ (buf.added p.buf = [] → b.buffer = []) := by
  simp only [serve, ReadBuf.added_putSlice, List.take_append_drop, true_and]
  intro h
  rcases List.take_eq_nil_iff.mp h with h0 | h0
  · omega
  · exact h0

variable (hcap : 0 < capacity)

/-- Only clean ends: what comes with an error into the buffer is dropped. -/
def feed (F : Feed ε R) : Feed ε (BufReader capacity R) where
  Owes b s stop := stop = none ∧ ∃ s', s = b.buffer ++ s' ∧ F.Owes b.inner s' none
  pending {b s stop buf} hr hb ho := by
    obtain ⟨rfl, s', rfl, hin⟩ := hr
    have hroom : 0 < (ReadBuf.new capacity).remaining := hcap
    have hp := polls b buf
    generalize pollRead b buf = p at hp ho
    cases hp with
    | served h => cases ho
    | passed h =>
      obtain ⟨hbuf, hin'⟩ := F.pending hin hb ho
      exact ⟨hbuf, rfl, s', rfl, hin'⟩
    | filled h hok => cases ho
    | other h hnot => exact ⟨rfl, rfl, s', rfl, (F.pending hin hroom ho).2⟩
  chunk {b s stop buf} hr hb ho := by
    obtain ⟨rfl, s', rfl, hin⟩ := hr
    have hroom : 0 < (ReadBuf.new capacity).remaining := hcap
    have hp := polls b buf
    generalize pollRead b buf = p at hp ho
    cases hp with
    | served h =>
      obtain ⟨hs, hnil⟩ := serve_spec b hb
      refine ⟨_, ?_, ⟨rfl, s', rfl, hin⟩, fun h' => absurd (hnil h') h⟩
      rw [← List.append_assoc, ← hs]
    | passed h =>
      obtain ⟨s'', hs, hin', hend⟩ := F.chunk hin hb ho
      exact ⟨s'', by rw [h]; exact hs, ⟨rfl, s'', by rw [h]; rfl, hin'⟩, hend⟩
    | filled h hok =>
      obtain ⟨s'', hs, hin', hend⟩ := F.chunk hin hroom hok
      rw [ReadBuf.added_new] at hs hend
      obtain ⟨hserve, hnil⟩ := serve_spec
        (⟨(pollRead b.inner (.new capacity)).reader, (pollRead b.inner (.new capacity)).buf.filled⟩ :
          BufReader capacity R) hb
      refine ⟨_, ?_, ⟨rfl, s'', rfl, hin'⟩, ?_⟩
      · rw [← List.append_assoc, ← hserve, h, hs]
        rfl
      · intro h'
        have hfill := hnil h'
        rw [hfill, h'] at hserve
        obtain ⟨rfl, -⟩ := hend hfill
        exact ⟨by rw [List.nil_append] at hserve; rw [← hserve]; rfl, rfl⟩
    | other h hnot => exact absurd ho hnot
  fault {b s stop buf e} hr hb ho := by
    obtain ⟨rfl, s', rfl, hin⟩ := hr
    have hroom : 0 < (ReadBuf.new capacity).remaining := hcap
    have hp := polls b buf
    generalize pollRead b buf = p at hp ho
    cases hp with
    | served h => cases ho
    | passed h =>
      obtain ⟨hbuf, hin'⟩ := F.fault_clean hin hb ho
      exact Or.inl ⟨hbuf, rfl, s', rfl, hin'⟩
    | filled h hok => cases ho
    | other h hnot => exact Or.inl ⟨rfl, rfl, s', rfl, (F.fault_clean hin hroom ho).2⟩

variable {F : Feed ε R} {hcap}

/-- The inner reader always gets room. -/
theorem patient : (feed hcap F).Patient := by
  rintro b s stop buf ⟨rfl, s', rfl, hin⟩ hb
  have hroom : 0 < (ReadBuf.new capacity).remaining := hcap
  have hserve : ∀ b : BufReader capacity R, (serve b buf : Polled ε _).reader = b := by
    intro b
    simp only [serve, hb, List.drop_zero]
  show (feed hcap F).Owes (b.poll buf).reader _ none
  unfold poll
  split
  · rename_i hnil
    rw [if_neg (by omega)]
    dsimp only
    split
    · rename_i ho
      obtain ⟨s'', hs, hin', -⟩ := F.chunk hin hroom ho
      rw [hserve, hnil]
      exact ⟨rfl, s'', hs, hin'⟩
    · rename_i hnot
      cases ho : (pollRead b.inner (.new capacity)).outcome with
      | pending => exact ⟨rfl, s', rfl, (F.pending hin hroom ho).2⟩
      | ready res =>
        cases res with
        | ok => exact absurd ho hnot
        | error e => exact ⟨rfl, s', rfl, (F.fault_clean hin hroom ho).2⟩
  · rw [hserve]
    exact ⟨rfl, s', rfl, hin⟩

/-- Looking ahead loses nothing, and shows no bytes only at the end. -/
theorem owes_fillBuf {b : BufReader capacity R} {s : List UInt8} (h : (feed hcap F).Owes b s none) :
    (feed hcap F).Owes b.fillBuf.2 s none ∧ ((b.fillBuf : Poll (Except ε _) × _).1 = .ready (.ok []) → s = []) := by
  obtain ⟨-, s', rfl, hin⟩ := h
  have hroom : 0 < (ReadBuf.new capacity).remaining := hcap
  by_cases hnil : b.buffer = []
  · unfold fillBuf
    rw [if_pos hnil]
    dsimp only
    split
    · rename_i ho
      exact ⟨⟨rfl, s', rfl, (F.pending hin hroom ho).2⟩, fun h => nomatch h⟩
    · rename_i e ho
      exact ⟨⟨rfl, s', rfl, (F.fault_clean hin hroom ho).2⟩, fun h => nomatch h⟩
    · rename_i ho
      obtain ⟨s'', hs, hin', hend⟩ := F.chunk hin hroom ho
      rw [hnil, List.nil_append]
      refine ⟨⟨rfl, s'', hs, hin'⟩, fun h => ?_⟩
      have hfilled : (pollRead b.inner (.new capacity)).buf.filled = [] := by
        simpa using h
      rw [hs, (hend hfilled).1, ReadBuf.added_new, hfilled, List.append_nil]
  · rw [fillBuf, if_neg hnil]
    exact ⟨⟨rfl, s', rfl, hin⟩, fun h => absurd (by simpa using h) hnil⟩

/-- However it is consumed, a buffered feed hands out what it owes, in order. -/
theorem Uses.owes {b b' : BufReader capacity R} {bytes s : List UInt8} (h : Uses b bytes b')
    (hb : (feed hcap F).Owes b s none) : ∃ s', s = bytes ++ s' ∧ (feed hcap F).Owes b' s' none := by
  induction h with
  | start => exact ⟨s, rfl, hb⟩
  | read _ buf ih =>
    obtain ⟨s', rfl, howes⟩ := ih
    obtain ⟨s'', rfl, howes'⟩ := patient.poll howes buf
    exact ⟨s'', (List.append_assoc ..).symm, howes'⟩
  | look _ ih =>
    obtain ⟨s', hs, howes⟩ := ih
    exact ⟨s', hs, (owes_fillBuf howes).1⟩
  | @take bytes b' _ n ih =>
    obtain ⟨s', rfl, -, s'', rfl, hin⟩ := ih
    refine ⟨b'.buffer.drop n ++ s'', ?_, rfl, s'', rfl, hin⟩
    rw [List.append_assoc, ← List.append_assoc (b'.buffer.take n), List.take_append_drop]

variable {F : Feed ε R} (hcap : 0 < capacity)

def fair (P : F.Fair) : (feed hcap F).Fair where
  delay b := P.delay b.inner
  pending {b s stop buf} hr hb ho := by
    obtain ⟨rfl, s', rfl, hin⟩ := hr
    have hroom : 0 < (ReadBuf.new capacity).remaining := hcap
    have hp := polls b buf
    generalize pollRead b buf = p at hp ho
    cases hp with
    | served h => cases ho
    | passed h => exact P.pending hin hb ho
    | filled h hok => cases ho
    | other h hnot => exact P.pending hin hroom ho
  chunk {b s stop buf} hr hb ho := by
    obtain ⟨rfl, s', rfl, hin⟩ := hr
    have hroom : 0 < (ReadBuf.new capacity).remaining := hcap
    have hp := polls b buf
    generalize pollRead b buf = p at hp ho
    cases hp with
    | served h => exact le_refl _
    | passed h => exact P.chunk hin hb ho
    | filled h hok => exact P.chunk hin hroom hok
    | other h hnot => exact absurd ho hnot
  fault {b s stop buf e} hr hb ho := by
    obtain ⟨rfl, s', rfl, hin⟩ := hr
    have hroom : 0 < (ReadBuf.new capacity).remaining := hcap
    have hp := polls b buf
    generalize pollRead b buf = p at hp ho
    cases hp with
    | served h => cases ho
    | passed h =>
      rcases P.fault hin hb ho with hlt | ⟨hstop, -⟩
      · exact Or.inl hlt
      · cases hstop
    | filled h hok => cases ho
    | other h hnot =>
      rcases P.fault hin hroom ho with hlt | ⟨hstop, -⟩
      · exact Or.inl hlt
      · cases hstop

theorem faultless (hF : F.Faultless) : (feed hcap F).Faultless := by
  constructor
  intro b s stop buf e hr hb ho
  obtain ⟨rfl, s', rfl, hin⟩ := hr
  have hroom : 0 < (ReadBuf.new capacity).remaining := hcap
  have hp := polls b buf
  generalize pollRead b buf = p at hp ho
  cases hp with
  | served h => cases ho
  | passed h => cases (hF.fault hin hb ho).1
  | filled h hok => cases ho
  | other h hnot => cases (hF.fault hin hroom ho).1

end BufReader

end AsyncIo
