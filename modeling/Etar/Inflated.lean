import Etar.Ending

/-!
# What is decoded ahead of the source

The ratio sets what was decoded against what was counted by then, and so depends on how much of
its source a decoder has when it hands out its bytes. Where every poll that hands out bytes comes
with enough counted, a good archive validates; where every one comes with too little, it is refused
for the ratio. Over one stream a decoder can do both, as its bytes arrive.
-/
namespace Etar

open AsyncIo Limit Compress Guard

section Paces

variable {D : Type} [AsyncRead IoError D] {count : D → Nat} {low high n : Nat} {d : D}

/-- However `d` is polled, it hands out `n` bytes at most, and a poll that hands out bytes leaves
from `low` to `high` counted. -/
def Counts (count : D → Nat) (low high n : Nat) (d : D) : Prop :=
  ∀ bytes d' buf, Run pollRead Cap.anyPoll d bytes d' →
    (bytes ++ buf.added (pollRead d' buf).buf).length ≤ n ∧
      (buf.added (pollRead d' buf).buf ≠ [] →
        low ≤ count (pollRead d' buf).reader ∧ count (pollRead d' buf).reader ≤ high)

theorem Counts.few (h : Counts count low high n d) (hn : n < 2 ^ 64) : Cap.Few d := by
  intro bytes d' hrun
  have hle := (h bytes d' (.new 0) hrun).1
  rw [List.length_append] at hle
  omega

/-- With enough counted at every poll the cap is never broken. -/
theorem Counts.noTrip (h : Counts count low high n d) {max maxRatio : Nat} (hmax : n ≤ max)
    (hratio : n ≤ saturatingMul low maxRatio) : (Cap.new d max maxRatio : Cap count).NoTrip := by
  intro bytes d' buf hrun hne
  obtain ⟨hle, hcount⟩ := h bytes d' buf hrun
  rw [List.length_append] at hle
  refine Cap.broken_eq_none.mpr ⟨?_, fun _ _ => ?_⟩
  · simp only [Cap.new]
    omega
  · have hmono : saturatingMul low maxRatio ≤ saturatingMul (count (pollRead d' buf).reader) maxRatio :=
      min_le_min_right _ (Nat.mul_le_mul_right _ (hcount hne).1)
    simp only [Cap.new] at hmono ⊢
    omega

/-- With too little counted at every poll no more is released than the floor or the ratio admits. -/
theorem Counts.released (h : Counts count low high n d) (hn : n < 2 ^ 64) (hlow : 0 < low) {max maxRatio : Nat}
    {bytes : List UInt8} {c : Cap count} (hrun : Run Cap.poll Cap.anyPoll (Cap.new d max maxRatio) bytes c) :
    bytes.length ≤ ratioFloorBytes ∨ bytes.length ≤ high * maxRatio := by
  have hfew := h.few hn
  induction hrun with
  | start => exact Or.inl (Nat.zero_le _)
  | @poll c bytes buf hrun ho ih =>
    have hreleased := Cap.Released.of_run hfew hrun
    by_cases hf : c.failed = true
    · rwa [Cap.poll_failed hf, ReadBuf.added_self, List.append_nil]
    have hf := eq_false_of_ne_true hf
    rcases Cap.poll_cases hf buf (hreleased.pulled_lt hfew hf buf) with ⟨which, -, -, hp⟩ | ⟨hb, hp⟩
    · rwa [hp, ReadBuf.added_self, List.append_nil]
    · rw [hp]
      by_cases hnil : buf.added (pollRead c.inner buf).buf = []
      · rwa [hnil, List.append_nil]
      · obtain ⟨htotal, hinner⟩ := hreleased.charged hf
        have hcount := (h bytes c.inner buf hinner).2 hnil
        have hratio := (Cap.broken_eq_none.mp (hb hnil)).2
        rw [htotal, hreleased.maxRatio_eq, ← List.length_append] at hratio
        refine (Nat.lt_or_ge ratioFloorBytes _).symm.imp id fun hfloor => ?_
        have hle := (hratio hfloor (hlow.trans_le hcount.1)).trans (Nat.min_le_left _ _)
        exact hle.trans (Nat.mul_le_mul_right _ hcount.2)

variable {T : Tar} {H : HeaderFields} {F : TarFormat H} (fr : T.Frames F) {K : Feed IoError D} {bytes : List UInt8}
variable {stop : Option IoError} {limits : SecurityLimits} {r : Reader T (Source H count)}

include fr in
/-- Such a stream, if it is longer than that, is not accepted. -/
theorem Counts.not_accepted (h : Counts count low high bytes.length d) (hhushed : K.Hushed stop)
    (howes : K.Owes d bytes stop) (hn : bytes.length < 2 ^ 64) (hlow : 0 < low) (hfloor : ratioFloorBytes < bytes.length)
    (hratio : high * limits.maxCompressionRatio.toNat < bytes.length) (hstart : Reader.over T d limits = .ok r)
    (polls : Nat) (report : ValidationReport) : r.validateFrom H polls 0 ≠ .done (.ok report) := by
  intro hres
  let start : Cap count := .new d limits.maxTotalBytes.toNat limits.maxCompressionRatio.toNat
  -- The feed of the cap, of which it is known how it was polled.
  let C : Feed IoError (Cap count) := (Cap.charging K hn limits.maxTotalBytes.toNat).refine
    (fun c _ => ∃ out, Run Cap.poll Cap.anyPoll start out c) fun _ _ _ ⟨out, hrun⟩ => ⟨_, hrun.poll _ trivial⟩
  have hC : C.Hushed stop := fun h => Cap.hushed_charging hhushed hn _ h.1
  have hstarted : C.Owes start bytes stop := ⟨Cap.owes_charging howes hn _ _, [], .start _⟩
  obtain ⟨s, hon⟩ := on_over fr hC hstarted hstart
  have hv := validated (H := H) polls 0 0 hon
  rw [Reader.validating_eq H polls 0 0 r] at hres
  obtain ⟨-, -, -, -, -, -, -, hend⟩ := clean_of_validated hstart hv hres
  obtain ⟨c, rest, hc, heof⟩ := HeaderGuard.sourceEnd hend
  obtain ⟨-, hf, -⟩ := Cap.eofSince heof
  obtain ⟨⟨-, hcharged⟩, out, hrun⟩ := C.eofSince heof hc
  have htotal := hcharged.total_eq hf
  have hout := ((Cap.Released.of_run (h.few hn) hrun).charged hf).1
  have hle := h.released hn hlow hrun
  rw [List.length_nil] at htotal
  omega

end Paces

section Validations

variable {T : Tar} {H : HeaderFields} {F : TarFormat H} (fr : T.Frames F) (hon : fr.Honest) (hT : T.Reports)
variable {R : Type} [AsyncRead IoError R] {dec : Decoder (Replay R)} {decode : List UInt8 → List UInt8 × Option IoError}
variable {S : Feed IoError R} (hC : dec.Computes decode S) (hend : dec.ReadsToEnd) (P : S.Fair) (hS : S.Faultless)
variable {source : R} {z : List UInt8} (howes : S.Owes source z none) {bytes : List UInt8}
variable (hcontents : contents decode z = (bytes, none)) (hn : bytes.length < 2 ^ 64) {low high : Nat}
variable (hcounts : ∀ polls (d : Decoded dec), decoded dec polls (.new source) = .done (.ok d) →
  Counts Decoded.count low high bytes.length d)
variable {limits : SecurityLimits} (htotal : bytes.length ≤ limits.maxTotalBytes.toNat)

include fr hC P hS howes hcontents hcounts htotal in
/-- A good archive validates if enough is counted at every poll. -/
theorem archive_validates {recs trailer : List UInt8} {items : List Item}
    (harch : Archive F limits bytes recs items trailer) (hlen : ∀ i ∈ items, i.len ≤ limits.maxEntryBytes.toNat)
    (hz : ZeroTrailer trailer) (hratio : bytes.length ≤ saturatingMul low limits.maxCompressionRatio.toNat) :
    ∃ N, ∀ polls, N ≤ polls → ∃ report, Reader.validate H T dec polls source limits = .done (.ok report) := by
  obtain ⟨N, d, r, hr, hsettled⟩ : ∃ (N : Nat) (d : Decoded dec) (r : Opened T H dec),
      Reader.over T d limits = .ok r ∧ ∀ polls, N ≤ polls →
        decoded dec polls (.new source) = .done (.ok d) ∧ Reader.open T dec polls source limits = .done (.ok r) :=
    open_settles fr P hS howes limits
  obtain ⟨hd, -⟩ := hsettled N (Nat.le_refl N)
  obtain ⟨b, hb⟩ := sniffed hd
  have hdecoded := (hb (G := Meter.feed S) ⟨none, rfl, howes⟩).decodes hC
  rw [hcontents] at hdecoded
  have hsupplies : Supplies hC.decoded Decoded.count limits d bytes :=
    ⟨hdecoded, (hcounts N d hd).noTrip htotal hratio⟩
  obtain ⟨N', hN'⟩ := validation_of_archive fr (Decoded.fair (replayFair P) (hC.fair P hS))
    (Decoded.faultless (replayFeed_faultless hS) (hC.faultless hS)) hsupplies hr harch hlen
  refine ⟨max N N', fun polls hpolls => ?_⟩
  obtain ⟨report, hreport⟩ := (hN' polls (by omega)).1 hz
  refine ⟨report, ?_⟩
  unfold Reader.validate
  rw [(hsettled polls (by omega)).2]
  exact hreport

include fr hon hT hC hend P hS howes hcontents hn hcounts htotal in
/-- A stream that would be accepted is refused for the ratio if too little is counted at every poll. -/
theorem ratio_refuses (hz : z.length < 2 ^ 64) {entries : Nat} (hjudge : judge F limits bytes none = .ok entries)
    (hlow : 0 < low) (hfloor : ratioFloorBytes < bytes.length)
    (hratio : high * limits.maxCompressionRatio.toNat < bytes.length) :
    ∃ N, ∀ polls, N ≤ polls →
      Reader.validate H T dec polls source limits = .done (.error (.limitExceeded "max_compression_ratio")) := by
  have hD : (contents decode z).1.length < 2 ^ 64 := by rwa [hcontents]
  obtain ⟨N, hN⟩ := validation_decides fr hon hT hC hend P hS howes hz hD limits
  refine ⟨N, fun polls hpolls => ?_⟩
  obtain ⟨res, hres, hjudged, -⟩ := hN polls hpolls
  rw [hres]
  rw [hcontents] at hjudged
  cases res with
  | ok report =>
    rcases validate_done hres with ⟨e, he, -⟩ | ⟨r, hr, hanswer⟩
    · cases he
    · obtain ⟨d, hd, hstart⟩ := open_ok hr
      obtain ⟨b, hb⟩ := sniffed hd
      have hdecoded := (hb (G := Meter.feed S) ⟨none, rfl, howes⟩).decodes hC
      rw [hcontents] at hdecoded
      rw [← Reader.validating_eq H polls 0 0 r] at hanswer
      exact absurd hanswer ((hcounts polls d hd).not_accepted fr (hC.hushed_decoded none) hdecoded hn hlow hfloor hratio
        hstart polls report)
  | error e =>
    rcases hjudged with hverdict | ⟨hlt, -⟩ | ⟨-, rfl⟩
    · rw [hjudge] at hverdict
      cases hverdict
    · exact absurd htotal (Nat.not_le.mpr hlt)
    · rfl

end Validations

/-- A decoder of one short frame with the content `rest`, and of bytes to be skipped behind it: when
it has more than four bytes it hands out the content, and then it reads its source to the end. -/
structure Eager (X : Type) where
  inner : X
  seen : Nat
  rest : List UInt8

namespace Eager

variable {X : Type}

/-- Hand out of the content what fits. -/
def give (u : Eager X) (buf : ReadBuf) : Polled IoError (Eager X) :=
  ⟨.ready (.ok ()), buf.putSlice (u.rest.take buf.remaining) (List.length_take_le ..),
    { u with rest := u.rest.drop buf.remaining }⟩

variable [AsyncRead IoError X]

def poll (u : Eager X) (buf : ReadBuf) : Polled IoError (Eager X) :=
  if 4 < u.seen ∧ u.rest ≠ [] then u.give buf
  else
    let p := pollRead u.inner (.new 8192)
    match p.outcome with
    | .ready (.ok ()) =>
      if p.buf.filled = [] then give { u with inner := p.reader } buf
      else ⟨.pending, buf, { u with inner := p.reader, seen := u.seen + p.buf.filled.length }⟩
    | other => ⟨other, buf, { u with inner := p.reader }⟩

instance : AsyncRead IoError (Eager X) where
  pollRead := poll
  grows u buf := by
    unfold poll
    split
    · exact ⟨rfl, List.prefix_append _ _⟩
    · dsimp only
      split
      · split
        · exact ⟨rfl, List.prefix_append _ _⟩
        · exact ReadBuf.Grows.refl buf
      · exact ReadBuf.Grows.refl buf

/-- One poll: the content, or a poll of the source. -/
inductive Polls (u : Eager X) (buf : ReadBuf) : Polled IoError (Eager X) → Prop where
  | gave (hseen : 4 < u.seen) (hne : u.rest ≠ []) : Polls u buf (u.give buf)
  | took (h : ¬ (4 < u.seen ∧ u.rest ≠ [])) (ho : (pollRead u.inner (.new 8192)).outcome = .ready (.ok ()))
      (hne : (pollRead u.inner (.new 8192)).buf.filled ≠ []) :
      Polls u buf ⟨.pending, buf, ⟨(pollRead u.inner (.new 8192)).reader,
        u.seen + (pollRead u.inner (.new 8192)).buf.filled.length, u.rest⟩⟩
  | ended (h : ¬ (4 < u.seen ∧ u.rest ≠ [])) (ho : (pollRead u.inner (.new 8192)).outcome = .ready (.ok ()))
      (hnil : (pollRead u.inner (.new 8192)).buf.filled = []) :
      Polls u buf (give ⟨(pollRead u.inner (.new 8192)).reader, u.seen, u.rest⟩ buf)
  | other (h : ¬ (4 < u.seen ∧ u.rest ≠ [])) (ho : (pollRead u.inner (.new 8192)).outcome ≠ .ready (.ok ())) :
      Polls u buf ⟨(pollRead u.inner (.new 8192)).outcome, buf, ⟨(pollRead u.inner (.new 8192)).reader, u.seen, u.rest⟩⟩

theorem polls (u : Eager X) (buf : ReadBuf) : Polls u buf (pollRead u buf) := by
  show Polls u buf (poll u buf)
  unfold poll
  split
  · rename_i h
    exact .gave h.1 h.2
  · rename_i h
    dsimp only
    split
    · rename_i ho
      split
      · rename_i hnil
        exact .ended h ho hnil
      · rename_i hne
        exact .took h ho hne
    · rename_i ho
      exact .other h ho

omit [AsyncRead IoError X] in
theorem give_spec (u : Eager X) (buf : ReadBuf) :
    u.rest = buf.added (u.give buf).buf ++ (u.give buf).reader.rest ∧
      (0 < buf.remaining → buf.added (u.give buf).buf = [] → u.rest = [] ∧ (u.give buf).reader.rest = []) := by
  simp only [give, ReadBuf.added_putSlice, List.take_append_drop, true_and]
  intro hb h
  rcases List.take_eq_nil_iff.mp h with h0 | h0
  · omega
  · exact ⟨h0, by rw [h0, List.drop_nil]⟩

theorem room : 0 < (ReadBuf.new 8192).remaining := by decide

variable (K : Feed IoError X)

/-- Over any source that ends without an error the decoder owes its content. -/
def feed : Feed IoError (Eager X) where
  Owes u s stop := u.rest = s ∧ stop = none ∧ ∃ z, K.Owes u.inner z none
  pending {u s stop buf} h hb ho := by
    obtain ⟨rfl, rfl, z, hin⟩ := h
    have hp := polls u buf
    generalize pollRead u buf = p at hp ho
    cases hp with
    | gave _ _ => cases ho
    | ended _ _ _ => cases ho
    | took _ hok _ =>
      obtain ⟨z', -, hin', -⟩ := K.chunk hin room hok
      exact ⟨rfl, rfl, rfl, z', hin'⟩
    | other _ _ => exact ⟨rfl, rfl, rfl, z, (K.pending hin room ho).2⟩
  chunk {u s stop buf} h hb ho := by
    obtain ⟨rfl, rfl, z, hin⟩ := h
    have hp := polls u buf
    generalize pollRead u buf = p at hp ho
    cases hp with
    | took _ _ _ => cases ho
    | other _ hnot => exact absurd ho hnot
    | gave _ hne =>
      obtain ⟨hs, hnil⟩ := u.give_spec buf
      exact ⟨_, hs, ⟨rfl, rfl, z, hin⟩, fun h => absurd (hnil hb h).1 hne⟩
    | ended _ hok _ =>
      obtain ⟨z', -, hin', -⟩ := K.chunk hin room hok
      obtain ⟨hs, hnil⟩ := give_spec ⟨(pollRead u.inner (.new 8192)).reader, u.seen, u.rest⟩ buf
      exact ⟨_, hs, ⟨rfl, rfl, z', hin'⟩, fun h => ⟨(hnil hb h).2, rfl⟩⟩
  fault {u s stop buf e} h hb ho := by
    obtain ⟨rfl, rfl, z, hin⟩ := h
    have hp := polls u buf
    generalize pollRead u buf = p at hp ho
    cases hp with
    | gave _ _ => cases ho
    | ended _ _ _ => cases ho
    | took _ _ _ => cases ho
    | other _ _ => exact Or.inl ⟨rfl, rfl, rfl, z, (K.fault_clean hin room ho).2⟩

variable {K}

theorem hushed (stop : Option IoError) : (feed K).Hushed stop := by
  intro u s buf e h hb ho
  have hp := polls u buf
  generalize pollRead u buf = p at hp ho ⊢
  cases hp with
  | gave _ _ => cases ho
  | ended _ _ _ => cases ho
  | took _ _ _ => cases ho
  | other _ _ => rfl

theorem faultless (hK : K.Faultless) : (feed K).Faultless := by
  constructor
  intro u s stop buf e h hb ho
  obtain ⟨rfl, rfl, z, hin⟩ := h
  have hp := polls u buf
  generalize pollRead u buf = p at hp ho
  cases hp with
  | gave _ _ => cases ho
  | ended _ _ _ => cases ho
  | took _ _ _ => cases ho
  | other _ _ => cases (hK.fault hin room ho).1

/-- It is late as often as its source, and once for each of its reads. -/
noncomputable def fair (P : K.Fair) (hK : K.Faultless) : (feed K).Fair where
  delay u := P.delay u.inner + RawZstd.Unpacking.still K u.inner
  pending {u s stop buf} h hb ho := by
    obtain ⟨rfl, rfl, z, hin⟩ := h
    obtain ⟨z₀, hin₀, hlen⟩ := RawZstd.Unpacking.still_attained hin
    have hp := polls u buf
    generalize pollRead u buf = p at hp ho
    cases hp with
    | gave _ _ => cases ho
    | ended _ _ _ => cases ho
    | took _ hok hne =>
      obtain ⟨z', hz, hin', -⟩ := K.chunk hin₀ room hok
      rw [ReadBuf.added_new] at hz
      have hpos := List.length_pos_iff.mpr hne
      have hle := RawZstd.Unpacking.still_le hin'
      have hdelay := P.chunk hin room hok
      have hsum := congrArg List.length hz
      rw [List.length_append] at hsum
      dsimp only
      omega
    | other _ hnot =>
      have hlt := P.pending hin room ho
      have hle := RawZstd.Unpacking.still_le (K.pending hin₀ room ho).2
      dsimp only
      omega
  chunk {u s stop buf} h hb ho := by
    obtain ⟨rfl, rfl, z, hin⟩ := h
    obtain ⟨z₀, hin₀, hlen⟩ := RawZstd.Unpacking.still_attained hin
    have hp := polls u buf
    generalize pollRead u buf = p at hp ho
    cases hp with
    | took _ _ _ => cases ho
    | other _ hnot => exact absurd ho hnot
    | gave _ _ => exact le_refl _
    | ended _ hok _ =>
      obtain ⟨z', hz, hin', -⟩ := K.chunk hin₀ room hok
      have hle := RawZstd.Unpacking.still_le hin'
      have hdelay := P.chunk hin room hok
      have hsum := congrArg List.length hz
      rw [List.length_append] at hsum
      simp only [give]
      omega
  fault h hb ho := Or.inr ((faultless hK).fault h hb ho)

/-- Every end reported of the source since is one since the start. -/
theorem eofSince_handed {inner : X} {rest bytes : List UInt8} {u : Eager X} (h : Handed ⟨inner, 0, rest⟩ bytes u) :
    ∀ x, EofSince u.inner x → EofSince inner x := by
  have hpoll : ∀ (u : Eager X) buf, (∀ x, EofSince u.inner x → EofSince inner x) →
      ∀ x, EofSince (pollRead u buf).reader.inner x → EofSince inner x := by
    intro u buf ih
    have hp := polls u buf
    generalize pollRead u buf = p at hp
    cases hp with
    | gave _ _ => exact ih
    | took _ _ _ => exact fun x hx => ih x (.later _ room hx)
    | ended _ _ _ => exact fun x hx => ih x (.later _ room hx)
    | other _ _ => exact fun x hx => ih x (.later _ room hx)
  induction h with
  | start => exact fun _ => id
  | idle _ buf _ _ ih => exact hpoll _ buf ih
  | chunk _ buf _ _ ih => exact hpoll _ buf ih

/-- Its own end comes after its source's. -/
theorem eofSince_ended {inner : X} {rest bytes : List UInt8} {u : Eager X} (h : Ended ⟨inner, 0, rest⟩ bytes u) :
    EofSince inner u.inner := by
  obtain ⟨u, buf, h, hb, ho, hnil, rfl⟩ := h
  have hsince := eofSince_handed h
  have hp := polls u buf
  generalize pollRead u buf = p at hp ho hnil
  cases hp with
  | took _ _ _ => cases ho
  | other _ hnot => exact absurd ho hnot
  | gave _ hne => exact absurd ((u.give_spec buf).2 hb hnil).1 hne
  | ended _ hok hend => exact hsince _ (.of_nil room hok hend)

/-- A read of `x` hands out `k` bytes and leaves `x'`. -/
structure Serves (x : X) (k : Nat) (x' : X) : Prop where
  outcome : (pollRead x (.new 8192)).outcome = .ready (.ok ())
  length : (pollRead x (.new 8192)).buf.filled.length = k
  reader : (pollRead x (.new 8192)).reader = x'

/-- How far a decoder is whose source is `b`, then `b₁` and then `b₂`. -/
inductive Fed (b b₁ b₂ : X) : Eager X → Prop where
  | start (rest : List UInt8) : Fed b b₁ b₂ ⟨b, 0, rest⟩
  | first (rest : List UInt8) : Fed b b₁ b₂ ⟨b₁, 4, rest⟩
  | full (rest : List UInt8) {seen : Nat} (h : 4 < seen) : Fed b b₁ b₂ ⟨b₂, seen, rest⟩
  | spent (inner : X) (seen : Nat) : Fed b b₁ b₂ ⟨inner, seen, []⟩

section Feeding

variable {b b₁ b₂ : X} {k : Nat} (h₁ : Serves b 4 b₁) (h₂ : Serves b₁ (k + 1) b₂)

omit [AsyncRead IoError X] in
theorem Fed.inner_eq {u : Eager X} (h : Fed b b₁ b₂ u) (hseen : 4 < u.seen) (hne : u.rest ≠ []) : u.inner = b₂ := by
  cases h with
  | start rest => exact absurd hseen (Nat.not_lt_zero 4)
  | first rest => exact absurd hseen (Nat.lt_irrefl 4)
  | full rest h => rfl
  | spent inner seen => exact absurd rfl hne

include h₁ h₂

/-- When a read of the source brings nothing, all content was handed out. -/
theorem Fed.drained {u : Eager X} (h : Fed b b₁ b₂ u) (hnot : ¬ (4 < u.seen ∧ u.rest ≠ []))
    (hread : (pollRead u.inner (.new 8192)).outcome = .ready (.ok ()) → (pollRead u.inner (.new 8192)).buf.filled = []) :
    u.rest = [] := by
  cases h with
  | start rest =>
    have hlen := h₁.length
    rw [hread h₁.outcome] at hlen
    cases hlen
  | first rest =>
    have hlen := h₂.length
    rw [hread h₂.outcome] at hlen
    cases hlen
  | full rest h =>
    by_contra hrest
    exact hnot ⟨h, hrest⟩
  | spent inner seen => rfl

/-- All content is handed out over `b₂`. -/
theorem Fed.poll {u : Eager X} (h : Fed b b₁ b₂ u) (buf : ReadBuf) :
    Fed b b₁ b₂ (pollRead u buf).reader ∧ u.rest = buf.added (pollRead u buf).buf ++ (pollRead u buf).reader.rest ∧
      (buf.added (pollRead u buf).buf ≠ [] → (pollRead u buf).reader.inner = b₂) := by
  have hp := polls u buf
  generalize pollRead u buf = p at hp
  cases hp with
  | gave hseen hne =>
    have hinner := h.inner_eq hseen hne
    refine ⟨?_, (u.give_spec buf).1, fun _ => hinner⟩
    simp only [give, hinner]
    exact .full _ hseen
  | took hnot hok hne =>
    refine ⟨?_, by rw [ReadBuf.added_self]; rfl, fun h => absurd (ReadBuf.added_self buf) h⟩
    cases h with
    | start rest =>
      dsimp only
      rw [h₁.length, h₁.reader]
      exact .first rest
    | first rest =>
      dsimp only
      rw [h₂.length, h₂.reader]
      exact .full rest (by omega)
    | full rest h =>
      obtain rfl : rest = [] := by
        by_contra hrest
        exact hnot ⟨h, hrest⟩
      exact .spent _ _
    | spent inner seen => exact .spent _ _
  | ended hnot hok hnil =>
    have hrest := h.drained h₁ h₂ hnot fun _ => hnil
    simp only [give, hrest, List.take_nil, List.drop_nil, ReadBuf.added_putSlice, List.append_nil, ne_eq, not_true_eq_false,
      false_implies, and_true]
    exact .spent _ _
  | other hnot ho =>
    have hrest := h.drained h₁ h₂ hnot fun hok => absurd hok ho
    refine ⟨?_, by rw [ReadBuf.added_self]; rfl, fun h => absurd (ReadBuf.added_self buf) h⟩
    rw [hrest]
    exact .spent _ _

/-- So as much is counted at every poll with bytes as there is in `b₂`. -/
theorem counts (count : X → Nat) (content : List UInt8) :
    Counts (fun u : Eager X => count u.inner) (count b₂) (count b₂) content.length ⟨b, 0, content⟩ := by
  intro bytes u buf hrun
  obtain ⟨hcontent, hfed⟩ : bytes ++ u.rest = content ∧ Fed b b₁ b₂ u := by
    refine hrun.invariant (P := fun bytes u => bytes ++ u.rest = content ∧ Fed b b₁ b₂ u) ⟨rfl, .start content⟩ ?_
    rintro bytes u buf ⟨hcontent, hfed⟩ -
    obtain ⟨hfed', hrest, -⟩ := hfed.poll h₁ h₂ buf
    exact ⟨by rw [List.append_assoc, ← hrest, hcontent], hfed'⟩
  obtain ⟨-, hrest, hinner⟩ := hfed.poll h₁ h₂ buf
  constructor
  · rw [← hcontent, hrest, ← List.append_assoc]
    exact (List.prefix_append _ _).length_le
  · intro hne
    dsimp only
    rw [hinner hne]
    exact ⟨le_refl _, le_refl _⟩

end Feeding

end Eager

/-- The decoder of streams with that content. -/
def eager (content : List UInt8) (X : Type) [AsyncRead IoError X] : Decoder X where
  Reader := Eager X
  read := inferInstance
  new inner := ⟨inner, 0, content⟩
  inner := Eager.inner

variable (content : List UInt8) {R : Type} [AsyncRead IoError R]

noncomputable def eager_computes (F : Feed IoError R) : (eager content (Replay R)).Computes (fun _ => (content, none)) F where
  feed := Eager.feed (replayFeed F)
  opens howes _ := ⟨rfl, rfl, _, howes⟩
  hushed := Eager.hushed
  fair P hF := Eager.fair (replayFair P) (replayFeed_faultless hF)
  faultless hF := Eager.faultless (replayFeed_faultless hF)

theorem eager_reads_to_end : (eager content (Replay R)).ReadsToEnd := fun h => Eager.eofSince_ended h

/-- Counting over the decoder is counting over what sniffing chose. -/
theorem Counts.zstd {dec : Decoder (Replay R)} {low high n : Nat} {z : dec.Reader}
    (h : Counts (fun z : dec.Reader => Decoded.count (.zstd z : Decoded dec)) low high n z) :
    Counts Decoded.count low high n (.zstd z : Decoded dec) := by
  intro bytes d buf hrun
  obtain ⟨z', rfl, hrun'⟩ : ∃ z', d = .zstd z' ∧ Run pollRead Cap.anyPoll z bytes z' := by
    refine hrun.invariant (P := fun bytes d => ∃ z', d = .zstd z' ∧ Run pollRead Cap.anyPoll z bytes z') ⟨z, rfl, .start z⟩ ?_
    rintro bytes d buf ⟨z', rfl, hrun'⟩ -
    exact ⟨_, rfl, hrun'.poll buf trivial⟩
  exact h bytes z' buf hrun'

section Samples

/-- The archive of a directory with zeros behind it, past the floor of the ratio. -/
def Gnu.padded : List UInt8 := plain ++ List.replicate ratioFloorBytes 0

theorem Gnu.length_padded : padded.length = 8390144 := by
  have hplain : plain.length = 1536 := by decide +kernel
  rw [padded, List.length_append, List.length_replicate, hplain]
  rfl

/-- A ratio of a million. -/
def lavish : SecurityLimits := SecurityLimits.default.withMaxCompressionRatio 1000000

theorem Gnu.archive_padded : ∃ recs items trailer, Archive format lavish padded recs items trailer ∧
    ZeroTrailer trailer ∧ ∀ i ∈ items, i.len ≤ lavish.maxEntryBytes.toNat := by
  have hlen : plain.length ≤ lavish.maxTotalBytes.toNat := by decide +kernel
  have hres : (fresh format lavish ⟨plain, []⟩).validateFrom gnuFields 40 0 = .done (.ok ⟨1, 0, 1536⟩) := by
    decide +kernel
  have hover := over_fresh format lavish ⟨plain, []⟩
  obtain ⟨s, hon⟩ := (supplies_script hlen).on frames hover
  rw [Reader.validating_eq gnuFields 40 0 0] at hres
  obtain ⟨recs, items, trailer, harch, hz, hbodies, -⟩ := clean_of_validated hover (validated 40 0 0 hon) hres
  refine ⟨recs, items, _, harch.append _, ⟨?_, ?_⟩, hbodies⟩
  · intro b hb
    rcases List.mem_append.mp hb with hb | hb
    · exact hz.1 b hb
    · exact List.eq_of_mem_replicate hb
  · have := hz.2
    rw [List.length_append]
    omega

/-- What the eager decoder takes for an encoding of it: the magic and five bytes. -/
def packet : List UInt8 := zstdMagic ++ List.replicate 5 0

/-- What sniffing leaves of the packet. -/
def unread (beats : List (Beat IoError)) : Replay (Script IoError) :=
  .new bufCap (.new zstdMagic ⟨⟨List.replicate 5 0, beats⟩, 4⟩)

theorem packet_counts {source : Script IoError} {beats : List (Beat IoError)} {b₁ b₂ : Replay (Script IoError)} {k : Nat}
    (hopen : decoded (eager Gnu.padded (Replay (Script IoError))) 1 (.new source) =
      .done (.ok (.zstd ⟨unread beats, 0, Gnu.padded⟩)))
    (h₁ : Eager.Serves (unread beats) 4 b₁) (h₂ : Eager.Serves b₁ (k + 1) b₂) (polls : Nat)
    (d : Decoded (eager Gnu.padded (Replay (Script IoError)))) (hd : decoded _ polls (.new source) = .done (.ok d)) :
    Counts Decoded.count b₂.inner.second.count b₂.inner.second.count Gnu.padded.length d := by
  cases polls with
  | zero => cases hd
  | succ polls =>
    rw [Nat.add_comm, decoded_more polls hopen] at hd
    cases hd
    exact .zstd (Eager.counts h₁ h₂ (fun b => b.inner.second.count) Gnu.padded)

/-- Read at once, the packet is worth more than its content by the ratio; with a break behind its
fifth byte it is not. -/
theorem ratio_depends_on_arrival :
    let dec : Decoder (Replay (Script IoError)) := eager Gnu.padded (Replay (Script IoError))
    let whole : Script IoError := ⟨packet, []⟩
    let parts : Script IoError := ⟨packet, [.give 3, .give 0]⟩
    Script.steadyFeed.Owes whole packet none ∧ Script.steadyFeed.Owes parts packet none ∧
      ∃ N, ∀ polls, N ≤ polls →
        (∃ report, Reader.validate gnuFields Gnu.tar dec polls whole lavish = .done (.ok report)) ∧
        Reader.validate gnuFields Gnu.tar dec polls parts lavish =
          .done (.error (.limitExceeded "max_compression_ratio")) := by
  intro dec whole parts
  have howes : Script.steadyFeed.Owes whole packet none := ⟨⟨rfl, rfl⟩, nofun⟩
  have howes' : Script.steadyFeed.Owes parts packet none := ⟨⟨rfl, rfl⟩, fun e he => by simp [parts] at he⟩
  have hC := eager_computes Gnu.padded (R := Script IoError) Script.steadyFeed
  have hcontents : contents (fun _ => (Gnu.padded, none)) packet = (Gnu.padded, none) := if_pos (List.prefix_append _ _)
  have hlen := Gnu.length_padded
  have hz : packet.length < 2 ^ 64 := by decide
  have hopen : decoded dec 1 (.new whole) = .done (.ok (.zstd ⟨unread [], 0, Gnu.padded⟩)) := rfl
  have hopen' : decoded dec 1 (.new parts) = .done (.ok (.zstd ⟨unread [.give 0], 0, Gnu.padded⟩)) := rfl
  have hcounts : ∀ polls (d : Decoded dec), decoded dec polls (.new whole) = .done (.ok d) →
      Counts Decoded.count 9 9 Gnu.padded.length d := packet_counts hopen ⟨rfl, rfl, rfl⟩ ⟨rfl, rfl, rfl⟩
  have hcounts' : ∀ polls (d : Decoded dec), decoded dec polls (.new parts) = .done (.ok d) →
      Counts Decoded.count 5 5 Gnu.padded.length d := packet_counts hopen' ⟨rfl, rfl, rfl⟩ ⟨rfl, rfl, rfl⟩
  have htotal : Gnu.padded.length ≤ lavish.maxTotalBytes.toNat := by
    rw [hlen]
    decide
  obtain ⟨recs, items, trailer, harch, hzero, hbodies⟩ := Gnu.archive_padded
  obtain ⟨N, hN⟩ := archive_validates Gnu.frames hC Script.steadyFair Script.steady_faultless howes hcontents hcounts
    htotal harch hbodies hzero (by rw [hlen]; decide)
  obtain ⟨report, hreport⟩ := hN N (Nat.le_refl N)
  have hD : (contents (fun _ => (Gnu.padded, none)) packet).1.length < 2 ^ 64 := by
    rw [hcontents, hlen]
    decide
  have hjudged := (validate_judged Gnu.frames Gnu.honest hC (eager_reads_to_end _) Script.steady_faultless howes hz hD
    hreport).1
  rw [hcontents] at hjudged hD
  obtain ⟨N', hN'⟩ := ratio_refuses Gnu.frames Gnu.honest Gnu.reports hC (eager_reads_to_end _) Script.steadyFair
    Script.steady_faultless howes' hcontents hD hcounts' htotal hz hjudged (by decide) (by rw [hlen]; decide)
    (by rw [hlen]; decide)
  exact ⟨howes, howes', max N N', fun polls hpolls => ⟨hN polls (by omega), hN' polls (by omega)⟩⟩

end Samples

end Etar
