import Etar.Members
import Etar.Tally

/-!
# What limits admit

Limits admit an archive when they have room for its entries and its decoded bytes, and when
the decoded stream keeps the ratio however it is polled. The cap over it is then the stream
itself. Over a source without the zstd magic every ratio of at least one is kept.
-/
namespace Etar

open AsyncIo Limit Compress

namespace Limit.Cap

variable {R : Type} [AsyncRead IoError R]

/-- However `start` is polled, what was handed out of it is within the ratio. -/
def KeepsRatio (count : R → Nat) (maxRatio : Nat) (start : R) : Prop :=
  ∀ bytes r (b : ReadBuf), Handed start bytes r → 0 < b.remaining →
    ratioFloorBytes < bytes.length + (b.added (pollRead r b).buf).length → 0 < count (pollRead r b).reader →
    bytes.length + (b.added (pollRead r b).buf).length ≤ saturatingMul (count (pollRead r b).reader) maxRatio

variable {count : R → Nat} {start : R} {max maxRatio : Nat}

/-- A cap that has charged what was handed out of `start`, with room for the bytes `s` to come. -/
structure Kept (start : R) (max maxRatio : Nat) (c : Cap count) (s : List UInt8) : Prop where
  failed : c.failed = false
  max_eq : c.max = max
  ratio_eq : c.maxRatio = maxRatio
  charged : ∃ before, Handed start before c.inner ∧ before.length = c.total
  room : c.total + s.length ≤ max

/-- A poll of it is a poll of its inner reader. -/
theorem Kept.poll (hmax : max < 2 ^ 64) (hratio : KeepsRatio count maxRatio start) {c : Cap count} {s : List UInt8}
    (h : Kept start max maxRatio c s) {b : ReadBuf} (hb : 0 < b.remaining)
    (hle : (b.added (pollRead c.inner b).buf).length ≤ s.length) :
    pollRead c b = ⟨(pollRead c.inner b).outcome, (pollRead c.inner b).buf, { c with
      inner := (pollRead c.inner b).reader
      total := c.total + (b.added (pollRead c.inner b).buf).length }⟩ := by
  obtain ⟨before, hhanded, hbefore⟩ := h.charged
  have hroom := h.room
  refine poll_within h.failed (by omega) fun _ => broken_eq_none.mpr ⟨?_, ?_⟩
  · rw [h.max_eq]
    omega
  · rw [h.ratio_eq, ← hbefore]
    exact hratio before c.inner b hhanded hb

/-- What it leaves when the poll took bytes, or none. -/
theorem Kept.polled {c : Cap count} {s s' : List UInt8} (h : Kept start max maxRatio c s) {b : ReadBuf}
    (hb : 0 < b.remaining) (hs : s = b.added (pollRead c.inner b).buf ++ s')
    (hout : (pollRead c.inner b).outcome = .ready (.ok ()) ∨ b.added (pollRead c.inner b).buf = []) :
    Kept start max maxRatio ({ c with
      inner := (pollRead c.inner b).reader
      total := c.total + (b.added (pollRead c.inner b).buf).length } : Cap count) s' := by
  obtain ⟨hf, hmax, hratio, ⟨before, hhanded, hbefore⟩, hroom⟩ := h
  refine ⟨hf, hmax, hratio, ?_, ?_⟩
  · by_cases ho : (pollRead c.inner b).outcome = .ready (.ok ())
    · refine ⟨_, hhanded.chunk b hb ho, ?_⟩
      rw [List.length_append, hbefore]
    · rw [hout.resolve_left ho]
      exact ⟨before, hhanded.idle b hb ho, hbefore⟩
  · rw [hs, List.length_append] at hroom
    dsimp only
    omega

/-- A cap that breaks no bound over a feed is that feed. -/
def kept (D : Feed IoError R) (hmax : max < 2 ^ 64) (hratio : KeepsRatio count maxRatio start) :
    Feed IoError (Cap count) where
  Owes c s stop := D.Owes c.inner s stop ∧ Kept start max maxRatio c s
  pending {c s stop b} hc hb ho := by
    rw [hc.2.poll hmax hratio hb (D.added_le hc.1 hb)] at ho ⊢
    obtain ⟨hbuf, hr'⟩ := D.pending hc.1 hb ho
    have hnil : b.added (pollRead c.inner b).buf = [] := by rw [hbuf, ReadBuf.added_self]
    exact ⟨hbuf, hr', hc.2.polled hb (by rw [hnil]; rfl) (Or.inr hnil)⟩
  chunk {c s stop b} hc hb ho := by
    rw [hc.2.poll hmax hratio hb (D.added_le hc.1 hb)] at ho ⊢
    obtain ⟨s', hs, hr', hend⟩ := D.chunk hc.1 hb ho
    exact ⟨s', hs, ⟨hr', hc.2.polled hb hs (Or.inl ho)⟩, hend⟩
  fault {c s stop b e} hc hb ho := by
    rw [hc.2.poll hmax hratio hb (D.added_le hc.1 hb)] at ho ⊢
    apply (D.fault hc.1 hb ho).imp_left
    rintro ⟨hbuf, hr'⟩
    have hnil : b.added (pollRead c.inner b).buf = [] := by rw [hbuf, ReadBuf.added_self]
    exact ⟨hbuf, hr', hc.2.polled hb (by rw [hnil]; rfl) (Or.inr hnil)⟩

variable {D : Feed IoError R} (hmax : max < 2 ^ 64) (hratio : KeepsRatio count maxRatio start)

def kept_fair (P : D.Fair) : (kept D hmax hratio).Fair where
  delay c := P.delay c.inner
  pending hc hb ho := by
    rw [hc.2.poll hmax hratio hb (D.added_le hc.1 hb)] at ho ⊢
    exact P.pending hc.1 hb ho
  chunk hc hb ho := by
    rw [hc.2.poll hmax hratio hb (D.added_le hc.1 hb)] at ho ⊢
    exact P.chunk hc.1 hb ho
  fault hc hb ho := by
    rw [hc.2.poll hmax hratio hb (D.added_le hc.1 hb)] at ho ⊢
    exact P.fault hc.1 hb ho

theorem kept_faultless (hD : D.Faultless) : (kept D hmax hratio).Faultless := by
  constructor
  intro c s stop b e hc hb ho
  rw [hc.2.poll hmax hratio hb (D.added_le hc.1 hb)] at ho ⊢
  exact hD.fault hc.1 hb ho

theorem owes_kept {s : List UInt8} {stop : Option IoError} (h : D.Owes start s stop) (hs : s.length ≤ max) :
    (kept D hmax hratio).Owes (.new start max maxRatio) s stop :=
  ⟨h, rfl, rfl, rfl, ⟨[], .start start, rfl⟩, by simpa [Cap.new] using hs⟩

end Limit.Cap

section Ratios

variable {R : Type} [AsyncRead IoError R] {dec : Decoder (Replay R)} {S : Feed IoError R}

/-- Over a source without the magic no more is handed out than was counted. -/
theorem keepsRatio_raw {source : R} {z : List UInt8} (howes : S.Owes source z none) (hz : z.length < 2 ^ 64)
    (hraw : ¬ zstdMagic <+: z) {maxRatio : Nat} (hratio : 1 ≤ maxRatio) {polls : Nat} {d : Decoded dec}
    (hd : decoded dec polls (.new source) = .done (.ok d)) : Cap.KeepsRatio Decoded.count maxRatio d := by
  obtain ⟨b, hb⟩ := sniffed hd
  obtain ⟨hreplay, hchoice⟩ := hb (G := Meter.tally S hz) ⟨⟨none, rfl, howes⟩, Nat.zero_add _⟩
  obtain rfl : d = .plain b := hchoice.trans (if_neg hraw)
  intro bytes d' buf hhanded hroom _ _
  obtain ⟨b', rfl, hin⟩ := Decoded.handed_plain hhanded
  obtain ⟨rest, rfl, hrest⟩ := (replayOf (Meter.tally S hz)).handed hin hreplay
  obtain ⟨rest', rfl, -, s, hs, s', hs', -, hcount⟩ := (replayOf (Meter.tally S hz)).takes hrest hroom
  have hl := congrArg List.length hs
  have hl' := congrArg List.length hs'
  simp only [List.length_append] at hl hl' hcount hz
  have hle : bytes.length + (buf.added (pollRead b' buf).buf).length ≤ (pollRead b' buf).reader.inner.second.count := by
    omega
  refine hle.trans (le_min (Nat.le_mul_of_pos_right _ hratio) ?_)
  show (pollRead b' buf).reader.inner.second.count ≤ u64Max
  unfold u64Max
  omega

end Ratios

/-- The limits have room for what an archive `z` holds, and its decoded stream keeps the ratio. -/
structure SecurityLimits.Admits {R : Type} [AsyncRead IoError R] (limits : SecurityLimits) (dec : Decoder (Replay R))
    (decode : List UInt8 → List UInt8 × Option IoError) (cs : List Content) (source : R) (z : List UInt8) : Prop where
  entries : ∀ c ∈ cs, c.Allowed limits
  count : cs.length ≤ limits.maxEntries.toNat
  total : (contents decode z).1.length ≤ limits.maxTotalBytes.toNat
  ratio : ∀ polls (d : Decoded dec), decoded dec polls (.new source) = .done (.ok d) →
    Cap.KeepsRatio Decoded.count limits.maxCompressionRatio.toNat d

end Etar
