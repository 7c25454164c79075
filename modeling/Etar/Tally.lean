import Etar.CleanEnd
import Etar.Sniff
import Etar.RawZstd

/-!
# Every byte is accounted for

The meter counts what it hands on, and the cap charges what it hands on: with what is still
owed, either adds up to the whole stream. A validation that answers `Ok` has seen every layer
report its end, so nothing is owed any more.
-/
namespace Etar

open AsyncIo Limit Guard Compress

section Layers

variable {R : Type} [AsyncRead IoError R]

/-- What was counted and what is owed are `n` bytes in all. -/
def Limit.Meter.tally (F : Feed IoError R) {n : Nat} (hn : n < 2 ^ 64) : Feed IoError (Meter R) :=
  (Meter.feed F).refine (fun m s => m.count + s.length = n) fun {m s b _} _ _ _ h => by
    rw [List.length_append, ← Nat.add_assoc] at h
    show (if 0 < (b.added (pollRead m b).buf).length then
      wrappingAdd m.count (b.added (pollRead m b).buf).length else m.count) + s.length = n
    split_ifs with hpos
    · rw [wrappingAdd_of_lt (by omega)]
      exact h
    · omega

namespace Limit.Cap

variable {count : R → Nat}

/-- What was charged is no more than the `n` bytes in all; until the cap fails it is within the
total, and with what is owed it is the `n` bytes. -/
structure Charged (n max : Nat) (c : Cap count) (s : List UInt8) : Prop where
  le : c.total ≤ n
  max_eq : c.max = max
  total_le : c.failed = false → c.total ≤ max
  total_eq : c.failed = false → c.total + s.length = n

theorem Charged.poll {D : Feed IoError R} {n max : Nat} (hn : n < 2 ^ 64) {c : Cap count} {s : List UInt8}
    {buf : ReadBuf} {stop : Option IoError} (hb : 0 < buf.remaining)
    (howes : (feed D).Owes c (buf.added (pollRead c buf).buf ++ s) stop)
    (h : Charged n max c (buf.added (pollRead c buf).buf ++ s)) : Charged n max (pollRead c buf).reader s := by
  obtain ⟨hle, hmax, htotal, hsum⟩ := h
  simp only [pollRead] at howes hsum ⊢
  cases hc : c.failed with
  | true =>
    rw [poll_failed hc]
    refine ⟨hle, hmax, htotal, fun hf => ?_⟩
    rw [hc] at hf
    cases hf
  | false =>
    have hread := D.added_le (howes.resolve_left (by simp [hc])) hb
    have hsum := hsum hc
    rcases poll_cases hc buf (by omega) with ⟨which, hne, -, hp⟩ | ⟨hb, hp⟩
    · rw [hp] at hread hsum ⊢
      dsimp only at hread hsum ⊢
      exact ⟨by dsimp only; omega, hmax, nofun, nofun⟩
    · rw [hp] at hsum ⊢
      dsimp only at hsum
      rw [List.length_append] at hsum
      refine ⟨by dsimp only; omega, hmax, fun _ => ?_, fun _ => by dsimp only; omega⟩
      by_cases hne : buf.added (pollRead c.inner buf).buf = []
      · dsimp only
        rw [hne]
        exact htotal hc
      · rw [← hmax]
        exact (broken_eq_none.mp (hb hne)).1

/-- The cap over a feed, with what it charged. -/
def charging (D : Feed IoError R) {n : Nat} (hn : n < 2 ^ 64) (max : Nat) : Feed IoError (Cap count) :=
  (feed D).refine (Charged n max) fun hb _ howes h => h.poll hn hb howes

theorem owes_charging {D : Feed IoError R} {r : R} {s : List UInt8} {stop : Option IoError} (h : D.Owes r s stop)
    (hn : s.length < 2 ^ 64) (max maxRatio : Nat) :
    (charging D hn max : Feed IoError (Cap count)).Owes (.new r max maxRatio) s stop :=
  ⟨Or.inr h, Nat.zero_le _, rfl, fun _ => Nat.zero_le _, fun _ => Nat.zero_add _⟩

theorem hushed_charging {D : Feed IoError R} {stop : Option IoError} (hD : D.Hushed stop) {n : Nat} (hn : n < 2 ^ 64)
    (max : Nat) : (charging D hn max : Feed IoError (Cap count)).Hushed stop := by
  intro c s buf e h hb ho
  simp only [pollRead] at ho ⊢
  cases hc : c.failed with
  | true => rw [poll_failed hc]
  | false =>
    rcases poll_any hc buf with ⟨e', c', hp, -⟩ | ⟨total, hp⟩
    · rw [hp]
    · rw [hp] at ho ⊢
      exact hD (h.1.resolve_left (by simp [hc])) hb ho

theorem eofSince {c c' : Cap count} (h : EofSince c c') :
    c.failed = false ∧ c'.failed = false ∧ EofSince c.inner c'.inner := by
  induction h with
  | @now c c' b hb hp =>
    simp only [pollRead] at hp
    cases hc : c.failed with
    | true =>
      rw [poll_failed hc] at hp
      cases hp
    | false =>
      rcases poll_any hc b with ⟨e, c'', hp', -⟩ | ⟨total, hp'⟩
      · rw [hp'] at hp
        cases hp
      · rw [hp'] at hp
        generalize hq : pollRead c.inner b = q at hp
        rcases q with ⟨o, buf, r⟩
        cases hp
        exact ⟨rfl, hc, .now _ hb hq⟩
  | @later c c' b hb _ ih =>
    obtain ⟨hf, hf', hend⟩ := ih
    simp only [pollRead] at hf hend
    cases hc : c.failed with
    | true =>
      rw [poll_failed hc, hc] at hf
      cases hf
    | false =>
      rw [inner_poll hc] at hend
      exact ⟨rfl, hf', .later b hb hend⟩

end Limit.Cap

/-- An end the guard reports is its inner reader's. -/
theorem Guard.HeaderGuard.sourceEnd {H : HeaderFields} {C : Feed IoError R} {g' : HeaderGuard H R}
    (h : SourceEnd (HeaderGuard.feed C) g') : ∃ r s, C.Owes r s none ∧ EofSince r g'.inner := by
  obtain ⟨g, b, ⟨rest, stop, hbt, -, hstop⟩, hb, ho, hnil, rfl⟩ := h
  obtain ⟨used, rest', rfl, ha⟩ := poll_spec C stop g rest hbt b hb
  rw [pollRead_ok.mp ho] at ha
  obtain ⟨-, -, hend, -⟩ := ha
  obtain ⟨heof, -, hnone, -⟩ := hend hnil
  have howes := hbt.owes
  rw [hnone] at howes
  exact ⟨g.inner, _, howes, heof⟩

end Layers

section Lengths

variable {H : HeaderFields} {F : TarFormat H} {max : Nat}

/-- Every member takes a block of the stream. -/
theorem Outlined.length_le {p : Option Nat} {x : F.Ext} {s : List UInt8} {w : Outline} (h : Outlined F max p x s w) :
    512 * w.items.length ≤ s.length := by
  induction h with
  | stops | zero => exact Nat.zero_le _
  | extension _ _ _ _ _ _ ih =>
    rw [length_block_append, List.length_append]
    omega
  | cut =>
    rw [length_block_append]
    exact Nat.le_add_right _ _
  | member _ _ _ _ _ ih =>
    rw [length_block_append, List.length_append, Outline.items_cons, List.length_cons]
    omega

theorem Framed.length_le {p : Option Nat} {x : F.Ext} {s : List UInt8} {items : List Item} (h : Framed F max p x s items) :
    512 * items.length ≤ s.length := by
  induction h with
  | nil => exact Nat.zero_le _
  | extension _ _ _ _ _ _ ih =>
    rw [length_block_append, List.length_append]
    omega
  | member _ _ _ _ _ ih =>
    rw [length_block_append, List.length_append, List.length_cons]
    omega

end Lengths

section Validations

variable {T : Tar} {H : HeaderFields} {F : TarFormat H} {R : Type} [AsyncRead IoError R]
variable {dec : Decoder (Replay R)} {decode : List UInt8 → List UInt8 × Option IoError} {S : Feed IoError R}

/-- The reader over the whole pipeline. -/
abbrev Opened (T : Tar) (H : HeaderFields) (dec : Decoder (Replay R)) :=
  Reader T (Source H (Decoded.count : Decoded dec → Nat))

theorem open_ok {polls : Nat} {source : R} {limits : SecurityLimits} {r : Opened T H dec}
    (h : Reader.open T dec polls source limits = .done (.ok r)) :
    ∃ d, decoded dec polls (.new source) = .done (.ok d) ∧ Reader.over T d limits = .ok r := by
  unfold Reader.open at h
  split at h
  · cases h
  · cases h
  · rename_i d hd
    exact ⟨d, hd, by injection h⟩

omit [AsyncRead IoError R] in
theorem over_source {d : Decoded dec} {limits : SecurityLimits} {r : Opened T H dec}
    (h : Reader.over T d limits = .ok r) : r.source = stack d limits := by
  obtain ⟨parser, rfl⟩ := Reader.start_ok h
  rfl

/-- A reader over a capped feed is on the outline of the stream. -/
theorem on_over (fr : T.Frames F) {D : Type} [AsyncRead IoError D] {count : D → Nat} {C : Feed IoError (Cap count)}
    {d : D} {limits : SecurityLimits} {bytes : List UInt8} {stop : Option IoError} (hhushed : C.Hushed stop)
    (howes : C.Owes (.new d limits.maxTotalBytes.toNat limits.maxCompressionRatio.toNat) bytes stop)
    {r : Reader T (Source H count)} (hstart : Reader.over T d limits = .ok r) :
    ∃ s, On fr (HeaderGuard.feed C) ((guardStop H limits bytes).or stop) (outline F limits bytes) r s := by
  obtain ⟨-, -, hf, hd⟩ := start_fields hstart
  have hfollows : Follows H fr (HeaderGuard.feed C) _ _ _ _ _ :=
    follows_start (owes_stack_to hhushed howes) hstart
  obtain ⟨s, hon, -⟩ := hfollows.live hf hd
  exact ⟨s, hon⟩

/-- What a validation that answered with `report` accounts for: the encoded source `z`, and
the decoded stream `bytes` it began with. -/
structure Accounts (F : TarFormat H) (limits : SecurityLimits) (z bytes : List UInt8) (r : Opened T H dec)
    (v : Validation T (Source H (Decoded.count : Decoded dec → Nat))) (report : ValidationReport) : Prop where
  answer : v.result = .done (.ok report)
  encoded : report.encodedBytes = z.length
  decoded : report.decodedBytes = bytes.length
  drained : Ended r.source.inner.inner bytes v.last.reader.source.inner.inner
  charged : v.last.reader.source.inner.total = bytes.length
  members : ∃ recs items trailer, Archive F limits bytes recs items trailer ∧ ZeroTrailer trailer ∧
    report.entries = items.length
  records : 512 * report.entries + 1024 ≤ report.decodedBytes
  within : report.decodedBytes ≤ limits.maxTotalBytes.toNat

/-- The decoded feed that is charged, and remembers what it handed out. -/
abbrev chargedFeed (hC : dec.Computes decode S) (d : Decoded dec) {bytes : List UInt8} (hD : bytes.length < 2 ^ 64)
    (limits : SecurityLimits) : Feed IoError (Cap (Decoded.count : Decoded dec → Nat)) :=
  Cap.charging (hC.decoded.since d bytes) hD limits.maxTotalBytes.toNat

theorem on_open (fr : T.Frames F) (hC : dec.Computes decode S) {source : R} {z : List UInt8}
    (howes : S.Owes source z none) {bytes : List UInt8} {stop : Option IoError}
    (hcontents : contents decode z = (bytes, stop)) (hD : bytes.length < 2 ^ 64) {limits : SecurityLimits} {polls : Nat}
    {r : Opened T H dec} (hr : Reader.open T dec polls source limits = .done (.ok r)) :
    ∃ d b, Reader.over T d limits = .ok r ∧ hC.decoded.Owes d bytes stop ∧
      (∀ {G : Feed IoError (Meter R)}, G.Owes (.new source) z none → Sniffed dec G z b d) ∧
      ∃ s, On fr (HeaderGuard.feed (chargedFeed hC d hD limits)) ((guardStop H limits bytes).or stop)
        (outline F limits bytes) r s := by
  obtain ⟨d, hd, hstart⟩ := open_ok hr
  obtain ⟨b, hb⟩ := sniffed hd
  have hdecodes := (hb (G := Meter.feed S) ⟨none, rfl, howes⟩).decodes hC
  rw [hcontents] at hdecodes
  have hhushed : (hC.decoded.since d bytes).Hushed stop := fun h => hC.hushed_decoded stop h.1
  have hsince : (hC.decoded.since d bytes).Owes d bytes stop := ⟨hdecodes, [], .start d, rfl⟩
  exact ⟨d, b, hstart, hdecodes, hb,
    on_over fr (Cap.hushed_charging hhushed hD _) (Cap.owes_charging hsince hD _ _) hstart⟩

/-- At the end of a decoded stream everything was handed out, charged and counted. -/
theorem charged_end (hC : dec.Computes decode S) (hend : dec.ReadsToEnd) {z bytes : List UInt8} (hz : z.length < 2 ^ 64)
    (hD : bytes.length < 2 ^ 64) {limits : SecurityLimits} {b : Replay R} {d : Decoded dec}
    (hb : Sniffed dec (Meter.tally S hz) z b d) (hd : hC.decoded.Owes d bytes none)
    {g : Source H (Decoded.count : Decoded dec → Nat)}
    (hg : SourceEnd (HeaderGuard.feed (chargedFeed hC d hD limits)) g) :
    Ended d bytes g.inner.inner ∧ g.inner.total = bytes.length ∧ g.inner.total ≤ limits.maxTotalBytes.toNat ∧
      Decoded.count g.inner.inner = z.length := by
  obtain ⟨c, rest, hc, heof⟩ := HeaderGuard.sourceEnd hg
  obtain ⟨hf, hf', heof'⟩ := Cap.eofSince heof
  obtain ⟨-, before, hhanded, -⟩ := hc.1.resolve_left (by simp [hf])
  have hcharged := ((chargedFeed hC d hD limits).eofSince heof hc).2
  obtain ⟨bytes', hended⟩ := hhanded.ended heof'
  obtain ⟨rfl, -⟩ := hC.decoded.ended hended hd
  have hreplay := Decoded.eofSince hend (hb.choice ▸ hended)
  obtain ⟨-, s, hs, s', hs', -, hcount⟩ := (replayOf (Meter.tally S hz)).eofSince hreplay hb.owes
  obtain ⟨-, rfl⟩ := List.append_eq_nil_iff.mp hs.symm
  obtain ⟨-, rfl⟩ := List.append_eq_nil_iff.mp hs'.symm
  exact ⟨hended, hcharged.total_eq hf', hcharged.total_le hf', hcount⟩

/-- An opened reader that is validated with `Ok` accounts for every byte. -/
theorem accounts_of_validating (fr : T.Frames F) (hC : dec.Computes decode S) (hend : dec.ReadsToEnd)
    {source : R} {z : List UInt8} (howes : S.Owes source z none) (hz : z.length < 2 ^ 64) {bytes : List UInt8}
    {stop : Option IoError} (hcontents : contents decode z = (bytes, stop)) (hD : bytes.length < 2 ^ 64)
    {limits : SecurityLimits} {polls polls' : Nat} {r : Opened T H dec}
    (hr : Reader.open T dec polls source limits = .done (.ok r)) {report : ValidationReport}
    (hres : (r.validating H polls' 0 0).result = .done (.ok report)) :
    stop = none ∧ Accounts F limits z bytes r (r.validating H polls' 0 0) report := by
  obtain ⟨d, b, hstart, hdecodes, hb, s, hon⟩ := on_open fr hC howes hcontents hD hr
  have hv := validated (H := H) polls' 0 0 hon
  have hok := hv.2
  rw [hres] at hok
  obtain ⟨-, -, hstop, -⟩ := hok
  obtain ⟨-, rfl⟩ := Option.or_eq_none_iff.mp hstop
  obtain ⟨recs, items, trailer, harch, hzero, -, rfl, hsource⟩ := clean_of_validated hstart hv hres
  obtain ⟨hended, htotal, hle, hcount⟩ := charged_end hC hend hz hD
    (hb (G := Meter.tally S hz) ⟨⟨none, rfl, howes⟩, Nat.zero_add _⟩) hdecodes hsource
  refine ⟨rfl, hres, hcount, htotal, ?_, htotal, ⟨recs, items, trailer, harch, hzero, rfl⟩, ?_, hle⟩
  · rw [over_source hstart]
    exact hended
  · change 512 * items.length + 1024 ≤ (r.validating H polls' 0 0).last.reader.source.inner.total
    rw [htotal]
    have hrecs := harch.framed.length_le
    have hlen := congrArg List.length harch.bytes_eq
    rw [List.length_append, length_block_append] at hlen
    have := hzero.2
    omega

theorem validate_done {polls : Nat} {source : R} {limits : SecurityLimits} {res : Except Error ValidationReport}
    (h : Reader.validate H T dec polls source limits = .done res) :
    (∃ e, res = .error e ∧ Reader.open (H := H) T dec polls source limits = .done (.error e)) ∨
    ∃ r : Opened T H dec, Reader.open T dec polls source limits = .done (.ok r) ∧
      (r.validating H polls 0 0).result = .done res := by
  unfold Reader.validate at h
  split at h
  · cases h
  · rename_i e he
    cases h
    exact Or.inl ⟨e, rfl, he⟩
  · rename_i r hr
    rw [Reader.validating_eq H polls 0 0 r] at h
    exact Or.inr ⟨r, hr, h⟩

/-- A validation that answers `Ok` has read the source to its end and accounts for every byte of
it and of the decoded stream; and no validation makes more calls than the stream has blocks, and
one more. -/
theorem validation_accounts_for_every_byte (fr : T.Frames F) (hC : dec.Computes decode S) (hend : dec.ReadsToEnd)
    {source : R} {z : List UInt8} (howes : S.Owes source z none) (hz : z.length < 2 ^ 64)
    (hD : (contents decode z).1.length < 2 ^ 64) (limits : SecurityLimits) (polls : Nat) :
    (∀ r : Opened T H dec, Reader.open T dec polls source limits = .done (.ok r) → ∀ polls',
      512 * (r.validating H polls' 0 0).calls ≤ (contents decode z).1.length + 512) ∧
    (∀ report, Reader.validate H T dec polls source limits = .done (.ok report) → (contents decode z).2 = none ∧
      ∃ r : Opened T H dec, Reader.open T dec polls source limits = .done (.ok r) ∧
        Accounts F limits z (contents decode z).1 r (r.validating H polls 0 0) report) := by
  generalize hcontents : contents decode z = content at hD
  obtain ⟨bytes, stop⟩ := content
  dsimp only at hD ⊢
  constructor
  · intro r hr polls'
    obtain ⟨d, b, -, -, -, s, hon⟩ := on_open fr hC howes hcontents hD hr
    obtain ⟨hcalls, -⟩ := validated polls' 0 0 hon
    have := (outlined_outline F limits bytes).length_le
    omega
  · intro report hres
    rcases validate_done hres with ⟨e, he, -⟩ | ⟨r, hr, hres⟩
    · cases he
    · obtain ⟨hstop, hacc⟩ := accounts_of_validating fr hC hend howes hz hcontents hD hr hres
      exact ⟨hstop, r, hr, hacc⟩

/-- An archive of one directory, compressed into one frame: 1551 bytes stand for 1536. -/
theorem validation_accounts_for_every_byte_sample :
    ∃ r : Opened Gnu.tar gnuFields (RawZstd.decoder (Replay (Script IoError))),
      Accounts Gnu.format .default (RawZstd.frame Gnu.plain) Gnu.plain r (r.validating gnuFields 40 0 0)
        ⟨1, 1551, 1536⟩ := by
  have hframe : RawZstd.Frame Gnu.plain (RawZstd.frame Gnu.plain) := by
    have h : RawZstd.Frame [Gnu.plain].flatten ([Gnu.plain].flatMap RawZstd.frame) :=
      RawZstd.frame_frames (List.cons_ne_nil _ _)
    simpa using h
  have hcontents : contents RawZstd.unpack (RawZstd.frame Gnu.plain) = (Gnu.plain, none) := by
    rw [contents, if_pos hframe.1, RawZstd.unpack_frame hframe]
  have hlen : Gnu.plain.length < 2 ^ 64 := by decide +kernel
  have howes : Script.feed.Owes (⟨RawZstd.frame Gnu.plain, []⟩ : Script IoError) (RawZstd.frame Gnu.plain) none :=
    ⟨rfl, rfl⟩
  have hres : Reader.validate gnuFields Gnu.tar (RawZstd.decoder (Replay (Script IoError))) 40
      ⟨RawZstd.frame Gnu.plain, []⟩ .default = .done (.ok ⟨1, 1551, 1536⟩) := by decide +kernel
  obtain ⟨-, r, -, h⟩ := (validation_accounts_for_every_byte Gnu.frames (RawZstd.computes Script.feed)
    RawZstd.reads_to_end howes (by decide +kernel)
    (by rw [hcontents]; exact hlen) .default 40).2 _ hres
  rw [hcontents] at h
  exact ⟨r, h⟩

end Validations

end Etar
