import Etar.Follow
import Etar.GnuCoding

/-!
# Declared and effective sizes

`open_entry` looks at the size in the header that the parser reports of a member; the guard
and the parser go by the `size` of a PAX record in front of it, or else by the member's own
field. A parser that reports the size it goes by makes them the same: the declared size is the
real one, and directories and links have no body. One that reported the member's own field
would not.
-/
namespace Etar

open AsyncIo Limit Guard Scan

/-- The size in the header that is reported of a member is the length of its body: the parser
writes the size of a PAX record over the member's own. -/
def TarFormat.ReportsSize {H : HeaderFields} (F : TarFormat H) : Prop :=
  ∀ {x h len entry size}, F.size x h = .ok len → len < 2 ^ 64 → isExtension h.typeflag = false →
    F.entry x h = .ok entry → H.size entry.header = some size → size.toNat = len

/-- The types of members that must not have a body. -/
def bodiless (t : EntryType) : Prop := t = .directory ∨ t = .symlink ∨ t = .link

theorem file_of_classify {H : HeaderFields} {entry : TarEntry} {limits : SecurityLimits} {kind : Kind}
    (h : classify H entry limits = .ok kind) (hb : bodiless (H.entryType entry.header)) : kind ≠ .file := by
  intro hk
  subst hk
  unfold classify at h
  rcases hb with hb | hb | hb
  · rw [hb] at h
    cases h
  · rw [hb] at h
    simp only [link] at h
    split_ifs at h
    split at h <;> cases h
  · rw [hb] at h
    simp only [link] at h
    split_ifs at h
    split at h <;> cases h

namespace Gnu

/-- What is written over a block in front of `k` leaves the bytes from `k` on. -/
theorem drop_splice {b : Block} {at_ k : Nat} {bytes : List UInt8} (h : at_ + bytes.length ≤ 512)
    (hk : at_ + bytes.length ≤ k) : (b.splice at_ bytes h).bytes.drop k = b.bytes.drop k := by
  have hlen : (b.bytes.take at_ ++ bytes).length = at_ + bytes.length := by
    have := b.length_bytes
    simp only [List.length_append, List.length_take]
    omega
  rw [Block.splice, List.drop_append, List.drop_eq_nil_of_le (by omega), hlen, List.nil_append, List.drop_drop]
  congr 1
  omega

theorem drop_setNumber {at_ width k : Nat} (hwidth : 0 < width) (hk : at_ + width ≤ k) (n : Option Nat) (b : Block) :
    (setNumber at_ width n b).bytes.drop k = b.bytes.drop k := by
  cases n with
  | none => rfl
  | some n =>
    have hlen := length_wideNumber n hwidth
    unfold setNumber
    dsimp only
    split
    · exact drop_splice _ (by omega)
    · rfl

/-- A size written over the field is read back. -/
theorem size_setNumber {n : Nat} (h : n < 2 ^ 64) (b : Block) :
    gnuFields.size (setNumber 124 12 (some n) b) = some (.ofNat n) := by
  have hlen : (wideNumber 12 n).length = 12 := length_wideNumber n (by decide)
  have hfit : 124 + (wideNumber 12 n).length ≤ 512 := by omega
  have hfield : ((setNumber 124 12 (some n) b).bytes.drop 124).take 12 = wideNumber 12 n := by
    simp only [setNumber, dif_pos hfit, Block.splice, List.append_assoc]
    refine middle rfl ?_ hlen
    rw [List.length_take, b.length_bytes]
    rfl
  have hlt : n < 256 ^ (12 - 1) := h.trans (by decide)
  simp only [gnuFields, hfield, numeric_wideNumber (by decide) hlt, Option.map_some]

theorem reportsSize : format.ReportsSize := by
  intro x h len entry size hs hlen hk he hv
  have hentry : Gnu.entry x h = .ok entry := he
  cases hentry
  obtain ⟨r, hr⟩ : ∃ r, gnuFields.size h = some r := by
    cases hr : gnuFields.size h with
    | some r => exact ⟨r, rfl⟩
    | none =>
      have hs' : Gnu.size x h = .ok len := hs
      simp only [Gnu.size, hr] at hs'
      split at hs' <;> cases hs'
  have heff := format.size_member hs hk hr
  have hpaxSize : format.paxSize x = x.pax.bind Numbers.size := rfl
  rw [hpaxSize] at heff
  dsimp only [reportedHeader] at hv
  cases hx : x.pax with
  | none =>
    rw [hx] at hv heff
    obtain rfl := Option.some.inj (hr.symm.trans hv)
    exact heff.symm
  | some p =>
    rw [hx] at hv heff
    dsimp only at hv
    cases hp : p.size with
    | none =>
      rw [hp] at hv
      have hsame : gnuFields.size (setNumber 116 8 p.gid (setNumber 108 8 p.uid h)) = gnuFields.size h := by
        simp only [gnuFields]
        rw [drop_setNumber (by decide) (by decide), drop_setNumber (by decide) (by decide)]
      obtain rfl := Option.some.inj (hr.symm.trans (hsame.symm.trans hv))
      simpa [hp] using heff.symm
    | some n =>
      have hn : n = len := by simpa [hp] using heff.symm
      rw [hp, size_setNumber (by omega)] at hv
      obtain rfl := Option.some.inj hv
      rw [UInt64.toNat_ofNat', hn, Nat.mod_eq_of_lt hlen]

end Gnu

section Samples

/-- Limits with room for four bytes a body. -/
def small : SecurityLimits := SecurityLimits.default.withMaxEntryBytes 4

/-- The member behind the PAX record, at the boundary after it. -/
theorem resized_memberAt :
    MemberAt gnuFields small.maxMetadataBytes.toNat (Gnu.resized 48 0) (Gnu.member 48 0).block (some 5) 0 := by
  have hs : (Gnu.resized 48 0).drop 0 = (Gnu.paxHeader 10).block.bytes ++ ((Gnu.paxBody ++ List.replicate 502 0) ++
      ((Gnu.member 48 0).block.bytes ++ (Gnu.pad 512 [104, 101, 108, 108, 111] ++ List.replicate 1024 0))) := by
    decide +kernel
  have hv : vet gnuFields small.maxMetadataBytes.toNat none (Gnu.paxHeader 10).block = .ok Gnu.paxBody.length := by
    decide +kernel
  have hc : carry none (Gnu.paxHeader 10).block Gnu.paxBody = .ok (some 5) := by decide +kernel
  obtain ⟨hb, hd⟩ := boundary_record .start hs (by decide +kernel) hv (by decide +kernel) hc
  exact ⟨⟨_, hb, by rw [hd]; exact List.prefix_append _ _⟩, by decide +kernel, by decide +kernel,
    by decide +kernel⟩

/-- The format with every member's header as it stands in the archive. -/
def Gnu.rawFormat : TarFormat gnuFields :=
  { Gnu.format with entry := fun x h => (Gnu.entry x h).map fun entry => { entry with header := h } }

theorem Gnu.rawFormat_header {x : Gnu.rawFormat.Ext} {h : Block} {entry : TarEntry}
    (he : Gnu.rawFormat.entry x h = .ok entry) : entry.header = h := by
  cases he
  rfl

end Samples

section

variable {T : Tar} {H : HeaderFields} {F : TarFormat H} (fr : T.Frames F)
variable {R : Type} [AsyncRead IoError R] {count : R → Nat} (D : Feed IoError R)
variable {decoded : R} {bytes : List UInt8} {limits : SecurityLimits} {r : Reader T (Source H count)}
variable {room : ReadBuf → Prop} {evs : List Event} {σ : Session T (Source H count)}

/-- A session of a reader over a decoded stream, whatever the limits do. -/
theorem follows_decoded (howes : D.Owes decoded bytes none) (hstart : Reader.over T decoded limits = .ok r)
    (hrun : Session.Run H room ⟨r, none⟩ evs σ) :
    Lifecycle evs σ ∧ Follows H fr (HeaderGuard.feed (Cap.feed D)) (guardStop H limits bytes)
      (outline F limits bytes) limits evs σ :=
  follows_over fr (C := Cap.feed D) (Or.inr howes) hstart hrun

/-- A member that is opened has the size the parser goes by. -/
theorem opened_size (hreports : F.ReportsSize) {i : Item} {h : Block} {lent : Unit} {e : ReadEntry}
    (hk : isExtension h.typeflag = false) (hlen : i.len < 2 ^ 64) (hmade : i.MadeOf F h)
    (ho : openEntry H i.entry lent limits = .ok e) :
    e.sizeBytes = i.len ∧ i.len ≤ limits.maxEntryBytes.toNat ∧ (e.info.kind ≠ .file → i.len = 0) := by
  obtain ⟨-, -, ⟨size, hsize, hbytes, hnone⟩, hmax, -, -⟩ := openEntry_ok H ho
  obtain ⟨x, hx, hentry⟩ := hmade
  have heff := hreports hx hlen hk hentry hsize
  refine ⟨hbytes.trans heff, by omega, fun hfile => ?_⟩
  rw [← heff, hnone hfile]
  rfl

/-- A lent entry's item is a member of the stream, with the size it declares. -/
theorem Lends.memberAt (hreports : F.ReportsSize) {seen : Nat} {e : ReadEntry} {i : Item}
    (h : Lends H (outline F limits bytes) limits seen e i) :
    (∃ b p size, MemberAt H limits.maxMetadataBytes.toNat bytes b p size ∧ e.sizeBytes = p.getD size.toNat) ∧
      e.sizeBytes = i.len ∧ e.sizeBytes ≤ limits.maxEntryBytes.toNat ∧ (e.info.kind ≠ .file → i.len = 0) := by
  obtain ⟨b, p, size, hm, hlen, hlt, hmade⟩ :=
    (outlined_outline F limits bytes).memberAt .start List.drop_zero (List.mem_of_getElem? h.nth)
  obtain ⟨hsize, hmax, hnone⟩ := opened_size hreports hm.member hlt hmade h.opened
  have hdeclared : e.sizeBytes = i.len := hsize
  exact ⟨⟨b, p, size, hm, hdeclared.trans hlen⟩, hdeclared, hdeclared ▸ hmax, hnone⟩

/-- Over a parser that reports the size it goes by, a directory or link that is lent out has no
body: every read is at its end at once. And a directory or link the parser hands out with a body
makes the call fail. -/
theorem directories_and_links_have_no_body (hreports : F.ReportsSize) (howes : D.Owes decoded bytes none)
    (hstart : Reader.over T decoded limits = .ok r) (hrun : Session.Run H room ⟨r, none⟩ evs σ) :
    (∀ e, σ.entry = some e → e.info.kind ≠ .file →
      ∀ buf, σ.reader.pollBody e buf = (.ready (.ok ()), buf, e, σ.reader)) ∧
    (σ.entry = none → σ.reader.done = false → ∀ polls entry,
      (T.pull polls σ.reader.parser σ.reader.source).result = .done (some (.ok entry)) →
      bodiless (H.entryType entry.header) →
      0 < (fr.phase (T.pull polls σ.reader.parser σ.reader.source).parser).left →
      ∃ e, (σ.reader.nextEntry H polls).1 = .done (.error e)) := by
  obtain ⟨hlife, hfol⟩ := follows_decoded fr D howes hstart hrun
  constructor
  · intro e he hk buf
    obtain ⟨i, hlends, hpos⟩ := hfol.lent e he
    obtain ⟨-, -, -, hnone⟩ := hlends.memberAt hreports
    have h0 : i.len = 0 := hnone hk
    have hf : σ.reader.bodyFailed = false := by
      cases hf : σ.reader.bodyFailed with
      | false => rfl
      | true =>
        have := hpos hf
        omega
    obtain ⟨s, -, hreads⟩ := hfol.live hf (hlife.not_done he)
    have hr := hreads e i he hlends
    have hleft := hr.len
    exact pollBody_done fr hr.lending (by omega) hr.failed buf
  · intro hn hd polls entry hpull hb hleft
    cases hf : σ.reader.bodyFailed with
    | true => exact ⟨.aborted, by simp [Reader.nextEntry, hf]⟩
    | false =>
      obtain ⟨s, hst, -⟩ := hfol.live hf hd
      obtain ⟨handle, hh⟩ := Option.isSome_iff_exists.mp hst.entries
      have hp := pull_spec (I := fun φ s => φ.walk F s = (outline F limits bytes).after σ.reader.seen) fr
        (kept_walk _) polls hst.good hst.owes hst.kept
      simp only [PullAnswer, hpull] at hp
      obtain ⟨len, s', -, hI, hφ, -⟩ := hp
      rw [hφ, Phase.left_after] at hleft
      rw [Phase.walk_yielding] at hI
      rw [Reader.nextEntry_live hf hd hh, hpull]
      dsimp only
      rcases ha : (σ.reader.pulled polls).accept H entry with ⟨res, r'⟩
      cases res with
      | error e => exact ⟨e, rfl⟩
      | ok e =>
        have ho : openEntry H entry () limits = .ok e := by
          have := congrArg Prod.fst ha
          unfold Reader.accept at this
          simp only [Reader.pulled_limits, hfol.limits_eq] at this
          split_ifs at this
          exact this
        have hlends : Lends H (outline F limits bytes) limits (σ.reader.seen + 1) e ⟨entry, len, s'.take len⟩ := by
          refine ⟨Nat.succ_pos _, (Outline.cons_eq_after hI).1, ?_⟩
          rw [ho, ← (openEntry_ok H ho).2.2.2.2.2]
        obtain ⟨-, -, -, hnone⟩ := hlends.memberAt hreports
        have h0 : len = 0 := hnone (file_of_classify (openEntry_ok H ho).2.1 hb)
        exact absurd h0 (Nat.ne_of_gt hleft)

/-- The entry type that a pull came to. -/
def Pulled.entryType {T : Tar} {S : Type} (p : Pulled T S) : Option EntryType :=
  match p.result with
  | .done (some (.ok entry)) => some (gnuFields.entryType entry.header)
  | _ => none

/-- The directory of `plain` is lent out and has no body, and one that a PAX record gives a body
is refused. -/
theorem directories_and_links_have_no_body_sample :
    (∃ (σ : Session Gnu.tar (Source gnuFields fun _ : Script IoError => 0)) (e : ReadEntry),
      σ.entry = some e ∧ e.info.kind = .dir ∧
      σ.reader.pollBody e (.new 8) = (.ready (.ok ()), .new 8, e, σ.reader)) ∧
    ∃ e, ((fresh Gnu.format .default ⟨Gnu.resized 53 0, []⟩).nextEntry gnuFields 20).1 = .done (.error e) := by
  constructor
  · have h : ((Session.replay gnuFields [.next 20] [] ⟨fresh Gnu.format .default ⟨Gnu.plain, []⟩, none⟩).map
        fun q => q.2.entry.map (·.info.kind)) = some (some .dir) := by
      decide +kernel
    obtain ⟨⟨evs, σ⟩, hplay, hq⟩ := Option.map_eq_some_iff.mp h
    obtain ⟨e, he, hk⟩ := Option.map_eq_some_iff.mp hq
    have hrun := Session.replay_run gnuFields .start hplay
    exact ⟨σ, e, he, hk, (directories_and_links_have_no_body Gnu.frames Script.feed Gnu.reportsSize ⟨rfl, rfl⟩
      (over_fresh _ _ _) hrun).1 e he (by rw [hk]; simp) (.new 8)⟩
  · have hover := over_fresh Gnu.format .default ⟨Gnu.resized 53 0, []⟩
    have hpull : (Gnu.tar.pull 20 (fresh Gnu.format .default ⟨Gnu.resized 53 0, []⟩).parser
        (fresh Gnu.format .default ⟨Gnu.resized 53 0, []⟩).source).entryType = some .directory := by
      decide +kernel
    have hleft : (Gnu.frames.phase (Gnu.tar.pull 20 (fresh Gnu.format .default ⟨Gnu.resized 53 0, []⟩).parser
        (fresh Gnu.format .default ⟨Gnu.resized 53 0, []⟩).source).parser).left = 5 := by
      decide +kernel
    have hdone : (fresh Gnu.format .default ⟨Gnu.resized 53 0, []⟩).done = false := rfl
    generalize fresh Gnu.format .default ⟨Gnu.resized 53 0, []⟩ = r at hover hpull hleft hdone ⊢
    unfold Pulled.entryType at hpull
    split at hpull
    · rename_i entry hentry
      have hnone : Session.Run gnuFields (fun _ => True) ⟨r, none⟩ [] ⟨r, none⟩ := .start
      exact (directories_and_links_have_no_body Gnu.frames Script.feed Gnu.reportsSize ⟨rfl, rfl⟩ hover
        hnone).2 rfl hdone 20 entry hentry (Or.inl (Option.some.inj hpull))
        (by rw [hleft]; decide)
    · cases hpull

/-- Were the raw header reported, a directory with a PAX size would be lent out, and its body read. -/
theorem resized_directory_has_a_body :
    (∀ x h entry, Gnu.rawFormat.entry x h = .ok entry → entry.header = h) ∧
    ∃ evs σ e, Session.Run gnuFields (fun _ => True) ⟨fresh Gnu.rawFormat .default ⟨Gnu.resized 53 0, []⟩, none⟩ evs σ ∧
      σ.entry = some e ∧ e.info.kind = .dir ∧ bodyRead evs = [104, 101, 108, 108, 111] := by
  refine ⟨fun x h entry he => Gnu.rawFormat_header he, ?_⟩
  have h : ((Session.replay gnuFields [.next 20, .read 8] []
      ⟨fresh Gnu.rawFormat .default ⟨Gnu.resized 53 0, []⟩, none⟩).map
      fun q => (q.2.entry.map (·.info.kind), bodyRead q.1)) = some (some .dir, [104, 101, 108, 108, 111]) := by
    decide +kernel
  obtain ⟨⟨evs, σ⟩, hrun, hq⟩ := Option.map_eq_some_iff.mp h
  obtain ⟨hk, hread⟩ := Prod.mk.inj hq
  obtain ⟨e, he, hdir⟩ := Option.map_eq_some_iff.mp hk
  exact ⟨evs, σ, e, Session.replay_run gnuFields .start hrun, he, hdir, hread⟩

/-- Over a parser that reports the size it goes by, the size a lent entry declares is the
effective one of its member, that of its body, read and unread, and within the limit; and a
session that came to a clean end went over no larger body. -/
theorem declared_size_is_effective (hreports : F.ReportsSize) (howes : D.Owes decoded bytes none)
    (hstart : Reader.over T decoded limits = .ok r) (hrun : Session.Run H room ⟨r, none⟩ evs σ) :
    (∀ e, σ.entry = some e → e.sizeBytes ≤ limits.maxEntryBytes.toNat ∧
      (∃ h p size, MemberAt H limits.maxMetadataBytes.toNat bytes h p size ∧ e.sizeBytes = p.getD size.toNat) ∧
      (σ.reader.bodyFailed = false →
        e.sizeBytes = (bodyRead evs).length + (fr.phase σ.reader.parser).left)) ∧
    (.next (.done (.ok none)) ∈ evs → ∀ h p size, MemberAt H limits.maxMetadataBytes.toNat bytes h p size →
      p.getD size.toNat ≤ limits.maxEntryBytes.toNat) := by
  obtain ⟨hlife, hfol⟩ := follows_decoded fr D howes hstart hrun
  constructor
  · intro e he
    obtain ⟨i, hlends, -⟩ := hfol.lent e he
    obtain ⟨hm, hsize, hmax, -⟩ := hlends.memberAt hreports
    refine ⟨hmax, hm, fun hf => ?_⟩
    obtain ⟨s, -, hreads⟩ := hfol.live hf (hlife.not_done he)
    rw [hsize]
    exact (hreads e i he hlends).len
  · intro hend h p size hm
    have hd := hlife.finished.mpr hend
    obtain ⟨t, hstop, -, -, -, hall⟩ := hfol.finished hd
    have hacc := (hfol.accepted (hlife.last hd).1).2
    rw [List.take_of_length_le hall] at hacc
    obtain ⟨recs, hbytes, hframed⟩ := (outlined_outline F limits bytes).framed hstop
    rw [hbytes] at hm
    obtain ⟨i, hi, hlen, hlt, hmade⟩ := hframed.of_memberAt hm
    obtain ⟨e, he⟩ := hacc i hi
    rw [← hlen]
    exact (opened_size hreports hm.member hlt hmade he).2.1

/-- The file that a PAX record gives five bytes declares them. -/
theorem declared_size_is_effective_sample :
    ∃ (σ : Session Gnu.tar (Source gnuFields fun _ : Script IoError => 0)) (e : ReadEntry),
      σ.entry = some e ∧ e.info.kind = .file ∧ e.sizeBytes = 5 := by
  have h : ((Session.replay gnuFields [.next 20] [] ⟨fresh Gnu.format .default ⟨Gnu.resized 48 0, []⟩, none⟩).map
      fun q => (q.2.entry.map (·.info.kind), q.2.reader.bodyFailed, bodyRead q.1,
        (Gnu.frames.phase q.2.reader.parser).left)) = some (some .file, false, [], 5) := by
    decide +kernel
  obtain ⟨⟨evs, σ⟩, hplay, hq⟩ := Option.map_eq_some_iff.mp h
  simp only [Prod.mk.injEq] at hq
  obtain ⟨hlent, hf, hread, hleft⟩ := hq
  obtain ⟨e, he, hk⟩ := Option.map_eq_some_iff.mp hlent
  have hrun := Session.replay_run gnuFields .start hplay
  obtain ⟨-, -, hsize⟩ := (declared_size_is_effective Gnu.frames Script.feed Gnu.reportsSize ⟨rfl, rfl⟩
    (over_fresh _ _ _) hrun).1 e he
  refine ⟨σ, e, he, hk, ?_⟩
  rw [hsize hf, hread, hleft]
  rfl

/-- The size of the one entry that a traversal dropped unread before a clean end. -/
def droppedSize : List Event → Option Nat
  | [.next (.done (.ok (some e))), .drop, .next (.done (.ok none))] => some e.sizeBytes
  | _ => none

/-- Were the raw header reported, a file whose PAX size is over the limit would be lent out as an
empty one, and a traversal that drops its body unread come to a clean end. -/
theorem resized_file_passes_the_limit :
    (∀ x h entry, Gnu.rawFormat.entry x h = .ok entry → entry.header = h) ∧
    ∃ e σ, Session.Run gnuFields (fun _ => True) ⟨fresh Gnu.rawFormat small ⟨Gnu.resized 48 0, []⟩, none⟩
        [.next (.done (.ok (some e))), .drop, .next (.done (.ok none))] σ ∧
      e.sizeBytes = 0 ∧ small.maxEntryBytes = 4 ∧
      MemberAt gnuFields small.maxMetadataBytes.toNat (Gnu.resized 48 0) (Gnu.member 48 0).block (some 5) 0 := by
  refine ⟨fun x h entry he => Gnu.rawFormat_header he, ?_⟩
  have h : ((Session.replay gnuFields [.next 20, .drop, .next 40] []
      ⟨fresh Gnu.rawFormat small ⟨Gnu.resized 48 0, []⟩, none⟩).map fun q => droppedSize q.1) = some (some 0) := by
    decide +kernel
  obtain ⟨⟨evs, σ⟩, hplay, hq⟩ := Option.map_eq_some_iff.mp h
  dsimp only at hq
  unfold droppedSize at hq
  split at hq
  · rename_i evs' e
    have hrun := Session.replay_run gnuFields .start hplay
    exact ⟨e, σ, hrun, Option.some.inj hq, rfl, resized_memberAt⟩
  · cases hq

end

end Etar
