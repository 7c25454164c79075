import Etar.Ratio
import Etar.Verdict

/-!
# Callers see one traversal

What a caller reads of the bodies, and how the source cuts its bytes, changes neither the
entries handed out nor the end: a traversal that goes well up to its last call hands out the
first entries that the bytes decide, and ends as they decide or where the cap breaks.
-/
namespace Etar

open AsyncIo Limit Guard Compress Scan
open Guard.HeaderGuard (sharp)

section Guards

variable {H : HeaderFields} {R : Type} [AsyncRead IoError R]

/-- A sharp feed owes what the guard's feed owes. -/
theorem Guard.HeaderGuard.sharp_end {C : Feed IoError R} {spoilt : Bool} {g : HeaderGuard H R}
    (h : SourceEnd (sharp C spoilt) g) : SourceEnd (HeaderGuard.feed C) g := by
  obtain ⟨g₀, b, ⟨rest, stop, hbt, -, hs, hstop⟩, hend⟩ := h
  exact ⟨g₀, b, ⟨rest, stop, hbt, hs, hstop⟩, hend⟩

end Guards

section Traversals

variable {T : Tar} {H : HeaderFields} {F : TarFormat H} {D : Type} [AsyncRead IoError D] {count : D → Nat}
variable {K : Feed IoError D}

variable (F) in
/-- A traversal as the stream has it: its calls went well before `pre` ended, and then one
answered `res`, with `decoded` bytes charged. -/
structure Ends (limits : SecurityLimits) (bytes : List UInt8) (stop : Option IoError) (pre : List Event)
    (res : Except Error (Option ReadEntry)) (decoded : Nat) : Prop where
  calls : ∀ k e, (handed pre)[k]? = some e →
    (lines F limits bytes).call H limits ((guardStop H limits bytes).or stop) k = .ok (some e)
  answer : (lines F limits bytes).call H limits ((guardStop H limits bytes).or stop) (handed pre).length = res ∨
    ∃ e, res = .error e ∧ Breach limits.maxTotalBytes.toNat bytes.length e
  clean : res = .ok none → decoded = bytes.length ∧ bytes.length ≤ limits.maxTotalBytes.toNat

theorem Session.Run.last {S : Type} [AsyncRead IoError S] [Counters S] {room : ReadBuf → Prop} {start σ : Session T S}
    {evs : List Event} {ev : Event} (h : Session.Run H room start (evs ++ [ev]) σ) :
    ∃ σ₀, Session.Run H room start evs σ₀ ∧ σ₀.Step H room ev σ := by
  generalize hevs : evs ++ [ev] = evs' at h
  cases h with
  | start => simp at hevs
  | step h hs =>
    obtain ⟨rfl, hev⟩ := List.append_inj' hevs rfl
    cases hev
    exact ⟨_, h, hs⟩

theorem ends_of_run (fr : T.Frames F) (hon : fr.Honest) (hK : K.Faultless) {d : D} {limits : SecurityLimits}
    {bytes : List UInt8} {stop : Option IoError} (hhushed : K.Hushed stop) (howes : K.Owes d bytes stop)
    (hn : bytes.length < 2 ^ 64) {r : Reader T (Source H count)} (hstart : Reader.over T d limits = .ok r)
    {room : ReadBuf → Prop} {pre : List Event} {res : Except Error (Option ReadEntry)} {σ : Session T (Source H count)}
    (hrun : Session.Run H room ⟨r, none⟩ (pre ++ [.next (.done res)]) σ) (hgoes : ∀ ev ∈ pre, ev.Goes) :
    Ends F limits bytes stop pre res σ.reader.decodedBytes := by
  obtain ⟨σ₀, hpre, hlast⟩ := hrun.last
  have hheeds := heeds_of_run (H := H) (sharp_stack hK hn) (whole_lines F) hon idle_guard
    (owes_sharp hhushed howes hn) rfl hstart hpre hgoes
  generalize hev : Event.next (.done res) = ev at hlast
  cases hlast with
  | read | drop => cases hev
  | next r₀ polls =>
    have hres : (r₀.nextEntry H polls).1 = .done res := (Event.next.inj hev).symm
    obtain ⟨s, hears, -⟩ := hheeds.hears
    have hdecided := next_exact (H := H) (sharp_stack hK hn) (whole_lines F) hon polls hears
    have hlimits : r₀.limits = limits := hheeds.limits_eq
    have hseen : r₀.seen = (handed pre).length := hheeds.seen_eq
    have hl : (r₀.nextEntry H polls).2.limits = limits := (Reader.nextEntry_kept r₀ polls).1.trans hlimits
    refine ⟨hheeds.calls, ?_, ?_⟩
    · cases res with
      | ok o =>
        have hcall := hdecided.call_ok hres
        rw [hlimits, hseen] at hcall
        exact Or.inl hcall
      | error e =>
        obtain ⟨hle, hwhy⟩ := hdecided.call_error hres
        rw [hlimits, hseen] at hwhy
        have htraced := first_error hon (intact_stack d limits) hstart hpre (fun ev hev => (hgoes ev hev).not_bad) hres
        rcases accused_traced hl htraced with ⟨hf, hmax⟩ | hbreach
        · rcases hwhy with hout | hcall
          · rw [hf] at hout
            cases hout
          · exact Or.inl (hcall hmax)
        · rw [hl] at hbreach
          exact Or.inr ⟨e, rfl, hbreach.mono hle⟩
    · rintro rfl
      unfold Decided at hdecided
      rw [hres] at hdecided
      obtain ⟨-, -, hend⟩ := hdecided
      obtain ⟨c, rest, hc, heof⟩ := HeaderGuard.sourceEnd (HeaderGuard.sharp_end hend)
      obtain ⟨-, hf, -⟩ := Cap.eofSince heof
      have hcharged := ((Cap.charging K hn limits.maxTotalBytes.toNat).eofSince heof hc).2
      have htotal := hcharged.total_eq hf
      refine ⟨htotal, ?_⟩
      rw [← htotal]
      exact hcharged.total_le hf

/-- Two traversals that ended, over `n` decoded bytes, hand out the same entries and end alike, with
as many bytes decoded where the end is clean; or one of them broke the total, and then neither
comes to a clean end and one went further than the other. -/
structure Alike (max n : Nat) (pre pre' : List Event) (res res' : Except Error (Option ReadEntry))
    (decoded decoded' : Nat) : Prop where
  comparable : handed pre <+: handed pre' ∨ handed pre' <+: handed pre
  same : (handed pre = handed pre' ∧ res = res') ∨
    max < n ∧ (res = .error (.limitExceeded "max_total_bytes") ∨ res' = .error (.limitExceeded "max_total_bytes"))
  clean : res = .ok none ∨ res' = .ok none → handed pre = handed pre' ∧ res = res' ∧ decoded = decoded'

section Pairs

variable {limits : SecurityLimits} {bytes : List UInt8} {stop : Option IoError} {pre pre' : List Event}
variable {res res' : Except Error (Option ReadEntry)} {k k' : Nat}
variable (h : Ends F limits bytes stop pre res k) (h' : Ends F limits bytes stop pre' res' k')

include h in
/-- Where the ratio holds, a traversal ends as the stream decides or breaks the total. -/
theorem Ends.decided (hratio : res ≠ .error (.limitExceeded "max_compression_ratio")) :
    (lines F limits bytes).call H limits ((guardStop H limits bytes).or stop) (handed pre).length = res ∨
      limits.maxTotalBytes.toNat < bytes.length ∧ res = .error (.limitExceeded "max_total_bytes") := by
  rcases h.answer with hres | ⟨e, rfl, ⟨hlt, rfl⟩ | ⟨-, rfl⟩⟩
  · exact Or.inl hres
  · exact Or.inr ⟨hlt, rfl⟩
  · exact absurd rfl hratio

include h' in
theorem Ends.length_le (hlast : ∀ e, res ≠ .ok (some e))
    (hres : (lines F limits bytes).call H limits ((guardStop H limits bytes).or stop) (handed pre).length = res) :
    (handed pre').length ≤ (handed pre).length := by
  by_contra hlt
  obtain ⟨e, he⟩ : ∃ e, (handed pre')[(handed pre).length]? = some e :=
    ⟨_, List.getElem?_eq_getElem (Nat.lt_of_not_le hlt)⟩
  exact hlast e (hres.symm.trans (h'.calls _ e he))

include h h' in
/-- Of two traversals of a stream the shorter handed out the first entries of the longer. -/
theorem Ends.first_entries (hle : (handed pre).length ≤ (handed pre').length) : handed pre <+: handed pre' := by
  rw [List.prefix_iff_getElem?]
  intro i hi
  have he := h.calls i _ (List.getElem?_eq_getElem hi)
  have hi' := List.getElem?_eq_getElem (hi.trans_le hle)
  have he' := h'.calls i _ hi'
  rw [hi']
  exact Except.ok.inj (he'.symm.trans he)

include h h' in
theorem Ends.comparable : handed pre <+: handed pre' ∨ handed pre' <+: handed pre :=
  (Nat.le_total _ _).imp (h.first_entries h') (h'.first_entries h)

include h h' in
theorem Ends.alike (hlast : ∀ e, res ≠ .ok (some e)) (hlast' : ∀ e, res' ≠ .ok (some e))
    (hratio : res ≠ .error (.limitExceeded "max_compression_ratio"))
    (hratio' : res' ≠ .error (.limitExceeded "max_compression_ratio")) :
    Alike limits.maxTotalBytes.toNat bytes.length pre pre' res res' k k' := by
  rcases h.decided hratio with hres | ⟨hlt, hres⟩
  · rcases h'.decided hratio' with hres' | ⟨hlt, hres'⟩
    · have hle := h'.length_le hlast hres
      have hle' := h.length_le hlast' hres'
      have hhanded := (h.first_entries h' hle').eq_of_length (Nat.le_antisymm hle' hle)
      rw [← hhanded, hres] at hres'
      subst hres'
      refine ⟨h.comparable h', Or.inl ⟨hhanded, rfl⟩, fun hend => ⟨hhanded, rfl, ?_⟩⟩
      rw [or_self] at hend
      rw [(h.clean hend).1, (h'.clean hend).1]
    · refine ⟨h.comparable h', Or.inr ⟨hlt, Or.inr hres'⟩, ?_⟩
      rintro (hend | hend)
      · exact absurd (h.clean hend).2 (Nat.not_le.mpr hlt)
      · cases hres'.symm.trans hend
  · refine ⟨h.comparable h', Or.inr ⟨hlt, Or.inl hres⟩, ?_⟩
    rintro (hend | hend)
    · cases hres.symm.trans hend
    · exact absurd (h'.clean hend).2 (Nat.not_le.mpr hlt)

end Pairs

end Traversals

section Raw

variable {T : Tar} {H : HeaderFields} {F : TarFormat H}

/-- A traversal of a source without the zstd magic, where the ratio is at least one. -/
theorem ends_of_raw {R : Type} [AsyncRead IoError R] {dec : Decoder (Replay R)} {S : Feed IoError R} (fr : T.Frames F)
    (hon : fr.Honest) (hS : S.Faultless) {source : R} {z : List UInt8} (howes : S.Owes source z none)
    (hraw : ¬ zstdMagic <+: z) (hz : z.length < 2 ^ 64) (hfew : Cap.Few source) {limits : SecurityLimits}
    (hratio : 1 ≤ limits.maxCompressionRatio.toNat) {polls : Nat} {r : Opened T H dec}
    (hr : Reader.open T dec polls source limits = .done (.ok r)) {room : ReadBuf → Prop} {pre : List Event}
    {res : Except Error (Option ReadEntry)} {σ : Session T (Source H (Decoded.count : Decoded dec → Nat))}
    (hrun : Session.Run H room ⟨r, none⟩ (pre ++ [.next (.done res)]) σ) (hgoes : ∀ ev ∈ pre, ev.Goes) :
    Ends F limits z none pre res σ.reader.decodedBytes ∧ res ≠ .error (.limitExceeded "max_compression_ratio") := by
  have hplain : ∀ bytes r, Handed source bytes r → ¬ zstdMagic <+: bytes := by
    intro bytes r h hmagic
    obtain ⟨s, rfl, -⟩ := S.handed h howes
    exact hraw (hmagic.trans (List.prefix_append _ _))
  constructor
  · obtain ⟨d, hd, hstart⟩ := open_ok hr
    obtain ⟨b, hb⟩ := sniffed hd
    obtain ⟨hreplay, rfl⟩ := hb (G := Meter.feed S) ⟨none, rfl, howes⟩
    have hchoice : wrap dec z b = .plain b := if_neg hraw
    rw [hchoice] at hstart
    have hplainly : (Decoded.feed (replayFeed S) Feed.never : Feed IoError (Decoded dec)).Owes (.plain b) z none := hreplay
    exact ends_of_run fr hon (Decoded.faultless (replayFeed_faultless hS) Feed.never_faultless) (Feed.hushed_none _)
      hplainly hz hstart hrun hgoes
  · rintro rfl
    obtain ⟨hstart, hin⟩ := in_pace_open hplain hfew hratio hr
    exact (silent_of_run (Q := fun g => InPace source g.inner) (inPace_stack hfew H) hon hin hstart hrun).1 _
      (List.mem_append_right _ (List.mem_singleton_self _)) rfl

variable {R R' : Type} [AsyncRead IoError R] [AsyncRead IoError R'] {dec : Decoder (Replay R)} {dec' : Decoder (Replay R')}
variable {S : Feed IoError R} {S' : Feed IoError R'}

/-- Two callers of a raw archive, whatever they read of its bodies and however it arrives, see the
same entries and the same end, unless the total breaks for one of them. -/
theorem callers_agree (fr : T.Frames F) (hon : fr.Honest) (hS : S.Faultless) (hS' : S'.Faultless) {source : R}
    {source' : R'} {z : List UInt8} (howes : S.Owes source z none) (howes' : S'.Owes source' z none)
    (hraw : ¬ zstdMagic <+: z) (hz : z.length < 2 ^ 64) (hfew : Cap.Few source) (hfew' : Cap.Few source')
    {limits : SecurityLimits} (hratio : 1 ≤ limits.maxCompressionRatio.toNat) {polls polls' : Nat}
    {r : Opened T H dec} {r' : Opened T H dec'} (hr : Reader.open T dec polls source limits = .done (.ok r))
    (hr' : Reader.open T dec' polls' source' limits = .done (.ok r')) {room room' : ReadBuf → Prop}
    {pre pre' : List Event} {res res' : Except Error (Option ReadEntry)}
    {σ : Session T (Source H (Decoded.count : Decoded dec → Nat))}
    {σ' : Session T (Source H (Decoded.count : Decoded dec' → Nat))}
    (hrun : Session.Run H room ⟨r, none⟩ (pre ++ [.next (.done res)]) σ)
    (hrun' : Session.Run H room' ⟨r', none⟩ (pre' ++ [.next (.done res')]) σ') (hgoes : ∀ ev ∈ pre, ev.Goes)
    (hgoes' : ∀ ev ∈ pre', ev.Goes) (hlast : ∀ e, res ≠ .ok (some e)) (hlast' : ∀ e, res' ≠ .ok (some e)) :
    Alike limits.maxTotalBytes.toNat z.length pre pre' res res' σ.reader.decodedBytes σ'.reader.decodedBytes := by
  obtain ⟨h, hbound⟩ := ends_of_raw fr hon hS howes hraw hz hfew hratio hr hrun hgoes
  obtain ⟨h', hbound'⟩ := ends_of_raw fr hon hS' howes' hraw hz hfew' hratio hr' hrun' hgoes'
  exact h.alike h' hlast hlast' hbound hbound'

/-- Open an archive, take its entry, read one byte of it and drop it: the error of the call after. -/
def Gnu.afterEntry (limits : SecurityLimits) (source : Script IoError) : Option Error :=
  match Reader.open (H := gnuFields) Gnu.tar (RawZstd.decoder (Replay (Script IoError))) 9 source limits with
  | .done (.ok r) =>
    match Session.replay gnuFields [.next 20, .read 1, .drop, .next 20] [] ⟨r, none⟩ with
    | some ([.next (.done (.ok (some _))), .read (.ready (.ok ())) _, .drop, .next (.done (.error e))], _) => some e
    | _ => none
  | _ => none

theorem Gnu.run_afterEntry {limits : SecurityLimits} {source : Script IoError} {e : Error}
    (h : afterEntry limits source = some e) :
    ∃ (r : Opened Gnu.tar gnuFields (RawZstd.decoder (Replay (Script IoError)))) (pre : List Event) (σ : _),
      Reader.open Gnu.tar _ 9 source limits = .done (.ok r) ∧ (∀ ev ∈ pre, ev.Goes) ∧
      Session.Run gnuFields (fun _ => True) ⟨r, none⟩ (pre ++ [.next (.done (.error e))]) σ := by
  unfold afterEntry at h
  split at h
  · rename_i r hr
    split at h
    · rename_i entry bytes e' σ hplay
      cases h
      have hrun := Session.replay_run gnuFields .start hplay
      exact ⟨r, [.next (.done (.ok (some entry))), .read (.ready (.ok ())) bytes, .drop], σ, hr, by simp [Event.Goes], hrun⟩
    · cases h
  · cases h

/-- One caller finds the archive malformed, the other finds it too large. -/
theorem callers_agree_not_always :
    let limits := { SecurityLimits.default with maxTotalBytes := 1100 }
    let parts : Script IoError := ⟨Gnu.trailed, [.give 4, .give 1021]⟩
    let whole : Script IoError := ⟨Gnu.trailed, []⟩
    Script.steadyFeed.Owes parts Gnu.trailed none ∧ Script.steadyFeed.Owes whole Gnu.trailed none ∧
    ¬ zstdMagic <+: Gnu.trailed ∧ 1 ≤ limits.maxCompressionRatio.toNat ∧
    (∃ (r : Opened Gnu.tar gnuFields (RawZstd.decoder (Replay (Script IoError)))) (pre : List Event) (σ : _),
      Reader.open Gnu.tar _ 9 parts limits = .done (.ok r) ∧ (∀ ev ∈ pre, ev.Goes) ∧
      Session.Run gnuFields (fun _ => True) ⟨r, none⟩ (pre ++ [.next (.done (.error .malformed))]) σ) ∧
    (∃ (r : Opened Gnu.tar gnuFields (RawZstd.decoder (Replay (Script IoError)))) (pre : List Event) (σ : _),
      Reader.open Gnu.tar _ 9 whole limits = .done (.ok r) ∧ (∀ ev ∈ pre, ev.Goes) ∧
      Session.Run gnuFields (fun _ => True) ⟨r, none⟩ (pre ++ [.next (.done (.error (.limitExceeded "max_total_bytes")))]) σ) := by
  refine ⟨⟨⟨rfl, rfl⟩, fun e he => by simp at he⟩, ⟨⟨rfl, rfl⟩, nofun⟩, ?_, by decide, ?_, ?_⟩
  · decide +kernel
  · exact Gnu.run_afterEntry (by decide +kernel)
  · exact Gnu.run_afterEntry (by decide +kernel)

/-- In parts or at once, both callers are handed the directory and then find the archive malformed. -/
theorem callers_agree_sample : ∃ pre pre' decoded decoded',
    Alike SecurityLimits.default.maxTotalBytes.toNat Gnu.trailed.length pre pre' (.error .malformed) (.error .malformed)
      decoded decoded' := by
  have hparts : Gnu.afterEntry .default ⟨Gnu.trailed, [.give 4, .late, .give 1021]⟩ = some .malformed := by decide +kernel
  have hwhole : Gnu.afterEntry .default ⟨Gnu.trailed, []⟩ = some .malformed := by decide +kernel
  obtain ⟨r, pre, σ, hr, hgoes, hrun⟩ := Gnu.run_afterEntry hparts
  obtain ⟨r', pre', σ', hr', hgoes', hrun'⟩ := Gnu.run_afterEntry hwhole
  have howes : Script.steadyFeed.Owes (⟨Gnu.trailed, [.give 4, .late, .give 1021]⟩ : Script IoError) Gnu.trailed none :=
    ⟨⟨rfl, rfl⟩, fun e he => by simp at he⟩
  have howes' : Script.steadyFeed.Owes (⟨Gnu.trailed, []⟩ : Script IoError) Gnu.trailed none := ⟨⟨rfl, rfl⟩, nofun⟩
  have hraw : ¬ zstdMagic <+: Gnu.trailed := by decide +kernel
  have hlen : Gnu.trailed.length < 2 ^ 64 := by decide +kernel
  exact ⟨pre, pre', _, _, callers_agree Gnu.frames Gnu.honest Script.steady_faultless Script.steady_faultless howes howes'
    hraw hlen (few_script hlen) (few_script hlen) (by decide) hr hr' hrun hrun' hgoes hgoes' nofun nofun⟩

end Raw

end Etar
