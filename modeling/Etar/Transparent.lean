import Etar.Callers
import Etar.Looser

/-!
# Compression is transparent

What a validation and a traversal answer is decided by the decoded stream. Two encodings of one
stream, a raw one and a compressed one say, are therefore read alike, but for the encoded bytes
they are made of and the ratio between the two.
-/
namespace Etar

open AsyncIo Limit Compress

/-- Answers over encodings of the same `n` decoded bytes that differ by the encoded bytes and by
the bounds of the cap at most. -/
def Matches (max n : Nat) : Except Error ValidationReport → Except Error ValidationReport → Prop
  | .ok report, .ok report' => report.entries = report'.entries ∧ report.decodedBytes = report'.decodedBytes
  | .ok _, .error e => e = .limitExceeded "max_compression_ratio"
  | .error e, .ok _ => e = .limitExceeded "max_compression_ratio"
  | .error e, .error e' => e = e' ∨ Breach max n e ∨ Breach max n e'

variable {T : Tar} {H : HeaderFields} {F : TarFormat H} (fr : T.Frames F) (hon : fr.Honest)
variable {R R' : Type} [AsyncRead IoError R] [AsyncRead IoError R'] {dec : Decoder (Replay R)} {dec' : Decoder (Replay R')}
variable {decode decode' : List UInt8 → List UInt8 × Option IoError} {S : Feed IoError R} {S' : Feed IoError R'}
variable (hC : dec.Computes decode S) (hC' : dec'.Computes decode' S') (hS : S.Faultless) (hS' : S'.Faultless)
variable {source : R} {source' : R'} {z z' : List UInt8} (howes : S.Owes source z none) (howes' : S'.Owes source' z' none)
variable (hsame : contents decode z = contents decode' z') (hD : (contents decode z).1.length < 2 ^ 64)
variable {limits : SecurityLimits} {polls polls' : Nat}

section Verdicts

variable (hend : dec.ReadsToEnd) (hend' : dec'.ReadsToEnd) (hz : z.length < 2 ^ 64) (hz' : z'.length < 2 ^ 64)

include fr hon hC hC' hS hS' howes howes' hsame hD hend hend' hz hz' in
/-- Validations of two encodings of one stream give the same verdict, unless one of them broke the
ratio, or both failed and one of them broke the total. -/
theorem encodings_validate_alike {res res' : Except Error ValidationReport}
    (hres : Reader.validate H T dec polls source limits = .done res)
    (hres' : Reader.validate H T dec' polls' source' limits = .done res') :
    Matches limits.maxTotalBytes.toNat (contents decode z).1.length res res' := by
  have hD' : (contents decode' z').1.length < 2 ^ 64 := by rwa [← hsame]
  obtain ⟨hv, hreport⟩ := validate_judged fr hon hC hend hS howes hz hD hres
  obtain ⟨hv', hreport'⟩ := validate_judged fr hon hC' hend' hS' howes' hz' hD' hres'
  rw [← hsame] at hv' hreport'
  cases res with
  | ok report =>
    obtain ⟨-, hdecoded, hle⟩ := hreport report rfl
    cases res' with
    | ok report' =>
      obtain ⟨-, hdecoded', -⟩ := hreport' report' rfl
      exact ⟨Except.ok.inj ((show judge F _ _ _ = _ from hv).symm.trans hv'), hdecoded.trans hdecoded'.symm⟩
    | error e =>
      rcases hv' with hv' | ⟨hlt, -⟩ | ⟨-, he⟩
      · cases (show judge F _ _ _ = _ from hv).symm.trans hv'
      · omega
      · exact he
  | error e =>
    cases res' with
    | ok report' =>
      obtain ⟨-, -, hle⟩ := hreport' report' rfl
      rcases hv with hv | ⟨hlt, -⟩ | ⟨-, he⟩
      · cases hv.symm.trans (show judge F _ _ _ = _ from hv')
      · omega
      · exact he
    | error e' =>
      rcases hv with hv | hbreach
      · rcases hv' with hv' | hbreach'
        · exact Or.inl (Except.error.inj (hv.symm.trans hv'))
        · exact Or.inr (Or.inr hbreach')
      · exact Or.inr (Or.inl hbreach)

end Verdicts

section Traversals

include fr hon hC hS howes hD in
/-- A traversal of an opened archive that went well up to its last call. -/
theorem ends_of_open {r : Opened T H dec} (hr : Reader.open T dec polls source limits = .done (.ok r))
    {room : ReadBuf → Prop} {pre : List Event} {res : Except Error (Option ReadEntry)}
    {σ : Session T (Source H (Decoded.count : Decoded dec → Nat))}
    (hrun : Session.Run H room ⟨r, none⟩ (pre ++ [.next (.done res)]) σ) (hgoes : ∀ ev ∈ pre, ev.Goes) :
    Ends F limits (contents decode z).1 (contents decode z).2 pre res σ.reader.decodedBytes := by
  obtain ⟨d, hd, hstart⟩ := open_ok hr
  obtain ⟨b, hb⟩ := sniffed hd
  exact ends_of_run fr hon (Decoded.faultless (replayFeed_faultless hS) (hC.faultless hS)) (hC.hushed_decoded _)
    ((hb (G := Meter.feed S) ⟨none, rfl, howes⟩).decodes hC) hD hstart hrun hgoes

end Traversals

section Samples

/-- The archive of one directory in a zstd frame. -/
def Gnu.packed : List UInt8 := RawZstd.frame plain

theorem Gnu.contents_plain : contents RawZstd.unpack plain = (plain, none) := by
  have hmagic : ¬ zstdMagic <+: plain := by decide +kernel
  rw [contents, if_neg hmagic]

theorem Gnu.contents_packed : contents RawZstd.unpack packed = (plain, none) := by
  have hframe : RawZstd.Frame plain packed := by
    have h := @RawZstd.frame_frames [plain] (List.cons_ne_nil _ _)
    rwa [List.flatten_singleton, List.flatMap_singleton] at h
  rw [contents, if_pos hframe.1, RawZstd.unpack_frame hframe]

theorem Gnu.owes_script (bytes : List UInt8) : Script.steadyFeed.Owes (⟨bytes, []⟩ : Script IoError) bytes none :=
  ⟨⟨rfl, rfl⟩, fun e he => by simp at he⟩

/-- Raw or packed, the archive of one directory is worth the same entries. -/
theorem encodings_validate_alike_sample :
    Matches SecurityLimits.default.maxTotalBytes.toNat (contents RawZstd.unpack Gnu.plain).1.length
      (.ok ⟨1, 1536, 1536⟩) (.ok ⟨1, 1551, 1536⟩) := by
  have hplain : Reader.validate gnuFields Gnu.tar (RawZstd.decoder (Replay (Script IoError))) 40
      ⟨Gnu.plain, []⟩ .default = .done (.ok ⟨1, 1536, 1536⟩) := by decide +kernel
  have hpacked : Reader.validate gnuFields Gnu.tar (RawZstd.decoder (Replay (Script IoError))) 40
      ⟨Gnu.packed, []⟩ .default = .done (.ok ⟨1, 1551, 1536⟩) := by decide +kernel
  have hlen : Gnu.plain.length < 2 ^ 64 := by decide +kernel
  have hlen' : Gnu.packed.length < 2 ^ 64 := by decide +kernel
  have hdecoded : (contents RawZstd.unpack Gnu.plain).1.length < 2 ^ 64 := by
    rw [Gnu.contents_plain]
    exact hlen
  exact encodings_validate_alike Gnu.frames Gnu.honest (RawZstd.computes Script.steadyFeed)
    (RawZstd.computes Script.steadyFeed) Script.steady_faultless Script.steady_faultless (Gnu.owes_script _)
    (Gnu.owes_script _) (Gnu.contents_plain.trans Gnu.contents_packed.symm) hdecoded
    RawZstd.reads_to_end RawZstd.reads_to_end hlen hlen' hplain hpacked

end Samples

end Etar
