import Etar.Buffered
import Etar.Reader

/-!
# Sniffing the compression

`decoded` peeks at up to four bytes, replays them in front of a buffered reader and puts the
zstd decoder on top when they are its magic. The decoder is a parameter; `Computes` is what is
assumed of it. `Reader.open` stacks the archive reader on the result.
-/
namespace Etar

open AsyncIo Limit

namespace Compress

/-- Bytes peeked to detect compression. -/
def peekLen : Nat := 4

/-- The zstd frame magic. -/
def zstdMagic : List UInt8 := [0x28, 0xB5, 0x2F, 0xFD]

/-- Buffered-reader capacity feeding the decoder. -/
def bufCap : Nat := 64 * 1024

/-- The buffered reader under the decoder: the peeked bytes, then the source. -/
abbrev Buffered (S : Type) := BufReader bufCap (Chain S)

/-- It as `Reader::open` stacks it, over the metered source. -/
abbrev Replay (R : Type) := Buffered (Meter R)

end Compress

open Compress

/-- `ZstdDecoder`, with multiple members, as a parameter: a reader over a buffered one. -/
structure Decoder (X : Type) where
  Reader : Type
  read : AsyncRead IoError Reader
  new : X → Reader
  inner : Reader → X

instance {X : Type} (dec : Decoder X) : AsyncRead IoError dec.Reader := dec.read

/-- The reader that sniffing chooses over the buffered one. -/
inductive Decoded {X : Type} (dec : Decoder X) where
  | plain (b : X)
  | zstd (z : dec.Reader)

namespace Decoded

/-- The buffered reader at the bottom. -/
def replay {X : Type} {dec : Decoder X} : Decoded dec → X
  | plain b => b
  | zstd z => dec.inner z

/-- The count of the meter, which the `Cap` above reads. -/
def count {R : Type} {dec : Decoder (Replay R)} (d : Decoded dec) : Nat := d.replay.inner.second.count

instance {X : Type} [AsyncRead IoError X] {dec : Decoder X} : AsyncRead IoError (Decoded dec) where
  pollRead
    | plain b, buf =>
      let p := pollRead b buf
      ⟨p.outcome, p.buf, .plain p.reader⟩
    | zstd z, buf =>
      let p := pollRead z buf
      ⟨p.outcome, p.buf, .zstd p.reader⟩
  grows d buf := by
    cases d with
    | plain b => exact AsyncRead.grows b buf
    | zstd z => exact AsyncRead.grows z buf

end Decoded

namespace Compress

variable {S : Type} [AsyncRead IoError S]

/-- The loop of `decoded`: read until four bytes are seen or the source ends. -/
def peek : Nat → List UInt8 → S → Await (Except IoError (List UInt8)) × S
  | polls, seen, r =>
    if seen.length < peekLen then
      match polls with
      | 0 => (.cancelled, r)
      | polls + 1 =>
        let p := pollRead r (.new (peekLen - seen.length))
        match p.outcome with
        | .pending => peek polls seen p.reader
        | .ready (.error e) => (.done (.error e), p.reader)
        | .ready (.ok ()) =>
          if p.buf.filled = [] then (.done (.ok seen), p.reader)
          else peek polls (seen ++ p.buf.filled) p.reader
    else (.done (.ok seen), r)

/-- Select the decoder for the magic. -/
def wrap {X : Type} (dec : Decoder X) (magic : List UInt8) (buf : X) : Decoded dec :=
  if zstdMagic <+: magic then .zstd (dec.new buf) else .plain buf

/-- `decoded`, dropped after `polls` polls of the source. -/
def decoded (dec : Decoder (Buffered S)) (polls : Nat) (src : S) : Await (Except IoError (Decoded dec)) :=
  match peek polls [] src with
  | (.cancelled, _) => .cancelled
  | (.done (.error e), _) => .done (.error e)
  | (.done (.ok magic), src) => .done (.ok (wrap dec magic (.new bufCap (.new magic src))))

end Compress

/-- `Reader::open`, dropped after `polls` polls of the source. -/
def Reader.open {H : HeaderFields} {R : Type} [AsyncRead IoError R] (T : Tar) (dec : Decoder (Replay R)) (polls : Nat)
    (source : R) (limits : SecurityLimits) :
    Await (Except Error (Reader T (Source H (Decoded.count : Decoded dec → Nat)))) :=
  match decoded dec polls (.new source) with
  | .cancelled => .cancelled
  | .done (.error e) => .done (.error (.io e))
  | .done (.ok d) => .done (Reader.over T d limits)

/-- `validate`; opening and every call are given `polls` polls. -/
def Reader.validate (H : HeaderFields) {R : Type} [AsyncRead IoError R] (T : Tar) (dec : Decoder (Replay R))
    (polls : Nat) (source : R) (limits : SecurityLimits) : Await (Except Error ValidationReport) :=
  match Reader.open (H := H) T dec polls source limits with
  | .cancelled => .cancelled
  | .done (.error e) => .done (.error e)
  | .done (.ok r) => r.validateFrom H polls 0

section Feeds

variable {R : Type} [AsyncRead IoError R]

/-- A source error as the meter boxes it. -/
def boxed (e : IoError) : IoError := .custom e.kind (.io e)

namespace Limit.Meter

theorem outcome_poll (m : Meter R) (buf : ReadBuf) :
    (pollRead m buf).outcome = match (pollRead m.inner buf).outcome with
      | .ready (.error e) => .ready (.error (boxed e))
      | other => other := rfl

theorem inner_poll (m : Meter R) (buf : ReadBuf) :
    (pollRead m buf).reader.inner = (pollRead m.inner buf).reader := rfl

theorem inner_pending {m : Meter R} {buf : ReadBuf} (ho : (pollRead m buf).outcome = .pending) :
    (pollRead m.inner buf).outcome = .pending := by
  rw [outcome_poll] at ho
  split at ho
  · cases ho
  · exact ho

theorem inner_ok {m : Meter R} {buf : ReadBuf} (ho : (pollRead m buf).outcome = .ready (.ok ())) :
    (pollRead m.inner buf).outcome = .ready (.ok ()) := by
  rw [outcome_poll] at ho
  split at ho
  · cases ho
  · exact ho

theorem inner_error {m : Meter R} {buf : ReadBuf} {e : IoError} (ho : (pollRead m buf).outcome = .ready (.error e)) :
    ∃ e', e = boxed e' ∧ (pollRead m.inner buf).outcome = .ready (.error e') := by
  rw [outcome_poll] at ho
  split at ho
  · rename_i e' ho'
    cases ho
    exact ⟨e', rfl, ho'⟩
  · rename_i hnot
    exact absurd ho (hnot e)

/-- A metered feed owes the same bytes, and ends with its errors boxed. -/
def feed (F : Feed IoError R) : Feed IoError (Meter R) where
  Owes m s stop := ∃ stop', stop = stop'.map boxed ∧ F.Owes m.inner s stop'
  pending {m s stop buf} hm hb ho := by
    obtain ⟨stop', rfl, hin⟩ := hm
    obtain ⟨hbuf, hin'⟩ := F.pending hin hb (inner_pending ho)
    exact ⟨hbuf, stop', rfl, hin'⟩
  chunk {m s stop buf} hm hb ho := by
    obtain ⟨stop', rfl, hin⟩ := hm
    obtain ⟨s', hs, hin', hend⟩ := F.chunk hin hb (inner_ok ho)
    exact ⟨s', hs, ⟨stop', rfl, hin'⟩, fun h => ⟨(hend h).1, by rw [(hend h).2]; rfl⟩⟩
  fault {m s stop buf e} hm hb ho := by
    obtain ⟨stop', rfl, hin⟩ := hm
    obtain ⟨e', rfl, ho'⟩ := inner_error ho
    rcases F.fault hin hb ho' with ⟨hbuf, hin'⟩ | ⟨rfl, hs⟩
    · exact Or.inl ⟨hbuf, stop', rfl, hin'⟩
    · exact Or.inr ⟨rfl, hs⟩

variable {F : Feed IoError R}

def fair (P : F.Fair) : (feed F).Fair where
  delay m := P.delay m.inner
  pending {m s stop buf} hm hb ho := by
    obtain ⟨stop', rfl, hin⟩ := hm
    exact P.pending hin hb (inner_pending ho)
  chunk {m s stop buf} hm hb ho := by
    obtain ⟨stop', rfl, hin⟩ := hm
    exact P.chunk hin hb (inner_ok ho)
  fault {m s stop buf e} hm hb ho := by
    obtain ⟨stop', rfl, hin⟩ := hm
    obtain ⟨e', rfl, ho'⟩ := inner_error ho
    rcases P.fault hin hb ho' with hlt | ⟨rfl, hs⟩
    · exact Or.inl hlt
    · exact Or.inr ⟨rfl, hs⟩

theorem faultless (hF : F.Faultless) : (feed F).Faultless := by
  constructor
  intro m s stop buf e hm hb ho
  obtain ⟨stop', rfl, hin⟩ := hm
  obtain ⟨e', rfl, ho'⟩ := inner_error ho
  obtain ⟨rfl, hs⟩ := hF.fault hin hb ho'
  exact ⟨rfl, hs⟩

end Limit.Meter

theorem bufCap_pos : 0 < bufCap := by decide

/-- The feed under the decoder. -/
def replayFeed (F : Feed IoError R) : Feed IoError (Replay R) :=
  BufReader.feed bufCap_pos (Chain.feed (Meter.feed F))

theorem replayFeed_faultless {F : Feed IoError R} (hF : F.Faultless) : (replayFeed F).Faultless :=
  BufReader.faultless bufCap_pos (Chain.faultless (Meter.faultless hF))

/-- What is assumed of the decoder over a source `F`: what it hands out and how it ends depend
on the encoded bytes alone, and it is late and fails only as its source does. -/
structure Decoder.Computes (dec : Decoder (Replay R)) (decode : List UInt8 → List UInt8 × Option IoError)
    (F : Feed IoError R) where
  feed : Feed IoError dec.Reader
  opens : ∀ {b z}, (replayFeed F).Owes b z none → zstdMagic <+: z → feed.Owes (dec.new b) (decode z).1 (decode z).2
  hushed : ∀ stop, feed.Hushed stop
  fair : F.Fair → F.Faultless → feed.Fair
  faultless : F.Faultless → feed.Faultless

/-- What is assumed of the decoder of several members: it reads its source to the end before
it reports its own. -/
def Decoder.ReadsToEnd (dec : Decoder (Replay R)) : Prop :=
  ∀ {b bytes z}, Ended (dec.new b) bytes z → EofSince b (dec.inner z)

/-- The decoded stream of an encoded one, and what it ends with. -/
def contents (decode : List UInt8 → List UInt8 × Option IoError) (z : List UInt8) : List UInt8 × Option IoError :=
  if zstdMagic <+: z then decode z else (z, none)

def replayFair {F : Feed IoError R} (P : F.Fair) : (replayFeed F).Fair :=
  BufReader.fair bufCap_pos (Chain.fair (Meter.fair P))

namespace Decoded

variable {dec : Decoder (Replay R)} (K : Feed IoError (Replay R)) (Z : Feed IoError dec.Reader)

/-- The feed that sniffing leaves. -/
def feed : Feed IoError (Decoded dec) where
  Owes
    | plain b, s, stop => K.Owes b s stop
    | zstd z, s, stop => Z.Owes z s stop
  pending {d s stop buf} h hb ho := by
    cases d with
    | plain b => exact K.pending h hb ho
    | zstd z => exact Z.pending h hb ho
  chunk {d s stop buf} h hb ho := by
    cases d with
    | plain b => exact K.chunk h hb ho
    | zstd z => exact Z.chunk h hb ho
  fault {d s stop buf e} h hb ho := by
    cases d with
    | plain b => exact K.fault h hb ho
    | zstd z => exact Z.fault h hb ho

variable {K Z}

def fair (PK : K.Fair) (PZ : Z.Fair) : (feed K Z).Fair where
  delay
    | plain b => PK.delay b
    | zstd z => PZ.delay z
  pending {d s stop buf} h hb ho := by
    cases d with
    | plain b => exact PK.pending h hb ho
    | zstd z => exact PZ.pending h hb ho
  chunk {d s stop buf} h hb ho := by
    cases d with
    | plain b => exact PK.chunk h hb ho
    | zstd z => exact PZ.chunk h hb ho
  fault {d s stop buf e} h hb ho := by
    cases d with
    | plain b => exact PK.fault h hb ho
    | zstd z => exact PZ.fault h hb ho

theorem faultless (hK : K.Faultless) (hZ : Z.Faultless) : (feed K Z).Faultless := by
  constructor
  intro d s stop buf e h hb ho
  cases d with
  | plain b => exact hK.fault h hb ho
  | zstd z => exact hZ.fault h hb ho

theorem hushed (hZ : ∀ stop, Z.Hushed stop) (hK : ∀ {b s e}, ¬ K.Owes b s (some e)) (stop : Option IoError) :
    (feed K Z).Hushed stop := by
  intro d s buf e h hb ho
  cases d with
  | plain b =>
    cases stop with
    | none => exact K.hushed_none h hb ho
    | some e => exact absurd h hK
  | zstd z => exact hZ stop h hb ho

theorem handed_plain {b : Replay R} {bytes : List UInt8} {d : Decoded dec} (h : Handed (plain b) bytes d) :
    ∃ b', d = plain b' ∧ Handed b bytes b' := by
  induction h with
  | start => exact ⟨b, rfl, .start b⟩
  | idle _ buf hb ho ih =>
    obtain ⟨b', rfl, h'⟩ := ih
    exact ⟨_, rfl, h'.idle buf hb ho⟩
  | chunk _ buf hb ho ih =>
    obtain ⟨b', rfl, h'⟩ := ih
    exact ⟨_, rfl, h'.chunk buf hb ho⟩

theorem handed_zstd {z : dec.Reader} {bytes : List UInt8} {d : Decoded dec} (h : Handed (zstd z) bytes d) :
    ∃ z', d = zstd z' ∧ Handed z bytes z' := by
  induction h with
  | start => exact ⟨z, rfl, .start z⟩
  | idle _ buf hb ho ih =>
    obtain ⟨z', rfl, h'⟩ := ih
    exact ⟨_, rfl, h'.idle buf hb ho⟩
  | chunk _ buf hb ho ih =>
    obtain ⟨z', rfl, h'⟩ := ih
    exact ⟨_, rfl, h'.chunk buf hb ho⟩

/-- At the end of what sniffing chose, the source was read to its end. -/
theorem eofSince (hdec : dec.ReadsToEnd) {b : Replay R} {magic bytes : List UInt8} {d : Decoded dec}
    (h : Ended (wrap dec magic b) bytes d) : EofSince b d.replay := by
  obtain ⟨d₁, buf, h, hb, ho, hnil, rfl⟩ := h
  unfold wrap at h
  split at h
  · obtain ⟨z, rfl, h'⟩ := handed_zstd h
    exact hdec ⟨z, buf, h', hb, ho, hnil, rfl⟩
  · obtain ⟨b', rfl, h'⟩ := handed_plain h
    exact Ended.eofSince ⟨b', buf, h', hb, ho, hnil, rfl⟩

end Decoded

/-- The decoded feed over a source. -/
abbrev Decoder.Computes.decoded {dec : Decoder (Replay R)} {decode : List UInt8 → List UInt8 × Option IoError}
    {F : Feed IoError R} (hC : dec.Computes decode F) : Feed IoError (Decoded dec) :=
  Decoded.feed (replayFeed F) hC.feed

theorem Decoder.Computes.hushed_decoded {dec : Decoder (Replay R)} {decode : List UInt8 → List UInt8 × Option IoError}
    {F : Feed IoError R} (hC : dec.Computes decode F) (stop : Option IoError) : hC.decoded.Hushed stop :=
  Decoded.hushed (K := replayFeed F) hC.hushed (fun h => nomatch h.1) stop

end Feeds

end Etar
