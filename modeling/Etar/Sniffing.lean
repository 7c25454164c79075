import Etar.RawZstd
import Etar.Sniff

/-!
# Sniffing loses nothing

Whatever the source answers while it is peeked at, no more than four bytes are taken before
the choice, a failure is reported at once, and the buffered reader that the choice is made
over owes every byte of the source again.
-/
namespace Etar

open AsyncIo Compress

section Peeking

variable {S : Type} [AsyncRead IoError S]

/-- Polls with room, none of which failed, lead from `r` to `r'` and handed out `bytes`. -/
inductive Unfailed (r : S) : List UInt8 → S → Prop where
  | start : Unfailed r [] r
  | late {bytes : List UInt8} {r' : S} (h : Unfailed r bytes r') (b : ReadBuf) (hb : 0 < b.remaining)
      (ho : (pollRead r' b).outcome = .pending) : Unfailed r bytes (pollRead r' b).reader
  | chunk {bytes : List UInt8} {r' : S} (h : Unfailed r bytes r') (b : ReadBuf) (hb : 0 < b.remaining)
      (ho : (pollRead r' b).outcome = .ready (.ok ())) :
      Unfailed r (bytes ++ b.added (pollRead r' b).buf) (pollRead r' b).reader

/-- What a feed still owes after polls that did not fail. -/
theorem Unfailed.owes {G : Feed IoError S} {r r' : S} {bytes s : List UInt8} (h : Unfailed r bytes r')
    (hr : G.Owes r s none) : ∃ s', s = bytes ++ s' ∧ G.Owes r' s' none := by
  induction h with
  | start => exact ⟨s, rfl, hr⟩
  | late _ b hb ho ih =>
    obtain ⟨s', hs, howes⟩ := ih
    exact ⟨s', hs, (G.pending howes hb ho).2⟩
  | chunk _ b hb ho ih =>
    obtain ⟨s', rfl, howes⟩ := ih
    obtain ⟨s'', rfl, howes', -⟩ := G.chunk howes hb ho
    exact ⟨s'', (List.append_assoc ..).symm, howes'⟩

/-- How peeking at `source` may end: no poll of it failed but the one reported. -/
def Peeked (source : S) (p : Await (Except IoError (List UInt8)) × S) : Prop :=
  match p.1 with
  | .cancelled => ∃ seen, Unfailed source seen p.2 ∧ seen.length < peekLen
  | .done (.ok magic) => Unfailed source magic p.2 ∧ magic.length ≤ peekLen
  | .done (.error e) => ∃ seen r b, Unfailed source seen r ∧ seen.length < peekLen ∧ 0 < b.remaining ∧
      (pollRead r b).outcome = .ready (.error e)

theorem peeked {source : S} (polls : Nat) {seen : List UInt8} {r : S} (h : Unfailed source seen r)
    (hlen : seen.length ≤ peekLen) : Peeked source (peek polls seen r) := by
  induction polls generalizing seen r with
  | zero =>
    unfold peek
    split_ifs with hshort
    · exact ⟨seen, h, hshort⟩
    · exact ⟨h, hlen⟩
  | succ polls ih =>
    unfold peek
    split_ifs with hshort
    · have hroom : 0 < (ReadBuf.new (peekLen - seen.length)).remaining := by
        rw [ReadBuf.new_remaining]
        omega
      dsimp only
      cases ho : (pollRead r (.new (peekLen - seen.length))).outcome with
      | pending => exact ih (h.late _ hroom ho) hlen
      | ready res =>
        cases res with
        | error e => exact ⟨seen, r, _, h, hshort, hroom, ho⟩
        | ok =>
          have h' := h.chunk _ hroom ho
          have hle := length_pollRead_new r (peekLen - seen.length)
          rw [ReadBuf.added_new] at h'
          dsimp only
          split_ifs with hnil
          · rw [hnil, List.append_nil] at h'
            exact ⟨h', hlen⟩
          · apply ih h'
            rw [List.length_append]
            omega
    · exact ⟨h, hlen⟩

end Peeking

section Sniffing

variable {S : Type} [AsyncRead IoError S] {dec : Decoder (Buffered S)} {F : Feed IoError S}

/-- The buffered reader `b` stands for the bytes `body`: however it is consumed, what it hands
out comes from their front, and only after all of them does it show the end. -/
def StandsFor (b : Buffered S) (body : List UInt8) : Prop :=
  ∀ {bytes : List UInt8} {b' : Buffered S}, b.Uses bytes b' →
    bytes <+: body ∧ (∀ buf, 0 < buf.remaining → AtEof buf (pollRead b' buf) → bytes = body) ∧
      (b'.fillBuf.1 = .ready (.ok []) → bytes = body)

theorem standsFor_of_owes {b : Buffered S} {body : List UInt8} (h : (replayOf F).Owes b body none) :
    StandsFor b body := by
  intro bytes b' huses
  obtain ⟨s, rfl, howes⟩ := huses.owes h
  refine ⟨List.prefix_append _ _, fun buf hroom hend => ?_, fun hend => ?_⟩
  · obtain ⟨s', hs, -, hnil⟩ := (replayOf F).chunk howes hroom hend.1
    rw [hs, hend.2, (hnil hend.2).1, List.append_nil, List.append_nil]
  · rw [(BufReader.owes_fillBuf howes).2 hend, List.append_nil]

/-- Sniffing a source that owes `body`, however it delivers it. No poll of the source failed
but one whose error is reported, and then there is no reader. Otherwise at most four bytes were
taken before the choice, the decoder was chosen if and only if `body` has the magic, and what it
was put on, or what was chosen instead, stands for `body` and delivers all of it. With enough
polls of a fair source sniffing comes to its choice. -/
theorem decoded_loses_nothing {source : S} {body : List UInt8} (howes : F.Owes source body none) (polls : Nat) :
    match decoded dec polls source with
    | .cancelled => (∃ seen r, Unfailed source seen r ∧ seen.length < peekLen) ∧
        ∀ P : F.Fair, polls ≤ P.delay source + body.length
    | .done (.error e) => ∃ seen r b, Unfailed source seen r ∧ seen.length < peekLen ∧ 0 < b.remaining ∧
        (pollRead r b).outcome = .ready (.error e)
    | .done (.ok d) => ∃ (magic : List UInt8) (src : S) (b : Buffered S),
        Unfailed source magic src ∧ magic.length ≤ peekLen ∧ b = .new bufCap (.new magic src) ∧
        d = (if zstdMagic <+: body then .zstd (dec.new b) else .plain b) ∧
        StandsFor b body ∧
        (F.Fair → ∀ bufs : Nat → ReadBuf, (∀ n, 0 < (bufs n).remaining) →
          ∃ n, (after pollRead bufs b n).1 = body ∧ AtEof (bufs n) (pollRead (after pollRead bufs b n).2 (bufs n))) := by
  have hpeeked := peeked polls (.start (r := source)) (Nat.zero_le peekLen)
  have hanswer := peek_answer polls [] howes
  unfold decoded
  generalize peek polls [] source = p at hpeeked hanswer
  obtain ⟨res, src⟩ := p
  cases res with
  | cancelled =>
    obtain ⟨seen, h⟩ := hpeeked
    exact ⟨⟨seen, src, h⟩, hanswer⟩
  | done res =>
    cases res with
    | error e => exact hpeeked
    | ok magic =>
      obtain ⟨s', hs, hsrc, hlen⟩ := hanswer
      obtain rfl : body = magic ++ s' := hs
      have hb : (replayOf F).Owes (.new bufCap (.new magic src)) (magic ++ s') none := ⟨rfl, _, rfl, s', rfl, hsrc⟩
      refine ⟨magic, src, _, hpeeked.1, hpeeked.2, rfl, ?_, standsFor_of_owes hb, fun P bufs hbufs => ?_⟩
      · unfold wrap
        rw [if_congr (magic_starts hlen) rfl rfl]
      · exact (BufReader.fair bufCap_pos (Chain.fair P)).delivers hb bufs hbufs

/-- Three bytes of the magic, one of them late. -/
theorem decoded_loses_nothing_sample :
    let source : Script IoError := ⟨[0x28, 0xB5, 0x2F], [.give 0, .late, .give 1]⟩
    let dec := RawZstd.decoder (Buffered (Script IoError))
    ∃ b : Buffered (Script IoError), decoded dec 9 source = .done (.ok (.plain b)) ∧ StandsFor b source.rest := by
  intro source dec
  have hdec : ∃ b, decoded dec 9 source = .done (.ok (.plain b)) := ⟨_, rfl⟩
  have howes : Script.feed.Owes source source.rest none := ⟨rfl, rfl⟩
  have h := @decoded_loses_nothing _ _ dec _ _ _ howes 9
  obtain ⟨b, hb⟩ := hdec
  rw [hb] at h
  obtain ⟨magic, src, b', -, -, -, hd, hstands, -⟩ := h
  cases hd
  exact ⟨b, hb, hstands⟩

end Sniffing

end Etar
