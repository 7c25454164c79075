import Etar.Compress
import Etar.PullSpec

/-!
# What sniffing leaves

Peeking takes the first four bytes of a source, or all of them, and the reader in front of the
decoder owes the whole source again. So the decoder is chosen by the bytes alone.
-/
namespace Etar

open AsyncIo Limit Compress

section Peeking

variable {S : Type} [AsyncRead IoError S]

/-- What peeking may answer, and the source it leaves. -/
def PeekAnswer (G : Feed IoError S) (polls : Nat) (seen : List UInt8) (r : S) (s : List UInt8)
    (p : Await (Except IoError (List UInt8)) × S) : Prop :=
  match p.1 with
  | .cancelled => ∀ P : G.Fair, polls ≤ P.delay r + s.length
  | .done (.ok magic) => ∃ s', seen ++ s = magic ++ s' ∧ G.Owes p.2 s' none ∧ (peekLen ≤ magic.length ∨ s' = [])
  | .done (.error _) => Faulty G none

theorem PeekAnswer.step {G : Feed IoError S} {polls : Nat} {seen seen' s s' : List UInt8} {r r' : S}
    {p : Await (Except IoError (List UInt8)) × S} (h : PeekAnswer G polls seen' r' s' p)
    (hseen : seen' ++ s' = seen ++ s) (hlt : ∀ P : G.Fair, P.delay r' + s'.length < P.delay r + s.length) :
    PeekAnswer G (polls + 1) seen r s p := by
  unfold PeekAnswer at *
  split at h
  · intro P
    have := h P
    have := hlt P
    omega
  · rwa [hseen] at h
  · exact h

theorem peek_answer {G : Feed IoError S} (polls : Nat) (seen : List UInt8) {r : S} {s : List UInt8}
    (hr : G.Owes r s none) : PeekAnswer G polls seen r s (peek polls seen r) := by
  induction polls generalizing seen r s with
  | zero =>
    unfold peek
    split_ifs with hlen
    · exact fun P => Nat.zero_le _
    · exact ⟨s, rfl, hr, Or.inl (Nat.not_lt.mp hlen)⟩
  | succ polls ih =>
    unfold peek
    split_ifs with hlen
    · have hroom : 0 < (ReadBuf.new (peekLen - seen.length)).remaining := by
        rw [ReadBuf.new_remaining]
        omega
      dsimp only
      cases ho : (pollRead r (.new (peekLen - seen.length))).outcome with
      | pending =>
        exact (ih seen (G.pending hr hroom ho).2).step rfl fun P => Nat.add_lt_add_right (P.pending hr hroom ho) _
      | ready res =>
        cases res with
        | error e => exact ⟨_, s, e, _, r, _, hr, hroom, le_refl _, ho, rfl⟩
        | ok =>
          obtain ⟨s', hs, hr', hend⟩ := G.chunk hr hroom ho
          rw [ReadBuf.added_new] at hs hend
          dsimp only
          split_ifs with hnil
          · obtain ⟨rfl, -⟩ := hend hnil
            rw [hnil] at hs
            exact ⟨[], by rw [hs]; rfl, hr', Or.inr rfl⟩
          · have hpos := List.length_pos_iff.mpr hnil
            refine (ih _ hr').step (by rw [hs, List.append_assoc]) fun P => ?_
            have := P.chunk hr hroom ho
            rw [hs, List.length_append]
            omega
    · exact ⟨s, rfl, hr, Or.inl (Nat.not_lt.mp hlen)⟩

theorem peek_more (k : Nat) {polls : Nat} {seen : List UInt8} {r : S} (h : (peek polls seen r).1 ≠ .cancelled) :
    peek (polls + k) seen r = peek polls seen r := by
  induction polls generalizing seen r with
  | zero =>
    unfold peek at h ⊢
    split_ifs at h ⊢ with hlen
    · exact absurd rfl h
    · rfl
  | succ polls ih =>
    rw [Nat.add_right_comm]
    unfold peek at h ⊢
    split_ifs at h ⊢ with hlen
    · dsimp only at h ⊢
      cases ho : (pollRead r (.new (peekLen - seen.length))).outcome with
      | pending =>
        rw [ho] at h
        exact ih h
      | ready res =>
        cases res with
        | error e => rfl
        | ok =>
          rw [ho] at h
          dsimp only at h ⊢
          split_ifs at h ⊢ with hnil
          · rfl
          · exact ih h
    · rfl

end Peeking

section Sniffing

variable {S : Type} [AsyncRead IoError S] {dec : Decoder (Buffered S)} {G : Feed IoError S}

/-- The feed under the decoder, over a feed of the source. -/
abbrev replayOf (G : Feed IoError S) : Feed IoError (Buffered S) := BufReader.feed bufCap_pos (Chain.feed G)

/-- What sniffing leaves of a source that owes `z`: the replay, on which the choice is made. -/
structure Sniffed (dec : Decoder (Buffered S)) (G : Feed IoError S) (z : List UInt8) (b : Buffered S)
    (d : Decoded dec) : Prop where
  owes : (replayOf G).Owes b z none
  choice : d = wrap dec z b

theorem magic_starts {magic s : List UInt8} (h : peekLen ≤ magic.length ∨ s = []) :
    zstdMagic <+: magic ↔ zstdMagic <+: magic ++ s := by
  constructor
  · exact fun hm => hm.trans (List.prefix_append _ _)
  · intro hm
    rcases h with hlen | rfl
    · exact List.prefix_of_prefix_length_le hm (List.prefix_append _ _) hlen
    · rwa [List.append_nil] at hm

/-- The replay that sniffing left, whatever feed the source is looked at as. -/
theorem sniffed {polls : Nat} {source : S} {d : Decoded dec} (h : decoded dec polls source = .done (.ok d)) :
    ∃ b, ∀ {G : Feed IoError S} {z : List UInt8}, G.Owes source z none → Sniffed dec G z b d := by
  unfold decoded at h
  split at h
  · cases h
  · cases h
  · rename_i magic src hp
    cases h
    refine ⟨.new bufCap (.new magic src), fun {G z} howes => ?_⟩
    have ha := peek_answer polls [] howes
    rw [hp] at ha
    obtain ⟨s', hs, hsrc, hlen⟩ := ha
    rw [List.nil_append] at hs
    refine ⟨⟨rfl, z, rfl, s', hs, hsrc⟩, ?_⟩
    unfold wrap
    rw [hs, if_congr (magic_starts hlen) rfl rfl]

/-- Sniffing a source that does not fail completes when it is given enough polls. -/
theorem decoded_completes (P : G.Fair) (hG : G.Faultless) {source : S} {z : List UInt8}
    (howes : G.Owes source z none) {polls : Nat} (hpolls : P.delay source + z.length < polls) :
    ∃ d, decoded dec polls source = .done (.ok d) := by
  have ha := peek_answer polls [] howes
  unfold decoded
  rcases hp : peek polls [] source with ⟨res, src⟩
  rw [hp] at ha
  cases res with
  | cancelled => exact absurd (ha P) (Nat.not_le.mpr hpolls)
  | done res =>
    cases res with
    | error e => exact absurd ha (not_faulty hG)
    | ok magic => exact ⟨_, rfl⟩

theorem decoded_more (k : Nat) {polls : Nat} {source : S} {d : Decoded dec}
    (h : decoded dec polls source = .done (.ok d)) : decoded dec (polls + k) source = .done (.ok d) := by
  have hpeek : (peek polls [] source).1 ≠ .cancelled := by
    intro hc
    unfold decoded at h
    generalize peek polls [] source = p at h hc
    obtain ⟨res, src⟩ := p
    cases hc
    cases h
  unfold decoded at h ⊢
  rw [peek_more k hpeek]
  exact h

theorem decoded_ok (hG : G.Faultless) {source : S} {z : List UInt8} (howes : G.Owes source z none)
    {polls : Nat} {e : IoError} : decoded dec polls source ≠ .done (.error e) := by
  intro h
  have ha := peek_answer polls [] howes
  unfold decoded at h
  rcases hp : peek polls [] source with ⟨res, src⟩
  rw [hp] at ha h
  cases res with
  | cancelled => cases h
  | done res =>
    cases res with
    | error e => exact not_faulty hG ha
    | ok magic => cases h

end Sniffing

theorem Sniffed.decodes {R : Type} [AsyncRead IoError R] {dec : Decoder (Replay R)} {F : Feed IoError R}
    {decode : List UInt8 → List UInt8 × Option IoError}
    (hC : dec.Computes decode F) {z : List UInt8} {b : Replay R} {d : Decoded dec} (h : Sniffed dec (Meter.feed F) z b d) :
    hC.decoded.Owes d (contents decode z).1 (contents decode z).2 := by
  obtain ⟨howes, rfl⟩ := h
  unfold wrap contents
  split
  · rename_i hmagic
    exact hC.opens howes hmagic
  · exact howes

end Etar
