/-!
# UTF-8

A character is written in one to four bytes. The first byte says how many follow and how large the
second may be, so that every character has one form; all later bytes lie between 0x80 and 0xBF.
-/

namespace GatedMaze.Text.Utf8

/-- What is wrong with bytes that write no text. -/
inductive Flaw where
  /-- No character starts with the byte. -/
  | start
  /-- The byte after those at hand does not go on with their character. -/
  | continuation
  /-- The bytes end in the middle of a character. -/
  | ending
  deriving DecidableEq, Repr

/-- The wording of a flaw. -/
def Flaw.message : Flaw → String
  | start => "invalid start byte"
  | continuation => "invalid continuation byte"
  | ending => "unexpected end of data"

/-- The first bytes that write no character: where they stand, the value of the first of them and
how many they are. -/
structure Defect where
  position : Nat
  first : Nat
  count : Nat
  flaw : Flaw
  deriving DecidableEq, Repr

/-- What a first byte says of the rest of its character: how many bytes follow, the least and the
greatest second byte, and its own share of the character's number. -/
structure Lead where
  more : Nat
  low : Nat
  high : Nat
  value : Nat
  deriving DecidableEq, Repr

/-- What a byte from 0x80 on says as a first byte, none if no character starts with it. -/
def lead? (b : Nat) : Option Lead :=
  if 0xC2 ≤ b ∧ b ≤ 0xDF then some ⟨1, 0x80, 0xBF, b - 0xC0⟩
  else if b = 0xE0 then some ⟨2, 0xA0, 0xBF, 0⟩
  else if b = 0xED then some ⟨2, 0x80, 0x9F, 0xD⟩
  else if 0xE1 ≤ b ∧ b ≤ 0xEF then some ⟨2, 0x80, 0xBF, b - 0xE0⟩
  else if b = 0xF0 then some ⟨3, 0x90, 0xBF, 0⟩
  else if b = 0xF4 then some ⟨3, 0x80, 0x8F, 4⟩
  else if 0xF1 ≤ b ∧ b ≤ 0xF3 then some ⟨3, 0x80, 0xBF, b - 0xF0⟩
  else none

/-- The number of a character from the `more` bytes that follow `seen` others of it; of these the
next one lies between `low` and `high`. -/
def follow (low high : Nat) : Nat → Nat → Nat → List UInt8 → Except (Nat × Flaw) Nat
  | 0, _, value, _ => .ok value
  | _ + 1, seen, _, [] => .error (seen, .ending)
  | more + 1, seen, value, b :: bytes =>
    if low ≤ b.toNat ∧ b.toNat ≤ high then
      follow 0x80 0xBF more (seen + 1) (value * 64 + (b.toNat - 0x80)) bytes
    else .error (seen, .continuation)

/-- The characters that bytes write; the first of the bytes has the given position. -/
def decodeFrom (position : Nat) : List UInt8 → Except Defect (List Char)
  | [] => .ok []
  | b :: bytes =>
    if b.toNat < 0x80 then
      (decodeFrom (position + 1) bytes).map (Char.ofNat b.toNat :: ·)
    else
      match lead? b.toNat with
      | none => .error ⟨position, b.toNat, 1, .start⟩
      | some l =>
        match follow l.low l.high l.more 1 l.value bytes with
        | .error (count, flaw) => .error ⟨position, b.toNat, count, flaw⟩
        | .ok n =>
          (decodeFrom (position + 1 + l.more) (bytes.drop l.more)).map (Char.ofNat n :: ·)
termination_by bytes => bytes.length

/-- The characters that bytes write. -/
def decode (bytes : List UInt8) : Except Defect (List Char) := decodeFrom 0 bytes

/-- What stands for bytes that write no character. -/
def replacement : Char := Char.ofNat 0xFFFD

/-- The characters that bytes write, with a replacement for each run of bytes that starts a
character without writing one. -/
def decodeLossy : List UInt8 → List Char
  | [] => []
  | b :: bytes =>
    if b.toNat < 0x80 then Char.ofNat b.toNat :: decodeLossy bytes
    else
      match lead? b.toNat with
      | none => replacement :: decodeLossy bytes
      | some l =>
        match follow l.low l.high l.more 1 l.value bytes with
        | .error (count, _) => replacement :: decodeLossy (bytes.drop (count - 1))
        | .ok n => Char.ofNat n :: decodeLossy (bytes.drop l.more)
termination_by bytes => bytes.length

end GatedMaze.Text.Utf8
