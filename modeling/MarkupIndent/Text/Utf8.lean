import MarkupIndent.Text.Quoted

/-!
# UTF-8

Texts are stored as bytes. Bytes that encode no text are refused at the first place where no
character can be read.

* `encode`, `decode`: text as bytes, and back.
* `DecodeFault`: where and why bytes are no text, with its wording.
* `decode_encode`: what is encoded can be read back.
-/

namespace MarkupIndent.Text.Utf8

/-- Why no character can be read at a place. -/
inductive Reason where
  /-- No character begins with the byte. -/
  | badStart
  /-- A byte after the first does not belong to the character. -/
  | badContinuation
  /-- The bytes end within the character. -/
  | truncated
  deriving DecidableEq, Repr

/-- The wording of a reason. -/
def Reason.message : Reason → String
  | .badStart => "invalid start byte"
  | .badContinuation => "invalid continuation byte"
  | .truncated => "unexpected end of data"

/-- The first bytes that encode no text: from `start` up to but without `stop`. -/
structure DecodeFault where
  start : Nat
  stop : Nat
  first : UInt8
  reason : Reason
  deriving DecidableEq, Repr

/-- The wording of a fault. -/
def DecodeFault.message (f : DecodeFault) : String :=
  let place :=
    if f.stop = f.start + 1 then
      "byte 0x" ++ String.ofList (hexDigits 2 f.first.toNat) ++ " in position " ++
        toString f.start
    else "bytes in position " ++ toString f.start ++ "-" ++ toString (f.stop - 1)
  "'utf-8' codec can't decode " ++ place ++ ": " ++ f.reason.message

/-! ## Characters in bytes -/

/-- The number of bytes that follow the first byte of a character. -/
def following? (first : UInt8) : Option Nat :=
  if first < 0x80 then some 0
  else if 0xc2 ≤ first ∧ first < 0xe0 then some 1
  else if 0xe0 ≤ first ∧ first < 0xf0 then some 2
  else if 0xf0 ≤ first ∧ first < 0xf5 then some 3
  else none

/-- A byte may be the second of a character. Some first bytes admit only part of the range, so that
every character has one encoding and no surrogate has any. -/
def isSecond (first b : UInt8) : Bool :=
  if first = 0xe0 then 0xa0 ≤ b && b < 0xc0
  else if first = 0xed then 0x80 ≤ b && b < 0xa0
  else if first = 0xf0 then 0x90 ≤ b && b < 0xc0
  else if first = 0xf4 then 0x80 ≤ b && b < 0x90
  else 0x80 ≤ b && b < 0xc0

/-- A byte may be the third or fourth of a character. -/
def isLater (b : UInt8) : Bool :=
  0x80 ≤ b && b < 0xc0

/-- How many of the bytes after the first belong to its character, at most `n`. -/
def belonging (first : UInt8) (n : Nat) (rest : List UInt8) : Nat :=
  match rest.take n with
  | [] => 0
  | b :: more => if isSecond first b then 1 + (more.takeWhile isLater).length else 0

/-- The first place at which no character can be read, counted from `position`. -/
def firstFault? (position : Nat) (bytes : List UInt8) : Option DecodeFault :=
  match bytes with
  | [] => none
  | first :: rest =>
    match following? first with
    | none => some ⟨position, position + 1, first, .badStart⟩
    | some n =>
      let good := belonging first n rest
      if good = n then firstFault? (position + 1 + n) (rest.drop n)
      else if rest.length ≤ good then
        some ⟨position, position + 1 + rest.length, first, .truncated⟩
      else some ⟨position, position + 1 + good, first, .badContinuation⟩
termination_by bytes.length
decreasing_by
  simp only [List.length_drop, List.length_cons]
  omega

/-! ## Whole texts -/

/-- The bytes of a text. -/
def encode (text : List Char) : ByteArray :=
  (String.ofList text).toByteArray

/-- The text of some bytes. -/
def decode (bytes : ByteArray) : Except DecodeFault (List Char) :=
  match bytes.utf8Decode? with
  | some text => .ok text.toList
  | none => .error ((firstFault? 0 bytes.data.toList).getD ⟨0, bytes.size, 0, .truncated⟩)

theorem encode_append (a b : List Char) : encode (a ++ b) = encode a ++ encode b := by
  rw [encode, String.ofList_append, String.toByteArray_append]
  rfl

theorem decode_encode (text : List Char) : decode (encode text) = .ok text := by
  simp [decode, encode, List.utf8Decode?_utf8Encode]

end MarkupIndent.Text.Utf8
