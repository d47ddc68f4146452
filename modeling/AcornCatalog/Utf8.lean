/-! Strict decoding of UTF-8. A text is refused at the first sequence that is not well formed, and the refusal tells
which bytes were read before that was clear. -/

namespace AcornCatalog.Utf8

/-- Why a sequence of bytes is no character. -/
inductive Reason where
  | badStart
  | badContinuation
  | endOfData
  deriving DecidableEq, Repr

/-- The wording of a reason. -/
def Reason.text : Reason → String
  | .badStart => "invalid start byte"
  | .badContinuation => "invalid continuation byte"
  | .endOfData => "unexpected end of data"

/-- The bytes `length` long from `start` on, the first of them `lead`, begin no character. -/
structure Malformed where
  lead : UInt8
  start : Nat
  length : Nat
  reason : Reason
  deriving DecidableEq, Repr

/-- Tells the byte if it is a single one, and where the bytes stand. -/
def Malformed.message (m : Malformed) : String :=
  if m.length ≤ 1 then
    let byte := String.ofList [Nat.digitChar (m.lead.toNat / 16), Nat.digitChar (m.lead.toNat % 16)]
    s!"'utf-8' codec can't decode byte 0x{byte} in position {m.start}: {m.reason.text}"
  else
    s!"'utf-8' codec can't decode bytes in position {m.start}-{m.start + m.length - 1}: {m.reason.text}"

/-- A character that has begun: `need` more bytes are due, and the next of them lies between `low` and `high`. -/
structure Pending where
  lead : UInt8
  start : Nat
  taken : Nat
  need : Nat
  low : UInt8
  high : UInt8
  value : Nat
  deriving DecidableEq, Repr

/-- The failure of a character that has begun. -/
def Pending.fail (p : Pending) (reason : Reason) : Malformed := ⟨p.lead, p.start, p.taken, reason⟩

/-- The longer character that byte `b` at place `i` begins. Overlong forms, surrogates and values beyond U+10FFFF are
    ruled out by the bounds on the second byte. -/
def begins (b : UInt8) (i : Nat) : Option Pending :=
  if 0xC2 ≤ b && b ≤ 0xDF then some ⟨b, i, 1, 1, 0x80, 0xBF, b.toNat - 0xC0⟩
  else if 0xE0 ≤ b && b ≤ 0xEF then
    some ⟨b, i, 1, 2, if b == 0xE0 then 0xA0 else 0x80, if b == 0xED then 0x9F else 0xBF, b.toNat - 0xE0⟩
  else if 0xF0 ≤ b && b ≤ 0xF4 then
    some ⟨b, i, 1, 3, if b == 0xF0 then 0x90 else 0x80, if b == 0xF4 then 0x8F else 0xBF, b.toNat - 0xF0⟩
  else none

/-- Decodes the bytes from place `i` on, within the character `pending` if there is one. -/
def decodeFrom : Nat → Option Pending → List UInt8 → Except Malformed (List Char)
  | _, none, [] => .ok []
  | _, some p, [] => .error (p.fail .endOfData)
  | i, none, b :: bytes =>
    if b < 0x80 then (decodeFrom (i + 1) none bytes).map (Char.ofNat b.toNat :: ·)
    else match begins b i with
      | some p => decodeFrom (i + 1) (some p) bytes
      | none => .error ⟨b, i, 1, .badStart⟩
  | i, some p, b :: bytes =>
    if p.low ≤ b && b ≤ p.high then
      let value := p.value * 64 + (b.toNat - 0x80)
      match p.need with
      | 0 | 1 => (decodeFrom (i + 1) none bytes).map (Char.ofNat value :: ·)
      | need + 2 =>
        let next := { p with taken := p.taken + 1, need := need + 1, low := 0x80, high := 0xBF, value }
        decodeFrom (i + 1) (some next) bytes
    else .error (p.fail .badContinuation)

/-- Decodes a whole list of bytes. -/
def decode (bytes : List UInt8) : Except Malformed (List Char) := decodeFrom 0 none bytes

end AcornCatalog.Utf8
