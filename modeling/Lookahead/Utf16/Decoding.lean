import Lookahead.Utf16.Surrogate

/-!
This module contains the reading of 16-bit units as code points and back. A surrogate without its
partner is read as itself, so that nothing is lost; only as a character it has no place and gives
way to the replacement character.
-/

namespace Lookahead

namespace Utf16

/--
The code points of a sequence of units: a pair of surrogates is one code point, any other unit is
its own.
-/
def decode : List UInt16 → List UInt32
  | [] => []
  | [u] => [u.toUInt32]
  | u :: v :: rest =>
    if IsHigh u ∧ IsLow v then combine u v :: decode rest else u.toUInt32 :: decode (v :: rest)

def encodePoint (c : UInt32) : List UInt16 :=
  if c < 0x10000 then [c.toUInt16] else [highOf c, lowOf c]

def encode (points : List UInt32) : List UInt16 := points.flatMap encodePoint

def ofString (s : String) : List UInt16 := encode (s.toList.map Char.val)

def replacement : Char := '\uFFFD'

def charOf (c : UInt32) : Char := if h : c.isValidChar then ⟨c, h⟩ else replacement

def text (points : List UInt32) : String := String.ofList (points.map charOf)

@[simp]
theorem charOf_val (c : Char) : charOf c.val = c := by
  simp [charOf, c.valid]

@[simp]
theorem text_append (p q : List UInt32) : text (p ++ q) = text p ++ text q := by
  simp [text]

end Utf16

end Lookahead
