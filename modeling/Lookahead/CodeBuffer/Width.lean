import Lookahead.Utf16.Surrogate

/-!
This module contains the widths at which code points are stored, ordered from narrow to wide.
-/

namespace Lookahead

/--
How many bits each stored code point takes.
-/
inductive Width where
  | byte
  | unit
  | point
  deriving DecidableEq, Repr, Inhabited

namespace Width

def bits : Width → Nat
  | byte => 8
  | unit => 16
  | point => 32

/--
How many bytes each stored code point takes.
-/
def bytes (w : Width) : Nat := w.bits / 8

instance : LE Width where
  le v w := v.bits ≤ w.bits

instance : LT Width where
  lt v w := v.bits < w.bits

instance (v w : Width) : Decidable (v ≤ w) := inferInstanceAs (Decidable (v.bits ≤ w.bits))

instance (v w : Width) : Decidable (v < w) := inferInstanceAs (Decidable (v.bits < w.bits))

/--
The narrowest width at which text with the unit `u` can be stored. A unit that opens a surrogate
pair asks for the full width, since the pair is stored as one code point.
-/
def needed (u : UInt16) : Width :=
  if Utf16.IsHigh u then point else if u ≤ 0xFF then byte else unit

def name : Width → String
  | byte => "byte"
  | unit => "char"
  | point => "int"

end Width

end Lookahead
