/-!
This module contains the code points that are white space.
-/

namespace Lookahead

namespace Blank

def ranges : List (UInt32 × UInt32) :=
  [(0x0009, 0x000D), (0x0020, 0x0020), (0x0085, 0x0085), (0x00A0, 0x00A0), (0x1680, 0x1680),
    (0x2000, 0x200A), (0x2028, 0x2029), (0x202F, 0x202F), (0x205F, 0x205F), (0x3000, 0x3000)]

end Blank

def isBlank (c : UInt32) : Bool := Blank.ranges.any fun (lo, hi) => lo ≤ c && c ≤ hi

end Lookahead
