import Lookahead.CodeBuffer.Width
import Lookahead.Utf16.Decoding

/-!
This module contains arrays of code points at one of the three widths. `Cells.toList` is the view
that forgets the width: the code points in order.
-/

namespace Lookahead

/--
Code points stored at one width.
-/
inductive Cells where
  | bytes (array : Array UInt8)
  | units (array : Array UInt16)
  | points (array : Array UInt32)
  deriving DecidableEq, Repr

namespace Cells

def empty : Cells := bytes #[]

instance : Inhabited Cells := ⟨empty⟩

def width : Cells → Width
  | bytes _ => .byte
  | units _ => .unit
  | points _ => .point

def size : Cells → Nat
  | bytes a => a.size
  | units a => a.size
  | points a => a.size

def toList : Cells → List UInt32
  | bytes a => a.toList.map UInt8.toUInt32
  | units a => a.toList.map UInt16.toUInt32
  | points a => a.toList

def get? (cells : Cells) (i : Nat) : Option UInt32 :=
  match cells with
  | bytes a => a[i]?.map UInt8.toUInt32
  | units a => a[i]?.map UInt16.toUInt32
  | points a => a[i]?

/--
The code points from index `start` up to, not including, index `stop`, at the same width.
-/
def extract (cells : Cells) (start stop : Nat) : Cells :=
  match cells with
  | bytes a => bytes (a.extract start stop)
  | units a => units (a.extract start stop)
  | points a => points (a.extract start stop)

def widen (cells : Cells) (w : Width) : Cells :=
  match cells, w with
  | bytes a, .unit => units (a.map UInt8.toUInt16)
  | bytes a, .point => points (a.map UInt8.toUInt32)
  | units a, .point => points (a.map UInt16.toUInt32)
  | cells, _ => cells

/--
The text of the code points. Bytes are the characters up to `0xFF`, units are read as UTF-16, and
whatever is no character becomes the replacement character.
-/
def text : Cells → String
  | bytes a => String.ofList (a.toList.map fun b => Utf16.charOf b.toUInt32)
  | units a => Utf16.text (Utf16.decode a.toList)
  | points a => Utf16.text a.toList

theorem length_toList (cells : Cells) : cells.toList.length = cells.size := by
  cases cells <;> simp [toList, size]

theorem get?_eq_getElem?_toList (cells : Cells) (i : Nat) : cells.get? i = cells.toList[i]? := by
  cases cells <;> simp [toList, get?]

theorem toList_extract (cells : Cells) (start stop : Nat) :
    (cells.extract start stop).toList = cells.toList.extract start stop := by
  cases cells <;> simp [toList, extract, List.map_drop, List.map_take]

@[simp]
theorem toList_widen (cells : Cells) (w : Width) : (cells.widen w).toList = cells.toList := by
  cases cells <;> cases w <;> simp [toList, widen]

@[simp]
theorem width_extract (cells : Cells) (start stop : Nat) :
    (cells.extract start stop).width = cells.width := by
  cases cells <;> rfl

end Cells

end Lookahead
