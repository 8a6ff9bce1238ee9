/-!
This module contains a ring of 16-bit units: a queue open at both ends that lives in a fixed number
of slots and may wrap around from the last slot to the first. The main distinction is whether the
contents wrap, since only contents in one piece can be read in one go.
-/

namespace Lookahead

namespace Utf16

/--
A ring: the units are in the `length` slots from `head` on, going round at the last slot.
-/
structure Ring where
  slots : Array UInt16
  head : Nat := 0
  length : Nat := 0
  deriving DecidableEq, Repr

namespace Ring

def ofCapacity (capacity : Nat) : Ring where
  slots := Array.replicate capacity 0

def capacity (r : Ring) : Nat := r.slots.size

def pushBack (r : Ring) (u : UInt16) : Ring :=
  { r with
    slots := r.slots.setIfInBounds ((r.head + r.length) % r.capacity) u
    length := r.length + 1 }

def pushFront (r : Ring) (u : UInt16) : Ring :=
  let head := (r.head + r.capacity - 1) % r.capacity
  { slots := r.slots.setIfInBounds head u, head, length := r.length + 1 }

def popFront (r : Ring) : Ring :=
  if r.length = 0 then r
  else { r with head := (r.head + 1) % r.capacity, length := r.length - 1 }

def popBack (r : Ring) : Ring :=
  { r with length := r.length - 1 }

def front (r : Ring) : List UInt16 := (r.slots.extract r.head (r.head + r.length)).toList

def back (r : Ring) : List UInt16 := (r.slots.extract 0 (r.head + r.length - r.capacity)).toList

def toList (r : Ring) : List UInt16 := r.front ++ r.back

/--
The units of a ring that does not wrap around.
-/
def flat? (r : Ring) : Option (List UInt16) :=
  if r.length = 0 ∨ r.head + r.length ≤ r.capacity then some r.front else none

inductive Edit where
  | pushBack (u : UInt16)
  | pushFront (u : UInt16)
  | popFront
  | popBack
  deriving DecidableEq, Repr

def edit (r : Ring) : Edit → Ring
  | .pushBack u => r.pushBack u
  | .pushFront u => r.pushFront u
  | .popFront => r.popFront
  | .popBack => r.popBack

def ofEdits (capacity : Nat) (edits : List Edit) : Ring := edits.foldl edit (ofCapacity capacity)

end Ring

end Utf16

end Lookahead
