import Lookahead.CodeBuffer.Builder
import Lookahead.Position

/-!
This module contains the room that builders have for their code points. An array asks for room ahead
of what is stored in it, and there is an end to what it can ask for: whoever asks for more has the
program stopped, and gets no result here. What is stored never depends on the room.
-/

namespace Lookahead

namespace CodeBuffer

/--
The largest number of bytes in an array.
-/
def byteLimit : Nat := Position.offsetLimit

/--
The least power of two that is not below `n`.
-/
def ceilPowerOfTwo (n : Nat) : Nat := if n ≤ 1 then 1 else 1 <<< ((n - 1).log2 + 1)

/--
A builder together with the number of code points that there is room for.
-/
structure Allotment where
  builder : Builder := {}
  capacity : Nat
  deriving DecidableEq, Repr

namespace Allotment

/--
Room for `count` code points at the width of the builder, if an array can have as much.
-/
def allot? (builder : Builder) (count : Nat) : Option Allotment :=
  if count * builder.width.bytes ≤ byteLimit then some { builder, capacity := count } else none

def ofCapacity? (capacity : Nat) : Option Allotment := allot? {} capacity

/--
Have room for `needed` more code points.
-/
def reserve? (a : Allotment) (needed : Nat) : Option Allotment :=
  if a.capacity - a.builder.cells.size < needed then
    allot? a.builder (ceilPowerOfTwo (a.capacity + needed))
  else
    some a

/--
Make the builder at least as wide as `w`. The wider array has as much room as the one it replaces, but
enough for the code points so far and the units that are still to be added.
-/
def widen? (a : Allotment) (w : Width) (units : List UInt16) : Option Allotment :=
  if a.builder.width < w then
    allot? (a.builder.widen w) (max a.capacity (a.builder.cells.size + units.length))
  else
    some a

/--
Have room for a builder that has more code points than before, when there was room for `capacity`. An
array that is full grows to twice its size.
-/
def grow? (builder : Builder) (capacity : Nat) : Option Allotment :=
  if builder.cells.size ≤ capacity then
    some { builder, capacity }
  else
    allot? builder (max (2 * capacity) 4)

/--
Add a unit, with `rest` still to be added after it.
-/
def push? (a : Allotment) (u : UInt16) (rest : List UInt16) : Option Allotment := do
  let ⟨builder, capacity⟩ ← a.widen? (.needed u) (u :: rest)
  grow? (builder.store u) capacity

def pushAll? (a : Allotment) : List UInt16 → Option Allotment
  | [] => some a
  | u :: rest => do
    let a ← a.push? u rest
    a.pushAll? rest

def appendUnits? (a : Allotment) (units : List UInt16) : Option Allotment := do
  let a ← a.reserve? units.length
  a.pushAll? units

def append? (a : Allotment) (chunk : Utf16.Chunk) : Option (Except Fault Unit × Allotment) :=
  match chunk.units? with
  | some units => do
    return (.ok (), ← a.appendUnits? units)
  | none => some (.error .notContiguous, a)

def appendAll? (a : Allotment) : List Utf16.Chunk → Option (Except Fault Unit × Allotment)
  | [] => some (.ok (), a)
  | chunk :: rest => do
    match ← a.append? chunk with
    | (.ok (), a) => a.appendAll? rest
    | (.error fault, a) => some (.error fault, a)

def build? (a : Allotment) : Option CodeBuffer := do
  let _ ← grow? a.builder.close a.capacity
  return a.builder.build

end Allotment

end CodeBuffer

end Lookahead
