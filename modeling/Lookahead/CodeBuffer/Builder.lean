import Lookahead.CodeBuffer.Basic
import Lookahead.Event
import Lookahead.Fault
import Lookahead.Utf16.Chunk

/-!
This module contains the making of buffers from UTF-16 that arrives in chunks. The code points are
stored at the narrowest width that holds the units seen so far, which only ever grows. At full width
pairs of surrogates are merged, also when the two arrive in different chunks: a high surrogate waits
until the next unit tells whether it has a partner.
-/

namespace Lookahead

namespace CodeBuffer

structure Builder where
  cells : Cells := .empty
  /-- The high surrogate that waits for its partner. -/
  pending : Option UInt16 := none
  journal : Array Event := #[]
  deriving DecidableEq, Repr, Inhabited

namespace Builder

def width (b : Builder) : Width := b.cells.width

def widen (b : Builder) (w : Width) : Builder :=
  if b.width < w then
    { b with
      cells := b.cells.widen w
      journal := b.journal.push (.promoted b.width w b.cells.size) }
  else
    b

/--
Add a unit to code points stored at full width: the new code points and the high surrogate that
waits from now on.
-/
def pushMerging (points : Array UInt32) (pending : Option UInt16) (u : UInt16) :
    Array UInt32 × Option UInt16 :=
  match pending with
  | some high =>
    if Utf16.IsLow u then (points.push (Utf16.combine high u), none)
    else pushFresh (points.push high.toUInt32) u
  | none => pushFresh points u
where
  pushFresh (points : Array UInt32) (u : UInt16) : Array UInt32 × Option UInt16 :=
    if Utf16.IsHigh u then (points, some u) else (points.push u.toUInt32, none)

/--
Store a unit at the present width, which must be able to hold it.
-/
def store (b : Builder) (u : UInt16) : Builder :=
  match b.cells with
  | .bytes a => { b with cells := .bytes (a.push u.toUInt8) }
  | .units a => { b with cells := .units (a.push u) }
  | .points a =>
    let (a, pending) := pushMerging a b.pending u
    { b with cells := .points a, pending }

def push (b : Builder) (u : UInt16) : Builder := (b.widen (.needed u)).store u

def pushAll (b : Builder) (units : List UInt16) : Builder := units.foldl push b

/--
Add the units of a chunk. A chunk that is not in one piece is refused before any of it is added.
-/
def append (b : Builder) (chunk : Utf16.Chunk) : Except Fault Unit × Builder :=
  match chunk.units? with
  | some units => (.ok (), b.pushAll units)
  | none => (.error .notContiguous, b)

/--
Add chunks one after the other, up to the first one that is refused.
-/
def appendAll (b : Builder) : List Utf16.Chunk → Except Fault Unit × Builder
  | [] => (.ok (), b)
  | chunk :: rest =>
    match b.append chunk with
    | (.ok (), b) => b.appendAll rest
    | (.error fault, b) => (.error fault, b)

/--
Settle what is still open: a high surrogate that waits is stored as itself.
-/
def close (b : Builder) : Builder :=
  let cells := match b.cells, b.pending with
    | .points a, some high => .points (a.push high.toUInt32)
    | cells, _ => cells
  { cells, journal := b.journal.push (.built cells.width cells.size b.pending.isSome) }

def build (b : Builder) : CodeBuffer where
  cells := b.close.cells

def ofChunks (chunks : List Utf16.Chunk) : Except Fault Builder :=
  match appendAll {} chunks with
  | (.ok (), b) => .ok b
  | (.error fault, _) => .error fault

def ofString (s : String) : Builder := pushAll {} (Utf16.ofString s)

theorem pushAll_append (b : Builder) (us vs : List UInt16) :
    b.pushAll (us ++ vs) = (b.pushAll us).pushAll vs := List.foldl_append

end Builder

end CodeBuffer

end Lookahead
