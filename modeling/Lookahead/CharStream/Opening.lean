import Lookahead.CharStream.Basic
import Lookahead.CodeBuffer.Room
import Lookahead.Settings

/-!
This module contains the ways to open a character stream: on a text, on UTF-16 in one chunk, and on
UTF-16 in several chunks that are read as if they were one. To open a stream is to ask for room for its
code points first, and there is none if that is too much. Where there is room the stream is the one
on the buffer of the text, which is given here as well, without the room.
-/

namespace Lookahead

namespace CharStream

open CodeBuffer (Allotment Builder)

section Room

def ofAllotment? (a : Allotment) (settings : CharSettings) : Option CharStream := do
  return ofBuffer (← a.build?) (settings.sourceName.getD "")

def ofString? (s : String) (settings : CharSettings) : Option CharStream := do
  let units := Utf16.ofString s
  let a ← Allotment.ofCapacity? (settings.initialCapacity.getD units.length)
  let a ← a.appendUnits? units
  ofAllotment? a settings

def ofChunks? (chunks : List Utf16.Chunk) (settings : CharSettings) :
    Option (Except Fault CharStream) := do
  let a ← Allotment.ofCapacity? (settings.initialCapacity.getD 0)
  match ← a.appendAll? chunks with
  | (.ok (), a) => (ofAllotment? a settings).map .ok
  | (.error fault, _) => some (.error fault)

def ofChunk? (chunk : Utf16.Chunk) (settings : CharSettings) : Option (Except Fault CharStream) :=
  ofChunks? [chunk] settings

end Room

def ofBuilder (b : Builder) (settings : CharSettings) : CharStream :=
  ofBuffer b.build (settings.sourceName.getD "")

def ofString (s : String) (settings : CharSettings) : CharStream :=
  ofBuilder (Builder.ofString s) settings

def ofChunks (chunks : List Utf16.Chunk) (settings : CharSettings) : Except Fault CharStream :=
  (Builder.ofChunks chunks).map (ofBuilder · settings)

def ofChunk (chunk : Utf16.Chunk) (settings : CharSettings) : Except Fault CharStream :=
  ofChunks [chunk] settings

end CharStream

end Lookahead
