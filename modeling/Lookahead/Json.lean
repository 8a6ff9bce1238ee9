import Lookahead.Interval.Basic
import Lookahead.Settings

/-!
This module contains the JSON form of intervals and settings. They are written as objects with all
of their fields. They are read from an object by the names of the fields, where fields of other
names are ignored, or from an array with exactly the fields in their order.
-/

namespace Lookahead

/--
A JSON value. Whole numbers are told apart from numbers written with a fraction or an exponent,
which no field of ours takes.
-/
inductive Json where
  | null
  | bool (b : Bool)
  | int (i : Int)
  | real
  | text (s : String)
  | list (values : List Json)
  | fields (fields : List (String × Json))

namespace Json

/--
The value of a field; of several with one name the last counts.
-/
def field? (fields : List (String × Json)) (name : String) : Option Json :=
  (fields.reverse.find? fun f => f.1 == name).map Prod.snd

/--
The values of the named fields in order, `none` for one that is missing.
-/
def record? (names : List String) : Json → Option (List (Option Json))
  | fields fs => some (names.map (field? fs))
  | list values => if values.length = names.length then some (values.map some) else none
  | _ => none

def intBetween? (lo hi : Int) : Json → Option Int
  | int i => if lo ≤ i ∧ i ≤ hi then some i else none
  | _ => none

def int32? (j : Json) : Option Int32 :=
  (j.intBetween? (-2147483648) 2147483647).map Int32.ofInt

def count? (j : Json) : Option Nat := (j.intBetween? 0 18446744073709551615).map Int.toNat

def text? : Json → Option String
  | text s => some s
  | _ => none

/--
A field that may be missing or null, and must be readable otherwise.
-/
def optional? {α : Type} (read : Json → Option α) : Option Json → Option (Option α)
  | none | some null => some none
  | some j => (read j).map some

def ofOption {α : Type} (write : α → Json) : Option α → Json
  | some a => write a
  | none => null

end Json

namespace Interval

def toJson (x : Interval) : Json := .fields [("a", .int x.lo.toInt), ("b", .int x.hi.toInt)]

def ofJson? (j : Json) : Option Interval :=
  match j.record? ["a", "b"] with
  | some [some a, some b] => do return ⟨← a.int32?, ← b.int32?⟩
  | _ => none

end Interval

namespace CharSettings

def toJson (settings : CharSettings) : Json :=
  .fields [("source_name", .ofOption .text settings.sourceName),
    ("initial_capacity", .ofOption (fun n => .int (Int.ofNat n)) settings.initialCapacity)]

def ofJson? (j : Json) : Option CharSettings :=
  match j.record? ["source_name", "initial_capacity"] with
  | some [name, capacity] => do
    return ⟨← Json.optional? Json.text? name, ← Json.optional? Json.count? capacity⟩
  | _ => none

end CharSettings

namespace TokenSettings

def toJson (settings : TokenSettings) : Json :=
  .fields [("fill_chunk_size", .int (Int.ofNat settings.fillChunk))]

def ofJson? (j : Json) : Option TokenSettings :=
  match j.record? ["fill_chunk_size"] with
  | some [some chunk] => do return ⟨← chunk.count?⟩
  | _ => none

end TokenSettings

end Lookahead
