import Remudero.Lib.Json
import Remudero.Lib.Record

/-! # Rows of JSON

A row is the list of the fields of a JSON object.  `str` and `bool` read a field of one type, and
`shown` is the text that `String` makes of a field, absent ones included. -/

namespace Remudero.Lib

/-- The fields of a JSON object. -/
abbrev Row := List (Text × Json)

namespace Json

mutual

/-- `String(value)`; an array is the list of its elements, where `null` is empty. -/
def shown : Json → Text
  | .null => "null".toList
  | .bool true => "true".toList
  | .bool false => "false".toList
  | .num text => text
  | .str t => t
  | .arr items => commas (shownItems items)
  | .obj _ => "[object Object]".toList

def shownItems : List Json → List Text
  | [] => []
  | .null :: js => [] :: shownItems js
  | j :: js => shown j :: shownItems js

end

/-- `===` on values of rows; an object or an array of one row is never that of another. -/
def strictEq : Option Json → Option Json → Bool
  | none, none => true
  | some .null, some .null => true
  | some (.bool a), some (.bool b) => a = b
  | some (.num a), some (.num b) => a = b
  | some (.str a), some (.str b) => a = b
  | _, _ => false

theorem eq_of_strictEq {a b : Option Json} (h : strictEq a b = true) : a = b := by
  unfold strictEq at h
  split at h <;> simp_all

@[simp] theorem shown_str (t : Text) : shown (.str t) = t := rfl

end Json

namespace Row

def field (r : Row) (name : String) : Option Json := entryOf name.toList r

def str (r : Row) (name : String) : Option Text :=
  match r.field name with
  | some (.str t) => some t
  | _ => none

def bool (r : Row) (name : String) : Option Bool :=
  match r.field name with
  | some (.bool b) => some b
  | _ => none

/-- `String` of a field. -/
def shown (r : Row) (name : String) : Text := ((r.field name).map Json.shown).getD "undefined".toList

end Row

end Remudero.Lib
