import Remudero.Lib.Text

/-! # JSON values and their serialization

`stringify` is `JSON.stringify` without spacing.  A number is the text it is serialized to, and
an object is its list of properties in insertion order.  `quote` escapes a string as the
serializer does: the short escapes, `\u00xx` for the remaining control characters, and every other
character as it is. -/

namespace Remudero.Lib

/-- A JSON value. -/
inductive Json where
  | null
  | bool (b : Bool)
  | num (shown : Text)
  | str (t : Text)
  | arr (items : List Json)
  | obj (fields : List (Text × Json))

namespace Json

def hexDigit (n : ℕ) : Char := if n < 10 then Char.ofNat (48 + n) else Char.ofNat (87 + n)

def escape (c : Char) : Text :=
  if c = '"' then ['\\', '"']
  else if c = '\\' then ['\\', '\\']
  else if c = '\n' then ['\\', 'n']
  else if c = '\r' then ['\\', 'r']
  else if c = '\t' then ['\\', 't']
  else if c.toNat = 8 then ['\\', 'b']
  else if c.toNat = 12 then ['\\', 'f']
  else if c.toNat < 32 then ['\\', 'u', '0', '0', hexDigit (c.toNat / 16), hexDigit (c.toNat % 16)]
  else [c]

/-- The serialization of a string. -/
def quote (t : Text) : Text := '"' :: t.flatMap escape ++ ['"']

/-- Join pieces with commas. -/
def commas : List Text → Text
  | [] => []
  | [t] => t
  | t :: ts => t ++ ',' :: commas ts

mutual

/-- `JSON.stringify`. -/
def stringify : Json → Text
  | .null => "null".toList
  | .bool true => "true".toList
  | .bool false => "false".toList
  | .num shown => shown
  | .str t => quote t
  | .arr items => '[' :: commas (stringifyItems items) ++ [']']
  | .obj fields => '\x7b' :: commas (stringifyFields fields) ++ ['\x7d']

def stringifyItems : List Json → List Text
  | [] => []
  | j :: js => stringify j :: stringifyItems js

def stringifyFields : List (Text × Json) → List Text
  | [] => []
  | (name, j) :: fields => (quote name ++ ':' :: stringify j) :: stringifyFields fields

end

example : stringify (.obj [(['a'], .arr [.null, .str ['"', '\n']])]) =
    "\x7b\"a\":[null,\"\\\"\\n\"]\x7d".toList := by decide

theorem infix_commas {t : Text} {ts : List Text} (h : t ∈ ts) : t <:+: commas ts := by
  induction ts with
  | nil => cases h
  | cons u us ih =>
      cases us with
      | nil =>
          obtain rfl := List.mem_singleton.mp h
          exact List.infix_refl _
      | cons v vs =>
          rw [commas]
          rcases List.mem_cons.mp h with rfl | h
          · exact (List.prefix_append _ _).isInfix
          · exact (ih h).trans ((List.suffix_cons _ _).trans (List.suffix_append _ _)).isInfix
          · simp

theorem mem_stringifyFields {name : Text} {j : Json} {fields : List (Text × Json)} (h : (name, j) ∈ fields) :
    quote name ++ ':' :: stringify j ∈ stringifyFields fields := by
  induction fields with
  | nil => cases h
  | cons f fields ih =>
      obtain ⟨name', j'⟩ := f
      rw [stringifyFields]
      rcases List.mem_cons.mp h with heq | h
      · cases heq
        exact List.mem_cons_self
      · exact List.mem_cons_of_mem _ (ih h)

/-- The text of an object has each of its properties in it. -/
theorem field_infix_stringify {name : Text} {j : Json} {fields : List (Text × Json)} (h : (name, j) ∈ fields) :
    quote name ++ ':' :: stringify j <:+: stringify (.obj fields) := by
  rw [stringify]
  refine (infix_commas (mem_stringifyFields h)).trans ?_
  exact (List.suffix_cons _ _).isInfix.trans (List.prefix_append _ _).isInfix

end Json

end Remudero.Lib
