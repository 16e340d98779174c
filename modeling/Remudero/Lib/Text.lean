import Mathlib

/-! # Text

Texts are lists of characters (Unicode scalar values, so every text is valid UTF-8).  The
character classes are those of ECMAScript: `jsSpace` is the class `\s` that `trim` strips and
`lineTerminator` the characters at which the multiline anchors `^` and `$` match. -/

namespace Remudero.Lib

abbrev Text := List Char

/-- Named, so that every module decides membership in a list of texts by the same term. -/
instance instLawfulBEqText : LawfulBEq Text := inferInstance

namespace Text

/-- The class `\s`: white space and line terminators. -/
def jsSpace (c : Char) : Bool :=
  let n := c.toNat
  (9 ≤ n && n ≤ 13) || n == 32 || n == 160 || n == 0x1680 || (0x2000 ≤ n && n ≤ 0x200a) ||
    n == 0x2028 || n == 0x2029 || n == 0x202f || n == 0x205f || n == 0x3000 || n == 0xfeff

def lineTerminator (c : Char) : Bool :=
  c == '\n' || c == '\r' || c.toNat == 0x2028 || c.toNat == 0x2029

/-- `String.prototype.trim`. -/
def trim (t : Text) : Text :=
  ((t.dropWhile jsSpace).reverse.dropWhile jsSpace).reverse

/-- ASCII lower case. -/
def lower (t : Text) : Text := t.map Char.toLower

/-- `needle` occurs in `t`. -/
def contains (t needle : Text) : Bool := decide (needle <:+: t)

/-- `needle` occurs in `t` up to ASCII case. -/
def containsCI (t needle : Text) : Bool := contains (lower t) (lower needle)

/-- `endsWith`. -/
def endsWith (t : Text) (tail : String) : Bool := tail.toList.isSuffixOf t

/-- Split at every character of the class `p`, keeping empty pieces. -/
def splitBy (p : Char → Bool) : Text → List Text
  | [] => [[]]
  | c :: cs =>
      if p c then [] :: splitBy p cs
      else match splitBy p cs with
        | [] => [[c]]
        | l :: ls => (c :: l) :: ls

/-- UTF-16 code units of a character. -/
def units (c : Char) : ℕ := if c.toNat < 0x10000 then 1 else 2

/-- `length`, in UTF-16 code units. -/
def unitLength (t : Text) : ℕ := (t.map units).sum

/-- `slice(0, max)` in UTF-16 code units; a surrogate pair that the cut would split is left out. -/
def takeUnits : ℕ → Text → Text
  | _, [] => []
  | max, c :: cs => if units c ≤ max then c :: takeUnits (max - units c) cs else []

/-- `join`. -/
def join (sep : Text) (ts : List Text) : Text := (ts.intersperse sep).flatten

theorem unitLength_append (a b : Text) : unitLength (a ++ b) = unitLength a + unitLength b := by
  simp [unitLength]

/-- Size in UTF-8 bytes. -/
def byteLength (t : Text) : ℕ := (t.map Char.utf8Size).sum

@[simp] theorem byteLength_nil : byteLength [] = 0 := rfl

@[simp] theorem byteLength_append (s t : Text) :
    byteLength (s ++ t) = byteLength s + byteLength t := by
  simp [byteLength]

end Text

end Remudero.Lib
