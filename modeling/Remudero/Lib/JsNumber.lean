import Remudero.Lib.Comparators

/-! # Numbers with infinities and `NaN`

The values of type `number` of ECMAScript, with rationals for the finite ones.  No comparison with `NaN` holds, not even
that with itself, and a sort takes a difference that is `NaN` for zero.

Without `NaN` the difference of two numbers that are not the same has the sign of their order (`signOf_sub`). -/

namespace Remudero.Lib

inductive JsNumber where
  | finite (value : ℚ)
  | infinite (positive : Bool)
  | nan
deriving DecidableEq, Repr

namespace JsNumber

def ofOption : Option ℚ → JsNumber
  | some value => finite value
  | none => nan

def isFinite : JsNumber → Bool
  | finite _ => true
  | _ => false

/-- `a - b`. -/
def sub : JsNumber → JsNumber → JsNumber
  | finite a, finite b => finite (a - b)
  | infinite p, finite _ => infinite p
  | finite _, infinite p => infinite (!p)
  | infinite p, infinite q => if p = q then nan else infinite p
  | _, _ => nan

/-- `a < b`. -/
def lt : JsNumber → JsNumber → Bool
  | finite a, finite b => decide (a < b)
  | finite _, infinite p => p
  | infinite p, finite _ => !p
  | infinite p, infinite q => !p && q
  | _, _ => false

/-- `a <= b`. -/
def le : JsNumber → JsNumber → Bool
  | finite a, finite b => decide (a ≤ b)
  | finite _, infinite p => p
  | infinite p, finite _ => !p
  | infinite p, infinite q => !p || q
  | _, _ => false

/-- `a === b`. -/
def same : JsNumber → JsNumber → Bool
  | nan, _ => false
  | a, b => a = b

/-- What a sort makes of a comparator's result. -/
def signOf : JsNumber → Ordering
  | finite value => compare value 0
  | infinite true => .gt
  | infinite false => .lt
  | nan => .eq

/-! ### The order without `NaN` -/

/-- The place of a number, `NaN` among the infinite ones. -/
def place : JsNumber → ℤ × ℚ
  | finite value => (0, value)
  | infinite true => (1, 0)
  | infinite false => (-1, 0)
  | nan => (1, 0)

def comparePlace (a b : JsNumber) : Ordering := (compare a.place.1 b.place.1).then (compare a.place.2 b.place.2)

instance : Std.TransCmp comparePlace := by
  have hint : Std.TransOrd ℤ := inferInstance
  have hrat : Std.TransOrd ℚ := inferInstance
  exact transCmp_then (transCmp_on hint fun a : JsNumber => a.place.1) (transCmp_on hrat fun a : JsNumber => a.place.2)

theorem compare_sub_zero (a b : ℚ) : compare (a - b) 0 = compare a b := by
  rcases lt_trichotomy a b with h | rfl | h
  · rw [compare_lt_iff_lt.mpr h, compare_lt_iff_lt.mpr (sub_neg.mpr h)]
  · rw [sub_self, compare_eq_iff_eq.mpr rfl, compare_eq_iff_eq.mpr rfl]
  · rw [compare_gt_iff_gt.mpr h, compare_gt_iff_gt.mpr (sub_pos.mpr h)]

/-- The same numbers have one place. -/
theorem comparePlace_of_same {a b : JsNumber} (h : a.same b = true) : comparePlace a b = .eq := by
  have heq : a = b := by
    cases a with
    | nan => cases h
    | finite value => exact of_decide_eq_true h
    | infinite positive => exact of_decide_eq_true h
  rw [heq]
  exact Std.ReflCmp.compare_self

theorem comparePlace_ne_eq {a b : JsNumber} (ha : a ≠ nan) (hb : b ≠ nan) (h : a.same b = false) : comparePlace a b ≠ .eq := by
  intro heq
  rw [comparePlace, Ordering.then_eq_eq, compare_eq_iff_eq, compare_eq_iff_eq] at heq
  have hplace : a.place = b.place := Prod.ext heq.1 heq.2
  cases a with
  | nan => exact absurd rfl ha
  | finite x =>
      cases b with
      | nan => exact absurd rfl hb
      | finite y =>
          have hvalue : x = y := congrArg Prod.snd hplace
          rw [hvalue, same, decide_eq_false_iff_not] at h
          · exact h rfl
          · rintro ⟨⟩
      | infinite q => cases q <;> cases congrArg Prod.fst hplace
  | infinite p =>
      cases b with
      | nan => exact absurd rfl hb
      | finite y => cases p <;> cases congrArg Prod.fst hplace
      | infinite q =>
          cases p <;> cases q
          · cases h
          · cases congrArg Prod.fst hplace
          · cases congrArg Prod.fst hplace
          · cases h

theorem signOf_sub {a b : JsNumber} (ha : a ≠ nan) (hb : b ≠ nan) (h : a.same b = false) :
    (a.sub b).signOf = comparePlace a b := by
  cases a with
  | nan => exact absurd rfl ha
  | finite x =>
      cases b with
      | nan => exact absurd rfl hb
      | finite y => exact compare_sub_zero x y
      | infinite q => cases q <;> rfl
  | infinite p =>
      cases b with
      | nan => exact absurd rfl hb
      | finite y => cases p <;> rfl
      | infinite q =>
          cases p <;> cases q
          · cases h
          · rfl
          · rfl
          · cases h

theorem signOf_sub_of_nan {a b : JsNumber} (h : a = nan ∨ b = nan) : (a.sub b).signOf = .eq := by
  rcases h with rfl | rfl
  · rfl
  · cases a <;> rfl

theorem same_of_nan {a b : JsNumber} (h : a = nan ∨ b = nan) : a.same b = false := by
  rcases h with rfl | rfl
  · rfl
  · cases a <;> rfl

end JsNumber

end Remudero.Lib
