import Remudero.Lib.Text

/-! # Numbers from text

`Number(text)` of ECMAScript where it is finite.  The literals are those of `StringNumericLiteral`: white space
around them, the empty text for zero, hexadecimal, octal and binary integers without a sign, and decimals with a
sign, a fraction and an exponent.  The value is rounded to double precision, to the nearest and then to the
even one.

The decimal digits of a natural number below 2^53 are read exactly (`number_toDigits`). -/

namespace Remudero.Lib.Number

/-! ### Double precision -/

/-- The nearest integer, the even one of two. -/
def nearest (q : ℚ) : ℤ :=
  let below := ⌊q⌋
  if q - below < 1 / 2 then below
  else if 1 / 2 < q - below then below + 1
  else if below % 2 = 0 then below else below + 1

/-- `Number.MAX_SAFE_INTEGER`. -/
def maxSafeInteger : ℤ := 2 ^ 53 - 1

/-- The double that is nearest to `q`; none if it is infinite. -/
def toDouble (q : ℚ) : Option ℚ :=
  if q = 0 then some 0
  else
    let unit : ℚ := 2 ^ max (Int.log 2 |q| - 52) (-1074)
    let v := nearest (q / unit) * unit
    if |v| < 2 ^ 1024 then some v else none

/-! ### Literals -/

def hexValue (c : Char) : Option ℕ :=
  if c.isDigit then some (c.toNat - 48)
  else if 'a' ≤ c ∧ c ≤ 'f' then some (c.toNat - 87)
  else if 'A' ≤ c ∧ c ≤ 'F' then some (c.toNat - 55)
  else none

/-- The digits after `0x`, `0o` or `0b`: one at least, and each below the base. -/
def radixValue (base : ℕ) (digits : Text) : Option ℕ :=
  if digits = [] then none
  else digits.foldl (fun n c => do
    let d ← hexValue c
    if d < base then return base * (← n) + d else none) (some 0)

def radixLiteral : Text → Option ℕ
  | '0' :: mark :: digits =>
      if mark = 'x' ∨ mark = 'X' then radixValue 16 digits
      else if mark = 'o' ∨ mark = 'O' then radixValue 8 digits
      else if mark = 'b' ∨ mark = 'B' then radixValue 2 digits
      else none
  | _ => none

/-- `e` or `E`, a sign and digits, or nothing. -/
def exponentPart : Text → Option ℤ
  | [] => some 0
  | mark :: t =>
      let (negative, digits) : Bool × Text :=
        match t with
        | '-' :: digits => (true, digits)
        | '+' :: digits => (false, digits)
        | digits => (false, digits)
      if (mark = 'e' ∨ mark = 'E') ∧ digits ≠ [] ∧ digits.all Char.isDigit then
        some (if negative then -(Nat.ofDigitChars 10 digits 0 : ℤ) else Nat.ofDigitChars 10 digits 0)
      else none

/-- The digits after a point and what follows them. -/
def fractionPart : Text → Text × Text
  | '.' :: t => (t.takeWhile Char.isDigit, t.dropWhile Char.isDigit)
  | t => ([], t)

def unsignedDecimal (t : Text) : Option ℚ :=
  let whole := t.takeWhile Char.isDigit
  let (fraction, rest) := fractionPart (t.dropWhile Char.isDigit)
  if whole = [] ∧ fraction = [] then none
  else (exponentPart rest).map fun e =>
    (Nat.ofDigitChars 10 (whole ++ fraction) 0 : ℚ) * 10 ^ (e - (fraction.length : ℤ))

def decimalLiteral : Text → Option ℚ
  | '-' :: t => (unsignedDecimal t).map fun q => -q
  | '+' :: t => unsignedDecimal t
  | t => unsignedDecimal t

/-- `Number(text)`; none if it is not a number or infinite. -/
def number (text : Text) : Option ℚ :=
  let t := Text.trim text
  if t = [] then some 0
  else match radixLiteral t with
    | some n => toDouble n
    | none => (decimalLiteral t).bind toDouble

/-! ### Naturals below 2^53 -/

theorem nearest_intCast (n : ℤ) : nearest n = n := by
  have hfloor : ⌊(n : ℚ)⌋ = n := Int.floor_intCast n
  simp [nearest, hfloor]

theorem toDouble_natCast {n : ℕ} (h : n < 2 ^ 53) : toDouble n = some (n : ℚ) := by
  by_cases hzero : n = 0
  · rw [toDouble, if_pos (by rw [hzero]; rfl), hzero]
    rfl
  have hpos : (n : ℚ) ≠ 0 := Nat.cast_ne_zero.mpr hzero
  have hlog : Int.log 2 |(n : ℚ)| = Nat.log 2 n := by
    rw [Nat.abs_cast]
    exact Int.log_natCast 2 n
  have hlt : Nat.log 2 n < 53 := Nat.log_lt_of_lt_pow hzero h
  obtain ⟨s, hs⟩ := Nat.exists_eq_add_of_le (Nat.lt_succ_iff.mp hlt)
  have hunit : max (Int.log 2 |(n : ℚ)| - 52) (-1074) = -(s : ℤ) := by
    rw [hlog]
    omega
  have hunitpos : (2 : ℚ) ^ (-(s : ℤ)) ≠ 0 := zpow_ne_zero _ two_ne_zero
  have hscaled : (n : ℚ) / 2 ^ (-(s : ℤ)) = ((n * 2 ^ s : ℕ) : ℤ) := by
    rw [zpow_neg, div_inv_eq_mul, zpow_natCast]
    push_cast
    rfl
  have hvalue : (nearest ((n : ℚ) / 2 ^ (-(s : ℤ))) : ℚ) * 2 ^ (-(s : ℤ)) = n := by
    rw [hscaled, nearest_intCast, ← hscaled, div_mul_cancel₀ _ hunitpos]
  have hsmall : |(n : ℚ)| < 2 ^ 1024 := by
    rw [Nat.abs_cast]
    calc (n : ℚ) < ((2 ^ 53 : ℕ) : ℚ) := Nat.cast_lt.mpr h
      _ = 2 ^ 53 := by push_cast; rfl
      _ ≤ 2 ^ 1024 := pow_le_pow_right₀ one_le_two (by omega)
  rw [toDouble, if_neg hpos, hunit]
  simp only [hvalue, if_pos hsmall]

theorem isDigit_range {c : Char} (h : c.isDigit = true) : 48 ≤ c.toNat ∧ c.toNat ≤ 57 := by
  simp only [Char.isDigit, Bool.and_eq_true, decide_eq_true_eq, UInt32.le_iff_toNat_le] at h
  exact h

theorem jsSpace_of_isDigit {c : Char} (h : c.isDigit = true) : Text.jsSpace c = false := by
  have hrange := isDigit_range h
  simp only [Text.jsSpace, Bool.or_eq_false_iff, Bool.and_eq_false_iff, decide_eq_false_iff_not, beq_eq_false_iff_ne]
  omega

theorem dropWhile_of_forall {p : Char → Bool} {t : Text} (h : ∀ c ∈ t, p c = false) : t.dropWhile p = t := by
  cases t with
  | nil => rfl
  | cons c t => rw [List.dropWhile_cons_of_neg (by simp [h c List.mem_cons_self])]

theorem trim_of_not_space {t : Text} (h : ∀ c ∈ t, Text.jsSpace c = false) : Text.trim t = t := by
  rw [Text.trim, dropWhile_of_forall h, dropWhile_of_forall fun c hc => h c (List.mem_reverse.mp hc), List.reverse_reverse]

theorem radixLiteral_of_digits {t : Text} (h : ∀ c ∈ t, c.isDigit = true) : radixLiteral t = none := by
  unfold radixLiteral
  split
  · next mark digits =>
      have hmark := h mark (List.mem_cons_of_mem _ List.mem_cons_self)
      have hne : ∀ c : Char, c.isDigit = false → ¬mark = c := by
        rintro c hc rfl
        rw [hmark] at hc
        cases hc
      rw [if_neg (not_or.mpr ⟨hne _ (by decide), hne _ (by decide)⟩), if_neg (not_or.mpr ⟨hne _ (by decide), hne _ (by decide)⟩),
        if_neg (not_or.mpr ⟨hne _ (by decide), hne _ (by decide)⟩)]
  · rfl

theorem unsignedDecimal_of_digits {t : Text} (hne : t ≠ []) (h : ∀ c ∈ t, c.isDigit = true) :
    unsignedDecimal t = some (Nat.ofDigitChars 10 t 0 : ℚ) := by
  have htake : t.takeWhile Char.isDigit = t := List.takeWhile_eq_self_iff.mpr h
  have hdrop : t.dropWhile Char.isDigit = [] := List.dropWhile_eq_nil_iff.mpr h
  simp [unsignedDecimal, htake, hdrop, fractionPart, hne, exponentPart]

theorem decimalLiteral_of_digits {t : Text} (h : ∀ c ∈ t, c.isDigit = true) : decimalLiteral t = unsignedDecimal t := by
  unfold decimalLiteral
  split
  · exact absurd (h '-' List.mem_cons_self) (by decide)
  · exact absurd (h '+' List.mem_cons_self) (by decide)
  · rfl

theorem number_toDigits {n : ℕ} (h : n < 2 ^ 53) : number (Nat.toDigits 10 n) = some (n : ℚ) := by
  have hdigits : ∀ c ∈ Nat.toDigits 10 n, c.isDigit = true := fun c hc =>
    Nat.isDigit_of_mem_toDigits (by decide) (by decide) hc
  have htrim : Text.trim (Nat.toDigits 10 n) = Nat.toDigits 10 n :=
    trim_of_not_space fun c hc => jsSpace_of_isDigit (hdigits c hc)
  rw [number, htrim, if_neg Nat.toDigits_ne_nil, radixLiteral_of_digits hdigits]
  simp only [decimalLiteral_of_digits hdigits, unsignedDecimal_of_digits Nat.toDigits_ne_nil hdigits,
    Nat.ofDigitChars_ten_toDigits, Option.bind_some]
  exact toDouble_natCast h

end Remudero.Lib.Number
