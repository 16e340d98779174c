import Remudero.Lib.Text

/-! # Times as texts

A number padded with zeros on the left, and the text of a time in milliseconds since 1970 in the
Gregorian calendar, as `Date.prototype.toISOString` writes it.  A year of more than four digits, or
one before year 0, has a sign and six digits. -/

namespace Remudero.Lib

/-- A number of at least `width` digits. -/
def padded (width n : ℕ) : Text :=
  let digits := Nat.toDigits 10 n
  List.replicate (width - digits.length) '0' ++ digits

theorem padded_injective (width : ℕ) : Function.Injective (padded width) := by
  have hvalue : ∀ n, Nat.ofDigitChars 10 (padded width n) 0 = n := by
    intro n
    unfold padded
    rw [Nat.ofDigitChars_append, Nat.ofDigitChars_replicate_zero, Nat.mul_zero, Nat.ofDigitChars_ten_toDigits]
  intro m n h
  rw [← hvalue m, h, hvalue n]

theorem isDigit_of_mem_padded {width n : ℕ} {c : Char} (h : c ∈ padded width n) : c.isDigit = true := by
  obtain h | h := List.mem_append.mp h
  · rw [List.eq_of_mem_replicate h]
    rfl
  · exact Nat.isDigit_of_mem_toDigits (by decide) (by decide) h

/-- Year, month and day of a day counted from 1970-01-01.  The years of the computation start in
March, and 400 of them are one era of 146097 days. -/
def civilDate (day : ℤ) : ℤ × ℕ × ℕ :=
  let z := day + 719468
  let era := z.fdiv 146097
  let dayOfEra := (z - era * 146097).toNat
  let yearOfEra := (dayOfEra - dayOfEra / 1460 + dayOfEra / 36524 - dayOfEra / 146096) / 365
  let dayOfYear := dayOfEra - (365 * yearOfEra + yearOfEra / 4 - yearOfEra / 100)
  let m := (5 * dayOfYear + 2) / 153
  let d := dayOfYear - (153 * m + 2) / 5 + 1
  let month := if m < 10 then m + 3 else m - 9
  (era * 400 + yearOfEra + if month ≤ 2 then 1 else 0, month, d)

def yearText (year : ℤ) : Text :=
  if 0 ≤ year ∧ year ≤ 9999 then padded 4 year.toNat
  else (if year < 0 then '-' else '+') :: padded 6 year.natAbs

/-- `new Date(ms).toISOString()`. -/
def toISOString (ms : ℤ) : Text :=
  let (year, month, day) := civilDate (ms.fdiv 86400000)
  let t := (ms.fmod 86400000).toNat
  yearText year ++ '-' :: padded 2 month ++ '-' :: padded 2 day ++ 'T' :: padded 2 (t / 3600000) ++
    ':' :: padded 2 (t / 60000 % 60) ++ ':' :: padded 2 (t / 1000 % 60) ++ '.' :: padded 3 (t % 1000) ++ ['Z']

example : toISOString 1767225600123 = "2026-01-01T00:00:00.123Z".toList := by decide +kernel

/-- A time is written in digits and six other characters. -/
theorem isDigit_or_mem_of_mem_toISOString {ms : ℤ} {c : Char} (h : c ∈ toISOString ms) :
    c.isDigit = true ∨ c ∈ ['-', '+', 'T', ':', '.', 'Z'] := by
  have hyear : ∀ year, c ∈ yearText year → c.isDigit = true ∨ c ∈ ['-', '+', 'T', ':', '.', 'Z'] := by
    intro year hc
    unfold yearText at hc
    split_ifs at hc
    · exact .inl (isDigit_of_mem_padded hc)
    · obtain rfl | hc := List.mem_cons.mp hc
      · right
        decide
      · exact .inl (isDigit_of_mem_padded hc)
    · obtain rfl | hc := List.mem_cons.mp hc
      · right
        decide
      · exact .inl (isDigit_of_mem_padded hc)
  simp only [toISOString, List.mem_append, List.mem_cons] at h
  rcases h with ((((((h | rfl | h) | rfl | h) | rfl | h) | rfl | h) | rfl | h) | rfl | h) | rfl | h
  · exact hyear _ h
  · right; decide
  · exact .inl (isDigit_of_mem_padded h)
  · right; decide
  · exact .inl (isDigit_of_mem_padded h)
  · right; decide
  · exact .inl (isDigit_of_mem_padded h)
  · right; decide
  · exact .inl (isDigit_of_mem_padded h)
  · right; decide
  · exact .inl (isDigit_of_mem_padded h)
  · right; decide
  · exact .inl (isDigit_of_mem_padded h)
  · right; decide
  · cases h

/-- The first and the last millisecond of the years of four digits. -/
def firstFourDigitMs : ℤ := -62167219200000

def lastFourDigitMs : ℤ := 253402300799999

end Remudero.Lib
