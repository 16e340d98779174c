import Remudero.Lib.Text

/-! # Variable-length quantities in base 64

An integer as digits of the base 64 alphabet.  Five bits of each are bits of the number, the lowest first, the sixth says
that another digit follows; the lowest bit of the number is its sign.  `toInt32` is what the bit operations of
ECMAScript make of a number. -/

namespace Remudero.Lib

/-- `ToInt32`. -/
def toInt32 (n : ℤ) : ℤ :=
  let r := n % 2 ^ 32
  if r < 2 ^ 31 then r else r - 2 ^ 32

theorem toInt32_of_lt {n : ℤ} (h : 0 ≤ n) (h' : n < 2 ^ 31) : toInt32 n = n := by
  have hmod : n % 2 ^ 32 = n := Int.emod_eq_of_lt h (by omega)
  simp only [toInt32, hmod, if_pos h']

namespace Vlq

def base64 : Text := "ABCDEFGHIJKLMNOPQRSTUVWXYZabcdefghijklmnopqrstuvwxyz0123456789+/".toList

def base64Char (digit : ℕ) : Char := base64.getD digit 'A'

/-- The number of an integer, with the sign as its lowest bit. -/
def signed (d : ℤ) : ℕ := if d < 0 then 2 * d.natAbs + 1 else 2 * d.natAbs

/-- The digits of a number. -/
def groups (n : ℕ) : List ℕ := if n < 32 then [n] else (n % 32 + 32) :: groups (n / 32)

def encode (d : ℤ) : Text := (groups (signed d)).map base64Char

theorem idxOf_base64Char {digit : ℕ} (h : digit < 64) : base64.idxOf? (base64Char digit) = some digit := by
  revert digit
  decide +kernel

theorem base64Char_ne {digit : ℕ} (h : digit < 64) : base64Char digit ≠ ';' ∧ base64Char digit ≠ ',' := by
  revert digit
  decide +kernel

theorem signed_lt {d : ℤ} {bound : ℕ} (h : d.natAbs < bound) : signed d < 2 * bound := by
  unfold signed
  split <;> omega

theorem half_signed (d : ℤ) : (if (signed d : ℤ) % 2 = 1 then -((signed d : ℤ) / 2) else (signed d : ℤ) / 2) = d := by
  unfold signed
  split <;> split <;> omega

end Vlq

end Remudero.Lib
