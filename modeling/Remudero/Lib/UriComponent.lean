import Remudero.Lib.Encode
import Remudero.Lib.Number

/-! # Components of a URI

`encodeURIComponent` and `decodeURIComponent` of ECMAScript on texts of Unicode scalar values.  Letters, digits and
`-_.!~*'()` stand for themselves, every other character for the bytes of its UTF-8, each as `%` and two hexadecimal
digits.  The decoder throws on a `%` that no two digits follow and on bytes that are not UTF-8.

`decodeURIComponent_encodeURIComponent`: what was encoded is read back. -/

namespace Remudero.Lib

namespace UriComponent

/-- The characters that stand for themselves. -/
def unreserved (c : Char) : Bool := c.isAlphanum || "-_.!~*'()".toList.contains c

def hexDigit (n : ℕ) : Char := if n < 10 then Char.ofNat (48 + n) else Char.ofNat (55 + n)

def percentByte (b : UInt8) : Text := ['%', hexDigit (b.toNat / 16), hexDigit (b.toNat % 16)]

def encodeChar (c : Char) : Text := if unreserved c then [c] else (String.utf8EncodeChar c).flatMap percentByte

/-- The bytes that may come after those of a character that is not complete. -/
def accepts (held : Bytes) (b : UInt8) : Bool :=
  if held = [] then decide (b < 0x80) || decide (Utf8.sequenceLength b ≠ 1) else Utf8.continues held b

/-- `held` are the bytes of a character that is not complete. -/
def decodeFrom : Bytes → Text → Option Text
  | held, [] => if held = [] then some [] else none
  | held, '%' :: high :: low :: rest =>
      match Number.hexValue high, Number.hexValue low with
      | some x, some y =>
          let b := UInt8.ofNat (16 * x + y)
          if accepts held b then (decodeFrom (Utf8.push held b).2 rest).map ((Utf8.push held b).1 ++ ·) else none
      | _, _ => none
  | held, c :: rest => if c = '%' ∨ held ≠ [] then none else (decodeFrom [] rest).map (c :: ·)

end UriComponent

open UriComponent

def encodeURIComponent (t : Text) : Text := t.flatMap encodeChar

/-- `none` if it throws -/
def decodeURIComponent (t : Text) : Option Text := decodeFrom [] t

example : encodeURIComponent "a b/ü".toList = "a%20b%2F%C3%BC".toList := by decide +kernel

example : decodeURIComponent "%C3x".toList = none := by decide +kernel

namespace UriComponent

/-! ### Digits -/

theorem hexValue_hexDigit {n : ℕ} (h : n < 16) : Number.hexValue (hexDigit n) = some n := by
  interval_cases n <;> decide

theorem hexDigit_isAlphanum {n : ℕ} (h : n < 16) : (hexDigit n).isAlphanum = true := by
  interval_cases n <;> decide

/-- The characters of an encoded text. -/
theorem mem_encodeURIComponent {t : Text} {c : Char} (h : c ∈ encodeURIComponent t) : c = '%' ∨ unreserved c = true := by
  obtain ⟨d, -, hc⟩ := List.mem_flatMap.mp h
  unfold encodeChar at hc
  split at hc
  next hd => exact .inr (by rwa [List.mem_singleton.mp hc])
  next =>
    obtain ⟨b, -, hc⟩ := List.mem_flatMap.mp hc
    have hb : b.toNat < 256 := UInt8.toNat_lt b
    have hhigh := hexDigit_isAlphanum (show b.toNat / 16 < 16 by omega)
    have hlow := hexDigit_isAlphanum (show b.toNat % 16 < 16 by omega)
    rw [percentByte, List.mem_cons, List.mem_cons, List.mem_singleton] at hc
    obtain rfl | rfl | rfl := hc
    · exact .inl rfl
    · exact .inr (by rw [unreserved, hhigh, Bool.true_or])
    · exact .inr (by rw [unreserved, hlow, Bool.true_or])

theorem ne_percent_of_unreserved {c : Char} (h : unreserved c = true) : c ≠ '%' := by
  rintro rfl
  exact absurd h (by decide)

/-- They are ASCII, and none is white space. -/
theorem unreserved_range {c : Char} (h : unreserved c = true) : 32 < c.toNat ∧ c.toNat < 0x80 := by
  rcases Bool.or_eq_true_iff.mp h with h | h
  · simp only [Char.isAlphanum, Char.isAlpha, Char.isUpper, Char.isLower, Char.isDigit, Bool.or_eq_true,
      Bool.and_eq_true, decide_eq_true_eq, UInt32.le_iff_toNat_le, ge_iff_le] at h
    have hcode : c.toNat = c.val.toNat := rfl
    have hbounds : 'A'.val.toNat = 65 ∧ 'Z'.val.toNat = 90 ∧ 'a'.val.toNat = 97 ∧ 'z'.val.toNat = 122 ∧
        '0'.val.toNat = 48 ∧ '9'.val.toNat = 57 := ⟨rfl, rfl, rfl, rfl, rfl, rfl⟩
    omega
  · have hmem : c ∈ ['-', '_', '.', '!', '~', '*', '\'', '(', ')'] := List.contains_iff_mem.mp h
    simp only [List.mem_cons, List.not_mem_nil, or_false] at hmem
    rcases hmem with rfl | rfl | rfl | rfl | rfl | rfl | rfl | rfl | rfl <;> decide

/-! ### Decoding what was encoded -/

theorem decodeFrom_percentByte {held : Bytes} {b : UInt8} (h : accepts held b = true) (rest : Text) :
    decodeFrom held (percentByte b ++ rest) =
      (decodeFrom (Utf8.push held b).2 rest).map ((Utf8.push held b).1 ++ ·) := by
  have hb : b.toNat < 256 := UInt8.toNat_lt b
  have hbyte : UInt8.ofNat (16 * (b.toNat / 16) + b.toNat % 16) = b := by
    rw [Nat.div_add_mod, UInt8.ofNat_toNat]
  change decodeFrom held ('%' :: hexDigit (b.toNat / 16) :: hexDigit (b.toNat % 16) :: rest) = _
  rw [decodeFrom, hexValue_hexDigit (by omega), hexValue_hexDigit (by omega)]
  simp only [hbyte, if_pos h]

theorem decodeFrom_unreserved {c : Char} (h : c ≠ '%') (rest : Text) :
    decodeFrom [] (c :: rest) = (decodeFrom [] rest).map (c :: ·) := by
  rw [decodeFrom.eq_3 _ _ _ (by simp_all), if_neg (by simp [h])]

theorem accepts_of_held {p : Bytes} {b : UInt8} (h : Utf8.push p b = ([], p ++ [b])) : accepts p b = true := by
  unfold accepts
  by_cases hp : p = []
  · subst hp
    rw [if_pos rfl]
    rw [Utf8.push, Utf8.continues, if_neg Bool.false_ne_true, Utf8.first] at h
    by_cases hlt : b < 0x80
    · simp [hlt]
    · by_cases hlength : Utf8.sequenceLength b = 1
      · simp [hlt, hlength, Utf8.abandoned] at h
      · simp [hlength]
  · rw [if_neg hp]
    by_contra hnot
    rw [Utf8.push, if_neg hnot, Utf8.abandoned, if_neg (by simpa using hp)] at h
    simp at h

/-- Only a complete character leaves nothing to hold. -/
theorem first_ne_nil {b : UInt8} (h : (Utf8.first b).2 = []) : (Utf8.first b).1 ≠ [] := by
  unfold Utf8.first at h ⊢
  split_ifs at h ⊢
  · exact List.cons_ne_nil _ _
  · exact List.cons_ne_nil _ _

theorem accepts_last {c : Char} {begun : Bytes} {last : UInt8} (hbytes : String.utf8EncodeChar c = begun ++ [last])
    (h : Utf8.push begun last = ([c], [])) : accepts begun last = true := by
  unfold accepts
  by_cases hbegun : begun = []
  · subst hbegun
    rw [if_pos rfl, Bool.or_eq_true]
    left
    obtain ⟨hlt, heq⟩ | ⟨_, _, heq, -⟩ | ⟨_, _, _, heq, -⟩ | ⟨_, _, _, _, heq, -⟩ := Utf8.utf8EncodeChar_cases c
    · obtain rfl : UInt8.ofNat c.toNat = last := by
        rw [heq] at hbytes
        simpa using hbytes
      rw [decide_eq_true_eq, UInt8.lt_iff_toNat_lt, UInt8.toNat_ofNat', show (0x80 : UInt8).toNat = 0x80 from rfl]
      omega
    · simp [heq] at hbytes
    · simp [heq] at hbytes
    · simp [heq] at hbytes
  · rw [if_neg hbegun]
    by_contra hnot
    rw [Utf8.push, if_neg hnot, Utf8.abandoned, if_neg (by simpa using hbegun)] at h
    obtain ⟨htext, hheld⟩ := Prod.mk.inj h
    exact first_ne_nil hheld (List.cons.inj htext).2

/-- The beginning of a character. -/
theorem decodeFrom_begun {begun : Bytes} (h : ∀ p b, p ++ [b] <+: begun → Utf8.push p b = ([], p ++ [b])) (more : Bytes) :
    ∀ held, held ++ more = begun → ∀ rest : Text,
      decodeFrom held (more.flatMap percentByte ++ rest) = decodeFrom begun rest := by
  induction more with
  | nil =>
      intro held heq rest
      rw [← heq, List.append_nil]
      rfl
  | cons b more ih =>
      intro held heq rest
      have hpush : Utf8.push held b = ([], held ++ [b]) := h held b ⟨more, by simp [← heq]⟩
      rw [List.flatMap_cons, List.append_assoc, decodeFrom_percentByte (accepts_of_held hpush), hpush,
        ih (held ++ [b]) (by simp [← heq])]
      simp

theorem decodeFrom_encodeChar (c : Char) (rest : Text) :
    decodeFrom [] (encodeChar c ++ rest) = (decodeFrom [] rest).map (c :: ·) := by
  unfold encodeChar
  split
  next h => exact decodeFrom_unreserved (ne_percent_of_unreserved h) rest
  next =>
    obtain ⟨begun, last, heq, hbegun, hlast⟩ := Utf8.utf8EncodeChar_pushes c
    rw [heq, List.flatMap_append, List.append_assoc, decodeFrom_begun hbegun begun [] rfl, List.flatMap_singleton,
      decodeFrom_percentByte (accepts_last heq hlast), hlast]
    rfl

end UriComponent

theorem decodeURIComponent_encodeURIComponent (t : Text) : decodeURIComponent (encodeURIComponent t) = some t := by
  unfold decodeURIComponent encodeURIComponent
  induction t with
  | nil => rfl
  | cons c t ih => rw [List.flatMap_cons, decodeFrom_encodeChar, ih, Option.map_some]

/-- A text without a `%` stands for itself. -/
theorem decodeURIComponent_of_not_mem {t : Text} (h : '%' ∉ t) : decodeURIComponent t = some t := by
  unfold decodeURIComponent
  induction t with
  | nil => rfl
  | cons c t ih =>
      rw [decodeFrom_unreserved (fun heq => h (by simp [heq])), ih fun hmem => h (List.mem_cons_of_mem c hmem),
        Option.map_some]

end Remudero.Lib
