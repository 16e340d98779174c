import Remudero.Lib.Number

/-! # Integers as text

`String(n)` of ECMAScript for a double that is an integer: the fewest decimal digits that are read as `n`, filled up
with zeros, or with an exponent from 10^21 on.

`number_integerText`: the text is read back. -/

namespace Remudero.Lib.Number

/-! ### Writing -/

/-- The digits of `s` with `z` zeros are read as `m`. -/
def roundsTo (m s z : ℕ) : Bool := decide (toDouble ((s * 10 ^ z : ℕ) : ℚ) = some (m : ℚ))

/-- The number that is closest to `m` and read as `m`, if there is one with `z` zeros at its end. -/
def digitsFor (m z : ℕ) : Option ℕ :=
  let low := m / 10 ^ z
  if roundsTo m low z && (!roundsTo m (low + 1) z || decide (m - low * 10 ^ z ≤ (low + 1) * 10 ^ z - m)) then some low
  else if roundsTo m (low + 1) z then some (low + 1)
  else none

/-- The fewest digits that are read as `m`, and how many zeros follow them. -/
def shortest (m : ℕ) : ℕ × ℕ :=
  ((List.range (Nat.toDigits 10 m).length).reverse.findSome? fun z => (digitsFor m z).map (·, z)).getD (m, 0)

def exponentText (digits : Text) (z : ℕ) : Text :=
  let fraction := (digits.tail.reverse.dropWhile (· == '0')).reverse
  digits.take 1 ++ (if fraction = [] then [] else '.' :: fraction) ++ 'e' :: '+' :: Nat.toDigits 10 (digits.length - 1 + z)

def magnitudeText (m : ℕ) : Text :=
  let (s, z) := shortest m
  if (Nat.toDigits 10 m).length ≤ 21 then Nat.toDigits 10 s ++ List.replicate z '0'
  else exponentText (Nat.toDigits 10 s) z

/-- `String(n)` -/
def integerText (n : ℤ) : Text := if n < 0 then '-' :: magnitudeText n.natAbs else magnitudeText n.natAbs

/-! ### Reading back -/

theorem nearest_neg (q : ℚ) : nearest (-q) = -nearest q := by
  by_cases hint : (⌊q⌋ : ℚ) = q
  · rw [← hint, ← Int.cast_neg, nearest_intCast, nearest_intCast]
  · have hlt : (⌊q⌋ : ℚ) < q := lt_of_le_of_ne (Int.floor_le q) hint
    have hceil : q < ⌊q⌋ + 1 := Int.lt_floor_add_one q
    have hfloor : ⌊-q⌋ = -⌊q⌋ - 1 := by
      rw [Int.floor_eq_iff]
      push_cast
      constructor <;> linarith
    unfold nearest
    simp only [hfloor]
    push_cast
    rcases lt_trichotomy (q - ⌊q⌋) (1 / 2) with hless | heq | hmore
    · rw [if_neg (by linarith), if_pos (by linarith), if_pos hless]
      ring
    · have hhalf : -q - (-(⌊q⌋ : ℚ) - 1) = 1 / 2 := by linarith
      simp only [hhalf, heq, lt_irrefl, if_false]
      -- halfway between two integers, the even one is taken on both sides
      split <;> split <;> omega
    · rw [if_pos (by linarith), if_neg (by linarith), if_pos hmore]
      ring

theorem toDouble_neg (q : ℚ) : toDouble (-q) = (toDouble q).map fun v => -v := by
  by_cases hzero : q = 0
  · simp [toDouble, hzero]
  · unfold toDouble
    rw [if_neg (neg_ne_zero.mpr hzero), if_neg hzero]
    simp only [abs_neg, neg_div, nearest_neg, Int.cast_neg, neg_mul]
    split <;> rfl

theorem roundsTo_of_digitsFor {m z s : ℕ} (h : digitsFor m z = some s) : toDouble ((s * 10 ^ z : ℕ) : ℚ) = some (m : ℚ) := by
  unfold digitsFor at h
  dsimp only at h
  split at h
  next hlow =>
    rw [Bool.and_eq_true] at hlow
    obtain rfl := Option.some.inj h
    exact of_decide_eq_true hlow.1
  next =>
    split at h
    next hhigh =>
      obtain rfl := Option.some.inj h
      exact of_decide_eq_true hhigh
    next => cases h

theorem toDouble_shortest {m : ℕ} (h : toDouble (m : ℚ) = some (m : ℚ)) :
    toDouble (((shortest m).1 * 10 ^ (shortest m).2 : ℕ) : ℚ) = some (m : ℚ) := by
  unfold shortest
  cases hfind : (List.range (Nat.toDigits 10 m).length).reverse.findSome? fun z => (digitsFor m z).map (·, z) with
  | none => simpa using h
  | some sz =>
      obtain ⟨z, -, hz⟩ := List.exists_of_findSome?_eq_some hfind
      obtain ⟨s, hs, rfl⟩ := Option.map_eq_some_iff.mp hz
      exact roundsTo_of_digitsFor hs

/-- Below 10^21 there is no exponent. -/
theorem magnitudeText_of_lt {m : ℕ} (h : m < 10 ^ 21) :
    magnitudeText m = Nat.toDigits 10 (shortest m).1 ++ List.replicate (shortest m).2 '0' := by
  unfold magnitudeText
  exact if_pos ((Nat.length_toDigits_le_iff (by decide) (by decide)).mpr h)

theorem isDigit_of_mem_magnitudeText {m : ℕ} (h : m < 10 ^ 21) {c : Char} (hc : c ∈ magnitudeText m) : c.isDigit = true := by
  rw [magnitudeText_of_lt h] at hc
  rcases List.mem_append.mp hc with hc | hc
  · exact Nat.isDigit_of_mem_toDigits (by decide) (by decide) hc
  · rw [List.eq_of_mem_replicate hc]
    rfl

/-- The characters of an integer below 10^21. -/
theorem mem_integerText_of_lt {n : ℤ} (h : n.natAbs < 10 ^ 21) {c : Char} (hc : c ∈ integerText n) :
    c = '-' ∨ c.isDigit = true := by
  unfold integerText at hc
  split at hc
  · exact (List.mem_cons.mp hc).imp_right (isDigit_of_mem_magnitudeText h)
  · exact .inr (isDigit_of_mem_magnitudeText h hc)

/-! ### With an exponent -/

/-- A digit in front of digits, a point and an exponent. -/
structure Numeral (t : Text) : Prop where
  head : ∃ d more, t = d :: more ∧ d.isDigit = true
  chars : ∀ c ∈ t, c.isDigit = true ∨ c = '.' ∨ c = 'e' ∨ c = '+'

/-- The last digits of a text, all of them zeros. -/
theorem exists_trailing_zeros (t : Text) :
    ∃ k, t = (t.reverse.dropWhile (· == '0')).reverse ++ List.replicate k '0' := by
  refine ⟨(t.reverse.takeWhile (· == '0')).length, ?_⟩
  have hzeros : t.reverse.takeWhile (· == '0') = List.replicate (t.reverse.takeWhile (· == '0')).length '0' := by
    rw [List.eq_replicate_iff]
    exact ⟨rfl, fun c hc => by simpa using List.mem_takeWhile_imp hc⟩
  apply List.reverse_injective
  rw [List.reverse_append, List.reverse_replicate, List.reverse_reverse, ← hzeros, List.takeWhile_append_dropWhile]

theorem exponentPart_plus {E : Text} (hne : E ≠ []) (h : ∀ c ∈ E, c.isDigit = true) :
    exponentPart ('e' :: '+' :: E) = some (Nat.ofDigitChars 10 E 0 : ℤ) := by
  have hall : E.all Char.isDigit = true := List.all_eq_true.mpr h
  simp [exponentPart, hne, hall]

/-- One digit, a fraction and an exponent. -/
theorem unsignedDecimal_scientific {d : Char} {fraction E : Text} (hd : d.isDigit = true)
    (hfraction : ∀ c ∈ fraction, c.isDigit = true) (hne : E ≠ []) (hE : ∀ c ∈ E, c.isDigit = true) :
    unsignedDecimal (d :: (if fraction = [] then [] else '.' :: fraction) ++ 'e' :: '+' :: E) =
      some ((Nat.ofDigitChars 10 (d :: fraction) 0 : ℚ) * 10 ^ ((Nat.ofDigitChars 10 E 0 : ℤ) - (fraction.length : ℤ))) := by
  have hmark : ('e' : Char).isDigit = false := rfl
  have hpoint : ('.' : Char).isDigit = false := rfl
  by_cases hempty : fraction = []
  · subst hempty
    simp [unsignedDecimal, hd, hmark, fractionPart, exponentPart_plus hne hE]
  · have htake : (fraction ++ 'e' :: '+' :: E).takeWhile Char.isDigit = fraction := by
      rw [List.takeWhile_append_of_pos hfraction, List.takeWhile_cons_of_neg (by simp [hmark]), List.append_nil]
    have hdrop : (fraction ++ 'e' :: '+' :: E).dropWhile Char.isDigit = 'e' :: '+' :: E := by
      rw [List.dropWhile_append_of_pos hfraction, List.dropWhile_cons_of_neg (by simp [hmark])]
    simp [unsignedDecimal, hempty, hd, hpoint, fractionPart, htake, hdrop, exponentPart_plus hne hE]

theorem unsignedDecimal_exponentText {digits : Text} (hne : digits ≠ []) (h : ∀ c ∈ digits, c.isDigit = true) (z : ℕ) :
    unsignedDecimal (exponentText digits z) = some ((Nat.ofDigitChars 10 digits 0 * 10 ^ z : ℕ) : ℚ) := by
  obtain ⟨d, tail, rfl⟩ := List.exists_cons_of_ne_nil hne
  obtain ⟨k, hk⟩ := exists_trailing_zeros tail
  have hexponent : ∀ c ∈ Nat.toDigits 10 (tail.length + z), c.isDigit = true := fun c hc =>
    Nat.isDigit_of_mem_toDigits (by decide) (by decide) hc
  unfold exponentText
  dsimp only [List.tail_cons, List.take_succ_cons, List.take_zero, List.length_cons]
  set fraction := (tail.reverse.dropWhile (· == '0')).reverse with hfraction
  have hmem : ∀ c ∈ fraction, c.isDigit = true := by
    intro c hc
    apply h c
    rw [hk]
    simp [hc]
  have hlength : tail.length = fraction.length + k := by
    rw [hk, List.length_append, List.length_replicate]
  have hvalue : Nat.ofDigitChars 10 (d :: tail) 0 = Nat.ofDigitChars 10 (d :: fraction) 0 * 10 ^ k := by
    rw [hk, ← List.cons_append, Nat.ofDigitChars_append, Nat.ofDigitChars_replicate_zero, Nat.mul_comm]
  have hpower : ((tail.length + z : ℕ) : ℤ) - (fraction.length : ℤ) = ((k + z : ℕ) : ℤ) := by
    rw [hlength]
    push_cast
    ring
  rw [List.singleton_append, Nat.add_sub_cancel, unsignedDecimal_scientific (h d List.mem_cons_self) hmem Nat.toDigits_ne_nil hexponent,
    Nat.ofDigitChars_ten_toDigits, hpower, zpow_natCast, hvalue]
  push_cast
  ring_nf

/-! ### Every integer -/

theorem numeral_of_digits {t : Text} (hne : t ≠ []) (h : ∀ c ∈ t, c.isDigit = true) : Numeral t := by
  obtain ⟨d, more, rfl⟩ := List.exists_cons_of_ne_nil hne
  exact ⟨⟨d, more, rfl, h d List.mem_cons_self⟩, fun c hc => .inl (h c hc)⟩

theorem numeral_exponentText {digits : Text} (hne : digits ≠ []) (h : ∀ c ∈ digits, c.isDigit = true) (z : ℕ) :
    Numeral (exponentText digits z) := by
  obtain ⟨d, tail, rfl⟩ := List.exists_cons_of_ne_nil hne
  refine ⟨⟨d, _, rfl, h d List.mem_cons_self⟩, fun c hc => ?_⟩
  unfold exponentText at hc
  dsimp only at hc
  simp only [List.mem_append, List.mem_cons] at hc
  obtain (hc | hc) | rfl | rfl | hc := hc
  · exact .inl (h c (List.mem_of_mem_take hc))
  · split at hc
    · cases hc
    · obtain rfl | hc := List.mem_cons.mp hc
      · exact .inr (.inl rfl)
      · rw [List.mem_reverse] at hc
        have htail := List.mem_reverse.mp ((List.dropWhile_sublist _).mem hc)
        exact .inl (h c (List.mem_of_mem_tail htail))
  · exact .inr (.inr (.inl rfl))
  · exact .inr (.inr (.inr rfl))
  · exact .inl (Nat.isDigit_of_mem_toDigits (by decide) (by decide) hc)

theorem isDigit_toDigits (n : ℕ) : ∀ c ∈ Nat.toDigits 10 n, c.isDigit = true := fun _ hc =>
  Nat.isDigit_of_mem_toDigits (by decide) (by decide) hc

theorem numeral_magnitudeText (m : ℕ) : Numeral (magnitudeText m) := by
  by_cases h : m < 10 ^ 21
  · refine numeral_of_digits ?_ fun c hc => isDigit_of_mem_magnitudeText h hc
    rw [magnitudeText_of_lt h]
    simp [Nat.toDigits_ne_nil]
  · have hlong : ¬(Nat.toDigits 10 m).length ≤ 21 := by rwa [Nat.length_toDigits_le_iff (by decide) (by decide)]
    unfold magnitudeText
    dsimp only
    rw [if_neg hlong]
    exact numeral_exponentText Nat.toDigits_ne_nil (isDigit_toDigits _) _

theorem unsignedDecimal_magnitudeText (m : ℕ) :
    unsignedDecimal (magnitudeText m) = some (((shortest m).1 * 10 ^ (shortest m).2 : ℕ) : ℚ) := by
  by_cases h : m < 10 ^ 21
  · have hvalue : Nat.ofDigitChars 10 (magnitudeText m) 0 = (shortest m).1 * 10 ^ (shortest m).2 := by
      rw [magnitudeText_of_lt h, Nat.ofDigitChars_append, Nat.ofDigitChars_ten_toDigits, Nat.ofDigitChars_replicate_zero,
        Nat.mul_comm]
    obtain ⟨d, more, heq, -⟩ := (numeral_magnitudeText m).head
    rw [unsignedDecimal_of_digits (by rw [heq]; exact List.cons_ne_nil d more) fun c hc => isDigit_of_mem_magnitudeText h hc,
      hvalue]
  · have hlong : ¬(Nat.toDigits 10 m).length ≤ 21 := by rwa [Nat.length_toDigits_le_iff (by decide) (by decide)]
    unfold magnitudeText
    dsimp only
    rw [if_neg hlong, unsignedDecimal_exponentText Nat.toDigits_ne_nil (isDigit_toDigits _), Nat.ofDigitChars_ten_toDigits]

/-- The characters of an integer. -/
theorem mem_integerText {n : ℤ} {c : Char} (hc : c ∈ integerText n) :
    c = '-' ∨ c.isDigit = true ∨ c = '.' ∨ c = 'e' ∨ c = '+' := by
  unfold integerText at hc
  split at hc
  · exact (List.mem_cons.mp hc).imp_right ((numeral_magnitudeText _).chars c)
  · exact .inr ((numeral_magnitudeText _).chars c hc)

theorem radixLiteral_numeral {t : Text} (h : Numeral t) : radixLiteral t = none := by
  unfold radixLiteral
  split
  next mark digits =>
    have hmark := h.chars mark (List.mem_cons_of_mem _ List.mem_cons_self)
    have hne : ∀ c : Char, c.isDigit = false → c ≠ '.' ∧ c ≠ 'e' ∧ c ≠ '+' → ¬mark = c := by
      rintro c hc hnot rfl
      simp [hc, hnot] at hmark
    rw [if_neg (not_or.mpr ⟨hne _ rfl (by decide), hne _ rfl (by decide)⟩),
      if_neg (not_or.mpr ⟨hne _ rfl (by decide), hne _ rfl (by decide)⟩),
      if_neg (not_or.mpr ⟨hne _ rfl (by decide), hne _ rfl (by decide)⟩)]
  next => rfl

theorem decimalLiteral_numeral {t : Text} (h : Numeral t) : decimalLiteral t = unsignedDecimal t := by
  obtain ⟨d, more, rfl, hd⟩ := h.head
  unfold decimalLiteral
  split
  next heq =>
    rw [(List.cons.inj heq).1] at hd
    exact absurd hd (by decide)
  next heq =>
    rw [(List.cons.inj heq).1] at hd
    exact absurd hd (by decide)
  next => rfl

theorem number_integerText {n : ℤ} (hdouble : toDouble (n : ℚ) = some (n : ℚ)) : number (integerText n) = some (n : ℚ) := by
  have hspace : ∀ c ∈ integerText n, Text.jsSpace c = false := by
    intro c hc
    obtain rfl | hdigit | rfl | rfl | rfl := mem_integerText hc
    · decide
    · exact jsSpace_of_isDigit hdigit
    · decide
    · decide
    · decide
  have hnumeral := numeral_magnitudeText n.natAbs
  rw [number, trim_of_not_space hspace]
  by_cases hneg : n < 0
  · have hmagnitude : (n : ℚ) = -(n.natAbs : ℚ) := by
      rw [← Int.cast_natCast, Int.ofNat_natAbs_of_nonpos hneg.le]
      simp
    have hround : toDouble (n.natAbs : ℚ) = some (n.natAbs : ℚ) := by
      rw [hmagnitude, toDouble_neg] at hdouble
      obtain ⟨v, hv, hvn⟩ := Option.map_eq_some_iff.mp hdouble
      rw [hv, neg_inj.mp hvn]
    have htext : integerText n = '-' :: magnitudeText n.natAbs := if_pos hneg
    rw [htext, if_neg (List.cons_ne_nil _ _)]
    have hradix : radixLiteral ('-' :: magnitudeText n.natAbs) = none := rfl
    have hdecimal : decimalLiteral ('-' :: magnitudeText n.natAbs) =
        (unsignedDecimal (magnitudeText n.natAbs)).map fun q => -q := rfl
    simp only [hradix, hdecimal, unsignedDecimal_magnitudeText, Option.map_some, Option.bind_some, toDouble_neg,
      toDouble_shortest hround, hmagnitude]
  · have hmagnitude : (n : ℚ) = (n.natAbs : ℚ) := by
      rw [← Int.cast_natCast, Int.natAbs_of_nonneg (not_lt.mp hneg)]
    have hround : toDouble (n.natAbs : ℚ) = some (n.natAbs : ℚ) := by
      rw [hmagnitude] at hdouble
      exact hdouble
    have htext : integerText n = magnitudeText n.natAbs := if_neg hneg
    have hne : magnitudeText n.natAbs ≠ [] := by
      obtain ⟨d, more, heq, -⟩ := hnumeral.head
      rw [heq]
      exact List.cons_ne_nil d more
    rw [htext, if_neg hne, radixLiteral_numeral hnumeral]
    simp only [decimalLiteral_numeral hnumeral, unsignedDecimal_magnitudeText, Option.bind_some,
      toDouble_shortest hround, hmagnitude]

/-- Different integers have different texts. -/
theorem integerText_inj {m n : ℤ} (hm : toDouble (m : ℚ) = some (m : ℚ)) (hn : toDouble (n : ℚ) = some (n : ℚ))
    (h : integerText m = integerText n) : m = n := by
  have hread := number_integerText hm
  rw [h, number_integerText hn] at hread
  exact (Int.cast_injective (Option.some.inj hread)).symm

/-! ### Integers below 2^53 -/

/-- The digits of an integer after its sign. -/
def signedDigits (n : ℤ) : Text := if n < 0 then '-' :: Nat.toDigits 10 n.natAbs else Nat.toDigits 10 n.natAbs

theorem number_signedDigits {n : ℤ} (h : n.natAbs < 2 ^ 53) : number (signedDigits n) = some (n : ℚ) := by
  unfold signedDigits
  by_cases hneg : n < 0
  · have hmagnitude : (n : ℚ) = -(n.natAbs : ℚ) := by
      rw [← Int.cast_natCast, Int.ofNat_natAbs_of_nonpos hneg.le]
      simp
    have hspace : ∀ c ∈ '-' :: Nat.toDigits 10 n.natAbs, Text.jsSpace c = false := by
      intro c hc
      rcases List.mem_cons.mp hc with rfl | hc
      · decide
      · exact jsSpace_of_isDigit (isDigit_toDigits _ c hc)
    have hradix : radixLiteral ('-' :: Nat.toDigits 10 n.natAbs) = none := rfl
    have hdecimal : decimalLiteral ('-' :: Nat.toDigits 10 n.natAbs) =
        (unsignedDecimal (Nat.toDigits 10 n.natAbs)).map fun q => -q := rfl
    rw [if_pos hneg, number, trim_of_not_space hspace, if_neg (List.cons_ne_nil _ _)]
    simp only [hradix, hdecimal, unsignedDecimal_of_digits Nat.toDigits_ne_nil (isDigit_toDigits _),
      Nat.ofDigitChars_ten_toDigits, Option.map_some, Option.bind_some, toDouble_neg, toDouble_natCast h, hmagnitude]
  · have hmagnitude : (n : ℚ) = (n.natAbs : ℚ) := by
      rw [← Int.cast_natCast, Int.natAbs_of_nonneg (not_lt.mp hneg)]
    rw [if_neg hneg, number_toDigits h, hmagnitude]

end Remudero.Lib.Number
