import Remudero.Lib.Json

/-! # Reading serialized strings back

The escapes of `JSON.stringify` as a code: `unescape` reads the first character of an escaped text,
and stops at a quotation mark.

* `escape_cancel`: what stands before the closing quotation mark determines the string.
* `takeWhile_escape_eq_iff`: the text up to the first quotation mark is the string itself exactly
  when no character of it is escaped. -/

namespace Remudero.Lib.Json

def hexValue (c : Char) : ℕ := if c.toNat < 58 then c.toNat - 48 else c.toNat - 87

/-- The first character of an escaped text, and the text after it. -/
def unescape : Text → Option (Char × Text)
  | '\\' :: 'u' :: _ :: _ :: a :: b :: rest => some (Char.ofNat (16 * hexValue a + hexValue b), rest)
  | '\\' :: c :: rest =>
      some (if c = 'n' then '\n' else if c = 'r' then '\r' else if c = 't' then '\t'
        else if c = 'b' then Char.ofNat 8 else if c = 'f' then Char.ofNat 12 else c, rest)
  | c :: rest => if c = '"' then none else some (c, rest)
  | [] => none

theorem hexValue_hexDigits {n : ℕ} (h : n < 32) :
    16 * hexValue (hexDigit (n / 16)) + hexValue (hexDigit (n % 16)) = n := by
  have hall : ∀ m : Fin 32, 16 * hexValue (hexDigit (m.val / 16)) + hexValue (hexDigit (m.val % 16)) = m.val := by
    decide
  exact hall ⟨n, h⟩

theorem unescape_escape (c : Char) (rest : Text) : unescape (escape c ++ rest) = some (c, rest) := by
  unfold escape
  split_ifs with hquote hslash hn hr ht hb hf hcontrol
  · subst hquote
    rfl
  · subst hslash
    rfl
  · subst hn
    rfl
  · subst hr
    rfl
  · subst ht
    rfl
  · have hc : c = Char.ofNat 8 := by rw [← hb, Char.ofNat_toNat]
    subst hc
    rfl
  · have hc : c = Char.ofNat 12 := by rw [← hf, Char.ofNat_toNat]
    subst hc
    rfl
  · simp only [List.cons_append, List.nil_append, unescape, hexValue_hexDigits hcontrol, Char.ofNat_toNat]
  · rw [List.singleton_append]
    unfold unescape
    split <;> simp_all

theorem unescape_quote (rest : Text) : unescape ('"' :: rest) = none := rfl

/-- The string before the closing quotation mark. -/
theorem escape_cancel {s t r r' : Text} (h : s.flatMap escape ++ '"' :: r = t.flatMap escape ++ '"' :: r') :
    s = t ∧ r = r' := by
  induction s generalizing t with
  | nil =>
      cases t with
      | nil => exact ⟨rfl, (List.cons.inj h).2⟩
      | cons d t =>
          have hread := congrArg unescape h
          rw [List.flatMap_nil, List.nil_append, unescape_quote, List.flatMap_cons, List.append_assoc,
            unescape_escape] at hread
          cases hread
  | cons c s ih =>
      have hread := congrArg unescape h
      rw [List.flatMap_cons, List.append_assoc, unescape_escape] at hread
      cases t with
      | nil =>
          rw [List.flatMap_nil, List.nil_append, unescape_quote] at hread
          cases hread
      | cons d t =>
          rw [List.flatMap_cons, List.append_assoc, unescape_escape, Option.some.injEq, Prod.mk.injEq] at hread
          obtain ⟨rfl, hrest⟩ := hread
          obtain ⟨rfl, hr⟩ := ih hrest
          exact ⟨rfl, hr⟩

/-! ### Strings without escapes -/

def Plain (t : Text) : Prop := ∀ c ∈ t, escape c = [c]

theorem length_escape_pos (c : Char) : 1 ≤ (escape c).length := by
  unfold escape
  split_ifs <;> simp

theorem flatMap_escape_of_plain {t : Text} (h : Plain t) : t.flatMap escape = t := by
  induction t with
  | nil => rfl
  | cons c t ih =>
      rw [List.flatMap_cons, h c List.mem_cons_self, ih fun d hd => h d (List.mem_cons_of_mem c hd)]
      rfl

theorem plain_of_flatMap_escape {t : Text} (h : t.flatMap escape = t) : Plain t := by
  have hlength : ∀ s : Text, s.length ≤ (s.flatMap escape).length := by
    intro s
    induction s with
    | nil => exact Nat.le_refl _
    | cons c s ih =>
        have hc := length_escape_pos c
        rw [List.flatMap_cons, List.length_append, List.length_cons]
        omega
  induction t with
  | nil => exact fun c hc => absurd hc List.not_mem_nil
  | cons c t ih =>
      rw [List.flatMap_cons] at h
      have hone : (escape c).length = 1 := by
        have hsum := congrArg List.length h
        have hc := length_escape_pos c
        have ht := hlength t
        rw [List.length_append, List.length_cons] at hsum
        omega
      obtain ⟨d, hd⟩ := List.length_eq_one_iff.mp hone
      rw [hd, List.singleton_append, List.cons.injEq] at h
      obtain ⟨rfl, htail⟩ := h
      intro e he
      obtain rfl | he := List.mem_cons.mp he
      · exact hd
      · exact ih htail e he

theorem quote_not_mem_escape {c : Char} (h : c ≠ '"') : '"' ∉ escape c := by
  have hhex : ∀ n : Fin 16, '"' ≠ hexDigit n.val := by decide
  unfold escape
  split_ifs with hquote hslash hn hr ht hb hf hcontrol
  · exact absurd hquote h
  · decide
  · decide
  · decide
  · decide
  · decide
  · decide
  · have hhigh := hhex ⟨c.toNat / 16, by omega⟩
    have hlow := hhex ⟨c.toNat % 16, by omega⟩
    simp [hhigh, hlow]
  · simpa using Ne.symm h

/-- The text up to the first quotation mark. -/
theorem takeWhile_escape_eq_iff (t r : Text) :
    (t.flatMap escape ++ '"' :: r).takeWhile (· != '"') = t ↔ Plain t := by
  have hwhole : '"' ∉ t → (t.flatMap escape ++ '"' :: r).takeWhile (· != '"') = t.flatMap escape := by
    intro hq
    have hall : ∀ c ∈ t.flatMap escape, (c != '"') = true := by
      intro c hc
      obtain ⟨d, hd, hcd⟩ := List.mem_flatMap.mp hc
      have hne : d ≠ '"' := fun heq => hq (heq ▸ hd)
      simp only [bne_iff_ne]
      rintro rfl
      exact quote_not_mem_escape hne hcd
    rw [List.takeWhile_append_of_pos hall, List.takeWhile_cons_of_neg (by simp), List.append_nil]
  constructor
  · intro h
    have hq : '"' ∉ t := by
      intro hmem
      rw [← h] at hmem
      have := List.mem_takeWhile_imp hmem
      simp at this
    apply plain_of_flatMap_escape
    rw [← hwhole hq, h]
  · intro h
    have hq : '"' ∉ t := by
      intro hmem
      have := h '"' hmem
      simp [escape] at this
    rw [hwhole hq, flatMap_escape_of_plain h]

end Remudero.Lib.Json
