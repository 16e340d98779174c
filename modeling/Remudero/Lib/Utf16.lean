import Remudero.Lib.Text

/-! # UTF-16

The code units of a text, as ECMAScript strings index and order them.  A text is determined by its units
(`utf16_injective`). -/

namespace Remudero.Lib.Text

/-- The code units of a character: one, or a surrogate pair. -/
def charUnits (c : Char) : List ℕ :=
  if c.toNat < 0x10000 then [c.toNat]
  else [0xd800 + (c.toNat - 0x10000) / 0x400, 0xdc00 + (c.toNat - 0x10000) % 0x400]

def utf16 (t : Text) : List ℕ := t.flatMap charUnits

@[simp] theorem utf16_nil : utf16 [] = [] := rfl

@[simp] theorem utf16_cons (c : Char) (t : Text) : utf16 (c :: t) = charUnits c ++ utf16 t := List.flatMap_cons

@[simp] theorem utf16_append (s t : Text) : utf16 (s ++ t) = utf16 s ++ utf16 t := List.flatMap_append

@[simp] theorem length_charUnits (c : Char) : (charUnits c).length = units c := by
  unfold charUnits units
  split <;> rfl

theorem utf16_replicate_space (n : ℕ) : utf16 (List.replicate n ' ') = List.replicate n 0x20 := by
  induction n with
  | zero => rfl
  | succ n ih => rw [List.replicate_succ, utf16_cons, ih, List.replicate_succ]; rfl

/-- The first character can be read off the units. -/
theorem charUnits_append_inj {c d : Char} {us vs : List ℕ} (h : charUnits c ++ us = charUnits d ++ vs) :
    c = d ∧ us = vs := by
  have hchar : ∀ {a b : Char}, a.toNat = b.toNat → a = b := fun hab => Char.toNat_inj.mp hab
  have hscalar : ∀ a : Char, a.toNat < 0xd800 ∨ 0xdfff < a.toNat ∧ a.toNat < 0x110000 := by
    intro a
    have hvalid := a.valid
    simp only [UInt32.isValidChar, Nat.isValidChar] at hvalid
    exact hvalid
  have hc := hscalar c
  have hd := hscalar d
  unfold charUnits at h
  split at h <;> split at h
  · obtain ⟨heq, hrest⟩ := List.cons.inj h
    exact ⟨hchar heq, hrest⟩
  · have heq := (List.cons.inj h).1
    omega
  · have heq := (List.cons.inj h).1
    omega
  · obtain ⟨hhigh, hmore⟩ := List.cons.inj h
    obtain ⟨hlow, hrest⟩ := List.cons.inj hmore
    exact ⟨hchar (by omega), hrest⟩

theorem utf16_injective : Function.Injective utf16 := by
  intro s
  induction s with
  | nil =>
      intro t h
      cases t with
      | nil => rfl
      | cons d t =>
          have hlength := congrArg List.length h
          rw [utf16_cons, List.length_append, length_charUnits, utf16_nil, List.length_nil] at hlength
          unfold units at hlength
          split at hlength <;> omega
  | cons c s ih =>
      intro t h
      cases t with
      | nil =>
          have hlength := congrArg List.length h
          rw [utf16_cons, List.length_append, length_charUnits, utf16_nil, List.length_nil] at hlength
          unfold units at hlength
          split at hlength <;> omega
      | cons d t =>
          rw [utf16_cons, utf16_cons] at h
          obtain ⟨rfl, hrest⟩ := charUnits_append_inj h
          rw [ih hrest]

end Remudero.Lib.Text
