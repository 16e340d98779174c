import Remudero.Lib.Text

/-! # UTF-8 with replacement

The decoder of UTF-8 that never fails: a byte that cannot continue the sequence before it ends that
sequence, which is then one replacement character, and starts anew.  `StringDecoder` decodes piece by piece
and holds back the bytes of a sequence that is not complete yet; `utf8` decodes a whole buffer.

Decoding does not depend on the pieces (`write_append`), and a line feed is never part of a sequence, so that
lines can be decoded one by one (`utf8_append_newline`), and no other bytes decode to a line feed
(`newline_not_mem_utf8`). -/

namespace Remudero.Lib

abbrev Bytes := List UInt8

namespace Utf8

def replacement : Char := Char.ofNat 0xfffd

/-- The length that the first byte of a sequence announces; 1 if it starts none. -/
def sequenceLength (lead : UInt8) : ℕ :=
  if 0xc2 ≤ lead ∧ lead ≤ 0xdf then 2
  else if 0xe0 ≤ lead ∧ lead ≤ 0xef then 3
  else if 0xf0 ≤ lead ∧ lead ≤ 0xf4 then 4
  else 1

/-- The least byte that may follow a lead: no sequence is longer than its code needs. -/
def lowest (lead : UInt8) : UInt8 := if lead = 0xe0 then 0xa0 else if lead = 0xf0 then 0x90 else 0x80

/-- The greatest one: no surrogates, and nothing above U+10FFFF. -/
def highest (lead : UInt8) : UInt8 := if lead = 0xed then 0x9f else if lead = 0xf4 then 0x8f else 0xbf

/-- `b` continues the sequence that begins with `held`. -/
def continues : Bytes → UInt8 → Bool
  | [], _ => false
  | [lead], b => lowest lead ≤ b && b ≤ highest lead
  | _, b => 0x80 ≤ b && b ≤ 0xbf

/-- The character of a complete sequence. -/
def charOf : Bytes → Char
  | [a, b] => Char.ofNat (a.toNat % 0x20 * 0x40 + b.toNat % 0x40)
  | [a, b, c] => Char.ofNat ((a.toNat % 0x10 * 0x40 + b.toNat % 0x40) * 0x40 + c.toNat % 0x40)
  | [a, b, c, d] =>
      Char.ofNat (((a.toNat % 8 * 0x40 + b.toNat % 0x40) * 0x40 + c.toNat % 0x40) * 0x40 + d.toNat % 0x40)
  | _ => replacement

/-- A byte between two characters. -/
def first (b : UInt8) : Text × Bytes :=
  if b < 0x80 then ([Char.ofNat b.toNat], [])
  else if sequenceLength b = 1 then ([replacement], [])
  else ([], [b])

/-- A sequence that is not continued. -/
def abandoned (held : Bytes) : Text := if held.isEmpty then [] else [replacement]

/-- One more byte. -/
def push (held : Bytes) (b : UInt8) : Text × Bytes :=
  if continues held b then
    if held.length + 1 = sequenceLength (held.headD 0) then ([charOf (held ++ [b])], []) else ([], held ++ [b])
  else (abandoned held ++ (first b).1, (first b).2)

end Utf8

/-- `StringDecoder("utf8")`: the bytes that it holds back. -/
structure StringDecoder where
  held : Bytes
deriving DecidableEq

namespace StringDecoder

open Utf8

def start : StringDecoder := ⟨[]⟩

/-- `decoder.write(chunk)`. -/
def write (d : StringDecoder) : Bytes → Text × StringDecoder
  | [] => ([], d)
  | b :: bytes =>
      let (text, held) := push d.held b
      let (more, d) := write ⟨held⟩ bytes
      (text ++ more, d)

/-- `decoder.end()`. -/
def finish (d : StringDecoder) : Text := abandoned d.held

theorem write_cons (d : StringDecoder) (b : UInt8) (bytes : Bytes) :
    d.write (b :: bytes) =
      ((push d.held b).1 ++ (write ⟨(push d.held b).2⟩ bytes).1, (write ⟨(push d.held b).2⟩ bytes).2) := rfl

theorem write_append (d : StringDecoder) (a b : Bytes) :
    d.write (a ++ b) = ((d.write a).1 ++ ((d.write a).2.write b).1, ((d.write a).2.write b).2) := by
  induction a generalizing d with
  | nil => rfl
  | cons x a ih =>
      rw [List.cons_append, write_cons, write_cons, ih]
      simp only [List.append_assoc]

end StringDecoder

/-- `buffer.toString("utf8")`. -/
def utf8 (bytes : Bytes) : Text := (StringDecoder.start.write bytes).1 ++ (StringDecoder.start.write bytes).2.finish

namespace Utf8

/-- No sequence is continued by a byte below 0x80. -/
theorem continues_of_lt {held : Bytes} {b : UInt8} (h : b < 0x80) : continues held b = false := by
  have hlow : ∀ low : UInt8, 0x80 ≤ low → ¬low ≤ b := by
    intro low hlow hle
    rw [UInt8.le_iff_toNat_le] at hlow hle
    rw [UInt8.lt_iff_toNat_lt] at h
    omega
  match held with
  | [] => rfl
  | [lead] =>
      have hlowest : 0x80 ≤ lowest lead := by
        unfold lowest
        split_ifs <;> decide
      simp [continues, hlow _ hlowest]
  | _ :: _ :: _ => simp [continues, hlow 0x80 (by decide)]

theorem push_newline (held : Bytes) : push held 0x0a = (abandoned held ++ ['\n'], []) := by
  unfold push
  rw [continues_of_lt (by decide)]
  rfl

end Utf8

open StringDecoder in
/-- A line feed ends whatever is held back. -/
theorem utf8_append_newline (a b : Bytes) : utf8 (a ++ 0x0a :: b) = utf8 a ++ '\n' :: utf8 b := by
  unfold utf8
  rw [write_append, write_cons, Utf8.push_newline]
  simp only [finish, List.append_assoc, List.cons_append, List.nil_append]
  rfl

namespace Utf8

/-- The beginnings of a sequence that a decoder holds back. -/
inductive Begun : Bytes → Prop
  | nil : Begun []
  | lead {a : UInt8} (ha : sequenceLength a ≠ 1) : Begun [a]
  | two {a b : UInt8} (ha : 3 ≤ sequenceLength a) (hb : lowest a ≤ b) (hb' : b ≤ 0xbf) : Begun [a, b]
  | three {a b c : UInt8} (ha : sequenceLength a = 4) (hb : lowest a ≤ b) (hb' : b ≤ 0xbf) : Begun [a, b, c]

theorem ofNat_ne_newline {n : ℕ} (h : n ≠ 10) : Char.ofNat n ≠ '\n' := by
  intro heq
  by_cases hvalid : n.isValidChar
  · have hn : (Char.ofNat n).toNat = n := by
      rw [Char.ofNat, dif_pos hvalid]
      rfl
    rw [heq] at hn
    exact h hn.symm
  · rw [Char.ofNat, dif_neg hvalid] at heq
    exact absurd heq (by decide)

theorem sequenceLength_cases (a : UInt8) :
    sequenceLength a = 1 ∨ (sequenceLength a = 2 ∧ 0xc2 ≤ a.toNat ∧ a.toNat ≤ 0xdf) ∨
      (sequenceLength a = 3 ∧ 0xe0 ≤ a.toNat ∧ a.toNat ≤ 0xef) ∨
      (sequenceLength a = 4 ∧ 0xf0 ≤ a.toNat ∧ a.toNat ≤ 0xf4) := by
  simp only [sequenceLength, UInt8.le_iff_toNat_le]
  split_ifs with h2 h3 h4
  · exact Or.inr (Or.inl ⟨rfl, h2⟩)
  · exact Or.inr (Or.inr (Or.inl ⟨rfl, h3⟩))
  · exact Or.inr (Or.inr (Or.inr ⟨rfl, h4⟩))
  · exact Or.inl rfl

theorem lowest_cases (a : UInt8) :
    (a.toNat = 0xe0 ∧ (lowest a).toNat = 0xa0) ∨ (a.toNat = 0xf0 ∧ (lowest a).toNat = 0x90) ∨
      (a.toNat ≠ 0xe0 ∧ a.toNat ≠ 0xf0) := by
  unfold lowest
  split_ifs with h1 h2
  · exact Or.inl ⟨by rw [h1]; rfl, rfl⟩
  · exact Or.inr (Or.inl ⟨by rw [h2]; rfl, rfl⟩)
  · exact Or.inr (Or.inr ⟨fun h => h1 (UInt8.toNat_inj.mp h), fun h => h2 (UInt8.toNat_inj.mp h)⟩)

theorem highest_le (a : UInt8) : highest a ≤ 0xbf := by
  unfold highest
  split_ifs <;> decide

/-- A sequence of several bytes is never a line feed. -/
theorem charOf_ne_newline {held : Bytes} (h : Begun held) {b : UInt8} (hb : continues held b = true)
    (hlength : held.length + 1 = sequenceLength (held.headD 0)) : charOf (held ++ [b]) ≠ '\n' := by
  cases h with
  | nil => cases hb
  | @lead a ha =>
      have hcases := sequenceLength_cases a
      simp only [List.headD_cons, List.length_singleton] at hlength
      apply ofNat_ne_newline
      omega
  | @two a c ha hc hc' =>
      have hcases := sequenceLength_cases a
      have hlow := lowest_cases a
      simp only [List.headD_cons, List.length_cons, List.length_nil] at hlength
      rw [UInt8.le_iff_toNat_le] at hc hc'
      have hbf : (0xbf : UInt8).toNat = 191 := rfl
      apply ofNat_ne_newline
      omega
  | @three a c d ha hc hc' =>
      have hcases := sequenceLength_cases a
      have hlow := lowest_cases a
      rw [UInt8.le_iff_toNat_le] at hc hc'
      have hbf : (0xbf : UInt8).toNat = 191 := rfl
      apply ofNat_ne_newline
      omega

theorem push_ne_newline {held : Bytes} (h : Begun held) {b : UInt8} (hb : b ≠ 0x0a) :
    '\n' ∉ (push held b).1 ∧ Begun (push held b).2 := by
  unfold push
  split_ifs with hcont hlength
  · exact ⟨by simpa using (charOf_ne_newline h hcont hlength).symm, Begun.nil⟩
  · refine ⟨List.not_mem_nil, ?_⟩
    cases h with
    | nil => cases hcont
    | @lead a ha =>
        simp only [continues, Bool.and_eq_true, decide_eq_true_eq] at hcont
        have hcases := sequenceLength_cases a
        simp only [List.headD_cons, List.length_singleton] at hlength
        exact Begun.two (by omega) hcont.1 (UInt8.le_trans hcont.2 (highest_le a))
    | @two a c ha hc hc' =>
        have hcases := sequenceLength_cases a
        simp only [List.headD_cons, List.length_cons, List.length_nil] at hlength
        exact Begun.three (by omega) hc hc'
    | @three a c d ha hc hc' =>
        simp only [List.headD_cons, List.length_cons, List.length_nil] at hlength
        omega
  · have habandoned : '\n' ∉ abandoned held := by
      unfold abandoned
      split_ifs <;> decide
    have hfirst : '\n' ∉ (first b).1 ∧ Begun (first b).2 := by
      unfold first
      split_ifs with hascii hlead
      · have hnot : b.toNat ≠ 10 := fun h => hb (UInt8.toNat_inj.mp h)
        exact ⟨by simpa using (ofNat_ne_newline hnot).symm, Begun.nil⟩
      · exact ⟨by decide, Begun.nil⟩
      · exact ⟨List.not_mem_nil, Begun.lead hlead⟩
    rw [List.mem_append, not_or]
    exact ⟨⟨habandoned, hfirst.1⟩, hfirst.2⟩

end Utf8

open StringDecoder in
/-- Bytes without a line feed are a text without one. -/
theorem newline_not_mem_utf8 {bytes : Bytes} (h : (0x0a : UInt8) ∉ bytes) : '\n' ∉ utf8 bytes := by
  have hwrite : ∀ (bytes : Bytes) (d : StringDecoder), Utf8.Begun d.held → (0x0a : UInt8) ∉ bytes →
      '\n' ∉ (d.write bytes).1 := by
    intro bytes
    induction bytes with
    | nil => exact fun _ _ _ => List.not_mem_nil
    | cons b bytes ih =>
        intro d hd hbytes
        rw [List.mem_cons, not_or] at hbytes
        obtain ⟨htext, hheld⟩ := Utf8.push_ne_newline hd (Ne.symm hbytes.1)
        rw [write_cons, List.mem_append, not_or]
        exact ⟨htext, ih ⟨_⟩ hheld hbytes.2⟩
  unfold utf8
  rw [List.mem_append, not_or]
  refine ⟨hwrite bytes .start Utf8.Begun.nil h, ?_⟩
  unfold finish Utf8.abandoned
  split_ifs <;> decide

end Remudero.Lib
