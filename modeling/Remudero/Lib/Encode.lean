import Remudero.Lib.Utf8

/-! # UTF-8 there and back

`Buffer.from(text, "utf8")` and its way back.  Decoding what was encoded gives the text (`utf8_encode`).  Bytes
of a text that are cut anywhere are the bytes of some first characters and the beginning of the next one, and that
beginning is one replacement character when it is decoded (`exists_cut`), whatever its length. -/

namespace Remudero.Lib

/-- `Buffer.from(text, "utf8")`. -/
def encode (t : Text) : Bytes := t.flatMap String.utf8EncodeChar

theorem encode_cons (c : Char) (t : Text) : encode (c :: t) = String.utf8EncodeChar c ++ encode t := List.flatMap_cons

theorem encode_append (s t : Text) : encode (s ++ t) = encode s ++ encode t := List.flatMap_append

namespace Utf8

theorem first_of_lt {n : ℕ} (h : n < 0x80) : first (UInt8.ofNat n) = ([Char.ofNat n], []) := by
  have hn : (UInt8.ofNat n).toNat = n := by
    rw [UInt8.toNat_ofNat']
    omega
  have hlt : UInt8.ofNat n < 0x80 := by
    rw [UInt8.lt_iff_toNat_lt, hn]
    exact h
  rw [first, if_pos hlt, hn]

/-- A byte that begins a sequence is held. -/
theorem push_lead {b : UInt8} (h : sequenceLength b ≠ 1) : push [] b = ([], [b]) := by
  have hnot : ¬b < 0x80 := by
    have hcases := sequenceLength_cases b
    rw [UInt8.lt_iff_toNat_lt, show (0x80 : UInt8).toNat = 0x80 from rfl]
    omega
  rw [push, continues, if_neg Bool.false_ne_true, first, if_neg hnot, if_neg h]
  rfl

/-- The bytes that may continue a sequence. -/
theorem continues_iff {held : Bytes} {b : UInt8} :
    continues held b = true ↔
      ∃ lead more, held = lead :: more ∧
        (if more = [] then (lowest lead).toNat ≤ b.toNat ∧ b.toNat ≤ (highest lead).toNat
          else 0x80 ≤ b.toNat ∧ b.toNat ≤ 0xbf) := by
  match held with
  | [] => simp [continues]
  | [lead] => simp [continues, UInt8.le_iff_toNat_le]
  | lead :: _ :: _ => simp [continues, UInt8.le_iff_toNat_le]

theorem push_continues {held : Bytes} {b : UInt8} (h : continues held b = true) :
    push held b = if held.length + 1 = sequenceLength (held.headD 0) then ([charOf (held ++ [b])], [])
      else ([], held ++ [b]) := by
  rw [push, if_pos h]

/-- The bytes of a character: its code in groups of six bits under a lead byte. -/
theorem utf8EncodeChar_cases (c : Char) :
    (c.toNat < 0x80 ∧ String.utf8EncodeChar c = [UInt8.ofNat c.toNat]) ∨
    (∃ x y : UInt8, String.utf8EncodeChar c = [x, y] ∧ 0x80 ≤ c.toNat ∧ c.toNat < 0x800 ∧
      x.toNat = 0xc0 + c.toNat / 64 ∧ y.toNat = 0x80 + c.toNat % 64) ∨
    (∃ x y z : UInt8, String.utf8EncodeChar c = [x, y, z] ∧ 0x800 ≤ c.toNat ∧ c.toNat < 0x10000 ∧
      x.toNat = 0xe0 + c.toNat / 4096 ∧ y.toNat = 0x80 + c.toNat / 64 % 64 ∧ z.toNat = 0x80 + c.toNat % 64) ∨
    ∃ x y z w : UInt8, String.utf8EncodeChar c = [x, y, z, w] ∧ 0x10000 ≤ c.toNat ∧ c.toNat < 0x110000 ∧
      x.toNat = 0xf0 + c.toNat / 262144 ∧ y.toNat = 0x80 + c.toNat / 4096 % 64 ∧
      z.toNat = 0x80 + c.toNat / 64 % 64 ∧ w.toNat = 0x80 + c.toNat % 64 := by
  have hvalid : c.toNat < 0x110000 := by
    have := c.valid
    simp only [UInt32.isValidChar, Nat.isValidChar] at this
    change c.val.toNat < _
    omega
  have hval : c.val.toNat = c.toNat := rfl
  simp only [String.utf8EncodeChar, hval]
  by_cases h1 : c.toNat ≤ 0x7f
  · exact Or.inl ⟨by omega, by rw [if_pos h1]⟩
  · rw [if_neg h1]
    by_cases h2 : c.toNat ≤ 0x7ff
    · rw [if_pos h2]
      refine Or.inr (Or.inl ⟨_, _, rfl, by omega, by omega, ?_, ?_⟩)
      · rw [UInt8.toNat_ofNat']
        omega
      · rw [UInt8.toNat_ofNat']
        omega
    · rw [if_neg h2]
      by_cases h3 : c.toNat ≤ 0xffff
      · rw [if_pos h3]
        refine Or.inr (Or.inr (Or.inl ⟨_, _, _, rfl, by omega, by omega, ?_, ?_, ?_⟩))
        · rw [UInt8.toNat_ofNat']
          omega
        · rw [UInt8.toNat_ofNat']
          omega
        · rw [UInt8.toNat_ofNat']
          omega
      · rw [if_neg h3]
        refine Or.inr (Or.inr (Or.inr ⟨_, _, _, _, rfl, by omega, by omega, ?_, ?_, ?_, ?_⟩))
        · rw [UInt8.toNat_ofNat']
          omega
        · rw [UInt8.toNat_ofNat']
          omega
        · rw [UInt8.toNat_ofNat']
          omega
        · rw [UInt8.toNat_ofNat']
          omega

/-- Only ASCII characters have bytes below 0x80. -/
theorem le_of_mem_utf8EncodeChar {c : Char} (hc : 0x80 ≤ c.toNat) {b : UInt8} (hb : b ∈ String.utf8EncodeChar c) :
    0x80 ≤ b.toNat := by
  obtain ⟨hlt, -⟩ | ⟨x, y, heq, -, -, hx, hy⟩ | ⟨x, y, z, heq, -, -, hx, hy, hz⟩ |
    ⟨x, y, z, w, heq, -, -, hx, hy, hz, hw⟩ := utf8EncodeChar_cases c
  · omega
  · rw [heq, List.mem_cons, List.mem_singleton] at hb
    obtain rfl | rfl := hb <;> omega
  · rw [heq, List.mem_cons, List.mem_cons, List.mem_singleton] at hb
    obtain rfl | rfl | rfl := hb <;> omega
  · rw [heq, List.mem_cons, List.mem_cons, List.mem_cons, List.mem_singleton] at hb
    obtain rfl | rfl | rfl | rfl := hb <;> omega

theorem utf8EncodeChar_of_lt {c : Char} (hc : c.toNat < 0x80) : String.utf8EncodeChar c = [UInt8.ofNat c.toNat] := by
  obtain ⟨-, heq⟩ | ⟨_, _, -, hlow, -⟩ | ⟨_, _, _, -, hlow, -⟩ | ⟨_, _, _, _, -, hlow, -⟩ := utf8EncodeChar_cases c
  · exact heq
  · omega
  · omega
  · omega

/-- No character is a surrogate. -/
theorem not_surrogate (c : Char) : c.toNat < 0xd800 ∨ 0xdfff < c.toNat := by
  have := c.valid
  simp only [UInt32.isValidChar, Nat.isValidChar] at this
  change c.val.toNat < _ ∨ _ < c.val.toNat
  omega

theorem sequenceLength_of_two {x : UInt8} (h : 0xc2 ≤ x.toNat) (h' : x.toNat ≤ 0xdf) : sequenceLength x = 2 := by
  rw [sequenceLength, if_pos ⟨UInt8.le_iff_toNat_le.mpr h, UInt8.le_iff_toNat_le.mpr h'⟩]

theorem sequenceLength_of_three {x : UInt8} (h : 0xe0 ≤ x.toNat) (h' : x.toNat ≤ 0xef) : sequenceLength x = 3 := by
  have hthree : (0xe0 : UInt8) ≤ x ∧ x ≤ 0xef := ⟨UInt8.le_iff_toNat_le.mpr h, UInt8.le_iff_toNat_le.mpr h'⟩
  have htwo : ¬(0xc2 ≤ x ∧ x ≤ 0xdf) := by
    rw [UInt8.le_iff_toNat_le, UInt8.le_iff_toNat_le]
    rintro ⟨-, hle⟩
    exact absurd (h.trans hle) (by decide)
  rw [sequenceLength, if_neg htwo, if_pos hthree]

theorem sequenceLength_of_four {x : UInt8} (h : 0xf0 ≤ x.toNat) (h' : x.toNat ≤ 0xf4) : sequenceLength x = 4 := by
  have hfour : (0xf0 : UInt8) ≤ x ∧ x ≤ 0xf4 := ⟨UInt8.le_iff_toNat_le.mpr h, UInt8.le_iff_toNat_le.mpr h'⟩
  have hnot : ∀ top : UInt8, top.toNat < 0xf0 → ∀ low : UInt8, ¬(low ≤ x ∧ x ≤ top) := by
    rintro top htop low ⟨-, hle⟩
    rw [UInt8.le_iff_toNat_le] at hle
    omega
  rw [sequenceLength, if_neg (hnot _ (by decide) _), if_neg (hnot _ (by decide) _), if_pos hfour]

theorem highest_cases (a : UInt8) :
    (a.toNat = 0xed ∧ (highest a).toNat = 0x9f) ∨ (a.toNat = 0xf4 ∧ (highest a).toNat = 0x8f) ∨
      (a.toNat ≠ 0xed ∧ a.toNat ≠ 0xf4 ∧ (highest a).toNat = 0xbf) := by
  unfold highest
  split_ifs with h1 h2
  · exact Or.inl ⟨by rw [h1]; rfl, rfl⟩
  · exact Or.inr (Or.inl ⟨by rw [h2]; rfl, rfl⟩)
  · exact Or.inr (Or.inr ⟨fun h => h1 (UInt8.toNat_inj.mp h), fun h => h2 (UInt8.toNat_inj.mp h), rfl⟩)

theorem lowest_of_ne {a : UInt8} (h : a.toNat ≠ 0xe0) (h' : a.toNat ≠ 0xf0) : (lowest a).toNat = 0x80 := by
  have h1 : a ≠ 0xe0 := fun heq => h (by rw [heq]; rfl)
  have h2 : a ≠ 0xf0 := fun heq => h' (by rw [heq]; rfl)
  rw [lowest, if_neg h1, if_neg h2]
  rfl

/-- A byte after the lead and another one. -/
theorem continues_more {lead a : UInt8} {more : Bytes} {b : UInt8} (h : 0x80 ≤ b.toNat) (h' : b.toNat ≤ 0xbf) :
    continues (lead :: a :: more) b = true :=
  continues_iff.mpr ⟨lead, a :: more, rfl, by rw [if_neg (List.cons_ne_nil a more)]; exact ⟨h, h'⟩⟩

theorem continues_lead {lead b : UInt8} (h : (lowest lead).toNat ≤ b.toNat) (h' : b.toNat ≤ (highest lead).toNat) :
    continues [lead] b = true := continues_iff.mpr ⟨lead, [], rfl, by rw [if_pos rfl]; exact ⟨h, h'⟩⟩

/-- Every byte of a character but the last is held, and the last one completes it. -/
theorem utf8EncodeChar_pushes (c : Char) :
    ∃ begun last, String.utf8EncodeChar c = begun ++ [last] ∧
      (∀ p b, p ++ [b] <+: begun → push p b = ([], p ++ [b])) ∧ push begun last = ([c], []) := by
  have hsurrogate := not_surrogate c
  have hchar : ∀ n, n = c.toNat → [Char.ofNat n] = [c] := by
    rintro n rfl
    rw [Char.ofNat_toNat]
  obtain ⟨hlt, heq⟩ | ⟨x, y, heq, hlow, hhigh, hx, hy⟩ | ⟨x, y, z, heq, hlow, hhigh, hx, hy, hz⟩ |
    ⟨x, y, z, w, heq, hlow, hhigh, hx, hy, hz, hw⟩ := utf8EncodeChar_cases c
  · refine ⟨[], _, heq, fun p b h => absurd (List.prefix_nil.mp h) (by simp), ?_⟩
    rw [push, continues, if_neg Bool.false_ne_true, first_of_lt hlt, hchar _ rfl]
    rfl
  · have hlength : sequenceLength x = 2 := sequenceLength_of_two (by omega) (by omega)
    have hlead : push [] x = ([], [x]) := push_lead (by omega)
    have hlowest := @lowest_of_ne x (by omega) (by omega)
    have hhighest := highest_cases x
    refine ⟨[x], y, heq, ?_, ?_⟩
    · rintro (_ | ⟨p, _ | _⟩) b h
      · obtain rfl : b = x := by simpa using h
        exact hlead
      · simp at h
      · simp at h
    · rw [push_continues (continues_lead (by omega) (by omega)), if_pos (by simpa using hlength.symm)]
      change ([Char.ofNat _], _) = _
      rw [hchar _ (by omega)]
  · have hlength : sequenceLength x = 3 := sequenceLength_of_three (by omega) (by omega)
    have hlead : push [] x = ([], [x]) := push_lead (by omega)
    have hlowest : (lowest x).toNat ≤ y.toNat := by
      have h := lowest_cases x
      have h' := @lowest_of_ne x
      omega
    have hhighest : y.toNat ≤ (highest x).toNat := by
      have h := highest_cases x
      omega
    have hsecond : push [x] y = ([], [x, y]) := by
      rw [push_continues (continues_lead hlowest hhighest), if_neg (by simp [hlength])]
      rfl
    refine ⟨[x, y], z, heq, ?_, ?_⟩
    · rintro (_ | ⟨p, _ | ⟨q, _ | _⟩⟩) b h
      · obtain rfl : b = x := by simpa using h
        exact hlead
      · obtain ⟨rfl, rfl⟩ : p = x ∧ b = y := by simpa using h
        exact hsecond
      · simp at h
      · simp at h
    · rw [push_continues (continues_more (by omega) (by omega)), if_pos (by simpa using hlength.symm)]
      change ([Char.ofNat _], _) = _
      rw [hchar _ (by omega)]
  · have hlength : sequenceLength x = 4 := sequenceLength_of_four (by omega) (by omega)
    have hlead : push [] x = ([], [x]) := push_lead (by omega)
    have hlowest : (lowest x).toNat ≤ y.toNat := by
      have h := lowest_cases x
      have h' := @lowest_of_ne x
      omega
    have hhighest : y.toNat ≤ (highest x).toNat := by
      have h := highest_cases x
      omega
    have hsecond : push [x] y = ([], [x, y]) := by
      rw [push_continues (continues_lead hlowest hhighest), if_neg (by simp [hlength])]
      rfl
    have hthird : push [x, y] z = ([], [x, y, z]) := by
      rw [push_continues (continues_more (by omega) (by omega)), if_neg (by simp [hlength])]
      rfl
    refine ⟨[x, y, z], w, heq, ?_, ?_⟩
    · rintro (_ | ⟨p, _ | ⟨q, _ | ⟨r, _ | _⟩⟩⟩) b h
      · obtain rfl : b = x := by simpa using h
        exact hlead
      · obtain ⟨rfl, rfl⟩ : p = x ∧ b = y := by simpa using h
        exact hsecond
      · obtain ⟨rfl, rfl, rfl⟩ : p = x ∧ q = y ∧ b = z := by simpa using h
        exact hthird
      · simp at h
      · simp at h
    · rw [push_continues (continues_more (by omega) (by omega)), if_pos (by simpa using hlength.symm)]
      change ([Char.ofNat _], _) = _
      rw [hchar _ (by omega)]

open StringDecoder

/-- The beginning of a character is held and nothing comes out. -/
theorem write_begun {begun : Bytes} (h : ∀ p b, p ++ [b] <+: begun → push p b = ([], p ++ [b])) {p : Bytes}
    (hp : p <+: begun) : start.write p = ([], ⟨p⟩) := by
  induction p using List.reverseRecOn with
  | nil => rfl
  | append_singleton p b ih =>
      rw [write_append, ih ((List.prefix_append p [b]).trans hp), write_cons, h p b hp]
      rfl

theorem write_utf8EncodeChar (c : Char) : start.write (String.utf8EncodeChar c) = ([c], start) := by
  obtain ⟨begun, last, heq, hbegun, hlast⟩ := utf8EncodeChar_pushes c
  rw [heq, write_append, write_begun hbegun (List.prefix_refl begun), write_cons, hlast]
  rfl

theorem write_take_utf8EncodeChar (c : Char) {r : ℕ} (hr : r < (String.utf8EncodeChar c).length) :
    start.write ((String.utf8EncodeChar c).take r) = ([], ⟨(String.utf8EncodeChar c).take r⟩) := by
  obtain ⟨begun, last, heq, hbegun, -⟩ := utf8EncodeChar_pushes c
  rw [heq, List.length_append, List.length_singleton] at hr
  rw [heq, List.take_append_of_le_length (by omega)]
  exact write_begun hbegun (List.take_prefix r begun)

theorem write_encode_append (t : Text) (bytes : Bytes) :
    start.write (encode t ++ bytes) = (t ++ (start.write bytes).1, (start.write bytes).2) := by
  induction t with
  | nil => rfl
  | cons c t ih =>
      rw [encode_cons, List.append_assoc, write_append, write_utf8EncodeChar, ih]
      rfl

end Utf8

open StringDecoder Utf8

/-- Decoding what was encoded. -/
theorem utf8_encode (t : Text) : utf8 (encode t) = t := by
  have hwrite := write_encode_append t []
  rw [List.append_nil] at hwrite
  rw [utf8, hwrite]
  simp [StringDecoder.write, start, finish, abandoned]

/-- The bytes of a text in which no character is a line feed. -/
theorem newline_not_mem_encode {t : Text} (h : '\n' ∉ t) : (0x0a : UInt8) ∉ encode t := by
  intro hmem
  obtain ⟨c, hc, hb⟩ := List.mem_flatMap.mp hmem
  by_cases hascii : c.toNat < 0x80
  · rw [utf8EncodeChar_of_lt hascii, List.mem_singleton] at hb
    have hcode := congrArg UInt8.toNat hb
    rw [UInt8.toNat_ofNat', show (0x0a : UInt8).toNat = 10 from rfl] at hcode
    obtain rfl : c = '\n' := Char.toNat_inj.mp (by rw [show '\n'.toNat = 10 from rfl]; omega)
    exact h hc
  · exact absurd (le_of_mem_utf8EncodeChar (by omega) hb) (by decide)

theorem lt_of_mem_encode {t : Text} (h : ∀ c ∈ t, c.toNat < 0x80) {b : UInt8} (hb : b ∈ encode t) : b.toNat < 0x80 := by
  obtain ⟨c, hc, hb⟩ := List.mem_flatMap.mp hb
  rw [utf8EncodeChar_of_lt (h c hc), List.mem_singleton] at hb
  have hlt := h c hc
  rw [hb, UInt8.toNat_ofNat']
  omega

/-- Where the bytes of a text are cut: after some characters, or inside the next one, which then is not ASCII. -/
theorem exists_cut (t : Text) {k : ℕ} (hk : k ≤ (encode t).length) :
    ∃ done rest held, t = done ++ rest ∧ (encode t).take k = encode done ++ held ∧
      start.write ((encode t).take k) = (done, ⟨held⟩) ∧
      (held = [] ∨ ∃ c more, rest = c :: more ∧ 0x80 ≤ c.toNat ∧ held.length < (String.utf8EncodeChar c).length) := by
  induction t generalizing k with
  | nil =>
      rw [show k = 0 by simpa [encode] using hk]
      exact ⟨[], [], [], rfl, rfl, rfl, Or.inl rfl⟩
  | cons c t ih =>
      rw [encode_cons] at hk ⊢
      by_cases hin : k < (String.utf8EncodeChar c).length
      · have htake : (String.utf8EncodeChar c ++ encode t).take k = (String.utf8EncodeChar c).take k :=
          List.take_append_of_le_length hin.le
        refine ⟨[], c :: t, (String.utf8EncodeChar c).take k, rfl, htake, ?_, ?_⟩
        · rw [htake]
          exact write_take_utf8EncodeChar c hin
        · by_cases hzero : k = 0
          · exact Or.inl (by rw [hzero, List.take_zero])
          · refine Or.inr ⟨c, t, rfl, ?_, by rw [List.length_take]; omega⟩
            by_contra hascii
            rw [utf8EncodeChar_of_lt (by omega), List.length_singleton] at hin
            omega
      · rw [List.length_append] at hk
        obtain ⟨done, rest, held, hdone, htake, hwrite, hheld⟩ := @ih (k - (String.utf8EncodeChar c).length) (by omega)
        have hcut : (String.utf8EncodeChar c ++ encode t).take k =
            encode [c] ++ (encode t).take (k - (String.utf8EncodeChar c).length) := by
          rw [List.take_append, List.take_of_length_le (by omega), encode_cons]
          simp [encode]
        refine ⟨c :: done, rest, held, by rw [hdone, List.cons_append], ?_, ?_, hheld⟩
        · rw [hcut, htake, ← List.append_assoc, ← encode_append, List.singleton_append]
        · rw [hcut, write_encode_append, hwrite]
          rfl

/-- The bytes of a text that was decoded after a cut. -/
theorem encode_utf8_of_write {bytes : Bytes} {done : Text} {held : Bytes} (h : start.write bytes = (done, ⟨held⟩)) :
    encode (utf8 bytes) = encode done ++ if held = [] then [] else [0xef, 0xbf, 0xbd] := by
  rw [utf8, h, encode_append]
  by_cases hheld : held = []
  · simp [finish, abandoned, hheld, encode]
  · have habandoned : abandoned held = [replacement] := if_neg (by simpa using hheld)
    rw [finish, habandoned, if_neg hheld]
    rfl

end Remudero.Lib
