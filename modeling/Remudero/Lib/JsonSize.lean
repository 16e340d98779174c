import Remudero.Lib.Json
import Remudero.Lib.NumberText

/-! # Sizes of JSON texts

How many bytes a serialized value takes, and when one value takes no more than another: an object with the same
properties, each with a value that takes no more, and an array of no more items, each of which takes no more than the
items of the other. -/

namespace Remudero.Lib.Json

open Text

/-- The bytes of a serialized value. -/
def bytes (j : Json) : ℕ := byteLength (stringify j)

theorem byteLength_cons (c : Char) (t : Text) : byteLength (c :: t) = c.utf8Size + byteLength t := by
  simp [byteLength]

theorem stringifyItems_eq (items : List Json) : stringifyItems items = items.map stringify := by
  induction items with
  | nil => rfl
  | cons j items ih => rw [stringifyItems, ih, List.map_cons]

theorem stringifyFields_eq (fields : List (Text × Json)) :
    stringifyFields fields = fields.map fun f => quote f.1 ++ ':' :: stringify f.2 := by
  induction fields with
  | nil => rfl
  | cons f fields ih => rw [stringifyFields, ih, List.map_cons]

/-- Pieces and the commas between them. -/
theorem byteLength_commas (ts : List Text) : byteLength (commas ts) = (ts.map byteLength).sum + (ts.length - 1) := by
  induction ts with
  | nil => rfl
  | cons t ts ih =>
      cases ts with
      | nil => simp [commas]
      | cons u us =>
          have hcons : commas (t :: u :: us) = t ++ ',' :: commas (u :: us) := rfl
          have hcomma : (',' : Char).utf8Size = 1 := rfl
          rw [hcons, byteLength_append, byteLength_cons, ih, hcomma]
          simp only [List.map_cons, List.sum_cons, List.length_cons]
          omega

theorem bytes_arr (items : List Json) : bytes (.arr items) = (items.map bytes).sum + (items.length - 1) + 2 := by
  have hopen : ('[' : Char).utf8Size = 1 := rfl
  have hclose : byteLength [']'] = 1 := rfl
  have hsum : (items.map stringify).map byteLength = items.map bytes := List.map_map
  rw [bytes, stringify, byteLength_append, byteLength_cons, byteLength_commas, stringifyItems_eq, hsum, List.length_map,
    hopen, hclose]
  omega

theorem bytes_obj (fields : List (Text × Json)) : bytes (.obj fields) =
    (fields.map fun f => byteLength (quote f.1) + 1 + bytes f.2).sum + (fields.length - 1) + 2 := by
  have hopen : ('\x7b' : Char).utf8Size = 1 := rfl
  have hclose : byteLength ['\x7d'] = 1 := rfl
  have hsum : (fields.map fun f => quote f.1 ++ ':' :: stringify f.2).map byteLength =
      fields.map fun f => byteLength (quote f.1) + 1 + bytes f.2 := by
    rw [List.map_map]
    refine List.map_congr_left fun f _ => ?_
    have hcolon : (':' : Char).utf8Size = 1 := rfl
    rw [Function.comp_apply, byteLength_append, byteLength_cons, hcolon, ← Nat.add_assoc]
    rfl
  rw [bytes, stringify, byteLength_append, byteLength_cons, byteLength_commas, stringifyFields_eq, hsum, List.length_map,
    hopen, hclose]
  omega

/-- The same properties with values that take no more. -/
theorem bytes_obj_le {fs gs : List (Text × Json)} (h : List.Forall₂ (fun f g => f.1 = g.1 ∧ bytes f.2 ≤ bytes g.2) fs gs) :
    bytes (.obj fs) ≤ bytes (.obj gs) := by
  have hsum : (fs.map fun f => byteLength (quote f.1) + 1 + bytes f.2).sum ≤
      (gs.map fun g => byteLength (quote g.1) + 1 + bytes g.2).sum := by
    induction h with
    | nil => exact le_rfl
    | cons hfg _ ih =>
        simp only [List.map_cons, List.sum_cons]
        rw [hfg.1]
        have := hfg.2
        omega
  rw [bytes_obj, bytes_obj, h.length_eq]
  omega

/-- No more items, none of which takes more. -/
theorem bytes_arr_le {items : List Json} {n : ℕ} {w : Json} (hlength : items.length ≤ n)
    (h : ∀ j ∈ items, bytes j ≤ bytes w) : bytes (.arr items) ≤ bytes (.arr (List.replicate n w)) := by
  have hsum : (items.map bytes).sum ≤ items.length * bytes w := by
    have hle := List.sum_le_card_nsmul (items.map bytes) (bytes w) (by simpa using h)
    rwa [List.length_map, smul_eq_mul] at hle
  have hmul : items.length * bytes w ≤ n * bytes w := Nat.mul_le_mul_right _ hlength
  rw [bytes_arr, bytes_arr, List.map_replicate, List.sum_replicate, List.length_replicate, smul_eq_mul]
  omega

theorem bytes_pair_le {a b a' b' : Json} (ha : bytes a ≤ bytes a') (hb : bytes b ≤ bytes b') :
    bytes (.arr [a, b]) ≤ bytes (.arr [a', b']) := by
  rw [bytes_arr, bytes_arr]
  simp only [List.map_cons, List.map_nil, List.sum_cons, List.sum_nil, List.length_cons, List.length_nil]
  omega

/-! ### Numbers -/

/-- Digits take a byte each. -/
theorem byteLength_of_digits {t : Text} (h : ∀ c ∈ t, c.isDigit = true) : byteLength t = t.length := by
  induction t with
  | nil => rfl
  | cons c t ih =>
      have hc := h c List.mem_cons_self
      have hsize : c.utf8Size = 1 := by
        have hle : c.val ≤ 127 := by
          simp only [Char.isDigit, Bool.and_eq_true, decide_eq_true_eq] at hc
          exact UInt32.le_trans hc.2 (by decide)
        exact if_pos hle
      rw [byteLength_cons, ih fun d hd => h d (List.mem_cons_of_mem c hd), hsize, List.length_cons, Nat.add_comm]

theorem length_toDigits_mono {m n : ℕ} (h : m ≤ n) : (Nat.toDigits 10 m).length ≤ (Nat.toDigits 10 n).length :=
  (Nat.length_toDigits_le_iff (by decide) Nat.length_toDigits_pos).mpr
    (h.trans_lt ((Nat.length_toDigits_le_iff (by decide) Nat.length_toDigits_pos).mp le_rfl))

/-- A smaller number takes no more. -/
theorem bytes_toDigits_le {m n : ℕ} (h : m ≤ n) : bytes (.num (Nat.toDigits 10 m)) ≤ bytes (.num (Nat.toDigits 10 n)) := by
  show byteLength (Nat.toDigits 10 m) ≤ byteLength (Nat.toDigits 10 n)
  rw [byteLength_of_digits (Number.isDigit_toDigits m), byteLength_of_digits (Number.isDigit_toDigits n)]
  exact length_toDigits_mono h

end Remudero.Lib.Json
