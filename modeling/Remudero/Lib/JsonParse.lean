import Remudero.Lib.JsonText
import Remudero.Lib.Record
import Remudero.Lib.Regex

/-! # Reading JSON

`parse` is `JSON.parse`: a value with white space around it, `none` where the call throws.  A later property of one
name replaces an earlier one.  A number keeps the text it is written with.  A text has no lone surrogates, so a string
with one is not read.

The first argument of the readers bounds the nesting and the length of what they read; `parse` starts with two units
for each character, and every reader spends at most two on one.

* `parse_stringify`: the text of a value reads as the value.
* `length_stringify_le`: no text of a value is shorter than the one `stringify` writes. -/

namespace Remudero.Lib.Json

/-! ### Strings -/

def isSpace (c : Char) : Bool := c == ' ' || c == '\t' || c == '\n' || c == '\r'

def skipSpace (t : Text) : Text := t.dropWhile isSpace

def hexOf (c : Char) : Option ℕ :=
  if c.isDigit then some (c.toNat - 48)
  else if 97 ≤ c.toNat && c.toNat ≤ 102 then some (c.toNat - 87)
  else if 65 ≤ c.toNat && c.toNat ≤ 70 then some (c.toNat - 55)
  else none

/-- Four hexadecimal digits. -/
def hex4 : Text → Option (ℕ × Text)
  | a :: b :: c :: d :: r =>
      match hexOf a, hexOf b, hexOf c, hexOf d with
      | some a, some b, some c, some d => some (4096 * a + 256 * b + 16 * c + d, r)
      | _, _, _, _ => none
  | _ => none

def shortEscape (c : Char) : Option Char :=
  if c = '"' ∨ c = '\\' ∨ c = '/' then some c
  else if c = 'b' then some (Char.ofNat 8)
  else if c = 'f' then some (Char.ofNat 12)
  else if c = 'n' then some '\n'
  else if c = 'r' then some '\r'
  else if c = 't' then some '\t'
  else none

def isHighSurrogate (u : ℕ) : Bool := 0xd800 ≤ u && u < 0xdc00

def isLowSurrogate (u : ℕ) : Bool := 0xdc00 ≤ u && u < 0xe000

/-- The second half of a pair. -/
def lowSurrogate : Text → Option (ℕ × Text)
  | '\\' :: 'u' :: r => (hex4 r).filter fun p => isLowSurrogate p.1
  | _ => none

/-- The character of an escape, after its backslash. -/
def readEscape : Text → Option (Char × Text)
  | [] => none
  | c :: r =>
      if c = 'u' then
        match hex4 r with
        | none => none
        | some (u, r) =>
            if isHighSurrogate u then
              (lowSurrogate r).map fun p => (Char.ofNat (0x10000 + (u - 0xd800) * 1024 + (p.1 - 0xdc00)), p.2)
            else if isLowSurrogate u then none
            else some (Char.ofNat u, r)
      else (shortEscape c).map fun d => (d, r)

/-- The first character of a string. -/
def readChar : Text → Option (Char × Text)
  | [] => none
  | c :: r => if c = '\\' then readEscape r else if c.toNat < 32 then none else some (c, r)

/-- The characters up to the closing quotation mark. -/
def readString : ℕ → Text → Option (Text × Text)
  | 0, _ => none
  | n + 1, t =>
      if t.head? = some '"' then some ([], t.tail)
      else
        match readChar t with
        | none => none
        | some (c, r) => (readString n r).map fun p => (c :: p.1, p.2)

/-! ### Values -/

def numberChar (c : Char) : Bool := c.isDigit || c == '-' || c == '+' || c == '.' || c == 'e' || c == 'E'

/-- `-?(?:0|[1-9]\d*)(?:\.\d+)?(?:[eE][+-]?\d+)?` -/
def numberRe : Re :=
  .seqs [.start, .opt (.char '-'), .alt (.char '0') (.seq (.cls fun c => c.isDigit && c != '0') (.star .digit)),
    .opt (.seq (.char '.') (.plus .digit)),
    .opt (.seqs [.cls fun c => c == 'e' || c == 'E', .opt (.cls fun c => c == '+' || c == '-'), .plus .digit]), .stop]

/-- A word, or a number. -/
def readWord (t : Text) : Option (Json × Text) :=
  if "null".toList.isPrefixOf t then some (.null, t.drop 4)
  else if "true".toList.isPrefixOf t then some (.bool true, t.drop 4)
  else if "false".toList.isPrefixOf t then some (.bool false, t.drop 5)
  else if numberRe.test (t.takeWhile numberChar) then some (.num (t.takeWhile numberChar), t.dropWhile numberChar)
  else none

/-- The properties of an object: a later one of the same name replaces an earlier one. -/
def ofPairs (pairs : List (Text × Json)) : List (Text × Json) := pairs.foldl (fun l p => assign p.1 p.2 l) []

mutual

def readValue : ℕ → Text → Option (Json × Text)
  | 0, _ => none
  | n + 1, t =>
      match skipSpace t with
      | '"' :: r => (readString n r).map fun p => (.str p.1, p.2)
      | '[' :: r =>
          match skipSpace r with
          | ']' :: r' => some (.arr [], r')
          | _ => (readItems n r).map fun p => (.arr p.1, p.2)
      | '\x7b' :: r =>
          match skipSpace r with
          | '\x7d' :: r' => some (.obj [], r')
          | _ => (readFields n r).map fun p => (.obj (ofPairs p.1), p.2)
      | u => readWord u

/-- Elements, up to the closing bracket. -/
def readItems : ℕ → Text → Option (List Json × Text)
  | 0, _ => none
  | n + 1, t =>
      match readValue n t with
      | none => none
      | some (v, r) =>
          match skipSpace r with
          | ',' :: r' => (readItems n r').map fun p => (v :: p.1, p.2)
          | ']' :: r' => some ([v], r')
          | _ => none

/-- Properties, up to the closing brace. -/
def readFields : ℕ → Text → Option (List (Text × Json) × Text)
  | 0, _ => none
  | n + 1, t =>
      match skipSpace t with
      | '"' :: r =>
          match readString n r with
          | none => none
          | some (name, r) =>
              match skipSpace r with
              | ':' :: r =>
                  match readValue n r with
                  | none => none
                  | some (v, r) =>
                      match skipSpace r with
                      | ',' :: r' => (readFields n r').map fun p => ((name, v) :: p.1, p.2)
                      | '\x7d' :: r' => some ([(name, v)], r')
                      | _ => none
              | _ => none
      | _ => none

end

/-- `JSON.parse`. -/
def parse (t : Text) : Option Json :=
  match readValue (2 * t.length + 2) t with
  | some (v, r) => if (skipSpace r).isEmpty then some v else none
  | none => none

example : (parse " \x7b\"a\" : [1, \"\\u0041\\n\", true], \"a\":null\x7d".toList).map stringify =
    some "\x7b\"a\":null\x7d".toList := by decide +kernel

/-! ### Strings are read back -/

theorem hexOf_hexDigit {n : ℕ} (h : n < 16) : hexOf (hexDigit n) = some n := by
  have hall : ∀ m : Fin 16, hexOf (hexDigit m.val) = some m.val := by decide
  exact hall ⟨n, h⟩

theorem readChar_escape (c : Char) (rest : Text) : readChar (escape c ++ rest) = some (c, rest) := by
  unfold escape
  split_ifs with hquote hslash hn hr ht hb hf hcontrol
  · subst hquote
    rfl
  · subst hslash
    rfl
  · subst hn
    rfl
  · subst hr
    rfl
  · subst ht
    rfl
  · have hc : c = Char.ofNat 8 := by rw [← hb, Char.ofNat_toNat]
    subst hc
    rfl
  · have hc : c = Char.ofNat 12 := by rw [← hf, Char.ofNat_toNat]
    subst hc
    rfl
  · have hzero : hexOf '0' = some 0 := by decide
    have hhex : hex4 ('0' :: '0' :: hexDigit (c.toNat / 16) :: hexDigit (c.toNat % 16) :: rest) = some (c.toNat, rest) := by
      simp only [hex4, hzero, hexOf_hexDigit (show c.toNat / 16 < 16 by omega),
        hexOf_hexDigit (show c.toNat % 16 < 16 by omega)]
      congr 2
      omega
    have hnot : isHighSurrogate c.toNat = false ∧ isLowSurrogate c.toNat = false := by
      simp only [isHighSurrogate, isLowSurrogate, Bool.and_eq_false_iff, decide_eq_false_iff_not]
      omega
    simp [readChar, readEscape, hhex, hnot.1, hnot.2]
  · simp [readChar, hslash, hcontrol]

theorem escape_head (c : Char) (rest : Text) : (escape c ++ rest).head? ≠ some '"' := by
  unfold escape
  split_ifs with hquote
  all_goals simp_all

theorem readString_escape (t rest : Text) {n : ℕ} (hn : t.length < n) :
    readString n (t.flatMap escape ++ '"' :: rest) = some (t, rest) := by
  induction t generalizing n with
  | nil =>
      obtain ⟨n, rfl⟩ : ∃ m, n = m + 1 := ⟨n - 1, by omega⟩
      simp [readString]
  | cons c t ih =>
      rw [List.length_cons] at hn
      obtain ⟨n, rfl⟩ : ∃ m, n = m + 1 := ⟨n - 1, by omega⟩
      rw [List.flatMap_cons, List.append_assoc, readString, if_neg (escape_head c _), readChar_escape]
      simp only
      rw [ih (by omega), Option.map_some]

theorem length_le_length_escape (t : Text) : t.length ≤ (t.flatMap escape).length := by
  induction t with
  | nil => exact Nat.le_refl _
  | cons c t ih =>
      have hpos := length_escape_pos c
      rw [List.flatMap_cons, List.length_append, List.length_cons]
      omega

/-! ### Values are read back -/

mutual

/-- The numbers are numbers, and the names of an object are distinct. -/
def Readable : Json → Prop
  | .null => True
  | .bool _ => True
  | .num shown => shown ≠ [] ∧ (∀ c ∈ shown, numberChar c = true) ∧ numberRe.test shown = true
  | .str _ => True
  | .arr items => ReadableItems items
  | .obj fields => (fields.map Prod.fst).Nodup ∧ ReadableFields fields

def ReadableItems : List Json → Prop
  | [] => True
  | j :: js => Readable j ∧ ReadableItems js

def ReadableFields : List (Text × Json) → Prop
  | [] => True
  | (_, j) :: fields => Readable j ∧ ReadableFields fields

end

theorem readableFields_iff {fields : List (Text × Json)} : ReadableFields fields ↔ ∀ f ∈ fields, Readable f.2 := by
  induction fields with
  | nil => simp [ReadableFields]
  | cons f fields ih => simp [ReadableFields, ih]

theorem ofPairs_of_nodup {pairs : List (Text × Json)} (h : (pairs.map Prod.fst).Nodup) : ofPairs pairs = pairs := by
  unfold ofPairs
  induction pairs using List.reverseRecOn with
  | nil => rfl
  | append_singleton pairs p ih =>
      rw [List.map_append, List.nodup_append] at h
      have hfresh : p.1 ∉ pairs.map Prod.fst := fun hmem => h.2.2 p.1 hmem p.1 (by simp) rfl
      rw [List.foldl_append, ih h.1, List.foldl_cons, List.foldl_nil, assign_of_notMem p.2 hfresh]

/-- What a text may be followed by, so that a number in front of it ends there. -/
def Ends (rest : Text) : Prop := ∀ c ∈ rest.head?, numberChar c = false

theorem ends_cons {c : Char} (h : numberChar c = false) (rest : Text) : Ends (c :: rest) := by
  simpa [Ends] using h

theorem ends_comma (rest : Text) : Ends (',' :: rest) := ends_cons (by decide) rest

theorem ends_bracket (rest : Text) : Ends (']' :: rest) := ends_cons (by decide) rest

theorem ends_brace (rest : Text) : Ends ('\x7d' :: rest) := ends_cons (by decide) rest

theorem readWord_number {shown rest : Text} (h : Readable (.num shown)) (hrest : Ends rest) :
    readWord (shown ++ rest) = some (.num shown, rest) := by
  obtain ⟨hne, hchars, htest⟩ := h
  -- a number starts with none of the letters of the words
  have hword (word : Text) (c : Char) (hc : numberChar c = false) : (c :: word).isPrefixOf (shown ++ rest) = false := by
    cases shown with
    | nil => exact absurd rfl hne
    | cons d shown =>
        have hd := hchars d List.mem_cons_self
        have hcd : c ≠ d := by
          rintro rfl
          rw [hc] at hd
          cases hd
        simp [List.isPrefixOf, hcd]
  have htake : (shown ++ rest).takeWhile numberChar = shown := by
    rw [List.takeWhile_append_of_pos hchars]
    cases rest with
    | nil => simp
    | cons c rest => simp [hrest c rfl]
  have hdrop : (shown ++ rest).dropWhile numberChar = rest := by
    rw [List.dropWhile_append_of_pos hchars]
    cases rest with
    | nil => rfl
    | cons c rest => simp [hrest c rfl]
  have hnull : "null".toList.isPrefixOf (shown ++ rest) = false := hword "ull".toList 'n' (by decide)
  have htrue : "true".toList.isPrefixOf (shown ++ rest) = false := hword "rue".toList 't' (by decide)
  have hfalse : "false".toList.isPrefixOf (shown ++ rest) = false := hword "alse".toList 'f' (by decide)
  simp only [readWord, hnull, htrue, hfalse, htake, hdrop, htest, Bool.false_eq_true, if_false, if_true]

theorem stringify_ne_nil {j : Json} (h : Readable j) : stringify j ≠ [] := by
  cases j with
  | null => simp [stringify]
  | bool b => cases b <;> simp [stringify]
  | num shown => exact h.1
  | str t => simp [stringify, quote]
  | arr items => simp [stringify]
  | obj fields => simp [stringify]

/-- A value does not start with white space or a closing bracket. -/
theorem stringify_head {j : Json} (h : Readable j) :
    ∃ c t, stringify j = c :: t ∧ isSpace c = false ∧ c ≠ ']' := by
  cases j with
  | null => exact ⟨'n', _, rfl, by decide, by decide⟩
  | bool b =>
      cases b with
      | false => exact ⟨'f', _, rfl, by decide, by decide⟩
      | true => exact ⟨'t', _, rfl, by decide, by decide⟩
  | num shown =>
      obtain ⟨hne, hchars, -⟩ := h
      cases shown with
      | nil => exact absurd rfl hne
      | cons c shown =>
          have hc := hchars c List.mem_cons_self
          refine ⟨c, shown, rfl, ?_, ?_⟩
          · by_contra hspace
            simp only [isSpace, Bool.not_eq_false, Bool.or_eq_true, beq_iff_eq] at hspace
            rcases hspace with ((rfl | rfl) | rfl) | rfl <;> exact absurd hc (by decide)
          · rintro rfl
            exact absurd hc (by decide)
  | str t => exact ⟨'"', _, rfl, by decide, by decide⟩
  | arr items => exact ⟨'[', _, rfl, by decide, by decide⟩
  | obj fields => exact ⟨'\x7b', _, rfl, by decide, by decide⟩

theorem skipSpace_cons {c : Char} (h : isSpace c = false) (t : Text) : skipSpace (c :: t) = c :: t := by
  rw [skipSpace, List.dropWhile_cons_of_neg (by simp [h])]

theorem readValue_str (t rest : Text) {n : ℕ} (hn : (quote t).length ≤ n) :
    readValue n (quote t ++ rest) = some (.str t, rest) := by
  have hlength := length_le_length_escape t
  simp only [quote, List.length_append, List.length_cons, List.length_nil] at hn
  obtain ⟨n, rfl⟩ : ∃ m, n = m + 1 := ⟨n - 1, by omega⟩
  have hread := readString_escape t rest (n := n) (by omega)
  rw [readValue, quote, List.cons_append, List.cons_append, skipSpace_cons (by decide), List.append_assoc,
    List.singleton_append]
  simp only
  rw [hread, Option.map_some]

/-- A word is read, whatever follows. -/
theorem readValue_word {j : Json} {n : ℕ} (hj : j = .null ∨ (∃ b, j = .bool b) ∨ ∃ shown, j = .num shown) (h : Readable j)
    {rest : Text} (hrest : Ends rest) : readValue (n + 1) (stringify j ++ rest) = some (j, rest) := by
  rcases hj with rfl | ⟨b, rfl⟩ | ⟨shown, rfl⟩
  · simp [readValue, stringify, skipSpace, isSpace, readWord, List.isPrefixOf]
  · cases b <;> simp [readValue, stringify, skipSpace, isSpace, readWord, List.isPrefixOf]
  · obtain ⟨hne, hchars, -⟩ := id h
    have hword := readWord_number h hrest
    obtain ⟨c, t, hshown, hspace, -⟩ := stringify_head h
    rw [stringify] at hshown
    subst hshown
    have hc := hchars c List.mem_cons_self
    rw [readValue, stringify, List.cons_append, skipSpace_cons hspace]
    rw [List.cons_append] at hword
    split
    next heq =>
      obtain ⟨rfl, -⟩ := List.cons.inj heq
      exact absurd hc (by decide)
    next heq =>
      obtain ⟨rfl, -⟩ := List.cons.inj heq
      exact absurd hc (by decide)
    next heq =>
      obtain ⟨rfl, -⟩ := List.cons.inj heq
      exact absurd hc (by decide)
    next => exact hword

theorem commas_head (c : Char) (t : Text) (ts : List Text) (more : Text) :
    ∃ t', commas ((c :: t) :: ts) ++ more = c :: t' := by
  cases ts with
  | nil => exact ⟨t ++ more, rfl⟩
  | cons u ts => exact ⟨t ++ ',' :: commas (u :: ts) ++ more, rfl⟩

/-- An array is read when its elements are. -/
theorem readValue_arr {items : List Json} {n : ℕ} {rest : Text} (h : ReadableItems items)
    (hitems : items ≠ [] → readItems n (commas (stringifyItems items) ++ ']' :: rest) = some (items, rest)) :
    readValue (n + 1) (stringify (.arr items) ++ rest) = some (.arr items, rest) := by
  rw [stringify, List.cons_append, readValue, List.cons_append, skipSpace_cons (by decide), List.append_assoc,
    List.singleton_append]
  simp only
  cases items with
  | nil => rfl
  | cons j items =>
      have hread := hitems (List.cons_ne_nil j items)
      obtain ⟨c, t, hhead, hspace, hclose⟩ := stringify_head h.1
      -- the first element is not the end
      obtain ⟨t', hstart⟩ : ∃ t', commas (stringifyItems (j :: items)) ++ ']' :: rest = c :: t' := by
        rw [stringifyItems, hhead]
        exact commas_head c t (stringifyItems items) (']' :: rest)
      rw [hstart] at hread ⊢
      rw [skipSpace_cons hspace]
      split
      next heq => exact absurd (List.cons.inj heq).1 hclose
      next => rw [hread, Option.map_some]

theorem readValue_obj {fields : List (Text × Json)} {n : ℕ} {rest : Text} (hnodup : (fields.map Prod.fst).Nodup)
    (hfields : fields ≠ [] → readFields n (commas (stringifyFields fields) ++ '\x7d' :: rest) = some (fields, rest)) :
    readValue (n + 1) (stringify (.obj fields) ++ rest) = some (.obj fields, rest) := by
  rw [stringify, List.cons_append, readValue, List.cons_append, skipSpace_cons (by decide), List.append_assoc,
    List.singleton_append]
  simp only
  cases fields with
  | nil => rfl
  | cons f fields =>
      have hread := hfields (List.cons_ne_nil f fields)
      obtain ⟨t', hstart⟩ : ∃ t', commas (stringifyFields (f :: fields)) ++ '\x7d' :: rest = '"' :: t' := by
        rw [stringifyFields, quote, List.cons_append, List.cons_append]
        exact commas_head '"' _ (stringifyFields fields) ('\x7d' :: rest)
      rw [hstart] at hread ⊢
      rw [skipSpace_cons (by decide)]
      rw [hread, Option.map_some, ofPairs_of_nodup hnodup]
      rfl

/-- One element and what follows it. -/
theorem readItems_cons {j : Json} {n : ℕ} {t r : Text} (h : readValue n t = some (j, r)) :
    readItems (n + 1) t = match skipSpace r with
      | ',' :: r' => (readItems n r').map fun p => (j :: p.1, p.2)
      | ']' :: r' => some ([j], r')
      | _ => none := by
  rw [readItems, h]

/-- One property and what follows it. -/
theorem readFields_cons {name : Text} {j : Json} {n : ℕ} {t r : Text} (hname : name.length < n)
    (h : readValue n t = some (j, r)) :
    readFields (n + 1) (quote name ++ ':' :: t) = match skipSpace r with
      | ',' :: r' => (readFields n r').map fun p => ((name, j) :: p.1, p.2)
      | '\x7d' :: r' => some ([(name, j)], r')
      | _ => none := by
  have hread := readString_escape name (':' :: t) hname
  rw [readFields, quote, List.cons_append, List.cons_append, skipSpace_cons (by decide), List.append_assoc,
    List.singleton_append]
  simp only
  rw [hread]
  simp only
  rw [skipSpace_cons (by decide)]
  simp only
  rw [h]

mutual

/-- The text of a value is read as the value. -/
theorem readValue_stringify : ∀ (j : Json) {n : ℕ} {rest : Text}, Readable j → Ends rest →
    2 * (stringify j).length ≤ n → readValue n (stringify j ++ rest) = some (j, rest)
  | .null, n, rest, h, hrest, hn => by
      obtain ⟨n, rfl⟩ : ∃ m, n = m + 1 := ⟨n - 1, by simp [stringify] at hn; omega⟩
      exact readValue_word (.inl rfl) h hrest
  | .bool b, n, rest, h, hrest, hn => by
      obtain ⟨n, rfl⟩ : ∃ m, n = m + 1 := ⟨n - 1, by cases b <;> simp [stringify] at hn <;> omega⟩
      exact readValue_word (.inr (.inl ⟨b, rfl⟩)) h hrest
  | .num shown, n, rest, h, hrest, hn => by
      have hpos : 0 < (stringify (.num shown)).length := List.length_pos_of_ne_nil (stringify_ne_nil h)
      obtain ⟨n, rfl⟩ : ∃ m, n = m + 1 := ⟨n - 1, by omega⟩
      exact readValue_word (.inr (.inr ⟨shown, rfl⟩)) h hrest
  | .str t, n, rest, _, _, hn => by
      rw [stringify] at hn ⊢
      exact readValue_str t rest (by omega)
  | .arr items, n, rest, h, _, hn => by
      simp only [stringify, List.cons_append, List.length_cons, List.length_append, List.length_nil] at hn
      obtain ⟨n, rfl⟩ : ∃ m, n = m + 1 := ⟨n - 1, by omega⟩
      exact readValue_arr h fun _ => readItems_stringify items ‹_› h (by omega)
  | .obj fields, n, rest, h, _, hn => by
      simp only [stringify, List.cons_append, List.length_cons, List.length_append, List.length_nil] at hn
      obtain ⟨n, rfl⟩ : ∃ m, n = m + 1 := ⟨n - 1, by omega⟩
      exact readValue_obj h.1 fun _ => readFields_stringify fields ‹_› h.2 (by omega)

theorem readItems_stringify : ∀ (items : List Json) {n : ℕ} {rest : Text}, items ≠ [] → ReadableItems items →
    2 * (commas (stringifyItems items)).length + 1 ≤ n →
    readItems n (commas (stringifyItems items) ++ ']' :: rest) = some (items, rest)
  | [], _, _, hne, _, _ => absurd rfl hne
  | [j], n, rest, _, h, hn => by
      simp only [stringifyItems, commas] at hn ⊢
      obtain ⟨n, rfl⟩ : ∃ m, n = m + 1 := ⟨n - 1, by omega⟩
      have hread := readValue_stringify j h.1 (ends_bracket rest) (n := n) (by omega)
      rw [readItems_cons hread, skipSpace_cons (by decide)]
      rfl
  | j :: k :: items, n, rest, _, h, hn => by
      have htext : commas (stringifyItems (j :: k :: items)) =
          stringify j ++ ',' :: commas (stringifyItems (k :: items)) := by
        simp only [stringifyItems, commas]
      rw [htext] at hn ⊢
      simp only [List.length_append, List.length_cons] at hn
      obtain ⟨n, rfl⟩ : ∃ m, n = m + 1 := ⟨n - 1, by omega⟩
      have hread := readValue_stringify j h.1
        (ends_comma (commas (stringifyItems (k :: items)) ++ ']' :: rest)) (n := n) (by omega)
      have hmore : readItems n (commas (stringifyItems (k :: items)) ++ ']' :: rest) = some (k :: items, rest) :=
        readItems_stringify (k :: items) (List.cons_ne_nil k items) h.2 (by omega)
      rw [List.append_assoc, List.cons_append, readItems_cons hread, skipSpace_cons (by decide)]
      simp only
      rw [hmore, Option.map_some]

theorem readFields_stringify : ∀ (fields : List (Text × Json)) {n : ℕ} {rest : Text}, fields ≠ [] → ReadableFields fields →
    2 * (commas (stringifyFields fields)).length + 1 ≤ n →
    readFields n (commas (stringifyFields fields) ++ '\x7d' :: rest) = some (fields, rest)
  | [], _, _, hne, _, _ => absurd rfl hne
  | [(name, j)], n, rest, _, h, hn => by
      have hname := length_le_length_escape name
      simp only [stringifyFields, commas] at hn ⊢
      simp only [quote, List.length_append, List.length_cons, List.length_nil] at hn
      obtain ⟨n, rfl⟩ : ∃ m, n = m + 1 := ⟨n - 1, by omega⟩
      have hread := readValue_stringify j h.1 (ends_brace rest) (n := n) (by omega)
      rw [List.append_assoc, List.cons_append, readFields_cons (by omega) hread, skipSpace_cons (by decide)]
      rfl
  | (name, j) :: g :: fields, n, rest, _, h, hn => by
      have hname := length_le_length_escape name
      have htext : commas (stringifyFields ((name, j) :: g :: fields)) =
          quote name ++ ':' :: stringify j ++ ',' :: commas (stringifyFields (g :: fields)) := by
        simp only [stringifyFields, commas]
      rw [htext] at hn ⊢
      simp only [quote, List.length_append, List.length_cons, List.length_nil] at hn
      obtain ⟨n, rfl⟩ : ∃ m, n = m + 1 := ⟨n - 1, by omega⟩
      have hread := readValue_stringify j h.1
        (ends_comma (commas (stringifyFields (g :: fields)) ++ '\x7d' :: rest)) (n := n) (by omega)
      have hmore : readFields n (commas (stringifyFields (g :: fields)) ++ '\x7d' :: rest) = some (g :: fields, rest) :=
        readFields_stringify (g :: fields) (List.cons_ne_nil g fields) h.2 (by omega)
      rw [List.append_assoc, List.append_assoc, List.cons_append, List.cons_append, readFields_cons (by omega) hread,
        skipSpace_cons (by decide)]
      simp only
      rw [hmore, Option.map_some]

end

/-- Reading back what was written. -/
theorem parse_stringify {j : Json} (h : Readable j) : parse (stringify j) = some j := by
  have hread := readValue_stringify j h (show Ends [] by simp [Ends]) (n := 2 * (stringify j).length + 2) (by omega)
  rw [List.append_nil] at hread
  rw [parse, hread]
  rfl

/-! ### No text is shorter -/

theorem length_escape_le (c : Char) : (escape c).length ≤ 6 := by
  unfold escape
  split_ifs <;> simp

theorem length_skipSpace_le (t : Text) : (skipSpace t).length ≤ t.length := (List.dropWhile_sublist _).length_le

theorem length_hex4 {t r : Text} {u : ℕ} (h : hex4 t = some (u, r)) : r.length + 4 = t.length := by
  unfold hex4 at h
  split at h
  next a b c d rest =>
    split at h
    · obtain ⟨-, rfl⟩ := Prod.mk.inj (Option.some.inj h)
      rfl
    · cases h
  next => cases h

theorem length_lowSurrogate {t r : Text} {u : ℕ} (h : lowSurrogate t = some (u, r)) : r.length + 6 = t.length := by
  unfold lowSurrogate at h
  split at h
  next rest =>
    have hlength := length_hex4 (Option.filter_eq_some_iff.mp h).1
    simp only [List.length_cons]
    omega
  next => cases h

theorem length_shortEscape {c d : Char} (h : shortEscape c = some d) : (escape d).length ≤ 2 := by
  unfold shortEscape at h
  split_ifs at h with hself hb hf hn hr ht
  · obtain rfl := Option.some.inj h
    rcases hself with rfl | rfl | rfl <;> decide
  all_goals
    obtain rfl := Option.some.inj h
    decide

theorem length_readEscape {t r : Text} {c : Char} (h : readEscape t = some (c, r)) :
    (escape c).length + r.length ≤ t.length + 1 := by
  have hsix := length_escape_le c
  cases t with
  | nil => cases h
  | cons d t =>
      rw [readEscape] at h
      rw [List.length_cons]
      split at h
      · split at h
        · cases h
        next u r' hhex =>
          have hhex := length_hex4 hhex
          split at h
          · obtain ⟨p, hp, heq⟩ := Option.map_eq_some_iff.mp h
            have hlow := length_lowSurrogate (u := p.1) (r := p.2) hp
            obtain ⟨-, rfl⟩ := Prod.mk.inj heq
            omega
          · split at h
            · cases h
            · obtain ⟨-, rfl⟩ := Prod.mk.inj (Option.some.inj h)
              omega
      · obtain ⟨e, he, heq⟩ := Option.map_eq_some_iff.mp h
        obtain ⟨rfl, rfl⟩ := Prod.mk.inj heq
        have htwo := length_shortEscape he
        omega

theorem length_readChar {t r : Text} {c : Char} (h : readChar t = some (c, r)) (hquote : t.head? ≠ some '"') :
    (escape c).length + r.length ≤ t.length := by
  cases t with
  | nil => cases h
  | cons d t =>
      rw [readChar] at h
      split_ifs at h with hslash hcontrol
      · exact length_readEscape h
      · obtain ⟨rfl, rfl⟩ := Prod.mk.inj (Option.some.inj h)
        have hd : d ≠ '"' := by simpa using hquote
        have hplain : escape d = [d] := by
          unfold escape
          rw [if_neg hd, if_neg hslash]
          rw [if_neg, if_neg, if_neg, if_neg (by omega), if_neg (by omega), if_neg hcontrol]
          all_goals
            rintro rfl
            exact hcontrol (by decide)
        rw [hplain, List.length_singleton, List.length_cons]
        omega

theorem length_readString {n : ℕ} {t r s : Text} (h : readString n t = some (s, r)) :
    (s.flatMap escape).length + 1 + r.length ≤ t.length := by
  induction n generalizing t s with
  | zero => cases h
  | succ n ih =>
      rw [readString] at h
      split at h
      next hquote =>
        obtain ⟨rfl, rfl⟩ := Prod.mk.inj (Option.some.inj h)
        cases t with
        | nil => cases hquote
        | cons d t =>
            simp only [List.flatMap_nil, List.length_nil, List.tail_cons, List.length_cons]
            omega
      next hquote =>
        split at h
        · cases h
        next c rest hchar =>
          obtain ⟨p, hp, heq⟩ := Option.map_eq_some_iff.mp h
          obtain ⟨rfl, rfl⟩ := Prod.mk.inj heq
          have hfirst := length_readChar hchar hquote
          have hrest := ih (s := p.1) (t := rest) hp
          rw [List.flatMap_cons, List.length_append]
          omega

theorem length_readWord {t r : Text} {j : Json} (h : readWord t = some (j, r)) :
    (stringify j).length + r.length ≤ t.length := by
  -- a word is in front of what is left
  have hword {word : Text} (hstarts : word.isPrefixOf t = true) : word.length + (t.drop word.length).length ≤ t.length := by
    have hle := (List.isPrefixOf_iff_prefix.mp hstarts).length_le
    rw [List.length_drop]
    omega
  unfold readWord at h
  split_ifs at h with hnull htrue hfalse hnumber
  · obtain ⟨rfl, rfl⟩ := Prod.mk.inj (Option.some.inj h)
    exact hword hnull
  · obtain ⟨rfl, rfl⟩ := Prod.mk.inj (Option.some.inj h)
    exact hword htrue
  · obtain ⟨rfl, rfl⟩ := Prod.mk.inj (Option.some.inj h)
    exact hword hfalse
  · obtain ⟨rfl, rfl⟩ := Prod.mk.inj (Option.some.inj h)
    rw [stringify, ← List.length_append, List.takeWhile_append_dropWhile]

/-- The length of a list of texts, with a comma after each. -/
def commaLength (ts : List Text) : ℕ := (ts.map fun t => t.length + 1).sum

theorem length_commas (ts : List Text) : (commas ts).length = commaLength ts - 1 := by
  induction ts with
  | nil => rfl
  | cons t ts ih =>
      cases ts with
      | nil => simp [commas, commaLength]
      | cons u ts =>
          simp only [commas, List.length_append, List.length_cons, ih]
          simp only [commaLength, List.map_cons, List.sum_cons]
          omega

/-- The text of a property. -/
def fieldLength (p : Text × Json) : ℕ := (quote p.1).length + (stringify p.2).length + 2

theorem commaLength_stringifyFields (l : List (Text × Json)) : commaLength (stringifyFields l) = (l.map fieldLength).sum := by
  induction l with
  | nil => rfl
  | cons p l ih =>
      obtain ⟨name, j⟩ := p
      rw [stringifyFields, commaLength, List.map_cons, List.sum_cons, ← commaLength, ih, List.map_cons, List.sum_cons]
      simp only [fieldLength, List.length_append, List.length_cons]
      omega

theorem sum_fieldLength_assign (name : Text) (j : Json) (l : List (Text × Json)) :
    ((assign name j l).map fieldLength).sum ≤ (l.map fieldLength).sum + fieldLength (name, j) := by
  induction l with
  | nil => simp [assign]
  | cons p l ih =>
      rw [assign]
      split
      · simp only [List.map_cons, List.sum_cons]
        omega
      · simp only [List.map_cons, List.sum_cons]
        omega

theorem sum_fieldLength_ofPairs (pairs : List (Text × Json)) :
    ((ofPairs pairs).map fieldLength).sum ≤ (pairs.map fieldLength).sum := by
  unfold ofPairs
  induction pairs using List.reverseRecOn with
  | nil => exact Nat.le_refl _
  | append_singleton pairs p ih =>
      obtain ⟨name, j⟩ := p
      have hassign := sum_fieldLength_assign name j (pairs.foldl (fun l p => assign p.1 p.2 l) [])
      rw [List.foldl_append, List.foldl_cons, List.foldl_nil, List.map_append, List.sum_append]
      simp only [List.map_cons, List.map_nil, List.sum_cons, List.sum_nil]
      omega

theorem length_skipSpace_cons {t r : Text} {c : Char} (h : skipSpace t = c :: r) : r.length + 1 ≤ t.length := by
  have hle := length_skipSpace_le t
  rwa [h, List.length_cons] at hle

/-- With `n`, a reader takes at least as much as `stringify` writes, and at least one element or property. -/
structure Tight (n : ℕ) : Prop where
  value : ∀ t r j, readValue n t = some (j, r) → (stringify j).length + r.length ≤ t.length
  items : ∀ t r l, readItems n t = some (l, r) →
    1 ≤ commaLength (stringifyItems l) ∧ commaLength (stringifyItems l) + r.length ≤ t.length
  fields : ∀ t r l, readFields n t = some (l, r) →
    1 ≤ (l.map fieldLength).sum ∧ (l.map fieldLength).sum + r.length ≤ t.length

theorem tight_value {n : ℕ} (h : Tight n) {t r : Text} {j : Json} (hread : readValue (n + 1) t = some (j, r)) :
    (stringify j).length + r.length ≤ t.length := by
  rw [readValue] at hread
  split at hread
  next r₁ hstart =>
    have hstart := length_skipSpace_cons hstart
    obtain ⟨p, hp, heq⟩ := Option.map_eq_some_iff.mp hread
    obtain ⟨rfl, rfl⟩ := Prod.mk.inj heq
    have hstring := length_readString (s := p.1) (r := p.2) hp
    simp only [stringify, quote, List.cons_append, List.length_cons, List.length_append, List.length_nil]
    omega
  next r₁ hstart =>
    have hstart := length_skipSpace_cons hstart
    split at hread
    next r' hclose =>
      have hclose := length_skipSpace_cons hclose
      obtain ⟨rfl, rfl⟩ := Prod.mk.inj (Option.some.inj hread)
      simp only [stringify, stringifyItems, commas, List.cons_append, List.nil_append, List.length_cons, List.length_nil]
      omega
    next =>
      obtain ⟨p, hp, heq⟩ := Option.map_eq_some_iff.mp hread
      obtain ⟨rfl, rfl⟩ := Prod.mk.inj heq
      obtain ⟨hone, hitems⟩ := h.items r₁ p.2 p.1 hp
      simp only [stringify, List.cons_append, List.length_cons, List.length_append, List.length_nil, length_commas]
      omega
  next r₁ hstart =>
    have hstart := length_skipSpace_cons hstart
    split at hread
    next r' hclose =>
      have hclose := length_skipSpace_cons hclose
      obtain ⟨rfl, rfl⟩ := Prod.mk.inj (Option.some.inj hread)
      simp only [stringify, stringifyFields, commas, List.cons_append, List.nil_append, List.length_cons, List.length_nil]
      omega
    next =>
      obtain ⟨p, hp, heq⟩ := Option.map_eq_some_iff.mp hread
      obtain ⟨rfl, rfl⟩ := Prod.mk.inj heq
      obtain ⟨hone, hfields⟩ := h.fields r₁ p.2 p.1 hp
      have hpairs := sum_fieldLength_ofPairs p.1
      simp only [stringify, List.cons_append, List.length_cons, List.length_append, List.length_nil, length_commas,
        commaLength_stringifyFields]
      omega
  next =>
    have hskip := length_skipSpace_le t
    have hword := length_readWord hread
    omega

theorem tight_items {n : ℕ} (h : Tight n) {t r : Text} {items : List Json}
    (hread : readItems (n + 1) t = some (items, r)) :
    1 ≤ commaLength (stringifyItems items) ∧ commaLength (stringifyItems items) + r.length ≤ t.length := by
  rw [readItems] at hread
  split at hread
  · cases hread
  next j r₁ hvalue =>
    have hvalue := h.value _ _ _ hvalue
    split at hread
    next r' hcomma =>
      have hcomma := length_skipSpace_cons hcomma
      obtain ⟨p, hp, heq⟩ := Option.map_eq_some_iff.mp hread
      obtain ⟨rfl, rfl⟩ := Prod.mk.inj heq
      obtain ⟨-, hmore⟩ := h.items r' p.2 p.1 hp
      rw [stringifyItems, commaLength, List.map_cons, List.sum_cons, ← commaLength]
      omega
    next r' hclose =>
      have hclose := length_skipSpace_cons hclose
      obtain ⟨rfl, rfl⟩ := Prod.mk.inj (Option.some.inj hread)
      simp only [stringifyItems, commaLength, List.map_cons, List.map_nil, List.sum_cons, List.sum_nil]
      omega
    next => cases hread

theorem tight_fields {n : ℕ} (h : Tight n) {t r : Text} {fields : List (Text × Json)}
    (hread : readFields (n + 1) t = some (fields, r)) :
    1 ≤ (fields.map fieldLength).sum ∧ (fields.map fieldLength).sum + r.length ≤ t.length := by
  rw [readFields] at hread
  split at hread
  next r₁ hquote =>
    have hquote := length_skipSpace_cons hquote
    split at hread
    · cases hread
    next name r₂ hname =>
      have hname := length_readString hname
      split at hread
      next r₃ hcolon =>
        have hcolon := length_skipSpace_cons hcolon
        split at hread
        · cases hread
        next j r₄ hvalue =>
          have hvalue := h.value _ _ _ hvalue
          have hfield : fieldLength (name, j) = (name.flatMap escape).length + (stringify j).length + 4 := by
            simp only [fieldLength, quote, List.cons_append, List.length_cons, List.length_append, List.length_nil]
            omega
          split at hread
          next r' hcomma =>
            have hcomma := length_skipSpace_cons hcomma
            obtain ⟨p, hp, heq⟩ := Option.map_eq_some_iff.mp hread
            obtain ⟨rfl, rfl⟩ := Prod.mk.inj heq
            obtain ⟨-, hmore⟩ := h.fields r' p.2 p.1 hp
            rw [List.map_cons, List.sum_cons]
            omega
          next r' hclose =>
            have hclose := length_skipSpace_cons hclose
            obtain ⟨rfl, rfl⟩ := Prod.mk.inj (Option.some.inj hread)
            simp only [List.map_cons, List.map_nil, List.sum_cons, List.sum_nil]
            omega
          next => cases hread
      next => cases hread
  next => cases hread

theorem tight (n : ℕ) : Tight n := by
  induction n with
  | zero =>
      constructor
      · intro t r j h
        cases h
      · intro t r l h
        cases h
      · intro t r l h
        cases h
  | succ n ih => exact ⟨fun _ _ _ h => tight_value ih h, fun _ _ _ h => tight_items ih h, fun _ _ _ h => tight_fields ih h⟩

/-- No text of a value is shorter than the one that is written. -/
theorem length_stringify_le {t : Text} {j : Json} (h : parse t = some j) : (stringify j).length ≤ t.length := by
  unfold parse at h
  split at h
  next v r hread =>
    split at h
    · obtain rfl := Option.some.inj h
      have hle := (tight _).value _ _ _ hread
      omega
    · cases h
  next => cases h

end Remudero.Lib.Json
