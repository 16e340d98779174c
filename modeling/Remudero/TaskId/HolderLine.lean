import Remudero.Lib.Calendar
import Remudero.Lib.Lines
import Remudero.Lib.NumberText
import Remudero.Lib.UriComponent
import Remudero.TaskId.Reservation

/-! # Writing holder lines

`formatReservationHolderLine`, `formatReservationAnchorMessage` and `formatHandMintReservationMessage` of
`lib/task-id-reservation.ts`.  A holder is one line of `key=value` tokens, its values percent-encoded with a plus for
each space.  The messages put a subject in front of it, in which the branch, the host and the time stand as they are.

The line is read back as the holder that was written.  The subject must not hold a line of its own that begins like a
holder line, for the first such line of a message is the one that is read, and a pid from 10^21 on is written with an
exponent, whose plus sign is read as a space. -/

namespace Remudero.TaskId

open Remudero.Lib

/-! ### Writing -/

/-- `Number` of a text that is an integer. -/
def integerNumber (t : Text) : Option ℤ := (Number.number t).bind fun q => if q.den = 1 then some q.num else none

/-- `t.replace(/%20/g, "+")` -/
def plusForSpaces : Text → Text
  | '%' :: '2' :: '0' :: rest => '+' :: plusForSpaces rest
  | c :: rest => c :: plusForSpaces rest
  | [] => []

def holderValue (v : Text) : Text := plusForSpaces (encodeURIComponent v)

/-- The keys with the values as they are written; a value that is absent has no key. -/
def holderParts (h : ReservationHolderLine) : List (Text × Text) :=
  [("branch".toList, holderValue h.branch)] ++
    (h.pid.map fun n => ("pid".toList, Number.integerText n)).toList ++
    (h.host.map fun v => ("host".toList, holderValue v)).toList ++
    (h.startedAt.map fun v => ("started_at".toList, holderValue v)).toList ++
    (h.source.map fun v => ("source".toList, holderValue v)).toList ++
    (h.takenOverFrom.map fun v => ("taken_over_from".toList, holderValue v)).toList

def holderToken (part : Text × Text) : Text := part.1 ++ '=' :: part.2

def formatReservationHolderLine (h : ReservationHolderLine) : Text :=
  holderPrefix ++ Text.join [' '] ((holderParts h).map holderToken)

/-- `holder.pid !== undefined && holder.host`: an empty host does not count. -/
def reservationWho (h : ReservationHolderLine) : Text :=
  match h.pid, h.host with
  | some pid, some host => if host = [] then h.branch else Number.integerText pid ++ '@' :: host
  | _, _ => h.branch

/-- `nowMs` is the time of the call. -/
def formatReservationAnchorMessage (nowMs : ℤ) (h : ReservationHolderLine) : Text :=
  "rmd-id reservation ".toList ++ reservationWho h ++ ' ' :: h.startedAt.getD (toISOString nowMs) ++
    "\n\n".toList ++ formatReservationHolderLine h

def formatHandMintReservationMessage (taskId : Text) (h : ReservationHolderLine) : Text :=
  "reserve ".toList ++ taskId ++ ' ' :: h.branch ++ "\n\n".toList ++
    formatReservationHolderLine { h with source := some (h.source.getD "hand-mint".toList) }

abbrev parseHolder : Text → ParsedReservationHolderLine := parseReservationHolderLine decodeURIComponent integerNumber

/-! ### One value -/

section Value

open UriComponent

theorem plusForSpaces_cons {c : Char} (h : c ≠ '%') (rest : Text) : plusForSpaces (c :: rest) = c :: plusForSpaces rest := by
  rw [plusForSpaces.eq_2]
  intro more heq
  exact absurd heq h

theorem hexDigit_ne_percent {n : ℕ} (h : n < 16) : hexDigit n ≠ '%' := by
  intro heq
  have halnum := hexDigit_isAlphanum h
  rw [heq] at halnum
  exact absurd halnum (by decide)

theorem plusForSpaces_percentByte {b : UInt8} (h : b ≠ 0x20) (rest : Text) :
    plusForSpaces (percentByte b ++ rest) = percentByte b ++ plusForSpaces rest := by
  have hb : b.toNat < 256 := UInt8.toNat_lt b
  have hhigh : b.toNat / 16 < 16 := by omega
  have hlow : b.toNat % 16 < 16 := by omega
  have hnot : ∀ more, '%' :: hexDigit (b.toNat / 16) :: hexDigit (b.toNat % 16) :: rest ≠ '%' :: '2' :: '0' :: more := by
    intro more heq
    have hx := congrArg Number.hexValue (List.cons.inj (List.cons.inj heq).2).1
    have hy := congrArg Number.hexValue (List.cons.inj (List.cons.inj (List.cons.inj heq).2).2).1
    rw [hexValue_hexDigit hhigh, show Number.hexValue '2' = some 2 from rfl] at hx
    rw [hexValue_hexDigit hlow, show Number.hexValue '0' = some 0 from rfl] at hy
    have htwo := Option.some.inj hx
    have hzero := Option.some.inj hy
    have hspace : b.toNat = 0x20 := by omega
    exact h (UInt8.toNat_inj.mp hspace)
  change plusForSpaces ('%' :: hexDigit (b.toNat / 16) :: hexDigit (b.toNat % 16) :: rest) = _
  rw [plusForSpaces.eq_2 _ _ fun more heq hrest => hnot more (by rw [heq, hrest]),
    plusForSpaces_cons (hexDigit_ne_percent hhigh), plusForSpaces_cons (hexDigit_ne_percent hlow)]
  rfl

theorem plusForSpaces_bytes {bytes : Bytes} (h : 0x20 ∉ bytes) (rest : Text) :
    plusForSpaces (bytes.flatMap percentByte ++ rest) = bytes.flatMap percentByte ++ plusForSpaces rest := by
  induction bytes with
  | nil => rfl
  | cons b bytes ih =>
      rw [List.mem_cons, not_or] at h
      rw [List.flatMap_cons, List.append_assoc, plusForSpaces_percentByte (Ne.symm h.1), ih h.2, List.append_assoc]

/-- In an encoded text only a space is written as `%20`. -/
theorem plusForSpaces_encodeChar (c : Char) (rest : Text) :
    plusForSpaces (encodeChar c ++ rest) = (if c = ' ' then ['+'] else encodeChar c) ++ plusForSpaces rest := by
  by_cases hspace : c = ' '
  · subst hspace
    rfl
  · rw [if_neg hspace]
    unfold encodeChar
    split
    next h => exact plusForSpaces_cons (ne_percent_of_unreserved h) rest
    next =>
      apply plusForSpaces_bytes
      intro hmem
      by_cases hascii : c.toNat < 0x80
      · rw [Utf8.utf8EncodeChar_of_lt hascii, List.mem_singleton] at hmem
        have hcode := congrArg UInt8.toNat hmem
        rw [UInt8.toNat_ofNat', show (0x20 : UInt8).toNat = 0x20 from rfl] at hcode
        exact hspace (Char.toNat_inj.mp (by rw [show ' '.toNat = 0x20 from rfl]; omega))
      · exact absurd (Utf8.le_of_mem_utf8EncodeChar (by omega) hmem) (by decide)

theorem holderValue_cons (c : Char) (t : Text) :
    holderValue (c :: t) = (if c = ' ' then ['+'] else encodeChar c) ++ holderValue t := by
  rw [holderValue, encodeURIComponent, List.flatMap_cons, plusForSpaces_encodeChar]
  rfl

/-- What a plus is before a value is decoded. -/
abbrev spaceForPlus (c : Char) : Text := if c = '+' then ['%', '2', '0'] else [c]

theorem spaceForPlus_encodeChar (c : Char) : (encodeChar c).flatMap spaceForPlus = encodeChar c := by
  have hplus : ∀ d ∈ encodeChar c, spaceForPlus d = [d] := by
    intro d hd
    have hmem : d ∈ encodeURIComponent [c] := by
      rw [encodeURIComponent, List.flatMap_singleton]
      exact hd
    refine if_neg ?_
    rintro rfl
    exact absurd (mem_encodeURIComponent hmem) (by decide)
  rw [List.flatMap_congr hplus, List.flatMap_singleton']

theorem spaceForPlus_holderValue (t : Text) : (holderValue t).flatMap spaceForPlus = encodeURIComponent t := by
  induction t with
  | nil => rfl
  | cons c t ih =>
      rw [holderValue_cons, List.flatMap_append, ih]
      change _ = encodeChar c ++ encodeURIComponent t
      congr 1
      by_cases hspace : c = ' '
      · subst hspace
        rfl
      · rw [if_neg hspace, spaceForPlus_encodeChar]

/-- A value is read back. -/
theorem unholderValue_holderValue (t : Text) : unholderValue decodeURIComponent (holderValue t) = some t := by
  rw [unholderValue, spaceForPlus_holderValue, decodeURIComponent_encodeURIComponent]

/-- The characters of a token. -/
def tokenChar (c : Char) : Bool := decide (32 < c.toNat) && decide (c.toNat < 0x80)

theorem tokenChar_iff {c : Char} : tokenChar c = true ↔ 32 < c.toNat ∧ c.toNat < 0x80 := by
  rw [tokenChar, Bool.and_eq_true, decide_eq_true_eq, decide_eq_true_eq]

theorem tokenChar_of_unreserved {c : Char} (h : unreserved c = true) : tokenChar c = true :=
  tokenChar_iff.mpr (unreserved_range h)

theorem tokenChar_encodeChar {c d : Char} (h : d ∈ encodeChar c) : tokenChar d = true := by
  have hmem : d ∈ encodeURIComponent [c] := by
    rw [encodeURIComponent, List.flatMap_singleton]
    exact h
  obtain rfl | h := mem_encodeURIComponent hmem
  · decide
  · exact tokenChar_of_unreserved h

theorem tokenChar_holderValue {t : Text} {c : Char} (h : c ∈ holderValue t) : tokenChar c = true := by
  induction t with
  | nil => cases h
  | cons d t ih =>
      rw [holderValue_cons, List.mem_append] at h
      obtain h | h := h
      · split at h
        · rw [List.mem_singleton.mp h]
          decide
        · exact tokenChar_encodeChar h
      · exact ih h

end Value

/-! ### The tokens -/

/-- The values that are read. -/
def holderFields (h : ReservationHolderLine) : List (Text × Text) :=
  [("branch".toList, h.branch)] ++
    (h.pid.map fun n => ("pid".toList, Number.integerText n)).toList ++
    (h.host.map fun v => ("host".toList, v)).toList ++
    (h.startedAt.map fun v => ("started_at".toList, v)).toList ++
    (h.source.map fun v => ("source".toList, v)).toList ++
    (h.takenOverFrom.map fun v => ("taken_over_from".toList, v)).toList

/-- A key of a token. -/
def keyText (t : Text) : Bool := !t.isEmpty && t.all fun c => tokenChar c && c != '='

theorem keyText_iff {t : Text} : keyText t = true ↔ t ≠ [] ∧ ∀ c ∈ t, tokenChar c = true ∧ c ≠ '=' := by
  simp [keyText]

/-- A key that is written with a value that is read as `field`'s. -/
structure Writes (part field : Text × Text) : Prop where
  key : field.1 = part.1
  key_text : keyText part.1 = true
  value_char : ∀ c ∈ part.2, tokenChar c = true
  read : unholderValue decodeURIComponent part.2 = some field.2

theorem takeWhile_holderToken {part : Text × Text} (h : ∀ c ∈ part.1, c ≠ '=') :
    (holderToken part).takeWhile (· != '=') = part.1 := by
  unfold holderToken
  rw [List.takeWhile_append_of_pos fun c hc => by simpa using h c hc, List.takeWhile_cons_of_neg (by simp), List.append_nil]

theorem holderValues_token {part field : Text × Text} (h : Writes part field) (tokens : List Text)
    (values : List (Text × Text)) :
    holderValues decodeURIComponent (holderToken part :: tokens) values =
      holderValues decodeURIComponent tokens (field :: values) := by
  obtain ⟨hne, hchar⟩ := keyText_iff.mp h.key_text
  have hkey := takeWhile_holderToken fun c hc => (hchar c hc).2
  have hnotempty : (holderToken part).isEmpty = false := by simp [holderToken]
  have hsign : '=' ∈ holderToken part := by simp [holderToken]
  have hvalue : (holderToken part).drop (part.1.length + 1) = part.2 := by simp [holderToken]
  have hfield : (part.1, field.2) = field := Prod.ext h.key.symm rfl
  rw [holderValues, hnotempty, if_neg Bool.false_ne_true]
  simp only [hkey, hvalue, h.read]
  rw [if_neg (by simp [hne, hsign]), hfield]

theorem holderValues_tokens {parts fields : List (Text × Text)} (h : List.Forall₂ Writes parts fields)
    (values : List (Text × Text)) :
    holderValues decodeURIComponent (parts.map holderToken) values = .ok (fields.reverse ++ values) := by
  induction h generalizing values with
  | nil => rfl
  | cons hwrites _ ih =>
      rw [List.map_cons, holderValues_token hwrites, ih, List.reverse_cons, List.append_assoc]
      rfl

/-- A process id as doubles have it, and that is written without an exponent. -/
def PlainPid (n : ℤ) : Prop := Number.toDouble n = some (n : ℚ) ∧ n.natAbs < 10 ^ 21

theorem writes_value {key value : Text} (hkey : keyText key = true) : Writes (key, holderValue value) (key, value) :=
  ⟨rfl, hkey, fun _ hc => tokenChar_holderValue hc, unholderValue_holderValue value⟩

theorem writes_pid {n : ℤ} (h : PlainPid n) : Writes ("pid".toList, Number.integerText n) ("pid".toList, Number.integerText n) := by
  have hdigit : ∀ c ∈ Number.integerText n, c ≠ '+' ∧ c ≠ '%' ∧ tokenChar c = true := by
    intro c hc
    obtain rfl | hd := Number.mem_integerText_of_lt h.2 hc
    · decide
    · have hrange := Number.isDigit_range hd
      refine ⟨?_, ?_, tokenChar_iff.mpr ⟨by omega, by omega⟩⟩
      · rintro rfl
        exact absurd hrange (by decide)
      · rintro rfl
        exact absurd hrange (by decide)
  refine ⟨rfl, rfl, fun c hc => (hdigit c hc).2.2, ?_⟩
  have hsame : ∀ c ∈ Number.integerText n, spaceForPlus c = [c] := fun c hc => if_neg (hdigit c hc).1
  rw [unholderValue, List.flatMap_congr hsame, List.flatMap_singleton',
    decodeURIComponent_of_not_mem fun hmem => (hdigit _ hmem).2.1 rfl]

theorem forall₂_toList {α β : Type*} {R : β → β → Prop} {f g : α → β} {o : Option α} (h : ∀ a ∈ o, R (f a) (g a)) :
    List.Forall₂ R (o.map f).toList (o.map g).toList := by
  cases o with
  | none => exact List.Forall₂.nil
  | some a => exact List.Forall₂.cons (h a rfl) List.Forall₂.nil

theorem writes_holderParts {h : ReservationHolderLine} (hpid : ∀ n ∈ h.pid, PlainPid n) :
    List.Forall₂ Writes (holderParts h) (holderFields h) := by
  have hbranch : List.Forall₂ Writes [("branch".toList, holderValue h.branch)] [("branch".toList, h.branch)] :=
    .cons (writes_value rfl) .nil
  unfold holderParts holderFields
  refine List.rel_append (List.rel_append (List.rel_append (List.rel_append (List.rel_append hbranch ?_) ?_) ?_) ?_) ?_
  · exact forall₂_toList fun n hn => writes_pid (hpid n hn)
  · exact forall₂_toList fun _ _ => writes_value rfl
  · exact forall₂_toList fun _ _ => writes_value rfl
  · exact forall₂_toList fun _ _ => writes_value rfl
  · exact forall₂_toList fun _ _ => writes_value rfl

/-! ### The line -/

theorem tokenChar_token {part field : Text × Text} (h : Writes part field) {c : Char} (hc : c ∈ holderToken part) :
    tokenChar c = true := by
  rw [holderToken, List.mem_append, List.mem_cons] at hc
  obtain hc | rfl | hc := hc
  · exact ((keyText_iff.mp h.key_text).2 c hc).1
  · decide
  · exact h.value_char c hc

theorem not_space_of_tokenChar {c : Char} (h : tokenChar c = true) : Text.jsSpace c = false := by
  have hrange := tokenChar_iff.mp h
  simp only [Text.jsSpace, Bool.or_eq_false_iff, Bool.and_eq_false_iff, decide_eq_false_iff_not, beq_eq_false_iff_ne]
  omega

theorem tokens_of_writes {parts fields : List (Text × Text)} (h : List.Forall₂ Writes parts fields) :
    ∀ token ∈ parts.map holderToken, token ≠ [] ∧ ∀ c ∈ token, tokenChar c = true := by
  intro token htoken
  obtain ⟨part, hpart, rfl⟩ := List.mem_map.mp htoken
  obtain ⟨i, hi, rfl⟩ := List.getElem_of_mem hpart
  have hwrites := (List.forall₂_iff_get.mp h).2 i hi (by rw [← h.length_eq]; exact hi)
  exact ⟨by simp [holderToken], fun c hc => tokenChar_token hwrites hc⟩

/-- Texts without white space, joined by a blank, are trimmed. -/
theorem trim_join {ts : List Text} (h : ∀ t ∈ ts, t ≠ [] ∧ ∀ c ∈ t, Text.jsSpace c = false) :
    Text.trim (Text.join [' '] ts) = Text.join [' '] ts ∧ (ts ≠ [] → Text.join [' '] ts ≠ []) := by
  have htrim : ∀ t ∈ ts, Text.trim t = t := fun t ht => Number.trim_of_not_space (h t ht).2
  induction ts with
  | nil => exact ⟨rfl, fun hne => absurd rfl hne⟩
  | cons t ts ih =>
      cases ts with
      | nil =>
          have hjoin : Text.join [' '] [t] = t := by simp [Text.join]
          rw [hjoin]
          exact ⟨htrim t List.mem_cons_self, fun _ => (h t List.mem_cons_self).1⟩
      | cons u ts =>
          obtain ⟨hrest, hne⟩ := ih (fun v hv => h v (List.mem_cons_of_mem t hv))
            fun v hv => htrim v (List.mem_cons_of_mem t hv)
          rw [Text.join_cons_cons]
          have hu := hne (List.cons_ne_nil u ts)
          exact ⟨Text.trim_append_append [' '] (htrim t List.mem_cons_self) hrest (h t List.mem_cons_self).1 hu,
            fun _ => by simp⟩

theorem lookup_toList {α : Type*} (key key' : Text) (f : α → Text) (o : Option α) :
    (o.map fun a => (key', f a)).toList.lookup key = if key = key' then o.map f else none := by
  cases o with
  | none => simp
  | some a =>
      by_cases hkey : key = key'
      · simp [hkey]
      · simp [hkey, beq_eq_false_iff_ne.mpr hkey]

theorem reverse_toList {α : Type*} (o : Option α) : o.toList.reverse = o.toList := by cases o <;> rfl

theorem integerNumber_integerText {n : ℤ} (h : PlainPid n) : integerNumber (Number.integerText n) = some n := by
  rw [integerNumber, Number.number_integerText h.1]
  simp

/-- What is read from the values of a holder. -/
theorem lookup_holderFields (h : ReservationHolderLine) :
    (holderFields h).reverse.lookup "branch".toList = some h.branch ∧
      (holderFields h).reverse.lookup "pid".toList = h.pid.map Number.integerText ∧
      (holderFields h).reverse.lookup "host".toList = h.host ∧
      (holderFields h).reverse.lookup "started_at".toList = h.startedAt ∧
      (holderFields h).reverse.lookup "source".toList = h.source ∧
      (holderFields h).reverse.lookup "taken_over_from".toList = h.takenOverFrom := by
  have hvalue : ∀ (key key' : Text) (o : Option Text),
      (o.map fun v => (key', v)).toList.lookup key = if key = key' then o else none := by
    intro key key' o
    have h := lookup_toList key key' id o
    rwa [Option.map_id] at h
  have hbranch : [("branch".toList, h.branch)] = ((some h.branch).map fun v => ("branch".toList, v)).toList := rfl
  unfold holderFields
  rw [hbranch]
  simp only [List.reverse_append, reverse_toList, List.lookup_append, hvalue, lookup_toList]
  refine ⟨?_, ?_, ?_, ?_, ?_, ?_⟩ <;> simp +decide only [if_true, if_false, Option.or_none, Option.none_or]

/-- The line that `find` takes. -/
theorem parse_of_find {message : Text} {h : ReservationHolderLine}
    (hfind : (messageLines message).find? (holderPrefix.isPrefixOf ·) = some (formatReservationHolderLine h))
    (hbranch : h.branch ≠ [] ∧ h.branch ≠ "unknown".toList) (hpid : ∀ n ∈ h.pid, PlainPid n) :
    parseHolder message = .known h := by
  have hparts := writes_holderParts hpid
  have htokens := tokens_of_writes hparts
  have hne : (holderParts h).map holderToken ≠ [] := by simp [holderParts]
  have hdrop : (formatReservationHolderLine h).drop holderPrefix.length = Text.join [' '] ((holderParts h).map holderToken) := by
    rw [formatReservationHolderLine, List.drop_left]
  have htrim := (trim_join fun t ht => ⟨(htokens t ht).1, fun c hc => not_space_of_tokenChar ((htokens t ht).2 c hc)⟩).1
  have hsplit : Text.splitBy (fun c => c == ' ' || c == '\t') (Text.join [' '] ((holderParts h).map holderToken)) =
      (holderParts h).map holderToken := by
    refine Text.splitBy_join rfl hne fun t ht c hc => ?_
    have hrange := tokenChar_iff.mp ((htokens t ht).2 c hc)
    rw [Bool.or_eq_false_iff, beq_eq_false_iff_ne, beq_eq_false_iff_ne]
    constructor
    · rintro rfl
      exact absurd hrange.1 (by decide)
    · rintro rfl
      exact absurd hrange.1 (by decide)
  obtain ⟨hfbranch, hfpid, hfhost, hfat, hfsource, hffrom⟩ := lookup_holderFields h
  have hread : (h.pid.map Number.integerText).bind integerNumber = h.pid := by
    cases hp : h.pid with
    | none => rfl
    | some n => exact integerNumber_integerText (hpid n hp)
  unfold parseHolder parseReservationHolderLine
  simp only [hfind, hdrop, htrim, hsplit, holderValues_tokens hparts, List.append_nil, hfbranch, hfpid, hfhost, hfat,
    hfsource, hffrom, hread]
  rw [if_neg (by simpa using hbranch), if_neg]
  rintro ⟨hsome, hnone⟩
  simp [Option.isNone_iff_eq_none.mp hnone] at hsome

/-! ### The messages -/

theorem lines_of_not_mem {t : Text} (h : '\n' ∉ t) : Text.splitBy (· == '\n') t = [t] :=
  Text.splitBy_of_not_sep fun _ hc => beq_eq_false_iff_ne.mpr fun heq => h (heq ▸ hc)

theorem mem_join {ts : List Text} {c : Char} (h : c ∈ Text.join [' '] ts) : c = ' ' ∨ ∃ t ∈ ts, c ∈ t := by
  induction ts with
  | nil => cases h
  | cons t ts ih =>
      cases ts with
      | nil => exact .inr ⟨t, List.mem_cons_self, by simpa [Text.join] using h⟩
      | cons u ts =>
          rw [Text.join_cons_cons, List.mem_append, List.mem_append, List.mem_singleton] at h
          obtain (h | h) | h := h
          · exact .inr ⟨t, List.mem_cons_self, h⟩
          · exact .inl h
          · obtain hblank | ⟨v, hv, hc⟩ := ih h
            · exact .inl hblank
            · exact .inr ⟨v, List.mem_cons_of_mem t hv, hc⟩

theorem newline_not_mem_format {h : ReservationHolderLine} (hpid : ∀ n ∈ h.pid, PlainPid n) :
    '\n' ∉ formatReservationHolderLine h := by
  have htokens := tokens_of_writes (writes_holderParts hpid)
  rw [formatReservationHolderLine, List.mem_append, not_or]
  refine ⟨by decide, fun hmem => ?_⟩
  obtain hblank | ⟨t, ht, hmem⟩ := mem_join hmem
  · exact absurd hblank (by decide)
  · exact absurd ((htokens t ht).2 _ hmem) (by decide)

/-- The lines of a subject, an empty line and a last line. -/
theorem messageLines_append {subject line : Text} (h : '\n' ∉ line) :
    ∃ lines, messageLines (subject ++ "\n\n".toList ++ line) = lines ++ [[], line] ∧
      ∀ l ∈ lines, ∃ line ∈ Text.splitBy (· == '\n') subject, l <+: line := by
  have hsplit : Text.splitBy (· == '\n') (subject ++ "\n\n".toList ++ line) =
      Text.splitBy (· == '\n') subject ++ [[], line] := by
    rw [List.append_assoc]
    change Text.splitBy (· == '\n') (subject ++ '\n' :: '\n' :: line) = _
    rw [Text.splitBy_append_cons_sep (by rfl), Text.splitBy_cons_of_sep (by rfl), lines_of_not_mem h]
  unfold messageLines
  simp only [hsplit, List.mapIdx_append, List.mapIdx_cons, List.mapIdx_nil]
  refine ⟨_, congrArg₂ (· ++ ·) rfl ?_, fun l hl => ?_⟩
  · simp
  · obtain ⟨i, hi, rfl⟩ := List.mem_mapIdx.mp hl
    refine ⟨_, List.getElem_mem hi, ?_⟩
    split
    · exact List.dropLast_prefix _
    · exact List.prefix_refl _

theorem find_append {subject : Text} {h : ReservationHolderLine} (hpid : ∀ n ∈ h.pid, PlainPid n)
    (hsubject : ∀ l ∈ Text.splitBy (· == '\n') subject, ¬holderPrefix <+: l) :
    (messageLines (subject ++ "\n\n".toList ++ formatReservationHolderLine h)).find? (holderPrefix.isPrefixOf ·) =
      some (formatReservationHolderLine h) := by
  obtain ⟨lines, hlines, hstarts⟩ := @messageLines_append subject _ (newline_not_mem_format hpid)
  have hnone : lines.find? (holderPrefix.isPrefixOf ·) = none := by
    rw [List.find?_eq_none]
    intro l hl hmarked
    obtain ⟨line, hline, hle⟩ := hstarts l hl
    exact hsubject line hline ((List.isPrefixOf_iff_prefix.mp hmarked).trans hle)
  have hlast : holderPrefix.isPrefixOf (formatReservationHolderLine h) = true :=
    List.isPrefixOf_iff_prefix.mpr (List.prefix_append _ _)
  rw [hlines, List.find?_append, hnone, Option.none_or, List.find?_cons_of_neg (by decide), List.find?_cons_of_pos hlast]

/-- A subject begins with a word that no holder line begins with. -/
theorem subject_lines {word lead raw : Text} (hword : ¬word <+: holderPrefix ∧ ¬holderPrefix <+: word)
    (hlead : '\n' ∉ word ++ lead) (hraw : ∀ l ∈ (Text.splitBy (· == '\n') raw).tail, ¬holderPrefix <+: l) :
    ∀ l ∈ Text.splitBy (· == '\n') (word ++ lead ++ raw), ¬holderPrefix <+: l := by
  obtain ⟨piece, pieces, hpieces, hsplit⟩ := Text.splitBy_append_of_not_sep (p := (· == '\n'))
    (fun c hc => beq_eq_false_iff_ne.mpr fun heq => hlead (heq ▸ hc)) raw
  rw [hsplit]
  intro l hl
  obtain rfl | hl := List.mem_cons.mp hl
  · intro hstarts
    rw [List.append_assoc] at hstarts
    obtain h | h := List.prefix_or_prefix_of_prefix hstarts (List.prefix_append word _)
    · exact hword.2 h
    · exact hword.1 h
  · exact hraw l (by rw [hpieces]; exact hl)

theorem newline_not_mem_toISOString (ms : ℤ) : '\n' ∉ toISOString ms := by
  intro h
  obtain h | h := isDigit_or_mem_of_mem_toISOString h
  · exact absurd h (by decide)
  · exact absurd h (by decide)

theorem newline_not_mem_reservationWho {h : ReservationHolderLine} (hpid : ∀ n ∈ h.pid, PlainPid n)
    (hbranch : '\n' ∉ h.branch) (hhost : ∀ host ∈ h.host, '\n' ∉ host) : '\n' ∉ reservationWho h := by
  unfold reservationWho
  split
  next pid host hp hh =>
    split
    · exact hbranch
    · rw [List.mem_append, List.mem_cons, not_or, not_or]
      refine ⟨fun hmem => ?_, by decide, hhost host hh⟩
      exact absurd (Number.mem_integerText_of_lt (hpid pid hp).2 hmem) (by decide)
  next => exact hbranch

/-- A holder is read back from its line, and from a message whose subject does not hold another holder line. -/
theorem parseHolder_format (nowMs : ℤ) (taskId : Text) (h : ReservationHolderLine)
    (hbranch : h.branch ≠ [] ∧ h.branch ≠ "unknown".toList) (hpid : ∀ n ∈ h.pid, PlainPid n) :
    parseHolder (formatReservationHolderLine h) = .known h ∧
      ('\n' ∉ h.branch → (∀ host ∈ h.host, '\n' ∉ host) →
        (∀ time ∈ h.startedAt, ∀ l ∈ (Text.splitBy (· == '\n') time).tail, ¬holderPrefix <+: l) →
        parseHolder (formatReservationAnchorMessage nowMs h) = .known h) ∧
      ((∀ l ∈ (Text.splitBy (· == '\n') (taskId ++ ' ' :: h.branch)).tail, ¬holderPrefix <+: l) →
        parseHolder (formatHandMintReservationMessage taskId h) =
          .known { h with source := some (h.source.getD "hand-mint".toList) }) := by
  refine ⟨?_, ?_, ?_⟩
  · refine parse_of_find ?_ hbranch hpid
    have hsplit := lines_of_not_mem (newline_not_mem_format hpid)
    have hmarked : holderPrefix.isPrefixOf (formatReservationHolderLine h) = true :=
      List.isPrefixOf_iff_prefix.mpr (List.prefix_append _ _)
    simp [messageLines, hsplit, hmarked]
  · intro hline hhost hat
    refine parse_of_find (find_append hpid ?_) hbranch hpid
    rw [show "rmd-id reservation ".toList ++ reservationWho h ++ ' ' :: h.startedAt.getD (toISOString nowMs) =
      ("rmd-id reservation ".toList ++ (reservationWho h ++ [' '])) ++ h.startedAt.getD (toISOString nowMs) by simp]
    refine subject_lines (by decide) ?_ ?_
    · have hwho := newline_not_mem_reservationWho hpid hline hhost
      rw [List.mem_append, List.mem_append, List.mem_singleton, not_or, not_or]
      exact ⟨by decide, hwho, by decide⟩
    · cases htime : h.startedAt with
      | none =>
          rw [Option.getD_none, lines_of_not_mem (newline_not_mem_toISOString nowMs)]
          exact fun l hl => absurd hl List.not_mem_nil
      | some time => exact hat time htime
  · intro hsubject
    refine parse_of_find (h := { h with source := some (h.source.getD "hand-mint".toList) })
      (find_append (h := { h with source := some (h.source.getD "hand-mint".toList) }) hpid ?_) hbranch hpid
    rw [show "reserve ".toList ++ taskId ++ ' ' :: h.branch = "reserve ".toList ++ [] ++ (taskId ++ ' ' :: h.branch) by simp]
    exact subject_lines (by decide) (by decide) hsubject

/-- A holder with blanks, signs and a line break. -/
def oddHolder : ReservationHolderLine :=
  ⟨"a b+c=%".toList, some 4711, some "höst".toList, some "now\nor never".toList, none, some "x".toList⟩

theorem oddHolder_read :
    parseHolder (formatReservationHolderLine oddHolder) = .known oddHolder ∧
      parseHolder (formatReservationAnchorMessage 0 oddHolder) = .known oddHolder ∧
      parseHolder (formatHandMintReservationMessage "W1-T1".toList oddHolder) =
        .known { oddHolder with source := some "hand-mint".toList } := by
  have hpid : ∀ n ∈ oddHolder.pid, PlainPid n := by
    intro n hn
    obtain rfl := Option.some.inj hn
    exact ⟨by decide +kernel, by decide⟩
  have hread := parseHolder_format 0 "W1-T1".toList oddHolder (by decide) hpid
  exact ⟨hread.1, hread.2.1 (by decide) (by decide) (by decide), hread.2.2 (by decide)⟩

/-- 10^21 is written as `1e+21`; a time and a task id may bring a holder line of their own. -/
theorem holder_misread :
    parseHolder (formatReservationHolderLine ⟨['a'], some (10 ^ 21), none, none, none, none⟩) ≠
        .known ⟨['a'], some (10 ^ 21), none, none, none, none⟩ ∧
      parseHolder (formatReservationAnchorMessage 0
          ⟨['a'], none, none, some "x\nrmd-id holder branch=b".toList, none, none⟩) ≠
        .known ⟨['a'], none, none, some "x\nrmd-id holder branch=b".toList, none, none⟩ ∧
      parseHolder (formatHandMintReservationMessage "x\nrmd-id holder branch=b\n".toList ⟨['a'], none, none, none, none, none⟩) ≠
        .known ⟨['a'], none, none, none, some "hand-mint".toList, none⟩ := by
  refine ⟨?_, ?_, ?_⟩
  · decide +kernel
  · decide +kernel
  · decide +kernel

end Remudero.TaskId
