import Remudero.Ledger.Compact
import Remudero.Lib.Lines

/-! # The parts of an archive

`splitArchiveBody` of `lib/ledger-compact.ts` cuts the body of an archive between rows, so that no part is over the
ceiling.  The loop counts the bytes of the open part; `Parted` says what the parts are of the rows, and
`splitRows_parted` follows it through the loop.

* `splitArchiveBody_parted`: a row that is over the ceiling by itself is an error, and otherwise the parts are the
  body, in order, each cut only where the next row did not fit. -/

namespace Remudero.Ledger

open Remudero.Lib

variable {maxArchiveBytes : ℕ} {rows current parts : List Text} {row : Text}

/-- The rows of a body. -/
def bodyRows (body : Text) : List Text :=
  Text.splitBy (· == '\n') (if Text.endsWith body "\n" then body.dropLast else body)

/-- The body, with a line feed added if it does not end in one. -/
def closedBody (body : Text) : Text := if Text.endsWith body "\n" then body else body ++ ['\n']

/-- The row that a part begins with. -/
def firstRow (part : Text) : Text := part.takeWhile (· != '\n')

/-- The rows, each with its line feed. -/
def closedRows (rows : List Text) : Text := rows.flatMap (· ++ ['\n'])

/-- The size of a row with its line feed. -/
def rowSize (row : Text) : ℕ := Text.byteLength row + 1

def ceilingError (maxArchiveBytes : ℕ) (row : Text) : Text :=
  "one ledger row is ".toList ++ Nat.toDigits 10 (rowSize row) ++ " bytes, over the ".toList ++
    Nat.toDigits 10 maxArchiveBytes ++ "-byte archive ceiling".toList

theorem bodyOf_eq_closedRows (h : rows ≠ []) : bodyOf rows = closedRows rows := by
  induction rows with
  | nil => exact absurd rfl h
  | cons row rows ih =>
      cases rows with
      | nil => simp [bodyOf, closedRows, Text.join]
      | cons next rows =>
          have hrest := ih (List.cons_ne_nil _ _)
          unfold bodyOf at hrest ⊢
          rw [Text.join_cons_cons, List.append_assoc, hrest]
          rfl

theorem byteLength_closedRows (rows : List Text) : Text.byteLength (closedRows rows) = (rows.map rowSize).sum := by
  induction rows with
  | nil => rfl
  | cons row rows ih =>
      have hcons : closedRows (row :: rows) = row ++ ['\n'] ++ closedRows rows := List.flatMap_cons
      rw [hcons, Text.byteLength_append, Text.byteLength_append, ih, List.map_cons, List.sum_cons]
      rfl

theorem firstRow_closedRows (h : '\n' ∉ row) (rows : List Text) : firstRow (closedRows (row :: rows)) = row := by
  have hcons : closedRows (row :: rows) = row ++ '\n' :: closedRows rows := by simp [closedRows]
  rw [hcons, firstRow, List.takeWhile_append_of_pos]
  · simp
  · intro c hc
    rw [bne_iff_ne]
    rintro rfl
    exact h hc

theorem closedRows_getLast? (h : rows ≠ []) : (closedRows rows).getLast? = some '\n' := by
  rw [← bodyOf_eq_closedRows h, bodyOf, List.getLast?_concat]

/-- The parts hold the rows in order, no part is over the ceiling, and a part ends only where the row after it did not
fit. -/
structure Parted (maxArchiveBytes : ℕ) (rows parts : List Text) : Prop where
  whole : parts.flatten = closedRows rows
  bounded : ∀ part ∈ parts, part ≠ [] ∧ Text.byteLength part ≤ maxArchiveBytes ∧ part.getLast? = some '\n'
  full : parts.IsChain fun part next => maxArchiveBytes < Text.byteLength part + rowSize (firstRow next)
  first : parts.head?.map firstRow = rows.head?

theorem parted_nil : Parted maxArchiveBytes [] [] where
  whole := rfl
  bounded := nofun
  full := .nil
  first := rfl

/-- A part in front of the parts of the rows after it. -/
theorem Parted.cons (hcurrent : current ≠ []) (hlines : ∀ row ∈ current, '\n' ∉ row)
    (hbytes : (current.map rowSize).sum ≤ maxArchiveBytes) (h : Parted maxArchiveBytes rows parts)
    (hfull : ∀ row ∈ rows.head?, maxArchiveBytes < (current.map rowSize).sum + rowSize row) :
    Parted maxArchiveBytes (current ++ rows) (bodyOf current :: parts) := by
  obtain ⟨row, rest, rfl⟩ := List.exists_cons_of_ne_nil hcurrent
  rw [bodyOf_eq_closedRows hcurrent]
  refine ⟨?_, ?_, ?_, ?_⟩
  · rw [List.flatten_cons, h.whole]
    exact List.flatMap_append.symm
  · rintro part (_ | ⟨_, hpart⟩)
    · refine ⟨?_, ?_, closedRows_getLast? hcurrent⟩
      · simp [closedRows]
      · rwa [byteLength_closedRows]
    · exact h.bounded part hpart
  · cases parts with
    | nil => exact .singleton _
    | cons next parts =>
        have hfirst : rows.head? = some (firstRow next) := h.first.symm
        refine List.IsChain.cons_cons ?_ h.full
        rw [byteLength_closedRows]
        exact hfull (firstRow next) (by rw [hfirst]; rfl)
  · show some (firstRow _) = some row
    rw [firstRow_closedRows (hlines row List.mem_cons_self)]

theorem parted_singleton (hcurrent : current ≠ []) (hlines : ∀ row ∈ current, '\n' ∉ row)
    (hbytes : (current.map rowSize).sum ≤ maxArchiveBytes) : Parted maxArchiveBytes current [bodyOf current] := by
  have hcons := Parted.cons hcurrent hlines hbytes parted_nil (by simp)
  rwa [List.append_nil] at hcons

/-- The loop over the rows.  `current` is the open part, which is not over the ceiling. -/
theorem splitRows_parted (rows current : List Text) (hlines : ∀ row ∈ current ++ rows, '\n' ∉ row)
    (hbytes : (current.map rowSize).sum ≤ maxArchiveBytes) :
    (∃ row ∈ rows, maxArchiveBytes < rowSize row ∧
      splitRows maxArchiveBytes rows current (current.map rowSize).sum = .error (ceilingError maxArchiveBytes row)) ∨
    ∃ parts, splitRows maxArchiveBytes rows current (current.map rowSize).sum = .ok parts ∧
      Parted maxArchiveBytes (current ++ rows) parts := by
  induction rows generalizing current with
  | nil =>
      right
      rw [List.append_nil] at hlines ⊢
      by_cases hcurrent : current = []
      · subst hcurrent
        exact ⟨[], by simp [splitRows], parted_nil⟩
      · exact ⟨[bodyOf current], by simp [splitRows, hcurrent], parted_singleton hcurrent hlines hbytes⟩
  | cons row rest ih =>
      have hcurrentLines : ∀ row ∈ current, '\n' ∉ row := fun r hr => hlines r (List.mem_append_left _ hr)
      have hrestLines : ∀ r ∈ row :: rest, '\n' ∉ r := fun r hr => hlines r (List.mem_append_right _ hr)
      by_cases hover : maxArchiveBytes < rowSize row
      · left
        refine ⟨row, List.mem_cons_self, hover, ?_⟩
        rw [splitRows]
        exact if_pos hover
      by_cases hcut : current ≠ [] ∧ maxArchiveBytes < (current.map rowSize).sum + rowSize row
      · -- the row opens the next part
        have hopen : (([row] : List Text).map rowSize).sum = rowSize row := by simp
        have hstep : splitRows maxArchiveBytes (row :: rest) current (current.map rowSize).sum =
            (splitRows maxArchiveBytes rest [row] (([row] : List Text).map rowSize).sum).map (bodyOf current :: ·) := by
          rw [hopen, splitRows]
          exact (if_neg hover).trans (if_pos hcut)
        rw [hstep]
        obtain ⟨r, hr, hlarge, herror⟩ | ⟨parts, hok, hparted⟩ :=
          ih [row] hrestLines (by rw [hopen]; exact Nat.le_of_not_lt hover)
        · left
          exact ⟨r, List.mem_cons_of_mem row hr, hlarge, by rw [herror]; rfl⟩
        · right
          refine ⟨bodyOf current :: parts, by rw [hok]; rfl, ?_⟩
          refine Parted.cons hcut.1 hcurrentLines hbytes hparted ?_
          rintro r hr
          obtain rfl := Option.some.inj hr
          exact hcut.2
      · -- the row goes on with the open part
        have hsum : ((current ++ [row]).map rowSize).sum = (current.map rowSize).sum + rowSize row := by simp
        have hstep : splitRows maxArchiveBytes (row :: rest) current (current.map rowSize).sum =
            splitRows maxArchiveBytes rest (current ++ [row]) ((current ++ [row]).map rowSize).sum := by
          rw [hsum, splitRows]
          exact (if_neg hover).trans (if_neg hcut)
        have hfits : ((current ++ [row]).map rowSize).sum ≤ maxArchiveBytes := by
          rw [hsum]
          by_cases hcurrent : current = []
          · subst hcurrent
            simpa using Nat.le_of_not_lt hover
          · exact Nat.le_of_not_lt fun hlt => hcut ⟨hcurrent, hlt⟩
        have happend : current ++ row :: rest = current ++ [row] ++ rest := by simp
        rw [hstep, happend]
        rw [happend] at hlines
        obtain ⟨r, hr, hlarge, herror⟩ | hok := ih (current ++ [row]) hlines hfits
        · left
          exact ⟨r, List.mem_cons_of_mem row hr, hlarge, herror⟩
        · right
          exact hok

theorem closedRows_bodyRows (body : Text) : closedRows (bodyRows body) = closedBody body := by
  have hrows : bodyRows body ≠ [] := Text.splitBy_ne_nil _ _
  rw [← bodyOf_eq_closedRows hrows, bodyOf, bodyRows, Text.join_splitBy, closedBody]
  split
  next hends =>
    obtain ⟨front, rfl⟩ := List.isSuffixOf_iff_suffix.mp hends
    have hnewline : "\n".toList = ['\n'] := rfl
    rw [hnewline, List.dropLast_concat]
  next => rfl

/-- Only the empty text and a single line feed have no row. -/
theorem bodyRows_ne (body : Text) (hempty : body ≠ []) (hnewline : body ≠ ['\n']) : bodyRows body ≠ [[]] := by
  intro hrows
  have hclosed := closedRows_bodyRows body
  rw [hrows] at hclosed
  have hbody : closedBody body = ['\n'] := hclosed.symm
  unfold closedBody at hbody
  split at hbody
  next => exact hnewline hbody
  next => exact hempty (List.append_eq_cons_iff.mp hbody |>.resolve_right (by rintro ⟨t, rfl, ht⟩; simp at ht)).1

/-- A body other than the empty text and a single line feed is refused because of a row that is over the ceiling with
its line feed, or it is cut into parts that are not empty, end in a line feed, are not over the ceiling and give the
closed body back; and the first row of each later part did not fit into the part before it. -/
theorem splitArchiveBody_parted (maxArchiveBytes : ℕ) (body : Text) (hempty : body ≠ []) (hnewline : body ≠ ['\n']) :
    (∃ row ∈ bodyRows body, maxArchiveBytes < rowSize row ∧
      splitArchiveBody maxArchiveBytes body = .error (ceilingError maxArchiveBytes row)) ∨
    ∃ parts, splitArchiveBody maxArchiveBytes body = .ok parts ∧ parts.flatten = closedBody body ∧
      (∀ part ∈ parts, part ≠ [] ∧ Text.byteLength part ≤ maxArchiveBytes ∧ part.getLast? = some '\n') ∧
      parts.IsChain fun part next => maxArchiveBytes < Text.byteLength part + rowSize (firstRow next) := by
  have hsplit : splitArchiveBody maxArchiveBytes body = splitRows maxArchiveBytes (bodyRows body) [] 0 :=
    if_neg (bodyRows_ne body hempty hnewline)
  have hlines : ∀ row ∈ [] ++ bodyRows body, '\n' ∉ row := by
    intro row hrow hmem
    have hsep := Text.not_sep_of_mem_splitBy hrow '\n' hmem
    simp at hsep
  rw [hsplit, ← closedRows_bodyRows]
  obtain hover | ⟨parts, hok, hparted⟩ := splitRows_parted (bodyRows body) [] hlines (Nat.zero_le maxArchiveBytes)
  · exact .inl hover
  · exact .inr ⟨parts, hok, hparted.whole, hparted.bounded, hparted.full⟩

/-- Two rows of three bytes and an empty one under a ceiling of five bytes. -/
theorem three_rows_parted :
    splitArchiveBody 5 "é\n\nab".toList = .ok ["é\n\n".toList, "ab\n".toList] ∧
      ((∃ row ∈ bodyRows "é\n\nab".toList, 5 < rowSize row ∧
        splitArchiveBody 5 "é\n\nab".toList = .error (ceilingError 5 row)) ∨
      ∃ parts, splitArchiveBody 5 "é\n\nab".toList = .ok parts ∧ parts.flatten = closedBody "é\n\nab".toList ∧
        (∀ part ∈ parts, part ≠ [] ∧ Text.byteLength part ≤ 5 ∧ part.getLast? = some '\n') ∧
        parts.IsChain fun part next => 5 < Text.byteLength part + rowSize (firstRow next)) :=
  ⟨by rfl, splitArchiveBody_parted 5 "é\n\nab".toList (by decide) (by decide)⟩

end Remudero.Ledger
