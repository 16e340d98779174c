import Remudero.Lib.Json
import Remudero.Lib.Lines
import Remudero.Lib.NumberText
import Remudero.Lib.Vlq

/-! # Spans of a source map

`decodeMappings`, `placeMap` and `mappedSpan` of `lib/test-impact-map.ts`.  The mappings of a source map are segments of
one, four or five fields, line by line, each field written as its difference from the last one of its kind.  A placed map has
the segments with an original position in the order of their offsets in the generated text, and answers for a range of
offsets with the first and the last original line of the segments inside it.  Answers are kept by the text of the range.

`encodeMappings` writes segments as the format has it.  `decodeMappings_encodeMappings` reads them back, and
`mappedSpan_exact` is about every sequence of questions to the map of written segments. -/

namespace Remudero.Suites

open Remudero.Lib

/-! ### Decoding -/

/-- The variables of `decodeMappings`; `done` and `line` are its `lines`, and a `state` is never read beyond its five
entries, for of a segment only the fields 0 and 2 are read. -/
structure Decoding where
  done : List (List (ℤ × ℤ))
  line : List (ℤ × ℤ)
  state : ℕ → ℤ
  field : ℕ
  col : ℤ
  value : ℤ
  shift : ℕ
  segment : List ℤ

namespace Decoding

def start : Decoding := ⟨[], [], fun _ => 0, 0, 0, 0, 0, []⟩

def endSegment (d : Decoding) : Decoding :=
  { d with
    line := if 4 ≤ d.segment.length then d.line ++ [(d.segment.getD 0 0, d.segment.getD 2 0)] else d.line
    segment := []
    field := 0 }

/-- The last digit of a field. -/
def endField (d : Decoding) (value : ℤ) : Decoding :=
  let decoded := if toInt32 value % 2 = 1 then -(toInt32 value / 2) else toInt32 value / 2
  let state := Function.update d.state d.field (d.state d.field + decoded)
  let col := if d.field = 0 then state 0 else d.col
  { d with
    value := 0
    shift := 0
    state := state
    col := col
    segment := d.segment ++ [if d.field = 0 then col else state d.field]
    field := d.field + 1 }

/-- One character, or the error that is thrown. -/
def read (d : Decoding) (ch : Char) : Except Text Decoding :=
  if ch = ';' then
    .ok { d.endSegment with
      done := d.endSegment.done ++ [d.endSegment.line]
      line := []
      col := 0
      state := Function.update d.endSegment.state 0 0 }
  else if ch = ',' then .ok d.endSegment
  else match Vlq.base64.idxOf? ch with
    | none => .error ("source map: invalid base64 character ".toList ++ Json.quote [ch])
    | some digit =>
        let value := d.value + toInt32 ((digit % 32 : ℕ) * 2 ^ (d.shift % 32))
        if digit / 32 % 2 = 1 then .ok { d with value := value, shift := d.shift + 5 } else .ok (d.endField value)

end Decoding

def decodeMappings (mappings : Text) : Except Text (List (List (ℤ × ℤ))) :=
  (mappings.foldlM Decoding.read Decoding.start).map fun d => d.endSegment.done ++ [d.endSegment.line]

/-! ### Placing -/

/-- Where the lines start, the first of them at `start`. -/
def lineStartsFrom (start : ℕ) : List ℕ → List ℕ
  | [] => []
  | len :: lens => start :: lineStartsFrom (start + (len + 1)) lens

def lineStarts (lineLengths : List ℕ) : List ℕ := lineStartsFrom 0 lineLengths

structure PlacedMap where
  offsets : List ℤ
  orig : List ℤ
  spans : List (Text × Option (ℤ × ℤ))

/-- The segments at their offsets, in the order of the mappings. -/
def placedPairs (starts : List ℕ) (decoded : List (List (ℤ × ℤ))) : List (ℤ × ℤ) :=
  (starts.zip decoded).flatMap fun line => line.2.map fun pair => (line.1 + pair.1, pair.2)

def placeMap (lineLengths : List ℕ) (mappings : Text) : Except Text PlacedMap :=
  (decodeMappings mappings).map fun decoded =>
    let pairs := (placedPairs (lineStarts lineLengths) decoded).mergeSort fun a b => decide (a.1 ≤ b.1)
    { offsets := pairs.map fun p => toInt32 p.1
      orig := pairs.map fun p => toInt32 p.2
      spans := [] }

/-! ### Asking -/

/-- The binary search: the first index from `i` on whose offset is not below `start`.  Mappings are a text, so there are
too few segments for `i + j` to reach 2^31, and `>> 1` is half of it. -/
def lowerBound (offsets : List ℤ) (start : ℤ) (i j : ℕ) : ℕ :=
  if i < j then
    let mid := (i + j) / 2
    if offsets.getD mid 0 < start then lowerBound offsets start (mid + 1) j else lowerBound offsets start i mid
  else i
termination_by j - i

/-- `Math.min(lo, orig)` and `Math.max(hi, orig)`; none before the first segment, where they are infinite. -/
def widen (orig : ℤ) : Option (ℤ × ℤ) → ℤ × ℤ
  | none => (orig, orig)
  | some (lo, hi) => (min lo orig, max hi orig)

/-- The scan up to the first segment that is not before `stop`. -/
def scanSpan (stop : ℤ) (span : Option (ℤ × ℤ)) : List (ℤ × ℤ) → Option (ℤ × ℤ)
  | [] => span
  | (offset, orig) :: rest => if offset < stop then scanSpan stop (some (widen orig span)) rest else span

def spanKey (start stop : ℤ) : Text := Number.integerText start ++ ':' :: Number.integerText stop

/-- The span, the map with the answer kept, and `counts.placed` where counts are asked for. -/
def mappedSpan (start stop : ℤ) (map : PlacedMap) (counts : Option ℕ) : Option (ℤ × ℤ) × PlacedMap × Option ℕ :=
  match map.spans.lookup (spanKey start stop) with
  | some span => (span, map, counts)
  | none =>
      let i := lowerBound map.offsets start 0 map.offsets.length
      let span := (scanSpan stop none ((map.offsets.zip map.orig).drop i)).map fun s => (s.1 + 1, s.2 + 1)
      (span, { map with spans := (spanKey start stop, span) :: map.spans }, counts.map (· + 1))

/-- The answers to questions that are asked one after the other. -/
def mappedSpans (map : PlacedMap) (counts : Option ℕ) : List (ℤ × ℤ) → List (Option (ℤ × ℤ))
  | [] => []
  | (start, stop) :: ranges =>
      let answer := mappedSpan start stop map counts
      answer.1 :: mappedSpans answer.2.1 answer.2.2 ranges

/-! ### The format -/

/-- A segment: the column of the generated line, and for the longer ones the source, the line and the column there, and a
name. -/
inductive Segment where
  | generated (col : ℕ)
  | mapped (col source line origCol : ℕ)
  | named (col source line origCol name : ℕ)
deriving DecidableEq, Repr

namespace Segment

def fields : Segment → List ℕ
  | generated col => [col]
  | mapped col source line origCol => [col, source, line, origCol]
  | named col source line origCol name => [col, source, line, origCol, name]

/-- The column and the original line. -/
def point : Segment → Option (ℕ × ℕ)
  | generated _ => none
  | mapped col _ line _ => some (col, line)
  | named col _ line _ _ => some (col, line)

/-- The last value of each field once the segment is written. -/
def after (last : ℕ → ℤ) (s : Segment) : ℕ → ℤ := fun i => (s.fields[i]?).elim (last i) fun f => (f : ℤ)

end Segment

/-- The fields from `field` on, as differences. -/
def encodeFields (last : ℕ → ℤ) (field : ℕ) : List ℕ → Text
  | [] => []
  | f :: fs => Vlq.encode (f - last field) ++ encodeFields last (field + 1) fs

def encodeSegments (last : ℕ → ℤ) : List Segment → List Text
  | [] => []
  | s :: ss => encodeFields last 0 s.fields :: encodeSegments (s.after last) ss

/-- The lines; the column starts anew in each. -/
def encodeLines (last : ℕ → ℤ) : List (List Segment) → List Text
  | [] => []
  | line :: lines =>
      Text.join [','] (encodeSegments last line) ::
        encodeLines (Function.update (line.foldl Segment.after last) 0 0) lines

def encodeMappings (lines : List (List Segment)) : Text := Text.join [';'] (encodeLines (fun _ => 0) lines)

/-! ### Reading what was written -/

namespace Decoding

variable {d : Decoding}

/-- What a field is for the decoder. -/
def pushField (d : Decoding) (decoded : ℤ) : Decoding :=
  { d with
    value := 0
    shift := 0
    state := Function.update d.state d.field (d.state d.field + decoded)
    col := if d.field = 0 then d.state 0 + decoded else d.col
    segment := d.segment ++ [d.state d.field + decoded]
    field := d.field + 1 }

theorem endField_signed (d : Decoding) {x : ℤ} (h : x.natAbs < 2 ^ 29) : d.endField (Vlq.signed x) = d.pushField x := by
  have hsigned := Vlq.signed_lt h
  have hint : toInt32 (Vlq.signed x) = Vlq.signed x := toInt32_of_lt (by omega) (by omega)
  unfold endField pushField
  dsimp only
  rw [hint, Vlq.half_signed]
  by_cases hfield : d.field = 0
  · simp [hfield]
  · simp [hfield]

theorem shifted {k s : ℕ} (hlt : s < 30) (hsmall : k * 2 ^ s < 2 ^ 30) :
    toInt32 ((k : ℕ) * 2 ^ (s % 32)) = (k : ℤ) * 2 ^ s := by
  have hcast : ((k * 2 ^ s : ℕ) : ℤ) = (k : ℤ) * 2 ^ s := by
    push_cast
    rfl
  rw [Nat.mod_eq_of_lt (show s < 32 by omega), ← hcast]
  exact toInt32_of_lt (by omega) (by omega)

/-- A digit that another one follows. -/
theorem read_more {n : ℕ} (hlt : d.shift < 30) (hsmall : n * 2 ^ d.shift < 2 ^ 30) :
    d.read (Vlq.base64Char (n % 32 + 32)) =
      .ok { d with value := d.value + ((n % 32 : ℕ) : ℤ) * 2 ^ d.shift, shift := d.shift + 5 } := by
  have hdigit : n % 32 + 32 < 64 := by omega
  have hbits : (n % 32 + 32) % 32 = n % 32 := by omega
  have hflag : (n % 32 + 32) / 32 % 2 = 1 := by omega
  have hle : n % 32 * 2 ^ d.shift < 2 ^ 30 := lt_of_le_of_lt (Nat.mul_le_mul_right _ (Nat.mod_le n 32)) hsmall
  obtain ⟨hsemicolon, hcomma⟩ := Vlq.base64Char_ne hdigit
  rw [read, if_neg hsemicolon, if_neg hcomma, Vlq.idxOf_base64Char hdigit]
  dsimp only
  rw [if_pos hflag, hbits, shifted hlt hle]

theorem read_last {n : ℕ} (hlt : d.shift < 30) (hn : n < 32) (hsmall : n * 2 ^ d.shift < 2 ^ 30) :
    d.read (Vlq.base64Char n) = .ok (d.endField (d.value + (n : ℤ) * 2 ^ d.shift)) := by
  have hdigit : n < 64 := by omega
  have hbits : n % 32 = n := Nat.mod_eq_of_lt hn
  have hflag : ¬n / 32 % 2 = 1 := by omega
  obtain ⟨hsemicolon, hcomma⟩ := Vlq.base64Char_ne hdigit
  rw [read, if_neg hsemicolon, if_neg hcomma, Vlq.idxOf_base64Char hdigit]
  dsimp only
  rw [if_neg hflag, hbits, shifted hlt hsmall]

/-- The digits of a number. -/
theorem foldlM_groups (n : ℕ) (hlt : d.shift < 30) (hsmall : n * 2 ^ d.shift < 2 ^ 30) :
    ((Vlq.groups n).map Vlq.base64Char).foldlM read d = .ok (d.endField (d.value + (n : ℤ) * 2 ^ d.shift)) := by
  induction n using Nat.strongRecOn generalizing d with
  | ind n ih =>
      rw [Vlq.groups]
      split
      next hn =>
        rw [List.map_singleton, List.foldlM_cons, read_last hlt hn hsmall]
        rfl
      next hn =>
        have hsplit : n = 32 * (n / 32) + n % 32 := by omega
        have hnext : n / 32 * 2 ^ (d.shift + 5) < 2 ^ 30 := by
          calc n / 32 * 2 ^ (d.shift + 5) = 32 * (n / 32) * 2 ^ d.shift := by ring
            _ ≤ n * 2 ^ d.shift := Nat.mul_le_mul_right _ (by omega)
            _ < 2 ^ 30 := hsmall
        have hshift : d.shift + 5 < 30 := by
          have hpow : 2 ^ (d.shift + 5) < 2 ^ 30 := by
            calc 2 ^ (d.shift + 5) = 1 * 2 ^ (d.shift + 5) := (Nat.one_mul _).symm
              _ ≤ n / 32 * 2 ^ (d.shift + 5) := Nat.mul_le_mul_right _ (by omega)
              _ < 2 ^ 30 := hnext
          exact (Nat.pow_lt_pow_iff_right (by omega)).mp hpow
        rw [List.map_cons, List.foldlM_cons, read_more hlt hsmall]
        have hrest := @ih (n / 32) (by omega)
          { d with value := d.value + ((n % 32 : ℕ) : ℤ) * 2 ^ d.shift, shift := d.shift + 5 } hshift hnext
        have hvalue : d.value + ((n % 32 : ℕ) : ℤ) * 2 ^ d.shift + ((n / 32 : ℕ) : ℤ) * 2 ^ (d.shift + 5) =
            d.value + (n : ℤ) * 2 ^ d.shift := by
          have hcast : (n : ℤ) = 32 * ((n / 32 : ℕ) : ℤ) + ((n % 32 : ℕ) : ℤ) := by omega
          rw [hcast]
          ring
        rw [hvalue] at hrest
        exact hrest

/-- A field. -/
theorem foldlM_encode (hvalue : d.value = 0) (hshift : d.shift = 0) {x : ℤ} (h : x.natAbs < 2 ^ 29) :
    (Vlq.encode x).foldlM read d = .ok (d.pushField x) := by
  have hsigned := Vlq.signed_lt h
  unfold Vlq.encode
  rw [foldlM_groups _ (by omega) (by rw [hshift]; omega), hvalue, hshift, zero_add, pow_zero, mul_one, endField_signed d h]

/-- The decoder between two segments, with the last values of the fields. -/
structure Between (d : Decoding) (last : ℕ → ℤ) : Prop where
  value : d.value = 0
  shift : d.shift = 0
  field : d.field = 0
  segment : d.segment = []
  state : d.state = last

/-- The fields of a segment. -/
theorem foldlM_encodeFields {last : ℕ → ℤ} (hlast : ∀ i, 0 ≤ last i ∧ last i < 2 ^ 29) (fs : List ℕ)
    (hfs : ∀ f ∈ fs, f < 2 ^ 29) (hvalue : d.value = 0) (hshift : d.shift = 0) (hstate : ∀ i, d.field ≤ i → d.state i = last i) :
    ∃ d', (encodeFields last d.field fs).foldlM read d = .ok d' ∧ d'.value = 0 ∧ d'.shift = 0 ∧ d'.done = d.done ∧
      d'.line = d.line ∧ d'.segment = d.segment ++ fs.map (fun f => (f : ℤ)) ∧
      ∀ i, d'.state i = if i < d.field then d.state i else (fs[i - d.field]?).elim (last i) fun f => (f : ℤ) := by
  induction fs generalizing d with
  | nil =>
      refine ⟨d, rfl, hvalue, hshift, rfl, rfl, by simp, fun i => ?_⟩
      split
      · rfl
      · simp [hstate i (by omega)]
  | cons f fs ih =>
      have hf := hfs f List.mem_cons_self
      have hbound := hlast d.field
      have hsum : d.state d.field + (f - last d.field) = f := by rw [hstate _ le_rfl]; ring
      obtain ⟨d', hrun, hv, hs, hdone, hline, hsegment, hstate'⟩ := @ih (d.pushField (f - last d.field))
        (fun g hg => hfs g (List.mem_cons_of_mem f hg)) rfl rfl (by
          intro i hi
          have hne : i ≠ d.field := by
            have : d.field + 1 ≤ i := hi
            omega
          change Function.update d.state d.field _ i = _
          rw [Function.update_of_ne hne, hstate i (by change d.field + 1 ≤ i at hi; omega)])
      refine ⟨d', ?_, hv, hs, hdone, hline, ?_, fun i => ?_⟩
      · rw [encodeFields, List.foldlM_append, foldlM_encode hvalue hshift (by omega)]
        exact hrun
      · rw [hsegment]
        simp [pushField, hsum]
      · rw [hstate' i]
        change (if i < d.field + 1 then Function.update d.state d.field _ i else _) = _
        rcases lt_trichotomy i d.field with hi | rfl | hi
        · rw [if_pos (by omega), if_pos hi, Function.update_of_ne (by omega)]
        · rw [if_pos (by omega), if_neg (by omega), Function.update_self, hsum]
          simp
        · rw [if_neg (by omega), if_neg (by omega)]
          change (fs[i - (d.field + 1)]?).elim _ _ = _
          rw [show i - d.field = i - (d.field + 1) + 1 by omega, List.getElem?_cons_succ]

end Decoding

/-- The fields of the segments fit. -/
def Below (line : List Segment) : Prop := ∀ s ∈ line, ∀ f ∈ s.fields, f < 2 ^ 29

/-- The last values fit. -/
def LastBelow (last : ℕ → ℤ) : Prop := ∀ i, 0 ≤ last i ∧ last i < 2 ^ 29

theorem LastBelow.after {last : ℕ → ℤ} (h : LastBelow last) {s : Segment} (hs : ∀ f ∈ s.fields, f < 2 ^ 29) :
    LastBelow (s.after last) := by
  intro i
  unfold Segment.after
  cases hf : s.fields[i]? with
  | none => exact h i
  | some f =>
      have hlt := hs f (List.mem_of_getElem? hf)
      change 0 ≤ (f : ℤ) ∧ (f : ℤ) < 2 ^ 29
      omega

theorem LastBelow.update {last : ℕ → ℤ} (h : LastBelow last) : LastBelow (Function.update last 0 0) := by
  intro i
  by_cases hi : i = 0
  · subst hi
    simp
  · rw [Function.update_of_ne hi]
    exact h i

theorem LastBelow.foldl {line : List Segment} (hline : Below line) {last : ℕ → ℤ} (h : LastBelow last) :
    LastBelow (line.foldl Segment.after last) := by
  induction line generalizing last with
  | nil => exact h
  | cons s line ih =>
      exact ih (fun t ht => hline t (List.mem_cons_of_mem s ht)) (h.after (hline s List.mem_cons_self))

/-- The pairs that are kept of a line. -/
def linePairs (line : List Segment) : List (ℤ × ℤ) := line.filterMap fun s => s.point.map fun p => ((p.1 : ℤ), (p.2 : ℤ))

namespace Decoding

variable {d : Decoding} {last : ℕ → ℤ}

theorem endSegment_segment {s : Segment} (h : d.segment = s.fields.map fun f => (f : ℤ)) :
    d.endSegment.line = d.line ++ linePairs [s] := by
  cases s <;> simp [endSegment, h, Segment.fields, linePairs, Segment.point]

/-- A segment, up to the character that ends it. -/
theorem Between.segment_read (h : d.Between last) (hlast : LastBelow last) {s : Segment} (hs : ∀ f ∈ s.fields, f < 2 ^ 29) :
    ∃ d', (encodeFields last 0 s.fields).foldlM read d = .ok d' ∧ d'.endSegment.Between (s.after last) ∧
      d'.endSegment.done = d.done ∧ d'.endSegment.line = d.line ++ linePairs [s] := by
  have hread := @foldlM_encodeFields d last hlast s.fields hs h.value h.shift (fun i _ => by rw [h.state])
  rw [h.field] at hread
  obtain ⟨d', hrun, hv, hshift, hdone, hline, hsegment, hstate⟩ := hread
  rw [h.segment, List.nil_append] at hsegment
  refine ⟨d', hrun, ⟨hv, hshift, rfl, rfl, ?_⟩, hdone, ?_⟩
  · funext i
    change d'.state i = _
    rw [hstate i, if_neg (Nat.not_lt_zero i)]
    rfl
  · rw [endSegment_segment hsegment, hline]

/-- Nothing is ended twice. -/
theorem Between.endSegment (h : d.Between last) : d.endSegment.line = d.line ∧ d.endSegment.Between last := by
  refine ⟨?_, h.value, h.shift, rfl, rfl, h.state⟩
  simp [Decoding.endSegment, h.segment]

theorem read_comma (d : Decoding) : d.read ',' = .ok d.endSegment := by
  rw [read, if_neg (by decide), if_pos rfl]

/-- A line, up to the character that ends it. -/
theorem Between.line_read (h : d.Between last) (hlast : LastBelow last) {line : List Segment} (hline : Below line) :
    ∃ d', (Text.join [','] (encodeSegments last line)).foldlM read d = .ok d' ∧
      d'.endSegment.Between (line.foldl Segment.after last) ∧ d'.endSegment.done = d.done ∧
      d'.endSegment.line = d.line ++ linePairs line := by
  induction line generalizing d last with
  | nil => exact ⟨d, rfl, h.endSegment.2, rfl, by simp [h.endSegment.1, linePairs]⟩
  | cons s line ih =>
      have hs := hline s List.mem_cons_self
      obtain ⟨d₁, hrun, hbetween, hdone, hpairs⟩ := h.segment_read hlast hs
      cases line with
      | nil =>
          refine ⟨d₁, ?_, hbetween, hdone, hpairs⟩
          rw [encodeSegments, encodeSegments]
          simpa [Text.join] using hrun
      | cons t line =>
          obtain ⟨d₂, hrun₂, hbetween₂, hdone₂, hpairs₂⟩ :=
            ih hbetween (hlast.after hs) fun u hu => hline u (List.mem_cons_of_mem s hu)
          refine ⟨d₂, ?_, hbetween₂, hdone₂.trans hdone, ?_⟩
          · rw [encodeSegments, encodeSegments, Text.join_cons_cons, ← encodeSegments, List.append_assoc, List.foldlM_append,
              hrun]
            change (',' :: _).foldlM read d₁ = _
            rw [List.foldlM_cons, read_comma]
            exact hrun₂
          · rw [hpairs₂, hpairs, List.append_assoc]
            unfold linePairs
            rw [← List.filterMap_append, List.singleton_append]

/-- A semicolon begins a line. -/
theorem read_semicolon (h : d.endSegment.Between last) :
    ∃ d', d.read ';' = .ok d' ∧ d'.Between (Function.update last 0 0) ∧
      d'.done = d.endSegment.done ++ [d.endSegment.line] ∧ d'.line = [] := by
  refine ⟨_, if_pos rfl, ⟨h.value, h.shift, h.field, h.segment, ?_⟩, rfl, rfl⟩
  change Function.update d.endSegment.state 0 0 = _
  rw [h.state]

theorem Between.lines_read (h : d.Between last) (hlast : LastBelow last) (hempty : d.line = [])
    {lines : List (List Segment)} (hlines : ∀ line ∈ lines, Below line) :
    ∃ d', (Text.join [';'] (encodeLines last lines)).foldlM read d = .ok d' ∧
      d'.endSegment.done ++ [d'.endSegment.line] = d.done ++ if lines = [] then [[]] else lines.map linePairs := by
  induction lines generalizing d last with
  | nil =>
      refine ⟨d, rfl, ?_⟩
      change d.done ++ _ = _
      simp [h.endSegment.1, hempty]
  | cons line lines ih =>
      obtain ⟨d₁, hrun, hbetween, hdone, hpairs⟩ := h.line_read hlast (hlines line List.mem_cons_self)
      rw [hempty, List.nil_append] at hpairs
      cases lines with
      | nil =>
          refine ⟨d₁, ?_, by simp [hdone, hpairs]⟩
          rw [encodeLines, encodeLines]
          simpa [Text.join] using hrun
      | cons next lines =>
          obtain ⟨d₂, hread, hbetween₂, hdone₂, hempty₂⟩ := read_semicolon hbetween
          obtain ⟨d₃, hrun₃, hlines₃⟩ :=
            ih hbetween₂ (hlast.foldl (hlines line List.mem_cons_self)).update hempty₂
              fun l hl => hlines l (List.mem_cons_of_mem line hl)
          refine ⟨d₃, ?_, ?_⟩
          · rw [encodeLines, encodeLines, Text.join_cons_cons, ← encodeLines, List.append_assoc, List.foldlM_append, hrun]
            change (';' :: _).foldlM read d₁ = _
            rw [List.foldlM_cons, hread]
            exact hrun₃
          · rw [hlines₃, hdone₂, hdone, hpairs]
            simp

end Decoding

/-- What was written is read back, line by line. -/
theorem decodeMappings_encodeMappings {lines : List (List Segment)} (h : ∀ line ∈ lines, Below line) :
    decodeMappings (encodeMappings lines) = .ok (if lines = [] then [[]] else lines.map linePairs) := by
  have hstart : Decoding.start.Between fun _ => 0 := ⟨rfl, rfl, rfl, rfl, rfl⟩
  obtain ⟨d, hrun, hlines⟩ := hstart.lines_read (fun _ => by decide) rfl h
  unfold decodeMappings encodeMappings
  rw [hrun]
  exact congrArg Except.ok hlines

/-! ### The placed segments -/

/-- The offset at which a line of the generated text starts. -/
def offsetOf (lineLengths : List ℕ) (line : ℕ) : ℕ := ((lineLengths.take line).map (· + 1)).sum

theorem lineStartsFrom_eq (start : ℕ) (lens : List ℕ) :
    lineStartsFrom start lens = (List.range lens.length).map fun i => start + offsetOf lens i := by
  induction lens generalizing start with
  | nil => rfl
  | cons len lens ih =>
      rw [lineStartsFrom, ih, List.length_cons, List.range_succ_eq_map, List.map_cons, List.map_map]
      refine congrArg₂ List.cons (by simp [offsetOf]) (List.map_congr_left fun i _ => ?_)
      simp [offsetOf, Nat.add_assoc]

/-- A segment with an original position: the offset in the generated text and the original line. -/
def Placed (lineLengths : List ℕ) (lines : List (List Segment)) (offset orig : ℕ) : Prop :=
  ∃ i line s col, i < lineLengths.length ∧ lines[i]? = some line ∧ s ∈ line ∧ s.point = some (col, orig) ∧
    offset = offsetOf lineLengths i + col

theorem mem_linePairs {line : List Segment} {pair : ℤ × ℤ} :
    pair ∈ linePairs line ↔ ∃ s ∈ line, ∃ col orig : ℕ, s.point = some (col, orig) ∧ pair = ((col : ℤ), (orig : ℤ)) := by
  unfold linePairs
  rw [List.mem_filterMap]
  constructor
  · rintro ⟨s, hs, heq⟩
    obtain ⟨⟨col, orig⟩, hpoint, rfl⟩ := Option.map_eq_some_iff.mp heq
    exact ⟨s, hs, col, orig, hpoint, rfl⟩
  · rintro ⟨s, hs, col, orig, hpoint, rfl⟩
    exact ⟨s, hs, by rw [hpoint]; rfl⟩

theorem getElem?_lineStarts {lineLengths : List ℕ} {i start : ℕ} :
    (lineStarts lineLengths)[i]? = some start ↔ i < lineLengths.length ∧ start = offsetOf lineLengths i := by
  rw [lineStarts, lineStartsFrom_eq, List.getElem?_map, Option.map_eq_some_iff]
  constructor
  · rintro ⟨j, hj, rfl⟩
    obtain ⟨hlt, rfl⟩ := List.getElem?_eq_some_iff.mp hj
    rw [List.length_range] at hlt
    simp [hlt]
  · rintro ⟨hlt, rfl⟩
    exact ⟨i, List.getElem?_range hlt, by rw [Nat.zero_add]⟩

theorem mem_placedPairs {lineLengths : List ℕ} {lines : List (List Segment)} {p : ℤ × ℤ} :
    p ∈ placedPairs (lineStarts lineLengths) (lines.map linePairs) ↔
      ∃ offset orig : ℕ, Placed lineLengths lines offset orig ∧ p = ((offset : ℤ), (orig : ℤ)) := by
  unfold placedPairs
  rw [List.mem_flatMap]
  constructor
  · rintro ⟨⟨start, pairs⟩, hzip, hp⟩
    obtain ⟨i, hi⟩ := List.mem_iff_getElem?.mp hzip
    obtain ⟨hstart, hpairs⟩ := List.getElem?_zip_eq_some.mp hi
    obtain ⟨hlt, rfl⟩ := getElem?_lineStarts.mp hstart
    rw [List.getElem?_map, Option.map_eq_some_iff] at hpairs
    obtain ⟨line, hline, rfl⟩ := hpairs
    obtain ⟨pair, hpair, rfl⟩ := List.mem_map.mp hp
    obtain ⟨s, hs, col, orig, hpoint, rfl⟩ := mem_linePairs.mp hpair
    exact ⟨_, orig, ⟨i, line, s, col, hlt, hline, hs, hpoint, rfl⟩, by push_cast; rfl⟩
  · rintro ⟨offset, orig, ⟨i, line, s, col, hlt, hline, hs, hpoint, rfl⟩, rfl⟩
    refine ⟨(offsetOf lineLengths i, linePairs line), List.mem_iff_getElem?.mpr ⟨i, ?_⟩, ?_⟩
    · rw [List.getElem?_zip_eq_some]
      exact ⟨getElem?_lineStarts.mpr ⟨hlt, rfl⟩, by rw [List.getElem?_map, hline]; rfl⟩
    · exact List.mem_map.mpr ⟨_, mem_linePairs.mpr ⟨s, hs, col, orig, hpoint, rfl⟩, by push_cast; rfl⟩

/-- Offsets and lines stay within 32 bits. -/
theorem Placed.lt {lineLengths : List ℕ} {lines : List (List Segment)} {offset orig : ℕ}
    (h : Placed lineLengths lines offset orig) (hsize : (lineLengths.map (· + 1)).sum ≤ 2 ^ 30)
    (hbelow : ∀ line ∈ lines, Below line) : offset < 2 ^ 31 ∧ orig < 2 ^ 31 := by
  obtain ⟨i, line, s, col, -, hline, hs, hpoint, rfl⟩ := h
  have hfields := hbelow line (List.mem_of_getElem? hline) s hs
  have hstart : offsetOf lineLengths i ≤ (lineLengths.map (· + 1)).sum := by
    unfold offsetOf
    exact ((List.take_sublist i lineLengths).map (· + 1)).sum_le_sum fun _ _ => Nat.zero_le _
  have hpair : col < 2 ^ 29 ∧ orig < 2 ^ 29 := by
    cases s with
    | generated => cases hpoint
    | mapped =>
        cases hpoint
        exact ⟨hfields _ (by simp [Segment.fields]), hfields _ (by simp [Segment.fields])⟩
    | named =>
        cases hpoint
        exact ⟨hfields _ (by simp [Segment.fields]), hfields _ (by simp [Segment.fields])⟩
  omega

/-! ### One question -/

/-- A span is the least and the greatest line of a set, none if there is no line. -/
def Spans (span : Option (ℤ × ℤ)) (lines : Set ℤ) : Prop :=
  match span with
  | none => lines = ∅
  | some (lo, hi) => IsLeast lines lo ∧ IsGreatest lines hi

theorem Spans.insert {span : Option (ℤ × ℤ)} {lines : Set ℤ} (h : Spans span lines) (orig : ℤ) :
    Spans (some (widen orig span)) (insert orig lines) := by
  match span with
  | none =>
      obtain rfl : lines = ∅ := h
      rw [insert_empty_eq]
      exact ⟨isLeast_singleton, isGreatest_singleton⟩
  | some (lo, hi) =>
      obtain ⟨hlo, hhi⟩ := h
      refine ⟨?_, ?_⟩
      · rw [min_comm]
        exact hlo.insert orig
      · rw [max_comm]
        exact hhi.insert orig

theorem Spans.succ {span : Option (ℤ × ℤ)} {lines : Set ℤ} (h : Spans span lines) :
    Spans (span.map fun s => (s.1 + 1, s.2 + 1)) ((· + 1) '' lines) := by
  match span with
  | none =>
      obtain rfl : lines = ∅ := h
      exact Set.image_empty _
  | some (lo, hi) =>
      have hmono : Monotone fun n : ℤ => n + 1 := fun m n h => by dsimp only; omega
      exact ⟨hmono.map_isLeast h.1, hmono.map_isGreatest h.2⟩

/-- What the binary search keeps: all offsets before `i` are below `start`, none from `j` on is. -/
theorem lowerBound_spec {offsets : List ℤ} (hsorted : offsets.Pairwise (· ≤ ·)) (start : ℤ) (i j : ℕ) (hij : i ≤ j)
    (hj : j ≤ offsets.length) (hbefore : ∀ k < i, offsets.getD k 0 < start)
    (hafter : ∀ k, j ≤ k → k < offsets.length → start ≤ offsets.getD k 0) :
    (∀ k < lowerBound offsets start i j, offsets.getD k 0 < start) ∧
      ∀ k, lowerBound offsets start i j ≤ k → k < offsets.length → start ≤ offsets.getD k 0 := by
  have hle : ∀ k l, k ≤ l → l < offsets.length → offsets.getD k 0 ≤ offsets.getD l 0 := by
    intro k l hkl hl
    rw [List.getD_eq_getElem _ _ (by omega), List.getD_eq_getElem _ _ hl]
    rcases Nat.eq_or_lt_of_le hkl with rfl | hlt
    · exact le_refl _
    · exact List.pairwise_iff_getElem.mp hsorted k l (by omega) hl hlt
  fun_induction lowerBound offsets start i j with
  | case1 i j hlt mid hbelow ih =>
      refine ih (by omega) hj (fun k hk => ?_) hafter
      exact lt_of_le_of_lt (hle k mid (by omega) (by omega)) hbelow
  | case2 i j hlt mid hbelow ih =>
      refine ih (by omega) (by omega) hbefore fun k hk hkl => ?_
      exact le_trans (not_lt.mp hbelow) (hle mid k hk hkl)
  | case3 i j hlt =>
      obtain rfl : i = j := by omega
      exact ⟨hbefore, hafter⟩

/-- The scan of sorted segments ends where all are beyond `stop`. -/
theorem scanSpan_spans {pairs : List (ℤ × ℤ)} (hsorted : pairs.Pairwise fun a b => a.1 ≤ b.1) (stop : ℤ)
    {span : Option (ℤ × ℤ)} {lines : Set ℤ} (h : Spans span lines) :
    Spans (scanSpan stop span pairs) (lines ∪ {v | ∃ p ∈ pairs, p.1 < stop ∧ v = p.2}) := by
  induction pairs generalizing span lines with
  | nil => simpa [scanSpan] using h
  | cons p pairs ih =>
      obtain ⟨offset, orig⟩ := p
      obtain ⟨hfirst, hrest⟩ := List.pairwise_cons.mp hsorted
      unfold scanSpan
      split
      next hlt =>
        have hset : lines ∪ {v | ∃ p ∈ (offset, orig) :: pairs, p.1 < stop ∧ v = p.2} =
            insert orig lines ∪ {v | ∃ p ∈ pairs, p.1 < stop ∧ v = p.2} := by
          ext v
          simp [hlt]
          tauto
        rw [hset]
        exact ih hrest (h.insert orig)
      next hge =>
        have hset : {v | ∃ p ∈ (offset, orig) :: pairs, p.1 < stop ∧ v = p.2} = ∅ := by
          ext v
          simp only [Set.mem_empty_iff_false, iff_false]
          rintro ⟨p, hp, hlt, -⟩
          obtain rfl | hp := List.mem_cons.mp hp
          · exact hge hlt
          · exact hge (lt_of_le_of_lt (hfirst p hp) hlt)
        rw [hset, Set.union_empty]
        exact h

/-- The search and the scan over sorted segments. -/
theorem search_spans {pairs : List (ℤ × ℤ)} (hsorted : pairs.Pairwise fun a b => a.1 ≤ b.1) (start stop : ℤ) :
    Spans (scanSpan stop none (pairs.drop (lowerBound (pairs.map Prod.fst) start 0 pairs.length)))
      {v | ∃ p ∈ pairs, start ≤ p.1 ∧ p.1 < stop ∧ v = p.2} := by
  have hoffsets : (pairs.map Prod.fst).Pairwise (· ≤ ·) := List.pairwise_map.mpr hsorted
  obtain ⟨hbefore, hafter⟩ := lowerBound_spec hoffsets start 0 pairs.length (Nat.zero_le _) (by simp)
    (fun k hk => absurd hk (Nat.not_lt_zero k)) fun k hk hlt => by rw [List.length_map] at hlt; omega
  set r := lowerBound (pairs.map Prod.fst) start 0 pairs.length
  have hget : ∀ k (hk : k < pairs.length), (pairs.map Prod.fst).getD k 0 = pairs[k].1 := by
    intro k hk
    rw [List.getD_eq_getElem _ _ (by simpa using hk), List.getElem_map]
  have hset : {v | ∃ p ∈ pairs, start ≤ p.1 ∧ p.1 < stop ∧ v = p.2} = ∅ ∪ {v | ∃ p ∈ pairs.drop r, p.1 < stop ∧ v = p.2} := by
    rw [Set.empty_union]
    ext v
    constructor
    · rintro ⟨p, hp, hstart, hstop, rfl⟩
      obtain ⟨k, hk, rfl⟩ := List.getElem_of_mem hp
      refine ⟨pairs[k], ?_, hstop, rfl⟩
      rw [List.mem_drop_iff_getElem]
      have hrk : r ≤ k := by
        by_contra hlt
        have hbelow := hbefore k (by omega)
        rw [hget k hk] at hbelow
        omega
      exact ⟨k - r, by omega, by simp only [Nat.add_sub_cancel' hrk]⟩
    · rintro ⟨p, hp, hstop, rfl⟩
      obtain ⟨k, hk, rfl⟩ := List.mem_drop_iff_getElem.mp hp
      refine ⟨_, List.getElem_mem _, ?_, hstop, rfl⟩
      have hge := hafter (r + k) (by omega) (by simpa using by omega)
      rwa [hget (r + k) (by omega)] at hge
  rw [hset]
  exact scanSpan_spans (hsorted.sublist (List.drop_sublist r pairs)) stop rfl

/-! ### Questions one after the other -/

/-- An integer that is a number of the language. -/
def IsNumber (n : ℤ) : Prop := Number.toDouble n = some (n : ℚ)

theorem colon_not_mem_integerText (n : ℤ) : ':' ∉ Number.integerText n := by
  intro h
  exact absurd (Number.mem_integerText h) (by decide)

/-- A range has a key of its own. -/
theorem spanKey_inj {start stop start' stop' : ℤ} (hs : IsNumber start) (he : IsNumber stop) (hs' : IsNumber start')
    (he' : IsNumber stop') (h : spanKey start stop = spanKey start' stop') : start = start' ∧ stop = stop' := by
  have htake : ∀ a b, (spanKey a b).takeWhile (· != ':') = Number.integerText a := by
    intro a b
    rw [spanKey, List.takeWhile_append_of_pos, List.takeWhile_cons_of_neg (by simp), List.append_nil]
    intro c hc
    simp only [bne_iff_ne]
    rintro rfl
    exact colon_not_mem_integerText a hc
  have hfirst : Number.integerText start = Number.integerText start' := by rw [← htake start stop, h, htake]
  have hsecond : Number.integerText stop = Number.integerText stop' := by
    rw [spanKey, spanKey, hfirst] at h
    exact (List.cons.inj (List.append_cancel_left h)).2
  exact ⟨Number.integerText_inj hs hs' hfirst, Number.integerText_inj he he' hsecond⟩

/-- The original lines, from one on, of the segments whose offset lies in a range. -/
def originalLines (lineLengths : List ℕ) (lines : List (List Segment)) (start stop : ℤ) : Set ℤ :=
  {v | ∃ offset orig : ℕ, Placed lineLengths lines offset orig ∧ start ≤ offset ∧ (offset : ℤ) < stop ∧ v = orig + 1}

/-- A map that answers for the segments: they are in it, sorted, and what it has kept is right. -/
structure Answers (lineLengths : List ℕ) (lines : List (List Segment)) (map : PlacedMap) : Prop where
  segments : ∃ pairs : List (ℤ × ℤ), map.offsets = pairs.map Prod.fst ∧ map.orig = pairs.map Prod.snd ∧
    (pairs.Pairwise fun a b => a.1 ≤ b.1) ∧
    ∀ p, p ∈ pairs ↔ ∃ offset orig : ℕ, Placed lineLengths lines offset orig ∧ p = ((offset : ℤ), (orig : ℤ))
  kept : ∀ key span, (key, span) ∈ map.spans → ∃ start stop, IsNumber start ∧ IsNumber stop ∧ key = spanKey start stop ∧
    Spans span (originalLines lineLengths lines start stop)

section Answers

variable {lineLengths : List ℕ} {lines : List (List Segment)} {map : PlacedMap}

/-- A question that was not asked before. -/
theorem Answers.search (h : Answers lineLengths lines map) (start stop : ℤ) :
    Spans ((scanSpan stop none ((map.offsets.zip map.orig).drop
        (lowerBound map.offsets start 0 map.offsets.length))).map fun s => (s.1 + 1, s.2 + 1))
      (originalLines lineLengths lines start stop) := by
  obtain ⟨pairs, hoffsets, horig, hsorted, hmem⟩ := h.segments
  have hzip : map.offsets.zip map.orig = pairs := by
    rw [hoffsets, horig, List.zip_map', List.map_id'' fun p => rfl]
  have hset : originalLines lineLengths lines start stop =
      (· + 1) '' {v | ∃ p ∈ pairs, start ≤ p.1 ∧ p.1 < stop ∧ v = p.2} := by
    ext v
    constructor
    · rintro ⟨offset, orig, hplaced, hstart, hstop, rfl⟩
      exact ⟨orig, ⟨_, (hmem _).mpr ⟨offset, orig, hplaced, rfl⟩, hstart, hstop, rfl⟩, rfl⟩
    · rintro ⟨-, ⟨p, hp, hstart, hstop, rfl⟩, rfl⟩
      obtain ⟨offset, orig, hplaced, rfl⟩ := (hmem p).mp hp
      exact ⟨offset, orig, hplaced, hstart, hstop, rfl⟩
  rw [hzip, hset, hoffsets, List.length_map]
  exact (search_spans hsorted start stop).succ

/-- One question: the answer is right, and the map still answers. -/
theorem Answers.mappedSpan (h : Answers lineLengths lines map) {start stop : ℤ} (hstart : IsNumber start)
    (hstop : IsNumber stop) (counts : Option ℕ) :
    Spans (mappedSpan start stop map counts).1 (originalLines lineLengths lines start stop) ∧
      Answers lineLengths lines (mappedSpan start stop map counts).2.1 := by
  unfold Suites.mappedSpan
  cases hlookup : map.spans.lookup (spanKey start stop) with
  | some span =>
      obtain ⟨before, after, hkept, -⟩ := List.lookup_eq_some_iff.mp hlookup
      obtain ⟨start', stop', hs, he, hkey, hspans⟩ := h.kept (spanKey start stop) span (by rw [hkept]; simp)
      obtain ⟨rfl, rfl⟩ := spanKey_inj hstart hstop hs he hkey
      exact ⟨hspans, h⟩
  | none =>
      have hspans := h.search start stop
      refine ⟨hspans, h.segments, fun key span hmem => ?_⟩
      obtain heq | hmem := List.mem_cons.mp hmem
      · obtain ⟨rfl, rfl⟩ := Prod.mk.inj heq
        exact ⟨start, stop, hstart, hstop, rfl, hspans⟩
      · exact h.kept key span hmem

theorem Answers.mappedSpans (h : Answers lineLengths lines map) (counts : Option ℕ) {ranges : List (ℤ × ℤ)}
    (hranges : ∀ r ∈ ranges, IsNumber r.1 ∧ IsNumber r.2) :
    List.Forall₂ (fun r span => Spans span (originalLines lineLengths lines r.1 r.2)) ranges
      (mappedSpans map counts ranges) := by
  induction ranges generalizing map counts with
  | nil => exact List.Forall₂.nil
  | cons r ranges ih =>
      obtain ⟨start, stop⟩ := r
      obtain ⟨hstart, hstop⟩ := hranges (start, stop) List.mem_cons_self
      obtain ⟨hspans, hnext⟩ := h.mappedSpan hstart hstop counts
      exact List.Forall₂.cons hspans (ih hnext _ fun r hr => hranges r (List.mem_cons_of_mem _ hr))

/-- The map of written segments answers for them. -/
theorem answers_placeMap (hsize : (lineLengths.map (· + 1)).sum ≤ 2 ^ 30) (hbelow : ∀ line ∈ lines, Below line) :
    ∃ map, placeMap lineLengths (encodeMappings lines) = .ok map ∧ Answers lineLengths lines map := by
  have hdecoded : placedPairs (lineStarts lineLengths) (if lines = [] then [[]] else lines.map linePairs) =
      placedPairs (lineStarts lineLengths) (lines.map linePairs) := by
    split
    next h =>
      subst h
      cases hstarts : lineStarts lineLengths <;> simp [placedPairs]
    next => rfl
  unfold placeMap
  rw [decodeMappings_encodeMappings hbelow]
  refine ⟨_, rfl, ?_, fun key span h => absurd h List.not_mem_nil⟩
  dsimp only
  rw [hdecoded]
  set pairs := (placedPairs (lineStarts lineLengths) (lines.map linePairs)).mergeSort fun a b => decide (a.1 ≤ b.1)
  have hmem : ∀ p, p ∈ pairs ↔ ∃ offset orig : ℕ, Placed lineLengths lines offset orig ∧ p = ((offset : ℤ), (orig : ℤ)) :=
    fun p => List.mem_mergeSort.trans mem_placedPairs
  have hsmall : ∀ p ∈ pairs, toInt32 p.1 = p.1 ∧ toInt32 p.2 = p.2 := by
    intro p hp
    obtain ⟨offset, orig, hplaced, rfl⟩ := (hmem p).mp hp
    obtain ⟨hoffset, horig⟩ := hplaced.lt hsize hbelow
    dsimp only
    exact ⟨toInt32_of_lt (by omega) (by omega), toInt32_of_lt (by omega) (by omega)⟩
  refine ⟨pairs, List.map_congr_left fun p hp => (hsmall p hp).1, List.map_congr_left fun p hp => (hsmall p hp).2, ?_, hmem⟩
  have hsorted := @List.pairwise_mergeSort _ (fun a b : ℤ × ℤ => decide (a.1 ≤ b.1))
    (fun a b c hab hbc => by simp only [decide_eq_true_eq] at *; omega)
    (fun a b => by simp only [Bool.or_eq_true, decide_eq_true_eq]; omega)
    (placedPairs (lineStarts lineLengths) (lines.map linePairs))
  exact hsorted.imp fun h => of_decide_eq_true h

end Answers

/-- Every answer of a placed map, in any sequence of questions, is the first and the last original line of the segments
whose offset lies in the range. -/
theorem mappedSpan_exact (lineLengths : List ℕ) (lines : List (List Segment))
    (hsize : (lineLengths.map (· + 1)).sum ≤ 2 ^ 30) (hbelow : ∀ line ∈ lines, ∀ s ∈ line, ∀ f ∈ s.fields, f < 2 ^ 29) :
    ∃ map, placeMap lineLengths (encodeMappings lines) = .ok map ∧
      ∀ (counts : Option ℕ) (ranges : List (ℤ × ℤ)), (∀ r ∈ ranges, IsNumber r.1 ∧ IsNumber r.2) →
        List.Forall₂ (fun r span => Spans span (originalLines lineLengths lines r.1 r.2)) ranges
          (mappedSpans map counts ranges) := by
  obtain ⟨map, hmap, hanswers⟩ := answers_placeMap hsize hbelow
  exact ⟨map, hmap, fun counts ranges hranges => hanswers.mappedSpans counts hranges⟩

/-- Two lines, one segment without an original position, and a question that is asked twice. -/
theorem two_lines_spanned :
    ∃ map, placeMap [5, 3] (encodeMappings [[.mapped 2 0 4 0, .generated 4], [.named 0 0 1 0 0]]) = .ok map ∧
      List.Forall₂ (fun r span =>
          Spans span (originalLines [5, 3] [[.mapped 2 0 4 0, .generated 4], [.named 0 0 1 0 0]] r.1 r.2))
        [(0, 6), (0, 9), (0, 6)] (mappedSpans map none [(0, 6), (0, 9), (0, 6)]) := by
  obtain ⟨map, hmap, hanswers⟩ := mappedSpan_exact [5, 3] [[.mapped 2 0 4 0, .generated 4], [.named 0 0 1 0 0]]
    (by decide) (by decide)
  refine ⟨map, hmap, hanswers none _ ?_⟩
  unfold IsNumber
  decide +kernel

end Remudero.Suites
