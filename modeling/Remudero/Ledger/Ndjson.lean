import Remudero.Lib.Lines
import Remudero.Lib.Utf8

/-! # Rows of a byte stream

`ndjsonLines` of `lib/ledger-union.ts`.  It decodes the buffers of a stream as they come, yields a row at
every line feed, without a carriage return before it, and carries the rest to the next buffer.  A bound on
the size of a row is checked on every row, on the rest after every buffer and at the end.

`rowsOf` is what the rows of a text are.  The stream yields the rows of the decoded bytes, and fails on a bound
exactly when a row is above it, whatever the buffers are (`ndjsonLines_chunks`). -/

namespace Remudero.Ledger

open Remudero.Lib

def isNewline (c : Char) : Bool := c == '\n'

/-- A row without its carriage return. -/
def withoutCr (row : Text) : Text := if row.getLast? = some '\r' then row.dropLast else row

/-- `row.length * 2 > maxRowBytes`. -/
def exceeds (maxRowBytes : ℕ∞) (row : Text) : Bool := decide (maxRowBytes < (Text.unitLength row * 2 : ℕ))

/-- The rows that are yielded of the text up to now, and what is carried on; `none` when the bound is passed. -/
def yieldRows (maxRowBytes : ℕ∞) : List Text → List Text × Option Text
  | [] => ([], some [])
  | [pending] => ([], if exceeds maxRowBytes pending then none else some pending)
  | row :: rest =>
      if exceeds maxRowBytes row then ([], none)
      else
        let (rows, pending) := yieldRows maxRowBytes rest
        (withoutCr row :: rows, pending)

/-- What a stream yields, and whether it fails after that. -/
structure Yielded where
  rows : List Text
  failed : Bool
deriving DecidableEq

/-- From a decoder and the text carried so far. -/
def ndjsonFrom (maxRowBytes : ℕ∞) (decoder : StringDecoder) (pending : Text) : List Bytes → Yielded
  | [] =>
      let pending := pending ++ decoder.finish
      if exceeds maxRowBytes pending then ⟨[], true⟩
      else ⟨if pending.isEmpty then [] else [withoutCr pending], false⟩
  | chunk :: chunks =>
      let (text, decoder) := decoder.write chunk
      match yieldRows maxRowBytes (Text.splitBy isNewline (pending ++ text)) with
      | (rows, none) => ⟨rows, true⟩
      | (rows, some pending) =>
          let more := ndjsonFrom maxRowBytes decoder pending chunks
          ⟨rows ++ more.rows, more.failed⟩

def ndjsonLines (maxRowBytes : ℕ∞) (input : List Bytes) : Yielded := ndjsonFrom maxRowBytes .start [] input

/-! ### The rows of a text -/

/-- The rows with their carriage returns: the pieces between line feeds, without an empty last one. -/
def rawRowsOf (text : Text) : List Text :=
  let pieces := Text.splitBy isNewline text
  pieces.dropLast ++ if (Text.lastPiece isNewline text).isEmpty then [] else [Text.lastPiece isNewline text]

def rowsOf (text : Text) : List Text := (rawRowsOf text).map withoutCr

theorem exceeds_append {maxRowBytes : ℕ∞} {a : Text} (b : Text) (h : exceeds maxRowBytes a = true) :
    exceeds maxRowBytes (a ++ b) = true := by
  unfold exceeds at *
  rw [decide_eq_true_eq] at *
  refine lt_of_lt_of_le h ?_
  rw [Text.unitLength_append]
  exact_mod_cast Nat.mul_le_mul_right 2 (Nat.le_add_right _ _)

theorem exceeds_nil (maxRowBytes : ℕ∞) : exceeds maxRowBytes [] = false := by
  simp [exceeds, Text.unitLength]

/-! ### Rows up to the first one above the bound -/

/-- The rows before the first one that is too long, without their carriage returns, and whether there is one. -/
def Yielded.upTo (maxRowBytes : ℕ∞) (rows : List Text) : Yielded :=
  ⟨(rows.takeWhile fun row => !exceeds maxRowBytes row).map withoutCr, rows.any (exceeds maxRowBytes)⟩

section UpTo

variable {maxRowBytes : ℕ∞} {rows : List Text}

theorem upTo_cons_of_exceeds {row : Text} (h : exceeds maxRowBytes row = true) (rows : List Text) :
    Yielded.upTo maxRowBytes (row :: rows) = ⟨[], true⟩ := by
  simp [Yielded.upTo, h]

theorem upTo_append_of_fits (h : ∀ row ∈ rows, exceeds maxRowBytes row = false) (more : List Text) :
    Yielded.upTo maxRowBytes (rows ++ more) =
      ⟨rows.map withoutCr ++ (Yielded.upTo maxRowBytes more).rows, (Yielded.upTo maxRowBytes more).failed⟩ := by
  induction rows with
  | nil => rfl
  | cons row rows ih =>
      have hrow := h row List.mem_cons_self
      have hrest := ih fun row hmem => h row (List.mem_cons_of_mem _ hmem)
      unfold Yielded.upTo at hrest ⊢
      obtain ⟨hrows, hfailed⟩ := Yielded.mk.inj hrest
      rw [List.cons_append, List.takeWhile_cons_of_pos (by simp [hrow]), List.map_cons, hrows, List.any_cons, hrow, hfailed]
      rfl

theorem upTo_append_of_exceeds (h : ∃ row ∈ rows, exceeds maxRowBytes row = true) (more : List Text) :
    Yielded.upTo maxRowBytes (rows ++ more) = Yielded.upTo maxRowBytes rows := by
  induction rows with
  | nil =>
      obtain ⟨row, hmem, -⟩ := h
      cases hmem
  | cons row rows ih =>
      by_cases hrow : exceeds maxRowBytes row = true
      · rw [List.cons_append, upTo_cons_of_exceeds hrow, upTo_cons_of_exceeds hrow]
      · obtain ⟨row', hmem, hlong⟩ := h
        have hrest : row' ∈ rows := by
          rcases List.mem_cons.mp hmem with rfl | hmem
          · exact absurd hlong hrow
          · exact hmem
        have hnext := ih ⟨row', hrest, hlong⟩
        have hone : ∀ r ∈ [row], exceeds maxRowBytes r = false := by simpa using hrow
        have hsplit := upTo_append_of_fits hone (rows ++ more)
        have hsplit' := upTo_append_of_fits hone rows
        rw [hnext] at hsplit
        exact hsplit.trans hsplit'.symm

theorem upTo_of_fits (h : ∀ row ∈ rows, exceeds maxRowBytes row = false) :
    Yielded.upTo maxRowBytes rows = ⟨rows.map withoutCr, false⟩ := by
  have happend := upTo_append_of_fits h []
  rw [List.append_nil] at happend
  rw [happend]
  simp [Yielded.upTo]

/-- With a row that is too long, the first of them cuts the rows in two. -/
theorem exists_first_exceeds (h : ∃ row ∈ rows, exceeds maxRowBytes row = true) :
    ∃ before row after, rows = before ++ row :: after ∧ (∀ r ∈ before, exceeds maxRowBytes r = false) ∧
      exceeds maxRowBytes row = true := by
  obtain ⟨row, hmem, hlong⟩ := h
  have hsome : (rows.find? (exceeds maxRowBytes)).isSome = true := List.find?_isSome.mpr ⟨row, hmem, hlong⟩
  obtain ⟨first, hfirst⟩ := Option.isSome_iff_exists.mp hsome
  obtain ⟨hexceeds, before, after, hrows, hbefore⟩ := List.find?_eq_some_iff_append.mp hfirst
  exact ⟨before, first, after, hrows, fun r hr => by simpa using hbefore r hr, hexceeds⟩

end UpTo

/-- All the pieces but the last are yielded, and the last is carried on, if none of them is too long. -/
theorem yieldRows_of_fits {maxRowBytes : ℕ∞} {rows : List Text} {pending : Text}
    (h : ∀ piece ∈ rows ++ [pending], exceeds maxRowBytes piece = false) :
    yieldRows maxRowBytes (rows ++ [pending]) = (rows.map withoutCr, some pending) := by
  induction rows with
  | nil =>
      have hpending := h pending (List.mem_append_right _ (List.mem_singleton_self pending))
      simp [yieldRows, hpending]
  | cons row rows ih =>
      have hrow := h row List.mem_cons_self
      have hrest := ih fun piece hpiece => h piece (List.mem_cons_of_mem row hpiece)
      cases hsplit : rows ++ [pending] with
      | nil => exact absurd hsplit (List.append_ne_nil_of_right_ne_nil _ (List.cons_ne_nil _ _))
      | cons next more =>
          rw [hsplit] at hrest
          rw [List.cons_append, hsplit, yieldRows, if_neg (by simp [hrow]), hrest]
          · rfl
          · exact List.cons_ne_nil _ _

/-- With a piece that is too long, those before it are yielded. -/
theorem yieldRows_of_exceeds {maxRowBytes : ℕ∞} {pieces : List Text}
    (h : ∃ piece ∈ pieces, exceeds maxRowBytes piece = true) :
    yieldRows maxRowBytes pieces = ((Yielded.upTo maxRowBytes pieces).rows, none) := by
  induction pieces with
  | nil =>
      obtain ⟨piece, hpiece, -⟩ := h
      cases hpiece
  | cons row rest ih =>
      cases rest with
      | nil =>
          obtain ⟨piece, hpiece, hlong⟩ := h
          rw [List.mem_singleton.mp hpiece] at hlong
          simp [yieldRows, hlong, Yielded.upTo]
      | cons next more =>
          by_cases hrow : exceeds maxRowBytes row = true
          · simp [yieldRows, hrow, Yielded.upTo]
          · obtain ⟨piece, hpiece, hlong⟩ := h
            have hrest : piece ∈ next :: more := by
              rcases List.mem_cons.mp hpiece with rfl | hpiece
              · exact absurd hlong hrow
              · exact hpiece
            have htail := ih ⟨piece, hrest, hlong⟩
            have hone : ∀ r ∈ [row], exceeds maxRowBytes r = false := by simpa using hrow
            have hsplit := upTo_append_of_fits hone (next :: more)
            rw [List.singleton_append] at hsplit
            rw [yieldRows, if_neg hrow, htail, hsplit]
            · rfl
            · exact List.cons_ne_nil _ _

/-- The first piece of a text is its first row, unless it is empty. -/
theorem rawRowsOf_eq_cons {text first : Text} {rest : List Text} (h : Text.splitBy isNewline text = first :: rest)
    (hne : first ≠ []) : ∃ more, rawRowsOf text = first :: more := by
  have hlast := Text.splitBy_eq_dropLast_append isNewline text
  unfold rawRowsOf
  dsimp only
  cases rest with
  | nil =>
      rw [h, List.dropLast_singleton, List.nil_append] at hlast
      have heq : first = Text.lastPiece isNewline text := (List.cons.inj hlast).1
      rw [← heq, h, if_neg (by simpa using hne)]
      exact ⟨[], rfl⟩
  | cons second rest =>
      rw [h, List.dropLast_cons_of_ne_nil (List.cons_ne_nil _ _)]
      exact ⟨_, rfl⟩

theorem rawRowsOf_append (a b : Text) :
    rawRowsOf (a ++ b) = (Text.splitBy isNewline a).dropLast ++ rawRowsOf (Text.lastPiece isNewline a ++ b) := by
  unfold rawRowsOf
  dsimp only
  rw [← Text.lastPiece_append, Text.splitBy_append, List.dropLast_append_of_ne_nil (Text.splitBy_ne_nil _ _),
    List.append_assoc]

/-! ### Every cut of the bytes -/

theorem ndjsonFrom_cons_of_none {maxRowBytes : ℕ∞} {decoder : StringDecoder} {pending : Text} {chunk : Bytes}
    {rows : List Text} (chunks : List Bytes)
    (h : yieldRows maxRowBytes (Text.splitBy isNewline (pending ++ (decoder.write chunk).1)) = (rows, none)) :
    ndjsonFrom maxRowBytes decoder pending (chunk :: chunks) = ⟨rows, true⟩ := by
  rw [ndjsonFrom]
  dsimp only
  rw [h]

theorem ndjsonFrom_cons_of_some {maxRowBytes : ℕ∞} {decoder : StringDecoder} {pending carried : Text} {chunk : Bytes}
    {rows : List Text} (chunks : List Bytes)
    (h : yieldRows maxRowBytes (Text.splitBy isNewline (pending ++ (decoder.write chunk).1)) = (rows, some carried)) :
    ndjsonFrom maxRowBytes decoder pending (chunk :: chunks) =
      ⟨rows ++ (ndjsonFrom maxRowBytes (decoder.write chunk).2 carried chunks).rows,
        (ndjsonFrom maxRowBytes (decoder.write chunk).2 carried chunks).failed⟩ := by
  rw [ndjsonFrom]
  dsimp only
  rw [h]

/-- What a stream yields from a decoder and a carried text that has no line feed. -/
theorem ndjsonFrom_spec (maxRowBytes : ℕ∞) (chunks : List Bytes) (decoder : StringDecoder) {pending : Text}
    (hpending : ∀ c ∈ pending, isNewline c = false) :
    ndjsonFrom maxRowBytes decoder pending chunks = Yielded.upTo maxRowBytes (rawRowsOf
      (pending ++ ((decoder.write chunks.flatten).1 ++ (decoder.write chunks.flatten).2.finish))) := by
  induction chunks generalizing decoder pending with
  | nil =>
      generalize htext : pending ++ ((decoder.write ([] : List Bytes).flatten).1 ++
        (decoder.write ([] : List Bytes).flatten).2.finish) = text
      have heq : text = pending ++ decoder.finish := htext.symm
      have hfinish : ∀ c ∈ text, isNewline c = false := by
        intro c hc
        rw [heq] at hc
        rcases List.mem_append.mp hc with hc | hc
        · exact hpending c hc
        · unfold StringDecoder.finish Utf8.abandoned at hc
          split_ifs at hc
          · cases hc
          · rw [List.mem_singleton.mp hc]
            decide
      have hsplit := Text.splitBy_of_not_sep hfinish
      have hlast : Text.lastPiece isNewline text = text := by
        unfold Text.lastPiece
        simp only [hsplit, List.getLast_singleton]
      have hrows : rawRowsOf text = if text.isEmpty then [] else [text] := by
        unfold rawRowsOf
        rw [hlast, hsplit]
        rfl
      rw [hrows, ndjsonFrom, ← heq]
      by_cases hempty : text = []
      · simp [hempty, exceeds_nil, Yielded.upTo]
      · by_cases hlong : exceeds maxRowBytes text = true
        · simp [hempty, hlong, Yielded.upTo]
        · simp [hempty, hlong, Yielded.upTo]
  | cons chunk chunks ih =>
      let read := pending ++ (decoder.write chunk).1
      let carried := Text.lastPiece isNewline read
      let decoder' := (decoder.write chunk).2
      let rest := (decoder'.write chunks.flatten).1 ++ (decoder'.write chunks.flatten).2.finish
      have htext : pending ++ ((decoder.write (chunk :: chunks).flatten).1 ++
          (decoder.write (chunk :: chunks).flatten).2.finish) = read ++ rest := by
        unfold read rest decoder'
        rw [List.flatten_cons, StringDecoder.write_append]
        simp only [List.append_assoc]
      have hread : Text.splitBy isNewline read = (Text.splitBy isNewline read).dropLast ++ [carried] :=
        Text.splitBy_eq_dropLast_append isNewline read
      have hcarried : ∀ c ∈ carried, isNewline c = false := by
        refine Text.not_sep_of_mem_splitBy (t := read) ?_
        rw [hread]
        exact List.mem_append_right _ (List.mem_singleton_self carried)
      rw [htext, rawRowsOf_append]
      by_cases hstop : ∃ piece ∈ Text.splitBy isNewline read, exceeds maxRowBytes piece = true
      · rw [ndjsonFrom_cons_of_none chunks (yieldRows_of_exceeds hstop)]
        have hsame : Yielded.upTo maxRowBytes (Text.splitBy isNewline read) =
            Yielded.upTo maxRowBytes ((Text.splitBy isNewline read).dropLast ++ rawRowsOf (carried ++ rest)) := by
          rw [hread, List.dropLast_concat]
          by_cases hbefore : ∃ piece ∈ (Text.splitBy isNewline read).dropLast, exceeds maxRowBytes piece = true
          · rw [upTo_append_of_exceeds hbefore, upTo_append_of_exceeds hbefore]
          · -- the carried text is too long, and it begins the next row
            have hfits : ∀ piece ∈ (Text.splitBy isNewline read).dropLast, exceeds maxRowBytes piece = false := by
              intro piece hpiece
              by_contra hpiece'
              exact hbefore ⟨piece, hpiece, by simpa using hpiece'⟩
            have hlong : exceeds maxRowBytes carried = true := by
              obtain ⟨piece, hpiece, hpiecelong⟩ := hstop
              rw [hread] at hpiece
              rcases List.mem_append.mp hpiece with hpiece | hpiece
              · exact absurd ⟨piece, hpiece, hpiecelong⟩ hbefore
              · rwa [List.mem_singleton.mp hpiece] at hpiecelong
            obtain ⟨piece, pieces, -, hnext⟩ := Text.splitBy_append_of_not_sep hcarried rest
            have hnextlong := exceeds_append piece hlong
            have hne : carried ++ piece ≠ [] := by
              intro hnil
              rw [hnil, exceeds_nil] at hnextlong
              cases hnextlong
            obtain ⟨more, hmore⟩ := rawRowsOf_eq_cons hnext hne
            rw [hmore, upTo_append_of_fits hfits, upTo_append_of_fits hfits, upTo_cons_of_exceeds hlong,
              upTo_cons_of_exceeds hnextlong]
        have hfailed : (Yielded.upTo maxRowBytes (Text.splitBy isNewline read)).failed = true := List.any_eq_true.mpr hstop
        rw [← hsame, ← hfailed]
      · have hgo : ∀ q ∈ (Text.splitBy isNewline read).dropLast ++ [carried], exceeds maxRowBytes q = false := by
          intro q hq
          rw [← hread] at hq
          by_contra hq'
          exact hstop ⟨q, hq, by simpa using hq'⟩
        have hyield : yieldRows maxRowBytes (Text.splitBy isNewline read) =
            ((Text.splitBy isNewline read).dropLast.map withoutCr, some carried) := by
          conv_lhs => rw [hread]
          exact yieldRows_of_fits hgo
        rw [ndjsonFrom_cons_of_some chunks hyield, ih decoder' hcarried,
          upTo_append_of_fits fun q hq => hgo q (List.mem_append_left _ hq)]

/-- A stream of buffers, whatever they are: the rows of the decoded bytes before the first one above the bound, and a
failure if there is one. -/
theorem ndjsonLines_spec (maxRowBytes : ℕ∞) (chunks : List Bytes) :
    ndjsonLines maxRowBytes chunks = Yielded.upTo maxRowBytes (rawRowsOf (utf8 chunks.flatten)) := by
  have hnone : ∀ c ∈ ([] : Text), isNewline c = false := fun c hc => nomatch hc
  exact ndjsonFrom_spec maxRowBytes chunks .start hnone

theorem exceeds_iff {maxRowBytes : ℕ∞} {row : Text} :
    exceeds maxRowBytes row = true ↔ maxRowBytes < (Text.unitLength row * 2 : ℕ) := decide_eq_true_iff

/-- The rows of a stream, for every bound, and whether it fails on the bound, do not depend on how its bytes are cut:
they are the rows of the decoded bytes without their carriage returns, up to the first one above the bound. -/
theorem ndjsonLines_chunks (maxRowBytes : ℕ∞) {chunks chunks' : List Bytes} (h : chunks.flatten = chunks'.flatten) :
    ndjsonLines maxRowBytes chunks = ndjsonLines maxRowBytes chunks' ∧
      ((ndjsonLines maxRowBytes chunks).failed = true ↔
        ∃ row ∈ rawRowsOf (utf8 chunks.flatten), maxRowBytes < (Text.unitLength row * 2 : ℕ)) ∧
      ((ndjsonLines maxRowBytes chunks).failed = false →
        (ndjsonLines maxRowBytes chunks).rows = rowsOf (utf8 chunks.flatten)) ∧
      ((ndjsonLines maxRowBytes chunks).failed = true →
        ∃ before row after, rawRowsOf (utf8 chunks.flatten) = before ++ row :: after ∧
          (∀ r ∈ before, (Text.unitLength r * 2 : ℕ) ≤ maxRowBytes) ∧ maxRowBytes < (Text.unitLength row * 2 : ℕ) ∧
          (ndjsonLines maxRowBytes chunks).rows = before.map withoutCr) := by
  rw [ndjsonLines_spec maxRowBytes chunks, ndjsonLines_spec maxRowBytes chunks', h]
  unfold rowsOf
  generalize rawRowsOf (utf8 chunks'.flatten) = rows
  have hfailed : (Yielded.upTo maxRowBytes rows).failed = true ↔ ∃ row ∈ rows, exceeds maxRowBytes row = true :=
    List.any_eq_true
  refine ⟨rfl, ?_, ?_, ?_⟩
  · simp only [← exceeds_iff]
    exact hfailed
  · intro hnot
    have hfits : ∀ row ∈ rows, exceeds maxRowBytes row = false := by
      intro row hmem
      by_contra hlong
      rw [hfailed.mpr ⟨row, hmem, by simpa using hlong⟩] at hnot
      cases hnot
    rw [upTo_of_fits hfits]
  · intro hyes
    obtain ⟨before, row, after, hrows, hbefore, hlong⟩ := exists_first_exceeds (hfailed.mp hyes)
    refine ⟨before, row, after, hrows, ?_, exceeds_iff.mp hlong, ?_⟩
    · intro r hr
      by_contra hr'
      have hexceeds := exceeds_iff.mpr (not_le.mp hr')
      rw [hbefore r hr] at hexceeds
      cases hexceeds
    · rw [hrows, upTo_append_of_fits hbefore, upTo_cons_of_exceeds hlong, List.append_nil]

section Cut

/-- `é`, CR, LF, `xyz`, LF and `w`, cut inside the character and before the line feed, with an empty buffer. -/
def cutBuffers : List Bytes := [[0xc3], [0xa9, 0x0d], [], [0x0a, 0x78, 0x79], [0x7a, 0x0a, 0x77]]

def oneBuffer : List Bytes := [[0xc3, 0xa9, 0x0d, 0x0a, 0x78, 0x79, 0x7a, 0x0a, 0x77]]

theorem cutBuffers_flatten : cutBuffers.flatten = oneBuffer.flatten := by decide

/-- The two cuts yield the same three rows under a bound of six bytes, and under a bound of four bytes, which `é` and
its carriage return meet and `xyz` does not, the first row and then the failure. -/
theorem ndjsonLines_chunks_cut :
    ndjsonLines 6 cutBuffers = ndjsonLines 6 oneBuffer ∧
      (ndjsonLines 6 cutBuffers).rows = rowsOf (utf8 cutBuffers.flatten) ∧
      (ndjsonLines 6 oneBuffer).rows = [['é'], ['x', 'y', 'z'], ['w']] ∧
      ndjsonLines 4 cutBuffers = ndjsonLines 4 oneBuffer ∧ ndjsonLines 4 oneBuffer = ⟨[['é']], true⟩ :=
  ⟨(ndjsonLines_chunks 6 cutBuffers_flatten).1, (ndjsonLines_chunks 6 cutBuffers_flatten).2.2.1 (by decide +kernel),
    by decide +kernel, (ndjsonLines_chunks 4 cutBuffers_flatten).1, by decide +kernel⟩

end Cut

end Remudero.Ledger
