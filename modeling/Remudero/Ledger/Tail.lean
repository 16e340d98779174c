import Remudero.Ledger.Ndjson
import Remudero.Lib.Json
import Remudero.Lib.Lines
import Remudero.Lib.Transition

/-! # The status ledger tail

`readLedgerTail` of `lib/status.ts`.  A cache has how many bytes of the file were read, the text of the
line that was not ended yet, and the rows so far.  A call reads the bytes past the offset; a file that is
shorter than that is read again from its start.

A history of the file is made of appends, of rotations that put any other file in its place, and of
calls.  `seen` is the file at the last call and `dropped` the number of lines reported as unparseable;
both are for the statements only.  `JSON.parse` is the parameter `parse` (`none` when it throws).

The main result is `tail_eq_fresh`: what a call returns when at every call of the history the file is
the one of the call before with more text, or a shorter one, and every complete line parses. -/

namespace Remudero.Ledger

open Remudero.Lib

structure LedgerTailCache where
  offset : ℕ
  pending : Text
  lines : List Json
  torn : ℕ

def createLedgerTailCache : LedgerTailCache := ⟨0, [], [], 0⟩

section read

variable (parse : Text → Option Json)

/-- The rows of some lines. -/
def parsedOf (segments : List Text) : List Json :=
  segments.filterMap fun raw => if (Text.trim raw).isEmpty then none else parse (Text.trim raw)

/-- The lines of these that are reported and dropped. -/
def droppedOf (segments : List Text) : List Text :=
  segments.filterMap fun raw =>
    if (Text.trim raw).isEmpty || (parse (Text.trim raw)).isSome then none else some (Text.trim raw)

/-- What a call does: the cache, whose `lines` it returns, and the lines it reports. -/
structure TailRead where
  cache : LedgerTailCache
  reported : List Text

def LedgerTailCache.reset (cache : LedgerTailCache) : LedgerTailCache :=
  { cache with offset := 0, pending := [], lines := [] }

/-- The bytes past the offset. -/
def readAppended (bytes : Bytes) (cache : LedgerTailCache) : TailRead :=
  let segments := Text.splitBy isNewline (cache.pending ++ utf8 (bytes.drop cache.offset))
  { cache := { cache with
      offset := bytes.length
      pending := segments.getLastD []
      lines := cache.lines ++ parsedOf parse segments.dropLast }
    reported := droppedOf parse segments.dropLast }

def readLedgerTail (file : Option Bytes) (cache : LedgerTailCache) : TailRead :=
  match file with
  | none => if cache.offset ≠ 0 || !cache.lines.isEmpty then ⟨cache.reset, []⟩ else ⟨cache, []⟩
  | some bytes =>
      if bytes.length = cache.offset then ⟨cache, []⟩
      else readAppended parse bytes (if bytes.length < cache.offset then cache.reset else cache)

/-! ### Histories -/

structure TailState where
  file : Option Bytes
  cache : LedgerTailCache
  seen : Bytes
  dropped : ℕ

inductive TailEvent where
  | append (bytes : Bytes)
  | rotate (file : Option Bytes)
  | call

def TailState.start (file : Option Bytes) : TailState := ⟨file, createLedgerTailCache, [], 0⟩

def TailState.next (s : TailState) : TailEvent → TailState
  | .append bytes => { s with file := some (s.file.getD [] ++ bytes) }
  | .rotate file => { s with file := file }
  | .call =>
      let read := readLedgerTail parse s.file s.cache
      { s with cache := read.cache, seen := s.file.getD [], dropped := s.dropped + read.reported.length }

def TailState.Step (s : TailState) (e : TailEvent) (t : TailState) : Prop := s.next parse e = t

/-- The lines of a file that end with a line feed. -/
def completeLines (bytes : Bytes) : List Text := (Text.splitBy isNewline (utf8 bytes)).dropLast

/-- The file is the one of the last call with more text, cut between two characters, or a shorter
file. -/
def Extends (seen bytes : Bytes) : Prop :=
  bytes.length < seen.length ∨ ∃ more, bytes = seen ++ more ∧ utf8 bytes = utf8 seen ++ utf8 more

/-- The condition on a call. -/
def TailState.Clean (s : TailState) : TailEvent → Prop
  | .call => (∀ bytes, s.file = some bytes → Extends s.seen bytes) ∧
      droppedOf parse (completeLines (s.file.getD [])) = []
  | _ => True

/-! ### What a call does -/

/-- The cache is the one a fresh read of some bytes leaves. -/
structure CacheOf (bytes : Bytes) (cache : LedgerTailCache) : Prop where
  offset : cache.offset = bytes.length
  pending : cache.pending = Text.lastPiece isNewline (utf8 bytes)
  lines : cache.lines = parsedOf parse (completeLines bytes)

end read

variable {parse : Text → Option Json}

theorem cacheOf_nil (torn : ℕ) : CacheOf parse [] ⟨0, [], [], torn⟩ := ⟨rfl, rfl, rfl⟩

theorem CacheOf.reset {cache : LedgerTailCache} : CacheOf parse [] cache.reset := ⟨rfl, rfl, rfl⟩

/-- A call on more bytes leaves the cache of all of them, and reports what they have unparseable. -/
theorem CacheOf.append {seen more : Bytes} {cache : LedgerTailCache} (h : CacheOf parse seen cache)
    (htext : utf8 (seen ++ more) = utf8 seen ++ utf8 more) :
    CacheOf parse (seen ++ more) (readAppended parse (seen ++ more) cache).cache ∧
      droppedOf parse (completeLines (seen ++ more)) =
        droppedOf parse (completeLines seen) ++ (readAppended parse (seen ++ more) cache).reported := by
  have hsegments : cache.pending ++ utf8 ((seen ++ more).drop cache.offset) =
      Text.lastPiece isNewline (utf8 seen) ++ utf8 more := by
    rw [h.pending, h.offset, List.drop_left]
  have hcomplete : completeLines (seen ++ more) = completeLines seen ++
      (Text.splitBy isNewline (Text.lastPiece isNewline (utf8 seen) ++ utf8 more)).dropLast := by
    rw [completeLines, htext, Text.splitBy_append, List.dropLast_append_of_ne_nil (Text.splitBy_ne_nil _ _)]
    rfl
  unfold readAppended
  rw [hsegments]
  refine ⟨⟨rfl, ?_, ?_⟩, ?_⟩
  · rw [htext, Text.lastPiece_append]
    exact Text.getLastD_splitBy isNewline _ []
  · rw [hcomplete, parsedOf, List.filterMap_append, h.lines]
    rfl
  · rw [hcomplete, droppedOf, List.filterMap_append]
    rfl

theorem readLedgerTail_none {seen : Bytes} {cache : LedgerTailCache} (h : CacheOf parse seen cache) :
    CacheOf parse [] (readLedgerTail parse none cache).cache := by
  unfold readLedgerTail
  dsimp only
  split
  · exact CacheOf.reset
  · next hsame =>
      simp only [Bool.or_eq_true, decide_eq_true_eq, not_or, not_not] at hsame
      have hseen : seen = [] := List.length_eq_zero_iff.mp (h.offset.symm.trans hsame.1)
      rw [← hseen]
      exact h

/-- A call on a file that extends the one of the last call. -/
theorem readLedgerTail_some {seen bytes : Bytes} {cache : LedgerTailCache} (h : CacheOf parse seen cache)
    (hext : Extends seen bytes) (hclean : droppedOf parse (completeLines bytes) = []) :
    CacheOf parse bytes (readLedgerTail parse (some bytes) cache).cache ∧
      (readLedgerTail parse (some bytes) cache).reported = [] := by
  unfold readLedgerTail
  dsimp only
  split
  · next hsize =>
      -- a file of the same length is the same file
      have hsame : bytes = seen := by
        obtain hlt | ⟨more, rfl, -⟩ := hext
        · rw [h.offset] at hsize
          omega
        · rw [h.offset, List.length_append] at hsize
          rw [List.length_eq_zero_iff.mp (by omega : more.length = 0), List.append_nil]
      rw [hsame]
      exact ⟨h, rfl⟩
  · next hsize =>
      obtain hlt | ⟨more, rfl, htext⟩ := hext
      · rw [if_pos (by rw [h.offset]; exact hlt)]
        have hnil : utf8 ([] ++ bytes) = utf8 [] ++ utf8 bytes := rfl
        have hfresh := (CacheOf.reset : CacheOf parse [] cache.reset).append hnil
        rw [List.nil_append] at hfresh
        exact ⟨hfresh.1, (List.append_eq_nil_iff.mp (hfresh.2.symm.trans hclean)).2⟩
      · rw [if_neg (by rw [h.offset, List.length_append]; omega)]
        have hmore := h.append htext
        exact ⟨hmore.1, (List.append_eq_nil_iff.mp (hmore.2.symm.trans hclean)).2⟩

/-! ### Every history -/

/-- The invariant of a history. -/
structure TailState.Fresh (parse : Text → Option Json) (s : TailState) : Prop where
  cache : CacheOf parse s.seen s.cache
  torn : s.cache.torn = 0
  dropped : s.dropped = 0

theorem readLedgerTail_torn (file : Option Bytes) (cache : LedgerTailCache) :
    (readLedgerTail parse file cache).cache.torn = cache.torn := by
  unfold readLedgerTail
  split
  · split <;> rfl
  · split
    · rfl
    · unfold readAppended
      dsimp only
      split <;> rfl

theorem fresh_call {s : TailState} (h : s.Fresh parse) (hclean : s.Clean parse .call) :
    (s.next parse .call).Fresh parse := by
  obtain ⟨hext, hdropped⟩ := hclean
  have htorn : (readLedgerTail parse s.file s.cache).cache.torn = 0 := by
    rw [readLedgerTail_torn, h.torn]
  cases hfile : s.file with
  | none =>
      have hcache := readLedgerTail_none h.cache
      have hreported : (readLedgerTail parse none s.cache).reported = [] := by
        unfold readLedgerTail
        dsimp only
        split <;> rfl
      rw [hfile] at htorn
      refine ⟨?_, ?_, ?_⟩
      · simpa only [TailState.next, hfile, Option.getD_none] using hcache
      · simpa only [TailState.next, hfile] using htorn
      · simp only [TailState.next, hfile, hreported, h.dropped, List.length_nil]
  | some bytes =>
      rw [hfile, Option.getD_some] at hdropped
      obtain ⟨hcache, hreported⟩ := readLedgerTail_some h.cache (hext bytes hfile) hdropped
      rw [hfile] at htorn
      refine ⟨?_, ?_, ?_⟩
      · simpa only [TailState.next, hfile, Option.getD_some] using hcache
      · simpa only [TailState.next, hfile] using htorn
      · simp only [TailState.next, hfile, hreported, h.dropped, List.length_nil]

theorem fresh_run {file : Option Bytes} {es : List TailEvent} {s : TailState}
    (hr : Run (Guarded (TailState.Step parse) (TailState.Clean parse)) (.start file) es s) : s.Fresh parse := by
  refine hr.invariant ?_ ⟨cacheOf_nil 0, rfl, rfl⟩
  rintro s e t h ⟨rfl, hclean⟩
  cases e with
  | append bytes => exact ⟨h.cache, h.torn, h.dropped⟩
  | rotate file => exact ⟨h.cache, h.torn, h.dropped⟩
  | call => exact fresh_call h hclean

/-- In every history whose calls are all clean, a call returns the parsed complete lines of the file as it
is, and the torn count is the number of lines dropped. -/
theorem tail_eq_fresh (parse : Text → Option Json) (file : Option Bytes) (es : List TailEvent) (s : TailState)
    (hr : Run (Guarded (TailState.Step parse) (TailState.Clean parse)) (.start file) (es ++ [.call]) s) :
    s.cache.lines = parsedOf parse (completeLines (s.file.getD [])) ∧ s.cache.torn = s.dropped := by
  have h := fresh_run hr
  obtain ⟨t, -, rfl, -⟩ := hr.snoc_inv
  exact ⟨h.cache.lines, h.torn.trans h.dropped.symm⟩

/-- `JSON.parse` on digits, and on a text in quotation marks without escapes. -/
def plainParse (t : Text) : Option Json :=
  if t.head? = some '"' then some (.str (t.drop 1).dropLast)
  else if t.all Char.isDigit then some (.num t)
  else none

/-- A line `1` is read, and then a line `2` after it. -/
theorem tail_eq_fresh_appended :
    ∃ s : TailState, s.file = some [0x31, 0x0a, 0x32, 0x0a] ∧
      s.cache.lines = parsedOf plainParse (completeLines (s.file.getD [])) ∧ s.cache.torn = s.dropped := by
  have hrun : Run (Guarded (TailState.Step plainParse) (TailState.Clean plainParse)) (.start (some [0x31, 0x0a]))
      ([.call, .append [0x32, 0x0a]] ++ [.call])
      (((TailState.start (some [0x31, 0x0a])).next plainParse .call).next plainParse (.append [0x32, 0x0a])
        |>.next plainParse .call) := by
    refine Run.cons ⟨rfl, ?_, by decide +kernel⟩ (Run.cons ⟨rfl, trivial⟩ (Run.cons ⟨rfl, ?_, by decide +kernel⟩ Run.nil))
    · intro bytes hbytes
      exact Or.inr ⟨bytes, rfl, rfl⟩
    · intro bytes hbytes
      obtain rfl := Option.some.inj hbytes
      exact Or.inr ⟨[0x32, 0x0a], rfl, by decide +kernel⟩
  exact ⟨_, rfl, tail_eq_fresh _ _ _ _ hrun⟩

/-- Three ways to go wrong: a file is replaced by one of the same length, a file is read up to the middle
of a character, and a line cannot be parsed. -/
theorem tail_differs_from_fresh :
    let answers := fun (file : Option Bytes) (es : List TailEvent) =>
      es.foldl (TailState.next plainParse) (TailState.start file)
    let replaced := answers (some [0x31, 0x0a]) [.call, .rotate (some [0x32, 0x0a]), .call]
    let cut := answers (some [0x22, 0xc3]) [.call, .append [0xa9, 0x22, 0x0a], .call]
    let torn := answers (some [0x78, 0x0a]) [.call]
    replaced.cache.lines ≠ parsedOf plainParse (completeLines (replaced.file.getD [])) ∧
      cut.cache.lines ≠ parsedOf plainParse (completeLines (cut.file.getD [])) ∧ torn.cache.torn ≠ torn.dropped := by
  intro answers replaced cut torn
  have hshown : replaced.cache.lines.map Json.stringify ≠
      (parsedOf plainParse (completeLines (replaced.file.getD []))).map Json.stringify ∧
      cut.cache.lines.map Json.stringify ≠
        (parsedOf plainParse (completeLines (cut.file.getD []))).map Json.stringify ∧ torn.cache.torn ≠ torn.dropped := by
    decide +kernel
  exact ⟨fun h => hshown.1 (congrArg (List.map Json.stringify) h),
    fun h => hshown.2.1 (congrArg (List.map Json.stringify) h), hshown.2.2⟩

end Remudero.Ledger
