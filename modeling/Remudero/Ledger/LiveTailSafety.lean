import Remudero.Ledger.LiveTail

/-! # A live tail and a fresh read

A history of the live file is made of appends, of renames of another file into place, of deletions, of
truncations in place and of calls; every line is blank, an object or unparseable, which is what the type
of `parse` says.  A file that a rename or an append creates has an inode of its own.

Of a history these are for the statements only: `kept`, the least length of the file since the last call;
`former`, the length before a truncation that no call has seen; the time of the last call; and the
arrays returned so far with the rows they had.

`TailOf` is the invariant of a tail.  It says nothing about the first and last bytes a tail keeps: reading
a file again from its start is always right, and what must not happen is that a tail reads on where the
file before the offset is another one.  The main result is `live_tail_eq_fresh`. -/

namespace Remudero.Ledger

open Remudero.Lib

section histories

variable (dateParse : Text → Option ℤ) (keepUntimed : Bool) (parse : Text → Option Lib.Row) (retainMs : Option ℤ)

/-- `nowMs - retainMs`; no time and an infinite `retainMs` leave everything. -/
def cutoffAt (now : Option ℤ) : Option ℤ := now.bind fun n => retainMs.map (n - ·)

/-- A full parse of some bytes. -/
def rowsOfBytes (bytes : Bytes) : List Lib.Row := rowsOfText parse (utf8 bytes)

/-- What a fresh read of a file gives. -/
def freshRows (now : ℤ) (file : Option LiveFile) : List Lib.Row :=
  (rowsOfBytes parse (file.elim [] LiveFile.bytes)).filter (retained dateParse keepUntimed (cutoffAt retainMs (some now)))

structure LiveHistory where
  file : Option LiveFile
  tail : LiveTail
  nextIno : ℕ
  kept : ℕ
  former : Option ℕ
  now : Option ℤ
  returned : List (ℕ × List Lib.Row)

inductive LiveEvent where
  | append (bytes : Bytes)
  | rename (bytes : Bytes)
  | delete
  | truncate (length : ℕ)
  | call (now : ℤ)

namespace LiveHistory

def start (file : Option Bytes) : LiveHistory :=
  ⟨file.map fun bytes => ⟨0, bytes⟩, .start, 1, 0, none, none, []⟩

def next (s : LiveHistory) : LiveEvent → LiveHistory
  | .append bytes =>
      match s.file with
      | some f => { s with file := some ⟨f.ino, f.bytes ++ bytes⟩ }
      | none => { s with file := some ⟨s.nextIno, bytes⟩, nextIno := s.nextIno + 1 }
  | .rename bytes => { s with file := some ⟨s.nextIno, bytes⟩, nextIno := s.nextIno + 1, former := none }
  | .delete => { s with file := none, former := none }
  | .truncate length =>
      match s.file with
      | some f =>
          { s with
            file := some ⟨f.ino, f.bytes.take length⟩
            kept := min s.kept length
            former := if length < f.bytes.length then some f.bytes.length else s.former }
      | none => s
  | .call now =>
      let (place, tail) := s.tail.call dateParse keepUntimed parse (cutoffAt retainMs (some now)) s.file
      { s with
        tail := tail
        kept := s.file.elim 0 fun f => f.bytes.length
        former := none
        now := some now
        returned := (place, tail.array place) :: s.returned }

def Step (s : LiveHistory) (e : LiveEvent) (t : LiveHistory) : Prop :=
  s.next dateParse keepUntimed parse retainMs e = t

end LiveHistory

end histories

namespace LiveHistory

/-- Time does not go back, and every truncation is seen by a call before the file has its former length
again. -/
def BelowFormer (s : LiveHistory) : LiveEvent → Prop
  | .append bytes => ∀ f ∈ s.file, ∀ former ∈ s.former, f.bytes.length + bytes.length < former
  | .call now => ∀ n ∈ s.now, n ≤ now
  | _ => True

/-- Time does not go back, and a file cut below the last complete line that was read is still shorter
than that at the next call, or has other first or last bytes there. -/
def Observed (s : LiveHistory) : LiveEvent → Prop
  | .call now => (∀ n ∈ s.now, n ≤ now) ∧
      ∀ f ∈ s.file, s.tail.identity = some f.ino → s.kept < s.tail.offset →
        f.bytes.length < s.tail.offset ∨ rewritten s.tail f.bytes = true
  | _ => True

end LiveHistory

/-! ### Lines of bytes -/

section lines

variable {parse : Text → Option Lib.Row}

/-- The chunk up to its last line feed, and what is after it. -/
theorem lineEnd_eq (chunk : Bytes) :
    chunk.take (lineEnd chunk) = (chunk.reverse.dropWhile (· != newline)).reverse ∧
      chunk.drop (lineEnd chunk) = (chunk.reverse.takeWhile (· != newline)).reverse := by
  have hsplit : (chunk.reverse.dropWhile (· != newline)).reverse ++
      (chunk.reverse.takeWhile (· != newline)).reverse = chunk := by
    rw [← List.reverse_append, List.takeWhile_append_dropWhile, List.reverse_reverse]
  have hlength : lineEnd chunk = (chunk.reverse.dropWhile (· != newline)).reverse.length := by
    have hsum := congrArg List.length hsplit
    have hrest : (chunk.reverse.takeWhile (· != newline)).reverse.length =
        (chunk.reverse.takeWhile (· != newline)).length := List.length_reverse
    rw [List.length_append, hrest] at hsum
    unfold lineEnd
    omega
  generalize (chunk.reverse.dropWhile (· != newline)).reverse = done at hsplit hlength ⊢
  generalize (chunk.reverse.takeWhile (· != newline)).reverse = rest at hsplit ⊢
  rw [hlength, ← hsplit]
  exact ⟨List.take_left, List.drop_left⟩

/-- Bytes that are complete lines. -/
def Ended (bytes : Bytes) : Prop := bytes = [] ∨ ∃ line, bytes = line ++ [newline]

theorem ended_take_lineEnd (chunk : Bytes) : Ended (chunk.take (lineEnd chunk)) := by
  rw [(lineEnd_eq chunk).1]
  cases hdrop : chunk.reverse.dropWhile (· != newline) with
  | nil => exact Or.inl rfl
  | cons b bytes =>
      have hb := List.head_dropWhile_not (· != newline) (l := chunk.reverse) (by rw [hdrop]; exact List.cons_ne_nil _ _)
      simp only [hdrop, List.head_cons, bne_eq_false_iff_eq] at hb
      exact Or.inr ⟨bytes.reverse, by rw [List.reverse_cons, hb]⟩

theorem newline_not_mem_drop_lineEnd (chunk : Bytes) : newline ∉ chunk.drop (lineEnd chunk) := by
  rw [(lineEnd_eq chunk).2, List.mem_reverse]
  intro hmem
  have hne := List.mem_takeWhile_imp hmem
  simp at hne

theorem Ended.append {a b : Bytes} (ha : Ended a) (hb : Ended b) : Ended (a ++ b) := by
  obtain rfl | ⟨line, rfl⟩ := hb
  · rw [List.append_nil]
    exact ha
  · exact Or.inr ⟨a ++ line, (List.append_assoc a line [newline]).symm⟩

theorem rowsOfBytes_append_newline (a b : Bytes) : rowsOfBytes parse (a ++ newline :: b) = rowsOfBytes parse a ++ rowsOfBytes parse b := by
  unfold rowsOfBytes rowsOfText newline
  rw [utf8_append_newline, Text.splitBy_append_cons_sep rfl, List.filterMap_append]

/-- Complete lines are parsed on their own. -/
theorem rowsOfBytes_append {a : Bytes} (ha : Ended a) (b : Bytes) :
    rowsOfBytes parse (a ++ b) = rowsOfBytes parse a ++ rowsOfBytes parse b := by
  have hnil : rowsOfBytes parse [] = [] := rfl
  obtain rfl | ⟨line, rfl⟩ := ha
  · rw [hnil]
    rfl
  · rw [List.append_assoc, List.singleton_append, rowsOfBytes_append_newline, rowsOfBytes_append_newline, hnil, List.append_nil]

theorem rowsOfBytes_of_not_mem {bytes : Bytes} (h : newline ∉ bytes) :
    rowsOfBytes parse bytes = (tentativeRow parse (utf8 bytes)).toList := by
  have hsplit : Text.splitBy isNewline (utf8 bytes) = [utf8 bytes] := by
    apply Text.splitBy_of_not_sep
    intro c hc
    have hne : c ≠ '\n' := fun heq => newline_not_mem_utf8 h (heq ▸ hc)
    simpa [isNewline] using hne
  unfold rowsOfBytes rowsOfText
  rw [hsplit]
  cases hrow : tentativeRow parse (utf8 bytes) with
  | none => simp [hrow]
  | some row => simp [hrow]

end lines

/-! ### Retention -/

section retention

variable {dateParse : Text → Option ℤ} {keepUntimed : Bool} {c d : Option ℤ}

/-- A later cutoff. -/
def LaterCutoff (c d : Option ℤ) : Prop := ∀ a ∈ c, ∃ b ∈ d, a ≤ b

theorem laterCutoff_cutoffAt {retainMs before : Option ℤ} {now : ℤ} (h : ∀ n ∈ before, n ≤ now) :
    LaterCutoff (cutoffAt retainMs before) (cutoffAt retainMs (some now)) := by
  intro a ha
  obtain ⟨n, rfl, ha⟩ := Option.bind_eq_some_iff.mp ha
  obtain ⟨ms, rfl, rfl⟩ := Option.map_eq_some_iff.mp ha
  have hn := h n rfl
  exact ⟨now - ms, rfl, by omega⟩

theorem retained_of_later (h : LaterCutoff c d) {row : Lib.Row} (hrow : retained dateParse keepUntimed d row = true) :
    retained dateParse keepUntimed c row = true := by
  unfold retained at hrow ⊢
  cases hms : rowMs dateParse row with
  | none => simpa only [hms] using hrow
  | some t =>
      simp only [hms] at hrow ⊢
      cases c with
      | none => rfl
      | some a =>
          obtain ⟨b, rfl, hab⟩ := h a rfl
          simp only [Option.all_some, decide_eq_true_eq] at hrow ⊢
          omega

theorem filter_retained_of_later (h : LaterCutoff c d) (rows : List Lib.Row) :
    (rows.filter (retained dateParse keepUntimed c)).filter (retained dateParse keepUntimed d) =
      rows.filter (retained dateParse keepUntimed d) := by
  rw [List.filter_filter]
  apply List.filter_congr
  intro row _
  cases hd : retained dateParse keepUntimed d row with
  | false => rfl
  | true => rw [retained_of_later h hd, Bool.and_self]

theorem retained_all {row : Lib.Row} : retained dateParse true none row = true := by
  unfold retained
  cases rowMs dateParse row <;> rfl

end retention

/-! ### A tail of some bytes -/

section tail

variable {dateParse : Text → Option ℤ} {keepUntimed : Bool} {parse : Text → Option Lib.Row}

/-- The arrays of a heap stay where they are. -/
def LiveTail.Grows (t u : LiveTail) : Prop := t.heap <+: u.heap

theorem LiveTail.Grows.array {t u : LiveTail} (h : t.Grows u) {place : ℕ} (hplace : place < t.heap.length) :
    u.array place = t.array place := by
  obtain ⟨more, hmore⟩ := h
  unfold LiveTail.array
  rw [← hmore, List.getD_append _ _ _ _ hplace]

theorem LiveTail.Grows.getElem? {t u : LiveTail} (h : t.Grows u) {place : ℕ} {rows : List Lib.Row}
    (hrows : t.heap[place]? = some rows) : u.heap[place]? = some rows := by
  obtain ⟨more, hmore⟩ := h
  obtain ⟨hlt, -⟩ := List.getElem?_eq_some_iff.mp hrows
  rw [← hmore, List.getElem?_append_left hlt]
  exact hrows

theorem getElem?_array {t : LiveTail} {place : ℕ} (h : place < t.heap.length) :
    t.heap[place]? = some (t.array place) := by
  unfold LiveTail.array
  rw [List.getD_eq_getElem?_getD, List.getElem?_eq_getElem h]
  rfl

/-- What a tail keeps about the rows of the complete lines `done`. -/
structure RowsOf (dateParse : Text → Option ℤ) (keepUntimed : Bool) (parse : Text → Option Lib.Row)
    (cutoff : Option ℤ) (done : Bytes) (t : LiveTail) : Prop where
  offset : t.offset = done.length
  ended : Ended done
  place : t.rows < t.heap.length
  rows : t.array t.rows = (rowsOfBytes parse done).filter (retained dateParse keepUntimed cutoff)

/-- What it keeps about the bytes `rest` after them.  The array with the row of these is one of the
rows at the place `base`, unless that row has aged out. -/
structure PendingOf (dateParse : Text → Option ℤ) (keepUntimed : Bool) (parse : Text → Option Lib.Row)
    (cutoff : Option ℤ) (rest : Bytes) (base : ℕ) (t : LiveTail) : Prop where
  noFeed : newline ∉ rest
  pendingBytes : t.pendingBytes = rest
  pendingRow : t.pendingRow = tentativeRow parse (utf8 rest)
  place : ∀ w ∈ t.withPending, w < t.heap.length
  withPending : ∀ w ∈ t.withPending, ∀ row ∈ t.pendingRow, retained dateParse keepUntimed cutoff row = true →
    t.array w = t.array base ++ [row]

/-- The invariant of a tail. -/
def TailOf (dateParse : Text → Option ℤ) (keepUntimed : Bool) (parse : Text → Option Lib.Row)
    (cutoff : Option ℤ) (done rest : Bytes) (t : LiveTail) : Prop :=
  RowsOf dateParse keepUntimed parse cutoff done t ∧ PendingOf dateParse keepUntimed parse cutoff rest t.rows t

theorem tailOf_start (cutoff : Option ℤ) : TailOf dateParse keepUntimed parse cutoff [] [] .start := by
  refine ⟨⟨rfl, Or.inl rfl, Nat.zero_lt_one, rfl⟩, ⟨List.not_mem_nil, rfl, rfl, ?_, ?_⟩⟩
  · intro w hw
    cases hw
  · intro w hw
    cases hw

theorem array_last (t : LiveTail) (heap : List (List Lib.Row)) (rows : List Lib.Row) (h : t.heap = heap ++ [rows]) :
    t.array heap.length = rows := by
  unfold LiveTail.array
  rw [h, List.getD_append_right _ _ _ _ le_rfl, Nat.sub_self]
  rfl

theorem tailOf_reset (t : LiveTail) (cutoff : Option ℤ) (identity : Option ℕ) :
    TailOf dateParse keepUntimed parse cutoff [] [] { t.reset with identity := identity } := by
  refine ⟨⟨rfl, Or.inl rfl, ?_, ?_⟩, ⟨List.not_mem_nil, rfl, rfl, ?_, ?_⟩⟩
  · change t.heap.length < (t.heap ++ [[]]).length
    rw [List.length_append]
    exact Nat.lt_succ_self _
  · exact array_last { t.reset with identity := identity } t.heap [] rfl
  · intro w hw
    cases hw
  · intro w hw
    cases hw

/-- A reset keeps the heap. -/
theorem grows_reset (t : LiveTail) (identity : Option ℕ) : t.Grows { t.reset with identity := identity } :=
  List.prefix_append t.heap [[]]

theorem setRows_spec (t : LiveTail) (rows : List Lib.Row) :
    (t.setRows rows).array (t.setRows rows).rows = rows ∧ (t.setRows rows).rows < (t.setRows rows).heap.length ∧
      t.Grows (t.setRows rows) := by
  refine ⟨array_last (t.setRows rows) t.heap rows rfl, ?_, List.prefix_append t.heap [rows]⟩
  change t.heap.length < (t.heap ++ [rows]).length
  rw [List.length_append]
  exact Nat.lt_succ_self _

/-- The heap grows, and only the rows, the head and the anchor may change. -/
structure RowsOnly (t u : LiveTail) : Prop where
  grows : t.Grows u
  identity : u.identity = t.identity
  offset : u.offset = t.offset
  pendingBytes : u.pendingBytes = t.pendingBytes
  pendingRow : u.pendingRow = t.pendingRow
  withPending : u.withPending = t.withPending

theorem RowsOnly.refl (t : LiveTail) : RowsOnly t t := ⟨List.prefix_rfl, rfl, rfl, rfl, rfl, rfl⟩

theorem rowsOnly_setRows (t : LiveTail) (rows : List Lib.Row) : RowsOnly t (t.setRows rows) :=
  ⟨List.prefix_append t.heap [rows], rfl, rfl, rfl, rfl, rfl⟩

theorem RowsOnly.trans {t u v : LiveTail} (h : RowsOnly t u) (h' : RowsOnly u v) : RowsOnly t v :=
  ⟨h.grows.trans h'.grows, h'.identity.trans h.identity, h'.offset.trans h.offset,
    h'.pendingBytes.trans h.pendingBytes, h'.pendingRow.trans h.pendingRow, h'.withPending.trans h.withPending⟩

theorem appendRows_spec {t : LiveTail} (hplace : t.rows < t.heap.length) (appended : List Lib.Row) :
    let u := if appended.isEmpty then t else t.setRows (t.array t.rows ++ appended)
    u.rows < u.heap.length ∧ u.array u.rows = t.array t.rows ++ appended ∧ RowsOnly t u := by
  intro u
  by_cases hempty : appended.isEmpty
  · have hu : u = t := if_pos hempty
    rw [hu, List.isEmpty_iff.mp hempty, List.append_nil]
    exact ⟨hplace, rfl, RowsOnly.refl t⟩
  · have hu : u = t.setRows (t.array t.rows ++ appended) := if_neg hempty
    obtain ⟨harray, hplace', -⟩ := setRows_spec t (t.array t.rows ++ appended)
    rw [hu]
    exact ⟨hplace', harray, rowsOnly_setRows t _⟩

theorem ageOut_spec {t : LiveTail} (hplace : t.rows < t.heap.length) (cutoff : Option ℤ) :
    let kept := (t.array t.rows).filter (retained dateParse keepUntimed cutoff)
    let u := if cutoff.isNone && keepUntimed then t
      else if kept.length ≠ (t.array t.rows).length then t.setRows kept else t
    u.rows < u.heap.length ∧ u.array u.rows = kept ∧ RowsOnly t u := by
  intro kept u
  by_cases hnone : cutoff.isNone && keepUntimed
  · have hu : u = t := if_pos hnone
    rw [Bool.and_eq_true, Option.isNone_iff_eq_none] at hnone
    obtain ⟨rfl, rfl⟩ := hnone
    have hall : kept = t.array t.rows := List.filter_eq_self.mpr fun row _ => retained_all
    rw [hu, hall]
    exact ⟨hplace, rfl, RowsOnly.refl t⟩
  · by_cases hlength : kept.length ≠ (t.array t.rows).length
    · have hu : u = t.setRows kept := by rw [show u = _ from if_neg hnone, if_pos hlength]
      obtain ⟨harray, hplace', -⟩ := setRows_spec t kept
      rw [hu]
      exact ⟨hplace', harray, rowsOnly_setRows t _⟩
    · have hu : u = t := by rw [show u = _ from if_neg hnone, if_neg hlength]
      rw [not_not] at hlength
      have hall : kept = t.array t.rows := List.filter_sublist.eq_of_length hlength
      rw [hu, hall]
      exact ⟨hplace, rfl, RowsOnly.refl t⟩

/-- The complete lines of the chunk are read. -/
theorem readRows_spec {t : LiveTail} {c d : Option ℤ} {done : Bytes} {f : LiveFile}
    (h : RowsOf dateParse keepUntimed parse c done t) (hlater : LaterCutoff c d) :
    let chunk := f.bytes.drop t.offset
    let u := readRows dateParse keepUntimed parse d t f
    RowsOf dateParse keepUntimed parse d (done ++ chunk.take (lineEnd chunk)) u ∧ t.Grows u ∧
      u.identity = t.identity ∧ u.pendingBytes = t.pendingBytes ∧ u.pendingRow = t.pendingRow ∧
      u.withPending = t.withPending := by
  intro chunk u
  -- the tail with its new offset, the one with the rows appended, and the one without those aged out
  let moved : LiveTail := { t with
    offset := t.offset + lineEnd chunk
    head := if 0 < t.offset + lineEnd chunk then bytesAt f.bytes 0 (min anchorBytes (t.offset + lineEnd chunk)) else t.head
    anchor := if 0 < t.offset + lineEnd chunk then
      bytesAt f.bytes (t.offset + lineEnd chunk - min anchorBytes (t.offset + lineEnd chunk))
        (min anchorBytes (t.offset + lineEnd chunk)) else t.anchor }
  have hmoved : moved.rows < moved.heap.length := h.place
  obtain ⟨happlace, happended, happonly⟩ :=
    appendRows_spec hmoved (rowsOfText parse (utf8 (chunk.take (lineEnd chunk))))
  obtain ⟨hplace, hkept, hkeptonly⟩ := @ageOut_spec dateParse keepUntimed _ happlace d
  have honly := happonly.trans hkeptonly
  refine ⟨⟨?_, h.ended.append (ended_take_lineEnd chunk), hplace, ?_⟩, honly.grows, honly.identity,
    honly.pendingBytes, honly.pendingRow, honly.withPending⟩
  · have hend : lineEnd chunk ≤ chunk.length := Nat.sub_le _ _
    rw [List.length_append, List.length_take, min_eq_left hend, ← h.offset]
    exact honly.offset
  · have hrows : moved.array moved.rows = (rowsOfBytes parse done).filter (retained dateParse keepUntimed c) := h.rows
    refine hkept.trans ?_
    rw [happended, hrows, rowsOfBytes_append h.ended, List.filter_append, List.filter_append,
      filter_retained_of_later hlater]
    rfl

/-- The bytes after the complete lines are read, or are those of the last call. -/
theorem readPending_spec {t u : LiveTail} {c d : Option ℤ} {rest : Bytes} {f : LiveFile}
    (h : PendingOf dateParse keepUntimed parse c rest t.rows t) (hplace : t.rows < t.heap.length)
    (hlater : LaterCutoff c d) (hgrows : t.Grows u) (hbytes : u.pendingBytes = t.pendingBytes)
    (hrow : u.pendingRow = t.pendingRow) (hwith : u.withPending = t.withPending) :
    let chunk := f.bytes.drop t.offset
    PendingOf dateParse keepUntimed parse d (chunk.drop (lineEnd chunk)) t.rows (readPending parse t u f) := by
  intro chunk
  have hnoFeed := newline_not_mem_drop_lineEnd chunk
  by_cases hnew : (decide (0 < lineEnd chunk) || chunk.drop (lineEnd chunk) != t.pendingBytes) = true
  · have hread : readPending parse t u f =
        { u with
          pendingBytes := chunk.drop (lineEnd chunk)
          pendingRow := tentativeRow parse (utf8 (chunk.drop (lineEnd chunk)))
          withPending := none } := if_pos hnew
    rw [hread]
    refine ⟨hnoFeed, rfl, rfl, ?_, ?_⟩
    · intro w hw
      cases hw
    · intro w hw
      cases hw
  · have hread : readPending parse t u f = u := if_neg hnew
    rw [hread]
    simp only [Bool.or_eq_true, decide_eq_true_eq, bne_iff_ne, ne_eq, not_or, not_not] at hnew
    have hrest : chunk.drop (lineEnd chunk) = rest := hnew.2.trans h.pendingBytes
    rw [hrest] at hnoFeed ⊢
    refine ⟨hnoFeed, hbytes.trans h.pendingBytes, hrow.trans h.pendingRow, ?_, ?_⟩
    · intro w hw
      rw [hwith] at hw
      exact lt_of_lt_of_le (h.place w hw) hgrows.length_le
    · intro w hw row hmem hretained
      rw [hwith] at hw
      rw [hrow] at hmem
      rw [hgrows.array (h.place w hw), hgrows.array hplace]
      exact h.withPending w hw row hmem (retained_of_later hlater hretained)

theorem readPending_rowsOf {t u : LiveTail} {d : Option ℤ} {done : Bytes} {f : LiveFile}
    (h : RowsOf dateParse keepUntimed parse d done u) :
    RowsOf dateParse keepUntimed parse d done (readPending parse t u f) := by
  unfold readPending
  dsimp only
  split
  · exact ⟨h.offset, h.ended, h.place, h.rows⟩
  · exact h

theorem readPending_frame (t u : LiveTail) (f : LiveFile) :
    (readPending parse t u f).heap = u.heap ∧ (readPending parse t u f).identity = u.identity := by
  unfold readPending
  dsimp only
  split <;> exact ⟨rfl, rfl⟩

/-- The rows of complete lines and of the bytes after them. -/
theorem filter_rowsOfBytes {cutoff : Option ℤ} {done rest : Bytes} (hended : Ended done) (hnoFeed : newline ∉ rest) :
    (rowsOfBytes parse (done ++ rest)).filter (retained dateParse keepUntimed cutoff) =
      (rowsOfBytes parse done).filter (retained dateParse keepUntimed cutoff) ++
        (tentativeRow parse (utf8 rest)).toList.filter (retained dateParse keepUntimed cutoff) := by
  rw [rowsOfBytes_append hended, List.filter_append, rowsOfBytes_of_not_mem hnoFeed]

/-- A new array of the rows and the row of the bytes after them. -/
theorem tailOf_newPending {t : LiveTail} {cutoff : Option ℤ} {done rest : Bytes} {base : ℕ} {row : Lib.Row}
    (hrows : RowsOf dateParse keepUntimed parse cutoff done t)
    (hpending : PendingOf dateParse keepUntimed parse cutoff rest base t) (hrow : t.pendingRow = some row) :
    let u := { t with withPending := some t.heap.length, heap := t.heap ++ [t.array t.rows ++ [row]] }
    TailOf dateParse keepUntimed parse cutoff done rest u ∧ t.Grows u ∧ t.heap.length < u.heap.length ∧
      u.array t.heap.length = t.array t.rows ++ [row] := by
  intro u
  have hgrows : t.Grows u := List.prefix_append t.heap _
  have hlast : u.array t.heap.length = t.array t.rows ++ [row] := array_last u t.heap _ rfl
  have hlength : t.heap.length < u.heap.length := by
    change t.heap.length < (t.heap ++ [t.array t.rows ++ [row]]).length
    rw [List.length_append]
    exact Nat.lt_succ_self _
  have hsame : u.array u.rows = t.array t.rows := hgrows.array hrows.place
  refine ⟨⟨⟨hrows.offset, hrows.ended, hrows.place.trans hlength, hsame.trans hrows.rows⟩,
    ⟨hpending.noFeed, hpending.pendingBytes, hpending.pendingRow, ?_, ?_⟩⟩, hgrows, hlength, hlast⟩
  · intro w hw
    obtain rfl := Option.some.inj hw
    exact hlength
  · intro w hw r hr _
    obtain rfl := Option.some.inj hw
    obtain rfl := Option.some.inj (hrow.symm.trans hr)
    rw [hsame]
    exact hlast

/-- The array that is returned has the rows of the whole file. -/
theorem answer_spec {t : LiveTail} {cutoff : Option ℤ} {done rest : Bytes} {base : ℕ}
    (hrows : RowsOf dateParse keepUntimed parse cutoff done t)
    (hpending : PendingOf dateParse keepUntimed parse cutoff rest base t) :
    let r := answer dateParse keepUntimed cutoff base t
    TailOf dateParse keepUntimed parse cutoff done rest r.2 ∧ t.Grows r.2 ∧ r.2.identity = t.identity ∧
      r.1 < r.2.heap.length ∧
      r.2.array r.1 = (rowsOfBytes parse (done ++ rest)).filter (retained dateParse keepUntimed cutoff) := by
  intro r
  have hfresh := @filter_rowsOfBytes dateParse keepUntimed parse cutoff _ _ hrows.ended hpending.noFeed
  rw [hfresh, ← hrows.rows, ← hpending.pendingRow]
  cases hrow : t.pendingRow with
  | none =>
      have hr : r = (t.rows, t) := by
        change answer dateParse keepUntimed cutoff base t = _
        unfold answer
        rw [hrow]
      rw [hr]
      refine ⟨⟨hrows, ⟨hpending.noFeed, hpending.pendingBytes, hpending.pendingRow, hpending.place, ?_⟩⟩,
        List.prefix_rfl, rfl, hrows.place, (List.append_nil _).symm⟩
      intro w _ row hmem
      rw [hrow] at hmem
      cases hmem
  | some row =>
      cases hretained : retained dateParse keepUntimed cutoff row with
      | false =>
          have hr : r = (t.rows, t) := by
            change answer dateParse keepUntimed cutoff base t = _
            unfold answer
            simp only [hrow, hretained]
            rfl
          rw [hr]
          refine ⟨⟨hrows, ⟨hpending.noFeed, hpending.pendingBytes, hpending.pendingRow, hpending.place, ?_⟩⟩,
            List.prefix_rfl, rfl, hrows.place, ?_⟩
          · intro w _ row' hmem hret
            obtain rfl := Option.some.inj (hrow.symm.trans hmem)
            rw [hretained] at hret
            cases hret
          · simp [hretained]
      | true =>
          have hlist : (some row).toList.filter (retained dateParse keepUntimed cutoff) = [row] := by simp [hretained]
          rw [hlist]
          -- the array of an earlier call is of these rows only if they are the same array as then
          by_cases hold : ∃ w, t.withPending = some w ∧ t.rows = base
          · obtain ⟨w, hw, hsame⟩ := hold
            have hr : r = (w, t) := by
              change answer dateParse keepUntimed cutoff base t = _
              unfold answer
              simp only [hrow, hretained, hw, hsame, if_true]
            rw [hr]
            have harray : t.array w = t.array t.rows ++ [row] := by
              rw [hsame]
              exact hpending.withPending w hw row hrow hretained
            rw [← hsame] at hpending
            exact ⟨⟨hrows, hpending⟩, List.prefix_rfl, rfl, hpending.place w hw, harray⟩
          · have hr : r = (t.heap.length,
                { t with withPending := some t.heap.length, heap := t.heap ++ [t.array t.rows ++ [row]] }) := by
              change answer dateParse keepUntimed cutoff base t = _
              unfold answer
              simp only [hrow, hretained, if_true]
              cases hw : t.withPending with
              | none => rfl
              | some w => exact if_neg fun hsame => hold ⟨w, hw, hsame⟩
            rw [hr]
            obtain ⟨htail, hgrows, hlength, harray⟩ := tailOf_newPending hrows hpending hrow
            exact ⟨htail, hgrows, rfl, hlength, harray⟩

/-- What a call leaves and returns. -/
structure CallOf (dateParse : Text → Option ℤ) (keepUntimed : Bool) (parse : Text → Option Lib.Row)
    (cutoff : Option ℤ) (file : Option LiveFile) (t : LiveTail) (r : ℕ × LiveTail) : Prop where
  tail : ∃ done rest, TailOf dateParse keepUntimed parse cutoff done rest r.2 ∧
    ∀ f ∈ file, done ++ rest = f.bytes
  identity : r.2.identity = file.map LiveFile.ino
  grows : t.Grows r.2
  place : r.1 < r.2.heap.length
  rows : r.2.array r.1 =
    (rowsOfBytes parse (file.elim [] LiveFile.bytes)).filter (retained dateParse keepUntimed cutoff)

theorem call_none (t : LiveTail) (cutoff : Option ℤ) :
    CallOf dateParse keepUntimed parse cutoff none t (t.call dateParse keepUntimed parse cutoff none) := by
  let u : LiveTail := { t.reset with heap := t.reset.heap ++ [[]] }
  have hgrows : t.reset.Grows u := List.prefix_append t.reset.heap [[]]
  have hreset : TailOf dateParse keepUntimed parse cutoff [] [] t.reset := tailOf_reset t cutoff none
  have hlength : t.reset.heap.length < u.heap.length := by
    change t.reset.heap.length < (t.reset.heap ++ [[]]).length
    rw [List.length_append]
    exact Nat.lt_succ_self _
  refine ⟨⟨[], [], ⟨⟨rfl, Or.inl rfl, hreset.1.place.trans hlength, ?_⟩,
    ⟨List.not_mem_nil, rfl, rfl, ?_, ?_⟩⟩, ?_⟩, rfl, (grows_reset t none).trans hgrows, hlength, ?_⟩
  · exact (hgrows.array hreset.1.place).trans hreset.1.rows
  · intro w hw
    cases hw
  · intro w hw
    cases hw
  · intro f hf
    cases hf
  · exact array_last u t.reset.heap [] rfl

/-- A tail whose complete lines are a beginning of the file reads on. -/
theorem read_spec {t : LiveTail} {c d : Option ℤ} {done rest : Bytes} {f : LiveFile}
    (h : TailOf dateParse keepUntimed parse c done rest t) (hlater : LaterCutoff c d)
    (hdone : f.bytes.take t.offset = done) (hino : t.identity = some f.ino) :
    CallOf dateParse keepUntimed parse d (some f) t (answer dateParse keepUntimed d t.rows
      (readPending parse t (readRows dateParse keepUntimed parse d t f) f)) := by
  obtain ⟨hrows, hgrows, hidentity, hbytes, hrow, hwith⟩ := @readRows_spec _ _ _ _ _ _ _ f h.1 hlater
  have hpending := @readPending_spec _ _ _ _ _ _ _ _ f h.2 h.1.place hlater hgrows hbytes hrow hwith
  have hrows' := @readPending_rowsOf _ _ _ t _ _ _ f hrows
  obtain ⟨hheap, hidentity'⟩ := @readPending_frame parse t (readRows dateParse keepUntimed parse d t f) f
  obtain ⟨htail, hanswer, hsame, hplace, harray⟩ := answer_spec hrows' hpending
  have hall : (done ++ (f.bytes.drop t.offset).take (lineEnd (f.bytes.drop t.offset))) ++
      (f.bytes.drop t.offset).drop (lineEnd (f.bytes.drop t.offset)) = f.bytes := by
    rw [List.append_assoc, List.take_append_drop, ← hdone, List.take_append_drop]
  refine ⟨⟨_, _, htail, ?_⟩, ?_, ?_, hplace, ?_⟩
  · intro g hg
    obtain rfl := Option.some.inj hg
    exact hall
  · exact hsame.trans (hidentity'.trans (hidentity.trans hino))
  · unfold LiveTail.Grows at hgrows hanswer ⊢
    rw [hheap] at hanswer
    exact hgrows.trans hanswer
  · rw [harray, hall]
    rfl

/-- A call is right if the tail reads on only where its complete lines are a beginning of the file. -/
theorem call_spec {t : LiveTail} {c d : Option ℤ} {done rest : Bytes} {file : Option LiveFile}
    (h : TailOf dateParse keepUntimed parse c done rest t) (hlater : LaterCutoff c d)
    (hsame : ∀ f ∈ file, t.identity = some f.ino → t.offset ≤ f.bytes.length → rewritten t f.bytes = false →
      f.bytes.take t.offset = done) :
    CallOf dateParse keepUntimed parse d file t (t.call dateParse keepUntimed parse d file) := by
  cases file with
  | none => exact call_none t d
  | some f =>
      change CallOf dateParse keepUntimed parse d (some f) t (answer dateParse keepUntimed d (refresh t f).rows
        (readPending parse (refresh t f) (readRows dateParse keepUntimed parse d (refresh t f) f) f))
      by_cases hagain : (t.identity ≠ some f.ino || decide (f.bytes.length < t.offset) || rewritten t f.bytes) = true
      · have hrefresh : refresh t f = { t.reset with identity := some f.ino } := if_pos hagain
        rw [hrefresh]
        have hreset : TailOf dateParse keepUntimed parse c [] [] { t.reset with identity := some f.ino } :=
          tailOf_reset t c (some f.ino)
        have hread := read_spec hreset hlater rfl rfl
        exact ⟨hread.tail, hread.identity, (grows_reset t _).trans hread.grows, hread.place, hread.rows⟩
      · have hrefresh : refresh t f = t := if_neg hagain
        simp only [Bool.or_eq_true, decide_eq_true_eq, not_or, not_not, not_lt, Bool.not_eq_true] at hagain
        obtain ⟨⟨hino, hlength⟩, hrewritten⟩ := hagain
        rw [hrefresh]
        exact read_spec h hlater (hsame f rfl hino hlength hrewritten) hino

end tail

/-! ### Every history -/

section run

variable {dateParse : Text → Option ℤ} {keepUntimed : Bool} {parse : Text → Option Lib.Row} {retainMs : Option ℤ}

/-- The invariant of a history.  While the file is the one of the last call, its first `kept` bytes are
those of then. -/
structure LiveHistory.Follows (dateParse : Text → Option ℤ) (keepUntimed : Bool) (parse : Text → Option Lib.Row)
    (retainMs : Option ℤ) (s : LiveHistory) : Prop where
  tail : ∃ done rest, TailOf dateParse keepUntimed parse (cutoffAt retainMs s.now) done rest s.tail ∧
    ∀ f ∈ s.file, s.tail.identity = some f.ino →
      s.kept ≤ f.bytes.length ∧ f.bytes.take s.kept = (done ++ rest).take s.kept
  identity : ∀ i ∈ s.tail.identity, i < s.nextIno
  file : ∀ f ∈ s.file, f.ino < s.nextIno
  returned : ∀ p ∈ s.returned, s.tail.heap[p.1]? = some p.2

namespace LiveHistory

theorem follows_start (file : Option Bytes) : (start file).Follows dateParse keepUntimed parse retainMs := by
  refine ⟨⟨[], [], tailOf_start _, ?_⟩, ?_, ?_, ?_⟩
  · intro f _ hf
    cases hf
  · intro i hi
    cases hi
  · intro f hf
    obtain ⟨bytes, -, rfl⟩ := Option.map_eq_some_iff.mp hf
    exact Nat.zero_lt_one
  · intro p hp
    cases hp

/-- A file with an inode of its own. -/
theorem Follows.fresh_file {s : LiveHistory} (h : s.Follows dateParse keepUntimed parse retainMs) (bytes : Bytes)
    (former : Option ℕ) :
    ({ s with
      file := some ⟨s.nextIno, bytes⟩
      nextIno := s.nextIno + 1
      former := former } : LiveHistory).Follows dateParse keepUntimed parse retainMs := by
  obtain ⟨done, rest, htail, -⟩ := h.tail
  refine ⟨⟨done, rest, htail, ?_⟩, ?_, ?_, h.returned⟩
  · intro f hf hino
    obtain rfl := Option.some.inj hf
    exact absurd (h.identity _ hino) (lt_irrefl _)
  · intro i hi
    exact Nat.lt_succ_of_lt (h.identity i hi)
  · intro f hf
    obtain rfl := Option.some.inj hf
    exact Nat.lt_succ_self _

/-- The same file, longer or cut: what stays of the first bytes. -/
theorem Follows.same_file {s : LiveHistory} (h : s.Follows dateParse keepUntimed parse retainMs) {f : LiveFile}
    (hf : s.file = some f) {bytes : Bytes} {kept : ℕ} (former : Option ℕ) (hkept : kept ≤ s.kept)
    (hbytes : s.kept ≤ f.bytes.length → kept ≤ bytes.length ∧ bytes.take kept = f.bytes.take kept) :
    ({ s with
      file := some ⟨f.ino, bytes⟩
      kept := kept
      former := former } : LiveHistory).Follows dateParse keepUntimed parse retainMs := by
  obtain ⟨done, rest, htail, hfile⟩ := h.tail
  refine ⟨⟨done, rest, htail, ?_⟩, h.identity, ?_, h.returned⟩
  · intro g hg hino
    obtain rfl := Option.some.inj hg
    obtain ⟨hlength, hsame⟩ := hfile f hf hino
    obtain ⟨hlength', hsame'⟩ := hbytes hlength
    refine ⟨hlength', ?_⟩
    calc bytes.take kept = f.bytes.take kept := hsame'
      _ = (f.bytes.take s.kept).take kept := by rw [List.take_take, min_eq_left hkept]
      _ = ((done ++ rest).take s.kept).take kept := by rw [hsame]
      _ = (done ++ rest).take kept := by rw [List.take_take, min_eq_left hkept]
  · intro g hg
    obtain rfl := Option.some.inj hg
    exact h.file f hf

/-- What a call of a history does. -/
theorem Follows.callOf {s : LiveHistory} (h : s.Follows dateParse keepUntimed parse retainMs) {now : ℤ}
    (hobserved : s.Observed (.call now)) :
    CallOf dateParse keepUntimed parse (cutoffAt retainMs (some now)) s.file s.tail
      (s.tail.call dateParse keepUntimed parse (cutoffAt retainMs (some now)) s.file) := by
  obtain ⟨hnow, hcut⟩ := hobserved
  obtain ⟨done, rest, htail, hfile⟩ := h.tail
  refine call_spec htail (laterCutoff_cutoffAt hnow) ?_
  intro f hf hino hlength hrewritten
  obtain ⟨-, hsame⟩ := hfile f hf hino
  -- a file cut below the offset would have been read again
  have hkept : s.tail.offset ≤ s.kept := by
    by_contra hlt
    obtain hshort | hchanged := hcut f hf hino (not_le.mp hlt)
    · omega
    · rw [hrewritten] at hchanged
      cases hchanged
  calc f.bytes.take s.tail.offset = (f.bytes.take s.kept).take s.tail.offset := by
        rw [List.take_take, min_eq_left hkept]
    _ = ((done ++ rest).take s.kept).take s.tail.offset := by rw [hsame]
    _ = (done ++ rest).take s.tail.offset := by rw [List.take_take, min_eq_left hkept]
    _ = done := by
        rw [htail.1.offset]
        exact List.take_left

theorem follows_call {s : LiveHistory} (h : s.Follows dateParse keepUntimed parse retainMs) {now : ℤ}
    (hobserved : s.Observed (.call now)) :
    (s.next dateParse keepUntimed parse retainMs (.call now)).Follows dateParse keepUntimed parse retainMs := by
  have hcall := h.callOf hobserved
  obtain ⟨done, rest, htail, hall⟩ := hcall.tail
  refine ⟨⟨done, rest, htail, ?_⟩, ?_, h.file, ?_⟩
  · intro f hf _
    have hkept : (s.next dateParse keepUntimed parse retainMs (.call now)).kept = f.bytes.length := by
      have hf' : s.file = some f := hf
      simp only [next, hf', Option.elim_some]
    rw [hkept, hall f hf]
    exact ⟨le_rfl, rfl⟩
  · intro i hi
    have hmap : s.file.map LiveFile.ino = some i := hcall.identity.symm.trans hi
    obtain ⟨f, hf, rfl⟩ := Option.map_eq_some_iff.mp hmap
    exact h.file f hf
  · intro p hp
    obtain rfl | hp := List.mem_cons.mp hp
    · exact getElem?_array hcall.place
    · exact hcall.grows.getElem? (h.returned p hp)

theorem follows_next {s : LiveHistory} (h : s.Follows dateParse keepUntimed parse retainMs) {e : LiveEvent}
    (hobserved : s.Observed e) :
    (s.next dateParse keepUntimed parse retainMs e).Follows dateParse keepUntimed parse retainMs := by
  cases e with
  | append bytes =>
      cases hf : s.file with
      | none =>
          have hnext : s.next dateParse keepUntimed parse retainMs (.append bytes) =
              { s with file := some ⟨s.nextIno, bytes⟩, nextIno := s.nextIno + 1 } := by simp only [next, hf]
          rw [hnext]
          exact h.fresh_file bytes s.former
      | some f =>
          have hnext : s.next dateParse keepUntimed parse retainMs (.append bytes) =
              { s with file := some ⟨f.ino, f.bytes ++ bytes⟩ } := by simp only [next, hf]
          rw [hnext]
          refine h.same_file hf s.former le_rfl fun hlength => ⟨?_, List.take_append_of_le_length hlength⟩
          rw [List.length_append]
          omega
  | rename bytes => exact h.fresh_file bytes none
  | delete =>
      obtain ⟨done, rest, htail, -⟩ := h.tail
      refine ⟨⟨done, rest, htail, ?_⟩, h.identity, ?_, h.returned⟩
      · intro f hf
        cases hf
      · intro f hf
        cases hf
  | truncate length =>
      cases hf : s.file with
      | none =>
          have hnext : s.next dateParse keepUntimed parse retainMs (.truncate length) = s := by simp only [next, hf]
          rw [hnext]
          exact h
      | some f =>
          have hnext : s.next dateParse keepUntimed parse retainMs (.truncate length) =
              { s with
                file := some ⟨f.ino, f.bytes.take length⟩
                kept := min s.kept length
                former := if length < f.bytes.length then some f.bytes.length else s.former } := by
            simp only [next, hf]
          rw [hnext]
          refine h.same_file hf _ (min_le_left _ _) fun hlength => ⟨?_, ?_⟩
          · rw [List.length_take]
            omega
          · rw [List.take_take, min_eq_left (min_le_right _ _)]
  | call now => exact follows_call h hobserved

theorem follows_run {file : Option Bytes} {es : List LiveEvent} {s : LiveHistory}
    (hr : Run (Guarded (Step dateParse keepUntimed parse retainMs) Observed) (.start file) es s) :
    s.Follows dateParse keepUntimed parse retainMs := by
  refine hr.invariant ?_ (follows_start file)
  rintro s e t h ⟨rfl, hobserved⟩
  exact follows_next h hobserved

end LiveHistory

/-- In every history whose truncations are observed, a call returns the retained rows of a full parse of
the file as it is, and the arrays returned so far are what they were. -/
theorem live_tail_eq_fresh (dateParse : Text → Option ℤ) (keepUntimed : Bool) (parse : Text → Option Lib.Row)
    (retainMs : Option ℤ) (file : Option Bytes) (es : List LiveEvent) (now : ℤ) (s : LiveHistory)
    (hr : Run (Guarded (LiveHistory.Step dateParse keepUntimed parse retainMs) LiveHistory.Observed)
      (.start file) (es ++ [.call now]) s) :
    s.returned.head?.map Prod.snd = some (freshRows dateParse keepUntimed parse retainMs now s.file) ∧
      ∀ p ∈ s.returned, s.tail.heap[p.1]? = some p.2 := by
  refine ⟨?_, (LiveHistory.follows_run hr).returned⟩
  obtain ⟨t, ht, rfl, hobserved⟩ := hr.snoc_inv
  have hcall := (LiveHistory.follows_run ht).callOf hobserved
  exact congrArg some hcall.rows

/-- `JSON.parse` where the only object is the empty one. -/
def parseEmptyObject (t : Text) : Option Lib.Row := if t = ['\x7b', '\x7d'] then some [] else none

/-- A line is read, the line after it before it ends, and then the file is cut in the first one. -/
theorem live_tail_eq_fresh_cut :
    ∃ s : LiveHistory, s.file = some ⟨0, [0x7b]⟩ ∧ s.returned.length = 3 ∧
      s.returned.head?.map Prod.snd = some (freshRows (fun _ => none) true parseEmptyObject none 2 s.file) ∧
      ∀ p ∈ s.returned, s.tail.heap[p.1]? = some p.2 := by
  let step := LiveHistory.next (fun _ => none) true parseEmptyObject none
  let first := step (.start (some [0x7b, 0x7d, 0x0a])) (.call 0)
  let second := step (step first (.append [0x7b, 0x7d])) (.call 1)
  let cut := step second (.truncate 1)
  have hrun : Run (Guarded (LiveHistory.Step (fun _ => none) true parseEmptyObject none) LiveHistory.Observed)
      (.start (some [0x7b, 0x7d, 0x0a])) ([.call 0, .append [0x7b, 0x7d], .call 1, .truncate 1] ++ [.call 2])
      (step cut (.call 2)) := by
    refine Run.cons ⟨rfl, ?_, ?_⟩ (Run.cons ⟨rfl, trivial⟩ (Run.cons ⟨rfl, ?_, ?_⟩
      (Run.cons ⟨rfl, trivial⟩ (Run.cons ⟨rfl, ?_, ?_⟩ Run.nil))))
    · intro n hn
      cases hn
    · intro f _ hino
      cases hino
    · intro n hn
      obtain rfl := Option.some.inj hn
      decide
    · intro f _ _ hkept
      exact absurd hkept (by decide +kernel)
    · intro n hn
      obtain rfl := Option.some.inj hn
      decide
    · intro f hf _ _
      obtain rfl := Option.some.inj hf
      exact Or.inl (by decide +kernel)
  have hshown : (step cut (.call 2)).file = some ⟨0, [0x7b]⟩ ∧ (step cut (.call 2)).returned.length = 3 := by
    decide +kernel
  exact ⟨_, hshown.1, hshown.2, live_tail_eq_fresh _ _ _ _ _ _ _ _ hrun⟩

/-- Two hundred line feeds and a blank are read; the file is cut to its first 64 bytes and grows again to
two hundred bytes, one less than it had, with an object and line feeds: the object is not returned. -/
theorem regrown_file_is_misread :
    let file : Bytes := List.replicate 200 newline ++ [0x20]
    let more : Bytes := [0x7b, 0x7d] ++ List.replicate 134 newline
    ∃ s : LiveHistory, Run (Guarded (LiveHistory.Step (fun _ => none) true parseEmptyObject none) LiveHistory.BelowFormer)
        (.start (some file)) ([.call 0, .truncate 64, .append more] ++ [.call 0]) s ∧
      s.returned.head?.map Prod.snd ≠ some (freshRows (fun _ => none) true parseEmptyObject none 0 s.file) := by
  intro file more
  let step := LiveHistory.next (fun _ => none) true parseEmptyObject none
  let cut := step (step (.start (some file)) (.call 0)) (.truncate 64)
  let last := step (step cut (.append more)) (.call 0)
  have hcut : cut.file.map (fun f => f.bytes.length) = some 64 ∧ cut.former = some 201 ∧
      (step cut (.append more)).now = some 0 ∧ more.length = 136 ∧
      last.returned.head?.map (fun p => p.2.length) ≠
        some (freshRows (fun _ => none) true parseEmptyObject none 0 last.file).length := by
    decide +kernel
  obtain ⟨hlength, hformer, hnow, hmore, hshort⟩ := hcut
  refine ⟨last, Run.cons ⟨rfl, ?_⟩ (Run.cons ⟨rfl, trivial⟩ (Run.cons ⟨rfl, ?_⟩ (Run.cons ⟨rfl, ?_⟩ Run.nil))), ?_⟩
  · intro n hn
    cases hn
  · intro f hf former hfm
    obtain rfl := Option.some.inj (hformer.symm.trans hfm)
    rw [show cut.file = some f from hf] at hlength
    have hbytes : f.bytes.length = 64 := Option.some.inj hlength
    rw [hbytes, hmore]
    decide
  · intro n hn
    obtain rfl := Option.some.inj (hnow.symm.trans hn)
    exact le_rfl
  · intro heq
    apply hshort
    have hlengths := congrArg (Option.map List.length) heq
    rwa [Option.map_map] at hlengths

end run

end Remudero.Ledger
