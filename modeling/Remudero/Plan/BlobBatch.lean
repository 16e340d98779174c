import Remudero.Lib.Encode
import Remudero.Lib.Lines
import Remudero.Lib.Number

/-! # Batch framing

`parseBlobBatch` of `lib/plan.ts`: the blobs in what one `git cat-file --batch` printed.  The printed bytes reach
it as a text, decoded by the process runner, and it encodes that text again to count in bytes.

The main result is `parseBlobBatch_exact`: the blobs of a whole output are read back, a cut output fails
except where the cut is inside a character near the end of the last contents (`HidesCut`), and an output with a
missing object fails except where the line for it reads as the header of a blob (`LooksLikeBlob`). -/

namespace Remudero.Plan.BlobBatch

open Remudero.Lib Remudero.Lib.Number Remudero.Lib.Text

/-! ### The parser -/

/-- `buf.indexOf(b, off)`. -/
def indexOf (buf : Bytes) (b : UInt8) (off : ℕ) : Option ℕ := ((buf.drop off).idxOf? b).map (off + ·)

/-- The bytes from `start` to `stop`. -/
def slice (buf : Bytes) (start stop : ℕ) : Bytes := (buf.take stop).drop start

/-- `header.split(" ")`. -/
def fieldsOf (header : Text) : List Text := Text.splitBy (· == ' ') header

/-- `Number(field)` if it is an integer and not negative. -/
def usableSize (field : Text) : Option ℕ :=
  match number field with
  | some q => if q.den = 1 ∧ 0 ≤ q then some q.num.toNat else none
  | none => none

def atRef (ref relPath : Text) : Text := ref ++ ":".toList ++ relPath

/-- The text of the next blob and the offset after it. -/
def readBlob (buf : Bytes) (ref relPath : Text) (off : ℕ) : Except Text (Text × ℕ) :=
  match indexOf buf 0x0a off with
  | none => .error ("git cat-file --batch output ended before ".toList ++ atRef ref relPath)
  | some nl =>
      let header := utf8 (slice buf off nl)
      let off := nl + 1
      let fields := fieldsOf header
      -- `<input> missing` and `<input> ambiguous` are meant to end here
      if fields.length < 3 ∨ fields.getD 1 [] ≠ "blob".toList then
        .error ("git cat-file --batch could not read ".toList ++ atRef ref relPath ++ " (".toList ++ header ++ ")".toList)
      else
        let unusable : Text :=
          "git cat-file --batch gave an unusable size for ".toList ++ atRef ref relPath ++ " (".toList ++ header ++ ")".toList
        match usableSize (fields.getD 2 []) with
        | none => .error unusable
        | some size =>
            if buf.length < off + size then .error unusable
            else .ok (utf8 (slice buf off (off + size)), off + size + 1)

def parseFrom (buf : Bytes) (ref : Text) : ℕ → List Text → Except Text (List Text)
  | _, [] => .ok []
  | off, relPath :: relPaths =>
      match readBlob buf ref relPath off with
      | .error e => .error e
      | .ok (text, off) =>
          match parseFrom buf ref off relPaths with
          | .error e => .error e
          | .ok texts => .ok (text :: texts)

def parseBlobBatch (raw ref : Text) (relPaths : List Text) : Except Text (List Text) :=
  parseFrom (encode raw) ref 0 relPaths

/-! ### What git prints -/

structure Blob where
  oid : Text
  text : Text
  hex : ∀ c ∈ oid, (hexValue c).isSome = true

/-- A line of the request. -/
structure Line where
  text : Text
  oneLine : '\n' ∉ text

namespace Blob

def size (b : Blob) : ℕ := (encode b.text).length

def header (b : Blob) : Text := b.oid ++ " blob ".toList ++ Nat.toDigits 10 b.size

def printed (b : Blob) : Text := b.header ++ '\n' :: (b.text ++ ['\n'])

end Blob

/-- The answer to a line that names no object. -/
def Line.missing (input : Line) : Text := input.text ++ " missing".toList

/-- Blobs that were found. -/
def found (blobs : List Blob) : Text := blobs.flatMap Blob.printed

/-- An answer: a blob, or the line for a missing object. -/
def answer : Blob ⊕ Line → Text
  | .inl b => b.printed
  | .inr input => input.missing ++ ['\n']

/-- The header of a blob no greater than `left`. -/
def LooksLikeBlob (header : Text) (left : ℕ) : Prop :=
  3 ≤ (fieldsOf header).length ∧ (fieldsOf header).getD 1 [] = "blob".toList ∧
    ∃ size, usableSize ((fieldsOf header).getD 2 []) = some size ∧ size ≤ left

/-- The bytes of a character that the first `k` bytes begin and do not end. -/
def heldAt (bytes : Bytes) (k : ℕ) : Bytes := (StringDecoder.start.write (bytes.take k)).2.held

/-- The cut is inside a character, and the three bytes of the character that replaces it reach the end of the last
contents. -/
def HidesCut (bytes : Bytes) (k : ℕ) : Prop :=
  heldAt bytes k ≠ [] ∧ bytes.length ≤ k - (heldAt bytes k).length + 3 + 1

/-! ### One header -/

section header

variable {pre after : Bytes} {line : Text} {ref relPath : Text}

theorem indexOf_line (hline : (0x0a : UInt8) ∉ encode line) :
    indexOf (pre ++ encode line ++ 0x0a :: after) 0x0a pre.length = some (pre.length + (encode line).length) := by
  rw [indexOf, List.append_assoc, List.drop_left]
  have hidx : (encode line ++ 0x0a :: after).idxOf? 0x0a = some (encode line).length := by
    rw [List.idxOf?_eq_some_iff]
    refine ⟨by simp, by simp, fun j hj => ?_⟩
    rw [List.getElem_append_left hj]
    exact fun heq => hline (heq ▸ List.getElem_mem hj)
  rw [hidx]
  rfl

theorem slice_line : slice (pre ++ encode line ++ 0x0a :: after) pre.length (pre.length + (encode line).length) = encode line := by
  have hlength : pre.length + (encode line).length = (pre ++ encode line).length := List.length_append.symm
  rw [slice, hlength, List.take_left, List.drop_left]

theorem slice_contents (n : ℕ) :
    slice (pre ++ encode line ++ 0x0a :: after) (pre.length + (encode line).length + 1)
      (pre.length + (encode line).length + 1 + n) = after.take n := by
  have hsplit : pre ++ encode line ++ 0x0a :: after = (pre ++ encode line ++ [0x0a]) ++ after := by simp
  have hlength : pre.length + (encode line).length + 1 = (pre ++ encode line ++ [0x0a]).length := by
    rw [List.length_append, List.length_append, List.length_singleton]
  rw [slice, hsplit, hlength, List.take_length_add_append, List.drop_left]

theorem readBlob_line (hline : '\n' ∉ line) :
    readBlob (pre ++ encode line ++ 0x0a :: after) ref relPath pre.length =
      if (fieldsOf line).length < 3 ∨ (fieldsOf line).getD 1 [] ≠ "blob".toList then
        .error ("git cat-file --batch could not read ".toList ++ atRef ref relPath ++ " (".toList ++ line ++ ")".toList)
      else
        match usableSize ((fieldsOf line).getD 2 []) with
        | none => .error
          ("git cat-file --batch gave an unusable size for ".toList ++ atRef ref relPath ++ " (".toList ++ line ++ ")".toList)
        | some size =>
            if after.length < size then .error
              ("git cat-file --batch gave an unusable size for ".toList ++ atRef ref relPath ++ " (".toList ++ line ++ ")".toList)
            else .ok (utf8 (after.take size), pre.length + (encode line).length + 1 + size + 1) := by
  rw [readBlob, indexOf_line (newline_not_mem_encode hline)]
  simp only [slice_line, utf8_encode, slice_contents]
  have hleft : ∀ size, (pre ++ encode line ++ 0x0a :: after).length < pre.length + (encode line).length + 1 + size ↔
      after.length < size := by
    intro size
    simp only [List.length_append, List.length_cons]
    omega
  simp only [hleft]

theorem readBlob_ok (hline : '\n' ∉ line) {size : ℕ} (hlength : 3 ≤ (fieldsOf line).length)
    (hblob : (fieldsOf line).getD 1 [] = "blob".toList) (hsize : usableSize ((fieldsOf line).getD 2 []) = some size)
    (hleft : size ≤ after.length) :
    readBlob (pre ++ encode line ++ 0x0a :: after) ref relPath pre.length =
      .ok (utf8 (after.take size), pre.length + (encode line).length + 1 + size + 1) := by
  have hfields : ¬((fieldsOf line).length < 3 ∨ (fieldsOf line).getD 1 [] ≠ "blob".toList) :=
    not_or.mpr ⟨by omega, not_not.mpr hblob⟩
  rw [readBlob_line hline, if_neg hfields, hsize]
  exact if_neg (by omega)

theorem readBlob_error (hline : '\n' ∉ line) (h : ¬LooksLikeBlob line after.length) :
    ∃ e, readBlob (pre ++ encode line ++ 0x0a :: after) ref relPath pre.length = .error e := by
  rw [readBlob_line hline]
  split_ifs with hfields
  · exact ⟨_, rfl⟩
  · rw [not_or, not_not] at hfields
    cases hsize : usableSize ((fieldsOf line).getD 2 []) with
    | none => exact ⟨_, rfl⟩
    | some size =>
        have hlong : after.length < size := by
          by_contra hle
          exact h ⟨by omega, hfields.2, size, hsize, by omega⟩
        exact ⟨_, if_pos hlong⟩

theorem readBlob_ended {buf : Bytes} {off : ℕ} (h : (0x0a : UInt8) ∉ buf.drop off) :
    ∃ e, readBlob buf ref relPath off = .error e := by
  rw [readBlob, indexOf, List.idxOf?_eq_none_iff.mpr h]
  exact ⟨_, rfl⟩

end header

/-! ### Whole blobs -/

section blobs

variable {pre after : Bytes} {ref : Text}

theorem hexValue_ne {b : Blob} {c : Char} (hc : c ∈ b.oid) {d : Char} (hd : hexValue d = none) : c ≠ d := by
  rintro rfl
  have hhex := b.hex c hc
  rw [hd] at hhex
  cases hhex

theorem newline_not_mem_header (b : Blob) : '\n' ∉ b.header := by
  simp only [Blob.header, List.mem_append, not_or]
  refine ⟨⟨fun h => hexValue_ne h (by decide) rfl, by decide⟩, fun h => ?_⟩
  have hdigit : '\n'.isDigit = true := Nat.isDigit_of_mem_toDigits (by decide) (by decide) h
  exact absurd hdigit (by decide)

/-- The three words of a header. -/
theorem fieldsOf_header (b : Blob) : fieldsOf b.header = [b.oid, "blob".toList, Nat.toDigits 10 b.size] := by
  have hoid : ∀ c ∈ b.oid, (c == ' ') = false := fun c hc => beq_eq_false_iff_ne.mpr (hexValue_ne hc (by decide))
  have hdigits : ∀ c ∈ Nat.toDigits 10 b.size, (c == ' ') = false := by
    intro c hc
    rw [beq_eq_false_iff_ne]
    rintro rfl
    have hdigit : ' '.isDigit = true := Nat.isDigit_of_mem_toDigits (by decide) (by decide) hc
    exact absurd hdigit (by decide)
  have hsplit : b.header = b.oid ++ ' ' :: ("blob".toList ++ ' ' :: Nat.toDigits 10 b.size) := by
    rw [Blob.header, List.append_assoc]
    rfl
  rw [fieldsOf, hsplit, splitBy_append_cons_sep (by decide), splitBy_of_not_sep hoid, splitBy_append_cons_sep (by decide),
    splitBy_of_not_sep hdigits]
  rfl

theorem usableSize_toDigits {n : ℕ} (h : n < 2 ^ 53) : usableSize (Nat.toDigits 10 n) = some n := by
  simp [usableSize, number_toDigits h]

theorem readBlob_blob (b : Blob) (relPath : Text) (hsize : b.size < 2 ^ 53) (hleft : b.size ≤ after.length) :
    readBlob (pre ++ encode b.header ++ 0x0a :: after) ref relPath pre.length =
      .ok (utf8 (after.take b.size), pre.length + (encode b.header).length + 1 + b.size + 1) := by
  apply readBlob_ok (newline_not_mem_header b)
  · rw [fieldsOf_header]
    rfl
  · rw [fieldsOf_header]
    rfl
  · rw [fieldsOf_header]
    exact usableSize_toDigits hsize
  · exact hleft

theorem readBlob_short (b : Blob) (relPath : Text) (hsize : b.size < 2 ^ 53) (hleft : after.length < b.size) :
    ∃ e, readBlob (pre ++ encode b.header ++ 0x0a :: after) ref relPath pre.length = .error e := by
  apply readBlob_error (newline_not_mem_header b)
  rintro ⟨-, -, size, heq, hle⟩
  rw [fieldsOf_header] at heq
  obtain rfl := Option.some.inj ((usableSize_toDigits hsize).symm.trans heq)
  omega

theorem encode_printed (b : Blob) : encode b.printed = encode b.header ++ 0x0a :: (encode b.text ++ [0x0a]) := by
  rw [Blob.printed, encode_append, encode_cons, encode_append]
  rfl

theorem found_cons (b : Blob) (blobs : List Blob) : found (b :: blobs) = b.printed ++ found blobs := List.flatMap_cons

theorem encode_found_cons (b : Blob) (blobs : List Blob) :
    encode (found (b :: blobs)) = encode b.header ++ 0x0a :: (encode b.text ++ 0x0a :: encode (found blobs)) := by
  rw [found_cons, encode_append, encode_printed]
  simp

theorem parseFrom_error {buf : Bytes} {relPath : Text} {off : ℕ} (relPaths : List Text)
    (h : ∃ e, readBlob buf ref relPath off = .error e) : ∃ e, parseFrom buf ref off (relPath :: relPaths) = .error e := by
  obtain ⟨e, he⟩ := h
  exact ⟨e, by rw [parseFrom, he]⟩

theorem parseFrom_ok {buf : Bytes} {relPath text : Text} {off off' : ℕ} (relPaths : List Text)
    (h : readBlob buf ref relPath off = .ok (text, off')) :
    parseFrom buf ref off (relPath :: relPaths) = (parseFrom buf ref off' relPaths).map (text :: ·) := by
  rw [parseFrom, h]
  cases hrest : parseFrom buf ref off' relPaths with
  | error e => simp [hrest, Except.map]
  | ok texts => simp [hrest, Except.map]

theorem map_error {f : List Text → List Text} {x : Except Text (List Text)} :
    (∃ e, x.map f = .error e) ↔ ∃ e, x = .error e := by
  cases x with
  | error e => exact ⟨fun _ => ⟨e, rfl⟩, fun _ => ⟨e, rfl⟩⟩
  | ok texts =>
      constructor
      · rintro ⟨e, he⟩
        cases he
      · rintro ⟨e, he⟩
        cases he

/-- The blobs that were printed first are read first. -/
theorem parseFrom_found (blobs : List Blob) (hsizes : ∀ b ∈ blobs, b.size < 2 ^ 53) {paths : List Text}
    (hpaths : paths.length = blobs.length) (pre : Bytes) (more : List Text) :
    parseFrom (pre ++ encode (found blobs) ++ after) ref pre.length (paths ++ more) =
      (parseFrom (pre ++ encode (found blobs) ++ after) ref (pre.length + (encode (found blobs)).length) more).map
        (blobs.map Blob.text ++ ·) := by
  induction blobs generalizing pre paths with
  | nil =>
      obtain rfl := List.length_eq_zero_iff.mp hpaths
      change parseFrom _ ref _ more = (parseFrom _ ref pre.length more).map id
      cases parseFrom (pre ++ encode (found []) ++ after) ref pre.length more with
      | error e => rfl
      | ok texts => rfl
  | cons b blobs ih =>
      obtain ⟨path, paths, rfl⟩ := List.exists_cons_of_length_eq_add_one hpaths
      have hbuf : pre ++ encode (found (b :: blobs)) ++ after =
          pre ++ encode b.header ++ 0x0a :: (encode b.text ++ (0x0a :: encode (found blobs) ++ after)) := by
        rw [encode_found_cons]
        simp
      have hread := @readBlob_blob pre (encode b.text ++ (0x0a :: encode (found blobs) ++ after)) ref b path
        (hsizes b List.mem_cons_self) (by rw [List.length_append]; exact Nat.le_add_right _ _)
      have htext : utf8 ((encode b.text ++ (0x0a :: encode (found blobs) ++ after)).take b.size) = b.text := by
        rw [Blob.size, List.take_left, utf8_encode]
      -- the rest begins after the line feed that follows the contents
      have hbuf' : pre ++ encode (found (b :: blobs)) ++ after =
          (pre ++ encode b.printed) ++ encode (found blobs) ++ after := by
        rw [found_cons, encode_append]
        simp
      have hlength : pre.length + (encode b.header).length + 1 + b.size + 1 = (pre ++ encode b.printed).length := by
        rw [encode_printed, Blob.size]
        simp only [List.length_append, List.length_cons, List.length_nil]
        omega
      rw [← hbuf, htext, hlength] at hread
      rw [List.cons_append, parseFrom_ok _ hread, hbuf', ih (fun c hc => hsizes c (List.mem_cons_of_mem b hc))
        (Nat.succ.inj hpaths)]
      have hsum : (pre ++ encode b.printed).length + (encode (found blobs)).length =
          pre.length + (encode (found (b :: blobs))).length := by
        rw [found_cons, encode_append, List.length_append, List.length_append]
        omega
      rw [hsum]
      cases parseFrom _ ref (pre.length + (encode (found (b :: blobs))).length) more with
      | error e => rfl
      | ok texts => rfl

end blobs

/-! ### Cut outputs -/

section cut

variable {ref : Text}

theorem lt_of_hexValue {c : Char} (h : (hexValue c).isSome = true) : c.toNat < 0x80 := by
  unfold hexValue at h
  split_ifs at h with hdigit hlow hhigh
  · have hrange := isDigit_range hdigit
    omega
  · have hle : c.toNat ≤ 'f'.toNat := hlow.2
    exact lt_of_le_of_lt hle (by decide)
  · have hle : c.toNat ≤ 'F'.toNat := hhigh.2
    exact lt_of_le_of_lt hle (by decide)
  · cases h

theorem lt_of_mem_header {b : Blob} {c : Char} (hc : c ∈ b.header) : c.toNat < 0x80 := by
  simp only [Blob.header, List.mem_append] at hc
  obtain (hc | hc) | hc := hc
  · exact lt_of_hexValue (b.hex c hc)
  · have hblob : ∀ d ∈ " blob ".toList, d.toNat < 0x80 := by simp
    exact hblob c hc
  · have hrange := isDigit_range (Nat.isDigit_of_mem_toDigits (by decide) (by decide) hc)
    omega

/-- No output is shorter than this. -/
theorem length_found_cons (b : Blob) (blobs : List Blob) : 9 ≤ (encode (found (b :: blobs))).length := by
  have hdigits : 0 < (Nat.toDigits 10 b.size).length := Nat.length_toDigits_pos
  have hencode : ∀ t : Text, t.length ≤ (encode t).length := by
    intro t
    induction t with
    | nil => exact le_rfl
    | cons c t ih =>
        have hpos := List.length_pos_iff.mpr (@String.utf8EncodeChar_ne_nil c)
        rw [encode_cons, List.length_append, List.length_cons]
        omega
  have hheader : 7 ≤ b.header.length := by
    simp only [Blob.header, List.length_append]
    have hblob : " blob ".toList.length = 6 := rfl
    omega
  have hlength := hencode b.header
  rw [encode_found_cons]
  simp only [List.length_append, List.length_cons]
  omega

/-- What stands after the last whole character of a cut output: nothing, or a replacement for a character that is
not ASCII. -/
def CutTail (bytes : Bytes) (j : ℕ) (tail : Bytes) : Prop :=
  tail = [] ∨ (tail = [0xef, 0xbf, 0xbd] ∧ ∀ b, bytes[j]? = some b → 0x80 ≤ b.toNat)

theorem CutTail.newline_not_mem {bytes : Bytes} {j : ℕ} {tail : Bytes} (h : CutTail bytes j tail) : (0x0a : UInt8) ∉ tail := by
  obtain rfl | ⟨rfl, -⟩ := h
  · exact List.not_mem_nil
  · decide

theorem CutTail.length_le {bytes : Bytes} {j : ℕ} {tail : Bytes} (h : CutTail bytes j tail) : tail.length ≤ 3 := by
  obtain rfl | ⟨rfl, -⟩ := h
  · exact Nat.zero_le 3
  · exact le_rfl

theorem CutTail.eq_nil {bytes : Bytes} {j : ℕ} {tail : Bytes} (h : CutTail bytes j tail) {b : UInt8}
    (hb : bytes[j]? = some b) (hlt : b.toNat < 0x80) : tail = [] := by
  obtain rfl | ⟨-, hbyte⟩ := h
  · rfl
  · exact absurd (hbyte b hb) (by omega)

/-- A header that is cut has no line feed. -/
theorem parseFrom_cut_header (b : Blob) (pre rest tail : Bytes) {j : ℕ} (hj : j ≤ (encode b.header).length)
    (htail : (0x0a : UInt8) ∉ tail) (path : Text) (paths : List Text) :
    ∃ e, parseFrom (pre ++ (encode b.header ++ rest).take j ++ tail) ref pre.length (path :: paths) = .error e := by
  apply parseFrom_error
  apply readBlob_ended
  rw [List.append_assoc, List.drop_left, List.take_append_of_le_length hj, List.mem_append, not_or]
  exact ⟨fun h => newline_not_mem_encode (newline_not_mem_header b) (List.mem_of_mem_take h), htail⟩

/-- A cut output fails unless what stands after the last whole character reaches the end of the last contents. -/
theorem parseFrom_cut (blobs : List Blob) (hsizes : ∀ b ∈ blobs, b.size < 2 ^ 53) {paths : List Text}
    (hpaths : paths.length = blobs.length) (pre tail : Bytes) {j : ℕ} (hj : j + 1 < (encode (found blobs)).length)
    (htail : CutTail (encode (found blobs)) j tail) :
    (∃ e, parseFrom (pre ++ (encode (found blobs)).take j ++ tail) ref pre.length paths = .error e) ↔
      (tail = [] ∨ j + 3 + 1 < (encode (found blobs)).length) := by
  induction blobs generalizing pre paths j with
  | nil => cases hj
  | cons b blobs ih =>
      obtain ⟨path, paths, rfl⟩ := List.exists_cons_of_length_eq_add_one hpaths
      have hsize := hsizes b List.mem_cons_self
      have hbytes := encode_found_cons b blobs
      have hlength : (encode (found (b :: blobs))).length =
          (encode b.header).length + (1 + (b.size + (1 + (encode (found blobs)).length))) := by
        rw [hbytes, Blob.size]
        simp only [List.length_append, List.length_cons]
        omega
      by_cases hheader : j ≤ (encode b.header).length
      · -- the cut is in the header, which is ASCII
        have hnil : tail = [] := by
          by_cases hlt : j < (encode b.header).length
          · have hget : (encode (found (b :: blobs)))[j]? = some (encode b.header)[j] := by
              rw [hbytes, List.getElem?_append_left hlt, List.getElem?_eq_getElem hlt]
            exact htail.eq_nil hget (lt_of_mem_encode (fun c => lt_of_mem_header) (List.getElem_mem hlt))
          · obtain rfl : j = (encode b.header).length := by omega
            refine htail.eq_nil (b := 0x0a) ?_ (by decide)
            rw [hbytes, List.getElem?_append_right le_rfl, Nat.sub_self]
            rfl
        rw [hbytes]
        exact ⟨fun _ => Or.inl hnil, fun _ => parseFrom_cut_header b pre _ tail hheader htail.newline_not_mem path paths⟩
      · obtain ⟨i, rfl⟩ : ∃ i, j = (encode b.header).length + (1 + i) := ⟨j - (encode b.header).length - 1, by omega⟩
        by_cases hcontents : i ≤ b.size
        · -- the cut is in the contents or at their end
          have htake : pre ++ (encode (found (b :: blobs))).take ((encode b.header).length + (1 + i)) ++ tail =
              pre ++ encode b.header ++ 0x0a :: ((encode b.text).take i ++ tail) := by
            rw [hbytes, List.take_length_add_append, Nat.add_comm 1 i, List.take_succ_cons,
              List.take_append_of_le_length hcontents]
            simp
          have hleft : ((encode b.text).take i ++ tail).length = i + tail.length := by
            rw [List.length_append, List.length_take, ← Blob.size]
            omega
          have hthree := htail.length_le
          rw [htake]
          by_cases hshort : i + tail.length < b.size
          · refine ⟨fun _ => ?_, fun _ => parseFrom_error paths (readBlob_short b path hsize (by omega))⟩
            obtain hnil | ⟨heq, -⟩ := htail
            · exact Or.inl hnil
            · rw [heq, List.length_cons, List.length_cons, List.length_singleton] at hshort
              exact Or.inr (by omega)
          · have hread := @readBlob_blob pre ((encode b.text).take i ++ tail) ref b path hsize (by omega)
            rw [parseFrom_ok paths hread, map_error]
            cases blobs with
            | nil =>
                obtain rfl := List.length_eq_zero_iff.mp (Nat.succ.inj hpaths)
                have hnone : (encode (found [])).length = 0 := rfl
                constructor
                · rintro ⟨e, he⟩
                  cases he
                · rintro (rfl | hlt)
                  · rw [List.length_nil] at hshort
                    omega
                  · omega
            | cons b' blobs =>
                obtain ⟨path', paths, rfl⟩ := List.exists_cons_of_length_eq_add_one (Nat.succ.inj hpaths)
                have hmore := length_found_cons b' blobs
                refine ⟨fun _ => Or.inr (by omega), fun _ => parseFrom_error paths (readBlob_ended fun hmem => ?_)⟩
                -- what is left is part of the tail
                have hsplit : pre ++ encode b.header ++ 0x0a :: ((encode b.text).take i ++ tail) =
                    (pre ++ encode b.header ++ 0x0a :: (encode b.text).take i) ++ tail := by simp
                have hbefore : (pre ++ encode b.header ++ 0x0a :: (encode b.text).take i).length ≤
                    pre.length + (encode b.header).length + 1 + b.size + 1 := by
                  simp only [List.length_append, List.length_cons, List.length_take]
                  rw [← Blob.size]
                  omega
                rw [hsplit, List.drop_append, List.drop_eq_nil_of_le hbefore, List.nil_append] at hmem
                exact htail.newline_not_mem (List.mem_of_mem_drop hmem)
        · -- the cut is after this blob
          obtain ⟨j, rfl⟩ : ∃ j, i = b.size + (1 + j) := ⟨i - b.size - 1, by omega⟩
          have hbytes' : encode (found (b :: blobs)) = encode b.printed ++ encode (found blobs) := by
            rw [found_cons, encode_append]
          have hprinted : (encode b.printed).length = (encode b.header).length + (1 + (b.size + 1)) := by
            rw [encode_printed, Blob.size]
            simp only [List.length_append, List.length_cons, List.length_nil]
            omega
          have hj' : (encode b.header).length + (1 + (b.size + (1 + j))) = (encode b.printed).length + j := by omega
          have htake : pre ++ (encode (found (b :: blobs))).take ((encode b.printed).length + j) ++ tail =
              (pre ++ encode b.printed) ++ (encode (found blobs)).take j ++ tail := by
            rw [hbytes', List.take_length_add_append]
            simp
          have hread : readBlob (pre ++ (encode (found (b :: blobs))).take ((encode b.printed).length + j) ++ tail) ref path
              pre.length = .ok (b.text, (pre ++ encode b.printed).length) := by
            have hrest := @readBlob_blob pre (encode b.text ++ 0x0a :: ((encode (found blobs)).take j ++ tail)) ref b path hsize
              (by rw [List.length_append]; exact Nat.le_add_right _ _)
            rw [Blob.size, List.take_left, utf8_encode, ← Blob.size] at hrest
            have hbuf : (pre ++ encode b.printed) ++ (encode (found blobs)).take j ++ tail =
                pre ++ encode b.header ++ 0x0a :: (encode b.text ++ 0x0a :: ((encode (found blobs)).take j ++ tail)) := by
              rw [encode_printed]
              simp
            rw [htake, hbuf, hrest, List.length_append, hprinted]
            congr 2
            omega
          rw [hj', parseFrom_ok paths hread, map_error, htake]
          have htail' : CutTail (encode (found blobs)) j tail := by
            obtain hnil | ⟨heq, hbyte⟩ := htail
            · exact Or.inl hnil
            · refine Or.inr ⟨heq, fun c hc => hbyte c ?_⟩
              rw [hj', hbytes', List.getElem?_append_right (Nat.le_add_right _ _), Nat.add_sub_cancel_left]
              exact hc
          rw [ih (fun c hc => hsizes c (List.mem_cons_of_mem b hc)) (Nat.succ.inj hpaths) _ (by omega) htail']
          have htotal : (encode (found (b :: blobs))).length = (encode b.printed).length + (encode (found blobs)).length := by
            rw [hbytes', List.length_append]
          rw [htotal]
          exact or_congr_right ⟨fun h => by omega, fun h => by omega⟩

end cut

/-! ### The contract -/

theorem size_lt {blobs : List Blob} (h : (encode (found blobs)).length < 2 ^ 53) : ∀ b ∈ blobs, b.size < 2 ^ 53 := by
  induction blobs with
  | nil => exact fun b hb => absurd hb List.not_mem_nil
  | cons b blobs ih =>
      rw [encode_found_cons] at h
      simp only [List.length_append, List.length_cons] at h
      intro c hc
      obtain rfl | hc := List.mem_cons.mp hc
      · rw [Blob.size]
        omega
      · exact ih (by omega) c hc

/-- The buffer of a cut output. -/
theorem exists_cutTail (t : Text) {k : ℕ} (hk : k ≤ (encode t).length) :
    ∃ tail, encode (utf8 ((encode t).take k)) = (encode t).take (k - (heldAt (encode t) k).length) ++ tail ∧
      CutTail (encode t) (k - (heldAt (encode t) k).length) tail ∧ (tail = [] ↔ heldAt (encode t) k = []) ∧
      (heldAt (encode t) k).length ≤ k := by
  obtain ⟨done, rest, held, ht, htake, hwrite, hheld⟩ := exists_cut t hk
  have hat : heldAt (encode t) k = held := by rw [heldAt, hwrite]
  have hlength := congrArg List.length htake
  rw [List.length_take, List.length_append, Nat.min_eq_left hk] at hlength
  have hdone : k - held.length = (encode done).length := by omega
  have hbytes : encode t = encode done ++ encode rest := by rw [ht, encode_append]
  rw [hat, hdone, encode_utf8_of_write hwrite, hbytes, List.take_left]
  refine ⟨_, rfl, ?_, ?_, by omega⟩
  · obtain rfl | ⟨c, more, rfl, hc, -⟩ := hheld
    · exact Or.inl (if_pos rfl)
    · by_cases hnil : held = []
      · exact Or.inl (if_pos hnil)
      · refine Or.inr ⟨if_neg hnil, fun b hb => ?_⟩
        rw [List.getElem?_append_right le_rfl, Nat.sub_self, encode_cons,
          List.getElem?_append_left (List.length_pos_iff.mpr String.utf8EncodeChar_ne_nil)] at hb
        exact Utf8.le_of_mem_utf8EncodeChar hc (List.mem_of_getElem? hb)
  · by_cases hnil : held = []
    · simp [hnil]
    · simp [hnil]

/-- The answers before the first missing object are read; then its line is read as a header. -/
theorem parseBlobBatch_missing {ref : Text} (blobs : List Blob) (hsizes : ∀ b ∈ blobs, b.size < 2 ^ 53) {paths : List Text}
    (hpaths : paths.length = blobs.length) (input : Line) (rest : List (Blob ⊕ Line)) (path : Text) (more : List Text) :
    (∃ e, parseBlobBatch (found blobs ++ answer (.inr input) ++ rest.flatMap answer) ref (paths ++ path :: more) = .error e) ↔
      ∃ e, parseFrom (encode (found blobs) ++ encode input.missing ++ 0x0a :: encode (rest.flatMap answer)) ref
        (encode (found blobs)).length (path :: more) = .error e := by
  have hbuf : encode (found blobs ++ answer (.inr input) ++ rest.flatMap answer) =
      [] ++ encode (found blobs) ++ (encode input.missing ++ 0x0a :: encode (rest.flatMap answer)) := by
    simp only [answer, encode_append]
    rw [show encode ['\n'] = [0x0a] from rfl]
    simp
  have hread := @parseFrom_found (encode input.missing ++ 0x0a :: encode (rest.flatMap answer)) ref blobs hsizes paths hpaths []
    (path :: more)
  rw [List.length_nil, Nat.zero_add] at hread
  rw [parseBlobBatch, hbuf, hread, map_error]
  simp only [List.nil_append, List.append_assoc]

theorem newline_not_mem_missing (input : Line) : '\n' ∉ input.missing := by
  rw [Line.missing, List.mem_append, not_or]
  exact ⟨input.oneLine, by decide⟩

section contract

variable {ref : Text} {blobs : List Blob} {relPaths : List Text}

theorem parseBlobBatch_found (hsizes : ∀ b ∈ blobs, b.size < 2 ^ 53) (hpaths : relPaths.length = blobs.length) :
    parseBlobBatch (utf8 (encode (found blobs))) ref relPaths = .ok (blobs.map Blob.text) := by
  have hread := @parseFrom_found [] ref blobs hsizes relPaths hpaths [] []
  rw [List.nil_append, List.append_nil, List.append_nil] at hread
  rw [utf8_encode, parseBlobBatch]
  refine hread.trans ?_
  simp [parseFrom, Except.map]

theorem parseBlobBatch_cut (hsizes : ∀ b ∈ blobs, b.size < 2 ^ 53) (hpaths : relPaths.length = blobs.length) {k : ℕ}
    (hk : k + 1 < (encode (found blobs)).length) :
    (∃ e, parseBlobBatch (utf8 ((encode (found blobs)).take k)) ref relPaths = .error e) ↔
      ¬HidesCut (encode (found blobs)) k := by
  obtain ⟨tail, hbuf, htail, hnil, hle⟩ := exists_cutTail (found blobs) (k := k) (by omega)
  have hcut := @parseFrom_cut ref blobs hsizes relPaths hpaths [] tail (k - (heldAt (encode (found blobs)) k).length)
    (by omega) htail
  rw [List.nil_append, List.length_nil, ← hbuf] at hcut
  rw [parseBlobBatch, hcut, hnil, HidesCut]
  by_cases hheld : heldAt (encode (found blobs)) k = []
  · simp [hheld]
  · simp only [hheld, false_or, ne_eq, not_false_iff, true_and, not_le]

/-- A missing object at the end whose line reads as a header. -/
theorem parseBlobBatch_missing_read (hsizes : ∀ b ∈ blobs, b.size < 2 ^ 53) (hpaths : relPaths.length = blobs.length)
    {input : Line} (h : LooksLikeBlob input.missing 0) (path : Text) :
    ¬∃ e, parseBlobBatch (utf8 (encode (found blobs ++ answer (.inr input) ++ [].flatMap answer))) ref
      (relPaths ++ [path]) = .error e := by
  obtain ⟨hlength, hblob, size, hsize, hleft⟩ := h
  have hread := @readBlob_ok (encode (found blobs)) (encode (([] : List (Blob ⊕ Line)).flatMap answer)) input.missing ref path
    (newline_not_mem_missing input) size hlength hblob hsize (Nat.le_trans hleft (Nat.zero_le _))
  rw [utf8_encode, parseBlobBatch_missing blobs hsizes hpaths, parseFrom_ok [] hread]
  rintro ⟨e, he⟩
  cases he

end contract

/-- For every output of blobs: the whole output gives the blobs; cut before the end of the last contents it fails if and
only if the cut is not hidden by a replacement character; and with some object missing it fails if the line for
the first one does not read as the header of a blob, and only then if that line is the last. -/
theorem parseBlobBatch_exact (ref : Text) (blobs : List Blob) (relPaths : List Text) (hpaths : relPaths.length = blobs.length)
    (hbuffer : (encode (found blobs)).length < 2 ^ 53) :
    parseBlobBatch (utf8 (encode (found blobs))) ref relPaths = .ok (blobs.map Blob.text) ∧
      (∀ k, k + 1 < (encode (found blobs)).length →
        ((∃ e, parseBlobBatch (utf8 ((encode (found blobs)).take k)) ref relPaths = .error e) ↔
          ¬HidesCut (encode (found blobs)) k)) ∧
      ∀ (input : Line) (rest : List (Blob ⊕ Line)) (path : Text) (more : List Text), more.length = rest.length →
        (¬LooksLikeBlob input.missing (encode (rest.flatMap answer)).length →
          ∃ e, parseBlobBatch (utf8 (encode (found blobs ++ answer (.inr input) ++ rest.flatMap answer))) ref
            (relPaths ++ path :: more) = .error e) ∧
        (rest = [] → LooksLikeBlob input.missing 0 →
          ¬∃ e, parseBlobBatch (utf8 (encode (found blobs ++ answer (.inr input) ++ rest.flatMap answer))) ref
            (relPaths ++ path :: more) = .error e) := by
  have hsizes := size_lt hbuffer
  refine ⟨parseBlobBatch_found hsizes hpaths, fun k hk => parseBlobBatch_cut hsizes hpaths hk, fun input rest path more hmore => ?_⟩
  constructor
  · intro hnot
    rw [utf8_encode, parseBlobBatch_missing blobs hsizes hpaths]
    exact parseFrom_error more (readBlob_error (newline_not_mem_missing input) hnot)
  · rintro rfl hlooks
    obtain rfl := List.length_eq_zero_iff.mp hmore
    exact parseBlobBatch_missing_read hsizes hpaths hlooks path

/-- A blob whose id has one digit forty times. -/
def blobOf (digit : Char) (h : (hexValue digit).isSome = true) (text : Text) : Blob :=
  ⟨List.replicate 40 digit, text, fun c hc => by rw [List.eq_of_mem_replicate hc]; exact h⟩

/-- An empty blob and one that contains a header. -/
def twoBlobs : List Blob := [blobOf 'a' (by decide) [], blobOf 'b' (by decide) "aa blob 0\n\n".toList]

theorem parseBlobBatch_exact_two_blobs :
    ([[], []] : List Text).length = twoBlobs.length ∧ (encode (found twoBlobs)).length < 2 ^ 53 ∧
      parseBlobBatch (utf8 (encode (found twoBlobs))) "HEAD".toList [[], []] = .ok (twoBlobs.map Blob.text) :=
  ⟨rfl, by decide +kernel, (parseBlobBatch_exact "HEAD".toList twoBlobs [[], []] rfl (by decide +kernel)).1⟩

/-- A blob that ends with a character of two bytes. -/
def accented : Blob := blobOf 'c' (by decide) ['é']

/-- The line for `HEAD:a blob 0 b`. -/
def blobLikeInput : Line := ⟨"HEAD:a blob 0 b".toList, by decide⟩

/-- A cut inside that character, and that missing object, do not fail. -/
theorem parseBlobBatch_returns_texts :
    (49 + 1 < (encode (found [accented])).length ∧
      ¬∃ e, parseBlobBatch (utf8 ((encode (found [accented])).take 49)) "HEAD".toList ["a.yaml".toList] = .error e) ∧
    ¬∃ e, parseBlobBatch (utf8 (encode (found [] ++ answer (.inr blobLikeInput) ++ [].flatMap answer))) "HEAD".toList
      ([] ++ ["a blob 0 b".toList]) = .error e := by
  have hsizes : ∀ b ∈ [accented], b.size < 2 ^ 53 := size_lt (by decide +kernel)
  refine ⟨⟨by decide +kernel, ?_⟩, ?_⟩
  · rw [parseBlobBatch_cut hsizes rfl (by decide +kernel), not_not]
    exact ⟨by decide +kernel, by decide +kernel⟩
  · apply parseBlobBatch_missing_read (fun b hb => absurd hb List.not_mem_nil) rfl
    refine ⟨by decide, by decide, 0, ?_, le_rfl⟩
    exact usableSize_toDigits (n := 0) (by decide)

end Remudero.Plan.BlobBatch
