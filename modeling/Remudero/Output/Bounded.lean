import Remudero.Lib.Encode
import Remudero.Lib.Lines

/-! # Bounded output

`BoundedOutput` and `readBoundedFileTail` of `lib/bounded-file-tail.ts`: what a worker prints is kept in memory while it is
small, and goes to a file otherwise, of which the last bytes are read.  The read starts at the first byte that begins a
character.

* `finish_exact`: whatever was pushed and whichever writes failed, an output within the bound is returned as it was pushed, and
  of a larger one the longest end of whole characters that fits the bound if the file has what was written.  There is no text
  after a write that failed, and none from a file that is gone or cannot be read. -/

namespace Remudero.Output

open Remudero.Lib

inductive TailState
  | complete
  | truncated
  | unreadable
  | malformed
  | absent
deriving DecidableEq

structure FileTail where
  state : TailState
  text : Text
  bytesRead : ℕ
  fileBytes : Option ℕ

/-- A byte inside a character. -/
def isContinuation (b : UInt8) : Bool := b &&& 0xc0 == 0x80

/-- `TextDecoder` with `fatal`: the text whose bytes these are, if they are those of a text. -/
def decodeFatal (bytes : Bytes) : Option Text := if encode (utf8 bytes) = bytes then some (utf8 bytes) else none

/-- What a path leads to.  A file is `faulty` when it cannot be opened, is not regular or changes while it is read; its size
may be known by then, and some bytes be read.  One that was read to its end may fail to be closed. -/
inductive File
  | absent
  | faulty (bytesRead : ℕ) (fileBytes : Option ℕ)
  | holds (bytes : Bytes) (closes : Bool)

def readBoundedFileTail (file : File) (maxBytes : ℕ) : FileTail :=
  match file with
  | .absent => ⟨.absent, [], 0, none⟩
  | .faulty bytesRead fileBytes => ⟨.unreadable, [], bytesRead, fileBytes⟩
  | .holds bytes closes =>
      let length := min maxBytes bytes.length
      let offset := bytes.length - length
      let buf := bytes.drop offset
      let start := if 0 < offset then ((buf.take 3).takeWhile isContinuation).length else 0
      let result : FileTail :=
        match decodeFatal (buf.drop start) with
        | some text => ⟨if 0 < offset then .truncated else .complete, text, length, some bytes.length⟩
        | none => ⟨.malformed, [], length, some bytes.length⟩
      -- a close that fails marks the result, which keeps its text
      if closes then result else { result with state := .unreadable }

/-- An output; `file` is what was written once it was too large. -/
structure BoundedOutput where
  chunks : List Text
  bytes : ℕ
  file : Option Bytes
  failure : Bool

namespace BoundedOutput

def empty : BoundedOutput := ⟨[], 0, none, false⟩

/-- The slices of `append`: at most 8192 code units each, and no surrogate pair is split. -/
def slices : ℕ → Text → List Text
  | 0, _ => []
  | _ + 1, [] => []
  | n + 1, c :: t => Text.takeUnits 8192 (c :: t) :: slices n ((c :: t).drop (Text.takeUnits 8192 (c :: t)).length)

def append (file : Bytes) (text : Text) : Bytes := file ++ (slices text.length text).flatMap encode

variable (maxBytes : ℕ) (separator : Text)

/-- `push`; `writes` is whether the directory could be made and the file be written, where that is tried. -/
def push (s : BoundedOutput) (text : Text) (writes : Bool) : BoundedOutput :=
  if s.failure || text.isEmpty then s
  else
    let lead := if 0 < s.bytes then separator else []
    let bytes := s.bytes + (Text.byteLength lead + Text.byteLength text)
    match s.file with
    | none =>
        if bytes ≤ maxBytes then ⟨s.chunks ++ [text], bytes, none, false⟩
        else if writes then ⟨[], bytes, some (append (append (append [] (Text.join separator s.chunks)) lead) text), false⟩
        else ⟨[], bytes, none, true⟩
    | some file =>
        if writes then ⟨s.chunks, bytes, some (append (append file lead) text), false⟩ else ⟨[], bytes, some file, true⟩

/-- What `finish` meets: whether the file could be closed, what is found where it was, and whether it could be removed. -/
structure Finish where
  closes : Bool
  found : Bytes → File
  removes : Bool

/-- What `finish` returns: the chunks, and the tail without its text. -/
def finish (s : BoundedOutput) (f : Finish) : List Text × FileTail :=
  let failure := s.failure || (s.file.isSome && !f.closes)
  let tail : FileTail :=
    if failure then ⟨.unreadable, [], 0, none⟩
    else
      match s.file with
      | none => ⟨.complete, [], s.bytes, some s.bytes⟩
      | some file => readBoundedFileTail (f.found file) maxBytes
  let tail := if s.file.isSome && !f.removes then { tail with state := .unreadable } else tail
  let chunks := if s.file.isSome || failure then (if tail.text.isEmpty then [] else [tail.text]) else s.chunks
  (chunks, { tail with text := [] })

/-- The output after some pushes. -/
def pushes (texts : List (Text × Bool)) : BoundedOutput :=
  texts.foldl (fun s p => push maxBytes separator s p.1 p.2) empty

end BoundedOutput

/-! ### The end of a text -/

theorem length_encode (t : Text) : (encode t).length = Text.byteLength t := by
  simp [encode, Text.byteLength, List.length_flatMap]

theorem isContinuation_iff (b : UInt8) : isContinuation b = true ↔ 0x80 ≤ b.toNat ∧ b.toNat < 0xc0 := by
  have hall : ∀ n : Fin 256, isContinuation (UInt8.ofNat n) = true ↔ 0x80 ≤ (n : ℕ) ∧ (n : ℕ) < 0xc0 := by decide +kernel
  have hb := hall ⟨b.toNat, b.toNat_lt⟩
  rwa [UInt8.ofNat_toNat] at hb

/-- The first byte of a character is not inside it, and every other one is. -/
theorem utf8EncodeChar_lead (c : Char) :
    ∃ lead inner, String.utf8EncodeChar c = lead :: inner ∧ isContinuation lead = false ∧
      (∀ b ∈ inner, isContinuation b = true) ∧ inner.length ≤ 3 := by
  have hinner {b : UInt8} {n : ℕ} (h : b.toNat = 0x80 + n % 64) : isContinuation b = true := by
    rw [isContinuation_iff]
    omega
  have hlead {b : UInt8} (h : b.toNat < 0x80 ∨ 0xc0 ≤ b.toNat) : isContinuation b = false := by
    rw [← Bool.not_eq_true, isContinuation_iff]
    omega
  obtain ⟨hlt, hbytes⟩ | ⟨x, y, hbytes, -, -, hx, hy⟩ | ⟨x, y, z, hbytes, -, -, hx, hy, hz⟩ |
    ⟨x, y, z, w, hbytes, -, -, hx, hy, hz, hw⟩ := Utf8.utf8EncodeChar_cases c
  · refine ⟨_, [], hbytes, hlead (.inl ?_), by simp, by simp⟩
    rw [UInt8.toNat_ofNat']
    omega
  · exact ⟨x, [y], hbytes, hlead (.inr (by omega)), by simpa using hinner hy, by simp⟩
  · exact ⟨x, [y, z], hbytes, hlead (.inr (by omega)), by simpa using ⟨hinner hy, hinner hz⟩, by simp⟩
  · exact ⟨x, [y, z, w], hbytes, hlead (.inr (by omega)), by simpa using ⟨hinner hy, hinner hz, hinner hw⟩, by simp⟩

/-- The bytes of a text from some place on: what is left of a character, and the characters after it. -/
theorem exists_drop (t : Text) (k : ℕ) (hk : k ≤ (encode t).length) :
    ∃ done rest inner, t = done ++ rest ∧ (encode t).drop k = inner ++ encode rest ∧
      (∀ b ∈ inner, isContinuation b = true) ∧ inner.length ≤ 3 ∧
      (inner = [] ∨ ∃ more c, done = more ++ [c] ∧ inner.length < (String.utf8EncodeChar c).length) := by
  induction t generalizing k with
  | nil => exact ⟨[], [], [], rfl, by simp [encode], by simp, by simp, .inl rfl⟩
  | cons c t ih =>
      obtain ⟨lead, inner, hbytes, -, hinner, hshort⟩ := utf8EncodeChar_lead c
      rw [encode_cons] at hk ⊢
      obtain rfl | hpos := Nat.eq_zero_or_pos k
      · exact ⟨[], c :: t, [], rfl, by rw [encode_cons]; rfl, by simp, by simp, .inl rfl⟩
      by_cases hin : k < (String.utf8EncodeChar c).length
      · refine ⟨[c], t, (String.utf8EncodeChar c).drop k, rfl, List.drop_append_of_le_length hin.le, ?_, ?_,
          .inr ⟨[], c, rfl, by rw [List.length_drop]; omega⟩⟩
        · intro b hb
          obtain ⟨k, rfl⟩ : ∃ j, k = j + 1 := ⟨k - 1, by omega⟩
          rw [hbytes, List.drop_succ_cons] at hb
          exact hinner b (List.mem_of_mem_drop hb)
        · rw [List.length_drop, hbytes, List.length_cons]
          omega
      · rw [List.length_append] at hk
        obtain ⟨done, rest, inner', rfl, hdrop, hinner', hshort', hlast⟩ := ih (k - (String.utf8EncodeChar c).length) (by omega)
        refine ⟨c :: done, rest, inner', rfl, ?_, hinner', hshort', ?_⟩
        · rw [List.drop_append, List.drop_eq_nil_of_le (not_lt.mp hin), List.nil_append, hdrop]
        · obtain rfl | ⟨more, d, rfl, hlt⟩ := hlast
          · exact .inl rfl
          · exact .inr ⟨c :: more, d, rfl, hlt⟩

theorem takeWhile_take_encode (t : Text) (n : ℕ) : ((encode t).take n).takeWhile isContinuation = [] := by
  cases t with
  | nil => simp [encode]
  | cons c t =>
      obtain ⟨lead, inner, hbytes, hlead, -⟩ := utf8EncodeChar_lead c
      rw [encode_cons, hbytes, List.cons_append]
      cases n with
      | zero => rfl
      | succ n => rw [List.take_succ_cons, List.takeWhile_cons, hlead]; rfl

theorem skip_inner {inner : Bytes} (hinner : ∀ b ∈ inner, isContinuation b = true) (hshort : inner.length ≤ 3) (rest : Text) :
    (((inner ++ encode rest).take 3).takeWhile isContinuation).length = inner.length := by
  rw [List.take_append, List.take_of_length_le hshort, List.takeWhile_append_of_pos hinner, takeWhile_take_encode, List.append_nil]

theorem decodeFatal_encode (t : Text) : decodeFatal (encode t) = some t := by
  rw [decodeFatal, utf8_encode, if_pos rfl]

/-- The longest end of a text that fits a number of bytes. -/
structure LongestTail (whole : Text) (maxBytes : ℕ) (tail : Text) : Prop where
  suffix : tail <:+ whole
  fits : Text.byteLength tail ≤ maxBytes
  longest : ∀ t, t <:+ whole → Text.byteLength t ≤ maxBytes → t <:+ tail

theorem longestTail_of_cut {done rest : Text} {inner : Bytes} {maxBytes : ℕ}
    (hsize : inner.length + (encode rest).length = maxBytes)
    (hlast : inner = [] ∨ ∃ more c, done = more ++ [c] ∧ inner.length < (String.utf8EncodeChar c).length) :
    LongestTail (done ++ rest) maxBytes rest := by
  refine ⟨List.suffix_append done rest, by rw [← length_encode]; omega, fun t ht hfits => ?_⟩
  obtain hle | ⟨u, rfl⟩ := List.suffix_or_suffix_of_suffix ht (List.suffix_append done rest)
  · exact hle
  · obtain rfl | ⟨front, c, rfl⟩ := List.eq_nil_or_concat u
    · exact List.suffix_refl rest
    · -- one more character would not fit
      obtain ⟨before, hbefore⟩ := ht
      rw [List.concat_eq_append] at hfits hbefore
      rw [← List.append_assoc] at hbefore
      have hdone : before ++ (front ++ [c]) = done := List.append_cancel_right hbefore
      rw [Text.byteLength_append, ← length_encode, ← length_encode, encode_append, List.length_append] at hfits
      have hc : (encode [c]).length = (String.utf8EncodeChar c).length := by simp [encode]
      have hpos : 0 < (String.utf8EncodeChar c).length := by
        obtain ⟨lead, inner, hbytes, -⟩ := utf8EncodeChar_lead c
        rw [hbytes]
        exact Nat.succ_pos _
      obtain rfl | ⟨more, d, hmore, hlt⟩ := hlast
      · rw [List.length_nil] at hsize
        omega
      · rw [hmore, ← List.append_assoc] at hdone
        obtain ⟨-, hd⟩ := List.append_inj' hdone rfl
        obtain rfl := List.singleton_inj.mp hd
        omega

/-- The tail of a file that holds a text and is larger than the bound. -/
theorem readBoundedFileTail_encode {whole : Text} {maxBytes : ℕ} (h : maxBytes < Text.byteLength whole) (closes : Bool) :
    ∃ tail, LongestTail whole maxBytes tail ∧ readBoundedFileTail (.holds (encode whole) closes) maxBytes =
      ⟨if closes then .truncated else .unreadable, tail, maxBytes, some (Text.byteLength whole)⟩ := by
  have hlength := length_encode whole
  obtain ⟨done, rest, inner, rfl, hdrop, hinner, hshort, hlast⟩ := exists_drop whole ((encode whole).length - maxBytes) (by omega)
  have hsize : inner.length + (encode rest).length = maxBytes := by
    have := congrArg List.length hdrop
    rw [List.length_drop, List.length_append] at this
    omega
  refine ⟨rest, longestTail_of_cut hsize hlast, ?_⟩
  have hmin : min maxBytes (encode (done ++ rest)).length = maxBytes := by omega
  have hoffset : 0 < (encode (done ++ rest)).length - maxBytes := by omega
  unfold readBoundedFileTail
  dsimp only
  rw [hmin, if_pos hoffset, if_pos hoffset, hdrop, skip_inner hinner hshort, List.drop_left, decodeFatal_encode, hlength]
  cases closes with
  | false => rfl
  | true => rfl

/-! ### The output -/

namespace BoundedOutput

theorem takeUnits_eq_take (max : ℕ) (t : Text) : Text.takeUnits max t = t.take (Text.takeUnits max t).length := by
  induction t generalizing max with
  | nil => simp [Text.takeUnits]
  | cons c t ih =>
      unfold Text.takeUnits
      split
      · rw [List.length_cons, List.take_succ_cons, ← ih]
      · rfl

theorem takeUnits_cons_ne_nil (c : Char) (t : Text) : (Text.takeUnits 8192 (c :: t)).length ≠ 0 := by
  have hunits : Text.units c ≤ 8192 := by
    unfold Text.units
    split <;> decide
  rw [Text.takeUnits, if_pos hunits, List.length_cons]
  exact Nat.succ_ne_zero _

theorem flatten_slices (n : ℕ) (t : Text) (h : t.length ≤ n) : (slices n t).flatten = t := by
  induction n generalizing t with
  | zero =>
      rw [List.length_eq_zero_iff.mp (Nat.le_zero.mp h)]
      rfl
  | succ n ih =>
      cases t with
      | nil => rfl
      | cons c t =>
          have hpos := takeUnits_cons_ne_nil c t
          rw [slices, List.flatten_cons, ih _ (by rw [List.length_drop]; omega)]
          nth_rewrite 1 [takeUnits_eq_take 8192 (c :: t)]
          exact List.take_append_drop _ _

theorem append_eq (file : Bytes) (text : Text) : append file text = file ++ encode text := by
  have hflatten : (slices text.length text).flatMap encode = encode (slices text.length text).flatten := by
    generalize slices text.length text = parts
    induction parts with
    | nil => rfl
    | cons part parts ih => rw [List.flatMap_cons, ih, List.flatten_cons, encode_append]
  rw [append, hflatten, flatten_slices _ _ le_rfl]

theorem join_snoc (separator : Text) (ts : List Text) (t : Text) :
    Text.join separator (ts ++ [t]) = Text.join separator ts ++ ((if ts = [] then [] else separator) ++ t) := by
  induction ts with
  | nil => simp [Text.join]
  | cons a ts ih =>
      cases ts with
      | nil => simp [Text.join]
      | cons b ts =>
          rw [List.cons_append, List.cons_append, Text.join_cons_cons, Text.join_cons_cons, ← List.cons_append, ih]
          simp

variable {maxBytes : ℕ} {separator : Text}

/-- The texts that count. -/
def pushed (texts : List (Text × Bool)) : List Text := (texts.map Prod.fst).filter fun t => !t.isEmpty

/-- Some text that went to the file was not written. -/
def Lost (maxBytes : ℕ) (separator : Text) (texts : List (Text × Bool)) : Prop :=
  ∃ before text, (before ++ [(text, false)]) <+: texts ∧ text ≠ [] ∧
    maxBytes < Text.byteLength (Text.join separator (pushed (before ++ [(text, false)])))

theorem pushed_snoc (texts : List (Text × Bool)) {text : Text} (h : text ≠ []) (writes : Bool) :
    pushed (texts ++ [(text, writes)]) = pushed texts ++ [text] := by
  simp [pushed, h]

theorem pushed_snoc_nil (texts : List (Text × Bool)) (writes : Bool) : pushed (texts ++ [([], writes)]) = pushed texts := by
  simp [pushed]

theorem ne_nil_of_mem_pushed {texts : List (Text × Bool)} {t : Text} (h : t ∈ pushed texts) : t ≠ [] := by
  simpa using (List.mem_filter.mp h).2

theorem lost_snoc (texts : List (Text × Bool)) (text : Text) (writes : Bool) :
    Lost maxBytes separator (texts ++ [(text, writes)]) ↔ Lost maxBytes separator texts ∨
      (writes = false ∧ text ≠ [] ∧ maxBytes < Text.byteLength (Text.join separator (pushed (texts ++ [(text, writes)])))) := by
  constructor
  · rintro ⟨before, t, hprefix, hne, hlarge⟩
    obtain heq | hshort := List.prefix_concat_iff.mp hprefix
    · obtain ⟨rfl, hlast⟩ := List.append_inj' heq rfl
      obtain ⟨rfl, rfl⟩ := Prod.mk.inj (List.singleton_inj.mp hlast)
      exact .inr ⟨rfl, hne, hlarge⟩
    · exact .inl ⟨before, t, hshort, hne, hlarge⟩
  · rintro (⟨before, t, hprefix, hne, hlarge⟩ | ⟨rfl, hne, hlarge⟩)
    · exact ⟨before, t, hprefix.trans (List.prefix_append _ _), hne, hlarge⟩
    · exact ⟨texts, text, List.prefix_refl _, hne, hlarge⟩

theorem byteLength_join_pos {ts : List Text} (h : ∀ t ∈ ts, t ≠ []) :
    0 < Text.byteLength (Text.join separator ts) ↔ ts ≠ [] := by
  cases ts with
  | nil => simp [Text.join]
  | cons t ts =>
      refine iff_of_true ?_ (List.cons_ne_nil t ts)
      obtain ⟨c, t, rfl⟩ := List.exists_cons_of_ne_nil (h t List.mem_cons_self)
      have hstart : Text.join separator ((c :: t) :: ts) = c :: (Text.join separator ((c :: t) :: ts)).tail := by
        cases ts <;> simp [Text.join]
      rw [hstart]
      have := c.utf8Size_pos
      simp only [Text.byteLength, List.map_cons, List.sum_cons]
      omega

/-- What an output knows of what was pushed, as long as no write failed. -/
structure Holds (maxBytes : ℕ) (separator : Text) (ts : List Text) (s : BoundedOutput) : Prop where
  failure : s.failure = false
  bytes : s.bytes = Text.byteLength (Text.join separator ts)
  small : s.file = none → s.chunks = ts ∧ s.bytes ≤ maxBytes
  large : ∀ file, s.file = some file → file = encode (Text.join separator ts) ∧ s.chunks = [] ∧ maxBytes < s.bytes

theorem Holds.file_of_large {ts : List Text} {s : BoundedOutput} (h : Holds maxBytes separator ts s)
    (hlarge : maxBytes < Text.byteLength (Text.join separator ts)) : ∃ file, s.file = some file := by
  cases hfile : s.file with
  | none =>
      have hsmall := (h.small hfile).2
      rw [h.bytes] at hsmall
      exact absurd hlarge (not_lt.mpr hsmall)
  | some file => exact ⟨file, rfl⟩

/-- A push, in terms of what was pushed. -/
theorem Holds.push_eq {ts : List Text} {s : BoundedOutput} (h : Holds maxBytes separator ts s) (hts : ∀ t ∈ ts, t ≠ [])
    {text : Text} (htext : text ≠ []) (writes : Bool) :
    s.push maxBytes separator text writes =
      let whole := Text.join separator (ts ++ [text])
      if Text.byteLength whole ≤ maxBytes then ⟨ts ++ [text], Text.byteLength whole, none, false⟩
      else if writes then ⟨[], Text.byteLength whole, some (encode whole), false⟩
      else ⟨[], Text.byteLength whole, s.file, true⟩ := by
  have hlead : (if 0 < s.bytes then separator else []) = if ts = [] then [] else separator := by
    rw [h.bytes]
    by_cases hnil : ts = []
    · rw [if_pos hnil, if_neg (by rw [byteLength_join_pos hts]; simpa using hnil)]
    · rw [if_neg hnil, if_pos ((byteLength_join_pos hts).mpr hnil)]
  have hjoin := join_snoc separator ts text
  have hbytes : s.bytes + (Text.byteLength (if ts = [] then [] else separator) + Text.byteLength text) =
      Text.byteLength (Text.join separator (ts ++ [text])) := by
    rw [hjoin, Text.byteLength_append, Text.byteLength_append, h.bytes]
  unfold BoundedOutput.push
  rw [if_neg (by simpa [h.failure] using htext)]
  dsimp only
  rw [hlead, hbytes]
  cases hfile : s.file with
  | none =>
      rw [(h.small hfile).1, append_eq, append_eq, append_eq, List.nil_append, List.append_assoc, ← encode_append, ← encode_append,
        ← hjoin]
  | some file =>
      obtain ⟨rfl, hchunks, hlarge⟩ := h.large file hfile
      have hstill : ¬ Text.byteLength (Text.join separator (ts ++ [text])) ≤ maxBytes := by omega
      dsimp only
      rw [if_neg hstill, hchunks, append_eq, append_eq, List.append_assoc, ← encode_append, ← encode_append, ← hjoin]

theorem Holds.push {ts : List Text} {s : BoundedOutput} (h : Holds maxBytes separator ts s) (hts : ∀ t ∈ ts, t ≠ [])
    {text : Text} (htext : text ≠ []) {writes : Bool}
    (hwrites : maxBytes < Text.byteLength (Text.join separator (ts ++ [text])) → writes = true) :
    Holds maxBytes separator (ts ++ [text]) (s.push maxBytes separator text writes) := by
  rw [h.push_eq hts htext]
  dsimp only
  split
  next hfits => exact ⟨rfl, rfl, fun _ => ⟨rfl, hfits⟩, fun file hsome => (by cases hsome)⟩
  next hspills =>
    rw [if_pos (hwrites (not_le.mp hspills))]
    exact ⟨rfl, rfl, fun hnone => (by cases hnone), fun file hsome => ⟨(Option.some.inj hsome).symm, rfl, not_le.mp hspills⟩⟩

/-- A failure stays, and nothing is kept after it. -/
structure Failed (s : BoundedOutput) : Prop where
  failure : s.failure = true
  chunks : s.chunks = []

theorem Failed.push {s : BoundedOutput} (h : Failed s) (text : Text) (writes : Bool) :
    Failed (s.push maxBytes separator text writes) := by
  unfold BoundedOutput.push
  rw [if_pos (by rw [h.failure, Bool.true_or])]
  exact h

theorem Holds.push_lost {ts : List Text} {s : BoundedOutput} (h : Holds maxBytes separator ts s) (hts : ∀ t ∈ ts, t ≠ [])
    {text : Text} (htext : text ≠ []) (hlarge : maxBytes < Text.byteLength (Text.join separator (ts ++ [text]))) :
    Failed (s.push maxBytes separator text false) := by
  rw [h.push_eq hts htext]
  dsimp only
  rw [if_neg (not_le.mpr hlarge), if_neg Bool.false_ne_true]
  exact ⟨rfl, rfl⟩

/-- Either some write failed, or the output still knows everything. -/
theorem pushes_cases (texts : List (Text × Bool)) :
    (Lost maxBytes separator texts ∧ Failed (pushes maxBytes separator texts)) ∨
      (¬ Lost maxBytes separator texts ∧ Holds maxBytes separator (pushed texts) (pushes maxBytes separator texts)) := by
  induction texts using List.reverseRecOn with
  | nil =>
      refine .inr ⟨?_, ⟨rfl, rfl, fun _ => ⟨rfl, Nat.zero_le _⟩, fun file hsome => (by cases hsome)⟩⟩
      rintro ⟨before, text, hprefix, -⟩
      simp at hprefix
  | append_singleton texts p ih =>
      obtain ⟨text, writes⟩ := p
      have hstep : pushes maxBytes separator (texts ++ [(text, writes)]) =
          (pushes maxBytes separator texts).push maxBytes separator text writes := by
        rw [pushes, List.foldl_append]
        rfl
      rw [hstep, lost_snoc]
      obtain ⟨hlost, hfailed⟩ | ⟨hkept, hholds⟩ := ih
      · exact .inl ⟨.inl hlost, hfailed.push text writes⟩
      by_cases hempty : text = []
      · subst hempty
        refine .inr ⟨?_, ?_⟩
        · rintro (hlost | ⟨-, hne, -⟩)
          · exact hkept hlost
          · exact hne rfl
        · rw [pushed_snoc_nil]
          simpa [push] using hholds
      rw [pushed_snoc texts hempty]
      by_cases hwrites : maxBytes < Text.byteLength (Text.join separator (pushed texts ++ [text])) → writes = true
      · refine .inr ⟨?_, hholds.push (fun t ht => ne_nil_of_mem_pushed ht) hempty hwrites⟩
        rintro (hlost | ⟨rfl, -, hlarge⟩)
        · exact hkept hlost
        · exact absurd (hwrites hlarge) Bool.false_ne_true
      · obtain ⟨hlarge, hfails⟩ := Classical.not_imp.mp hwrites
        obtain rfl := Bool.not_eq_true _ ▸ hfails
        exact .inl ⟨.inr ⟨rfl, hempty, hlarge⟩, hholds.push_lost (fun t ht => ne_nil_of_mem_pushed ht) hempty hlarge⟩

theorem not_lost_of_small {texts : List (Text × Bool)} (h : Text.byteLength (Text.join separator (pushed texts)) ≤ maxBytes) :
    ¬ Lost maxBytes separator texts := by
  rintro ⟨before, text, ⟨after, rfl⟩, -, hlarge⟩
  have hmono : Text.byteLength (Text.join separator (pushed (before ++ [(text, false)]))) ≤
      Text.byteLength (Text.join separator (pushed (before ++ [(text, false)] ++ after))) := by
    clear h hlarge
    induction after using List.reverseRecOn with
    | nil => rw [List.append_nil]
    | append_singleton after p ih =>
        refine ih.trans ?_
        obtain ⟨t, w⟩ := p
        rw [← List.append_assoc]
        by_cases hempty : t = []
        · rw [hempty, pushed_snoc_nil]
        · rw [pushed_snoc _ hempty, join_snoc, Text.byteLength_append]
          exact Nat.le_add_right _ _
  omega

theorem finish_failed {s : BoundedOutput} {f : Finish} (h : Failed s ∨ (s.file.isSome = true ∧ f.closes = false)) :
    finish maxBytes s f = ([], ⟨.unreadable, [], 0, none⟩) := by
  have hfailure : (s.failure || (s.file.isSome && !f.closes)) = true := by
    obtain h | ⟨hsome, hcloses⟩ := h
    · rw [h.failure, Bool.true_or]
    · rw [hsome, hcloses, Bool.not_false, Bool.and_true, Bool.or_true]
  unfold finish
  rw [hfailure]
  dsimp only
  rw [if_pos rfl, Bool.or_true, if_pos rfl]
  split <;> rfl

theorem finish_small {ts : List Text} {s : BoundedOutput} (h : Holds maxBytes separator ts s) (f : Finish)
    (hsmall : Text.byteLength (Text.join separator ts) ≤ maxBytes) :
    finish maxBytes s f =
      (ts, ⟨.complete, [], Text.byteLength (Text.join separator ts), some (Text.byteLength (Text.join separator ts))⟩) := by
  have hfile : s.file = none := by
    cases hfile : s.file with
    | none => rfl
    | some file =>
        have hlarge := (h.large file hfile).2.2
        rw [h.bytes] at hlarge
        exact absurd hsmall (not_le.mpr hlarge)
  simp [finish, hfile, h.failure, (h.small hfile).1, h.bytes]

theorem finish_large {ts : List Text} {s : BoundedOutput} (h : Holds maxBytes separator ts s) {f : Finish} (hcloses : f.closes = true)
    (hlarge : maxBytes < Text.byteLength (Text.join separator ts)) :
    finish maxBytes s f =
      let tail := readBoundedFileTail (f.found (encode (Text.join separator ts))) maxBytes
      (if tail.text.isEmpty then [] else [tail.text],
        ⟨if f.removes then tail.state else .unreadable, [], tail.bytesRead, tail.fileBytes⟩) := by
  obtain ⟨file, hfile⟩ := h.file_of_large hlarge
  obtain ⟨rfl, -, -⟩ := h.large file hfile
  cases hremoves : f.removes <;> simp [finish, hfile, h.failure, hcloses, hremoves]

/-- An output within the bound is returned as it was pushed.  Of a larger one the longest end that fits is returned when every
write reached the file, the file could be closed and it is read as it was written, and it is marked when that read or the
removal ended badly.  Nothing is returned after a write or a close that failed, and of a file that is gone or unreadable. -/
theorem finish_exact (maxBytes : ℕ) (separator : Text) (texts : List (Text × Bool)) (f : Finish) :
    let whole := Text.join separator (pushed texts)
    let finished := finish maxBytes (pushes maxBytes separator texts) f
    let intact := ¬ Lost maxBytes separator texts ∧ f.closes = true
    (Text.byteLength whole ≤ maxBytes →
        finished = (pushed texts, ⟨.complete, [], Text.byteLength whole, some (Text.byteLength whole)⟩)) ∧
      (maxBytes < Text.byteLength whole → ¬ intact → finished = ([], ⟨.unreadable, [], 0, none⟩)) ∧
      (maxBytes < Text.byteLength whole → intact → ∀ closes, f.found (encode whole) = .holds (encode whole) closes →
        ∃ tail, LongestTail whole maxBytes tail ∧
          finished = (if tail.isEmpty then [] else [tail],
            ⟨if f.removes && closes then .truncated else .unreadable, [], maxBytes, some (Text.byteLength whole)⟩)) ∧
      (maxBytes < Text.byteLength whole → intact → (∀ bytes closes, f.found (encode whole) ≠ .holds bytes closes) →
        finished.1 = [] ∧ (finished.2.state = .unreadable ∨ finished.2.state = .absent)) := by
  intro whole finished intact
  have hcases := @pushes_cases maxBytes separator texts
  refine ⟨fun hsmall => ?_, fun hlarge hdamaged => ?_, fun hlarge hintact closes hfound => ?_, fun hlarge hintact hfound => ?_⟩
  · obtain ⟨-, hholds⟩ := hcases.resolve_left (fun h => not_lost_of_small hsmall h.1)
    exact finish_small hholds f hsmall
  · obtain ⟨-, hfailed⟩ | ⟨hkept, hholds⟩ := hcases
    · exact finish_failed (.inl hfailed)
    · obtain ⟨file, hfile⟩ := hholds.file_of_large hlarge
      refine finish_failed (.inr ⟨by rw [hfile]; rfl, ?_⟩)
      exact Bool.eq_false_iff.mpr fun hcloses => hdamaged ⟨hkept, hcloses⟩
  · obtain ⟨-, hholds⟩ := hcases.resolve_left (fun h => hintact.1 h.1)
    obtain ⟨tail, hlongest, hread⟩ := readBoundedFileTail_encode hlarge closes
    refine ⟨tail, hlongest, ?_⟩
    show finish maxBytes _ f = _
    rw [finish_large hholds hintact.2 hlarge, hfound, hread]
    cases f.removes with
    | false => rfl
    | true => rfl
  · obtain ⟨-, hholds⟩ := hcases.resolve_left (fun h => hintact.1 h.1)
    have hfinished : finished = _ := finish_large hholds hintact.2 hlarge
    rw [hfinished]
    change ∀ bytes closes, f.found (encode (Text.join separator (pushed texts))) ≠ .holds bytes closes at hfound
    cases hfile : f.found (encode (Text.join separator (pushed texts))) with
    | absent => cases f.removes <;> simp [readBoundedFileTail]
    | faulty bytesRead fileBytes => cases f.removes <;> simp [readBoundedFileTail]
    | holds bytes closes => exact absurd hfile (hfound bytes closes)

end BoundedOutput

end Remudero.Output
