import Remudero.Lib.Utf16
import Remudero.Review.Acceptance

/-! # Who owns a character of Markdown

`classifyMarkdownLine` of `lib/review.ts` walks over a line from delimiter to delimiter and blanks what an HTML comment
or a fenced block owns.  Here ownership is told one character at a time: `Place` says where a character stands among
the comments of its line, `fenceIn` is the fence that a line opens at a place outside of them, and `lineOwners` has the
owner of every character of a line.  A fence is told by the runs of its marks, `markRun`, and not by the patterns of
the code.

* `fenceOpenRe_exec`, `closesFence_eq`: the patterns find the runs that open and close a fence.
* `classifyFrom_eq`: the walk over a line agrees with the owners of its characters.
* `scanLines_owners`: for every list of lines the code units of each scan are those of the line, but that every unit
  of a comment or of a fenced block is a space. -/

namespace Remudero.Review

open Remudero.Lib

/-! ### Owners -/

inductive Owner
  | text
  | comment
  | fence
deriving DecidableEq

/-- A place among the comments of a line: inside of one or not, and how many characters of the delimiter that led
there are still to come. -/
structure Place where
  inside : Bool
  pending : ℕ
deriving DecidableEq

namespace Place

/-- Neither in a comment nor in one of its delimiters. -/
def Free (p : Place) : Prop := p.pending = 0 ∧ p.inside = false

instance (p : Place) : Decidable p.Free := inferInstanceAs (Decidable (_ ∧ _))

/-- The character that `rest` begins with belongs to a comment. -/
def hides (p : Place) (rest : Text) : Bool := !decide p.Free || "<!--".toList.isPrefixOf rest

/-- The place after the first character of `rest`. -/
def next (p : Place) (rest : Text) : Place :=
  if p.pending ≠ 0 then { p with pending := p.pending - 1 }
  else if p.inside then if "-->".toList.isPrefixOf rest then ⟨false, 2⟩ else p
  else if "<!--".toList.isPrefixOf rest then ⟨true, 3⟩
  else p

/-- The owners of the characters from `p` on, fences apart. -/
def owners (p : Place) : Text → List Owner
  | [] => []
  | c :: cs => (if p.hides (c :: cs) then .comment else .text) :: owners (p.next (c :: cs)) cs

/-- The place at the end of the line. -/
def last (p : Place) : Text → Place
  | [] => p
  | c :: cs => last (p.next (c :: cs)) cs

/-- The places outside of comments: the visible text before, and the rest of the line. -/
def free (p : Place) (visible : Text) : Text → List (Text × Text)
  | [] => []
  | c :: cs =>
      (if p.Free then [(visible, c :: cs)] else []) ++
        free (p.next (c :: cs)) (if p.hides (c :: cs) then visible else visible ++ [c]) cs

end Place

/-- The run of a mark that a line begins with after at most three spaces, if it has three marks or more; and what
follows the run. -/
def markRun (mark : Char) (line : Text) : Option (Text × Text) :=
  let text := line.dropWhile (· == ' ')
  let run := text.takeWhile (· == mark)
  if line.length ≤ text.length + 3 ∧ 3 ≤ run.length then some (run, text.dropWhile (· == mark)) else none

/-- The fence that a line opens by itself: backticks with none of them in what follows, or tildes. -/
def opensFence (line : Text) : Option Text :=
  match markRun '\x60' line with
  | some (run, info) => if '\x60' ∈ info then none else some run
  | none => (markRun '~' line).map (·.1)

/-- The fence that opens at a place with nothing but spaces before it. -/
def fenceHere (at_ : Text × Text) : Option Text :=
  if at_.1.all (· == ' ') then opensFence (at_.1 ++ at_.2) else none

/-- The fence that a line opens. -/
def fenceIn (inHtmlComment : Bool) (line : Text) : Option Text :=
  ((Place.mk inHtmlComment 0).free [] line).findSome? fenceHere

/-- The text is blanks to the end of its line. -/
def blankToEnd (rest : Text) : Bool := decide (rest.dropWhile (fun c => c == ' ' || c == '\t') ∈ [[], ['\r']])

/-- A line that is in a fence closes it: it has at least as many of the same mark, and nothing else. -/
def closesFence (fence line : Text) : Bool :=
  ['\x60', '~'].any fun mark => fence.head? == some mark &&
    (markRun mark line).any fun found => decide (fence.length ≤ found.1.length) && blankToEnd found.2

/-- The owners of a line's characters, and the state after it. -/
def lineOwners (state : MarkdownLineState) (line : Text) : List Owner × MarkdownLineState :=
  match state.fence with
  | some fence =>
      (line.map fun _ => .fence, { state with fence := if closesFence fence line then none else some fence })
  | none =>
      match fenceIn state.inHtmlComment line with
      | some fence => (line.map fun _ => .fence, ⟨false, some fence⟩)
      | none =>
          ((Place.mk state.inHtmlComment 0).owners line, ⟨((Place.mk state.inHtmlComment 0).last line).inside, none⟩)

/-- A line with everything blanked that is not text. -/
def shown (line : Text) (owners : List Owner) : Text :=
  (line.zip owners).flatMap fun p => if p.2 = .text then [p.1] else List.replicate (Text.units p.1) ' '

/-! ### The patterns of fences -/

section Patterns

open Re

variable {line : Text} {mark : Char} {k : Pos → Option Pos}

theorem any_head_eq (s : Pos) (c : Char) : s.rest.head?.any (· == c) = true ↔ s.rest.head? = some c := by
  cases s.rest.head? <;> simp

/-- The spaces before a fence are all read. -/
theorem run_indent (hk : ∀ t : Pos, t.rest.head? = some ' ' → k t = none) (line : Text) :
    run (.rep 0 (some 3) true (.char ' ')) ⟨[], line, []⟩ k =
      if line.length ≤ (line.dropWhile (· == ' ')).length + 3 then k (Pos.past ⟨[], line, []⟩ (· == ' ')) else none := by
  have hlength := congrArg List.length (List.takeWhile_append_dropWhile (p := (· == ' ')) (l := line))
  rw [List.length_append] at hlength
  have hrun := @run_rep_cls_of_refuses (· == ' ') k 0 (some 3) ⟨[], line, []⟩
    (fun t ht => hk t ((any_head_eq t ' ').mp ht)) (fun m _ => Nat.zero_le m)
  refine hrun.trans (if_congr ?_ rfl rfl)
  simp only [within, Option.all_some, Bool.and_eq_true, decide_eq_true_eq]
  omega

/-- A run of marks before something that does not begin with a mark. -/
theorem run_marks_of_refuses (hk : ∀ t : Pos, t.rest.head? = some mark → k t = none) (s : Pos) :
    run (.rep 3 none true (.char mark)) s k =
      if 3 ≤ (s.rest.takeWhile (· == mark)).length then k (s.past (· == mark)) else none := by
  have hrun := @run_rep_cls_of_refuses (· == mark) k 3 none s (fun t ht => hk t ((any_head_eq t mark).mp ht)) (by simp)
  refine hrun.trans (if_congr ?_ rfl rfl)
  simp [within]

/-- No run of marks begins with another character. -/
theorem run_marks_of_ne {s : Pos} (h : s.rest.head? ≠ some mark) : run (.rep 3 none true (.char mark)) s k = none :=
  run_rep_cls_of_not (by rwa [← Bool.not_eq_true, any_head_eq]) (by decide) (by simp)

/-- A class up to the end of the text. -/
theorem run_star_stop (p : Char → Bool) (s : Pos) :
    run (.seq (.star (.cls p)) .stop) s some = if (s.rest.dropWhile p).isEmpty then some (s.past p) else none := by
  have hrefuses : ∀ t : Pos, t.rest.head?.any p = true → run .stop t some = none := by
    intro t ht
    refine if_neg ?_
    intro hempty
    rw [List.isEmpty_iff.mp hempty] at ht
    cases ht
  exact (run_rep_cls_of_refuses hrefuses (by simp)).trans (if_pos rfl)

theorem dropWhile_ne_isEmpty (mark : Char) (t : Text) : (t.dropWhile fun c => c != mark).isEmpty = decide (mark ∉ t) := by
  induction t with
  | nil => rfl
  | cons c t ih =>
      by_cases hc : c = mark
      · simp [hc]
      · have hne : mark ≠ c := fun h => hc h.symm
        rw [List.dropWhile_cons_of_pos (by simpa using hc), ih]
        simp [hne]

/-- The place behind a group, which has just been read. -/
theorem group_cons (s : Pos) (t : Text) (n : ℕ) : ({ s with groups := (n, t) :: s.groups } : Pos).group n = t := by
  simp [Pos.group, Pos.group?]

theorem head_takeWhile_eq {t : Text} (h : t.takeWhile (· == mark) ≠ []) :
    (t.takeWhile (· == mark)).head? = some mark ∧ t.head? = some mark := by
  cases t with
  | nil => exact absurd rfl h
  | cons c t =>
      by_cases hc : c = mark
      · simp [hc]
      · exact absurd (List.takeWhile_cons_of_neg (by simpa using hc)) h

/-- The group of an opener, read behind the spaces. -/
theorem run_opener (s : Pos) :
    (run (.group 1 (.alt (.seq (.rep 3 none true (.char '\x60')) (.ahead (.seq (.star (.cls fun c => c != '\x60')) .stop)))
      (.rep 3 none true (.char '~')))) s some).map (·.group 1) =
    if 3 ≤ (s.rest.takeWhile (· == '\x60')).length then
      if '\x60' ∈ s.rest.dropWhile (· == '\x60') then none else some (s.rest.takeWhile (· == '\x60'))
    else if 3 ≤ (s.rest.takeWhile (· == '~')).length then some (s.rest.takeWhile (· == '~')) else none := by
  let k : Pos → Option Pos := fun t => some { t with groups := (1, s.readTo t) :: t.groups }
  have hgroup : ∀ mark : Char, (k (s.past (· == mark))).map (·.group 1) = some (s.rest.takeWhile (· == mark)) := by
    intro mark
    rw [← Pos.readTo_past (s := s)]
    exact congrArg some (group_cons _ _ 1)
  have hahead : ∀ t : Pos, run (.ahead (.seq (.star (.cls fun c => c != '\x60')) .stop)) t k =
      if '\x60' ∈ t.rest then none else k t := by
    intro t
    rw [run, run_star_stop, dropWhile_ne_isEmpty]
    by_cases hmem : '\x60' ∈ t.rest <;> simp [hmem]
  have hticks : run (.seq (.rep 3 none true (.char '\x60')) (.ahead (.seq (.star (.cls fun c => c != '\x60')) .stop))) s k =
      if 3 ≤ (s.rest.takeWhile (· == '\x60')).length then
        if '\x60' ∈ s.rest.dropWhile (· == '\x60') then none else k (s.past (· == '\x60'))
      else none := by
    rw [run, run_marks_of_refuses]
    · rw [hahead]
      rfl
    · intro t ht
      rw [hahead, if_pos (List.mem_of_mem_head? ht)]
  have htildes : run (.rep 3 none true (.char '~')) s k =
      if 3 ≤ (s.rest.takeWhile (· == '~')).length then k (s.past (· == '~')) else none := run_rep_cls_of_takes rfl
  rw [run, run_alt, hticks]
  by_cases hlength : 3 ≤ (s.rest.takeWhile (· == '\x60')).length
  · rw [if_pos hlength, if_pos hlength]
    by_cases hmem : '\x60' ∈ s.rest.dropWhile (· == '\x60')
    · -- a text that begins with a backtick has no run of tildes to fall back on
      have hhead : s.rest.head? ≠ some '~' := by
        intro hhead
        obtain ⟨cs, hcs⟩ := List.head?_eq_some_iff.mp hhead
        rw [hcs] at hlength
        simp at hlength
      rw [if_pos hmem, if_pos hmem, run_marks_of_ne hhead]
      rfl
    · rw [if_neg hmem, if_neg hmem, ← hgroup]
      rfl
  · rw [if_neg hlength, if_neg hlength, htildes, Option.none_or]
    split
    · exact hgroup '~'
    · rfl

/-- The pattern of an opener finds the fence that a line opens. -/
theorem fenceOpenRe_exec (line : Text) : (fenceOpenRe.exec line).map (·.group 1) = opensFence line := by
  have hrefuses : ∀ t : Pos, t.rest.head? = some ' ' →
      run (.group 1 (.alt (.seq (.rep 3 none true (.char '\x60'))
        (.ahead (.seq (.star (.cls fun c => c != '\x60')) .stop))) (.rep 3 none true (.char '~')))) t some = none := by
    intro t ht
    rw [run, run, run, run_marks_of_ne (by simp [ht]), run_marks_of_ne (by simp [ht])]
  rw [fenceOpenRe, seqs_cons_cons, exec_start, seqs_cons_cons, run, seqs, run_indent hrefuses]
  unfold opensFence markRun
  dsimp only
  by_cases hindent : line.length ≤ (line.dropWhile (· == ' ')).length + 3
  · rw [if_pos hindent, run_opener]
    simp only [hindent, true_and]
    show (if 3 ≤ ((line.dropWhile (· == ' ')).takeWhile (· == '\x60')).length then _ else _) = _
    by_cases hticks : 3 ≤ ((line.dropWhile (· == ' ')).takeWhile (· == '\x60')).length
    · rw [if_pos hticks, if_pos hticks]
      rfl
    · rw [if_neg hticks, if_neg hticks]
      show (if 3 ≤ ((line.dropWhile (· == ' ')).takeWhile (· == '~')).length then _ else _) = _
      by_cases htildes : 3 ≤ ((line.dropWhile (· == ' ')).takeWhile (· == '~')).length
      · rw [if_pos htildes, if_pos htildes]
        rfl
      · rw [if_neg htildes, if_neg htildes]
        rfl
  · simp [hindent]

/-- The run of a mark that a line has to itself. -/
def loneRun (mark : Char) (line : Text) : Option Text :=
  (markRun mark line).bind fun found =>
    if (found.2.dropWhile fun c => c == ' ' || c == '\t').isEmpty then some found.1 else none

/-- The pattern of a closer finds a run of backticks or of tildes. -/
theorem fenceCloseRe_exec (line : Text) :
    (fenceCloseRe.exec line).map (·.group 1) = (loneRun '\x60' line).or (loneRun '~' line) := by
  let blank : Char → Bool := fun c => c == ' ' || c == '\t'
  let k : Pos → Pos → Option Pos := fun s t =>
    run (.seq (.star (.cls blank)) .stop) { t with groups := (1, s.readTo t) :: t.groups } some
  have hk : ∀ s t : Pos, k s t = if (t.rest.dropWhile blank).isEmpty then
      some (Pos.past { t with groups := (1, s.readTo t) :: t.groups } blank) else none :=
    fun s t => run_star_stop blank _
  have hmarks : ∀ mark : Char, blank mark = false → ∀ s : Pos, run (.rep 3 none true (.char mark)) s (k s) =
      if 3 ≤ (s.rest.takeWhile (· == mark)).length then k s (s.past (· == mark)) else none := by
    intro mark hmark s
    refine run_marks_of_refuses ?_ s
    intro t ht
    obtain ⟨cs, hcs⟩ := List.head?_eq_some_iff.mp ht
    rw [hk, hcs, List.dropWhile_cons_of_neg (by simp [hmark])]
    rfl
  have hrun : ∀ s : Pos, run (.seq (.group 1 (.alt (.rep 3 none true (.char '\x60')) (.rep 3 none true (.char '~'))))
      (.seq (.star (.cls blank)) .stop)) s some =
      (run (.rep 3 none true (.char '\x60')) s (k s)).or (run (.rep 3 none true (.char '~')) s (k s)) :=
    fun s => run_alt _ _ s (k s)
  have hrefuses : ∀ t : Pos, t.rest.head? = some ' ' → run (.seq (.group 1 (.alt (.rep 3 none true (.char '\x60'))
      (.rep 3 none true (.char '~')))) (.seq (.star (.cls blank)) .stop)) t some = none := by
    intro t ht
    rw [hrun, run_marks_of_ne (by simp [ht]), run_marks_of_ne (by simp [ht])]
    rfl
  have hlone : ∀ mark : Char, blank mark = false →
      line.length ≤ (line.dropWhile (· == ' ')).length + 3 →
      (run (.rep 3 none true (.char mark)) (Pos.past ⟨[], line, []⟩ (· == ' ')) (k (Pos.past ⟨[], line, []⟩ (· == ' ')))).map
        (·.group 1) = loneRun mark line := by
    intro mark hmark hindent
    rw [hmarks mark hmark, loneRun, markRun]
    simp only [hindent, true_and]
    show Option.map _ (if 3 ≤ ((line.dropWhile (· == ' ')).takeWhile (· == mark)).length then _ else none) = _
    split
    · rw [hk, Option.bind_some]
      show Option.map _ (if (((line.dropWhile (· == ' ')).dropWhile (· == mark)).dropWhile blank).isEmpty then _ else none) = _
      split
      · rw [Option.map_some, Pos.readTo_past]
        exact congrArg some (group_cons _ _ 1)
      · rfl
    · rfl
  rw [fenceCloseRe, seqs_cons_cons, exec_start, seqs_cons_cons, run, seqs_cons_cons, seqs_cons_cons, seqs, run_indent hrefuses]
  by_cases hindent : line.length ≤ (line.dropWhile (· == ' ')).length + 3
  · rw [if_pos hindent, hrun, Option.map_or, hlone _ (by decide) hindent, hlone _ (by decide) hindent]
  · simp [hindent, loneRun, markRun]

/-- A last character that is neither a space nor the mark stays behind the run. -/
theorem markRun_concat {c : Char} (hspace : c ≠ ' ') (hmark : c ≠ mark) (line : Text) :
    markRun mark (line ++ [c]) = (markRun mark line).map fun found => (found.1, found.2 ++ [c]) := by
  have hdrop : ∀ (d : Char) (t : Text), c ≠ d → (t ++ [c]).dropWhile (· == d) = t.dropWhile (· == d) ++ [c] := by
    intro d t hd
    rw [List.dropWhile_append]
    split
    next hempty => simp [List.isEmpty_iff.mp hempty, hd]
    next => rfl
  have htake : ∀ t : Text, (t ++ [c]).takeWhile (· == mark) = t.takeWhile (· == mark) := by
    intro t
    rw [List.takeWhile_append]
    split
    next hall =>
      rw [List.takeWhile_cons_of_neg (by simpa using hmark), List.append_nil,
        (List.takeWhile_prefix _).eq_of_length hall]
    next => rfl
  unfold markRun
  simp only [hdrop _ _ hspace, hdrop _ _ hmark, htake, List.length_append, List.length_singleton]
  rw [apply_ite (Option.map _)]
  exact if_congr (and_congr (by omega) Iff.rfl) rfl rfl

/-- A run of marks is the first text of its line that is not a space, and what is behind it goes to the line's end. -/
theorem markRun_spec {found : Text × Text} (h : markRun mark line = some found) :
    found.2 <:+ line ∧ found.1.head? = some mark ∧ (line.dropWhile (· == ' ')).head? = some mark := by
  unfold markRun at h
  dsimp only at h
  split at h
  next hrun =>
    obtain rfl := Option.some.inj h
    refine ⟨(List.dropWhile_suffix _).trans (List.dropWhile_suffix _), head_takeWhile_eq ?_⟩
    intro hempty
    rw [hempty] at hrun
    exact absurd hrun.2 (by decide)
  next => cases h

/-- A line without its last carriage return, or as it is. -/
theorem stripCr_cases (line : Text) : line = stripCr line ++ ['\r'] ∨ (line = stripCr line ∧ line.getLast? ≠ some '\r') := by
  unfold stripCr
  split
  next hlast =>
    obtain ⟨init, rfl⟩ := List.getLast?_eq_some_iff.mp hlast
    rw [List.dropLast_concat]
    exact .inl rfl
  next hlast => exact .inr ⟨rfl, hlast⟩

theorem opensFence_stripCr (line : Text) : opensFence (stripCr line) = opensFence line := by
  obtain hline | ⟨hline, -⟩ := stripCr_cases line
  · conv_rhs => rw [hline]
    unfold opensFence
    rw [markRun_concat (by decide) (by decide), markRun_concat (by decide) (by decide)]
    cases markRun '\x60' (stripCr line) with
    | some found => simp
    | none =>
        rw [Option.map_none, Option.map_map]
        rfl
  · rw [← hline]

/-- Blanks to the end of a line, up to a carriage return that is stripped. -/
theorem loneRun_stripCr (mark : Char) (hmark : mark ≠ '\r') (line : Text) :
    loneRun mark (stripCr line) = (markRun mark line).bind fun found => if blankToEnd found.2 then some found.1 else none := by
  obtain hline | ⟨hline, hlast⟩ := stripCr_cases line
  · conv_rhs => rw [hline, markRun_concat (by decide) hmark.symm]
    rw [loneRun, Option.bind_map]
    refine Option.bind_congr fun found _ => if_congr ?_ rfl rfl
    rw [blankToEnd, List.dropWhile_append]
    split
    next hempty => simp [hempty]
    next hempty =>
      have hne : found.2.dropWhile (fun c => c == ' ' || c == '\t') ≠ [] := fun h => hempty (List.isEmpty_iff.mpr h)
      have hlong : found.2.dropWhile (fun c => c == ' ' || c == '\t') ++ ['\r'] ∉ [[], ['\r']] := by
        simpa only [List.mem_cons, List.append_eq_nil_iff, List.append_left_eq_self, List.not_mem_nil, or_false, reduceCtorEq,
          and_false, false_or] using hne
      rw [decide_eq_false hlong, Bool.eq_false_iff.mpr hempty]
  · rw [← hline, loneRun]
    refine Option.bind_congr fun found hfound => if_congr ?_ rfl rfl
    have hne : found.2.dropWhile (fun c => c == ' ' || c == '\t') ≠ ['\r'] := by
      intro heq
      obtain ⟨init, hinit⟩ := (List.dropWhile_suffix _).trans (markRun_spec hfound).1
      rw [heq] at hinit
      exact hlast (by rw [← hinit, List.getLast?_concat])
    simp [blankToEnd, hne]

/-- The code's test of a closing line. -/
theorem closesFence_eq (fence line : Text) :
    (match fenceCloseRe.exec (stripCr line) with
      | some m => (m.group 1).head? == fence.head? && decide (fence.length ≤ (m.group 1).length)
      | none => false) = closesFence fence line := by
  have hmatch : (match fenceCloseRe.exec (stripCr line) with
      | some m => (m.group 1).head? == fence.head? && decide (fence.length ≤ (m.group 1).length)
      | none => false) = ((fenceCloseRe.exec (stripCr line)).map (·.group 1)).any fun run =>
        run.head? == fence.head? && decide (fence.length ≤ run.length) := by
    cases fenceCloseRe.exec (stripCr line) <;> rfl
  rw [hmatch, fenceCloseRe_exec, loneRun_stripCr _ (by decide), loneRun_stripCr _ (by decide)]
  have heach : ∀ mark : Char, (((markRun mark line).bind fun found => if blankToEnd found.2 then some found.1 else none).any
      fun run => run.head? == fence.head? && decide (fence.length ≤ run.length)) =
      (fence.head? == some mark && (markRun mark line).any fun found =>
        decide (fence.length ≤ found.1.length) && blankToEnd found.2) := by
    intro mark
    cases hfound : markRun mark line with
    | none => simp
    | some found =>
        have hhead := (markRun_spec hfound).2.1
        rw [Option.bind_some, Option.any_some]
        cases hblank : blankToEnd found.2 with
        | false => simp
        | true => simp [hhead, BEq.comm (a := some mark)]
  have hor : ∀ a b : Option Text, a = none ∨ b = none → ∀ g : Text → Bool, (a.or b).any g = (a.any g || b.any g) := by
    rintro a b (rfl | rfl) g <;> simp
  rw [hor, heach, heach, closesFence, List.any_cons, List.any_cons, List.any_nil, Bool.or_false]
  -- a line begins with one mark only
  cases hticks : markRun '\x60' line with
  | none => exact .inl rfl
  | some found =>
      refine .inr (Option.bind_eq_none_iff.mpr fun other hother => ?_)
      have hhead := (markRun_spec hticks).2.2.symm.trans (markRun_spec hother).2.2
      exact absurd (Option.some.inj hhead) (by decide)

end Patterns

/-! ### Stretches of a line -/

section Stretches

variable {rest rest' hidden visible text : Text}

theorem shown_append {a b : Text} {os os' : List Owner} (h : a.length = os.length) :
    shown (a ++ b) (os ++ os') = shown a os ++ shown b os' := by
  unfold shown
  rw [List.zip_append h, List.flatMap_append]

theorem shown_hidden {o : Owner} (ho : o ≠ .text) (t : Text) : shown t (t.map fun _ => o) = blanks t := by
  induction t with
  | nil => rfl
  | cons c t ih =>
      have hcons : shown (c :: t) ((c :: t).map fun _ => o) =
          List.replicate (Text.units c) ' ' ++ shown t (t.map fun _ => o) := by
        simp [shown, ho]
      rw [hcons, ih]
      rfl

theorem shown_text (t : Text) : shown t (t.map fun _ => .text) = t := by
  induction t with
  | nil => rfl
  | cons c t ih =>
      have hcons : shown (c :: t) ((c :: t).map fun _ => .text) = c :: shown t (t.map fun _ => .text) := by simp [shown]
      rw [hcons, ih]

/-- From `p` everything up to `rest` belongs to a comment, and at `rest` the place is `q`. -/
structure Hidden (p q : Place) (hidden rest : Text) : Prop where
  owners : p.owners (hidden ++ rest) = (hidden.map fun _ => .comment) ++ q.owners rest
  last : p.last (hidden ++ rest) = q.last rest
  free : ∀ visible, p.free visible (hidden ++ rest) = q.free visible rest

theorem Hidden.nil (p : Place) (rest : Text) : Hidden p p [] rest := ⟨rfl, rfl, fun _ => rfl⟩

theorem Hidden.cons {p q : Place} {c : Char} (hfree : ¬ p.Free) (h : Hidden (p.next (c :: (hidden ++ rest))) q hidden rest) :
    Hidden p q (c :: hidden) rest := by
  have hhides : p.hides (c :: (hidden ++ rest)) = true := by simp [Place.hides, hfree]
  refine ⟨?_, ?_, ?_⟩
  · rw [List.cons_append, Place.owners, h.owners, hhides]
    rfl
  · rw [List.cons_append, Place.last, h.last]
  · intro visible
    rw [List.cons_append, Place.free, h.free, hhides, if_neg hfree]
    rfl

theorem next_inside (h : ¬ "-->".toList.isPrefixOf rest = true) : (Place.mk true 0).next rest = ⟨true, 0⟩ := by
  unfold Place.next
  rw [if_neg (by simp), if_pos rfl, if_neg h]

theorem next_outside (h : ¬ "<!--".toList.isPrefixOf rest = true) : (Place.mk false 0).next rest = ⟨false, 0⟩ := by
  unfold Place.next
  rw [if_neg (by simp), if_neg (by simp), if_neg h]

theorem hides_outside (h : ¬ "<!--".toList.isPrefixOf rest = true) : (Place.mk false 0).hides rest = false := by
  unfold Place.hides
  rw [Bool.eq_false_iff.mpr h]
  rfl

theorem not_free_of_pending {p : Place} (h : p.pending ≠ 0) : ¬ p.Free := fun hfree => h hfree.1

/-- A delimiter to its end. -/
theorem hidden_pending (inside : Bool) (delimiter rest : Text) :
    Hidden ⟨inside, delimiter.length⟩ ⟨inside, 0⟩ delimiter rest := by
  induction delimiter with
  | nil => exact .nil _ _
  | cons c delimiter ih =>
      refine .cons (not_free_of_pending (Nat.succ_ne_zero _)) ?_
      have hnext : (Place.mk inside (c :: delimiter).length).next (c :: (delimiter ++ rest)) = ⟨inside, delimiter.length⟩ := by
        unfold Place.next
        exact if_pos (Nat.succ_ne_zero _)
      rwa [hnext]

/-- The delimiter that closes a comment. -/
theorem hidden_close (rest : Text) : Hidden ⟨true, 0⟩ ⟨false, 0⟩ "-->".toList rest :=
  .cons (by decide) (hidden_pending false ['-', '>'] rest)

/-- A comment that ends on the line. -/
theorem hidden_of_cutAt (h : cutAt "-->".toList rest = some (hidden, rest')) :
    rest = hidden ++ "-->".toList ++ rest' ∧ Hidden ⟨true, 0⟩ ⟨false, 0⟩ (hidden ++ "-->".toList) rest' := by
  induction rest generalizing hidden with
  | nil => cases h
  | cons c cs ih =>
      unfold cutAt at h
      split at h
      next hstarts =>
        obtain ⟨rfl, rfl⟩ := Prod.mk.inj (Option.some.inj h)
        obtain ⟨tail, htail⟩ := List.isPrefixOf_iff_prefix.mp hstarts
        rw [← htail, List.drop_left, List.nil_append]
        exact ⟨rfl, hidden_close tail⟩
      next hstarts =>
        obtain ⟨⟨hidden', tail⟩, hcut, heq⟩ := Option.map_eq_some_iff.mp h
        dsimp only at heq
        obtain ⟨rfl, rfl⟩ := Prod.mk.inj heq
        obtain ⟨rfl, hhidden⟩ := ih hcut
        refine ⟨rfl, .cons (by decide) ?_⟩
        show Hidden (Place.next _ (c :: (hidden' ++ "-->".toList ++ tail))) _ (hidden' ++ "-->".toList) tail
        rw [next_inside hstarts]
        exact hhidden

/-- A comment that goes on after the line. -/
theorem hidden_of_cutAt_none (h : cutAt "-->".toList rest = none) : Hidden ⟨true, 0⟩ ⟨true, 0⟩ rest [] := by
  induction rest with
  | nil => exact .nil _ _
  | cons c cs ih =>
      unfold cutAt at h
      split at h
      next => cases h
      next hstarts =>
        refine .cons (by decide) ?_
        rw [List.append_nil, next_inside hstarts]
        exact ih (Option.map_eq_none_iff.mp h)

/-- A fence opens at a place or not, wherever the visible text before it is cut. -/
theorem fenceHere_move {c : Char} {cs : Text} (h : fenceHere (visible, c :: cs) = none) :
    fenceHere (visible ++ [c], cs) = none := by
  unfold fenceHere at h ⊢
  by_cases hspaces : (visible ++ [c]).all (· == ' ') = true
  · have hvisible : visible.all (· == ' ') = true := by
      rw [List.all_append, Bool.and_eq_true] at hspaces
      exact hspaces.1
    rw [if_pos hvisible] at h
    rw [if_pos hspaces, List.append_assoc]
    exact h
  · exact if_neg hspaces

/-- The text up to `rest` is outside of comments. -/
structure Plain (text rest : Text) : Prop where
  owners : (Place.mk false 0).owners (text ++ rest) = (text.map fun _ => .text) ++ (Place.mk false 0).owners rest
  last : (Place.mk false 0).last (text ++ rest) = (Place.mk false 0).last rest
  fence : ∀ visible, fenceHere (visible, text ++ rest) = none →
    fenceHere (visible ++ text, rest) = none ∧
    ((Place.mk false 0).free visible (text ++ rest)).findSome? fenceHere =
      ((Place.mk false 0).free (visible ++ text) rest).findSome? fenceHere

theorem Plain.nil (rest : Text) : Plain [] rest where
  owners := rfl
  last := rfl
  fence := by
    intro visible h
    rw [List.append_nil]
    exact ⟨h, rfl⟩

theorem Plain.cons {c : Char} (hstarts : ¬ "<!--".toList.isPrefixOf (c :: (text ++ rest)) = true) (h : Plain text rest) :
    Plain (c :: text) rest := by
  have hhides := hides_outside hstarts
  have hnext := next_outside hstarts
  refine ⟨?_, ?_, ?_⟩
  · rw [List.cons_append, Place.owners, hhides, hnext, h.owners]
    rfl
  · rw [List.cons_append, Place.last, hnext, h.last]
  · intro visible hnone
    obtain ⟨hend, hfind⟩ := h.fence (visible ++ [c]) (fenceHere_move hnone)
    rw [List.append_assoc] at hend hfind
    refine ⟨hend, ?_⟩
    rw [List.cons_append, Place.free, hhides, hnext, if_pos (by decide)]
    rw [List.cons_append] at hnone
    simp only [List.singleton_append, List.findSome?_cons, hnone]
    exact hfind

/-- Where a comment opens on the line. -/
theorem plain_of_cutAt (h : cutAt "<!--".toList rest = some (text, rest')) :
    rest = text ++ ("<!--".toList ++ rest') ∧ Plain text ("<!--".toList ++ rest') := by
  induction rest generalizing text with
  | nil => cases h
  | cons c cs ih =>
      unfold cutAt at h
      split at h
      next hstarts =>
        obtain ⟨rfl, rfl⟩ := Prod.mk.inj (Option.some.inj h)
        obtain ⟨tail, htail⟩ := List.isPrefixOf_iff_prefix.mp hstarts
        rw [← htail, List.drop_left, List.nil_append]
        exact ⟨rfl, .nil _⟩
      next hstarts =>
        obtain ⟨⟨text', tail⟩, hcut, heq⟩ := Option.map_eq_some_iff.mp h
        dsimp only at heq
        obtain ⟨rfl, rfl⟩ := Prod.mk.inj heq
        obtain ⟨rfl, hplain⟩ := ih hcut
        exact ⟨rfl, .cons hstarts hplain⟩

theorem plain_of_cutAt_none (h : cutAt "<!--".toList rest = none) : Plain rest [] := by
  induction rest with
  | nil => exact .nil []
  | cons c cs ih =>
      unfold cutAt at h
      split at h
      next => cases h
      next hstarts =>
        refine .cons ?_ (ih (Option.map_eq_none_iff.mp h))
        rwa [List.append_nil]

/-- The delimiter that opens a comment. -/
theorem hidden_open (rest : Text) : Hidden ⟨true, 3⟩ ⟨true, 0⟩ "!--".toList rest :=
  hidden_pending true ['!', '-', '-'] rest

theorem next_open (rest : Text) : (Place.mk false 0).next ('<' :: ("!--".toList ++ rest)) = ⟨true, 3⟩ := rfl

theorem owners_open (rest : Text) : (Place.mk false 0).owners ("<!--".toList ++ rest) =
    ("<!--".toList.map fun _ => .comment) ++ (Place.mk true 0).owners rest := by
  have hcons : "<!--".toList ++ rest = '<' :: ("!--".toList ++ rest) := rfl
  rw [hcons, Place.owners, next_open, (hidden_open rest).owners]
  rfl

theorem last_open (rest : Text) : (Place.mk false 0).last ("<!--".toList ++ rest) = (Place.mk true 0).last rest :=
  (hidden_open rest).last

theorem free_open (visible rest : Text) : (Place.mk false 0).free visible ("<!--".toList ++ rest) =
    (visible, "<!--".toList ++ rest) :: (Place.mk true 0).free visible rest := by
  have hcons : "<!--".toList ++ rest = '<' :: ("!--".toList ++ rest) := rfl
  rw [hcons, Place.free, next_open, (hidden_open rest).free]
  rfl

end Stretches

/-! ### The walk over a line -/

/-- The walk from a place on, with nothing pending, is what the owners say. -/
theorem classifyFrom_eq (line : Text) (n : ℕ) (rest visible scan : Text) (comment : Bool) (hn : rest.length < n) :
    classifyFrom line n rest visible scan comment =
      match ((Place.mk comment 0).free visible rest).findSome? fenceHere with
      | some fence => (⟨false, some fence⟩, blanks line, true)
      | none => (⟨((Place.mk comment 0).last rest).inside, none⟩, scan ++ shown rest ((Place.mk comment 0).owners rest), false) := by
  induction n generalizing rest visible scan comment with
  | zero => omega
  | succ n ih =>
      by_cases hrest : rest = []
      · subst hrest
        simp [classifyFrom, Place.free, Place.last, Place.owners, shown]
      have hempty : rest.isEmpty = false := by simpa using hrest
      cases comment with
      | true =>
          rw [classifyFrom, hempty]
          simp only [Bool.false_eq_true, if_false, if_true]
          cases hcut : cutAt "-->".toList rest with
          | none =>
              have hhidden := hidden_of_cutAt_none hcut
              have howners := hhidden.owners
              have hlast := hhidden.last
              have hfree := hhidden.free visible
              rw [List.append_nil] at howners hlast hfree
              simp only [howners, hlast, hfree, Place.free, Place.owners, Place.last, List.findSome?_nil, List.append_nil,
                shown_hidden (show Owner.comment ≠ .text by decide)]
          | some cut =>
              obtain ⟨hidden, rest'⟩ := cut
              obtain ⟨rfl, hhidden⟩ := hidden_of_cutAt hcut
              have hlength : rest'.length < n := by
                simp only [List.length_append] at hn
                have hthree : "-->".toList.length = 3 := rfl
                omega
              dsimp only
              rw [ih rest' visible _ false hlength, hhidden.owners, hhidden.last, hhidden.free,
                shown_append (by simp), shown_hidden (by decide), List.append_assoc]
      | false =>
          have hhere : fenceHere (visible, rest) =
              (if visible.all (· == ' ') then fenceOpenRe.exec (stripCr (visible ++ rest)) else none).map (·.group 1) := by
            unfold fenceHere
            split
            · rw [fenceOpenRe_exec, opensFence_stripCr]
            · rfl
          rw [classifyFrom, hempty]
          simp only [Bool.false_eq_true, if_false]
          cases hopen : if visible.all (· == ' ') then fenceOpenRe.exec (stripCr (visible ++ rest)) else none with
          | some m =>
              rw [hopen, Option.map_some] at hhere
              obtain ⟨c, cs, rfl⟩ := List.exists_cons_of_ne_nil hrest
              rw [Place.free, if_pos (by decide), List.singleton_append, List.findSome?_cons, hhere]
          | none =>
              rw [hopen, Option.map_none] at hhere
              cases hcut : cutAt "<!--".toList rest with
              | none =>
                  have hplain := plain_of_cutAt_none hcut
                  have howners := hplain.owners
                  have hlast := hplain.last
                  have hfence := hplain.fence visible
                  rw [List.append_nil] at howners hlast hfence
                  have hpos : ([] : Text).length < n := by
                    have hlength := List.length_pos_iff.mpr hrest
                    simp only [List.length_nil]
                    omega
                  rw [(hfence hhere).2, howners, hlast]
                  simp only [ih [] (visible ++ rest) (scan ++ rest) false hpos, Place.free, Place.owners, Place.last,
                    List.findSome?_nil, List.append_nil, shown_text]
                  simp [shown]
              | some cut =>
                  obtain ⟨text, rest'⟩ := cut
                  obtain ⟨rfl, hplain⟩ := plain_of_cutAt hcut
                  have hfour : "<!--".toList.length = 4 := rfl
                  have hlength : rest'.length < n := by
                    simp only [List.length_append] at hn
                    omega
                  obtain ⟨hend, hfind⟩ := hplain.fence visible hhere
                  rw [hfind, hplain.owners, hplain.last, owners_open, last_open, free_open, List.findSome?_cons, hend,
                    shown_append (by simp), shown_append (by simp), shown_text, shown_hidden (by decide)]
                  have hblanks : blanks "<!--".toList = "    ".toList := by decide
                  simp only [ih rest' (visible ++ text) _ true hlength, hblanks, List.append_assoc]

/-- What one line shows, and what it leaves to the next. -/
theorem classifyMarkdownLine_eq (line : Text) (state : MarkdownLineState) :
    (classifyMarkdownLine line state).1 = (lineOwners state line).2 ∧
      (classifyMarkdownLine line state).2.1 = shown line (lineOwners state line).1 := by
  unfold classifyMarkdownLine lineOwners
  cases hfence : state.fence with
  | some fence =>
      dsimp only
      rw [← closesFence_eq]
      exact ⟨rfl, (shown_hidden (by decide) line).symm⟩
  | none =>
      dsimp only
      rw [classifyFrom_eq line _ line [] [] state.inHtmlComment (Nat.lt_succ_self _)]
      unfold fenceIn
      split
      · exact ⟨rfl, (shown_hidden (by decide) line).symm⟩
      · exact ⟨rfl, rfl⟩

/-! ### Lists of lines -/

/-- The scans of lines with one shared state. -/
def scanLines (state : MarkdownLineState) : List Text → List Text
  | [] => []
  | line :: lines => (classifyMarkdownLine line state).2.1 :: scanLines (classifyMarkdownLine line state).1 lines

/-- The owners of the characters of each line. -/
def ownersOf (state : MarkdownLineState) : List Text → List (List Owner)
  | [] => []
  | line :: lines => (lineOwners state line).1 :: ownersOf (lineOwners state line).2 lines

/-- The owner of each code unit of a line. -/
def unitOwners (line : Text) (owners : List Owner) : List Owner :=
  (line.zip owners).flatMap fun p => List.replicate (Text.units p.1) p.2

/-- The code units of a line, with a space for each one that is not text. -/
def blankedUnits (line : Text) (owners : List Owner) : List ℕ :=
  List.zipWith (fun u o => if o = Owner.text then u else 0x20) (Text.utf16 line) (unitOwners line owners)

theorem Place.length_owners (p : Place) (line : Text) : (p.owners line).length = line.length := by
  induction line generalizing p with
  | nil => rfl
  | cons c cs ih => rw [Place.owners, List.length_cons, ih, List.length_cons]

theorem length_lineOwners (state : MarkdownLineState) (line : Text) : (lineOwners state line).1.length = line.length := by
  unfold lineOwners
  split
  · simp
  · split
    · simp
    · exact Place.length_owners _ line

theorem length_unitOwners {line : Text} {owners : List Owner} (h : owners.length = line.length) :
    (unitOwners line owners).length = (Text.utf16 line).length := by
  induction line generalizing owners with
  | nil => simp [unitOwners]
  | cons c cs ih =>
      obtain ⟨o, os, rfl⟩ := List.exists_cons_of_length_eq_add_one h
      have hcons : unitOwners (c :: cs) (o :: os) = List.replicate (Text.units c) o ++ unitOwners cs os := rfl
      rw [hcons, Text.utf16_cons, List.length_append, List.length_append, List.length_replicate, Text.length_charUnits,
        ih (Nat.succ.inj h)]

theorem zipWith_replicate_owner (us : List ℕ) (o : Owner) :
    List.zipWith (fun u o => if o = Owner.text then u else 0x20) us (List.replicate us.length o) =
      if o = .text then us else List.replicate us.length 0x20 := by
  induction us with
  | nil => simp
  | cons u us ih =>
      rw [List.length_cons, List.replicate_succ, List.zipWith_cons_cons, ih]
      split <;> rfl

theorem utf16_shown {line : Text} {owners : List Owner} (h : owners.length = line.length) :
    Text.utf16 (shown line owners) = blankedUnits line owners := by
  induction line generalizing owners with
  | nil => simp [shown, blankedUnits]
  | cons c cs ih =>
      obtain ⟨o, os, rfl⟩ := List.exists_cons_of_length_eq_add_one h
      have hunits : unitOwners (c :: cs) (o :: os) = List.replicate (Text.units c) o ++ unitOwners cs os := rfl
      have hshown : shown (c :: cs) (o :: os) =
          (if o = .text then [c] else List.replicate (Text.units c) ' ') ++ shown cs os := rfl
      have hlength : (Text.charUnits c).length = (List.replicate (Text.units c) o).length := by simp
      have hrest := ih (Nat.succ.inj h)
      unfold blankedUnits at hrest ⊢
      rw [hshown, hunits, Text.utf16_append, Text.utf16_cons, List.zipWith_append hlength, ← hrest]
      congr 1
      rw [← Text.length_charUnits, zipWith_replicate_owner]
      split
      · simp
      · exact Text.utf16_replicate_space _

/-- Lines scanned in order with one shared state: every scan has the length of its line in code units, a unit of a
comment or of a fenced block is a space, and any other one is the line's own. -/
theorem scanLines_owners (state : MarkdownLineState) (lines : List Text) :
    (ownersOf state lines).map List.length = lines.map List.length ∧
    (scanLines state lines).map (fun scan => (Text.utf16 scan).length) = lines.map (fun line => (Text.utf16 line).length) ∧
    (scanLines state lines).map Text.utf16 = List.zipWith blankedUnits lines (ownersOf state lines) := by
  induction lines generalizing state with
  | nil => exact ⟨rfl, rfl, rfl⟩
  | cons line lines ih =>
      obtain ⟨hstate, hscan⟩ := classifyMarkdownLine_eq line state
      obtain ⟨hcount, hlength, hunits⟩ := ih (lineOwners state line).2
      have howners := length_lineOwners state line
      have hline : Text.utf16 (classifyMarkdownLine line state).2.1 = blankedUnits line (lineOwners state line).1 := by
        rw [hscan, utf16_shown howners]
      have hblanked : (blankedUnits line (lineOwners state line).1).length = (Text.utf16 line).length := by
        rw [blankedUnits, List.length_zipWith, length_unitOwners howners, Nat.min_self]
      rw [scanLines, ownersOf, hstate]
      refine ⟨?_, ?_, ?_⟩
      · rw [List.map_cons, hcount, howners, List.map_cons]
      · rw [List.map_cons, hlength, hline, hblanked, List.map_cons]
      · rw [List.map_cons, hunits, hline, List.zipWith_cons_cons]

end Remudero.Review
