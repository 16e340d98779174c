import Remudero.Lib.Text

/-! # Regular expressions

The backtracking matcher of ECMAScript on texts: alternatives and repetitions are tried in order, and
the first way to match wins.  A repetition that may still stop does not go on over an empty match.
Only what the patterns of a program need is there: classes, groups and back references, greedy and
lazy repetitions, anchors, word boundaries and lookahead. -/

namespace Remudero.Lib

/-- A pattern. -/
inductive Re where
  | eps
  | cls (p : Char → Bool)
  | seq (a b : Re)
  | alt (a b : Re)
  /-- from `lo` to `hi` times -/
  | rep (lo : ℕ) (hi : Option ℕ) (greedy : Bool) (r : Re)
  | group (n : ℕ) (r : Re)
  | backref (n : ℕ)
  /-- `^` and `$`, and the same with the flag `m` -/
  | start
  | stop
  | lineStart
  | lineStop
  /-- `\b` -/
  | boundary
  | ahead (r : Re)

namespace Re

/-- A place in a text, with the groups matched so far; the text before it is last character first. -/
structure Pos where
  before : Text
  rest : Text
  groups : List (ℕ × Text) := []

/-- The text of a group, if it took part in the match. -/
def Pos.group? (s : Pos) (n : ℕ) : Option Text := (s.groups.find? fun g => g.1 = n).map (·.2)

def Pos.group (s : Pos) (n : ℕ) : Text := (s.group? n).getD []

/-- What was read from `s` to `t`. -/
def Pos.readTo (s t : Pos) : Text := s.rest.take (s.rest.length - t.rest.length)

def isWord (c : Char) : Bool := c.isAlphanum || c == '_'

/-- Read a fixed text. -/
def readText (s : Pos) (t : Text) (k : Pos → Option Pos) : Option Pos :=
  if t.isPrefixOf s.rest then k { s with before := t.reverse ++ s.before, rest := s.rest.drop t.length }
  else none

/-- Repeat `f`; the first number bounds the repetitions from above. -/
def repeatRun (f : Pos → (Pos → Option Pos) → Option Pos) (greedy : Bool) :
    ℕ → ℕ → Option ℕ → Pos → (Pos → Option Pos) → Option Pos
  | 0, _, _, s, k => k s
  | n + 1, lo, hi, s, k =>
      if hi = some 0 then k s
      else
        let again := fun _ : Unit => f s fun t =>
          if lo = 0 && t.rest.length == s.rest.length then none
          else repeatRun f greedy n (lo - 1) (hi.map (· - 1)) t k
        if 0 < lo then again ()
        else if greedy then
          match again () with
          | some t => some t
          | none => k s
        else
          match k s with
          | some t => some t
          | none => again ()

/-- Match the pattern from `s` on, and then what `k` wants. -/
def run : Re → Pos → (Pos → Option Pos) → Option Pos
  | eps, s, k => k s
  | cls p, s, k =>
      match s.rest with
      | [] => none
      | c :: cs => if p c then k { s with before := c :: s.before, rest := cs } else none
  | seq a b, s, k => run a s fun t => run b t k
  | alt a b, s, k =>
      match run a s k with
      | some t => some t
      | none => run b s k
  | rep lo hi greedy r, s, k => repeatRun (run r) greedy (s.rest.length + lo + 1) lo hi s k
  | group n r, s, k => run r s fun t => k { t with groups := (n, s.readTo t) :: t.groups }
  | backref n, s, k => readText s (s.group n) k
  | start, s, k => if s.before.isEmpty then k s else none
  | stop, s, k => if s.rest.isEmpty then k s else none
  | lineStart, s, k => if s.before.head?.all Text.lineTerminator then k s else none
  | lineStop, s, k => if s.rest.head?.all Text.lineTerminator then k s else none
  | boundary, s, k => if (s.before.head?.any isWord) != (s.rest.head?.any isWord) then k s else none
  | ahead r, s, k => if (run r s some).isSome then k s else none

/-- The first match at or after a place; the place where it ends. -/
def search (r : Re) : Text → Text → Option Pos
  | before, [] => run r ⟨before, [], []⟩ some
  | before, c :: cs =>
      match run r ⟨before, c :: cs, []⟩ some with
      | some t => some t
      | none => search r (c :: before) cs

/-- `RegExp.prototype.exec` without the flag `g`. -/
def exec (r : Re) (t : Text) : Option Pos := search r [] t

def test (r : Re) (t : Text) : Bool := (exec r t).isSome

/-- The number of matches with the flag `g`, of a pattern that matches no empty text. -/
def countFrom (r : Re) : ℕ → Text → Text → ℕ
  | 0, _, _ => 0
  | n + 1, before, rest =>
      match search r before rest with
      | none => 0
      | some t => countFrom r n t.before t.rest + 1

def count (r : Re) (t : Text) : ℕ := countFrom r (t.length + 1) [] t

/-! ### Patterns -/

def seqs : List Re → Re
  | [] => eps
  | [r] => r
  | r :: rs => seq r (seqs rs)

def char (c : Char) : Re := cls (· == c)

def text (t : String) : Re := seqs (t.toList.map char)

/-- A text up to ASCII case. -/
def textCI (t : String) : Re := seqs (t.toList.map fun c => cls fun d => d.toLower == c.toLower)

/-- `\s`. -/
def space : Re := cls Text.jsSpace

/-- `.`. -/
def dot : Re := cls fun c => !Text.lineTerminator c

/-- `[\s\S]`. -/
def any : Re := cls fun _ => true

/-- `\d`. -/
def digit : Re := cls Char.isDigit

def star (r : Re) : Re := rep 0 none true r

def plus (r : Re) : Re := rep 1 none true r

def opt (r : Re) : Re := rep 0 (some 1) true r

def lazyStar (r : Re) : Re := rep 0 none false r

def lazyPlus (r : Re) : Re := rep 1 none false r

example : ((seqs [start, group 1 (lazyPlus dot), star space, stop]).exec "a b  ".toList).map
    (·.group 1) = some "a b".toList := by decide

/-! ### Anchored patterns -/

/-- After the start an anchored pattern does not match. -/
theorem search_start (r : Re) (c : Char) (before rest : Text) : search (.seq .start r) (c :: before) rest = none := by
  induction rest generalizing c before with
  | nil => simp [search, run]
  | cons d rest ih => simp [search, run, ih]

theorem seqs_cons_cons (r s : Re) (rs : List Re) : seqs (r :: s :: rs) = .seq r (seqs (s :: rs)) := rfl

theorem run_alt (a b : Re) (s : Pos) (k : Pos → Option Pos) : run (.alt a b) s k = (run a s k).or (run b s k) := by
  rw [run]
  cases run a s k <;> rfl

theorem exec_start (r : Re) (t : Text) : exec (.seq .start r) t = run r ⟨[], t, []⟩ some := by
  cases t with
  | nil => simp [exec, search, run]
  | cons c t =>
      simp only [exec, search, run, List.isEmpty_nil, if_true, search_start]
      cases run r ⟨[], c :: t, []⟩ some <;> rfl

/-! ### Greedy readings of a class -/

/-- The place after all the characters of a class that the rest begins with. -/
def Pos.past (s : Pos) (p : Char → Bool) : Pos :=
  { s with before := (s.rest.takeWhile p).reverse ++ s.before, rest := s.rest.dropWhile p }

/-- So many repetitions are within the bounds. -/
def within (lo : ℕ) (hi : Option ℕ) (n : ℕ) : Bool := decide (lo ≤ n) && hi.all fun h => decide (n ≤ h)

theorem within_succ {hi : Option ℕ} (h : hi ≠ some 0) (lo n : ℕ) :
    within (lo - 1) (hi.map (· - 1)) n = within lo hi (n + 1) := by
  rw [Bool.eq_iff_iff]
  cases hi with
  | none =>
      simp only [within, Bool.and_eq_true, decide_eq_true_eq]
      exact and_congr (by omega) Iff.rfl
  | some m =>
      have hm : m ≠ 0 := fun hzero => h (hzero ▸ rfl)
      simp only [within, Option.map_some, Option.all_some, Bool.and_eq_true, decide_eq_true_eq]
      omega

section Greedy

variable {p : Char → Bool} {k : Pos → Option Pos} {lo : ℕ} {hi : Option ℕ} {s : Pos}

theorem Pos.past_of_not (h : s.rest.head?.any p = false) : s.past p = s ∧ s.rest.takeWhile p = [] := by
  obtain ⟨before, rest, groups⟩ := s
  cases rest with
  | nil => exact ⟨rfl, rfl⟩
  | cons c cs =>
      have hc : p c = false := h
      simp [Pos.past, hc]

/-- No character of the class is next. -/
theorem repeatRun_cls_of_not (h : s.rest.head?.any p = false) (hle : ∀ m ∈ hi, lo ≤ m) (n : ℕ) :
    repeatRun (run (.cls p)) true (n + 1) lo hi s k = if lo = 0 then k s else none := by
  obtain ⟨before, rest, groups⟩ := s
  have hrun : ∀ k' : Pos → Option Pos, run (.cls p) ⟨before, rest, groups⟩ k' = none := by
    intro k'
    cases rest with
    | nil => rfl
    | cons c cs => exact if_neg (by simpa using h)
  rw [repeatRun]
  by_cases hzero : lo = 0
  · simp [hzero, hrun]
  · have hhi : hi ≠ some 0 := fun h => hzero (Nat.le_zero.mp (hle 0 h))
    simp [hzero, hhi, hrun, Nat.pos_of_ne_zero hzero]

/-- A character of the class is next, and may be read. -/
theorem repeatRun_cls_cons {c : Char} {cs before : Text} {groups : List (ℕ × Text)} (hc : p c = true) (hhi : hi ≠ some 0)
    (n : ℕ) : repeatRun (run (.cls p)) true (n + 1) lo hi ⟨before, c :: cs, groups⟩ k =
      (repeatRun (run (.cls p)) true n (lo - 1) (hi.map (· - 1)) ⟨c :: before, cs, groups⟩ k).or
        (if lo = 0 then k ⟨before, c :: cs, groups⟩ else none) := by
  rw [repeatRun, if_neg hhi]
  by_cases hzero : lo = 0
  · subst hzero
    have hlength : (cs.length == cs.length + 1) = false := by simp
    have hread : ∀ k' : Pos → Option Pos, run (.cls p) ⟨before, c :: cs, groups⟩ k' = k' ⟨c :: before, cs, groups⟩ :=
      fun k' => if_pos hc
    simp only [hread, lt_self_iff_false, if_false, if_true, List.length_cons, hlength, Bool.and_false, Bool.false_eq_true]
    cases repeatRun (run (.cls p)) true n (0 - 1) (hi.map (· - 1)) ⟨c :: before, cs, groups⟩ k <;> rfl
  · simp [run, hc, hzero, Nat.pos_of_ne_zero hzero]

/-- What follows a repetition refuses the characters that may be repeated: all of them are read or nothing matches. -/
theorem repeatRun_cls_of_refuses (hk : ∀ t : Pos, t.rest.head?.any p = true → k t = none) (n : ℕ) (hn : s.rest.length < n)
    (hle : ∀ m ∈ hi, lo ≤ m) : repeatRun (run (.cls p)) true n lo hi s k =
      if within lo hi (s.rest.takeWhile p).length then k (s.past p) else none := by
  induction n generalizing lo hi s with
  | zero => omega
  | succ n ih =>
      cases hhead : s.rest.head?.any p with
      | false =>
          obtain ⟨hpast, htake⟩ := Pos.past_of_not hhead
          rw [repeatRun_cls_of_not hhead hle, hpast, htake]
          refine if_congr ?_ rfl rfl
          cases hi <;> simp [within]
      | true =>
          obtain ⟨before, rest, groups⟩ := s
          cases rest with
          | nil => cases hhead
          | cons c cs =>
              have hc : p c = true := hhead
              have hpast : Pos.past ⟨before, c :: cs, groups⟩ p = Pos.past ⟨c :: before, cs, groups⟩ p := by
                simp [Pos.past, hc]
              have htake : (c :: cs).takeWhile p = c :: cs.takeWhile p := by simp [hc]
              by_cases hhi : hi = some 0
              · rw [repeatRun, if_pos hhi, hk _ hhead, htake, if_neg]
                simp [within, hhi]
              · have hle' : ∀ m ∈ hi.map (· - 1), lo - 1 ≤ m := by
                  intro m hm
                  obtain ⟨m', hm', rfl⟩ := Option.map_eq_some_iff.mp hm
                  exact Nat.sub_le_sub_right (hle m' hm') 1
                rw [repeatRun_cls_cons hc hhi, ih (Nat.lt_of_succ_lt_succ hn) hle', hk _ hhead, ite_self, Option.or_none,
                  within_succ hhi, hpast, htake, List.length_cons]

/-- What follows takes the longest reading. -/
theorem repeatRun_cls_of_takes (hk : (k (s.past p)).isSome) (n : ℕ) (hn : s.rest.length < n) :
    repeatRun (run (.cls p)) true n lo none s k = if lo ≤ (s.rest.takeWhile p).length then k (s.past p) else none := by
  induction n generalizing lo s with
  | zero => omega
  | succ n ih =>
      cases hhead : s.rest.head?.any p with
      | false =>
          obtain ⟨hpast, htake⟩ := Pos.past_of_not hhead
          rw [repeatRun_cls_of_not hhead (by simp), hpast, htake]
          exact if_congr (by simp) rfl rfl
      | true =>
          obtain ⟨before, rest, groups⟩ := s
          cases rest with
          | nil => cases hhead
          | cons c cs =>
              have hc : p c = true := hhead
              have hpast : Pos.past ⟨before, c :: cs, groups⟩ p = Pos.past ⟨c :: before, cs, groups⟩ p := by
                simp [Pos.past, hc]
              have htake : (c :: cs).takeWhile p = c :: cs.takeWhile p := by simp [hc]
              rw [hpast] at hk ⊢
              rw [repeatRun_cls_cons hc (by simp), Option.map_none, ih hk (Nat.lt_of_succ_lt_succ hn), htake, List.length_cons]
              obtain ⟨t, ht⟩ := Option.isSome_iff_exists.mp hk
              rw [ht]
              dsimp only
              by_cases hlo : lo ≤ (cs.takeWhile p).length + 1
              · rw [if_pos (by omega), if_pos hlo]
                rfl
              · rw [if_neg (by omega), if_neg hlo, if_neg (by omega)]
                rfl

theorem run_rep_cls_of_refuses (hk : ∀ t : Pos, t.rest.head?.any p = true → k t = none) (hle : ∀ m ∈ hi, lo ≤ m) :
    run (.rep lo hi true (.cls p)) s k = if within lo hi (s.rest.takeWhile p).length then k (s.past p) else none :=
  repeatRun_cls_of_refuses hk _ (by omega) hle

theorem run_rep_cls_of_takes (hk : (k (s.past p)).isSome) :
    run (.rep lo none true (.cls p)) s k = if lo ≤ (s.rest.takeWhile p).length then k (s.past p) else none :=
  repeatRun_cls_of_takes hk _ (by omega)

/-- A repetition that needs a character of the class does not start at another one. -/
theorem run_rep_cls_of_not (h : s.rest.head?.any p = false) (hlo : 0 < lo) (hle : ∀ m ∈ hi, lo ≤ m) :
    run (.rep lo hi true (.cls p)) s k = none := by
  have hrun : run (.rep lo hi true (.cls p)) s k = if lo = 0 then k s else none := repeatRun_cls_of_not h hle _
  rw [hrun, if_neg (by omega)]

theorem Pos.readTo_past : s.readTo (s.past p) = s.rest.takeWhile p := by
  have hlength := congrArg List.length (List.takeWhile_append_dropWhile (p := p) (l := s.rest))
  rw [List.length_append] at hlength
  have hread : s.rest.length - (s.rest.dropWhile p).length = (s.rest.takeWhile p).length := by omega
  show s.rest.take (s.rest.length - (s.rest.dropWhile p).length) = _
  rw [hread]
  exact (List.prefix_iff_eq_take.mp (List.takeWhile_prefix p)).symm

end Greedy

end Re

end Remudero.Lib
