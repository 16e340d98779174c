import Remudero.Lib.JsonParse
import Remudero.Lib.NumberText

/-! # Integers in JSON

A natural number that is written out digit by digit is a number of JSON (`readable_toDigits`), and so is an integer with
its sign (`readable_signedDigits`). -/

namespace Remudero.Lib.Json

open Number Re

theorem run_cls_cons (p : Char → Bool) (before rest : Text) (groups : List (ℕ × Text)) (c : Char) (k : Pos → Option Pos) :
    run (.cls p) ⟨before, c :: rest, groups⟩ k = if p c then k ⟨c :: before, rest, groups⟩ else none := rfl

theorem run_opt_cls_of_not {p : Char → Bool} {c : Char} (h : p c = false) (before rest : Text) (groups : List (ℕ × Text))
    (k : Pos → Option Pos) : run (.opt (.cls p)) ⟨before, c :: rest, groups⟩ k = k ⟨before, c :: rest, groups⟩ := by
  show repeatRun (run (.cls p)) true ((c :: rest).length + 0 + 1) 0 (some 1) ⟨before, c :: rest, groups⟩ k = _
  rw [repeatRun]
  simp [run_cls_cons, h]

/-- A starred class reads a text of its characters to the end, if what follows matches there. -/
theorem isSome_repeatRun_cls {p : Char → Bool} {k : Pos → Option Pos} {rest : Text} (h : ∀ c ∈ rest, p c = true)
    (hk : ∀ before groups, (k ⟨before, [], groups⟩).isSome) {n : ℕ} (hn : rest.length < n) (before : Text)
    (groups : List (ℕ × Text)) : (repeatRun (run (.cls p)) true n 0 none ⟨before, rest, groups⟩ k).isSome := by
  induction rest generalizing n before with
  | nil =>
      obtain ⟨n, rfl⟩ : ∃ m, n = m + 1 := ⟨n - 1, by omega⟩
      simp only [repeatRun, run]
      simpa using hk before groups
  | cons c rest ih =>
      rw [List.length_cons] at hn
      obtain ⟨n, rfl⟩ : ∃ m, n = m + 1 := ⟨n - 1, by omega⟩
      have hc : p c = true := h c List.mem_cons_self
      have hrest := ih (fun d hd => h d (List.mem_cons_of_mem c hd)) (show rest.length < n by omega) (c :: before)
      obtain ⟨t, ht⟩ := Option.isSome_iff_exists.mp hrest
      rw [repeatRun]
      simp [run_cls_cons, hc, ht]

theorem head_toDigits {n : ℕ} (h : 0 < n) : ∃ d more, Nat.toDigits 10 n = d :: more ∧ d ≠ '0' := by
  induction n using Nat.strongRecOn with
  | ind n ih =>
      by_cases hsmall : n < 10
      · refine ⟨Nat.digitChar n, [], Nat.toDigits_of_lt_base hsmall, ?_⟩
        interval_cases n <;> decide
      · obtain ⟨d, more, hd, hne⟩ := ih (n / 10) (Nat.div_lt_self h (by decide)) (Nat.div_pos (not_lt.mp hsmall) (by decide))
        refine ⟨d, more ++ [Nat.digitChar (n % 10)], ?_, hne⟩
        rw [Nat.toDigits_of_base_le (by decide) (not_lt.mp hsmall), hd]
        rfl

/-- What comes after the sign of a number: a digit that is not zero, and digits. -/
theorem isSome_run_digits {d : Char} {more before : Text} {rest : Pos → Option Pos} (hd : d.isDigit = true) (hne : d ≠ '0')
    (hmore : ∀ c ∈ more, c.isDigit = true) (hrest : ∀ before groups, (rest ⟨before, [], groups⟩).isSome) :
    (run (.alt (.char '0') (.seq (.cls fun c => c.isDigit && c != '0') (.star .digit))) ⟨before, d :: more, []⟩ rest).isSome := by
  have hstar : (run (.star .digit) ⟨d :: before, more, []⟩ rest).isSome :=
    isSome_repeatRun_cls hmore hrest (Nat.lt_succ_self more.length) (d :: before) []
  have hdigits : run (.seq (.cls fun c => c.isDigit && c != '0') (.star .digit)) ⟨before, d :: more, []⟩ rest =
      run (.star .digit) ⟨d :: before, more, []⟩ rest := if_pos (by simp [hd, hne])
  have hfirst : run (.char '0') ⟨before, d :: more, []⟩ rest = none := if_neg (by simpa using hne)
  rw [run, hfirst, hdigits]
  exact hstar

/-- An optional character is taken where it stands, if what follows matches then. -/
theorem isSome_run_opt_cls {p : Char → Bool} {c : Char} {before rest : Text} {groups : List (ℕ × Text)} {k : Pos → Option Pos}
    (h : p c = true) (hk : (k ⟨c :: before, rest, groups⟩).isSome) :
    (run (.opt (.cls p)) ⟨before, c :: rest, groups⟩ k).isSome := by
  obtain ⟨t, ht⟩ := Option.isSome_iff_exists.mp hk
  show (repeatRun (run (.cls p)) true ((c :: rest).length + 0 + 1) 0 (some 1) ⟨before, c :: rest, groups⟩ k).isSome
  rw [repeatRun]
  simp [run_cls_cons, h, repeatRun, ht]

/-- What comes after the digits of a number without a fraction and an exponent. -/
def noFraction (t : Pos) : Option Pos :=
  run (.seqs [.opt (.seq (.char '.') (.plus .digit)),
    .opt (.seqs [.cls fun c => c == 'e' || c == 'E', .opt (.cls fun c => c == '+' || c == '-'), .plus .digit]), .stop]) t some

theorem test_of_isSome_run {t : Text} (h : (run numberRe ⟨[], t, []⟩ some).isSome) : numberRe.test t = true := by
  obtain ⟨p, hp⟩ := Option.isSome_iff_exists.mp h
  unfold Re.test Re.exec
  cases t with
  | nil => simp [Re.search, hp]
  | cons c t => simp [Re.search, hp]

theorem test_numberRe {d : Char} {more : Text} (hd : d.isDigit = true) (hne : d ≠ '0') (hmore : ∀ c ∈ more, c.isDigit = true) :
    numberRe.test (d :: more) = true := by
  have hsign : (d == '-') = false := by
    refine beq_eq_false_iff_ne.mpr ?_
    rintro rfl
    cases hd
  have hsign' : run numberRe ⟨[], d :: more, []⟩ some = run (.alt (.char '0') (.seq (.cls fun c => c.isDigit && c != '0') (.star .digit)))
      ⟨[], d :: more, []⟩ noFraction := @run_opt_cls_of_not (· == '-') d hsign [] more [] _
  refine test_of_isSome_run ?_
  rw [hsign']
  exact isSome_run_digits hd hne hmore fun before groups => rfl

theorem test_numberRe_neg {d : Char} {more : Text} (hd : d.isDigit = true) (hne : d ≠ '0') (hmore : ∀ c ∈ more, c.isDigit = true) :
    numberRe.test ('-' :: d :: more) = true := by
  have hdigits := @isSome_run_digits d more ['-'] noFraction hd hne hmore fun before groups => rfl
  exact test_of_isSome_run (@isSome_run_opt_cls (· == '-') '-' [] (d :: more) [] _ (by rfl) hdigits)

theorem readable_toDigits (n : ℕ) : Readable (.num (Nat.toDigits 10 n)) := by
  have hdigits := isDigit_toDigits n
  refine ⟨Nat.toDigits_ne_nil, fun c hc => ?_, ?_⟩
  · simp [numberChar, hdigits c hc]
  · obtain rfl | hpos := Nat.eq_zero_or_pos n
    · decide
    · obtain ⟨d, more, hd, hne⟩ := head_toDigits hpos
      rw [hd] at hdigits ⊢
      exact test_numberRe (hdigits d List.mem_cons_self) hne fun c hc => hdigits c (List.mem_cons_of_mem d hc)

theorem readable_signedDigits (n : ℤ) : Readable (.num (signedDigits n)) := by
  unfold signedDigits
  by_cases hneg : n < 0
  · rw [if_pos hneg]
    have hdigits := isDigit_toDigits n.natAbs
    refine ⟨List.cons_ne_nil _ _, fun c hc => ?_, ?_⟩
    · rcases List.mem_cons.mp hc with rfl | hc
      · decide
      · simp [numberChar, hdigits c hc]
    · obtain ⟨d, more, hd, hne⟩ := head_toDigits (Int.natAbs_pos.mpr hneg.ne)
      rw [hd] at hdigits ⊢
      exact test_numberRe_neg (hdigits d List.mem_cons_self) hne fun c hc => hdigits c (List.mem_cons_of_mem d hc)
  · rw [if_neg hneg]
    exact readable_toDigits n.natAbs

end Remudero.Lib.Json
