import Remudero.Lib.Regex

/-! # The verdict of a name-filtered test run

`nameFilteredOutcome` and `vitestNameFilteredOutcome` of `lib/review.ts` read the TAP output of a run
of the named tests.  A pass is meant to say that a matching test ran.  The node reader counts every
result line that is not a file wrapper, a skipped or todo one included; the Vitest reader leaves out
lines with `# SKIP`, but counts todo lines and the lines of enclosing suites, and it leaves out a
failing test whose line has `# SKIP` in it.

`pass_sound_iff` says exactly for which outputs a pass has a test behind it. -/

namespace Remudero.Review

open Remudero.Lib

inductive ProofResult where
  | pass
  | fail
  | noMatch
  | cannotLoad
deriving DecidableEq, Repr

/-! ### Result lines -/

/-- A result line: its indentation, whether it says `ok`, and its name. -/
structure TapLine where
  indent : Text
  ok : Bool
  name : Text
deriving DecidableEq

/-- `(ok|not ok) \d+ - (.+?)\s*$` after the indentation. -/
def resultRe (indent : Re) : Re :=
  .seqs [.start, .group 1 (.star indent), .group 2 (.alt (.text "ok") (.text "not ok")), .char ' ',
    .plus .digit, .text " - ", .group 3 (.lazyPlus .dot), .star .space, .stop]

def tapLine (indent : Re) (line : Text) : Option TapLine :=
  ((resultRe indent).exec line).map fun m =>
    { indent := m.group 1, ok := m.group 2 == "ok".toList, name := m.group 3 }

def linesOf (stdout : Text) : List Text := Text.splitBy (· == '\n') stdout

/-- `TAP_RESULT_LINE_RE`. -/
def nodeResults (stdout : Text) : List TapLine := (linesOf stdout).filterMap (tapLine .space)

/-- `VITEST_TAP_RESULT_LINE_RE`. -/
def vitestResults (stdout : Text) : List TapLine := (linesOf stdout).filterMap (tapLine (.char ' '))

/-- `\.(?:test|spec)\.[cm]?[jt]sx?$` -/
def isFileWrapperResultName (name : Text) : Bool :=
  (Re.seqs [.char '.', .alt (.text "test") (.text "spec"), .char '.',
    .opt (.cls fun c => c == 'c' || c == 'm'), .cls (fun c => c == 'j' || c == 't'), .char 's',
    .opt (.char 'x'), .stop]).test (Text.trim name)

/-- `#\s*SKIP\b` -/
def hasSkip (name : Text) : Bool :=
  (Re.seqs [.char '#', .star .space, .textCI "SKIP", .boundary]).test name

/-- The same for `TODO`. -/
def hasTodo (name : Text) : Bool :=
  (Re.seqs [.char '#', .star .space, .textCI "TODO", .boundary]).test name

/-- The line of an enclosing suite, which opens a block. -/
def opensBlock (name : Text) : Bool := name.getLast? == some '\x7b'

/-! ### Runs that could not load -/

def moduleLoadErrorRe : Re :=
  .alt (.seq (.textCI "Cannot find ") (.alt (.textCI "package") (.textCI "module")))
    (.textCI "ERR_MODULE_NOT_FOUND")

/-- All wrappers failed, or more than half of the failures are module errors. -/
def wrappersCouldNotLoad (failed total : ℕ) (stdout stderr : Text) : Bool :=
  if failed = 0 then false
  else if failed = total then true
  else
    let found := moduleLoadErrorRe.count stdout
    let moduleErrors := if found = 0 then if moduleLoadErrorRe.test stderr then 1 else 0 else found
    decide (failed < 2 * moduleErrors)

/-! ### The node reader -/

/-- `^# duration_ms\b`, on any line. -/
def hasFinalSummary (stdout : Text) : Bool :=
  (Re.seqs [.lineStart, .text "# duration_ms", .boundary]).test stdout

/-- The result lines that are not file wrappers. -/
def nodeCounted (stdout : Text) : List TapLine :=
  (nodeResults stdout).filter fun l => !isFileWrapperResultName l.name

def nodeWrappers (stdout : Text) : List TapLine :=
  (nodeResults stdout).filter fun l => isFileWrapperResultName l.name

def nameFilteredOutcome (stdout stderr : Text) : Except Text ProofResult :=
  if (nodeCounted stdout).isEmpty then
    if !hasFinalSummary stdout then
      .error ("name-filtered proof run was truncated before its trailing summary (proof timeout) — " ++
        "inconclusive, not evidence the named test is missing").toList
    else if wrappersCouldNotLoad ((nodeWrappers stdout).filter fun l => !l.ok).length
        (nodeWrappers stdout).length stdout stderr then .ok .cannotLoad
    else .ok .noMatch
  else if (nodeCounted stdout).any fun l => !l.ok then .ok .fail
  else .ok .pass

/-! ### The Vitest reader -/

/-- The lines below a file wrapper. -/
def vitestNested (stdout : Text) : List TapLine :=
  (vitestResults stdout).filter fun l => !l.indent.isEmpty

def vitestWrappers (stdout : Text) : List TapLine :=
  (vitestResults stdout).filter fun l => l.indent.isEmpty

/-- The nested lines without `# SKIP`. -/
def vitestCounted (stdout : Text) : List TapLine :=
  (vitestNested stdout).filter fun l => !hasSkip l.name

/-- `^1\.\.(\d+)\s*$`, on any line. -/
def vitestPlan (stdout : Text) : Option ℕ :=
  ((Re.seqs [.lineStart, .text "1..", .group 1 (.plus .digit), .star .space, .lineStop]).exec
    stdout).map fun m => (m.group 1).foldl (fun n c => 10 * n + (c.toNat - 48)) 0

def vitestNameFilteredOutcome (stdout stderr : Text) : Except Text ProofResult :=
  if (vitestCounted stdout).isEmpty then
    if (vitestPlan stdout).all fun planned => decide ((vitestWrappers stdout).length < planned) then
      .error ("name-filtered Vitest proof run was truncated before its TAP plan count completed — " ++
        "inconclusive, not evidence the named test is missing").toList
    else if wrappersCouldNotLoad ((vitestWrappers stdout).filter fun l => !l.ok).length
        (vitestWrappers stdout).length stdout stderr then .ok .cannotLoad
    else .ok .noMatch
  else if (vitestCounted stdout).any fun l => !l.ok then .ok .fail
  else .ok .pass

/-! ### What a pass says -/

/-- A test that ran: an `ok` without a directive among the tests, and no `not ok`. -/
def TestRan (tests : List TapLine) : Prop :=
  (∃ l ∈ tests, l.ok = true ∧ hasSkip l.name = false ∧ hasTodo l.name = false) ∧
    ∀ l ∈ tests, l.ok = true

/-- The tests of a Vitest run: nested lines that open no block. -/
def vitestTests (stdout : Text) : List TapLine :=
  (vitestNested stdout).filter fun l => !opensBlock l.name

/-- A pass of either reader has a test behind it; the tests of a node run are the lines that are not
file wrappers. -/
def PassSound (stdout stderr : Text) : Prop :=
  (nameFilteredOutcome stdout stderr = .ok .pass → TestRan (nodeCounted stdout)) ∧
  (vitestNameFilteredOutcome stdout stderr = .ok .pass → TestRan (vitestTests stdout))

/-- Where some lines count and all of these are `ok`.  As node output: one of them has no directive.
As Vitest output: one of them is neither todo nor a suite, and no failing test has `# SKIP` in its
line. -/
def OutputConclusive (stdout : Text) : Prop :=
  (nodeCounted stdout ≠ [] → (∀ l ∈ nodeCounted stdout, l.ok = true) →
    ∃ l ∈ nodeCounted stdout, hasSkip l.name = false ∧ hasTodo l.name = false) ∧
  (vitestCounted stdout ≠ [] → (∀ l ∈ vitestCounted stdout, l.ok = true) →
    (∃ l ∈ vitestCounted stdout, hasTodo l.name = false ∧ opensBlock l.name = false) ∧
      ∀ l ∈ vitestNested stdout, hasSkip l.name = true → opensBlock l.name = false → l.ok = true)

theorem any_not_ok {ls : List TapLine} : (ls.any fun l => !l.ok) = false ↔ ∀ l ∈ ls, l.ok = true := by
  simp

/-- The node reader passes exactly if some lines count and all of these are `ok`. -/
theorem nameFilteredOutcome_pass {stdout stderr : Text} :
    nameFilteredOutcome stdout stderr = .ok .pass ↔
      nodeCounted stdout ≠ [] ∧ ∀ l ∈ nodeCounted stdout, l.ok = true := by
  unfold nameFilteredOutcome
  rw [← any_not_ok]
  split_ifs with h₁ h₂ h₃ h₄ <;> simp_all

theorem vitestNameFilteredOutcome_pass {stdout stderr : Text} :
    vitestNameFilteredOutcome stdout stderr = .ok .pass ↔
      vitestCounted stdout ≠ [] ∧ ∀ l ∈ vitestCounted stdout, l.ok = true := by
  unfold vitestNameFilteredOutcome
  rw [← any_not_ok]
  split_ifs with h₁ h₂ h₃ h₄ <;> simp_all

theorem mem_vitestCounted {stdout : Text} {l : TapLine} :
    l ∈ vitestCounted stdout ↔ l ∈ vitestNested stdout ∧ hasSkip l.name = false := by
  simp [vitestCounted]

theorem mem_vitestTests {stdout : Text} {l : TapLine} :
    l ∈ vitestTests stdout ↔ l ∈ vitestNested stdout ∧ opensBlock l.name = false := by
  simp [vitestTests]

/-- Where the lines that count are `ok`, a Vitest test ran exactly under the condition. -/
theorem vitestRan_iff {stdout : Text} (hok : ∀ l ∈ vitestCounted stdout, l.ok = true) :
    TestRan (vitestTests stdout) ↔
      (∃ l ∈ vitestCounted stdout, hasTodo l.name = false ∧ opensBlock l.name = false) ∧
        ∀ l ∈ vitestNested stdout, hasSkip l.name = true → opensBlock l.name = false → l.ok = true := by
  constructor
  · rintro ⟨⟨l, hl, hlok, hskip, htodo⟩, hall⟩
    obtain ⟨hnested, hblock⟩ := mem_vitestTests.mp hl
    refine ⟨⟨l, mem_vitestCounted.mpr ⟨hnested, hskip⟩, htodo, hblock⟩, ?_⟩
    intro l' hl' _ hblock'
    exact hall l' (mem_vitestTests.mpr ⟨hl', hblock'⟩)
  · rintro ⟨⟨l, hl, htodo, hblock⟩, hskipped⟩
    obtain ⟨hnested, hskip⟩ := mem_vitestCounted.mp hl
    refine ⟨⟨l, mem_vitestTests.mpr ⟨hnested, hblock⟩, hok l hl, hskip, htodo⟩, ?_⟩
    intro l' hl'
    obtain ⟨hnested', hblock'⟩ := mem_vitestTests.mp hl'
    cases hs : hasSkip l'.name with
    | true => exact hskipped l' hnested' hs hblock'
    | false => exact hok l' (mem_vitestCounted.mpr ⟨hnested', hs⟩)

/-- For every output: a pass of either reader has a test behind it exactly if the output is
conclusive. -/
theorem pass_sound_iff (stdout stderr : Text) : PassSound stdout stderr ↔ OutputConclusive stdout := by
  unfold PassSound OutputConclusive
  rw [nameFilteredOutcome_pass, vitestNameFilteredOutcome_pass]
  refine and_congr ?_ ?_
  · constructor
    · intro h hne hok
      obtain ⟨l, hl, -, hskip, htodo⟩ := (h ⟨hne, hok⟩).1
      exact ⟨l, hl, hskip, htodo⟩
    · rintro h ⟨hne, hok⟩
      obtain ⟨l, hl, hskip, htodo⟩ := h hne hok
      exact ⟨⟨l, hl, hok l hl, hskip, htodo⟩, hok⟩
  · constructor
    · intro h hne hok
      exact (vitestRan_iff hok).mp (h ⟨hne, hok⟩)
    · rintro h ⟨hne, hok⟩
      exact (vitestRan_iff hok).mpr (h hne hok)

/-! A node run with one skipped test, and a Vitest run with a suite of one skipped test. -/

def skippedRun : Text := "ok 1 - named test # SKIP\n".toList

def skippedSuiteRun : Text :=
  "ok 1 - a.test.ts # time=1ms \x7b\n    ok 1 - suite # time=1ms \x7b\n        ok 1 - named # SKIP\n".toList

/-- Both readers pass, and no test ran. -/
theorem pass_without_test :
    nameFilteredOutcome skippedRun [] = .ok .pass ∧ ¬ PassSound skippedRun [] ∧
      vitestNameFilteredOutcome skippedSuiteRun [] = .ok .pass ∧ ¬ PassSound skippedSuiteRun [] := by
  have hnode : nodeCounted skippedRun = [⟨[], true, "named test # SKIP".toList⟩] := by decide +kernel
  have hvitest : vitestTests skippedSuiteRun =
      [⟨"        ".toList, true, "named # SKIP".toList⟩] := by decide +kernel
  have hpass : nameFilteredOutcome skippedRun [] = .ok .pass := by
    rw [nameFilteredOutcome_pass, hnode]
    simp
  have hpass' : vitestNameFilteredOutcome skippedSuiteRun [] = .ok .pass := by
    rw [vitestNameFilteredOutcome_pass]
    decide +kernel
  have hskip : hasSkip "named test # SKIP".toList = true := by decide +kernel
  have hskip' : hasSkip "named # SKIP".toList = true := by decide +kernel
  refine ⟨hpass, ?_, hpass', ?_⟩
  · rintro ⟨h, -⟩
    obtain ⟨l, hl, -, hno, -⟩ := (h hpass).1
    rw [hnode, List.mem_singleton] at hl
    rw [hl, hskip] at hno
    cases hno
  · rintro ⟨-, h⟩
    obtain ⟨l, hl, -, hno, -⟩ := (h hpass').1
    rw [hvitest, List.mem_singleton] at hl
    rw [hl, hskip'] at hno
    cases hno

end Remudero.Review
