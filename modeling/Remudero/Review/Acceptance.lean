import Remudero.Lib.Lines
import Remudero.Lib.Regex

/-! # The acceptance block of a pull request body

`acceptanceBlockRegion`, `parseAcceptanceBlock` and `acceptanceBlockDiagnostics` of `lib/review.ts`.
The region walks over bullets and indented lines, the parser stops at the first line that it does not
take, and the diagnostics compare how many bullets the one saw with how many criteria the other
made.  So lines after the last bullet are not noticed when the parser drops them; and a bullet
without a claim is not noticed when the parser goes on after the region and finds another one.

`diagnosed_iff` says exactly when a body that is not reported has all of its lines taken. -/

namespace Remudero.Review

open Remudero.Lib

/-! ### Lines -/

def stripCr (line : Text) : Text := if line.getLast? = some '\r' then line.dropLast else line

/-- `^\s*#{0,6}\s*\**\s*acceptance(\s+criteria)?\b\s*\**\s*:?\s*\**\s*$` -/
def acceptanceHeaderRe : Re :=
  .seqs [.start, .star .space, .rep 0 (some 6) true (.char '#'), .star .space, .star (.char '*'),
    .star .space, .textCI "acceptance", .opt (.group 1 (.seq (.plus .space) (.textCI "criteria"))),
    .boundary, .star .space, .star (.char '*'), .star .space, .opt (.char ':'), .star .space,
    .star (.char '*'), .star .space, .stop]

/-- What follows the mark of a bullet: `[-*]`, or digits and one of `.` and `)`. -/
def afterMark : Text → Option Text
  | [] => none
  | c :: cs =>
      if c = '-' ∨ c = '*' then some cs
      else if c.isDigit then
        match cs.dropWhile Char.isDigit with
        | d :: rest => if d = '.' ∨ d = ')' then some rest else none
        | [] => none
      else none

/-- `^\s*(?:[-*]|\d+[.)])\s+(.*\S)\s*$`: the text of a bullet. -/
def bulletOf (line : Text) : Option Text :=
  match afterMark (line.dropWhile Text.jsSpace) with
  | none => none
  | some rest =>
      let text := Text.trim rest
      if rest.head?.any Text.jsSpace && !text.isEmpty && !text.any Text.lineTerminator then some text
      else none

/-- `^\s+\S` -/
def isIndented (line : Text) : Bool :=
  line.head?.any Text.jsSpace && line.any fun c => !Text.jsSpace c

def isBlank (line : Text) : Bool := (Text.trim line).isEmpty

/-! ### The header -/

/-- The Markdown context of a line: an HTML comment, or the marker of an open fence. -/
structure MarkdownLineState where
  inHtmlComment : Bool := false
  fence : Option Text := none

/-- As many blanks as the text has code units. -/
def blanks (t : Text) : Text := t.flatMap fun c => List.replicate (Text.units c) ' '

/-- ``^ {0,3}(`{3,}(?=[^`]*$)|~{3,})`` -/
def fenceOpenRe : Re :=
  .seqs [.start, .rep 0 (some 3) true (.char ' '),
    .group 1 (.alt (.seq (.rep 3 none true (.char '\x60'))
      (.ahead (.seq (.star (.cls fun c => c != '\x60')) .stop))) (.rep 3 none true (.char '~')))]

/-- ``^ {0,3}(`{3,}|~{3,})[ \t]*$`` -/
def fenceCloseRe : Re :=
  .seqs [.start, .rep 0 (some 3) true (.char ' '),
    .group 1 (.alt (.rep 3 none true (.char '\x60')) (.rep 3 none true (.char '~'))),
    .star (.cls fun c => c == ' ' || c == '\t'), .stop]

/-- The text before the first occurrence of `needle`, and the text after it. -/
def cutAt (needle : Text) : Text → Option (Text × Text)
  | [] => if needle.isEmpty then some ([], []) else none
  | c :: cs =>
      if needle.isPrefixOf (c :: cs) then some ([], (c :: cs).drop needle.length)
      else (cutAt needle cs).map fun r => (c :: r.1, r.2)

/-- The walk over a line outside a fence; the first number bounds its turns. -/
def classifyFrom (line : Text) : ℕ → Text → Text → Text → Bool → MarkdownLineState × Text × Bool
  | 0, _, _, scan, comment => (⟨comment, none⟩, scan, false)
  | n + 1, rest, visible, scan, comment =>
      if rest.isEmpty then (⟨comment, none⟩, scan, false)
      else if comment then
        match cutAt "-->".toList rest with
        | none => (⟨true, none⟩, scan ++ blanks rest, false)
        | some (hidden, rest') =>
            classifyFrom line n rest' visible (scan ++ blanks (hidden ++ "-->".toList)) false
      else
        let fenceOpen :=
          if visible.all (· == ' ') then fenceOpenRe.exec (stripCr (visible ++ rest)) else none
        match fenceOpen with
        | some m => (⟨false, some (m.group 1)⟩, blanks line, true)
        | none =>
            match cutAt "<!--".toList rest with
            | none => classifyFrom line n [] (visible ++ rest) (scan ++ rest) false
            | some (text, rest') =>
                classifyFrom line n rest' (visible ++ text) (scan ++ text ++ "    ".toList) true

/-- The state after a line, the line with its hidden text blanked, and whether a fence owns it. -/
def classifyMarkdownLine (line : Text) (state : MarkdownLineState) : MarkdownLineState × Text × Bool :=
  match state.fence with
  | some fence =>
      let closes := match fenceCloseRe.exec (stripCr line) with
        | some m => (m.group 1).head? == fence.head? && decide (fence.length ≤ (m.group 1).length)
        | none => false
      ({ state with fence := if closes then none else some fence }, blanks line, true)
  | none => classifyFrom line (line.length + 1) line [] [] state.inHtmlComment

/-- The first header outside comments and fences, as the lines after it; and whether the only header
seen is in a fence that is still open. -/
def headerFrom : MarkdownLineState → Bool → List Text → Option (List Text) × Bool
  | _, insideFence, [] => (none, insideFence)
  | state, insideFence, raw :: lines =>
      let line := stripCr raw
      let (state', scan, fenced) := classifyMarkdownLine line state
      if fenced then
        let seen := insideFence || acceptanceHeaderRe.test line
        headerFrom state' (if state'.fence.isNone then false else seen) lines
      else if acceptanceHeaderRe.test scan then (some lines, false)
      else headerFrom state' insideFence lines

def acceptanceHeaderLocation (body : Text) : Option (List Text) × Bool :=
  headerFrom {} false (Text.splitBy (· == '\n') body)

/-- The lines after the header, without their carriage returns. -/
def linesAfterHeader (body : Text) : Option (List Text) :=
  (acceptanceHeaderLocation body).1.map (·.map stripCr)

/-! ### The region -/

/-- The number of lines in the region after the header, and of bullets in it, with `bullets` seen
before. -/
def regionFrom : ℕ → List Text → ℕ × ℕ
  | bullets, [] => (0, bullets)
  | bullets, line :: lines =>
      if (bulletOf line).isSome then
        ((regionFrom (bullets + 1) lines).1 + 1, (regionFrom (bullets + 1) lines).2)
      else if (0 < bullets && isIndented line) || (isBlank line && bullets = 0) then
        ((regionFrom bullets lines).1 + 1, (regionFrom bullets lines).2)
      else (0, bullets)

/-- The lines of the region after the header. -/
def regionLines (lines : List Text) : List Text := lines.take (regionFrom 0 lines).1

/-! ### Bullets -/

structure AcceptanceCriterion where
  claim : Text
  proof : Text
deriving DecidableEq

/-- ``^(["'])([\s\S]*)\1$`` -/
def stripQuotes (t : Text) : Text :=
  match (Re.seqs [.start, .group 1 (.cls fun c => c == '"' || c == '\x27'), .group 2 (.star .any),
      .backref 1, .stop]).exec t with
  | some m => m.group 2
  | none => t

/-- ``^(`+)\s*([\s\S]*?)\s*\1$`` -/
def stripCodeSpan (t : Text) : Text :=
  match (Re.seqs [.start, .group 1 (.plus (.char '\x60')), .star .space, .group 2 (.lazyStar .any),
      .star .space, .backref 1, .stop]).exec t with
  | some m => Text.trim (m.group 2)
  | none => t

/-- `^label:\s*(.+)$` -/
def dialectRe (label : String) : Re :=
  .seqs [.start, .textCI label, .char ':', .star .space, .group 1 (.plus .dot), .stop]

def matchesDialectPrefix (t : Text) : Bool :=
  (dialectRe "unit test").test t || (dialectRe "grep").test t || (dialectRe "demonstration").test t

/-- The executable proof that a bullet without a claim already is, or nothing. -/
def bareDialectProof (item : Text) : Text :=
  let source := if matchesDialectPrefix item then item else stripCodeSpan item
  if (dialectRe "grep").test source || (dialectRe "unit test").test source then source else []

/-- The text before and after every occurrence of `needle`. -/
def splitsAt (needle : Text) : Text → Text → List (Text × Text)
  | _, [] => []
  | before, c :: cs =>
      if needle.isPrefixOf (c :: cs) then
        (before.reverse, (c :: cs).drop needle.length) :: splitsAt needle (c :: before) cs
      else splitsAt needle (c :: before) cs

def yieldsExecutableProof (sep : Text × Text) : Bool :=
  let rhs := Text.trim sep.2
  !rhs.isEmpty && (matchesDialectPrefix rhs || matchesDialectPrefix (stripCodeSpan rhs))

/-- The claim and the proof of an item, at the separator that yields an executable proof. -/
def acceptanceSeparator (item : Text) : Option (Text × Text) :=
  match cutAt "|".toList item with
  | none => none
  | some legacy =>
      let spaced := splitsAt " | ".toList [] item
      if yieldsExecutableProof legacy then some legacy
      else
        match spaced.reverse.find? yieldsExecutableProof with
        | some sep => some sep
        | none => some (spaced.getLast?.getD legacy)

/-- `^label\s*:\s*(.*)$`: the value of a labelled text. -/
def labelled (label : String) (t : Text) : Option Text :=
  ((Re.seqs [.start, .textCI label, .star .space, .char ':', .star .space, .group 1 (.star .dot),
    .stop]).exec t).map fun m => stripQuotes (Text.trim (m.group 1))

/-- The criterion of a bullet, with the claim as written before a split that a proof line may undo;
nothing for a bullet without a claim. -/
def criterionOf (text : Text) : Option (AcceptanceCriterion × Option Text) :=
  let item := Text.trim text
  let sep := acceptanceSeparator item
  let written := Text.trim (match sep with | some s => s.1 | none => item)
  let split := match sep with | some s => Text.trim s.2 | none => []
  let label := labelled "claim" written
  let claim := label.getD written
  let proof := if label.isNone && sep.isNone then bareDialectProof written else split
  if claim.isEmpty then none
  else some (⟨claim, proof⟩, if label.isSome && !proof.isEmpty then labelled "claim" item else none)

/-! ### The parser -/

/-- What the parser does with a line it does not stop at. -/
inductive LineFate where
  | criterion
  | claimless
  | proof
  | gap
deriving DecidableEq

/-- The proof a criterion takes from an indented line below it. -/
def takeProof (c : AcceptanceCriterion × Option Text) (line : Text) :
    Option (AcceptanceCriterion × Option Text) :=
  match if isIndented line then labelled "proof" (Text.trim line) else none with
  | none => none
  | some value =>
      if c.1.proof.isEmpty then some (⟨c.1.claim, value⟩, c.2)
      else c.2.map fun claim => (⟨claim, value⟩, none)

/-- One line, with the criteria made so far, the last one first; nothing where the parser stops. -/
def parseLine (done : List (AcceptanceCriterion × Option Text)) (line : Text) :
    Option (LineFate × List (AcceptanceCriterion × Option Text)) :=
  match bulletOf line with
  | some text =>
      match criterionOf text with
      | none => some (.claimless, done)
      | some c => some (.criterion, c :: done)
  | none =>
      match done with
      | [] => if isBlank line then some (.gap, []) else none
      | c :: rest => (takeProof c line).map fun c' => (.proof, c' :: rest)

/-- The criteria at the end, and the fates of the lines before the one that stops the parser. -/
def parseFrom (done : List (AcceptanceCriterion × Option Text)) :
    List Text → List (AcceptanceCriterion × Option Text) × List LineFate
  | [] => (done, [])
  | line :: lines =>
      match parseLine done line with
      | none => (done, [])
      | some (fate, done') => ((parseFrom done' lines).1, fate :: (parseFrom done' lines).2)

def parseAcceptanceBlock (body : Text) : List AcceptanceCriterion :=
  match linesAfterHeader body with
  | none => []
  | some lines => ((parseFrom [] lines).1.map Prod.fst).reverse

structure AcceptanceBlockDiagnostics where
  headerFound : Bool
  headerInsideFence : Bool
  bulletsWritten : ℕ
  criteriaParsed : ℕ
  emptyProofs : ℕ
  truncatedAtBullet : Option ℕ
  defective : Bool

def acceptanceBlockDiagnostics (body : Text) : AcceptanceBlockDiagnostics :=
  let parsed := parseAcceptanceBlock body
  let region := (linesAfterHeader body).map (regionFrom 0)
  let bulletsWritten := (region.map Prod.snd).getD 0
  let emptyProofs := (parsed.filter fun c => c.proof.isEmpty).length
  { headerFound := region.isSome
    headerInsideFence := (acceptanceHeaderLocation body).2
    bulletsWritten := bulletsWritten
    criteriaParsed := parsed.length
    emptyProofs := emptyProofs
    truncatedAtBullet := if parsed.length < bulletsWritten then some (parsed.length + 1) else none
    defective := region.isNone || parsed.length != bulletsWritten || decide (0 < emptyProofs) }

/-! ### Lines that are not blank -/

theorem not_blank_of_indented {line : Text} (h : isIndented line = true) : isBlank line = false := by
  simp only [isIndented, Bool.and_eq_true, List.any_eq_true] at h
  obtain ⟨-, c, hc, hsp⟩ := h
  by_contra hblank
  have hnil : Text.trim line = [] := by simpa [isBlank] using hblank
  rw [Text.trim_eq_nil.mp hnil c hc] at hsp
  cases hsp

theorem not_blank_of_bullet {line text : Text} (h : bulletOf line = some text) :
    isBlank line = false := by
  by_contra hblank
  have hnil : Text.trim line = [] := by simpa [isBlank] using hblank
  have hdrop : line.dropWhile Text.jsSpace = [] := List.dropWhile_eq_nil_iff.mpr (Text.trim_eq_nil.mp hnil)
  simp [bulletOf, hdrop, afterMark] at h

/-! ### What the parser and the region see -/

def criteriaCount (fates : List LineFate) : ℕ := fates.count .criterion

/-- Every line of the region that is not blank made a criterion, or set a proof. -/
def Taken (region : List Text) (fates : List LineFate) : Prop :=
  ∀ (k : ℕ) (line : Text), region[k]? = some line → isBlank line = false →
    fates[k]? = some LineFate.criterion ∨ fates[k]? = some LineFate.proof

theorem taken_cons {line : Text} {region : List Text} {fate : LineFate} {fates : List LineFate} :
    Taken (line :: region) (fate :: fates) ↔
      (isBlank line = false → fate = .criterion ∨ fate = .proof) ∧ Taken region fates := by
  constructor
  · intro h
    refine ⟨fun hline => by simpa using h 0 line rfl hline, ?_⟩
    intro k l hk hl
    simpa using h (k + 1) l (by simpa using hk) hl
  · rintro ⟨hfirst, hrest⟩ k l hk hl
    cases k with
    | zero =>
        obtain rfl : line = l := by simpa using hk
        simpa using hfirst hl
    | succ k => simpa using hrest k l (by simpa using hk) hl

/-- The lines that the criterion takes below its bullet. -/
def TailTaken : AcceptanceCriterion × Option Text → List Text → Prop
  | _, [] => True
  | c, line :: lines =>
      match takeProof c line with
      | none => False
      | some c' => TailTaken c' lines

/-- The lines after the last bullet are taken by its criterion. -/
def LastBulletTaken (region : List Text) : Prop :=
  ∀ pre bullet tail, region = pre ++ bullet :: tail → (∀ l ∈ tail, bulletOf l = none) →
    ∀ text c, bulletOf bullet = some text → criterionOf text = some c → TailTaken c tail

/-- The first bullet has a claim. -/
def FirstBulletClaimed (region : List Text) : Prop :=
  ∀ pre bullet tail, region = pre ++ bullet :: tail → (∀ l ∈ pre, bulletOf l = none) →
    ∀ text, bulletOf bullet = some text → (criterionOf text).isSome

section Walk

variable {line : Text} {lines : List Text} {done : List (AcceptanceCriterion × Option Text)}
  {c c' : AcceptanceCriterion × Option Text} {text : Text} {b : ℕ}

theorem regionFrom_bullet (h : bulletOf line = some text) :
    regionFrom b (line :: lines) =
      ((regionFrom (b + 1) lines).1 + 1, (regionFrom (b + 1) lines).2) := by
  simp [regionFrom, h]

theorem regionFrom_indented (h : bulletOf line = none) (hi : isIndented line = true) :
    regionFrom (b + 1) (line :: lines) =
      ((regionFrom (b + 1) lines).1 + 1, (regionFrom (b + 1) lines).2) := by
  simp [regionFrom, h, hi]

theorem regionFrom_stop (h : bulletOf line = none) (hi : isIndented line = false) :
    regionFrom (b + 1) (line :: lines) = (0, b + 1) := by
  simp [regionFrom, h, hi]

theorem takeProof_indented (h : takeProof c line = some c') : isIndented line = true := by
  unfold takeProof at h
  cases hi : isIndented line with
  | true => rfl
  | false => simp [hi] at h

theorem parseFrom_criterion (h : bulletOf line = some text) (hc : criterionOf text = some c) :
    parseFrom done (line :: lines) =
      ((parseFrom (c :: done) lines).1, .criterion :: (parseFrom (c :: done) lines).2) := by
  simp [parseFrom, parseLine, h, hc]

theorem parseFrom_claimless (h : bulletOf line = some text) (hc : criterionOf text = none) :
    parseFrom done (line :: lines) =
      ((parseFrom done lines).1, .claimless :: (parseFrom done lines).2) := by
  simp [parseFrom, parseLine, h, hc]

theorem parseFrom_proof (h : bulletOf line = none) (hc : takeProof c line = some c') :
    parseFrom (c :: done) (line :: lines) =
      ((parseFrom (c' :: done) lines).1, .proof :: (parseFrom (c' :: done) lines).2) := by
  simp [parseFrom, parseLine, h, hc]

theorem parseFrom_stop (h : bulletOf line = none) (hc : takeProof c line = none) :
    parseFrom (c :: done) (line :: lines) = (c :: done, []) := by
  simp [parseFrom, parseLine, h, hc]

end Walk

/-! ### Below a bullet with a claim -/

section Below

variable {lines : List Text} {done : List (AcceptanceCriterion × Option Text)}
  {c : AcceptanceCriterion × Option Text} {b : ℕ}

/-- The criteria made are those the fates count. -/
theorem length_parseFrom (done : List (AcceptanceCriterion × Option Text)) (lines : List Text) :
    (parseFrom done lines).1.length = done.length + criteriaCount (parseFrom done lines).2 := by
  induction lines generalizing done with
  | nil => simp [parseFrom, criteriaCount]
  | cons line lines ih =>
      cases hb : bulletOf line with
      | some text =>
          cases hc : criterionOf text with
          | some c =>
              have hnext := ih (c :: done)
              rw [parseFrom_criterion hb hc]
              simp only [criteriaCount, List.count_cons_self, List.length_cons] at hnext ⊢
              omega
          | none =>
              have hnext := ih done
              rw [parseFrom_claimless hb hc]
              simpa [criteriaCount] using hnext
      | none =>
          cases done with
          | nil =>
              cases hblank : isBlank line with
              | true => simpa [parseFrom, parseLine, hb, hblank, criteriaCount] using ih []
              | false => simp [parseFrom, parseLine, hb, hblank, criteriaCount]
          | cons c done =>
              cases hp : takeProof c line with
              | some c' =>
                  have hnext := ih (c' :: done)
                  rw [parseFrom_proof hb hp]
                  simpa [criteriaCount] using hnext
              | none => simp [parseFrom_stop hb hp, criteriaCount]

/-- The parser stops in the region, and makes at most as many criteria as there are bullets. -/
theorem fates_le (c : AcceptanceCriterion × Option Text) (done : List (AcceptanceCriterion × Option Text))
    (b : ℕ) (lines : List Text) :
    (parseFrom (c :: done) lines).2.length ≤ (regionFrom (b + 1) lines).1 ∧
      b + 1 + criteriaCount (parseFrom (c :: done) lines).2 ≤ (regionFrom (b + 1) lines).2 := by
  induction lines generalizing c done b with
  | nil => simp [parseFrom, regionFrom, criteriaCount]
  | cons line lines ih =>
      cases hb : bulletOf line with
      | some text =>
          rw [regionFrom_bullet hb]
          cases hc : criterionOf text with
          | some c' =>
              obtain ⟨h₁, h₂⟩ := ih c' (c :: done) (b + 1)
              rw [parseFrom_criterion hb hc]
              simp only [criteriaCount, List.count_cons_self, List.length_cons] at h₂ ⊢
              omega
          | none =>
              obtain ⟨h₁, h₂⟩ := ih c done (b + 1)
              rw [parseFrom_claimless hb hc]
              simp only [criteriaCount, List.length_cons] at h₂ ⊢
              rw [List.count_cons_of_ne (by decide)]
              omega
      | none =>
          cases hp : takeProof c line with
          | some c' =>
              obtain ⟨h₁, h₂⟩ := ih c' done b
              rw [regionFrom_indented hb (takeProof_indented hp), parseFrom_proof hb hp]
              simp only [criteriaCount, List.length_cons] at h₂ ⊢
              rw [List.count_cons_of_ne (by decide)]
              omega
          | none =>
              rw [parseFrom_stop hb hp]
              cases hi : isIndented line with
              | true =>
                  obtain ⟨-, h₂⟩ := ih c done b
                  rw [regionFrom_indented hb hi]
                  simp only [criteriaCount, List.count_nil, List.length_nil] at h₂ ⊢
                  omega
              | false =>
                  rw [regionFrom_stop hb hi]
                  simp [criteriaCount]

theorem length_regionFrom_le (b : ℕ) (lines : List Text) : (regionFrom b lines).1 ≤ lines.length := by
  induction lines generalizing b with
  | nil => simp [regionFrom]
  | cons line lines ih =>
      have h₁ := ih (b + 1)
      have h₂ := ih b
      unfold regionFrom
      split_ifs <;> simp only [List.length_cons] <;> omega

/-- No line of the region below a bullet is blank. -/
theorem not_blank_of_region {line : Text} (h : line ∈ lines.take (regionFrom (b + 1) lines).1) :
    isBlank line = false := by
  induction lines generalizing b with
  | nil => simp at h
  | cons l lines ih =>
      cases hb : bulletOf l with
      | some text =>
          rw [regionFrom_bullet hb, List.take_succ_cons] at h
          rcases List.mem_cons.mp h with rfl | h
          · exact not_blank_of_bullet hb
          · exact ih h
      | none =>
          cases hi : isIndented l with
          | true =>
              rw [regionFrom_indented hb hi, List.take_succ_cons] at h
              rcases List.mem_cons.mp h with rfl | h
              · exact not_blank_of_indented hi
              · exact ih h
          | false =>
              rw [regionFrom_stop hb hi] at h
              simp at h

/-- Where the counts agree, no bullet was without a claim. -/
theorem fates_of_counts
    (h : b + 1 + criteriaCount (parseFrom (c :: done) lines).2 = (regionFrom (b + 1) lines).2) :
    ∀ f ∈ (parseFrom (c :: done) lines).2, f = .criterion ∨ f = .proof := by
  induction lines generalizing c done b with
  | nil => simp [parseFrom]
  | cons line lines ih =>
      cases hb : bulletOf line with
      | some text =>
          rw [regionFrom_bullet hb] at h
          cases hc : criterionOf text with
          | some c' =>
              rw [parseFrom_criterion hb hc] at h ⊢
              simp only [criteriaCount, List.count_cons_self] at h
              have hcount : b + 1 + 1 + criteriaCount (parseFrom (c' :: c :: done) lines).2 =
                  (regionFrom (b + 1 + 1) lines).2 := by
                simp only [criteriaCount]
                omega
              have hrest := ih hcount
              intro f hf
              rcases List.mem_cons.mp hf with rfl | hf
              · exact .inl rfl
              · exact hrest f hf
          | none =>
              obtain ⟨-, h₂⟩ := fates_le c done (b + 1) lines
              rw [parseFrom_claimless hb hc] at h
              simp only [criteriaCount] at h h₂
              rw [List.count_cons_of_ne (by decide)] at h
              omega
      | none =>
          cases hp : takeProof c line with
          | some c' =>
              rw [regionFrom_indented hb (takeProof_indented hp), parseFrom_proof hb hp] at h
              rw [parseFrom_proof hb hp]
              simp only [criteriaCount] at h
              rw [List.count_cons_of_ne (by decide)] at h
              have hrest := ih h
              intro f hf
              rcases List.mem_cons.mp hf with rfl | hf
              · exact .inr rfl
              · exact hrest f hf
          | none => simp [parseFrom_stop hb hp]

end Below

/-! ### Where the counts agree -/

section Agree

variable {lines : List Text} {done : List (AcceptanceCriterion × Option Text)}
  {c : AcceptanceCriterion × Option Text} {b : ℕ}

/-- A region without bullets, where the counts agree and the parser stops at its first line. -/
theorem no_bullet_of_count {lines : List Text} (h : (regionFrom (b + 1) lines).2 = b + 1) :
    ∀ l ∈ lines.take (regionFrom (b + 1) lines).1, bulletOf l = none := by
  induction lines with
  | nil => simp
  | cons line lines ih =>
      cases hb : bulletOf line with
      | some text =>
          obtain ⟨-, h₂⟩ := fates_le (⟨[], []⟩, none) [] (b + 1) lines
          rw [regionFrom_bullet hb] at h
          omega
      | none =>
          cases hi : isIndented line with
          | true =>
              rw [regionFrom_indented hb hi] at h ⊢
              rw [List.take_succ_cons]
              intro l hl
              rcases List.mem_cons.mp hl with rfl | hl
              · exact hb
              · exact ih h l hl
          | false =>
              rw [regionFrom_stop hb hi]
              simp

/-- `LastBulletTaken` for a region that goes on with a bullet. -/
theorem lastBulletTaken_bullet {line text : Text} {region : List Text} {c' : AcceptanceCriterion × Option Text}
    (hb : bulletOf line = some text) (hc : criterionOf text = some c') :
    LastBulletTaken (line :: region) ↔
      LastBulletTaken region ∧ ((∀ l ∈ region, bulletOf l = none) → TailTaken c' region) := by
  constructor
  · intro h
    refine ⟨?_, fun hnone => h [] line region rfl hnone text c' hb hc⟩
    rintro pre bullet tail rfl hnone
    exact h (line :: pre) bullet tail rfl hnone
  · rintro ⟨hrest, hown⟩ pre bullet tail heq hnone text' c'' hb' hc'
    cases pre with
    | nil =>
        obtain ⟨rfl, rfl⟩ := List.cons.inj heq
        rw [hb, Option.some.injEq] at hb'
        subst hb'
        rw [hc, Option.some.injEq] at hc'
        exact hc' ▸ hown hnone
    | cons l pre =>
        obtain ⟨-, hregion⟩ := List.cons.inj heq
        exact hrest pre bullet tail hregion hnone text' c'' hb' hc'

/-- `LastBulletTaken` for a region that goes on with another line. -/
theorem lastBulletTaken_line {line : Text} {region : List Text} (hb : bulletOf line = none) :
    LastBulletTaken (line :: region) ↔ LastBulletTaken region := by
  constructor
  · rintro h pre bullet tail rfl hnone
    exact h (line :: pre) bullet tail rfl hnone
  · intro h pre bullet tail heq hnone text c' hb'
    cases pre with
    | nil =>
        obtain ⟨rfl, -⟩ := List.cons.inj heq
        rw [hb] at hb'
        cases hb'
    | cons l pre =>
        obtain ⟨-, hregion⟩ := List.cons.inj heq
        exact h pre bullet tail hregion hnone text c' hb'

/-- The parser reaches the end of the region exactly if the lines after the last bullet, which may
be the one before these lines, are taken. -/
theorem reaches_iff
    (h : b + 1 + criteriaCount (parseFrom (c :: done) lines).2 = (regionFrom (b + 1) lines).2) :
    (parseFrom (c :: done) lines).2.length = (regionFrom (b + 1) lines).1 ↔
      LastBulletTaken (lines.take (regionFrom (b + 1) lines).1) ∧
        ((∀ l ∈ lines.take (regionFrom (b + 1) lines).1, bulletOf l = none) →
          TailTaken c (lines.take (regionFrom (b + 1) lines).1)) := by
  -- the criterion `c` is the last one made: it changes at a bullet and at a proof line
  induction lines generalizing c done b with
  | nil => simp [parseFrom, regionFrom, LastBulletTaken, TailTaken]
  | cons line lines ih =>
      cases hb : bulletOf line with
      | some text =>
          rw [regionFrom_bullet hb] at h ⊢
          cases hc : criterionOf text with
          | none =>
              obtain ⟨-, h₂⟩ := fates_le c done (b + 1) lines
              rw [parseFrom_claimless hb hc] at h
              simp only [criteriaCount] at h h₂
              rw [List.count_cons_of_ne (by decide)] at h
              omega
          | some c' =>
              rw [parseFrom_criterion hb hc] at h ⊢
              have hcount : b + 1 + 1 + criteriaCount (parseFrom (c' :: c :: done) lines).2 =
                  (regionFrom (b + 1 + 1) lines).2 := by
                simp only [criteriaCount, List.count_cons_self] at h ⊢
                omega
              rw [List.length_cons, Nat.add_right_cancel_iff, ih hcount, List.take_succ_cons,
                lastBulletTaken_bullet hb hc]
              refine ⟨fun hboth => ⟨hboth, fun hnone => ?_⟩, fun hboth => hboth.1⟩
              rw [hnone line List.mem_cons_self] at hb
              cases hb
      | none =>
          cases hp : takeProof c line with
          | some c' =>
              rw [regionFrom_indented hb (takeProof_indented hp)] at h ⊢
              rw [parseFrom_proof hb hp] at h ⊢
              have hcount : b + 1 + criteriaCount (parseFrom (c' :: done) lines).2 =
                  (regionFrom (b + 1) lines).2 := by
                simp only [criteriaCount] at h ⊢
                rwa [List.count_cons_of_ne (by decide)] at h
              rw [List.length_cons, Nat.add_right_cancel_iff, ih hcount, List.take_succ_cons,
                lastBulletTaken_line hb]
              refine and_congr_right fun _ => ?_
              rw [List.forall_mem_cons, TailTaken, hp]
              simp [hb]
          | none =>
              rw [parseFrom_stop hb hp] at h ⊢
              cases hi : isIndented line with
              | true =>
                  rw [regionFrom_indented hb hi] at h ⊢
                  have hnone := no_bullet_of_count (by simpa [criteriaCount] using h.symm)
                  refine iff_of_false (by simp) ?_
                  rintro ⟨-, htail⟩
                  rw [List.take_succ_cons, List.forall_mem_cons, TailTaken, hp] at htail
                  exact htail ⟨hb, hnone⟩
              | false =>
                  rw [regionFrom_stop hb hi]
                  simp [LastBulletTaken, TailTaken]

/-- Below a bullet with a claim: the lines are taken exactly if the parser reaches the end. -/
theorem taken_iff_reaches
    (h : b + 1 + criteriaCount (parseFrom (c :: done) lines).2 = (regionFrom (b + 1) lines).2) :
    Taken (lines.take (regionFrom (b + 1) lines).1) (parseFrom (c :: done) lines).2 ↔
      (parseFrom (c :: done) lines).2.length = (regionFrom (b + 1) lines).1 := by
  obtain ⟨hle, -⟩ := fates_le c done b lines
  constructor
  · intro htaken
    by_contra hne
    -- the line at which the parser stopped is in the region and not blank
    have hlt : (parseFrom (c :: done) lines).2.length < (regionFrom (b + 1) lines).1 := by omega
    have hlen : (parseFrom (c :: done) lines).2.length <
        (lines.take (regionFrom (b + 1) lines).1).length := by
      have hregion := length_regionFrom_le (b + 1) lines
      rw [List.length_take]
      omega
    have hline := List.getElem?_eq_getElem hlen
    have hfate := htaken _ _ hline (not_blank_of_region (List.getElem_mem hlen))
    rw [List.getElem?_eq_none (le_refl _)] at hfate
    rcases hfate with hfate | hfate <;> cases hfate
  · intro hlen k line hk _
    have hfates := fates_of_counts h
    have hk' : k < (parseFrom (c :: done) lines).2.length := by
      have hlt := (List.getElem?_eq_some_iff.mp hk).1
      rw [List.length_take] at hlt
      omega
    have hmem := hfates _ (List.getElem_mem hk')
    rw [List.getElem?_eq_getElem hk']
    simpa using hmem

end Agree

/-! ### The diagnostics -/

/-- Every line of the region that is not blank was taken by the parser. -/
def LinesTaken (body : Text) : Prop :=
  ∀ lines, linesAfterHeader body = some lines →
    Taken (regionLines lines) (parseFrom [] lines).2

/-- The first bullet of the region has a claim, and the lines after its last bullet are proof lines
that the criterion of that bullet takes. -/
def BlockClean (body : Text) : Prop :=
  ∀ lines, linesAfterHeader body = some lines →
    FirstBulletClaimed (regionLines lines) ∧ LastBulletTaken (regionLines lines)

theorem firstBulletClaimed_line {line : Text} {region : List Text} (hb : bulletOf line = none) :
    FirstBulletClaimed (line :: region) ↔ FirstBulletClaimed region := by
  constructor
  · rintro h pre bullet tail rfl hnone
    refine h (line :: pre) bullet tail rfl ?_
    rw [List.forall_mem_cons]
    exact ⟨hb, hnone⟩
  · intro h pre bullet tail heq hnone text hb'
    cases pre with
    | nil =>
        obtain ⟨rfl, -⟩ := List.cons.inj heq
        rw [hb] at hb'
        cases hb'
    | cons l pre =>
        obtain ⟨-, hregion⟩ := List.cons.inj heq
        exact h pre bullet tail hregion (fun x hx => hnone x (List.mem_cons_of_mem _ hx)) text hb'

theorem firstBulletClaimed_bullet {line text : Text} {region : List Text}
    (hb : bulletOf line = some text) :
    FirstBulletClaimed (line :: region) ↔ (criterionOf text).isSome := by
  constructor
  · intro h
    exact h [] line region rfl (by simp) text hb
  · intro h pre bullet tail heq hnone text' hb'
    cases pre with
    | nil =>
        obtain ⟨rfl, -⟩ := List.cons.inj heq
        rw [hb, Option.some.injEq] at hb'
        exact hb' ▸ h
    | cons l pre =>
        obtain ⟨rfl, -⟩ := List.cons.inj heq
        rw [hnone line List.mem_cons_self] at hb
        cases hb

/-- From the header on. -/
theorem taken_start_iff {lines : List Text}
    (h : criteriaCount (parseFrom [] lines).2 = (regionFrom 0 lines).2) :
    Taken (regionLines lines) (parseFrom [] lines).2 ↔
      FirstBulletClaimed (regionLines lines) ∧ LastBulletTaken (regionLines lines) := by
  unfold regionLines
  induction lines with
  | nil => simp [Taken, FirstBulletClaimed, LastBulletTaken]
  | cons line lines ih =>
      cases hb : bulletOf line with
      | some text =>
          rw [regionFrom_bullet hb] at h ⊢
          rw [List.take_succ_cons, firstBulletClaimed_bullet hb]
          cases hc : criterionOf text with
          | none =>
              rw [parseFrom_claimless hb hc, taken_cons]
              refine iff_of_false ?_ (by simp)
              rintro ⟨hfirst, -⟩
              rcases hfirst (not_blank_of_bullet hb) with heq | heq <;> cases heq
          | some c =>
              rw [parseFrom_criterion hb hc] at h ⊢
              have hcount : 0 + 1 + criteriaCount (parseFrom [c] lines).2 = (regionFrom (0 + 1) lines).2 := by
                simp only [criteriaCount, List.count_cons_self] at h ⊢
                omega
              rw [taken_cons, taken_iff_reaches hcount, reaches_iff hcount,
                lastBulletTaken_bullet hb hc]
              simp
      | none =>
          cases hblank : isBlank line with
          | true =>
              have hregion : regionFrom 0 (line :: lines) =
                  ((regionFrom 0 lines).1 + 1, (regionFrom 0 lines).2) := by
                simp [regionFrom, hb, hblank]
              have hparse : parseFrom [] (line :: lines) =
                  ((parseFrom [] lines).1, .gap :: (parseFrom [] lines).2) := by
                simp [parseFrom, parseLine, hb, hblank]
              rw [hregion, hparse] at h
              have hcount : criteriaCount (parseFrom [] lines).2 = (regionFrom 0 lines).2 := by
                simp only [criteriaCount] at h ⊢
                rwa [List.count_cons_of_ne (by decide)] at h
              rw [hregion, hparse, List.take_succ_cons, taken_cons, firstBulletClaimed_line hb,
                lastBulletTaken_line hb, ← ih hcount]
              simp [hblank]
          | false =>
              have hregion : regionFrom 0 (line :: lines) = (0, 0) := by
                simp [regionFrom, hb, hblank]
              rw [hregion]
              simp [Taken, FirstBulletClaimed, LastBulletTaken]

/-- For every body that is not reported: all lines of its region are taken exactly if the block is
clean. -/
theorem diagnosed_iff {body : Text} (h : (acceptanceBlockDiagnostics body).defective = false) :
    LinesTaken body ↔ BlockClean body := by
  simp only [acceptanceBlockDiagnostics, Bool.or_eq_false_iff, bne_eq_false_iff_eq] at h
  obtain ⟨⟨hheader, hcount⟩, -⟩ := h
  refine forall_congr' fun lines => forall_congr' fun hlines => ?_
  have hlength := length_parseFrom [] lines
  rw [parseAcceptanceBlock, hlines] at hcount
  simp only [List.length_reverse, List.length_map, Option.map_some, Option.getD_some] at hcount
  refine taken_start_iff ?_
  rw [← hcount, hlength]
  simp

/-! A criterion whose claim is wrapped after its proof, a bullet without a claim before a blank line,
and a block that says what it should. -/

def wrappedBody : Text := "Acceptance:\n- a | grep: x in y\n  more\n".toList

def claimlessBody : Text := "Acceptance:\n- | p\n\n- a | grep: x in y\n".toList

def plainBody : Text := "Acceptance:\n- a | grep: x in y\n- b\n  proof: grep: z in y\n".toList

/-- Neither body is reported, and neither has all of its lines taken. -/
theorem dropped_lines_not_reported :
    (acceptanceBlockDiagnostics wrappedBody).defective = false ∧ ¬ LinesTaken wrappedBody ∧
      (acceptanceBlockDiagnostics claimlessBody).defective = false ∧ ¬ LinesTaken claimlessBody := by
  have hwrapped : linesAfterHeader wrappedBody =
      some ["- a | grep: x in y".toList, "  more".toList, []] := by decide +kernel
  have hclaimless : linesAfterHeader claimlessBody =
      some ["- | p".toList, [], "- a | grep: x in y".toList, []] := by decide +kernel
  refine ⟨by decide +kernel, ?_, by decide +kernel, ?_⟩
  · intro h
    have hfate := h _ hwrapped 1 "  more".toList (by decide +kernel) (by decide +kernel)
    exact absurd hfate (by decide +kernel)
  · intro h
    have hfate := h _ hclaimless 0 "- | p".toList (by decide +kernel) (by decide +kernel)
    exact absurd hfate (by decide +kernel)

theorem diagnosed_plain :
    (acceptanceBlockDiagnostics plainBody).defective = false ∧ LinesTaken plainBody ∧
      BlockClean plainBody := by
  have h : (acceptanceBlockDiagnostics plainBody).defective = false := by decide +kernel
  have hlines : linesAfterHeader plainBody = some ["- a | grep: x in y".toList, "- b".toList,
      "  proof: grep: z in y".toList, []] := by decide +kernel
  have htaken : LinesTaken plainBody := by
    intro lines hsome
    rw [hlines, Option.some.injEq] at hsome
    subst hsome
    have hregion : (regionLines ["- a | grep: x in y".toList, "- b".toList,
        "  proof: grep: z in y".toList, []]).length = 3 := by decide +kernel
    have hfates : (parseFrom [] ["- a | grep: x in y".toList, "- b".toList,
        "  proof: grep: z in y".toList, []]).2 = [.criterion, .criterion, .proof] := by decide +kernel
    intro k line hk _
    have hlt : k < 3 := hregion ▸ (List.getElem?_eq_some_iff.mp hk).1
    rw [hfates]
    match k, hlt with
    | 0, _ => exact .inl rfl
    | 1, _ => exact .inl rfl
    | 2, _ => exact .inr rfl
  exact ⟨h, htaken, (diagnosed_iff h).mp htaken⟩

end Remudero.Review
