import Remudero.Lib.Lines
import Remudero.Review.Acceptance

/-! # Acceptance bullets are read as written

A body with a header and one bullet `claim | proof` for each criterion.  Claims and proofs may have pipes of their
own: `acceptanceSeparator` tries the first pipe, then every spaced pipe from the right, and takes the first one after
which an executable proof stands.  A criterion is `Writable` when no pipe but the separator is one of these.

* `acceptanceSeparator_bullet`: the split of a bullet, at its first pipe or at the separator itself.
* `parse_written`: parsing a body gives back its criteria. -/

namespace Remudero.Review

open Remudero.Lib

/-! ### Patterns at the start of a text -/

/-- A text is written in a dialect: bare, or in one code span. -/
def matchesDialect (t : Text) : Bool := matchesDialectPrefix t || matchesDialectPrefix (stripCodeSpan t)

theorem yieldsExecutableProof_eq (sep : Text × Text) :
    yieldsExecutableProof sep = (!(Text.trim sep.2).isEmpty && matchesDialect (Text.trim sep.2)) := rfl

theorem dialectRe_pipe {label : String} {c : Char} {cs : Text} (hlabel : label.toList = c :: cs) (hc : c.toLower ≠ '|')
    (t : Text) : (dialectRe label).test ('|' :: t) = false := by
  have hexec : (dialectRe label).exec ('|' :: t) = none := by
    rw [dialectRe, Re.seqs_cons_cons, Re.exec_start, Re.seqs_cons_cons, Re.textCI, hlabel]
    cases cs with
    | nil => simp [Re.seqs, Re.run, hc.symm]
    | cons d cs => simp [Re.seqs, Re.run, hc.symm]
  rw [Re.test, hexec, Option.isSome_none]

theorem matchesDialectPrefix_pipe (t : Text) : matchesDialectPrefix ('|' :: t) = false := by
  have hunit : "unit test".toList = 'u' :: "nit test".toList := rfl
  have hgrep : "grep".toList = 'g' :: "rep".toList := rfl
  have hdemo : "demonstration".toList = 'd' :: "emonstration".toList := rfl
  rw [matchesDialectPrefix, dialectRe_pipe hunit (by decide), dialectRe_pipe hgrep (by decide),
    dialectRe_pipe hdemo (by decide)]
  rfl

theorem stripCodeSpan_pipe (t : Text) : stripCodeSpan ('|' :: t) = '|' :: t := by
  have hexec : (Re.seqs [.start, .group 1 (.plus (.char '\x60')), .star .space, .group 2 (.lazyStar .any), .star .space,
      .backref 1, .stop]).exec ('|' :: t) = none := by
    rw [Re.seqs_cons_cons, Re.exec_start]
    simp [Re.seqs, Re.run, Re.plus, Re.char, Re.repeatRun]
  rw [stripCodeSpan, hexec]

theorem matchesDialect_pipe (t : Text) : matchesDialect ('|' :: t) = false := by
  rw [matchesDialect, stripCodeSpan_pipe, matchesDialectPrefix_pipe]
  rfl

/-! ### Splits of a bullet -/

theorem cutAt_char {c : Char} {u : Text} (h : c ∉ u) (v : Text) : cutAt [c] (u ++ c :: v) = some (u, v) := by
  induction u with
  | nil => simp [cutAt]
  | cons d u ih =>
      rw [List.mem_cons, not_or] at h
      obtain ⟨hd, hu⟩ := h
      have hne : ([c] : Text).isPrefixOf (d :: (u ++ c :: v)) = false := by simp [List.isPrefixOf, hd]
      rw [List.cons_append, cutAt, hne, ih hu]
      rfl

/-- The splits of a text begin with those inside a part in front. -/
theorem splitsAt_append (needle before a b : Text) :
    ∃ inside, splitsAt needle before (a ++ b) = inside ++ splitsAt needle (a.reverse ++ before) b := by
  induction a generalizing before with
  | nil => exact ⟨[], rfl⟩
  | cons c a ih =>
      obtain ⟨inside, hinside⟩ := ih (c :: before)
      rw [List.cons_append, splitsAt, hinside, List.reverse_cons, List.append_assoc]
      split
      · exact ⟨_ :: inside, rfl⟩
      · exact ⟨inside, rfl⟩

/-- What stands after a split follows the needle. -/
theorem mem_splitsAt {needle before t : Text} {s : Text × Text} (h : s ∈ splitsAt needle before t) :
    ∃ u, t = u ++ needle ++ s.2 := by
  induction t generalizing before with
  | nil => cases h
  | cons c t ih =>
      rw [splitsAt] at h
      split at h
      next hhere =>
        rcases List.mem_cons.mp h with rfl | h
        · obtain ⟨v, hv⟩ := List.isPrefixOf_iff_prefix.mp hhere
          refine ⟨[], ?_⟩
          simp [← hv]
        · obtain ⟨u, rfl⟩ := ih h
          exact ⟨c :: u, rfl⟩
      next =>
        obtain ⟨u, rfl⟩ := ih h
        exact ⟨c :: u, rfl⟩

/-- Every occurrence of the needle is a split. -/
theorem mem_splitsAt_of_append {needle : Text} (hne : needle ≠ []) (before u v : Text) :
    ∃ s ∈ splitsAt needle before (u ++ needle ++ v), s.2 = v := by
  obtain ⟨inside, hinside⟩ := splitsAt_append needle before u (needle ++ v)
  rw [List.append_assoc, hinside]
  cases needle with
  | nil => exact absurd rfl hne
  | cons c needle =>
      have hhere : (c :: needle).isPrefixOf (c :: (needle ++ v)) = true :=
        List.isPrefixOf_iff_prefix.mpr ⟨v, rfl⟩
      refine ⟨((u.reverse ++ before).reverse, v), List.mem_append_right inside ?_, rfl⟩
      rw [List.cons_append, splitsAt, if_pos hhere]
      simp

/-! ### Writable criteria -/

def separator : Text := " | ".toList

/-- A criterion that a bullet can carry. -/
structure Writable (c : AcceptanceCriterion) : Prop where
  claim_trimmed : Text.trim c.claim = c.claim
  claim_ne_nil : c.claim ≠ []
  claim_line : ∀ x ∈ c.claim, Text.lineTerminator x = false
  proof_trimmed : Text.trim c.proof = c.proof
  proof_ne_nil : c.proof ≠ []
  proof_line : ∀ x ∈ c.proof, Text.lineTerminator x = false
  proof_dialect : matchesDialect c.proof = true
  not_labelled : labelled "claim" c.claim = none
  /-- no proof begins after a pipe of the claim -/
  claim_pipes : ∀ before after, c.claim = before ++ '|' :: after →
    matchesDialect (Text.trim (after ++ separator ++ c.proof)) = false
  /-- no other proof begins after a spaced pipe of the proof -/
  proof_pipes : ∀ before after, c.proof = before ++ separator ++ after → matchesDialect (Text.trim after) = false

def itemOf (c : AcceptanceCriterion) : Text := c.claim ++ separator ++ c.proof

def bulletLine (c : AcceptanceCriterion) : Text := "- ".toList ++ itemOf c

section Bullets

variable {c : AcceptanceCriterion}

theorem yields_of_proof (h : Writable c) (claim : Text) : yieldsExecutableProof (claim, c.proof) = true := by
  rw [yieldsExecutableProof_eq, h.proof_trimmed, h.proof_dialect, Bool.and_true, Bool.not_eq_true', List.isEmpty_eq_false_iff]
  exact h.proof_ne_nil

/-- The splits at spaced pipes: those in the claim, the separator, and those in the proof. -/
theorem splitsAt_item (h : Writable c) :
    ∃ inClaim inProof, splitsAt separator [] (itemOf c) = inClaim ++ (c.claim, c.proof) :: inProof ∧
      ∀ s ∈ inProof, yieldsExecutableProof s = false := by
  obtain ⟨inClaim, hinClaim⟩ := splitsAt_append separator [] c.claim (separator ++ c.proof)
  refine ⟨inClaim, splitsAt separator (' ' :: '|' :: ' ' :: c.claim.reverse) c.proof, ?_, ?_⟩
  · rw [itemOf, List.append_assoc, hinClaim, List.append_nil]
    -- a proof does not start with a pipe, so the blank of the separator is not the one of another
    have hblank : separator.isPrefixOf (' ' :: c.proof) = false := by
      cases hproof : c.proof with
      | nil => rfl
      | cons d rest =>
          have hd : d ≠ '|' := by
            rintro rfl
            have hdialect := h.proof_dialect
            rw [hproof, matchesDialect_pipe] at hdialect
            cases hdialect
          simp [separator, List.isPrefixOf, hd.symm]
    have hpipe : separator.isPrefixOf ('|' :: ' ' :: c.proof) = false := rfl
    have hhere : separator.isPrefixOf (' ' :: '|' :: ' ' :: c.proof) = true := by simp [separator, List.isPrefixOf]
    have hitem : separator ++ c.proof = ' ' :: '|' :: ' ' :: c.proof := rfl
    rw [hitem, splitsAt, if_pos hhere, splitsAt, if_neg (by simp [hpipe]), splitsAt, if_neg (by simp [hblank])]
    simp [separator]
  · intro s hs
    obtain ⟨u, hu⟩ := mem_splitsAt hs
    rw [yieldsExecutableProof_eq, h.proof_pipes u s.2 hu, Bool.and_false]

/-- The split of a bullet, at its first pipe or at the separator. -/
theorem acceptanceSeparator_bullet (h : Writable c) :
    acceptanceSeparator (itemOf c) = some (c.claim ++ [' '], ' ' :: c.proof) ∨
    acceptanceSeparator (itemOf c) = some (c.claim, c.proof) := by
  by_cases hpipe : '|' ∈ c.claim
  · right
    obtain ⟨u, v, hclaim, hu⟩ := List.eq_append_cons_of_mem hpipe
    -- the first pipe is in the claim
    have hlegacy : cutAt "|".toList (itemOf c) = some (u, v ++ separator ++ c.proof) := by
      have hitem : itemOf c = u ++ '|' :: (v ++ separator ++ c.proof) := by simp [itemOf, hclaim]
      rw [hitem]
      exact cutAt_char hu _
    have hno : yieldsExecutableProof (u, v ++ separator ++ c.proof) = false := by
      rw [yieldsExecutableProof_eq, h.claim_pipes u v hclaim, Bool.and_false]
    obtain ⟨inClaim, inProof, hsplits, hinProof⟩ := splitsAt_item h
    have hfind : (splitsAt separator [] (itemOf c)).reverse.find? yieldsExecutableProof = some (c.claim, c.proof) := by
      have hnone : inProof.reverse.find? yieldsExecutableProof = none := by simpa using hinProof
      rw [hsplits, List.reverse_append, List.reverse_cons, List.append_assoc, List.find?_append, hnone, Option.none_or,
        List.singleton_append, List.find?_cons_of_pos (yields_of_proof h c.claim)]
    rw [acceptanceSeparator, hlegacy]
    dsimp only
    rw [hno, ← separator, hfind]
    rfl
  · left
    have hlegacy : cutAt "|".toList (itemOf c) = some (c.claim ++ [' '], ' ' :: c.proof) := by
      have hitem : itemOf c = (c.claim ++ [' ']) ++ '|' :: ' ' :: c.proof := by simp [itemOf, separator]
      have hfront : '|' ∉ c.claim ++ [' '] := by simp [hpipe]
      rw [hitem]
      exact cutAt_char hfront _
    have hyes : yieldsExecutableProof (c.claim ++ [' '], ' ' :: c.proof) = true := by
      have hsame := yields_of_proof h c.claim
      rw [yieldsExecutableProof_eq] at hsame ⊢
      rwa [Text.trim_cons_space (by decide)]
    rw [acceptanceSeparator, hlegacy]
    dsimp only
    rw [hyes]
    rfl

theorem itemOf_trimmed (h : Writable c) : Text.trim (itemOf c) = itemOf c :=
  Text.trim_append_append separator h.claim_trimmed h.proof_trimmed h.claim_ne_nil h.proof_ne_nil

theorem criterionOf_item (h : Writable c) : criterionOf (itemOf c) = some (c, none) := by
  have hsep : ∃ s, acceptanceSeparator (itemOf c) = some s ∧ Text.trim s.1 = c.claim ∧ Text.trim s.2 = c.proof := by
    rcases acceptanceSeparator_bullet h with hs | hs
    · refine ⟨_, hs, Text.trim_snoc_space (by decide) h.claim_trimmed h.claim_ne_nil, ?_⟩
      rw [Text.trim_cons_space (by decide), h.proof_trimmed]
    · exact ⟨_, hs, h.claim_trimmed, h.proof_trimmed⟩
  obtain ⟨s, hs, hclaim, hproof⟩ := hsep
  have hne : c.claim.isEmpty = false := List.isEmpty_eq_false_iff.mpr h.claim_ne_nil
  simp only [criterionOf, itemOf_trimmed h, hs, hclaim, hproof, h.not_labelled]
  simp [hne]

theorem itemOf_line (h : Writable c) : ∀ x ∈ itemOf c, Text.lineTerminator x = false := by
  intro x hx
  rcases List.mem_append.mp hx with hx | hx
  · rcases List.mem_append.mp hx with hx | hx
    · exact h.claim_line x hx
    · have hsep : ∀ y ∈ separator, Text.lineTerminator y = false := by simp [separator, Text.lineTerminator]
      exact hsep x hx
  · exact h.proof_line x hx

theorem bulletOf_bulletLine (h : Writable c) : bulletOf (bulletLine c) = some (itemOf c) := by
  have hne : itemOf c ≠ [] := by simp [itemOf, h.claim_ne_nil]
  have hline : (itemOf c).any Text.lineTerminator = false := by simpa using itemOf_line h
  have hdrop : (bulletLine c).dropWhile Text.jsSpace = '-' :: ' ' :: itemOf c := rfl
  have hspace : Text.jsSpace ' ' = true := by decide
  simp only [bulletOf, hdrop, afterMark, true_or, if_true, Text.trim_cons_space hspace, itemOf_trimmed h, hline,
    List.head?_cons, Option.any_some, hspace]
  simp [hne]

theorem stripCr_bulletLine (h : Writable c) : stripCr (bulletLine c) = bulletLine c := by
  rw [stripCr, if_neg]
  intro hlast
  rw [bulletLine, itemOf, ← List.append_assoc, List.getLast?_append_of_ne_nil _ h.proof_ne_nil] at hlast
  have hspace := (Text.trim_eq_self_iff.mp h.proof_trimmed).2 _ hlast
  exact absurd hspace (by decide)

end Bullets

/-! ### Bodies -/

/-- A line that is read as the header. -/
structure IsHeader (header : Text) : Prop where
  line : ∀ x ∈ header, x ≠ '\n'
  header : (acceptanceHeaderLocation header).1 = some []

/-- A header and a bullet for each criterion. -/
def bodyOf (header : Text) (criteria : List AcceptanceCriterion) : Text :=
  Text.join ['\n'] (header :: criteria.map bulletLine)

theorem headerFrom_isHeader {header : Text} (h : IsHeader header) (lines : List Text) :
    (headerFrom {} false (header :: lines)).1 = some lines := by
  have hsplit : Text.splitBy (· == '\n') header = [header] := by
    apply Text.splitBy_of_not_sep
    intro x hx
    simpa using h.line x hx
  have hheader := h.header
  rw [acceptanceHeaderLocation, hsplit] at hheader
  simp only [headerFrom] at hheader ⊢
  split at hheader
  next => cases hheader
  next hfenced =>
    rw [if_neg hfenced]
    split at hheader
    next htest => rw [if_pos htest]
    next => cases hheader

theorem linesAfterHeader_bodyOf {header : Text} {criteria : List AcceptanceCriterion} (h : IsHeader header)
    (hc : ∀ c ∈ criteria, Writable c) : linesAfterHeader (bodyOf header criteria) = some (criteria.map bulletLine) := by
  have hsplit : Text.splitBy (· == '\n') (bodyOf header criteria) = header :: criteria.map bulletLine := by
    apply Text.splitBy_join (by decide) (List.cons_ne_nil _ _)
    intro t ht x hx
    rcases List.mem_cons.mp ht with rfl | ht
    · simpa using h.line x hx
    · obtain ⟨c, hmem, rfl⟩ := List.mem_map.mp ht
      have hterm : Text.lineTerminator x = false := by
        rcases List.mem_append.mp hx with hx | hx
        · have hmark : ∀ y ∈ "- ".toList, Text.lineTerminator y = false := by simp [Text.lineTerminator]
          exact hmark x hx
        · exact itemOf_line (hc c hmem) x hx
      simp only [Text.lineTerminator, Bool.or_eq_false_iff] at hterm
      exact hterm.1.1.1
  rw [linesAfterHeader, acceptanceHeaderLocation, hsplit, headerFrom_isHeader h, Option.map_some, List.map_map]
  congr 1
  apply List.map_congr_left
  intro c hmem
  exact stripCr_bulletLine (hc c hmem)

theorem parseFrom_bulletLines {criteria : List AcceptanceCriterion} (hc : ∀ c ∈ criteria, Writable c)
    (done : List (AcceptanceCriterion × Option Text)) :
    (parseFrom done (criteria.map bulletLine)).1 = (criteria.map fun c => (c, none)).reverse ++ done := by
  induction criteria generalizing done with
  | nil => rfl
  | cons c criteria ih =>
      have hwritable := hc c List.mem_cons_self
      have hline : parseLine done (bulletLine c) = some (.criterion, (c, none) :: done) := by
        simp only [parseLine, bulletOf_bulletLine hwritable, criterionOf_item hwritable]
      rw [List.map_cons, parseFrom, hline]
      dsimp only
      rw [ih (fun c' hc' => hc c' (List.mem_cons_of_mem c hc')), List.map_cons, List.reverse_cons, List.append_assoc]
      rfl

/-- Parsing a body with one bullet for each criterion gives the criteria. -/
theorem parse_written (header : Text) (criteria : List AcceptanceCriterion) (h : IsHeader header)
    (hc : ∀ c ∈ criteria, Writable c) : parseAcceptanceBlock (bodyOf header criteria) = criteria := by
  rw [parseAcceptanceBlock, linesAfterHeader_bodyOf h hc]
  dsimp only
  rw [parseFrom_bulletLines hc]
  simp [Function.comp_def]

/-! ### A bullet with three pipes -/

def pipedCriterion : AcceptanceCriterion := ⟨"a|b | c".toList, "grep: x | y in z".toList⟩

theorem writable_piped : Writable pipedCriterion where
  claim_trimmed := by decide +kernel
  claim_ne_nil := by decide +kernel
  claim_line := by
    have hall : pipedCriterion.claim.all (fun x => !Text.lineTerminator x) = true := by decide +kernel
    simpa using hall
  proof_trimmed := by decide +kernel
  proof_ne_nil := by decide +kernel
  proof_line := by
    have hall : pipedCriterion.proof.all (fun x => !Text.lineTerminator x) = true := by decide +kernel
    simpa using hall
  proof_dialect := by decide +kernel
  not_labelled := by
    have hexec : (labelled "claim" pipedCriterion.claim).isNone = true := by decide +kernel
    exact Option.isNone_iff_eq_none.mp hexec
  claim_pipes := by
    intro before after hclaim
    have hall : ∀ s ∈ splitsAt ['|'] [] pipedCriterion.claim,
        matchesDialect (Text.trim (s.2 ++ separator ++ pipedCriterion.proof)) = false := by decide +kernel
    obtain ⟨s, hs, rfl⟩ := mem_splitsAt_of_append (List.cons_ne_nil '|' []) [] before after
    rw [List.append_assoc, List.singleton_append, ← hclaim] at hs
    exact hall s hs
  proof_pipes := by
    intro before after hproof
    have hall : ∀ s ∈ splitsAt separator [] pipedCriterion.proof, matchesDialect (Text.trim s.2) = false := by
      decide +kernel
    obtain ⟨s, hs, rfl⟩ := mem_splitsAt_of_append (show separator ≠ [] by decide) [] before after
    rw [← hproof] at hs
    exact hall s hs

/-- Two criteria are read back from their body, the pipes of claim and proof included. -/
theorem piped_bullets_read :
    IsHeader "## Acceptance".toList ∧ Writable pipedCriterion ∧
    parseAcceptanceBlock (bodyOf "## Acceptance".toList [pipedCriterion, pipedCriterion]) =
      [pipedCriterion, pipedCriterion] := by
  have hheader : IsHeader "## Acceptance".toList := ⟨by simp, by decide +kernel⟩
  refine ⟨hheader, writable_piped, parse_written _ _ hheader ?_⟩
  intro c hc
  have hsame : c = pipedCriterion := by simpa using hc
  rw [hsame]
  exact writable_piped

end Remudero.Review
