import Remudero.Drain.Select

/-! # The order of the dispatch queue

`compareDispatch` of `lib/drain.ts` is called a total order there.  Its keys are the stride pass and
the priority, the declared scope, the measured score of the task's class, the open fan-out and the
id; the score decides only between two tasks whose classes both have one.  So three tasks can come
in a circle, and the sorted list then depends on the order of the plan.  A priority may be `NaN`, and then the
comparator's result is, which a sort takes for zero.

`dispatch_order_total_iff` says exactly for which tasks the comparator is a strict total order. -/

namespace Remudero.Drain

open Remudero.Lib

/-! ### Task classes

`deriveTaskClass` of `lib/task-class.ts`, by which `measuredDispatchValue` looks a score up. -/

/-- The path starts with `p`, or a segment of it does. -/
def atSegment (p path : Text) : Bool := p.isPrefixOf path || Text.contains path ('/' :: p)

/-- The path ends with the segments `p`. -/
def endsWithSegment (p path : Text) : Bool := path == p || ('/' :: p).isSuffixOf path

def isPlanGlob (glob : Text) : Bool := atSegment "plan/".toList (Text.lower glob)

def rootDocs : List Text :=
  ["README", "CHANGELOG", "LEARNINGS", "DECISIONS", "MASTER-PLAN", "FINDINGS", "DIAGNOSIS",
    "SECURITY", "CONTRIBUTING"].map (·.toList)

/-- The last segment is one of the root documents, with or without an extension. -/
def isRootDoc (glob : Text) : Bool :=
  let name := (glob.reverse.takeWhile (· != '/')).reverse
  rootDocs.any fun doc => name == doc ||
    ((doc ++ ['.']).isPrefixOf name && (name.drop (doc.length + 1)).all Char.isAlphanum &&
      !(name.drop (doc.length + 1)).isEmpty)

def isDocsGlob (glob : Text) : Bool :=
  atSegment "docs/".toList (Text.lower glob) || atSegment "learnings/".toList (Text.lower glob) ||
    ".md".toList.isSuffixOf (Text.lower glob) || ".mdx".toList.isSuffixOf (Text.lower glob) ||
    isRootDoc glob

def isDesignRecordGlob (glob : Text) : Bool :=
  atSegment "docs/adr/".toList glob || atSegment "docs/design-review/".toList glob ||
    endsWithSegment "docs/architecture.md".toList glob ||
    endsWithSegment "docs/system-diagrams.md".toList glob ||
    endsWithSegment "MASTER-PLAN.md".toList glob

def deriveTaskClass (t : Task) : Text :=
  let files := t.files.getD []
  if files.isEmpty then "src".toList
  else if files.any isDesignRecordGlob then "design".toList
  else if files.all isPlanGlob then "plan-lint".toList
  else if files.all isDocsGlob then "docs".toList
  else "src".toList

def measuredDispatchValue (scoreByClass : Text → Option ℚ) (t : Task) : Option ℚ :=
  scoreByClass (deriveTaskClass t)

/-! ### The keys of the comparator -/

variable (context : Option DispatchValueContext)

/-- The keys before the score, for priorities that are numbers. -/
def compareTier (a b : Task) : Ordering :=
  let stride := compareStride a b context
  let priority := JsNumber.comparePlace a.rank b.rank
  (if strideFirst context then stride.then priority else priority.then stride).then
    (compare (undeclaredScopeLast a) (undeclaredScopeLast b))

/-- The score of a task, where scores are consulted. -/
def scoreOf (t : Task) : Option ℚ :=
  context.bind fun c => if c.costOfDelayFallback then none else c.value t

/-- The keys after the score. -/
def compareTail (a b : Task) : Ordering :=
  (compareFanout a b context).then <|
    (compare (idOrdinal a.id).1 (idOrdinal b.id).1).then <|
    (compare (idOrdinal a.id).2 (idOrdinal b.id).2).then (compare (Text.utf16 a.id) (Text.utf16 b.id))

theorem compareValue_eq (a b : Task) : compareValue a b context = comparePresent (scoreOf context) a b := by
  cases context with
  | none => rfl
  | some c =>
      cases hf : c.costOfDelayFallback with
      | true => simp [compareValue, comparePresent, scoreOf, hf]
      | false =>
          simp only [compareValue, comparePresent, scoreOf, hf, Option.bind_some, Bool.false_eq_true,
            if_false]
          cases c.value a <;> cases c.value b <;> rfl

/-- The comparison of two tasks comes to their priorities. -/
def ReachesPriority (a b : Task) : Prop := strideFirst context = true → compareStride a b context = .eq

theorem compareDispatch_of_nan {a b : Task} (hreach : ReachesPriority context a b) (h : a.rank = .nan ∨ b.rank = .nan) :
    compareDispatch a b context = .eq := by
  have hstride : (strideFirst context && compareStride a b context != .eq) = false := by
    cases hfirst : strideFirst context with
    | false => rfl
    | true => rw [hreach hfirst]; rfl
  unfold compareDispatch
  dsimp only
  rw [hstride, JsNumber.same_of_nan h]
  exact JsNumber.signOf_sub_of_nan h

theorem compareDispatch_eq {a b : Task} (h : ReachesPriority context a b → a.rank ≠ .nan ∧ b.rank ≠ .nan) :
    compareDispatch a b context =
      compareTiered (compareTier context) (scoreOf context) (compareTail context) a b := by
  unfold compareDispatch compareTiered compareTier compareTail
  rw [compareValue_eq]
  dsimp only
  cases hfirst : strideFirst context with
  | true =>
      by_cases hstride : compareStride a b context = .eq
      · obtain ⟨ha, hb⟩ := h fun _ => hstride
        simp only [hstride, bne_self_eq_false, Bool.and_false, Bool.false_eq_true, if_false, if_true, Ordering.eq_then]
        cases hsame : a.rank.same b.rank with
        | true => simp [JsNumber.comparePlace_of_same hsame]
        | false =>
            have hne := JsNumber.comparePlace_ne_eq ha hb hsame
            simp [JsNumber.signOf_sub ha hb hsame, then_of_ne_eq hne]
      · have hne : (compareStride a b context != .eq) = true := by simpa using hstride
        simp [hne, then_of_ne_eq hstride]
  | false =>
      obtain ⟨ha, hb⟩ := h fun hcontra => by rw [hfirst] at hcontra; cases hcontra
      simp only [Bool.false_and, Bool.false_eq_true, if_false]
      cases hsame : a.rank.same b.rank with
      | true => simp [JsNumber.comparePlace_of_same hsame, Ordering.then_assoc]
      | false =>
          have hne := JsNumber.comparePlace_ne_eq ha hb hsame
          simp [JsNumber.signOf_sub ha hb hsame, then_of_ne_eq hne]

/-! ### The keys are ordered -/

instance instTransCmpAbsentLast : Std.TransCmp compareAbsentLast where
  eq_swap {a b} := by
    cases a with
    | none => cases b <;> rfl
    | some x =>
        cases b with
        | none => rfl
        | some y => exact Std.OrientedOrd.eq_swap
  isLE_trans {a b c} hab hbc := by
    cases a with
    | none =>
        cases b with
        | none => exact hbc
        | some y => cases hab
    | some x =>
        cases b with
        | none =>
            cases c with
            | none => rfl
            | some z => cases hbc
        | some y =>
            cases c with
            | none => rfl
            | some z => exact Std.TransOrd.isLE_trans hab hbc

theorem transCmp_stride : Std.TransCmp fun a b => compareStride a b context := by
  unfold compareStride
  cases context.bind (·.stridePass) with
  | none => exact transCmp_eq
  | some passes => exact transCmp_on instTransCmpAbsentLast fun t : Task => passes t.id

theorem transCmp_fanout : Std.TransCmp fun a b => compareFanout a b context := by
  unfold compareFanout
  cases context with
  | none => exact transCmp_eq
  | some c =>
      cases hf : c.costOfDelayFallback with
      | true => simpa [hf] using transCmp_eq
      | false =>
          have hdesc : Std.TransCmp fun x y : ℚ => compare y x := inferInstance
          simpa [hf] using transCmp_on hdesc fun t : Task => (c.fanout t.id).getD 0

instance : Std.TransCmp (compareTier context) := by
  have hstride := transCmp_stride context
  have hplace : Std.TransCmp JsNumber.comparePlace := inferInstance
  have hpriority := transCmp_on hplace Task.rank
  have hnat : Std.TransOrd ℕ := inferInstance
  have hscope := transCmp_on hnat undeclaredScopeLast
  unfold compareTier
  cases strideFirst context with
  | true => exact transCmp_then (transCmp_then hstride hpriority) hscope
  | false => exact transCmp_then (transCmp_then hpriority hstride) hscope

instance : Std.TransCmp (compareTail context) := by
  have hnat : Std.TransOrd ℕ := inferInstance
  have hunits : Std.TransOrd (List ℕ) := inferInstance
  exact transCmp_then (transCmp_fanout context) <|
    transCmp_then (transCmp_on hnat fun t : Task => (idOrdinal t.id).1) <|
    transCmp_then (transCmp_on hnat fun t : Task => (idOrdinal t.id).2)
      (transCmp_on hunits fun t : Task => Text.utf16 t.id)

theorem id_eq_of_compareTail {a b : Task} (h : compareTail context a b = .eq) : a.id = b.id := by
  simp only [compareTail, Ordering.then_eq_eq] at h
  exact Text.utf16_injective (Std.LawfulEqOrd.eq_of_compare h.2.2.2)

/-! ### The order -/

/-- A task without a score that stands, by fan-out and id, between two scored tasks of its stride
pass, priority and scope: the first of them has at least the score of the last. -/
def ScoresGraded (tasks : List Task) : Prop :=
  Graded (compareTier context) (scoreOf context) (compareTail context) {t | t ∈ tasks}

/-- No priority that is `NaN` is compared with that of another task. -/
def PrioritiesCompare (tasks : List Task) : Prop :=
  ∀ a ∈ tasks, ∀ b ∈ tasks, a ≠ b → ReachesPriority context a b → a.priority ≠ some .nan ∧ b.priority ≠ some .nan

theorem rank_eq_nan_iff {t : Task} : t.rank = .nan ↔ t.priority = some .nan := by
  unfold Task.rank
  cases t.priority with
  | none => simp
  | some p => simp

theorem dispatchOrder_eq_of_perm {tasks tasks' : List Task} (resumable : List Text)
    (h : StrictTotalOn (fun a b => compareDispatch a b context) {t | t ∈ tasks})
    (hp : tasks'.Perm tasks) :
    dispatchOrder tasks' context resumable = dispatchOrder tasks context resumable := by
  unfold dispatchOrder
  rw [mergeSort_eq_of_perm h hp]

/-- Where the priorities compare, the comparator goes by its keys. -/
theorem compareDispatch_of_compare {tasks : List Task} (h : PrioritiesCompare context tasks) :
    ∀ a ∈ tasks, ∀ b ∈ tasks, compareDispatch a b context =
      compareTiered (compareTier context) (scoreOf context) (compareTail context) a b := by
  intro a ha b hb
  by_cases hab : a = b
  · subst hab
    by_cases hnan : a.rank = .nan
    · have hstride := transCmp_stride context
      have hself : compareStride a a context = .eq := @Std.ReflCmp.compare_self _ (fun a b => compareStride a b context) _ a
      rw [compareDispatch_of_nan context (fun _ => hself) (.inl hnan), compareTiered_self]
    · exact compareDispatch_eq context fun _ => ⟨hnan, hnan⟩
  · refine compareDispatch_eq context fun hreach => ?_
    rw [ne_eq, ne_eq, rank_eq_nan_iff, rank_eq_nan_iff]
    exact h a ha b hb hab hreach

/-- On tasks with distinct ids the comparator is antisymmetric, transitive and never zero, and the order of the queue is the
same for every order of the plan, exactly if no priority that is `NaN` is compared and the scores are graded. -/
theorem dispatch_order_total_iff {tasks : List Task} (hids : (tasks.map Task.id).Nodup) :
    (StrictTotalOn (fun a b => compareDispatch a b context) {t | t ∈ tasks} ∧
      ∀ tasks' resumable, tasks'.Perm tasks →
        dispatchOrder tasks' context resumable = dispatchOrder tasks context resumable) ↔
    PrioritiesCompare context tasks ∧ ScoresGraded context tasks := by
  have hsep : ∀ a ∈ {t | t ∈ tasks}, ∀ b ∈ {t | t ∈ tasks}, compareTail context a b = .eq → a = b := by
    intro a ha b hb heq
    exact List.inj_on_of_nodup_map hids ha hb (id_eq_of_compareTail context heq)
  constructor
  · rintro ⟨htotal, -⟩
    have hcompare : PrioritiesCompare context tasks := by
      intro a ha b hb hne hreach
      by_contra hnot
      have hnan : a.rank = .nan ∨ b.rank = .nan := by
        rw [rank_eq_nan_iff, rank_eq_nan_iff]
        tauto
      exact htotal.ne_eq a ha b hb hne (compareDispatch_of_nan context hreach hnan)
    have hkeys := htotal.congr (compareDispatch_of_compare context hcompare)
    exact ⟨hcompare, (strictTotalOn_compareTiered hsep).mp hkeys⟩
  · rintro ⟨hcompare, hgraded⟩
    have hkeys := (strictTotalOn_compareTiered hsep).mpr hgraded
    have htotal : StrictTotalOn (fun a b => compareDispatch a b context) {t | t ∈ tasks} :=
      hkeys.congr fun a ha b hb => (compareDispatch_of_compare context hcompare a ha b hb).symm
    exact ⟨htotal, fun tasks' resumable hp => dispatchOrder_eq_of_perm context resumable htotal hp⟩

/-! A task of each of three classes; the class in the middle has no score. -/

def queued (id file : String) : Task :=
  { id := id.toList, dependsOn := [], status := "queued".toList, verify := "auto".toList
    dispatchHold := false, retirement := none, repo := none, files := some [file.toList]
    priority := none, note := none }

def srcTask : Task := queued "W1-T1" "src/a.ts"

def docsTask : Task := queued "W1-T2" "docs/b.md"

def planTask : Task := queued "W1-T3" "plan/tasks.d/c.yaml"

/-- The context of a score table, without stride passes and fan-out. -/
def scored (scoreByClass : Text → Option ℚ) : DispatchValueContext where
  stridePass := none
  costOfDelayFallback := false
  fanout := fun _ => none
  value := measuredDispatchValue scoreByClass
  slotInputs := false

/-- The plan class is worth more than the source class; the docs class is unmeasured. -/
def planFirst : Text → Option ℚ := fun c =>
  if c = "src".toList then some 1 else if c = "plan-lint".toList then some 2 else none

/-- The source class is worth more. -/
def srcFirst : Text → Option ℚ := fun c =>
  if c = "src".toList then some 2 else if c = "plan-lint".toList then some 1 else none

theorem dispatch_order_total_srcFirst :
    StrictTotalOn (fun a b => compareDispatch a b (some (scored srcFirst)))
        {t | t ∈ [srcTask, docsTask, planTask]} ∧
      ∀ tasks' resumable, tasks'.Perm [srcTask, docsTask, planTask] →
        dispatchOrder tasks' (some (scored srcFirst)) resumable =
          dispatchOrder [srcTask, docsTask, planTask] (some (scored srcFirst)) resumable := by
  refine (dispatch_order_total_iff (some (scored srcFirst)) (by decide +kernel)).mpr ⟨?_, ?_⟩
  · have hpriority : ∀ t ∈ [srcTask, docsTask, planTask], t.priority ≠ some .nan := by decide
    exact fun a ha b hb _ _ => ⟨hpriority a ha, hpriority b hb⟩
  -- only the source task precedes the docs task, and only the plan task follows it
  have hscore : ∀ t ∈ [srcTask, docsTask, planTask], scoreOf (some (scored srcFirst)) t =
      if t = srcTask then some 2 else if t = planTask then some 1 else none := by decide +kernel
  intro a ha b hb c hc x z _ _ hab hbc hka hkb hkc
  have hcases : ∀ a ∈ [srcTask, docsTask, planTask], ∀ b ∈ [srcTask, docsTask, planTask],
      ∀ c ∈ [srcTask, docsTask, planTask],
        compareTail (some (scored srcFirst)) a b = .lt →
        compareTail (some (scored srcFirst)) b c = .lt → a = srcTask ∧ c = planTask := by
    decide +kernel
  obtain ⟨rfl, rfl⟩ := hcases a ha b hb c hc hab hbc
  rw [hscore _ ha] at hka
  rw [hscore _ hc] at hkc
  have hx : x = 2 := by simpa using hka.symm
  have hz : z = 1 := by
    have hne : planTask ≠ srcTask := by decide
    simpa [hne] using hkc.symm
  rw [hx, hz]
  norm_num

/-- Three tasks in a circle. -/
theorem dispatch_order_circle :
    ([srcTask, docsTask, planTask].map Task.id).Nodup ∧
      compareDispatch srcTask docsTask (some (scored planFirst)) = .lt ∧
      compareDispatch docsTask planTask (some (scored planFirst)) = .lt ∧
      compareDispatch planTask srcTask (some (scored planFirst)) = .lt ∧
      ¬ StrictTotalOn (fun a b => compareDispatch a b (some (scored planFirst)))
        {t | t ∈ [srcTask, docsTask, planTask]} := by
  have h₁ : compareDispatch srcTask docsTask (some (scored planFirst)) = .lt := by decide +kernel
  have h₂ : compareDispatch docsTask planTask (some (scored planFirst)) = .lt := by decide +kernel
  have h₃ : compareDispatch planTask srcTask (some (scored planFirst)) = .lt := by decide +kernel
  refine ⟨by decide +kernel, h₁, h₂, h₃, ?_⟩
  intro h
  have hlt := h.trans srcTask (by simp) docsTask (by simp) planTask (by simp) h₁ h₂
  have hswap := h.antisymm srcTask (by simp) planTask (by simp)
  rw [hlt, h₃] at hswap
  cases hswap

end Remudero.Drain
