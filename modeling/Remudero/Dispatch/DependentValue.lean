import Remudero.Lib.Comparators
import Remudero.Lib.Components
import Remudero.Lib.Record
import Remudero.Lib.Utf16

/-! # The value of dependents

`dependentValue` of `lib/dispatch-value.ts`: the open tasks that wait for a task, each counted once and at its
depth.  A search for strongly connected components finds the tasks on a dependency cycle and gives every other
task its level, one above the highest level of its dependencies; a walk over the dependents then sums up their
urgencies.  The dependency lists are arbitrary: they may have cycles, repeated ids and ids of no task.

The urgency of a task, a tier and a wait is a parameter, and so are the tiers and the waits.  Numbers are
rational. -/

namespace Remudero.Dispatch.Value

open Remudero.Lib

/-- What is read of a task. -/
structure DispatchValueTask where
  id : Text
  dependsOn : List Text
  priority : Option ℚ

section source

variable (tasks : List DispatchValueTask)

/-- `byId.get(id)`: the last task of an id. -/
def byId (id : Text) : Option DispatchValueTask := tasks.reverse.find? fun task => task.id = id

def dependsOnOf (id : Text) : List Text := ((byId tasks id).map (·.dependsOn)).getD []

/-- The dependencies that are tasks. -/
def openDependencies (id : Text) : List Text := (dependsOnOf tasks id).filter fun d => (byId tasks d).isSome

/-- `reverse.get(id)`, a set in the order of its additions. -/
def dependents (id : Text) : List Text :=
  if (byId tasks id).isSome then
    tasks.foldl (fun set task =>
      task.dependsOn.foldl (fun set d => if d = id ∧ task.id ∉ set then set ++ [task.id] else set) set) []
  else []

/-- The ids found on a cycle, and the levels; a task without a level reads as `undefined`. -/
structure Levels where
  cycle : List Text
  levels : Text → Option ℕ

def Levels.addCycle (out : Levels) (member : Text) : Levels :=
  ⟨if member ∈ out.cycle then out.cycle else out.cycle ++ [member], Function.update out.levels member none⟩

/-- What is done with a component. -/
def settle (id : Text) (members : List Text) (out : Levels) : Levels :=
  if 1 < members.length ∨ id ∈ dependsOnOf tasks id then members.foldl Levels.addCycle out
  else
    let below := (dependsOnOf tasks id).filterMap out.levels
    { out with levels := Function.update out.levels id (some (below.foldl (fun level d => max level (d + 1)) 0)) }

def findLevels : Levels :=
  (search (openDependencies tasks) (settle tasks) tasks.length (tasks.map (·.id)) ⟨[], fun _ => none⟩).out

variable (dispatchUrgency : ℚ → ℚ → ℚ) (tierOf : DispatchValueTask → ℚ) (waits : Text → ℚ)

/-- What a dependent adds to a task at `level`. -/
def worth (levels : Text → Option ℕ) (level : ℕ) (id : Text) : ℚ :=
  match levels id, byId tasks id with
  | some depth, some task => dispatchUrgency (tierOf task + depth - level) (waits id)
  | _, _ => 0

/-- One round of the walk: `seen`, `pending` with its last element first, and the value so far. -/
def valueStep (worth : Text → ℚ) : (List Text × List Text) × ℚ → ((List Text × List Text) × ℚ) ⊕ ℚ
  | ((_, []), value) => .inr value
  | ((seen, id :: pending), value) =>
      if id ∈ seen then .inl ((seen, pending), value)
      else .inl ((id :: seen, (dependents tasks id).reverse ++ pending), value + worth id)

def valueOf (fuel : ℕ) (levels : Text → Option ℕ) (id : Text) : Option ℚ :=
  match levels id with
  | none => some 0
  | some level =>
      loop (valueStep tasks (worth tasks dispatchUrgency tierOf waits levels level)) fuel
        (([id], (dependents tasks id).reverse), 0)

/-- The code units of the ids decide, as in `sort()`. -/
def sortIds (ids : List Text) : List Text := ids.mergeSort fun a b => decide (Text.utf16 a ≤ Text.utf16 b)

structure DependentValue where
  byTaskId : Record Text ℚ
  cycle : List Text

def dependentValue (fuel : ℕ) : Option DependentValue := do
  let found := findLevels tasks
  let byTaskId ← tasks.foldlM (fun byTaskId task =>
    (valueOf tasks dispatchUrgency tierOf waits fuel found.levels task.id).map (byTaskId.set task.id)) ∅
  return ⟨byTaskId, sortIds found.cycle⟩

end source

/-! ### What a task needs -/

section needs

variable (tasks : List DispatchValueTask)

/-- `a` is a task that names the task `b` as a dependency. -/
def Needs (a b : Text) : Prop := (∃ task ∈ tasks, task.id = a ∧ b ∈ task.dependsOn) ∧ ∃ task ∈ tasks, task.id = b

/-- The ids on a dependency cycle. -/
def OnCycle (id : Text) : Prop := Relation.TransGen (Needs tasks) id id

/-- The lengths of the dependency chains below a task that use no member of a cycle. -/
def chainLengths (id : Text) : Set ℕ :=
  {n | ∃ chain : List Text, chain.length = n ∧ List.IsChain (Needs tasks) (id :: chain) ∧ ∀ x ∈ chain, ¬ OnCycle tasks x}

/-- The length of the longest such chain. -/
noncomputable def depth (id : Text) : ℕ := sSup (chainLengths tasks id)

variable {tasks}

theorem mem_dependents {a b : Text} : a ∈ dependents tasks b ↔ Needs tasks a b := by
  have hinner : ∀ (id : Text) (ds set : List Text),
      a ∈ ds.foldl (fun set d => if d = b ∧ id ∉ set then set ++ [id] else set) set ↔ a ∈ set ∨ (id = a ∧ b ∈ ds) := by
    intro id ds
    induction ds with
    | nil => simp
    | cons d ds ih =>
        intro set
        rw [List.foldl_cons, ih, List.mem_cons]
        by_cases hd : d = b
        · by_cases hmem : id ∈ set
          · rw [if_neg (by simp [hmem])]
            constructor
            · rintro (h | ⟨rfl, h⟩)
              · exact Or.inl h
              · exact Or.inl hmem
            · rintro (h | ⟨rfl, -⟩)
              · exact Or.inl h
              · exact Or.inl hmem
          · rw [if_pos ⟨hd, hmem⟩, List.mem_append, List.mem_singleton]
            simp only [hd, true_or, and_true]
            tauto
        · rw [if_neg (by simp [hd])]
          simp only [Ne.symm hd, false_or]
  have houter : ∀ (ts : List DispatchValueTask) (set : List Text),
      a ∈ ts.foldl (fun set task =>
        task.dependsOn.foldl (fun set d => if d = b ∧ task.id ∉ set then set ++ [task.id] else set) set) set ↔
        a ∈ set ∨ ∃ task ∈ ts, task.id = a ∧ b ∈ task.dependsOn := by
    intro ts
    induction ts with
    | nil => simp
    | cons t ts ih =>
        intro set
        rw [List.foldl_cons, ih, hinner, List.exists_mem_cons_iff, or_assoc]
  have hknown : (byId tasks b).isSome ↔ ∃ task ∈ tasks, task.id = b := by simp [byId]
  unfold dependents Needs
  by_cases hb : (byId tasks b).isSome
  · rw [if_pos hb, houter]
    simp [hknown.mp hb]
  · rw [if_neg hb]
    simp only [List.not_mem_nil, false_iff, not_and]
    exact fun _ h => hb (hknown.mpr h)

variable (hids : (tasks.map (·.id)).Nodup)

include hids

theorem byId_eq_some {id : Text} {task : DispatchValueTask} : byId tasks id = some task ↔ task ∈ tasks ∧ task.id = id := by
  have hsound : ∀ {t}, byId tasks id = some t → t ∈ tasks ∧ t.id = id := by
    intro t ht
    exact ⟨List.mem_reverse.mp (List.mem_of_find?_eq_some ht), by simpa using List.find?_some ht⟩
  refine ⟨hsound, fun ⟨hmem, hid⟩ => ?_⟩
  cases hfind : byId tasks id with
  | none =>
      rw [byId, List.find?_eq_none] at hfind
      exact absurd (decide_eq_true hid) (hfind task (List.mem_reverse.mpr hmem))
  | some t =>
      obtain ⟨ht, htid⟩ := hsound hfind
      rw [List.inj_on_of_nodup_map hids ht hmem (htid.trans hid.symm)]

theorem mem_dependsOnOf {a b : Text} : b ∈ dependsOnOf tasks a ↔ ∃ task ∈ tasks, task.id = a ∧ b ∈ task.dependsOn := by
  unfold dependsOnOf
  constructor
  · intro h
    cases hfind : byId tasks a with
    | none => simp [hfind] at h
    | some t =>
        obtain ⟨ht, hid⟩ := (byId_eq_some hids).mp hfind
        rw [hfind] at h
        exact ⟨t, ht, hid, h⟩
  · rintro ⟨t, ht, hid, hb⟩
    rw [(byId_eq_some hids).mpr ⟨ht, hid⟩]
    exact hb

theorem edge_openDependencies : Edge (openDependencies tasks) = Needs tasks := by
  funext a b
  have hknown : (byId tasks b).isSome ↔ ∃ task ∈ tasks, task.id = b := by simp [byId]
  rw [eq_iff_iff, Edge, openDependencies, List.mem_filter, mem_dependsOnOf hids, hknown, Needs]

end needs

/-! ### Levels -/

section levels

variable {tasks : List DispatchValueTask}

theorem zero_mem_chainLengths (id : Text) : 0 ∈ chainLengths tasks id :=
  ⟨[], rfl, List.isChain_singleton id, nofun⟩

/-- A chain goes on from one of the dependencies. -/
theorem succ_mem_chainLengths {id : Text} {n : ℕ} :
    n + 1 ∈ chainLengths tasks id ↔ ∃ d, Needs tasks id d ∧ ¬ OnCycle tasks d ∧ n ∈ chainLengths tasks d := by
  constructor
  · rintro ⟨chain, hlength, hchain, hoff⟩
    cases chain with
    | nil => cases hlength
    | cons d chain =>
        rw [List.isChain_cons_cons] at hchain
        refine ⟨d, hchain.1, hoff d List.mem_cons_self, chain, ?_, hchain.2, fun x hx => ?_⟩
        · exact Nat.succ_injective hlength
        · exact hoff x (List.mem_cons_of_mem d hx)
  · rintro ⟨d, hneeds, hoff, chain, rfl, hchain, hall⟩
    refine ⟨d :: chain, rfl, List.isChain_cons_cons.mpr ⟨hneeds, hchain⟩, fun x hx => ?_⟩
    obtain rfl | hx := List.mem_cons.mp hx
    · exact hoff
    · exact hall x hx

/-- The level that is set is the highest of the levels below and one more. -/
theorem foldl_max_succ (below : List ℕ) (level : ℕ) :
    (∀ d ∈ below, d + 1 ≤ below.foldl (fun level d => max level (d + 1)) level) ∧
      level ≤ below.foldl (fun level d => max level (d + 1)) level ∧
      (below.foldl (fun level d => max level (d + 1)) level = level ∨
        ∃ d ∈ below, below.foldl (fun level d => max level (d + 1)) level = d + 1) := by
  induction below generalizing level with
  | nil => simp
  | cons d below ih =>
      obtain ⟨hall, hle, heq⟩ := ih (max level (d + 1))
      rw [List.foldl_cons]
      refine ⟨fun x hx => ?_, (le_max_left _ _).trans hle, ?_⟩
      · obtain rfl | hx := List.mem_cons.mp hx
        · exact (le_max_right _ _).trans hle
        · exact hall x hx
      · obtain heq | ⟨x, hx, heq⟩ := heq
        · rw [heq]
          obtain hmax | hmax := max_choice level (d + 1)
          · exact Or.inl hmax
          · exact Or.inr ⟨d, List.mem_cons_self, hmax⟩
        · exact Or.inr ⟨x, List.mem_cons_of_mem d hx, heq⟩

/-- The levels and the cycle are right for the ids in `done`; other ids have no level. -/
structure Leveled (tasks : List DispatchValueTask) (done : Set Text) (out : Levels) : Prop where
  known : ∀ x ∈ done, ∃ task ∈ tasks, task.id = x
  cycle : ∀ x, x ∈ out.cycle ↔ x ∈ done ∧ OnCycle tasks x
  nodup : out.cycle.Nodup
  undefined : ∀ x, x ∉ done ∨ OnCycle tasks x → out.levels x = none
  level : ∀ x ∈ done, ¬ OnCycle tasks x → ∃ n, out.levels x = some n ∧ IsGreatest (chainLengths tasks x) n

theorem foldl_addCycle (members : List Text) (out : Levels) (hnodup : out.cycle.Nodup) :
    (members.foldl Levels.addCycle out).cycle.Nodup ∧
      (∀ x, x ∈ (members.foldl Levels.addCycle out).cycle ↔ x ∈ out.cycle ∨ x ∈ members) ∧
      ∀ x, (members.foldl Levels.addCycle out).levels x = if x ∈ members then none else out.levels x := by
  induction members generalizing out with
  | nil => simp [hnodup]
  | cons m members ih =>
      have hstep : (out.addCycle m).cycle.Nodup ∧ ∀ x, x ∈ (out.addCycle m).cycle ↔ x ∈ out.cycle ∨ x = m := by
        unfold Levels.addCycle
        by_cases hm : m ∈ out.cycle
        · simp only [if_pos hm]
          refine ⟨hnodup, fun x => ⟨Or.inl, ?_⟩⟩
          rintro (hx | rfl)
          · exact hx
          · exact hm
        · simp only [if_neg hm]
          refine ⟨?_, fun x => by simp⟩
          rw [List.nodup_append]
          refine ⟨hnodup, List.nodup_singleton m, ?_⟩
          rintro a ha b hb rfl
          exact hm (List.mem_singleton.mp hb ▸ ha)
      obtain ⟨hnodup', hmem, hlevels⟩ := ih (out.addCycle m) hstep.1
      rw [List.foldl_cons]
      refine ⟨hnodup', fun x => ?_, fun x => ?_⟩
      · rw [hmem, hstep.2, List.mem_cons, or_assoc]
      · rw [hlevels]
        by_cases hx : x ∈ members
        · simp [hx]
        · by_cases hxm : x = m
          · subst hxm
            simp [hx, Levels.addCycle]
          · simp [hx, hxm, Levels.addCycle]

section component

variable (hids : (tasks.map (·.id)).Nodup) {done : Set Text} {out : Levels} {root : Text}

include hids

/-- A task off the cycles gets its depth as its level. -/
theorem settle_level (hout : Leveled tasks done out) (h : Component (openDependencies tasks) done root [root])
    (hself : root ∉ dependsOnOf tasks root) :
    IsGreatest (chainLengths tasks root)
      (((dependsOnOf tasks root).filterMap out.levels).foldl (fun level d => max level (d + 1)) 0) := by
  obtain ⟨hall, -, heq⟩ := foldl_max_succ ((dependsOnOf tasks root).filterMap out.levels) 0
  -- the ids with a level below are the dependencies off the cycles
  have hbelow : ∀ n, n ∈ (dependsOnOf tasks root).filterMap out.levels ↔
      ∃ d, Needs tasks root d ∧ ¬ OnCycle tasks d ∧ out.levels d = some n := by
    intro n
    rw [List.mem_filterMap]
    constructor
    · rintro ⟨d, hd, hlevel⟩
      have hdone : d ∈ done ∧ ¬ OnCycle tasks d := by
        by_contra hnot
        have hnone := hout.undefined d (by tauto)
        rw [hnone] at hlevel
        cases hlevel
      exact ⟨d, ⟨(mem_dependsOnOf hids).mp hd, hout.known d hdone.1⟩, hdone.2, hlevel⟩
    · rintro ⟨d, hneeds, -, hlevel⟩
      exact ⟨d, (mem_dependsOnOf hids).mpr hneeds.1, hlevel⟩
  have hlevel : ∀ d, Needs tasks root d → ¬ OnCycle tasks d →
      ∃ n, out.levels d = some n ∧ IsGreatest (chainLengths tasks d) n := by
    intro d hneeds hoff
    have hedge : Edge (openDependencies tasks) root d := by
      rw [edge_openDependencies hids]
      exact hneeds
    obtain hd | hd := h.closed root List.mem_cons_self d hedge
    · rw [List.mem_singleton.mp hd] at hneeds
      exact absurd ((mem_dependsOnOf hids).mpr hneeds.1) hself
    · exact hout.level d hd hoff
  constructor
  · obtain heq | ⟨n, hn, heq⟩ := heq
    · rw [heq]
      exact zero_mem_chainLengths root
    · rw [heq, succ_mem_chainLengths]
      obtain ⟨d, hneeds, hoff, hd⟩ := (hbelow n).mp hn
      obtain ⟨k, hk, hgreatest⟩ := hlevel d hneeds hoff
      rw [hd, Option.some.injEq] at hk
      exact ⟨d, hneeds, hoff, hk ▸ hgreatest.1⟩
  · intro m hm
    cases m with
    | zero => exact Nat.zero_le _
    | succ m =>
        obtain ⟨d, hneeds, hoff, hm⟩ := succ_mem_chainLengths.mp hm
        obtain ⟨k, hk, hgreatest⟩ := hlevel d hneeds hoff
        have hle : m ≤ k := hgreatest.2 hm
        exact (Nat.succ_le_succ hle).trans (hall k ((hbelow k).mpr ⟨d, hneeds, hoff, hk⟩))

theorem emitKeeps_settle :
    EmitKeeps (openDependencies tasks) (· ∈ tasks.map (·.id)) (Leveled tasks) (settle tasks) := by
  intro done out root members hclosed hout h hmembers
  have honCycle : ∀ {x}, Relation.TransGen (Edge (openDependencies tasks)) x x ↔ OnCycle tasks x := by
    intro x
    rw [edge_openDependencies hids, OnCycle]
  have hknown : ∀ x ∈ done ∪ {x | x ∈ members}, ∃ task ∈ tasks, task.id = x := by
    rintro x (hx | hx)
    · exact hout.known x hx
    · exact List.mem_map.mp (hmembers x hx)
  unfold settle
  by_cases hcase : 1 < members.length ∨ root ∈ dependsOnOf tasks root
  · -- every member is on a cycle
    have hall : ∀ x ∈ members, OnCycle tasks x := by
      intro x hx
      by_cases hlength : 1 < members.length
      · exact honCycle.mp (h.transGen_self hlength hx)
      · have hroot : x = root := by
          obtain ⟨y, rfl⟩ : ∃ y, members = [y] := List.length_eq_one_iff.mp (by
            have := List.length_pos_of_mem hx
            omega)
          rw [List.mem_singleton.mp hx, List.mem_singleton.mp h.root_mem]
        have hself := hcase.resolve_left hlength
        rw [hroot]
        exact Relation.TransGen.single ⟨(mem_dependsOnOf hids).mp hself, List.mem_map.mp (hmembers root h.root_mem)⟩
    obtain ⟨hnodup, hmem, hlevels⟩ := foldl_addCycle members out hout.nodup
    rw [if_pos hcase]
    refine ⟨hknown, fun x => ?_, hnodup, fun x hx => ?_, fun x hx hoff => ?_⟩
    · rw [hmem, hout.cycle]
      constructor
      · rintro (⟨hx, hcycle⟩ | hx)
        · exact ⟨Or.inl hx, hcycle⟩
        · exact ⟨Or.inr hx, hall x hx⟩
      · rintro ⟨hx | hx, hcycle⟩
        · exact Or.inl ⟨hx, hcycle⟩
        · exact Or.inr hx
    · rw [hlevels]
      split
      · rfl
      · exact hout.undefined x (hx.imp_left fun hnot hdone => hnot (Or.inl hdone))
    · have hnot : x ∉ members := fun hmem => hoff (hall x hmem)
      rw [hlevels, if_neg hnot]
      exact hout.level x (hx.resolve_right hnot) hoff
  · rw [not_or] at hcase
    obtain ⟨y, rfl⟩ : ∃ y, members = [y] := List.length_eq_one_iff.mp (by
      have := List.length_pos_of_mem h.root_mem
      omega)
    obtain rfl : root = y := List.mem_singleton.mp h.root_mem
    have hoff : ¬ OnCycle tasks root := by
      rw [← honCycle]
      exact h.not_transGen_self hclosed fun hmem => hcase.2 (List.mem_filter.mp hmem).1
    have hfresh : ∀ x ∈ done, x ≠ root := by
      rintro x hx rfl
      exact h.fresh x List.mem_cons_self hx
    rw [if_neg (not_or.mpr hcase)]
    refine ⟨hknown, fun x => ?_, hout.nodup, fun x hx => ?_, fun x hx hx' => ?_⟩
    · rw [hout.cycle]
      constructor
      · rintro ⟨hx, hcycle⟩
        exact ⟨Or.inl hx, hcycle⟩
      · rintro ⟨hx | hx, hcycle⟩
        · exact ⟨hx, hcycle⟩
        · exact absurd (List.mem_singleton.mp hx ▸ hcycle) hoff
    · have hne : x ≠ root := by
        rintro rfl
        obtain hx | hx := hx
        · exact hx (Or.inr List.mem_cons_self)
        · exact hoff hx
      show Function.update out.levels root _ x = none
      rw [Function.update_of_ne hne]
      exact hout.undefined x (hx.imp_left fun hnot hdone => hnot (Or.inl hdone))
    · obtain hx | hx := hx
      · show ∃ n, Function.update out.levels root _ x = some n ∧ _
        rw [Function.update_of_ne (hfresh x hx)]
        exact hout.level x hx hx'
      · obtain rfl : x = root := List.mem_singleton.mp hx
        exact ⟨_, Function.update_self _ _ _, settle_level hids hout h hcase.2⟩

theorem leveled_findLevels : Leveled tasks {x | x ∈ tasks.map (·.id)} (findLevels tasks) := by
  have hclosed : ∀ v ∈ tasks.map (·.id), ∀ w ∈ openDependencies tasks v, w ∈ tasks.map (·.id) := by
    intro v _ w hw
    have hneeds : Edge (openDependencies tasks) v w := hw
    rw [edge_openDependencies hids] at hneeds
    exact List.mem_map.mpr hneeds.2
  have hempty : Leveled tasks ∅ ⟨[], fun _ => none⟩ :=
    ⟨nofun, fun x => by simp, List.nodup_nil, fun _ _ => rfl, nofun⟩
  exact search_induct hclosed (emitKeeps_settle hids) (by simp) hempty

end component

end levels

/-! ### The walk over the dependents -/

section walk

variable {tasks : List DispatchValueTask}

theorem dependents_ne_nil {id : Text} (h : dependents tasks id ≠ []) : id ∈ tasks.map (·.id) := by
  obtain ⟨a, ha⟩ := List.exists_mem_of_ne_nil _ h
  exact List.mem_map.mpr (mem_dependents.mp ha).2

/-- The edges of the walk are the needs the other way. -/
theorem transGen_dependents {a b : Text} :
    Relation.TransGen (Edge (dependents tasks)) a b ↔ Relation.TransGen (Needs tasks) b a := by
  have hedge : Edge (dependents tasks) = Function.swap (Needs tasks) := by
    funext a b
    exact propext mem_dependents
  rw [hedge, Relation.transGen_swap]

variable (tasks) in
/-- The value so far is the worth of what was seen, less that of the first id. -/
theorem loop_valueStep (worth : Text → ℚ) (start : Text) (fuel : ℕ) (seen pending : List Text) :
    loop (valueStep tasks worth) fuel ((seen, pending), (seen.map worth).sum - worth start) =
      (loop (walkStep (dependents tasks) pushAll) fuel (seen, pending)).map fun out => (out.map worth).sum - worth start := by
  let picture := fun s : List Text × List Text => (s, (s.1.map worth).sum - worth start)
  have hstep : ∀ s, valueStep tasks worth (picture s) =
      (walkStep (dependents tasks) pushAll s).map picture fun out => (out.map worth).sum - worth start := by
    rintro ⟨seen, _ | ⟨id, pending⟩⟩
    · rfl
    · by_cases hid : id ∈ seen
      · simp [picture, valueStep, walkStep, hid]
      · have hsum : (seen.map worth).sum - worth start + worth id = worth id + (seen.map worth).sum - worth start := by ring
        simp [picture, valueStep, walkStep, hid, pushAll, hsum]
  exact loop_map hstep fuel (seen, pending)

/-- The walk from a task off the cycles sums up the worth of what needs it. -/
theorem walk_value (worth : Text → ℚ) {start : Text} (hoff : ¬ OnCycle tasks start) :
    ∃ out : List Text, out.Nodup ∧ (∀ id, id ∈ out ↔ Relation.TransGen (Needs tasks) id start) ∧
      ∃ fuel, loop (valueStep tasks worth) fuel (([start], (dependents tasks start).reverse), 0) =
        some (out.map worth).sum := by
  have hcovered : Covered (dependents tasks) [start] (dependents tasks start).reverse := by
    intro a ha b hb
    rw [List.mem_singleton.mp ha] at hb
    exact Or.inr (List.mem_reverse.mpr hb)
  obtain ⟨out, ⟨fuel, hends⟩, hnodup, hout⟩ := walk_spec joins_pushAll (fun a ha => dependents_ne_nil ha)
    [start] (dependents tasks start).reverse hcovered
  have hnodup := hnodup (List.nodup_singleton start)
  have hstart : start ∈ out := (hout start).mpr (Or.inl List.mem_cons_self)
  refine ⟨out.erase start, hnodup.erase start, fun id => ?_, fuel, ?_⟩
  · have hreach : (∃ p ∈ (dependents tasks start).reverse, Relation.ReflTransGen (Edge (dependents tasks)) p id) ↔
        Relation.TransGen (Needs tasks) id start := by
      rw [← transGen_dependents, Relation.TransGen.head'_iff]
      simp only [List.mem_reverse]
    rw [hnodup.mem_erase_iff, hout, hreach, List.mem_singleton]
    constructor
    · rintro ⟨hne, hid⟩
      exact hid.resolve_left hne
    · intro hid
      refine ⟨?_, Or.inr hid⟩
      rintro rfl
      exact hoff hid
  · have hsum := ((List.perm_cons_erase hstart).map worth).sum_eq
    have hvalue := loop_valueStep tasks worth start fuel [start] (dependents tasks start).reverse
    rw [hends, Option.map_some, hsum] at hvalue
    simpa using hvalue

end walk

/-! ### The result -/

section result

variable (tasks : List DispatchValueTask) (dispatchUrgency : ℚ → ℚ → ℚ) (tierOf : DispatchValueTask → ℚ)
  (waits : Text → ℚ)

open Classical in
/-- The sum over the tasks off the cycles that need a task by one or more dependencies, each at its tier plus the
difference of the depths. -/
noncomputable def dependentSum (id : Text) : ℚ :=
  ((tasks.filter fun t => ¬ OnCycle tasks t.id ∧ Relation.TransGen (Needs tasks) t.id id).map fun t =>
    dispatchUrgency (tierOf t + ((depth tasks t.id : ℚ) - depth tasks id)) (waits t.id)).sum

variable {tasks}

theorem OnCycle.mem {id : Text} (h : OnCycle tasks id) : id ∈ tasks.map (·.id) := by
  obtain ⟨_, -, hneeds⟩ := Relation.TransGen.tail'_iff.mp h
  exact List.mem_map.mpr hneeds.2

theorem sum_map_filter {α : Type*} (p : α → Prop) [DecidablePred p] (f : α → ℚ) (l : List α) :
    ((l.filter fun x => p x).map f).sum = (l.map fun x => if p x then f x else 0).sum := by
  induction l with
  | nil => rfl
  | cons x l ih =>
      by_cases hx : p x
      · simp [hx, ih]
      · simp [hx, ih]

variable (hids : (tasks.map (·.id)).Nodup)

include hids

theorem isGreatest_depth {id : Text} (hid : id ∈ tasks.map (·.id)) (hoff : ¬ OnCycle tasks id) :
    IsGreatest (chainLengths tasks id) (depth tasks id) := by
  obtain ⟨n, -, hn⟩ := (leveled_findLevels hids).level id hid hoff
  rw [depth, hn.csSup_eq]
  exact hn

open Classical in
theorem findLevels_eq {id : Text} (hid : id ∈ tasks.map (·.id)) :
    (findLevels tasks).levels id = if OnCycle tasks id then none else some (depth tasks id) := by
  have hleveled := leveled_findLevels hids
  by_cases hcycle : OnCycle tasks id
  · rw [if_pos hcycle]
    exact hleveled.undefined id (Or.inr hcycle)
  · obtain ⟨n, hlevel, hn⟩ := hleveled.level id hid hcycle
    rw [if_neg hcycle, hlevel, depth, hn.csSup_eq]

/-- The worth of a list of what needs `id` is the sum over the tasks. -/
theorem sum_worth {id : Text} {out : List Text} (hnodup : out.Nodup)
    (hout : ∀ x, x ∈ out ↔ Relation.TransGen (Needs tasks) x id) :
    (out.map (worth tasks dispatchUrgency tierOf waits (findLevels tasks).levels (depth tasks id))).sum =
      dependentSum tasks dispatchUrgency tierOf waits id := by
  classical
  set w := worth tasks dispatchUrgency tierOf waits (findLevels tasks).levels (depth tasks id) with hw
  have hperm : out.Perm ((tasks.filter fun t => Relation.TransGen (Needs tasks) t.id id).map (·.id)) := by
    rw [List.perm_ext_iff_of_nodup hnodup (hids.sublist (List.filter_sublist.map _))]
    intro x
    rw [hout, List.mem_map]
    constructor
    · intro hx
      obtain ⟨_, hneeds, -⟩ := Relation.TransGen.head'_iff.mp hx
      obtain ⟨t, ht, rfl, -⟩ := hneeds.1
      exact ⟨t, List.mem_filter.mpr ⟨ht, decide_eq_true hx⟩, rfl⟩
    · rintro ⟨t, ht, rfl⟩
      exact of_decide_eq_true (List.mem_filter.mp ht).2
  have hworth : ∀ t ∈ tasks, w t.id = if OnCycle tasks t.id then 0
      else dispatchUrgency (tierOf t + ((depth tasks t.id : ℚ) - depth tasks id)) (waits t.id) := by
    intro t ht
    rw [hw, worth, findLevels_eq hids (List.mem_map_of_mem ht), (byId_eq_some hids).mpr ⟨ht, rfl⟩]
    by_cases hcycle : OnCycle tasks t.id
    · simp [hcycle]
    · simp [hcycle, add_sub_assoc]
  rw [(hperm.map w).sum_eq, List.map_map, sum_map_filter, dependentSum, sum_map_filter]
  refine congrArg List.sum (List.map_congr_left fun t ht => ?_)
  by_cases hcycle : OnCycle tasks t.id
  · simp [hcycle, hworth t ht]
  · simp [hcycle, hworth t ht]

open Classical in
/-- With enough fuel every task gets its value. -/
theorem valueOf_ends {id : Text} (hid : id ∈ tasks.map (·.id)) :
    ∃ fuel₀, ∀ fuel, fuel₀ ≤ fuel →
      valueOf tasks dispatchUrgency tierOf waits fuel (findLevels tasks).levels id =
        some (if OnCycle tasks id then 0 else dependentSum tasks dispatchUrgency tierOf waits id) := by
  unfold valueOf
  rw [findLevels_eq hids hid]
  by_cases hcycle : OnCycle tasks id
  · rw [if_pos hcycle, if_pos hcycle]
    exact ⟨0, fun _ _ => rfl⟩
  · rw [if_neg hcycle, if_neg hcycle]
    obtain ⟨out, hnodup, hout, fuel₀, hloop⟩ :=
      walk_value (worth tasks dispatchUrgency tierOf waits (findLevels tasks).levels (depth tasks id)) hcycle
    refine ⟨fuel₀, fun fuel hfuel => ?_⟩
    rw [← sum_worth dispatchUrgency tierOf waits hids hnodup hout]
    exact loop_mono hfuel hloop

omit hids in
theorem sortIds_spec {ids : List Text} (hnodup : ids.Nodup) :
    (∀ id, id ∈ sortIds ids ↔ id ∈ ids) ∧ (sortIds ids).Pairwise fun a b => Text.utf16 a < Text.utf16 b := by
  have hperm : (sortIds ids).Perm ids := List.mergeSort_perm _ _
  have hsorted : (sortIds ids).Pairwise fun a b => decide (Text.utf16 a ≤ Text.utf16 b) = true := by
    apply List.pairwise_mergeSort
    · intro a b c hab hbc
      exact decide_eq_true ((of_decide_eq_true hab).trans (of_decide_eq_true hbc))
    · intro a b
      simpa using le_total (Text.utf16 a) (Text.utf16 b)
  refine ⟨fun id => hperm.mem_iff, ?_⟩
  have hne : (sortIds ids).Pairwise (· ≠ ·) := hperm.nodup_iff.mpr hnodup
  refine hsorted.imp₂ (fun a b hle hne => ?_) hne
  exact lt_of_le_of_ne (of_decide_eq_true hle) fun heq => hne (Text.utf16_injective heq)

open Classical in
/-- On every list of tasks with distinct ids: the cycle has the ids on a dependency cycle, sorted; the level of every
other task is the length of the longest dependency chain below it that uses no member of a cycle; and its value is
the sum over the tasks off the cycles that need it, each counted once, while the members of a cycle have none. -/
theorem dependentValue_exact :
    ∃ fuel₀, ∀ fuel, fuel₀ ≤ fuel → ∃ result,
      dependentValue tasks dispatchUrgency tierOf waits fuel = some result ∧
      (∀ id, id ∈ result.cycle ↔ OnCycle tasks id) ∧ (result.cycle.Pairwise fun a b => Text.utf16 a < Text.utf16 b) ∧
      (∀ task ∈ tasks, (findLevels tasks).levels task.id =
        if OnCycle tasks task.id then none else some (depth tasks task.id)) ∧
      (∀ task ∈ tasks, ¬ OnCycle tasks task.id → IsGreatest (chainLengths tasks task.id) (depth tasks task.id)) ∧
      ∀ task ∈ tasks, result.byTaskId.get? task.id =
        some (if OnCycle tasks task.id then 0 else dependentSum tasks dispatchUrgency tierOf waits task.id) := by
  have hleveled := leveled_findLevels hids
  obtain ⟨fuel₀, hvalues⟩ := exists_fuel_forall fun task ht =>
    valueOf_ends dispatchUrgency tierOf waits hids (List.mem_map_of_mem ht)
  refine ⟨fuel₀, fun fuel hfuel => ?_⟩
  let value := fun id => if OnCycle tasks id then 0 else dependentSum tasks dispatchUrgency tierOf waits id
  have hvalue : ∀ task ∈ tasks, valueOf tasks dispatchUrgency tierOf waits fuel (findLevels tasks).levels task.id =
      some (value task.id) := hvalues fuel hfuel
  obtain ⟨byTaskId, hfold, hget⟩ := Record.foldlM_set_eq hvalue ∅
  obtain ⟨hmem, hsorted⟩ := sortIds_spec hleveled.nodup
  refine ⟨⟨byTaskId, sortIds (findLevels tasks).cycle⟩, ?_, fun id => ?_, hsorted, ?_, ?_, ?_⟩
  · rw [dependentValue, hfold]
    rfl
  · rw [hmem, hleveled.cycle]
    exact ⟨And.right, fun h => ⟨h.mem, h⟩⟩
  · exact fun task ht => findLevels_eq hids (List.mem_map_of_mem ht)
  · exact fun task ht => isGreatest_depth hids (List.mem_map_of_mem ht)
  · intro task ht
    rw [hget, if_pos (List.mem_map_of_mem ht)]

end result

/-- A cycle, a task that needs it, and a chain of two tasks with a repeated and an unknown dependency. -/
def fiveTasks : List DispatchValueTask :=
  [⟨"A".toList, ["B".toList], none⟩, ⟨"B".toList, ["A".toList], none⟩, ⟨"C".toList, ["B".toList, "D".toList], some 1⟩,
    ⟨"D".toList, ["E".toList, "E".toList, "X".toList], some 2⟩, ⟨"E".toList, [], none⟩]

theorem dependentValue_exact_five_tasks :
    (fiveTasks.map (·.id)).Nodup ∧ ∃ fuel₀, ∀ fuel, fuel₀ ≤ fuel → ∃ result,
      dependentValue fiveTasks (fun tier wait => tier + wait) (fun task => task.priority.getD 0) (fun _ => 1) fuel =
        some result ∧ ∀ id, id ∈ result.cycle ↔ OnCycle fiveTasks id := by
  have hids : (fiveTasks.map (·.id)).Nodup := by decide
  obtain ⟨fuel₀, hexact⟩ := dependentValue_exact (fun tier wait => tier + wait)
    (fun task : DispatchValueTask => task.priority.getD 0) (fun _ => 1) hids
  refine ⟨hids, fuel₀, fun fuel hfuel => ?_⟩
  obtain ⟨result, hresult, hcycle, -⟩ := hexact fuel hfuel
  exact ⟨result, hresult, hcycle⟩

end Remudero.Dispatch.Value
