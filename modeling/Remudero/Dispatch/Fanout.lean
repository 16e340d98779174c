import Remudero.Lib.Record

/-! # Fan-out inside a tier

`fanoutWithinTier`, `stridePassInputs` and `redealFanoutOver` of `lib/dispatch-value.ts`.  The tasks of a group,
one tier and blocked or not, take that group's passes without fan-out in the order of their passes with
fan-out.

Passes and ids are of any linearly ordered types.  A pass map is an object: contexts refer to it, and a
side table has the slot inputs of each map that was dealt, so maps are kept in a heap and a context has the
place of its map.

The main result is `fanout_never_jumps`: what the passes dealt over some ids are, which groups may hold a
position in the order by pass, and that only the last dealing counts. -/

namespace Remudero.Dispatch.Fanout

open Remudero.Lib

variable {κ τ P : Type*}

structure TierPass (κ τ P : Type*) where
  id : κ
  tier : τ
  blocked : Bool
  pass0 : P
  passF : P

/-- `${entry.tier}:${entry.blocked}`. -/
def TierPass.group (m : TierPass κ τ P) : τ × Bool := (m.tier, m.blocked)

/-! ### Dealing -/

section deal

variable [LinearOrder κ] [DecidableEq τ] [LinearOrder P]

def byGroup (passes : List (TierPass κ τ P)) : Record (τ × Bool) (List (TierPass κ τ P)) :=
  passes.foldl (fun groups entry => groups.set entry.group ((groups.get? entry.group).getD [] ++ [entry])) ∅

def slots (members : List (TierPass κ τ P)) : List P := (members.map TierPass.pass0).mergeSort fun a b => a ≤ b

/-- By the pass with fan-out and then by id. -/
def ranksBefore (a b : TierPass κ τ P) : Bool := a.passF < b.passF || (a.passF = b.passF && a.id ≤ b.id)

def ranked (members : List (TierPass κ τ P)) : List (TierPass κ τ P) := members.mergeSort ranksBefore

/-- The passes dealt to one group. -/
def dealGroup (members : List (TierPass κ τ P)) : List (κ × P) := ((ranked members).map TierPass.id).zip (slots members)

def fanoutWithinTier (passes : List (TierPass κ τ P)) : Record κ P :=
  (byGroup passes).values.foldl (fun dealt members => (dealGroup members).foldl (fun dealt p => dealt.set p.1 p.2) dealt) ∅

end deal

/-! ### Contexts -/

/-- The maps that were dealt, and the slot inputs by the map they dealt. -/
structure Heap (κ τ P : Type*) where
  maps : List (Record κ P)
  slotInputsByPassMap : List (ℕ × Record κ (TierPass κ τ P))

/-- A context; `rest` is all of it but its passes. -/
structure Context (ρ : Type*) where
  rest : ρ
  stridePassByTaskId : Option ℕ

section contexts

variable [LinearOrder κ] [DecidableEq τ] [LinearOrder P] {ρ : Type*}

def stridePassInputs (heap : Heap κ τ P) (context : Option (Context ρ)) : Option (Record κ (TierPass κ τ P)) :=
  (context.bind Context.stridePassByTaskId).bind fun place => entryOf place heap.slotInputsByPassMap

def redealFanoutOver (heap : Heap κ τ P) (context : Option (Context ρ)) (ids : κ → Bool) :
    Heap κ τ P × Option (Context ρ) :=
  match context, stridePassInputs heap context with
  | some c, some inputs =>
      let dealt := fanoutWithinTier (inputs.values.filter fun entry => ids entry.id)
      let place := heap.maps.length
      (⟨heap.maps ++ [dealt], (place, inputs) :: heap.slotInputsByPassMap⟩, some { c with stridePassByTaskId := some place })
  | _, _ => (heap, context)

/-- The passes of a context. -/
def passesOf (heap : Heap κ τ P) (context : Option (Context ρ)) : Option (Record κ P) :=
  (context.bind Context.stridePassByTaskId).bind fun place => heap.maps[place]?

end contexts

/-! ### Two sorts -/

section sorts

variable [LinearOrder κ] [LinearOrder P]

theorem ranksBefore_trans (a b c : TierPass κ τ P) (hab : ranksBefore a b = true) (hbc : ranksBefore b c = true) :
    ranksBefore a c = true := by
  simp only [ranksBefore, Bool.or_eq_true, Bool.and_eq_true, decide_eq_true_eq] at *
  obtain hab | ⟨hab, hid⟩ := hab
  · obtain hbc | ⟨hbc, -⟩ := hbc
    · exact Or.inl (hab.trans hbc)
    · exact Or.inl (hbc ▸ hab)
  · obtain hbc | ⟨hbc, hid'⟩ := hbc
    · exact Or.inl (hab ▸ hbc)
    · exact Or.inr ⟨hab.trans hbc, hid.trans hid'⟩

theorem ranksBefore_total (a b : TierPass κ τ P) : (ranksBefore a b || ranksBefore b a) = true := by
  simp only [ranksBefore, Bool.or_eq_true, Bool.and_eq_true, decide_eq_true_eq]
  obtain h | h | h := lt_trichotomy a.passF b.passF
  · exact Or.inl (Or.inl h)
  · exact (le_total a.id b.id).imp (fun hid => Or.inr ⟨h, hid⟩) fun hid => Or.inr ⟨h.symm, hid⟩
  · exact Or.inr (Or.inl h)

theorem ranksBefore_antisymm {a b : TierPass κ τ P} (hab : ranksBefore a b = true) (hba : ranksBefore b a = true) :
    a.id = b.id := by
  simp only [ranksBefore, Bool.or_eq_true, Bool.and_eq_true, decide_eq_true_eq] at hab hba
  obtain hab | ⟨hab, hid⟩ := hab
  · obtain hba | ⟨hba, -⟩ := hba
    · exact absurd hab (lt_asymm hba)
    · exact absurd hba (ne_of_gt hab)
  · obtain hba | ⟨-, hid'⟩ := hba
    · exact absurd hab (ne_of_gt hba)
    · exact le_antisymm hid hid'

theorem ranked_perm (members : List (TierPass κ τ P)) : (ranked members).Perm members := List.mergeSort_perm _ _

theorem ranked_sorted (members : List (TierPass κ τ P)) : (ranked members).Pairwise fun a b => ranksBefore a b = true :=
  List.pairwise_mergeSort ranksBefore_trans ranksBefore_total members

omit [LinearOrder κ] in
theorem slots_perm (members : List (TierPass κ τ P)) : (slots members).Perm (members.map TierPass.pass0) :=
  List.mergeSort_perm _ _

omit [LinearOrder κ] in
theorem slots_sorted (members : List (TierPass κ τ P)) : (slots members).Pairwise (· ≤ ·) := by
  have hsorted := @List.pairwise_mergeSort P (fun a b => decide (a ≤ b))
    (fun a b c hab hbc => by simp only [decide_eq_true_eq] at *; exact hab.trans hbc)
    (fun a b => by simp only [Bool.or_eq_true, decide_eq_true_eq]; exact le_total a b) (members.map TierPass.pass0)
  exact hsorted.imp fun h => of_decide_eq_true h

theorem length_ranked_slots (members : List (TierPass κ τ P)) : (ranked members).length = (slots members).length := by
  rw [(ranked_perm members).length_eq, (slots_perm members).length_eq, List.length_map]

/-- The pairs dealt to a group, by their ids and by their passes. -/
theorem dealGroup_fst (members : List (TierPass κ τ P)) :
    (dealGroup members).map Prod.fst = (ranked members).map TierPass.id := by
  rw [dealGroup, List.map_fst_zip]
  rw [List.length_map, length_ranked_slots]

theorem dealGroup_snd (members : List (TierPass κ τ P)) : (dealGroup members).map Prod.snd = slots members := by
  rw [dealGroup, List.map_snd_zip]
  rw [List.length_map, length_ranked_slots]

theorem mem_ids_of_mem_dealGroup {members : List (TierPass κ τ P)} {p : κ × P} (h : p ∈ dealGroup members) :
    ∃ m ∈ members, m.id = p.1 := by
  have hid : p.1 ∈ (ranked members).map TierPass.id := dealGroup_fst members ▸ List.mem_map_of_mem h
  obtain ⟨m, hm, hmid⟩ := List.mem_map.mp hid
  exact ⟨m, (ranked_perm members).subset hm, hmid⟩

end sorts

/-! ### Groups -/

section groups

variable [LinearOrder κ] [DecidableEq τ] [LinearOrder P] {passes members : List (TierPass κ τ P)} {g : τ × Bool}

omit [LinearOrder κ] [LinearOrder P] in
theorem get?_byGroup (passes : List (TierPass κ τ P)) (g : τ × Bool) :
    (byGroup passes).get? g =
      if passes.filter (fun m => m.group = g) = [] then none else some (passes.filter fun m => m.group = g) := by
  induction passes using List.reverseRecOn with
  | nil => rfl
  | append_singleton passes entry ih =>
      rw [byGroup, List.foldl_append, List.foldl_cons, List.foldl_nil, ← byGroup, List.filter_append]
      by_cases hg : entry.group = g
      · subst hg
        rw [Record.get?_set_self, ih]
        by_cases hnil : passes.filter (fun m => m.group = entry.group) = []
        · rw [if_pos hnil, hnil]
          simp
        · rw [if_neg hnil]
          simp
      · rw [Record.get?_set_of_ne _ _ (Ne.symm hg), ih, List.filter_cons_of_neg (by simpa using hg), List.filter_nil,
          List.append_nil]

omit [LinearOrder κ] [LinearOrder P] in
theorem mem_values_byGroup : members ∈ (byGroup passes).values ↔
    members ≠ [] ∧ ∃ g, members = passes.filter fun m => m.group = g := by
  rw [Record.mem_values_iff]
  constructor
  · rintro ⟨g, hg⟩
    rw [get?_byGroup] at hg
    split at hg
    · cases hg
    · next hne =>
        obtain rfl := Option.some.inj hg
        exact ⟨hne, g, rfl⟩
  · rintro ⟨hne, g, rfl⟩
    exact ⟨g, by rw [get?_byGroup, if_neg hne]⟩

/-- All the pairs that are dealt. -/
def dealtPairs (passes : List (TierPass κ τ P)) : List (κ × P) := (byGroup passes).values.flatMap dealGroup

theorem get?_fanoutWithinTier (passes : List (TierPass κ τ P)) (k : κ) :
    (fanoutWithinTier passes).get? k = lastValue k (dealtPairs passes) := by
  have hflat : ∀ (groups : List (List (TierPass κ τ P))) (dealt : Record κ P),
      groups.foldl (fun dealt members => (dealGroup members).foldl (fun dealt p => dealt.set p.1 p.2) dealt) dealt =
        (groups.flatMap dealGroup).foldl (fun dealt p => dealt.setSome (some p)) dealt := by
    intro groups
    induction groups with
    | nil => exact fun dealt => rfl
    | cons members groups ih =>
        intro dealt
        rw [List.foldl_cons, List.flatMap_cons, List.foldl_append, ih]
        rfl
  rw [fanoutWithinTier, hflat, ← dealtPairs, Record.get?_foldl_setSome some, List.filterMap_some]

theorem mem_dealtPairs {p : κ × P} :
    p ∈ dealtPairs passes ↔ ∃ g, p ∈ dealGroup (passes.filter fun m => m.group = g) := by
  rw [dealtPairs, List.mem_flatMap]
  constructor
  · rintro ⟨members, hmembers, hp⟩
    obtain ⟨-, g, rfl⟩ := mem_values_byGroup.mp hmembers
    exact ⟨g, hp⟩
  · rintro ⟨g, hp⟩
    refine ⟨_, mem_values_byGroup.mpr ⟨?_, g, rfl⟩, hp⟩
    intro hnil
    obtain ⟨m, hm, -⟩ := mem_ids_of_mem_dealGroup hp
    rw [hnil] at hm
    cases hm

/-! ### What is dealt -/

/-- What the members of a group are dealt is what was meant for their ids. -/
theorem get?_of_mem_dealGroup (hids : (passes.map TierPass.id).Nodup) {k : κ} {v : P}
    (h : (k, v) ∈ dealGroup (passes.filter fun m => m.group = g)) : (fanoutWithinTier passes).get? k = some v := by
  rw [get?_fanoutWithinTier]
  refine lastValue_of_unique (mem_dealtPairs.mpr ⟨g, h⟩) fun w hw => ?_
  obtain ⟨g', hw⟩ := mem_dealtPairs.mp hw
  obtain ⟨m, hm, hmid⟩ := mem_ids_of_mem_dealGroup h
  obtain ⟨m', hm', hmid'⟩ := mem_ids_of_mem_dealGroup hw
  rw [List.mem_filter, decide_eq_true_eq] at hm hm'
  -- one id is of one task, so of one group, and there it is dealt once
  have hsame : m = m' := List.inj_on_of_nodup_map hids hm.1 hm'.1 (hmid.trans hmid'.symm)
  have hgroup : g = g' := by rw [← hm.2, ← hm'.2, hsame]
  rw [← hgroup] at hw
  have hnodup : ((dealGroup (passes.filter fun m => m.group = g)).map Prod.fst).Nodup := by
    rw [dealGroup_fst, ((ranked_perm _).map TierPass.id).nodup_iff]
    exact hids.sublist (List.filter_sublist.map _)
  exact congrArg Prod.snd (List.inj_on_of_nodup_map hnodup hw h rfl)

/-- The pass dealt to a task. -/
def dealtPass (passes : List (TierPass κ τ P)) (m : TierPass κ τ P) : P := ((fanoutWithinTier passes).get? m.id).getD m.pass0

theorem ranked_dealt (hids : (passes.map TierPass.id).Nodup) (g : τ × Bool) :
    (ranked (passes.filter fun m => m.group = g)).map (fun m => (fanoutWithinTier passes).get? m.id) =
      (slots (passes.filter fun m => m.group = g)).map some := by
  rw [← dealGroup_snd, List.map_map]
  have hget : (ranked (passes.filter fun m => m.group = g)).map (fun m => (fanoutWithinTier passes).get? m.id) =
      ((ranked (passes.filter fun m => m.group = g)).map TierPass.id).map (fanoutWithinTier passes).get? := by
    rw [List.map_map]
    rfl
  rw [hget, ← dealGroup_fst, List.map_map]
  exact List.map_congr_left fun p hp => get?_of_mem_dealGroup hids hp

theorem get?_eq_dealtPass (hids : (passes.map TierPass.id).Nodup) {m : TierPass κ τ P} (hm : m ∈ passes) :
    (fanoutWithinTier passes).get? m.id = some (dealtPass passes m) := by
  have hgroup : m ∈ passes.filter fun n => n.group = m.group := List.mem_filter.mpr ⟨hm, decide_eq_true rfl⟩
  have hdealt := List.mem_map_of_mem (f := fun n => (fanoutWithinTier passes).get? n.id) ((ranked_perm _).symm.subset hgroup)
  rw [ranked_dealt hids] at hdealt
  obtain ⟨v, -, hv⟩ := List.mem_map.mp hdealt
  rw [dealtPass, ← hv]
  rfl

theorem ranked_dealtPass (hids : (passes.map TierPass.id).Nodup) (g : τ × Bool) :
    (ranked (passes.filter fun m => m.group = g)).map (dealtPass passes) = slots (passes.filter fun m => m.group = g) := by
  have hmap := ranked_dealt hids g
  have hsome : (ranked (passes.filter fun m => m.group = g)).map (fun m => (fanoutWithinTier passes).get? m.id) =
      ((ranked (passes.filter fun m => m.group = g)).map (dealtPass passes)).map some := by
    rw [List.map_map]
    apply List.map_congr_left
    intro m hm
    exact get?_eq_dealtPass hids (List.mem_filter.mp ((ranked_perm _).subset hm)).1
  rw [hsome] at hmap
  exact List.map_injective_iff.mpr (Option.some_injective P) hmap

/-- A group keeps its passes. -/
theorem dealtPass_perm (hids : (passes.map TierPass.id).Nodup) (g : τ × Bool) :
    ((passes.filter fun m => m.group = g).map (dealtPass passes)).Perm
      ((passes.filter fun m => m.group = g).map TierPass.pass0) := by
  refine (((ranked_perm _).map (dealtPass passes)).symm).trans ?_
  rw [ranked_dealtPass hids]
  exact slots_perm _

/-- In a group the passes follow the rank. -/
theorem dealtPass_le (hids : (passes.map TierPass.id).Nodup) {m n : TierPass κ τ P} (hm : m ∈ passes) (hn : n ∈ passes)
    (hgroup : m.group = n.group) (hrank : ranksBefore m n = true) : dealtPass passes m ≤ dealtPass passes n := by
  by_cases hmn : m = n
  · rw [hmn]
  have hsorted : (ranked (passes.filter fun x => x.group = n.group)).Pairwise fun a b =>
      ranksBefore a b = true ∧ dealtPass passes a ≤ dealtPass passes b := by
    refine List.Pairwise.and (ranked_sorted _) ?_
    have hslots := slots_sorted (passes.filter fun x => x.group = n.group)
    rw [← ranked_dealtPass hids, List.pairwise_map] at hslots
    exact hslots
  have hm' : m ∈ ranked (passes.filter fun x => x.group = n.group) :=
    (ranked_perm _).symm.subset (List.mem_filter.mpr ⟨hm, decide_eq_true hgroup⟩)
  have hn' : n ∈ ranked (passes.filter fun x => x.group = n.group) :=
    (ranked_perm _).symm.subset (List.mem_filter.mpr ⟨hn, decide_eq_true rfl⟩)
  let Either : TierPass κ τ P → TierPass κ τ P → Prop := fun a b =>
    (ranksBefore a b = true ∧ dealtPass passes a ≤ dealtPass passes b) ∨
      (ranksBefore b a = true ∧ dealtPass passes b ≤ dealtPass passes a)
  have hsymm : Std.Symm Either := ⟨fun a b => Or.symm⟩
  have hpairs : (ranked (passes.filter fun x => x.group = n.group)).Pairwise Either := hsorted.imp Or.inl
  obtain h | h := hpairs.forall hm' hn' hmn
  · exact h.2
  · exact absurd (List.inj_on_of_nodup_map hids hm hn (ranksBefore_antisymm hrank h.1)) hmn

theorem get?_none {k : κ} (hk : k ∉ passes.map TierPass.id) : (fanoutWithinTier passes).get? k = none := by
  rw [get?_fanoutWithinTier, ← Option.not_isSome_iff_eq_none, lastValue_isSome_iff]
  intro hmem
  obtain ⟨p, hp, rfl⟩ := List.mem_map.mp hmem
  obtain ⟨g, hp⟩ := mem_dealtPairs.mp hp
  obtain ⟨m, hm, hmid⟩ := mem_ids_of_mem_dealGroup hp
  exact hk (hmid ▸ List.mem_map_of_mem (List.mem_filter.mp hm).1)

end groups

/-! ### Positions -/

section positions

variable {γ : Type*} [DecidableEq γ] [LinearOrder P]

omit [DecidableEq γ] in
/-- In some order by pass a member of the group is at the position. -/
def CanHold (pairs : List (γ × P)) (position : ℕ) (g : γ) : Prop :=
  ∃ order : List (γ × P), order.Perm pairs ∧ order.Pairwise (fun a b => a.2 ≤ b.2) ∧
    ∃ pair, order[position]? = some pair ∧ pair.1 = g

omit [DecidableEq γ] in
theorem canHold_perm {pairs pairs' : List (γ × P)} (h : pairs.Perm pairs') (position : ℕ) (g : γ) :
    CanHold pairs position g ↔ CanHold pairs' position g :=
  ⟨fun ⟨order, hperm, hrest⟩ => ⟨order, hperm.trans h, hrest⟩,
    fun ⟨order, hperm, hrest⟩ => ⟨order, hperm.trans h.symm, hrest⟩⟩

theorem count_pairs {α : Type*} (group : α → γ) (pass : α → P) (l : List α) (g : γ) (v : P) :
    (l.map fun m => (group m, pass m)).count (g, v) = ((l.filter fun m => group m = g).map pass).count v := by
  induction l with
  | nil => rfl
  | cons m l ih =>
      rw [List.map_cons, List.count_cons, ih]
      by_cases hg : group m = g
      · rw [List.filter_cons_of_pos (by simpa using hg), List.map_cons, List.count_cons]
        simp [hg]
      · rw [List.filter_cons_of_neg (by simpa using hg)]
        simp [hg]

/-- Pairs whose groups have the same passes. -/
theorem pairs_perm {α : Type*} {group : α → γ} {pass pass' : α → P} {l : List α}
    (h : ∀ g, ((l.filter fun m => group m = g).map pass).Perm ((l.filter fun m => group m = g).map pass')) :
    (l.map fun m => (group m, pass m)).Perm (l.map fun m => (group m, pass' m)) := by
  rw [List.perm_iff_count]
  rintro ⟨g, v⟩
  rw [count_pairs, count_pairs, (h g).count_eq]

end positions

/-! ### Dealing again -/

section redeal

variable [LinearOrder κ] [DecidableEq τ] [LinearOrder P] {ρ : Type*}

theorem redealFanoutOver_eq {heap : Heap κ τ P} {c : Context ρ} {inputs : Record κ (TierPass κ τ P)} (ids : κ → Bool)
    (h : stridePassInputs heap (some c) = some inputs) :
    redealFanoutOver heap (some c) ids =
      (⟨heap.maps ++ [fanoutWithinTier (inputs.values.filter fun entry => ids entry.id)],
        (heap.maps.length, inputs) :: heap.slotInputsByPassMap⟩,
        some { c with stridePassByTaskId := some heap.maps.length }) := by
  unfold redealFanoutOver
  rw [h]

/-- The passes of a context that was dealt, its slot inputs, and the rest of it. -/
theorem redealFanoutOver_spec {heap : Heap κ τ P} {c : Context ρ} {inputs : Record κ (TierPass κ τ P)} (ids : κ → Bool)
    (h : stridePassInputs heap (some c) = some inputs) :
    ∃ heap' c', redealFanoutOver heap (some c) ids = (heap', some c') ∧ c'.rest = c.rest ∧
      stridePassInputs heap' (some c') = some inputs ∧
      passesOf heap' (some c') = some (fanoutWithinTier (inputs.values.filter fun entry => ids entry.id)) := by
  refine ⟨_, _, redealFanoutOver_eq ids h, rfl, entryOf_cons_self _ _ _, ?_⟩
  change (heap.maps ++ [_])[heap.maps.length]? = _
  rw [List.getElem?_concat_length]

/-- For every context with slot inputs of distinct ids, and the passes dealt over some of the ids: every group has the
passes it would have without fan-out, its members have them by their passes with fan-out and then by id, and
each position in the order by pass may be held by the same groups as without fan-out; and only the last dealing
counts. -/
theorem fanout_never_jumps (heap : Heap κ τ P) (c : Context ρ) (inputs : Record κ (TierPass κ τ P))
    (hinputs : stridePassInputs heap (some c) = some inputs) (hids : (inputs.values.map TierPass.id).Nodup)
    (ids : κ → Bool) :
    let dealt := inputs.values.filter fun entry => ids entry.id
    (∃ passes, passesOf (redealFanoutOver heap (some c) ids).1 (redealFanoutOver heap (some c) ids).2 = some passes ∧
      ∃ pass : TierPass κ τ P → P,
        (∀ m ∈ dealt, passes.get? m.id = some (pass m)) ∧ (∀ k, k ∉ dealt.map TierPass.id → passes.get? k = none) ∧
        (∀ g, ((dealt.filter fun m => m.group = g).map pass).Perm ((dealt.filter fun m => m.group = g).map TierPass.pass0)) ∧
        (∀ m ∈ dealt, ∀ n ∈ dealt, m.group = n.group → ranksBefore m n = true → pass m ≤ pass n) ∧
        ∀ position g, CanHold (dealt.map fun m => (m.group, pass m)) position g ↔
          CanHold (dealt.map fun m => (m.group, m.pass0)) position g) ∧
    ∀ ids', passesOf (redealFanoutOver (redealFanoutOver heap (some c) ids').1 (redealFanoutOver heap (some c) ids').2 ids).1
        (redealFanoutOver (redealFanoutOver heap (some c) ids').1 (redealFanoutOver heap (some c) ids').2 ids).2 =
      passesOf (redealFanoutOver heap (some c) ids).1 (redealFanoutOver heap (some c) ids).2 := by
  intro dealt
  obtain ⟨heap₁, c₁, heq, -, -, hpasses⟩ := redealFanoutOver_spec ids hinputs
  refine ⟨?_, fun ids' => ?_⟩
  · have hnodup : (dealt.map TierPass.id).Nodup := hids.sublist (List.filter_sublist.map _)
    rw [heq]
    refine ⟨_, hpasses, dealtPass dealt, fun m hm => get?_eq_dealtPass hnodup hm, fun k hk => get?_none hk,
      dealtPass_perm hnodup, fun m hm n hn => dealtPass_le hnodup hm hn, fun position g => ?_⟩
    exact canHold_perm (pairs_perm (dealtPass_perm hnodup)) position g
  · obtain ⟨heap₂, c₂, heq', -, hinputs₂, -⟩ := redealFanoutOver_spec ids' hinputs
    obtain ⟨heap₃, c₃, heq₃, -, -, hpasses₃⟩ := redealFanoutOver_spec ids hinputs₂
    rw [heq', heq, heq₃, hpasses, hpasses₃]

/-- The slot inputs of three tasks, two of them in one group. -/
def threeInputs : Record ℕ (TierPass ℕ ℕ ℕ) :=
  ⟨[(1, ⟨1, 0, false, 3, 5⟩), (2, ⟨2, 0, false, 7, 4⟩), (3, ⟨3, 1, false, 5, 5⟩)], by decide⟩

theorem fanout_never_jumps_three_inputs :
    (threeInputs.values.map TierPass.id).Nodup ∧
      ∃ passes, passesOf (redealFanoutOver (ρ := Unit) ⟨[∅], [(0, threeInputs)]⟩ (some ⟨(), some 0⟩) fun k => k < 3).1
          (redealFanoutOver (ρ := Unit) ⟨[∅], [(0, threeInputs)]⟩ (some ⟨(), some 0⟩) fun k => k < 3).2 = some passes ∧
        passes.get? 3 = none := by
  refine ⟨by decide, ?_⟩
  obtain ⟨⟨passes, hpasses, -, -, hnone, -⟩, -⟩ :=
    fanout_never_jumps (ρ := Unit) ⟨[∅], [(0, threeInputs)]⟩ ⟨(), some 0⟩ threeInputs rfl (by decide) fun k => k < 3
  exact ⟨passes, hpasses, hnone 3 (by decide)⟩

end redeal

end Remudero.Dispatch.Fanout
