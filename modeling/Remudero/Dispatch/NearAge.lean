import Remudero.Lib.Number

/-! # Runs near an age

`validityShareNearAge` of `lib/dispatch-value.ts`: of the samples sorted by age, those nearest to a given age
are pooled, whole groups of equal distance at a time, until there are enough runs.  A binary search finds
where the age stands; from there the samples on the left, nearest first, and those on the right are two
lists, and each round takes the groups at the smaller of the two distances.

Ages are rationals.  `ceilSqrt` is `Math.ceil(Math.sqrt(n))` in double precision: below 2^53 that is the least
integer whose square is at least `n`, unless `n` is one more than the square of an integer from 2^26 on, whose
root is rounded to that integer (`ceilSqrt_spec`).

The main result is `nearAge_ball`: what is pooled is a ball around the age, the least one with enough
runs. -/

namespace Remudero.Dispatch.NearAge

open Remudero.Lib

structure Tally where
  valid : ℤ
  total : ℤ
deriving DecidableEq

abbrev Sample := ℚ × Tally

/-! ### The pool -/

def Tally.add (a b : Tally) : Tally := ⟨a.valid + b.valid, a.total + b.total⟩

/-- The tallies of some samples together. -/
def pooled (samples : List Sample) : Tally := ⟨(samples.map (·.2.valid)).sum, (samples.map (·.2.total)).sum⟩

def distance (age : ℚ) (s : Sample) : ℚ := |s.1 - age|

/-- `Math.ceil(Math.sqrt(n))`.  A double next to an integer `k` of `e + 1` binary digits is `2 ^ (e - 52)` away, so
that a root below `k + 2 ^ (e - 53)` is rounded to `k`. -/
def ceilSqrt (n : ℕ) : ℕ :=
  let k := n.sqrt
  if n = k * k ∨ n * 2 ^ 106 < (k * 2 ^ 53 + 2 ^ k.log2) ^ 2 then k else k + 1

/-- The index of the first sample that is not younger; `lo` and `hi` bound it. -/
def lowerBound (ordered : List Sample) (age : ℚ) (lo hi : ℕ) : ℕ :=
  if lo < hi then
    let mid := (lo + hi) / 2
    match ordered[mid]? with
    | none => lo
    | some s => if s.1 < age then lowerBound ordered age (mid + 1) hi else lowerBound ordered age lo mid
  else lo
termination_by hi - lo

/-- The distance of the first sample of a list; infinity if there is none. -/
def headDistance (age : ℚ) : List Sample → WithTop ℚ
  | [] => ⊤
  | s :: _ => (distance age s : ℚ)

def atDistance (age : ℚ) (d : WithTop ℚ) (s : Sample) : Bool := (distance age s : WithTop ℚ) = d

theorem length_dropWhile_headDistance_lt {age : ℚ} {left right : List Sample} (h : left ≠ [] ∨ right ≠ []) :
    let d := min (headDistance age left) (headDistance age right)
    (left.dropWhile (atDistance age d)).length + (right.dropWhile (atDistance age d)).length <
      left.length + right.length := by
  intro d
  have hleft := (List.dropWhile_sublist (atDistance age d) (l := left)).length_le
  have hright := (List.dropWhile_sublist (atDistance age d) (l := right)).length_le
  have hless : ∀ (s : Sample) (l : List Sample), atDistance age d s = true →
      ((s :: l).dropWhile (atDistance age d)).length < (s :: l).length := by
    intro s l hs
    rw [List.dropWhile_cons_of_pos hs, List.length_cons]
    exact Nat.lt_succ_of_le (List.dropWhile_sublist (atDistance age d) (l := l)).length_le
  obtain hd | hd := min_choice (headDistance age left) (headDistance age right)
  · cases left with
    | nil =>
        -- only the right list has samples, so the distance is that of its first one
        cases right with
        | nil => simp at h
        | cons s right =>
            have htop : d = (distance age s : WithTop ℚ) := min_top_left _
            have := hless s right (by simp [atDistance, htop])
            omega
    | cons s left =>
        have hs : d = (distance age s : WithTop ℚ) := hd
        have := hless s left (by simp [atDistance, hs])
        omega
  · cases right with
    | nil =>
        cases left with
        | nil => simp at h
        | cons s left =>
            have htop : d = (distance age s : WithTop ℚ) := min_top_right _
            have := hless s left (by simp [atDistance, htop])
            omega
    | cons s right =>
        have hs : d = (distance age s : WithTop ℚ) := hd
        have := hless s right (by simp [atDistance, hs])
        omega

/-- The loop over the two sides; `left` has its nearest sample first. -/
def expand (age : ℚ) (wanted : ℤ) (left right : List Sample) (pool : Tally) : Tally :=
  if _h : pool.total < wanted ∧ (left ≠ [] ∨ right ≠ []) then
    let d := min (headDistance age left) (headDistance age right)
    expand age wanted (left.dropWhile (atDistance age d)) (right.dropWhile (atDistance age d))
      ((pool.add (pooled (left.takeWhile (atDistance age d)))).add (pooled (right.takeWhile (atDistance age d))))
  else pool
termination_by left.length + right.length
decreasing_by exact length_dropWhile_headDistance_lt _h.2

inductive RangeError where
  | invalidEvidence
  | invalidCount
deriving DecidableEq

/-- The checks on one sample. -/
def validSample (s : Sample) : Bool :=
  decide (s.2.total ≤ Number.maxSafeInteger) && decide (0 < s.2.total) && decide (0 ≤ s.2.valid) && decide (s.2.valid ≤ s.2.total)

def byAge (a b : Sample) : Bool := decide (a.1 ≤ b.1)

def validityShareNearAge (samples : List Sample) (age : ℚ) : Except RangeError Tally :=
  if !samples.all validSample then .error .invalidEvidence
  else
    let datedRuns := (pooled samples).total
    if Number.maxSafeInteger < datedRuns then .error .invalidCount
    else if datedRuns = 0 then .ok ⟨0, 0⟩
    else
      let ordered := if samples.IsChain (fun a b => a.1 ≤ b.1) then samples else samples.mergeSort byAge
      let lo := lowerBound ordered age 0 ordered.length
      .ok (expand age (ceilSqrt datedRuns.toNat) (ordered.take lo).reverse (ordered.drop lo) ⟨0, 0⟩)

/-! ### Pools -/

theorem pooled_append (a b : List Sample) : pooled (a ++ b) = (pooled a).add (pooled b) := by
  simp [pooled, Tally.add]

theorem pooled_perm {a b : List Sample} (h : a.Perm b) : pooled a = pooled b := by
  unfold pooled
  rw [(h.map _).sum_eq, (h.map (·.2.total)).sum_eq]

theorem Tally.add_assoc (a b c : Tally) : (a.add b).add c = a.add (b.add c) := by
  simp only [Tally.add, Int.add_assoc]

/-- The runs of the samples within a distance. -/
def within (age : ℚ) (samples : List Sample) (d : ℚ) : Tally :=
  pooled (samples.filter fun s => distance age s ≤ d)

theorem within_perm {age : ℚ} {a b : List Sample} (h : a.Perm b) (d : ℚ) : within age a d = within age b d :=
  pooled_perm (h.filter _)

theorem within_append (age : ℚ) (a b : List Sample) (d : ℚ) :
    within age (a ++ b) d = (within age a d).add (within age b d) := by
  rw [within, List.filter_append, pooled_append]
  rfl

theorem within_of_forall_le {age : ℚ} {samples : List Sample} {d : ℚ} (h : ∀ s ∈ samples, distance age s ≤ d) :
    within age samples d = pooled samples := by
  rw [within, List.filter_eq_self.mpr fun s hs => decide_eq_true (h s hs)]

theorem within_of_forall_lt {age : ℚ} {samples : List Sample} {d : ℚ} (h : ∀ s ∈ samples, d < distance age s) :
    within age samples d = pooled [] := by
  rw [within, List.filter_eq_nil_iff.mpr fun s hs => by simpa using h s hs]

/-- The least distance of a sample within which there are as many runs as needed. -/
structure Ball (age : ℚ) (samples : List Sample) (need : ℤ) (d : ℚ) : Prop where
  mem : d ∈ samples.map (distance age)
  enough : need ≤ (within age samples d).total
  least : ∀ d' ∈ samples.map (distance age), need ≤ (within age samples d').total → d ≤ d'

theorem Ball.perm {age : ℚ} {a b : List Sample} {need : ℤ} {d : ℚ} (h : Ball age a need d) (hperm : a.Perm b) :
    Ball age b need d := by
  refine ⟨(hperm.map _).subset h.mem, ?_, ?_⟩
  · rw [← within_perm hperm]
    exact h.enough
  · intro d' hd' henough
    rw [← within_perm hperm] at henough
    exact h.least d' ((hperm.map _).symm.subset hd') henough

/-! ### One round of the loop -/

abbrev Nearest (age : ℚ) (l : List Sample) : Prop := l.Pairwise fun a b => distance age a ≤ distance age b

/-- The group at the least distance of a list, nearest first, is at its beginning. -/
theorem group_spec {age : ℚ} {l : List Sample} {d : ℚ} (hsorted : Nearest age l) (hge : ∀ s ∈ l, d ≤ distance age s) :
    (∀ s ∈ l.takeWhile (atDistance age d), distance age s = d) ∧
      (∀ s ∈ l.dropWhile (atDistance age d), d < distance age s) ∧ Nearest age (l.dropWhile (atDistance age d)) := by
  have hat : ∀ s, atDistance age d s = true ↔ distance age s = d := by
    intro s
    rw [atDistance, decide_eq_true_eq, WithTop.coe_inj]
  have hdrop : Nearest age (l.dropWhile (atDistance age d)) := hsorted.sublist (List.dropWhile_sublist _)
  refine ⟨fun s hs => (hat s).mp (List.mem_takeWhile_imp hs), ?_, hdrop⟩
  cases hl : l.dropWhile (atDistance age d) with
  | nil => exact fun s hs => nomatch hs
  | cons t rest =>
      have hhead := List.head_dropWhile_not (atDistance age d) (l := l) (by rw [hl]; exact List.cons_ne_nil _ _)
      simp only [hl, List.head_cons] at hhead
      have hne : distance age t ≠ d := fun heq => by rw [(hat t).mpr heq] at hhead; cases hhead
      have htmem : t ∈ l := (List.dropWhile_sublist (atDistance age d)).subset (by rw [hl]; exact List.mem_cons_self)
      have ht : d < distance age t := lt_of_le_of_ne (hge t htmem) (Ne.symm hne)
      rw [hl, Nearest, List.pairwise_cons] at hdrop
      intro s hs
      obtain rfl | hs := List.mem_cons.mp hs
      · exact ht
      · exact lt_of_lt_of_le ht (hdrop.1 s hs)

/-- The smaller of the two first distances is a distance, and the least one. -/
theorem exists_least_distance {age : ℚ} {left right : List Sample} (hleft : Nearest age left)
    (hright : Nearest age right) (h : left ≠ [] ∨ right ≠ []) :
    ∃ d : ℚ, min (headDistance age left) (headDistance age right) = d ∧ d ∈ (left ++ right).map (distance age) ∧
      ∀ s ∈ left ++ right, d ≤ distance age s := by
  have hhead : ∀ {l : List Sample}, Nearest age l → ∀ s ∈ l, headDistance age l ≤ (distance age s : WithTop ℚ) := by
    intro l hl s hs
    cases l with
    | nil => cases hs
    | cons t l =>
        change (distance age t : WithTop ℚ) ≤ _
        rw [WithTop.coe_le_coe]
        obtain rfl | hs := List.mem_cons.mp hs
        · exact le_rfl
        · exact (List.pairwise_cons.mp hl).1 s hs
  have hex : ∃ d : ℚ, min (headDistance age left) (headDistance age right) = d ∧ d ∈ (left ++ right).map (distance age) := by
    obtain hd | hd := min_choice (headDistance age left) (headDistance age right)
    · cases left with
      | nil =>
          cases right with
          | nil => simp at h
          | cons s right => exact ⟨distance age s, min_top_left _, by simp⟩
      | cons s left => exact ⟨distance age s, hd, by simp⟩
    · cases right with
      | nil =>
          cases left with
          | nil => simp at h
          | cons s left => exact ⟨distance age s, min_top_right _, by simp⟩
      | cons s right => exact ⟨distance age s, hd, by simp⟩
  obtain ⟨d, hd, hmem⟩ := hex
  refine ⟨d, hd, hmem, fun s hs => ?_⟩
  rw [← WithTop.coe_le_coe, ← hd]
  obtain hs | hs := List.mem_append.mp hs
  · exact (min_le_left _ _).trans (hhead hleft s hs)
  · exact (min_le_right _ _).trans (hhead hright s hs)

/-- A ball of the samples that are left after a whole group is one of all. -/
theorem Ball.of_rest {age : ℚ} {samples group rest : List Sample} {need : ℤ} {d₀ d : ℚ}
    (hperm : samples.Perm (group ++ rest)) (hgroup : ∀ s ∈ group, distance age s = d₀)
    (hrest : ∀ s ∈ rest, d₀ < distance age s) (hneed : (pooled group).total < need)
    (h : Ball age rest (need - (pooled group).total) d) :
    Ball age samples need d ∧ within age samples d = (pooled group).add (within age rest d) := by
  obtain ⟨s, hs, rfl⟩ := List.mem_map.mp h.mem
  have hsplit : ∀ d', d₀ ≤ d' → within age samples d' = (pooled group).add (within age rest d') := by
    intro d' hd'
    rw [within_perm hperm, within_append, within_of_forall_le fun t ht => (hgroup t ht).le.trans hd']
  have hwithin := hsplit _ (hrest s hs).le
  refine ⟨⟨?_, ?_, ?_⟩, hwithin⟩
  · exact (hperm.map _).symm.subset (List.mem_map_of_mem (List.mem_append_right _ hs))
  · have henough := h.enough
    rw [hwithin]
    change need ≤ (pooled group).total + _
    omega
  · intro d' hd' henough
    obtain ⟨t, ht, rfl⟩ := List.mem_map.mp hd'
    obtain htg | htr := List.mem_append.mp (hperm.subset ht)
    · -- within the distance of the group there is only the group
      rw [hgroup t htg, within_perm hperm, within_append, within_of_forall_le fun u hu => (hgroup u hu).le,
        within_of_forall_lt hrest] at henough
      change need ≤ (pooled group).total + 0 at henough
      omega
    · apply h.least _ (List.mem_map_of_mem htr)
      rw [hsplit _ (hrest t htr).le] at henough
      change need ≤ (pooled group).total + _ at henough
      omega

/-- The loop pools a ball of what is left on the two sides. -/
theorem expand_spec (age : ℚ) (wanted : ℤ) (left right : List Sample) (pool : Tally) (hleft : Nearest age left)
    (hright : Nearest age right) (hpool : pool.total < wanted)
    (henough : wanted ≤ pool.total + (pooled (left ++ right)).total) :
    ∃ d, Ball age (left ++ right) (wanted - pool.total) d ∧
      expand age wanted left right pool = pool.add (within age (left ++ right) d) := by
  fun_induction expand age wanted left right pool with
  | case2 left right pool hstop =>
      have hnil : left = [] ∧ right = [] := by
        by_contra hne
        exact hstop ⟨hpool, by tauto⟩
      rw [hnil.1, hnil.2] at henough
      simp only [List.append_nil, pooled, List.map_nil, List.sum_nil, add_zero] at henough
      omega
  | case1 left right pool hgo d ih =>
      obtain ⟨d₀, hd₀, hmem, hge⟩ := exists_least_distance hleft hright hgo.2
      have hd : d = d₀ := hd₀
      rw [hd] at ih ⊢
      obtain ⟨hgl, hrl, hnl⟩ := group_spec hleft fun s hs => hge s (List.mem_append_left _ hs)
      obtain ⟨hgr, hrr, hnr⟩ := group_spec hright fun s hs => hge s (List.mem_append_right _ hs)
      let group := left.takeWhile (atDistance age d₀) ++ right.takeWhile (atDistance age d₀)
      let rest := left.dropWhile (atDistance age d₀) ++ right.dropWhile (atDistance age d₀)
      have hperm : (left ++ right).Perm (group ++ rest) := by
        have hl : left = left.takeWhile (atDistance age d₀) ++ left.dropWhile (atDistance age d₀) :=
          List.takeWhile_append_dropWhile.symm
        have hr : right = right.takeWhile (atDistance age d₀) ++ right.dropWhile (atDistance age d₀) :=
          List.takeWhile_append_dropWhile.symm
        conv_lhs => rw [hl, hr]
        simp only [group, rest, List.append_assoc]
        apply List.Perm.append_left
        rw [← List.append_assoc, ← List.append_assoc]
        exact List.perm_append_comm.append_right _
      have hgroup : ∀ s ∈ group, distance age s = d₀ := by
        intro s hs
        obtain hs | hs := List.mem_append.mp hs
        · exact hgl s hs
        · exact hgr s hs
      have hrest : ∀ s ∈ rest, d₀ < distance age s := by
        intro s hs
        obtain hs | hs := List.mem_append.mp hs
        · exact hrl s hs
        · exact hrr s hs
      have hpooled : (pool.add (pooled (left.takeWhile (atDistance age d₀)))).add
          (pooled (right.takeWhile (atDistance age d₀))) = pool.add (pooled group) := by
        rw [Tally.add_assoc, ← pooled_append]
      rw [hpooled] at ih ⊢
      have htotal : (pool.add (pooled group)).total = pool.total + (pooled group).total := rfl
      by_cases hdone : wanted ≤ pool.total + (pooled group).total
      · -- the group is enough
        have hstop : expand age wanted (left.dropWhile (atDistance age d₀)) (right.dropWhile (atDistance age d₀))
            (pool.add (pooled group)) = pool.add (pooled group) := by
          rw [expand, dif_neg]
          rw [htotal]
          omega
        have hwithin : within age (left ++ right) d₀ = pooled group := by
          rw [within_perm hperm, within_append, within_of_forall_le fun s hs => (hgroup s hs).le,
            within_of_forall_lt hrest, ← pooled_append, List.append_nil]
        refine ⟨d₀, ⟨hmem, ?_, ?_⟩, ?_⟩
        · rw [hwithin]
          omega
        · intro d' hd' _
          obtain ⟨s, hs, rfl⟩ := List.mem_map.mp hd'
          exact hge s hs
        · rw [hstop, hwithin]
      · have hleftover : (pooled (left ++ right)).total = (pooled group).total + (pooled rest).total := by
          rw [pooled_perm hperm, pooled_append]
          rfl
        obtain ⟨d', hball, hexpand⟩ := ih hnl hnr (by rw [htotal]; omega) (by rw [htotal]; change wanted ≤ _ + (pooled rest).total; omega)
        have hball' : Ball age rest (wanted - pool.total - (pooled group).total) d' := by
          have hneed : wanted - pool.total - (pooled group).total = wanted - (pool.add (pooled group)).total := by
            rw [htotal]
            omega
          rw [hneed]
          exact hball
        obtain ⟨hwhole, hwithin⟩ := Ball.of_rest hperm hgroup hrest (by omega) hball'
        refine ⟨d', hwhole, ?_⟩
        rw [hexpand, hwithin, Tally.add_assoc]

/-! ### The two sides -/

abbrev Ascending (l : List Sample) : Prop := l.Pairwise fun a b => a.1 ≤ b.1

/-- The binary search ends where the samples stop to be younger. -/
theorem lowerBound_spec {ordered : List Sample} {age : ℚ} (hsorted : Ascending ordered) (lo hi : ℕ) (hhi : hi ≤ ordered.length)
    (hbelow : ∀ s ∈ ordered.take lo, s.1 < age) (habove : ∀ s ∈ ordered.drop hi, age ≤ s.1) (hle : lo ≤ hi) :
    (∀ s ∈ ordered.take (lowerBound ordered age lo hi), s.1 < age) ∧
      ∀ s ∈ ordered.drop (lowerBound ordered age lo hi), age ≤ s.1 := by
  fun_induction lowerBound ordered age lo hi with
  | case1 lo hi hlt mid hnone =>
      rw [List.getElem?_eq_none_iff] at hnone
      omega
  | case2 lo hi hlt mid s hs hyounger ih =>
      refine ih hhi ?_ habove (by omega)
      obtain ⟨hmid, rfl⟩ := List.getElem?_eq_some_iff.mp hs
      intro t ht
      rw [List.take_succ_eq_append_getElem hmid] at ht
      obtain ht | ht := List.mem_append.mp ht
      · refine lt_of_le_of_lt ?_ hyounger
        have hsplit := hsorted
        rw [← List.take_append_drop mid ordered, Ascending, List.pairwise_append] at hsplit
        exact hsplit.2.2 t ht _ (by rw [List.drop_eq_getElem_cons hmid]; exact List.mem_cons_self)
      · rw [List.mem_singleton.mp ht]
        exact hyounger
  | case3 lo hi hlt mid s hs holder ih =>
      refine ih (by omega) hbelow ?_ (by omega)
      obtain ⟨hmid, rfl⟩ := List.getElem?_eq_some_iff.mp hs
      have hdrop : Ascending (ordered.drop mid) := hsorted.sublist (List.drop_sublist _ _)
      rw [List.drop_eq_getElem_cons hmid, Ascending, List.pairwise_cons] at hdrop
      intro t ht
      rw [List.drop_eq_getElem_cons hmid] at ht
      obtain rfl | ht := List.mem_cons.mp ht
      · exact not_lt.mp holder
      · exact (not_lt.mp holder).trans (hdrop.1 t ht)
  | case4 lo hi hge =>
      have heq : lo = hi := by omega
      exact ⟨hbelow, heq ▸ habove⟩

theorem nearest_right {age : ℚ} {l : List Sample} (hsorted : Ascending l) (h : ∀ s ∈ l, age ≤ s.1) : Nearest age l := by
  apply hsorted.imp_of_mem
  intro a b ha hb hab
  unfold distance
  rw [abs_of_nonneg (sub_nonneg.mpr (h a ha)), abs_of_nonneg (sub_nonneg.mpr (h b hb))]
  linarith

theorem nearest_left {age : ℚ} {l : List Sample} (hsorted : Ascending l) (h : ∀ s ∈ l, s.1 < age) :
    Nearest age l.reverse := by
  rw [Nearest, List.pairwise_reverse]
  apply hsorted.imp_of_mem
  intro a b ha hb hab
  unfold distance
  rw [abs_of_neg (sub_neg.mpr (h a ha)), abs_of_neg (sub_neg.mpr (h b hb))]
  linarith

theorem ordered_spec (samples : List Sample) :
    let ordered := if samples.IsChain (fun a b => a.1 ≤ b.1) then samples else samples.mergeSort byAge
    Ascending ordered ∧ ordered.Perm samples := by
  intro ordered
  by_cases hchain : samples.IsChain fun a b => a.1 ≤ b.1
  · have hordered : ordered = samples := if_pos hchain
    rw [hordered]
    have htrans : ∀ a b c : Sample, a.1 ≤ b.1 → b.1 ≤ c.1 → a.1 ≤ c.1 := fun _ _ _ h h' => h.trans h'
    have : IsTrans Sample fun a b => a.1 ≤ b.1 := ⟨htrans⟩
    exact ⟨hchain.pairwise, List.Perm.refl _⟩
  · have hordered : ordered = samples.mergeSort byAge := if_neg hchain
    rw [hordered]
    have hsorted := @List.pairwise_mergeSort _ byAge
      (fun a b c hab hbc => by simp only [byAge, decide_eq_true_eq] at *; exact hab.trans hbc)
      (fun a b => by simp only [byAge, Bool.or_eq_true, decide_eq_true_eq]; exact le_total a.1 b.1) samples
    exact ⟨hsorted.imp fun h => by simpa [byAge] using h, List.mergeSort_perm samples byAge⟩

/-! ### The number of runs wanted -/

/-- The least integer whose square is at least `n`, or one less where the root of `n` is rounded down to it. -/
def Wanted (n wanted : ℕ) : Prop :=
  if 2 ^ 26 ≤ n.sqrt ∧ n = n.sqrt * n.sqrt + 1 then wanted = n.sqrt else IsLeast {m | n ≤ m * m} wanted

theorem Wanted.unique {n a b : ℕ} (ha : Wanted n a) (hb : Wanted n b) : a = b := by
  unfold Wanted at ha hb
  split at ha
  · rw [if_pos ‹_›] at hb
    rw [ha, hb]
  · rw [if_neg ‹_›] at hb
    exact ha.unique hb

/-- Which roots are rounded down to an integer. -/
theorem rounded_iff {n : ℕ} (hn : n < 2 ^ 53) (hsq : n ≠ n.sqrt * n.sqrt) :
    n * 2 ^ 106 < (n.sqrt * 2 ^ 53 + 2 ^ n.sqrt.log2) ^ 2 ↔ 2 ^ 26 ≤ n.sqrt ∧ n = n.sqrt * n.sqrt + 1 := by
  have hle : n.sqrt * n.sqrt ≤ n := Nat.sqrt_le n
  generalize hk : n.sqrt = k at *
  have hk0 : k ≠ 0 := by
    rintro rfl
    have := Nat.sqrt_eq_zero.mp hk
    omega
  have hexpand : (k * 2 ^ 53 + 2 ^ k.log2) ^ 2 = k * k * 2 ^ 106 + k * 2 ^ k.log2 * 2 ^ 54 + 2 ^ k.log2 * 2 ^ k.log2 := by ring
  rw [hexpand]
  have hklt : k < 94906266 := by
    by_contra hge
    have : 94906266 * 94906266 ≤ k * k := Nat.mul_le_mul (by omega) (by omega)
    omega
  have hhigh : 2 ^ k.log2 ≤ k := Nat.log2_self_le hk0
  by_cases hbig : 2 ^ 26 ≤ k
  · have hlog : k.log2 = 26 := by
      rw [Nat.log2_eq_iff hk0]
      omega
    rw [hlog]
    omega
  · have hsmall : 2 ^ k.log2 ≤ 2 ^ 25 := by
      apply Nat.pow_le_pow_right (by decide)
      have := (Nat.log2_lt hk0).mpr (by omega : k < 2 ^ 26)
      omega
    have hprod : k * 2 ^ k.log2 ≤ 2 ^ 26 * 2 ^ 25 := Nat.mul_le_mul (by omega) hsmall
    have hprod' : 2 ^ k.log2 * 2 ^ k.log2 ≤ 2 ^ 25 * 2 ^ 25 := Nat.mul_le_mul hsmall hsmall
    constructor
    · intro hlt
      omega
    · intro h
      omega

theorem ceilSqrt_spec {n : ℕ} (hn : n < 2 ^ 53) : Wanted n (ceilSqrt n) := by
  have hle : n.sqrt * n.sqrt ≤ n := Nat.sqrt_le n
  have hlt : n < (n.sqrt + 1) * (n.sqrt + 1) := Nat.lt_succ_sqrt n
  have hleast : ∀ k, n ≤ k * k → (∀ j, j < k → j * j < n) → IsLeast {m | n ≤ m * m} k := by
    refine fun k hk hj => ⟨hk, fun m hm => ?_⟩
    by_contra hmk
    have := hj m (not_le.mp hmk)
    have hm' : n ≤ m * m := hm
    omega
  unfold Wanted ceilSqrt
  by_cases hsq : n = n.sqrt * n.sqrt
  · rw [if_pos (Or.inl hsq), if_neg (by omega)]
    refine hleast _ hsq.le fun j hj => ?_
    rw [hsq]
    exact Nat.mul_lt_mul'' hj hj
  · by_cases hround : n * 2 ^ 106 < (n.sqrt * 2 ^ 53 + 2 ^ n.sqrt.log2) ^ 2
    · rw [if_pos (Or.inr hround), if_pos ((rounded_iff hn hsq).mp hround)]
    · rw [if_neg (not_or.mpr ⟨hsq, hround⟩), if_neg (fun h => hround ((rounded_iff hn hsq).mpr h))]
      refine hleast _ hlt.le fun j hj => ?_
      have : j * j ≤ n.sqrt * n.sqrt := Nat.mul_le_mul (by omega) (by omega)
      omega

theorem ceilSqrt_bounds {n : ℕ} (hn : 0 < n) : 0 < ceilSqrt n ∧ ceilSqrt n ≤ n := by
  have hle : n.sqrt * n.sqrt ≤ n := Nat.sqrt_le n
  have hpos : 0 < n.sqrt := Nat.sqrt_pos.mpr hn
  have hself : n.sqrt ≤ n.sqrt * n.sqrt := Nat.le_mul_self _
  unfold ceilSqrt
  dsimp only
  split_ifs <;> omega

/-! ### The ball -/

theorem Ball.unique {age : ℚ} {samples : List Sample} {need : ℤ} {d d' : ℚ} (h : Ball age samples need d)
    (h' : Ball age samples need d') : d = d' :=
  le_antisymm (h.least d' h'.mem h'.enough) (h'.least d h.mem h.enough)

/-- The samples are accepted. -/
def Accepted (samples : List Sample) : Prop :=
  (∀ s ∈ samples, validSample s = true) ∧ (pooled samples).total ≤ Number.maxSafeInteger

theorem Accepted.perm {a b : List Sample} (h : Accepted a) (hperm : a.Perm b) : Accepted b :=
  ⟨fun s hs => h.1 s (hperm.symm.subset hs), pooled_perm hperm ▸ h.2⟩

theorem Accepted.total_pos {samples : List Sample} (h : Accepted samples) (hne : samples ≠ []) :
    0 < (pooled samples).total := by
  have hpos : ∀ t ∈ samples.map (·.2.total), 0 < t := by
    intro t ht
    obtain ⟨s, hs, rfl⟩ := List.mem_map.mp ht
    have hvalid := h.1 s hs
    simp only [validSample, Bool.and_eq_true, decide_eq_true_eq] at hvalid
    exact hvalid.1.1.2
  exact List.sum_pos _ hpos (by simpa using hne)

theorem nearAge_eq {samples : List Sample} (age : ℚ) (h : Accepted samples) (hne : samples ≠ []) :
    ∃ wanted d, Wanted (pooled samples).total.toNat wanted ∧ Ball age samples wanted d ∧
      validityShareNearAge samples age = .ok (within age samples d) := by
  have hpos := h.total_pos hne
  have hcount := h.2
  obtain ⟨hsorted, hperm⟩ := ordered_spec samples
  generalize hordered : (if samples.IsChain (fun a b => a.1 ≤ b.1) then samples else samples.mergeSort byAge) = ordered
    at hsorted hperm
  obtain ⟨hbelow, habove⟩ := @lowerBound_spec ordered age hsorted 0 ordered.length le_rfl (fun s hs => by simp at hs)
    (fun s hs => by simp at hs) (Nat.zero_le _)
  generalize hlo : lowerBound ordered age 0 ordered.length = lo at hbelow habove
  have hleft := nearest_left (hsorted.sublist (List.take_sublist lo ordered)) hbelow
  have hright := nearest_right (hsorted.sublist (List.drop_sublist lo ordered)) habove
  have hsides : ((ordered.take lo).reverse ++ ordered.drop lo).Perm samples := by
    refine ((List.reverse_perm _).append_right _).trans ?_
    rw [List.take_append_drop]
    exact hperm
  obtain ⟨hwanted0, hwantedN⟩ := ceilSqrt_bounds (by omega : 0 < (pooled samples).total.toNat)
  obtain ⟨d, hball, hexpand⟩ := expand_spec age (ceilSqrt (pooled samples).total.toNat) _ _ ⟨0, 0⟩ hleft hright
    (by simpa using hwanted0) (by rw [pooled_perm hsides]; simp only [zero_add]; omega)
  refine ⟨_, d, ceilSqrt_spec (by unfold Number.maxSafeInteger at hcount; omega), ?_, ?_⟩
  · have hball' := hball.perm hsides
    simpa using hball'
  · have hall : samples.all validSample = true := List.all_eq_true.mpr h.1
    unfold validityShareNearAge
    simp only [hall, Bool.not_true, Bool.false_eq_true, if_false, hordered, hlo]
    rw [if_neg (not_lt.mpr hcount), if_neg (by omega : (pooled samples).total ≠ 0), hexpand, within_perm hsides]
    simp [Tally.add]

/-- Every accepted list of samples, whatever its order: what is pooled are the samples within a distance, the least
one of a sample within which there are as many runs as wanted. -/
theorem nearAge_ball (samples : List Sample) (age : ℚ) (h : Accepted samples) :
    (samples = [] → validityShareNearAge samples age = .ok ⟨0, 0⟩) ∧
    (samples ≠ [] → ∃ wanted d, Wanted (pooled samples).total.toNat wanted ∧ Ball age samples wanted d ∧
      validityShareNearAge samples age = .ok (within age samples d)) ∧
    ∀ samples', samples.Perm samples' → validityShareNearAge samples' age = validityShareNearAge samples age := by
  have hnil : validityShareNearAge [] age = .ok ⟨0, 0⟩ := rfl
  refine ⟨fun he => he ▸ hnil, nearAge_eq age h, fun samples' hperm => ?_⟩
  by_cases hne : samples = []
  · subst hne
    rw [List.nil_perm.mp hperm]
  · have hne' : samples' ≠ [] := fun he => hne (by subst he; exact List.perm_nil.mp hperm)
    obtain ⟨wanted, d, hwanted, hball, heq⟩ := nearAge_eq age h hne
    obtain ⟨wanted', d', hwanted', hball', heq'⟩ := nearAge_eq age (h.perm hperm) hne'
    rw [← pooled_perm hperm] at hwanted'
    rw [hwanted'.unique hwanted] at hball'
    rw [heq, heq', hball'.unique (hball.perm hperm), within_perm hperm]

/-- Three runs at two ages, seen from between them. -/
theorem nearAge_ball_three_runs :
    let samples : List Sample := [(3, ⟨0, 1⟩), (1, ⟨1, 2⟩)]
    Accepted samples ∧ ∃ wanted d, Wanted 3 wanted ∧ Ball 2 samples wanted d ∧
      validityShareNearAge samples 2 = .ok (within 2 samples d) := by
  intro samples
  have haccepted : Accepted samples := by
    unfold Accepted
    decide
  exact ⟨haccepted, (nearAge_ball samples 2 haccepted).2.1 (List.cons_ne_nil _ _)⟩

/-- Of 2^52 + 1 runs at two distances the nearer 2^26 are pooled alone, and the square of that is one less. -/
theorem nearAge_root_rounded_down :
    let samples : List Sample := [(0, ⟨0, 2 ^ 26⟩), (1, ⟨0, 2 ^ 52 + 1 - 2 ^ 26⟩)]
    Accepted samples ∧ ¬∃ wanted d, IsLeast {m : ℕ | (pooled samples).total.toNat ≤ m * m} wanted ∧
      Ball 0 samples wanted d ∧ validityShareNearAge samples 0 = .ok (within 0 samples d) := by
  intro samples
  have haccepted : Accepted samples := by
    unfold Accepted
    decide
  have htotal : (pooled samples).total.toNat = 2 ^ 52 + 1 := by decide
  have hroot : (2 ^ 52 + 1).sqrt = 2 ^ 26 := (Nat.eq_sqrt.mpr (by norm_num)).symm
  have hnear : ∀ s : Sample, distance 0 s = |s.1| := fun s => by rw [distance, sub_zero]
  have hdistances : samples.map (distance 0) = [0, 1] := by simp [samples, hnear]
  have hat0 : within 0 samples 0 = ⟨0, 2 ^ 26⟩ := by
    have hfilter : samples.filter (fun s => distance 0 s ≤ 0) = [(0, ⟨0, 2 ^ 26⟩)] := by
      simp [samples, hnear]
    rw [within, hfilter]
    rfl
  refine ⟨haccepted, ?_⟩
  rintro ⟨wanted, d, hleast, hball, heq⟩
  obtain ⟨wanted', d', hwanted', hball', heq'⟩ := (nearAge_ball samples 0 haccepted).2.1 (List.cons_ne_nil _ _)
  rw [htotal] at hleast hwanted'
  rw [Wanted, hroot, if_pos (by norm_num)] at hwanted'
  have hsame : within 0 samples d' = within 0 samples d := Except.ok.inj (heq'.symm.trans heq)
  -- the code stops at distance 0
  have hd' : d' = 0 := by
    have hle := hball'.least 0 (by rw [hdistances]; simp) (by rw [hat0, hwanted']; norm_num)
    have hmem := hball'.mem
    rw [hdistances] at hmem
    simp only [List.mem_cons, List.not_mem_nil, or_false] at hmem
    obtain h | h := hmem
    · exact h
    · rw [h] at hle
      norm_num at hle
  -- and one more run is wanted
  have hwanted : 2 ^ 26 < wanted := by
    by_contra hge
    have hle : wanted ≤ 2 ^ 26 := not_lt.mp hge
    have hsq : wanted * wanted ≤ 2 ^ 26 * 2 ^ 26 := Nat.mul_le_mul hle hle
    have henough : 2 ^ 52 + 1 ≤ wanted * wanted := hleast.1
    omega
  have henough := hball.enough
  rw [← hsame, hd', hat0] at henough
  have : ((2 ^ 26 : ℕ) : ℤ) < wanted := by exact_mod_cast hwanted
  norm_num at henough this
  omega

end Remudero.Dispatch.NearAge
