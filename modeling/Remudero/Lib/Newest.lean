import Remudero.Lib.Record

/-! # The newest wins

`newest` goes through a list and holds the element with the greatest stamp, the first one of several.  What it
holds depends on the set of the elements only, as far as equal greatest stamps agree (`newest_congr`), and
on the order where they do not (`newest_cons_of_le`).  A table that is updated so, key by key, holds the newest
element of each key (`get?_foldl_upsert`).

`top n A` is the set of the `n` greatest elements.  A set that was cut back to them on the way and grew in between
has them at the end (`top_eq_of_between`).  `trim` cuts a list of rows back to them, at the row that sorting puts
in the last place that is kept. -/

namespace Remudero.Lib

/-! ### One element -/

section newest

variable {α β S : Type*} [LinearOrder S] (stamp : α → S)

def newer (held : Option α) (a : α) : Option α :=
  match held with
  | none => some a
  | some b => if stamp b < stamp a then some a else some b

def newest (l : List α) : Option α := l.foldl (newer stamp) none

variable {stamp}

theorem newest_concat (l : List α) (a : α) : newest stamp (l ++ [a]) = newer stamp (newest stamp l) a := by
  rw [newest, List.foldl_append]
  rfl

theorem newer_map {T : Type*} [LinearOrder T] {stamp' : β → T} {f : α → β}
    (h : ∀ a b, stamp' (f a) < stamp' (f b) ↔ stamp a < stamp b) (held : Option α) (a : α) :
    newer stamp' (held.map f) (f a) = (newer stamp held a).map f := by
  cases held with
  | none => rfl
  | some b =>
      by_cases hlt : stamp b < stamp a
      · simp [newer, h, hlt]
      · simp [newer, h, hlt]

theorem newest_eq_none {l : List α} : newest stamp l = none ↔ l = [] := by
  induction l using List.reverseRecOn with
  | nil => simp [newest]
  | append_singleton l a _ =>
      rw [newest_concat]
      cases newest stamp l with
      | none => simp [newer]
      | some b => by_cases hlt : stamp b < stamp a <;> simp [newer, hlt]

theorem newest_spec {l : List α} {a : α} (h : newest stamp l = some a) : a ∈ l ∧ ∀ b ∈ l, stamp b ≤ stamp a := by
  induction l using List.reverseRecOn generalizing a with
  | nil => cases h
  | append_singleton l c ih =>
      rw [newest_concat] at h
      cases hl : newest stamp l with
      | none =>
          rw [hl] at h
          obtain rfl := Option.some.inj h
          rw [newest_eq_none.mp hl]
          simp
      | some b =>
          obtain ⟨hb, hmax⟩ := ih hl
          simp only [hl, newer] at h
          split at h
          · next hlt =>
              obtain rfl := Option.some.inj h
              refine ⟨by simp, fun d hd => ?_⟩
              obtain hd | hd := List.mem_append.mp hd
              · exact (hmax d hd).trans hlt.le
              · rw [List.mem_singleton.mp hd]
          · next hlt =>
              obtain rfl := Option.some.inj h
              refine ⟨List.mem_append_left _ hb, fun d hd => ?_⟩
              obtain hd | hd := List.mem_append.mp hd
              · exact hmax d hd
              · rw [List.mem_singleton.mp hd]
                exact not_lt.mp hlt

/-- The first element stays if nothing is newer. -/
theorem newest_cons_of_le {a : α} {l : List α} (h : ∀ b ∈ l, stamp b ≤ stamp a) : newest stamp (a :: l) = some a := by
  induction l using List.reverseRecOn with
  | nil => rfl
  | append_singleton l b ih =>
      have hb : ¬stamp a < stamp b := not_lt.mpr (h b (by simp))
      rw [← List.cons_append, newest_concat, ih fun c hc => h c (List.mem_append_left _ hc)]
      exact if_neg hb

/-- The same elements in any order and number, where the greatest ones agree. -/
theorem newest_congr {l l' : List α} (f : α → β) (hmem : ∀ a, a ∈ l ↔ a ∈ l')
    (hagree : ∀ a ∈ l, ∀ b ∈ l, stamp a = stamp b → (∀ c ∈ l, stamp c ≤ stamp a) → f a = f b) :
    (newest stamp l).map f = (newest stamp l').map f := by
  cases hl : newest stamp l with
  | none =>
      have hnil : l' = [] := by
        rw [newest_eq_none.mp hl] at hmem
        exact List.eq_nil_iff_forall_not_mem.mpr fun a ha => by simpa using (hmem a).mpr ha
      rw [newest_eq_none.mpr hnil]
  | some a =>
      obtain ⟨ha, hmax⟩ := newest_spec hl
      cases hl' : newest stamp l' with
      | none =>
          rw [hmem, newest_eq_none.mp hl'] at ha
          cases ha
      | some b =>
          obtain ⟨hb, hmax'⟩ := newest_spec hl'
          have hstamp : stamp a = stamp b := le_antisymm (hmax' a ((hmem a).mp ha)) (hmax b ((hmem b).mpr hb))
          rw [Option.map_some, Option.map_some, hagree a ha b ((hmem b).mpr hb) hstamp hmax]

end newest

/-! ### A table -/

section table

variable {κ α β S ρ : Type*} [DecidableEq κ] [LinearOrder S] {stamp : α → S}

/-- `INSERT … ON CONFLICT DO UPDATE … WHERE` the new row is newer. -/
def upsertNewer (stamp : α → S) (t : Record κ α) (k : κ) (v : α) : Record κ α :=
  match t.get? k with
  | some held => if stamp held < stamp v then t.set k v else t
  | none => t.set k v

theorem get?_upsertNewer_self (t : Record κ α) (k : κ) (v : α) :
    (upsertNewer stamp t k v).get? k = newer stamp (t.get? k) v := by
  unfold upsertNewer
  cases hget : t.get? k with
  | none => exact Record.get?_set_self _ _ _
  | some held =>
      by_cases hlt : stamp held < stamp v
      · simp [newer, hlt, Record.get?_set_self]
      · simp [newer, hlt, hget]

theorem get?_upsertNewer_of_ne (t : Record κ α) {k k' : κ} (v : α) (h : k' ≠ k) :
    (upsertNewer stamp t k v).get? k' = t.get? k' := by
  unfold upsertNewer
  split
  · split
    · exact Record.get?_set_of_ne _ _ h
    · rfl
  · exact Record.get?_set_of_ne _ _ h

/-- The elements of a key. -/
def ofKey (k : κ) (pairs : List (κ × α)) : List α := (pairs.filter fun p => p.1 = k).map Prod.snd

theorem mem_ofKey {k : κ} {pairs : List (κ × α)} {a : α} : a ∈ ofKey k pairs ↔ (k, a) ∈ pairs := by
  simp [ofKey]

theorem ofKey_concat (k : κ) (pairs : List (κ × α)) (p : κ × α) :
    ofKey k (pairs ++ [p]) = if p.1 = k then ofKey k pairs ++ [p.2] else ofKey k pairs := by
  by_cases hk : p.1 = k
  · simp [ofKey, hk]
  · simp [ofKey, hk]

/-- A table that holds, for each key, the newest element.  `entry` is what a row says, `step` how the table is changed by
it, and `element` the element in a value, if there is one. -/
theorem get?_foldl_newest {step : Record κ β → ρ → Record κ β} {entry : ρ → Option (κ × α)} {element : β → Option α}
    (hnone : ∀ t r k, entry r = none → ((step t r).get? k).bind element = (t.get? k).bind element)
    (hother : ∀ t r p k, entry r = some p → k ≠ p.1 → (step t r).get? k = t.get? k)
    (hself : ∀ t r p, entry r = some p →
      ((step t r).get? p.1).bind element = newer stamp ((t.get? p.1).bind element) p.2)
    (rows : List ρ) (k : κ) :
    ((rows.foldl step ∅).get? k).bind element = newest stamp (ofKey k (rows.filterMap entry)) := by
  induction rows using List.reverseRecOn with
  | nil => rfl
  | append_singleton rows r ih =>
      rw [List.foldl_append, List.foldl_cons, List.foldl_nil, List.filterMap_append]
      cases hentry : entry r with
      | none => rw [hnone _ r k hentry, List.filterMap_cons_none hentry, List.filterMap_nil, List.append_nil, ih]
      | some p =>
          rw [List.filterMap_cons_some hentry, List.filterMap_nil, ofKey_concat]
          by_cases hk : p.1 = k
          · subst hk
            rw [if_pos rfl, hself _ r p hentry, ih, newest_concat]
          · rw [if_neg hk, hother _ r p k hentry (Ne.symm hk), ih]

end table

/-! ### The greatest elements of a set -/

section top

variable {α : Type*} [LinearOrder α]

/-- The elements with fewer than `n` greater ones. -/
def top (n : ℕ) (A : Finset α) : Finset α := A.filter fun a => (A.filter fun b => a < b).card < n

theorem mem_top {n : ℕ} {A : Finset α} {a : α} : a ∈ top n A ↔ a ∈ A ∧ (A.filter fun b => a < b).card < n := by
  rw [top, Finset.mem_filter]

theorem top_subset (n : ℕ) (A : Finset α) : top n A ⊆ A := Finset.filter_subset _ _

/-- More elements push out only. -/
theorem mem_top_of_subset {n : ℕ} {A B : Finset α} (h : A ⊆ B) {a : α} (ha : a ∈ A) (htop : a ∈ top n B) : a ∈ top n A := by
  refine mem_top.mpr ⟨ha, lt_of_le_of_lt ?_ (mem_top.mp htop).2⟩
  exact Finset.card_le_card (Finset.filter_subset_filter _ h)

theorem top_insert_max {n : ℕ} {A : Finset α} {a : α} (h : ∀ x ∈ A, x < a) : insert a (top n A) ⊆ top (n + 1) (insert a A) := by
  intro x hx
  obtain rfl | hx := Finset.mem_insert.mp hx
  · refine mem_top.mpr ⟨Finset.mem_insert_self _ _, ?_⟩
    have hempty : (insert x A).filter (fun b => x < b) = ∅ := by
      refine Finset.filter_eq_empty_iff.mpr fun b hb => ?_
      obtain rfl | hb := Finset.mem_insert.mp hb
      · exact lt_irrefl b
      · exact (h b hb).asymm
    rw [hempty, Finset.card_empty]
    exact Nat.succ_pos n
  · obtain ⟨hxA, hcard⟩ := mem_top.mp hx
    refine mem_top.mpr ⟨Finset.mem_insert_of_mem hxA, ?_⟩
    rw [Finset.filter_insert, if_pos (h x hxA)]
    exact lt_of_le_of_lt (Finset.card_insert_le _ _) (Nat.succ_lt_succ hcard)

theorem min_le_card_top (n : ℕ) (A : Finset α) : min n A.card ≤ (top n A).card := by
  induction A using Finset.induction_on_max generalizing n with
  | empty => simp
  | insert a A h ih =>
      cases n with
      | zero => simp
      | succ n =>
          have hfresh : a ∉ A := fun ha => lt_irrefl a (h a ha)
          have hfresh' : a ∉ top n A := fun ha => hfresh (top_subset n A ha)
          have hle := Finset.card_le_card (top_insert_max (n := n) h)
          rw [Finset.card_insert_of_notMem hfresh'] at hle
          rw [Finset.card_insert_of_notMem hfresh]
          have hmin := ih n
          omega

/-- What lies between the greatest elements and the whole set has the same greatest elements. -/
theorem top_eq_of_between {n : ℕ} {A R : Finset α} (htop : top n A ⊆ R) (hsub : R ⊆ A) : top n R = top n A := by
  apply Finset.Subset.antisymm
  · intro a ha
    obtain ⟨haR, hcard⟩ := mem_top.mp ha
    refine mem_top.mpr ⟨hsub haR, ?_⟩
    by_contra hmany
    -- all the greatest elements of `A` are greater than `a`, and in `R`
    have habove : top n A ⊆ R.filter fun b => a < b := by
      intro t ht
      refine Finset.mem_filter.mpr ⟨htop ht, ?_⟩
      by_contra hle
      have hmore := Finset.card_le_card (Finset.monotone_filter_right A (p := fun b => a < b) (q := fun b => t < b)
        fun b _ hb => lt_of_le_of_lt (not_lt.mp hle) hb)
      have hfew := (mem_top.mp ht).2
      omega
    have hfull : n ≤ (top n A).card := by
      have hmin := min_le_card_top n A
      have hcardA := Finset.card_le_card (Finset.filter_subset (fun b => a < b) A)
      omega
    have hle := Finset.card_le_card habove
    omega
  · intro a ha
    exact mem_top_of_subset hsub (htop ha) ha

/-! ### Cutting a list of rows back -/

variable {ρ : Type*}

/-- Drop the rows whose keys are below the `n`-th greatest one. -/
def trim (n : ℕ) (key : ρ → α) (rows : List ρ) : List ρ :=
  match ((rows.map key).mergeSort fun a b => b ≤ a)[n - 1]? with
  | none => rows
  | some cut => rows.filter fun r => cut ≤ key r

theorem pairwise_mergeSort_ge (l : List α) : (l.mergeSort fun a b => b ≤ a).Pairwise fun a b => b ≤ a := by
  have hsorted := @List.pairwise_mergeSort α (fun a b => decide (b ≤ a))
    (fun a b c hab hbc => by simp only [decide_eq_true_eq] at *; exact hbc.trans hab)
    (fun a b => by simp only [Bool.or_eq_true, decide_eq_true_eq]; exact le_total b a) l
  exact hsorted.imp fun h => of_decide_eq_true h

/-- In a sorted list, what is above the `n`-th place are the places before it. -/
theorem le_cut_iff {n : ℕ} (hn : 0 < n) {l : List α} (hnodup : l.Nodup) {cut : α}
    (hcut : (l.mergeSort fun a b => b ≤ a)[n - 1]? = some cut) {a : α} :
    cut ≤ a ↔ (l.toFinset.filter fun b => a < b).card < n := by
  have hperm := List.mergeSort_perm l fun a b => decide (b ≤ a)
  have hsorted := pairwise_mergeSort_ge l
  generalize hs : l.mergeSort (fun a b => decide (b ≤ a)) = sorted at hcut hperm hsorted
  have hset : l.toFinset = sorted.toFinset := List.toFinset_eq_of_perm _ _ hperm.symm
  have hnodup' : sorted.Nodup := hperm.nodup_iff.mpr hnodup
  obtain ⟨hlt, hget⟩ := List.getElem?_eq_some_iff.mp hcut
  constructor
  · intro hle
    have hsub : (l.toFinset.filter fun b => a < b) ⊆ (sorted.take (n - 1)).toFinset := by
      intro b hb
      obtain ⟨hb, hab⟩ := Finset.mem_filter.mp hb
      rw [hset, List.mem_toFinset] at hb
      obtain ⟨j, hj, rfl⟩ := List.getElem_of_mem hb
      rw [List.mem_toFinset, List.mem_take_iff_getElem]
      by_contra hout
      have hge : n - 1 ≤ j := by
        by_contra hlow
        exact hout ⟨j, by omega, rfl⟩
      have hbelow : sorted[j] ≤ cut := by
        rw [← hget]
        obtain heq | hlater := hge.eq_or_lt
        · simp [heq]
        · exact List.pairwise_iff_getElem.mp hsorted (n - 1) j hlt hj hlater
      exact absurd (hab.trans_le hbelow) (not_lt.mpr hle)
    have hcard := (Finset.card_le_card hsub).trans (List.toFinset_card_le _)
    rw [List.length_take] at hcard
    omega
  · intro hcard
    by_contra hlt'
    have hsub : (sorted.take n).toFinset ⊆ l.toFinset.filter fun b => a < b := by
      intro b hb
      rw [List.mem_toFinset, List.mem_take_iff_getElem] at hb
      obtain ⟨j, hj, rfl⟩ := hb
      rw [Finset.mem_filter, hset, List.mem_toFinset]
      refine ⟨List.getElem_mem _, lt_of_lt_of_le (not_le.mp hlt') ?_⟩
      rw [← hget]
      obtain heq | hlater := (show j ≤ n - 1 by omega).eq_or_lt
      · simp [heq]
      · exact List.pairwise_iff_getElem.mp hsorted j (n - 1) (by omega) hlt hlater
    have hle := Finset.card_le_card hsub
    rw [List.toFinset_card_of_nodup (hnodup'.sublist (List.take_sublist n sorted)), List.length_take] at hle
    omega

theorem mem_trim {n : ℕ} (hn : 0 < n) {key : ρ → α} {rows : List ρ} (hnodup : (rows.map key).Nodup) {r : ρ} :
    r ∈ trim n key rows ↔ r ∈ rows ∧ key r ∈ top n (rows.map key).toFinset := by
  rw [mem_top, List.mem_toFinset]
  have hmem : r ∈ rows → key r ∈ rows.map key := List.mem_map_of_mem
  unfold trim
  cases hcut : ((rows.map key).mergeSort fun a b => b ≤ a)[n - 1]? with
  | none =>
      have hfew : (rows.map key).length ≤ n - 1 := by
        rw [List.getElem?_eq_none_iff, List.length_mergeSort] at hcut
        exact hcut
      refine ⟨fun hr => ⟨hr, hmem hr, ?_⟩, And.left⟩
      have hcard := (Finset.card_filter_le (rows.map key).toFinset fun b => key r < b).trans (List.toFinset_card_le _)
      omega
  | some cut =>
      rw [List.mem_filter, decide_eq_true_eq, le_cut_iff hn hnodup hcut]
      exact ⟨fun ⟨hr, hcard⟩ => ⟨hr, hmem hr, hcard⟩, fun ⟨hr, _, hcard⟩ => ⟨hr, hcard⟩⟩

theorem trim_sublist (n : ℕ) (key : ρ → α) (rows : List ρ) : (trim n key rows).Sublist rows := by
  unfold trim
  split
  · exact List.Sublist.refl rows
  · exact List.filter_sublist

end top

end Remudero.Lib
