import Mathlib

/-! # Records

Association lists under assignment, and the records (JSON objects) they stand for.  `assign`
replaces the first entry of a key in place and adds a new key at the end.

* `entryOf_assign_self`, `entryOf_assign_of_ne`: reading back after an assignment.
* `sum_assign`: an assignment to a key that is there changes a sum over the entries by the new
  entry less the old one; `sum_assign_fresh` for a new key.
* `forall₂_assign`: every other entry stays where and what it is.
* `lastValue` is the last value that a list of pairs has for a key, and `get?_foldl_setSome` says that
  a record which is set pair by pair has that value.

`Record` carries the distinctness of its keys; two records with the same values have the same entries
in some order (`perm_of_get?`), and in the order of their keys the very same ones (`sortedByKey_eq_iff`). -/

namespace Remudero.Lib

variable {κ α : Type*} [DecidableEq κ]

/-- The value of the first entry of a key. -/
def entryOf (k : κ) : List (κ × α) → Option α
  | [] => none
  | e :: l => if e.1 = k then some e.2 else entryOf k l

@[simp] theorem entryOf_nil (k : κ) : entryOf k ([] : List (κ × α)) = none := rfl

theorem entryOf_cons_self (k : κ) (v : α) (l : List (κ × α)) :
    entryOf k ((k, v) :: l) = some v := by
  simp [entryOf]

theorem entryOf_cons_of_ne {k : κ} {e : κ × α} (l : List (κ × α)) (h : e.1 ≠ k) :
    entryOf k (e :: l) = entryOf k l := by
  simp [entryOf, h]

theorem mem_of_entryOf {k : κ} {v : α} {l : List (κ × α)} (h : entryOf k l = some v) :
    (k, v) ∈ l := by
  induction l with
  | nil => simp at h
  | cons e l ih =>
      by_cases he : e.1 = k
      · simp only [entryOf, he, if_true, Option.some.injEq] at h
        rw [← he, ← h]
        exact List.mem_cons_self
      · rw [entryOf_cons_of_ne l he] at h
        exact List.mem_cons_of_mem e (ih h)

theorem entryOf_of_mem {k : κ} {v : α} {l : List (κ × α)} (hnodup : (l.map Prod.fst).Nodup) (h : (k, v) ∈ l) :
    entryOf k l = some v := by
  induction l with
  | nil => cases h
  | cons e l ih =>
      rw [List.map_cons, List.nodup_cons] at hnodup
      obtain rfl | hl := List.mem_cons.mp h
      · exact entryOf_cons_self k v l
      · have hne : e.1 ≠ k := by
          intro he
          rw [he] at hnodup
          exact hnodup.1 (List.mem_map.mpr ⟨(k, v), hl, rfl⟩)
        rw [entryOf_cons_of_ne l hne]
        exact ih hnodup.2 hl

theorem notMem_keys_of_entryOf {k : κ} {l : List (κ × α)} (h : entryOf k l = none) :
    k ∉ l.map Prod.fst := by
  induction l with
  | nil => simp
  | cons e l ih =>
      by_cases he : e.1 = k
      · simp [entryOf, he] at h
      · rw [entryOf_cons_of_ne l he] at h
        rw [List.map_cons, List.mem_cons, not_or]
        exact ⟨Ne.symm he, ih h⟩

theorem entryOf_filter (p : κ → Bool) (k : κ) (l : List (κ × α)) :
    entryOf k (l.filter fun e => p e.1) = if p k then entryOf k l else none := by
  induction l with
  | nil => simp
  | cons e l ih =>
      rw [List.filter_cons]
      by_cases he : e.1 = k
      · rw [he]
        by_cases hk : p k
        · simp [hk, entryOf, he]
        · rw [if_neg hk, ih, if_neg hk, if_neg hk]
      · rw [entryOf_cons_of_ne l he, ← ih]
        split_ifs
        · rw [entryOf_cons_of_ne _ he]
        · rfl

theorem entryOf_map {β : Type*} (f : α → β) (k : κ) (l : List (κ × α)) :
    entryOf k (l.map fun e => (e.1, f e.2)) = (entryOf k l).map f := by
  induction l with
  | nil => rfl
  | cons e l ih =>
      by_cases he : e.1 = k
      · simp [entryOf, he]
      · simp only [List.map_cons, entryOf, he, if_false, ih]

/-- Set `k` to `v`: in place when the key is there, else at the end. -/
def assign (k : κ) (v : α) : List (κ × α) → List (κ × α)
  | [] => [(k, v)]
  | e :: l => if e.1 = k then (k, v) :: l else e :: assign k v l

theorem entryOf_assign_self (k : κ) (v : α) (l : List (κ × α)) :
    entryOf k (assign k v l) = some v := by
  induction l with
  | nil => simp [assign, entryOf]
  | cons e l ih =>
      by_cases he : e.1 = k
      · simp [assign, he, entryOf]
      · simp only [assign, he, if_false, entryOf_cons_of_ne _ he, ih]

theorem entryOf_assign_of_ne {k k' : κ} (v : α) (l : List (κ × α)) (h : k' ≠ k) :
    entryOf k' (assign k v l) = entryOf k' l := by
  induction l with
  | nil => simp [assign, entryOf, Ne.symm h]
  | cons e l ih =>
      by_cases he : e.1 = k
      · simp [assign, he, entryOf, Ne.symm h]
      · simp only [assign, he, if_false, entryOf, ih]

theorem keys_assign_of_mem {k : κ} {l : List (κ × α)} (v : α) (h : k ∈ l.map Prod.fst) :
    (assign k v l).map Prod.fst = l.map Prod.fst := by
  induction l with
  | nil => simp at h
  | cons e l ih =>
      by_cases he : e.1 = k
      · simp [assign, he]
      · have hl : k ∈ l.map Prod.fst := by
          rcases List.mem_cons.mp h with hk | hk
          · exact absurd hk.symm he
          · exact hk
        simp [assign, he, ih hl]

theorem assign_of_notMem {k : κ} {l : List (κ × α)} (v : α) (h : k ∉ l.map Prod.fst) :
    assign k v l = l ++ [(k, v)] := by
  induction l with
  | nil => rfl
  | cons e l ih =>
      rw [List.map_cons, List.mem_cons, not_or] at h
      simp [assign, Ne.symm h.1, ih h.2]

theorem mem_assign {k : κ} {v : α} {l : List (κ × α)} {e : κ × α} (h : e ∈ assign k v l) : e = (k, v) ∨ e ∈ l := by
  induction l with
  | nil => exact .inl (List.mem_singleton.mp h)
  | cons f l ih =>
      rw [assign] at h
      split at h
      · exact (List.mem_cons.mp h).imp id (List.mem_cons_of_mem f)
      · rcases List.mem_cons.mp h with rfl | h
        · exact .inr List.mem_cons_self
        · exact (ih h).imp id (List.mem_cons_of_mem f)

theorem nodup_assign {k : κ} {l : List (κ × α)} (v : α) (h : (l.map Prod.fst).Nodup) :
    ((assign k v l).map Prod.fst).Nodup := by
  by_cases hk : k ∈ l.map Prod.fst
  · rwa [keys_assign_of_mem v hk]
  · rw [assign_of_notMem v hk, List.map_append, List.nodup_append]
    refine ⟨h, by simp, ?_⟩
    intro a ha b hb hab
    have hbk : b = k := by simpa using hb
    exact hk (hbk ▸ hab ▸ ha)

section Sums

variable {M : Type*} [AddCommMonoid M] (f : κ × α → M)

theorem sum_assign {k : κ} {u : α} {l : List (κ × α)} (v : α) (h : entryOf k l = some u) :
    ((assign k v l).map f).sum + f (k, u) = (l.map f).sum + f (k, v) := by
  induction l with
  | nil => simp at h
  | cons e l ih =>
      obtain ⟨k', u'⟩ := e
      by_cases he : k' = k
      · subst he
        rw [entryOf_cons_self, Option.some.injEq] at h
        subst h
        simp only [assign, if_true, List.map_cons, List.sum_cons]
        abel
      · rw [entryOf_cons_of_ne l he] at h
        simp only [assign, he, if_false, List.map_cons, List.sum_cons, add_assoc, ih h]

theorem sum_assign_fresh {k : κ} {l : List (κ × α)} (v : α) (h : entryOf k l = none) :
    ((assign k v l).map f).sum = (l.map f).sum + f (k, v) := by
  rw [assign_of_notMem v (notMem_keys_of_entryOf h)]
  simp

end Sums

/-- An assignment to a key that is there changes its first entry only. -/
theorem forall₂_assign {k : κ} {u : α} {l : List (κ × α)} (v : α) (h : entryOf k l = some u) :
    List.Forall₂ (fun a b => b = a ∨ (a = (k, u) ∧ b = (k, v))) l (assign k v l) := by
  induction l with
  | nil => simp at h
  | cons e l ih =>
      obtain ⟨k', u'⟩ := e
      by_cases he : k' = k
      · subst he
        rw [entryOf_cons_self, Option.some.injEq] at h
        subst h
        simp only [assign, if_true]
        exact .cons (.inr ⟨rfl, rfl⟩) (List.forall₂_same.mpr fun _ _ => .inl rfl)
      · rw [entryOf_cons_of_ne l he] at h
        simp only [assign, he, if_false]
        exact .cons (.inl rfl) (ih h)

/-- The last value of a key in a list of pairs. -/
def lastValue (k : κ) (pairs : List (κ × α)) : Option α := ((pairs.filter fun p => p.1 = k).getLast?).map Prod.snd

theorem lastValue_snoc_self (k : κ) (v : α) (pairs : List (κ × α)) : lastValue k (pairs ++ [(k, v)]) = some v := by
  simp [lastValue, List.filter_append]

theorem lastValue_snoc_of_ne {k : κ} {p : κ × α} (pairs : List (κ × α)) (h : p.1 ≠ k) :
    lastValue k (pairs ++ [p]) = lastValue k pairs := by
  simp [lastValue, List.filter_append, h]

theorem lastValue_isSome_iff {k : κ} {pairs : List (κ × α)} : (lastValue k pairs).isSome ↔ k ∈ pairs.map Prod.fst := by
  unfold lastValue
  rw [Option.isSome_map, List.getLast?_isSome, ne_eq, List.filter_eq_nil_iff, List.mem_map]
  push Not
  constructor
  · rintro ⟨p, hp, hk⟩
    exact ⟨p, hp, by simpa using hk⟩
  · rintro ⟨p, hp, hk⟩
    exact ⟨p, hp, by simpa using hk⟩

theorem lastValue_of_unique {k : κ} {v : α} {pairs : List (κ × α)} (hmem : (k, v) ∈ pairs)
    (hunique : ∀ w, (k, w) ∈ pairs → w = v) : lastValue k pairs = some v := by
  have hsome : (lastValue k pairs).isSome := lastValue_isSome_iff.mpr (List.mem_map_of_mem hmem)
  obtain ⟨w, hw⟩ := Option.isSome_iff_exists.mp hsome
  obtain ⟨p, hp, rfl⟩ := Option.map_eq_some_iff.mp hw
  obtain ⟨hmem', hkey⟩ := List.mem_filter.mp (List.mem_of_getLast? hp)
  rw [decide_eq_true_eq] at hkey
  rw [hw, hunique p.2 (hkey ▸ hmem')]

/-- A record: entries with distinct keys, in the order they were added. -/
structure Record (κ α : Type*) where
  entries : List (κ × α)
  nodup : (entries.map Prod.fst).Nodup

namespace Record

instance : EmptyCollection (Record κ α) := ⟨⟨[], List.nodup_nil⟩⟩

def get? (r : Record κ α) (k : κ) : Option α := entryOf k r.entries

def set (r : Record κ α) (k : κ) (v : α) : Record κ α :=
  ⟨assign k v r.entries, nodup_assign v r.nodup⟩

def values (r : Record κ α) : List α := r.entries.map Prod.snd

/-- The entries whose keys satisfy `p`. -/
def filter (r : Record κ α) (p : κ → Bool) : Record κ α where
  entries := r.entries.filter fun e => p e.1
  nodup := r.nodup.sublist (List.filter_sublist.map _)

/-- Change every value. -/
def mapValues {β : Type*} (r : Record κ α) (f : α → β) : Record κ β where
  entries := r.entries.map fun e => (e.1, f e.2)
  nodup := by
    rw [List.map_map]
    exact r.nodup

theorem get?_set_self (r : Record κ α) (k : κ) (v : α) : (r.set k v).get? k = some v :=
  entryOf_assign_self k v r.entries

theorem get?_set_of_ne (r : Record κ α) {k k' : κ} (v : α) (h : k' ≠ k) :
    (r.set k v).get? k' = r.get? k' :=
  entryOf_assign_of_ne v r.entries h

theorem mem_of_get? {r : Record κ α} {k : κ} {v : α} (h : r.get? k = some v) :
    (k, v) ∈ r.entries :=
  mem_of_entryOf h

theorem set_entries_ne_nil (r : Record κ α) (k : κ) (v : α) : (r.set k v).entries ≠ [] := by
  intro h
  have hget := r.get?_set_self k v
  rw [get?, h] at hget
  simp at hget

theorem get?_filter (r : Record κ α) (p : κ → Bool) (k : κ) :
    (r.filter p).get? k = if p k then r.get? k else none :=
  entryOf_filter p k r.entries

theorem get?_mapValues {β : Type*} (r : Record κ α) (f : α → β) (k : κ) :
    (r.mapValues f).get? k = (r.get? k).map f :=
  entryOf_map f k r.entries

@[simp] theorem get?_empty (k : κ) : (∅ : Record κ α).get? k = none := rfl

theorem mem_values_iff {r : Record κ α} {v : α} : v ∈ r.values ↔ ∃ k, r.get? k = some v := by
  constructor
  · intro h
    obtain ⟨⟨k, w⟩, hmem, rfl⟩ := List.mem_map.mp h
    exact ⟨k, entryOf_of_mem r.nodup hmem⟩
  · rintro ⟨k, h⟩
    exact List.mem_map_of_mem (mem_of_get? h)

omit [DecidableEq κ] in
theorem length_filter_values (p : α → Bool) (r : Record κ α) :
    (r.values.filter p).length = (r.entries.map fun e => if p e.2 then 1 else 0).sum := by
  rw [values, ← List.countP_eq_length_filter, List.countP_map]
  generalize r.entries = l
  induction l with
  | nil => rfl
  | cons e l ih =>
      rw [List.countP_cons, List.map_cons, List.sum_cons, ih, add_comm]
      rfl

/-- Setting a key that is there changes a count of the values by the new value less the old one. -/
theorem length_filter_set {r : Record κ α} {k : κ} {u : α} (p : α → Bool) (v : α) (h : r.get? k = some u) :
    ((r.set k v).values.filter p).length + (if p u then 1 else 0)
      = (r.values.filter p).length + (if p v then 1 else 0) := by
  rw [length_filter_values, length_filter_values]
  exact sum_assign (fun e => if p e.2 then 1 else 0) v h

theorem length_filter_set_fresh {r : Record κ α} {k : κ} (p : α → Bool) (v : α) (h : r.get? k = none) :
    ((r.set k v).values.filter p).length = (r.values.filter p).length + (if p v then 1 else 0) := by
  rw [length_filter_values, length_filter_values]
  exact sum_assign_fresh (fun e => if p e.2 then 1 else 0) v h

/-- Set a key, if there is one. -/
def setSome (r : Record κ α) : Option (κ × α) → Record κ α
  | none => r
  | some (k, v) => r.set k v

theorem get?_foldl_setSome {ρ : Type*} (entry : ρ → Option (κ × α)) (rows : List ρ) (k : κ) :
    (rows.foldl (fun (r : Record κ α) row => r.setSome (entry row)) ∅).get? k = lastValue k (rows.filterMap entry) := by
  induction rows using List.reverseRecOn with
  | nil => rfl
  | append_singleton rows row ih =>
      rw [List.foldl_append, List.foldl_cons, List.foldl_nil, List.filterMap_append]
      cases hentry : entry row with
      | none => simpa [setSome, hentry] using ih
      | some p =>
          obtain ⟨k', v⟩ := p
          have hsnoc : List.filterMap entry [row] = [(k', v)] := by simp [hentry]
          rw [hsnoc, setSome]
          by_cases hk : k' = k
          · rw [hk, get?_set_self, lastValue_snoc_self]
          · rw [get?_set_of_ne _ _ (Ne.symm hk), lastValue_snoc_of_ne _ hk]
            exact ih

/-- A loop over the entries of a record that updates the value of each key, absent ones included. -/
def upsertAll {β : Type*} (f : κ → Option β → α → β) (r : Record κ β) (es : List (κ × α)) : Record κ β :=
  es.foldl (fun r e => r.set e.1 (f e.1 (r.get? e.1) e.2)) r

theorem get?_upsertAll {β : Type*} (f : κ → Option β → α → β) (r : Record κ β) {es : List (κ × α)}
    (hnodup : (es.map Prod.fst).Nodup) (k : κ) :
    (upsertAll f r es).get? k = match entryOf k es with
      | none => r.get? k
      | some v => some (f k (r.get? k) v) := by
  induction es generalizing r with
  | nil => rfl
  | cons e es ih =>
      obtain ⟨hfresh, hrest⟩ := List.nodup_cons.mp hnodup
      rw [upsertAll, List.foldl_cons]
      have hih := ih (r.set e.1 (f e.1 (r.get? e.1) e.2)) hrest
      by_cases hk : e.1 = k
      · subst hk
        have hnone : entryOf e.1 es = none := by
          cases hentry : entryOf e.1 es with
          | none => rfl
          | some v => exact absurd (List.mem_map_of_mem (mem_of_entryOf hentry)) hfresh
        rw [hnone, get?_set_self] at hih
        rw [← upsertAll, hih, show entryOf e.1 (e :: es) = some e.2 from entryOf_cons_self e.1 e.2 es]
      · rw [get?_set_of_ne _ _ (Ne.symm hk)] at hih
        rw [← upsertAll, hih, entryOf_cons_of_ne es hk]

/-- A loop that sets the key of each row, and stops at a row without a value. -/
theorem foldlM_set_eq {ρ : Type*} {rows : List ρ} {key : ρ → κ} {value : ρ → Option α} {f : κ → α}
    (h : ∀ row ∈ rows, value row = some (f (key row))) (r : Record κ α) :
    ∃ out, rows.foldlM (fun r row => (value row).map (r.set (key row))) r = some out ∧
      ∀ k, out.get? k = if k ∈ rows.map key then some (f k) else r.get? k := by
  induction rows generalizing r with
  | nil => exact ⟨r, rfl, fun k => by simp⟩
  | cons row rows ih =>
      obtain ⟨out, hout, hget⟩ := ih (fun u hu => h u (List.mem_cons_of_mem row hu)) (r.set (key row) (f (key row)))
      refine ⟨out, ?_, fun k => ?_⟩
      · rw [List.foldlM_cons, h row List.mem_cons_self]
        exact hout
      · rw [hget]
        simp only [List.map_cons, List.mem_cons]
        by_cases hrest : k ∈ rows.map key
        · simp [hrest]
        · by_cases hk : k = key row
          · subst hk
            simp [hrest, get?_set_self]
          · simp [hrest, hk, get?_set_of_ne _ _ hk]

theorem mem_entries_iff {r : Record κ α} {k : κ} {v : α} : (k, v) ∈ r.entries ↔ r.get? k = some v :=
  ⟨entryOf_of_mem r.nodup, mem_of_get?⟩

omit [DecidableEq κ] in
theorem nodup_entries (r : Record κ α) : r.entries.Nodup := List.Nodup.of_map Prod.fst r.nodup

theorem perm_of_get? {r r' : Record κ α} (h : ∀ k, r.get? k = r'.get? k) : r.entries.Perm r'.entries := by
  rw [List.perm_ext_iff_of_nodup r.nodup_entries r'.nodup_entries]
  rintro ⟨k, v⟩
  rw [mem_entries_iff, mem_entries_iff, h k]

end Record

/-! ### Entries in the order of their keys -/

section SortedByKey

variable {o : Type*} [LinearOrder o] (rank : κ → o)

/-- The entries, sorted by the ranks of their keys. -/
def sortedByKey (l : List (κ × α)) : List (κ × α) := l.insertionSort fun a b => rank a.1 ≤ rank b.1

omit [DecidableEq κ] in
theorem perm_sortedByKey (l : List (κ × α)) : (sortedByKey rank l).Perm l := List.perm_insertionSort _ l

omit [DecidableEq κ] in
/-- The values may change before or after. -/
theorem map_sortedByKey {β : Type*} (f : κ × α → κ × β) (hf : ∀ e, (f e).1 = e.1) (l : List (κ × α)) :
    (sortedByKey rank l).map f = sortedByKey rank (l.map f) := by
  refine List.map_insertionSort _ _ f l ?_
  intro a _ b _
  rw [hf, hf]

/-- The order of the entries is lost and nothing else. -/
theorem sortedByKey_eq_iff (hrank : Function.Injective rank) {l l' : List (κ × α)} (hl : (l.map Prod.fst).Nodup)
    (hl' : (l'.map Prod.fst).Nodup) : sortedByKey rank l = sortedByKey rank l' ↔ ∀ k, entryOf k l = entryOf k l' := by
  have hsorted : ∀ l : List (κ × α), (sortedByKey rank l).Pairwise fun a b => rank a.1 ≤ rank b.1 := by
    intro l
    have : Std.Total fun a b : κ × α => rank a.1 ≤ rank b.1 := ⟨fun a b => le_total _ _⟩
    have : IsTrans (κ × α) fun a b => rank a.1 ≤ rank b.1 := ⟨fun a b c => le_trans⟩
    exact List.pairwise_insertionSort _ l
  constructor
  · intro h k
    have hperm : l.Perm l' := (perm_sortedByKey rank l).symm.trans (h ▸ perm_sortedByKey rank l')
    rw [Option.ext_iff]
    intro v
    constructor
    · intro hv
      exact entryOf_of_mem hl' (hperm.subset (mem_of_entryOf hv))
    · intro hv
      exact entryOf_of_mem hl (hperm.symm.subset (mem_of_entryOf hv))
  · intro h
    have hget : ∀ k, (Record.mk l hl).get? k = (Record.mk l' hl').get? k := h
    have hperm : l.Perm l' := Record.perm_of_get? hget
    refine List.Perm.eq_of_pairwise ?_ (hsorted l) (hsorted l')
      ((perm_sortedByKey rank l).trans (hperm.trans (perm_sortedByKey rank l').symm))
    rintro ⟨k, v⟩ ⟨k', v'⟩ ha hb hle hge
    obtain rfl : k = k' := hrank (le_antisymm hle hge)
    have hv := entryOf_of_mem hl ((perm_sortedByKey rank l).subset ha)
    have hv' := entryOf_of_mem hl' ((perm_sortedByKey rank l').subset hb)
    rw [h k, hv'] at hv
    rw [Option.some.inj hv]

end SortedByKey

end Remudero.Lib
