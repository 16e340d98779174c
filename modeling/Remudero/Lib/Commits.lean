import Remudero.Lib.Refs

/-! # Commit stores

A commit store is a list of commits, newest first, each naming at most one parent that was in the
store before it.  The structure carries this as a field, so a store with a dangling parent or a
commit entered twice cannot be built.

`isAncestor old new` follows the parents from `new`; it is reflexive on the commits of the store,
transitive and antisymmetric, and entering a commit leaves it unchanged for the older ones.
`Refs.push` is a plain push: it creates an absent name and moves a present one only to a
descendant of the commit it has. -/

namespace Remudero.Lib

variable {ν : Type*}

/-- Each commit is new and its parent is older. -/
inductive CommitsWF : List (ν × Option ν) → Prop
  | nil : CommitsWF []
  | cons {c : ν} {p : Option ν} {l : List (ν × Option ν)} (h : CommitsWF l) (hc : c ∉ l.map Prod.fst)
      (hp : ∀ q, p = some q → q ∈ l.map Prod.fst) : CommitsWF ((c, p) :: l)

/-- A store of commits with their parents, newest first. -/
structure Commits (ν : Type*) where
  entries : List (ν × Option ν)
  wf : CommitsWF entries

variable [DecidableEq ν]

/-- Follow the parents from `new` down the list. -/
def ancestorIn : List (ν × Option ν) → ν → ν → Bool
  | [], _, _ => false
  | (c, p) :: l, old, new =>
      if new = c then
        decide (old = c) || (match p with
          | some q => ancestorIn l old q
          | none => false)
      else ancestorIn l old new

section ancestorIn

variable {l : List (ν × Option ν)} {a b c d : ν} {p : Option ν}

theorem ancestorIn_cons_ne (h : b ≠ c) : ancestorIn ((c, p) :: l) a b = ancestorIn l a b := by
  cases p <;> simp [ancestorIn, h]

theorem ancestorIn_cons_self : ancestorIn ((c, p) :: l) a c = true ↔
    a = c ∨ ∃ q, p = some q ∧ ancestorIn l a q = true := by
  cases p with
  | none => simp [ancestorIn]
  | some q => simp [ancestorIn]

theorem mem_of_ancestorIn (hwf : CommitsWF l) (h : ancestorIn l a b = true) :
    a ∈ l.map Prod.fst ∧ b ∈ l.map Prod.fst := by
  induction hwf generalizing b with
  | nil => cases h
  | @cons c p l hwf hc hp ih =>
      by_cases hb : b = c
      · subst hb
        rcases ancestorIn_cons_self.mp h with rfl | ⟨q, -, hq⟩
        · simp
        · exact ⟨List.mem_cons_of_mem _ (ih hq).1, List.mem_cons_self⟩
      · rw [ancestorIn_cons_ne hb] at h
        exact ⟨List.mem_cons_of_mem _ (ih h).1, List.mem_cons_of_mem _ (ih h).2⟩

theorem ancestorIn_refl (h : a ∈ l.map Prod.fst) : ancestorIn l a a = true := by
  induction l with
  | nil => cases h
  | cons e l ih =>
      obtain ⟨c, p⟩ := e
      by_cases ha : a = c
      · subst ha
        exact ancestorIn_cons_self.mpr (.inl rfl)
      · rw [ancestorIn_cons_ne ha]
        exact ih ((List.mem_cons.mp h).resolve_left ha)

theorem ancestorIn_trans (hwf : CommitsWF l) (hab : ancestorIn l a b = true) (hbd : ancestorIn l b d = true) :
    ancestorIn l a d = true := by
  induction hwf generalizing d b with
  | nil => cases hab
  | @cons c p l hwf hc hp ih =>
      by_cases hd : d = c
      · subst hd
        rcases ancestorIn_cons_self.mp hbd with rfl | ⟨q, rfl, hq⟩
        · exact hab
        · have hb : b ≠ d := by
            rintro rfl
            exact hc (mem_of_ancestorIn hwf hq).1
          rw [ancestorIn_cons_ne hb] at hab
          exact ancestorIn_cons_self.mpr (.inr ⟨q, rfl, ih hab hq⟩)
      · rw [ancestorIn_cons_ne hd] at hbd ⊢
        have hb : b ≠ c := by
          rintro rfl
          exact hc (mem_of_ancestorIn hwf hbd).1
        rw [ancestorIn_cons_ne hb] at hab
        exact ih hab hbd

theorem ancestorIn_antisymm (hwf : CommitsWF l) (hab : ancestorIn l a b = true)
    (hba : ancestorIn l b a = true) : a = b := by
  induction hwf generalizing a b with
  | nil => cases hab
  | @cons c p l hwf hc hp ih =>
      by_cases hb : b = c
      · subst hb
        rcases ancestorIn_cons_self.mp hab with rfl | ⟨q, -, hq⟩
        · rfl
        · have ha : a ≠ b := by
            rintro rfl
            exact hc (mem_of_ancestorIn hwf hq).1
          rw [ancestorIn_cons_ne ha] at hba
          exact absurd (mem_of_ancestorIn hwf hba).1 hc
      · rw [ancestorIn_cons_ne hb] at hab
        have ha : a ≠ c := by
          rintro rfl
          exact hc (mem_of_ancestorIn hwf hab).1
        rw [ancestorIn_cons_ne ha] at hba
        exact ih hab hba

end ancestorIn

namespace Commits

variable {s : Commits ν} {a b c d : ν} {p : Option ν}

instance : Membership ν (Commits ν) where
  mem s c := c ∈ s.entries.map Prod.fst

instance (c : ν) (s : Commits ν) : Decidable (c ∈ s) :=
  inferInstanceAs (Decidable (c ∈ s.entries.map Prod.fst))

/-- The empty store. -/
def empty : Commits ν := ⟨[], .nil⟩

/-- Enter a commit; refused when it is there already or its parent is not. -/
def commit (s : Commits ν) (c : ν) (p : Option ν) : Option (Commits ν) :=
  if h : c ∉ s ∧ ∀ q ∈ p, q ∈ s then some ⟨(c, p) :: s.entries, .cons s.wf h.1 h.2⟩ else none

/-- `old` is `new` or one of its ancestors. -/
def isAncestor (s : Commits ν) (old new : ν) : Bool := ancestorIn s.entries old new

theorem commit_eq {t : Commits ν} (h : s.commit c p = some t) :
    c ∉ s ∧ (∀ q, p = some q → q ∈ s) ∧ t.entries = (c, p) :: s.entries := by
  unfold commit at h
  split at h
  next hok =>
    obtain rfl := Option.some.inj h
    exact ⟨hok.1, fun q hq => hok.2 q hq, rfl⟩
  · cases h

theorem mem_commit {t : Commits ν} (h : s.commit c p = some t) : a ∈ t ↔ a = c ∨ a ∈ s := by
  obtain ⟨-, -, he⟩ := commit_eq h
  show a ∈ t.entries.map Prod.fst ↔ _
  rw [he]
  simp only [List.map_cons, List.mem_cons]
  rfl

theorem isAncestor_mem (h : s.isAncestor a b = true) : a ∈ s ∧ b ∈ s := mem_of_ancestorIn s.wf h

theorem isAncestor_refl (h : a ∈ s) : s.isAncestor a a = true := ancestorIn_refl h

theorem isAncestor_trans (hab : s.isAncestor a b = true) (hbd : s.isAncestor b d = true) :
    s.isAncestor a d = true :=
  ancestorIn_trans s.wf hab hbd

theorem isAncestor_antisymm (hab : s.isAncestor a b = true) (hba : s.isAncestor b a = true) : a = b :=
  ancestorIn_antisymm s.wf hab hba

/-- A new commit has the ancestors of its parent. -/
theorem isAncestor_commit_self {t : Commits ν} (h : s.commit c p = some t) :
    t.isAncestor a c = true ↔ a = c ∨ ∃ q, p = some q ∧ s.isAncestor a q = true := by
  obtain ⟨-, -, he⟩ := commit_eq h
  unfold isAncestor
  rw [he]
  exact ancestorIn_cons_self

/-- A new commit changes nothing for the older ones. -/
theorem isAncestor_commit_old {t : Commits ν} (h : s.commit c p = some t) (hb : b ≠ c) :
    t.isAncestor a b = s.isAncestor a b := by
  obtain ⟨-, -, he⟩ := commit_eq h
  unfold isAncestor
  rw [he]
  exact ancestorIn_cons_ne hb

end Commits

namespace Refs

variable {κ : Type*} [DecidableEq κ] {r r' : Refs κ ν} {k : κ} {c : ν} {s : Commits ν}

/-- A plain push: create `k`, or move it to a descendant of the commit it has. -/
def push (r : Refs κ ν) (s : Commits ν) (k : κ) (c : ν) : Option (Refs κ ν) :=
  match r k with
  | none => some (Function.update r k (some c))
  | some v => if s.isAncestor v c then some (Function.update r k (some c)) else none

theorem push_eq (h : r.push s k c = some r') :
    r' = Function.update r k (some c) ∧ ∀ v, r k = some v → s.isAncestor v c = true := by
  unfold push at h
  split at h
  next hk =>
    refine ⟨(Option.some.inj h).symm, ?_⟩
    intro v hv
    rw [hk] at hv
    cases hv
  next v hv =>
    split at h
    next ha =>
      refine ⟨(Option.some.inj h).symm, ?_⟩
      intro w hw
      rw [hv] at hw
      obtain rfl := Option.some.inj hw
      exact ha
    · cases h

end Refs

end Remudero.Lib
