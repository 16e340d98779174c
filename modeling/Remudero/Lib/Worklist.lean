import Remudero.Lib.Loop

/-! # Worklists

A walk over a graph given by its successor lists: the next pending node is taken; if it was not seen
before it is, and its successors join the pending ones.  How they join is a parameter: at the end as in a
queue, in front as in a stack, those that were seen left out or not (`Joins` is what a walk needs of it).

`walk_spec`: on a graph with finitely many nodes that have successors the walk ends, and what it has seen
is what it had and what can be reached from the pending nodes. -/

namespace Remudero.Lib

variable {κ : Type*} [DecidableEq κ]

section

variable (succ : κ → List κ) (join : List κ → List κ → List κ → List κ)

/-- One round; `seen` has the newest first, `pending` the next first. -/
def walkStep : List κ × List κ → (List κ × List κ) ⊕ List κ
  | (seen, []) => .inr seen
  | (seen, k :: rest) => if k ∈ seen then .inl (seen, rest) else .inl (k :: seen, join (k :: seen) rest (succ k))

/-- The walk ends with these nodes seen. -/
def WalkEnds (seen pending out : List κ) : Prop := ∃ fuel, loop (walkStep succ join) fuel (seen, pending) = some out

/-- Nothing comes in but the successors, and none of these that is not seen is left out. -/
structure Joins : Prop where
  sound : ∀ {seen rest new k}, k ∈ join seen rest new → k ∈ rest ∨ k ∈ new
  rest : ∀ {seen rest new k}, k ∈ rest → k ∈ join seen rest new
  new : ∀ {seen rest new k}, k ∈ new → k ∈ seen ∨ k ∈ join seen rest new
  length : ∀ seen rest new, (join seen rest new).length ≤ rest.length + new.length

end

/-- The array grows and shrinks at its end; here its last element is first. -/
def pushAll (_ rest new : List κ) : List κ := new.reverse ++ rest

omit [DecidableEq κ] in
theorem joins_pushAll : Joins (pushAll : List κ → List κ → List κ → List κ) where
  sound h := (List.mem_append.mp h).symm.imp_right List.mem_reverse.mp
  rest h := List.mem_append_right _ h
  new h := Or.inr (List.mem_append_left _ (List.mem_reverse.mpr h))
  length seen rest new := by
    rw [pushAll, List.length_append, List.length_reverse]
    omega

/-- A queue that takes only what was not seen. -/
def enqueueUnseen (seen rest new : List κ) : List κ := rest ++ new.filter fun k => k ∉ seen

theorem joins_enqueueUnseen : Joins (enqueueUnseen : List κ → List κ → List κ → List κ) where
  sound h := (List.mem_append.mp h).imp_right fun h => (List.mem_filter.mp h).1
  rest h := List.mem_append_left _ h
  new {seen rest new k} h := by
    by_cases hk : k ∈ seen
    · exact Or.inl hk
    · exact Or.inr (List.mem_append_right _ (List.mem_filter.mpr ⟨h, decide_eq_true hk⟩))
  length seen rest new := by
    have hle := List.length_filter_le (fun k => decide (k ∉ seen)) new
    rw [enqueueUnseen, List.length_append]
    omega

/-- A queue that takes everything. -/
def enqueueAll (_ rest new : List κ) : List κ := rest ++ new

omit [DecidableEq κ] in
theorem joins_enqueueAll : Joins (enqueueAll : List κ → List κ → List κ → List κ) where
  sound h := List.mem_append.mp h
  rest h := List.mem_append_left _ h
  new h := Or.inr (List.mem_append_right _ h)
  length seen rest new := by rw [enqueueAll, List.length_append]

section walk

variable {succ : κ → List κ} {join : List κ → List κ → List κ → List κ}

/-- An edge of the graph. -/
abbrev Edge (succ : κ → List κ) (a b : κ) : Prop := b ∈ succ a

/-- The successors of what is seen are seen or pending. -/
def Covered (succ : κ → List κ) (seen pending : List κ) : Prop := ∀ a ∈ seen, ∀ b ∈ succ a, b ∈ seen ∨ b ∈ pending

omit [DecidableEq κ] in
/-- What can be reached from a seen node is seen, or can be reached from a pending one. -/
theorem Covered.reach {seen pending : List κ} (h : Covered succ seen pending) {a b : κ} (ha : a ∈ seen)
    (hab : Relation.ReflTransGen (Edge succ) a b) :
    b ∈ seen ∨ ∃ p ∈ pending, Relation.ReflTransGen (Edge succ) p b := by
  induction hab with
  | refl => exact Or.inl ha
  | tail _ hedge ih =>
      obtain hseen | ⟨p, hp, hreach⟩ := ih
      · obtain hb | hb := h _ hseen _ hedge
        · exact Or.inl hb
        · exact Or.inr ⟨_, hb, Relation.ReflTransGen.refl⟩
      · exact Or.inr ⟨p, hp, hreach.tail hedge⟩

/-- What the walk may still go through. -/
def workLeft (succ : κ → List κ) (nodes seen pending : List κ) : ℕ :=
  pending.length + ((nodes.filter fun k => k ∉ seen).map fun k => (succ k).length).sum

/-- A node that is seen for the first time takes its successors off the work that is left. -/
theorem sum_unseen_cons {nodes seen : List κ} {k : κ} (hk : k ∉ seen) (hnodes : succ k ≠ [] → k ∈ nodes) :
    ((nodes.filter fun x => x ∉ k :: seen).map fun x => (succ x).length).sum + (succ k).length ≤
      ((nodes.filter fun x => x ∉ seen).map fun x => (succ x).length).sum := by
  have hfilter : ∀ l : List κ, (l.filter fun x => x ∉ k :: seen).Sublist (l.filter fun x => x ∉ seen) := by
    intro l
    apply List.monotone_filter_right
    intro x hx
    simp only [List.mem_cons, not_or, decide_eq_true_eq] at hx ⊢
    exact hx.2
  by_cases hnil : succ k = []
  · rw [hnil, List.length_nil, Nat.add_zero]
    exact ((hfilter nodes).map _).sum_le_sum fun _ _ => Nat.zero_le _
  · obtain ⟨before, after, rfl⟩ := List.append_of_mem (hnodes hnil)
    have hbefore := ((hfilter before).map fun x => (succ x).length).sum_le_sum fun _ _ => Nat.zero_le _
    have hafter := ((hfilter after).map fun x => (succ x).length).sum_le_sum fun _ _ => Nat.zero_le _
    rw [List.filter_append, List.filter_append, List.filter_cons_of_neg (by simp), List.filter_cons_of_pos (by simpa using hk)]
    simp only [List.map_append, List.sum_append, List.map_cons, List.sum_cons]
    omega

theorem workLeft_lt (hjoin : Joins join) {nodes seen rest : List κ} {k : κ} (hk : k ∉ seen)
    (hnodes : ∀ a, succ a ≠ [] → a ∈ nodes) :
    workLeft succ nodes (k :: seen) (join (k :: seen) rest (succ k)) < workLeft succ nodes seen (k :: rest) := by
  have hsum := sum_unseen_cons hk (hnodes k)
  have hlength := hjoin.length (k :: seen) rest (succ k)
  unfold workLeft
  rw [List.length_cons]
  omega

/-- The walk ends, and has seen what can be reached. -/
theorem walk_spec (hjoin : Joins join) {nodes : List κ} (hnodes : ∀ a, succ a ≠ [] → a ∈ nodes) (seen pending : List κ)
    (hcovered : Covered succ seen pending) :
    ∃ out, WalkEnds succ join seen pending out ∧ (seen.Nodup → out.Nodup) ∧
      ∀ k, k ∈ out ↔ k ∈ seen ∨ ∃ p ∈ pending, Relation.ReflTransGen (Edge succ) p k := by
  generalize hn : workLeft succ nodes seen pending = n
  induction n using Nat.strong_induction_on generalizing seen pending with
  | _ n ih =>
      cases pending with
      | nil => exact ⟨seen, ⟨1, rfl⟩, id, by simp⟩
      | cons k rest =>
          by_cases hk : k ∈ seen
          · have hstep : walkStep succ join (seen, k :: rest) = .inl (seen, rest) := if_pos hk
            have hrest : Covered succ seen rest := by
              intro a ha b hb
              obtain hseen | hpending := hcovered a ha b hb
              · exact Or.inl hseen
              · obtain rfl | hpending := List.mem_cons.mp hpending
                · exact Or.inl hk
                · exact Or.inr hpending
            have hless : workLeft succ nodes seen rest < n := by
              rw [← hn, workLeft, workLeft, List.length_cons]
              omega
            obtain ⟨out, hends, hnodup, hout⟩ := ih _ hless seen rest hrest rfl
            refine ⟨out, ends_of_step hstep hends, hnodup, fun x => ?_⟩
            rw [hout]
            constructor
            · rintro (hx | ⟨p, hp, hreach⟩)
              · exact Or.inl hx
              · exact Or.inr ⟨p, List.mem_cons_of_mem k hp, hreach⟩
            · rintro (hx | ⟨p, hp, hreach⟩)
              · exact Or.inl hx
              · obtain rfl | hp := List.mem_cons.mp hp
                · exact hrest.reach hk hreach
                · exact Or.inr ⟨p, hp, hreach⟩
          · have hstep : walkStep succ join (seen, k :: rest) =
                .inl (k :: seen, join (k :: seen) rest (succ k)) := if_neg hk
            have hnext : Covered succ (k :: seen) (join (k :: seen) rest (succ k)) := by
              intro a ha b hb
              obtain rfl | ha := List.mem_cons.mp ha
              · exact hjoin.new hb
              · obtain hseen | hpending := hcovered a ha b hb
                · exact Or.inl (List.mem_cons_of_mem k hseen)
                · obtain rfl | hpending := List.mem_cons.mp hpending
                  · exact Or.inl List.mem_cons_self
                  · exact Or.inr (hjoin.rest hpending)
            obtain ⟨out, hends, hnodup, hout⟩ := ih _ (hn ▸ workLeft_lt hjoin hk hnodes) _ _ hnext rfl
            refine ⟨out, ends_of_step hstep hends, fun h => hnodup (List.nodup_cons.mpr ⟨hk, h⟩), fun x => ?_⟩
            rw [hout]
            constructor
            · rintro (hx | ⟨p, hp, hreach⟩)
              · obtain rfl | hx := List.mem_cons.mp hx
                · exact Or.inr ⟨x, List.mem_cons_self, Relation.ReflTransGen.refl⟩
                · exact Or.inl hx
              · obtain hp | hp := hjoin.sound hp
                · exact Or.inr ⟨p, List.mem_cons_of_mem k hp, hreach⟩
                · exact Or.inr ⟨k, List.mem_cons_self, hreach.head hp⟩
            · rintro (hx | ⟨p, hp, hreach⟩)
              · exact Or.inl (List.mem_cons_of_mem k hx)
              · obtain rfl | hp := List.mem_cons.mp hp
                · exact hnext.reach List.mem_cons_self hreach
                · exact Or.inr ⟨p, hjoin.rest hp, hreach⟩

/-- A walk from the successors of a node has seen what is one or more edges away. -/
theorem walk_from (hjoin : Joins join) {nodes : List κ} (hnodes : ∀ a, succ a ≠ [] → a ∈ nodes) (start : κ)
    {pending : List κ} (hpending : ∀ k, k ∈ pending ↔ k ∈ succ start) :
    ∃ out, WalkEnds succ join [] pending out ∧ out.Nodup ∧ ∀ k, k ∈ out ↔ Relation.TransGen (Edge succ) start k := by
  obtain ⟨out, hends, hnodup, hout⟩ := walk_spec hjoin hnodes [] pending fun a ha => nomatch ha
  refine ⟨out, hends, hnodup List.nodup_nil, fun k => ?_⟩
  rw [hout, Relation.TransGen.head'_iff]
  simp only [List.not_mem_nil, false_or, hpending]

end walk

end Remudero.Lib
