import Remudero.Lib.Worklist

/-! # Strongly connected components

A depth-first search with low numbers over a graph given by its successor lists.  A vertex gets the next
index and is put on a stack when the search comes to it; its low number is the least index on the stack
that is known to be reached from it.  When the low number of a vertex is still its index after its
successors, it is the root of a component, which is taken off the stack and handed to `emit`.

`search_induct` is the induction rule of the search: what holds before any component and is kept by
`emit` holds of all the vertices in the end.  Each component is handed over with its root, its members
reach each other, and its successors are in it or were handed over before (`Component`). -/

namespace Remudero.Lib

variable {V σ : Type*} [DecidableEq V]

/-- The vertices in the order of their indices, the low numbers, the stack with its top first, and what
`emit` has made so far. -/
structure Search (V σ : Type*) where
  indices : List V
  low : V → ℕ
  stack : List V
  out : σ

namespace Search

variable (s : Search V σ) (v : V)

def index : ℕ := s.indices.idxOf v

/-- The search comes to a vertex. -/
def enter : Search V σ :=
  { s with indices := s.indices ++ [v], low := Function.update s.low v s.indices.length, stack := v :: s.stack }

def lower (n : ℕ) : Search V σ := { s with low := Function.update s.low v (min (s.low v) n) }

/-- Look along an edge to `w`. -/
def look (visit : V → Search V σ → Search V σ) (w : V) : Search V σ :=
  if w ∉ s.indices then (visit w s).lower v ((visit w s).low w)
  else if w ∈ s.stack then s.lower v (s.index w)
  else s

end Search

/-- Pop until `v` has been popped; what was popped, and what is left. -/
def popTo (v : V) : List V → List V × List V
  | [] => ([], [])
  | w :: rest => if w = v then ([w], rest) else (w :: (popTo v rest).1, (popTo v rest).2)

section search

variable (succs : V → List V) (emit : V → List V → σ → σ)

/-- The component of `v` is complete if no vertex below it on the stack can be reached. -/
def Search.leave (index : ℕ) (v : V) (s : Search V σ) : Search V σ :=
  if s.low v ≠ index then s
  else { s with stack := (popTo v s.stack).2, out := emit v (popTo v s.stack).1 s.out }

def visit : ℕ → V → Search V σ → Search V σ
  | 0, _, s => s
  | fuel + 1, v, s =>
      ((succs v).foldl (fun t w => t.look v (visit fuel) w) (s.enter v)).leave emit s.indices.length v

/-- Search from each of the vertices that was not come to before. -/
def search (fuel : ℕ) (vertices : List V) (out : σ) : Search V σ :=
  vertices.foldl (fun s v => if v ∉ s.indices then visit succs emit fuel v s else s) ⟨[], fun _ => 0, [], out⟩

end search

theorem popTo_append {top rest : List V} {v : V} (h : v ∉ top) :
    popTo v (top ++ v :: rest) = (top ++ [v], rest) := by
  induction top with
  | nil => simp [popTo]
  | cons w top ih =>
      rw [List.mem_cons, not_or] at h
      rw [List.cons_append, popTo, if_neg (Ne.symm h.1), ih h.2]
      rfl

/-! ### The specification -/

section spec

variable (succs : V → List V)

abbrev Reach : V → V → Prop := Relation.ReflTransGen (Edge succs)

/-- The members reach each other, and their successors are among them or in `done`. -/
structure Component (done : Set V) (root : V) (members : List V) : Prop where
  nodup : members.Nodup
  root_mem : root ∈ members
  fresh : ∀ x ∈ members, x ∉ done
  closed : ∀ x ∈ members, ∀ y ∈ succs x, y ∈ members ∨ y ∈ done
  connected : ∀ x ∈ members, ∀ y ∈ members, Reach succs x y

/-- No edge leads out of a set. -/
def ClosedUnder (done : Set V) : Prop := ∀ x ∈ done, ∀ y ∈ succs x, y ∈ done

variable {succs}

omit [DecidableEq V] in
/-- What is reached from a closed set is in it. -/
theorem ClosedUnder.reach {done : Set V} (h : ClosedUnder succs done) {x y : V} (hx : x ∈ done) (hxy : Reach succs x y) :
    y ∈ done := by
  induction hxy with
  | refl => exact hx
  | tail _ hedge ih => exact h _ ih _ hedge

omit [DecidableEq V] in
/-- In a component of two or more vertices each is on a cycle. -/
theorem Component.transGen_self {done : Set V} {root : V} {members : List V} (h : Component succs done root members)
    (hlength : 1 < members.length) {x : V} (hx : x ∈ members) : Relation.TransGen (Edge succs) x x := by
  obtain ⟨y, hy, hne⟩ : ∃ y ∈ members, y ≠ x := by
    by_contra hall
    push Not at hall
    have hle := (List.subperm_of_subset h.nodup fun y hy => List.mem_singleton.mpr (hall y hy)).length_le
    rw [List.length_singleton] at hle
    omega
  have hxy : Relation.TransGen (Edge succs) x y :=
    (Relation.reflTransGen_iff_eq_or_transGen.mp (h.connected x hx y hy)).resolve_left hne
  exact hxy.trans_left (h.connected y hy x hx)

omit [DecidableEq V] in
/-- A vertex that is alone in its component is on a cycle only by an edge to itself. -/
theorem Component.not_transGen_self {done : Set V} {root : V} (h : Component succs done root [root])
    (hclosed : ClosedUnder succs done) (hloop : root ∉ succs root) : ¬ Relation.TransGen (Edge succs) root root := by
  intro hcycle
  obtain ⟨y, hedge, hback⟩ := Relation.TransGen.head'_iff.mp hcycle
  obtain hy | hy := h.closed root List.mem_cons_self y hedge
  · exact hloop (List.mem_singleton.mp hy ▸ hedge)
  · exact h.fresh root List.mem_cons_self (hclosed.reach hy hback)

variable (succs)

variable (vertices : Finset V) (Good : Set V → σ → Prop)

/-- The vertices whose component was handed over. -/
def Search.done (s : Search V σ) : Set V := {x | x ∈ s.indices ∧ x ∉ s.stack}

structure Search.Inv (s : Search V σ) : Prop where
  nodup : s.indices.Nodup
  stack_nodup : s.stack.Nodup
  known : ∀ x ∈ s.indices, x ∈ vertices
  indexed : ∀ x ∈ s.stack, x ∈ s.indices
  closed : ClosedUnder succs s.done
  good : Good s.done s.out

/-- From `s` to `t` the search has come to `v`, looked along its edges to `ws`, and has come to `new`
below it, of which `top` are still on the stack. -/
structure Scanned (s : Search V σ) (v : V) (ws new top : List V) (t : Search V σ) : Prop where
  inv : t.Inv succs vertices Good
  indices : t.indices = s.indices ++ v :: new
  stack : t.stack = top ++ v :: s.stack
  top_new : ∀ x ∈ top, x ∈ new
  reach : ∀ x ∈ new, Reach succs v x
  succs_new : ∀ x ∈ new, ∀ y ∈ succs x, y ∈ t.indices
  looked : ∀ w ∈ ws, w ∈ t.indices
  back : ∀ x ∈ top, Reach succs x v
  frame : ∀ x ∈ s.indices, t.low x = s.low x
  low : t.low v = s.indices.length ∨ ∃ y ∈ s.stack, t.low v = s.index y ∧ Reach succs v y
  low_top : ∀ x ∈ top, ∀ y ∈ succs x, y ∈ s.stack → t.low v ≤ s.index y
  low_looked : ∀ w ∈ ws, w ∈ s.stack → t.low v ≤ s.index w

/-- From `s` to `t` the search has visited `v`. -/
structure Visited (s : Search V σ) (v : V) (new top : List V) (t : Search V σ) : Prop where
  inv : t.Inv succs vertices Good
  indices : t.indices = s.indices ++ v :: new
  stack : t.stack = top ++ s.stack
  top_new : ∀ x ∈ top, x ∈ v :: new
  reach : ∀ x ∈ new, Reach succs v x
  succs_new : ∀ x ∈ v :: new, ∀ y ∈ succs x, y ∈ t.indices
  back : ∀ x ∈ top, Reach succs x v
  frame : ∀ x ∈ s.indices, t.low x = s.low x
  low : (top = [] ∧ t.low v = s.indices.length) ∨ ∃ y ∈ s.stack, t.low v = s.index y ∧ Reach succs v y
  low_top : ∀ x ∈ top, ∀ y ∈ succs x, y ∈ s.stack → t.low v ≤ s.index y

end spec

/-! ### Indices -/

namespace Search

variable {s t : Search V σ} {x : V} {more : List V}

theorem index_lt (h : x ∈ s.indices) : s.index x < s.indices.length := List.idxOf_lt_length_iff.mpr h

theorem index_append (ht : t.indices = s.indices ++ more) (hx : x ∈ s.indices) : t.index x = s.index x := by
  rw [index, ht, List.idxOf_append_of_mem hx, index]

theorem length_le_index (ht : t.indices = s.indices ++ more) (hx : x ∉ s.indices) : s.indices.length ≤ t.index x := by
  rw [index, ht, List.idxOf_append_of_notMem hx]
  omega

end Search

/-! ### One vertex -/

section visit

variable {succs : V → List V} {vertices : Finset V} {Good : Set V → σ → Prop} {s t u : Search V σ} {v w : V}
  {ws new top : List V}

theorem Search.done_enter (hv : v ∉ s.indices) : (s.enter v).done = s.done := by
  ext x
  simp only [done, enter, Set.mem_ofPred_eq, List.mem_append, List.mem_cons, List.not_mem_nil, or_false, not_or]
  constructor
  · rintro ⟨hx | rfl, hne, hstack⟩
    · exact ⟨hx, hstack⟩
    · exact absurd rfl hne
  · rintro ⟨hx, hstack⟩
    refine ⟨Or.inl hx, ?_, hstack⟩
    rintro rfl
    exact hv hx

theorem scanned_enter (h : s.Inv succs vertices Good) (hv : v ∉ s.indices) (hknown : v ∈ vertices) :
    Scanned succs vertices Good s v [] [] [] (s.enter v) where
  inv :=
    { nodup := by
        rw [Search.enter, List.nodup_append]
        refine ⟨h.nodup, List.nodup_singleton v, ?_⟩
        rintro a ha b hb rfl
        exact hv (List.mem_singleton.mp hb ▸ ha)
      stack_nodup := List.nodup_cons.mpr ⟨fun hmem => hv (h.indexed v hmem), h.stack_nodup⟩
      known := by
        intro x hx
        obtain hx | hx := List.mem_append.mp hx
        · exact h.known x hx
        · exact List.mem_singleton.mp hx ▸ hknown
      indexed := by
        intro x hx
        obtain rfl | hx := List.mem_cons.mp hx
        · exact List.mem_append_right _ List.mem_cons_self
        · exact List.mem_append_left _ (h.indexed x hx)
      closed := by
        rw [Search.done_enter hv]
        exact h.closed
      good := by
        rw [Search.done_enter hv]
        exact h.good }
  indices := rfl
  stack := rfl
  top_new := nofun
  reach := nofun
  succs_new := nofun
  looked := nofun
  back := nofun
  frame := by
    intro x hx
    refine Function.update_of_ne ?_ _ _
    rintro rfl
    exact hv hx
  low := Or.inl (Function.update_self _ _ _)
  low_top := nofun
  low_looked := nofun

namespace Scanned

variable (h : Scanned succs vertices Good s v ws new top t)

include h

theorem indexed_of_old {x : V} (hx : x ∈ s.indices) : x ∈ t.indices := by
  rw [h.indices]
  exact List.mem_append_left _ hx

theorem indexed_self : v ∈ t.indices := by
  rw [h.indices]
  exact List.mem_append_right _ List.mem_cons_self

/-- What is new was not there before. -/
theorem not_old {x : V} (hx : x ∈ v :: new) : x ∉ s.indices := by
  intro hold
  have hnodup := h.inv.nodup
  rw [h.indices, List.nodup_append] at hnodup
  exact hnodup.2.2 x hold x hx rfl

theorem stack_reach (hpre : ∀ x ∈ s.stack, Reach succs x v) {x : V} (hx : x ∈ t.stack) : Reach succs x v := by
  rw [h.stack] at hx
  obtain hx | hx := List.mem_append.mp hx
  · exact h.back x hx
  · obtain rfl | hx := List.mem_cons.mp hx
    · exact Relation.ReflTransGen.refl
    · exact hpre x hx

/-- An index on the stack is that of an older vertex, or not below that of `v`. -/
theorem stack_index (hs : s.Inv succs vertices Good) {x : V} (hx : x ∈ t.stack) :
    s.indices.length ≤ t.index x ∨ (x ∈ s.stack ∧ t.index x = s.index x) := by
  rw [h.stack] at hx
  obtain hx | hx := List.mem_append.mp hx
  · exact Or.inl (Search.length_le_index h.indices (h.not_old (List.mem_cons_of_mem v (h.top_new x hx))))
  · obtain rfl | hx := List.mem_cons.mp hx
    · exact Or.inl (Search.length_le_index h.indices (h.not_old List.mem_cons_self))
    · exact Or.inr ⟨hx, Search.index_append h.indices (hs.indexed x hx)⟩

omit h in
theorem low_min {m n : ℕ} (hs : s.Inv succs vertices Good)
    (hm : m = s.indices.length ∨ ∃ y ∈ s.stack, m = s.index y ∧ Reach succs v y)
    (hn : s.indices.length ≤ n ∨ ∃ y ∈ s.stack, n = s.index y ∧ Reach succs v y) :
    min m n = s.indices.length ∨ ∃ y ∈ s.stack, min m n = s.index y ∧ Reach succs v y := by
  have hle : m ≤ s.indices.length := by
    obtain hm | ⟨y, hy, hm, -⟩ := hm
    · exact hm.le
    · rw [hm]
      exact (Search.index_lt (hs.indexed y hy)).le
  obtain hcase | hcase := le_total m n
  · rw [min_eq_left hcase]
    exact hm
  · rw [min_eq_right hcase]
    obtain hn | hn := hn
    · exact Or.inl (le_antisymm (hcase.trans hle) hn)
    · exact Or.inr hn

/-- A low number may be lowered to the index of an older vertex that is reached; any other index makes
no difference. -/
theorem lower {n : ℕ} (hs : s.Inv succs vertices Good)
    (hn : s.indices.length ≤ n ∨ ∃ y ∈ s.stack, n = s.index y ∧ Reach succs v y) :
    Scanned succs vertices Good s v ws new top (t.lower v n) := by
  have hlower : (t.lower v n).low v = min (t.low v) n := Function.update_self _ _ _
  have hle : (t.lower v n).low v ≤ t.low v := by omega
  have hinv : (t.lower v n).Inv succs vertices Good :=
    ⟨h.inv.nodup, h.inv.stack_nodup, h.inv.known, h.inv.indexed, h.inv.closed, h.inv.good⟩
  refine { h with inv := hinv, frame := ?_, low := ?_, low_top := ?_, low_looked := ?_ }
  · intro x hx
    rw [← h.frame x hx]
    refine Function.update_of_ne ?_ _ _
    rintro rfl
    exact h.not_old List.mem_cons_self hx
  · rw [hlower]
    exact low_min hs h.low hn
  · intro x hx y hy hstack
    exact hle.trans (h.low_top x hx y hy hstack)
  · intro w hw hstack
    exact hle.trans (h.low_looked w hw hstack)

/-- After looking along an edge whose end has been come to. -/
theorem snoc (hw : w ∈ t.indices) (hlow : w ∈ s.stack → t.low v ≤ s.index w) :
    Scanned succs vertices Good s v (ws ++ [w]) new top t := by
  refine { h with looked := ?_, low_looked := ?_ }
  · intro x hx
    obtain hx | hx := List.mem_append.mp hx
    · exact h.looked x hx
    · exact List.mem_singleton.mp hx ▸ hw
  · intro x hx hstack
    obtain hx | hx := List.mem_append.mp hx
    · exact h.low_looked x hx hstack
    · obtain rfl := List.mem_singleton.mp hx
      exact hlow hstack

/-- After a visit to the end of an edge. -/
theorem visited {new' top' : List V} (hs : s.Inv succs vertices Good) (hpre : ∀ x ∈ s.stack, Reach succs x v)
    (hedge : w ∈ succs v) (hvisit : Visited succs vertices Good t w new' top' u) :
    Scanned succs vertices Good s v (ws ++ [w]) (new ++ w :: new') (top' ++ top) (u.lower v (u.low w)) := by
  have hlow : u.low v = t.low v := hvisit.frame v h.indexed_self
  have hlower : (u.lower v (u.low w)).low v = min (t.low v) (u.low w) := by
    rw [← hlow]
    exact Function.update_self _ _ _
  have hgrows : ∀ x ∈ t.indices, x ∈ u.indices := by
    intro x hx
    rw [hvisit.indices]
    exact List.mem_append_left _ hx
  have hwu : w ∈ u.indices := by
    rw [hvisit.indices]
    exact List.mem_append_right _ List.mem_cons_self
  have hwt : w ∉ t.indices := by
    intro hmem
    have hnodup := hvisit.inv.nodup
    rw [hvisit.indices, List.nodup_append] at hnodup
    exact hnodup.2.2 w hmem w List.mem_cons_self rfl
  -- the low number of `w` is the index of a vertex on the stack, which reaches `v`
  have hlowW : s.indices.length ≤ u.low w ∨ ∃ y ∈ s.stack, u.low w = s.index y ∧ Reach succs v y := by
    obtain ⟨-, hlen⟩ | ⟨y, hy, hyw, hreach⟩ := hvisit.low
    · rw [hlen, h.indices, List.length_append]
      omega
    · rw [hyw]
      obtain hle | ⟨hold, hidx⟩ := h.stack_index hs hy
      · exact Or.inl hle
      · exact Or.inr ⟨y, hold, hidx, Relation.ReflTransGen.head hedge hreach⟩
  have hback : ∀ x ∈ top', Reach succs x v := by
    intro x hx
    obtain ⟨htop, -⟩ | ⟨y, hy, -, hreach⟩ := hvisit.low
    · rw [htop] at hx
      cases hx
    · exact (hvisit.back x hx).trans (hreach.trans (h.stack_reach hpre hy))
  have hinv : (u.lower v (u.low w)).Inv succs vertices Good :=
    ⟨hvisit.inv.nodup, hvisit.inv.stack_nodup, hvisit.inv.known, hvisit.inv.indexed, hvisit.inv.closed,
      hvisit.inv.good⟩
  refine
    { inv := hinv, indices := ?_, stack := ?_, top_new := ?_, reach := ?_, succs_new := ?_, looked := ?_, back := ?_,
      frame := ?_, low := ?_, low_top := ?_, low_looked := ?_ }
  · show u.indices = _
    rw [hvisit.indices, h.indices]
    simp
  · show u.stack = _
    rw [hvisit.stack, h.stack]
    simp
  · intro x hx
    obtain hx | hx := List.mem_append.mp hx
    · exact List.mem_append_right _ (hvisit.top_new x hx)
    · exact List.mem_append_left _ (h.top_new x hx)
  · intro x hx
    obtain hx | hx := List.mem_append.mp hx
    · exact h.reach x hx
    · obtain rfl | hx := List.mem_cons.mp hx
      · exact Relation.ReflTransGen.single hedge
      · exact Relation.ReflTransGen.head hedge (hvisit.reach x hx)
  · intro x hx y hy
    obtain hx | hx := List.mem_append.mp hx
    · exact hgrows y (h.succs_new x hx y hy)
    · exact hvisit.succs_new x hx y hy
  · intro x hx
    obtain hx | hx := List.mem_append.mp hx
    · exact hgrows x (h.looked x hx)
    · exact List.mem_singleton.mp hx ▸ hwu
  · intro x hx
    obtain hx | hx := List.mem_append.mp hx
    · exact hback x hx
    · exact h.back x hx
  · intro x hx
    rw [← h.frame x hx, ← hvisit.frame x (h.indexed_of_old hx)]
    refine Function.update_of_ne ?_ _ _
    rintro rfl
    exact h.not_old List.mem_cons_self hx
  · rw [hlower]
    exact low_min hs h.low hlowW
  · intro x hx y hy hstack
    rw [hlower]
    obtain hx | hx := List.mem_append.mp hx
    · have hstack' : y ∈ t.stack := by
        rw [h.stack]
        exact List.mem_append_right _ (List.mem_cons_of_mem v hstack)
      rw [← Search.index_append h.indices (hs.indexed y hstack)]
      exact (min_le_right _ _).trans (hvisit.low_top x hx y hy hstack')
    · exact (min_le_left _ _).trans (h.low_top x hx y hy hstack)
  · intro x hx hstack
    rw [hlower]
    obtain hx | hx := List.mem_append.mp hx
    · exact (min_le_left _ _).trans (h.low_looked x hx hstack)
    · obtain rfl := List.mem_singleton.mp hx
      exact absurd (h.indexed_of_old (hs.indexed x hstack)) hwt

/-- Looking along one more edge. -/
theorem look {visit : V → Search V σ → Search V σ} (hs : s.Inv succs vertices Good)
    (hpre : ∀ x ∈ s.stack, Reach succs x v) (hedge : w ∈ succs v)
    (hvisit : w ∉ t.indices → ∃ new' top', Visited succs vertices Good t w new' top' (visit w t)) :
    ∃ new' top', Scanned succs vertices Good s v (ws ++ [w]) new' top' (t.look v visit w) := by
  unfold Search.look
  by_cases hw : w ∈ t.indices
  · rw [if_neg (not_not_intro hw)]
    by_cases hstack : w ∈ t.stack
    · rw [if_pos hstack]
      have hn : s.indices.length ≤ t.index w ∨ ∃ y ∈ s.stack, t.index w = s.index y ∧ Reach succs v y := by
        obtain hle | ⟨hold, hidx⟩ := h.stack_index hs hstack
        · exact Or.inl hle
        · exact Or.inr ⟨w, hold, hidx, Relation.ReflTransGen.single hedge⟩
      refine ⟨new, top, (h.lower hs hn).snoc hw fun hold => ?_⟩
      rw [← Search.index_append h.indices (hs.indexed w hold)]
      exact (Function.update_self _ _ _).le.trans (min_le_right _ _)
    · rw [if_neg hstack]
      refine ⟨new, top, h.snoc hw fun hold => absurd ?_ hstack⟩
      rw [h.stack]
      exact List.mem_append_right _ (List.mem_cons_of_mem v hold)
  · rw [if_pos hw]
    obtain ⟨new', top', hvisited⟩ := hvisit hw
    exact ⟨_, _, h.visited hs hpre hedge hvisited⟩

end Scanned

section leave

variable {emit : V → List V → σ → σ}

/-- The component of a root is what is on the stack down to it. -/
theorem Scanned.component (h : Scanned succs vertices Good s v (succs v) new top t) (hs : s.Inv succs vertices Good)
    (hroot : t.low v = s.indices.length) : Component succs t.done v (top ++ [v]) := by
  have hmem : ∀ {x}, x ∈ top ++ [v] → x ∈ t.stack := by
    intro x hx
    rw [h.stack, List.append_cons]
    exact List.mem_append_left _ hx
  -- an edge to an older vertex on the stack would have lowered the low number
  have hlow : ∀ {y}, y ∈ s.stack → ¬ t.low v ≤ s.index y := by
    intro y hy
    have hlt := Search.index_lt (hs.indexed y hy)
    omega
  have hout : ∀ {x}, x ∈ top ++ [v] → Reach succs v x := by
    intro x hx
    obtain hx | hx := List.mem_append.mp hx
    · exact h.reach x (h.top_new x hx)
    · rw [List.mem_singleton.mp hx]
  have hback : ∀ {x}, x ∈ top ++ [v] → Reach succs x v := by
    intro x hx
    obtain hx | hx := List.mem_append.mp hx
    · exact h.back x hx
    · rw [List.mem_singleton.mp hx]
  refine ⟨?_, List.mem_append_right _ List.mem_cons_self, ?_, ?_, ?_⟩
  · have hnodup := h.inv.stack_nodup
    rw [h.stack, List.append_cons] at hnodup
    exact hnodup.of_append_left
  · intro x hx hdone
    exact hdone.2 (hmem hx)
  · intro x hx y hy
    have hindexed : y ∈ t.indices := by
      obtain hx | hx := List.mem_append.mp hx
      · exact h.succs_new x (h.top_new x hx) y hy
      · exact h.looked y (List.mem_singleton.mp hx ▸ hy)
    by_cases hstack : y ∈ t.stack
    · rw [h.stack, List.append_cons] at hstack
      obtain hstack | hstack := List.mem_append.mp hstack
      · exact Or.inl hstack
      · obtain hx | hx := List.mem_append.mp hx
        · exact absurd (h.low_top x hx y hy hstack) (hlow hstack)
        · exact absurd (h.low_looked y (List.mem_singleton.mp hx ▸ hy) hstack) (hlow hstack)
    · exact Or.inr ⟨hindexed, hstack⟩
  · intro x hx y hy
    exact (hback hx).trans (hout hy)

/-- `emit` keeps `Good` when a component of known vertices is handed over. -/
def EmitKeeps (succs : V → List V) (Known : V → Prop) (Good : Set V → σ → Prop) (emit : V → List V → σ → σ) : Prop :=
  ∀ done out root members, ClosedUnder succs done → Good done out → Component succs done root members →
    (∀ x ∈ members, Known x) → Good (done ∪ {x | x ∈ members}) (emit root members out)

theorem Scanned.leave (h : Scanned succs vertices Good s v (succs v) new top t) (hs : s.Inv succs vertices Good)
    (hemit : EmitKeeps succs (· ∈ vertices) Good emit) :
    ∃ top', Visited succs vertices Good s v new top' (t.leave emit s.indices.length v) := by
  have hsuccs : ∀ x ∈ v :: new, ∀ y ∈ succs x, y ∈ t.indices := by
    intro x hx y hy
    obtain rfl | hx := List.mem_cons.mp hx
    · exact h.looked y hy
    · exact h.succs_new x hx y hy
  unfold Search.leave
  by_cases hroot : t.low v = s.indices.length
  · have hcomponent := h.component hs hroot
    have hv : v ∉ top := by
      intro hv
      have hnodup := h.inv.stack_nodup
      rw [h.stack, List.nodup_append] at hnodup
      exact hnodup.2.2 v hv v List.mem_cons_self rfl
    rw [if_neg (not_not_intro hroot), h.stack, popTo_append hv]
    have hdone : Search.done { t with stack := s.stack, out := emit v (top ++ [v]) t.out } =
        t.done ∪ {x | x ∈ top ++ [v]} := by
      ext x
      simp only [Search.done, h.stack, List.append_cons top v s.stack, Set.mem_union, Set.mem_ofPred_eq,
        List.mem_append (s := top ++ [v]), not_or]
      constructor
      · rintro ⟨hx, hstack⟩
        by_cases hmem : x ∈ top ++ [v]
        · exact Or.inr hmem
        · exact Or.inl ⟨hx, hmem, hstack⟩
      · rintro (⟨hx, -, hstack⟩ | hmem)
        · exact ⟨hx, hstack⟩
        · have hstack : x ∈ t.stack := by
            rw [h.stack, List.append_cons]
            exact List.mem_append_left _ hmem
          refine ⟨h.inv.indexed x hstack, fun hold => ?_⟩
          have hnodup := h.inv.stack_nodup
          rw [h.stack, List.append_cons, List.nodup_append] at hnodup
          exact hnodup.2.2 x hmem x hold rfl
    refine ⟨[], ⟨?_, h.indices, rfl, nofun, h.reach, hsuccs, nofun, h.frame, Or.inl ⟨rfl, hroot⟩, nofun⟩⟩
    refine ⟨h.inv.nodup, hs.stack_nodup, h.inv.known, ?_, ?_, ?_⟩
    · intro x hx
      exact h.indexed_of_old (hs.indexed x hx)
    · rw [hdone]
      rintro x (hx | hx) y hy
      · exact Or.inl (h.inv.closed x hx y hy)
      · exact (hcomponent.closed x hx y hy).symm
    · rw [hdone]
      refine hemit _ _ _ _ h.inv.closed h.inv.good hcomponent fun x hx => ?_
      have hstack : x ∈ t.stack := by
        rw [h.stack, List.append_cons]
        exact List.mem_append_left _ hx
      exact h.inv.known x (h.inv.indexed x hstack)
  · rw [if_pos hroot]
    obtain hlow | hlow := h.low
    · exact absurd hlow hroot
    · refine ⟨top ++ [v], ⟨h.inv, h.indices, ?_, ?_, h.reach, hsuccs, ?_, h.frame, Or.inr hlow, ?_⟩⟩
      · rw [h.stack, List.append_cons]
      · intro x hx
        obtain hx | hx := List.mem_append.mp hx
        · exact List.mem_cons_of_mem v (h.top_new x hx)
        · exact List.mem_singleton.mp hx ▸ List.mem_cons_self
      · intro x hx
        obtain hx | hx := List.mem_append.mp hx
        · exact h.back x hx
        · rw [List.mem_singleton.mp hx]
      · intro x hx y hy hstack
        obtain hx | hx := List.mem_append.mp hx
        · exact h.low_top x hx y hy hstack
        · exact h.low_looked y (List.mem_singleton.mp hx ▸ hy) hstack

end leave

end visit

/-! ### The search -/

section search

variable {succs : V → List V} {emit : V → List V → σ → σ} {vertices : Finset V} {Good : Set V → σ → Prop}

/-- The vertices that were not come to. -/
def Search.left (vertices : Finset V) (s : Search V σ) : Finset V := vertices.filter fun x => x ∉ s.indices

theorem Search.left_lt {s t : Search V σ} {v : V} {new : List V} (hv : v ∈ vertices) (hnew : v ∉ s.indices)
    (ht : t.indices = s.indices ++ v :: new) : (t.left vertices).card < (s.left vertices).card := by
  apply Finset.card_lt_card
  rw [Finset.ssubset_iff_of_subset]
  · refine ⟨v, Finset.mem_filter.mpr ⟨hv, hnew⟩, fun hmem => (Finset.mem_filter.mp hmem).2 ?_⟩
    rw [ht]
    exact List.mem_append_right _ List.mem_cons_self
  · intro x hx
    obtain ⟨hx, hnot⟩ := Finset.mem_filter.mp hx
    refine Finset.mem_filter.mpr ⟨hx, fun hmem => hnot ?_⟩
    rw [ht]
    exact List.mem_append_left _ hmem

variable (hclosed : ∀ v ∈ vertices, ∀ w ∈ succs v, w ∈ vertices) (hemit : EmitKeeps succs (· ∈ vertices) Good emit)

include hclosed hemit

/-- A visit with fuel for the vertices that are left. -/
theorem visit_spec (fuel : ℕ) {s : Search V σ} {v : V} (hs : s.Inv succs vertices Good) (hknown : v ∈ vertices)
    (hv : v ∉ s.indices) (hpre : ∀ x ∈ s.stack, Reach succs x v) (hfuel : (s.left vertices).card ≤ fuel) :
    ∃ new top, Visited succs vertices Good s v new top (visit succs emit fuel v s) := by
  induction fuel generalizing s v with
  | zero =>
      have hmem : v ∈ s.left vertices := Finset.mem_filter.mpr ⟨hknown, hv⟩
      have hpos := Finset.card_pos.mpr ⟨v, hmem⟩
      omega
  | succ fuel ih =>
      -- along the successors of `v`, from the ones that were looked at
      have hscan : ∀ (rest ws new top : List V) (t : Search V σ), succs v = ws ++ rest →
          Scanned succs vertices Good s v ws new top t →
          ∃ new' top', Scanned succs vertices Good s v (succs v) new' top'
            (rest.foldl (fun t w => t.look v (visit succs emit fuel) w) t) := by
        intro rest
        induction rest with
        | nil =>
            intro ws new top t hws h
            rw [List.append_nil] at hws
            exact ⟨new, top, hws ▸ h⟩
        | cons w rest ihRest =>
            intro ws new top t hws h
            have hedge : w ∈ succs v := by
              rw [hws]
              exact List.mem_append_right _ List.mem_cons_self
            have hleft : (t.left vertices).card ≤ fuel := by
              have hlt := Search.left_lt hknown hv h.indices
              omega
            have hvisit : w ∉ t.indices →
                ∃ new' top', Visited succs vertices Good t w new' top' (visit succs emit fuel w t) := by
              intro hw
              refine ih h.inv (hclosed v hknown w hedge) hw (fun x hx => ?_) hleft
              exact (h.stack_reach hpre hx).tail hedge
            obtain ⟨new', top', hlook⟩ := h.look hs hpre hedge hvisit
            rw [List.append_cons] at hws
            exact ihRest _ new' top' _ hws hlook
      obtain ⟨new, top, hscanned⟩ := hscan (succs v) [] [] [] _ rfl (scanned_enter hs hv hknown)
      obtain ⟨top', hvisited⟩ := hscanned.leave hs hemit
      exact ⟨new, top', hvisited⟩

/-- From an empty stack a visit comes back to an empty stack, with all that could be reached indexed. -/
theorem search_step {s : Search V σ} (hs : s.Inv succs vertices Good) (hempty : s.stack = []) {v : V}
    (hknown : v ∈ vertices) {fuel : ℕ} (hfuel : vertices.card ≤ fuel) :
    ∃ t, (if v ∉ s.indices then visit succs emit fuel v s else s) = t ∧ t.Inv succs vertices Good ∧ t.stack = [] ∧
      v ∈ t.indices ∧ ∀ x ∈ s.indices, x ∈ t.indices := by
  by_cases hv : v ∈ s.indices
  · rw [if_neg (not_not_intro hv)]
    exact ⟨s, rfl, hs, hempty, hv, fun _ hx => hx⟩
  · rw [if_pos hv]
    have hpre : ∀ x ∈ s.stack, Reach succs x v := by
      rw [hempty]
      exact nofun
    have hleft : (s.left vertices).card ≤ fuel := (Finset.card_filter_le _ _).trans hfuel
    obtain ⟨new, top, h⟩ := visit_spec hclosed hemit fuel hs hknown hv hpre hleft
    have htop : top = [] := by
      obtain ⟨htop, -⟩ | ⟨y, hy, -⟩ := h.low
      · exact htop
      · rw [hempty] at hy
        cases hy
    refine ⟨_, rfl, h.inv, ?_, ?_, ?_⟩
    · rw [h.stack, htop, hempty]
      rfl
    · rw [h.indices]
      exact List.mem_append_right _ List.mem_cons_self
    · intro x hx
      rw [h.indices]
      exact List.mem_append_left _ hx

omit hclosed hemit in
/-- What `emit` keeps, from before the first component on, holds of all the vertices in the end. -/
theorem search_induct {vs : List V} (hclosed : ∀ v ∈ vs, ∀ w ∈ succs v, w ∈ vs)
    (hemit : EmitKeeps succs (· ∈ vs) Good emit) {fuel : ℕ} (hfuel : vs.length ≤ fuel) {out : σ} (hout : Good ∅ out) :
    Good {x | x ∈ vs} (search succs emit fuel vs out).out := by
  have hclosed' : ∀ v ∈ vs.toFinset, ∀ w ∈ succs v, w ∈ vs.toFinset := by simpa using hclosed
  have hemit : EmitKeeps succs (· ∈ vs.toFinset) Good emit := by simpa only [List.mem_toFinset] using hemit
  have hcard : vs.toFinset.card ≤ fuel := (List.toFinset_card_le vs).trans hfuel
  have hfold : ∀ (rest : List V) (s : Search V σ), (∀ v ∈ rest, v ∈ vs) → s.Inv succs vs.toFinset Good →
      s.stack = [] → ∃ t, rest.foldl (fun s v => if v ∉ s.indices then visit succs emit fuel v s else s) s = t ∧
        t.Inv succs vs.toFinset Good ∧ t.stack = [] ∧ (∀ v ∈ rest, v ∈ t.indices) ∧ ∀ x ∈ s.indices, x ∈ t.indices := by
    intro rest
    induction rest with
    | nil => exact fun s _ hs hempty => ⟨s, rfl, hs, hempty, nofun, fun _ hx => hx⟩
    | cons v rest ih =>
        intro s hrest hs hempty
        have hknown : v ∈ vs.toFinset := List.mem_toFinset.mpr (hrest v List.mem_cons_self)
        obtain ⟨t, ht, htinv, htempty, hvt, hgrow⟩ := search_step hclosed' hemit hs hempty hknown hcard
        obtain ⟨u, hu, huinv, huempty, hrestu, hgrowu⟩ :=
          ih t (fun x hx => hrest x (List.mem_cons_of_mem v hx)) htinv htempty
        refine ⟨u, ?_, huinv, huempty, ?_, fun x hx => hgrowu x (hgrow x hx)⟩
        · rw [List.foldl_cons, ht]
          exact hu
        · intro x hx
          obtain rfl | hx := List.mem_cons.mp hx
          · exact hgrowu x hvt
          · exact hrestu x hx
  have hinit : Search.Inv succs vs.toFinset Good (⟨[], fun _ => 0, [], out⟩ : Search V σ) := by
    have hdone : Search.done (⟨[], fun _ => 0, [], out⟩ : Search V σ) = ∅ := by
      ext x
      simp [Search.done]
    refine ⟨List.nodup_nil, List.nodup_nil, nofun, nofun, ?_, ?_⟩
    · rw [hdone]
      exact nofun
    · rw [hdone]
      exact hout
  obtain ⟨t, ht, htinv, htempty, hall, -⟩ := hfold vs _ (fun _ hv => hv) hinit rfl
  have hdone : t.done = {x | x ∈ vs} := by
    ext x
    simp only [Search.done, htempty, List.not_mem_nil, not_false_eq_true, and_true, Set.mem_ofPred_eq]
    exact ⟨fun hx => List.mem_toFinset.mp (htinv.known x hx), hall x⟩
  rw [search, ht, ← hdone]
  exact htinv.good

end search

end Remudero.Lib
