import Remudero.Memory.Ledger

/-! # The descendant walk

`walkDescendants` of `lib/host-memory-ledger.ts`.  The worklist has pids and the known identities have start times,
so that a pid in the queue stands for the process that has it now.  `Walked` is the invariant of the loop: what was
added was found by links, and the children of every process that may be passed through are known or its pid is queued.

* `walkDescendants_exact`: in a listing of distinct pids the queue empties, and what was added are the descendants of
  the live recorded identities that were not recorded, each once. -/

namespace Remudero.Memory.Ledger

open Remudero.Lib

variable {tree added : List Identity} {rows : List Row} {queue : List ℕ}

/-- A recorded identity that is in the listing with the same start time. -/
def Live (tree : List Identity) (rows : List Row) (i : Identity) : Prop := i ∈ tree ∧ ∃ r ∈ rows, r.identity = i

/-- Reached by one or more links from a live recorded identity; a path passes through live recorded identities and
through ones that were not recorded. -/
inductive Descends (tree : List Identity) (rows : List Row) : Identity → Prop
  | child {i : Identity} {r : Row} : Live tree rows i → r ∈ rows → r.parent = i.pid → Descends tree rows r.identity
  | next {i : Identity} {r : Row} : Descends tree rows i → (i ∈ tree → Live tree rows i) → r ∈ rows →
      r.parent = i.pid → Descends tree rows r.identity

/-- The pids that the walk starts from. -/
def liveRoots (tree : List Identity) (rows : List Row) : List ℕ :=
  (tree.filter fun i => (rowOf rows i.pid).any fun r => some r.start = i.start).map Identity.pid

theorem walkDescendants_eq (tree : List Identity) (rows : List Row) :
    walkDescendants tree rows = walkQueue rows ((liveRoots tree rows).length + rows.length) (liveRoots tree rows) tree [] :=
  rfl

/-- In a listing of distinct pids the row of a pid is the one that has it. -/
theorem rowOf_eq_some_iff (hpids : (rows.map Row.pid).Nodup) {pid : ℕ} {r : Row} :
    rowOf rows pid = some r ↔ r ∈ rows ∧ r.pid = pid := by
  have hinj : ∀ a ∈ rows, ∀ b ∈ rows, a.pid = b.pid → a = b := fun a ha b hb => List.inj_on_of_nodup_map hpids ha hb
  constructor
  · intro h
    exact ⟨List.mem_reverse.mp (List.mem_of_find?_eq_some h), by simpa using List.find?_some h⟩
  · rintro ⟨hr, rfl⟩
    cases hfind : rowOf rows r.pid with
    | none =>
        have hnone := List.find?_eq_none.mp hfind r (List.mem_reverse.mpr hr)
        simp at hnone
    | some r' =>
        have hmem : r' ∈ rows := List.mem_reverse.mp (List.mem_of_find?_eq_some hfind)
        have hpid : r'.pid = r.pid := by simpa using List.find?_some hfind
        rw [hinj r' hmem r hr hpid]

theorem mem_liveRoots (hpids : (rows.map Row.pid).Nodup) {pid : ℕ} :
    pid ∈ liveRoots tree rows ↔ ∃ i, i.pid = pid ∧ Live tree rows i := by
  have hlive : ∀ i : Identity, ((rowOf rows i.pid).any fun r => some r.start = i.start) = true ↔
      ∃ r ∈ rows, r.identity = i := by
    intro i
    rw [Option.any_eq_true]
    constructor
    · rintro ⟨r, hr, hstart⟩
      obtain ⟨hmem, hpid⟩ := (rowOf_eq_some_iff hpids).mp hr
      refine ⟨r, hmem, ?_⟩
      rw [Row.identity, hpid, of_decide_eq_true hstart]
    · rintro ⟨r, hr, rfl⟩
      exact ⟨r, (rowOf_eq_some_iff hpids).mpr ⟨hr, rfl⟩, by simp [Row.identity]⟩
  unfold liveRoots
  rw [List.mem_map]
  constructor
  · rintro ⟨i, hi, rfl⟩
    obtain ⟨hmem, hany⟩ := List.mem_filter.mp hi
    exact ⟨i, rfl, hmem, (hlive i).mp hany⟩
  · rintro ⟨i, rfl, hmem, hrow⟩
    exact ⟨i, List.mem_filter.mpr ⟨hmem, (hlive i).mpr hrow⟩, rfl⟩

/-! ### One round -/

/-- The children of a pid that are not known yet. -/
def freshChildren (rows : List Row) (known : List Identity) (pid : ℕ) : List Identity :=
  firstSeen some known ((rows.filter fun r => r.parent = pid).map Row.identity)

theorem mem_freshChildren {known : List Identity} {pid : ℕ} {i : Identity} :
    i ∈ freshChildren rows known pid ↔ i ∉ known ∧ ∃ r ∈ rows, r.parent = pid ∧ r.identity = i := by
  have hchild : i ∈ (rows.filter fun r => r.parent = pid).map Row.identity ↔
      ∃ r ∈ rows, r.parent = pid ∧ r.identity = i := by
    simp [and_assoc]
  constructor
  · intro h
    refine ⟨?_, hchild.mp ((firstSeen_sublist some known _).subset h)⟩
    intro hknown
    exact not_mem_firstSeen_of_seen some rfl hknown h
  · rintro ⟨hnew, hrow⟩
    obtain ⟨j, hj, hij⟩ := exists_mem_firstSeen some (hchild.mpr hrow) rfl hnew
    rwa [Option.some.inj hij] at hj

theorem nodup_freshChildren (known : List Identity) (pid : ℕ) : (freshChildren rows known pid).Nodup :=
  nodup_firstSeen some known fun _ _ => rfl

/-- What was added was found by links, and nothing that a path may pass through is left behind. -/
structure Walked (tree : List Identity) (rows : List Row) (queue : List ℕ) (added : List Identity) : Prop where
  new : ∀ i ∈ added, i ∉ tree
  nodup : added.Nodup
  found : ∀ i ∈ added, Descends tree rows i
  queued : ∀ pid ∈ queue, ∃ i, i.pid = pid ∧ (Live tree rows i ∨ i ∈ added)
  closed : ∀ i, Live tree rows i ∨ i ∈ added → i.pid ∈ queue ∨ ∀ r ∈ rows, r.parent = i.pid → r.identity ∈ tree ++ added

theorem Walked.step {pid : ℕ} (h : Walked tree rows (pid :: queue) added) :
    Walked tree rows (queue ++ (freshChildren rows (tree ++ added) pid).map Identity.pid)
      (added ++ freshChildren rows (tree ++ added) pid) := by
  have hfresh := fun i => @mem_freshChildren rows (tree ++ added) pid i
  obtain ⟨parent, hparent, hpass⟩ := h.queued pid List.mem_cons_self
  refine ⟨?_, ?_, ?_, ?_, ?_⟩
  · intro i hi
    rcases List.mem_append.mp hi with hi | hi
    · exact h.new i hi
    · exact fun htree => ((hfresh i).mp hi).1 (List.mem_append_left _ htree)
  · refine List.nodup_append.mpr ⟨h.nodup, nodup_freshChildren _ _, ?_⟩
    rintro i hi j hj rfl
    exact ((hfresh i).mp hj).1 (List.mem_append_right _ hi)
  · intro i hi
    rcases List.mem_append.mp hi with hi | hi
    · exact h.found i hi
    · obtain ⟨-, r, hr, hlink, rfl⟩ := (hfresh i).mp hi
      rcases hpass with hlive | hadded
      · exact .child hlive hr (hlink.trans hparent.symm)
      · refine .next (h.found parent hadded) ?_ hr (hlink.trans hparent.symm)
        intro htree
        exact absurd htree (h.new parent hadded)
  · intro p hp
    rcases List.mem_append.mp hp with hp | hp
    · obtain ⟨i, hi, hlive | hadded⟩ := h.queued p (List.mem_cons_of_mem pid hp)
      · exact ⟨i, hi, .inl hlive⟩
      · exact ⟨i, hi, .inr (List.mem_append_left _ hadded)⟩
    · obtain ⟨i, hi, rfl⟩ := List.mem_map.mp hp
      exact ⟨i, rfl, .inr (List.mem_append_right _ hi)⟩
  · intro i hi
    -- an identity that was just added is queued; any other one was, or had its children known
    have hold : (Live tree rows i ∨ i ∈ added) ∨ i ∈ freshChildren rows (tree ++ added) pid := by
      rcases hi with hlive | hadded
      · exact .inl (.inl hlive)
      · exact (List.mem_append.mp hadded).imp_left .inr
    rcases hold with hold | hnew
    · rcases h.closed i hold with hqueued | hclosed
      · rcases List.mem_cons.mp hqueued with hpid | hqueue
        · right
          intro r hr hlink
          by_cases hknown : r.identity ∈ tree ++ added
          · rw [← List.append_assoc]
            exact List.mem_append_left _ hknown
          · rw [← List.append_assoc]
            exact List.mem_append_right _ ((hfresh _).mpr ⟨hknown, r, hr, hlink.trans hpid, rfl⟩)
        · exact .inl (List.mem_append_left _ hqueue)
      · right
        intro r hr hlink
        rw [← List.append_assoc]
        exact List.mem_append_left _ (hclosed r hr hlink)
    · exact .inl (List.mem_append_right _ (List.mem_map.mpr ⟨i, hnew, rfl⟩))

/-- When the queue is empty, what was added is what descends and was not recorded. -/
theorem Walked.mem_iff (h : Walked tree rows [] added) (i : Identity) : i ∈ added ↔ i ∉ tree ∧ Descends tree rows i := by
  have hclosed : ∀ j, Live tree rows j ∨ j ∈ added → ∀ r ∈ rows, r.parent = j.pid → r.identity ∈ tree ++ added :=
    fun j hj => (h.closed j hj).resolve_left List.not_mem_nil
  constructor
  · intro hi
    exact ⟨h.new i hi, h.found i hi⟩
  · rintro ⟨hnew, hdesc⟩
    have hmem : i ∈ tree ++ added := by
      clear hnew
      induction hdesc with
      | child hlive hr hlink => exact hclosed _ (.inl hlive) _ hr hlink
      | @next j r _ hlive hr hlink ih =>
          rcases List.mem_append.mp ih with htree | hadded
          · exact hclosed j (.inl (hlive htree)) r hr hlink
          · exact hclosed j (.inr hadded) r hr hlink
    exact (List.mem_append.mp hmem).resolve_left hnew

/-! ### The whole walk -/

/-- The rows of the listing whose identities are not known. -/
def unknownRows (rows : List Row) (known : List Identity) : ℕ := (rows.map Row.identity).countP fun i => i ∉ known

/-- Each identity that is added takes a row of its own. -/
theorem unknownRows_append {known : List Identity} {pid : ℕ} :
    unknownRows rows (known ++ freshChildren rows known pid) + (freshChildren rows known pid).length ≤
      unknownRows rows known := by
  have hsubset : freshChildren rows known pid ⊆
      (rows.map Row.identity).filter fun i => i ∉ known ∧ i ∈ freshChildren rows known pid := by
    intro i hi
    obtain ⟨hnew, r, hr, -, rfl⟩ := mem_freshChildren.mp hi
    exact List.mem_filter.mpr ⟨List.mem_map.mpr ⟨r, hr, rfl⟩, by simp [hnew, hi]⟩
  have hlength : (freshChildren rows known pid).length ≤
      (rows.map Row.identity).countP fun i => i ∉ known ∧ i ∈ freshChildren rows known pid := by
    rw [List.countP_eq_length_filter]
    exact ((nodup_freshChildren known pid).subperm hsubset).length_le
  have hsplit := List.countP_eq_countP_filter_add (rows.map Row.identity) (fun i => decide (i ∉ known))
    (fun i => decide (i ∈ freshChildren rows known pid))
  unfold unknownRows
  rw [List.countP_filter, List.countP_filter] at hsplit
  simp only [List.mem_append, not_or, Bool.decide_and] at hlength ⊢
  simp only [← decide_not] at hsplit
  rw [hsplit]
  omega

theorem walked_queue (queue : List ℕ) (added : List Identity) (h : Walked tree rows queue added) :
    ∃ out, Walked tree rows [] out ∧ ∀ fuel, queue.length + unknownRows rows (tree ++ added) ≤ fuel →
      walkQueue rows fuel queue (tree ++ added) added = out := by
  induction hm : queue.length + unknownRows rows (tree ++ added) using Nat.strong_induction_on generalizing queue added with
  | _ m ih =>
      cases queue with
      | nil =>
          refine ⟨added, h, ?_⟩
          intro fuel _
          cases fuel <;> rfl
      | cons pid queue =>
          have hless := @unknownRows_append rows (tree ++ added) pid
          rw [List.append_assoc] at hless
          have hlength : (queue ++ (freshChildren rows (tree ++ added) pid).map Identity.pid).length =
              queue.length + (freshChildren rows (tree ++ added) pid).length := by simp
          rw [List.length_cons] at hm
          obtain ⟨out, hout, hrun⟩ := ih _ (by omega) _ _ h.step rfl
          refine ⟨out, hout, ?_⟩
          intro fuel hfuel
          cases fuel with
          | zero => omega
          | succ fuel =>
              rw [walkQueue]
              rw [← List.append_assoc] at hrun
              exact hrun fuel (by rw [List.append_assoc]; omega)

/-- With distinct pids in the listing the walk ends with an empty queue, so that more turns change nothing, and it
gives the identities that were not recorded and descend from a live recorded one, each once. -/
theorem walkDescendants_exact (tree : List Identity) (rows : List Row) (hpids : (rows.map Row.pid).Nodup) :
    (∀ fuel, (liveRoots tree rows).length + rows.length ≤ fuel →
      walkQueue rows fuel (liveRoots tree rows) tree [] = walkDescendants tree rows) ∧
    (walkDescendants tree rows).Nodup ∧
    ∀ i, i ∈ walkDescendants tree rows ↔ i ∉ tree ∧ Descends tree rows i := by
  have hstart : Walked tree rows (liveRoots tree rows) [] := by
    refine ⟨nofun, List.nodup_nil, nofun, ?_, ?_⟩
    · intro pid hpid
      obtain ⟨i, hi, hlive⟩ := (mem_liveRoots hpids).mp hpid
      exact ⟨i, hi, .inl hlive⟩
    · rintro i (hlive | hadded)
      · exact .inl ((mem_liveRoots hpids).mpr ⟨i, rfl, hlive⟩)
      · cases hadded
  obtain ⟨out, hout, hrun⟩ := walked_queue _ _ hstart
  rw [List.append_nil] at hrun
  have hunknown : unknownRows rows tree ≤ rows.length := by
    simpa [unknownRows] using (List.countP_le_length (l := rows.map Row.identity) (p := fun i => decide (i ∉ tree)))
  have hwalk : walkDescendants tree rows = out := by
    rw [walkDescendants_eq]
    exact hrun _ (by omega)
  rw [hwalk]
  refine ⟨?_, hout.nodup, hout.mem_iff⟩
  intro fuel hfuel
  exact hrun fuel (by omega)

def reusedRows : List Row := [⟨1, 0, 10⟩, ⟨2, 1, 20⟩, ⟨3, 2, 30⟩, ⟨4, 0, 41⟩, ⟨5, 4, 50⟩, ⟨6, 7, 60⟩, ⟨7, 6, 70⟩]

/-- A recorded process with a child and a grandchild, one whose pid was taken over, and a cycle of parents. -/
theorem reused_pid_walked :
    walkDescendants [⟨1, some 10⟩, ⟨4, some 40⟩] reusedRows = [⟨2, some 20⟩, ⟨3, some 30⟩] ∧
      ∀ i, i ∈ walkDescendants [⟨1, some 10⟩, ⟨4, some 40⟩] reusedRows ↔
        i ∉ [⟨1, some 10⟩, ⟨4, some 40⟩] ∧ Descends [⟨1, some 10⟩, ⟨4, some 40⟩] reusedRows i :=
  ⟨by decide, (walkDescendants_exact _ reusedRows (by decide)).2.2⟩

end Remudero.Memory.Ledger
