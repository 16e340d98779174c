import Remudero.Memory.Ledger

/-! # Release on verified termination

`released_terminated`: in a run in which no copy that is written drops what was recorded, an entry
that a sweep releases has no recorded identity alive, and it is not released as `treeGone` after one
of its walks was incomplete.

The invariant is that a file has everything recorded (`Complete`).  What a run has to avoid is in
`Keeps`: a lost file replaced by a copy that knows less; a mark of the file hidden by the process's
copy; a generation read otherwise than when the entry was opened; a mark overwritten while the entry
has no root.  `unreadable_init_releases` is the third of these: a sweep that cannot read pid 1 takes
every entry of the running container for one of an earlier generation. -/

namespace Remudero.Memory.Ledger

open Remudero.Lib

variable {P : Type*} {c : Ctx P} {e k d m : Entry} {i : Identity} {id : ℕ} {r : Rule}

/-- The process of an identity lives; where the start is unknown, any process of the pid counts. -/
def Identity.Alive (table : ℕ → Option ℕ) (i : Identity) : Prop :=
  match i.start with
  | some st => table i.pid = some st
  | none => table i.pid ≠ none

/-- A copy has everything recorded for the entry. -/
def Complete (s : Store P) (id : ℕ) (e : Entry) : Prop :=
  (∀ i ∈ s.recorded id, i ∈ e.tree) ∧ (s.missed id = true → e.marked = true)

/-- An entry without roots has no tree. -/
def Entry.Rooted (e : Entry) : Prop := e.roots = [] → e.tree = []

/-! ### Unions and walks -/

theorem mem_union {l₁ l₂ : List Identity} : i ∈ union l₁ l₂ ↔ i ∈ l₁ ∨ i ∈ l₂ := by
  unfold union
  rw [← List.mem_append]
  constructor
  · intro h
    exact (firstSeen_sublist some [] _).subset h
  · intro h
    obtain ⟨j, hj, hij⟩ := exists_mem_firstSeen some h rfl List.not_mem_nil
    rwa [Option.some.inj hij] at hj

theorem union_eq_nil {l₁ l₂ : List Identity} : union l₁ l₂ = [] ↔ l₁ = [] ∧ l₂ = [] := by
  simp only [List.eq_nil_iff_forall_not_mem, mem_union, not_or, forall_and]

theorem walkDescendants_nil (rows : List Row) : walkDescendants [] rows = [] := by
  simp only [walkDescendants, List.filter_nil, List.map_nil, List.length_nil, Nat.zero_add]
  cases rows.length <;> rfl

/-- A terminated identity is not alive. -/
theorem not_alive_of_gone {table : ℕ → Option ℕ} {probe : ℕ → Probe} (ht : Truthful table probe)
    (h : identityState probe i = .gone) : ¬ i.Alive table := by
  unfold identityState at h
  unfold Identity.Alive
  split at h
  · rename_i hgone
    have hnone := (ht i.pid).1 hgone
    split <;> simp [hnone]
  · cases h
  · rename_i st halive
    have hsome := (ht i.pid).2 st halive
    split at h
    · cases h
    · rename_i st' hst'
      split at h
      · cases h
      · rename_i hne
        rw [hst']
        simpa [hsome] using hne

/-! ### Merging -/

theorem Entry.Rooted.bound (e : Entry) (i : Identity) : (e.bound i).Rooted := by
  intro h
  simp [Entry.bound, union_eq_nil] at h

theorem Entry.Rooted.merge (hd : d.Rooted) (he : e.Rooted) : (mergeAndPersist e (some d)).Rooted := by
  intro h
  obtain ⟨h1, h2⟩ := union_eq_nil.mp h
  exact union_eq_nil.mpr ⟨hd h1, he h2⟩

theorem Entry.Rooted.mergeOwned (hd : d.Rooted) (hm : m.Rooted) : (mergeOwnedCopy d m).Rooted := by
  intro h
  obtain ⟨h1, h2⟩ := union_eq_nil.mp h
  exact union_eq_nil.mpr ⟨hd h1, hm h2⟩

/-- A file keeps its mark when a handle's copy is merged into it. -/
theorem marked_mergeAndPersist (h : d.marked = true) : (mergeAndPersist e (some d)).marked = true := by
  unfold Entry.marked mergeAndPersist at *
  simp only [Bool.or_eq_true, decide_eq_true_eq] at h ⊢
  rcases h with hwalk | hhold
  · exact .inl hwalk
  · exact .inr (by simp [hhold])

/-! ### Judging -/

/-- What is kept: the same roots, the walked tree, and the mark of an incomplete walk, its own or, once
there is a root, an earlier one. -/
theorem judgeOwned_keep (h : judgeOwned c e = .keep k) :
    k.roots = e.roots ∧ k.tree = union e.tree (walkDescendants e.tree c.rows) ∧
      (c.complete = false ∨ e.roots ≠ [] ∧ e.marked = true → k.marked = true) := by
  have hwalked : ∀ hold : Option Hold, ¬ (e.roots ≠ [] ∧ (c.complete = false ∨ e.marked = true)) →
      (c.complete = false ∨ e.roots ≠ [] ∧ e.marked = true) →
      ({ e with tree := union e.tree (walkDescendants e.tree c.rows),
                walk := some ⟨c.now, c.complete⟩, hold := hold } : Entry).marked = true := by
    intro hold hno hmark
    have hinc : c.complete = false := by
      rcases hmark with hinc | ⟨hroots, hmarked⟩
      · exact hinc
      · exact absurd ⟨hroots, .inr hmarked⟩ hno
    simp [Entry.marked, hinc]
  unfold judgeOwned at h
  dsimp only at h
  split at h
  · obtain rfl := Judged.keep.inj h
    exact ⟨rfl, rfl, fun _ => by simp [Entry.marked]⟩
  rename_i hno
  split at h
  · obtain rfl := Judged.keep.inj h
    exact ⟨rfl, rfl, hwalked none hno⟩
  split at h
  · cases h
  split at h
  · obtain rfl := Judged.keep.inj h
    exact ⟨rfl, rfl, hwalked _ hno⟩
  split at h
  · cases h
  · obtain rfl := Judged.keep.inj h
    exact ⟨rfl, rfl, hwalked none hno⟩

/-- What is released: an entry without roots, or one whose walks were complete and whose tree is
gone. -/
theorem judgeOwned_release (h : judgeOwned c e = .release r) :
    (r = .neverSpawned ∧ e.roots = [] ∧ occupancyOver c e = true) ∨
      (r = .treeGone ∧ c.complete = true ∧ e.marked = false ∧
        ∀ i ∈ e.tree, identityState c.probe i = .gone) := by
  unfold judgeOwned at h
  dsimp only at h
  split at h
  · cases h
  rename_i hno
  split at h
  · cases h
  rename_i hover
  split at h
  · rename_i hroots
    exact .inl ⟨(Judged.release.inj h).symm, hroots, by simpa using hover⟩
  rename_i hroots
  split at h
  · cases h
  split at h
  · rename_i hall
    right
    have hwalks : ¬ (c.complete = false ∨ e.marked = true) := fun hbad => hno ⟨hroots, hbad⟩
    simp only [not_or, Bool.not_eq_false, Bool.not_eq_true] at hwalks
    refine ⟨(Judged.release.inj h).symm, hwalks.1, hwalks.2, ?_⟩
    intro i hi
    rw [List.all_eq_true] at hall
    simpa using hall i (mem_union.mpr (.inl hi))
  · cases h

/-- A sweep of an entry of its own generation: kept as judged, kept as it is, or released. -/
theorem sweepEntry_keep (hgen : e.generation = c.generation) (h : sweepEntry c e = .keep k) :
    judgeOwned c e = .keep k ∨ (k = e ∧ c.mayRelease = false ∧ ∃ r, judgeOwned c e = .release r) := by
  unfold sweepEntry at h
  rw [if_neg (not_not.mpr hgen)] at h
  split at h
  · rename_i r hjudge
    split at h
    · cases h
    · rename_i hmay
      exact .inr ⟨(Judged.keep.inj h).symm, by simpa using hmay, r, hjudge⟩
  · rename_i k' hjudge
    exact .inl (by rw [hjudge, h])

theorem sweepEntry_release (hgen : e.generation = c.generation) (h : sweepEntry c e = .release r) :
    judgeOwned c e = .release r := by
  unfold sweepEntry at h
  rw [if_neg (not_not.mpr hgen)] at h
  split at h
  · rename_i r' hjudge
    split at h
    · rw [hjudge, h]
    · cases h
  · cases h

/-! ### The condition on a run -/

variable [DecidableEq P] {s t : Store P}

/-- A sweep drops nothing of an entry. -/
structure SweepKeeps (s : Store P) (c : Ctx P) (id : ℕ) : Prop where
  /-- A lost file is replaced by a copy that has everything. -/
  lost : ∀ m, s.disk id = none → s.own c.process id = some m → Complete s id m
  /-- The process's copy does not hide the mark of the file. -/
  merged : ∀ d m, s.disk id = some d → s.own c.process id = some m → d.marked = true →
    (mergeOwnedCopy d m).marked = true
  /-- Pid 1 is read as when the entry was opened. -/
  generation : ∀ e, s.copy c id = some e → e.generation = c.generation
  /-- While there is no root, no walk after an incomplete one is complete, and an incomplete one is
  written. -/
  rootless : ∀ e, s.copy c id = some e → e.roots = [] → (e.marked = true → c.complete = false) ∧
    (c.complete = false → occupancyOver c e = true → c.mayRelease = true)

/-- Where the file is lost, the handle's copy has everything. -/
def HandleKeeps (s : Store P) (id : ℕ) : Prop :=
  ∀ p e, s.handle id = some (p, e) → s.disk id = none → Complete s id e

def Keeps (s : Store P) : Event P → Prop
  | .bindRoot id _ _ => HandleKeeps s id
  | .releaseOccupancy id => HandleKeeps s id
  | .sweep c => ∀ id, SweepKeeps s c id
  | _ => True

/-! ### The invariant -/

structure Inv (s : Store P) : Prop where
  complete : ∀ id d, s.disk id = some d → Complete s id d
  disk : ∀ id d, s.disk id = some d → d.Rooted
  own : ∀ p id m, s.own p id = some m → m.Rooted
  handle : ∀ id p e, s.handle id = some (p, e) → e.Rooted

omit [DecidableEq P] in
theorem inv_init : Inv (Store.init P) := by
  constructor <;> simp [Store.init]

omit [DecidableEq P] in
/-- The copy that a sweep judges has everything recorded. -/
theorem Inv.copy (h : Inv s) (hk : SweepKeeps s c id) (he : s.copy c id = some e) :
    Complete s id e ∧ e.Rooted := by
  unfold Store.copy at he
  cases hd : s.disk id with
  | none =>
      rw [hd] at he
      have hm : s.own c.process id = some e := he
      exact ⟨hk.lost e hd hm, h.own c.process id e hm⟩
  | some d =>
      cases hm : s.own c.process id with
      | none =>
          rw [hd, hm] at he
          obtain rfl := Option.some.inj he
          exact ⟨h.complete id d hd, h.disk id d hd⟩
      | some m =>
          rw [hd, hm] at he
          obtain rfl := Option.some.inj he
          obtain ⟨htree, hmark⟩ := h.complete id d hd
          refine ⟨⟨?_, ?_⟩, (h.disk id d hd).mergeOwned (h.own c.process id m hm)⟩
          · exact fun i hi => mem_union.mpr (.inl (htree i hi))
          · exact fun hmiss => hk.merged d m hd hm (hmark hmiss)

/-- A handle's new copy, with what is recorded then. -/
theorem Inv.write (h : Inv s) {p : P} {l : List Identity} {b : Bool} (hrooted : e.Rooted)
    (htree : ∀ i ∈ l, i ∈ (mergeAndPersist e (s.disk id)).tree)
    (hmark : b = true → (mergeAndPersist e (s.disk id)).marked = true) :
    Inv { s.write p id e with
      recorded := Function.update s.recorded id l
      missed := Function.update s.missed id b } := by
  refine ⟨?_, ?_, ?_, ?_⟩
  · intro id' d hd
    by_cases hid : id' = id
    · subst hid
      obtain rfl : mergeAndPersist e (s.disk id') = d := by simpa [Store.write] using hd
      simpa [Complete] using ⟨htree, hmark⟩
    · have hd' : s.disk id' = some d := by simpa [Store.write, hid] using hd
      simpa [Complete, Store.write, hid] using h.complete id' d hd'
  · intro id' d hd
    by_cases hid : id' = id
    · subst hid
      obtain rfl : mergeAndPersist e (s.disk id') = d := by simpa [Store.write] using hd
      cases hdisk : s.disk id' with
      | none => exact hrooted
      | some d => exact (h.disk id' d hdisk).merge hrooted
    · exact h.disk id' d (by simpa [Store.write, hid] using hd)
  · intro q id' m hm
    by_cases hq : q = p
    · subst hq
      by_cases hid : id' = id
      · obtain rfl : e = m := by simpa [Store.write, hid] using hm
        exact hrooted
      · exact h.own q id' m (by simpa [Store.write, hid] using hm)
    · exact h.own q id' m (by simpa [Store.write, hq] using hm)
  · intro id' q e' he'
    by_cases hid : id' = id
    · obtain ⟨-, rfl⟩ : p = q ∧ e = e' := by simpa [Store.write, hid] using he'
      exact hrooted
    · exact h.handle id' q e' (by simpa [Store.write, hid] using he')

/-- A handle's copy that has grown, merged into the file or in the place of it. -/
theorem Inv.handle_write (h : Inv s) {p : P} {e' : Entry} {l : List Identity}
    (hp : s.handle id = some (p, e)) (hk : HandleKeeps s id)
    (htree : ∀ i, i ∈ e.tree ∨ i ∈ l → i ∈ e'.tree) (hwalk : e'.walk = e.walk)
    (hhold : e'.hold = e.hold) (hrooted : e'.Rooted) :
    Inv { s.write p id e' with recorded := Function.update s.recorded id (s.recorded id ++ l) } := by
  have hsame : Function.update s.missed id (s.missed id) = s.missed := Function.update_eq_self id s.missed
  have hinv : Inv { s.write p id e' with
      recorded := Function.update s.recorded id (s.recorded id ++ l)
      missed := Function.update s.missed id (s.missed id) } := by
    refine h.write hrooted ?_ ?_
    · intro i hi
      cases hdisk : s.disk id with
      | none =>
          refine htree i ((List.mem_append.mp hi).imp_left ?_)
          exact fun hrec => (hk p e hp hdisk).1 i hrec
      | some d =>
          refine mem_union.mpr ((List.mem_append.mp hi).imp ?_ ?_)
          · exact fun hrec => (h.complete id d hdisk).1 i hrec
          · exact fun hl => htree i (.inr hl)
    · intro hmiss
      cases hdisk : s.disk id with
      | none =>
          have hmarked := (hk p e hp hdisk).2 hmiss
          simpa [Entry.marked, mergeAndPersist, hwalk, hhold] using hmarked
      | some d => exact marked_mergeAndPersist ((h.complete id d hdisk).2 hmiss)
  rwa [hsame] at hinv

omit [DecidableEq P] in
/-- What a sweep keeps has everything recorded, and the mark of its walk. -/
theorem Inv.kept (h : Inv s) (hk : SweepKeeps s c id) (he : s.copy c id = some e)
    (hkeep : sweepEntry c e = .keep k) :
    k.Rooted ∧ (∀ i ∈ s.recorded id, i ∈ k.tree) ∧
      (s.missed id = true ∨ c.complete = false → k.marked = true) := by
  obtain ⟨⟨htree, hmark⟩, hrooted⟩ := h.copy hk he
  obtain ⟨hafter, hwritten⟩ : (e.roots = [] → e.marked = true → c.complete = false) ∧
      (e.roots = [] → c.complete = false → occupancyOver c e = true → c.mayRelease = true) :=
    ⟨fun hr => (hk.rootless e he hr).1, fun hr => (hk.rootless e he hr).2⟩
  rcases sweepEntry_keep (hk.generation e he) hkeep with hjudge | ⟨rfl, hmay, r, hjudge⟩
  · obtain ⟨hroots, hktree, hkmark⟩ := judgeOwned_keep hjudge
    refine ⟨?_, ?_, ?_⟩
    · intro hnil
      rw [hroots] at hnil
      rw [hktree, hrooted hnil, walkDescendants_nil]
      rfl
    · intro i hi
      rw [hktree]
      exact mem_union.mpr (.inl (htree i hi))
    · rintro (hmiss | hinc)
      · apply hkmark
        by_cases hnil : e.roots = []
        · exact .inl (hafter hnil (hmark hmiss))
        · exact .inr ⟨hnil, hmark hmiss⟩
      · exact hkmark (.inl hinc)
  · refine ⟨hrooted, htree, ?_⟩
    rintro (hmiss | hinc)
    · exact hmark hmiss
    · rcases judgeOwned_release hjudge with ⟨-, hnil, hover⟩ | ⟨-, hcomplete, -⟩
      · have hyes := hwritten hnil hinc hover
        rw [hmay] at hyes
        cases hyes
      · rw [hinc] at hcomplete
        cases hcomplete

omit [DecidableEq P] in
/-- An entry that a sweep writes was kept by it. -/
theorem swept_kept {x : Entry} (h : (s.swept c id).bind Judged.kept = some x) :
    ∃ e, s.copy c id = some e ∧ sweepEntry c e = .keep x := by
  unfold Store.swept at h
  cases hcopy : s.copy c id with
  | none => simp [hcopy] at h
  | some e =>
      rw [hcopy] at h
      cases hsweep : sweepEntry c e with
      | release r => simp [hsweep, Judged.kept] at h
      | keep k =>
          have hkx : k = x := by simpa [hsweep, Judged.kept] using h
          exact ⟨e, rfl, by rw [hsweep, hkx]⟩

theorem Inv.sweep (h : Inv s) (hk : ∀ id, SweepKeeps s c id) : Inv (s.sweep c) := by
  refine ⟨?_, ?_, ?_, h.handle⟩
  · intro id d hd
    obtain ⟨e, he, hkeep⟩ := swept_kept hd
    obtain ⟨-, htree, hmark⟩ := h.kept (hk id) he hkeep
    refine ⟨?_, ?_⟩
    · intro i hi
      simp only [Store.sweep, he, hkeep, List.mem_append] at hi
      rcases hi with hrec | hnew
      · exact htree i hrec
      · exact hnew
    · intro hmiss
      simp only [Store.sweep, he, hkeep, Bool.or_eq_true, Bool.and_eq_true,
        Bool.not_eq_true'] at hmiss
      exact hmark (hmiss.imp_right And.right)
  · intro id d hd
    obtain ⟨e, he, hkeep⟩ := swept_kept hd
    exact (h.kept (hk id) he hkeep).1
  · intro q id m hm
    by_cases hq : q = c.process
    · subst hq
      simp only [Store.sweep, Function.update_self] at hm
      split at hm
      · obtain ⟨e, he, hkeep⟩ := swept_kept hm
        exact (h.kept (hk id) he hkeep).1
      · cases hm
    · exact h.own q id m (by simpa [Store.sweep, hq] using hm)

omit [DecidableEq P] in
theorem Inv.lose (h : Inv s) : Inv { s with disk := Function.update s.disk id none } := by
  have hold : ∀ id' d, Function.update s.disk id none id' = some d → s.disk id' = some d := by
    intro id' d hd
    by_cases hid : id' = id
    · simp [hid] at hd
    · simpa [hid] using hd
  exact ⟨fun id' d hd => h.complete id' d (hold id' d hd), fun id' d hd => h.disk id' d (hold id' d hd),
    h.own, h.handle⟩

theorem Inv.exit (h : Inv s) (p : P) :
    Inv { s with
      own := Function.update s.own p fun _ => none
      handle := fun id => (s.handle id).filter fun x => x.1 ≠ p } := by
  refine ⟨h.complete, h.disk, ?_, ?_⟩
  · intro q id m hm
    by_cases hq : q = p
    · simp [hq] at hm
    · exact h.own q id m (by simpa [hq] using hm)
  · intro id q e he
    exact h.handle id q e (Option.filter_eq_some_iff.mp he).1

theorem Inv.step {ev : Event P} (h : Inv s) (hstep : Step s ev t) (hk : Keeps s ev) : Inv t := by
  cases hstep with
  | opening hnew hdisk _ =>
      refine h.write (fun _ => rfl) ?_ ?_
      · simp
      · simp
  | bindGone => exact h
  | @bindRoot p id pid probed e i hp _ =>
      refine h.handle_write (l := [i]) hp hk ?_ rfl rfl (Entry.Rooted.bound e i)
      exact fun j hj => mem_union.mpr hj
  | @releaseOccupancy p id e hp =>
      have hinv : Inv { s.write p id { e with occupancyReleased := true } with
          recorded := Function.update s.recorded id (s.recorded id ++ []) } :=
        h.handle_write hp hk (by simp) rfl rfl (h.handle id p e hp)
      rwa [List.append_nil, Function.update_eq_self] at hinv
  | sweep _ => exact h.sweep hk
  | lose => exact h.lose
  | processes => exact ⟨h.complete, h.disk, h.own, h.handle⟩
  | exit => exact h.exit _

theorem run_inv {es : List (Event P)} (hrun : Run (Guarded Step Keeps) (Store.init P) es s) : Inv s := by
  refine hrun.invariant (I := Inv) ?_ inv_init
  rintro s e t hs ⟨hstep, hk⟩
  exact hs.step hstep hk

/-- An entry that is released in such a run has no recorded identity alive, and is released as
`treeGone` only after complete walks. -/
theorem released_terminated {es : List (Event P)}
    (hrun : Run (Guarded Step Keeps) (Store.init P) es s)
    (hstep : Guarded Step Keeps s (.sweep c) t) (hrel : s.swept c id = some (.release r)) :
    (∀ i ∈ s.recorded id, ¬ i.Alive s.table) ∧
      (r = .treeGone → s.missed id = false ∧ c.complete = true) := by
  obtain ⟨hst, hk⟩ := hstep
  have htruth : Truthful s.table c.probe := by
    cases hst
    assumption
  obtain ⟨e, he, hsweep⟩ := Option.map_eq_some_iff.mp hrel
  obtain ⟨⟨htree, hmark⟩, hrooted⟩ := (run_inv hrun).copy (hk id) he
  have hjudge := sweepEntry_release ((hk id).generation e he) hsweep
  rcases judgeOwned_release hjudge with ⟨hrule, hroots, -⟩ | ⟨-, hcomplete, hunmarked, hgone⟩
  · refine ⟨?_, ?_⟩
    · intro i hi
      have hmem := htree i hi
      rw [hrooted hroots] at hmem
      cases hmem
    · rw [hrule]
      exact fun hno => nomatch hno
  · refine ⟨fun i hi => not_alive_of_gone htruth (hgone i (htree i hi)), fun _ => ⟨?_, hcomplete⟩⟩
    by_contra hmiss
    have hmarked := hmark (by simpa using hmiss)
    rw [hunmarked] at hmarked
    cases hmarked

/-! ### A worker of process 0 -/

/-- The worker. -/
def worker : Identity := ⟨42, some 5⟩

/-- Its entry, after the bind. -/
def spawned : Entry := ⟨some 7, ⟨9, some 3⟩, false, [worker], [worker], none, none⟩

/-- Process 0 opens an entry and binds the worker. -/
def spawning : List (Event ℕ) :=
  [.processes fun pid => if pid = 42 then some 5 else some 7, .opening 0 0 (some 7) ⟨9, some 3⟩,
    .bindRoot 0 42 (.alive 5)]

/-- The store holds the worker's entry only. -/
structure Spawned (s : Store ℕ) (e : Entry) : Prop where
  handle : s.handle 0 = some (0, e)
  disk : s.disk 0 = some e
  own : s.own 0 0 = some e
  disk_ne : ∀ id, id ≠ 0 → s.disk id = none
  own_ne : ∀ id, id ≠ 0 → s.own 0 id = none
  recorded : s.recorded 0 = [worker]

theorem spawning_run :
    ∃ s, Run (Guarded Step Keeps) (Store.init ℕ) spawning s ∧ Spawned s spawned ∧
      s.table 42 = some 5 := by
  refine ⟨?state, ?run, ?facts⟩
  case run =>
    refine .cons ⟨.processes, trivial⟩ ?_
    refine .cons ⟨.opening rfl rfl fun _ => rfl, trivial⟩ ?_
    refine .cons ⟨.bindRoot (i := worker) rfl rfl, ?_⟩ ?_
    · intro p e _ hdisk
      cases hdisk
    exact .nil
  case facts =>
    refine ⟨⟨rfl, rfl, rfl, ?_, ?_, rfl⟩, rfl⟩
    · intro id hid
      simp [Store.write, Store.init, hid]
    · intro id hid
      simp [Store.write, Store.init, hid]

/-- A sweep of process 0, with the readings of pid 1 and of the worker. -/
def sweeping (generation : Option ℕ) (probed : Probe) : Ctx ℕ :=
  ⟨0, generation, true, fun pid => if pid = 42 then probed else .unknown, [], true, 100⟩

theorem truthful_sweeping {table : ℕ → Option ℕ} {g : Option ℕ} {probed : Probe}
    (h : (probed = .gone → table 42 = none) ∧ ∀ st, probed = .alive st → table 42 = some st) :
    Truthful table (sweeping g probed).probe := by
  intro pid
  by_cases hpid : pid = 42
  · simpa [sweeping, hpid] using h
  · simp [sweeping, hpid]

theorem Spawned.copy {s : Store ℕ} {e : Entry} (hs : Spawned s e) (g : Option ℕ) (probed : Probe) :
    s.copy (sweeping g probed) 0 = some (mergeOwnedCopy e e) := by
  have hown : s.own (sweeping g probed).process 0 = some e := hs.own
  rw [Store.copy, hs.disk, hown]
  rfl

/-- A sweep that cannot read pid 1 releases the entry of the live worker. -/
theorem unreadable_init_releases :
    ∃ s t, Run Step (Store.init ℕ) spawning s ∧
      Step s (.sweep (sweeping none (.alive 5))) t ∧
      s.swept (sweeping none (.alive 5)) 0 = some (.release .generationEnded) ∧
      worker ∈ s.recorded 0 ∧ worker.Alive s.table := by
  obtain ⟨s, hrun, hs, htable⟩ := spawning_run
  have htruth : Truthful s.table (sweeping none (.alive 5)).probe :=
    truthful_sweeping ⟨by simp, by simp [htable]⟩
  refine ⟨s, _, hrun.of_guarded, .sweep htruth, ?_, by simp [hs.recorded], htable⟩
  rw [Store.swept, hs.copy]
  decide

/-- The worker exits, and the occupancy is released. -/
def exiting : List (Event ℕ) :=
  [.processes fun pid => if pid = 42 then none else some 7, .releaseOccupancy 0]

theorem exiting_run :
    ∃ s, Run (Guarded Step Keeps) (Store.init ℕ) (spawning ++ exiting) s ∧
      Spawned s { spawned with occupancyReleased := true } ∧ s.table 42 = none := by
  obtain ⟨s, hrun, hs, -⟩ := spawning_run
  have hgo : ∃ t, Run (Guarded Step Keeps) s exiting t ∧
      Spawned t { spawned with occupancyReleased := true } ∧ t.table 42 = none := by
    refine ⟨?state, ?run, ?facts⟩
    case run =>
      refine .cons ⟨.processes, trivial⟩ ?_
      refine .cons ⟨.releaseOccupancy hs.handle, ?_⟩ ?_
      · intro p e _ hdisk
        rw [hs.disk] at hdisk
        cases hdisk
      exact .nil
    case facts =>
      refine ⟨⟨rfl, ?_, rfl, ?_, ?_, hs.recorded⟩, rfl⟩
      · simp only [Store.write, hs.disk, Function.update_self]
        rfl
      · intro id hid
        simpa [Store.write, hid] using hs.disk_ne id hid
      · intro id hid
        simpa [Store.write, hid] using hs.own_ne id hid
  obtain ⟨t, ht, hspawned, htable⟩ := hgo
  exact ⟨t, hrun.append ht, hspawned, htable⟩

/-- A sweep that reads pid 1 as at the opening drops nothing of the worker's entry. -/
theorem Spawned.keeps {s : Store ℕ} (hs : Spawned s { spawned with occupancyReleased := true })
    (probed : Probe) (id : ℕ) : SweepKeeps s (sweeping (some 7) probed) id := by
  by_cases hid : id = 0
  · subst hid
    refine ⟨?_, ?_, ?_, ?_⟩
    · intro m hdisk
      rw [hs.disk] at hdisk
      cases hdisk
    · intro d m hd _ hmarked
      obtain rfl := Option.some.inj (hs.disk.symm.trans hd)
      cases hmarked
    · intro e he
      obtain rfl := Option.some.inj ((hs.copy (some 7) probed).symm.trans he)
      rfl
    · intro e he hnil
      obtain rfl := Option.some.inj ((hs.copy (some 7) probed).symm.trans he)
      exact absurd hnil (by decide)
  · have hown : s.own (sweeping (some 7) probed).process id = none := hs.own_ne id hid
    have hcopy : s.copy (sweeping (some 7) probed) id = none := by
      rw [Store.copy, hs.disk_ne id hid, hown]
      rfl
    refine ⟨?_, ?_, ?_, ?_⟩
    · intro m _ hm
      rw [hown] at hm
      cases hm
    · intro d m hd
      rw [hs.disk_ne id hid] at hd
      cases hd
    · intro e he
      rw [hcopy] at he
      cases he
    · intro e he
      rw [hcopy] at he
      cases he

/-- The entry is released once the worker has exited. -/
theorem released_terminated_exited :
    ∃ s : Store ℕ, worker ∈ s.recorded 0 ∧
      s.swept (sweeping (some 7) .gone) 0 = some (.release .treeGone) ∧ ¬ worker.Alive s.table := by
  obtain ⟨s, hrun, hs, htable⟩ := exiting_run
  have hworker : worker ∈ s.recorded 0 := by simp [hs.recorded]
  have hrel : s.swept (sweeping (some 7) .gone) 0 = some (.release .treeGone) := by
    rw [Store.swept, hs.copy]
    decide
  have htruth : Truthful s.table (sweeping (some 7) .gone).probe :=
    truthful_sweeping ⟨fun _ => htable, by simp⟩
  have hstep : Guarded Step Keeps s (.sweep (sweeping (some 7) .gone))
      (s.sweep (sweeping (some 7) .gone)) := ⟨.sweep htruth, hs.keeps .gone⟩
  exact ⟨s, hworker, hrel, (released_terminated hrun hstep hrel).1 worker hworker⟩

end Remudero.Memory.Ledger
