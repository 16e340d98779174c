import Remudero.Board.TaskCache

/-! # The step buckets of the board

`cachedStep` of `lib/board-projection.ts`: the rows of a step are read once and then extended by the rows that the board
ingests, which are queued until the step is asked for again.  Nothing tells the cache of a deleted row: only when an index is
built does `checkStepCache` compare what the cache has with what the store counts, and drop it all when they differ.

`byStep_exact`: as long as nothing was deleted since the last index was built, every index answers as an uncached read of the
store at its bound, also one that is used after the board has read past it. -/

namespace Remudero.Board.StepCache

open Remudero.Lib Remudero.Board.TaskCache

/-- A cached step, and the rows that were ingested since it was last asked for. -/
structure StepBucket where
  rows : List FactRow
  queued : List FactRow

def stepFacts (store : Store) (step : Text) (upTo : ℕ) : List FactRow :=
  store.facts.filter fun f => decide (f.step = step) && decide (f.seq ≤ upTo)

/-- `readStep`: `ORDER BY ts_ms, seq`. -/
def readStep (store : Store) (step : Text) (upTo : ℕ) : List FactRow := readTaskRows (stepFacts store step upTo)

/-- Count, sum of the numbers, and sum of the reduced times. -/
def digest (facts : List FactRow) : ℕ × ℕ × ℤ :=
  (facts.length, (facts.map FactRow.seq).sum, (facts.map fun f => f.tsMs.tmod 1000003).sum)

/-- The loops of `extendBucket`: the new rows that are not after a held one, and the held one. -/
def extendRows : List FactRow → List FactRow → List FactRow
  | [], more => more
  | a :: held, more => more.takeWhile (fun b => b.le a) ++ a :: extendRows held (more.dropWhile fun b => b.le a)

def extendBucket (rows more : List FactRow) : List FactRow := extendRows rows (readTaskRows more)

structure State where
  store : Store
  lastSeq : ℕ
  cache : List (Text × StepBucket)

def State.start : State := ⟨⟨[], []⟩, 0, []⟩

def moved (s : State) : Bool :=
  s.cache.any fun e => decide (digest (e.2.rows ++ e.2.queued) ≠ digest (stepFacts s.store e.1 s.lastSeq))

def checkStepCache (s : State) : State :=
  if moved s || decide (s.store.maxSeq < s.lastSeq) then { s with cache := [] } else s

/-- The rows that `cachedStep` caches. -/
def currentRows (s : State) (step : Text) : List FactRow :=
  match entryOf step s.cache with
  | none => readStep s.store step s.lastSeq
  | some b => if b.queued.isEmpty then b.rows else extendBucket b.rows b.queued

def cachedStep (s : State) (step : Text) : State := { s with cache := assign step ⟨currentRows s step, []⟩ s.cache }

variable (unread : Text → Bool) in
/-- What an index with the bound `upTo` answers. -/
def byStep (s : State) (step : Text) (upTo : ℕ) : List FactRow :=
  if unread step then []
  else if s.lastSeq ≤ upTo then currentRows s step
  else (currentRows s step).filter fun f => decide (f.seq ≤ upTo)

variable (unread : Text → Bool) in
/-- `ingest` of one row. -/
def ingestRow (s : State) (f : FactRow) : State :=
  { s with
    lastSeq := f.seq
    cache :=
      if unread f.step then s.cache
      else
        match entryOf f.step s.cache with
        | none => s.cache
        | some b => assign f.step { b with queued := b.queued ++ [f] } s.cache }

inductive Event
  | insert (fact : FactRow) (alias? : Option Text)
  | delete (seq : ℕ)
  | ingest (fact : FactRow)
  | build
  | ask (step : Text)
  | drop

/-- `f` is the first row after the last one that was read. -/
structure Next (store : Store) (lastSeq : ℕ) (f : FactRow) : Prop where
  mem : f ∈ store.facts
  after : lastSeq < f.seq
  first : ∀ g ∈ store.facts, lastSeq < g.seq → f.seq ≤ g.seq

variable {unread : Text → Bool}

inductive Step (unread : Text → Bool) : State → Event → State → Prop
  | insert {s : State} (fact : FactRow) (alias? : Option Text) (hseq : fact.seq = s.store.maxSeq + 1) :
      Step unread s (.insert fact alias?) { s with store := s.store.insert fact alias? }
  | delete (s : State) (seq : ℕ) : Step unread s (.delete seq) { s with store := s.store.delete seq }
  | ingest {s : State} {f : FactRow} (hnext : Next s.store s.lastSeq f) : Step unread s (.ingest f) (ingestRow unread s f)
  | build (s : State) : Step unread s .build (checkStepCache s)
  | ask (s : State) (step : Text) (hread : unread step = false) : Step unread s (.ask step) (cachedStep s step)
  /-- The audit of the oracle, or a plan-only set or a task bucket that moved. -/
  | drop (s : State) : Step unread s .drop { s with cache := [] }

/-- A new row has a number that the board has not read past. -/
def Fresh (s : State) (e : Event) : Prop := ∀ fact alias?, e = .insert fact alias? → s.lastSeq < fact.seq

/-! ### Extending a bucket -/

theorem mergeTaskRows_cons (a : FactRow) (held more : List FactRow) :
    mergeTaskRows (a :: held) more =
      more.takeWhile (fun b => b.le a) ++ a :: mergeTaskRows held (more.dropWhile fun b => b.le a) := by
  induction more with
  | nil =>
      cases held <;> simp [mergeTaskRows]
  | cons b more ih =>
      rw [mergeTaskRows, List.takeWhile_cons, List.dropWhile_cons]
      split
      · rw [ih, List.cons_append]
      · rw [List.nil_append]

/-- Both loops merge two lists in order. -/
theorem extendRows_eq (held more : List FactRow) : extendRows held more = mergeTaskRows held more := by
  induction held generalizing more with
  | nil => rw [extendRows, mergeTaskRows]
  | cons a held ih => rw [extendRows, mergeTaskRows_cons, ih]

theorem extendBucket_perm (rows more : List FactRow) : (extendBucket rows more).Perm (rows ++ more) := by
  rw [extendBucket, extendRows_eq]
  exact (mergeTaskRows_perm _ _).trans ((readTaskRows_perm more).append_left rows)

theorem extendBucket_sorted {rows : List FactRow} (h : rows.Pairwise fun a b => a.le b = true) (more : List FactRow) :
    (extendBucket rows more).Pairwise fun a b => a.le b = true := by
  rw [extendBucket, extendRows_eq]
  exact mergeTaskRows_sorted h (readTaskRows_sorted more)

/-! ### The rows of a step -/

theorem mem_stepFacts {store : Store} {step : Text} {upTo : ℕ} {f : FactRow} :
    f ∈ stepFacts store step upTo ↔ f ∈ store.facts ∧ f.step = step ∧ f.seq ≤ upTo := by
  simp only [stepFacts, List.mem_filter, Bool.and_eq_true, decide_eq_true_eq]

theorem stepFacts_insert {store : Store} {fact : FactRow} {upTo : ℕ} (h : upTo < fact.seq) (alias? : Option Text) (step : Text) :
    stepFacts (store.insert fact alias?) step upTo = stepFacts store step upTo := by
  have habove : ¬ fact.seq ≤ upTo := by omega
  simp [stepFacts, Store.insert, List.filter_append, habove]

theorem stepFacts_delete (store : Store) (seq : ℕ) (step : Text) (upTo : ℕ) :
    (stepFacts (store.delete seq) step upTo).Sublist (stepFacts store step upTo) := List.filter_sublist.filter _

/-- The next row is the only one that the board reads past. -/
theorem stepFacts_next {store : Store} (hsorted : store.facts.Pairwise fun f g => f.seq < g.seq) {lastSeq : ℕ} {f : FactRow}
    (h : Next store lastSeq f) (step : Text) :
    stepFacts store step f.seq = stepFacts store step lastSeq ++ if f.step = step then [f] else [] := by
  obtain ⟨hmem, hafter, hfirst⟩ := h
  obtain ⟨front, back, hsplit⟩ := List.append_of_mem hmem
  rw [hsplit] at hsorted hfirst
  obtain ⟨-, hback, hfront⟩ := List.pairwise_append.mp hsorted
  have hlow : ∀ g ∈ front, g.seq ≤ lastSeq ∧ g.seq ≤ f.seq := by
    intro g hg
    have hlt := hfront g hg f List.mem_cons_self
    refine ⟨?_, hlt.le⟩
    by_contra hgt
    have := hfirst g (List.mem_append_left _ hg) (by omega)
    omega
  have hhigh : ∀ g ∈ back, ¬ g.seq ≤ lastSeq ∧ ¬ g.seq ≤ f.seq := by
    intro g hg
    have hlt := (List.pairwise_cons.mp hback).1 g hg
    omega
  unfold stepFacts
  rw [hsplit, List.filter_append, List.filter_append, List.filter_cons, List.filter_cons]
  have hsame : front.filter (fun g => decide (g.step = step) && decide (g.seq ≤ f.seq)) =
      front.filter fun g => decide (g.step = step) && decide (g.seq ≤ lastSeq) := by
    refine List.filter_congr fun g hg => ?_
    rw [decide_eq_true (hlow g hg).1, decide_eq_true (hlow g hg).2]
  have hnone : back.filter (fun g => decide (g.step = step) && decide (g.seq ≤ f.seq)) = [] := by
    refine List.filter_eq_nil_iff.mpr fun g hg => ?_
    rw [decide_eq_false (hhigh g hg).2, Bool.and_false]
    exact Bool.false_ne_true
  have hnone' : back.filter (fun g => decide (g.step = step) && decide (g.seq ≤ lastSeq)) = [] := by
    refine List.filter_eq_nil_iff.mpr fun g hg => ?_
    rw [decide_eq_false (hhigh g hg).1, Bool.and_false]
    exact Bool.false_ne_true
  rw [hsame, hnone, hnone', decide_eq_true (le_refl f.seq), decide_eq_false (not_le.mpr hafter)]
  by_cases hstep : f.step = step <;> simp [hstep]

/-! ### Every run -/

/-- A cached step has the rows of an earlier store, of which the store has what was not deleted. -/
structure Sound (store : Store) (lastSeq : ℕ) (step : Text) (b : StepBucket) : Prop where
  sorted : b.rows.Pairwise fun x y => x.le y = true
  past : ∃ past, (stepFacts store step lastSeq).Sublist past ∧ (b.rows ++ b.queued).Perm past

structure Inv (unread : Text → Bool) (s : State) : Prop where
  sorted : s.store.facts.Pairwise fun f g => f.seq < g.seq
  read : ∀ step b, entryOf step s.cache = some b → unread step = false
  sound : ∀ step b, entryOf step s.cache = some b → Sound s.store s.lastSeq step b

/-- Every cached step has the rows of the store. -/
def Exact (s : State) : Prop :=
  ∀ step b, entryOf step s.cache = some b → (b.rows ++ b.queued).Perm (stepFacts s.store step s.lastSeq)

theorem inv_start : Inv unread State.start := ⟨List.Pairwise.nil, fun step b h => (by cases h), fun step b h => (by cases h)⟩

theorem currentRows_sorted {s : State} (h : Inv unread s) (step : Text) :
    (currentRows s step).Pairwise fun x y => x.le y = true := by
  unfold currentRows
  cases hentry : entryOf step s.cache with
  | none => exact readTaskRows_sorted _
  | some b =>
      dsimp only
      split
      · exact (h.sound step b hentry).sorted
      · exact extendBucket_sorted (h.sound step b hentry).sorted _

theorem currentRows_of_entry {s : State} {step : Text} {b : StepBucket} (h : entryOf step s.cache = some b) :
    (currentRows s step).Perm (b.rows ++ b.queued) := by
  unfold currentRows
  rw [h]
  dsimp only
  split
  next hempty => rw [List.isEmpty_iff.mp hempty, List.append_nil]
  next => exact extendBucket_perm _ _

theorem currentRows_of_none {s : State} {step : Text} (h : entryOf step s.cache = none) :
    (currentRows s step).Perm (stepFacts s.store step s.lastSeq) := by
  unfold currentRows
  rw [h]
  exact readTaskRows_perm _

/-- What the cache has after a row was read. -/
theorem entryOf_ingestRow {s : State} {f : FactRow} {step : Text} {b : StepBucket} (hread : unread step = false)
    (h : entryOf step (ingestRow unread s f).cache = some b) :
    ∃ b', entryOf step s.cache = some b' ∧ b.rows = b'.rows ∧
      b.queued = b'.queued ++ if f.step = step then [f] else [] := by
  unfold ingestRow at h
  dsimp only at h
  by_cases hstep : f.step = step
  · rw [hstep, hread, if_neg Bool.false_ne_true] at h
    cases hentry : entryOf step s.cache with
    | none =>
        rw [hentry] at h
        rw [hentry] at h
        cases h
    | some b' =>
        rw [hentry] at h
        dsimp only at h
        rw [entryOf_assign_self] at h
        obtain rfl := Option.some.inj h
        exact ⟨b', rfl, rfl, by rw [if_pos hstep]⟩
  · have hkept : entryOf step s.cache = some b := by
      split at h
      · exact h
      · split at h
        · exact h
        · rwa [entryOf_assign_of_ne _ _ (Ne.symm hstep)] at h
    exact ⟨b, hkept, rfl, by rw [if_neg hstep, List.append_nil]⟩

theorem inv_nil {s : State} (h : s.store.facts.Pairwise fun f g => f.seq < g.seq) : Inv unread { s with cache := [] } :=
  ⟨h, fun step b h => (by cases h), fun step b h => (by cases h)⟩

theorem checkStepCache_cases (s : State) :
    checkStepCache s = { s with cache := [] } ∨
      (checkStepCache s = s ∧ ∀ e ∈ s.cache, digest (e.2.rows ++ e.2.queued) = digest (stepFacts s.store e.1 s.lastSeq)) := by
  unfold checkStepCache
  split
  next => exact .inl rfl
  next hsame =>
    rw [Bool.or_eq_true, not_or, Bool.not_eq_true, moved, List.any_eq_false] at hsame
    exact .inr ⟨rfl, fun e he => by simpa using hsame.1 e he⟩

theorem Inv.step {s t : State} {e : Event} (h : Inv unread s) (hstep : Guarded (Step unread) Fresh s e t) : Inv unread t := by
  obtain ⟨hstep, hfresh⟩ := hstep
  cases hstep with
  | insert fact alias? hseq =>
      have hlast := hfresh fact alias? rfl
      refine ⟨List.pairwise_append.mpr ⟨h.sorted, List.pairwise_singleton _ _, fun f hf g hg => ?_⟩, h.read, fun step b hb => ?_⟩
      · rw [List.mem_singleton.mp hg]
        have := le_maxSeq hf
        omega
      · obtain ⟨hsorted, past, hpast, hperm⟩ := h.sound step b hb
        exact ⟨hsorted, past, by rwa [stepFacts_insert hlast], hperm⟩
  | delete seq =>
      refine ⟨h.sorted.filter _, h.read, fun step b hb => ?_⟩
      obtain ⟨hsorted, past, hpast, hperm⟩ := h.sound step b hb
      exact ⟨hsorted, past, (stepFacts_delete s.store seq step s.lastSeq).trans hpast, hperm⟩
  | @ingest f hnext =>
      have hread : ∀ step b, entryOf step (ingestRow unread s f).cache = some b → unread step = false := by
        intro step b hb
        cases hunread : unread step with
        | false => rfl
        | true =>
            -- nothing is queued for a step that is not read
            have hkept : entryOf step s.cache = some b := by
              unfold ingestRow at hb
              dsimp only at hb
              split at hb
              · exact hb
              next hother =>
                split at hb
                · exact hb
                · refine (entryOf_assign_of_ne _ _ fun heq => ?_).symm.trans hb
                  rw [← heq] at hother
                  exact hother hunread
            rw [← hunread]
            exact h.read step b hkept
      refine ⟨h.sorted, hread, fun step b hb => ?_⟩
      obtain ⟨b', hb', hrows, hqueued⟩ := entryOf_ingestRow (hread step b hb) hb
      obtain ⟨hsorted, past, hpast, hperm⟩ := h.sound step b' hb'
      refine ⟨by rwa [hrows], past ++ (if f.step = step then [f] else []), ?_, ?_⟩
      · show (stepFacts s.store step f.seq).Sublist _
        rw [stepFacts_next h.sorted hnext]
        exact hpast.append (List.Sublist.refl _)
      · rw [hrows, hqueued, ← List.append_assoc]
        exact hperm.append_right _
  | build =>
      obtain hnil | ⟨hsame, -⟩ := checkStepCache_cases s
      · rw [hnil]
        exact inv_nil h.sorted
      · rwa [hsame]
  | ask step hread =>
      refine ⟨h.sorted, fun step' b hb => ?_, fun step' b hb => ?_⟩
      · by_cases heq : step' = step
        · rwa [heq]
        · exact h.read step' b ((entryOf_assign_of_ne _ _ heq).symm.trans hb)
      · by_cases heq : step' = step
        · subst heq
          obtain rfl := Option.some.inj ((entryOf_assign_self _ _ _).symm.trans hb)
          refine ⟨currentRows_sorted h step', ?_⟩
          dsimp only
          rw [List.append_nil]
          cases hentry : entryOf step' s.cache with
          | none => exact ⟨_, List.Sublist.refl _, currentRows_of_none hentry⟩
          | some b' =>
              obtain ⟨-, past, hpast, hperm⟩ := h.sound step' b' hentry
              exact ⟨past, hpast, (currentRows_of_entry hentry).trans hperm⟩
        · exact h.sound step' b ((entryOf_assign_of_ne _ _ heq).symm.trans hb)
  | drop => exact inv_nil h.sorted

/-- After an index is built, the cache has the rows of the store. -/
theorem exact_build {s : State} (h : Inv unread s) : Exact (checkStepCache s) := by
  obtain hnil | ⟨hsame, hdigest⟩ := checkStepCache_cases s
  · rw [hnil]
    intro step b hb
    cases hb
  · rw [hsame]
    intro step b hb
    obtain ⟨-, past, hpast, hperm⟩ := h.sound step b hb
    have hcount : (b.rows ++ b.queued).length = (stepFacts s.store step s.lastSeq).length :=
      congrArg Prod.fst (hdigest (step, b) (mem_of_entryOf hb))
    rwa [hpast.eq_of_length (hcount.symm.trans hperm.length_eq)]

/-- Only a deletion comes between the cache and the store. -/
theorem Exact.step {s t : State} {e : Event} (h : Exact s) (hinv : Inv unread s) (hstep : Guarded (Step unread) Fresh s e t)
    (hkept : ∀ seq, e ≠ .delete seq) : Exact t := by
  have hafter := hinv.step hstep
  obtain ⟨hstep, hfresh⟩ := hstep
  cases hstep with
  | insert fact alias? hseq =>
      intro step b hb
      show (b.rows ++ b.queued).Perm (stepFacts (s.store.insert fact alias?) step s.lastSeq)
      rw [stepFacts_insert (hfresh fact alias? rfl)]
      exact h step b hb
  | delete seq => exact absurd rfl (hkept seq)
  | @ingest f hnext =>
      intro step b hb
      obtain ⟨b', hb', hrows, hqueued⟩ := entryOf_ingestRow (hafter.read step b hb) hb
      show (b.rows ++ b.queued).Perm (stepFacts s.store step f.seq)
      rw [stepFacts_next hinv.sorted hnext, hrows, hqueued, ← List.append_assoc]
      exact (h step b' hb').append_right _
  | build => exact exact_build hinv
  | ask step hread =>
      intro step' b hb
      by_cases heq : step' = step
      · subst heq
        obtain rfl := Option.some.inj ((entryOf_assign_self _ _ _).symm.trans hb)
        dsimp only
        rw [List.append_nil]
        cases hentry : entryOf step' s.cache with
        | none => exact currentRows_of_none hentry
        | some b' => exact (currentRows_of_entry hentry).trans (h step' b' hentry)
      · exact h step' b ((entryOf_assign_of_ne _ _ heq).symm.trans hb)
  | drop =>
      intro step b hb
      cases hb

theorem Exact.currentRows {s : State} (h : Exact s) (hinv : Inv unread s) (step : Text) :
    currentRows s step = readStep s.store step s.lastSeq := by
  have hperm : (StepCache.currentRows s step).Perm (stepFacts s.store step s.lastSeq) := by
    cases hentry : entryOf step s.cache with
    | none => exact currentRows_of_none hentry
    | some b => exact (currentRows_of_entry hentry).trans (h step b hentry)
  exact eq_of_sorted hinv.sorted (fun f hf => (mem_stepFacts.mp (hperm.subset hf)).1)
    (fun f hf => (mem_stepFacts.mp ((readTaskRows_perm _).subset hf)).1) (currentRows_sorted hinv step) (readTaskRows_sorted _)
    (hperm.trans (readTaskRows_perm _).symm)

theorem filter_readStep {store : Store} (hsorted : store.facts.Pairwise fun f g => f.seq < g.seq) (step : Text) {upTo lastSeq : ℕ}
    (h : upTo ≤ lastSeq) : (readStep store step lastSeq).filter (fun f => decide (f.seq ≤ upTo)) = readStep store step upTo := by
  have hfilter : (stepFacts store step lastSeq).filter (fun f => decide (f.seq ≤ upTo)) = stepFacts store step upTo := by
    unfold stepFacts
    rw [List.filter_filter]
    refine List.filter_congr fun f _ => ?_
    grind
  have hperm := (readTaskRows_perm (stepFacts store step lastSeq)).filter fun f => decide (f.seq ≤ upTo)
  rw [hfilter] at hperm
  exact eq_of_sorted hsorted (fun f hf => (mem_stepFacts.mp (hperm.subset hf)).1)
    (fun f hf => (mem_stepFacts.mp ((readTaskRows_perm _).subset hf)).1) ((readTaskRows_sorted _).filter _) (readTaskRows_sorted _)
    (hperm.trans (readTaskRows_perm _).symm)

theorem inv_run {es : List Event} {s t : State} (hrun : Run (Guarded (Step unread) Fresh) s es t) (h : Inv unread s) : Inv unread t :=
  hrun.invariant (fun _ _ _ h hstep => h.step hstep) h

theorem exact_run {es : List Event} {s t : State} (hrun : Run (Guarded (Step unread) Fresh) s es t) (hinv : Inv unread s)
    (hexact : Exact s) (hkept : ∀ seq, .delete seq ∉ es) : Exact t := by
  induction hrun with
  | nil => exact hexact
  | @snoc es t u e hprior hstep ih =>
      refine (ih fun seq hmem => hkept seq (List.mem_append_left _ hmem)).step (inv_run hprior hinv) hstep fun seq heq => ?_
      exact hkept seq (List.mem_append_right _ (List.mem_singleton.mpr heq.symm))

/-- Every index answers as a read of the store, as long as nothing was deleted since the last one was built. -/
theorem byStep_exact {before since : List Event} {s : State}
    (hrun : Run (Guarded (Step unread) Fresh) State.start (before ++ .build :: since) s) (hkept : ∀ seq, .delete seq ∉ since)
    (step : Text) {upTo : ℕ} (hupTo : upTo ≤ s.lastSeq) :
    byStep unread s step upTo = if unread step then [] else readStep s.store step upTo := by
  rw [List.append_cons] at hrun
  obtain ⟨t, hbefore, hsince⟩ := hrun.split
  obtain ⟨u, hprior, hbuild⟩ := hbefore.snoc_inv
  have hinv := inv_run hprior inv_start
  have hexact : Exact t := by
    obtain ⟨hstep, -⟩ := hbuild
    cases hstep with
    | build => exact exact_build hinv
  have hinv' := inv_run hsince (hinv.step hbuild)
  have hrows := (exact_run hsince (hinv.step hbuild) hexact hkept).currentRows hinv' step
  unfold byStep
  split
  · rfl
  · rw [hrows, filter_readStep hinv'.sorted step hupTo]
    split
    next hbound => rw [Nat.le_antisymm hupTo hbound]
    next => rfl

/-- A step is asked for, and then gets a row that is earlier than the one it had. -/
def askedBetween : List Event := [.ask ['s'], .insert earlierRow none, .ingest earlierRow]

theorem byStep_askedBetween :
    ∃ s, Run (Guarded (Step fun _ => false) Fresh) State.start ([.insert laterRow none, .ingest laterRow] ++ .build :: askedBetween) s ∧
      s.store.facts = [laterRow, earlierRow] ∧ byStep (fun _ => false) s ['s'] 2 = readStep s.store ['s'] 2 := by
  have hother {s : State} {e : Event} (h : ∀ fact alias?, e ≠ .insert fact alias?) : Fresh s e :=
    fun fact alias? heq => absurd heq (h fact alias?)
  have hinsert : Guarded (Step fun _ => false) Fresh State.start (.insert laterRow none) ⟨⟨[laterRow], []⟩, 0, []⟩ := by
    refine ⟨.insert laterRow none rfl, fun fact alias? heq => ?_⟩
    obtain ⟨rfl, -⟩ := Event.insert.inj heq
    decide
  have hfirst : Next ⟨[laterRow], []⟩ 0 laterRow := ⟨by decide, by decide, by decide⟩
  have hsecond : Next ⟨[laterRow, earlierRow], []⟩ 1 earlierRow := ⟨by decide, by decide, by decide⟩
  have hrun := (Run.single hinsert).snoc ⟨.ingest hfirst, hother fun _ _ heq => (by cases heq)⟩
  have hrun := hrun.snoc ⟨.build _, hother fun _ _ heq => (by cases heq)⟩
  have hrun := hrun.snoc ⟨.ask _ ['s'] rfl, hother fun _ _ heq => (by cases heq)⟩
  have hrun := hrun.snoc ⟨.insert earlierRow none rfl, fun fact alias? heq => (by
    obtain ⟨rfl, -⟩ := Event.insert.inj heq
    exact Nat.one_lt_two)⟩
  have hrun := hrun.snoc ⟨.ingest hsecond, hother fun _ _ heq => (by cases heq)⟩
  have hkept : ∀ seq, .delete seq ∉ askedBetween := by simp [askedBetween]
  exact ⟨_, hrun, rfl, @byStep_exact _ [.insert laterRow none, .ingest laterRow] askedBetween _ hrun hkept ['s'] 2 le_rfl⟩

end Remudero.Board.StepCache
