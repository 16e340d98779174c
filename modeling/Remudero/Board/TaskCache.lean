import Remudero.Lib.Record
import Remudero.Lib.Text
import Remudero.Lib.Transition

/-! # The task buckets of the board

`cachedTask` of `lib/board-projection.ts`: the rows of a task, its own and those that name it as an alias, are held from one
answer to the next.  A held bucket is extended by the rows after its highest one when the store still counts what it counted
up to there, and read again otherwise; the buckets that were asked for least recently go when the bytes pass the bound.

* `answer_exact`: whatever was appended, deleted, read and asked for before, an answer is what a full read of the store
  would give, as long as no row gets a number that the board has already read past.  SQLite numbers a row from the highest one
  there is, so the number of the last row is given again once that row is deleted.
* `held_bounded`: the bytes are counted exactly, and never pass the bound. -/

namespace Remudero.Board.TaskCache

open Remudero.Lib

structure FactRow where
  seq : ℕ
  tsMs : ℤ
  step : Text
  taskId : Option Text
  body : Text
deriving DecidableEq

/-- The tables `fact` and `fact_alias`. -/
structure Store where
  facts : List FactRow
  aliases : List (Text × ℕ)

/-- By time and then by number. -/
def FactRow.le (a b : FactRow) : Bool := decide (a.tsMs < b.tsMs) || decide (a.tsMs = b.tsMs) && decide (a.seq ≤ b.seq)

structure TaskBucket where
  rows : List FactRow
  bytes : ℕ
  high : ℕ
  n : ℕ
  s : ℕ

variable (unread : Text → Bool) (limit : ℕ)

/-- The rows of a task up to a number, read or not: its own, and those of its alias. -/
def ownFacts (store : Store) (id : Text) (upTo : ℕ) : List FactRow :=
  store.facts.filter fun f => decide (f.taskId = some id) && decide (f.seq ≤ upTo)

def aliasFacts (store : Store) (id : Text) (upTo : ℕ) : List FactRow :=
  store.facts.filter fun f => decide ((id, f.seq) ∈ store.aliases) && decide (f.seq ≤ upTo)

def taskDigest (store : Store) (id : Text) (upTo : ℕ) : ℕ × ℕ :=
  ((ownFacts store id upTo).length + (aliasFacts store id upTo).length,
    ((ownFacts store id upTo).map FactRow.seq).sum + ((aliasFacts store id upTo).map FactRow.seq).sum)

def taskFacts (store : Store) (id : Text) (upTo : ℕ) : List FactRow :=
  (ownFacts store id upTo ++ aliasFacts store id upTo).filter fun f => !unread f.step

def taskFactsAfter (store : Store) (id : Text) (high upTo : ℕ) : List FactRow :=
  (taskFacts unread store id upTo).filter fun f => decide (high < f.seq)

def readTaskRows (facts : List FactRow) : List FactRow := facts.mergeSort FactRow.le

def bytesOf (facts : List FactRow) : ℕ := (facts.map fun f => Text.byteLength f.body).sum

def mergeTaskRows : List FactRow → List FactRow → List FactRow
  | [], more => more
  | a :: held, [] => a :: held
  | a :: held, b :: more =>
      if b.le a then b :: mergeTaskRows (a :: held) more else a :: mergeTaskRows held (b :: more)
termination_by held more => held.length + more.length

/-- The bucket of a full read. -/
def fullBucket (store : Store) (id : Text) (upTo : ℕ) : TaskBucket where
  rows := readTaskRows (taskFacts unread store id upTo)
  bytes := bytesOf (taskFacts unread store id upTo)
  high := upTo
  n := (taskDigest store id upTo).1
  s := (taskDigest store id upTo).2

/-- A bucket that is extended by the rows after its highest. -/
def extendedBucket (store : Store) (id : Text) (upTo : ℕ) (b : TaskBucket) : TaskBucket where
  rows := mergeTaskRows b.rows (readTaskRows (taskFactsAfter unread store id b.high upTo))
  bytes := b.bytes + bytesOf (taskFactsAfter unread store id b.high upTo)
  high := upTo
  n := (taskDigest store id upTo).1
  s := (taskDigest store id upTo).2

def cachedTask (store : Store) (held : Option TaskBucket) (id : Text) (upTo : ℕ) : TaskBucket :=
  match held with
  | none => fullBucket unread store id upTo
  | some b =>
      if taskDigest store id b.high = (b.n, b.s) then
        if b.high < upTo then extendedBucket unread store id upTo b else b
      else fullBucket unread store id upTo

/-- The buckets, least recently asked for first, and the counter of their bytes. -/
structure Cache where
  buckets : List (Text × TaskBucket)
  held : ℤ

def Cache.empty : Cache := ⟨[], 0⟩

def forgetTask (cache : Cache) (id : Text) : Cache :=
  match entryOf id cache.buckets with
  | none => cache
  | some b => ⟨cache.buckets.filter fun e => decide (e.1 ≠ id), cache.held - b.bytes⟩

/-- The loop that makes room; it ends with the bucket that was just held. -/
def evict (id : Text) : List Text → Cache → Cache
  | [], cache => cache
  | oldest :: keys, cache =>
      if cache.held ≤ limit then cache
      else if oldest = id then forgetTask cache oldest
      else evict id keys (forgetTask cache oldest)

def hold (cache : Cache) (id : Text) (b : TaskBucket) : Cache :=
  let cache := forgetTask cache id
  let cache : Cache := ⟨cache.buckets ++ [(id, b)], cache.held + b.bytes⟩
  evict limit id (cache.buckets.map Prod.fst) cache

structure State where
  store : Store
  lastSeq : ℕ
  cache : Cache

def State.start : State := ⟨⟨[], []⟩, 0, .empty⟩

/-- The fact rows of a task that an index up to `upTo` answers with. -/
def answer (s : State) (id : Text) (upTo : ℕ) : List FactRow :=
  (cachedTask unread s.store (entryOf id s.cache.buckets) id upTo).rows.filter fun f => decide (f.seq ≤ upTo)

/-- The highest number of a row. -/
def Store.maxSeq (store : Store) : ℕ := (store.facts.map FactRow.seq).foldr max 0

def Store.insert (store : Store) (fact : FactRow) (alias? : Option Text) : Store :=
  ⟨store.facts ++ [fact], alias?.toList.map (fun task => (task, fact.seq)) ++ store.aliases⟩

def Store.delete (store : Store) (seq : ℕ) : Store := { store with facts := store.facts.filter fun f => decide (f.seq ≠ seq) }

inductive Event
  | insert (fact : FactRow) (alias? : Option Text)
  | delete (seq : ℕ)
  | ingest (seq : ℕ)
  | ask (id : Text) (upTo : ℕ)
  | drop

inductive Step : State → Event → State → Prop
  /-- The writer adds a row, or the consistency oracle does. -/
  | insert {s : State} (fact : FactRow) (alias? : Option Text) (hseq : fact.seq = s.store.maxSeq + 1) :
      Step s (.insert fact alias?) { s with store := s.store.insert fact alias? }
  /-- The consistency oracle removes a row; its alias stays. -/
  | delete (s : State) (seq : ℕ) : Step s (.delete seq) { s with store := s.store.delete seq }
  | ingest {s : State} (seq : ℕ) (hmore : s.lastSeq ≤ seq) (hmem : seq ∈ s.store.facts.map FactRow.seq) :
      Step s (.ingest seq) { s with lastSeq := seq }
  | ask {s : State} (id : Text) (upTo : ℕ) (hupTo : upTo ≤ s.lastSeq) :
      Step s (.ask id upTo)
        { s with cache := hold limit s.cache id (cachedTask unread s.store (entryOf id s.cache.buckets) id upTo) }
  | drop (s : State) : Step s .drop { s with cache := .empty }

/-- A new row has a number that the board has not read past. -/
def Fresh (s : State) (e : Event) : Prop := ∀ fact alias?, e = .insert fact alias? → s.lastSeq < fact.seq

/-! ### Reading in order -/

theorem FactRow.le_total (a b : FactRow) : (a.le b || b.le a) = true := by
  simp only [FactRow.le, Bool.or_eq_true, Bool.and_eq_true, decide_eq_true_eq]
  omega

theorem FactRow.le_trans {a b c : FactRow} (hab : a.le b = true) (hbc : b.le c = true) : a.le c = true := by
  simp only [FactRow.le, Bool.or_eq_true, Bool.and_eq_true, decide_eq_true_eq] at *
  omega

theorem readTaskRows_sorted (facts : List FactRow) : (readTaskRows facts).Pairwise fun a b => a.le b = true :=
  List.pairwise_mergeSort (fun a b c (hab : a.le b = true) (hbc : b.le c = true) => FactRow.le_trans hab hbc) FactRow.le_total facts

theorem readTaskRows_perm (facts : List FactRow) : (readTaskRows facts).Perm facts := List.mergeSort_perm _ _

theorem mergeTaskRows_perm (held more : List FactRow) : (mergeTaskRows held more).Perm (held ++ more) := by
  fun_induction mergeTaskRows held more with
  | case1 more => exact List.Perm.refl _
  | case2 a held => rw [List.append_nil]
  | case3 a held b more hle ih => exact (ih.cons b).trans List.perm_middle.symm
  | case4 a held b more hle ih => exact ih.cons a

theorem mergeTaskRows_sorted {held more : List FactRow} (hheld : held.Pairwise fun a b => a.le b = true)
    (hmore : more.Pairwise fun a b => a.le b = true) : (mergeTaskRows held more).Pairwise fun a b => a.le b = true := by
  fun_induction mergeTaskRows held more with
  | case1 more => exact hmore
  | case2 a held => exact hheld
  | case3 a held b more hle ih =>
      rw [List.pairwise_cons] at hmore
      refine List.pairwise_cons.mpr ⟨fun c hc => ?_, ih hheld hmore.2⟩
      rcases List.mem_append.mp ((mergeTaskRows_perm _ _).subset hc) with hc | hc
      · obtain rfl | hc := List.mem_cons.mp hc
        · exact hle
        · exact FactRow.le_trans hle ((List.pairwise_cons.mp hheld).1 c hc)
      · exact hmore.1 c hc
  | case4 a held b more hle ih =>
      have hab : a.le b = true := by
        have htotal := FactRow.le_total a b
        rw [Bool.or_eq_true] at htotal
        exact htotal.resolve_right hle
      rw [List.pairwise_cons] at hheld
      refine List.pairwise_cons.mpr ⟨fun c hc => ?_, ih hheld.2 hmore⟩
      rcases List.mem_append.mp ((mergeTaskRows_perm _ _).subset hc) with hc | hc
      · exact hheld.1 c hc
      · obtain rfl | hc := List.mem_cons.mp hc
        · exact hab
        · exact FactRow.le_trans hab ((List.pairwise_cons.mp hmore).1 c hc)

/-- Rows of one store in order are determined by which they are. -/
theorem eq_of_sorted {store l l' : List FactRow} (hstore : store.Pairwise fun f g => f.seq < g.seq) (hsub : ∀ f ∈ l, f ∈ store)
    (hsub' : ∀ f ∈ l', f ∈ store) (hl : l.Pairwise fun a b => a.le b = true) (hl' : l'.Pairwise fun a b => a.le b = true)
    (hperm : l.Perm l') : l = l' := by
  refine List.Perm.eq_of_pairwise (fun a b ha hb hab hba => ?_) hl hl' hperm
  have hseq : a.seq = b.seq := by
    simp only [FactRow.le, Bool.or_eq_true, Bool.and_eq_true, decide_eq_true_eq] at hab hba
    omega
  have hinj : (store.map FactRow.seq).Nodup := (List.pairwise_map.mpr (hstore.imp fun h => ne_of_lt h))
  exact List.inj_on_of_nodup_map hinj (hsub a ha) (hsub' b hb) hseq

/-! ### A bucket -/

theorem mem_taskFacts {store : Store} {id : Text} {upTo : ℕ} {f : FactRow} :
    f ∈ taskFacts unread store id upTo ↔
      f ∈ store.facts ∧ (f.taskId = some id ∨ (id, f.seq) ∈ store.aliases) ∧ f.seq ≤ upTo ∧ unread f.step = false := by
  simp only [taskFacts, ownFacts, aliasFacts, List.mem_filter, List.mem_append, Bool.and_eq_true, decide_eq_true_eq,
    Bool.not_eq_true']
  tauto

/-- A held bucket has the rows of an earlier store, of which the store has what was not deleted. -/
structure Sound (store : Store) (id : Text) (b : TaskBucket) : Prop where
  past : ∃ own aliases, (ownFacts store id b.high).Sublist own ∧ (aliasFacts store id b.high).Sublist aliases ∧
    b.n = own.length + aliases.length ∧ b.rows = readTaskRows ((own ++ aliases).filter fun f => !unread f.step)

variable {unread limit}

/-- When the store still counts what the bucket counted, nothing of it was deleted. -/
theorem Sound.rows_eq {store : Store} {id : Text} {b : TaskBucket} (h : Sound unread store id b)
    (hdigest : taskDigest store id b.high = (b.n, b.s)) : b.rows = readTaskRows (taskFacts unread store id b.high) := by
  obtain ⟨own, aliases, hown, haliases, hn, hrows⟩ := h.past
  have hcount : (ownFacts store id b.high).length + (aliasFacts store id b.high).length = own.length + aliases.length :=
    (congrArg Prod.fst hdigest).trans hn
  have hle := hown.length_le
  have hle' := haliases.length_le
  rw [hrows, ← hown.eq_of_length (by omega), ← haliases.eq_of_length (by omega)]
  rfl

theorem filter_after {store : Store} {id : Text} {high upTo : ℕ} (h : high ≤ upTo) :
    (taskFacts unread store id high ++ taskFactsAfter unread store id high upTo).Perm (taskFacts unread store id upTo) := by
  have hlow : taskFacts unread store id high = (taskFacts unread store id upTo).filter fun f => !decide (high < f.seq) := by
    unfold taskFacts ownFacts aliasFacts
    rw [List.filter_filter, List.filter_append, List.filter_append, List.filter_filter, List.filter_filter, List.filter_filter,
      List.filter_filter]
    congr 1 <;> refine List.filter_congr fun f _ => ?_ <;> grind
  rw [hlow, taskFactsAfter]
  exact (List.perm_append_comm).trans (List.filter_append_perm _ _)

theorem extended_rows {store : Store} (hstore : store.facts.Pairwise fun f g => f.seq < g.seq) {id : Text} {upTo : ℕ}
    {b : TaskBucket} (hrows : b.rows = readTaskRows (taskFacts unread store id b.high)) (hhigh : b.high ≤ upTo) :
    (extendedBucket unread store id upTo b).rows = readTaskRows (taskFacts unread store id upTo) := by
  have hperm : (extendedBucket unread store id upTo b).rows.Perm (taskFacts unread store id upTo) := by
    show (mergeTaskRows b.rows _).Perm _
    rw [hrows]
    exact (mergeTaskRows_perm _ _).trans (((readTaskRows_perm _).append (readTaskRows_perm _)).trans (filter_after hhigh))
  refine eq_of_sorted hstore (fun f hf => ((mem_taskFacts unread).mp (hperm.subset hf)).1)
    (fun f hf => ((mem_taskFacts unread).mp ((readTaskRows_perm _).subset hf)).1) ?_ (readTaskRows_sorted _)
    (hperm.trans (readTaskRows_perm _).symm)
  show (mergeTaskRows b.rows _).Pairwise _
  rw [hrows]
  exact mergeTaskRows_sorted (readTaskRows_sorted _) (readTaskRows_sorted _)

/-- What an answer is read from. -/
theorem cachedTask_rows {store : Store} (hstore : store.facts.Pairwise fun f g => f.seq < g.seq) {id : Text} (upTo : ℕ)
    {held : Option TaskBucket} (hheld : ∀ b, held = some b → Sound unread store id b) :
    let b := cachedTask unread store held id upTo
    upTo ≤ b.high ∧ b.rows = readTaskRows (taskFacts unread store id b.high) ∧ b.n = (taskDigest store id b.high).1 := by
  unfold cachedTask
  cases held with
  | none => exact ⟨le_rfl, rfl, rfl⟩
  | some b =>
      dsimp only
      split
      next hdigest =>
        have hrows := (hheld b rfl).rows_eq hdigest
        split
        next hlow => exact ⟨le_rfl, extended_rows hstore hrows hlow.le, rfl⟩
        next hhigh => exact ⟨not_lt.mp hhigh, hrows, (congrArg Prod.fst hdigest).symm⟩
      next => exact ⟨le_rfl, rfl, rfl⟩

theorem filter_readTaskRows {store : Store} (hstore : store.facts.Pairwise fun f g => f.seq < g.seq) (id : Text) {upTo high : ℕ}
    (h : upTo ≤ high) :
    (readTaskRows (taskFacts unread store id high)).filter (fun f => decide (f.seq ≤ upTo)) =
      readTaskRows (taskFacts unread store id upTo) := by
  have hfilter : (taskFacts unread store id high).filter (fun f => decide (f.seq ≤ upTo)) = taskFacts unread store id upTo := by
    unfold taskFacts ownFacts aliasFacts
    rw [List.filter_filter, List.filter_append, List.filter_append, List.filter_filter, List.filter_filter, List.filter_filter,
      List.filter_filter]
    congr 1 <;> refine List.filter_congr fun f _ => ?_ <;> grind
  have hperm := (readTaskRows_perm (taskFacts unread store id high)).filter fun f => decide (f.seq ≤ upTo)
  rw [hfilter] at hperm
  exact eq_of_sorted hstore (fun f hf => ((mem_taskFacts unread).mp (hperm.subset hf)).1)
    (fun f hf => ((mem_taskFacts unread).mp ((readTaskRows_perm _).subset hf)).1) ((readTaskRows_sorted _).filter _)
    (readTaskRows_sorted _) (hperm.trans (readTaskRows_perm _).symm)

/-! ### Making room -/

theorem forgetTask_buckets (cache : Cache) (id : Text) :
    (forgetTask cache id).buckets = cache.buckets.filter fun e => decide (e.1 ≠ id) := by
  unfold forgetTask
  cases hentry : entryOf id cache.buckets with
  | none =>
      refine (List.filter_eq_self.mpr fun e he => ?_).symm
      rw [decide_eq_true_eq]
      rintro rfl
      exact notMem_keys_of_entryOf hentry (List.mem_map_of_mem he)
  | some b => rfl

theorem mem_evict {id : Text} {keys : List Text} {cache : Cache} {e : Text × TaskBucket}
    (h : e ∈ (evict limit id keys cache).buckets) : e ∈ cache.buckets := by
  have hforget {oldest : Text} {cache : Cache} (h : e ∈ (forgetTask cache oldest).buckets) : e ∈ cache.buckets := by
    rw [forgetTask_buckets] at h
    exact (List.mem_filter.mp h).1
  induction keys generalizing cache with
  | nil => exact h
  | cons oldest keys ih =>
      unfold evict at h
      split_ifs at h
      · exact h
      · exact hforget h
      · exact hforget (ih h)

theorem mem_hold {cache : Cache} {id : Text} {b : TaskBucket} {e : Text × TaskBucket} (h : e ∈ (hold limit cache id b).buckets) :
    e ∈ cache.buckets ∨ e = (id, b) := by
  have hmem := mem_evict h
  rw [List.mem_append, List.mem_singleton, forgetTask_buckets, List.mem_filter] at hmem
  exact hmem.imp_left And.left

/-- The counter is the sum of the bytes, and every task has one bucket. -/
structure Counted (cache : Cache) : Prop where
  keys : (cache.buckets.map Prod.fst).Nodup
  held : cache.held = ((cache.buckets.map fun e => e.2.bytes).sum : ℕ)

theorem sum_filter_ne {l : List (Text × TaskBucket)} {id : Text} {b : TaskBucket} (hnodup : (l.map Prod.fst).Nodup)
    (h : entryOf id l = some b) :
    ((l.filter fun e => decide (e.1 ≠ id)).map fun e => e.2.bytes).sum + b.bytes = (l.map fun e => e.2.bytes).sum := by
  induction l with
  | nil => cases h
  | cons e l ih =>
      rw [List.map_cons, List.nodup_cons] at hnodup
      by_cases hid : e.1 = id
      · subst hid
        rw [entryOf, if_pos rfl] at h
        obtain rfl := Option.some.inj h
        have hrest : l.filter (fun e' => decide (e'.1 ≠ e.1)) = l := by
          refine List.filter_eq_self.mpr fun e' he' => ?_
          rw [decide_eq_true_eq]
          intro heq
          exact hnodup.1 (heq ▸ List.mem_map_of_mem he')
        rw [List.filter_cons_of_neg (by simp), hrest, List.map_cons, List.sum_cons, Nat.add_comm]
      · rw [entryOf_cons_of_ne l hid] at h
        rw [List.filter_cons_of_pos (by simpa using hid), List.map_cons, List.map_cons, List.sum_cons, List.sum_cons, Nat.add_assoc,
          ih hnodup.2 h]

theorem Counted.forgetTask {cache : Cache} (h : Counted cache) (id : Text) : Counted (forgetTask cache id) := by
  refine ⟨?_, ?_⟩
  · rw [forgetTask_buckets]
    exact h.keys.sublist (List.filter_sublist.map Prod.fst)
  · unfold TaskCache.forgetTask
    cases hentry : entryOf id cache.buckets with
    | none => exact h.held
    | some b =>
        have hsum := sum_filter_ne h.keys hentry
        dsimp only
        rw [h.held, ← hsum]
        omega

theorem keys_forgetTask {cache : Cache} {oldest : Text} {keys : List Text} (hkeys : cache.buckets.map Prod.fst = oldest :: keys)
    (hnodup : (oldest :: keys).Nodup) : (forgetTask cache oldest).buckets.map Prod.fst = keys := by
  have hmap : (cache.buckets.filter fun e => decide (e.1 ≠ oldest)).map Prod.fst =
      (cache.buckets.map Prod.fst).filter fun k => decide (k ≠ oldest) := by
    rw [List.filter_map]
    rfl
  rw [forgetTask_buckets, hmap, hkeys, List.filter_cons_of_neg (by simp)]
  refine List.filter_eq_self.mpr fun k hk => ?_
  rw [decide_eq_true_eq]
  rintro rfl
  exact (List.nodup_cons.mp hnodup).1 hk

/-- The loop keeps the count, and ends within the bound. -/
theorem Counted.evict {id : Text} {front : List Text} {cache : Cache} (h : Counted cache)
    (hkeys : cache.buckets.map Prod.fst = front ++ [id]) :
    Counted (evict limit id (front ++ [id]) cache) ∧ (evict limit id (front ++ [id]) cache).held ≤ limit := by
  induction front generalizing cache with
  | nil =>
      rw [List.nil_append] at hkeys ⊢
      rw [TaskCache.evict, if_pos rfl]
      split_ifs with hfits
      · exact ⟨h, hfits⟩
      · have hgone := keys_forgetTask hkeys (List.nodup_singleton id)
        refine ⟨h.forgetTask id, ?_⟩
        rw [(h.forgetTask id).held, List.map_eq_nil_iff.mp hgone]
        exact Int.natCast_nonneg limit
  | cons oldest front ih =>
      have hnodup := h.keys
      rw [hkeys, List.cons_append] at hnodup
      have hne : oldest ≠ id := by
        rintro rfl
        exact (List.nodup_cons.mp hnodup).1 (List.mem_append_right _ (List.mem_singleton.mpr rfl))
      rw [List.cons_append, TaskCache.evict, if_neg hne]
      split_ifs with hfits
      · exact ⟨h, hfits⟩
      · exact ih (h.forgetTask oldest) (keys_forgetTask hkeys hnodup)

theorem Counted.hold {cache : Cache} (h : Counted cache) (id : Text) (b : TaskBucket) :
    Counted (hold limit cache id b) ∧ (hold limit cache id b).held ≤ limit := by
  have hforgot := h.forgetTask id
  have hfresh : id ∉ (TaskCache.forgetTask cache id).buckets.map Prod.fst := by
    rw [forgetTask_buckets, List.mem_map]
    rintro ⟨e, he, rfl⟩
    simpa using (List.mem_filter.mp he).2
  have hkeys : ((TaskCache.forgetTask cache id).buckets ++ [(id, b)]).map Prod.fst =
      (TaskCache.forgetTask cache id).buckets.map Prod.fst ++ [id] := List.map_append
  unfold TaskCache.hold
  dsimp only
  rw [hkeys]
  refine Counted.evict ⟨?_, ?_⟩ hkeys
  · rw [hkeys, List.nodup_append]
    refine ⟨hforgot.keys, List.nodup_singleton id, fun k hk k' hk' heq => ?_⟩
    rw [heq, List.mem_singleton.mp hk'] at hk
    exact hfresh hk
  · rw [hforgot.held, List.map_append, List.sum_append]
    simp

/-- The bytes of the buckets are counted exactly, and never pass the bound. -/
theorem held_bounded {es : List Event} {s : State} (hrun : Run (Step unread limit) State.start es s) :
    s.cache.held = ((s.cache.buckets.map fun e => e.2.bytes).sum : ℕ) ∧ s.cache.held ≤ limit := by
  have hempty : Counted Cache.empty ∧ Cache.empty.held ≤ limit := ⟨⟨List.nodup_nil, rfl⟩, Int.natCast_nonneg limit⟩
  have hcounted : Counted s.cache ∧ s.cache.held ≤ limit := by
    refine hrun.invariant (I := fun s : State => Counted s.cache ∧ s.cache.held ≤ limit) (fun s e t h hstep => ?_) hempty
    cases hstep with
    | insert => exact h
    | delete => exact h
    | ingest => exact h
    | ask id upTo hupTo => exact h.1.hold id _
    | drop => exact hempty
  exact ⟨hcounted.1.held, hcounted.2⟩

/-- Two rows of a task; the second is the earlier one. -/
def laterRow : FactRow := ⟨1, 20, ['s'], some ['a'], ['x']⟩

def earlierRow : FactRow := ⟨2, 10, ['s'], some ['a'], ['x']⟩

/-- The task is asked for after each of them. -/
def askTwice : List Event :=
  [.insert laterRow none, .ingest 1, .ask ['a'] 1, .insert earlierRow (some ['b']), .ingest 2, .ask ['a'] 2]

theorem run_askTwice (limit : ℕ) :
    ∃ s, Run (Guarded (Step (fun _ => false) limit) Fresh) State.start askTwice s ∧ s.store.facts = [laterRow, earlierRow] := by
  have hinsert : Guarded (Step (fun _ => false) limit) Fresh State.start (.insert laterRow none) ⟨⟨[laterRow], []⟩, 0, .empty⟩ := by
    refine ⟨.insert laterRow none rfl, fun fact alias? heq => ?_⟩
    obtain ⟨rfl, -⟩ := Event.insert.inj heq
    decide
  have hother {s : State} {e : Event} (h : ∀ fact alias?, e ≠ .insert fact alias?) : Fresh s e :=
    fun fact alias? heq => absurd heq (h fact alias?)
  have hrun := (Run.single hinsert).snoc ⟨.ingest 1 (by decide) (by decide), hother fun _ _ heq => (by cases heq)⟩
  have hrun := hrun.snoc ⟨.ask ['a'] 1 le_rfl, hother fun _ _ heq => (by cases heq)⟩
  have hrun := hrun.snoc ⟨.insert earlierRow (some ['b']) rfl, fun fact alias? heq => (by
    obtain ⟨rfl, -⟩ := Event.insert.inj heq
    exact Nat.one_lt_two)⟩
  have hrun := hrun.snoc ⟨.ingest 2 one_le_two (show 2 ∈ [1, 2] by decide), hother fun _ _ heq => (by cases heq)⟩
  exact ⟨_, hrun.snoc ⟨.ask ['a'] 2 le_rfl, hother fun _ _ heq => (by cases heq)⟩, rfl⟩

theorem held_bounded_askTwice :
    ∃ s, Run (Step (fun _ => false) 1) State.start askTwice s ∧
      s.cache.held = ((s.cache.buckets.map fun e => e.2.bytes).sum : ℕ) ∧ s.cache.held ≤ (1 : ℕ) := by
  obtain ⟨s, hrun, -⟩ := run_askTwice 1
  exact ⟨s, hrun.of_guarded, held_bounded hrun.of_guarded⟩

/-! ### Every run -/

structure Inv (unread : Text → Bool) (s : State) : Prop where
  sorted : s.store.facts.Pairwise fun f g => f.seq < g.seq
  sound : ∀ e ∈ s.cache.buckets, Sound unread s.store e.1 e.2 ∧ e.2.high ≤ s.lastSeq

theorem inv_start : Inv unread State.start := ⟨List.Pairwise.nil, fun e he => by cases he⟩

theorem Inv.held {s : State} (h : Inv unread s) (id : Text) (b : TaskBucket) (hb : entryOf id s.cache.buckets = some b) :
    Sound unread s.store id b ∧ b.high ≤ s.lastSeq := h.sound (id, b) (mem_of_entryOf hb)

theorem le_maxSeq {store : Store} {f : FactRow} (h : f ∈ store.facts) : f.seq ≤ store.maxSeq :=
  List.le_max_of_le' 0 (List.mem_map_of_mem h) le_rfl

/-- A row above a bucket's numbers is not of it. -/
theorem aliasFacts_insert {store : Store} {fact : FactRow} (hseq : fact.seq = store.maxSeq + 1) (alias? : Option Text) (id : Text)
    {upTo : ℕ} (habove : ¬ fact.seq ≤ upTo) : aliasFacts (store.insert fact alias?) id upTo = aliasFacts store id upTo := by
  unfold aliasFacts Store.insert
  rw [List.filter_append, List.filter_singleton]
  have hlast : (decide ((id, fact.seq) ∈ alias?.toList.map (fun task => (task, fact.seq)) ++ store.aliases) &&
      decide (fact.seq ≤ upTo)) = false := by
    rw [decide_eq_false habove, Bool.and_false]
  rw [hlast]
  refine (List.append_nil _).trans (List.filter_congr fun f hf => ?_)
  have hle := le_maxSeq hf
  have hother : (id, f.seq) ∉ alias?.toList.map fun task => (task, fact.seq) := by
    rw [List.mem_map]
    rintro ⟨task, -, heq⟩
    have := (Prod.mk.inj heq).2
    omega
  simp [hother]

theorem Inv.step {s t : State} {e : Event} (h : Inv unread s) (hstep : Guarded (Step unread limit) Fresh s e t) : Inv unread t := by
  obtain ⟨hstep, hfresh⟩ := hstep
  cases hstep with
  | insert fact alias? hseq =>
      refine ⟨List.pairwise_append.mpr ⟨h.sorted, List.pairwise_singleton _ _, fun f hf g hg => ?_⟩, fun e he => ?_⟩
      · rw [List.mem_singleton.mp hg]
        have := le_maxSeq hf
        omega
      · -- the new row is above every bucket
        obtain ⟨⟨own, aliases, hown, haliases, hn, hrows⟩, hhigh⟩ := h.sound e he
        have habove : ¬fact.seq ≤ e.2.high := by
          have := hfresh fact alias? rfl
          omega
        refine ⟨⟨own, aliases, ?_, ?_, hn, hrows⟩, hhigh⟩
        · simpa [ownFacts, Store.insert, List.filter_append, habove] using hown
        · rw [aliasFacts_insert hseq alias? _ habove]
          exact haliases
  | delete seq =>
      refine ⟨h.sorted.filter _, fun e he => ?_⟩
      obtain ⟨⟨own, aliases, hown, haliases, hn, hrows⟩, hhigh⟩ := h.sound e he
      exact ⟨⟨own, aliases, ((List.filter_sublist).filter _).trans hown, ((List.filter_sublist).filter _).trans haliases, hn, hrows⟩,
        hhigh⟩
  | ingest seq hmore hmem => exact ⟨h.sorted, fun e he => ⟨(h.sound e he).1, (h.sound e he).2.trans hmore⟩⟩
  | ask id upTo hupTo =>
      refine ⟨h.sorted, fun e he => ?_⟩
      obtain he | rfl := mem_hold he
      · exact h.sound e he
      · obtain ⟨hge, hrows, hn⟩ := cachedTask_rows h.sorted upTo fun b hb => (h.held id b hb).1
        refine ⟨⟨_, _, List.Sublist.refl _, List.Sublist.refl _, hn, hrows⟩, ?_⟩
        show (cachedTask unread s.store (entryOf id s.cache.buckets) id upTo).high ≤ s.lastSeq
        unfold cachedTask
        cases hheld : entryOf id s.cache.buckets with
        | none => exact hupTo
        | some b =>
            dsimp only
            split
            · split
              · exact hupTo
              · exact (h.held id b hheld).2
            · exact hupTo
  | drop => exact ⟨h.sorted, fun e he => by cases he⟩

/-- An answer is what a full read gives. -/
theorem answer_exact {es : List Event} {s : State} (hrun : Run (Guarded (Step unread limit) Fresh) State.start es s) (id : Text)
    (upTo : ℕ) : answer unread s id upTo = readTaskRows (taskFacts unread s.store id upTo) := by
  have hinv : Inv unread s := hrun.invariant (fun _ _ _ h hstep => h.step hstep) inv_start
  obtain ⟨hge, hrows, -⟩ := cachedTask_rows hinv.sorted upTo fun b hb => (hinv.held id b hb).1
  rw [answer, hrows]
  exact filter_readTaskRows hinv.sorted id hge

theorem answer_askTwice :
    ∃ s, Run (Guarded (Step (fun _ => false) 100) Fresh) State.start askTwice s ∧ s.store.facts = [laterRow, earlierRow] ∧
      answer (fun _ => false) s ['a'] 2 = readTaskRows (taskFacts (fun _ => false) s.store ['a'] 2) := by
  obtain ⟨s, hrun, hfacts⟩ := run_askTwice 100
  exact ⟨s, hrun, hfacts, answer_exact hrun ['a'] 2⟩

end Remudero.Board.TaskCache
