import Remudero.Lib.Checks
import Remudero.Plan.Merge

/-! # One bad shard and the plan

When does a plan survive shards that repeat ids or do not parse?  The merge holds out the repeated
ids, the ids recorded for shards that do not parse, and everything that depends on a held id
(`Held`).  Two gaps remain:

* the closure follows `depends_on` but not `superseded_by`, so a task outside it may name a held
  task as its successor, and validation then throws;
* the ids recorded for a shard that does not parse come from a scan of its text, which finds an
  id only where it is written first on a list line.  Which ids such a text declares is a parameter.

`merge_intact_iff`: for blobs whose monolith parses and whose references are all declared, the
merge does what it is for (`Intact`) exactly when neither gap is hit (`Contained`). -/

namespace Remudero.Plans

open Remudero.Lib

section blobs

variable (parseYaml : Text → Except Text Yaml) (regExpError : Text → Option Text)

-- the ids that a text declares which is no YAML list, for a reader who mends it
variable (mended : Text → List Key)

namespace Blob

variable (b : Blob)

/-- The tasks of the blob, or the error that it does not parse. -/
def parsed : Except PlanError (List Task) := (parseTasksFromYaml parseYaml regExpError b.text b.label).2

/-- The ids the parser reports as repeated within the blob. -/
def repeatedIds : List Key := (parseTasksFromYaml parseYaml regExpError b.text b.label).1

def tasks : List Task :=
  match b.parsed parseYaml regExpError with
  | .ok ts => ts
  | .error _ => []

/-- The ids recorded for a shard that does not parse. -/
def recordedIds : List Key :=
  match b.parsed parseYaml regExpError with
  | .ok _ => []
  | .error err => (invalidShard b.label err b.text).map (·.id)

/-- The ids declared in the blob, whether it parses or not: those of its entries or, where the
text is not a YAML list, those of the mended text. -/
def declaredIds : List Key :=
  match parseYaml b.text with
  | .ok (.seq _ entries) => entries.filterMap fun e => (entryId e).toOption.map Yaml.key
  | _ => mended b.text

end Blob

variable (blobs : List Blob)

/-- The tasks of all blobs that parse. -/
def parsedTasks : List Task := blobs.flatMap (Blob.tasks parseYaml regExpError)

/-- An id declared in a blob that does not parse. -/
def Unparseable (k : Key) : Prop :=
  ∃ b ∈ blobs, (∃ err, b.parsed parseYaml regExpError = .error err) ∧ k ∈ b.declaredIds parseYaml mended

/-- An id declared more than once. -/
def Repeated (k : Key) : Prop := 2 ≤ (blobs.flatMap (Blob.declaredIds parseYaml mended)).count k

/-- An id the merge holds out by itself. -/
def Root (k : Key) : Prop :=
  (∃ b ∈ blobs, k ∈ b.repeatedIds parseYaml regExpError) ∨
    2 ≤ ((parsedTasks parseYaml regExpError blobs).map Task.key).count k ∨
    ∃ b ∈ blobs, k ∈ b.recordedIds parseYaml regExpError

/-- An id held out, by itself or because it depends on one that is. -/
def Held : Key → Prop :=
  Reached Task.key Task.uses (parsedTasks parseYaml regExpError blobs) (Root parseYaml regExpError blobs)

/-- The monolith, when there is one, parses. -/
def MonolithParses : Prop :=
  ∀ m, blobs.head? = some m → ∃ ts, m.parsed parseYaml regExpError = .ok ts

/-- Every reference of a parsed task names an id declared in some blob. -/
def ReferencesDeclared : Prop :=
  ∀ t ∈ parsedTasks parseYaml regExpError blobs,
    (∀ d ∈ t.uses, ∃ b ∈ blobs, d ∈ b.declaredIds parseYaml mended) ∧
    ∀ s, t.supersededBy = some s → ∃ b ∈ blobs, Key.str s ∈ b.declaredIds parseYaml mended

/-- The references of the plan resolve within it. -/
def Plan.Resolves (plan : Plan) : Prop :=
  ∀ t ∈ plan.tasks, (∀ d ∈ t.uses, plan.has d = true) ∧
    ∀ s, t.supersededBy = some s → plan.has (.str s) = true

/-- What the merge is for: it returns, the plan has no task of a repeated or unparseable id, its
references resolve, and every declared id outside it is reported. -/
def Intact : Prop :=
  ∃ plan quarantined,
    mergePlanBlobsQuarantiningDuplicates parseYaml regExpError blobs = .ok (plan, quarantined) ∧
    (∀ t ∈ plan.tasks, ¬ Repeated parseYaml mended blobs t.key ∧ ¬ Unparseable parseYaml regExpError mended blobs t.key) ∧
    plan.Resolves ∧
    ∀ b ∈ blobs, ∀ k ∈ b.declaredIds parseYaml mended, plan.has k = true ∨ ∃ q ∈ quarantined, q.id = k

/-- Neither gap is hit: every id of a shard that does not parse is held, and so is every task
whose successor is held. -/
def Contained : Prop :=
  (∀ k, Unparseable parseYaml regExpError mended blobs k → Held parseYaml regExpError blobs k) ∧
    ∀ t ∈ parsedTasks parseYaml regExpError blobs, ∀ s, t.supersededBy = some s →
      Held parseYaml regExpError blobs (.str s) → Held parseYaml regExpError blobs t.key

end blobs

variable {parseYaml : Text → Except Text Yaml} {regExpError : Text → Option Text} {mended : Text → List Key}
  {blobs : List Blob}

/-! ### What the parser returns -/

theorem readTask_key {label : Text} {e id : Yaml} {t : Task}
    (h : readTask regExpError label e id = .ok t) : t.key = id.key := by
  unfold readTask at h
  cases hc : checkTask regExpError label e id.shown with
  | error err => rw [hc] at h; cases h
  | ok sup =>
      rw [hc] at h
      cases h
      rfl

/-- The tasks parsed are the entries, in order. -/
theorem parseEntries_keys {label : Text} {entries : List Yaml} {seen : List Key} {ts : List Task}
    (h : (parseEntries regExpError label seen entries).2 = .ok ts) :
    (entries.filterMap fun e => (entryId e).toOption.map Yaml.key) = ts.map Task.key := by
  induction entries generalizing seen ts with
  | nil =>
      cases h
      rfl
  | cons e entries ih =>
      unfold parseEntries at h
      cases hid : entryId e with
      | error err => rw [hid] at h; cases h
      | ok id =>
          rw [hid] at h
          cases hread : readTask regExpError label e id with
          | error err => simp only [hread] at h; cases h
          | ok t =>
              simp only [hread] at h
              cases hrest : (parseEntries regExpError label (id.key :: seen) entries).2 with
              | error err => rw [hrest] at h; cases h
              | ok rest =>
                  rw [hrest] at h
                  cases h
                  have hhead : (entryId e).toOption.map Yaml.key = some t.key := by
                    rw [hid, readTask_key hread]
                    rfl
                  simp only [List.filterMap_cons, hhead, List.map_cons]
                  rw [ih hrest]

theorem declaredIds_of_parsed {b : Blob} {ts : List Task} (h : b.parsed parseYaml regExpError = .ok ts) :
    b.declaredIds parseYaml mended = ts.map Task.key := by
  unfold Blob.parsed parseTasksFromYaml at h
  unfold Blob.declaredIds
  split at h
  · cases h
  next n entries hp =>
    rw [hp]
    exact parseEntries_keys h
  · cases h

/-! ### What the merge collects -/

/-- The state after the tasks `ts`, the repeated ids `R` and the recorded ids `inv`. -/
structure Merged (R : Key → Prop) (ts : List Task) (inv : List Key) (s : MergeState) : Prop where
  labels : s.labelOf.map (·.1) = s.tasks.map Task.key
  sub : ∀ t ∈ s.tasks, t ∈ ts
  keys : ∀ t ∈ ts, t.key ∈ s.tasks.map Task.key
  first : ∀ t ∈ ts, t ∈ s.tasks ∨ 2 ≤ (ts.map Task.key).count t.key
  duplicates : ∀ k, k ∈ s.duplicates.map (·.1) ↔ R k ∨ 2 ≤ (ts.map Task.key).count k
  invalid : s.invalid.map (·.id) = inv

theorem mem_recordDuplicate {s : MergeState} {id k : Key} {earlier later : Text} :
    k ∈ (s.recordDuplicate id earlier later).duplicates.map (·.1) ↔ k ∈ s.duplicates.map (·.1) ∨ k = id := by
  unfold MergeState.recordDuplicate
  by_cases h : s.duplicates.any (fun d => d.1 = id)
  · have hmap : ∀ f : List Text → List Text,
        (s.duplicates.map fun d => if d.1 = id then (d.1, f d.2) else d).map (·.1) = s.duplicates.map (·.1) := by
      intro f
      rw [List.map_map]
      apply List.map_congr_left
      intro d _
      simp only [Function.comp_apply]
      split <;> rfl
    simp only [h, if_true]
    rw [hmap fun files => if later ∈ files then files else files ++ [later]]
    obtain ⟨d, hd, hid⟩ := List.any_eq_true.mp h
    constructor
    · exact .inl
    · rintro (hk | rfl)
      · exact hk
      · exact List.mem_map.mpr ⟨d, hd, of_decide_eq_true hid⟩
  · simp only [h, Bool.false_eq_true, if_false, List.map_append, List.map_cons, List.map_nil,
      List.mem_append, List.mem_singleton]

theorem Merged.recordDuplicate {R : Key → Prop} {ts : List Task} {inv : List Key} {s : MergeState}
    (h : Merged R ts inv s) (id : Key) (earlier later : Text) :
    Merged (fun k => R k ∨ k = id) ts inv (s.recordDuplicate id earlier later) where
  labels := h.labels
  sub := h.sub
  keys := h.keys
  first := h.first
  duplicates := by
    intro k
    rw [mem_recordDuplicate, h.duplicates k]
    tauto
  invalid := h.invalid

theorem Merged.recordAll {R : Key → Prop} {ts : List Task} {inv : List Key} {s : MergeState}
    (h : Merged R ts inv s) (ids : List Key) (label : Text) :
    Merged (fun k => R k ∨ k ∈ ids) ts inv (ids.foldl (fun s id => s.recordDuplicate id label label) s) := by
  induction ids generalizing R s with
  | nil => simpa using h
  | cons id ids ih =>
      have h' := ih (h.recordDuplicate id label label)
      simpa only [List.foldl_cons, List.mem_cons, or_assoc] using h'

theorem count_append_key {ts : List Task} {t : Task} {k : Key} :
    ((ts ++ [t]).map Task.key).count k = (ts.map Task.key).count k + if t.key = k then 1 else 0 := by
  rw [List.map_append, List.count_append, List.map_singleton, List.count_singleton]
  by_cases h : t.key = k
  · simp [h]
  · simp [h]

theorem Merged.addTask {R : Key → Prop} {ts : List Task} {inv : List Key} {s : MergeState}
    (h : Merged R ts inv s) (label : Text) (t : Task) :
    Merged R (ts ++ [t]) inv (s.addTask label t) := by
  have hcount : t.key ∈ s.tasks.map Task.key ↔ 1 ≤ (ts.map Task.key).count t.key := by
    rw [Nat.succ_le_iff, List.count_pos_iff]
    constructor
    · intro hk
      obtain ⟨u, hu, huk⟩ := List.mem_map.mp hk
      exact List.mem_map.mpr ⟨u, h.sub u hu, huk⟩
    · intro hk
      obtain ⟨u, hu, huk⟩ := List.mem_map.mp hk
      exact huk ▸ h.keys u hu
  have hfirst : ∀ u ∈ ts, u ∈ s.tasks ∨ 2 ≤ ((ts ++ [t]).map Task.key).count u.key := by
    intro u hu
    refine (h.first u hu).imp_right fun h2 => ?_
    rw [count_append_key]
    omega
  unfold MergeState.addTask
  split
  next p hp =>
    have hseen : t.key ∈ s.tasks.map Task.key := by
      rw [← h.labels]
      have hk := List.find?_some hp
      exact List.mem_map.mpr ⟨p, List.mem_of_find?_eq_some hp, of_decide_eq_true hk⟩
    have hpos := hcount.mp hseen
    refine ⟨h.labels, fun u hu => List.mem_append_left _ (h.sub u hu), ?_, ?_, ?_, h.invalid⟩
    · intro u hu
      rcases List.mem_append.mp hu with hu | hu
      · exact h.keys u hu
      · rw [List.mem_singleton.mp hu]
        exact hseen
    · intro u hu
      rcases List.mem_append.mp hu with hu | hu
      · exact hfirst u hu
      · right
        rw [List.mem_singleton.mp hu, count_append_key, if_pos rfl]
        omega
    · intro k
      rw [mem_recordDuplicate, h.duplicates k, count_append_key]
      by_cases hk : t.key = k
      · subst hk
        rw [if_pos rfl]
        constructor
        · intro _
          right
          omega
        · intro _
          exact .inr rfl
      · rw [if_neg hk]
        constructor
        · rintro (hr | rfl)
          · exact hr
          · exact absurd rfl hk
        · exact .inl
  next hp =>
    have hunseen : t.key ∉ s.tasks.map Task.key := by
      rw [← h.labels]
      intro hk
      obtain ⟨p, hpm, hpk⟩ := List.mem_map.mp hk
      have := List.find?_eq_none.mp hp p hpm
      exact this (decide_eq_true hpk)
    have hzero : (ts.map Task.key).count t.key = 0 := by
      have := mt hcount.mpr hunseen
      omega
    refine ⟨?_, ?_, ?_, ?_, ?_, h.invalid⟩
    · rw [List.map_append, List.map_append, h.labels]
      rfl
    · intro u hu
      rcases List.mem_append.mp hu with hu | hu
      · exact List.mem_append_left _ (h.sub u hu)
      · exact List.mem_append_right _ hu
    · intro u hu
      rw [List.map_append, List.mem_append]
      rcases List.mem_append.mp hu with hu | hu
      · exact .inl (h.keys u hu)
      · right
        rw [List.mem_singleton.mp hu]
        exact List.mem_singleton.mpr rfl
    · intro u hu
      rcases List.mem_append.mp hu with hu | hu
      · exact (hfirst u hu).imp_left (List.mem_append_left _)
      · exact .inl (List.mem_append_right _ hu)
    · intro k
      rw [h.duplicates k, count_append_key]
      by_cases hk : t.key = k
      · subst hk
        rw [if_pos rfl, hzero]
        constructor
        · exact fun hr => hr.imp_right (by omega)
        · exact fun hr => hr.imp_right (by omega)
      · rw [if_neg hk]
        rfl

theorem Merged.addTasks {new : List Task} {R : Key → Prop} {ts : List Task} {inv : List Key} {s : MergeState}
    (h : Merged R ts inv s) (label : Text) :
    Merged R (ts ++ new) inv (new.foldl (MergeState.addTask label) s) := by
  induction new generalizing ts s with
  | nil => simpa using h
  | cons t new ih =>
      have h' := ih (h.addTask label t)
      simpa using h'

/-- One blob, which is fatal only if it parses. -/
theorem Merged.blob {R : Key → Prop} {ts : List Task} {inv : List Key} {s : MergeState}
    (h : Merged R ts inv s) (b : Blob) (fatal : Bool)
    (hfatal : fatal = true → ∃ new, b.parsed parseYaml regExpError = .ok new) :
    ∃ s', mergeBlob parseYaml regExpError fatal s b = .ok s' ∧
      Merged (fun k => R k ∨ k ∈ b.repeatedIds parseYaml regExpError) (ts ++ b.tasks parseYaml regExpError)
        (inv ++ b.recordedIds parseYaml regExpError) s' := by
  have h' := h.recordAll (b.repeatedIds parseYaml regExpError) b.label
  have hblob : mergeBlob parseYaml regExpError fatal s b =
      match b.parsed parseYaml regExpError with
      | .ok tasks => .ok (tasks.foldl (MergeState.addTask b.label)
          ((b.repeatedIds parseYaml regExpError).foldl (fun s id => s.recordDuplicate id b.label b.label) s))
      | .error err => if fatal then .error err else
          .ok { (b.repeatedIds parseYaml regExpError).foldl (fun s id => s.recordDuplicate id b.label b.label) s with
            invalid := ((b.repeatedIds parseYaml regExpError).foldl
              (fun s id => s.recordDuplicate id b.label b.label) s).invalid ++ invalidShard b.label err b.text } :=
    rfl
  generalize (b.repeatedIds parseYaml regExpError).foldl
    (fun s id => s.recordDuplicate id b.label b.label) s = s₁ at h' hblob
  rw [hblob]
  unfold Blob.tasks Blob.recordedIds
  cases hp : b.parsed parseYaml regExpError with
  | ok new =>
      refine ⟨_, rfl, ?_⟩
      rw [List.append_nil]
      exact h'.addTasks b.label
  | error err =>
      have hf : fatal = false := by
        cases fatal with
        | false => rfl
        | true =>
            obtain ⟨new, hnew⟩ := hfatal rfl
            rw [hp] at hnew
            cases hnew
      subst hf
      refine ⟨_, rfl, ?_⟩
      rw [List.append_nil]
      refine ⟨h'.labels, h'.sub, h'.keys, h'.first, h'.duplicates, ?_⟩
      rw [List.map_append, h'.invalid]

/-- The state after the blobs `done`. -/
def MergedBlobs (parseYaml : Text → Except Text Yaml) (regExpError : Text → Option Text)
    (done : List Blob) : MergeState → Prop :=
  Merged (fun k => ∃ b ∈ done, k ∈ b.repeatedIds parseYaml regExpError)
    (parsedTasks parseYaml regExpError done) (done.flatMap (Blob.recordedIds parseYaml regExpError))

theorem MergedBlobs.snoc {done : List Blob} {s : MergeState} (h : MergedBlobs parseYaml regExpError done s)
    (b : Blob) (fatal : Bool) (hfatal : fatal = true → ∃ new, b.parsed parseYaml regExpError = .ok new) :
    ∃ s', mergeBlob parseYaml regExpError fatal s b = .ok s' ∧
      MergedBlobs parseYaml regExpError (done ++ [b]) s' := by
  obtain ⟨s', hs', hm⟩ := h.blob b fatal hfatal
  refine ⟨s', hs', ?_⟩
  unfold MergedBlobs parsedTasks
  rw [List.flatMap_append, List.flatMap_append, List.flatMap_singleton, List.flatMap_singleton]
  refine { hm with duplicates := fun k => ?_ }
  rw [hm.duplicates k]
  apply or_congr_left
  constructor
  · rintro (⟨c, hc, hk⟩ | hk)
    · exact ⟨c, List.mem_append_left _ hc, hk⟩
    · exact ⟨b, by simp, hk⟩
  · rintro ⟨c, hc, hk⟩
    rcases List.mem_append.mp hc with hc | hc
    · exact .inl ⟨c, hc, hk⟩
    · rw [List.mem_singleton.mp hc] at hk
      exact .inr hk

theorem MergedBlobs.shards {done : List Blob} {s : MergeState}
    (h : MergedBlobs parseYaml regExpError done s) (shards : List Blob) :
    ∃ s', shards.foldlM (mergeBlob parseYaml regExpError false) s = .ok s' ∧
      MergedBlobs parseYaml regExpError (done ++ shards) s' := by
  induction shards generalizing done s with
  | nil => exact ⟨s, rfl, by simpa using h⟩
  | cons b shards ih =>
      obtain ⟨s₁, h₁, hm₁⟩ := h.snoc b false (by simp)
      obtain ⟨s₂, h₂, hm₂⟩ := ih hm₁
      refine ⟨s₂, ?_, by simpa using hm₂⟩
      rw [List.foldlM_cons, h₁]
      exact h₂

theorem mergeBlobTasks_merged (hmono : MonolithParses parseYaml regExpError blobs) :
    ∃ s, mergeBlobTasks parseYaml regExpError blobs = .ok s ∧ MergedBlobs parseYaml regExpError blobs s := by
  have hempty : MergedBlobs parseYaml regExpError [] {} := by
    constructor <;> simp [parsedTasks]
  cases blobs with
  | nil => exact ⟨{}, rfl, hempty⟩
  | cons m shards =>
      obtain ⟨s₁, h₁, hm₁⟩ := hempty.snoc m true fun _ => hmono m rfl
      obtain ⟨s₂, h₂, hm₂⟩ := hm₁.shards shards
      refine ⟨s₂, ?_, by simpa using hm₂⟩
      simp only [mergeBlobTasks, h₁]
      exact h₂

/-! ### What is held -/

/-- The merge holds exactly the held ids: a task that was dropped repeats an id, and that id is
held by itself. -/
theorem mem_close_merged {s : MergeState} (h : MergedBlobs parseYaml regExpError blobs s) {k : Key} :
    k ∈ (close Task.key Task.uses s.tasks (s.tasks.length + 1)
      (s.duplicates.map (·.1) ++ s.invalid.map (·.id))).1 ↔ Held parseYaml regExpError blobs k := by
  have hroot : ∀ k, k ∈ s.duplicates.map (·.1) ++ s.invalid.map (·.id) ↔ Root parseYaml regExpError blobs k := by
    intro k
    rw [List.mem_append, h.duplicates k, h.invalid, List.mem_flatMap, or_assoc]
    rfl
  rw [mem_close_iff]
  constructor
  · intro hr
    induction hr with
    | root hk => exact .root ((hroot _).mp hk)
    | use ht hd _ ih => exact .use (h.sub _ ht) hd ih
  · intro hr
    induction hr with
    | root hk => exact .root ((hroot _).mpr hk)
    | @use t d ht hd _ ih =>
        rcases h.first t ht with hin | h2
        · exact .use hin hd ih
        · exact .root ((hroot _).mpr (.inr (.inl h2)))

/-! ### What validation accepts -/

theorem assertDependsOnResolves_eq_ok_iff {plan : Plan} {t : Task} :
    assertDependsOnResolves plan t = .ok () ↔ ∀ d ∈ t.uses, plan.has d = true := by
  unfold assertDependsOnResolves Task.uses
  rw [forM_eq_ok_iff, List.forall_mem_map]
  refine forall₂_congr fun d _ => ?_
  split
  next h => simp [h]
  next h => simp [h, throwPlan]

theorem assertSupersededByResolves_eq_ok_iff {plan : Plan} {t : Task} :
    assertSupersededByResolves plan t = .ok () ↔
      ∀ s, t.supersededBy = some s → plan.has (.str s) = true := by
  unfold assertSupersededByResolves
  cases t.supersededBy with
  | none => simp
  | some s =>
      simp only [Option.some.injEq, forall_eq']
      split
      next h => simp [h]
      next h => simp [h, throwPlan]

theorem validatedPlan_eq_ok_iff {tasks : List Task} {plan : Plan} :
    validatedPlan tasks = .ok plan ↔ plan = ⟨tasks⟩ ∧ plan.Resolves := by
  have hcheck : ∀ t : Task,
      (do assertDependsOnResolves ⟨tasks⟩ t; assertSupersededByResolves ⟨tasks⟩ t) = .ok () ↔
        (∀ d ∈ t.uses, (Plan.mk tasks).has d = true) ∧
          ∀ s, t.supersededBy = some s → (Plan.mk tasks).has (.str s) = true := by
    intro t
    rw [bind_eq_ok_iff, ← assertDependsOnResolves_eq_ok_iff, ← assertSupersededByResolves_eq_ok_iff]
    constructor
    · rintro ⟨⟨⟩, h1, h2⟩
      exact ⟨h1, h2⟩
    · rintro ⟨h1, h2⟩
      exact ⟨(), h1, h2⟩
  unfold validatedPlan
  rw [bind_eq_ok_iff]
  constructor
  · rintro ⟨⟨⟩, hall, hplan⟩
    cases hplan
    exact ⟨rfl, fun t ht => (hcheck t).mp (forM_eq_ok_iff.mp hall t ht)⟩
  · rintro ⟨rfl, hres⟩
    exact ⟨(), forM_eq_ok_iff.mpr fun t ht => (hcheck t).mpr (hres t ht), rfl⟩

/-- The quarantine of a merge: the tasks not held, validated, and a report of every held id. -/
theorem quarantineDuplicates_eq {s : MergeState} (h : MergedBlobs parseYaml regExpError blobs s) (fallback : Text) :
    ∃ tasks quarantined,
      quarantineDuplicates s.tasks s.duplicates fallback s.invalid =
        (validatedPlan tasks).map (fun plan => (plan, quarantined)) ∧
      (∀ t, t ∈ tasks ↔ t ∈ s.tasks ∧ ¬ Held parseYaml regExpError blobs t.key) ∧
      ∀ k, (∃ q ∈ quarantined, q.id = k) ↔ Held parseYaml regExpError blobs k := by
  have hheld := fun k => mem_close_merged h (k := k)
  unfold quarantineDuplicates
  split
  next hempty =>
    -- nothing is recorded, so nothing is held
    rw [Bool.and_eq_true, List.isEmpty_iff, List.isEmpty_iff] at hempty
    have hnone : ∀ k, ¬ Held parseYaml regExpError blobs k := by
      intro k hk
      rw [← hheld k, hempty.1, hempty.2, mem_close_iff] at hk
      induction hk with
      | root hr => simp at hr
      | use _ _ _ ih => exact ih
    refine ⟨_, _, rfl, fun t => ?_, fun k => ?_⟩
    · exact ⟨fun ht => ⟨ht, hnone _⟩, fun ht => ht.1⟩
    · simp [hnone k]
  next =>
    have hadded : ∀ k, k ∈ (close Task.key Task.uses s.tasks (s.tasks.length + 1)
        (s.duplicates.map (·.1) ++ s.invalid.map (·.id))).1 ↔ _ := fun k => mem_close_iff_root_or_added
    dsimp only
    generalize close Task.key Task.uses s.tasks (s.tasks.length + 1)
      (s.duplicates.map (·.1) ++ s.invalid.map (·.id)) = c at hheld hadded ⊢
    obtain ⟨held, added⟩ := c
    refine ⟨_, _, rfl, fun t => ?_, fun k => ?_⟩
    · rw [List.mem_filter, decide_eq_true_eq, hheld]
    · rw [← hheld k, hadded k]
      simp only [List.mem_append, List.mem_map]
      constructor
      · rintro ⟨q, (⟨d, hd, rfl⟩ | hq) | ⟨t, ht, rfl⟩, rfl⟩
        · exact .inl (.inl ⟨d, hd, rfl⟩)
        · exact .inl (.inr ⟨q, hq, rfl⟩)
        · exact .inr ⟨t, ht, rfl⟩
      · rintro ((⟨d, hd, rfl⟩ | ⟨q, hq, rfl⟩) | ⟨t, ht, rfl⟩)
        · exact ⟨_, .inl (.inl ⟨d, hd, rfl⟩), rfl⟩
        · exact ⟨q, .inl (.inr hq), rfl⟩
        · exact ⟨_, .inr ⟨t, ht, rfl⟩, rfl⟩

/-! ### The merge as a whole -/

theorem count_declared_of_parsed {k : Key} (h : ¬ Unparseable parseYaml regExpError mended blobs k) :
    (blobs.flatMap (Blob.declaredIds parseYaml mended)).count k =
      ((parsedTasks parseYaml regExpError blobs).map Task.key).count k := by
  unfold parsedTasks
  induction blobs with
  | nil => rfl
  | cons b blobs ih =>
      have hrest : ¬ Unparseable parseYaml regExpError mended blobs k := by
        rintro ⟨c, hc, hk⟩
        exact h ⟨c, List.mem_cons_of_mem _ hc, hk⟩
      rw [List.flatMap_cons, List.flatMap_cons, List.map_append, List.count_append, List.count_append, ih hrest]
      congr 1
      unfold Blob.tasks
      cases hp : b.parsed parseYaml regExpError with
      | ok ts => rw [declaredIds_of_parsed hp]
      | error err =>
          rw [List.map_nil, List.count_nil, List.count_eq_zero]
          exact fun hk => h ⟨b, List.mem_cons_self, ⟨err, hp⟩, hk⟩

/-- A declared id is unparseable, or the id of a parsed task. -/
theorem unparseable_or_parsed {b : Blob} {k : Key} (hb : b ∈ blobs) (hk : k ∈ b.declaredIds parseYaml mended) :
    Unparseable parseYaml regExpError mended blobs k ∨ ∃ t ∈ parsedTasks parseYaml regExpError blobs, t.key = k := by
  cases hp : b.parsed parseYaml regExpError with
  | error err => exact .inl ⟨b, hb, ⟨err, hp⟩, hk⟩
  | ok ts =>
      right
      rw [declaredIds_of_parsed hp] at hk
      obtain ⟨t, ht, rfl⟩ := List.mem_map.mp hk
      refine ⟨t, List.mem_flatMap.mpr ⟨b, hb, ?_⟩, rfl⟩
      unfold Blob.tasks
      rw [hp]
      exact ht

theorem Plan.has_iff {plan : Plan} {k : Key} : plan.has k = true ↔ ∃ t ∈ plan.tasks, t.key = k := by
  simp [Plan.has]

/-- The merge spelled out: it returns exactly when the tasks that are not held resolve among
themselves, and it then reports exactly the held ids. -/
theorem merge_eq_ok (hmono : MonolithParses parseYaml regExpError blobs) :
    ∃ tasks quarantined,
      (∀ plan q, mergePlanBlobsQuarantiningDuplicates parseYaml regExpError blobs = .ok (plan, q) ↔
        plan = ⟨tasks⟩ ∧ plan.Resolves ∧ q = quarantined) ∧
      (∀ t ∈ tasks, t ∈ parsedTasks parseYaml regExpError blobs ∧ ¬ Held parseYaml regExpError blobs t.key) ∧
      (∀ t ∈ parsedTasks parseYaml regExpError blobs, ¬ Held parseYaml regExpError blobs t.key → t ∈ tasks) ∧
      ∀ k, (∃ q ∈ quarantined, q.id = k) ↔ Held parseYaml regExpError blobs k := by
  obtain ⟨s, hs, hm⟩ := mergeBlobTasks_merged hmono
  obtain ⟨tasks, quarantined, heq, htasks, hq⟩ :=
    quarantineDuplicates_eq hm ((blobs.head?.map (·.label)).getD "plan".toList)
  refine ⟨tasks, quarantined, fun plan q => ?_, ?_, ?_, hq⟩
  · unfold mergePlanBlobsQuarantiningDuplicates
    rw [hs]
    show quarantineDuplicates _ _ _ _ = _ ↔ _
    rw [heq]
    have hval : validatedPlan tasks = .ok plan ↔ plan = ⟨tasks⟩ ∧ plan.Resolves := validatedPlan_eq_ok_iff
    constructor
    · intro h
      cases hv : validatedPlan tasks with
      | error err => rw [hv] at h; cases h
      | ok p =>
          rw [hv] at h
          cases h
          exact ⟨(hval.mp hv).1, (hval.mp hv).2, rfl⟩
    · rintro ⟨h1, h2, rfl⟩
      rw [hval.mpr ⟨h1, h2⟩]
      rfl
  · intro t ht
    have := (htasks t).mp ht
    exact ⟨hm.sub t this.1, this.2⟩
  · intro t ht hnot
    refine (htasks t).mpr ⟨(hm.first t ht).resolve_right fun h2 => ?_, hnot⟩
    exact hnot (.root (.inr (.inl h2)))

/-- **One bad shard.**  For blobs whose monolith parses and whose references are all declared, the
merge is intact exactly when neither gap of the quarantine is hit. -/
theorem merge_intact_iff (hmono : MonolithParses parseYaml regExpError blobs)
    (hrefs : ReferencesDeclared parseYaml regExpError mended blobs) :
    Intact parseYaml regExpError mended blobs ↔ Contained parseYaml regExpError mended blobs := by
  obtain ⟨tasks, quarantined, hok, hin, hout, hreport⟩ := merge_eq_ok hmono
  constructor
  · rintro ⟨plan, q, hmerge, hclean, hres, hall⟩
    obtain ⟨rfl, -, rfl⟩ := (hok plan q).mp hmerge
    constructor
    · intro k hk
      obtain ⟨b, hb, hbad, hkb⟩ := hk
      rcases hall b hb k hkb with hhas | hrep
      · obtain ⟨t, ht, rfl⟩ := Plan.has_iff.mp hhas
        exact absurd ⟨b, hb, hbad, hkb⟩ (hclean t ht).2
      · exact (hreport k).mp hrep
    · intro t ht s hs hheld
      by_contra hnot
      have hhas := (hres t (hout t ht hnot)).2 s hs
      obtain ⟨u, hu, huk⟩ := Plan.has_iff.mp hhas
      exact (hin u hu).2 (huk ▸ hheld)
  · rintro ⟨hbad, hsup⟩
    -- a declared id that is not held names a task of the plan
    have hfound : ∀ k, (∃ b ∈ blobs, k ∈ b.declaredIds parseYaml mended) → ¬ Held parseYaml regExpError blobs k →
        (Plan.mk tasks).has k = true := by
      rintro k ⟨b, hb, hk⟩ hnot
      have hcases : Unparseable parseYaml regExpError mended blobs k ∨
          ∃ t ∈ parsedTasks parseYaml regExpError blobs, t.key = k := unparseable_or_parsed hb hk
      rcases hcases with hu | ⟨t, ht, rfl⟩
      · exact absurd (hbad k hu) hnot
      · exact Plan.has_iff.mpr ⟨t, hout t ht hnot, rfl⟩
    have hres : (Plan.mk tasks).Resolves := by
      intro t ht
      obtain ⟨htp, hnot⟩ := hin t ht
      refine ⟨fun d hd => hfound d ((hrefs t htp).1 d hd) fun hh => hnot (.use htp hd hh), ?_⟩
      intro s hs
      exact hfound _ ((hrefs t htp).2 s hs) fun hh => hnot (hsup t htp s hs hh)
    refine ⟨⟨tasks⟩, quarantined, (hok _ _).mpr ⟨rfl, hres, rfl⟩, ?_, hres, ?_⟩
    · intro t ht
      obtain ⟨-, hnot⟩ := hin t ht
      have hun : ¬ Unparseable parseYaml regExpError mended blobs t.key := fun hu => hnot (hbad _ hu)
      refine ⟨fun hrep => hnot (.root (.inr (.inl ?_))), hun⟩
      rw [← count_declared_of_parsed hun]
      exact hrep
    · intro b hb k hk
      by_cases hh : Held parseYaml regExpError blobs k
      · exact .inr ((hreport k).mpr hh)
      · exact .inl (hfound k ⟨b, hb, hk⟩ hh)

/-! ### Small plans -/

section small

/-- A mapping with the required fields. -/
def minimalEntry (id : String) (more : List (Text × Yaml)) : Yaml :=
  .map 1 ([("id".toList, .str id.toList), ("title".toList, .str ['t']), ("repo".toList, .str ['r']),
    ("type".toList, .str "implement".toList)] ++ more)

def retiredText : Text :=
  "- id: W1-T1\n  title: t\n  repo: r\n  type: implement\n  superseded_by: W1-T2\n".toList

def successorText : Text := "- id: W1-T2\n  title: t\n  repo: r\n  type: implement\n".toList

def tornText : Text := "- id: W1-T3\n  title: [\n".toList

/-- A torn shard whose task has its title before its id. -/
def buriedText : Text := "- title: t\n  id: W1-T3\n  goal: [\n".toList

/-- The YAML package on these texts. -/
def parseSmall (text : Text) : Except Text Yaml :=
  if text = retiredText then
    .ok (.seq 0 [minimalEntry "W1-T1" [("superseded_by".toList, .str "W1-T2".toList)]])
  else if text = successorText then .ok (.seq 0 [minimalEntry "W1-T2" []])
  else .error "YAMLParseError".toList

/-- Either torn text declares one task. -/
def mendSmall (text : Text) : List Key := if text = tornText ∨ text = buriedText then [.str "W1-T3".toList] else []

def monolithWithTornShard : List Blob := [⟨['m'], successorText⟩, ⟨['s'], tornText⟩]

def monolithWithBuriedId : List Blob := [⟨['m'], successorText⟩, ⟨['s'], buriedText⟩]

def successorTwice : List Blob := [⟨['m'], retiredText⟩, ⟨['a'], successorText⟩, ⟨['b'], successorText⟩]

/-- Both monoliths parse, and what their task refers to is declared. -/
theorem monolith_parses (shard : Blob) : MonolithParses parseSmall (fun _ => none) [⟨['m'], successorText⟩, shard] := by
  rintro m hm
  cases hm
  exact ⟨_, rfl⟩

theorem references_declared {shard : Blob} (h : shard.tasks parseSmall (fun _ => none) = []) :
    ReferencesDeclared parseSmall (fun _ => none) mendSmall [⟨['m'], successorText⟩, shard] := by
  intro t ht
  have hmonolith : (Blob.mk ['m'] successorText).tasks parseSmall (fun _ => none) =
      [(⟨.str "W1-T2".toList, [], none, some ['m']⟩ : Task)] := rfl
  rw [parsedTasks, List.flatMap_cons, List.flatMap_singleton, h, hmonolith, List.append_nil, List.mem_singleton] at ht
  rw [ht]
  exact ⟨by simp [Task.uses], by simp⟩

/-- A shard that is not YAML is held out under its id and the monolith survives; a shard whose id is not where the scan
looks is not contained, as the id is held under the label of the shard. -/
theorem torn_shard_contained :
    Intact parseSmall (fun _ => none) mendSmall monolithWithTornShard ∧
      ¬ Intact parseSmall (fun _ => none) mendSmall monolithWithBuriedId := by
  constructor
  · refine (merge_intact_iff (monolith_parses _) (references_declared rfl)).mpr ⟨?_, ?_⟩
    · rintro k ⟨b, hb, ⟨err, herr⟩, hk⟩
      rcases List.mem_cons.mp hb with rfl | hb
      · cases herr
      · rw [List.mem_singleton.mp hb] at hk
        have hrecorded : k ∈ (Blob.mk ['s'] tornText).recordedIds parseSmall (fun _ => none) := hk
        exact .root (.inr (.inr ⟨_, List.mem_cons_of_mem _ List.mem_cons_self, hrecorded⟩))
    · intro t ht s hs
      have ht' : t ∈ [(⟨.str "W1-T2".toList, [], none, some ['m']⟩ : Task)] := ht
      rw [List.mem_singleton.mp ht'] at hs
      cases hs
  · intro hintact
    have hcontained := (merge_intact_iff (monolith_parses _) (references_declared rfl)).mp hintact
    have hheld := hcontained.1 (.str "W1-T3".toList)
      ⟨⟨['s'], buriedText⟩, List.mem_cons_of_mem _ List.mem_cons_self, ⟨_, rfl⟩, by decide⟩
    obtain ⟨s, hs, hmerged⟩ := mergeBlobTasks_merged (monolith_parses ⟨['s'], buriedText⟩)
    rw [← mem_close_merged hmerged] at hheld
    cases hs
    exact absurd hheld (by decide)

/-- Two shards repeat the id that a retired task names as its successor: the merge throws. -/
theorem superseded_by_quarantined_throws :
    MonolithParses parseSmall (fun _ => none) successorTwice ∧
    ReferencesDeclared parseSmall (fun _ => none) mendSmall successorTwice ∧
    (∃ err, mergePlanBlobsQuarantiningDuplicates parseSmall (fun _ => none) successorTwice = .error err) ∧
    ¬ Intact parseSmall (fun _ => none) mendSmall successorTwice := by
  have hthrow : ∃ err,
      mergePlanBlobsQuarantiningDuplicates parseSmall (fun _ => none) successorTwice = .error err := ⟨_, rfl⟩
  refine ⟨?_, ?_, hthrow, ?_⟩
  · rintro m hm
    cases hm
    exact ⟨_, rfl⟩
  · intro t ht
    have ht' : t ∈ [(⟨.str "W1-T1".toList, [], some "W1-T2".toList, some ['m']⟩ : Task),
        ⟨.str "W1-T2".toList, [], none, some ['a']⟩, ⟨.str "W1-T2".toList, [], none, some ['b']⟩] := ht
    have hdecl : Key.str "W1-T2".toList ∈ (Blob.mk ['a'] successorText).declaredIds parseSmall mendSmall := by decide
    simp only [List.mem_cons, List.not_mem_nil, or_false] at ht'
    rcases ht' with rfl | rfl | rfl
    · refine ⟨by simp [Task.uses], fun s hs => ?_⟩
      cases hs
      exact ⟨_, List.mem_cons_of_mem _ List.mem_cons_self, hdecl⟩
    · exact ⟨by simp [Task.uses], by simp⟩
    · exact ⟨by simp [Task.uses], by simp⟩
  · rintro ⟨plan, q, hmerge, -⟩
    obtain ⟨err, herr⟩ := hthrow
    rw [hmerge] at herr
    cases herr

end small

end Remudero.Plans
