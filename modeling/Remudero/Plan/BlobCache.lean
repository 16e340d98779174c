import Remudero.Lib.Record
import Remudero.Plan.Merge

/-! # The plan blob cache

`PlanBlobCache` and `cachedBlobParser` of `lib/plan.ts`, and the merge that reads through them.  An
entry holds what one parse gave under the label of an earlier ref: the tasks, the repeated ids and
the error, less the prefix that names the label.  A read through the cache answers as the read
without it does, over any run of reads (`plan_blob_cache_transparent`).

The parser uses its label in three ways only: as the source path of the tasks, and at the start of
two kinds of messages (`Uniform` for the checks of a task, `exists_entry` for a whole blob).  A ref
has no colon and no space, so that no other message starts as one of these two does.

`createHash("sha256")` is the parameter `hash`. -/

namespace Remudero.Plans

open Remudero.Lib

/-- Which prefix was taken off the message of an error. -/
inductive ErrorKind where
  | yaml | task | plain
deriving DecidableEq, Repr

structure CachedError where
  kind : ErrorKind
  message : Text

structure CachedPlanBlob where
  hash : Text
  label : Text
  tasks : List Task
  duplicates : List Key
  error : Option CachedError

/-- The entries by path, and how many blobs the last read parsed and reused. -/
structure PlanBlobCache where
  entries : Record Text CachedPlanBlob := ∅
  parsedBlobs : ℕ := 0
  reusedBlobs : ℕ := 0

def yamlStart (label : Text) : Text := "plan is not valid YAML (".toList ++ label ++ "): ".toList
def taskStart (label : Text) : Text := label ++ ": task ".toList

/-- The prefix of an error under a label. -/
def ErrorKind.start (label : Text) : ErrorKind → Text
  | .yaml => yamlStart label
  | .task => taskStart label
  | .plain => []

/-- Take the generated prefix off a message. -/
def stripStart (label message : Text) : CachedError :=
  if (yamlStart label).isPrefixOf message then ⟨.yaml, message.drop (yamlStart label).length⟩
  else if (taskStart label).isPrefixOf message then ⟨.task, message.drop (taskStart label).length⟩
  else ⟨.plain, message⟩

/-- `label.slice(label.indexOf(":") + 1)`; a label without a colon is its own path. -/
def pathOf (label : Text) : Text :=
  if ':' ∈ label then (label.dropWhile (· != ':')).tail else label

def Task.at (label : Text) (t : Task) : Task := { t with sourcePath := some label }

namespace CachedPlanBlob

/-- The entry under the label of another ref. -/
def relabel (entry : CachedPlanBlob) (label : Text) : CachedPlanBlob :=
  { entry with label := label, tasks := entry.tasks.map (Task.at label) }

/-- What the parser answers from an entry: the repeated ids, and the tasks or the error with its
prefix put back. -/
def answer (entry : CachedPlanBlob) (label : Text) : List Key × Except PlanError (List Task) :=
  (entry.duplicates, match entry.error with
    | some err => .error ⟨err.kind.start label ++ err.message⟩
    | none => .ok entry.tasks)

end CachedPlanBlob

section cache

variable (hash : Text → Text) (parseYaml : Text → Except Text Yaml) (regExpError : Text → Option Text)

/-- The entry of a blob that is parsed. -/
def parsedEntry (text label : Text) : CachedPlanBlob :=
  match parseTasksFromYaml parseYaml regExpError text label with
  | (duplicates, .ok tasks) => ⟨hash text, label, tasks, duplicates, none⟩
  | (duplicates, .error err) => ⟨hash text, label, [], duplicates, some (stripStart label err.message)⟩

/-- Parse one blob through `cache`; `next` is what the cache becomes if the read succeeds. -/
def cachedBlobParser (cache next : PlanBlobCache) (text label : Text) :
    PlanBlobCache × (List Key × Except PlanError (List Task)) :=
  let path := pathOf label
  match (cache.entries.get? path).filter fun entry => entry.hash == hash text with
  | some entry =>
      let entry := if entry.label = label then entry else entry.relabel label
      ({ next with entries := next.entries.set path entry, reusedBlobs := next.reusedBlobs + 1 },
        entry.answer label)
  | none =>
      let entry := parsedEntry hash parseYaml regExpError text label
      ({ next with entries := next.entries.set path entry, parsedBlobs := next.parsedBlobs + 1 },
        entry.answer label)

/-- `mergeBlob` from the parser's answer on. -/
def mergeAnswer (fatal : Bool) (s : MergeState) (b : Blob) (answer : List Key × Except PlanError (List Task)) :
    Except PlanError MergeState :=
  let s := answer.1.foldl (fun s id => s.recordDuplicate id b.label b.label) s
  match answer.2 with
  | .ok tasks => .ok (tasks.foldl (MergeState.addTask b.label) s)
  | .error err =>
      if fatal then .error err
      else .ok { s with invalid := s.invalid ++ invalidShard b.label err b.text }

def mergeBlobCached (cache : PlanBlobCache) (fatal : Bool) (s : MergeState × PlanBlobCache) (b : Blob) :
    Except PlanError (MergeState × PlanBlobCache) :=
  let (next, answer) := cachedBlobParser hash parseYaml regExpError cache s.2 b.text b.label
  (mergeAnswer fatal s.1 b answer).map fun merged => (merged, next)

/-- `mergeBlobTasks` with the cached parser. -/
def mergeBlobTasksCached (cache : PlanBlobCache) : List Blob → Except PlanError (MergeState × PlanBlobCache)
  | [] => .ok ({}, {})
  | monolith :: shards => do
      let s ← mergeBlobCached hash parseYaml regExpError cache true ({}, {}) monolith
      shards.foldlM (mergeBlobCached hash parseYaml regExpError cache false) s

/-- `mergePlanBlobsQuarantiningDuplicates(blobs, cache)`: the answer and the cache afterwards, which
a read that throws leaves as it was. -/
def mergePlanBlobsCached (cache : PlanBlobCache) (blobs : List Blob) :
    Except PlanError (Plan × List QuarantinedTask) × PlanBlobCache :=
  match mergeBlobTasksCached hash parseYaml regExpError cache blobs with
  | .error err => (.error err, cache)
  | .ok (s, next) =>
      match quarantineDuplicates s.tasks s.duplicates ((blobs.head?.map (·.label)).getD "plan".toList) s.invalid with
      | .error err => (.error err, cache)
      | .ok read => (.ok read, next)

/-- The answers of a run of reads with one cache. -/
def readsCached : PlanBlobCache → List (List Blob) → List (Except PlanError (Plan × List QuarantinedTask))
  | _, [] => []
  | cache, blobs :: reads =>
      let (read, cache) := mergePlanBlobsCached hash parseYaml regExpError cache blobs
      read :: readsCached cache reads

end cache

/-! ### Labels -/

/-- A blob as it is read at a ref.  A git ref has neither a colon nor a space in it. -/
structure RefBlob where
  ref : Text
  path : Text
  text : Text
  ref_plain : ∀ c ∈ ref, c ≠ ':' ∧ c ≠ ' '

def RefBlob.blob (b : RefBlob) : Blob := ⟨b.ref ++ ':' :: b.path, b.text⟩

/-- The first colon or space of a text. -/
def firstBreak (t : Text) : Option Char := t.find? fun c => c == ':' || c == ' '

theorem firstBreak_append {t : Text} {c : Char} (h : firstBreak t = some c) (u : Text) :
    firstBreak (t ++ u) = some c := by
  unfold firstBreak at *
  rw [List.find?_append, h]
  rfl

theorem RefBlob.firstBreak_label (b : RefBlob) : firstBreak b.blob.label = some ':' := by
  have hnone : b.ref.find? (fun c => c == ':' || c == ' ') = none := by
    rw [List.find?_eq_none]
    intro c hc
    simp [b.ref_plain c hc]
  show (b.ref ++ ':' :: b.path).find? _ = _
  rw [List.find?_append, hnone]
  rfl

/-- A message that does not start with a label or as an error of the YAML parser does. -/
def PlainMessage (m : Text) : Prop := firstBreak m = some ' ' ∧ ¬ "plan i".toList <+: m

theorem not_taskStart_of_plain {label m : Text} (hlabel : firstBreak label = some ':') (hm : PlainMessage m) :
    ¬ taskStart label <+: m := by
  rintro ⟨u, rfl⟩
  have hcolon : firstBreak (taskStart label ++ u) = some ':' :=
    firstBreak_append (firstBreak_append hlabel _) u
  rw [hm.1] at hcolon
  exact absurd hcolon (by decide)

theorem not_yamlStart_of_plain {label m : Text} (hm : PlainMessage m) : ¬ yamlStart label <+: m := by
  intro h
  have hwords : "plan i".toList <+: "plan is not valid YAML (".toList := by decide
  have hstart : "plan is not valid YAML (".toList <+: yamlStart label := by
    unfold yamlStart
    rw [List.append_assoc]
    exact List.prefix_append _ _
  exact hm.2 (hwords.trans (hstart.trans h))

theorem not_yamlStart_of_label {label m : Text} (hlabel : firstBreak label = some ':') :
    ¬ yamlStart label <+: taskStart label ++ m := by
  rintro ⟨u, hu⟩
  have hcolon : firstBreak (taskStart label ++ m) = some ':' :=
    firstBreak_append (firstBreak_append hlabel _) m
  have hspace : firstBreak (yamlStart label ++ u) = some ' ' :=
    firstBreak_append (firstBreak_append (firstBreak_append (by decide) label) _) u
  rw [hu, hcolon] at hspace
  exact absurd hspace (by decide)

/-- What `stripStart` takes off is what the error is thrown with again. -/
theorem start_stripStart (label m : Text) :
    (stripStart label m).kind.start label ++ (stripStart label m).message = m := by
  unfold stripStart
  split
  · next h => exact List.prefix_iff_eq_append.mp (List.isPrefixOf_iff_prefix.mp h)
  · split
    · next h => exact List.prefix_iff_eq_append.mp (List.isPrefixOf_iff_prefix.mp h)
    · rfl

/-- Only a plain message is kept as plain. -/
def CachedError.Clean (err : CachedError) : Prop := err.kind = .plain → PlainMessage err.message

/-- The message of an error under a label. -/
def CachedError.under (err : CachedError) (label : Text) : PlanError := ⟨err.kind.start label ++ err.message⟩

theorem stripStart_under {label : Text} (hlabel : firstBreak label = some ':') {err : CachedError} (hclean : err.Clean) :
    stripStart label (err.under label).message = err := by
  obtain ⟨kind, m⟩ := err
  cases kind with
  | yaml => simp [stripStart, CachedError.under, ErrorKind.start]
  | task =>
      have hyaml := not_yamlStart_of_label (m := m) hlabel
      rw [← List.isPrefixOf_iff_prefix] at hyaml
      simp [stripStart, CachedError.under, ErrorKind.start, hyaml]
  | plain =>
      have hm : PlainMessage m := hclean rfl
      have hyaml : ¬ yamlStart label <+: m := not_yamlStart_of_plain hm
      have htask := not_taskStart_of_plain hlabel hm
      rw [← List.isPrefixOf_iff_prefix] at hyaml htask
      simp [stripStart, CachedError.under, ErrorKind.start, hyaml, htask]

/-! ### How the checks use the label -/

/-- A check gives the same value for every label, or an error that differs in the label of its prefix
only. -/
def Uniform {α : Type} (f : Text → Except PlanError α) : Prop :=
  (∃ a, ∀ l, f l = .ok a) ∨ ∃ err : CachedError, err.Clean ∧ ∀ l, f l = .error (err.under l)

namespace Uniform

variable {α β : Type} {f : Text → Except PlanError α}

theorem pure (a : α) : Uniform fun _ => (Pure.pure a : Except PlanError α) :=
  .inl ⟨a, fun _ => rfl⟩

theorem throwPlain {pieces : List Text} (h : PlainMessage pieces.flatten) :
    Uniform fun _ => (throwPlan pieces : Except PlanError α) :=
  .inr ⟨⟨.plain, pieces.flatten⟩, fun _ => h, fun _ => rfl⟩

theorem throwTask (pieces : List Text) :
    Uniform fun _ => (throwPlan ("task ".toList :: pieces) : Except PlanError α) := by
  apply throwPlain
  constructor
  · simp [firstBreak]
  · simp

theorem throwLabelled (pieces : List Text) :
    Uniform fun l => (throwPlan (l :: ": task ".toList :: pieces) : Except PlanError α) := by
  refine .inr ⟨⟨.task, pieces.flatten⟩, nofun, fun l => ?_⟩
  simp [throwPlan, CachedError.under, ErrorKind.start, taskStart]

theorem bind {g : Text → α → Except PlanError β} (hf : Uniform f) (hg : ∀ a, Uniform fun l => g l a) :
    Uniform fun l => f l >>= g l := by
  obtain ⟨a, ha⟩ | ⟨err, hclean, h⟩ := hf
  · have heq : (fun l => f l >>= g l) = fun l => g l a := by
      funext l
      rw [ha l]
      rfl
    rw [heq]
    exact hg a
  · refine .inr ⟨err, hclean, fun l => ?_⟩
    show f l >>= g l = _
    rw [h l]
    rfl

/-- A check that throws before the rest. -/
theorem guard {c : Prop} [Decidable c] {stop : Text → Except PlanError Unit} {rest : Text → Unit → Except PlanError α}
    (hstop : Uniform stop) (hrest : Uniform fun l => rest l ()) :
    Uniform fun l => if c then stop l >>= rest l else rest l () := by
  by_cases hc : c
  · simp only [hc, if_true]
    exact hstop.bind fun _ => hrest
  · simp only [hc, if_false]
    exact hrest

theorem ite {c : Prop} [Decidable c] {g : Text → Except PlanError α} (hf : Uniform f) (hg : Uniform g) :
    Uniform fun l => if c then f l else g l := by
  by_cases hc : c
  · simpa only [hc, if_true] using hf
  · simpa only [hc, if_false] using hg

theorem forM {β : Type} {check : Text → β → Except PlanError Unit} (h : ∀ b, Uniform fun l => check l b) (bs : List β) :
    Uniform fun l => bs.forM (check l) := by
  induction bs with
  | nil => exact Uniform.pure ()
  | cons b bs ih => exact (h b).bind fun _ => ih

end Uniform

theorem uniform_req (v : Option Yaml) (name : String) (id : Text) : Uniform fun _ => req v name id := by
  unfold req
  split
  · exact .throwTask _
  · exact .throwTask _
  · exact .pure _

theorem uniform_validateSymptomQuery (regExpError : Text → Option Text) (id : Text) (v : Option Yaml) :
    Uniform fun _ => validateSymptomQuery regExpError id v := by
  unfold validateSymptomQuery
  repeat' split
  all_goals first | exact .pure _ | exact .throwTask _

theorem uniform_validateNotBefore (id : Text) (v : Option Yaml) : Uniform fun _ => validateNotBefore id v := by
  unfold validateNotBefore
  split
  · exact .pure _
  · exact .ite (.pure _) (.throwTask _)

theorem uniform_validatePrecondition (id : Text) (v : Option Yaml) :
    Uniform fun _ => validatePrecondition id v := by
  unfold validatePrecondition
  repeat' split
  all_goals first | exact .pure _ | exact .throwTask _

theorem uniform_validateCriterion (id : Text) (i : ℕ) (entry : Yaml) :
    Uniform fun l => validateCriterion l id i entry := by
  unfold validateCriterion
  cases entry with
  | map n fields =>
      refine Uniform.guard (.throwLabelled _) ?_
      cases Yaml.field (.map n fields) "satisfied_by" with
      | some cited => exact .ite (.throwLabelled _) (.pure _)
      | none => exact .ite (.throwLabelled _) (.pure _)
  | _ => exact .throwLabelled _

theorem uniform_validateAcceptanceShape (id : Text) (v : Option Yaml) :
    Uniform fun l => validateAcceptanceShape l id v := by
  unfold validateAcceptanceShape
  rcases v with _ | v
  · exact .pure _
  · cases v with
    | null => exact .pure _
    | seq n entries => exact Uniform.forM (fun p : Yaml × ℕ => uniform_validateCriterion id p.2 p.1) _
    | _ => exact .throwLabelled _

theorem uniform_validateRiskRulingShape (id : Text) (v : Option Yaml) :
    Uniform fun l => validateRiskRulingShape l id v := by
  unfold validateRiskRulingShape
  rcases v with _ | v
  · exact .pure _
  · cases v with
    | map n fields =>
        refine Uniform.guard (.throwLabelled _) ?_
        refine Uniform.guard (.throwLabelled _) ?_
        refine Uniform.guard (.throwLabelled _) ?_
        refine Uniform.guard (.throwLabelled _) ?_
        refine Uniform.guard (.throwLabelled _) ?_
        refine Uniform.guard (.throwLabelled _) ?_
        exact .ite (.throwLabelled _) (.pure _)
    | _ => exact .throwLabelled _

theorem Uniform.dispatchHold {α : Type} {v : Option Yaml} {pieces : List Text} {rest : Text → Except PlanError α}
    {k : Text → Unit → Except PlanError α} (hrest : Uniform rest) :
    Uniform fun l => match v with
      | none => rest l
      | some (.bool _) => rest l
      | some _ => throwPlan ("task ".toList :: pieces) >>= k l := by
  rcases v with _ | v
  · exact hrest
  · cases v with
    | bool b => exact hrest
    | _ => exact .throwTask pieces

theorem Uniform.supersededBy {α : Type} {v : Option Yaml} {id : Text} {rest : Text → Option Text → Except PlanError α}
    (hrest : ∀ s, Uniform fun l => rest l s) :
    Uniform fun l => match v with
      | none => Pure.pure none >>= rest l
      | some (.str t) =>
          if taskIdShape t then Pure.pure (some t) >>= rest l
          else throwPlan ["task ".toList, id, ": superseded_by must be a task id, got '".toList, t, ['\'']] >>= rest l
      | some v => throwPlan ["task ".toList, id, ": superseded_by must be a task id, got '".toList, v.shown, ['\'']] >>=
          rest l := by
  rcases v with _ | v
  · exact hrest none
  · cases v with
    | str t => exact .ite (hrest (some t)) (.bind (.throwTask _) hrest)
    | _ => exact Uniform.bind (.throwTask _) hrest

theorem uniform_checkTask (regExpError : Text → Option Text) (e : Yaml) (id : Text) :
    Uniform fun l => checkTask regExpError l e id := by
  unfold checkTask
  refine Uniform.guard (.throwTask _) ?_
  refine Uniform.guard (.throwTask _) ?_
  refine Uniform.dispatchHold ?_
  refine Uniform.guard (.throwTask _) ?_
  refine Uniform.supersededBy fun s => ?_
  refine Uniform.guard (.throwTask _) ?_
  refine Uniform.bind (uniform_req _ _ _) fun type => ?_
  refine Uniform.guard (.throwTask _) ?_
  refine Uniform.bind (uniform_req _ _ _) fun _ => ?_
  refine Uniform.bind (uniform_req _ _ _) fun _ => ?_
  refine Uniform.bind (uniform_validateSymptomQuery _ _ _) fun _ => ?_
  refine Uniform.bind (uniform_validateNotBefore _ _) fun _ => ?_
  refine Uniform.bind (uniform_validatePrecondition _ _) fun _ => ?_
  refine Uniform.bind (uniform_validateAcceptanceShape _ _) fun _ => ?_
  exact Uniform.bind (uniform_validateRiskRulingShape _ _) fun _ => .pure s

/-! ### A whole blob -/

/-- An error comes without tasks, and a plain error is a plain message. -/
def CachedPlanBlob.WellFormed (entry : CachedPlanBlob) : Prop :=
  ∀ err ∈ entry.error, err.Clean ∧ entry.tasks = []

/-- A parse answers for every label as one entry does under it. -/
def Answers (f : Text → List Key × Except PlanError (List Task)) : Prop :=
  ∃ entry : CachedPlanBlob, entry.WellFormed ∧ ∀ l, f l = (entry.relabel l).answer l

namespace Answers

variable {f : Text → List Key × Except PlanError (List Task)}

theorem of_error {err : CachedError} (hclean : err.Clean) (repeated : List Key)
    (h : ∀ l, f l = (repeated, .error (err.under l))) : Answers f := by
  refine ⟨⟨[], [], [], repeated, some err⟩, ?_, h⟩
  intro err' herr
  obtain rfl : err = err' := Option.some.inj herr
  exact ⟨hclean, rfl⟩

/-- A task in front of the tasks. -/
theorem cons (h : Answers f) (t : Task) (repeated : List Key) :
    Answers fun l => (repeated ++ (f l).1, (f l).2.map (t.at l :: ·)) := by
  obtain ⟨⟨hash, label, tasks, duplicates, error⟩, hwf, hf⟩ := h
  cases error with
  | none =>
      refine ⟨⟨hash, label, t :: tasks, repeated ++ duplicates, none⟩, nofun, fun l => ?_⟩
      simp only [hf]
      rfl
  | some err =>
      refine of_error (hwf err rfl).1 (repeated ++ duplicates) fun l => ?_
      simp only [hf]
      rfl

end Answers

theorem uniform_entryId (entry : Yaml) : Uniform fun _ => entryId entry := by
  unfold entryId
  exact .ite (.throwPlain ⟨by decide, by decide⟩) (uniform_req _ _ _)

section parse

variable (hash : Text → Text) (parseYaml : Text → Except Text Yaml) (regExpError : Text → Option Text)

theorem readTask_under (e id : Yaml) :
    (∃ t : Task, ∀ l, readTask regExpError l e id = .ok (t.at l)) ∨
      ∃ err : CachedError, err.Clean ∧ ∀ l, readTask regExpError l e id = .error (err.under l) := by
  obtain ⟨s, hs⟩ | ⟨err, hclean, herr⟩ := uniform_checkTask regExpError e id.shown
  · have hs : ∀ l, checkTask regExpError l e id.shown = .ok s := hs
    have hread : ∃ dependsOn, ∀ l, readTask regExpError l e id = .ok ((⟨id, dependsOn, s, none⟩ : Task).at l) := by
      constructor
      intro l
      rw [readTask, hs l]
      rfl
    obtain ⟨dependsOn, hread⟩ := hread
    exact .inl ⟨⟨id, dependsOn, s, none⟩, hread⟩
  · have herr : ∀ l, checkTask regExpError l e id.shown = .error (err.under l) := herr
    refine .inr ⟨err, hclean, fun l => ?_⟩
    rw [readTask, herr l]
    rfl

theorem answers_parseEntries (entries : List Yaml) (seen : List Key) :
    Answers fun l => parseEntries regExpError l seen entries := by
  induction entries generalizing seen with
  | nil => exact ⟨⟨[], [], [], [], none⟩, nofun, fun _ => rfl⟩
  | cons entry entries ih =>
      simp only [parseEntries]
      obtain ⟨id, hid⟩ | ⟨err, hclean, herr⟩ := uniform_entryId entry
      · have hid : entryId entry = .ok id := hid []
        simp only [hid]
        obtain ⟨t, ht⟩ | ⟨err, hclean, herr⟩ := readTask_under regExpError entry id
        · simp only [ht]
          exact (ih (id.key :: seen)).cons t _
        · exact .of_error hclean _ fun l => by rw [herr l]
      · have herr : ∀ l, entryId entry = .error (err.under l) := herr
        exact .of_error hclean [] fun l => by rw [herr l]

theorem answers_parseTasksFromYaml (text : Text) :
    Answers fun l => parseTasksFromYaml parseYaml regExpError text l := by
  unfold parseTasksFromYaml
  cases parseYaml text with
  | error err =>
      have hclean : (CachedError.mk .yaml err).Clean := by
        intro hkind
        cases hkind
      have hmessage (l : Text) : ["plan is not valid YAML (".toList, l, "): ".toList, err].flatten = yamlStart l ++ err := by
        unfold yamlStart
        generalize "plan is not valid YAML (".toList = start
        simp
      refine .of_error hclean [] fun l => ?_
      simp only [throwPlan, hmessage]
      rfl
  | ok v =>
      have hclean : (CachedError.mk .plain "plan must be a YAML list of task entries (schema v1).".toList).Clean :=
        fun _ => ⟨by decide, by decide⟩
      cases v with
      | seq n entries => exact answers_parseEntries regExpError entries []
      | _ =>
          refine .of_error hclean [] fun l => ?_
          simp only [throwPlan, CachedError.under, ErrorKind.start, List.flatten_cons, List.flatten_nil,
            List.append_nil, List.nil_append]

/-- An entry answers as the parse it was made from. -/
theorem answer_parsedEntry (text label : Text) :
    (parsedEntry hash parseYaml regExpError text label).answer label =
      parseTasksFromYaml parseYaml regExpError text label := by
  unfold parsedEntry
  obtain ⟨duplicates, parsed⟩ := parseTasksFromYaml parseYaml regExpError text label
  cases parsed with
  | ok tasks => rfl
  | error err =>
      show (duplicates, Except.error (PlanError.mk _)) = _
      rw [start_stripStart]

theorem hash_parsedEntry (text label : Text) : (parsedEntry hash parseYaml regExpError text label).hash = hash text := by
  unfold parsedEntry
  split
  · rfl
  · rfl

theorem label_parsedEntry (text label : Text) : (parsedEntry hash parseYaml regExpError text label).label = label := by
  unfold parsedEntry
  split
  · rfl
  · rfl

/-- Under the label of another ref an entry is the entry of a parse under that label. -/
theorem relabel_parsedEntry (text : Text) {label label' : Text} (hlabel : firstBreak label = some ':')
    (hlabel' : firstBreak label' = some ':') :
    (parsedEntry hash parseYaml regExpError text label).relabel label' =
      parsedEntry hash parseYaml regExpError text label' := by
  obtain ⟨entry, hwf, hentry⟩ := answers_parseTasksFromYaml parseYaml regExpError text
  have hparsed : ∀ l, firstBreak l = some ':' →
      parsedEntry hash parseYaml regExpError text l = { entry.relabel l with hash := hash text } := by
    intro l hl
    have hl' : parseTasksFromYaml parseYaml regExpError text l = (entry.relabel l).answer l := hentry l
    obtain ⟨_, _, tasks, duplicates, error⟩ := entry
    unfold parsedEntry
    rw [hl']
    cases error with
    | none => rfl
    | some err =>
        obtain ⟨hclean, htasks⟩ := hwf err rfl
        have htasks : tasks = [] := htasks
        subst htasks
        show CachedPlanBlob.mk _ _ _ _ (some (stripStart l (err.under l).message)) = _
        rw [stripStart_under hl hclean]
        rfl
  rw [hparsed label hlabel, hparsed label' hlabel']
  simp [CachedPlanBlob.relabel, Task.at, Function.comp_def]

/-! ### Reads through the cache -/

/-- Every entry is what a parse of one of `texts` under a label of a ref gave. -/
def PlanBlobCache.Sound (texts : Set Text) (cache : PlanBlobCache) : Prop :=
  ∀ path entry, cache.entries.get? path = some entry →
    ∃ text ∈ texts, ∃ label, firstBreak label = some ':' ∧ entry = parsedEntry hash parseYaml regExpError text label

variable {texts : Set Text} {cache : PlanBlobCache}

theorem sound_new : PlanBlobCache.Sound hash parseYaml regExpError texts {} := by
  intro path entry h
  cases h

variable {hash parseYaml regExpError}

theorem PlanBlobCache.Sound.set {next next' : PlanBlobCache} (hnext : next.Sound hash parseYaml regExpError texts)
    {text label : Text} (htext : text ∈ texts) (hlabel : firstBreak label = some ':')
    (hentries : next'.entries = next.entries.set (pathOf label) (parsedEntry hash parseYaml regExpError text label)) :
    next'.Sound hash parseYaml regExpError texts := by
  intro path entry h
  rw [hentries] at h
  by_cases hpath : path = pathOf label
  · rw [hpath, Record.get?_set_self, Option.some.injEq] at h
    exact ⟨text, htext, label, hlabel, h.symm⟩
  · rw [Record.get?_set_of_ne _ _ hpath] at h
    exact hnext path entry h

/-- An entry that is reused is the entry of a parse under the label of the read: its hash tells that
it is of the same text. -/
theorem reused_entry (hhash : Set.InjOn hash texts) (hcache : cache.Sound hash parseYaml regExpError texts)
    {text label : Text} (htext : text ∈ texts) (hlabel : firstBreak label = some ':') {path : Text}
    {entry : CachedPlanBlob}
    (h : (cache.entries.get? path).filter (fun entry => entry.hash == hash text) = some entry) :
    (if entry.label = label then entry else entry.relabel label) =
      parsedEntry hash parseYaml regExpError text label := by
  rw [Option.filter_eq_some_iff] at h
  obtain ⟨hget, hsame⟩ := h
  obtain ⟨text', htext', label', hlabel', rfl⟩ := hcache path entry hget
  have htexts : text' = text := by
    refine hhash htext' htext ?_
    rw [← hash_parsedEntry hash parseYaml regExpError text' label']
    exact eq_of_beq hsame
  subst htexts
  by_cases hsame : label' = label
  · subst hsame
    rw [if_pos (label_parsedEntry hash parseYaml regExpError text' label')]
  · rw [label_parsedEntry, if_neg hsame]
    exact relabel_parsedEntry hash parseYaml regExpError text' hlabel' hlabel

/-- The cached parser answers as the parser does. -/
theorem cachedBlobParser_spec (hhash : Set.InjOn hash texts) (hcache : cache.Sound hash parseYaml regExpError texts)
    {next : PlanBlobCache} (hnext : next.Sound hash parseYaml regExpError texts) {text label : Text}
    (htext : text ∈ texts) (hlabel : firstBreak label = some ':') :
    (cachedBlobParser hash parseYaml regExpError cache next text label).2 =
        parseTasksFromYaml parseYaml regExpError text label ∧
      (cachedBlobParser hash parseYaml regExpError cache next text label).1.Sound hash parseYaml regExpError texts := by
  simp only [cachedBlobParser]
  split
  · next entry hreuse =>
      rw [reused_entry hhash hcache htext hlabel hreuse]
      exact ⟨answer_parsedEntry hash parseYaml regExpError text label, hnext.set htext hlabel rfl⟩
  · exact ⟨answer_parsedEntry hash parseYaml regExpError text label, hnext.set htext hlabel rfl⟩

theorem mergeAnswer_parse (fatal : Bool) (s : MergeState) (b : Blob) :
    mergeAnswer fatal s b (parseTasksFromYaml parseYaml regExpError b.text b.label) =
      mergeBlob parseYaml regExpError fatal s b := rfl

/-- A merge with the cache gives what the merge without it gives, and a sound cache. -/
def Agrees (texts : Set Text) (hash : Text → Text) (parseYaml : Text → Except Text Yaml)
    (regExpError : Text → Option Text) (cached : Except PlanError (MergeState × PlanBlobCache))
    (plain : Except PlanError MergeState) : Prop :=
  match plain with
  | .error err => cached = .error err
  | .ok s => ∃ next : PlanBlobCache, next.Sound hash parseYaml regExpError texts ∧ cached = .ok (s, next)

/-- A blob of a read: its text is among `texts` and its label is that of a ref. -/
def BlobOf (texts : Set Text) (b : Blob) : Prop := b.text ∈ texts ∧ firstBreak b.label = some ':'

theorem mergeBlobCached_agrees (hhash : Set.InjOn hash texts) (hcache : cache.Sound hash parseYaml regExpError texts)
    {next : PlanBlobCache} (hnext : next.Sound hash parseYaml regExpError texts) {b : Blob} (hb : BlobOf texts b)
    (fatal : Bool) (s : MergeState) :
    Agrees texts hash parseYaml regExpError
      (mergeBlobCached hash parseYaml regExpError cache fatal (s, next) b)
      (mergeBlob parseYaml regExpError fatal s b) := by
  obtain ⟨hanswer, hsound⟩ := cachedBlobParser_spec hhash hcache hnext hb.1 hb.2
  simp only [mergeBlobCached]
  rw [hanswer, mergeAnswer_parse]
  cases mergeBlob parseYaml regExpError fatal s b with
  | error err => rfl
  | ok s' => exact ⟨_, hsound, rfl⟩

theorem Agrees.bind {x : Except PlanError (MergeState × PlanBlobCache)} {y : Except PlanError MergeState}
    {k : MergeState × PlanBlobCache → Except PlanError (MergeState × PlanBlobCache)}
    {k' : MergeState → Except PlanError MergeState} (h : Agrees texts hash parseYaml regExpError x y)
    (hk : ∀ s next, next.Sound hash parseYaml regExpError texts →
      Agrees texts hash parseYaml regExpError (k (s, next)) (k' s)) :
    Agrees texts hash parseYaml regExpError (x >>= k) (y >>= k') := by
  cases y with
  | error err =>
      have hx : x = .error err := h
      rw [hx]
      rfl
  | ok s =>
      obtain ⟨next, hnext, hx⟩ := h
      rw [hx]
      exact hk s next hnext

theorem mergeShardsCached_agrees (hhash : Set.InjOn hash texts) (hcache : cache.Sound hash parseYaml regExpError texts)
    {shards : List Blob} (hshards : ∀ b ∈ shards, BlobOf texts b) (s : MergeState) {next : PlanBlobCache}
    (hnext : next.Sound hash parseYaml regExpError texts) :
    Agrees texts hash parseYaml regExpError
      (shards.foldlM (mergeBlobCached hash parseYaml regExpError cache false) (s, next))
      (shards.foldlM (mergeBlob parseYaml regExpError false) s) := by
  induction shards generalizing s next with
  | nil => exact ⟨next, hnext, rfl⟩
  | cons b shards ih =>
      rw [List.foldlM_cons, List.foldlM_cons]
      refine (mergeBlobCached_agrees hhash hcache hnext (hshards b List.mem_cons_self) false s).bind ?_
      intro s' next' hnext'
      exact ih (fun c hc => hshards c (List.mem_cons_of_mem b hc)) s' hnext'

theorem mergeBlobTasksCached_agrees (hhash : Set.InjOn hash texts)
    (hcache : cache.Sound hash parseYaml regExpError texts) {blobs : List Blob} (hblobs : ∀ b ∈ blobs, BlobOf texts b) :
    Agrees texts hash parseYaml regExpError (mergeBlobTasksCached hash parseYaml regExpError cache blobs)
      (mergeBlobTasks parseYaml regExpError blobs) := by
  have hnew : PlanBlobCache.Sound hash parseYaml regExpError texts {} := sound_new hash parseYaml regExpError
  cases blobs with
  | nil => exact ⟨{}, hnew, rfl⟩
  | cons monolith shards =>
      refine (mergeBlobCached_agrees hhash hcache hnew (hblobs monolith List.mem_cons_self) true {}).bind ?_
      intro s next hnext
      exact mergeShardsCached_agrees hhash hcache (fun b hb => hblobs b (List.mem_cons_of_mem monolith hb)) s hnext

/-- One read: the answer is that of the read without the cache, and the cache stays sound whether or
not the read throws. -/
theorem mergePlanBlobsCached_spec (hhash : Set.InjOn hash texts) (hcache : cache.Sound hash parseYaml regExpError texts)
    {blobs : List Blob} (hblobs : ∀ b ∈ blobs, BlobOf texts b) :
    (mergePlanBlobsCached hash parseYaml regExpError cache blobs).1 =
        mergePlanBlobsQuarantiningDuplicates parseYaml regExpError blobs ∧
      (mergePlanBlobsCached hash parseYaml regExpError cache blobs).2.Sound hash parseYaml regExpError texts := by
  have hagrees := mergeBlobTasksCached_agrees hhash hcache hblobs
  unfold mergePlanBlobsCached mergePlanBlobsQuarantiningDuplicates
  cases hplain : mergeBlobTasks parseYaml regExpError blobs with
  | error err =>
      rw [hplain] at hagrees
      have hcached : mergeBlobTasksCached hash parseYaml regExpError cache blobs = .error err := hagrees
      rw [hcached]
      exact ⟨rfl, hcache⟩
  | ok s =>
      rw [hplain] at hagrees
      obtain ⟨next, hnext, hcached⟩ := hagrees
      rw [hcached]
      simp only [bind, Except.bind]
      cases quarantineDuplicates s.tasks s.duplicates ((blobs.head?.map (·.label)).getD "plan".toList) s.invalid with
      | error err => exact ⟨rfl, hcache⟩
      | ok read => exact ⟨rfl, hnext⟩

theorem readsCached_eq (hhash : Set.InjOn hash texts) {reads : List (List Blob)}
    (hreads : ∀ blobs ∈ reads, ∀ b ∈ blobs, BlobOf texts b) (cache : PlanBlobCache)
    (hcache : cache.Sound hash parseYaml regExpError texts) :
    readsCached hash parseYaml regExpError cache reads =
      reads.map (mergePlanBlobsQuarantiningDuplicates parseYaml regExpError) := by
  induction reads generalizing cache with
  | nil => rfl
  | cons blobs reads ih =>
      obtain ⟨hread, hsound⟩ := mergePlanBlobsCached_spec hhash hcache (hreads blobs List.mem_cons_self)
      simp only [readsCached, List.map_cons]
      rw [hread, ih (fun bs hbs => hreads bs (List.mem_cons_of_mem blobs hbs)) _ hsound]

end parse

/-- The texts of a run of reads. -/
def textsOf (reads : List (List RefBlob)) : Set Text := {t | ∃ read ∈ reads, ∃ b ∈ read, b.text = t}

/-- With one cache over any run of reads, each read gives the plan, the quarantined tasks and the
error of the read without a cache. -/
theorem plan_blob_cache_transparent (hash : Text → Text) (parseYaml : Text → Except Text Yaml)
    (regExpError : Text → Option Text) (reads : List (List RefBlob)) (hhash : Set.InjOn hash (textsOf reads)) :
    readsCached hash parseYaml regExpError {} (reads.map (·.map RefBlob.blob)) =
      reads.map fun blobs => mergePlanBlobsQuarantiningDuplicates parseYaml regExpError (blobs.map RefBlob.blob) := by
  have hreads : ∀ blobs ∈ reads.map (·.map RefBlob.blob), ∀ b ∈ blobs, BlobOf (textsOf reads) b := by
    intro blobs hblobs b hb
    obtain ⟨read, hread, rfl⟩ := List.mem_map.mp hblobs
    obtain ⟨c, hc, rfl⟩ := List.mem_map.mp hb
    exact ⟨⟨read, hread, c, hc, rfl⟩, c.firstBreak_label⟩
  rw [readsCached_eq hhash hreads {} (sound_new hash parseYaml regExpError), List.map_map]
  rfl

def emptyPlan : Text := "[]\n".toList
def badShard : Text := "- id: A-1\n  type: manual\n  title: t\n  repo: r\n  acceptance: 3\n".toList

/-- The monolith and a shard whose criteria are not a list, read at one ref and then at another. -/
def twoRefs : List (List RefBlob) :=
  [[⟨"main".toList, "plan/tasks.yaml".toList, emptyPlan, by simp⟩,
      ⟨"main".toList, "plan/tasks.d/A-1.yaml".toList, badShard, by simp⟩],
    [⟨"dev".toList, "plan/tasks.yaml".toList, emptyPlan, by simp⟩,
      ⟨"dev".toList, "plan/tasks.d/A-1.yaml".toList, badShard, by simp⟩]]

/-- The SHA-256 digests of the two texts. -/
def digestOf (t : Text) : Text :=
  if t = emptyPlan then "37517e5f3dc66819f61f5a7bb8ace1921282415f10551d2defa5c3eb0985b570".toList
  else if t = badShard then "38c3fefc9bfbad38edcb3b78854f5b17eed5489cf15c02ddc38bd5a5f72c14a8".toList
  else []

/-- What the two texts parse to. -/
def yamlOf (t : Text) : Except Text Yaml :=
  if t = emptyPlan then .ok (.seq 0 [])
  else if t = badShard then
    .ok (.seq 0 [.map 1 [("id".toList, .str "A-1".toList), ("type".toList, .str "manual".toList),
      ("title".toList, .str "t".toList), ("repo".toList, .str "r".toList),
      ("acceptance".toList, .num (.finite 3) "3".toList)]])
  else .error []

theorem textsOf_twoRefs {t : Text} (h : t ∈ textsOf twoRefs) : t = emptyPlan ∨ t = badShard := by
  obtain ⟨read, hread, b, hb, rfl⟩ := h
  simp only [twoRefs, List.mem_cons, List.not_mem_nil, or_false] at hread
  obtain rfl | rfl := hread
  · simp only [List.mem_cons, List.not_mem_nil, or_false] at hb
    obtain rfl | rfl := hb
    · exact .inl rfl
    · exact .inr rfl
  · simp only [List.mem_cons, List.not_mem_nil, or_false] at hb
    obtain rfl | rfl := hb
    · exact .inl rfl
    · exact .inr rfl

theorem digestOf_injOn : Set.InjOn digestOf (textsOf twoRefs) := by
  have hne : digestOf emptyPlan ≠ digestOf badShard := by decide
  intro t ht t' ht' h
  obtain rfl | rfl := textsOf_twoRefs ht
  · obtain rfl | rfl := textsOf_twoRefs ht'
    · rfl
    · exact absurd h hne
  · obtain rfl | rfl := textsOf_twoRefs ht'
    · exact absurd h.symm hne
    · rfl

theorem plan_blob_cache_transparent_two_refs :
    Set.InjOn digestOf (textsOf twoRefs) ∧
      readsCached digestOf yamlOf (fun _ => none) {} (twoRefs.map (·.map RefBlob.blob)) =
        twoRefs.map fun blobs => mergePlanBlobsQuarantiningDuplicates yamlOf (fun _ => none) (blobs.map RefBlob.blob) :=
  ⟨digestOf_injOn, plan_blob_cache_transparent digestOf yamlOf (fun _ => none) twoRefs digestOf_injOn⟩

end Remudero.Plans
