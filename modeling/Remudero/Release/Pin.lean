import Remudero.Lib.JsonParse
import Remudero.Lib.Record
import Remudero.Lib.Utf16

/-! # The release pin

`operatorReleasePin` of `lib/operator-release.ts`: the hash of a task's contract in a serialization that does not
depend on the order of keys.  The bookkeeping of a run, the ruling and the verification mode are left out.

The serialization is `JSON.stringify` of a canonical value (`stable_eq`), and a serialized value can be read back, so
that two contracts have one serialization exactly if their canonical values are one.  `Same` says without any
canonical form when two values are equal but for the order of keys and for undefined fields.

* `canon_eq_iff`: values have one canonical value if and only if they are the same.
* `operatorReleasePin_eq_iff`: under a hash without collisions, pins are equal if and only if the contracts are the
  same after `sourcePath`, `attempts`, `risk_ruling` and `verify` are removed. -/

namespace Remudero.Release

open Remudero.Lib

/-! ### Values -/

/-- A value made of JSON values, in which a field of an object may be undefined. -/
inductive Value where
  | undefined
  | null
  | bool (b : Bool)
  /-- a number, as it is serialized -/
  | num (shown : Text)
  | str (t : Text)
  | arr (items : List Value)
  | obj (fields : List (Text × Value))

namespace Value

def isUndefined : Value → Bool
  | .undefined => true
  | _ => false

mutual

/-- JSON values; the keys of an object are distinct, and its fields may be undefined. -/
def IsJson : Value → Prop
  | .undefined => False
  | .null => True
  | .bool _ => True
  | .num shown => Json.Readable (.num shown)
  | .str _ => True
  | .arr items => ItemsJson items
  | .obj fields => (fields.map Prod.fst).Nodup ∧ FieldsJson fields

def ItemsJson : List Value → Prop
  | [] => True
  | v :: items => IsJson v ∧ ItemsJson items

def FieldsJson : List (Text × Value) → Prop
  | [] => True
  | (_, v) :: fields => (v.isUndefined = true ∨ IsJson v) ∧ FieldsJson fields

end

/-- A field that is there and not undefined. -/
def field (fields : List (Text × Value)) (k : Text) : Option Value := (entryOf k fields).filter fun v => !v.isUndefined

/-- Equal up to the order of keys and to undefined fields, at every depth. -/
inductive Same : Value → Value → Prop
  | null : Same .null .null
  | bool (b : Bool) : Same (.bool b) (.bool b)
  | num (shown : Text) : Same (.num shown) (.num shown)
  | str (t : Text) : Same (.str t) (.str t)
  | arr {items items' : List Value} : items.length = items'.length →
      (∀ (n : ℕ) (v v' : Value), items[n]? = some v → items'[n]? = some v' → Same v v') → Same (.arr items) (.arr items')
  | obj {fields fields' : List (Text × Value)} : (∀ k, (field fields k).isSome = (field fields' k).isSome) →
      (∀ (k : Text) (v v' : Value), field fields k = some v → field fields' k = some v' → Same v v') →
      Same (.obj fields) (.obj fields')

end Value

open Value

/-! ### The serialization -/

mutual

/-- The recursion of `operatorReleasePin`. -/
def stable : Value → Text
  | .undefined => "null".toList
  | .null => "null".toList
  | .bool true => "true".toList
  | .bool false => "false".toList
  | .num shown => shown
  | .str t => Json.quote t
  | .arr items => '[' :: Json.commas (stableItems items) ++ [']']
  | .obj fields => '\x7b' :: Json.commas ((sortedByKey Text.utf16 (stableFields fields)).map Prod.snd) ++ ['\x7d']

def stableItems : List Value → List Text
  | [] => []
  | v :: items => stable v :: stableItems items

/-- The fields that are not undefined, each under its key. -/
def stableFields : List (Text × Value) → List (Text × Text)
  | [] => []
  | (k, v) :: fields =>
      if v.isUndefined then stableFields fields else (k, Json.quote k ++ ':' :: stable v) :: stableFields fields

end

/-- A contract: an object made of JSON values. -/
structure ReleaseContract where
  fields : List (Text × Value)
  isJson : IsJson (.obj fields)

/-- `sourcePath`, `attempts` and `risk_ruling` -/
def bookkeeping : List Text := ["sourcePath".toList, "attempts".toList, "risk_ruling".toList]

def verifyKey : Text := "verify".toList

/-- The contract without its bookkeeping. -/
def ReleaseContract.kept (task : ReleaseContract) : List (Text × Value) :=
  task.fields.filter fun f => f.1 ∉ bookkeeping

/-- `{ ...contract, verify: "auto" }` -/
def ReleaseContract.pinned (task : ReleaseContract) : Value :=
  .obj (assign verifyKey (.str "auto".toList) task.kept)

/-- `hash` is the SHA-256 of a text in hexadecimal. -/
def operatorReleasePin {H : Type*} (hash : Text → H) (task : ReleaseContract) : H := hash (stable task.pinned)

/-- What a pin is to identify. -/
def ReleaseContract.terms (task : ReleaseContract) : Value :=
  .obj (task.fields.filter fun f => f.1 ∉ bookkeeping ∧ f.1 ≠ verifyKey)

/-! ### Canonical values -/

mutual

/-- The JSON value with the keys in order and nothing undefined. -/
def canon : Value → Json
  | .undefined => .null
  | .null => .null
  | .bool b => .bool b
  | .num shown => .num shown
  | .str t => .str t
  | .arr items => .arr (canonItems items)
  | .obj fields => .obj (sortedByKey Text.utf16 (canonFields fields))

def canonItems : List Value → List Json
  | [] => []
  | v :: items => canon v :: canonItems items

def canonFields : List (Text × Value) → List (Text × Json)
  | [] => []
  | (k, v) :: fields => if v.isUndefined then canonFields fields else (k, canon v) :: canonFields fields

end

/-- The text of a field. -/
def fieldText (f : Text × Json) : Text × Text := (f.1, Json.quote f.1 ++ ':' :: Json.stringify f.2)

theorem stringifyFields_eq (fields : List (Text × Json)) :
    Json.stringifyFields fields = (fields.map fieldText).map Prod.snd := by
  induction fields with
  | nil => rfl
  | cons f fields ih =>
      obtain ⟨k, j⟩ := f
      rw [Json.stringifyFields, ih]
      rfl

mutual

/-- The serialization is that of the canonical value. -/
theorem stable_eq : ∀ v : Value, stable v = Json.stringify (canon v)
  | .undefined => rfl
  | .null => rfl
  | .bool true => rfl
  | .bool false => rfl
  | .num _ => rfl
  | .str _ => rfl
  | .arr items => by
      rw [stable, canon, Json.stringify, stableItems_eq items]
  | .obj fields => by
      rw [stable, canon, Json.stringify, stringifyFields_eq, map_sortedByKey _ fieldText fun _ => rfl, stableFields_eq fields]

theorem stableItems_eq : ∀ items : List Value, stableItems items = Json.stringifyItems (canonItems items)
  | [] => rfl
  | v :: items => by
      rw [stableItems, canonItems, Json.stringifyItems, stable_eq v, stableItems_eq items]

theorem stableFields_eq : ∀ fields : List (Text × Value), stableFields fields = (canonFields fields).map fieldText
  | [] => rfl
  | (k, v) :: fields => by
      rw [stableFields, canonFields]
      split
      · exact stableFields_eq fields
      · rw [stable_eq v, stableFields_eq fields, List.map_cons]
        rfl

end

theorem mem_canonFields {fields : List (Text × Value)} {k : Text} (h : k ∈ (canonFields fields).map Prod.fst) :
    k ∈ fields.map Prod.fst := by
  induction fields with
  | nil => cases h
  | cons f fields ih =>
      obtain ⟨k', v⟩ := f
      rw [canonFields] at h
      split at h
      · exact List.mem_cons_of_mem _ (ih h)
      · obtain rfl | h := List.mem_cons.mp h
        · exact List.mem_cons_self
        · exact List.mem_cons_of_mem _ (ih h)

theorem nodup_canonFields {fields : List (Text × Value)} (h : (fields.map Prod.fst).Nodup) :
    ((canonFields fields).map Prod.fst).Nodup := by
  induction fields with
  | nil => exact List.nodup_nil
  | cons f fields ih =>
      obtain ⟨k, v⟩ := f
      obtain ⟨hnew, hrest⟩ := List.nodup_cons.mp h
      rw [canonFields]
      split
      · exact ih hrest
      · exact List.nodup_cons.mpr ⟨fun hmem => hnew (mem_canonFields hmem), ih hrest⟩

/-- A field of the canonical object. -/
theorem entryOf_canonFields {fields : List (Text × Value)} (h : (fields.map Prod.fst).Nodup) (k : Text) :
    entryOf k (canonFields fields) = (field fields k).map canon := by
  induction fields with
  | nil => rfl
  | cons f fields ih =>
      obtain ⟨k', v⟩ := f
      obtain ⟨hnew, hrest⟩ := List.nodup_cons.mp h
      by_cases hk : k' = k
      · subst hk
        have hfield : field ((k', v) :: fields) k' = if v.isUndefined then none else some v := by
          rw [field, entryOf_cons_self]
          cases hv : v.isUndefined <;> simp [hv]
        rw [hfield, canonFields]
        split
        · -- the key does not come again
          cases hentry : entryOf k' (canonFields fields) with
          | none => rfl
          | some j =>
              have hmem := mem_of_entryOf hentry
              exact absurd (mem_canonFields (List.mem_map.mpr ⟨_, hmem, rfl⟩)) hnew
        · rw [entryOf_cons_self]
          rfl
      · have hfield : field ((k', v) :: fields) k = field fields k := by
          rw [field, entryOf_cons_of_ne fields hk, field]
        rw [hfield, canonFields]
        split
        · exact ih hrest
        · rw [entryOf_cons_of_ne _ hk, ih hrest]

mutual

theorem readable_canon : ∀ v : Value, IsJson v → (canon v).Readable
  | .undefined, h => h.elim
  | .null, _ => trivial
  | .bool _, _ => trivial
  | .num _, h => h
  | .str _, _ => trivial
  | .arr items, h => readable_canonItems items h
  | .obj fields, h => by
      have hperm := perm_sortedByKey Text.utf16 (canonFields fields)
      refine ⟨?_, ?_⟩
      · exact (hperm.map Prod.fst).nodup_iff.mpr (nodup_canonFields h.1)
      · rw [Json.readableFields_iff]
        intro f hf
        exact readable_canonFields fields h.2 f (hperm.subset hf)

theorem readable_canonItems : ∀ items : List Value, ItemsJson items → Json.ReadableItems (canonItems items)
  | [], _ => trivial
  | v :: items, h => ⟨readable_canon v h.1, readable_canonItems items h.2⟩

theorem readable_canonFields : ∀ fields : List (Text × Value), FieldsJson fields → ∀ f ∈ canonFields fields, f.2.Readable
  | [], _, f, hf => by cases hf
  | (k, v) :: fields, h, f, hf => by
      rw [canonFields] at hf
      split at hf
      · exact readable_canonFields fields h.2 f hf
      · next hv =>
          obtain rfl | hf := List.mem_cons.mp hf
          · exact readable_canon v (h.1.resolve_left hv)
          · exact readable_canonFields fields h.2 f hf

end

theorem canonItems_eq_map (items : List Value) : canonItems items = items.map canon := by
  induction items with
  | nil => rfl
  | cons v items ih => rw [canonItems, ih, List.map_cons]

/-! ### Canonical values are equal for the same values only -/

theorem itemsJson_iff {items : List Value} : ItemsJson items ↔ ∀ v ∈ items, IsJson v := by
  induction items with
  | nil => simp [ItemsJson]
  | cons v items ih => simp [ItemsJson, ih]

theorem fieldsJson_iff {fields : List (Text × Value)} :
    FieldsJson fields ↔ ∀ f ∈ fields, f.2.isUndefined = true ∨ IsJson f.2 := by
  induction fields with
  | nil => simp [FieldsJson]
  | cons f fields ih => simp [FieldsJson, ih]

theorem field_eq_some {fields : List (Text × Value)} {k : Text} {v : Value} (h : field fields k = some v) :
    (k, v) ∈ fields ∧ v.isUndefined = false := by
  obtain ⟨hentry, hv⟩ := Option.filter_eq_some_iff.mp h
  exact ⟨mem_of_entryOf hentry, by simpa using hv⟩

theorem isJson_of_field {fields : List (Text × Value)} (h : FieldsJson fields) {k : Text} {v : Value}
    (hv : field fields k = some v) : IsJson v := by
  obtain ⟨hmem, hdefined⟩ := field_eq_some hv
  refine (fieldsJson_iff.mp h _ hmem).resolve_left ?_
  rw [hdefined]
  exact Bool.false_ne_true

theorem canon_eq_of_same {v w : Value} (h : Same v w) (hv : IsJson v) (hw : IsJson w) : canon v = canon w := by
  induction h with
  | null => rfl
  | bool b => rfl
  | num shown => rfl
  | str t => rfl
  | @arr items items' hlength _ ih =>
      rw [canon, canon, canonItems_eq_map, canonItems_eq_map]
      congr 1
      refine List.ext_getElem (by simpa using hlength) ?_
      intro n hn hn'
      rw [List.length_map] at hn hn'
      rw [List.getElem_map, List.getElem_map]
      exact ih n _ _ (List.getElem?_eq_getElem hn) (List.getElem?_eq_getElem hn')
        (itemsJson_iff.mp hv _ (List.getElem_mem hn)) (itemsJson_iff.mp hw _ (List.getElem_mem hn'))
  | @obj fields fields' hsome _ ih =>
      rw [canon, canon]
      congr 1
      rw [sortedByKey_eq_iff Text.utf16 Text.utf16_injective (nodup_canonFields hv.1) (nodup_canonFields hw.1)]
      intro k
      rw [entryOf_canonFields hv.1, entryOf_canonFields hw.1]
      have hk := hsome k
      cases hfield : field fields k with
      | none =>
          rw [hfield] at hk
          rw [Option.isSome_eq_false_iff.mp hk.symm |> Option.isNone_iff_eq_none.mp]
      | some u =>
          rw [hfield] at hk
          obtain ⟨u', hu'⟩ := Option.isSome_iff_exists.mp hk.symm
          rw [hu', Option.map_some, Option.map_some]
          exact congrArg some (ih k u u' hfield hu' (isJson_of_field hv.2 hfield) (isJson_of_field hw.2 hu'))

/-- By induction on the size of the first value. -/
theorem same_of_canon_eq (n : ℕ) : ∀ v w : Value, sizeOf v < n → IsJson v → IsJson w → canon v = canon w → Same v w := by
  induction n with
  | zero =>
      intro v w hn
      omega
  | succ n ih =>
      intro v w hn hv hw h
      cases v with
      | undefined => exact hv.elim
      | null =>
          cases w <;> simp [canon] at h
          · exact hw.elim
          · exact .null
      | bool b =>
          cases w <;> simp [canon] at h
          subst h
          exact .bool b
      | num shown =>
          cases w <;> simp [canon] at h
          subst h
          exact .num shown
      | str t =>
          cases w <;> simp [canon] at h
          subst h
          exact .str t
      | arr items =>
          cases w <;> simp [canon] at h
          rename_i items'
          rw [canonItems_eq_map, canonItems_eq_map] at h
          have hlength : items.length = items'.length := by simpa using congrArg List.length h
          refine .arr hlength ?_
          intro i u u' hu hu'
          have hmem := List.mem_of_getElem? hu
          have hsize := List.sizeOf_lt_of_mem hmem
          have hcanon : canon u = canon u' := by
            have hget := congrArg (·[i]?) h
            simpa [hu, hu'] using hget
          refine ih u u' ?_ (itemsJson_iff.mp hv u hmem) (itemsJson_iff.mp hw u' (List.mem_of_getElem? hu')) hcanon
          simp only [Value.arr.sizeOf_spec] at hn
          omega
      | obj fields =>
          cases w <;> simp [canon] at h
          rename_i fields'
          rw [sortedByKey_eq_iff Text.utf16 Text.utf16_injective (nodup_canonFields hv.1) (nodup_canonFields hw.1)] at h
          have hget : ∀ k, (field fields k).map canon = (field fields' k).map canon := by
            intro k
            rw [← entryOf_canonFields hv.1, ← entryOf_canonFields hw.1, h k]
          refine .obj ?_ ?_
          · intro k
            simpa using congrArg Option.isSome (hget k)
          · intro k u u' hu hu'
            have hsize := List.sizeOf_lt_of_mem (field_eq_some hu).1
            have hcanon : canon u = canon u' := by
              have hk := hget k
              rw [hu, hu'] at hk
              exact Option.some.inj hk
            refine ih u u' ?_ (isJson_of_field hv.2 hu) (isJson_of_field hw.2 hu') hcanon
            simp only [Value.obj.sizeOf_spec, Prod.mk.sizeOf_spec] at hn hsize
            omega

theorem canon_eq_iff {v w : Value} (hv : IsJson v) (hw : IsJson w) : canon v = canon w ↔ Same v w :=
  ⟨fun h => same_of_canon_eq _ v w (Nat.lt_succ_self _) hv hw h, fun h => canon_eq_of_same h hv hw⟩

/-- Serializations are equal for the same values only. -/
theorem stable_eq_iff {v w : Value} (hv : IsJson v) (hw : IsJson w) : stable v = stable w ↔ Same v w := by
  rw [stable_eq, stable_eq, ← canon_eq_iff hv hw]
  constructor
  · intro h
    have hread := congrArg Json.parse h
    rw [Json.parse_stringify (readable_canon v hv), Json.parse_stringify (readable_canon w hw)] at hread
    exact Option.some.inj hread
  · intro h
    rw [h]

/-! ### The fields that a pin covers -/

theorem same_obj_iff {fields fields' : List (Text × Value)} : Same (.obj fields) (.obj fields') ↔
    (∀ k, (field fields k).isSome = (field fields' k).isSome) ∧
      ∀ k v v', field fields k = some v → field fields' k = some v' → Same v v' := by
  constructor
  · rintro ⟨⟩
    exact ⟨‹_›, ‹_›⟩
  · rintro ⟨hsome, hsame⟩
    exact .obj hsome hsame

theorem isJson_filter {fields : List (Text × Value)} (h : IsJson (.obj fields)) (p : Text × Value → Bool) :
    IsJson (.obj (fields.filter p)) := by
  refine ⟨h.1.sublist (List.filter_sublist.map Prod.fst), ?_⟩
  rw [fieldsJson_iff]
  intro f hf
  exact fieldsJson_iff.mp h.2 f (List.mem_filter.mp hf).1

theorem ReleaseContract.isJson_pinned (task : ReleaseContract) : IsJson task.pinned := by
  have hkept : IsJson (.obj task.kept) := isJson_filter task.isJson _
  refine ⟨nodup_assign _ hkept.1, ?_⟩
  rw [fieldsJson_iff]
  intro f hf
  obtain rfl | hf := mem_assign hf
  · exact .inr trivial
  · exact fieldsJson_iff.mp hkept.2 f hf

theorem field_pinned (task : ReleaseContract) (k : Text) :
    field (assign verifyKey (.str "auto".toList) task.kept) k =
      if k = verifyKey then some (.str "auto".toList) else field task.kept k := by
  unfold field
  split
  next hk =>
    rw [hk, entryOf_assign_self]
    rfl
  next hk => rw [entryOf_assign_of_ne _ _ hk]

theorem field_terms (task : ReleaseContract) (k : Text) :
    field (task.fields.filter fun f => f.1 ∉ bookkeeping ∧ f.1 ≠ verifyKey) k =
      if k = verifyKey then none else field task.kept k := by
  have hterms := entryOf_filter (fun k => decide (k ∉ bookkeeping ∧ k ≠ verifyKey)) k task.fields
  have hkept := entryOf_filter (fun k => decide (k ∉ bookkeeping)) k task.fields
  unfold field ReleaseContract.kept
  rw [hterms, hkept]
  by_cases hk : k = verifyKey <;> by_cases hbook : k ∈ bookkeeping <;> simp [hk, hbook]

/-- The verification mode is the same in all that is pinned. -/
theorem same_pinned_iff (task task' : ReleaseContract) : Same task.pinned task'.pinned ↔ Same task.terms task'.terms := by
  unfold ReleaseContract.pinned ReleaseContract.terms
  rw [same_obj_iff, same_obj_iff]
  simp only [field_pinned, field_terms]
  constructor
  · rintro ⟨hsome, hsame⟩
    refine ⟨?_, ?_⟩
    · intro k
      have hk := hsome k
      split at hk
      · rename_i hverify
        rw [if_pos hverify, if_pos hverify]
      · rename_i hverify
        rwa [if_neg hverify, if_neg hverify]
    · intro k v v' hv hv'
      split at hv
      · cases hv
      · rename_i hverify
        rw [if_neg hverify] at hv'
        exact hsame k v v' (by rwa [if_neg hverify]) (by rwa [if_neg hverify])
  · rintro ⟨hsome, hsame⟩
    refine ⟨?_, ?_⟩
    · intro k
      have hk := hsome k
      split at hk
      · rename_i hverify
        rw [if_pos hverify, if_pos hverify]
      · rename_i hverify
        rwa [if_neg hverify, if_neg hverify]
    · intro k v v' hv hv'
      split at hv
      · rename_i hverify
        rw [if_pos hverify] at hv'
        obtain rfl := Option.some.inj hv
        obtain rfl := Option.some.inj hv'
        exact .str _
      · rename_i hverify
        rw [if_neg hverify] at hv'
        exact hsame k v v' (by rwa [if_neg hverify]) (by rwa [if_neg hverify])

/-- Under a hash without collisions two contracts have one pin if and only if they are equal after `sourcePath`,
`attempts`, `risk_ruling` and `verify` are removed, up to undefined fields and the order of keys at every depth. -/
theorem operatorReleasePin_eq_iff {H : Type*} {hash : Text → H} (hhash : Function.Injective hash)
    (task task' : ReleaseContract) :
    operatorReleasePin hash task = operatorReleasePin hash task' ↔ Same task.terms task'.terms := by
  rw [operatorReleasePin, operatorReleasePin, hhash.eq_iff, stable_eq_iff task.isJson_pinned task'.isJson_pinned,
    same_pinned_iff]

section Witness

/-- A task with a quoted title, before and after an attempt. -/
def filedTask : ReleaseContract where
  fields := [("id".toList, .str "W1-T1".toList), ("title".toList, .str "a\",\"b".toList), ("verify".toList, .str "human".toList),
    ("after".toList, .arr [.null, .obj [("b".toList, .bool true), ("a".toList, .undefined)]])]
  isJson := by simp [IsJson, ItemsJson, FieldsJson, isUndefined]

def attemptedTask : ReleaseContract where
  fields := [("attempts".toList, .arr []), ("after".toList, .arr [.null, .obj [("b".toList, .bool true)]]),
    ("title".toList, .str "a\",\"b".toList), ("id".toList, .str "W1-T1".toList), ("verify".toList, .str "auto".toList)]
  isJson := by simp [IsJson, ItemsJson, FieldsJson, isUndefined]

/-- The pins under the identity, which has no collisions. -/
theorem attempted_task_pinned :
    operatorReleasePin id filedTask = operatorReleasePin id attemptedTask ∧ Same filedTask.terms attemptedTask.terms := by
  have hpin : operatorReleasePin id filedTask = operatorReleasePin id attemptedTask := by decide +kernel
  exact ⟨hpin, (operatorReleasePin_eq_iff Function.injective_id filedTask attemptedTask).mp hpin⟩

end Witness

end Remudero.Release
