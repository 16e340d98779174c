import Remudero.Lib.JsonText
import Remudero.Lib.Row

/-! # The exact-replay filter

`createLedgerLineSeen` of `lib/ledger-union.ts`.  A sighting is a line of the ledger or the row
parsed from one.  Sightings are put into buckets by the time they start with, and compared as whole
lines inside a bucket; a row is serialized when its bucket is read.  A line's time is what stands
between the first two quotation marks after the field name, a row's time is the field itself.

The main result is `isSet_iff`: the filter is a set of lines exactly when no line whose time is empty
or has an escaped character is sighted both as a line and as a row. -/

namespace Remudero.Ledger

open Remudero.Lib

inductive LedgerSighting where
  | line (text : Text)
  | row (fields : Lib.Row)

namespace LedgerSighting

/-- The line of a sighting. -/
def serialized : LedgerSighting → Text
  | .line text => text
  | .row fields => Json.stringify (.obj fields)

def isLine : LedgerSighting → Bool
  | .line _ => true
  | .row _ => false

end LedgerSighting

/-- How a line with a time in front starts. -/
def tsMark : Text := "\x7b\"ts\":\"".toList

def tsOf : LedgerSighting → Option Text
  | .row fields =>
      match fields with
      | (name, .str ts) :: _ => if name = "ts".toList then some ts else none
      | _ => none
  | .line text =>
      if tsMark.isPrefixOf text then
        let rest := text.drop tsMark.length
        let ts := rest.takeWhile (· != '"')
        if rest.contains '"' && !ts.isEmpty then some ts else none
      else none

structure LineSeen where
  byTs : Text → Option (List LedgerSighting)
  untimed : List Text

def createLedgerLineSeen : LineSeen := ⟨fun _ => none, []⟩

/-- Look for a line in a bucket.  The entries that are read are kept as their lines. -/
def scanBucket (line : Text) : List LedgerSighting → Bool × List LedgerSighting
  | [] => (false, [])
  | entry :: bucket =>
      if entry.serialized = line then (true, .line entry.serialized :: bucket)
      else ((scanBucket line bucket).1, .line entry.serialized :: (scanBucket line bucket).2)

namespace LineSeen

def find (seen : LineSeen) (s : LedgerSighting) : Bool × LineSeen :=
  match tsOf s with
  | none => (seen.untimed.contains s.serialized, seen)
  | some ts =>
      match seen.byTs ts with
      | none => (false, seen)
      | some bucket =>
          ((scanBucket s.serialized bucket).1,
            { seen with byTs := Function.update seen.byTs ts (some (scanBucket s.serialized bucket).2) })

def has (seen : LineSeen) (line : Text) : Bool × LineSeen := seen.find (.line line)

def add (seen : LineSeen) (s : LedgerSighting) : Bool × LineSeen :=
  let found := seen.find s
  if found.1 then (false, found.2)
  else
    match tsOf s with
    | none => (true, { found.2 with untimed := found.2.untimed ++ [s.serialized] })
    | some ts =>
        (true, { found.2 with byTs := Function.update found.2.byTs ts (some ((found.2.byTs ts).getD [] ++ [s])) })

/-- A line is kept under a key. -/
def Holds (seen : LineSeen) (key : Option Text) (line : Text) : Prop :=
  match key with
  | none => line ∈ seen.untimed
  | some ts => line ∈ ((seen.byTs ts).getD []).map LedgerSighting.serialized

end LineSeen

/-! ### One call -/

theorem scanBucket_hit (line : Text) (bucket : List LedgerSighting) :
    (scanBucket line bucket).1 = true ↔ line ∈ bucket.map LedgerSighting.serialized := by
  induction bucket with
  | nil => simp [scanBucket]
  | cons entry bucket ih =>
      rw [scanBucket, List.map_cons, List.mem_cons]
      split
      · next h => simp [h]
      · next h => simp [ih, Ne.symm h]

theorem scanBucket_serialized (line : Text) (bucket : List LedgerSighting) :
    (scanBucket line bucket).2.map LedgerSighting.serialized = bucket.map LedgerSighting.serialized := by
  induction bucket with
  | nil => rfl
  | cons entry bucket ih =>
      rw [scanBucket]
      split
      · rfl
      · rw [List.map_cons, List.map_cons, ih]
        rfl

section calls

variable (seen : LineSeen) (s : LedgerSighting)

theorem find_hit_iff : (seen.find s).1 = true ↔ seen.Holds (tsOf s) s.serialized := by
  unfold LineSeen.find LineSeen.Holds
  cases hts : tsOf s with
  | none => simp
  | some ts =>
      cases hbucket : seen.byTs ts with
      | none => simp [hbucket]
      | some bucket => simp only [hbucket, Option.getD_some, scanBucket_hit]

theorem find_holds (key : Option Text) (line : Text) : (seen.find s).2.Holds key line ↔ seen.Holds key line := by
  unfold LineSeen.find
  cases hts : tsOf s with
  | none => rfl
  | some ts =>
      cases hbucket : seen.byTs ts with
      | none => simp only [hbucket]
      | some bucket =>
          cases key with
          | none => simp only [hbucket, LineSeen.Holds]
          | some k =>
              unfold LineSeen.Holds
              by_cases hk : k = ts
              · subst hk
                simp only [Function.update_self, Option.getD_some, scanBucket_serialized, hbucket]
              · simp only [hbucket, Function.update_of_ne hk]

theorem add_answer : (seen.add s).1 = !(seen.find s).1 := by
  unfold LineSeen.add
  cases hfound : (seen.find s).1 with
  | true => simp [hfound]
  | false =>
      simp only [hfound, Bool.false_eq_true, if_false, Bool.not_false]
      cases tsOf s <;> rfl

theorem add_holds (key : Option Text) (line : Text) :
    (seen.add s).2.Holds key line ↔ seen.Holds key line ∨ (tsOf s = key ∧ s.serialized = line) := by
  unfold LineSeen.add
  cases hfound : (seen.find s).1 with
  | true =>
      simp only [hfound, if_true]
      rw [find_holds]
      constructor
      · exact Or.inl
      · rintro (h | ⟨rfl, rfl⟩)
        · exact h
        · exact (find_hit_iff seen s).mp hfound
  | false =>
      simp only [hfound, Bool.false_eq_true, if_false]
      rw [← find_holds seen s key line]
      cases hts : tsOf s with
      | none =>
          cases key with
          | none => simp [LineSeen.Holds, eq_comm]
          | some k => simp [LineSeen.Holds]
      | some ts =>
          cases key with
          | none => simp [LineSeen.Holds]
          | some k =>
              unfold LineSeen.Holds
              by_cases hk : k = ts
              · subst hk
                simp [eq_comm]
              · have hts' : ¬ ts = k := fun h => hk h.symm
                simp [hk, hts']

end calls

/-! ### Lines as `JSON.stringify` writes them -/

/-- The fields of a parsed row.  A number in front is written with a digit or a sign. -/
structure LedgerObject where
  fields : Lib.Row
  written : ∀ name shown, fields.head? = some (name, .num shown) → ∃ c rest, shown = c :: rest ∧ c ≠ '"'

/-- A sighting of a line that `JSON.stringify` wrote, or of the row parsed from one. -/
def LedgerSighting.Written (s : LedgerSighting) : Prop :=
  ∃ o : LedgerObject, s = .line (Json.stringify (.obj o.fields)) ∨ s = .row o.fields

/-- A line whose first field is a text `ts` that is empty or has an escaped character. -/
def EscapedTs (line : Text) : Prop :=
  ∃ t rest, line = tsMark ++ (t.flatMap Json.escape ++ '"' :: rest) ∧ (t = [] ∨ ¬ Json.Plain t)

/-- What follows the first field of an object. -/
def fieldsTail (fields : Lib.Row) : Text :=
  match Json.stringifyFields fields with
  | [] => ['\x7d']
  | x :: xs => ',' :: Json.commas (x :: xs) ++ ['\x7d']

theorem stringify_cons (name : Text) (j : Json) (fields : Lib.Row) :
    Json.stringify (.obj ((name, j) :: fields)) =
      '\x7b' :: '"' :: (name.flatMap Json.escape ++ '"' :: ':' :: (Json.stringify j ++ fieldsTail fields)) := by
  unfold fieldsTail
  cases hfields : Json.stringifyFields fields with
  | nil => simp [Json.stringify, Json.stringifyFields, hfields, Json.commas, Json.quote]
  | cons x xs => simp [Json.stringify, Json.stringifyFields, hfields, Json.commas, Json.quote]

theorem tsMark_eq : tsMark = '\x7b' :: '"' :: ("ts".toList.flatMap Json.escape ++ ['"', ':', '"']) := by decide

theorem stringify_ts (t : Text) (fields : Lib.Row) :
    Json.stringify (.obj (("ts".toList, .str t) :: fields)) =
      tsMark ++ (t.flatMap Json.escape ++ '"' :: fieldsTail fields) := by
  rw [stringify_cons, tsMark_eq]
  simp [Json.stringify, Json.quote]

/-- Only a text `ts` in front starts with the mark. -/
theorem fields_of_tsMark {o : LedgerObject} {rest : Text} (h : Json.stringify (.obj o.fields) = tsMark ++ rest) :
    ∃ t fields, o.fields = ("ts".toList, .str t) :: fields := by
  cases hfields : o.fields with
  | nil =>
      rw [hfields, tsMark_eq] at h
      simp [Json.stringify, Json.stringifyFields, Json.commas] at h
  | cons field fields =>
      obtain ⟨name, j⟩ := field
      rw [hfields, stringify_cons, tsMark_eq, List.cons_append, List.cons_append, List.append_assoc] at h
      obtain ⟨rfl, hvalue⟩ := Json.escape_cancel (List.cons.inj (List.cons.inj h).2).2
      have hquote : Json.stringify j ++ fieldsTail fields = '"' :: rest := (List.cons.inj hvalue).2
      cases j with
      | str t => exact ⟨t, fields, rfl⟩
      | num shown =>
          obtain ⟨c, cs, rfl, hc⟩ := o.written "ts".toList shown (by rw [hfields]; rfl)
          rw [Json.stringify] at hquote
          exact absurd (List.cons.inj hquote).1 hc
      | null => simp [Json.stringify] at hquote
      | bool b => cases b <;> simp [Json.stringify] at hquote
      | arr items => simp [Json.stringify] at hquote
      | obj inner => simp [Json.stringify] at hquote

theorem tsOf_line_mark (rest : Text) :
    tsOf (.line (tsMark ++ rest)) =
      if List.contains rest '"' && !(rest.takeWhile (· != '"')).isEmpty then some (rest.takeWhile (· != '"')) else none := by
  have hmark : tsMark.isPrefixOf (tsMark ++ rest) = true := by simp
  simp only [tsOf, hmark, if_true, List.drop_left]

/-- A line and the row parsed from it have one key, unless the time is empty or has an escape. -/
theorem tsOf_line_eq_row_iff (o : LedgerObject) :
    tsOf (.line (Json.stringify (.obj o.fields))) = tsOf (.row o.fields) ↔
      ¬ EscapedTs (Json.stringify (.obj o.fields)) := by
  by_cases hmark : tsMark <+: Json.stringify (.obj o.fields)
  · obtain ⟨rest, hrest⟩ := hmark
    obtain ⟨t, fields, hfields⟩ := fields_of_tsMark hrest.symm
    have htext : Json.stringify (.obj o.fields) = tsMark ++ (t.flatMap Json.escape ++ '"' :: fieldsTail fields) := by
      rw [hfields, stringify_ts]
    have hrow : tsOf (.row o.fields) = some t := by rw [hfields]; rfl
    have hescaped : EscapedTs (Json.stringify (.obj o.fields)) ↔ (t = [] ∨ ¬ Json.Plain t) := by
      constructor
      · rintro ⟨u, r, hu, hcase⟩
        rw [htext] at hu
        obtain ⟨rfl, -⟩ := Json.escape_cancel (List.append_cancel_left hu)
        exact hcase
      · intro hcase
        exact ⟨t, _, htext, hcase⟩
    rw [hrow, hescaped, htext, tsOf_line_mark]
    have hcontains : List.contains (t.flatMap Json.escape ++ '"' :: fieldsTail fields) '"' = true := by simp
    rw [hcontains, Bool.true_and]
    constructor
    · intro h
      split at h
      · next hne =>
          have heq := Option.some.inj h
          have hplain := (Json.takeWhile_escape_eq_iff t (fieldsTail fields)).mp heq
          rintro (rfl | hnot)
          · rw [heq] at hne
            simp at hne
          · exact hnot hplain
      · cases h
    · intro h
      rw [not_or, not_not] at h
      rw [(Json.takeWhile_escape_eq_iff t (fieldsTail fields)).mpr h.2]
      simp [h.1]
  · have hline : tsOf (.line (Json.stringify (.obj o.fields))) = none := by
      have hnot : tsMark.isPrefixOf (Json.stringify (.obj o.fields)) = false := by
        rw [← Bool.not_eq_true, List.isPrefixOf_iff_prefix]
        exact hmark
      simp only [tsOf, hnot, Bool.false_eq_true, if_false]
    have hrow : tsOf (.row o.fields) = none := by
      cases hts : tsOf (.row o.fields) with
      | none => rfl
      | some ts =>
          exfalso
          simp only [tsOf] at hts
          split at hts
          · next name t rest hfields =>
              split at hts
              · next hname =>
                  apply hmark
                  rw [hfields, hname, stringify_ts]
                  exact List.prefix_append _ _
              · cases hts
          · cases hts
    rw [hline, hrow]
    simp only [true_iff]
    rintro ⟨t, rest, heq, -⟩
    apply hmark
    rw [heq]
    exact List.prefix_append _ _

/-- Rows with one line have one key. -/
theorem tsOf_row_congr {o q : LedgerObject} (h : Json.stringify (.obj o.fields) = Json.stringify (.obj q.fields)) :
    tsOf (.row o.fields) = tsOf (.row q.fields) := by
  have hkey : ∀ (a b : LedgerObject) (t : Text), Json.stringify (.obj a.fields) = Json.stringify (.obj b.fields) →
      tsOf (.row a.fields) = some t → tsOf (.row b.fields) = some t := by
    intro a b t hab hts
    obtain ⟨fields, hfields⟩ : ∃ fields, a.fields = ("ts".toList, .str t) :: fields := by
      simp only [tsOf] at hts
      split at hts
      · next name u rest hrow =>
          split at hts
          · next hname => exact ⟨rest, by rw [hrow, hname, Option.some.inj hts]⟩
          · cases hts
      · cases hts
    rw [hfields, stringify_ts] at hab
    obtain ⟨u, fields', hrow⟩ := fields_of_tsMark hab.symm
    rw [hrow, stringify_ts] at hab
    obtain ⟨rfl, -⟩ := Json.escape_cancel (List.append_cancel_left hab)
    rw [hrow]
    rfl
  cases hts : tsOf (.row o.fields) with
  | some t => exact (hkey o q t h hts).symm
  | none =>
      cases hts' : tsOf (.row q.fields) with
      | none => rfl
      | some t =>
          rw [hkey q o t h.symm hts'] at hts
          cases hts

/-- Two sightings of one line have one key, unless one is the line and the other the row and the
time is empty or has an escape. -/
theorem tsOf_eq_iff {s t : LedgerSighting} (hs : s.Written) (ht : t.Written) (h : s.serialized = t.serialized) :
    tsOf s = tsOf t ↔ (s.isLine = t.isLine ∨ ¬ EscapedTs s.serialized) := by
  obtain ⟨o, rfl | rfl⟩ := hs <;> obtain ⟨q, rfl | rfl⟩ := ht
  · simp only [LedgerSighting.serialized] at h
    simp [h, LedgerSighting.isLine]
  · simp only [LedgerSighting.serialized, LedgerSighting.isLine, Bool.true_eq_false, false_or] at h ⊢
    rw [h]
    exact tsOf_line_eq_row_iff q
  · simp only [LedgerSighting.serialized, LedgerSighting.isLine, Bool.false_eq_true, false_or] at h ⊢
    rw [← h, eq_comm]
    exact tsOf_line_eq_row_iff o
  · simp only [LedgerSighting.serialized, LedgerSighting.isLine, true_or, iff_true] at h ⊢
    exact tsOf_row_congr h

/-! ### Sequences of calls -/

inductive SeenCall where
  | add (s : LedgerSighting)
  | has (line : Text)

namespace SeenCall

def sighting : SeenCall → LedgerSighting
  | .add s => s
  | .has line => .line line

/-- The answer of a call, and the filter after it. -/
def answer (seen : LineSeen) : SeenCall → Bool × LineSeen
  | .add s => seen.add s
  | .has line => seen.has line

end SeenCall

/-- The filter after a sequence of calls. -/
def seenAfter (calls : List SeenCall) : LineSeen :=
  calls.foldl (fun seen call => (call.answer seen).2) createLedgerLineSeen

/-- An earlier added sighting has this line. -/
def AddedBefore (before : List SeenCall) (line : Text) : Prop :=
  ∃ s, SeenCall.add s ∈ before ∧ s.serialized = line

/-- The answer of a set of lines. -/
def AnswersAsSet (before : List SeenCall) : SeenCall → Prop
  | .add s => ((seenAfter before).add s).1 = true ↔ ¬ AddedBefore before s.serialized
  | .has line => ((seenAfter before).has line).1 = true ↔ AddedBefore before line

/-- Every answer of a sequence of calls is the answer of a set of lines. -/
def IsSet (calls : List SeenCall) : Prop :=
  ∀ before call after, calls = before ++ call :: after → AnswersAsSet before call

/-- No call sights a line whose time is empty or has an escape in one form after an added sighting
of it in the other form. -/
def FormsAgree (calls : List SeenCall) : Prop :=
  ∀ before call after, calls = before ++ call :: after → ∀ s, SeenCall.add s ∈ before →
    s.serialized = call.sighting.serialized → s.isLine = call.sighting.isLine ∨ ¬ EscapedTs s.serialized

theorem seenAfter_snoc (calls : List SeenCall) (call : SeenCall) :
    seenAfter (calls ++ [call]) = (call.answer (seenAfter calls)).2 := by
  simp [seenAfter]

theorem holds_seenAfter (calls : List SeenCall) (key : Option Text) (line : Text) :
    (seenAfter calls).Holds key line ↔ ∃ s, SeenCall.add s ∈ calls ∧ tsOf s = key ∧ s.serialized = line := by
  induction calls using List.reverseRecOn with
  | nil =>
      cases key with
      | none => simp [seenAfter, createLedgerLineSeen, LineSeen.Holds]
      | some ts => simp [seenAfter, createLedgerLineSeen, LineSeen.Holds]
  | append_singleton calls call ih =>
      rw [seenAfter_snoc]
      cases call with
      | has l =>
          have hmem : ∀ s, SeenCall.add s ∈ calls ++ [SeenCall.has l] ↔ SeenCall.add s ∈ calls := by simp
          simp only [SeenCall.answer, LineSeen.has, hmem]
          rw [find_holds, ih]
      | add t =>
          have hmem : ∀ s, SeenCall.add s ∈ calls ++ [SeenCall.add t] ↔ (SeenCall.add s ∈ calls ∨ s = t) := by simp
          simp only [SeenCall.answer, hmem]
          rw [add_holds, ih]
          constructor
          · rintro (⟨s, hs, hkey⟩ | hkey)
            · exact ⟨s, Or.inl hs, hkey⟩
            · exact ⟨t, Or.inr rfl, hkey⟩
          · rintro ⟨s, hs | rfl, hkey⟩
            · exact Or.inl ⟨s, hs, hkey⟩
            · exact Or.inr hkey

/-- A call answers as a set exactly when one of the added sightings of its line, if there are any,
has its key. -/
theorem answersAsSet_iff (before : List SeenCall) (call : SeenCall) :
    AnswersAsSet before call ↔ (AddedBefore before call.sighting.serialized →
      ∃ s, SeenCall.add s ∈ before ∧ tsOf s = tsOf call.sighting ∧ s.serialized = call.sighting.serialized) := by
  have hhit : ((seenAfter before).find call.sighting).1 = true ↔
      ∃ s, SeenCall.add s ∈ before ∧ tsOf s = tsOf call.sighting ∧ s.serialized = call.sighting.serialized := by
    rw [find_hit_iff, holds_seenAfter]
  have hadded : (∃ s, SeenCall.add s ∈ before ∧ tsOf s = tsOf call.sighting ∧
      s.serialized = call.sighting.serialized) → AddedBefore before call.sighting.serialized := by
    rintro ⟨s, hs, -, hline⟩
    exact ⟨s, hs, hline⟩
  have hset : AnswersAsSet before call ↔
      (((seenAfter before).find call.sighting).1 = true ↔ AddedBefore before call.sighting.serialized) := by
    cases call with
    | has line => rfl
    | add s =>
        simp only [AnswersAsSet, SeenCall.sighting, add_answer]
        cases ((seenAfter before).find s).1 <;> simp
  rw [hset, hhit]
  exact ⟨fun h => h.mpr, fun h => ⟨hadded, h⟩⟩

/-- Added sightings of one line have one key when every answer so far was right. -/
theorem tsOf_eq_of_isSet {calls : List SeenCall} (h : IsSet calls) {before after : List SeenCall} {call : SeenCall}
    (hcalls : calls = before ++ call :: after) {s : LedgerSighting} (hs : SeenCall.add s ∈ before)
    (hline : s.serialized = call.sighting.serialized) : tsOf s = tsOf call.sighting := by
  -- by induction on the number of calls before: one of the earlier sightings of the line has the key of
  -- the call, and of that one and `s` the later was itself a call with the earlier one before it
  induction hn : before.length using Nat.strong_induction_on generalizing before after call s with
  | _ n ih =>
      obtain ⟨t, ht, hkey, hsame⟩ := (answersAsSet_iff before call).mp (h before call after hcalls) ⟨s, hs, hline⟩
      obtain ⟨b₁, b₂, rfl⟩ := List.append_of_mem hs
      rw [← hkey]
      rw [List.mem_append, List.mem_cons] at ht
      obtain ht | ht | ht := ht
      · have hcalls' : calls = b₁ ++ SeenCall.add s :: (b₂ ++ call :: after) := by
          rw [hcalls, List.append_assoc, List.cons_append]
        have hlt : b₁.length < n := by
          rw [← hn, List.length_append, List.length_cons]
          omega
        exact (ih b₁.length hlt hcalls' ht (hsame.trans hline.symm) rfl).symm
      · rw [SeenCall.add.inj ht]
      · obtain ⟨c₁, c₂, rfl⟩ := List.append_of_mem ht
        have hcalls' : calls = (b₁ ++ SeenCall.add s :: c₁) ++ SeenCall.add t :: (c₂ ++ call :: after) := by
          rw [hcalls]
          simp
        have hlt : (b₁ ++ SeenCall.add s :: c₁).length < n := by
          rw [← hn]
          simp only [List.length_append, List.length_cons]
          omega
        exact ih _ hlt hcalls' (by simp) (hline.trans hsame.symm) rfl

/-- The filter is a set of lines exactly when no line whose time is empty or has an escaped
character is sighted both as a line and as a row. -/
theorem isSet_iff (calls : List SeenCall) (hcalls : ∀ call ∈ calls, call.sighting.Written) :
    IsSet calls ↔ FormsAgree calls := by
  have hwritten : ∀ {before call after}, calls = before ++ call :: after → ∀ s, SeenCall.add s ∈ before →
      s.Written ∧ call.sighting.Written := by
    rintro before call after rfl s hs
    exact ⟨hcalls (.add s) (List.mem_append_left _ hs), hcalls call (by simp)⟩
  constructor
  · intro h before call after heq s hs hline
    obtain ⟨hws, hwc⟩ := hwritten heq s hs
    exact (tsOf_eq_iff hws hwc hline).mp (tsOf_eq_of_isSet h heq hs hline)
  · intro h before call after heq
    rw [answersAsSet_iff]
    rintro ⟨s, hs, hline⟩
    obtain ⟨hws, hwc⟩ := hwritten heq s hs
    exact ⟨s, hs, (tsOf_eq_iff hws hwc hline).mpr (h before call after heq s hs hline), hline⟩

/-- The row `{"ts":""}`. -/
def emptyTsRow : LedgerObject where
  fields := [("ts".toList, .str [])]
  written := by simp

theorem written_line (o : LedgerObject) : (LedgerSighting.line (Json.stringify (.obj o.fields))).Written :=
  ⟨o, Or.inl rfl⟩

theorem written_row (o : LedgerObject) : (LedgerSighting.row o.fields).Written := ⟨o, Or.inr rfl⟩

/-- The row `{"ts":"t","step":"a"}`. -/
def plainTsRow : LedgerObject where
  fields := [("ts".toList, .str ['t']), ("step".toList, .str ['a'])]
  written := by simp

/-- A parsed row whose time is plain, then its line, which is found and not added once more. -/
theorem isSet_iff_row_then_line :
    let line := Json.stringify (.obj plainTsRow.fields)
    IsSet [.add (.row plainTsRow.fields), .has line, .add (.line line)] ∧
      ((seenAfter [.add (.row plainTsRow.fields)]).has line).1 = true := by
  intro line
  refine ⟨?_, by decide +kernel⟩
  have hplain : ¬ EscapedTs line := (tsOf_line_eq_row_iff plainTsRow).mp (by decide +kernel)
  rw [isSet_iff]
  · intro before call after hcalls s hs _
    have hmem := hcalls ▸ List.mem_append_left (call :: after) hs
    simp only [List.mem_cons, SeenCall.add.injEq, reduceCtorEq, List.not_mem_nil, or_false, false_or] at hmem
    obtain rfl | rfl := hmem
    · exact Or.inr hplain
    · exact Or.inr hplain
  · simp only [List.mem_cons, List.not_mem_nil, or_false, forall_eq_or_imp, forall_eq]
    exact ⟨written_row plainTsRow, written_line plainTsRow, written_line plainTsRow⟩

/-- The line of a row with an empty time is not found after the parsed row was added, and is added
once more. -/
theorem empty_ts_is_added_twice :
    ¬ ∀ calls : List SeenCall, (∀ call ∈ calls, call.sighting.Written) → IsSet calls := by
  intro h
  have hset := h [.add (.row emptyTsRow.fields), .add (.line (Json.stringify (.obj emptyTsRow.fields)))] (by
    simp only [List.mem_cons, List.not_mem_nil, or_false, forall_eq_or_imp, forall_eq]
    exact ⟨written_row emptyTsRow, written_line emptyTsRow⟩)
  have hanswer := hset [.add (.row emptyTsRow.fields)] (.add (.line (Json.stringify (.obj emptyTsRow.fields)))) [] rfl
  have htrue : ((seenAfter [.add (.row emptyTsRow.fields)]).add (.line (Json.stringify (.obj emptyTsRow.fields)))).1 = true := by
    decide +kernel
  exact hanswer.mp htrue ⟨.row emptyTsRow.fields, by simp, rfl⟩

end Remudero.Ledger
