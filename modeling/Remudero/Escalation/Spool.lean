import Remudero.Lib.Text
import Remudero.Lib.Transition

/-! # The escalation spool

`lib/host-escalation-spool.ts`: the host has no credential, so its alerts go through a directory with one file for each
condition, which the daemon drains.  Both sides work on the files at once.  A producer reads the file of a condition and
renames a new one over it (`upsert`), or removes it when the condition is gone or the host has posted the alert by itself.
The drain reads a file, posts it, reads it again and removes it when the second reading has the time and the count of the
first.

A reading and the removal after it are two steps, and the host may write in between.  `accounted` says what becomes of an
observation in any interleaving: it is in the spool, a newer one of its condition took its place, the host took it back or
posted the alert, GitHub took an entry of its time and count, or it was written after the second reading of a drain and
before the removal.  The drain posts nothing that no producer raised (`raised_of_take`). -/

namespace Remudero.Escalation

open Remudero.Lib

/-- An entry of the spool; `content` is what its producer says of the condition. -/
structure SpoolEntry (π : Type*) where
  firstAt : ℕ
  lastAt : ℕ
  count : ℕ
  directError : Option Text
  content : π

variable {κ π : Type*}

/-- `base`. -/
def base (now : ℕ) (directError : Option Text) (content : π) : SpoolEntry π := ⟨now, now, 1, directError, content⟩

/-- The entry that `upsert` writes. -/
def upserted (prior : Option (SpoolEntry π)) (next : SpoolEntry π) : SpoolEntry π :=
  match prior with
  | none => next
  | some p => { next with firstAt := p.firstAt, count := p.count + 1, directError := next.directError.or p.directError }

/-- The second reading has the entry that was posted. -/
def Agrees (now posted : SpoolEntry π) : Prop := now.lastAt = posted.lastAt ∧ now.count = posted.count

/-- Where the drain is with an entry. -/
inductive Drain (κ π : Type*)
  | idle
  | posting (key : κ) (entry : SpoolEntry π)
  | posted (key : κ) (entry : SpoolEntry π)
  /-- the second reading agreed, and the file is about to be removed -/
  | agreed (key : κ) (entry : SpoolEntry π)

structure State (κ π : Type*) where
  spool : κ → Option (SpoolEntry π)
  /-- what producers have read the prior entry for and not yet renamed into place -/
  writing : List (κ × SpoolEntry π)
  drain : Drain κ π

inductive Event (κ π : Type*)
  | raise (key : κ) (entry : SpoolEntry π)
  | abandon (key : κ) (entry : SpoolEntry π)
  | land (key : κ) (entry : SpoolEntry π)
  | withdraw (key : κ)
  /-- `recordHostDeliveredEscalation` -/
  | hostDeliver (key : κ)
  | read (key : κ) (entry : SpoolEntry π)
  | take (key : κ) (entry : SpoolEntry π)
  | agree (key : κ) (entry : SpoolEntry π)
  | remove (key : κ)
  | stop

def State.start : State κ π := ⟨fun _ => none, [], .idle⟩

inductive Step [DecidableEq κ] : State κ π → Event κ π → State κ π → Prop
  /-- A producer reads the prior entry. -/
  | raise (s : State κ π) (key : κ) (now : ℕ) (directError : Option Text) (content : π) :
      Step s (.raise key (upserted (s.spool key) (base now directError content)))
        { s with writing := (key, upserted (s.spool key) (base now directError content)) :: s.writing }
  /-- A producer ends before its rename. -/
  | abandon {s : State κ π} {key : κ} {entry : SpoolEntry π} {writing : List (κ × SpoolEntry π)}
      (hperm : s.writing.Perm ((key, entry) :: writing)) : Step s (.abandon key entry) { s with writing := writing }
  | land {s : State κ π} {key : κ} {entry : SpoolEntry π} {writing : List (κ × SpoolEntry π)}
      (hperm : s.writing.Perm ((key, entry) :: writing)) :
      Step s (.land key entry) { s with writing := writing, spool := Function.update s.spool key (some entry) }
  | withdraw (s : State κ π) (key : κ) : Step s (.withdraw key) { s with spool := Function.update s.spool key none }
  /-- The host posted the alert while the daemon was down, and drops the entry. -/
  | hostDeliver (s : State κ π) (key : κ) : Step s (.hostDeliver key) { s with spool := Function.update s.spool key none }
  | read {s : State κ π} {key : κ} {entry : SpoolEntry π} (hidle : s.drain = .idle) (hspool : s.spool key = some entry) :
      Step s (.read key entry) { s with drain := .posting key entry }
  | take {s : State κ π} {key : κ} {entry : SpoolEntry π} (hdrain : s.drain = .posting key entry) :
      Step s (.take key entry) { s with drain := .posted key entry }
  | agree {s : State κ π} {key : κ} {entry now : SpoolEntry π} (hdrain : s.drain = .posted key entry)
      (hspool : s.spool key = some now) (hagrees : Agrees now entry) :
      Step s (.agree key entry) { s with drain := .agreed key entry }
  | remove {s : State κ π} {key : κ} {entry : SpoolEntry π} (hdrain : s.drain = .agreed key entry) :
      Step s (.remove key) { s with spool := Function.update s.spool key none, drain := .idle }
  /-- A post that fails, a second reading that does not agree, or a daemon that dies. -/
  | stop (s : State κ π) : Step s .stop { s with drain := .idle }

/-! ### What the drain knows -/

/-- What the events so far say of where the drain is. -/
def Knows (es : List (Event κ π)) (s : State κ π) : Prop :=
  match s.drain with
  | .idle => True
  | .posting key entry => .land key entry ∈ es
  | .posted key entry => .land key entry ∈ es ∧ .take key entry ∈ es
  | .agreed key entry => .land key entry ∈ es ∧ .take key entry ∈ es ∧
      ∃ before since, es = before ++ .agree key entry :: since ∧
        ∀ x, s.spool key = some x → Agrees x entry ∨ .land key x ∈ since

structure Inv (es : List (Event κ π)) (s : State κ π) : Prop where
  landed : ∀ key x, s.spool key = some x → .land key x ∈ es
  writing : ∀ p ∈ s.writing, .raise p.1 p.2 ∈ es
  raised : ∀ key x, .land key x ∈ es → .raise key x ∈ es
  knows : Knows es s

theorem inv_start : Inv ([] : List (Event κ π)) State.start where
  landed _ _ h := by cases h
  writing p hp := by cases hp
  raised _ _ h := by cases h
  knows := trivial

variable {es : List (Event κ π)} {s t : State κ π} {e : Event κ π}

theorem mem_snoc {a : Event κ π} (h : a ∈ es) (e : Event κ π) : a ∈ es ++ [e] := List.mem_append_left _ h

/-- A step that changes neither the spool nor where the drain is, or that only removes an entry. -/
theorem Knows.of_spool (h : Knows es s) (hdrain : t.drain = s.drain)
    (hspool : ∀ key x, t.spool key = some x → s.spool key = some x ∨ e = .land key x) : Knows (es ++ [e]) t := by
  unfold Knows at *
  rw [hdrain]
  cases hphase : s.drain with
  | idle => trivial
  | posting key entry =>
      rw [hphase] at h
      exact mem_snoc h e
  | posted key entry =>
      rw [hphase] at h
      exact ⟨mem_snoc h.1 e, mem_snoc h.2 e⟩
  | agreed key entry =>
      rw [hphase] at h
      obtain ⟨hland, htake, before, since, rfl, hsince⟩ := h
      refine ⟨mem_snoc hland e, mem_snoc htake e, before, since ++ [e], by simp, fun x hx => ?_⟩
      obtain hx | rfl := hspool key x hx
      · exact (hsince x hx).imp_right fun hmem => mem_snoc hmem e
      · exact .inr (by simp)

/-- What the drain removes was taken, or it landed after the second reading. -/
theorem Inv.removed (h : Inv es s) {key : κ} {entry x : SpoolEntry π}
    (hdrain : s.drain = .agreed key entry) (hx : s.spool key = some x) :
    (Agrees x entry ∧ .take key entry ∈ es) ∨ ∃ before since, es = before ++ .agree key entry :: since ∧ .land key x ∈ since := by
  have hknows := h.knows
  unfold Knows at hknows
  rw [hdrain] at hknows
  obtain ⟨-, htake, before, since, heq, hsince⟩ := hknows
  obtain hagrees | hlate := hsince x hx
  · exact .inl ⟨hagrees, htake⟩
  · exact .inr ⟨before, since, heq, hlate⟩

variable [DecidableEq κ]

theorem spool_of_update_none {spool : κ → Option (SpoolEntry π)} {key k : κ} {x : SpoolEntry π}
    (h : Function.update spool key none k = some x) : spool k = some x := by
  by_cases hk : k = key
  · rw [hk, Function.update_self] at h
    cases h
  · rwa [Function.update_of_ne hk] at h

/-- The host drops an entry. -/
theorem Inv.drop (h : Inv es s) {key : κ} (he : ∀ k x, e ≠ .land k x) :
    Inv (es ++ [e]) { s with spool := Function.update s.spool key none } := by
  refine ⟨fun k x hx => mem_snoc (h.landed k x (spool_of_update_none hx)) _, fun p hp => mem_snoc (h.writing p hp) _, ?_,
    h.knows.of_spool rfl fun k x hx => .inl (spool_of_update_none hx)⟩
  intro k x hx
  obtain hx | hx := List.mem_append.mp hx
  · exact mem_snoc (h.raised k x hx) e
  · exact absurd (List.mem_singleton.mp hx).symm (he k x)

theorem Inv.step (h : Inv es s) (hstep : Step s e t) : Inv (es ++ [e]) t := by
  have hraised : (∀ key x, e = .land key x → .raise key x ∈ es) → ∀ key x, .land key x ∈ es ++ [e] → .raise key x ∈ es ++ [e] := by
    intro hnew key x hx
    obtain hx | hx := List.mem_append.mp hx
    · exact mem_snoc (h.raised key x hx) e
    · exact mem_snoc (hnew key x (List.mem_singleton.mp hx).symm) e
  cases hstep with
  | raise key now directError content =>
      refine ⟨fun k x hx => mem_snoc (h.landed k x hx) _, fun p hp => ?_, hraised fun _ _ heq => (by cases heq),
        h.knows.of_spool rfl fun _ _ hx => .inl hx⟩
      obtain rfl | hp := List.mem_cons.mp hp
      · exact List.mem_append_right _ (List.mem_singleton.mpr rfl)
      · exact mem_snoc (h.writing p hp) _
  | abandon hperm =>
      exact ⟨fun k x hx => mem_snoc (h.landed k x hx) _,
        fun p hp => mem_snoc (h.writing p (hperm.symm.subset (List.mem_cons_of_mem _ hp))) _,
        hraised fun _ _ heq => (by cases heq), h.knows.of_spool rfl fun _ _ hx => .inl hx⟩
  | @land key entry writing hperm =>
      have hspool : ∀ k x, Function.update s.spool key (some entry) k = some x → s.spool k = some x ∨
          Event.land key entry = .land k x := by
        intro k x hx
        by_cases hk : k = key
        · subst hk
          rw [Function.update_self] at hx
          exact .inr (by rw [Option.some.inj hx])
        · rw [Function.update_of_ne hk] at hx
          exact .inl hx
      refine ⟨fun k x hx => ?_, fun p hp => mem_snoc (h.writing p (hperm.symm.subset (List.mem_cons_of_mem _ hp))) _,
        hraised fun k x heq => ?_, h.knows.of_spool rfl hspool⟩
      · obtain hx | heq := hspool k x hx
        · exact mem_snoc (h.landed k x hx) _
        · exact List.mem_append_right _ (List.mem_singleton.mpr heq.symm)
      · obtain ⟨rfl, rfl⟩ := Event.land.inj heq
        exact h.writing _ (hperm.symm.subset List.mem_cons_self)
  | withdraw key => exact h.drop fun _ _ heq => by cases heq
  | hostDeliver key => exact h.drop fun _ _ heq => by cases heq
  | @read key entry hidle hspool =>
      exact ⟨fun k x hx => mem_snoc (h.landed k x hx) _, fun p hp => mem_snoc (h.writing p hp) _,
        hraised fun _ _ heq => (by cases heq), mem_snoc (h.landed key entry hspool) _⟩
  | @take key entry hdrain =>
      have hknows := h.knows
      unfold Knows at hknows
      rw [hdrain] at hknows
      exact ⟨fun k x hx => mem_snoc (h.landed k x hx) _, fun p hp => mem_snoc (h.writing p hp) _,
        hraised fun _ _ heq => (by cases heq), mem_snoc hknows _, List.mem_append_right _ (List.mem_singleton.mpr rfl)⟩
  | @agree key entry now hdrain hspool hagrees =>
      have hknows := h.knows
      unfold Knows at hknows
      rw [hdrain] at hknows
      refine ⟨fun k x hx => mem_snoc (h.landed k x hx) _, fun p hp => mem_snoc (h.writing p hp) _,
        hraised fun _ _ heq => (by cases heq), mem_snoc hknows.1 _, mem_snoc hknows.2 _, es, [], rfl, fun x hx => .inl ?_⟩
      have hsame : x = now := Option.some.inj (hx.symm.trans hspool)
      rwa [hsame]
  | @remove key entry hdrain =>
      refine ⟨fun k x hx => ?_, fun p hp => mem_snoc (h.writing p hp) _, hraised fun _ _ heq => (by cases heq), trivial⟩
      by_cases hk : k = key
      · rw [hk] at hx
        simp at hx
      · exact mem_snoc (h.landed k x (by simpa [Function.update_of_ne hk] using hx)) _
  | stop =>
      exact ⟨fun k x hx => mem_snoc (h.landed k x hx) _, fun p hp => mem_snoc (h.writing p hp) _,
        hraised fun _ _ heq => (by cases heq), trivial⟩

theorem inv_run (hrun : Run Step State.start es s) : Inv es s :=
  hrun.invariant_trace (fun _ _ _ _ h hstep => h.step hstep) inv_start

/-- The drain posts nothing that no producer raised. -/
theorem raised_of_take (hrun : Run Step State.start es s) {key : κ} {x : SpoolEntry π} (h : .take key x ∈ es) :
    .raise key x ∈ es := by
  induction hrun with
  | nil => cases h
  | @snoc es s t e hprior hstep ih =>
      obtain h | h := List.mem_append.mp h
      · exact mem_snoc (ih h) e
      · obtain rfl := List.mem_singleton.mp h
        have hinv := inv_run hprior
        cases hstep with
        | take hdrain =>
            have hknows := hinv.knows
            unfold Knows at hknows
            rw [hdrain] at hknows
            exact mem_snoc (hinv.raised key x hknows) _

/-! ### What becomes of an observation -/

/-- What became of an observation: `later` are the events after it landed. -/
inductive Fate (es later : List (Event κ π)) (s : State κ π) (key : κ) (x : SpoolEntry π) : Prop
  | spooled (h : s.spool key = some x)
  | superseded (y : SpoolEntry π) (h : .land key y ∈ later)
  | withdrawn (h : .withdraw key ∈ later)
  | hostDelivered (h : .hostDeliver key ∈ later)
  | taken (y : SpoolEntry π) (hagrees : Agrees x y) (h : .take key y ∈ es)
  | raced (before between between' : List (Event κ π)) (entry : SpoolEntry π)
      (heq : es = before ++ .agree key entry :: (between ++ .land key x :: between')) (h : .remove key ∈ between')

theorem Fate.snoc {later : List (Event κ π)} {key : κ} {x : SpoolEntry π} (h : Fate es later s key x) (hinv : Inv es s)
    (hstep : Step s e t) : Fate (es ++ [e]) (later ++ [e]) t key x := by
  cases h with
  | superseded y h => exact .superseded y (mem_snoc h e)
  | withdrawn h => exact .withdrawn (mem_snoc h e)
  | hostDelivered h => exact .hostDelivered (mem_snoc h e)
  | taken y hagrees h => exact .taken y hagrees (mem_snoc h e)
  | raced before between between' entry heq h =>
      exact .raced before between (between' ++ [e]) entry (by rw [heq]; simp) (mem_snoc h e)
  | spooled h =>
      -- only a rename, the host or the drain takes the entry away
      cases hstep with
      | @land key' entry writing hperm =>
          by_cases hk : key = key'
          · subst hk
            exact .superseded entry (List.mem_append_right _ (List.mem_singleton.mpr rfl))
          · exact .spooled (by simpa [Function.update_of_ne hk] using h)
      | withdraw key' =>
          by_cases hk : key = key'
          · subst hk
            exact .withdrawn (List.mem_append_right _ (List.mem_singleton.mpr rfl))
          · exact .spooled (by simpa [Function.update_of_ne hk] using h)
      | hostDeliver key' =>
          by_cases hk : key = key'
          · subst hk
            exact .hostDelivered (List.mem_append_right _ (List.mem_singleton.mpr rfl))
          · exact .spooled (by simpa [Function.update_of_ne hk] using h)
      | @remove key' entry hdrain =>
          by_cases hk : key = key'
          · subst hk
            obtain ⟨hagrees, htake⟩ | ⟨before, since, heq, hland⟩ := hinv.removed hdrain h
            · exact .taken entry hagrees (mem_snoc htake _)
            · obtain ⟨between, between', rfl⟩ := List.append_of_mem hland
              exact .raced before between (between' ++ [.remove key]) entry (by rw [heq]; simp)
                (List.mem_append_right _ (List.mem_singleton.mpr rfl))
          · exact .spooled (by simpa [Function.update_of_ne hk] using h)
      | raise => exact .spooled h
      | abandon => exact .spooled h
      | read => exact .spooled h
      | take => exact .spooled h
      | agree => exact .spooled h
      | stop => exact .spooled h

/-- Every observation that landed is accounted for, in every interleaving of the producers and the drain. -/
theorem accounted (hrun : Run Step State.start es s) {earlier later : List (Event κ π)} {key : κ}
    {x : SpoolEntry π} (hland : es = earlier ++ .land key x :: later) : Fate es later s key x := by
  induction hrun generalizing later with
  | nil => simp at hland
  | @snoc es s t e hprior hstep ih =>
      have hinv := inv_run hprior
      obtain rfl | ⟨later, e', rfl⟩ := List.eq_nil_or_concat later
      · -- the observation lands now
        obtain ⟨rfl, hlast⟩ := List.append_inj' hland rfl
        obtain rfl := List.singleton_inj.mp hlast
        cases hstep with
        | land hperm => exact .spooled (Function.update_self _ _ _)
      · rw [List.concat_eq_append] at hland ⊢
        rw [← List.cons_append, ← List.append_assoc] at hland
        obtain ⟨rfl, hlast⟩ := List.append_inj' hland rfl
        obtain rfl := List.singleton_inj.mp hlast
        exact (ih rfl).snoc hinv hstep

/-- An alert that is raised, drained and removed. -/
def drained (entry : SpoolEntry Unit) : List (Event ℕ Unit) :=
  [.read 0 entry, .take 0 entry, .agree 0 entry, .remove 0]

theorem accounted_drained :
    let entry := base 5 none ()
    let es := .raise 0 entry :: .land 0 entry :: drained entry
    ∃ s : State ℕ Unit, Run Step State.start es s ∧ s.spool 0 = none ∧ Fate es (drained entry) s 0 entry := by
  intro entry es
  let spool : ℕ → Option (SpoolEntry Unit) := Function.update (fun _ => none) 0 (some entry)
  have hspool : spool 0 = some entry := Function.update_self _ _ _
  have hraise : Step State.start (.raise 0 entry) ⟨fun _ => none, [(0, entry)], .idle⟩ := .raise State.start 0 5 none ()
  have hland : Step ⟨fun _ => none, [(0, entry)], .idle⟩ (.land 0 entry) ⟨spool, [], .idle⟩ := .land (List.Perm.refl _)
  have hread : Step ⟨spool, [], .idle⟩ (.read 0 entry) ⟨spool, [], .posting 0 entry⟩ := .read rfl hspool
  have htake : Step ⟨spool, [], .posting 0 entry⟩ (.take 0 entry) ⟨spool, [], .posted 0 entry⟩ := .take rfl
  have hagree : Step ⟨spool, [], .posted 0 entry⟩ (.agree 0 entry) ⟨spool, [], .agreed 0 entry⟩ := .agree rfl hspool ⟨rfl, rfl⟩
  have hremove : Step ⟨spool, [], .agreed 0 entry⟩ (.remove 0) ⟨Function.update spool 0 none, [], .idle⟩ := .remove rfl
  have hrun : Run Step State.start es ⟨Function.update spool 0 none, [], .idle⟩ :=
    .cons hraise (.cons hland (.cons hread (.cons htake (.cons hagree (.single hremove)))))
  have hsplit : es = [.raise 0 entry] ++ .land 0 entry :: drained entry := rfl
  have hgone : Function.update spool 0 none 0 = none := Function.update_self _ _ _
  exact ⟨_, hrun, hgone, accounted hrun hsplit⟩

end Remudero.Escalation
