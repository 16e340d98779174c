import Remudero.Lib.Transition

/-! # The mutation guard of a test slot

`acquireSlotMutation`, `reclaimOrphanedSlotMutation` and the release of `lib/test-slot-mutation.ts`,
for any number of processes of one uid on one slot path.  Every call on the file system is a step of
its own: the exclusive create, the two `lstat`s around the open-file probe, the unlink by path, the
second create, the inspection of what was created, and the steps of a release.

A guard file has an identity that is never used again, and is open exactly in the process that
created it, until that process closes it or crashes.  A probe answers `closed` only where no process
has the file open.

A recoverer unlinks by path what it judged by identity, so that it may remove a guard that another
recoverer has just created (`two_recoverers_hold`).  `guard_exclusive` is the result for the runs in
which no recoverer removes such a guard. -/

namespace Remudero.TestSlot

open Remudero.Lib

/-- Where a process is in its call. -/
inductive Pc
  | idle
  /-- The create found a file; the recovery looks at it. -/
  | exists
  /-- An old enough, empty, private guard was found. -/
  | judged (guard : ℕ)
  /-- The probe showed it closed. -/
  | closed (guard : ℕ)
  /-- The second `lstat` found the same guard. -/
  | unlinking (guard : ℕ)
  /-- The orphan is gone; one more create. -/
  | retry
  | created (guard : ℕ)
  | holding (guard : ℕ)
  /-- The release found its own guard and is about to unlink it. -/
  | releasing (guard : ℕ)
  | closing (guard : ℕ)
  | crashed
deriving DecidableEq

namespace Pc

/-- The guard that a process has open. -/
def opens : Pc → Option ℕ
  | created i => some i
  | holding i => some i
  | releasing i => some i
  | closing i => some i
  | _ => none

/-- The guard that a process takes to be at the path. -/
def occupies : Pc → Option ℕ
  | created i => some i
  | holding i => some i
  | releasing i => some i
  | _ => none

/-- The guard that a recovery showed to be closed. -/
def orphan : Pc → Option ℕ
  | closed i => some i
  | unlinking i => some i
  | _ => none

/-- An acquired guard that was not removed yet. -/
def holds : Pc → Bool
  | holding _ => true
  | releasing _ => true
  | _ => false

theorem opens_of_occupies {c : Pc} {i : ℕ} (h : c.occupies = some i) : c.opens = some i := by
  cases c <;> simp_all [occupies, opens]

end Pc

inductive Act
  | create (recovery : Bool)
  | stat
  | probe
  | restat
  | unlink
  | recreate
  | inspect
  | release
  | unlinkOwn
  | close
  /-- A recovery that keeps the guard it found, for any of its reasons. -/
  | keep
  | crash
deriving DecidableEq

variable {P : Type*} [DecidableEq P]

structure Guards (P : Type*) where
  /-- The guard at the path. -/
  path : Option ℕ
  /-- The guards made so far. -/
  made : ℕ
  pc : P → Pc

namespace Guards

def init : Guards P := ⟨none, 0, fun _ => .idle⟩

def goto (s : Guards P) (p : P) (c : Pc) : Guards P := { s with pc := Function.update s.pc p c }

/-- A new guard at the path, open in `p`. -/
def make (s : Guards P) (p : P) : Guards P :=
  { path := some s.made, made := s.made + 1, pc := Function.update s.pc p (.created s.made) }

/-- The path without a guard. -/
def free (s : Guards P) : Guards P := { s with path := none }

/-- Some process has the guard open. -/
def IsOpen (s : Guards P) (i : ℕ) : Prop := ∃ q, (s.pc q).opens = some i

end Guards

/-- The steps.  A failing call of the file system ends an acquisition or a release as the code does:
the inspection closes the descriptor, a release closes it and leaves the path. -/
inductive Step : Guards P → P × Act → Guards P → Prop
  | create {s p r} : s.pc p = .idle → s.path = none → Step s (p, .create r) (s.make p)
  | createExists {s p i} : s.pc p = .idle → s.path = some i →
      Step s (p, .create true) (s.goto p .exists)
  | createBusy {s p i} : s.pc p = .idle → s.path = some i → Step s (p, .create false) s
  | statGone {s p} : s.pc p = .exists → s.path = none → Step s (p, .stat) (s.goto p .retry)
  | statJudged {s p i} : s.pc p = .exists → s.path = some i →
      Step s (p, .stat) (s.goto p (.judged i))
  | probe {s p i} : s.pc p = .judged i → ¬ s.IsOpen i → Step s (p, .probe) (s.goto p (.closed i))
  | restatSame {s p i} : s.pc p = .closed i → s.path = some i →
      Step s (p, .restat) (s.goto p (.unlinking i))
  | restatGone {s p i} : s.pc p = .closed i → s.path = none →
      Step s (p, .restat) (s.goto p .retry)
  | unlink {s p i} : s.pc p = .unlinking i → Step s (p, .unlink) (s.goto p .retry).free
  | recreate {s p} : s.pc p = .retry → s.path = none → Step s (p, .recreate) (s.make p)
  | recreateBusy {s p i} : s.pc p = .retry → s.path = some i →
      Step s (p, .recreate) (s.goto p .idle)
  | inspect {s p i} : s.pc p = .created i → s.path = some i →
      Step s (p, .inspect) (s.goto p (.holding i))
  | inspectFailed {s p i} : s.pc p = .created i → Step s (p, .inspect) (s.goto p .idle)
  | release {s p i} : s.pc p = .holding i → s.path = some i →
      Step s (p, .release) (s.goto p (.releasing i))
  | releaseLost {s p i} : s.pc p = .holding i → Step s (p, .release) (s.goto p (.closing i))
  | unlinkOwn {s p i} : s.pc p = .releasing i →
      Step s (p, .unlinkOwn) (s.goto p (.closing i)).free
  | unlinkOwnFailed {s p i} : s.pc p = .releasing i →
      Step s (p, .unlinkOwn) (s.goto p (.closing i))
  | close {s p i} : s.pc p = .closing i → Step s (p, .close) (s.goto p .idle)
  | keep {s p} : (s.pc p = .exists ∨ ∃ i, s.pc p = .judged i ∨ s.pc p = .closed i ∨
      s.pc p = .unlinking i) → Step s (p, .keep) (s.goto p .idle)
  | crash {s p} : Step s (p, .crash) (s.goto p .crashed)

/-- A recoverer does not unlink another guard than the one it judged while a process has that one
open. -/
def SparesOpen (s : Guards P) (e : P × Act) : Prop :=
  e.2 = .unlink → ∀ i j, s.pc e.1 = .unlinking i → s.path = some j → j ≠ i → ¬ s.IsOpen j

/-- No two processes hold. -/
def Exclusive (s : Guards P) : Prop :=
  ∀ p q, (s.pc p).holds = true → (s.pc q).holds = true → p = q

/-! ### The invariant -/

structure Inv (s : Guards P) : Prop where
  /-- What a process occupies is at the path. -/
  there : ∀ p i, (s.pc p).occupies = some i → s.path = some i
  /-- A guard is open in one process only. -/
  single : ∀ p q i, (s.pc p).opens = some i → (s.pc q).opens = some i → p = q
  /-- Guards that are open, at the path or judged were made. -/
  made_open : ∀ p i, (s.pc p).opens = some i → i < s.made
  made_path : ∀ i, s.path = some i → i < s.made
  made_judged : ∀ p i, s.pc p = .judged i → i < s.made
  /-- An orphan was made, and nobody has it open. -/
  orphans : ∀ p i, (s.pc p).orphan = some i → i < s.made ∧ ¬ s.IsOpen i

omit [DecidableEq P] in
theorem inv_init : Inv (Guards.init : Guards P) := by
  constructor <;> simp [Guards.init, Pc.occupies, Pc.opens, Pc.orphan]

omit [DecidableEq P] in
theorem Inv.exclusive {s : Guards P} (h : Inv s) : Exclusive s := by
  have key : ∀ p, (s.pc p).holds = true → ∃ i, (s.pc p).occupies = some i := by
    intro p hp
    cases hc : s.pc p <;> simp_all [Pc.holds, Pc.occupies]
  intro p q hp hq
  obtain ⟨i, hi⟩ := key p hp
  obtain ⟨j, hj⟩ := key q hq
  have hij : i = j := by
    have hpath := h.there p i hi
    rw [h.there q j hj, Option.some.injEq] at hpath
    exact hpath.symm
  subst hij
  exact h.single p q i (Pc.opens_of_occupies hi) (Pc.opens_of_occupies hj)

variable {s : Guards P} {p : P}

/-- A process opens nothing new by going on. -/
theorem isOpen_goto {c : Pc} (hopen : ∀ i, c.opens = some i → (s.pc p).opens = some i) {i : ℕ}
    (h : (s.goto p c).IsOpen i) : s.IsOpen i := by
  obtain ⟨q, hq⟩ := h
  by_cases hqp : q = p
  · subst hqp
    exact ⟨q, hopen i (by simpa [Guards.goto] using hq)⟩
  · exact ⟨q, by simpa [Guards.goto, hqp] using hq⟩

/-- A process goes on without touching the path. -/
theorem Inv.goto (h : Inv s) {c : Pc} (hocc : ∀ i, c.occupies = some i → s.path = some i)
    (hopen : ∀ i, c.opens = some i → (s.pc p).opens = some i)
    (hjudged : ∀ i, c = .judged i → i < s.made)
    (horphan : ∀ i, c.orphan = some i → i < s.made ∧ ¬ s.IsOpen i) : Inv (s.goto p c) := by
  have hold : ∀ q i, ((s.goto p c).pc q).opens = some i → (s.pc q).opens = some i := by
    intro q i hq
    by_cases hqp : q = p
    · subst hqp
      exact hopen i (by simpa [Guards.goto] using hq)
    · simpa [Guards.goto, hqp] using hq
  refine ⟨?_, ?_, ?_, h.made_path, ?_, ?_⟩
  · intro q i hq
    by_cases hqp : q = p
    · subst hqp
      exact hocc i (by simpa [Guards.goto] using hq)
    · exact h.there q i (by simpa [Guards.goto, hqp] using hq)
  · intro q r i hq hr
    exact h.single q r i (hold q i hq) (hold r i hr)
  · intro q i hq
    exact h.made_open q i (hold q i hq)
  · intro q i hq
    by_cases hqp : q = p
    · subst hqp
      exact hjudged i (by simpa [Guards.goto] using hq)
    · exact h.made_judged q i (by simpa [Guards.goto, hqp] using hq)
  · intro q i hq
    have hi : i < s.made ∧ ¬ s.IsOpen i := by
      by_cases hqp : q = p
      · subst hqp
        exact horphan i (by simpa [Guards.goto] using hq)
      · exact h.orphans q i (by simpa [Guards.goto, hqp] using hq)
    exact ⟨hi.1, fun ho => hi.2 (isOpen_goto hopen ho)⟩

/-- A process that goes to a place where it has nothing open, judged or shown closed. -/
theorem Inv.goto_plain (h : Inv s) {c : Pc} (hopen : c.opens = none)
    (hjudged : ∀ i, c ≠ .judged i) (horphan : c.orphan = none) : Inv (s.goto p c) := by
  have hocc : c.occupies = none := by
    cases c <;> simp_all [Pc.occupies, Pc.opens]
  refine h.goto ?_ ?_ ?_ ?_
  · simp [hocc]
  · simp [hopen]
  · exact fun i hi => absurd hi (hjudged i)
  · simp [horphan]

omit [DecidableEq P] in
/-- The path may be freed when nobody occupies it. -/
theorem Inv.free (h : Inv s) (hno : ∀ q i, (s.pc q).occupies ≠ some i) : Inv s.free := by
  refine ⟨?_, h.single, h.made_open, ?_, h.made_judged, h.orphans⟩
  · exact fun q i hq => absurd hq (hno q i)
  · simp [Guards.free]

theorem Inv.make (h : Inv s) (hpath : s.path = none) : Inv (s.make p) := by
  have hno : ∀ q i, (s.pc q).occupies ≠ some i := by
    intro q i hq
    have hthere := h.there q i hq
    rw [hpath] at hthere
    cases hthere
  refine ⟨?_, ?_, ?_, ?_, ?_, ?_⟩
  · intro q i hq
    by_cases hqp : q = p
    · subst hqp
      simpa [Guards.make, Pc.occupies] using hq
    · exact absurd (by simpa [Guards.make, hqp] using hq) (hno q i)
  · intro q r i hq hr
    by_cases hqp : q = p <;> by_cases hrp : r = p
    · rw [hqp, hrp]
    · have hi : s.made = i := by simpa [Guards.make, hqp, Pc.opens] using hq
      have hlt := h.made_open r i (by simpa [Guards.make, hrp] using hr)
      omega
    · have hi : s.made = i := by simpa [Guards.make, hrp, Pc.opens] using hr
      have hlt := h.made_open q i (by simpa [Guards.make, hqp] using hq)
      omega
    · exact h.single q r i (by simpa [Guards.make, hqp] using hq)
        (by simpa [Guards.make, hrp] using hr)
  · intro q i hq
    simp only [Guards.make]
    by_cases hqp : q = p
    · have hi : s.made = i := by simpa [Guards.make, hqp, Pc.opens] using hq
      omega
    · have hlt := h.made_open q i (by simpa [Guards.make, hqp] using hq)
      omega
  · intro i hi
    simp only [Guards.make, Option.some.injEq] at hi ⊢
    omega
  · intro q i hq
    simp only [Guards.make]
    by_cases hqp : q = p
    · simp [Guards.make, hqp] at hq
    · have hlt := h.made_judged q i (by simpa [Guards.make, hqp] using hq)
      omega
  · intro q i hq
    by_cases hqp : q = p
    · simp [Guards.make, hqp, Pc.orphan] at hq
    · obtain ⟨hlt, hclosed⟩ := h.orphans q i (by simpa [Guards.make, hqp] using hq)
      refine ⟨by simp only [Guards.make]; omega, ?_⟩
      rintro ⟨r, hr⟩
      by_cases hrp : r = p
      · have hi : s.made = i := by simpa [Guards.make, hrp, Pc.opens] using hr
        omega
      · exact hclosed ⟨r, by simpa [Guards.make, hrp] using hr⟩

/-- A recoverer that spares open guards unlinks one that nobody occupies. -/
theorem Inv.unlink (h : Inv s) {i : ℕ} (hpc : s.pc p = .unlinking i)
    (hok : SparesOpen s (p, .unlink)) : Inv (s.goto p .retry).free := by
  have hgo : Inv (s.goto p .retry) := h.goto_plain rfl (by simp) rfl
  refine hgo.free ?_
  intro q j hq
  have hqp : q ≠ p := by
    rintro rfl
    simp [Guards.goto, Pc.occupies] at hq
  have hq' : (s.pc q).occupies = some j := by simpa [Guards.goto, hqp] using hq
  have hpath := h.there q j hq'
  have hopen : s.IsOpen j := ⟨q, Pc.opens_of_occupies hq'⟩
  by_cases hji : j = i
  · subst hji
    exact (h.orphans p j (by rw [hpc]; rfl)).2 hopen
  · exact hok rfl i j hpc hpath hji hopen

theorem Inv.unlinkOwn (h : Inv s) {i : ℕ} (hpc : s.pc p = .releasing i) :
    Inv (s.goto p (.closing i)).free := by
  have hgo : Inv (s.goto p (.closing i)) := by
    refine h.goto (by simp [Pc.occupies]) ?_ (by simp) (by simp [Pc.orphan])
    intro j hj
    simpa [hpc, Pc.opens] using hj
  refine hgo.free ?_
  intro q j hq
  have hqp : q ≠ p := by
    rintro rfl
    simp [Guards.goto, Pc.occupies] at hq
  have hq' : (s.pc q).occupies = some j := by simpa [Guards.goto, hqp] using hq
  have hown : (s.pc p).occupies = some i := by rw [hpc]; rfl
  have hji : j = i := by
    have hpath := h.there q j hq'
    rw [h.there p i hown, Option.some.injEq] at hpath
    exact hpath.symm
  subst hji
  exact hqp (h.single q p j (Pc.opens_of_occupies hq') (Pc.opens_of_occupies hown))

/-- A process that keeps the guard it has open at the path, or closes it. -/
theorem Inv.goto_own (h : Inv s) {i : ℕ} {c : Pc} (hown : (s.pc p).opens = some i)
    (hc : c = .closing i ∨ ((c = .holding i ∨ c = .releasing i) ∧ s.path = some i)) :
    Inv (s.goto p c) := by
  rcases hc with rfl | ⟨rfl | rfl, hpath⟩
  all_goals
    refine h.goto ?_ ?_ (by simp) (by simp [Pc.orphan])
    · simp_all [Pc.occupies]
    · simp_all [Pc.opens]

theorem Inv.step {e : P × Act} {t : Guards P} (h : Inv s) (hstep : Step s e t)
    (hok : SparesOpen s e) : Inv t := by
  cases hstep with
  | create _ hpath => exact h.make hpath
  | createExists _ _ => exact h.goto_plain rfl (by simp) rfl
  | createBusy _ _ => exact h
  | statGone _ _ => exact h.goto_plain rfl (by simp) rfl
  | @statJudged p i _ hpath =>
      refine h.goto (by simp [Pc.occupies]) (by simp [Pc.opens]) ?_ (by simp [Pc.orphan])
      intro j hj
      have hij : i = j := by simpa using hj
      exact hij ▸ h.made_path i hpath
  | @probe p i hpc hclosed =>
      refine h.goto (by simp [Pc.occupies]) (by simp [Pc.opens]) (by simp) ?_
      intro j hj
      have hij : i = j := by simpa [Pc.orphan] using hj
      exact hij ▸ ⟨h.made_judged p i hpc, hclosed⟩
  | @restatSame p i hpc _ =>
      refine h.goto (by simp [Pc.occupies]) (by simp [Pc.opens]) (by simp) ?_
      intro j hj
      have hij : i = j := by simpa [Pc.orphan] using hj
      exact hij ▸ h.orphans p i (by rw [hpc]; rfl)
  | restatGone _ _ => exact h.goto_plain rfl (by simp) rfl
  | unlink hpc => exact h.unlink hpc hok
  | recreate _ hpath => exact h.make hpath
  | recreateBusy _ _ => exact h.goto_plain rfl (by simp) rfl
  | inspect hpc hpath => exact h.goto_own (by rw [hpc]; rfl) (.inr ⟨.inl rfl, hpath⟩)
  | inspectFailed _ => exact h.goto_plain rfl (by simp) rfl
  | release hpc hpath => exact h.goto_own (by rw [hpc]; rfl) (.inr ⟨.inr rfl, hpath⟩)
  | releaseLost hpc => exact h.goto_own (by rw [hpc]; rfl) (.inl rfl)
  | unlinkOwn hpc => exact h.unlinkOwn hpc
  | unlinkOwnFailed hpc => exact h.goto_own (by rw [hpc]; rfl) (.inl rfl)
  | close _ => exact h.goto_plain rfl (by simp) rfl
  | keep _ => exact h.goto_plain rfl (by simp) rfl
  | crash => exact h.goto_plain rfl (by simp) rfl

/-- In a run whose recoverers spare open guards, no two processes ever hold. -/
theorem guard_exclusive {es : List (P × Act)}
    (hrun : Run (Guarded Step SparesOpen) Guards.init es s) : Exclusive s := by
  have hinv : Inv s := by
    refine hrun.invariant (I := Inv) ?_ inv_init
    rintro s e t hs ⟨hstep, hok⟩
    exact hs.step hstep hok
  exact hinv.exclusive

/-! ### Recoveries of one orphan -/

/-- Process 0 acquires the guard and crashes. -/
def orphaning : List (ℕ × Act) := [(0, .create false), (0, .inspect), (0, .crash)]

/-- The state with the orphan. -/
def orphaned : Guards ℕ := ((Guards.init.make 0).goto 0 (.holding 0)).goto 0 .crashed

/-- What a recoverer does up to its unlink. -/
def judging (p : ℕ) : List (ℕ × Act) := [(p, .create true), (p, .stat), (p, .probe), (p, .restat)]

/-- The unlink, the second create and the inspection. -/
def taking (p : ℕ) : List (ℕ × Act) := [(p, .unlink), (p, .recreate), (p, .inspect)]

theorem sparesOpen_of_ne {s : Guards ℕ} {p : ℕ} {a : Act} (h : a ≠ .unlink) :
    SparesOpen s (p, a) :=
  fun heq => absurd heq h

theorem orphaning_run :
    Run (Guarded Step SparesOpen) (Guards.init : Guards ℕ) orphaning orphaned := by
  refine .cons ⟨.create rfl rfl, sparesOpen_of_ne (by decide)⟩ ?_
  refine .cons ⟨.inspect rfl rfl, sparesOpen_of_ne (by decide)⟩ ?_
  exact .single ⟨.crash, sparesOpen_of_ne (by decide)⟩

/-- A recoverer finds the orphan closed while no process has it open. -/
theorem judging_run {s : Guards ℕ} {p : ℕ} (hpc : s.pc p = .idle) (hpath : s.path = some 0)
    (hclosed : ¬ s.IsOpen 0) :
    Run (Guarded Step SparesOpen) s (judging p)
      ((((s.goto p .exists).goto p (.judged 0)).goto p (.closed 0)).goto p (.unlinking 0)) := by
  refine .cons ⟨.createExists hpc hpath, sparesOpen_of_ne (by decide)⟩ ?_
  refine .cons ⟨.statJudged (by simp [Guards.goto]) hpath, sparesOpen_of_ne (by decide)⟩ ?_
  refine .cons ⟨.probe (i := 0) (by simp [Guards.goto]) ?_, sparesOpen_of_ne (by decide)⟩ ?_
  · intro h
    exact hclosed (isOpen_goto (by simp [Pc.opens]) (isOpen_goto (by simp [Pc.opens]) h))
  · exact .single ⟨.restatSame (by simp [Guards.goto]) hpath, sparesOpen_of_ne (by decide)⟩

/-- From its unlink on, a recoverer ends up holding whatever was at the path. -/
theorem taking_run {s : Guards ℕ} {p i : ℕ} (hpc : s.pc p = .unlinking i) :
    Run Step s (taking p)
      (((s.goto p .retry).free.make p).goto p (.holding s.made)) := by
  refine .cons (.unlink hpc) ?_
  refine .cons (.recreate (by simp [Guards.goto, Guards.free]) rfl) ?_
  exact .single (.inspect (by simp [Guards.make, Guards.goto, Guards.free]) rfl)

theorem orphaned_closed : ¬ orphaned.IsOpen 0 := by
  rintro ⟨q, hq⟩
  by_cases hq0 : q = 0
  · simp [orphaned, Guards.goto, hq0, Pc.opens] at hq
  · simp [orphaned, Guards.goto, Guards.make, Guards.init, hq0, Pc.opens] at hq

/-- Two recoverers judge the orphan before either of them unlinks it; both then hold. -/
theorem two_recoverers_hold :
    ∃ s : Guards ℕ,
      Run Step Guards.init (orphaning ++ (judging 1 ++ (judging 2 ++ (taking 1 ++ taking 2)))) s ∧
        s.pc 1 = .holding 1 ∧ s.pc 2 = .holding 2 ∧ ¬ Exclusive s := by
  have h1 := judging_run (s := orphaned) (p := 1) (by decide) (by decide) orphaned_closed
  have h2 := judging_run
    (s := (((orphaned.goto 1 .exists).goto 1 (.judged 0)).goto 1 (.closed 0)).goto 1 (.unlinking 0))
    (p := 2) (by decide) (by decide) (by
      intro h
      refine orphaned_closed (isOpen_goto ?_ (isOpen_goto ?_ (isOpen_goto ?_ (isOpen_goto ?_ h))))
      all_goals simp [Pc.opens])
  refine ⟨_, orphaning_run.of_guarded.append (h1.of_guarded.append (h2.of_guarded.append
    ((taking_run (i := 0) (by decide)).append (taking_run (i := 0) (by decide))))), ?_, ?_, ?_⟩
  · decide
  · decide
  · intro h
    exact absurd (h 1 2 (by decide) (by decide)) (by decide)

/-- One recoverer of the orphan holds alone. -/
theorem guard_exclusive_recovered :
    ∃ s : Guards ℕ, s.pc 1 = .holding 1 ∧ Exclusive s := by
  have h1 := judging_run (s := orphaned) (p := 1) (by decide) (by decide) orphaned_closed
  have hspares : SparesOpen
      ((((orphaned.goto 1 .exists).goto 1 (.judged 0)).goto 1 (.closed 0)).goto 1 (.unlinking 0))
      (1, .unlink) := by
    intro _ i j hi hj hne
    have hi0 : Pc.unlinking 0 = .unlinking i := hi
    have hj0 : some 0 = some j := hj
    simp only [Pc.unlinking.injEq, Option.some.injEq] at hi0 hj0
    omega
  have h2 : Run (Guarded Step SparesOpen)
      ((((orphaned.goto 1 .exists).goto 1 (.judged 0)).goto 1 (.closed 0)).goto 1 (.unlinking 0))
      (taking 1)
      ((((((((orphaned.goto 1 .exists).goto 1 (.judged 0)).goto 1 (.closed 0)).goto 1
        (.unlinking 0)).goto 1 .retry).free).make 1).goto 1 (.holding 1)) := by
    refine .cons ⟨.unlink (i := 0) (by decide), hspares⟩ ?_
    refine .cons ⟨.recreate (by decide) rfl, sparesOpen_of_ne (by decide)⟩ ?_
    exact .single ⟨.inspect (i := 1) (by decide) rfl, sparesOpen_of_ne (by decide)⟩
  exact ⟨_, by decide, guard_exclusive (orphaning_run.append (h1.append h2))⟩

end Remudero.TestSlot
