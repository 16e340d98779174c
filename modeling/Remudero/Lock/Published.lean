import Remudero.Lib.Text
import Remudero.Lib.Transition

/-! # Publish-once creation

`createOrReadPublished` of `lib/fs-race-safe.ts`: the process that creates the path exclusively holds an
empty claim, stages its text in a temporary file of its own and renames that over the claim; every other
process opens the path for reading and looks again while it finds zero bytes.  `release` closes the claim
and removes the path only when nothing was published.

Any number of processes run it on one path, which is absent at first.  One event is one system call, so a
run is an arbitrary interleaving, and a process may die at any of them:

* `creating`, `opening`, `reading`: the exclusive create, the open after `EEXIST` and the reads through
  one descriptor, until a read gives no more bytes.  The numbers are the attempts of the two loops;
* `claimed`, `staging`, `renamed`, `published`: the handle before `publish`, inside its `writeAtomic`
  before and after the rename, and after it;
* `releasing`: `release` has closed the claim and goes on to `rmSync`.

Inodes are numbered and never reused. -/

namespace Remudero.Lock.Publish

open Remudero.Lib

/-- `CREATE_OR_READ_ATTEMPTS`. -/
def createOrReadAttempts : ℕ := 3

/-- `IN_PROGRESS_READ_ATTEMPTS`. -/
def inProgressReadAttempts : ℕ := 40

/-- Where a process stands in its call. -/
inductive Phase where
  | creating (attempt tries : ℕ)
  | opening (attempt tries : ℕ)
  | reading (attempt ino : ℕ) (raw : Text)
  | returned (raw : Text)
  | threw
  | claimed
  | staging (tmp : ℕ) (text : Text)
  | renamed
  | published
  | releasing
  | released
  | crashed
deriving DecidableEq, Repr

namespace Phase

/-- The path is the empty claim of this process. -/
def holds : Phase → Bool
  | .claimed | .staging _ _ | .releasing => true
  | _ => false

/-- The call is over. -/
def finished : Phase → Bool
  | .returned _ | .threw | .released | .crashed => true
  | _ => false

end Phase

/-- The path, the files by inode and the processes. -/
structure State (P : Type) where
  path : Option ℕ
  content : ℕ → Text
  nextIno : ℕ
  phase : P → Phase

inductive Event (P : Type) where
  /-- `openSync(path, "wx")` -/
  | create (p : P)
  /-- `openSync(path, "r")` -/
  | openRead (p : P)
  /-- one read of the descriptor and what it gave -/
  | read (p : P) (chunk : Text)
  /-- `publish(text)` opens its temporary file -/
  | stage (p : P) (text : Text)
  /-- one write to it -/
  | write (p : P) (chunk : Text)
  /-- it takes the path -/
  | rename (p : P) (text : Text)
  /-- `writeAtomic` throws before the rename -/
  | fail (p : P)
  /-- `published = true` -/
  | mark (p : P)
  /-- `release` closes the claim -/
  | close (p : P)
  /-- `rmSync(path, { force: true })` -/
  | unlink (p : P)
  | crash (p : P)
deriving DecidableEq

namespace State

variable {P : Type} [DecidableEq P]

/-- Nobody has called yet and the path is absent. -/
def start : State P where
  path := none
  content := fun _ => []
  nextIno := 0
  phase := fun _ => .creating 1 1

def goto (s : State P) (p : P) (c : Phase) : State P := { s with phase := Function.update s.phase p c }

/-- What `createOrReadPublished` does with the text `createOrReadExclusive` read. -/
def afterRead (attempt : ℕ) (raw : Text) : Phase :=
  if raw ≠ [] then .returned raw
  else if inProgressReadAttempts ≤ attempt then .threw
  else .creating (attempt + 1) 1

/-- What `createOrReadExclusive` does when the open for reading finds nothing. -/
def afterMissing (attempt tries : ℕ) : Phase :=
  if createOrReadAttempts ≤ tries then .threw else .creating attempt (tries + 1)

/-- One event; `none` when it is not possible in the state. -/
def next (s : State P) : Event P → Option (State P)
  | .create p =>
      match s.phase p, s.path with
      | .creating _ _, none =>
          some { s.goto p .claimed with
            path := some s.nextIno
            content := Function.update s.content s.nextIno []
            nextIno := s.nextIno + 1 }
      | .creating attempt tries, some _ => some (s.goto p (.opening attempt tries))
      | _, _ => none
  | .openRead p =>
      match s.phase p, s.path with
      | .opening attempt tries, none => some (s.goto p (afterMissing attempt tries))
      | .opening attempt _, some ino => some (s.goto p (.reading attempt ino []))
      | _, _ => none
  | .read p chunk =>
      match s.phase p with
      | .reading attempt ino raw =>
          if chunk = [] then
            -- zero bytes mark the end of the file
            if s.content ino = raw then some (s.goto p (afterRead attempt raw)) else none
          else if raw ++ chunk <+: s.content ino then some (s.goto p (.reading attempt ino (raw ++ chunk)))
          else none
      | _ => none
  | .stage p text =>
      if s.phase p = .claimed ∧ text ≠ [] then
        some { s.goto p (.staging s.nextIno text) with
          content := Function.update s.content s.nextIno []
          nextIno := s.nextIno + 1 }
      else none
  | .write p chunk =>
      match s.phase p with
      | .staging tmp text =>
          if s.content tmp ++ chunk <+: text then
            some { s with content := Function.update s.content tmp (s.content tmp ++ chunk) }
          else none
      | _ => none
  | .rename p text =>
      match s.phase p with
      | .staging tmp staged =>
          if staged = text ∧ s.content tmp = text then some { s.goto p .renamed with path := some tmp } else none
      | _ => none
  | .fail p =>
      match s.phase p with
      | .staging _ _ => some (s.goto p .claimed)
      | _ => none
  | .mark p => if s.phase p = .renamed then some (s.goto p .published) else none
  | .close p =>
      match s.phase p with
      | .claimed => some (s.goto p .releasing)
      | .published => some (s.goto p .released)
      | _ => none
  | .unlink p => if s.phase p = .releasing then some { s.goto p .released with path := none } else none
  | .crash p => if (s.phase p).finished then none else some (s.goto p .crashed)

def Step (s : State P) (e : Event P) (t : State P) : Prop := s.next e = some t

end State

/-- The texts that were renamed over the path, oldest first. -/
def publications {P : Type} (es : List (Event P)) : List Text :=
  es.filterMap fun
    | .rename _ text => some text
    | _ => none

/-! ### The invariant -/

section Invariant

variable {P : Type} {pubs : List Text} {s t : State P} {p : P}

/-- A file that a reader may hold open: nobody writes to it any more, and it is an empty claim or the
publication. -/
def Sealed (pubs : List Text) (s : State P) (ino : ℕ) : Prop :=
  ino < s.nextIno ∧ (s.content ino = [] ∨ pubs = [s.content ino])

/-- What a phase promises. -/
def PhaseOk (pubs : List Text) (s : State P) : Phase → Prop
  | .reading _ ino raw => Sealed pubs s ino ∧ raw <+: s.content ino
  | .returned raw => pubs = [raw]
  | .staging tmp text => tmp < s.nextIno ∧ s.path ≠ some tmp ∧ text ≠ []
  | _ => True

/-- After the publications `pubs`, a process that holds its claim is the only one, the path is that
claim and nothing was published; once something is, the path stays it. -/
structure Inv (pubs : List Text) (s : State P) : Prop where
  path_sealed : ∀ ino, s.path = some ino → Sealed pubs s ino
  path_published : pubs ≠ [] → ∃ ino, s.path = some ino ∧ pubs = [s.content ino]
  phase_ok : ∀ p, PhaseOk pubs s (s.phase p)
  stage_private : ∀ p q tmp text attempt ino raw,
    s.phase p = .staging tmp text → s.phase q = .reading attempt ino raw → ino ≠ tmp
  holder_first : ∀ p, (s.phase p).holds = true → pubs = []
  holder_claim : ∀ p, (s.phase p).holds = true → ∃ ino, s.path = some ino ∧ s.content ino = []
  holder_unique : ∀ p q, (s.phase p).holds = true → (s.phase q).holds = true → p = q

theorem inv_start : Inv [] (State.start : State P) where
  path_sealed := by simp [State.start]
  path_published := by simp
  phase_ok := fun _ => trivial
  stage_private := by simp [State.start]
  holder_first := by simp
  holder_claim := by simp [State.start, Phase.holds]
  holder_unique := by simp [State.start, Phase.holds]

/-- A move that only changes where `p` stands.  It gives up the claim or keeps it, and reads what the
path names or what it was reading. -/
structure Moves (pubs : List Text) (s : State P) (p : P) (c : Phase) : Prop where
  ok : PhaseOk pubs s c
  holds : c.holds = true → (s.phase p).holds = true
  not_staging : ∀ tmp text, c ≠ .staging tmp text
  reads : ∀ attempt ino raw, c = .reading attempt ino raw →
    s.path = some ino ∨ ∃ attempt' raw', s.phase p = .reading attempt' ino raw'

/-- A move to a phase that promises nothing. -/
theorem Moves.plain {c : Phase} (hok : PhaseOk pubs s c) (hholds : c.holds = true → (s.phase p).holds = true)
    (hstage : ∀ tmp text, c ≠ .staging tmp text) (hread : ∀ attempt ino raw, c ≠ .reading attempt ino raw) :
    Moves pubs s p c :=
  ⟨hok, hholds, hstage, fun attempt ino raw h => absurd h (hread attempt ino raw)⟩

/-- Nobody holds a claim while the path is absent. -/
theorem Inv.not_holds_of_absent (h : Inv pubs s) (hpath : s.path = none) (q : P) : (s.phase q).holds = false := by
  by_contra hq
  obtain ⟨ino, hino, -⟩ := h.holder_claim q (by simpa using hq)
  rw [hpath] at hino
  cases hino

/-- Nobody but `p` holds a claim while `p` does. -/
theorem Inv.not_holds_of_ne (h : Inv pubs s) (hp : (s.phase p).holds = true) {q : P} (hqp : q ≠ p) :
    (s.phase q).holds = false := by
  by_contra hq
  exact hqp (h.holder_unique q p (by simpa using hq) hp)

/-- Allocating a file leaves the sealed ones as they are. -/
theorem Sealed.alloc {ino : ℕ} (h : Sealed pubs s ino) (path : Option ℕ) (phase : P → Phase) :
    Sealed pubs { s with
      path := path
      content := Function.update s.content s.nextIno []
      nextIno := s.nextIno + 1
      phase := phase } ino := by
  have hne : ino ≠ s.nextIno := Nat.ne_of_lt h.1
  refine ⟨Nat.lt_succ_of_lt h.1, ?_⟩
  simpa [Function.update_of_ne hne] using h.2

theorem PhaseOk.alloc {c : Phase} (h : PhaseOk pubs s c) {path : Option ℕ} (phase : P → Phase)
    (hpath : path = s.path ∨ path = some s.nextIno) :
    PhaseOk pubs { s with
      path := path
      content := Function.update s.content s.nextIno []
      nextIno := s.nextIno + 1
      phase := phase } c := by
  cases c with
  | reading attempt ino raw =>
      have hne : ino ≠ s.nextIno := Nat.ne_of_lt h.1.1
      refine ⟨h.1.alloc path phase, ?_⟩
      simpa [Function.update_of_ne hne] using h.2
  | staging tmp text =>
      obtain ⟨hlt, hne, htext⟩ := h
      refine ⟨Nat.lt_succ_of_lt hlt, ?_, htext⟩
      rcases hpath with rfl | rfl
      · exact hne
      · intro heq
        have := Option.some.inj heq
        omega
  | returned raw => exact h
  | _ => trivial

/-- Writes go to a file that is neither at the path nor open for reading. -/
theorem Inv.write (h : Inv pubs s) {tmp : ℕ} {text : Text} (hp : s.phase p = .staging tmp text) (raw : Text) :
    Inv pubs { s with content := Function.update s.content tmp raw } := by
  have hok := h.phase_ok p
  rw [hp] at hok
  have hpath : ∀ {ino}, s.path = some ino → ino ≠ tmp := by
    rintro ino hino rfl
    exact hok.2.1 hino
  have hsealed : ∀ {ino}, ino ≠ tmp → Sealed pubs s ino →
      Sealed pubs { s with content := Function.update s.content tmp raw } ino := by
    intro ino hne hs
    exact ⟨hs.1, by simpa [Function.update_of_ne hne] using hs.2⟩
  refine ⟨?_, ?_, ?_, h.stage_private, h.holder_first, ?_, h.holder_unique⟩
  · intro ino hino
    exact hsealed (hpath hino) (h.path_sealed ino hino)
  · intro hne
    obtain ⟨ino, hino, hpub⟩ := h.path_published hne
    exact ⟨ino, hino, by simpa [Function.update_of_ne (hpath hino)] using hpub⟩
  · intro q
    have hq := h.phase_ok q
    show PhaseOk _ _ (s.phase q)
    cases hc : s.phase q with
    | reading attempt ino raw' =>
        rw [hc] at hq
        have hne := h.stage_private p q tmp text attempt ino raw' hp hc
        exact ⟨hsealed hne hq.1, by simpa [Function.update_of_ne hne] using hq.2⟩
    | staging tmp' text' =>
        rw [hc] at hq
        exact hq
    | returned raw' =>
        rw [hc] at hq
        exact hq
    | _ => trivial
  · intro q hq
    obtain ⟨ino, hino, hempty⟩ := h.holder_claim q hq
    exact ⟨ino, hino, by simpa [Function.update_of_ne (hpath hino)] using hempty⟩

theorem publications_snoc_of_ne (es : List (Event P)) {e : Event P} (h : ∀ p text, e ≠ .rename p text) :
    publications (es ++ [e]) = publications es := by
  cases e <;> simp_all [publications]

theorem afterRead_moves {attempt ino : ℕ} {raw : Text} (h : Inv pubs s)
    (hp : s.phase p = .reading attempt ino raw) (hend : s.content ino = raw) :
    Moves pubs s p (State.afterRead attempt raw) := by
  have hok := h.phase_ok p
  rw [hp] at hok
  unfold State.afterRead
  split
  next hne =>
    refine Moves.plain ?_ (by simp [Phase.holds]) (by simp) (by simp)
    -- the descriptor's file is not empty, so it is the publication
    rcases hok.1.2 with hempty | hpub
    · exact absurd (hend.symm.trans hempty) hne
    · exact hpub.trans (by rw [hend])
  next =>
    split
    · exact Moves.plain trivial (by simp [Phase.holds]) (by simp) (by simp)
    · exact Moves.plain trivial (by simp [Phase.holds]) (by simp) (by simp)

theorem afterMissing_moves (attempt tries : ℕ) : Moves pubs s p (State.afterMissing attempt tries) := by
  unfold State.afterMissing
  split
  · exact Moves.plain trivial (by simp [Phase.holds]) (by simp) (by simp)
  · exact Moves.plain trivial (by simp [Phase.holds]) (by simp) (by simp)

variable [DecidableEq P]

@[simp] theorem goto_path (c : Phase) : (s.goto p c).path = s.path := rfl

@[simp] theorem goto_content (c : Phase) : (s.goto p c).content = s.content := rfl

@[simp] theorem goto_nextIno (c : Phase) : (s.goto p c).nextIno = s.nextIno := rfl

@[simp] theorem goto_self (c : Phase) : (s.goto p c).phase p = c := by simp [State.goto]

theorem goto_of_ne {q : P} (c : Phase) (h : q ≠ p) : (s.goto p c).phase q = s.phase q := by
  simp [State.goto, Function.update_of_ne h]

theorem holds_of_goto {c : Phase} (hm : c.holds = true → (s.phase p).holds = true) {q : P}
    (hq : ((s.goto p c).phase q).holds = true) : (s.phase q).holds = true := by
  by_cases hqp : q = p
  · subst hqp
    exact hm (by simpa using hq)
  · simpa [goto_of_ne c hqp] using hq

theorem Inv.goto (h : Inv pubs s) {c : Phase} (hm : Moves pubs s p c) : Inv pubs (s.goto p c) where
  path_sealed := h.path_sealed
  path_published := h.path_published
  phase_ok := by
    intro q
    by_cases hqp : q = p
    · subst hqp
      rw [goto_self]
      exact hm.ok
    · rw [goto_of_ne c hqp]
      exact h.phase_ok q
  stage_private := by
    intro q r tmp text attempt ino raw hq hr
    have hqp : q ≠ p := by
      rintro rfl
      rw [goto_self] at hq
      exact hm.not_staging tmp text hq
    rw [goto_of_ne c hqp] at hq
    by_cases hrp : r = p
    · subst hrp
      rw [goto_self] at hr
      rcases hm.reads attempt ino raw hr with hpath | ⟨attempt', raw', hold⟩
      · have hok := h.phase_ok q
        rw [hq] at hok
        rintro rfl
        exact hok.2.1 hpath
      · exact h.stage_private q r tmp text attempt' ino raw' hq hold
    · rw [goto_of_ne c hrp] at hr
      exact h.stage_private q r tmp text attempt ino raw hq hr
  holder_first := fun q hq => h.holder_first q (holds_of_goto hm.holds hq)
  holder_claim := fun q hq => h.holder_claim q (holds_of_goto hm.holds hq)
  holder_unique := fun q r hq hr =>
    h.holder_unique q r (holds_of_goto hm.holds hq) (holds_of_goto hm.holds hr)

/-- The exclusive create finds the path absent, so nobody holds a claim and nothing was published. -/
theorem Inv.create (h : Inv pubs s) (hpath : s.path = none) :
    Inv pubs { s.goto p .claimed with
      path := some s.nextIno
      content := Function.update s.content s.nextIno []
      nextIno := s.nextIno + 1 } := by
  have hpubs : pubs = [] := by
    by_contra hne
    obtain ⟨ino, hino, -⟩ := h.path_published hne
    rw [hpath] at hino
    cases hino
  have hother : ∀ q, ((s.goto p .claimed).phase q).holds = true → q = p := by
    intro q hq
    by_contra hqp
    rw [goto_of_ne _ hqp, h.not_holds_of_absent hpath q] at hq
    cases hq
  refine ⟨?_, fun hne => absurd hpubs hne, ?_, ?_, fun _ _ => hpubs, ?_, ?_⟩
  · rintro ino hino
    obtain rfl := Option.some.inj hino
    exact ⟨Nat.lt_succ_self _, .inl (by simp)⟩
  · intro q
    by_cases hqp : q = p
    · subst hqp
      simp [PhaseOk]
    · simp only [goto_of_ne _ hqp]
      exact (h.phase_ok q).alloc _ (.inr rfl)
  · intro q r tmp text attempt ino raw hq hr
    have hqp := hother q (by simp only at hq; simp [hq, Phase.holds])
    subst hqp
    simp at hq
  · intro q _
    exact ⟨s.nextIno, rfl, by simp⟩
  · intro q r hq hr
    rw [hother q hq, hother r hr]

/-- `publish` opens a file of its own. -/
theorem Inv.stage (h : Inv pubs s) (hp : s.phase p = .claimed) {text : Text} (htext : text ≠ []) :
    Inv pubs { s.goto p (.staging s.nextIno text) with
      content := Function.update s.content s.nextIno []
      nextIno := s.nextIno + 1 } := by
  have hholds : (s.phase p).holds = true := by simp [hp, Phase.holds]
  have hback : ∀ q, ((s.goto p (.staging s.nextIno text)).phase q).holds = true → (s.phase q).holds = true :=
    fun q hq => holds_of_goto (fun _ => hholds) hq
  have hlt : ∀ {ino}, s.path = some ino → ino < s.nextIno := fun hino => (h.path_sealed _ hino).1
  refine ⟨?_, ?_, ?_, ?_, fun q hq => h.holder_first q (hback q hq), ?_, fun q r hq hr =>
    h.holder_unique q r (hback q hq) (hback r hr)⟩
  · intro ino hino
    exact (h.path_sealed ino hino).alloc _ _
  · intro hne
    obtain ⟨ino, hino, hpub⟩ := h.path_published hne
    refine ⟨ino, hino, ?_⟩
    simpa [Function.update_of_ne (Nat.ne_of_lt (hlt hino))] using hpub
  · intro q
    by_cases hqp : q = p
    · subst hqp
      simp only [goto_self]
      exact ⟨Nat.lt_succ_self _, fun heq => Nat.lt_irrefl _ (hlt heq), htext⟩
    · simp only [goto_of_ne _ hqp]
      exact (h.phase_ok q).alloc _ (.inl rfl)
  · intro q r tmp text' attempt ino raw hq hr
    have hrp : r ≠ p := by
      rintro rfl
      simp at hr
    simp only [goto_of_ne _ hrp] at hr
    by_cases hqp : q = p
    · subst hqp
      simp only [goto_self, Phase.staging.injEq] at hq
      have hok := h.phase_ok r
      rw [hr] at hok
      have := hok.1.1
      omega
    · simp only [goto_of_ne _ hqp] at hq
      exact h.stage_private q r tmp text' attempt ino raw hq hr
  · intro q hq
    obtain ⟨ino, hino, hempty⟩ := h.holder_claim q (hback q hq)
    refine ⟨ino, hino, ?_⟩
    simpa [Function.update_of_ne (Nat.ne_of_lt (hlt hino))] using hempty

/-- The rename is the first publication: only the holder of the claim gets there. -/
theorem Inv.rename (h : Inv pubs s) {tmp : ℕ} {text : Text} (hp : s.phase p = .staging tmp text)
    (htext : s.content tmp = text) :
    Inv (pubs ++ [text]) { s.goto p .renamed with path := some tmp } := by
  have hholds : (s.phase p).holds = true := by simp [hp, Phase.holds]
  have hpubs : pubs = [] := h.holder_first p hholds
  subst hpubs
  have hok := h.phase_ok p
  rw [hp] at hok
  have hnone : ∀ q, ((s.goto p .renamed).phase q).holds = false := by
    intro q
    by_cases hqp : q = p
    · subst hqp
      simp [Phase.holds]
    · rw [goto_of_ne _ hqp]
      exact h.not_holds_of_ne hholds hqp
  have hno : ∀ q, ((s.goto p .renamed).phase q).holds ≠ true := fun q => by simp [hnone q]
  refine ⟨?_, ?_, ?_, ?_, fun q hq => absurd hq (hno q), fun q hq => absurd hq (hno q),
    fun q r hq => absurd hq (hno q)⟩
  · rintro ino hino
    obtain rfl := Option.some.inj hino
    exact ⟨hok.1, .inr (by simp [htext])⟩
  · intro _
    exact ⟨tmp, rfl, by simp [htext]⟩
  · intro q
    by_cases hqp : q = p
    · subst hqp
      simp [PhaseOk]
    · simp only [goto_of_ne _ hqp]
      have hq := h.phase_ok q
      have hqh := h.not_holds_of_ne hholds hqp
      cases hc : s.phase q with
      | reading attempt ino raw =>
          rw [hc] at hq
          refine ⟨⟨hq.1.1, .inl ?_⟩, hq.2⟩
          simpa using hq.1.2
      | returned raw =>
          rw [hc] at hq
          simp [PhaseOk] at hq
      | staging tmp' text' => simp [hc, Phase.holds] at hqh
      | _ => trivial
  · intro q r tmp' text' attempt ino raw hq hr
    have := hnone q
    simp only at hq
    simp [hq, Phase.holds] at this

/-- `rmSync` removes the claim of its own process. -/
theorem Inv.unlink (h : Inv pubs s) (hp : s.phase p = .releasing) :
    Inv pubs { s.goto p .released with path := none } := by
  have hholds : (s.phase p).holds = true := by simp [hp, Phase.holds]
  have hpubs : pubs = [] := h.holder_first p hholds
  have hno : ∀ q, ((s.goto p .released).phase q).holds ≠ true := by
    intro q
    by_cases hqp : q = p
    · subst hqp
      simp [Phase.holds]
    · rw [goto_of_ne _ hqp]
      simp [h.not_holds_of_ne hholds hqp]
  have hmoved := h.goto (p := p) (c := .released) (Moves.plain trivial (by simp [Phase.holds]) (by simp) (by simp))
  refine ⟨by simp, fun hne => absurd hpubs hne, ?_, hmoved.stage_private, fun q hq => absurd hq (hno q),
    fun q hq => absurd hq (hno q), fun q r hq => absurd hq (hno q)⟩
  intro q
  have hq := hmoved.phase_ok q
  show PhaseOk _ _ ((s.goto p .released).phase q)
  cases hc : (s.goto p .released).phase q with
  | staging tmp text => exact absurd (by simp [hc, Phase.holds]) (hno q)
  | reading attempt ino raw =>
      rw [hc] at hq
      exact hq
  | returned raw =>
      rw [hc] at hq
      exact hq
  | _ => trivial

theorem inv_step {es : List (Event P)} {e : Event P} (h : Inv (publications es) s) (hs : s.Step e t) :
    Inv (publications (es ++ [e])) t := by
  unfold State.Step at hs
  by_cases hren : ∃ p text, e = .rename p text
  · obtain ⟨p, text, rfl⟩ := hren
    simp only [State.next] at hs
    split at hs
    next tmp staged hp =>
      split at hs
      next heq =>
        obtain ⟨rfl, htext⟩ := heq
        obtain rfl := Option.some.inj hs
        simpa [publications] using h.rename hp htext
      next => cases hs
    next => cases hs
  rw [publications_snoc_of_ne es (by simpa using hren)]
  cases e with
  | create p =>
      simp only [State.next] at hs
      split at hs
      next hpath =>
        obtain rfl := Option.some.inj hs
        exact h.create hpath
      next =>
        obtain rfl := Option.some.inj hs
        exact h.goto (Moves.plain trivial (by simp [Phase.holds]) (by simp) (by simp))
      next => cases hs
  | openRead p =>
      simp only [State.next] at hs
      split at hs
      next =>
        obtain rfl := Option.some.inj hs
        exact h.goto (afterMissing_moves _ _)
      next attempt tries ino hp hpath =>
        obtain rfl := Option.some.inj hs
        refine h.goto ⟨⟨h.path_sealed ino hpath, List.nil_prefix⟩, by simp [Phase.holds], by simp, ?_⟩
        intro attempt' ino' raw heq
        cases heq
        exact .inl hpath
      next => cases hs
  | read p chunk =>
      simp only [State.next] at hs
      split at hs
      next attempt ino raw hp =>
        split at hs
        next =>
          split at hs
          next hend =>
            obtain rfl := Option.some.inj hs
            exact h.goto (afterRead_moves h hp hend)
          next => cases hs
        next =>
          split at hs
          next hmore =>
            obtain rfl := Option.some.inj hs
            have hok := h.phase_ok p
            rw [hp] at hok
            refine h.goto ⟨⟨hok.1, hmore⟩, by simp [Phase.holds], by simp, ?_⟩
            intro attempt' ino' raw' heq
            cases heq
            exact .inr ⟨attempt, raw, hp⟩
          next => cases hs
      next => cases hs
  | stage p text =>
      simp only [State.next] at hs
      split at hs
      next hp =>
        obtain rfl := Option.some.inj hs
        exact h.stage hp.1 hp.2
      next => cases hs
  | write p chunk =>
      simp only [State.next] at hs
      split at hs
      next tmp text hp =>
        split at hs
        next =>
          obtain rfl := Option.some.inj hs
          exact h.write hp _
        next => cases hs
      next => cases hs
  | rename p text => exact absurd ⟨p, text, rfl⟩ hren
  | fail p =>
      simp only [State.next] at hs
      split at hs
      next tmp text hp =>
        obtain rfl := Option.some.inj hs
        exact h.goto (Moves.plain trivial (by simp [hp, Phase.holds]) (by simp) (by simp))
      next => cases hs
  | mark p =>
      simp only [State.next] at hs
      split at hs
      next =>
        obtain rfl := Option.some.inj hs
        exact h.goto (Moves.plain trivial (by simp [Phase.holds]) (by simp) (by simp))
      next => cases hs
  | close p =>
      simp only [State.next] at hs
      split at hs
      next hp =>
        obtain rfl := Option.some.inj hs
        exact h.goto (Moves.plain trivial (by simp [hp, Phase.holds]) (by simp) (by simp))
      next =>
        obtain rfl := Option.some.inj hs
        exact h.goto (Moves.plain trivial (by simp [Phase.holds]) (by simp) (by simp))
      next => cases hs
  | unlink p =>
      simp only [State.next] at hs
      split at hs
      next hp =>
        obtain rfl := Option.some.inj hs
        exact h.unlink hp
      next => cases hs
  | crash p =>
      simp only [State.next] at hs
      split at hs
      next => cases hs
      next =>
        obtain rfl := Option.some.inj hs
        exact h.goto (Moves.plain trivial (by simp [Phase.holds]) (by simp) (by simp))

theorem inv_run {es : List (Event P)} (hr : Run State.Step State.start es s) : Inv (publications es) s :=
  hr.invariant_trace (I := fun es s => Inv (publications es) s) (fun _ _ _ _ => inv_step) inv_start

end Invariant

/-- In every run at most one publication takes effect, and then the path names it from there on; a reader
that returns a text returns the whole of it; and a release that removes the path comes before any
publication. -/
theorem publication_atomic {P : Type} [DecidableEq P] {es : List (Event P)} {s : State P}
    (hr : Run State.Step State.start es s) :
    (publications es).length ≤ 1 ∧
    (∀ p raw, s.phase p = .returned raw → publications es = [raw]) ∧
    (publications es ≠ [] → ∃ ino, s.path = some ino ∧ publications es = [s.content ino]) ∧
    (∀ before p after, es = before ++ .unlink p :: after → publications before = []) := by
  have h := inv_run hr
  refine ⟨?_, ?_, h.path_published, ?_⟩
  · by_cases hne : publications es = []
    · simp [hne]
    · obtain ⟨ino, -, hpub⟩ := h.path_published hne
      simp [hpub]
  · intro p raw hp
    have hok := h.phase_ok p
    rw [hp] at hok
    exact hok
  · rintro before p after rfl
    -- the process that unlinks holds its claim
    rw [List.append_cons] at hr
    obtain ⟨u, hthrough, -⟩ := hr.split
    obtain ⟨t, hbefore, hstep⟩ := hthrough.snoc_inv
    have hp : t.phase p = .releasing := by
      by_contra hne
      simp [State.Step, State.next, hne] at hstep
    exact (inv_run hbefore).holder_first p (by simp [hp, Phase.holds])

/-- Process `true` finds the claim of process `false`, opens the file after the rename and reads it in
two pieces. -/
theorem published_text_read : ∃ s : State Bool,
    Run State.Step State.start
      [.create false, .create true, .stage false ['k', '1'], .write false ['k'], .write false ['1'],
        .rename false ['k', '1'], .openRead true, .read true ['k'], .mark false, .close false,
        .read true ['1'], .read true []] s ∧
    s.phase true = .returned ['k', '1'] ∧ s.path = some 1 ∧
    ∃ ino, s.path = some ino ∧ [['k', '1']] = [s.content ino] := by
  have hrun : ∃ s : State Bool,
      Run State.Step State.start
        [.create false, .create true, .stage false ['k', '1'], .write false ['k'], .write false ['1'],
          .rename false ['k', '1'], .openRead true, .read true ['k'], .mark false, .close false,
          .read true ['1'], .read true []] s ∧
      s.phase true = .returned ['k', '1'] ∧ s.path = some 1 :=
    ⟨_, .cons rfl (.cons rfl (.cons rfl (.cons rfl (.cons rfl (.cons rfl (.cons rfl (.cons rfl (.cons rfl
      (.cons rfl (.cons rfl (.single rfl))))))))))), rfl, rfl⟩
  obtain ⟨s, hr, hread, hpath⟩ := hrun
  exact ⟨s, hr, hread, hpath, (publication_atomic hr).2.2.1 (by decide)⟩

end Remudero.Lock.Publish
