import Remudero.Lock.FileLock

/-! # Mutual exclusion of the file locks

The exclusive create alone would give mutual exclusion; what can break it is a delete that hits
a live process's file.  `reclaimStaleLock` compares inode and bytes before its delete, but the
comparison and the delete are two calls, and a file that is still blank names no holder.  In
those two windows (`Raced`) mutual exclusion fails (`two_live_holders`).

Outside them it holds in every run (`file_lock_exclusive`): the invariant `Inv` says that a live
process's own file is at the path, and that a text judged reclaimable was blank or belongs to an
inode no live process owns.  The delete of `release`, which goes by path alone, is safe under the
same invariant. -/

namespace Remudero.Lock

open Remudero.Lib

namespace LockState

variable {P : Type}

/-- The invariant of the processes. -/
structure Inv (m : Machine P) (s : LockState P) : Prop where
  at_path : ∀ q i, s.Owns q i → s.path = some i
  one_owner : ∀ q q' i, s.Owns q i → s.Owns q' i → q = q'
  path_born : ∀ i, s.path = some i → i < s.nextIno
  held_born : ∀ q i, (s.pc q).held = some i → i < s.nextIno
  read_born : ∀ q i, (s.pc q).readIno = some i → i < s.nextIno
  blank : ∀ q i, s.alive q = true → s.pc q = .writing i → s.files i = .blank
  record : ∀ q i, s.alive q = true → (s.pc q).written = some i → s.files i = m.kind.record (s.info q)
  own_info : ∀ q, s.pc q ≠ .idle → (s.info q).Of m.dateParse (m.process q) m.host
  read_text : ∀ q i raw, (s.pc q).read = some (i, raw) → raw = s.files i ∨ raw = .blank
  cleared : ∀ q i raw, (s.pc q).cleared = some (i, raw) →
    m.kind.parseHolder raw = none ∨ ∀ p, ¬ s.Owns p i

variable {m : Machine P} {s t : LockState P} {p : P}

theorem inv_start (path : Option LockText) (info : P → LockInfo) : Inv m (start path info) where
  at_path := by rintro q i ⟨-, h⟩; simp [start, Pc.held] at h
  one_owner := by rintro q q' i ⟨-, h⟩; simp [start, Pc.held] at h
  path_born := by intro i h; cases path <;> simp [start] at h ⊢; omega
  held_born := by intro q i h; simp [start, Pc.held] at h
  read_born := by intro q i h; simp [start, Pc.readIno] at h
  blank := by intro q i _ h; simp [start] at h
  record := by intro q i _ h; simp [start, Pc.written] at h
  own_info := by intro q h; exact absurd rfl h
  read_text := by intro q i raw h; simp [start, Pc.read] at h
  cleared := by intro q i raw h; simp [start, Pc.cleared] at h

theorem Pc.held_of_written {c : Pc} {i : ℕ} (h : c.written = some i) : c.held = some i := by
  cases c <;> simp_all [Pc.written, Pc.held]

theorem Pc.readIno_of_read {c : Pc} {i : ℕ} {raw : LockText} (h : c.read = some (i, raw)) :
    c.readIno = some i := by
  cases c <;> simp_all [Pc.read, Pc.readIno]

theorem Pc.read_of_cleared {c : Pc} {i : ℕ} {raw : LockText} (h : c.cleared = some (i, raw)) :
    c.read = some (i, raw) := by
  cases c <;> simp_all [Pc.cleared, Pc.read]

variable [DecidableEq P]

@[simp] theorem setPc_self (c : Pc) : (s.setPc p c).pc p = c := by simp [setPc]

theorem setPc_of_ne {q : P} (c : Pc) (h : q ≠ p) : (s.setPc p c).pc q = s.pc q := by
  simp [setPc, h]

theorem setPc_cases {q : P} (c : Pc) :
    (q = p ∧ (s.setPc p c).pc q = c) ∨ (q ≠ p ∧ (s.setPc p c).pc q = s.pc q) := by
  by_cases h : q = p
  · subst h
    exact .inl ⟨rfl, setPc_self c⟩
  · exact .inr ⟨h, setPc_of_ne c h⟩

/-! ### The kinds of step -/

/-- What a process may know when it moves on without touching the files. -/
structure Moves (m : Machine P) (s : LockState P) (p : P) (c : Pc) : Prop where
  info : c ≠ .idle → (s.info p).Of m.dateParse (m.process p) m.host
  held : ∀ i, c.held = some i → (s.pc p).written = some i ∧ c.written = some i
  read : ∀ i, c.readIno = some i → i < s.nextIno
  text : ∀ i raw, c.read = some (i, raw) → raw = s.files i ∨ raw = .blank
  clear : ∀ i raw, c.cleared = some (i, raw) → m.kind.parseHolder raw = none ∨ ∀ q, ¬ s.Owns q i

theorem Inv.owns_setPc {c : Pc} (hm : Moves m s p c) {q : P} {i : ℕ}
    (h : (s.setPc p c).Owns q i) : s.Owns q i := by
  obtain ⟨ha, hh⟩ := h
  rcases setPc_cases (s := s) (p := p) (q := q) c with ⟨rfl, hc⟩ | ⟨-, hc⟩
  · rw [hc] at hh
    exact ⟨ha, Pc.held_of_written (hm.held i hh).1⟩
  · rw [hc] at hh
    exact ⟨ha, hh⟩

theorem Inv.setPc (h : Inv m s) {c : Pc} (hm : Moves m s p c) : Inv m (s.setPc p c) := by
  have hown : ∀ q i, (s.setPc p c).Owns q i → s.Owns q i := fun q i => Inv.owns_setPc hm
  have hpc : ∀ q, (q = p ∧ (s.setPc p c).pc q = c) ∨ (q ≠ p ∧ (s.setPc p c).pc q = s.pc q) :=
    fun q => setPc_cases c
  constructor
  · exact fun q i hq => h.at_path q i (hown q i hq)
  · exact fun q q' i hq hq' => h.one_owner q q' i (hown q i hq) (hown q' i hq')
  · exact h.path_born
  · intro q i hq
    rcases hpc q with ⟨rfl, hc⟩ | ⟨-, hc⟩ <;> rw [hc] at hq
    · exact h.held_born q i (Pc.held_of_written (hm.held i hq).1)
    · exact h.held_born q i hq
  · intro q i hq
    rcases hpc q with ⟨rfl, hc⟩ | ⟨-, hc⟩ <;> rw [hc] at hq
    · exact hm.read i hq
    · exact h.read_born q i hq
  · intro q i ha hq
    rcases hpc q with ⟨rfl, hc⟩ | ⟨-, hc⟩ <;> rw [hc] at hq
    · subst hq
      exact absurd (hm.held i rfl).2 (by simp [Pc.written])
    · exact h.blank q i ha hq
  · intro q i ha hq
    rcases hpc q with ⟨rfl, hc⟩ | ⟨-, hc⟩ <;> rw [hc] at hq
    · exact h.record q i ha (hm.held i (Pc.held_of_written hq)).1
    · exact h.record q i ha hq
  · intro q hq
    rcases hpc q with ⟨rfl, hc⟩ | ⟨-, hc⟩ <;> rw [hc] at hq
    · exact hm.info hq
    · exact h.own_info q hq
  · intro q i raw hq
    rcases hpc q with ⟨rfl, hc⟩ | ⟨-, hc⟩ <;> rw [hc] at hq
    · exact hm.text i raw hq
    · exact h.read_text q i raw hq
  · intro q i raw hq
    rcases hpc q with ⟨rfl, hc⟩ | ⟨-, hc⟩ <;> rw [hc] at hq
    · exact (hm.clear i raw hq).imp_right fun hno p' hp' => hno p' (hown p' i hp')
    · exact (h.cleared q i raw hq).imp_right fun hno p' hp' => hno p' (hown p' i hp')

omit [DecidableEq P] in
/-- The path may be cleared when no live process owns what it names. -/
theorem Inv.unlink (h : Inv m s) (hno : ∀ q i, s.path = some i → ¬ s.Owns q i) :
    Inv m { s with path := none } := by
  have hnone : ∀ q i, ¬ s.Owns q i := fun q i hq => hno q i (h.at_path q i hq) hq
  exact
    { at_path := fun q i hq => absurd hq (hnone q i)
      one_owner := fun q q' i hq hq' => h.one_owner q q' i hq hq'
      path_born := fun i hi => by cases hi
      held_born := h.held_born
      read_born := h.read_born
      blank := h.blank
      record := h.record
      own_info := h.own_info
      read_text := h.read_text
      cleared := fun q i raw hq => h.cleared q i raw hq }

/-- The exclusive create: the new inode is at the path and nobody has read it. -/
theorem Inv.create (h : Inv m s) (hpath : s.path = none) (hp : s.pc p = .opening) :
    Inv m { s.setPc p (.writing s.nextIno) with
      path := some s.nextIno
      files := Function.update s.files s.nextIno .blank
      nextIno := s.nextIno + 1 } := by
  have hnone : ∀ q i, ¬ s.Owns q i := by
    intro q i hq
    have := h.at_path q i hq
    rw [hpath] at this
    cases this
  have hpc : ∀ q, (q = p ∧ (s.setPc p (.writing s.nextIno)).pc q = .writing s.nextIno) ∨
      (q ≠ p ∧ (s.setPc p (.writing s.nextIno)).pc q = s.pc q) := fun q => setPc_cases _
  have hown : ∀ q i, (s.setPc p (.writing s.nextIno)).Owns q i → q = p ∧ i = s.nextIno := by
    rintro q i ⟨ha, hh⟩
    rcases hpc q with ⟨rfl, hc⟩ | ⟨-, hc⟩ <;> rw [hc] at hh
    · exact ⟨rfl, (Option.some.inj hh).symm⟩
    · exact absurd ⟨ha, hh⟩ (hnone q i)
  have hold : ∀ i, i < s.nextIno → Function.update s.files s.nextIno .blank i = s.files i := by
    intro i hi
    rw [Function.update_of_ne (Nat.ne_of_lt hi)]
  constructor
  · intro q i hq
    rw [(hown q i hq).2]
  · intro q q' i hq hq'
    rw [(hown q i hq).1, (hown q' i hq').1]
  · intro i hi
    obtain rfl := Option.some.inj hi
    exact Nat.lt_succ_self _
  · intro q i hq
    rcases hpc q with ⟨rfl, hc⟩ | ⟨-, hc⟩ <;> rw [hc] at hq
    · obtain rfl := Option.some.inj hq
      exact Nat.lt_succ_self _
    · exact Nat.lt_succ_of_lt (h.held_born q i hq)
  · intro q i hq
    rcases hpc q with ⟨rfl, hc⟩ | ⟨-, hc⟩ <;> rw [hc] at hq
    · cases hq
    · exact Nat.lt_succ_of_lt (h.read_born q i hq)
  · intro q i ha hq
    rcases hpc q with ⟨rfl, hc⟩ | ⟨-, hc⟩ <;> rw [hc] at hq
    · obtain rfl := Pc.writing.inj hq
      exact Function.update_self ..
    · exact absurd ⟨ha, by rw [hq]; rfl⟩ (hnone q i)
  · intro q i ha hq
    rcases hpc q with ⟨rfl, hc⟩ | ⟨-, hc⟩ <;> rw [hc] at hq
    · cases hq
    · exact absurd ⟨ha, Pc.held_of_written hq⟩ (hnone q i)
  · intro q hq
    rcases hpc q with ⟨rfl, hc⟩ | ⟨-, hc⟩ <;> rw [hc] at hq
    · exact h.own_info q (by rw [hp]; simp)
    · exact h.own_info q hq
  · intro q i raw hq
    rcases hpc q with ⟨rfl, hc⟩ | ⟨-, hc⟩ <;> rw [hc] at hq
    · cases hq
    · have hi := hold i (h.read_born q i (Pc.readIno_of_read hq))
      exact (h.read_text q i raw hq).imp_left fun hraw => hraw.trans hi.symm
  · intro q i raw hq
    rcases hpc q with ⟨rfl, hc⟩ | ⟨-, hc⟩ <;> rw [hc] at hq
    · cases hq
    · right
      intro q' hq'
      have hi := h.read_born q i (Pc.readIno_of_read (Pc.read_of_cleared hq))
      exact absurd (hown q' i hq').2 (Nat.ne_of_lt hi)

/-- The write of the record: whoever read the file before found it blank. -/
theorem Inv.write (h : Inv m s) {i : ℕ} (ha : s.alive p = true) (hp : s.pc p = .writing i) :
    Inv m { s.setPc p (.holding i) with
      files := Function.update s.files i (m.kind.record (s.info p)) } := by
  have hpi : s.Owns p i := ⟨ha, by rw [hp]; rfl⟩
  have hpc : ∀ q, (q = p ∧ (s.setPc p (.holding i)).pc q = .holding i) ∨
      (q ≠ p ∧ (s.setPc p (.holding i)).pc q = s.pc q) := fun q => setPc_cases _
  have hown : ∀ q j, (s.setPc p (.holding i)).Owns q j → s.Owns q j := by
    rintro q j ⟨hq, hh⟩
    rcases hpc q with ⟨rfl, hc⟩ | ⟨-, hc⟩ <;> rw [hc] at hh
    · obtain rfl := Option.some.inj hh
      exact hpi
    · exact ⟨hq, hh⟩
  have hother : ∀ q j, q ≠ p → s.Owns q j →
      Function.update s.files i (m.kind.record (s.info p)) j = s.files j := by
    intro q j hne hq
    apply Function.update_of_ne
    rintro rfl
    exact hne (h.one_owner q p j hq hpi)
  constructor
  · exact fun q j hq => h.at_path q j (hown q j hq)
  · exact fun q q' j hq hq' => h.one_owner q q' j (hown q j hq) (hown q' j hq')
  · exact h.path_born
  · intro q j hq
    rcases hpc q with ⟨rfl, hc⟩ | ⟨-, hc⟩ <;> rw [hc] at hq
    · obtain rfl := Option.some.inj hq
      exact h.held_born q i (by rw [hp]; rfl)
    · exact h.held_born q j hq
  · intro q j hq
    rcases hpc q with ⟨rfl, hc⟩ | ⟨-, hc⟩ <;> rw [hc] at hq
    · cases hq
    · exact h.read_born q j hq
  · intro q j hq hj
    rcases hpc q with ⟨rfl, hc⟩ | ⟨hne, hc⟩ <;> rw [hc] at hj
    · cases hj
    · have := h.blank q j hq hj
      rw [← this]
      exact hother q j hne ⟨hq, by rw [hj]; rfl⟩
  · intro q j hq hj
    rcases hpc q with ⟨rfl, hc⟩ | ⟨hne, hc⟩ <;> rw [hc] at hj
    · obtain rfl := Option.some.inj hj
      exact Function.update_self ..
    · have := h.record q j hq hj
      refine (hother q j hne ⟨hq, Pc.held_of_written hj⟩).trans this
  · intro q hq
    rcases hpc q with ⟨rfl, hc⟩ | ⟨-, hc⟩ <;> rw [hc] at hq
    · exact h.own_info q (by rw [hp]; simp)
    · exact h.own_info q hq
  · intro q j raw hq
    rcases hpc q with ⟨rfl, hc⟩ | ⟨-, hc⟩ <;> rw [hc] at hq
    · cases hq
    · rcases h.read_text q j raw hq with hraw | hraw
      · by_cases hj : j = i
        · subst hj
          right
          rw [hraw, h.blank p j ha hp]
        · left
          rw [hraw]
          exact (Function.update_of_ne hj ..).symm
      · exact .inr hraw
  · intro q j raw hq
    rcases hpc q with ⟨rfl, hc⟩ | ⟨-, hc⟩ <;> rw [hc] at hq
    · cases hq
    · exact (h.cleared q j raw hq).imp_right fun hno q' hq' => hno q' (hown q' j hq')

/-- A process that dies leaves its file behind, owned by nobody. -/
theorem Inv.crash (h : Inv m s) : Inv m { s with alive := Function.update s.alive p false } := by
  have halive : ∀ q, Function.update s.alive p false q = true → s.alive q = true := by
    intro q hq
    by_cases hqp : q = p
    · subst hqp
      simp at hq
    · rwa [Function.update_of_ne hqp] at hq
  exact
    { at_path := fun q i hq => h.at_path q i ⟨halive q hq.1, hq.2⟩
      one_owner := fun q q' i hq hq' =>
        h.one_owner q q' i ⟨halive q hq.1, hq.2⟩ ⟨halive q' hq'.1, hq'.2⟩
      path_born := h.path_born
      held_born := h.held_born
      read_born := h.read_born
      blank := fun q i hq => h.blank q i (halive q hq)
      record := fun q i hq => h.record q i (halive q hq)
      own_info := h.own_info
      read_text := h.read_text
      cleared := fun q i raw hq =>
        (h.cleared q i raw hq).imp_right fun hno q' hq' => hno q' ⟨halive q' hq'.1, hq'.2⟩ }

/-- An idle process takes up a new attempt with its own record. -/
theorem Inv.reset (h : Inv m s) (hp : s.pc p = .idle) (info : LockInfo) (reclaim : Bool) :
    Inv m { s with
      info := Function.update s.info p info
      reclaim := Function.update s.reclaim p reclaim } := by
  have hinfo : ∀ q, s.pc q ≠ .idle → Function.update s.info p info q = s.info q := by
    intro q hq
    apply Function.update_of_ne
    rintro rfl
    exact hq hp
  refine { h with record := ?_, own_info := ?_ }
  · intro q i ha hq
    have hne : s.pc q ≠ .idle := by
      intro hidle
      rw [hidle] at hq
      cases hq
    refine (h.record q i ha hq).trans ?_
    exact congrArg _ (hinfo q hne).symm
  · intro q hq
    show LockInfo.Of _ (Function.update s.info p info q) _ _
    rw [hinfo q hq]
    exact h.own_info q hq

/-! ### Every step keeps the invariant -/

omit [DecidableEq P] in
/-- A process that goes on without a file of its own or a text it has judged. -/
theorem Moves.plain {c : Pc} (hinfo : c ≠ .idle → s.pc p ≠ .idle) (h : Inv m s) (hheld : c.held = none)
    (hread : c.readIno = none) : Moves m s p c where
  info := fun hc => h.own_info p (hinfo hc)
  held := by intro i hi; rw [hheld] at hi; cases hi
  read := by intro i hi; rw [hread] at hi; cases hi
  text := by intro i raw hi; rw [Pc.readIno_of_read hi] at hread; cases hread
  clear := by intro i raw hi; rw [Pc.readIno_of_read (Pc.read_of_cleared hi)] at hread; cases hread

omit [DecidableEq P] in
/-- A process that keeps the text it judged reclaimable. -/
theorem Moves.keep {c : Pc} {i : ℕ} {raw : LockText} (h : Inv m s) (hp : (s.pc p).cleared = some (i, raw))
    (hheld : c.held = none) (hc : c.cleared = some (i, raw)) : Moves m s p c where
  info := fun _ => h.own_info p (by intro hidle; rw [hidle] at hp; cases hp)
  held := by intro j hj; rw [hheld] at hj; cases hj
  read := by
    intro j hj
    rw [Pc.readIno_of_read (Pc.read_of_cleared hc)] at hj
    obtain rfl := Option.some.inj hj
    exact h.read_born p i (Pc.readIno_of_read (Pc.read_of_cleared hp))
  text := by
    intro j raw' hj
    rw [Pc.read_of_cleared hc] at hj
    obtain ⟨rfl, rfl⟩ := Prod.mk.inj (Option.some.inj hj)
    exact h.read_text p i raw (Pc.read_of_cleared hp)
  clear := by
    intro j raw' hj
    rw [hc] at hj
    obtain ⟨rfl, rfl⟩ := Prod.mk.inj (Option.some.inj hj)
    exact h.cleared p i raw hp

theorem inv_syscall (h : Inv m s) (ha : s.alive p = true) (hstep : s.syscall m p = some t)
    (hrace : ¬ Raced m s (.syscall p)) : Inv m t := by
  unfold LockState.syscall at hstep
  split at hstep
  next hp =>
    have hne : s.pc p ≠ .idle := by rw [hp]; simp
    split at hstep
    next hpath =>
      obtain rfl := Option.some.inj hstep
      exact h.create hpath hp
    next =>
      obtain rfl := Option.some.inj hstep
      cases s.reclaim p with
      | true => exact h.setPc (Moves.plain (fun _ => hne) h rfl rfl)
      | false => exact h.setPc (Moves.plain (fun _ => hne) h rfl rfl)
  next i hp =>
    obtain rfl := Option.some.inj hstep
    exact h.write ha hp
  next hp =>
    have hne : s.pc p ≠ .idle := by rw [hp]; simp
    split at hstep
    next hpath =>
      obtain rfl := Option.some.inj hstep
      exact h.setPc (Moves.plain (fun _ => hne) h rfl rfl)
    next i hpath =>
      obtain rfl := Option.some.inj hstep
      refine h.setPc ⟨fun _ => h.own_info p hne, ?_, ?_, ?_, ?_⟩
      · intro j hj; cases hj
      · intro j hj
        obtain rfl := Option.some.inj hj
        exact h.path_born i hpath
      · intro j raw hj; cases hj
      · intro j raw hj; cases hj
  next i hp =>
    have hne : s.pc p ≠ .idle := by rw [hp]; simp
    obtain rfl := Option.some.inj hstep
    refine h.setPc ⟨fun _ => h.own_info p hne, ?_, ?_, ?_, ?_⟩
    · intro j hj; cases hj
    · intro j hj
      obtain rfl := Option.some.inj hj
      exact h.read_born p i (by rw [hp]; rfl)
    · intro j raw hj
      obtain ⟨rfl, rfl⟩ := Prod.mk.inj (Option.some.inj hj)
      exact .inl rfl
    · intro j raw hj; cases hj
  next i raw hp =>
    have hne : s.pc p ≠ .idle := by rw [hp]; simp
    split at hstep
    · obtain rfl := Option.some.inj hstep
      exact h.setPc (Moves.plain (fun _ => hne) h rfl rfl)
    · obtain rfl := Option.some.inj hstep
      exact h.setPc (Moves.keep h (by rw [hp]; rfl) rfl rfl)
  next i raw j hp =>
    have hne : s.pc p ≠ .idle := by rw [hp]; simp
    split at hstep
    · obtain rfl := Option.some.inj hstep
      exact h.setPc (Moves.plain (fun _ => hne) h rfl rfl)
    · obtain rfl := Option.some.inj hstep
      exact h.setPc (Moves.keep h (by rw [hp]; rfl) rfl rfl)
  next i raw j k hp =>
    have hne : s.pc p ≠ .idle := by rw [hp]; simp
    split at hstep
    · obtain rfl := Option.some.inj hstep
      exact h.setPc (Moves.plain (fun _ => hne) h rfl rfl)
    · obtain rfl := Option.some.inj hstep
      exact h.setPc (Moves.keep h (by rw [hp]; rfl) rfl rfl)
  next i raw hp =>
    have hne : s.pc p ≠ .idle := by rw [hp]; simp
    obtain rfl := Option.some.inj hstep
    have hinv := h.setPc (Moves.plain (p := p) (c := .opening) (fun _ => hne) h rfl rfl)
    refine hinv.unlink fun q j hj hq => ?_
    have hown : s.Owns q j := Inv.owns_setPc (Moves.plain (fun _ => hne) h rfl rfl) hq
    by_cases hji : j = i
    · subst hji
      rcases h.cleared p j raw (by rw [hp]; rfl) with hraw | hno
      · exact hrace ⟨j, raw, hp, .inr ⟨hraw, q, hown⟩⟩
      · exact hno q hown
    · exact hrace ⟨i, raw, hp, .inl ⟨q, j, hj, hji, hown⟩⟩
  next i hp =>
    have hne : s.pc p ≠ .idle := by rw [hp]; simp
    obtain rfl := Option.some.inj hstep
    have hmoves : Moves m s p .idle := Moves.plain (fun _ => hne) h rfl rfl
    -- the path names `p`'s own file, which has no owner but `p`
    refine (h.setPc hmoves).unlink fun q j hj hq => ?_
    have hown : s.Owns q j := Inv.owns_setPc hmoves hq
    have hpi : s.Owns p i := ⟨ha, by rw [hp]; rfl⟩
    have hij : i = j := by
      have h1 := h.at_path p i hpi
      have h2 := h.at_path q j hown
      rw [h1] at h2
      exact Option.some.inj h2
    subst hij
    obtain rfl := h.one_owner q p i hown hpi
    obtain ⟨-, hheld⟩ := hq
    rw [setPc_self] at hheld
    cases hheld
  · cases hstep

theorem inv_judge (h : Inv m s) {probes : Probes} {i : ℕ} {raw : LockText} (hp : s.pc p = .judging i raw)
    (henv : Environment m s (.judge p probes))
    (hall : ∀ held, m.kind.parseHolder raw = some held → isHolderStale m.dateParse held probes = true) :
    Inv m (s.setPc p (.stating i raw)) := by
  have hread : (s.pc p).read = some (i, raw) := by rw [hp]; rfl
  refine h.setPc ⟨fun _ => h.own_info p (by rw [hp]; simp), ?_, ?_, ?_, ?_⟩
  · intro j hj; cases hj
  · intro j hj
    obtain rfl := Option.some.inj hj
    exact h.read_born p i (Pc.readIno_of_read hread)
  · intro j raw' hj
    obtain ⟨rfl, rfl⟩ := Prod.mk.inj (Option.some.inj hj)
    exact h.read_text p i raw hread
  · intro j raw' hj
    obtain ⟨rfl, rfl⟩ := Prod.mk.inj (Option.some.inj hj)
    cases hholder : m.kind.parseHolder raw with
    | none => exact .inl rfl
    | some holder =>
        right
        rintro q ⟨hqa, hqh⟩
        have htext : raw = s.files i := by
          refine (h.read_text p i raw hread).resolve_right fun hblank => ?_
          rw [hblank, LockKind.parseHolder_blank] at hholder
          cases hholder
        -- a live owner either has not written yet, or its record is the text that was judged
        have hnotblank : s.files i ≠ .blank := by
          intro hb
          rw [htext, hb, LockKind.parseHolder_blank] at hholder
          cases hholder
        have hwritten : (s.pc q).written = some i := by
          cases hpc : s.pc q with
          | writing j =>
              rw [hpc] at hqh
              obtain rfl := Option.some.inj hqh
              exact absurd (h.blank q _ hqa hpc) hnotblank
          | holding j => rw [hpc] at hqh; exact hqh
          | releasing j => rw [hpc] at hqh; exact hqh
          | _ => rw [hpc] at hqh; cases hqh
        have hne : s.pc q ≠ .idle := by
          intro hidle
          rw [hidle] at hqh
          cases hqh
        have hrec := h.record q i hqa hwritten
        rw [htext, hrec, LockKind.parseHolder_record] at hholder
        obtain rfl := Option.some.inj hholder
        have hinfo := h.own_info q hne
        rw [← henv.1] at hinfo
        have hlive := isHolderStale_of_running hinfo (henv.2 q hqa)
        have hstale := hall ⟨_, _, _⟩ (by rw [htext, hrec, LockKind.parseHolder_record])
        rw [hlive] at hstale
        cases hstale

/-- Every event outside the two windows keeps the invariant. -/
theorem inv_step {e : LockEvent P} (h : Inv m s) (hstep : Step m s e t) (hrace : ¬ Raced m s e) :
    Inv m t := by
  obtain ⟨hnext, henv⟩ := hstep
  unfold next at hnext
  cases e with
  | acquire p info reclaim =>
      simp only at hnext
      split at hnext
      next hp =>
        obtain rfl := Option.some.inj hnext
        have hinv := h.reset hp.2 info reclaim
        refine hinv.setPc (p := p) (c := .opening) ⟨fun _ => ?_, ?_, ?_, ?_, ?_⟩
        · show LockInfo.Of _ (Function.update s.info p info p) _ _
          rw [Function.update_self]
          exact henv
        · intro j hj; cases hj
        · intro j hj; cases hj
        · intro j raw hj; cases hj
        · intro j raw hj; cases hj
      · cases hnext
  | syscall p =>
      simp only at hnext
      split at hnext
      next ha => exact inv_syscall h ha hnext hrace
      · cases hnext
  | judge p probes =>
      simp only at hnext
      split at hnext
      next ha =>
        split at hnext
        next i raw hp =>
          split at hnext
          next held hheld =>
            split at hnext
            next hstale =>
              obtain rfl := Option.some.inj hnext
              refine inv_judge h hp henv fun held' hh => ?_
              rw [hheld] at hh
              obtain rfl := Option.some.inj hh
              exact hstale
            next =>
              obtain rfl := Option.some.inj hnext
              exact h.setPc (Moves.plain (fun hc => absurd rfl hc) h rfl rfl)
          next hnone =>
            obtain rfl := Option.some.inj hnext
            refine inv_judge h hp henv fun held' hh => ?_
            rw [hnone] at hh
            cases hh
        · cases hnext
      · cases hnext
  | release p =>
      simp only at hnext
      split at hnext
      next ha =>
        split at hnext
        next i hp =>
          obtain rfl := Option.some.inj hnext
          refine h.setPc ⟨fun _ => h.own_info p (by rw [hp]; simp), ?_, ?_, ?_, ?_⟩
          · intro j hj
            rw [hp]
            exact ⟨hj, hj⟩
          · intro j hj; cases hj
          · intro j raw hj; cases hj
          · intro j raw hj; cases hj
        · cases hnext
      · cases hnext
  | crash p =>
      simp only at hnext
      split at hnext
      · obtain rfl := Option.some.inj hnext
        exact h.crash
      · cases hnext

theorem inv_run {path : Option LockText} {info : P → LockInfo} {es : List (LockEvent P)}
    (hr : Run (Guarded (Step m) fun s e => ¬ Raced m s e) (start path info) es s) : Inv m s :=
  hr.invariant (I := Inv m) (fun _ _ _ h hs => inv_step h hs.1 hs.2) (inv_start path info)

/-- **Mutual exclusion.**  In every run without a raced delete, at most one live process holds an
unreleased handle. -/
theorem file_lock_exclusive {path : Option LockText} {info : P → LockInfo} {es : List (LockEvent P)}
    {p q : P} (hr : Run (Guarded (Step m) fun s e => ¬ Raced m s e) (start path info) es s)
    (hp : s.Holds p) (hq : s.Holds q) : p = q := by
  have h := inv_run hr
  obtain ⟨hpa, i, hpi⟩ := hp
  obtain ⟨hqa, j, hqj⟩ := hq
  have howns : s.Owns p i := ⟨hpa, by rw [hpi]; rfl⟩
  have hownsq : s.Owns q j := ⟨hqa, by rw [hqj]; rfl⟩
  have hij : i = j := by
    have h1 := h.at_path p i howns
    rw [h.at_path q j hownsq] at h1
    exact (Option.some.inj h1).symm
  subst hij
  exact h.one_owner p q i howns hownsq

/-! ### Two processes -/

/-- Processes `false` and `true` of one host. -/
def twoProcesses (kind : LockKind) : Machine Bool where
  kind := kind
  host := ['h']
  process := fun p => ⟨if p then 11 else 10, 0, 0, le_refl _⟩
  dateParse := fun _ => none

/-- The record a process writes. -/
def ownInfo (p : Bool) : LockInfo := ⟨if p then 11 else 10, ['r'], ['h'], []⟩

/-- Every pid is alive and no start time is known. -/
def allAlive : Probes := ⟨fun _ => true, fun _ => none, ['h'], false⟩

theorem ownInfo_of (kind : LockKind) (p : Bool) :
    (ownInfo p).Of (twoProcesses kind).dateParse ((twoProcesses kind).process p) (twoProcesses kind).host where
  pid := rfl
  host := rfl
  startedAt := by intro t ht; cases ht

theorem allAlive_environment (kind : LockKind) (s : LockState Bool) (p : Bool) :
    Environment (twoProcesses kind) s (.judge p allAlive) := by
  refine ⟨rfl, fun q _ => ⟨rfl, ?_, ?_⟩⟩
  · intro t ht; cases ht
  · intro t ht; cases ht

/-- Process `false` clears a file that names no holder and takes the lock. -/
theorem exclusive_after_reclaim : ∃ s : LockState Bool,
    Run (Guarded (Step (twoProcesses .inflight)) fun s e => ¬ Raced (twoProcesses .inflight) s e)
      (start (some (.garbage ['x'])) ownInfo)
      [.acquire false (ownInfo false) true, .syscall false, .syscall false, .syscall false,
        .judge false allAlive, .syscall false, .syscall false, .syscall false,
        .syscall false, .syscall false, .syscall false] s ∧
    s.Holds false ∧ ∀ q, s.Holds q → false = q := by
  have hrun : ∃ s : LockState Bool,
      Run (Guarded (Step (twoProcesses .inflight)) fun s e => ¬ Raced (twoProcesses .inflight) s e)
        (start (some (.garbage ['x'])) ownInfo)
        [.acquire false (ownInfo false) true, .syscall false, .syscall false, .syscall false,
          .judge false allAlive, .syscall false, .syscall false, .syscall false,
          .syscall false, .syscall false, .syscall false] s ∧ s.Holds false := by
    have hi := ownInfo_of .inflight false
    have hj := fun s => allAlive_environment .inflight s false
    refine ⟨_, .cons ⟨⟨rfl, hi⟩, id⟩ (.cons ⟨⟨rfl, trivial⟩, ?_⟩ (.cons ⟨⟨rfl, trivial⟩, ?_⟩
      (.cons ⟨⟨rfl, trivial⟩, ?_⟩ (.cons ⟨⟨rfl, hj _⟩, id⟩ (.cons ⟨⟨rfl, trivial⟩, ?_⟩
      (.cons ⟨⟨rfl, trivial⟩, ?_⟩ (.cons ⟨⟨rfl, trivial⟩, ?_⟩ (.cons ⟨⟨rfl, trivial⟩, ?_⟩
      (.cons ⟨⟨rfl, trivial⟩, ?_⟩ (.single ⟨⟨rfl, trivial⟩, ?_⟩)))))))))), rfl, 1, rfl⟩
    -- at the delete nobody owns a file; everywhere else there is no delete
    all_goals
      rintro ⟨i, raw, hpc, ⟨q, j, -, -, -, hq⟩ | ⟨-, q, -, hq⟩⟩ <;>
      first
        | (cases hpc; done)
        | (cases q <;> cases hq)
  obtain ⟨s, hr, hs⟩ := hrun
  exact ⟨s, hr, hs, fun q hq => file_lock_exclusive hr hs hq⟩

/-- Process `true` reads the lock while process `false` has created but not written it, judges it
reclaimable, and deletes it after the record was written: both hold the lock. -/
theorem both_hold (kind : LockKind) : ∃ s : LockState Bool,
    Run (Step (twoProcesses kind)) (start none ownInfo)
      [.acquire false (ownInfo false) true, .syscall false,
        .acquire true (ownInfo true) true, .syscall true, .syscall true, .syscall true, .judge true allAlive,
        .syscall true, .syscall true, .syscall true,
        .syscall false, .syscall true, .syscall true, .syscall true] s ∧
    s.Holds false ∧ s.Holds true := by
  have hi := ownInfo_of kind
  have hj := fun s => allAlive_environment kind s true
  cases kind <;>
  · refine ⟨_, .cons ⟨rfl, hi _⟩ (.cons ⟨rfl, trivial⟩ (.cons ⟨rfl, hi _⟩ (.cons ⟨rfl, trivial⟩
      (.cons ⟨rfl, trivial⟩ (.cons ⟨rfl, trivial⟩ (.cons ⟨rfl, hj _⟩ (.cons ⟨rfl, trivial⟩
      (.cons ⟨rfl, trivial⟩ (.cons ⟨rfl, trivial⟩ (.cons ⟨rfl, trivial⟩ (.cons ⟨rfl, trivial⟩
      (.cons ⟨rfl, trivial⟩ (.single ⟨rfl, trivial⟩))))))))))))), ?_, ?_⟩
    · exact ⟨rfl, 1, rfl⟩
    · exact ⟨rfl, 2, rfl⟩

/-- Neither lock excludes a second live holder. -/
theorem two_live_holders :
    (∃ es, ∃ s : LockState Bool, Run (Step (twoProcesses .inflight)) (start none ownInfo) es s ∧
      s.Holds false ∧ s.Holds true) ∧
    ∃ es, ∃ s : LockState Bool, Run (Step (twoProcesses .drain)) (start none ownInfo) es s ∧
      s.Holds false ∧ s.Holds true :=
  ⟨⟨_, both_hold .inflight⟩, ⟨_, both_hold .drain⟩⟩

end LockState

end Remudero.Lock
