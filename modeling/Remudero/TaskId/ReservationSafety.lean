import Remudero.TaskId.Reservation

/-! # When reservations collide

`reclaim` reads the holder's message through `FETCH_HEAD` and later commits on `FETCH_HEAD` again.
Another reserver of the same clone can fetch in between, and the child commit is then a descendant
of a holder nobody judged: its push displaces a reservation made a moment ago
(`fresh_holder_displaced`).

When `FETCH_HEAD` still names the judged commit at every child commit (`HeadUnmoved`), a
reservation is displaced only by a reserver that read and judged that very commit
(`reservations_collide_only_by_takeover`).  The proof follows the lineage of each ref: the
commits that were ever at a ref are the ancestors of its tip, the lineages of two ids are disjoint,
and a plain push accepts the child of a judged commit only while that commit is the tip. -/

namespace Remudero.TaskId

open Remudero.Lib

namespace ReserveState

variable {Sha : Type} [DecidableEq Sha] (decode : Text → Option Text) (number : Text → Option ℤ)
  (dateParse : Text → Option ℤ) (message : Sha → Text)

/-- `x` is in the lineage of the ref of `n`. -/
def LandedAt (s : ReserveState Sha) (n : ℕ) (x : Sha) : Prop :=
  ∃ w, s.remote n = some w ∧ s.commits.isAncestor x w = true

/-- No ref has carried `c`. -/
def Unlanded (s : ReserveState Sha) (c : Sha) : Prop := c ∈ s.commits ∧ ∀ n, ¬ s.LandedAt n c

/-- The commits a reserver may still push. -/
def pendingOf (r : Reserver Sha) : List Sha :=
  match r.pc with
  | .won _ => []
  | .failed => []
  | .pushing _ _ child => [r.anchor, child]
  | _ => [r.anchor]

/-- What a reserver knows at the command it is about to issue. -/
def PcOk (s : ReserveState Sha) (pc : ReservePc Sha) : Prop :=
  match pc with
  | .logging n => s.remote n ≠ none
  | .probing n read => s.remote n ≠ none ∧ ∃ m, s.LandedAt m read
  | .committing n j =>
      s.remote n ≠ none ∧ (∃ m, s.LandedAt m j.commit) ∧ Reclaimable decode number dateParse message j
  | .pushing n j child =>
      s.remote n ≠ none ∧ (∃ m, s.LandedAt m j.commit) ∧ Reclaimable decode number dateParse message j ∧
        ∀ a, s.commits.isAncestor a child = true ↔ a = child ∨ s.commits.isAncestor a j.commit = true
  | _ => True

/-- A win displaced nobody, or the holder that was judged. -/
def WinOk (w : Win Sha) : Prop :=
  w.displaced = none ∨
    ∃ j, w.judged = some j ∧ w.displaced = some j.commit ∧ Reclaimable decode number dateParse message j

/-- The invariant of the reservers while `FETCH_HEAD` stays put. -/
structure Inv (s : ReserveState Sha) : Prop where
  tips : ∀ n w, s.remote n = some w → w ∈ s.commits
  heads : ∀ k x, s.fetchHead k = some x → ∃ m, s.LandedAt m x
  disjoint : ∀ x m n, s.LandedAt m x → s.LandedAt n x → m = n
  anchors : ∀ (i : ℕ) (r : Reserver Sha), s.reservers[i]? = some r →
    r.anchor ∈ s.commits ∧ ∀ a, s.commits.isAncestor a r.anchor = true → a = r.anchor
  unlanded : ∀ (i : ℕ) (r : Reserver Sha), s.reservers[i]? = some r → ∀ c ∈ pendingOf r, s.Unlanded c
  one_pusher : ∀ (i j : ℕ) (r q : Reserver Sha), s.reservers[i]? = some r → s.reservers[j]? = some q →
    ∀ c ∈ pendingOf r, c ∈ pendingOf q → i = j
  pcs : ∀ (i : ℕ) (r : Reserver Sha), s.reservers[i]? = some r → PcOk decode number dateParse message s r.pc
  wins_ok : ∀ w ∈ s.wins, WinOk decode number dateParse message w ∧ s.remote w.id ≠ none
  later : s.wins.Pairwise fun w w' => w.id = w'.id → w.displaced ≠ none

theorem inv_init : Inv decode number dateParse message (init : ReserveState Sha) where
  tips := by intro n w h; simp [init] at h
  heads := by intro k x h; simp [init] at h
  disjoint := by rintro x m n ⟨w, h, -⟩; simp [init] at h
  anchors := by intro i r h; simp [init] at h
  unlanded := by intro i r h; simp [init] at h
  one_pusher := by intro i j r q h; simp [init] at h
  pcs := by intro i r h; simp [init] at h
  wins_ok := by intro w h; simp [init] at h
  later := by simp [init]

variable {decode number dateParse message} {s t : ReserveState Sha} {i : ℕ} {r : Reserver Sha}

omit [DecidableEq Sha] in
/-- Reservers of the state after reserver `i` moved. -/
theorem setPc_reserver {pc : ReservePc Sha} {j : ℕ} {q : Reserver Sha} (hi : s.reservers[i]? = some r)
    (h : (s.setPc i r pc).reservers[j]? = some q) :
    (j = i ∧ q = { r with pc := pc }) ∨ (j ≠ i ∧ s.reservers[j]? = some q) := by
  have hlt : i < s.reservers.length := (List.getElem?_eq_some_iff.mp hi).1
  by_cases hji : j = i
  · subst hji
    left
    refine ⟨rfl, ?_⟩
    simpa [setPc, hlt] using h.symm
  · right
    refine ⟨hji, ?_⟩
    simpa [setPc, List.getElem?_set_ne (Ne.symm hji)] using h

/-- A reserver moves; it may take up commits that no ref and no other reserver has. -/
theorem Inv.setPc (h : Inv decode number dateParse message s) (hi : s.reservers[i]? = some r)
    {pc : ReservePc Sha} (hpc : PcOk decode number dateParse message s pc)
    (hpending : ∀ c ∈ pendingOf { r with pc := pc }, c ∈ pendingOf r ∨
      (s.Unlanded c ∧ ∀ (j : ℕ) (q : Reserver Sha), s.reservers[j]? = some q → c ∉ pendingOf q)) :
    Inv decode number dateParse message (s.setPc i r pc) where
  tips := h.tips
  heads := h.heads
  disjoint := h.disjoint
  anchors := by
    intro j q hj
    rcases setPc_reserver hi hj with ⟨-, rfl⟩ | ⟨-, hj'⟩
    · exact h.anchors i r hi
    · exact h.anchors j q hj'
  unlanded := by
    intro j q hj c hc
    rcases setPc_reserver hi hj with ⟨-, rfl⟩ | ⟨-, hj'⟩
    · rcases hpending c hc with hold | ⟨hnew, -⟩
      · exact h.unlanded i r hi c hold
      · exact hnew
    · exact h.unlanded j q hj' c hc
  one_pusher := by
    intro j k q p hj hk c hq hp
    rcases setPc_reserver hi hj with ⟨rfl, rfl⟩ | ⟨-, hj'⟩ <;>
      rcases setPc_reserver hi hk with ⟨rfl, rfl⟩ | ⟨-, hk'⟩
    · rfl
    · rcases hpending c hq with hold | ⟨-, hnew⟩
      · exact h.one_pusher _ _ r p hi hk' c hold hp
      · exact absurd hp (hnew k p hk')
    · rcases hpending c hp with hold | ⟨-, hnew⟩
      · exact h.one_pusher _ _ q r hj' hi c hq hold
      · exact absurd hq (hnew j q hj')
    · exact h.one_pusher j k q p hj' hk' c hq hp
  pcs := by
    intro j q hj
    rcases setPc_reserver hi hj with ⟨-, rfl⟩ | ⟨-, hj'⟩
    · exact hpc
    · exact h.pcs j q hj'
  wins_ok := h.wins_ok
  later := h.later

/-- A reserver moves on without a new commit. -/
theorem Inv.goto (h : Inv decode number dateParse message s) (hi : s.reservers[i]? = some r)
    {pc : ReservePc Sha} (hpc : PcOk decode number dateParse message s pc)
    (hpending : ∀ c ∈ pendingOf { r with pc := pc }, c ∈ pendingOf r) :
    Inv decode number dateParse message (s.setPc i r pc) :=
  h.setPc hi hpc fun c hc => .inl (hpending c hc)

omit [DecidableEq Sha] in
theorem mem_pendingOf_advance {n : ℕ} {c : Sha} (hr : r.anchor ∈ pendingOf r)
    (h : c ∈ pendingOf { r with pc := advance r n }) : c ∈ pendingOf r := by
  unfold advance at h
  split at h
  · obtain rfl := List.mem_singleton.mp h
    exact hr
  · cases h

theorem pcOk_advance {n : ℕ} : PcOk decode number dateParse message s (advance r n) := by
  unfold advance
  split <;> trivial

/-- A fetch leaves `FETCH_HEAD` at a tip. -/
theorem Inv.fetch (h : Inv decode number dateParse message s) {n k : ℕ} {v : Sha} (hv : s.remote n = some v) :
    Inv decode number dateParse message { s with fetchHead := Function.update s.fetchHead k (some v) } where
  tips := h.tips
  heads := by
    intro k' x hx
    by_cases hk : k' = k
    · subst hk
      have hxv : v = x := by simpa using hx
      subst hxv
      exact ⟨n, v, hv, Commits.isAncestor_refl (h.tips n v hv)⟩
    · exact h.heads k' x (by simpa [hk] using hx)
  disjoint := h.disjoint
  anchors := h.anchors
  unlanded := h.unlanded
  one_pusher := h.one_pusher
  pcs := h.pcs
  wins_ok := h.wins_ok
  later := h.later

/-! ### A new commit -/

section commit

variable {c : Sha} {p : Option Sha} {commits : Commits Sha}

theorem ne_of_commit (hc : s.commits.commit c p = some commits) {x : Sha} (hx : x ∈ s.commits) : x ≠ c := by
  rintro rfl
  exact (Commits.commit_eq hc).1 hx

/-- A new commit changes no lineage. -/
theorem Inv.landedAt_commit (h : Inv decode number dateParse message s)
    (hc : s.commits.commit c p = some commits) (n : ℕ) (x : Sha) :
    LandedAt { s with commits := commits } n x ↔ s.LandedAt n x := by
  have tip : ∀ w, s.remote n = some w → w ≠ c := fun w hw => ne_of_commit hc (h.tips n w hw)
  constructor
  · rintro ⟨w, hw, ha⟩
    refine ⟨w, hw, ?_⟩
    rw [← Commits.isAncestor_commit_old hc (tip w hw)]
    exact ha
  · rintro ⟨w, hw, ha⟩
    refine ⟨w, hw, ?_⟩
    show commits.isAncestor x w = true
    rw [Commits.isAncestor_commit_old hc (tip w hw)]
    exact ha

theorem Inv.unlanded_commit (h : Inv decode number dateParse message s)
    (hc : s.commits.commit c p = some commits) {x : Sha} (hx : s.Unlanded x) :
    Unlanded { s with commits := commits } x := by
  refine ⟨(Commits.mem_commit hc).mpr (.inr hx.1), fun n hn => ?_⟩
  exact hx.2 n ((h.landedAt_commit hc n x).mp hn)

/-- A commit just made is at no ref, and no reserver but its maker knows it. -/
theorem Inv.new_commit (h : Inv decode number dateParse message s)
    (hc : s.commits.commit c p = some commits) :
    Unlanded { s with commits := commits } c ∧
      ∀ (j : ℕ) (q : Reserver Sha), s.reservers[j]? = some q → c ∉ pendingOf q := by
  have hfresh := (Commits.commit_eq hc).1
  refine ⟨⟨(Commits.mem_commit hc).mpr (.inl rfl), ?_⟩, ?_⟩
  · intro n hn
    obtain ⟨w, -, ha⟩ := (h.landedAt_commit hc n c).mp hn
    exact hfresh (Commits.isAncestor_mem ha).1
  · intro j q hj hq
    exact hfresh (h.unlanded j q hj c hq).1

theorem Inv.commit (h : Inv decode number dateParse message s) (hc : s.commits.commit c p = some commits) :
    Inv decode number dateParse message { s with commits := commits } where
  tips := by
    intro n w hw
    exact (Commits.mem_commit hc).mpr (.inr (h.tips n w hw))
  heads := by
    intro k x hx
    obtain ⟨m, hm⟩ := h.heads k x hx
    exact ⟨m, (h.landedAt_commit hc m x).mpr hm⟩
  disjoint := by
    intro x m n hm hn
    exact h.disjoint x m n ((h.landedAt_commit hc m x).mp hm) ((h.landedAt_commit hc n x).mp hn)
  anchors := by
    intro j q hj
    obtain ⟨hmem, horphan⟩ := h.anchors j q hj
    refine ⟨(Commits.mem_commit hc).mpr (.inr hmem), fun a ha => horphan a ?_⟩
    rw [← Commits.isAncestor_commit_old hc (ne_of_commit hc hmem)]
    exact ha
  unlanded := by
    intro j q hj x hx
    exact h.unlanded_commit hc (h.unlanded j q hj x hx)
  one_pusher := h.one_pusher
  pcs := by
    intro j q hj
    have hq := h.pcs j q hj
    have landed : ∀ x, (∃ m, s.LandedAt m x) → ∃ m, LandedAt { s with commits := commits } m x := by
      rintro x ⟨m, hm⟩
      exact ⟨m, (h.landedAt_commit hc m x).mpr hm⟩
    unfold PcOk at hq ⊢
    cases hpc : q.pc with
    | probing n read =>
        rw [hpc] at hq
        exact ⟨hq.1, landed _ hq.2⟩
    | committing n j =>
        rw [hpc] at hq
        exact ⟨hq.1, landed _ hq.2.1, hq.2.2⟩
    | pushing n j child =>
        rw [hpc] at hq
        obtain ⟨m, w, -, hw⟩ := hq.2.1
        have hchild : child ∈ s.commits := (h.unlanded _ q hj child (by simp [pendingOf, hpc])).1
        refine ⟨hq.1, landed _ hq.2.1, hq.2.2.1, fun a => ?_⟩
        show commits.isAncestor a child = true ↔ a = child ∨ commits.isAncestor a j.commit = true
        rw [Commits.isAncestor_commit_old hc (ne_of_commit hc hchild),
          Commits.isAncestor_commit_old hc (ne_of_commit hc (Commits.isAncestor_mem hw).1)]
        exact hq.2.2.2 a
    | logging n => rw [hpc] at hq; exact hq
    | attempting n => trivial
    | fetching n => trivial
    | won n => trivial
    | failed => trivial
  wins_ok := h.wins_ok
  later := h.later

/-- A reserver starts with an orphan commit of its own. -/
theorem Inv.start (h : Inv decode number dateParse message s) (hc : s.commits.commit c none = some commits)
    {clone last n : ℕ} {branch : Text} :
    Inv decode number dateParse message { s with
      commits := commits, reservers := s.reservers ++ [⟨clone, branch, c, last, .attempting n⟩] } := by
  have h' := h.commit hc
  obtain ⟨hun, hnew⟩ := h.new_commit hc
  have split : ∀ {j : ℕ} {q : Reserver Sha},
      (s.reservers ++ [⟨clone, branch, c, last, .attempting n⟩])[j]? = some q →
      s.reservers[j]? = some q ∨ (j = s.reservers.length ∧ q = ⟨clone, branch, c, last, .attempting n⟩) := by
    intro j q hj
    rcases Nat.lt_or_ge j s.reservers.length with hlt | hge
    · rw [List.getElem?_append_left hlt] at hj
      exact .inl hj
    · rw [List.getElem?_append_right hge] at hj
      have hlen : j - s.reservers.length = 0 := by
        have hlt := (List.getElem?_eq_some_iff.mp hj).1
        simp only [List.length_singleton] at hlt
        omega
      rw [hlen] at hj
      exact .inr ⟨by omega, (Option.some.inj hj).symm⟩
  constructor
  · exact h'.tips
  · exact h'.heads
  · exact h'.disjoint
  · intro j q hj
    rcases split hj with hj' | ⟨-, rfl⟩
    · exact h'.anchors j q hj'
    · refine ⟨hun.1, fun a ha => ?_⟩
      rcases (Commits.isAncestor_commit_self hc).mp ha with rfl | ⟨q, hq, -⟩
      · rfl
      · cases hq
  · intro j q hj x hx
    rcases split hj with hj' | ⟨-, rfl⟩
    · exact h'.unlanded j q hj' x hx
    · obtain rfl := List.mem_singleton.mp hx
      exact hun
  · intro j k q p hj hk x hq hp
    rcases split hj with hj' | ⟨rfl, rfl⟩ <;> rcases split hk with hk' | ⟨rfl, rfl⟩
    · exact h.one_pusher j k q p hj' hk' x hq hp
    · obtain rfl := List.mem_singleton.mp hp
      exact absurd hq (hnew j q hj')
    · obtain rfl := List.mem_singleton.mp hq
      exact absurd hp (hnew k p hk')
    · rfl
  · intro j q hj
    rcases split hj with hj' | ⟨-, rfl⟩
    · exact h'.pcs j q hj'
    · trivial
  · exact h.wins_ok
  · exact h.later

/-- A reserver commits a child of the commit it judged. -/
theorem Inv.child (h : Inv decode number dateParse message s) (hi : s.reservers[i]? = some r) {n : ℕ}
    {j : Judgement Sha} (hr : r.pc = .committing n j)
    (hc : s.commits.commit c (some j.commit) = some commits) :
    Inv decode number dateParse message { s.setPc i r (.pushing n j c) with commits := commits } := by
  have h' := h.commit hc
  obtain ⟨hun, hnew⟩ := h.new_commit hc
  have hok := h'.pcs i r hi
  unfold PcOk at hok
  rw [hr] at hok
  refine h'.setPc hi ⟨hok.1, hok.2.1, hok.2.2, fun a => ?_⟩ ?_
  · have hj : j.commit ≠ c := ne_of_commit hc ((Commits.commit_eq hc).2.1 _ rfl)
    show commits.isAncestor a c = true ↔ a = c ∨ commits.isAncestor a j.commit = true
    rw [Commits.isAncestor_commit_self hc, Commits.isAncestor_commit_old hc hj]
    constructor
    · rintro (rfl | ⟨q, hq, ha⟩)
      · exact .inl rfl
      · obtain rfl := Option.some.inj hq
        exact .inr ha
    · rintro (rfl | ha)
      · exact .inl rfl
      · exact .inr ⟨_, rfl, ha⟩
  · intro x hx
    have hpend : pendingOf r = [r.anchor] := by simp [pendingOf, hr]
    rcases List.mem_cons.mp hx with rfl | hx
    · left
      rw [hpend]
      exact List.mem_singleton_self _
    · obtain rfl := List.mem_singleton.mp hx
      exact .inr ⟨hun, hnew⟩

end commit

/-! ### A push -/

section push

variable {n : ℕ} {c : Sha} {remote : Refs ℕ Sha}

/-- A push moves a ref along its lineage. -/
theorem landedAt_push (hp : s.remote.push s.commits n c = some remote)
    {m : ℕ} {x : Sha} (hx : s.LandedAt m x) : LandedAt { s with remote := remote } m x := by
  obtain ⟨rfl, hff⟩ := Refs.push_eq hp
  obtain ⟨w, hw, ha⟩ := hx
  by_cases hm : m = n
  · subst hm
    exact ⟨c, Function.update_self .., Commits.isAncestor_trans ha (hff w hw)⟩
  · exact ⟨w, by simpa [hm] using hw, ha⟩

/-- What is in a lineage after a push of `c` was there before, or is an ancestor of `c`. -/
theorem landedAt_of_push (hp : s.remote.push s.commits n c = some remote) {m : ℕ} {x : Sha}
    (hx : LandedAt { s with remote := remote } m x) :
    (m ≠ n ∧ s.LandedAt m x) ∨ (m = n ∧ s.commits.isAncestor x c = true) := by
  obtain ⟨rfl, -⟩ := Refs.push_eq hp
  obtain ⟨w, hw, ha⟩ := hx
  by_cases hm : m = n
  · subst hm
    have hwc : c = w := by simpa using hw
    subst hwc
    exact .inr ⟨rfl, ha⟩
  · exact .inl ⟨hm, w, by simpa [hm] using hw, ha⟩

theorem present_push (hp : s.remote.push s.commits n c = some remote) {m : ℕ} (hm : s.remote m ≠ none) :
    remote m ≠ none := by
  obtain ⟨rfl, -⟩ := Refs.push_eq hp
  by_cases hmn : m = n
  · subst hmn
    simp
  · simpa [hmn] using hm

/-- The reserver `i` may push `c`: every proper ancestor of `c` is in the lineage of `n`. -/
structure Pushable (s : ReserveState Sha) (i n : ℕ) (r : Reserver Sha) (c : Sha) : Prop where
  reserver : s.reservers[i]? = some r
  pending : c ∈ pendingOf r
  lineage : ∀ a, s.commits.isAncestor a c = true → a = c ∨ s.LandedAt n a

/-- The push of `c` by reserver `i`, which then has nothing left to push. -/
theorem Inv.push (h : Inv decode number dateParse message s) (hc : Pushable s i n r c)
    (hp : s.remote.push s.commits n c = some remote) {pc : ReservePc Sha}
    (hpc : pendingOf { r with pc := pc } = []) (hok : ∀ t, PcOk decode number dateParse message t pc)
    {wins : List (Win Sha)}
    (hwins : ∀ w ∈ wins, WinOk decode number dateParse message w ∧ remote w.id ≠ none)
    (hlater : wins.Pairwise fun w w' => w.id = w'.id → w.displaced ≠ none) :
    Inv decode number dateParse message { s.setPc i r pc with remote := remote, wins := wins } := by
  have hi := hc.reserver
  have hun := h.unlanded i r hi c hc.pending
  -- a lineage gains `c` only
  have gain : ∀ m x, LandedAt { s with remote := remote } m x → s.LandedAt m x ∨ (m = n ∧ x = c) := by
    intro m x hx
    rcases landedAt_of_push hp hx with ⟨-, hold⟩ | ⟨rfl, ha⟩
    · exact .inl hold
    · rcases hc.lineage x ha with rfl | hl
      · exact .inr ⟨rfl, rfl⟩
      · exact .inl hl
  constructor
  · intro m w hw
    obtain ⟨rfl, -⟩ := Refs.push_eq hp
    by_cases hm : m = n
    · subst hm
      have hwc : c = w := by simpa using hw
      subst hwc
      exact hun.1
    · exact h.tips m w (by simpa [hm] using hw)
  · intro k x hx
    obtain ⟨m, hm⟩ := h.heads k x hx
    exact ⟨m, landedAt_push hp hm⟩
  · intro x m k hm hk
    rcases gain m x hm with hm' | ⟨rfl, rfl⟩ <;> rcases gain k x hk with hk' | ⟨rfl, hxc⟩
    · exact h.disjoint x m k hm' hk'
    · subst hxc
      exact absurd hm' (hun.2 m)
    · exact absurd hk' (hun.2 k)
    · rfl
  · intro j q hj
    rcases setPc_reserver hi hj with ⟨-, rfl⟩ | ⟨-, hj'⟩
    · exact h.anchors i r hi
    · exact h.anchors j q hj'
  · intro j q hj x hx
    rcases setPc_reserver hi hj with ⟨-, rfl⟩ | ⟨hji, hj'⟩
    · rw [hpc] at hx
      cases hx
    · have hq := h.unlanded j q hj' x hx
      refine ⟨hq.1, fun m hm => ?_⟩
      rcases gain m x hm with hold | ⟨-, rfl⟩
      · exact hq.2 m hold
      · exact hji (h.one_pusher j i q r hj' hi x hx hc.pending)
  · intro j k q p hj hk x hq hx
    rcases setPc_reserver hi hj with ⟨-, rfl⟩ | ⟨-, hj'⟩
    · rw [hpc] at hq
      cases hq
    · rcases setPc_reserver hi hk with ⟨-, rfl⟩ | ⟨-, hk'⟩
      · rw [hpc] at hx
        cases hx
      · exact h.one_pusher j k q p hj' hk' x hq hx
  · intro j q hj
    rcases setPc_reserver hi hj with ⟨-, rfl⟩ | ⟨-, hj'⟩
    · exact hok _
    · have hq := h.pcs j q hj'
      have landed : ∀ x, (∃ m, s.LandedAt m x) → ∃ m, LandedAt { s with remote := remote } m x := by
        rintro x ⟨m, hm⟩
        exact ⟨m, landedAt_push hp hm⟩
      unfold PcOk at hq ⊢
      cases hqc : q.pc with
      | logging m =>
          rw [hqc] at hq
          exact present_push hp hq
      | probing m read =>
          rw [hqc] at hq
          exact ⟨present_push hp hq.1, landed _ hq.2⟩
      | committing m j =>
          rw [hqc] at hq
          exact ⟨present_push hp hq.1, landed _ hq.2.1, hq.2.2⟩
      | pushing m j child =>
          rw [hqc] at hq
          exact ⟨present_push hp hq.1, landed _ hq.2.1, hq.2.2⟩
      | attempting m => trivial
      | fetching m => trivial
      | won m => trivial
      | failed => trivial
  · exact hwins
  · exact hlater

/-- An orphan commit is accepted only where nobody was. -/
theorem Inv.push_anchor (h : Inv decode number dateParse message s) (hi : s.reservers[i]? = some r)
    (hr : r.pc = .attempting n) (hp : s.remote.push s.commits n r.anchor = some remote) :
    Pushable s i n r r.anchor ∧ s.remote n = none := by
  have hpend : r.anchor ∈ pendingOf r := by simp [pendingOf, hr]
  obtain ⟨-, horphan⟩ := h.anchors i r hi
  refine ⟨⟨hi, hpend, fun a ha => .inl (horphan a ha)⟩, ?_⟩
  by_contra hne
  obtain ⟨v, hv⟩ := Option.ne_none_iff_exists'.mp hne
  have hanc := horphan v ((Refs.push_eq hp).2 v hv)
  subst hanc
  exact (h.unlanded i r hi _ hpend).2 n ⟨_, hv, Commits.isAncestor_refl (h.tips n _ hv)⟩

/-- A child commit is accepted only while the commit it was made for is the tip. -/
theorem Inv.push_child (h : Inv decode number dateParse message s) (hi : s.reservers[i]? = some r)
    {j : Judgement Sha} (hr : r.pc = .pushing n j c) (hp : s.remote.push s.commits n c = some remote) :
    Pushable s i n r c ∧ s.remote n = some j.commit ∧ Reclaimable decode number dateParse message j := by
  have hpend : c ∈ pendingOf r := by simp [pendingOf, hr]
  have hok := h.pcs i r hi
  unfold PcOk at hok
  rw [hr] at hok
  obtain ⟨hpresent, ⟨m, hm⟩, hrec, hanc⟩ := hok
  obtain ⟨v, hv⟩ := Option.ne_none_iff_exists'.mp hpresent
  have hvn : s.LandedAt n v := ⟨v, hv, Commits.isAncestor_refl (h.tips n v hv)⟩
  have hvj : s.commits.isAncestor v j.commit = true := by
    rcases (hanc v).mp ((Refs.push_eq hp).2 v hv) with rfl | hvj
    · exact absurd hvn ((h.unlanded i r hi v hpend).2 n)
    · exact hvj
  -- the judged commit is in the lineage of `n`
  have hmn : m = n := by
    obtain ⟨w, hw, hjw⟩ := hm
    exact h.disjoint v m n ⟨w, hw, Commits.isAncestor_trans hvj hjw⟩ hvn
  subst hmn
  obtain ⟨w, hw, hjw⟩ := hm
  have hwv : v = w := by
    rw [hv] at hw
    exact Option.some.inj hw
  subst hwv
  refine ⟨⟨hi, hpend, ?_⟩, ?_, hrec⟩
  · intro a ha
    rcases (hanc a).mp ha with rfl | haj
    · exact .inl rfl
    · exact .inr ⟨v, hv, Commits.isAncestor_trans haj hjw⟩
  · rw [hv, Commits.isAncestor_antisymm hvj hjw]

/-- The answer to a push, for either commit of a reserver. -/
theorem inv_answerPush (h : Inv decode number dateParse message s) (hi : s.reservers[i]? = some r)
    {judged : Option (Judgement Sha)} {onRejected : ReservePc Sha} {reply : PushReply}
    (hstep : s.answerPush i r n c judged onRejected reply = some t)
    (hpush : ∀ remote, s.remote.push s.commits n c = some remote →
      Pushable s i n r c ∧ WinOk decode number dateParse message ⟨i, n, c, s.remote n, judged⟩)
    (hrej : PcOk decode number dateParse message s onRejected)
    (hpending : ∀ x ∈ pendingOf { r with pc := onRejected }, x ∈ pendingOf r) :
    Inv decode number dateParse message t := by
  cases reply with
  | ok =>
      obtain ⟨remote, hp, rfl⟩ := Option.map_eq_some_iff.mp hstep
      obtain ⟨hc, hwin⟩ := hpush remote hp
      refine h.push hc hp rfl ?_ ?_ ?_
      · intro _
        trivial
      · intro w hw
        rcases List.mem_cons.mp hw with rfl | hw
        · refine ⟨hwin, ?_⟩
          rw [(Refs.push_eq hp).1]
          simp
        · exact ⟨(h.wins_ok w hw).1, present_push hp (h.wins_ok w hw).2⟩
      · refine List.pairwise_cons.mpr ⟨?_, h.later⟩
        intro w hw hid
        have hpresent := (h.wins_ok w hw).2
        rw [← hid] at hpresent
        exact hpresent
  | rejected =>
      obtain rfl := Option.some.inj hstep
      exact h.goto hi hrej hpending
  | error =>
      obtain rfl := Option.some.inj hstep
      exact h.goto hi trivial (fun x hx => by cases hx)
  | replyLost =>
      obtain ⟨remote, hp, rfl⟩ := Option.map_eq_some_iff.mp hstep
      obtain ⟨hc, -⟩ := hpush remote hp
      refine h.push hc hp rfl ?_ ?_ h.later
      · intro _
        trivial
      · intro w hw
        exact ⟨(h.wins_ok w hw).1, present_push hp (h.wins_ok w hw).2⟩

end push

/-! ### Every step keeps the invariant -/

omit [DecidableEq Sha] in
/-- A holder judged neither held nor unreadable may be taken over. -/
theorem reclaimable_of_drift {j : Judgement Sha}
    (hheld : reservationHolderDrift dateParse (parseReservationHolderLine decode number (message j.commit))
      j.presence j.nowMs ≠ .held)
    (hread : reservationHolderDrift dateParse (parseReservationHolderLine decode number (message j.commit))
      j.presence j.nowMs ≠ .unreadable) : Reclaimable decode number dateParse message j := by
  unfold Reclaimable
  unfold reservationHolderDrift at hheld hread
  split
  next holder hparse =>
    rw [hparse] at hheld hread
    by_cases hmain : holder.branch = "main".toList
    · exact .inl hmain
    · simp only [if_neg hmain] at hheld hread
      cases hp : j.presence with
      | present => simp [hp] at hheld
      | unreadable => simp [hp] at hread
      | absent =>
          rw [hp] at hheld
          by_cases hfresh : reservationIsFresh dateParse holder.startedAt j.nowMs = true
          · simp [hfresh] at hheld
          · exact .inr ⟨rfl, by simpa using hfresh⟩
  next reason recorded hparse =>
    rw [hparse] at hheld hread
    by_cases hreason : reason = "missing branch".toList
    · refine ⟨hreason, ?_⟩
      simp only [if_pos hreason] at hheld
      by_cases hfresh : reservationIsFresh dateParse (recorded.bind (·.startedAt)) j.nowMs = true
      · simp [hfresh] at hheld
      · simpa using hfresh
    · simp only [if_neg hreason] at hread
      exact absurd rfl hread
  next hparse =>
    rw [hparse] at hread
    exact absurd rfl hread

variable (decode number dateParse message) in
omit [DecidableEq Sha] in
/-- A judgement gives the id up, fails, or allows the takeover of the commit that was read. -/
theorem judge_cases (r : Reserver Sha) (n : ℕ) (read : Sha) (presence : ReservationHolderBranchPresence)
    (nowMs : ℤ) (policyCurrent : Bool) :
    judge decode number dateParse message r n read presence nowMs policyCurrent = advance r n ∨
      judge decode number dateParse message r n read presence nowMs policyCurrent = .failed ∨
      ∃ j, judge decode number dateParse message r n read presence nowMs policyCurrent = .committing n j ∧
        j.commit = read ∧ Reclaimable decode number dateParse message j := by
  unfold judge
  lift_lets
  intro parsed presence'
  split
  · exact .inl rfl
  · exact .inr (.inl rfl)
  next hheld hread =>
    cases policyCurrent with
    | false => exact .inl rfl
    | true =>
        refine .inr (.inr ⟨⟨read, presence', nowMs⟩, rfl, rfl, ?_⟩)
        exact reclaimable_of_drift hheld hread

/-- Every event that finds `FETCH_HEAD` where it was judged keeps the invariant. -/
theorem inv_step {e : ReserveEvent Sha} (h : Inv decode number dateParse message s)
    (hstep : Step decode number dateParse message s e t) (hhead : HeadUnmoved s e) :
    Inv decode number dateParse message t := by
  unfold Step next at hstep
  cases e with
  | start clone branch anchor startId floor maxScan =>
      simp only at hstep
      split at hstep
      · obtain ⟨commits, hc, rfl⟩ := Option.map_eq_some_iff.mp hstep
        exact h.start hc
      · cases hstep
  | attempted i reply =>
      simp only at hstep
      split at hstep
      next r hi =>
        split at hstep
        next n hr =>
          refine inv_answerPush h hi hstep ?_ ?_ ?_
          · intro remote hp
            obtain ⟨hc, hnone⟩ := h.push_anchor hi hr hp
            exact ⟨hc, .inl hnone⟩
          · unfold reclaimFrom
            split <;> trivial
          · intro x hx
            have hpend : pendingOf r = [r.anchor] := by simp [pendingOf, hr]
            rw [hpend]
            unfold reclaimFrom at hx
            split at hx
            · cases hx
            · exact hx
        · cases hstep
      · cases hstep
  | fetched i reply =>
      simp only at hstep
      split at hstep
      next r hi =>
        split at hstep
        next n hr =>
          have hpend : pendingOf r = [r.anchor] := by simp [pendingOf, hr]
          cases reply with
          | ok =>
              obtain ⟨v, hv, rfl⟩ := Option.map_eq_some_iff.mp hstep
              have hfetch := h.fetch (k := r.clone) hv
              refine hfetch.goto hi ?_ ?_
              · show s.remote n ≠ none
                rw [hv]
                simp
              · intro x hx
                rw [hpend]
                exact hx
          | confirmedAbsent =>
              obtain rfl := Option.some.inj hstep
              refine h.goto hi pcOk_advance fun x hx => mem_pendingOf_advance ?_ hx
              rw [hpend]
              exact List.mem_singleton_self _
          | error =>
              obtain rfl := Option.some.inj hstep
              exact h.goto hi trivial (fun x hx => by cases hx)
        · cases hstep
      · cases hstep
  | logged i ok =>
      simp only at hstep
      split at hstep
      next r hi =>
        split at hstep
        next n hr =>
          have hpend : pendingOf r = [r.anchor] := by simp [pendingOf, hr]
          have hok := h.pcs i r hi
          unfold PcOk at hok
          rw [hr] at hok
          obtain ⟨read, hread, rfl⟩ := Option.map_eq_some_iff.mp hstep
          split
          · refine h.goto hi ⟨hok, h.heads _ _ hread⟩ fun x hx => ?_
            rw [hpend]
            exact hx
          · exact h.goto hi trivial (fun x hx => by cases hx)
        · cases hstep
      · cases hstep
  | judged i presence nowMs policyCurrent =>
      simp only at hstep
      split at hstep
      next r hi =>
        split at hstep
        next n read hr =>
          have hpend : pendingOf r = [r.anchor] := by simp [pendingOf, hr]
          have hok := h.pcs i r hi
          unfold PcOk at hok
          rw [hr] at hok
          obtain rfl := Option.some.inj hstep
          obtain hj | hj | ⟨j, hj, rfl, hrec⟩ := judge_cases decode number dateParse message r n
            read presence nowMs policyCurrent
          · rw [hj]
            refine h.goto hi pcOk_advance fun x hx => mem_pendingOf_advance ?_ hx
            rw [hpend]
            exact List.mem_singleton_self _
          · rw [hj]
            exact h.goto hi trivial (fun x hx => by cases hx)
          · rw [hj]
            refine h.goto hi ⟨hok.1, hok.2, hrec⟩ fun x hx => ?_
            rw [hpend]
            exact hx
        · cases hstep
      · cases hstep
  | committed i child =>
      simp only at hstep
      split at hstep
      next r hi =>
        split at hstep
        next n j hr =>
          cases child with
          | none =>
              obtain rfl := Option.some.inj hstep
              exact h.goto hi trivial (fun x hx => by cases hx)
          | some child =>
              obtain ⟨head, hh, hm⟩ := Option.bind_eq_some_iff.mp hstep
              obtain ⟨commits, hc, rfl⟩ := Option.map_eq_some_iff.mp hm
              have hsame : head = j.commit := by
                have hj := hhead r n j hi hr
                rw [hh] at hj
                exact Option.some.inj hj
              subst hsame
              exact h.child hi hr hc
        · cases hstep
      · cases hstep
  | pushed i reply =>
      simp only at hstep
      split at hstep
      next r hi =>
        split at hstep
        next n j child hr =>
          have hpend : pendingOf r = [r.anchor, child] := by simp [pendingOf, hr]
          refine inv_answerPush h hi hstep ?_ pcOk_advance fun x hx => mem_pendingOf_advance ?_ hx
          · intro remote hp
            obtain ⟨hc, hat, hrec⟩ := h.push_child hi hr hp
            exact ⟨hc, .inr ⟨j, rfl, hat, hrec⟩⟩
          · rw [hpend]
            exact List.mem_cons_self
        · cases hstep
      · cases hstep

theorem inv_run {es : List (ReserveEvent Sha)}
    (hr : Run (Guarded (Step decode number dateParse message) HeadUnmoved) init es s) :
    Inv decode number dateParse message s :=
  hr.invariant (I := Inv decode number dateParse message) (fun _ _ _ h hs => inv_step h hs.1 hs.2)
    (inv_init decode number dateParse message)

/-! ### Who is told -/

/-- The event told reserver `i` that it holds `n`: its push was applied, and `w` records it. -/
structure Reported (s t : ReserveState Sha) (i n : ℕ) (w : Win Sha) : Prop where
  recorded : t.wins = w :: s.wins
  reserver : w.reserver = i
  id : w.id = n
  displaced : w.displaced = s.remote n
  applied : s.remote.push s.commits n w.commit = some t.remote

omit [DecidableEq Sha] in
theorem advance_ne_won {n m : ℕ} : advance r n ≠ .won m := by
  unfold advance
  split <;> simp

omit [DecidableEq Sha] in
theorem reclaimFrom_ne_won {n m : ℕ} : reclaimFrom r n ≠ .won m := by
  unfold reclaimFrom
  split <;> simp

theorem answerPush_cases {n : ℕ} {c : Sha} {judged : Option (Judgement Sha)} {onRejected : ReservePc Sha}
    {reply : PushReply} (hstep : s.answerPush i r n c judged onRejected reply = some t)
    (hrej : ∀ m, onRejected ≠ .won m) :
    ∃ pc, t.reservers = (s.setPc i r pc).reservers ∧
      ((t.wins = s.wins ∧ ∀ m, pc ≠ .won m) ∨ ∃ m w, pc = .won m ∧ Reported s t i m w) := by
  cases reply with
  | ok =>
      obtain ⟨remote, hp, rfl⟩ := Option.map_eq_some_iff.mp hstep
      exact ⟨.won n, rfl, .inr ⟨n, _, rfl, rfl, rfl, rfl, rfl, hp⟩⟩
  | rejected =>
      obtain rfl := Option.some.inj hstep
      exact ⟨onRejected, rfl, .inl ⟨rfl, hrej⟩⟩
  | error =>
      obtain rfl := Option.some.inj hstep
      exact ⟨.failed, rfl, .inl ⟨rfl, by simp⟩⟩
  | replyLost =>
      obtain ⟨remote, hp, rfl⟩ := Option.map_eq_some_iff.mp hstep
      exact ⟨.failed, rfl, .inl ⟨rfl, by simp⟩⟩

/-- What an event does to the reservers: one starts, or one moves; one that is told that it holds an
id has pushed. -/
theorem step_reservers {e : ReserveEvent Sha} (hstep : Step decode number dateParse message s e t) :
    (∃ q n, t.reservers = s.reservers ++ [q] ∧ q.pc = .attempting n ∧ t.wins = s.wins) ∨
      ∃ i r pc, s.reservers[i]? = some r ∧ t.reservers = (s.setPc i r pc).reservers ∧
        ((t.wins = s.wins ∧ ∀ m, pc ≠ .won m) ∨ ∃ m w, pc = .won m ∧ Reported s t i m w) := by
  unfold Step next at hstep
  cases e with
  | start clone branch anchor startId floor maxScan =>
      simp only at hstep
      split at hstep
      · obtain ⟨commits, hc, rfl⟩ := Option.map_eq_some_iff.mp hstep
        exact .inl ⟨_, _, rfl, rfl, rfl⟩
      · cases hstep
  | attempted i reply =>
      simp only at hstep
      split at hstep
      next r hi =>
        split at hstep
        · exact .inr ⟨i, r, (answerPush_cases hstep fun _ => reclaimFrom_ne_won).imp fun _ h => ⟨hi, h⟩⟩
        · cases hstep
      · cases hstep
  | fetched i reply =>
      simp only at hstep
      split at hstep
      next r hi =>
        split at hstep
        · cases reply with
          | ok =>
              obtain ⟨v, hv, rfl⟩ := Option.map_eq_some_iff.mp hstep
              exact .inr ⟨i, r, _, hi, rfl, .inl ⟨rfl, by simp⟩⟩
          | confirmedAbsent =>
              obtain rfl := Option.some.inj hstep
              exact .inr ⟨i, r, _, hi, rfl, .inl ⟨rfl, fun _ => advance_ne_won⟩⟩
          | error =>
              obtain rfl := Option.some.inj hstep
              exact .inr ⟨i, r, _, hi, rfl, .inl ⟨rfl, by simp⟩⟩
        · cases hstep
      · cases hstep
  | logged i ok =>
      simp only at hstep
      split at hstep
      next r hi =>
        split at hstep
        · obtain ⟨read, hread, rfl⟩ := Option.map_eq_some_iff.mp hstep
          split
          · exact .inr ⟨i, r, _, hi, rfl, .inl ⟨rfl, by simp⟩⟩
          · exact .inr ⟨i, r, _, hi, rfl, .inl ⟨rfl, by simp⟩⟩
        · cases hstep
      · cases hstep
  | judged i presence nowMs policyCurrent =>
      simp only at hstep
      split at hstep
      next r hi =>
        split at hstep
        next n read hr =>
          obtain rfl := Option.some.inj hstep
          refine .inr ⟨i, r, _, hi, rfl, .inl ⟨rfl, fun m => ?_⟩⟩
          obtain hj | hj | ⟨j, hj, -⟩ := judge_cases decode number dateParse message r n read presence nowMs policyCurrent
          · rw [hj]
            exact advance_ne_won
          · rw [hj]
            simp
          · rw [hj]
            simp
        · cases hstep
      · cases hstep
  | committed i child =>
      simp only at hstep
      split at hstep
      next r hi =>
        split at hstep
        · cases child with
          | none =>
              obtain rfl := Option.some.inj hstep
              exact .inr ⟨i, r, _, hi, rfl, .inl ⟨rfl, by simp⟩⟩
          | some child =>
              obtain ⟨head, hh, hm⟩ := Option.bind_eq_some_iff.mp hstep
              obtain ⟨commits, hc, rfl⟩ := Option.map_eq_some_iff.mp hm
              exact .inr ⟨i, r, _, hi, rfl, .inl ⟨rfl, by simp⟩⟩
        · cases hstep
      · cases hstep
  | pushed i reply =>
      simp only at hstep
      split at hstep
      next r hi =>
        split at hstep
        · exact .inr ⟨i, r, (answerPush_cases hstep fun _ => advance_ne_won).imp fun _ h => ⟨hi, h⟩⟩
        · cases hstep
      · cases hstep

omit [DecidableEq Sha] in
/-- Reserver `i` was told that it holds the id `n`. -/
def Holds (s : ReserveState Sha) (i n : ℕ) : Prop := ∃ r, s.reservers[i]? = some r ∧ r.pc = .won n

/-- A reserver that holds an id held it before, or is told so by this event. -/
theorem holds_step {e : ReserveEvent Sha} {n : ℕ} (hstep : Step decode number dateParse message s e t)
    (ht : t.Holds i n) : (s.Holds i n ∧ (t.wins = s.wins ∨ ∃ w, t.wins = w :: s.wins)) ∨ ∃ w, Reported s t i n w := by
  obtain ⟨q, hq, hpc⟩ := ht
  obtain ⟨p, m, hres, hp, hwins⟩ | ⟨j, r, pc, hj, hres, hcase⟩ := step_reservers hstep
  · rw [hres] at hq
    rcases Nat.lt_or_ge i s.reservers.length with hlt | hge
    · rw [List.getElem?_append_left hlt] at hq
      exact .inl ⟨⟨q, hq, hpc⟩, .inl hwins⟩
    · rw [List.getElem?_append_right hge] at hq
      obtain rfl := List.mem_singleton.mp (List.mem_of_getElem? hq)
      rw [hp] at hpc
      cases hpc
  · rw [hres] at hq
    obtain ⟨rfl, rfl⟩ | ⟨-, hq⟩ := setPc_reserver hj hq
    · obtain ⟨-, hnot⟩ | ⟨m, w, rfl, hw⟩ := hcase
      · exact absurd hpc (hnot n)
      · obtain rfl := ReservePc.won.inj hpc
        exact .inr ⟨w, hw⟩
    · obtain ⟨hwins, -⟩ | ⟨m, w, -, hw⟩ := hcase
      · exact .inl ⟨⟨q, hq, hpc⟩, .inl hwins⟩
      · exact .inl ⟨⟨q, hq, hpc⟩, .inr ⟨w, hw.recorded⟩⟩

/-- Every reserver that holds an id is recorded. -/
theorem holds_recorded {es : List (ReserveEvent Sha)} (hr : Run (Step decode number dateParse message) init es s) :
    ∀ i n, s.Holds i n → ∃ w ∈ s.wins, w.reserver = i ∧ w.id = n := by
  refine hr.invariant (I := fun s => ∀ i n, s.Holds i n → ∃ w ∈ s.wins, w.reserver = i ∧ w.id = n) ?_ ?_
  · intro s e t ih hstep i n ht
    obtain ⟨hs, hwins⟩ | ⟨w, hw⟩ := holds_step hstep ht
    · obtain ⟨w, hmem, hw⟩ := ih i n hs
      obtain hwins | ⟨w', hwins⟩ := hwins
      · exact ⟨w, by rw [hwins]; exact hmem, hw⟩
      · exact ⟨w, by rw [hwins]; exact List.mem_cons_of_mem _ hmem, hw⟩
    · exact ⟨w, by rw [hw.recorded]; exact List.mem_cons_self, hw.reserver, hw.id⟩
  · rintro i n ⟨r, hr, -⟩
    simp [init] at hr

/-! ### Who displaces a holder -/

/-- Only an applied push changes a ref. -/
theorem answerPush_remote {n m : ℕ} {c : Sha} {judged : Option (Judgement Sha)} {onRejected : ReservePc Sha}
    {reply : PushReply} (hstep : s.answerPush i r n c judged onRejected reply = some t)
    (hne : t.remote m ≠ s.remote m) : m = n ∧ ∃ remote, s.remote.push s.commits n c = some remote := by
  have pushed : ∀ remote, s.remote.push s.commits n c = some remote → remote m ≠ s.remote m → m = n := by
    intro remote hp hm
    obtain ⟨rfl, -⟩ := Refs.push_eq hp
    by_contra hmn
    rw [Function.update_of_ne hmn] at hm
    exact hm rfl
  cases reply with
  | ok =>
      obtain ⟨remote, hp, rfl⟩ := Option.map_eq_some_iff.mp hstep
      exact ⟨pushed remote hp hne, remote, hp⟩
  | rejected =>
      obtain rfl := Option.some.inj hstep
      exact absurd rfl hne
  | error =>
      obtain rfl := Option.some.inj hstep
      exact absurd rfl hne
  | replyLost =>
      obtain ⟨remote, hp, rfl⟩ := Option.map_eq_some_iff.mp hstep
      exact ⟨pushed remote hp hne, remote, hp⟩

/-- A holder gives way only to a reserver that read and judged its very commit. -/
theorem step_displaces {e : ReserveEvent Sha} (h : Inv decode number dateParse message s)
    (hstep : Step decode number dateParse message s e t) {n : ℕ} {v : Sha} (hv : s.remote n = some v)
    (hne : t.remote n ≠ some v) :
    ∃ i reply r j child, e = .pushed i reply ∧ s.reservers[i]? = some r ∧ r.pc = .pushing n j child ∧
      j.commit = v ∧ Reclaimable decode number dateParse message j := by
  have hchanged : t.remote n ≠ s.remote n := by
    rw [hv]
    exact hne
  unfold Step next at hstep
  cases e with
  | start clone branch anchor startId floor maxScan =>
      simp only at hstep
      split at hstep
      · obtain ⟨commits, hc, rfl⟩ := Option.map_eq_some_iff.mp hstep
        exact absurd rfl hchanged
      · cases hstep
  | attempted i reply =>
      simp only at hstep
      split at hstep
      next r hi =>
        split at hstep
        next m hr =>
          obtain ⟨rfl, remote, hp⟩ := answerPush_remote hstep hchanged
          have hnone := (h.push_anchor hi hr hp).2
          rw [hv] at hnone
          cases hnone
        · cases hstep
      · cases hstep
  | fetched i reply =>
      simp only at hstep
      split at hstep
      next r hi =>
        split at hstep
        next m hr =>
          cases reply with
          | ok =>
              obtain ⟨w, hw, rfl⟩ := Option.map_eq_some_iff.mp hstep
              exact absurd rfl hchanged
          | confirmedAbsent =>
              obtain rfl := Option.some.inj hstep
              exact absurd rfl hchanged
          | error =>
              obtain rfl := Option.some.inj hstep
              exact absurd rfl hchanged
        · cases hstep
      · cases hstep
  | logged i ok =>
      simp only at hstep
      split at hstep
      next r hi =>
        split at hstep
        next m hr =>
          obtain ⟨read, hread, rfl⟩ := Option.map_eq_some_iff.mp hstep
          split at hchanged <;> exact absurd rfl hchanged
        · cases hstep
      · cases hstep
  | judged i presence nowMs policyCurrent =>
      simp only at hstep
      split at hstep
      next r hi =>
        split at hstep
        · obtain rfl := Option.some.inj hstep
          exact absurd rfl hchanged
        · cases hstep
      · cases hstep
  | committed i child =>
      simp only at hstep
      split at hstep
      next r hi =>
        split at hstep
        next m j hr =>
          cases child with
          | none =>
              obtain rfl := Option.some.inj hstep
              exact absurd rfl hchanged
          | some child =>
              obtain ⟨head, hh, hm⟩ := Option.bind_eq_some_iff.mp hstep
              obtain ⟨commits, hc, rfl⟩ := Option.map_eq_some_iff.mp hm
              exact absurd rfl hchanged
        · cases hstep
      · cases hstep
  | pushed i reply =>
      simp only at hstep
      split at hstep
      next r hi =>
        split at hstep
        next m j child hr =>
          obtain ⟨rfl, remote, hp⟩ := answerPush_remote hstep hchanged
          obtain ⟨-, hat, hrec⟩ := h.push_child hi hr hp
          rw [hv] at hat
          exact ⟨i, reply, r, j, child, rfl, hi, hr, (Option.some.inj hat).symm, hrec⟩
        · cases hstep
      · cases hstep

/-- In every run in which `FETCH_HEAD` still names the judged commit whenever a reserver commits on
it: a reserver is told that it holds an id when its push was applied, and `wins` has a record of each
such answer; of two reservations of one id that were reported as held, the later one displaced the
commit its reserver had read and judged reclaimable; and whenever a holder's commit leaves its ref,
the reserver that pushed had read and judged that very commit. -/
theorem reservations_collide_only_by_takeover {es : List (ReserveEvent Sha)}
    (hrun : Run (Guarded (Step decode number dateParse message) HeadUnmoved) init es s) :
    (∀ e t i n, Step decode number dateParse message s e t → t.Holds i n → s.Holds i n ∨ ∃ w, Reported s t i n w) ∧
    (∀ i n, s.Holds i n → ∃ w ∈ s.wins, w.reserver = i ∧ w.id = n) ∧
    (∀ post later mid earlier pre, s.wins = post ++ later :: mid ++ earlier :: pre → later.id = earlier.id →
      ∃ j, later.judged = some j ∧ later.displaced = some j.commit ∧
        Reclaimable decode number dateParse message j) ∧
    ∀ e t n v, Step decode number dateParse message s e t → s.remote n = some v → t.remote n ≠ some v →
      ∃ i reply r j child, e = .pushed i reply ∧ s.reservers[i]? = some r ∧ r.pc = .pushing n j child ∧
        j.commit = v ∧ Reclaimable decode number dateParse message j := by
  have h := inv_run hrun
  refine ⟨?_, holds_recorded hrun.of_guarded, ?_, ?_⟩
  · intro e t i n hstep ht
    exact (holds_step hstep ht).imp_left And.left
  · intro post later mid earlier pre heq hid
    have hlater := h.later
    rw [heq, List.append_assoc] at hlater
    have hrest := (List.pairwise_append.mp hlater).2.1
    have hdisp : later.displaced ≠ none :=
      (List.pairwise_cons.mp hrest).1 earlier (by simp) hid
    have hok := (h.wins_ok later (by rw [heq]; simp)).1
    rcases hok with hnone | hj
    · exact absurd hnone hdisp
    · exact hj
  · intro e t n v hstep hv hne
    exact step_displaces h hstep hv hne

/-! Reserver `0` holds the id `7` from `main`, which may be taken over at any time. -/

/-- The messages of the commits: commit `0` names `main`, every other one a branch of its own and
the time `0`. -/
def plainHolders (c : ℕ) : Text :=
  if c = 0 then "rmd-id holder branch=main".toList else "rmd-id holder branch=b started_at=0".toList

def zeroDate (_ : Text) : Option ℤ := some 0

def noNumber (_ : Text) : Option ℤ := none

/-- Two reservers of clone `1` and one of clone `2` contend for the id that reserver `0` holds. -/
def takeoverEvents : List (ReserveEvent ℕ) :=
  [.start 0 ['z'] 0 7 none 1, .attempted 0 .ok, .start 2 ['c'] 1 7 none 1, .attempted 1 .rejected,
    .fetched 1 .ok, .logged 1 true, .judged 1 .absent 0 true, .committed 1 (some 2), .pushed 1 .ok]

/-- The holder line of commit `0` names `main`. -/
theorem judge_main (r : Reserver ℕ) (n : ℕ) :
    judge some noNumber zeroDate plainHolders r n 0 .absent 0 true = .committing n ⟨0, .absent, 0⟩ := by
  have hparse : parseReservationHolderLine some noNumber (plainHolders 0) =
      .known ⟨"main".toList, none, none, none, none, none⟩ := by
    decide +kernel
  simp only [judge, hparse, branchRead, reservationHolderDrift, if_true]

theorem logged_step {s : ReserveState ℕ} {i n : ℕ} {r : Reserver ℕ} (hi : s.reservers[i]? = some r)
    (hpc : r.pc = .logging n) (hhead : s.fetchHead r.clone = some 0) :
    Step some noNumber zeroDate plainHolders s (.logged i true) (s.setPc i r (.probing n 0)) := by
  have htext : Text.trim (plainHolders 0) ≠ [] := by decide +kernel
  simp [Step, next, hi, hpc, hhead, htext]

theorem judged_step {s : ReserveState ℕ} {i n : ℕ} {r : Reserver ℕ} (hi : s.reservers[i]? = some r)
    (hpc : r.pc = .probing n 0) :
    Step some noNumber zeroDate plainHolders s (.judged i .absent 0 true)
      (s.setPc i r (.committing n ⟨0, .absent, 0⟩)) := by
  simp only [Step, next, hi, hpc, judge_main]

theorem taken_over_from_main :
    ∃ (s : ReserveState ℕ) (later earlier : Win ℕ), s.wins = [later, earlier] ∧ later.id = earlier.id ∧
      (∃ w ∈ s.wins, w.reserver = 1 ∧ w.id = 7) ∧
      ∃ j, later.judged = some j ∧ later.displaced = some j.commit ∧
        Reclaimable some noNumber zeroDate plainHolders j := by
  have hrun : ∃ (s : ReserveState ℕ) (later earlier : Win ℕ),
      Run (Guarded (Step some noNumber zeroDate plainHolders) HeadUnmoved) init takeoverEvents s ∧
        s.wins = [later, earlier] ∧ later.id = earlier.id ∧ s.Holds 1 7 := by
    refine ⟨_, _, _, .cons ⟨rfl, trivial⟩ (.cons ⟨rfl, trivial⟩ (.cons ⟨rfl, trivial⟩ (.cons ⟨rfl, trivial⟩
      (.cons ⟨rfl, trivial⟩ (.cons ⟨logged_step rfl rfl rfl, trivial⟩ (.cons ⟨judged_step rfl rfl, trivial⟩
      (.cons ⟨rfl, ?_⟩ (.single ⟨rfl, trivial⟩)))))))), rfl, rfl, ⟨_, rfl, rfl⟩⟩
    intro r n j hr hpc
    obtain rfl := Option.some.inj hr
    cases hpc
    rfl
  obtain ⟨s, later, earlier, hr, hw, hid, hholds⟩ := hrun
  obtain ⟨-, hrecorded, htakeover, -⟩ := reservations_collide_only_by_takeover hr
  exact ⟨s, later, earlier, hw, hid, hrecorded 1 7 hholds, htakeover [] later [] earlier [] hw hid⟩

/-- Reserver `1` judges the holder of the id; reserver `2` takes the id over from another clone;
reserver `3`, in the clone of reserver `1`, fetches the new holder; reserver `1` commits on what
`FETCH_HEAD` has become. -/
def displacedEvents : List (ReserveEvent ℕ) :=
  [.start 0 ['z'] 0 7 none 1, .attempted 0 .ok,
    .start 1 ['a'] 1 7 none 1, .attempted 1 .rejected, .fetched 1 .ok, .logged 1 true, .judged 1 .absent 0 true,
    .start 2 ['c'] 2 7 none 1, .attempted 2 .rejected, .fetched 2 .ok, .logged 2 true, .judged 2 .absent 0 true,
    .committed 2 (some 3), .pushed 2 .ok,
    .start 1 ['b'] 4 7 none 1, .attempted 3 .rejected, .fetched 3 .ok,
    .committed 1 (some 5), .pushed 1 .ok]

/-- Reservers `1` and `2` are both told that they hold the id `7`.  Reserver `1` displaced commit `3`,
whose holder had reserved at that very moment, and had read and judged commit `0` only. -/
theorem fresh_holder_displaced :
    ∃ s : ReserveState ℕ, Run (Step some noNumber zeroDate plainHolders) init displacedEvents s ∧
      s.Holds 1 7 ∧ s.Holds 2 7 ∧
      ∃ later earlier : Win ℕ, ∃ rest, s.wins = later :: earlier :: rest ∧ later.id = earlier.id ∧
        later.reserver = 1 ∧ earlier.reserver = 2 ∧ earlier.commit = 3 ∧ later.displaced = some 3 ∧
        (∀ j, later.judged = some j → j.commit ≠ 3) ∧
        reservationHolderDrift zeroDate (parseReservationHolderLine some noNumber (plainHolders 3)) .absent 0 =
          .held := by
  refine ⟨_, .cons rfl (.cons rfl (.cons rfl (.cons rfl (.cons rfl (.cons (logged_step rfl rfl rfl)
    (.cons (judged_step rfl rfl) (.cons rfl (.cons rfl (.cons rfl (.cons (logged_step rfl rfl rfl)
    (.cons (judged_step rfl rfl) (.cons rfl (.cons rfl (.cons rfl (.cons rfl (.cons rfl
    (.cons rfl (.single rfl)))))))))))))))))), ⟨_, rfl, rfl⟩, ⟨_, rfl, rfl⟩, _, _, _, rfl, rfl, rfl, rfl, rfl, rfl, ?_,
    by decide +kernel⟩
  intro j hj
  obtain rfl := Option.some.inj hj
  decide

end ReserveState

end Remudero.TaskId
