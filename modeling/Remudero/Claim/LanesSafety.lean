import Remudero.Claim.Lanes

/-! # What the lanes may take away

The evidence arm of `releaseDispatchClaim` deletes without a lease when its caller names no
commit, so a claim minted after the caller looked can be deleted unread
(`unread_claim_deleted`).  When no release of a run is made on evidence alone (`Pinned`), a
claim leaves its ref only by a lease naming the very commit that was read and judged
(`claim_removed_only_by_judged_lease`).

The invariant `Inv` rests on one fact: a commit is pushed at most once, so a commit taken off
its ref never returns.  A lane that read a commit twice around somebody else's step therefore
either read the same commit or holds a lease that can no longer succeed. -/

namespace Remudero.Claim

open Remudero.Lib

namespace LanesState

variable {Lane Sha : Type} (dateParse : Text → Option ℤ) (message : Sha → Text)

/-- The commit an operation is about to push. -/
def pending : Op Sha → Option Sha
  | .attempting _ anchor => some anchor
  | .renewPushing _ _ sha => some sha
  | _ => none

/-- A minted commit that no ref has carried yet. -/
def Unborn (s : LanesState Lane Sha) (lane : Lane) (v : Sha) : Prop :=
  s.minted v = some lane ∧ ¬ s.retired v ∧ ∀ task, s.remote task ≠ some v

/-- `v` is still at `task`, or it is gone for good. -/
def SeenAt (s : LanesState Lane Sha) (task : Text) (v : Sha) : Prop :=
  s.remote task = some v ∨ s.retired v

/-- A sweep's remaining claims were read off the remote. -/
def RestOk (reads : List Sha) : Rest Sha → Prop
  | .landed claims => ∀ c ∈ claims, c.2 ∈ reads
  | _ => True

/-- The silence judge reclaims the tip `v` with the identity `a`. -/
def JudgedSilent (v : Sha) (a : ClaimAnchorIdentity) (branch : Option ℤ) (window : ClaimSilenceWindow)
    (nowMs : ℤ) : Prop :=
  parseClaimAnchorMessage dateParse (some (message v)) = some a ∧
    decideClaimSilence (some a) (some (claimLastSignOfLife dateParse a (some (message v)) branch))
      false window nowMs = .reclaim

/-- What a lane knows of the commit its drop names: its own, or one it read.  The silence judge read
it off the very ref it drops and judged it, unless it is gone by now. -/
def WarrantOk (s : LanesState Lane Sha) (r : Running Lane Sha) (task : Text) (e : Sha) (w : Warrant) : Prop :=
  match w with
  | .own => s.minted e = some r.lane
  | .silent a branch window nowMs =>
      e ∈ r.reads ∧ s.SeenAt task e ∧
        (JudgedSilent dateParse message e a branch window nowMs ∨ s.retired e)
  | _ => e ∈ r.reads

/-- What an operation in flight knows, by the command it is about to issue. -/
def OpOk (s : LanesState Lane Sha) (r : Running Lane Sha) : Prop :=
  match r.op with
  | .attempting _ anchor => s.Unborn r.lane anchor
  | .renewListing _ expect => s.minted expect = some r.lane
  | .renewMinting _ expect => s.minted expect = some r.lane
  | .renewPushing _ expect sha => s.minted expect = some r.lane ∧ s.Unborn r.lane sha
  | .releaseReading _ rest => RestOk r.reads rest
  | .releaseJudging _ v rest => v ∈ r.reads ∧ RestOk r.reads rest
  | .landedListing => True
  | .landedNext claims => ∀ c ∈ claims, c.2 ∈ r.reads
  | .replacedListing => True
  | .replacedNext _ => True
  | .silentReading _ _ _ => True
  | .silentMessage task v _ _ => v ∈ r.reads ∧ s.SeenAt task v
  | .silentBranches task v m _ _ => v ∈ r.reads ∧ s.SeenAt task v ∧ (m = v ∨ s.retired v)
  | .silentMinting _ => True
  | .dropping _ none w rest => RestOk r.reads rest ∧ w = .evidence
  | .dropping task (some e) w rest => RestOk r.reads rest ∧ WarrantOk dateParse message s r task e w

/-- The invariant of the lanes.  Commits are pushed at most once, so a commit taken off its ref
never returns; that is what ties the commit a lane judged to the commit its lease names. -/
structure Inv (s : LanesState Lane Sha) : Prop where
  minted_remote : ∀ task v, s.remote task = some v → ∃ lane, s.minted v = some lane
  minted_retired : ∀ v, s.retired v → ∃ lane, s.minted v = some lane
  retired_off : ∀ v, s.retired v → ∀ task, s.remote task ≠ some v
  one_ref : ∀ v task task', s.remote task = some v → s.remote task' = some v → task = task'
  ops_ok : ∀ i r, s.ops i = some r → OpOk dateParse message s r
  one_pusher : ∀ i j r q v, s.ops i = some r → s.ops j = some q → pending r.op = some v →
    pending q.op = some v → i = j

variable {dateParse message} {s t u : LanesState Lane Sha} {i : ℕ} {r : Running Lane Sha}

theorem inv_init : Inv dateParse message (init : LanesState Lane Sha) where
  minted_remote := by intro task v h; simp [init] at h
  minted_retired := by intro v h; exact h.elim
  retired_off := by intro v h; exact h.elim
  one_ref := by intro v task task' h; simp [init] at h
  ops_ok := by intro i r h; simp [init] at h
  one_pusher := by intro i j r q v h; simp [init] at h

theorem WarrantOk.mono {task : Text} {e : Sha} {w : Warrant} (h : WarrantOk dateParse message s r task e w)
    (hm : ∀ v lane, s.minted v = some lane → t.minted v = some lane)
    (hret : ∀ v, s.retired v → t.retired v)
    (hseen : ∀ task v, s.SeenAt task v → t.SeenAt task v) : WarrantOk dateParse message t r task e w := by
  unfold WarrantOk at h ⊢
  cases w with
  | own => exact hm _ _ h
  | silent a b w n => exact ⟨h.1, hseen _ _ h.2.1, h.2.2.imp_right (hret _)⟩
  | evidence => exact h
  | deadClaimant a l p => exact h

/-- A drop that is not of the lane's own claim names a commit it read. -/
theorem WarrantOk.cases {task : Text} {e : Sha} {w : Warrant} (h : WarrantOk dateParse message s r task e w) :
    s.minted e = some r.lane ∨ (w ≠ .own ∧ e ∈ r.reads) := by
  unfold WarrantOk at h
  cases w with
  | own => exact .inl h
  | silent a b w n => exact .inr ⟨by simp, h.1⟩
  | evidence => exact .inr ⟨by simp, h⟩
  | deadClaimant a l p => exact .inr ⟨by simp, h⟩

/-- What an operation knows survives a step of another one. -/
theorem OpOk.mono (h : OpOk dateParse message s r)
    (hm : ∀ v lane, s.minted v = some lane → t.minted v = some lane)
    (hret : ∀ v, s.retired v → t.retired v)
    (hseen : ∀ task v, s.SeenAt task v → t.SeenAt task v)
    (hun : ∀ v, pending r.op = some v → s.Unborn r.lane v → t.Unborn r.lane v) :
    OpOk dateParse message t r := by
  unfold OpOk at h ⊢
  cases hop : r.op with
  | attempting task anchor =>
      rw [hop] at h hun
      exact hun anchor rfl h
  | renewListing task expect =>
      rw [hop] at h
      exact hm _ _ h
  | renewMinting task expect =>
      rw [hop] at h
      exact hm _ _ h
  | renewPushing task expect sha =>
      rw [hop] at h hun
      exact ⟨hm _ _ h.1, hun sha rfl h.2⟩
  | silentMessage task v window nowMs =>
      rw [hop] at h
      exact ⟨h.1, hseen _ _ h.2⟩
  | silentBranches task v m window nowMs =>
      rw [hop] at h
      exact ⟨h.1, hseen _ _ h.2.1, h.2.2.imp_right (hret _)⟩
  | dropping task expect warrant rest =>
      rw [hop] at h
      cases expect with
      | none => exact h
      | some e => exact ⟨h.1, h.2.mono hm hret hseen⟩
  | releaseReading task rest => rw [hop] at h; exact h
  | releaseJudging task v rest => rw [hop] at h; exact h
  | landedListing => trivial
  | landedNext claims => rw [hop] at h; exact h
  | replacedListing => trivial
  | replacedNext tasks => trivial
  | silentReading task window nowMs => trivial
  | silentMinting task => trivial

/-! ### The three kinds of step -/

/-- A step that only moves operation `i`: nothing it knows about the remote changes. -/
theorem Inv.setOp (h : Inv dateParse message s) {q : Option (Running Lane Sha)}
    (hq : ∀ p, q = some p → OpOk dateParse message s p ∧ pending p.op = none) :
    Inv dateParse message (s.setOp i q) where
  minted_remote := h.minted_remote
  minted_retired := h.minted_retired
  retired_off := h.retired_off
  one_ref := h.one_ref
  ops_ok := by
    intro j p hj
    have key : OpOk dateParse message s p := by
      by_cases hji : j = i
      · subst hji
        exact (hq p (by simpa [LanesState.setOp] using hj)).1
      · exact h.ops_ok j p (by simpa [LanesState.setOp, hji] using hj)
    exact key
  one_pusher := by
    intro j k p p' v hj hk hp hp'
    have old : ∀ j p, (s.setOp i q).ops j = some p → pending p.op = some v → s.ops j = some p := by
      intro j p hj hp
      by_cases hji : j = i
      · subst hji
        have := (hq p (by simpa [LanesState.setOp] using hj)).2
        rw [this] at hp
        cases hp
      · simpa [LanesState.setOp, hji] using hj
    exact h.one_pusher j k p p' v (old j p hj hp) (old k p' hk hp') hp hp'

/-- A step that mints a new commit and is about to push it. -/
theorem Inv.mint [DecidableEq Sha] (h : Inv dateParse message s) {sha : Sha}
    (hfresh : s.minted sha = none) (hp : pending r.op = some sha)
    (hr : ∀ t : LanesState Lane Sha, (∀ v lane, s.minted v = some lane → t.minted v = some lane) →
      t.Unborn r.lane sha → OpOk dateParse message t r) :
    Inv dateParse message
      { s.setOp i (some r) with minted := Function.update s.minted sha (some r.lane) } := by
  have hne : ∀ v lane, s.minted v = some lane → v ≠ sha := by
    rintro v lane hv rfl
    rw [hfresh] at hv
    cases hv
  have hm : ∀ v lane, s.minted v = some lane →
      Function.update s.minted sha (some r.lane) v = some lane := by
    intro v lane hv
    rw [Function.update_of_ne (hne v lane hv)]
    exact hv
  have hun : ∀ lane v, s.Unborn lane v → Unborn
      { s.setOp i (some r) with minted := Function.update s.minted sha (some r.lane) } lane v := by
    intro lane v hv
    exact ⟨hm _ _ hv.1, hv.2⟩
  have hsha : Unborn
      { s.setOp i (some r) with minted := Function.update s.minted sha (some r.lane) } r.lane sha := by
    refine ⟨by simp, ?_, ?_⟩
    · intro hret
      obtain ⟨lane, hl⟩ := h.minted_retired sha hret
      exact hne _ _ hl rfl
    · intro task ht
      obtain ⟨lane, hl⟩ := h.minted_remote task sha ht
      exact hne _ _ hl rfl
  constructor
  · intro task v hv
    obtain ⟨lane, hl⟩ := h.minted_remote task v hv
    exact ⟨lane, hm _ _ hl⟩
  · intro v hv
    obtain ⟨lane, hl⟩ := h.minted_retired v hv
    exact ⟨lane, hm _ _ hl⟩
  · exact h.retired_off
  · exact h.one_ref
  · intro j p hj
    by_cases hji : j = i
    · subst hji
      have hpr : r = p := by simpa [LanesState.setOp] using hj
      subst hpr
      exact hr _ hm hsha
    · have hold := h.ops_ok j p (by simpa [LanesState.setOp, hji] using hj)
      exact hold.mono hm (fun _ hv => hv) (fun _ _ hv => hv) (fun v _ hv => hun _ v hv)
  · -- another operation's pending commit was minted before, so it is not the new one
    have other : ∀ j p v, j ≠ i → (s.setOp i (some r)).ops j = some p → pending p.op = some v → v ≠ sha := by
      intro j p v hji hj hpv
      have hold := h.ops_ok j p (by simpa [LanesState.setOp, hji] using hj)
      unfold OpOk at hold
      cases hop : p.op <;> rw [hop] at hpv hold <;> simp only [pending, Option.some.injEq, reduceCtorEq] at hpv
      · subst hpv; exact hne _ _ hold.1
      · subst hpv; exact hne _ _ hold.2.1
    intro j k p p' v hj hk hpv hpv'
    by_cases hji : j = i
    · by_cases hki : k = i
      · rw [hji, hki]
      · have hpr : r = p := by subst hji; simpa [LanesState.setOp] using hj
        subst hpr
        rw [hp] at hpv
        exact absurd (Option.some.inj hpv).symm (other k p' v hki hk hpv')
    · by_cases hki : k = i
      · have hpr : r = p' := by subst hki; simpa [LanesState.setOp] using hk
        subst hpr
        rw [hp] at hpv'
        exact absurd (Option.some.inj hpv').symm (other j p v hji hj hpv)
      · exact h.one_pusher j k p p' v (by simpa [LanesState.setOp, hji] using hj)
          (by simpa [LanesState.setOp, hki] using hk) hpv hpv'

/-- A push of operation `i`: it leaves at `task` nothing but the commit `i` was about to push. -/
theorem Inv.setRemote (h : Inv dateParse message s) (hi : s.ops i = some r) {remote : Refs Text Sha}
    {task : Text}
    (hset : ∀ task' v, remote task' = some v →
      s.remote task' = some v ∨ (task' = task ∧ pending r.op = some v ∧ s.Unborn r.lane v)) :
    Inv dateParse message ((s.setRemote remote).setOp i none) := by
  have hun : ∀ j q v, j ≠ i → s.ops j = some q → pending q.op = some v → s.Unborn q.lane v →
      Unborn (s.setRemote remote) q.lane v := by
    intro j q v hji hj hp hu
    refine ⟨hu.1, ?_, ?_⟩
    · rintro (hret | ⟨task', ht, -⟩)
      · exact hu.2.1 hret
      · exact hu.2.2 task' ht
    · intro task' ht
      rcases hset task' v ht with hold | ⟨-, hp', -⟩
      · exact hu.2.2 task' hold
      · exact hji (h.one_pusher j i q r v hj hi hp hp')
  have hseen : ∀ task' v, s.SeenAt task' v → SeenAt (s.setRemote remote) task' v := by
    rintro task' v (ht | hret)
    · by_cases hk : remote task' = some v
      · exact .inl hk
      · exact .inr (.inr ⟨task', ht, hk⟩)
    · exact .inr (.inl hret)
  constructor
  · intro task' v hv
    rcases hset task' v hv with hold | ⟨-, -, hu⟩
    · exact h.minted_remote task' v hold
    · exact ⟨_, hu.1⟩
  · rintro v (hret | ⟨task', ht, -⟩)
    · exact h.minted_retired v hret
    · exact h.minted_remote task' v ht
  · rintro v hv task' ht
    rcases hset task' v ht with hold | ⟨-, -, hu⟩
    · rcases hv with hret | ⟨task'', ht'', hne⟩
      · exact h.retired_off v hret task' hold
      · obtain rfl := h.one_ref v task' task'' hold ht''
        exact hne ht
    · rcases hv with hret | ⟨task'', ht'', -⟩
      · exact hu.2.1 hret
      · exact hu.2.2 task'' ht''
  · intro v task₁ task₂ h₁ h₂
    rcases hset task₁ v h₁ with o₁ | ⟨e₁, -, hu⟩ <;> rcases hset task₂ v h₂ with o₂ | ⟨e₂, -, hu'⟩
    · exact h.one_ref v _ _ o₁ o₂
    · exact absurd o₁ (hu'.2.2 _)
    · exact absurd o₂ (hu.2.2 _)
    · rw [e₁, e₂]
  · intro j q hj
    have hji : j ≠ i := by
      rintro rfl
      simp [LanesState.setOp] at hj
    have hj' : s.ops j = some q := by simpa [LanesState.setOp, LanesState.setRemote, hji] using hj
    have hq := (h.ops_ok j q hj').mono (t := s.setRemote remote) (fun _ _ hv => hv)
      (fun _ hv => .inl hv) hseen (fun v hp hu => hun j q v hji hj' hp hu)
    exact hq
  · intro j k q q' v hj hk hp hp'
    have old : ∀ j q, ((s.setRemote remote).setOp i none).ops j = some q → s.ops j = some q := by
      intro j q hj
      have hji : j ≠ i := by
        rintro rfl
        simp [LanesState.setOp] at hj
      simpa [LanesState.setOp, LanesState.setRemote, hji] using hj
    exact h.one_pusher j k q q' v (old j q hj) (old k q' hk) hp hp'

/-! ### Every step keeps the invariant -/

theorem RestOk.cons {reads : List Sha} {rest : Rest Sha} {v : Sha} (h : RestOk reads rest) :
    RestOk (v :: reads) rest := by
  cases rest with
  | landed claims => exact fun c hc => List.mem_cons_of_mem _ (h c hc)
  | done => trivial
  | replaced tasks => trivial
  | retry task => trivial

theorem restOk_op {rest : Rest Sha} {dropped : Bool} {op : Op Sha} (h : RestOk r.reads rest)
    (hop : Rest.op dropped rest = some op) :
    OpOk dateParse message s { r with op := op } ∧ pending op = none := by
  cases rest with
  | done => simp [Rest.op] at hop
  | landed claims =>
      obtain rfl := Option.some.inj hop
      exact ⟨h, rfl⟩
  | replaced tasks =>
      obtain rfl := Option.some.inj hop
      exact ⟨trivial, rfl⟩
  | retry task =>
      cases dropped with
      | false => cases hop
      | true =>
          obtain rfl := Option.some.inj hop
          exact ⟨trivial, rfl⟩

theorem Inv.go (h : Inv dateParse message s) {op : Option (Op Sha)}
    (hop : ∀ p, op = some p → OpOk dateParse message s { r with op := p } ∧ pending p = none) :
    Inv dateParse message (s.go i r op) := by
  unfold LanesState.go
  refine h.setOp fun p hp => ?_
  obtain ⟨q, hq, rfl⟩ := Option.map_eq_some_iff.mp hp
  exact hop q hq

theorem Inv.go_some (h : Inv dateParse message s) {op : Op Sha}
    (hop : OpOk dateParse message s { r with op := op }) (hp : pending op = none) :
    Inv dateParse message (s.go i r (some op)) := by
  refine h.go fun p hpo => ?_
  obtain rfl := Option.some.inj hpo
  exact ⟨hop, hp⟩

theorem Inv.stop (h : Inv dateParse message s) : Inv dateParse message (s.setOp i none) :=
  h.setOp fun p hp => by cases hp

theorem push_cases (s : LanesState Lane Sha) (reach : Reach) (attempted : Option (Refs Text Sha)) :
    (s.push reach attempted).1 = s ∨
      ∃ remote, attempted = some remote ∧ (s.push reach attempted).1 = s.setRemote remote := by
  cases attempted with
  | none => cases reach <;> exact .inl rfl
  | some remote =>
      cases reach with
      | answered => exact .inr ⟨remote, rfl, rfl⟩
      | unreachable => exact .inl rfl
      | replyLost => exact .inr ⟨remote, rfl, rfl⟩

/-- A push of operation `i` that ends or goes on with `q`. -/
theorem Inv.push (h : Inv dateParse message s) (hi : s.ops i = some r) (task : Text) {reach : Reach}
    {attempted : Option (Refs Text Sha)} {q : Option (Running Lane Sha)}
    (hset : ∀ remote, attempted = some remote → ∀ task' v, remote task' = some v →
      s.remote task' = some v ∨ (task' = task ∧ pending r.op = some v ∧ s.Unborn r.lane v))
    (hq : ∀ t : LanesState Lane Sha, ∀ p, q = some p → OpOk dateParse message t p ∧ pending p.op = none) :
    Inv dateParse message ((s.push reach attempted).1.setOp i q) := by
  rcases push_cases s reach attempted with hs | ⟨remote, ha, hs⟩
  · rw [hs]
    exact h.setOp (hq s)
  · rw [hs]
    have hinv := (h.setRemote hi (hset remote ha)).setOp (i := i) (q := q) (hq _)
    have heq : ((s.setRemote remote).setOp i none).setOp i q = (s.setRemote remote).setOp i q := by
      unfold LanesState.setOp
      simp
    rwa [heq] at hinv

theorem judgeRelease_judged {v : Sha} {available : Bool}
    {liveness : ClaimAnchorIdentity → Option ClaimantLivenessProbe}
    {replaced : ClaimAnchorIdentity → Option ReplacedClaimantProbe} {w : Warrant}
    (h : judgeRelease dateParse message v available liveness replaced = some w) :
    available = true ∧ ∃ a, w = .deadClaimant a (liveness a) (replaced a) ∧
      parseClaimAnchorMessage dateParse (some (message v)) = some a ∧
      (decideDispatchClaimRelease false false (some a) (liveness a) (replaced a)).2 = true := by
  unfold judgeRelease at h
  split at h
  · cases h
  next a ha =>
    split at h
    next hd =>
      obtain rfl := Option.some.inj h
      cases available with
      | true => exact ⟨rfl, a, rfl, ha, hd⟩
      | false =>
          rw [if_neg Bool.false_ne_true, parseClaimAnchorMessage_none] at ha
          cases ha
    · cases h

theorem judgeSilence_judged {v : Sha} {available mine : Bool} {activity : Option (Option ℤ)}
    {window : ClaimSilenceWindow} {nowMs : ℤ} {w : Warrant}
    (h : judgeSilence dateParse message v available mine activity window nowMs = some w) :
    available = true ∧ mine = false ∧ ∃ a branch, activity = some branch ∧
      w = .silent a branch window nowMs ∧ JudgedSilent dateParse message v a branch window nowMs := by
  cases available with
  | false =>
      simp only [judgeSilence, if_neg Bool.false_ne_true, parseClaimAnchorMessage_none] at h
      cases h
  | true =>
      simp only [judgeSilence, if_true] at h
      split at h
      next a branch ha =>
        split at h
        next hd =>
          obtain rfl := Option.some.inj h
          obtain ⟨-, -, -, -, hmine⟩ := decideClaimSilence_reclaim hd
          subst hmine
          exact ⟨rfl, rfl, a, branch, rfl, rfl, ha, hd⟩
        · cases h
      · cases h

section Steps

variable [DecidableEq Sha]

theorem inv_respond (h : Inv dateParse message s) (hi : s.ops i = some r) {a : Answer Sha}
    (hstep : s.respond dateParse message i r r.op a = some t) : Inv dateParse message t := by
  have hok := h.ops_ok i r hi
  unfold OpOk at hok
  generalize hop : r.op = op at hstep hok
  unfold respond at hstep
  split at hstep
  next task anchor reach =>
    obtain rfl := Option.some.inj hstep
    refine h.push hi task ?_ (fun _ p hp => by cases hp)
    intro remote hr task' v hv
    rcases Refs.create_value hr hv with hold | ⟨rfl, rfl⟩
    · exact .inl hold
    · exact .inr ⟨rfl, by rw [hop]; rfl, hok⟩
  next task expect reachable =>
    split at hstep
    · obtain rfl := Option.some.inj hstep
      exact h.go_some hok rfl
    · obtain rfl := Option.some.inj hstep
      exact h.stop
  next task expect sha =>
    split at hstep
    next hfresh =>
      obtain rfl := Option.some.inj hstep
      refine h.mint (r := { r with op := .renewPushing task expect sha }) hfresh rfl ?_
      intro t hm hu
      exact ⟨hm _ _ hok, hu⟩
    · cases hstep
  next task expect sha reach =>
    obtain rfl := Option.some.inj hstep
    refine h.push hi task ?_ (fun _ p hp => by cases hp)
    intro remote hr task' v hv
    obtain ⟨-, rfl⟩ := Refs.lease_eq hr
    by_cases htask : task' = task
    · subst htask
      have hv' : sha = v := by simpa using hv
      subst hv'
      exact .inr ⟨rfl, by rw [hop]; rfl, hok.2⟩
    · rw [Function.update_of_ne htask] at hv
      exact .inl hv
  next task rest reachable =>
    split at hstep
    · obtain rfl := Option.some.inj hstep
      exact h.go fun p hp => restOk_op hok hp
    next v hv =>
      obtain rfl := Option.some.inj hstep
      refine h.go_some ⟨List.mem_cons_self, ?_⟩ rfl
      exact hok.cons
  next task v rest available liveness replaced =>
    split at hstep
    · obtain rfl := Option.some.inj hstep
      exact h.go fun p hp => restOk_op hok.2 hp
    next w hw =>
      obtain rfl := Option.some.inj hstep
      obtain ⟨-, a, rfl, -⟩ := judgeRelease_judged hw
      exact h.go_some ⟨hok.2, hok.1⟩ rfl
  next claims =>
    split at hstep
    · obtain rfl := Option.some.inj hstep
      refine h.go_some ?_ rfl
      intro c hc
      exact List.mem_append_left _ (List.mem_map_of_mem hc)
    · cases hstep
  next =>
    obtain rfl := Option.some.inj hstep
    exact h.stop
  next task v claims merged indeterminate rerun =>
    have hrest : ∀ c ∈ claims, c.2 ∈ r.reads := fun c hc => hok c (List.mem_cons_of_mem _ hc)
    split at hstep
    · obtain rfl := Option.some.inj hstep
      exact h.go_some hrest rfl
    · obtain rfl := Option.some.inj hstep
      exact h.go_some ⟨hrest, hok (task, v) List.mem_cons_self⟩ rfl
  next claims =>
    split at hstep
    · obtain rfl := Option.some.inj hstep
      exact h.go_some trivial rfl
    · cases hstep
  next =>
    obtain rfl := Option.some.inj hstep
    exact h.stop
  next task tasks merged _ _ =>
    split at hstep
    · obtain rfl := Option.some.inj hstep
      exact h.go_some ⟨trivial, rfl⟩ rfl
    · obtain rfl := Option.some.inj hstep
      exact h.go_some trivial rfl
  next task window nowMs reachable =>
    split at hstep
    · obtain rfl := Option.some.inj hstep
      exact h.stop
    next v hv =>
      obtain rfl := Option.some.inj hstep
      refine h.go_some ⟨List.mem_cons_self, .inl ?_⟩ rfl
      split at hv
      · exact hv
      · cases hv
  next task v window nowMs reachable =>
    split at hstep
    · obtain rfl := Option.some.inj hstep
      exact h.stop
    next m hm =>
      obtain rfl := Option.some.inj hstep
      refine h.go_some ⟨List.mem_cons_of_mem _ hok.1, hok.2, ?_⟩ rfl
      have hm' : s.remote task = some m := by
        split at hm
        · exact hm
        · cases hm
      -- the second read finds the judged commit, or that commit is gone for good
      rcases hok.2 with hv | hret
      · left
        rw [hm'] at hv
        exact Option.some.inj hv
      · exact .inr hret
  next task v m window nowMs available mine activity =>
    split at hstep
    · obtain rfl := Option.some.inj hstep
      exact h.stop
    next w hw =>
      obtain rfl := Option.some.inj hstep
      obtain ⟨-, -, a, branch, -, rfl, hj⟩ := judgeSilence_judged hw
      refine h.go_some ⟨trivial, hok.1, hok.2.1, ?_⟩ rfl
      rcases hok.2.2 with rfl | hret
      · exact .inl hj
      · exact .inr hret
  next task sha =>
    split at hstep
    next hfresh =>
      obtain rfl := Option.some.inj hstep
      refine h.mint (r := { r with op := .attempting task sha }) hfresh rfl ?_
      intro t hm hu
      exact hu
    · cases hstep
  next task expect w rest reach =>
    cases expect with
    | none =>
        obtain rfl := Option.some.inj hstep
        refine h.push hi task ?_ ?_
        · intro remote hr task' v hv
          obtain ⟨-, rfl⟩ := Refs.erase_eq hr
          by_cases htask : task' = task
          · subst htask
            simp at hv
          · rw [Function.update_of_ne htask] at hv
            exact .inl hv
        · intro t p hp
          obtain ⟨q, hq, rfl⟩ := Option.map_eq_some_iff.mp hp
          exact restOk_op hok.1 hq
    | some e =>
        obtain rfl := Option.some.inj hstep
        refine h.push hi task ?_ ?_
        · intro remote hr task' v hv
          obtain ⟨-, rfl⟩ := Refs.lease_eq hr
          by_cases htask : task' = task
          · subst htask
            simp at hv
          · rw [Function.update_of_ne htask] at hv
            exact .inl hv
        · intro t p hp
          obtain ⟨q, hq, rfl⟩ := Option.map_eq_some_iff.mp hp
          exact restOk_op hok.1 hq
  · cases hstep

omit [DecidableEq Sha] in
theorem launch_eq {lane : Lane} {op : Op Sha} (h : s.launch i lane op = some t) :
    t = s.setOp i (some ⟨lane, [], op⟩) := by
  unfold launch at h
  split at h
  · cases h
  · exact (Option.some.inj h).symm

omit [DecidableEq Sha] in
theorem Inv.launch (h : Inv dateParse message s) {lane : Lane} {op : Op Sha}
    (hl : s.launch i lane op = some t) (hop : OpOk dateParse message s ⟨lane, [], op⟩)
    (hp : pending op = none) : Inv dateParse message t := by
  obtain rfl := launch_eq hl
  refine h.setOp fun p hpo => ?_
  obtain rfl := Option.some.inj hpo
  exact ⟨hop, hp⟩

variable [DecidableEq Lane]

/-- Every event keeps the invariant. -/
theorem inv_step {e : LanesEvent Lane Sha} (h : Inv dateParse message s)
    (hstep : Step dateParse message s e t) : Inv dateParse message t := by
  unfold Step next at hstep
  cases e with
  | attempt i lane task anchor =>
      simp only at hstep
      split at hstep
      next hfresh =>
        obtain ⟨s', hl, rfl⟩ := Option.map_eq_some_iff.mp hstep
        obtain rfl := launch_eq hl
        refine h.mint (r := ⟨lane, [], .attempting task anchor⟩) hfresh rfl ?_
        intro t hm hu
        exact hu
      · cases hstep
  | renew i lane task expect =>
      simp only at hstep
      split at hstep
      next hm => exact h.launch hstep hm rfl
      · cases hstep
  | release i lane task call =>
      cases call with
      | own anchor =>
          simp only at hstep
          split at hstep
          next hm => exact h.launch hstep ⟨trivial, hm⟩ rfl
          · cases hstep
      | evidence => exact h.launch hstep ⟨trivial, rfl⟩ rfl
      | probe => exact h.launch hstep trivial rfl
  | sweepLanded i lane => exact h.launch hstep trivial rfl
  | sweepReplaced i lane => exact h.launch hstep trivial rfl
  | reclaimSilent i lane task window nowMs => exact h.launch hstep trivial rfl
  | answer i a =>
      simp only at hstep
      split at hstep
      · cases hstep
      next r hr => exact inv_respond h hr hstep

theorem inv_run {es : List (LanesEvent Lane Sha)}
    (hr : Run (Step dateParse message) init es s) : Inv dateParse message s :=
  hr.invariant (I := Inv dateParse message) (fun _ _ _ h hs => inv_step h hs) inv_init

/-! ### Which operation follows which -/

variable (dateParse message) in
omit [DecidableEq Lane] [DecidableEq Sha] in
/-- The operations that can stand in `op`'s place once its command is answered by `a`. -/
def NextOp (remote : Refs Text Sha) (op : Op Sha) (a : Answer Sha) (op' : Op Sha) : Prop :=
  match op, a with
  | .renewListing task e, _ => op' = .renewMinting task e
  | .renewMinting task e, .minted sha => op' = .renewPushing task e sha
  | .releaseReading task rest, .read reachable =>
      (∃ d, Rest.op d rest = some op') ∨
        ∃ v, (reachable = true ∧ remote task = some v) ∧ op' = .releaseJudging task v rest
  | .releaseJudging task v rest, .probed available liveness replaced =>
      (∃ d, Rest.op d rest = some op') ∨
        ∃ w, judgeRelease dateParse message v available liveness replaced = some w ∧
          op' = .dropping task (some v) w rest
  | .landedListing, .listing claims =>
      (∀ c ∈ claims, remote c.1 = some c.2) ∧ op' = .landedNext claims
  | .landedNext ((task, v) :: claims), .judged merged indeterminate rerun =>
      op' = .landedNext claims ∨
        (merged = true ∧ indeterminate = false ∧ rerun = false) ∧
          op' = .dropping task (some v) .evidence (.landed claims)
  | .replacedListing, _ => ∃ tasks, op' = .replacedNext tasks
  | .replacedNext (task :: tasks), .judged merged _ _ =>
      (merged = true ∧ op' = .dropping task none .evidence (.replaced tasks)) ∨
        op' = .releaseReading task (.replaced tasks)
  | .silentReading task w n, .read reachable =>
      ∃ v, (reachable = true ∧ remote task = some v) ∧ op' = .silentMessage task v w n
  | .silentMessage task v w n, _ => ∃ m, op' = .silentBranches task v m w n
  | .silentBranches task v m w n, .branches available mine activity =>
      ∃ w', judgeSilence dateParse message m available mine activity w n = some w' ∧
        op' = .dropping task (some v) w' (.retry task)
  | .silentMinting task, .minted sha => op' = .attempting task sha
  | .dropping _ _ _ rest, _ => ∃ d, Rest.op d rest = some op'
  | _, _ => False

omit [DecidableEq Lane] [DecidableEq Sha] in
theorem push_ops (reach : Reach) (attempted : Option (Refs Text Sha)) :
    (s.push reach attempted).1.ops = s.ops := by
  rcases push_cases s reach attempted with hs | ⟨remote, -, hs⟩
  · rw [hs]
  · rw [hs]
    rfl

omit [DecidableEq Lane] [DecidableEq Sha] in
/-- A read that finds a commit was answered, with the tip of the ref. -/
theorem read_reached {reachable : Bool} {tip : Option Sha} {v : Sha}
    (h : (if reachable then tip else none) = some v) : reachable = true ∧ tip = some v := by
  cases reachable with
  | true => exact ⟨rfl, h⟩
  | false => cases h

omit [DecidableEq Lane] in
/-- An answer moves its own operation only, to one that may follow. -/
theorem respond_next {a : Answer Sha} (hstep : s.respond dateParse message i r r.op a = some t) :
    ∃ o, t.ops = Function.update s.ops i o ∧ ∀ q, o = some q → q.lane = r.lane ∧ NextOp dateParse message s.remote r.op a q.op := by
  have stop : ∃ o : Option (Running Lane Sha), Function.update s.ops i none = Function.update s.ops i o ∧
      ∀ q, o = some q → q.lane = r.lane ∧ NextOp dateParse message s.remote r.op a q.op :=
    ⟨none, rfl, fun q hq => by cases hq⟩
  have move : ∀ reads op, NextOp dateParse message s.remote r.op a op → ∃ o : Option (Running Lane Sha),
      Function.update s.ops i (some { r with reads := reads, op := op }) = Function.update s.ops i o ∧
      ∀ q, o = some q → q.lane = r.lane ∧ NextOp dateParse message s.remote r.op a q.op := by
    intro reads op hop
    refine ⟨some { r with reads := reads, op := op }, rfl, ?_⟩
    intro q hq
    obtain rfl := Option.some.inj hq
    exact ⟨rfl, hop⟩
  have rest : ∀ (d : Bool) (rest : Rest Sha), (∀ op, Rest.op d rest = some op → NextOp dateParse message s.remote r.op a op) →
      ∃ o : Option (Running Lane Sha),
        Function.update s.ops i ((Rest.op d rest).map fun op => { r with op := op }) = Function.update s.ops i o ∧
        ∀ q, o = some q → q.lane = r.lane ∧ NextOp dateParse message s.remote r.op a q.op := by
    intro d rest hrest
    refine ⟨_, rfl, ?_⟩
    intro q hq
    obtain ⟨op, ho, rfl⟩ := Option.map_eq_some_iff.mp hq
    exact ⟨rfl, hrest op ho⟩
  generalize hop : r.op = op at hstep move rest stop ⊢
  unfold respond at hstep
  split at hstep
  case h_1 task anchor reach =>
    obtain rfl := Option.some.inj hstep
    simpa only [LanesState.setOp, push_ops] using stop
  case h_2 task expect reachable =>
    split at hstep
    · obtain rfl := Option.some.inj hstep
      exact move _ _ rfl
    · obtain rfl := Option.some.inj hstep
      exact stop
  case h_3 task expect sha =>
    split at hstep
    · obtain rfl := Option.some.inj hstep
      exact move _ _ rfl
    · cases hstep
  case h_4 task expect sha reach =>
    obtain rfl := Option.some.inj hstep
    simpa only [LanesState.setOp, push_ops] using stop
  case h_5 task rest' reachable =>
    split at hstep
    · obtain rfl := Option.some.inj hstep
      exact rest _ _ fun op ho => .inl ⟨_, ho⟩
    next v hv =>
      obtain rfl := Option.some.inj hstep
      exact move _ _ (.inr ⟨v, read_reached hv, rfl⟩)
  case h_6 task v rest' available liveness replaced =>
    split at hstep
    · obtain rfl := Option.some.inj hstep
      exact rest _ _ fun op ho => .inl ⟨_, ho⟩
    next w hw =>
      obtain rfl := Option.some.inj hstep
      exact move _ _ (.inr ⟨w, hw, rfl⟩)
  case h_7 claims =>
    split at hstep
    next hall =>
      obtain rfl := Option.some.inj hstep
      exact move _ _ ⟨fun c hc => by simpa using List.all_eq_true.mp hall c hc, rfl⟩
    · cases hstep
  case h_8 =>
    obtain rfl := Option.some.inj hstep
    exact stop
  case h_9 task v claims merged indeterminate rerun =>
    split at hstep
    · obtain rfl := Option.some.inj hstep
      exact move _ _ (.inl rfl)
    next hkeep =>
      obtain rfl := Option.some.inj hstep
      exact move _ _ (.inr ⟨by simpa [and_assoc] using hkeep, rfl⟩)
  case h_10 claims =>
    split at hstep
    · obtain rfl := Option.some.inj hstep
      exact move _ _ ⟨_, rfl⟩
    · cases hstep
  case h_11 =>
    obtain rfl := Option.some.inj hstep
    exact stop
  case h_12 task tasks merged _ _ =>
    split at hstep
    next hm =>
      obtain rfl := Option.some.inj hstep
      exact move _ _ (.inl ⟨hm, rfl⟩)
    · obtain rfl := Option.some.inj hstep
      exact move _ _ (.inr rfl)
  case h_13 task window nowMs reachable =>
    split at hstep
    · obtain rfl := Option.some.inj hstep
      exact stop
    next v hv =>
      obtain rfl := Option.some.inj hstep
      have hread : (reachable = true ∧ 0 < window.samples) ∧ s.remote task = some v := by simpa using hv
      exact move _ _ ⟨v, ⟨hread.1.1, hread.2⟩, rfl⟩
  case h_14 task v window nowMs reachable =>
    split at hstep
    · obtain rfl := Option.some.inj hstep
      exact stop
    next m hm =>
      obtain rfl := Option.some.inj hstep
      exact move _ _ ⟨m, rfl⟩
  case h_15 task v m window nowMs available mine activity =>
    split at hstep
    · obtain rfl := Option.some.inj hstep
      exact stop
    next w hw =>
      obtain rfl := Option.some.inj hstep
      exact move _ _ ⟨w, hw, rfl⟩
  case h_16 task sha =>
    split at hstep
    · obtain rfl := Option.some.inj hstep
      exact move _ _ rfl
    · cases hstep
  case h_17 task expect w rest' reach =>
    have dropped : ∀ attempted d, ∃ o,
        ((s.push reach attempted).1.go i r (Rest.op d rest')).ops = Function.update s.ops i o ∧
        ∀ q, o = some q → q.lane = r.lane ∧ NextOp dateParse message s.remote (.dropping task expect w rest') (.push reach) q.op := by
      intro attempted d
      have h := rest d rest' fun op ho => ⟨d, ho⟩
      simpa only [LanesState.go, LanesState.setOp, push_ops] using h
    obtain rfl := Option.some.inj hstep
    cases expect with
    | none => exact dropped _ _
    | some e => exact dropped _ _
  case h_18 => cases hstep

omit [DecidableEq Lane] in
/-- A commit taken off a ref is retired, and stays so. -/
theorem respond_seen {a : Answer Sha} (hstep : s.respond dateParse message i r r.op a = some t) :
    (∀ v, s.retired v → t.retired v) ∧ ∀ task v, s.remote task = some v → t.SeenAt task v := by
  have keep : ∀ {u : LanesState Lane Sha}, u.remote = s.remote → u.retired = s.retired →
      (∀ v, s.retired v → u.retired v) ∧ ∀ task v, s.remote task = some v → u.SeenAt task v := by
    intro u hr hret
    exact ⟨fun v hv => by rw [hret]; exact hv, fun task v hv => .inl (by rw [hr]; exact hv)⟩
  have pushed : ∀ reach attempted {u : LanesState Lane Sha}, u.remote = (s.push reach attempted).1.remote →
      u.retired = (s.push reach attempted).1.retired →
      (∀ v, s.retired v → u.retired v) ∧ ∀ task v, s.remote task = some v → u.SeenAt task v := by
    intro reach attempted u hr hret
    rcases push_cases s reach attempted with hs | ⟨remote, -, hs⟩
    · exact keep (by rw [hr, hs]) (by rw [hret, hs])
    · rw [hs] at hr hret
      refine ⟨fun v hv => by rw [hret]; exact .inl hv, fun task v hv => ?_⟩
      by_cases hk : remote task = some v
      · left
        rw [hr]
        exact hk
      · right
        rw [hret]
        exact .inr ⟨task, hv, hk⟩
  generalize r.op = op at hstep
  unfold respond at hstep
  split at hstep
  case h_1 task anchor reach =>
    obtain rfl := Option.some.inj hstep
    exact pushed _ _ rfl rfl
  case h_4 task expect sha reach =>
    obtain rfl := Option.some.inj hstep
    exact pushed _ _ rfl rfl
  case h_17 task expect w rest reach =>
    obtain rfl := Option.some.inj hstep
    exact pushed _ _ rfl rfl
  -- every other answer leaves the remote alone
  all_goals
    refine keep ?_ ?_ <;>
      first
        | (cases hstep <;> rfl)
        | (split at hstep <;> cases hstep <;> rfl)

omit [DecidableEq Lane] [DecidableEq Sha] in
/-- The operation an event starts: its number, its lane and its first command. -/
def started : LanesEvent Lane Sha → Option (ℕ × Lane × Op Sha)
  | .attempt i lane task anchor => some (i, lane, .attempting task anchor)
  | .renew i lane task expect => some (i, lane, .renewListing task expect)
  | .release i lane task (.own anchor) => some (i, lane, .dropping task (some anchor) .own .done)
  | .release i lane task .evidence => some (i, lane, .dropping task none .evidence .done)
  | .release i lane task .probe => some (i, lane, .releaseReading task .done)
  | .sweepLanded i lane => some (i, lane, .landedListing)
  | .sweepReplaced i lane => some (i, lane, .replacedListing)
  | .reclaimSilent i lane task window nowMs => some (i, lane, .silentReading task window nowMs)
  | .answer _ _ => none

/-- An event answers one operation, or starts one and leaves the remote alone. -/
theorem step_cases {e : LanesEvent Lane Sha} (hstep : Step dateParse message s e t) :
    (∃ i a r, e = .answer i a ∧ s.ops i = some r ∧ s.respond dateParse message i r r.op a = some t) ∨
      ∃ i lane op, started e = some (i, lane, op) ∧ t.ops = Function.update s.ops i (some ⟨lane, [], op⟩) ∧
        t.remote = s.remote ∧ t.retired = s.retired := by
  have launched : ∀ {i : ℕ} {lane : Lane} {op : Op Sha} {u : LanesState Lane Sha}, s.launch i lane op = some u →
      u.ops = Function.update s.ops i (some ⟨lane, [], op⟩) ∧ u.remote = s.remote ∧ u.retired = s.retired := by
    intro i lane op u hl
    obtain rfl := launch_eq hl
    exact ⟨rfl, rfl, rfl⟩
  unfold Step next at hstep
  cases e with
  | attempt i lane task anchor =>
      simp only at hstep
      split at hstep
      · obtain ⟨s', hl, rfl⟩ := Option.map_eq_some_iff.mp hstep
        obtain ⟨hops, hsame⟩ := launched hl
        exact .inr ⟨i, lane, _, rfl, hops, hsame⟩
      · cases hstep
  | renew i lane task expect =>
      simp only at hstep
      split at hstep
      · exact .inr ⟨i, lane, _, rfl, launched hstep⟩
      · cases hstep
  | release i lane task call =>
      cases call with
      | own anchor =>
          simp only at hstep
          split at hstep
          · exact .inr ⟨i, lane, _, rfl, launched hstep⟩
          · cases hstep
      | evidence => exact .inr ⟨i, lane, _, rfl, launched hstep⟩
      | probe => exact .inr ⟨i, lane, _, rfl, launched hstep⟩
  | sweepLanded i lane => exact .inr ⟨i, lane, _, rfl, launched hstep⟩
  | sweepReplaced i lane => exact .inr ⟨i, lane, _, rfl, launched hstep⟩
  | reclaimSilent i lane task window nowMs => exact .inr ⟨i, lane, _, rfl, launched hstep⟩
  | answer i a =>
      simp only at hstep
      split at hstep
      · cases hstep
      next r hr => exact .inl ⟨i, a, r, rfl, hr, hstep⟩

/-- What was seen at a ref stays there or is gone for good. -/
theorem seen_step {e : LanesEvent Lane Sha} (hstep : Step dateParse message s e t) :
    (∀ v, s.retired v → t.retired v) ∧ ∀ task v, s.SeenAt task v → t.SeenAt task v := by
  obtain ⟨i, a, r, -, -, hresp⟩ | ⟨i, lane, op, -, -, hremote, hretired⟩ := step_cases hstep
  · obtain ⟨hret, hseen⟩ := respond_seen hresp
    refine ⟨hret, ?_⟩
    rintro task v (h | h)
    · exact hseen task v h
    · exact .inr (hret v h)
  · unfold SeenAt
    rw [hremote, hretired]
    exact ⟨fun v h => h, fun task v h => h⟩

theorem retired_run {es : List (LanesEvent Lane Sha)} {v : Sha} (hr : Run (Step dateParse message) s es t)
    (h : s.retired v) : t.retired v :=
  hr.invariant (I := fun u => u.retired v) (fun _ _ _ h hs => (seen_step hs).1 v h) h

theorem seenAt_run {es : List (LanesEvent Lane Sha)} {task : Text} {v : Sha}
    (hr : Run (Step dateParse message) s es t) (h : s.SeenAt task v) : t.SeenAt task v :=
  hr.invariant (I := fun u => u.SeenAt task v) (fun _ _ _ h hs => (seen_step hs).2 task v h) h

/-! ### Drops without a lease -/

/-- No operation in flight deletes whatever its ref holds. -/
def Leased (s : LanesState Lane Sha) : Prop :=
  ∀ i r task w rest, s.ops i = some r → r.op ≠ .dropping task none w rest

omit [DecidableEq Lane] [DecidableEq Sha] in
theorem leased_update {q : Option (Running Lane Sha)} (h : Leased s) (ht : t.ops = Function.update s.ops i q)
    (hq : ∀ p task w rest, q = some p → p.op ≠ .dropping task none w rest) : Leased t := by
  intro j p task w rest hj
  rw [ht] at hj
  by_cases hji : j = i
  · subst hji
    exact hq p task w rest (by simpa using hj)
  · exact h j p task w rest (by simpa [hji] using hj)

omit [DecidableEq Lane] [DecidableEq Sha] in
theorem rest_op_leased {d : Bool} {rest rest' : Rest Sha} {op : Op Sha} {task : Text} {w : Warrant}
    (h : Rest.op d rest = some op) : op ≠ .dropping task none w rest' := by
  rintro rfl
  cases rest with
  | done => cases h
  | landed claims => cases h
  | replaced tasks => cases h
  | retry task => cases d <;> cases h

omit [DecidableEq Lane] [DecidableEq Sha] in
/-- Only the replaced-container sweep goes on to a drop without a lease, on a merged task. -/
theorem NextOp.leased {op op' : Op Sha} {a : Answer Sha} {task : Text} {w : Warrant} {rest : Rest Sha}
    {remote : Refs Text Sha} (h : NextOp dateParse message remote op a op')
    (hpin : ∀ merged x y task tasks, a = .judged merged x y → op = .replacedNext (task :: tasks) → merged = false) :
    op' ≠ .dropping task none w rest := by
  rintro rfl
  unfold NextOp at h
  split at h
  case h_3 =>
    obtain ⟨d, hd⟩ | ⟨v, -, hv⟩ := h
    · exact rest_op_leased hd rfl
    · cases hv
  case h_4 =>
    obtain ⟨d, hd⟩ | ⟨w, -, hv⟩ := h
    · exact rest_op_leased hd rfl
    · cases hv
  case h_8 task' tasks merged x y =>
    obtain ⟨hm, -⟩ | hv := h
    · have hf := hpin merged x y task' tasks rfl rfl
      rw [hm] at hf
      cases hf
    · cases hv
  case h_13 =>
    obtain ⟨d, hd⟩ := h
    exact rest_op_leased hd rfl
  all_goals simp at h

/-- A pinned event starts no drop without a lease. -/
theorem leased_step {e : LanesEvent Lane Sha} (h : Leased s) (hstep : Step dateParse message s e t)
    (hpin : Pinned s e) : Leased t := by
  obtain ⟨i, a, r, rfl, hr, hresp⟩ | ⟨i, lane, op, he, ht, -⟩ := step_cases hstep
  · obtain ⟨o, ht, ho⟩ := respond_next hresp
    refine leased_update h ht ?_
    intro p task w rest hp
    refine (ho p hp).2.leased ?_
    rintro merged x y task tasks rfl hop
    exact hpin r task tasks hr hop
  · refine leased_update h ht ?_
    intro p task w rest hp hop
    obtain rfl := Option.some.inj hp
    obtain rfl : op = .dropping task none w rest := hop
    cases e with
    | release j lane' task' call =>
        cases call with
        | own anchor => cases he
        | evidence => exact hpin
        | probe => cases he
    | _ => cases he

theorem leased_run {es : List (LanesEvent Lane Sha)}
    (hr : Run (Guarded (Step dateParse message) Pinned) init es s) : Leased s := by
  refine hr.invariant (I := Leased) (fun _ _ _ h hs => leased_step h hs.1 hs.2) ?_
  intro i r task w rest h
  cases h

/-! ### Who takes a claim away -/

omit [DecidableEq Lane] in
/-- A push that takes `v` off `task` was leased on `v`, or on nothing at all. -/
theorem respond_removes {a : Answer Sha} {task : Text} {v : Sha}
    (hstep : s.respond dateParse message i r r.op a = some t)
    (hv : s.remote task = some v) (hne : t.remote task ≠ some v) :
    Names task v r.op ∨ ∃ w rest, r.op = .dropping task none w rest := by
  generalize hop : r.op = op at hstep
  unfold respond at hstep
  split at hstep
  case h_1 task' anchor reach =>
    exfalso
    obtain rfl := Option.some.inj hstep
    rcases push_cases s reach (s.remote.create task' anchor) with
      hs | ⟨remote, ha, hs⟩
    · exact hne (by rw [hs]; exact hv)
    · exact hne (by rw [hs]; exact Refs.create_of_some ha hv)
  case h_4 task' expect sha reach =>
    obtain rfl := Option.some.inj hstep
    rcases push_cases s reach (s.remote.lease task' expect (some sha)) with
      hs | ⟨remote, ha, hs⟩
    · rw [hs] at hne
      exact absurd hv hne
    · rw [hs] at hne
      obtain ⟨rfl, rfl⟩ := Refs.lease_removes ha hv hne
      exact .inl ⟨rfl, rfl⟩
  case h_17 task' expect w rest reach =>
    cases expect with
    | none =>
        obtain rfl := Option.some.inj hstep
        have hne' : (s.push reach (s.remote.erase task')).1.remote task ≠ some v := hne
        rcases push_cases s reach (s.remote.erase task') with hs | ⟨remote, ha, hs⟩
        · rw [hs] at hne'
          exact absurd hv hne'
        · rw [hs] at hne'
          obtain ⟨-, rfl⟩ := Refs.erase_eq ha
          by_cases htask : task = task'
          · subst htask
            exact .inr ⟨w, rest, rfl⟩
          · have hkeep : Function.update s.remote task' none task = some v := by
              rw [Function.update_of_ne htask]
              exact hv
            exact absurd hkeep hne'
    | some e =>
        obtain rfl := Option.some.inj hstep
        have hne' : (s.push reach (s.remote.lease task' e none)).1.remote task ≠ some v := hne
        rcases push_cases s reach (s.remote.lease task' e none) with
          hs | ⟨remote, ha, hs⟩
        · rw [hs] at hne'
          exact absurd hv hne'
        · rw [hs] at hne'
          obtain ⟨rfl, rfl⟩ := Refs.lease_removes ha hv hne'
          exact .inl ⟨rfl, rfl⟩
  -- every other answer leaves the remote alone
  all_goals
    exfalso
    have hs : t.remote = s.remote := by
      first
        | (cases hstep <;> rfl)
        | (split at hstep <;> cases hstep <;> rfl)
    exact hne (by rw [hs]; exact hv)

/-! ### What a lane had read and judged -/

omit [DecidableEq Lane] [DecidableEq Sha] in
/-- Operation `i` is about to issue a command of which `P` holds. -/
def At (P : Op Sha → Prop) (i : ℕ) (s : LanesState Lane Sha) : Prop := ∃ r, s.ops i = some r ∧ P r.op

/-- An operation comes to a command by the answer to the one before, or is started with it. -/
theorem at_entered {P : Op Sha → Prop} {e : LanesEvent Lane Sha} (hstep : Step dateParse message s e t)
    (hs : ¬ At P i s) (ht : At P i t) :
    (∃ a r op, e = .answer i a ∧ s.ops i = some r ∧ NextOp dateParse message s.remote r.op a op ∧ ¬ P r.op ∧ P op) ∨
      ∃ lane op, started e = some (i, lane, op) ∧ P op := by
  obtain ⟨q, hq, hp⟩ := ht
  have moved : ∀ j (o : Option (Running Lane Sha)), t.ops = Function.update s.ops j o → i = j ∧ o = some q := by
    intro j o ho
    rw [ho] at hq
    by_cases hij : i = j
    · subst hij
      exact ⟨rfl, by simpa using hq⟩
    · rw [Function.update_of_ne hij] at hq
      exact absurd ⟨q, hq, hp⟩ hs
  obtain ⟨j, a, r, rfl, hr, hresp⟩ | ⟨j, lane, op, he, hops, -⟩ := step_cases hstep
  · obtain ⟨o, ho, hnext⟩ := respond_next hresp
    obtain ⟨rfl, hoq⟩ := moved j o ho
    exact .inl ⟨a, r, q.op, rfl, hr, (hnext q hoq).2, fun hpr => hs ⟨r, hr, hpr⟩, hp⟩
  · obtain ⟨rfl, hoq⟩ := moved j _ hops
    obtain rfl := Option.some.inj hoq
    exact .inr ⟨lane, op, he, hp⟩

/-- The last answer that brought operation `i` to a command which no event starts with. -/
theorem run_entered {P : Op Sha → Prop} {es : List (LanesEvent Lane Sha)}
    (hr : Run (Step dateParse message) init es s) (hs : At P i s)
    (hstart : ∀ e : LanesEvent Lane Sha, ∀ lane op, started e = some (i, lane, op) → ¬ P op) :
    ∃ es₁ a es₂ u r op, es = es₁ ++ .answer i a :: es₂ ∧ Run (Step dateParse message) init es₁ u ∧
      Run (Step dateParse message) u (.answer i a :: es₂) s ∧ u.ops i = some r ∧
      NextOp dateParse message u.remote r.op a op ∧ ¬ P r.op ∧ P op := by
  have hinit : ¬ At P i (init : LanesState Lane Sha) := by
    rintro ⟨r, hr, -⟩
    cases hr
  obtain ⟨es₁, e, es₂, u, v, rfl, h₁, he, h₂, hu, hv⟩ := hr.entered hinit hs
  obtain ⟨a, r, op, rfl, hops, hnext, hnot, hp⟩ | ⟨lane, op, hstarted, hp⟩ := at_entered he hu hv
  · exact ⟨es₁, a, es₂, u, r, op, rfl, h₁, h₂.cons he, hops, hnext, hnot, hp⟩
  · exact absurd hp (hstart _ lane op hstarted)

omit [DecidableEq Lane] [DecidableEq Sha] in
/-- About to drop the commit `v` of `task` on a judgement. -/
def Drops (task : Text) (v : Sha) (op : Op Sha) : Prop :=
  ∃ w rest, op = .dropping task (some v) w rest ∧ w ≠ .own

omit [DecidableEq Lane] [DecidableEq Sha] in
/-- A sweep goes on with the claim `v` of `task`. -/
def RestHolds (task : Text) (v : Sha) : Rest Sha → Prop
  | .landed claims => (task, v) ∈ claims
  | _ => False

omit [DecidableEq Lane] [DecidableEq Sha] in
/-- The operation goes on with the commit `v` that it was shown at `task`. -/
def Holds (task : Text) (v : Sha) : Op Sha → Prop
  | .releaseReading _ rest => RestHolds task v rest
  | .releaseJudging t e rest => (t = task ∧ e = v) ∨ RestHolds task v rest
  | .landedNext claims => (task, v) ∈ claims
  | .silentMessage t e _ _ => t = task ∧ e = v
  | .silentBranches t e _ _ _ => t = task ∧ e = v
  | .dropping t e w rest => (t = task ∧ e = some v ∧ w ≠ .own) ∨ RestHolds task v rest
  | _ => False

omit [DecidableEq Lane] [DecidableEq Sha] in
theorem restHolds_op {task : Text} {v : Sha} {d : Bool} {rest : Rest Sha} {op : Op Sha}
    (h : Rest.op d rest = some op) (hop : Holds task v op) : RestHolds task v rest := by
  cases rest with
  | done => cases h
  | landed claims =>
      obtain rfl := Option.some.inj h
      exact hop
  | replaced tasks =>
      obtain rfl := Option.some.inj h
      exact hop
  | retry task' =>
      cases d with
      | false => cases h
      | true =>
          obtain rfl := Option.some.inj h
          exact hop

omit [DecidableEq Lane] [DecidableEq Sha] in
theorem not_drops_rest {task : Text} {v : Sha} {d : Bool} {rest : Rest Sha} {op : Op Sha}
    (h : Rest.op d rest = some op) : ¬ Drops task v op := by
  rintro ⟨w, rest', rfl, -⟩
  cases rest with
  | done => cases h
  | landed claims => cases h
  | replaced tasks => cases h
  | retry task => cases d <;> cases h

omit [DecidableEq Lane] [DecidableEq Sha] in
/-- A commit is taken up by the answer that shows it. -/
theorem NextOp.shows {task : Text} {v : Sha} {op op' : Op Sha} {a : Answer Sha}
    (h : NextOp dateParse message s.remote op a op') (hnot : ¬ Holds task v op) (hholds : Holds task v op') :
    s.Shows task v op a := by
  unfold NextOp at h
  split at h
  case h_3 t rest reachable =>
    obtain ⟨d, hd⟩ | ⟨e, hread, rfl⟩ := h
    · exact absurd (restHolds_op hd hholds) hnot
    · obtain ⟨rfl, rfl⟩ | hr := hholds
      · exact ⟨rfl, hread⟩
      · exact absurd hr hnot
  case h_4 t e rest available liveness replaced =>
    obtain ⟨d, hd⟩ | ⟨w, -, rfl⟩ := h
    · exact absurd (.inr (restHolds_op hd hholds)) hnot
    · obtain ⟨rfl, he, -⟩ | hr := hholds
      · exact absurd (.inl ⟨rfl, Option.some.inj he⟩) hnot
      · exact absurd (.inr hr) hnot
  case h_5 claims =>
    obtain ⟨hall, rfl⟩ := h
    exact ⟨hholds, hall _ hholds⟩
  case h_6 t e claims merged indeterminate rerun =>
    obtain rfl | ⟨-, rfl⟩ := h
    · exact absurd (List.mem_cons_of_mem _ hholds) hnot
    · obtain ⟨rfl, he, -⟩ | hr := hholds
      · obtain rfl := Option.some.inj he
        exact absurd List.mem_cons_self hnot
      · exact absurd (List.mem_cons_of_mem _ hr) hnot
  case h_7 =>
    obtain ⟨tasks, rfl⟩ := h
    exact hholds.elim
  case h_8 t tasks merged x y =>
    obtain ⟨-, rfl⟩ | rfl := h
    · obtain ⟨-, he, -⟩ | hr := hholds
      · cases he
      · exact hr.elim
    · exact hholds.elim
  case h_9 t w n reachable =>
    obtain ⟨e, hread, rfl⟩ := h
    obtain ⟨rfl, rfl⟩ := hholds
    exact ⟨rfl, hread⟩
  case h_10 =>
    obtain ⟨m, rfl⟩ := h
    exact absurd hholds hnot
  case h_11 =>
    obtain ⟨w, -, rfl⟩ := h
    obtain ⟨rfl, he, -⟩ | hr := hholds
    · exact absurd ⟨rfl, Option.some.inj he⟩ hnot
    · exact hr.elim
  case h_13 =>
    obtain ⟨d, hd⟩ := h
    exact absurd (.inr (restHolds_op hd hholds)) hnot
  case h_14 => exact h.elim
  all_goals
    subst h
    exact hholds.elim

omit [DecidableEq Lane] [DecidableEq Sha] in
/-- A drop follows the answer that releases its claim. -/
theorem NextOp.releases {task : Text} {v : Sha} {remote : Refs Text Sha} {op op' : Op Sha} {a : Answer Sha}
    (h : NextOp dateParse message remote op a op') (hdrops : Drops task v op')
    (hread : ∀ m w n, op = .silentBranches task v m w n → m = v) : Releases dateParse message task v op a := by
  unfold NextOp at h
  split at h
  case h_3 =>
    obtain ⟨d, hd⟩ | ⟨e, -, rfl⟩ := h
    · exact absurd hdrops (not_drops_rest hd)
    · obtain ⟨w, rest, he, -⟩ := hdrops
      cases he
  case h_4 t e rest available liveness replaced =>
    obtain ⟨d, hd⟩ | ⟨w, hw, rfl⟩ := h
    · exact absurd hdrops (not_drops_rest hd)
    · obtain ⟨w', rest', he, -⟩ := hdrops
      cases he
      obtain ⟨havail, a, -, hparse, hdec⟩ := judgeRelease_judged hw
      exact ⟨⟨rfl, rfl⟩, havail, a, hparse, hdec⟩
  case h_6 t e claims merged indeterminate rerun =>
    obtain rfl | ⟨hmerged, rfl⟩ := h
    · obtain ⟨w, rest, he, -⟩ := hdrops
      cases he
    · obtain ⟨w, rest, he, -⟩ := hdrops
      cases he
      exact ⟨⟨rfl, rfl⟩, hmerged⟩
  case h_8 =>
    obtain ⟨-, rfl⟩ | rfl := h <;> obtain ⟨w, rest, he, -⟩ := hdrops <;> cases he
  case h_11 t e m window nowMs available mine activity =>
    obtain ⟨w, hw, rfl⟩ := h
    obtain ⟨w', rest', he, -⟩ := hdrops
    cases he
    obtain rfl := hread m window nowMs rfl
    obtain ⟨havail, hmine, a, branch, hact, -, hparse, hdec⟩ := judgeSilence_judged hw
    exact ⟨⟨rfl, rfl, rfl⟩, havail, hmine, a, branch, hact, hparse, hdec⟩
  case h_13 =>
    obtain ⟨d, hd⟩ := h
    exact absurd hdrops (not_drops_rest hd)
  case h_14 => exact h.elim
  all_goals
    obtain ⟨w, rest, rfl, -⟩ := hdrops
    simp at h

variable (dateParse message) in
/-- In the run `es` operation `i` was shown that `task` holds `v`, and a later answer to it
released that very claim. -/
def ReadAndJudged (es : List (LanesEvent Lane Sha)) (i : ℕ) (task : Text) (v : Sha) : Prop :=
  ∃ es₁ es₂ es₃ a₁ a₂, ∃ s₁ s₂ : LanesState Lane Sha, ∃ r₁ r₂,
    es = es₁ ++ .answer i a₁ :: es₂ ++ .answer i a₂ :: es₃ ∧
    Run (Step dateParse message) init es₁ s₁ ∧ s₁.ops i = some r₁ ∧ s₁.Shows task v r₁.op a₁ ∧
    Run (Step dateParse message) init (es₁ ++ .answer i a₁ :: es₂) s₂ ∧ s₂.ops i = some r₂ ∧
    Releases dateParse message task v r₂.op a₂

omit [DecidableEq Lane] [DecidableEq Sha] in
theorem Releases.holds {task : Text} {v : Sha} {op : Op Sha} {a : Answer Sha}
    (h : Releases dateParse message task v op a) : Holds task v op := by
  unfold Releases at h
  split at h
  · obtain ⟨⟨rfl, rfl⟩, -⟩ := h
    exact List.mem_cons_self
  · exact .inl h.1
  · exact ⟨h.1.1, h.1.2.1⟩
  · exact h.elim

/-- A claim that is still at its ref and about to be dropped on a judgement was read and judged. -/
theorem readAndJudged_of_drops {es : List (LanesEvent Lane Sha)} {task : Text} {v : Sha}
    (hrun : Run (Step dateParse message) init es s) (hdrops : At (Drops task v) i s)
    (hv : s.remote task = some v) : ReadAndJudged dateParse message es i task v := by
  obtain ⟨fs, a₂, es₃, s₂, r₂, op₂, rfl, h₂, hrest, hr₂, hnext₂, -, hd⟩ := run_entered hrun hdrops (by
    rintro e lane op he ⟨w, rest, rfl, hw⟩
    cases e with
    | release j lane' task' call =>
        cases call with
        | own anchor =>
            cases he
            exact hw rfl
        | _ => cases he
    | _ => cases he)
  have hreleases : Releases dateParse message task v r₂.op a₂ := by
    refine hnext₂.releases hd ?_
    intro m w n hop
    have hok := (inv_run h₂).ops_ok i r₂ hr₂
    unfold OpOk at hok
    rw [hop] at hok
    -- a tip that was replaced between the two reads is gone, and could not be at its ref now
    rcases hok.2.2 with rfl | hret
    · rfl
    · exact absurd hv ((inv_run hrun).retired_off v (retired_run hrest hret) task)
  obtain ⟨es₁, a₁, es₂, s₁, r₁, op₁, rfl, h₁, -, hr₁, hnext₁, hnot, hholds⟩ :=
    run_entered h₂ (P := Holds task v) ⟨r₂, hr₂, hreleases.holds⟩ (by
      rintro e lane op he hop
      cases e with
      | release j lane' task' call =>
          cases call with
          | own anchor =>
              cases he
              obtain ⟨-, -, hw⟩ | hr := hop
              · exact hw rfl
              · exact hr
          | evidence =>
              cases he
              obtain ⟨-, he, -⟩ | hr := hop
              · cases he
              · exact hr
          | probe =>
              cases he
              exact hop
      | answer j b => cases he
      | _ =>
          cases he
          exact hop)
  exact ⟨es₁, es₂, es₃, a₁, a₂, s₁, s₂, r₁, r₂, rfl, h₁, hr₁, hnext₁.shows hnot hholds, h₂, hr₂, hreleases⟩

/-- In every run that starts no release on evidence alone, an event that takes a claim off its
ref is the answer to a push leased on that very commit.  The pusher minted the commit itself, or
had been shown it at that ref and then been given the answer that releases it. -/
theorem claim_removed_only_by_judged_lease {es : List (LanesEvent Lane Sha)} {e : LanesEvent Lane Sha}
    {task : Text} {v : Sha} (hrun : Run (Guarded (Step dateParse message) Pinned) init es s)
    (hstep : Step dateParse message s e t) (hv : s.remote task = some v) (hne : t.remote task ≠ some v) :
    ∃ i a r, e = .answer i a ∧ s.ops i = some r ∧ Names task v r.op ∧
      (s.minted v = some r.lane ∨ (v ∈ r.reads ∧ ReadAndJudged dateParse message es i task v)) := by
  have h := inv_run hrun.of_guarded
  obtain ⟨i, a, r, rfl, hr, hresp⟩ | ⟨i, lane, op, -, -, hremote, -⟩ := step_cases hstep
  · have hnames : Names task v r.op := by
      obtain hn | ⟨w, rest, hop⟩ := respond_removes hresp hv hne
      · exact hn
      · exact absurd hop (leased_run hrun i r task w rest hr)
    have hok := h.ops_ok i r hr
    refine ⟨i, a, r, rfl, hr, hnames, ?_⟩
    unfold OpOk at hok
    cases hop : r.op with
    | renewPushing task' expect sha =>
        rw [hop] at hnames hok
        obtain ⟨-, rfl⟩ := hnames
        exact .inl hok.1
    | dropping task' expect w rest =>
        rw [hop] at hnames hok
        cases expect with
        | none => exact hnames.elim
        | some e =>
            obtain ⟨rfl, rfl⟩ := hnames
            obtain hm | ⟨hw, hread⟩ := hok.2.cases
            · exact .inl hm
            · exact .inr ⟨hread, readAndJudged_of_drops hrun.of_guarded ⟨r, hr, w, rest, hop, hw⟩ hv⟩
    | _ => rw [hop] at hnames; exact hnames.elim
  · rw [hremote] at hne
    exact absurd hv hne

end Steps

/-- Lane `1` claims two tasks; the sweep of lane `2` lists both, keeps the one whose task is due
for a re-run and is told that the other one is merged. -/
def landedEvents : List (LanesEvent ℕ ℕ) :=
  [.attempt 0 1 ['T'] 0, .answer 0 (.push .answered), .attempt 1 1 ['U'] 1, .answer 1 (.push .answered),
    .sweepLanded 2 2, .answer 2 (.listing [(['U'], 1), (['T'], 0)]), .answer 2 (.judged true false true),
    .answer 2 (.judged true false false)]

theorem landed_claim_removed_by_judged_lease :
    ∃ s t : LanesState ℕ ℕ, s.remote ['T'] = some 0 ∧ t.remote ['T'] = none ∧ t.remote ['U'] = some 1 ∧
      ∃ i r, s.ops i = some r ∧ r.lane = 2 ∧ Names ['T'] 0 r.op ∧
        ReadAndJudged (fun _ => none) (fun _ => []) landedEvents i ['T'] 0 := by
  have hrun : ∃ s t : LanesState ℕ ℕ, Run (Guarded (Step (fun _ => none) (fun _ => [])) Pinned) init landedEvents s ∧
      Step (fun _ => none) (fun _ => []) s (.answer 2 (.push .answered)) t ∧ s.minted 0 = some 1 ∧
      (∀ r, s.ops 2 = some r → r.lane = 2) ∧
      s.remote ['T'] = some 0 ∧ t.remote ['T'] = none ∧ t.remote ['U'] = some 1 := by
    have hpinned : ∀ {s : LanesState ℕ ℕ} {r : Running ℕ ℕ} {claims} {merged x y : Bool},
        s.ops 2 = some r → r.op = .landedNext claims → Pinned s (.answer 2 (.judged merged x y)) := by
      intro s r claims merged x y hr hop q task tasks hq hop'
      rw [hr] at hq
      obtain rfl := Option.some.inj hq
      rw [hop] at hop'
      cases hop'
    refine ⟨_, _, .cons ⟨rfl, trivial⟩ (.cons ⟨rfl, trivial⟩ (.cons ⟨rfl, trivial⟩ (.cons ⟨rfl, trivial⟩
      (.cons ⟨rfl, trivial⟩ (.cons ⟨rfl, trivial⟩ (.cons ⟨rfl, hpinned rfl rfl⟩
      (.single ⟨rfl, hpinned rfl rfl⟩))))))), rfl, rfl, ?_, rfl, rfl, rfl⟩
    intro r hr
    obtain rfl := Option.some.inj hr
    rfl
  obtain ⟨s, t, hr, hs, hminted, hlane, hv, ht, hu⟩ := hrun
  obtain ⟨i, a, r, he, hop, hnames, hown | ⟨-, hjudged⟩⟩ :=
    claim_removed_only_by_judged_lease hr hs hv (by rw [ht]; simp)
  · cases he
    rw [hminted, hlane r hop] at hown
    cases hown
  · cases he
    exact ⟨s, t, hv, ht, hu, 2, r, hop, hlane r hop, hnames, hjudged⟩

/-- Lane `2` is told that a task's work landed and is about to release its claim; lane `1` claims
the task anew; the release deletes that claim, which lane `2` never read. -/
theorem unread_claim_deleted :
    ∃ s t : LanesState ℕ ℕ,
      Run (Step (fun _ => none) (fun _ => [])) init
        [.release 0 2 ['T'] .evidence, .attempt 1 1 ['T'] 0, .answer 1 (.push .answered)] s ∧
      Step (fun _ => none) (fun _ => []) s (.answer 0 (.push .answered)) t ∧
      s.minted 0 = some 1 ∧ s.remote ['T'] = some 0 ∧ t.remote ['T'] = none ∧
      ∃ r, s.ops 0 = some r ∧ r.lane = 2 ∧ r.reads = [] ∧ ¬ Names ['T'] 0 r.op := by
  refine ⟨_, _, .cons rfl (.cons rfl (.single rfl)), rfl, rfl, rfl, rfl, _, rfl, rfl, rfl, ?_⟩
  exact id

end LanesState

end Remudero.Claim
