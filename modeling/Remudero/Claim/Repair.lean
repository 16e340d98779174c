import Remudero.Lib.Refs
import Remudero.Lib.Transition
import Remudero.Claim.Anchor

/-! # Repair claims

`claimRepair` and `gitRepairClaimReserver` of `lib/dispatch-claim.ts`: an advisory claim on the
repair of an open pull request, a commit at `refs/rmd-repair/<number>` that expires.  A caller
pushes its anchor if the ref is absent; when the push is refused it reads the ref, and replaces a
claim older than its ttl by a push leased on the anchor it read.

Any number of callers run against one remote.  A call is a list of commands and one event is the
answer to one of them, so a run is an arbitrary interleaving; holders' releases and other
removals of a ref happen at any time.

`repair_claims_exclude` is the main result: between two changes of a ref at most one caller is
told that it holds the claim, only an expired claim is replaced, and one expired claim is
replaced for one caller only.

`JSON.parse` is the parameter `jsonParse`, giving the three fields a claim is read from, and
`Date.parse` is `dateParse`. -/

namespace Remudero.Claim

open Remudero.Lib

/-! ### The recorded claim -/

/-- The payload of a repair claim's message as `JSON.parse` returns it: a field is `none` when it
is absent or not of its type, and `prNumber` also when it is not a safe integer. -/
structure RepairPayload where
  prNumber : Option ℤ
  holder : Option Text
  claimedAtIso : Option Text
deriving DecidableEq, Repr

/-- A claim as it is read off the remote. -/
structure RepairClaim (Sha : Type) where
  anchor : Sha
  prNumber : ℤ
  holder : Text
  claimedAtIso : Text
deriving DecidableEq, Repr

def repairClaimMessagePrefix : Text := "rmd-repair claim v1".toList

/-- `lines.join("\n")`. -/
def joinLines : List Text → Text
  | [] => []
  | [l] => l
  | l :: ls => l ++ '\n' :: joinLines ls

variable {Sha : Type} (jsonParse : Text → Option RepairPayload) (dateParse : Text → Option ℤ)
  (message : Sha → Text)

def parseRepairClaim (anchor : Sha) (text : Text) : Option (RepairClaim Sha) :=
  match Text.splitBy (· == '\n') (Text.trim text) with
  | [] => none
  | first :: lines =>
      if first ≠ repairClaimMessagePrefix then none
      else match jsonParse (joinLines lines) with
        | some ⟨some prNumber, some holder, some iso⟩ =>
            if prNumber ≤ 0 ∨ holder.isEmpty then none else some ⟨anchor, prNumber, holder, iso⟩
        | _ => none

/-- The claim `read` reports for the tip `anchor`; one that does not decode has no valid time. -/
def readRepairClaim (prNumber : ℤ) (anchor : Sha) : RepairClaim Sha :=
  (parseRepairClaim jsonParse anchor (message anchor)).getD
    ⟨anchor, prNumber, "unknown".toList, "invalid".toList⟩

theorem readRepairClaim_anchor (prNumber : ℤ) (anchor : Sha) :
    (readRepairClaim jsonParse message prNumber anchor).anchor = anchor := by
  unfold readRepairClaim parseRepairClaim
  split
  · rfl
  · split
    · rfl
    · split
      · split <;> rfl
      · rfl

/-- The age of a claim at `nowMs`, from the time recorded in it. -/
def recordedAge (nowMs : ℚ) (claim : RepairClaim Sha) : Option ℚ :=
  (dateParse claim.claimedAtIso).map fun claimedAtMs => max 0 (nowMs - claimedAtMs)

/-! ### Decisions -/

structure RepairInput where
  prNumber : ℤ
  holder : Text
  nowMs : ℚ
  ttlMs : ℚ
deriving DecidableEq, Repr

/-- The inputs `claimRepair` does not throw on. -/
def RepairInput.valid (input : RepairInput) : Bool :=
  0 < input.prNumber && input.prNumber ≤ 2 ^ 53 - 1 && 0 < input.ttlMs

def repairClaimRef (prNumber : ℤ) : Text := "refs/rmd-repair/".toList ++ (toString prNumber).toList

inductive RepairOutcome where
  | created | taken | reclaimed | lost | unreachable | unreadable
deriving DecidableEq, Repr

structure RepairClaimDecision (Sha : Type) where
  claimed : Bool
  outcome : RepairOutcome
  reason : Text
  anchor : Option Sha
  holder : Option Text
  previousHolder : Option Text
  ageMs : Option ℚ

variable (showMs : ℚ → Text)

def createdDecision (input : RepairInput) (anchor : Sha) : RepairClaimDecision Sha :=
  ⟨true, .created, "claimed ".toList ++ repairClaimRef input.prNumber ++ " for ".toList ++ input.holder,
    some anchor, some input.holder, none, some 0⟩

def claimUnreachable (input : RepairInput) : RepairClaimDecision Sha :=
  ⟨false, .unreachable, "cannot reach origin to claim ".toList ++ repairClaimRef input.prNumber ++
    "; repair diagnosis withheld".toList, none, none, none, none⟩

def readUnreachable (input : RepairInput) (reason : Text) : RepairClaimDecision Sha :=
  let detail := if reason.isEmpty then [] else ": ".toList ++ reason
  ⟨false, .unreachable, "cannot read the holder of ".toList ++ repairClaimRef input.prNumber ++ detail ++
    "; repair diagnosis withheld".toList, none, none, none, none⟩

def readAbsent (input : RepairInput) : RepairClaimDecision Sha :=
  ⟨false, .lost, repairClaimRef input.prNumber ++
    " changed while it was being inspected; retry from fresh state".toList, none, none, none, none⟩

def unreadableDecision (input : RepairInput) (current : RepairClaim Sha) : RepairClaimDecision Sha :=
  ⟨false, .unreadable, repairClaimRef input.prNumber ++
    " carries an invalid timestamp; expiry cannot be established".toList, none, some current.holder, none, none⟩

def takenDecision (input : RepairInput) (current : RepairClaim Sha) (ageMs : ℚ) : RepairClaimDecision Sha :=
  ⟨false, .taken, repairClaimRef input.prNumber ++ " is held by ".toList ++ current.holder ++ ", age ".toList ++
    showMs ageMs ++ "ms".toList, none, some current.holder, none, some ageMs⟩

def reclaimedDecision (input : RepairInput) (anchor : Sha) (current : RepairClaim Sha) (ageMs : ℚ) :
    RepairClaimDecision Sha :=
  ⟨true, .reclaimed, "reclaimed expired ".toList ++ repairClaimRef input.prNumber ++ " from ".toList ++
    current.holder ++ " at age ".toList ++ showMs ageMs ++ "ms".toList,
    some anchor, some input.holder, some current.holder, some ageMs⟩

def replaceFailed (input : RepairInput) (current : RepairClaim Sha) (ageMs : ℚ) (lost : Bool) :
    RepairClaimDecision Sha :=
  if lost then
    ⟨false, .lost, repairClaimRef input.prNumber ++
      " changed before expired-claim takeover; another repairer won".toList, none, some current.holder, none,
      some ageMs⟩
  else
    ⟨false, .unreachable, "cannot reach origin to replace expired ".toList ++ repairClaimRef input.prNumber ++
      "; repair diagnosis withheld".toList, none, some current.holder, none, some ageMs⟩

/-! ### Callers on one remote -/

/-- The command a call is about to issue, or how it ended. -/
inductive RepairPc (Sha : Type) where
  | attempting
  | reading
  | replacing (current : RepairClaim Sha) (ageMs : ℚ)
  /-- returned; `judged` is the claim it had found expired -/
  | told (decision : RepairClaimDecision Sha) (judged : Option (RepairClaim Sha))
  | threw

/-- The call still has a command to issue. -/
def RepairPc.pending : RepairPc Sha → Bool
  | .attempting => true
  | .reading => true
  | .replacing _ _ => true
  | _ => false

/-- A call of `claimRepair` and the anchor it minted. -/
structure RepairCall (Sha : Type) where
  input : RepairInput
  anchor : Sha
  pc : RepairPc Sha

/-- The remote and the calls made so far, in the order they were made. -/
structure RepairState (Sha : Type) where
  remote : Refs ℤ Sha
  calls : List (RepairCall Sha)

/-- How a push ended.  A push whose answer is lost was applied and is reported as a broken
connection, never as a rejection. -/
inductive RepairAnswer where
  | ok
  | refused (stderr : Text)
  | replyLost
deriving DecidableEq, Repr

/-- One event: a call is made, a command of call `i` is answered, or a ref is removed. -/
inductive RepairEvent (Sha : Type) where
  | call (input : RepairInput) (anchor : Sha)
  | attempted (i : ℕ) (answer : RepairAnswer)
  /-- `ls-remote`, then `fetch` and `show` of the anchor it named; `failure` is the text of the
  command that failed -/
  | read (i : ℕ) (failure : Option Text)
  | replaced (i : ℕ) (answer : RepairAnswer)
  /-- a guard in front of a push, or git itself, threw -/
  | threw (i : ℕ)
  /-- a holder's `drop` of its anchor -/
  | drop (prNumber : ℤ) (expected : Sha)
  /-- any other removal of the ref -/
  | remove (prNumber : ℤ)

namespace RepairState

def init : RepairState Sha where
  remote := fun _ => none
  calls := []

def setPc (s : RepairState Sha) (i : ℕ) (c : RepairCall Sha) (pc : RepairPc Sha) : RepairState Sha :=
  { s with calls := s.calls.set i { c with pc := pc } }

variable [DecidableEq Sha]

/-- The answer to `attempt`. -/
def answerAttempt (s : RepairState Sha) (i : ℕ) (c : RepairCall Sha) : RepairAnswer → Option (RepairState Sha)
  | .ok => (s.remote.create c.input.prNumber c.anchor).map fun remote =>
      { s with remote := remote }.setPc i c (.told (createdDecision c.input c.anchor) none)
  | .refused stderr =>
      if pushFailureTaken stderr then some (s.setPc i c .reading)
      else some (s.setPc i c (.told (claimUnreachable c.input) none))
  | .replyLost => (s.remote.create c.input.prNumber c.anchor).map fun remote =>
      { s with remote := remote }.setPc i c (.told (claimUnreachable c.input) none)

/-- The decision made on the claim that was read. -/
def judgeRead (c : RepairCall Sha) (current : RepairClaim Sha) : RepairPc Sha :=
  match recordedAge dateParse c.input.nowMs current with
  | none => .told (unreadableDecision c.input current) none
  | some ageMs =>
      if ageMs < c.input.ttlMs then .told (takenDecision showMs c.input current ageMs) none
      else .replacing current ageMs

/-- The answer to `read`. -/
def answerRead (s : RepairState Sha) (i : ℕ) (c : RepairCall Sha) (failure : Option Text) : RepairState Sha :=
  match failure, s.remote c.input.prNumber with
  | some reason, _ => s.setPc i c (.told (readUnreachable c.input reason) none)
  | none, none => s.setPc i c (.told (readAbsent c.input) none)
  | none, some anchor =>
      s.setPc i c (judgeRead dateParse showMs c (readRepairClaim jsonParse message c.input.prNumber anchor))

/-- The answer to `replace`. -/
def answerReplace (s : RepairState Sha) (i : ℕ) (c : RepairCall Sha) (current : RepairClaim Sha) (ageMs : ℚ) :
    RepairAnswer → Option (RepairState Sha)
  | .ok => (s.remote.lease c.input.prNumber current.anchor (some c.anchor)).map fun remote =>
      { s with remote := remote }.setPc i c
        (.told (reclaimedDecision showMs c.input c.anchor current ageMs) (some current))
  | .refused stderr =>
      some (s.setPc i c (.told (replaceFailed c.input current ageMs (pushFailureTaken stderr)) (some current)))
  | .replyLost => (s.remote.lease c.input.prNumber current.anchor (some c.anchor)).map fun remote =>
      { s with remote := remote }.setPc i c (.told (replaceFailed c.input current ageMs false) (some current))

/-- One event; `none` when it is not possible in the state. -/
def next (s : RepairState Sha) : RepairEvent Sha → Option (RepairState Sha)
  | .call input anchor =>
      if input.valid ∧ anchor ∉ s.calls.map (·.anchor) then
        some { s with calls := s.calls ++ [⟨input, anchor, .attempting⟩] }
      else none
  | .attempted i answer =>
      match s.calls[i]? with
      | some c => match c.pc with
        | .attempting => s.answerAttempt i c answer
        | _ => none
      | none => none
  | .read i failure =>
      match s.calls[i]? with
      | some c => match c.pc with
        | .reading => some (s.answerRead jsonParse dateParse message showMs i c failure)
        | _ => none
      | none => none
  | .replaced i answer =>
      match s.calls[i]? with
      | some c => match c.pc with
        | .replacing current ageMs => s.answerReplace showMs i c current ageMs answer
        | _ => none
      | none => none
  | .threw i =>
      match s.calls[i]? with
      | some c => if c.pc.pending then some (s.setPc i c .threw) else none
      | none => none
  | .drop prNumber expected =>
      (s.remote.lease prNumber expected none).map fun remote => { s with remote := remote }
  | .remove prNumber =>
      (s.remote.erase prNumber).map fun remote => { s with remote := remote }

/-- The steps of the callers. -/
def Step (s : RepairState Sha) (e : RepairEvent Sha) (t : RepairState Sha) : Prop :=
  s.next jsonParse dateParse message showMs e = some t

/-- Call `i` was told `claimed: true` for the pull request `pr`. -/
def Told (pr : ℤ) (i : ℕ) (s : RepairState Sha) : Prop :=
  ∃ (c : RepairCall Sha) (decision : RepairClaimDecision Sha) (judged : Option (RepairClaim Sha)),
    s.calls[i]? = some c ∧ c.input.prNumber = pr ∧ c.pc = .told decision judged ∧ decision.claimed = true

/-- A step that neither removes nor replaces the claim at `pr`. -/
def KeepsClaim (pr : ℤ) (s : RepairState Sha) (e : RepairEvent Sha) (t : RepairState Sha) : Prop :=
  Step jsonParse dateParse message showMs s e t ∧ ∀ v, s.remote pr = some v → t.remote pr = some v

end RepairState

/-! ### The invariant -/

/-- The anchor of the claim that was replaced for the call. -/
def RepairPc.took : RepairPc Sha → Option Sha
  | .told d (some current) => if d.claimed then some current.anchor else none
  | _ => none

/-- The call ended with `claimed: true`. -/
def RepairPc.claims : RepairPc Sha → Bool
  | .told d _ => d.claimed
  | _ => false

namespace RepairState

/-- The invariant of the callers.  An anchor reaches a ref by its own call only and at most once,
so a claim that was replaced never returns. -/
structure Inv (s : RepairState Sha) : Prop where
  distinct : ∀ (i j : ℕ) (c d : RepairCall Sha), s.calls[i]? = some c → s.calls[j]? = some d → c.anchor = d.anchor → i = j
  born : ∀ pr v, s.remote pr = some v → ∃ (i : ℕ) (c : RepairCall Sha), s.calls[i]? = some c ∧ c.anchor = v ∧
    c.input.prNumber = pr ∧ c.pc.pending = false
  judged : ∀ (i : ℕ) (c : RepairCall Sha) (current : RepairClaim Sha) (ageMs : ℚ), s.calls[i]? = some c → c.pc = .replacing current ageMs →
    current = readRepairClaim jsonParse message c.input.prNumber current.anchor ∧
      recordedAge dateParse c.input.nowMs current = some ageMs ∧ c.input.ttlMs ≤ ageMs
  taken : ∀ (i : ℕ) (c : RepairCall Sha) (v : Sha), s.calls[i]? = some c → c.pc.took = some v → (∀ pr, s.remote pr ≠ some v) ∧
    ∃ (j : ℕ) (d : RepairCall Sha), s.calls[j]? = some d ∧ d.anchor = v ∧ d.pc.pending = false
  one_taker : ∀ (i j : ℕ) (c d : RepairCall Sha) (v : Sha), s.calls[i]? = some c → s.calls[j]? = some d → c.pc.took = some v →
    d.pc.took = some v → i = j

theorem inv_init : Inv jsonParse dateParse message (init : RepairState Sha) where
  distinct := by intro i j c d h; simp [init] at h
  born := by intro pr v h; simp [init] at h
  judged := by intro i c current ageMs h; simp [init] at h
  taken := by intro i c v h; simp [init] at h
  one_taker := by intro i j c d v h; simp [init] at h

variable {jsonParse dateParse message showMs} {s t : RepairState Sha} {i : ℕ} {c : RepairCall Sha}

theorem setPc_calls (hi : s.calls[i]? = some c) (pc : RepairPc Sha) (j : ℕ) :
    (s.setPc i c pc).calls[j]? = if j = i then some { c with pc := pc } else s.calls[j]? := by
  have hlt : i < s.calls.length := (List.getElem?_eq_some_iff.mp hi).1
  by_cases hji : j = i
  · subst hji
    simp [setPc, hlt]
  · simp [setPc, hji, List.getElem?_set_ne (Ne.symm hji)]

/-- Calls of the state after call `i` moved. -/
theorem setPc_call {pc : RepairPc Sha} {j : ℕ} {d : RepairCall Sha} (hi : s.calls[i]? = some c)
    (h : (s.setPc i c pc).calls[j]? = some d) :
    (j = i ∧ d = { c with pc := pc }) ∨ (j ≠ i ∧ s.calls[j]? = some d) := by
  rw [setPc_calls hi] at h
  split at h
  next hj => exact .inl ⟨hj, (Option.some.inj h).symm⟩
  next hj => exact .inr ⟨hj, h⟩

/-- A finished call is not the one that moves. -/
theorem Inv.other (h : Inv jsonParse dateParse message s) (hi : s.calls[i]? = some c) (hp : c.pc.pending = true)
    {j : ℕ} {d : RepairCall Sha} (hj : s.calls[j]? = some d) (hd : d.pc.pending = false) :
    j ≠ i ∧ d.anchor ≠ c.anchor := by
  have hne : j ≠ i := by
    rintro rfl
    rw [hi] at hj
    obtain rfl := Option.some.inj hj
    rw [hp] at hd
    cases hd
  exact ⟨hne, fun ha => hne (h.distinct j i d c hj hi ha)⟩

/-- A pending call moves and, if it is done, may leave its anchor at its ref. -/
theorem Inv.move (h : Inv jsonParse dateParse message s) (hi : s.calls[i]? = some c) (hp : c.pc.pending = true)
    {remote : Refs ℤ Sha} {pc : RepairPc Sha}
    (hset : ∀ pr v, remote pr = some v →
      s.remote pr = some v ∨ (pr = c.input.prNumber ∧ v = c.anchor ∧ pc.pending = false))
    (hjudged : ∀ current ageMs, pc = .replacing current ageMs →
      current = readRepairClaim jsonParse message c.input.prNumber current.anchor ∧
        recordedAge dateParse c.input.nowMs current = some ageMs ∧ c.input.ttlMs ≤ ageMs)
    (htook : ∀ v, pc.took = some v → s.remote c.input.prNumber = some v ∧ remote c.input.prNumber = some c.anchor) :
    Inv jsonParse dateParse message { s.setPc i c pc with remote := remote } := by
  have hkeep : ∀ {j : ℕ} {d : RepairCall Sha}, s.calls[j]? = some d → d.pc.pending = false → (s.setPc i c pc).calls[j]? = some d := by
    intro j d hj hd
    rw [setPc_calls hi, if_neg (h.other hi hp hj hd).1]
    exact hj
  have hgone : ∀ v, pc.took = some v → (∀ pr, remote pr ≠ some v) ∧
      ∃ (j : ℕ) (d : RepairCall Sha), s.calls[j]? = some d ∧ d.anchor = v ∧ d.pc.pending = false := by
    intro v hv
    obtain ⟨hat, hnow⟩ := htook v hv
    obtain ⟨j, d, hj, hda, hdpr, hd⟩ := h.born _ v hat
    obtain ⟨-, hne⟩ := h.other hi hp hj hd
    refine ⟨?_, j, d, hj, hda, hd⟩
    intro pr hpr
    rcases hset pr v hpr with hold | ⟨rfl, rfl, -⟩
    · obtain ⟨k, e, hk, hea, hepr, -⟩ := h.born pr v hold
      obtain rfl := h.distinct j k d e hj hk (by rw [hda, hea])
      rw [hj] at hk
      obtain rfl := Option.some.inj hk
      rw [← hepr, hdpr, hnow] at hpr
      exact hne (by rw [hda]; exact (Option.some.inj hpr).symm)
    · exact hne hda
  have hstill : ∀ (j : ℕ) (d : RepairCall Sha) (v : Sha), s.calls[j]? = some d → d.pc.took = some v → ∀ pr, remote pr ≠ some v := by
    intro j d v hj hv pr hpr
    obtain ⟨hoff, k, e, hk, hea, he⟩ := h.taken j d v hj hv
    rcases hset pr v hpr with hold | ⟨-, rfl, -⟩
    · exact hoff pr hold
    · exact (h.other hi hp hk he).2 hea
  constructor
  · intro j k d e hj hk hde
    rcases setPc_call hi hj with ⟨rfl, rfl⟩ | ⟨-, hj'⟩ <;> rcases setPc_call hi hk with ⟨rfl, rfl⟩ | ⟨-, hk'⟩
    · rfl
    · exact h.distinct _ _ c e hi hk' hde
    · exact h.distinct _ _ d c hj' hi hde
    · exact h.distinct _ _ d e hj' hk' hde
  · intro pr v hv
    rcases hset pr v hv with hold | ⟨rfl, rfl, hpc⟩
    · obtain ⟨j, d, hj, hda, hdpr, hd⟩ := h.born pr v hold
      exact ⟨j, d, hkeep hj hd, hda, hdpr, hd⟩
    · refine ⟨i, { c with pc := pc }, ?_, rfl, rfl, hpc⟩
      show (s.setPc i c pc).calls[i]? = _
      rw [setPc_calls hi, if_pos rfl]
  · intro j d current ageMs hj hd
    rcases setPc_call hi hj with ⟨-, rfl⟩ | ⟨-, hj⟩
    · exact hjudged current ageMs hd
    · exact h.judged j d current ageMs hj hd
  · intro j d v hj hv
    have hold : (∀ pr, remote pr ≠ some v) ∧ ∃ (j : ℕ) (d : RepairCall Sha), s.calls[j]? = some d ∧ d.anchor = v ∧ d.pc.pending = false := by
      rcases setPc_call hi hj with ⟨-, rfl⟩ | ⟨-, hj⟩
      · exact hgone v hv
      · exact ⟨hstill j d v hj hv, (h.taken j d v hj hv).2⟩
    obtain ⟨hoff, k, e, hk, hea, he⟩ := hold
    exact ⟨hoff, k, e, hkeep hk he, hea, he⟩
  · intro j k d e v hj hk hd he
    rcases setPc_call hi hj with ⟨rfl, rfl⟩ | ⟨-, hj'⟩ <;> rcases setPc_call hi hk with ⟨rfl, rfl⟩ | ⟨-, hk'⟩
    · rfl
    · exact absurd (htook v hd).1 ((h.taken k e v hk' he).1 _)
    · exact absurd (htook v he).1 ((h.taken j d v hj' hd).1 _)
    · exact h.one_taker j k d e v hj' hk' hd he

/-- A pending call moves and touches nothing else. -/
theorem Inv.setPc (h : Inv jsonParse dateParse message s) (hi : s.calls[i]? = some c) (hp : c.pc.pending = true)
    {pc : RepairPc Sha}
    (hjudged : ∀ current ageMs, pc = .replacing current ageMs →
      current = readRepairClaim jsonParse message c.input.prNumber current.anchor ∧
        recordedAge dateParse c.input.nowMs current = some ageMs ∧ c.input.ttlMs ≤ ageMs)
    (htook : pc.took = none) : Inv jsonParse dateParse message (s.setPc i c pc) :=
  h.move hi hp (fun _ _ hv => .inl hv) hjudged fun v hv => by rw [htook] at hv; cases hv

theorem call_cases {calls : List (RepairCall Sha)} {j : ℕ} {d e : RepairCall Sha}
    (h : (calls ++ [d])[j]? = some e) : calls[j]? = some e ∨ (j = calls.length ∧ e = d) := by
  rcases Nat.lt_or_ge j calls.length with hj | hj
  · rw [List.getElem?_append_left hj] at h
    exact .inl h
  · rw [List.getElem?_append_right hj] at h
    have hlen : j - calls.length = 0 := by
      have hlt := (List.getElem?_eq_some_iff.mp h).1
      simp only [List.length_singleton] at hlt
      omega
    rw [hlen] at h
    exact .inr ⟨by omega, (Option.some.inj h).symm⟩

/-- A new call mints an anchor of its own. -/
theorem Inv.call (h : Inv jsonParse dateParse message s) {input : RepairInput} {anchor : Sha}
    (hfresh : anchor ∉ s.calls.map (·.anchor)) :
    Inv jsonParse dateParse message { s with calls := s.calls ++ [⟨input, anchor, .attempting⟩] } := by
  have hkeep : ∀ {j : ℕ} {d : RepairCall Sha}, s.calls[j]? = some d →
      (s.calls ++ [⟨input, anchor, .attempting⟩])[j]? = some d := by
    intro j d hj
    rw [List.getElem?_append_left (List.getElem?_eq_some_iff.mp hj).1]
    exact hj
  have hne : ∀ {j : ℕ} {d : RepairCall Sha}, s.calls[j]? = some d → d.anchor ≠ anchor := by
    intro j d hj ha
    exact hfresh (List.mem_map.mpr ⟨d, List.mem_of_getElem? hj, ha⟩)
  constructor
  · intro j k d e hj hk hde
    rcases call_cases hj with hj' | ⟨rfl, rfl⟩ <;> rcases call_cases hk with hk' | ⟨rfl, rfl⟩
    · exact h.distinct j k d e hj' hk' hde
    · exact absurd hde (hne hj')
    · exact absurd hde.symm (hne hk')
    · rfl
  · intro pr v hv
    obtain ⟨j, d, hj, hd⟩ := h.born pr v hv
    exact ⟨j, d, hkeep hj, hd⟩
  · intro j d current ageMs hj hd
    rcases call_cases hj with hj' | ⟨-, rfl⟩
    · exact h.judged j d current ageMs hj' hd
    · cases hd
  · intro j d v hj hv
    rcases call_cases hj with hj' | ⟨-, rfl⟩
    · obtain ⟨hoff, k, e, hk, he⟩ := h.taken j d v hj' hv
      exact ⟨hoff, k, e, hkeep hk, he⟩
    · cases hv
  · intro j k d e v hj hk hd he
    rcases call_cases hj with hj' | ⟨-, rfl⟩ <;> rcases call_cases hk with hk' | ⟨-, rfl⟩
    · exact h.one_taker j k d e v hj' hk' hd he
    · cases he
    · cases hd
    · cases hd

/-- A removal of a ref. -/
theorem Inv.removed (h : Inv jsonParse dateParse message s) {remote : Refs ℤ Sha} {pr : ℤ}
    (hr : remote = Function.update s.remote pr none) :
    Inv jsonParse dateParse message { s with remote := remote } where
  distinct := h.distinct
  born := by
    intro pr' v hv
    have hv' : remote pr' = some v := hv
    rw [hr] at hv'
    by_cases hp : pr' = pr
    · subst hp
      simp at hv'
    · rw [Function.update_of_ne hp] at hv'
      exact h.born pr' v hv'
  judged := h.judged
  taken := by
    intro i c v hi hv
    obtain ⟨hoff, hminted⟩ := h.taken i c v hi hv
    refine ⟨?_, hminted⟩
    intro pr' hpr
    have hpr' : remote pr' = some v := hpr
    rw [hr] at hpr'
    by_cases hp : pr' = pr
    · subst hp
      simp at hpr'
    · rw [Function.update_of_ne hp] at hpr'
      exact hoff pr' hpr'
  one_taker := h.one_taker

variable [DecidableEq Sha]

/-- An anchor still to be pushed is not at its ref, so creating it finds the ref absent. -/
theorem Inv.create_eq (h : Inv jsonParse dateParse message s) (hi : s.calls[i]? = some c)
    (hp : c.pc.pending = true) {remote : Refs ℤ Sha}
    (hc : s.remote.create c.input.prNumber c.anchor = some remote) :
    s.remote c.input.prNumber = none ∧ remote = Function.update s.remote c.input.prNumber (some c.anchor) := by
  unfold Refs.create at hc
  split at hc
  next hnone => exact ⟨hnone, (Option.some.inj hc).symm⟩
  next w hw =>
    split at hc
    next heq =>
      obtain ⟨j, d, hj, hda, -, hd⟩ := h.born _ w hw
      exact absurd (by rw [hda, heq]) (h.other hi hp hj hd).2
    · cases hc

theorem inv_answerAttempt (h : Inv jsonParse dateParse message s) (hi : s.calls[i]? = some c)
    (hpc : c.pc = .attempting) {answer : RepairAnswer} (hstep : s.answerAttempt i c answer = some t) :
    Inv jsonParse dateParse message t := by
  have hp : c.pc.pending = true := by rw [hpc]; rfl
  -- the anchor is at the ref now, whatever the caller is told
  have created : ∀ remote d, s.remote.create c.input.prNumber c.anchor = some remote →
      Inv jsonParse dateParse message { s.setPc i c (.told d none) with remote := remote } := by
    intro remote d hc
    obtain ⟨-, rfl⟩ := h.create_eq hi hp hc
    refine h.move hi hp ?_ (fun _ _ hr => by cases hr) (fun v hv => by cases hv)
    intro pr v hv
    by_cases hpr : pr = c.input.prNumber
    · subst hpr
      rw [Function.update_self] at hv
      exact .inr ⟨rfl, (Option.some.inj hv).symm, rfl⟩
    · rw [Function.update_of_ne hpr] at hv
      exact .inl hv
  cases answer with
  | ok =>
      obtain ⟨remote, hc, rfl⟩ := Option.map_eq_some_iff.mp hstep
      exact created remote _ hc
  | refused stderr =>
      unfold answerAttempt at hstep
      simp only at hstep
      split at hstep
      · obtain rfl := Option.some.inj hstep
        exact h.setPc hi hp (fun _ _ hr => by cases hr) rfl
      · obtain rfl := Option.some.inj hstep
        exact h.setPc hi hp (fun _ _ hr => by cases hr) rfl
  | replyLost =>
      obtain ⟨remote, hc, rfl⟩ := Option.map_eq_some_iff.mp hstep
      exact created remote _ hc

omit [DecidableEq Sha] in
theorem inv_answerRead (h : Inv jsonParse dateParse message s) (hi : s.calls[i]? = some c)
    (hpc : c.pc = .reading) (failure : Option Text) :
    Inv jsonParse dateParse message (s.answerRead jsonParse dateParse message showMs i c failure) := by
  have hp : c.pc.pending = true := by rw [hpc]; rfl
  unfold answerRead
  split
  · exact h.setPc hi hp (fun _ _ hr => by cases hr) rfl
  · exact h.setPc hi hp (fun _ _ hr => by cases hr) rfl
  next anchor hat =>
    unfold judgeRead
    split
    · exact h.setPc hi hp (fun _ _ hr => by cases hr) rfl
    next ageMs hage =>
      split
      · exact h.setPc hi hp (fun _ _ hr => by cases hr) rfl
      next hold =>
        refine h.setPc hi hp ?_ rfl
        intro current age hr
        obtain ⟨rfl, rfl⟩ := RepairPc.replacing.inj hr
        exact ⟨by rw [readRepairClaim_anchor], hage, not_lt.mp hold⟩

theorem inv_answerReplace (h : Inv jsonParse dateParse message s) (hi : s.calls[i]? = some c)
    {current : RepairClaim Sha} {ageMs : ℚ} (hpc : c.pc = .replacing current ageMs) {answer : RepairAnswer}
    (hstep : s.answerReplace showMs i c current ageMs answer = some t) : Inv jsonParse dateParse message t := by
  have hp : c.pc.pending = true := by rw [hpc]; rfl
  have replaced : ∀ remote d, s.remote.lease c.input.prNumber current.anchor (some c.anchor) = some remote →
      Inv jsonParse dateParse message { s.setPc i c (.told d (some current)) with remote := remote } := by
    intro remote d hl
    obtain ⟨hat, rfl⟩ := Refs.lease_eq hl
    refine h.move hi hp ?_ (fun _ _ hr => by cases hr) ?_
    · intro pr v hv
      by_cases hpr : pr = c.input.prNumber
      · subst hpr
        rw [Function.update_self] at hv
        exact .inr ⟨rfl, (Option.some.inj hv).symm, rfl⟩
      · rw [Function.update_of_ne hpr] at hv
        exact .inl hv
    · intro v hv
      have hv' : (if d.claimed then some current.anchor else none) = some v := hv
      split at hv'
      · rw [← hv']
        exact ⟨hat, Function.update_self ..⟩
      · cases hv'
  cases answer with
  | ok =>
      obtain ⟨remote, hl, rfl⟩ := Option.map_eq_some_iff.mp hstep
      exact replaced remote _ hl
  | refused stderr =>
      obtain rfl := Option.some.inj hstep
      refine h.setPc hi hp (fun _ _ hr => by cases hr) ?_
      unfold replaceFailed
      split <;> rfl
  | replyLost =>
      obtain ⟨remote, hl, rfl⟩ := Option.map_eq_some_iff.mp hstep
      exact replaced remote _ hl

/-- Every event keeps the invariant. -/
theorem inv_step {e : RepairEvent Sha} (h : Inv jsonParse dateParse message s)
    (hstep : Step jsonParse dateParse message showMs s e t) : Inv jsonParse dateParse message t := by
  unfold Step next at hstep
  cases e with
  | call input anchor =>
      simp only at hstep
      split at hstep
      next hok =>
        obtain rfl := Option.some.inj hstep
        exact h.call hok.2
      · cases hstep
  | attempted i answer =>
      simp only at hstep
      split at hstep
      next c hi =>
        split at hstep
        next hpc => exact inv_answerAttempt h hi hpc hstep
        · cases hstep
      · cases hstep
  | read i failure =>
      simp only at hstep
      split at hstep
      next c hi =>
        split at hstep
        next hpc =>
          obtain rfl := Option.some.inj hstep
          exact inv_answerRead h hi hpc failure
        · cases hstep
      · cases hstep
  | replaced i answer =>
      simp only at hstep
      split at hstep
      next c hi =>
        split at hstep
        next current ageMs hpc => exact inv_answerReplace h hi hpc hstep
        · cases hstep
      · cases hstep
  | threw i =>
      simp only at hstep
      split at hstep
      next c hi =>
        split at hstep
        next hp =>
          obtain rfl := Option.some.inj hstep
          exact h.setPc hi hp (fun _ _ hr => by cases hr) rfl
        · cases hstep
      · cases hstep
  | drop pr expected =>
      obtain ⟨remote, hl, rfl⟩ := Option.map_eq_some_iff.mp hstep
      exact h.removed (Refs.lease_eq hl).2
  | remove pr =>
      obtain ⟨remote, hl, rfl⟩ := Option.map_eq_some_iff.mp hstep
      exact h.removed (Refs.erase_eq hl).2

theorem inv_run {es : List (RepairEvent Sha)} (hr : Run (Step jsonParse dateParse message showMs) init es s) :
    Inv jsonParse dateParse message s :=
  hr.invariant (I := Inv jsonParse dateParse message) (fun _ _ _ h hs => inv_step h hs)
    (inv_init jsonParse dateParse message)

/-! ### Who is told -/

omit [DecidableEq Sha] in
theorem claims_judgeRead (c : RepairCall Sha) (current : RepairClaim Sha) :
    (judgeRead dateParse showMs c current).claims = false := by
  unfold judgeRead
  split
  · rfl
  · split <;> rfl

/-- What an event does to the calls: it adds one, or moves one; a call that is told `claimed: true`
has its anchor at the ref. -/
theorem step_calls {e : RepairEvent Sha} (h : Inv jsonParse dateParse message s)
    (hstep : Step jsonParse dateParse message showMs s e t) :
    (∃ input anchor, t.calls = s.calls ++ [⟨input, anchor, .attempting⟩]) ∨ t.calls = s.calls ∨
      ∃ i c pc, s.calls[i]? = some c ∧ t.calls = (s.setPc i c pc).calls ∧
        (pc.claims = true → t.remote c.input.prNumber = some c.anchor) := by
  unfold Step next at hstep
  cases e with
  | call input anchor =>
      simp only at hstep
      split at hstep
      · obtain rfl := Option.some.inj hstep
        exact .inl ⟨input, anchor, rfl⟩
      · cases hstep
  | attempted i answer =>
      simp only at hstep
      split at hstep
      next c hi =>
        split at hstep
        next hpc =>
          cases answer with
          | ok =>
              obtain ⟨remote, hc, rfl⟩ := Option.map_eq_some_iff.mp hstep
              obtain ⟨-, rfl⟩ := h.create_eq hi (by rw [hpc]; rfl) hc
              exact .inr (.inr ⟨i, c, _, hi, rfl, fun _ => Function.update_self ..⟩)
          | refused stderr =>
              unfold answerAttempt at hstep
              simp only at hstep
              split at hstep
              · obtain rfl := Option.some.inj hstep
                exact .inr (.inr ⟨i, c, _, hi, rfl, fun hc => by cases hc⟩)
              · obtain rfl := Option.some.inj hstep
                exact .inr (.inr ⟨i, c, _, hi, rfl, fun hc => by cases hc⟩)
          | replyLost =>
              obtain ⟨remote, hc, rfl⟩ := Option.map_eq_some_iff.mp hstep
              exact .inr (.inr ⟨i, c, _, hi, rfl, fun hc => by cases hc⟩)
        · cases hstep
      · cases hstep
  | read i failure =>
      simp only at hstep
      split at hstep
      next c hi =>
        split at hstep
        · obtain rfl := Option.some.inj hstep
          unfold answerRead
          split
          · exact .inr (.inr ⟨i, c, _, hi, rfl, fun hc => by cases hc⟩)
          · exact .inr (.inr ⟨i, c, _, hi, rfl, fun hc => by cases hc⟩)
          · refine .inr (.inr ⟨i, c, _, hi, rfl, fun hc => ?_⟩)
            rw [claims_judgeRead] at hc
            cases hc
        · cases hstep
      · cases hstep
  | replaced i answer =>
      simp only at hstep
      split at hstep
      next c hi =>
        split at hstep
        next current ageMs hpc =>
          have failed : ∀ taken, (RepairPc.told (replaceFailed c.input current ageMs taken) (some current)).claims = false := by
            intro taken
            cases taken <;> rfl
          cases answer with
          | ok =>
              obtain ⟨remote, hl, rfl⟩ := Option.map_eq_some_iff.mp hstep
              obtain ⟨-, rfl⟩ := Refs.lease_eq hl
              exact .inr (.inr ⟨i, c, _, hi, rfl, fun _ => Function.update_self ..⟩)
          | refused stderr =>
              obtain rfl := Option.some.inj hstep
              refine .inr (.inr ⟨i, c, _, hi, rfl, fun hc => ?_⟩)
              rw [failed] at hc
              cases hc
          | replyLost =>
              obtain ⟨remote, hl, rfl⟩ := Option.map_eq_some_iff.mp hstep
              refine .inr (.inr ⟨i, c, _, hi, rfl, fun hc => ?_⟩)
              rw [failed] at hc
              cases hc
        · cases hstep
      · cases hstep
  | threw i =>
      simp only at hstep
      split at hstep
      next c hi =>
        split at hstep
        · obtain rfl := Option.some.inj hstep
          exact .inr (.inr ⟨i, c, _, hi, rfl, fun hc => by cases hc⟩)
        · cases hstep
      · cases hstep
  | drop pr expected =>
      obtain ⟨remote, hl, rfl⟩ := Option.map_eq_some_iff.mp hstep
      exact .inr (.inl rfl)
  | remove pr =>
      obtain ⟨remote, hl, rfl⟩ := Option.map_eq_some_iff.mp hstep
      exact .inr (.inl rfl)

/-- A call that was told before or is told now: in the second case its anchor is at the ref. -/
theorem told_step {e : RepairEvent Sha} {pr : ℤ} (h : Inv jsonParse dateParse message s)
    (hstep : Step jsonParse dateParse message showMs s e t) (ht : Told pr i t) :
    Told pr i s ∨ ∃ c, t.calls[i]? = some c ∧ t.remote pr = some c.anchor := by
  obtain ⟨c, decision, judged, hc, hpr, hpc, hclaimed⟩ := ht
  obtain ⟨input, anchor, hcalls⟩ | hcalls | ⟨j, d, pc, hj, hcalls, hremote⟩ := step_calls h hstep
  · rw [hcalls] at hc
    obtain hc | ⟨-, rfl⟩ := call_cases hc
    · exact .inl ⟨c, decision, judged, hc, hpr, hpc, hclaimed⟩
    · cases hpc
  · rw [hcalls] at hc
    exact .inl ⟨c, decision, judged, hc, hpr, hpc, hclaimed⟩
  · rw [hcalls] at hc
    obtain ⟨rfl, rfl⟩ | ⟨-, hc⟩ := setPc_call hj hc
    · right
      have hat := hremote (by
        show pc.claims = true
        rw [show pc = .told decision judged from hpc]
        exact hclaimed)
      rw [show d.input.prNumber = pr from hpr] at hat
      refine ⟨{ d with pc := pc }, ?_, hat⟩
      rw [hcalls, setPc_calls hj, if_pos rfl]
    · exact .inl ⟨c, decision, judged, hc, hpr, hpc, hclaimed⟩

/-- A call keeps its anchor. -/
theorem anchor_step {e : RepairEvent Sha} (h : Inv jsonParse dateParse message s)
    (hstep : Step jsonParse dateParse message showMs s e t) (hi : s.calls[i]? = some c) :
    ∃ d, t.calls[i]? = some d ∧ d.anchor = c.anchor := by
  obtain ⟨input, anchor, hcalls⟩ | hcalls | ⟨j, d, pc, hj, hcalls, -⟩ := step_calls h hstep
  · refine ⟨c, ?_, rfl⟩
    rw [hcalls, List.getElem?_append_left (List.getElem?_eq_some_iff.mp hi).1, hi]
  · exact ⟨c, by rw [hcalls, hi], rfl⟩
  · by_cases hij : i = j
    · subst hij
      rw [hi] at hj
      obtain rfl := Option.some.inj hj
      exact ⟨{ c with pc := pc }, by rw [hcalls, setPc_calls hi, if_pos rfl], rfl⟩
    · exact ⟨c, by rw [hcalls, setPc_calls hj, if_neg hij, hi], rfl⟩

/-- Whoever was told since an event, with the claim kept from there on, has its anchor at the ref. -/
theorem told_since {es fs : List (RepairEvent Sha)} {e : RepairEvent Sha} {pr : ℤ} {u : RepairState Sha}
    (hrun : Run (Step jsonParse dateParse message showMs) init es s)
    (hstep : Step jsonParse dateParse message showMs s e t)
    (hkeep : Run (KeepsClaim jsonParse dateParse message showMs pr) t fs u) :
    Inv jsonParse dateParse message u ∧
      ∀ i, Told pr i u → ¬ Told pr i s → ∃ c, u.calls[i]? = some c ∧ u.remote pr = some c.anchor := by
  have h := inv_run hrun
  refine hkeep.invariant (I := fun u => Inv jsonParse dateParse message u ∧
    ∀ i, Told pr i u → ¬ Told pr i s → ∃ c, u.calls[i]? = some c ∧ u.remote pr = some c.anchor) ?_ ?_
  · rintro u e' v ⟨hinv, ih⟩ ⟨hs, hremote⟩
    refine ⟨inv_step hinv hs, fun i ht hnot => ?_⟩
    obtain hold | hnew := told_step hinv hs ht
    · obtain ⟨c, hc, hat⟩ := ih i hold hnot
      obtain ⟨d, hd, ha⟩ := anchor_step hinv hs hc
      exact ⟨d, hd, by rw [ha]; exact hremote _ hat⟩
    · exact hnew
  · refine ⟨inv_step h hstep, fun i ht hnot => ?_⟩
    exact (told_step h hstep ht).resolve_left hnot

/-- A claim gives way to another one only by the leased push of a caller that found it expired. -/
theorem step_replaces {e : RepairEvent Sha}
    (hstep : Step jsonParse dateParse message showMs s e t) {pr : ℤ} {v w : Sha} (hv : s.remote pr = some v)
    (hw : t.remote pr = some w) (hne : w ≠ v) :
    ∃ i answer c current ageMs, e = .replaced i answer ∧ s.calls[i]? = some c ∧ c.pc = .replacing current ageMs ∧
      c.input.prNumber = pr ∧ current.anchor = v := by
  have same : t.remote pr = some v → False := by
    intro ht
    rw [ht] at hw
    exact hne (Option.some.inj hw).symm
  unfold Step next at hstep
  cases e with
  | call input anchor =>
      simp only at hstep
      split at hstep
      · obtain rfl := Option.some.inj hstep
        exact (same hv).elim
      · cases hstep
  | attempted i answer =>
      simp only at hstep
      split at hstep
      next c hi =>
        split at hstep
        next hpc =>
          have hp : c.pc.pending = true := by rw [hpc]; rfl
          have created : ∀ remote, s.remote.create c.input.prNumber c.anchor = some remote → remote pr = some v :=
            fun remote hc => Refs.create_of_some hc hv
          cases answer with
          | ok =>
              obtain ⟨remote, hc, rfl⟩ := Option.map_eq_some_iff.mp hstep
              exact (same (created remote hc)).elim
          | refused stderr =>
              unfold answerAttempt at hstep
              simp only at hstep
              split at hstep
              · obtain rfl := Option.some.inj hstep
                exact (same hv).elim
              · obtain rfl := Option.some.inj hstep
                exact (same hv).elim
          | replyLost =>
              obtain ⟨remote, hc, rfl⟩ := Option.map_eq_some_iff.mp hstep
              exact (same (created remote hc)).elim
        · cases hstep
      · cases hstep
  | read i failure =>
      simp only at hstep
      split at hstep
      next c hi =>
        split at hstep
        · obtain rfl := Option.some.inj hstep
          refine (same ?_).elim
          unfold answerRead
          split <;> exact hv
        · cases hstep
      · cases hstep
  | replaced i answer =>
      simp only at hstep
      split at hstep
      next c hi =>
        split at hstep
        next current ageMs hpc =>
          have leased : ∀ remote, s.remote.lease c.input.prNumber current.anchor (some c.anchor) = some remote →
              remote pr ≠ some v → c.input.prNumber = pr ∧ current.anchor = v := by
            intro remote hl hr
            obtain ⟨h1, h2⟩ := Refs.lease_removes hl hv hr
            exact ⟨h1.symm, h2.symm⟩
          refine ⟨i, answer, c, current, ageMs, rfl, hi, hpc, ?_⟩
          cases answer with
          | ok =>
              obtain ⟨remote, hl, rfl⟩ := Option.map_eq_some_iff.mp hstep
              exact leased remote hl same
          | refused stderr =>
              obtain rfl := Option.some.inj hstep
              exact (same hv).elim
          | replyLost =>
              obtain ⟨remote, hl, rfl⟩ := Option.map_eq_some_iff.mp hstep
              exact leased remote hl same
        · cases hstep
      · cases hstep
  | threw i =>
      simp only at hstep
      split at hstep
      · split at hstep
        · obtain rfl := Option.some.inj hstep
          exact (same hv).elim
        · cases hstep
      · cases hstep
  | drop pr' expected =>
      obtain ⟨remote, hl, rfl⟩ := Option.map_eq_some_iff.mp hstep
      obtain ⟨-, rfl⟩ := Refs.lease_eq hl
      have hw' : Function.update s.remote pr' none pr = some w := hw
      by_cases hp : pr = pr'
      · subst hp
        simp at hw'
      · rw [Function.update_of_ne hp, hv] at hw'
        exact absurd (Option.some.inj hw').symm hne
  | remove pr' =>
      obtain ⟨remote, hl, rfl⟩ := Option.map_eq_some_iff.mp hstep
      obtain ⟨-, rfl⟩ := Refs.erase_eq hl
      have hw' : Function.update s.remote pr' none pr = some w := hw
      by_cases hp : pr = pr'
      · subst hp
        simp at hw'
      · rw [Function.update_of_ne hp, hv] at hw'
        exact absurd (Option.some.inj hw').symm hne

/-- Repair claims exclude each other, in every run of any number of callers.  From an event that may
change the ref on, as long as its claim is kept, at most one caller is told `claimed: true`; a claim
gives way to another one only in a push of a caller that found it at least its ttl old, by the time
recorded in it; and of the callers that found one anchor expired at most one is told
`claimed: true`. -/
theorem repair_claims_exclude {es : List (RepairEvent Sha)}
    (hrun : Run (Step jsonParse dateParse message showMs) init es s) :
    (∀ e t fs u pr i j, Step jsonParse dateParse message showMs s e t →
      Run (KeepsClaim jsonParse dateParse message showMs pr) t fs u →
      Told pr i u → ¬ Told pr i s → Told pr j u → ¬ Told pr j s → i = j) ∧
    (∀ e t pr v w, Step jsonParse dateParse message showMs s e t → s.remote pr = some v → t.remote pr = some w →
      w ≠ v → ∃ i answer c ageMs, e = .replaced i answer ∧ s.calls[i]? = some c ∧ c.input.prNumber = pr ∧
        recordedAge dateParse c.input.nowMs (readRepairClaim jsonParse message pr v) = some ageMs ∧
        c.input.ttlMs ≤ ageMs) ∧
    ∀ (i j : ℕ) (c d : RepairCall Sha) decision decision' current current', s.calls[i]? = some c →
      s.calls[j]? = some d → c.pc = .told decision (some current) → d.pc = .told decision' (some current') →
      current.anchor = current'.anchor → decision.claimed = true → decision'.claimed = true → i = j := by
  have h := inv_run hrun
  refine ⟨?_, ?_, ?_⟩
  · intro e t fs u pr i j hstep hkeep hi hi' hj hj'
    obtain ⟨hinv, htold⟩ := told_since hrun hstep hkeep
    obtain ⟨c, hc, hat⟩ := htold i hi hi'
    obtain ⟨d, hd, hat'⟩ := htold j hj hj'
    rw [hat] at hat'
    exact hinv.distinct i j c d hc hd (Option.some.inj hat')
  · intro e t pr v w hstep hv hw hne
    obtain ⟨i, answer, c, current, ageMs, he, hi, hpc, hpr, ha⟩ := step_replaces hstep hv hw hne
    obtain ⟨hread, hage, hold⟩ := h.judged i c current ageMs hi hpc
    rw [hpr, ha] at hread
    rw [hread] at hage
    exact ⟨i, answer, c, ageMs, he, hi, hpr, hage, hold⟩
  · intro i j c d decision decision' current current' hi hj hc hd ha hclaimed hclaimed'
    refine h.one_taker i j c d current.anchor hi hj ?_ ?_
    · rw [hc]
      simp [RepairPc.took, hclaimed]
    · rw [hd]
      simp [RepairPc.took, hclaimed', ha]

/-! Caller `0` claims pull request `1` at time `0`; caller `1` finds that claim expired. -/

omit [DecidableEq Sha] in
theorem judgeRead_expired {current : RepairClaim Sha} {ageMs : ℚ}
    (hage : recordedAge dateParse c.input.nowMs current = some ageMs) (hold : c.input.ttlMs ≤ ageMs) :
    judgeRead dateParse showMs c current = .replacing current ageMs := by
  unfold judgeRead
  rw [hage]
  exact if_neg (not_lt.mpr hold)

theorem step_read_expired {v : Sha} {ageMs : ℚ} (hi : s.calls[i]? = some c) (hpc : c.pc = .reading)
    (hv : s.remote c.input.prNumber = some v)
    (hage : recordedAge dateParse c.input.nowMs (readRepairClaim jsonParse message c.input.prNumber v) = some ageMs)
    (hold : c.input.ttlMs ≤ ageMs) :
    Step jsonParse dateParse message showMs s (.read i none)
      (s.setPc i c (.replacing (readRepairClaim jsonParse message c.input.prNumber v) ageMs)) := by
  unfold Step next
  simp only [hi, hpc, answerRead, hv]
  rw [judgeRead_expired hage hold]

def plainPayload (_ : Text) : Option RepairPayload := some ⟨some 1, some ['h'], some ['0']⟩

def zeroDate (_ : Text) : Option ℤ := some 0

def plainClaim (_ : ℕ) : Text := "rmd-repair claim v1\n0".toList

def plainMs (_ : ℚ) : Text := []

/-- Callers `1` and `2` both find the claim of caller `0` expired. -/
def threeCallers : List (RepairEvent ℕ) :=
  [.call ⟨1, ['h'], 0, 50⟩ 0, .attempted 0 .ok, .call ⟨1, ['g'], 100, 50⟩ 1, .call ⟨1, ['f'], 100, 50⟩ 2,
    .attempted 1 (.refused "rejected".toList), .attempted 2 (.refused "rejected".toList), .read 1 none, .read 2 none]

/-- The first of them replaces it; the other one's push is refused. -/
theorem expired_claim_replaced_once :
    ∃ s t u : RepairState ℕ, Run (Step plainPayload zeroDate plainClaim plainMs) init threeCallers s ∧
      Step plainPayload zeroDate plainClaim plainMs s (.replaced 1 .ok) t ∧ s.remote 1 = some 0 ∧
      t.remote 1 = some 1 ∧ Told 1 1 u ∧ (∀ j, Told 1 j u → ¬ Told 1 j s → j = 1) ∧
      ∃ c ageMs, s.calls[1]? = some c ∧ recordedAge zeroDate c.input.nowMs
        (readRepairClaim plainPayload plainClaim 1 0) = some ageMs ∧ c.input.ttlMs ≤ ageMs := by
  have hrun : ∃ s t u : RepairState ℕ, Run (Step plainPayload zeroDate plainClaim plainMs) init threeCallers s ∧
      Step plainPayload zeroDate plainClaim plainMs s (.replaced 1 .ok) t ∧
      Step plainPayload zeroDate plainClaim plainMs t (.replaced 2 (.refused "rejected".toList)) u ∧
      u.remote = t.remote ∧ s.remote 1 = some 0 ∧ t.remote 1 = some 1 ∧ Told 1 1 u ∧ ¬ Told 1 1 s := by
    have hexpired : (50 : ℚ) ≤ max 0 (100 - ((0 : ℤ) : ℚ)) := by norm_num
    refine ⟨_, _, _, .cons rfl (.cons rfl (.cons rfl (.cons rfl (.cons rfl (.cons rfl
      (.cons (step_read_expired rfl rfl rfl rfl hexpired) (.single (step_read_expired rfl rfl rfl rfl hexpired)))))))),
      rfl, rfl, rfl, rfl, rfl, ⟨_, _, _, rfl, rfl, rfl, rfl⟩, ?_⟩
    rintro ⟨c, decision, judged, hc, -, hpc, -⟩
    obtain rfl := Option.some.inj hc
    cases hpc
  obtain ⟨s, t, u, hr, hs, hu, hsame, hv, hw, htold, hnot⟩ := hrun
  have hkeep : Run (KeepsClaim plainPayload zeroDate plainClaim plainMs 1) t [.replaced 2 (.refused "rejected".toList)] u :=
    .single ⟨hu, fun v ht => by rw [hsame]; exact ht⟩
  obtain ⟨hone, hold, -⟩ := repair_claims_exclude hr
  obtain ⟨i, answer, c, ageMs, he, hi, -, hage, hexpired⟩ := hold _ t 1 0 1 hs hv hw (by decide)
  obtain ⟨rfl, rfl⟩ := RepairEvent.replaced.inj he
  exact ⟨s, t, u, hr, hs, hv, hw, htold, fun j hj hj' => hone _ t _ u 1 j 1 hs hkeep hj hj' htold hnot, c, ageMs, hi, hage,
    hexpired⟩

end RepairState

end Remudero.Claim
