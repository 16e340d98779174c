import Remudero.Delegation.Safety

/-! # Revoking a delegation

A revocation is found by walking up the receipts of the acting envelope, and the walk stops at a
depth of its own.  With distinct ids (`NewIds`) the walk follows the forwards that were made
(`Filed`), so it sees a revoked envelope that is at most 65 forwards away, and no further one.

`revocationReaches_iff` is the result: a revocation blocks the envelopes `k` forwards below it
exactly for `k` up to 65.  The chain that shows the bound to be exact is built for every length. -/

namespace Remudero.Delegation

open Remudero.Lib

variable {D : Clock} {s t : System}

/-! ### Revocation -/

/-- `k` forwards lead from `r` to `e`. -/
inductive DescendsBy (forwards : List (DelegationEnvelope × DelegationEnvelope)) :
    ℕ → DelegationEnvelope → DelegationEnvelope → Prop
  | refl (r : DelegationEnvelope) : DescendsBy forwards 0 r r
  | forward {k : ℕ} {r p e : DelegationEnvelope} : DescendsBy forwards k r p →
      (p, e) ∈ forwards → DescendsBy forwards (k + 1) r e

/-- No action and no forward on the envelope succeeds. -/
def Blocked (D : Clock) (s : System) (id : Text) : Prop :=
  (∀ request now uuid, request.envelopeId = id →
    executed (executeBoundedDelegation D s.store request now uuid).2 = none) ∧
  ∀ request now uuid mint, request.parentEnvelopeId = id →
    forwarded (forwardDelegation D s.store request now uuid mint).2 = none

/-- Every id is new, of an envelope and of a receipt.  A direct issue may name the receipt of another envelope as its
parent. -/
def NewIds (s : System) : Call → Prop
  | .issue input mint => s.store.get (envelopeIdOf input.id mint) = none
  | .execute _ _ uuid => s.store.envelopeIdForReceipt (receiptIdOf uuid) = none
  | .forward request _ uuid mint =>
      s.store.envelopeIdForReceipt (receiptIdOf uuid) = none ∧ s.store.get (envelopeIdOf request.id mint) = none
  | _ => True

/-- A call with new ids. -/
def Move (D : Clock) (s : System) (c : Call) (t : System) : Prop := NewIds s c ∧ t = next D s c

/-- Envelopes are on file under their ids, those that were accepted among them; and what was forwarded has the envelope
it was forwarded from as its parent. -/
structure Filed (s : System) : Prop where
  keyed : ∀ id e, s.store.get id = some e → e.id = id ∧ id ≠ []
  accepted : ∀ id, s.store.isAccepted id = true → (s.store.get id).isSome
  forwards : ∀ p e, (p, e) ∈ s.forwards → s.store.get e.id = some e ∧ s.store.parentOf e = some p

theorem get_issue_of_new {store : Store} {e e' : DelegationEnvelope} {id : Text}
    (hnew : store.get e.id = none) (hget : store.get id = some e') :
    (store.issue e).get id = some e' := by
  have hne : id ≠ e.id := by
    rintro rfl
    rw [hnew] at hget
    cases hget
  rw [get_issue_of_ne store hne, hget]

/-- With new ids no envelope is replaced. -/
theorem get_effect {c : Call} (hc : NewIds s c) (heff : Effect D s c t) {id : Text} {e : DelegationEnvelope}
    (hget : s.store.get id = some e) : t.store.get id = some e := by
  cases heff with
  | issued hnew => exact get_issue_of_new ((createDelegationEnvelope_ok hnew).1 ▸ hc) hget
  | @forwarded request now uuid mint p e' hp href hnew =>
      have hid : e'.id = envelopeIdOf request.id mint := (createDelegationEnvelope_ok hnew).1.trans (by
        cases hg : given request.id <;> simp [envelopeIdOf, forwardInput, hg])
      have hlinked : (s.store.linkReceipt (receiptIdOf uuid) p.id).get id = some e := hget
      exact get_issue_of_new (hid ▸ hc.2) hlinked
  | _ => exact hget

/-- What a call adds to the envelopes. -/
theorem get_effect_cases {c : Call} (heff : Effect D s c t) {id : Text} {e : DelegationEnvelope}
    (hget : t.store.get id = some e) : s.store.get id = some e ∨ (e.id = id ∧ id ≠ []) := by
  have hissue : ∀ (store : Store) (e' : DelegationEnvelope), e'.id ≠ [] → (store.issue e').get id = some e →
      store.get id = some e ∨ (e.id = id ∧ id ≠ []) := by
    intro store e' hne hget
    by_cases hid : id = e'.id
    · subst hid
      rw [get_issue_self, Option.some.injEq] at hget
      exact .inr ⟨hget ▸ rfl, hne⟩
    · rw [get_issue_of_ne store hid] at hget
      exact .inl hget
  cases heff with
  | issued hnew => exact hissue _ _ ((createDelegationEnvelope_ok hnew).1 ▸ envelopeIdOf_ne_nil _ _) hget
  | forwarded hp href hnew => exact hissue _ _ ((createDelegationEnvelope_ok hnew).1 ▸ envelopeIdOf_ne_nil _ _) hget
  | _ => exact .inl hget

/-- With new ids no receipt is linked again. -/
theorem envelopeIdForReceipt_effect {c : Call} (hc : NewIds s c) (heff : Effect D s c t) {r id : Text}
    (hlink : s.store.envelopeIdForReceipt r = some id) : t.store.envelopeIdForReceipt r = some id := by
  have hold : ∀ {r' id' : Text}, s.store.envelopeIdForReceipt r' = none →
      (s.store.linkReceipt r' id').envelopeIdForReceipt r = some id := by
    intro r' id' hnone
    have hne : r ≠ r' := by
      rintro rfl
      rw [hlink] at hnone
      cases hnone
    rw [envelopeIdForReceipt_link_of_ne _ hne, hlink]
  cases heff with
  | executed href => exact hold hc
  | linked href => exact hold hc.1
  | forwarded hp href hnew => exact hold hc.1
  | _ => exact hlink

theorem parentOf_effect {c : Call} (hc : NewIds s c) (heff : Effect D s c t) {p e : DelegationEnvelope}
    (h : s.store.parentOf e = some p) : t.store.parentOf e = some p := by
  obtain ⟨id, hid, hget⟩ := Option.bind_eq_some_iff.mp h
  obtain ⟨r, hr, hlink⟩ := Option.bind_eq_some_iff.mp hid
  obtain ⟨hlink, hne⟩ := given_eq_some.mp hlink
  have hlink' : given (t.store.envelopeIdForReceipt r) = some id :=
    given_eq_some.mpr ⟨envelopeIdForReceipt_effect hc heff hlink, hne⟩
  rw [Store.parentOf, hr, Option.bind_some, hlink', Option.bind_some, get_effect hc heff hget]

/-- What a call adds to the log of forwards. -/
theorem forwards_effect (h : Filed s) {c : Call} (hc : NewIds s c) (heff : Effect D s c t) {p e : DelegationEnvelope}
    (hmem : (p, e) ∈ t.forwards) :
    (p, e) ∈ s.forwards ∨ (t.store.get e.id = some e ∧ t.store.parentOf e = some p) := by
  have hkept : ∀ {id e}, s.store.get id = some e → t.store.get id = some e := get_effect hc heff
  cases heff with
  | @forwarded request now uuid mint p' e' hp href hnew =>
      rcases List.mem_cons.mp hmem with heq | hmem
      · obtain ⟨rfl, rfl⟩ := Prod.mk.inj heq
        have hkey := h.keyed _ _ hp
        have hget : s.store.get p.id = some p := by rw [hkey.1, hp]
        refine .inr ⟨get_issue_self _ e, ?_⟩
        exact parentOf_forwarded hnew
          (envelopeIdForReceipt_link_self s.store (receiptIdOf uuid) p.id)
          (hkey.1 ▸ hkey.2) (hkept hget)
      · exact .inl hmem
  | _ => exact .inl hmem

/-- What a call adds to the acceptances. -/
theorem isAccepted_effect {c : Call} (heff : Effect D s c t) {id : Text} (hid : t.store.isAccepted id = true) :
    s.store.isAccepted id = true ∨ ∃ at_ e, s.store.get at_ = some e ∧ e.id = id := by
  cases heff with
  | @accepted request now e hget hrec hnot hsub =>
      by_cases heq : id = e.id
      · exact .inr ⟨_, e, hget, heq.symm⟩
      · rw [Store.isAccepted, System.accept, Store.recordAccepted, entryOf_assign_of_ne _ _ heq, ← Store.isAccepted] at hid
        exact .inl hid
  | _ => exact .inl hid

theorem Filed.of_next (h : Filed s) {c : Call} (hc : NewIds s c) : Filed (next D s c) where
  keyed id e hget := by
    rcases get_effect_cases (next_effect D s c) hget with hget | hnew
    · exact h.keyed id e hget
    · exact hnew
  accepted id hid := by
    have hfile : (s.store.get id).isSome := by
      rcases isAccepted_effect (next_effect D s c) hid with hid | ⟨at_, e, hget, rfl⟩
      · exact h.accepted id hid
      · rw [(h.keyed at_ e hget).1, hget]
        rfl
    obtain ⟨e, he⟩ := Option.isSome_iff_exists.mp hfile
    exact Option.isSome_iff_exists.mpr ⟨e, get_effect hc (next_effect D s c) he⟩
  forwards p e hmem := by
    rcases forwards_effect h hc (next_effect D s c) hmem with hmem | hnew
    · obtain ⟨hget, hparent⟩ := h.forwards p e hmem
      exact ⟨get_effect hc (next_effect D s c) hget, parentOf_effect hc (next_effect D s c) hparent⟩
    · exact hnew

theorem filed_of_run {calls : List Call} (h : Run (Move D) {} calls s) : Filed s := by
  refine h.invariant (I := Filed) ?_ ⟨?_, ?_, ?_⟩
  · rintro s c t hs ⟨hc, rfl⟩
    exact hs.of_next hc
  · intro id e hget
    cases hget
  · intro id hid
    cases hid
  · intro p e hmem
    cases hmem

theorem Filed.not_accepted (h : Filed s) {id : Text} (hget : s.store.get id = none) : s.store.isAccepted id = false := by
  by_contra hne
  have hsome := h.accepted id (by simpa using hne)
  rw [hget] at hsome
  cases hsome

/-- The revocations after a call. -/
def revokedBy (revoked : List Text) : Call → List Text
  | .revoke id => id :: revoked
  | _ => revoked

theorem revoked_effect {c : Call} (heff : Effect D s c t) :
    t.store.revoked = revokedBy s.store.revoked c := by
  cases heff with
  | nothing hc =>
      cases c with
      | revoke id => exact absurd rfl (hc id)
      | _ => rfl
  | _ => rfl

theorem revoked_of_run {calls : List Call} {id : Text} (h : Run (Move D) {} calls s) (hmem : Call.revoke id ∈ calls) :
    s.store.isRevoked id = true := by
  have hinv : ∀ id, Call.revoke id ∈ calls → id ∈ s.store.revoked := by
    refine h.invariant_trace (I := fun calls s => ∀ id, Call.revoke id ∈ calls →
      id ∈ s.store.revoked) ?_ (by simp)
    rintro calls s c t ih ⟨-, rfl⟩ id hid
    rw [revoked_effect (next_effect D s c)]
    rcases List.mem_append.mp hid with hid | hid
    · have hold := ih id hid
      cases c <;> simp [revokedBy, hold]
    · rw [← List.mem_singleton.mp hid]
      exact List.mem_cons_self
  simpa [Store.isRevoked] using hinv id hmem

theorem Filed.ancestor (hf : Filed s) {k : ℕ} {r e : DelegationEnvelope}
    (h : DescendsBy s.forwards k r e) : ancestor s.store.parentOf k e = some r := by
  induction h with
  | refl => rfl
  | forward _ hmem ih => rw [ancestor_succ (hf.forwards _ _ hmem).2, ih]

/-- A revoked envelope on file is blocked, and so is one with a revoked ancestor in reach. -/
theorem blocked_of_revoked {e : DelegationEnvelope}
    (hrev : ∀ e', s.store.get e.id = some e' →
      s.store.isRevoked e'.id = true ∨ ancestryRevoked s.store e' = true) :
    Blocked D s e.id := by
  constructor
  · rintro request now uuid hid
    rcases execute_cases D s.store request now uuid with ⟨-, hno⟩ | ⟨e', receipt, hget, href, -⟩
    · exact hno
    · obtain ⟨h1, h2, -⟩ := executionRefusal_none href
      rw [hid] at hget
      rcases hrev e' hget with hr | hr
      · rw [h1] at hr
        cases hr
      · rw [h2] at hr
        cases hr
  · rintro request now uuid mint hid
    rcases forward_cases D s.store request now uuid mint with ⟨-, hno⟩ | ⟨p, hget, href, -⟩
    · exact hno
    · obtain ⟨h1, h2, -⟩ := forwardRefusal_none href
      rw [hid] at hget
      rcases hrev p hget with hr | hr
      · rw [h1] at hr
        cases hr
      · rw [h2] at hr
        cases hr

/-- After the revocation of an envelope, those `k` forwards below it are blocked. -/
def RevocationReaches (D : Clock) (k : ℕ) : Prop :=
  ∀ calls s r e, Run (Move D) {} calls s → Call.revoke r.id ∈ calls →
    DescendsBy s.forwards k r e → Blocked D s e.id

theorem reaches_of_le {k : ℕ} (hk : k ≤ ANCESTRY_LEVELS) : RevocationReaches D k := by
  intro calls s r e hrun hmem hdesc
  have hf := filed_of_run hrun
  have hrev := revoked_of_run hrun hmem
  refine blocked_of_revoked ?_
  intro e' hget
  have hanc := hf.ancestor hdesc
  cases hdesc with
  | refl =>
      left
      rw [(hf.keyed _ _ hget).1]
      exact hrev
  | @forward k _ p _ _ hpe =>
      right
      rw [(hf.forwards p e hpe).1, Option.some.injEq] at hget
      subst hget
      exact seek_iff.mpr ⟨k, by omega, r, hanc, hrev⟩

/-! ### A chain of forwards

A chain of any length, built while nothing is revoked. -/

/-- A moment and an expiry after it. -/
structure Working (D : Clock) where
  now : ℚ
  shown : Text
  expiresAt : Text
  expiry : ℤ
  shown_eq : D.toISOString now = some shown
  expiry_eq : D.dateParse expiresAt = some expiry
  expiresAt_ne : expiresAt ≠ []
  now_lt : now < expiry

variable (W : Working D)

def link (n : ℕ) : Text := List.replicate (n + 1) 'e'

def agent (n : ℕ) : Text := List.replicate (n + 1) 'a'

def Working.clock : Now := .number (some W.now)

def Working.root : DelegationEnvelopeInput :=
  { id := some (link 0)
    sender := "owner".toList
    recipient := agent 0
    principal := "owner".toList
    purpose := "release".toList
    capabilities := ["read".toList]
    audience := "ops".toList
    expiresAt := W.expiresAt }

def Working.accept (n : ℕ) : Call := .accept ⟨link n, agent n, ["read".toList]⟩ W.clock

/-- The forward of link `n` to the next agent. -/
def Working.pass (n : ℕ) : DelegationForwardRequest :=
  { parentEnvelopeId := link n
    forwarder := agent n
    newRecipient := agent (n + 1)
    capabilities := ["read".toList]
    purpose := "release".toList
    audience := "ops".toList
    expiresAt := W.expiresAt
    id := some (link (n + 1)) }

def Working.chain (W : Working D) : ℕ → List Call
  | 0 => [.issue W.root noMint, W.accept 0]
  | n + 1 => W.chain n ++ [.forward (W.pass n) W.clock (link n) noMint, W.accept (n + 1)]

theorem link_injective : Function.Injective link := by
  intro m n h
  have hlen := congrArg List.length h
  simp only [link, List.length_replicate] at hlen
  omega

theorem given_link (n : ℕ) : given (some (link n)) = some (link n) :=
  given_eq_some.mpr ⟨rfl, by simp [link]⟩

theorem envelopeIdOf_link (n : ℕ) (mint : Minted) : envelopeIdOf (some (link n)) mint = link n := by
  rw [envelopeIdOf, given_link, Option.getD_some]

theorem agent_succ_ne (n : ℕ) : agent n ≠ agent (n + 1) := by
  intro h
  have hlen := congrArg List.length h
  simp only [agent, List.length_replicate] at hlen
  omega

theorem Working.isExpired_eq : isExpired D (resolveNowMs D W.clock 0) W.expiresAt = false ∧
    isExpired D (resolveNowMs D W.clock 1) W.expiresAt = false := by
  simp [isExpired, resolveNowMs, Working.clock, W.expiry_eq, W.now_lt]

theorem Working.decidedAt_eq : decidedAtOf D W.clock = .ok W.shown := by
  simp [decidedAtOf, resolveNowMs, Working.clock, W.shown_eq]

theorem Working.create (input : DelegationEnvelopeInput) (mint : Minted) (h1 : input.sender ≠ [])
    (h2 : input.recipient ≠ []) (h3 : input.sender ≠ input.recipient) (h4 : input.principal ≠ [])
    (h5 : input.purpose ≠ []) (h6 : input.capabilities = ["read".toList]) (h7 : input.audience ≠ [])
    (h8 : input.expiresAt = W.expiresAt) :
    ∃ e, createDelegationEnvelope D input mint = .ok e := by
  have h9 := W.expiresAt_ne
  have h10 := W.expiry_eq
  rw [← h8] at h9 h10
  unfold createDelegationEnvelope
  rw [if_neg (by simpa using h1), if_neg (by simpa using h2), if_neg h3, if_neg (by simpa using h4),
    if_neg (by simpa using h5), if_neg (by simp [h6]), if_neg (by simp [h6]),
    if_neg (by simpa using h7), if_neg (by simp [h9, h10])]
  exact ⟨_, rfl⟩

theorem Working.create_root : ∃ e, createDelegationEnvelope D W.root noMint = .ok e :=
  W.create W.root noMint (by simp [Working.root]) (by simp [Working.root, agent])
    (by simp [Working.root, agent]) (by simp [Working.root]) (by simp [Working.root]) rfl
    (by simp [Working.root]) rfl

/-- The last link of a chain that was just built. -/
structure Tip (n : ℕ) (s : System) (e : DelegationEnvelope) : Prop where
  revoked : s.store.revoked = []
  audited : s.store.auditUnavailable = false
  nonces : s.store.nonces = []
  filed : s.store.get (link n) = some e
  id_eq : e.id = link n
  principal_ne : e.principal ≠ []
  recipient : e.recipient = agent n
  capable : e.capabilities = ["read".toList]
  expires : e.expiresAt = W.expiresAt
  free : ∀ m, n < m → s.store.get (link m) = none
  unlinked : ∀ m, n ≤ m → s.store.envelopeIdForReceipt (receiptIdOf (link m)) = none
  lineage : ∀ j ≤ n, ∃ a, DescendsBy s.forwards j a e ∧ a.id = link (n - j)

variable {W} {n : ℕ} {e : DelegationEnvelope}

theorem Tip.isRevoked (h : Tip W n s e) (id : Text) : s.store.isRevoked id = false := by
  simp [Store.isRevoked, h.revoked]

theorem Tip.ancestry (h : Tip W n s e) (e' : DelegationEnvelope) :
    ancestryRevoked s.store e' = false := by
  rw [← Bool.not_eq_true, ancestryRevoked, seek_iff]
  rintro ⟨_, _, a, _, ha⟩
  rw [h.isRevoked] at ha
  cases ha

theorem Tip.accept (h : Tip W n s e) (hnot : s.store.isAccepted (link n) = false) :
    Tip W n (next D s (W.accept n)) e ∧
      (next D s (W.accept n)).store.acceptedCapabilities (link n) = some ["read".toList] := by
  have hnext : next D s (W.accept n) = s.accept e ⟨link n, agent n, ["read".toList]⟩ := by
    have hres : acceptDelegationEnvelope D s.store ⟨link n, agent n, ["read".toList]⟩ W.clock =
        (s.store.recordAccepted e.id ["read".toList], .ok e ["read".toList]) := by
      simp only [acceptDelegationEnvelope, h.filed, h.isRevoked, h.expires, W.isExpired_eq.1,
        h.recipient, h.id_eq, hnot, h.capable]
      simp
    rw [Working.accept, next, hres]
    rfl
  rw [hnext]
  refine ⟨⟨h.revoked, h.audited, h.nonces, h.filed, h.id_eq, h.principal_ne, h.recipient,
    h.capable, h.expires, h.free, h.unlinked, h.lineage⟩, ?_⟩
  rw [← h.id_eq]
  exact entryOf_assign_self e.id _ s.store.accepted

theorem DescendsBy.mono {fs gs : List (DelegationEnvelope × DelegationEnvelope)} {k : ℕ}
    {r e : DelegationEnvelope} (h : DescendsBy fs k r e) (hsub : fs ⊆ gs) :
    DescendsBy gs k r e := by
  induction h with
  | refl => exact .refl _
  | forward _ hmem ih => exact .forward ih (hsub hmem)

theorem receiptIdOf_link_ne {m n : ℕ} (h : m ≠ n) : receiptIdOf (link m) ≠ receiptIdOf (link n) := by
  intro heq
  exact h (link_injective (List.append_cancel_left heq))

/-- The forward of the last link goes through. -/
theorem Tip.forwardDelegation_eq (h : Tip W n s e)
    (hacc : s.store.acceptedCapabilities (link n) = some ["read".toList]) :
    ∃ e' receipt, createDelegationEnvelope D (forwardInput (W.pass n) e (receiptIdOf (link n)))
        noMint = .ok e' ∧
      forwardDelegation D s.store (W.pass n) W.clock (link n) noMint =
        ((s.store.linkReceipt (receiptIdOf (link n)) (link n)).issue e', .ok (.ok e' receipt)) := by
  obtain ⟨e', hnew⟩ := W.create (forwardInput (W.pass n) e (receiptIdOf (link n))) noMint
    (by simp [forwardInput, Working.pass, agent]) (by simp [forwardInput, Working.pass, agent])
    (agent_succ_ne n) h.principal_ne (by simp [forwardInput, Working.pass]) rfl
    (by simp [forwardInput, Working.pass]) rfl
  have hisacc : s.store.isAccepted (link n) = true := isAccepted_iff.mpr ⟨_, hacc⟩
  have hwide : expiryWidened D W.expiresAt W.expiresAt = false := by
    simp [expiryWidened, W.expiry_eq]
  have href : forwardRefusal D s.store (W.pass n) W.clock e = none := by
    simp only [forwardRefusal, h.isRevoked, h.ancestry, h.expires, W.isExpired_eq.2, h.recipient,
      h.id_eq, hisacc, hacc, Working.pass, hwide]
    simp
  have hfiled : s.store.get (W.pass n).parentEnvelopeId = some e := h.filed
  refine ⟨e', ?_⟩
  unfold forwardDelegation
  simp only [W.decidedAt_eq, hfiled, href, hnew, h.id_eq]
  exact ⟨_, trivial, rfl⟩

theorem Tip.forward (h : Tip W n s e)
    (hacc : s.store.acceptedCapabilities (link n) = some ["read".toList]) :
    ∃ e', Tip W (n + 1) (next D s (.forward (W.pass n) W.clock (link n) noMint)) e' ∧
      (next D s (.forward (W.pass n) W.clock (link n) noMint)).store.accepted =
        s.store.accepted := by
  obtain ⟨e', receipt, hnew, heq⟩ := h.forwardDelegation_eq hacc
  obtain ⟨hid, hrec, hprin, hcap, -, hexp, -, -⟩ := createDelegationEnvelope_ok hnew
  have hfiled : s.store.get (W.pass n).parentEnvelopeId = some e := h.filed
  have hid' : e'.id = link (n + 1) := hid.trans (envelopeIdOf_link (n + 1) noMint)
  have hnext : next D s (.forward (W.pass n) W.clock (link n) noMint) =
      { s with
        store := (s.store.linkReceipt (receiptIdOf (link n)) (link n)).issue e'
        forwards := (e, e') :: s.forwards } := by
    rw [next, hfiled, heq]
    rfl
  rw [hnext]
  refine ⟨e', ⟨h.revoked, h.audited, h.nonces, ?_, hid', ?_, hrec, hcap, hexp, ?_, ?_, ?_⟩, rfl⟩
  · rw [← hid']
    exact get_issue_self _ e'
  · rw [hprin]
    exact h.principal_ne
  · intro m hm
    have hne : link m ≠ e'.id := by
      rw [hid']
      exact fun heq => absurd (link_injective heq) (by omega)
    exact (get_issue_of_ne _ hne).trans (h.free m (by omega))
  · intro m hm
    have hne : receiptIdOf (link m) ≠ receiptIdOf (link n) := receiptIdOf_link_ne (by omega)
    exact (envelopeIdForReceipt_link_of_ne _ hne).trans (h.unlinked m (by omega))
  · intro j hj
    cases j with
    | zero => exact ⟨e', .refl e', hid'⟩
    | succ j =>
        obtain ⟨a, ha, haid⟩ := h.lineage j (by omega)
        refine ⟨a, .forward (ha.mono (List.subset_cons_self _ _)) List.mem_cons_self, ?_⟩
        rw [haid, show n + 1 - (j + 1) = n - j by omega]

theorem tip_root (W : Working D) : ∃ e, Tip W 0 (next D {} (.issue W.root noMint)) e := by
  obtain ⟨e, hnew⟩ := W.create_root
  obtain ⟨hid, hrec, hprin, hcap, -, hexp, -, -⟩ := createDelegationEnvelope_ok hnew
  have hid' : e.id = link 0 := hid.trans (envelopeIdOf_link 0 noMint)
  refine ⟨e, ?_⟩
  simp only [next, hnew]
  refine ⟨rfl, rfl, rfl, ?_, hid', ?_, hrec, hcap, hexp, ?_, fun m _ => rfl, ?_⟩
  · rw [← hid']
    exact get_issue_self _ e
  · rw [hprin]
    simp [Working.root]
  · intro m hm
    have hne : link m ≠ e.id := by
      rw [hid']
      exact fun heq => absurd (link_injective heq) (by omega)
    exact get_issue_of_ne _ hne
  · intro j hj
    obtain rfl : j = 0 := by omega
    exact ⟨e, .refl e, hid'⟩

/-- A chain of `n` forwards can be built, its last link accepted. -/
theorem chain_run (W : Working D) (n : ℕ) :
    ∃ s e, Run (Move D) {} (W.chain n) s ∧ Tip W n s e ∧
      s.store.acceptedCapabilities (link n) = some ["read".toList] := by
  induction n with
  | zero =>
      obtain ⟨e, he⟩ := tip_root W
      have hissue : Move D {} (.issue W.root noMint) (next D {} (.issue W.root noMint)) := ⟨rfl, rfl⟩
      have hnot : (next D {} (.issue W.root noMint)).store.isAccepted (link 0) = false := by
        obtain ⟨e', hnew⟩ := W.create_root
        simp only [next, hnew]
        rfl
      obtain ⟨htip, hacc⟩ := he.accept hnot
      exact ⟨_, e, .cons hissue (.single ⟨trivial, rfl⟩), htip, hacc⟩
  | succ n ih =>
      obtain ⟨s, e, hrun, htip, hacc⟩ := ih
      obtain ⟨e', htip', hsame⟩ := htip.forward hacc
      have hfiled := filed_of_run hrun
      have hfree := htip.free (n + 1) (by omega)
      have hstep : Move D s (.forward (W.pass n) W.clock (link n) noMint)
          (next D s (.forward (W.pass n) W.clock (link n) noMint)) := by
        refine ⟨⟨htip.unlinked n (by omega), ?_⟩, rfl⟩
        rw [Working.pass, envelopeIdOf_link]
        exact hfree
      have hnot : (next D s (.forward (W.pass n) W.clock (link n) noMint)).store.isAccepted
          (link (n + 1)) = false := by
        rw [Store.isAccepted, hsame, ← Store.isAccepted]
        exact hfiled.not_accepted hfree
      obtain ⟨htip'', hacc'⟩ := htip'.accept hnot
      exact ⟨_, e', hrun.append (.cons hstep (.single ⟨trivial, rfl⟩)), htip'', hacc'⟩

/-- An action on the last link. -/
def lastAction (n : ℕ) (e : DelegationEnvelope) : DelegationActionRequest :=
  { envelopeId := link n
    actorIdentity := agent n
    capability := "read".toList
    audience := e.audience
    nonce := "once".toList
    risk := .low }

/-- Revoking the first link of a long chain is not seen at its last link. -/
theorem Tip.ancestry_revoke (h : Tip W n s e) (hf : Filed s) (hn : ANCESTRY_LEVELS < n) :
    ancestryRevoked (s.store.revoke (link 0)) e = false := by
  rw [← Bool.not_eq_true, ancestryRevoked, seek_iff]
  rintro ⟨j, hj, b, hb, hrev⟩
  obtain ⟨a, ha, haid⟩ := h.lineage (j + 1) (by omega)
  have hanc : ancestor (s.store.revoke (link 0)).parentOf (j + 1) e = some a := hf.ancestor ha
  rw [hb, Option.some.injEq] at hanc
  subst hanc
  have hid : b.id = link 0 := by simpa [Store.isRevoked, Store.revoke, h.revoked] using hrev
  rw [haid] at hid
  have := link_injective hid
  omega

theorem Tip.executed_revoke (h : Tip W n s e) (hf : Filed s)
    (hacc : s.store.acceptedCapabilities (link n) = some ["read".toList])
    (hn : ANCESTRY_LEVELS < n) (uuid : Text) :
    executed (executeBoundedDelegation D (s.store.revoke (link 0)) (lastAction n e) W.clock uuid).2 =
      some e := by
  have hne : link n ≠ link 0 := fun heq => by
    have := link_injective heq
    omega
  have hrev : (s.store.revoke (link 0)).isRevoked (link n) = false := by
    simp [Store.isRevoked, Store.revoke, h.revoked, hne]
  have hisacc : (s.store.revoke (link 0)).isAccepted (link n) = true :=
    isAccepted_iff.mpr ⟨_, hacc⟩
  have hacc' : (s.store.revoke (link 0)).acceptedCapabilities (link n) = some ["read".toList] := hacc
  have haudit : (s.store.revoke (link 0)).auditAvailable = true := by
    simp [Store.auditAvailable, Store.revoke, h.audited]
  have hnonce : (s.store.revoke (link 0)).hasSeenNonce (link n) (lastAction n e).nonce = false := by
    simp [Store.hasSeenNonce, Store.revoke, h.nonces]
  have href : executionRefusal D (s.store.revoke (link 0)) (lastAction n e) W.clock e = none := by
    simp only [executionRefusal, h.id_eq, hrev, h.ancestry_revoke hf hn, h.expires,
      W.isExpired_eq.2, haudit, hisacc, h.recipient, hacc', hnonce]
    simp [lastAction, DelegationRiskTier.requiresHumanGate]
  have hfiled : (s.store.revoke (link 0)).get (lastAction n e).envelopeId = some e := h.filed
  unfold executeBoundedDelegation
  simp only [W.decidedAt_eq, hfiled, href, executed]

/-- A chain longer than the walk, its first link revoked, still acts at its last link. -/
theorem revoked_chain_acts (W : Working D) {n : ℕ} (hn : ANCESTRY_LEVELS < n) (uuid : Text) :
    ∃ s r e, Run (Move D) {} (W.chain n ++ [.revoke (link 0)]) s ∧
      r.id = link 0 ∧ e.id = link n ∧ DescendsBy s.forwards n r e ∧
      executed (executeBoundedDelegation D s.store (lastAction n e) W.clock uuid).2 = some e := by
  obtain ⟨s, e, hrun, htip, hacc⟩ := chain_run W n
  obtain ⟨r, hdesc, hrid⟩ := htip.lineage n (by omega)
  have hf := filed_of_run hrun
  refine ⟨next D s (.revoke (link 0)), r, e, hrun.snoc ⟨trivial, rfl⟩, ?_, htip.id_eq,
    hdesc, htip.executed_revoke hf hacc hn uuid⟩
  rw [hrid, Nat.sub_self]

/-- Wherever dates work at all, a revocation blocks the envelopes `k` forwards below exactly for `k`
up to 65. -/
theorem revocationReaches_iff (W : Working D) (k : ℕ) : RevocationReaches D k ↔ k ≤ 65 := by
  constructor
  · intro h
    by_contra hk
    obtain ⟨s, r, e, hrun, hrid, heid, hdesc, hexec⟩ :=
      revoked_chain_acts W (n := k) (not_le.mp hk) []
    have hmem : Call.revoke r.id ∈ W.chain k ++ [.revoke (link 0)] := by simp [hrid]
    have hblocked := (h _ s r e hrun hmem hdesc).1 (lastAction k e) W.clock [] heid.symm
    rw [hexec] at hblocked
    cases hblocked
  · exact reaches_of_le

/-- The epoch, with an expiry ahead. -/
def smallWorking : Working smallClock where
  now := 0
  shown := "1970-01-01T00:00:00.000Z".toList
  expiresAt := "2030-01-01T00:00:00.000Z".toList
  expiry := 1893456000000
  shown_eq := by decide +kernel
  expiry_eq := by decide +kernel
  expiresAt_ne := by decide
  now_lt := by norm_num

/-- Sixty-six forwards below the revoked envelope, the action is executed. -/
theorem revoked_chain_acts_66 :
    ∃ s r e, Run (Move smallClock) {}
        (smallWorking.chain 66 ++ [.revoke (link 0)]) s ∧
      r.id = link 0 ∧ e.id = link 66 ∧ DescendsBy s.forwards 66 r e ∧
      executed (executeBoundedDelegation smallClock s.store (lastAction 66 e) smallWorking.clock
        "u".toList).2 = some e :=
  revoked_chain_acts smallWorking (by decide) "u".toList

theorem revocationReaches_one : RevocationReaches smallClock 1 ∧ ¬ RevocationReaches smallClock 66 :=
  ⟨(revocationReaches_iff smallWorking 1).mpr (by decide),
    fun h => absurd ((revocationReaches_iff smallWorking 66).mp h) (by decide)⟩

end Remudero.Delegation
