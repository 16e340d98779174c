import Remudero.Delegation.Envelope
import Remudero.Lib.Transition

/-! # Chains of delegation

The calls on one delegation store as a transition system.  Beside the store the system logs what was
issued directly, what was accepted and by whom, and what was forwarded.

`Sound` is the invariant: acceptances and receipts stay with the envelope they were made on, and
every envelope comes from a directly issued one through forwards that only narrow.  A forward that
names the id of an accepted envelope breaks it, since the acceptance is kept by id and stays when the
envelope under it is replaced; `execute_authorized` is the result for the runs without one, and
`stolen_acceptance` a run with one. -/

namespace Remudero.Delegation

open Remudero.Lib

/-! ### What a call can do -/

theorem none_of_check {α : Type*} {c : Prop} [Decidable c] {a : α} {r : Option α}
    (h : (if c then some a else r) = none) : ¬ c ∧ r = none := by
  by_cases hc : c
  · simp [hc] at h
  · simpa [hc] using h

theorem given_eq_some {t : Option Text} {u : Text} : given t = some u ↔ t = some u ∧ u ≠ [] := by
  simp [given, Option.filter_eq_some_iff]

theorem isAccepted_iff {s : Store} {id : Text} :
    s.isAccepted id = true ↔ ∃ caps, s.acceptedCapabilities id = some caps :=
  Option.isSome_iff_exists

theorem envelopeIdOf_ne_nil (id : Option Text) (mint : Minted) : envelopeIdOf id mint ≠ [] := by
  cases h : given id with
  | none => simp [envelopeIdOf, h]
  | some u => simpa [envelopeIdOf, h] using (given_eq_some.mp h).2

/-- What `createDelegationEnvelope` makes. -/
theorem createDelegationEnvelope_ok {D : Clock} {input : DelegationEnvelopeInput} {mint : Minted}
    {e : DelegationEnvelope} (h : createDelegationEnvelope D input mint = .ok e) :
    e.id = envelopeIdOf input.id mint ∧ e.recipient = input.recipient ∧
      e.principal = input.principal ∧ e.capabilities = input.capabilities ∧
      e.scope = input.scope.getD {} ∧ e.expiresAt = input.expiresAt ∧
      e.parentReceiptId = given input.parentReceiptId ∧
      (D.dateParse e.expiresAt).isSome := by
  unfold createDelegationEnvelope at h
  split_ifs at h with h1 h2 h3 h4 h5 h6 h7 h8 h9
  have hdate : (D.dateParse input.expiresAt).isSome := by
    simp only [Bool.or_eq_true, not_or, Bool.not_eq_true] at h9
    simpa using h9.2
  injection h with h
  subst h
  exact ⟨rfl, rfl, rfl, rfl, rfl, rfl, rfl, hdate⟩

/-- An acceptance is recorded, or nothing changes. -/
theorem accept_cases (D : Clock) (s : Store) (request : DelegationAcceptanceRequest) (now : Now) :
    (∃ code reason, acceptDelegationEnvelope D s request now = (s, .refused code reason)) ∨
    ∃ e, s.get request.envelopeId = some e ∧ request.recipient = e.recipient ∧
      s.isAccepted e.id = false ∧ request.acceptedCapabilities ⊆ e.capabilities ∧
      acceptDelegationEnvelope D s request now =
        (s.recordAccepted e.id request.acceptedCapabilities,
          .ok e request.acceptedCapabilities) := by
  unfold acceptDelegationEnvelope
  cases hget : s.get request.envelopeId with
  | none => exact .inl ⟨_, _, rfl⟩
  | some e =>
      dsimp only
      split_ifs with h1 h2 h3 h4 h5 h6
      · exact .inl ⟨_, _, rfl⟩
      · exact .inl ⟨_, _, rfl⟩
      · exact .inl ⟨_, _, rfl⟩
      · exact .inl ⟨_, _, rfl⟩
      · exact .inl ⟨_, _, rfl⟩
      · exact .inl ⟨_, _, rfl⟩
      · refine .inr ⟨e, rfl, not_not.mp h3, by simpa using h4, ?_, rfl⟩
        intro c hc
        simp only [List.any_eq_true, Bool.not_eq_true', not_exists, not_and,
          Bool.not_eq_false] at h6
        simpa using h6 c hc

/-- What an execution that is not refused has passed. -/
theorem executionRefusal_none {D : Clock} {s : Store} {request : DelegationActionRequest}
    {now : Now} {e : DelegationEnvelope} (h : executionRefusal D s request now e = none) :
    s.isRevoked e.id = false ∧ ancestryRevoked s e = false ∧
      request.actorIdentity = e.recipient ∧
      ∃ caps, s.acceptedCapabilities e.id = some caps ∧ request.capability ∈ caps := by
  unfold executionRefusal at h
  obtain ⟨h1, h⟩ := none_of_check h
  obtain ⟨h2, h⟩ := none_of_check h
  obtain ⟨-, h⟩ := none_of_check h
  obtain ⟨-, h⟩ := none_of_check h
  obtain ⟨h5, h⟩ := none_of_check h
  obtain ⟨h6, h⟩ := none_of_check h
  obtain ⟨-, h⟩ := none_of_check h
  obtain ⟨h8, -⟩ := none_of_check h
  refine ⟨by simpa using h1, by simpa using h2, not_not.mp h6, ?_⟩
  obtain ⟨caps, hacc⟩ := isAccepted_iff.mp (by simpa using h5)
  exact ⟨caps, hacc, by simpa [hacc] using h8⟩

/-- An execution succeeds on an envelope that passes the checks, or changes nothing. -/
theorem execute_cases (D : Clock) (s : Store) (request : DelegationActionRequest) (now : Now)
    (uuid : Text) :
    ((executeBoundedDelegation D s request now uuid).1 = s ∧
      executed (executeBoundedDelegation D s request now uuid).2 = none) ∨
    ∃ e receipt, s.get request.envelopeId = some e ∧
      executionRefusal D s request now e = none ∧
      executeBoundedDelegation D s request now uuid =
        ((s.recordUse e.id request.nonce).linkReceipt (receiptIdOf uuid) e.id,
          .ok (.ok e, receipt)) := by
  unfold executeBoundedDelegation
  cases hd : decidedAtOf D now with
  | error thrown => exact .inl ⟨rfl, rfl⟩
  | ok decidedAt =>
      cases hget : s.get request.envelopeId with
      | none => exact .inl ⟨rfl, rfl⟩
      | some e =>
          cases href : executionRefusal D s request now e with
          | some r => exact .inl ⟨by simp [href], by simp [href, executed]⟩
          | none =>
              right
              simp only [href]
              exact ⟨e, _, rfl, href, rfl⟩

/-- What a forward that is not refused has passed. -/
theorem forwardRefusal_none {D : Clock} {s : Store} {request : DelegationForwardRequest}
    {now : Now} {p : DelegationEnvelope} (h : forwardRefusal D s request now p = none) :
    s.isRevoked p.id = false ∧ ancestryRevoked s p = false ∧
      request.forwarder = p.recipient ∧
      (∃ caps, s.acceptedCapabilities p.id = some caps ∧ request.capabilities ⊆ caps) ∧
      expiryWidened D request.expiresAt p.expiresAt = false := by
  unfold forwardRefusal at h
  obtain ⟨h1, h⟩ := none_of_check h
  obtain ⟨h2, h⟩ := none_of_check h
  obtain ⟨-, h⟩ := none_of_check h
  obtain ⟨h4, h⟩ := none_of_check h
  obtain ⟨h5, h⟩ := none_of_check h
  obtain ⟨h6, h⟩ := none_of_check h
  obtain ⟨h7, -⟩ := none_of_check h
  refine ⟨by simpa using h1, by simpa using h2, not_not.mp h4, ?_, by simpa using h7⟩
  obtain ⟨caps, hacc⟩ := isAccepted_iff.mp (by simpa using h5)
  refine ⟨caps, hacc, ?_⟩
  intro c hc
  simp only [hacc, Option.getD_some, Bool.or_eq_true, not_or, List.any_eq_true,
    Bool.not_eq_true', not_exists, not_and, Bool.not_eq_false] at h6
  simpa using h6.2 c hc

/-- A forward makes an envelope, throws after its receipt is linked, or changes nothing. -/
theorem forward_cases (D : Clock) (s : Store) (request : DelegationForwardRequest) (now : Now)
    (uuid : Text) (mint : Minted) :
    ((forwardDelegation D s request now uuid mint).1 = s ∧
      forwarded (forwardDelegation D s request now uuid mint).2 = none) ∨
    ∃ p, s.get request.parentEnvelopeId = some p ∧ forwardRefusal D s request now p = none ∧
      ((∃ thrown, forwardDelegation D s request now uuid mint =
          (s.linkReceipt (receiptIdOf uuid) p.id, .error thrown)) ∨
        ∃ e receipt, createDelegationEnvelope D (forwardInput request p (receiptIdOf uuid)) mint =
            .ok e ∧
          forwardDelegation D s request now uuid mint =
            ((s.linkReceipt (receiptIdOf uuid) p.id).issue e, .ok (.ok e receipt))) := by
  unfold forwardDelegation
  cases hd : decidedAtOf D now with
  | error thrown => exact .inl ⟨rfl, rfl⟩
  | ok decidedAt =>
      cases hget : s.get request.parentEnvelopeId with
      | none => exact .inl ⟨rfl, rfl⟩
      | some p =>
          cases href : forwardRefusal D s request now p with
          | some r => exact .inl ⟨by simp [href], by simp [href, forwarded]⟩
          | none =>
              refine .inr ⟨p, rfl, href, ?_⟩
              cases hnew : createDelegationEnvelope D (forwardInput request p (receiptIdOf uuid))
                mint with
              | error thrown => exact .inl ⟨thrown, by simp only [href, hnew]⟩
              | ok e =>
                  right
                  simp only [href, hnew]
                  exact ⟨e, _, rfl, rfl⟩

/-! ### The system -/

/-- A recorded acceptance: the envelope as it stood, who accepted it, and what. -/
structure Acceptance where
  envelope : DelegationEnvelope
  recipient : Text
  capabilities : List Text

structure System where
  store : Store := {}
  issued : List DelegationEnvelope := []
  acceptances : List Acceptance := []
  /-- The parent and the envelope of each forward. -/
  forwards : List (DelegationEnvelope × DelegationEnvelope) := []

inductive Call
  | issue (input : DelegationEnvelopeInput) (mint : Minted)
  | accept (request : DelegationAcceptanceRequest) (now : Now)
  | execute (request : DelegationActionRequest) (now : Now) (uuid : Text)
  | forward (request : DelegationForwardRequest) (now : Now) (uuid : Text) (mint : Minted)
  | revoke (id : Text)
  | setAuditAvailable (available : Bool)

/-- A forward that succeeds is logged with its parent. -/
def System.recordForward (s : System) (parent : Option DelegationEnvelope) :
    Store × Except Text DelegationForwardResult → System
  | (store, .ok (.ok e _)) =>
      { s with store := store, forwards := (parent.map fun p => (p, e)).toList ++ s.forwards }
  | (store, .ok (.refused _ _ _)) => { s with store := store }
  | (store, .error _) => { s with store := store }

theorem recordForward_of_not_ok (s : System) (parent : Option DelegationEnvelope)
    {res : Store × Except Text DelegationForwardResult}
    (h : forwarded res.2 = none) :
    s.recordForward parent res = { s with store := res.1 } := by
  obtain ⟨store, res⟩ := res
  cases res with
  | error thrown => rfl
  | ok res =>
      cases res with
      | ok e receipt => cases h
      | refused code reason receipt => rfl

def next (D : Clock) (s : System) : Call → System
  | .issue input mint =>
      match createDelegationEnvelope D input mint with
      | .error _ => s
      | .ok e => { s with store := s.store.issue e, issued := e :: s.issued }
  | .accept request now =>
      match acceptDelegationEnvelope D s.store request now with
      | (store, .ok e caps) =>
          { s with store := store, acceptances := ⟨e, request.recipient, caps⟩ :: s.acceptances }
      | (store, .refused _ _) => { s with store := store }
  | .execute request now uuid =>
      { s with store := (executeBoundedDelegation D s.store request now uuid).1 }
  | .forward request now uuid mint =>
      s.recordForward (s.store.get request.parentEnvelopeId)
        (forwardDelegation D s.store request now uuid mint)
  | .revoke id => { s with store := revokeDelegationEnvelope s.store id }
  | .setAuditAvailable available => { s with store := s.store.setAuditAvailable available }

/-- The system after an acceptance. -/
def System.accept (s : System) (e : DelegationEnvelope) (request : DelegationAcceptanceRequest) :
    System :=
  { s with
    store := s.store.recordAccepted e.id request.acceptedCapabilities
    acceptances := ⟨e, request.recipient, request.acceptedCapabilities⟩ :: s.acceptances }

/-- What a call can make of the system, with the checks that it has passed. -/
inductive Effect (D : Clock) (s : System) : Call → System → Prop
  | nothing {c : Call} : (∀ id, c ≠ .revoke id) → Effect D s c s
  | issued {input : DelegationEnvelopeInput} {mint : Minted} {e : DelegationEnvelope} :
      createDelegationEnvelope D input mint = .ok e →
      Effect D s (.issue input mint) { s with store := s.store.issue e, issued := e :: s.issued }
  | accepted {request : DelegationAcceptanceRequest} {now : Now} {e : DelegationEnvelope} :
      s.store.get request.envelopeId = some e → request.recipient = e.recipient →
      s.store.isAccepted e.id = false → request.acceptedCapabilities ⊆ e.capabilities →
      Effect D s (.accept request now) (s.accept e request)
  | executed {request : DelegationActionRequest} {now : Now} {uuid : Text}
      {e : DelegationEnvelope} :
      executionRefusal D s.store request now e = none →
      Effect D s (.execute request now uuid)
        { s with store := (s.store.recordUse e.id request.nonce).linkReceipt (receiptIdOf uuid) e.id }
  | linked {request : DelegationForwardRequest} {now : Now} {uuid : Text} {mint : Minted}
      {p : DelegationEnvelope} :
      forwardRefusal D s.store request now p = none →
      Effect D s (.forward request now uuid mint)
        { s with store := s.store.linkReceipt (receiptIdOf uuid) p.id }
  | forwarded {request : DelegationForwardRequest} {now : Now} {uuid : Text} {mint : Minted}
      {p e : DelegationEnvelope} :
      s.store.get request.parentEnvelopeId = some p →
      forwardRefusal D s.store request now p = none →
      createDelegationEnvelope D (forwardInput request p (receiptIdOf uuid)) mint = .ok e →
      Effect D s (.forward request now uuid mint)
        { s with
          store := (s.store.linkReceipt (receiptIdOf uuid) p.id).issue e
          forwards := (p, e) :: s.forwards }
  | revoked (id : Text) :
      Effect D s (.revoke id) { s with store := revokeDelegationEnvelope s.store id }
  | audited (available : Bool) :
      Effect D s (.setAuditAvailable available)
        { s with store := s.store.setAuditAvailable available }

theorem next_effect (D : Clock) (s : System) (c : Call) : Effect D s c (next D s c) := by
  cases c with
  | issue input mint =>
      cases hnew : createDelegationEnvelope D input mint with
      | error thrown =>
          simp only [next, hnew]
          exact .nothing (by simp)
      | ok e =>
          simp only [next, hnew]
          exact .issued hnew
  | accept request now =>
      rcases accept_cases D s.store request now with
        ⟨code, reason, heq⟩ | ⟨e, hget, hrec, hnot, hsub, heq⟩
      · simp only [next, heq]
        exact .nothing (by simp)
      · simp only [next, heq]
        exact .accepted hget hrec hnot hsub
  | execute request now uuid =>
      rcases execute_cases D s.store request now uuid with ⟨heq, -⟩ | ⟨e, receipt, -, href, heq⟩
      · simp only [next, heq]
        exact .nothing (by simp)
      · simp only [next, heq]
        exact .executed href
  | forward request now uuid mint =>
      rcases forward_cases D s.store request now uuid mint with ⟨heq, hno⟩ | ⟨p, hp, href, hres⟩
      · rw [next, recordForward_of_not_ok s _ hno, heq]
        exact .nothing (by simp)
      · rcases hres with ⟨thrown, heq⟩ | ⟨e, receipt, hnew, heq⟩
        · rw [next, heq]
          exact .linked href
        · rw [next, hp, heq]
          exact .forwarded hp href hnew
  | revoke id => exact .revoked id
  | setAuditAvailable available => exact .audited available

/-- The random ids are new, and a direct issue has a new id and no parent receipt. -/
def Admissible (s : System) : Call → Prop
  | .issue input mint =>
      given input.parentReceiptId = none ∧ s.store.get (envelopeIdOf input.id mint) = none
  | .execute _ _ uuid => s.store.envelopeIdForReceipt (receiptIdOf uuid) = none
  | .forward request _ uuid mint =>
      s.store.envelopeIdForReceipt (receiptIdOf uuid) = none ∧
        (given request.id = none → s.store.get ("dlg-".toList ++ mint.id) = none)
  | _ => True

def Step (D : Clock) (s : System) (c : Call) (t : System) : Prop :=
  Admissible s c ∧ t = next D s c

/-- A forward does not name the id of an envelope that was accepted. -/
def SparesAccepted (s : System) : Call → Prop
  | .forward request _ _ _ => ∀ id, given request.id = some id → s.store.isAccepted id = false
  | _ => True

/-! ### The invariant -/

/-- `who` accepted this very envelope, with `c` among the capabilities. -/
def AcceptedBy (s : System) (who c : Text) (e : DelegationEnvelope) : Prop :=
  ∃ a ∈ s.acceptances, a.envelope = e ∧ a.recipient = who ∧ c ∈ a.capabilities

def IsRoot (s : System) (e : DelegationEnvelope) : Prop :=
  e.parentReceiptId = none ∧ e ∈ s.issued

/-- `e` has the principal and scope of `a`, and does not outlive it. -/
def Narrows (D : Clock) (e a : DelegationEnvelope) : Prop :=
  e.principal = a.principal ∧ e.scope = a.scope ∧
    ∃ t u, D.dateParse e.expiresAt = some t ∧ D.dateParse a.expiresAt = some u ∧ t ≤ u

theorem Narrows.trans {D : Clock} {a b c : DelegationEnvelope} (h₁ : Narrows D a b)
    (h₂ : Narrows D b c) : Narrows D a c := by
  obtain ⟨hp, hs, t, u, ht, hu, htu⟩ := h₁
  obtain ⟨hp', hs', u', v, hu', hv, huv⟩ := h₂
  rw [hu, Option.some.injEq] at hu'
  exact ⟨hp.trans hp', hs.trans hs', t, v, ht, hv, by omega⟩

/-- `e` comes from a directly issued envelope, it narrows each of its ancestors, and what it allows
was accepted at each of them. -/
def Founded (D : Clock) (s : System) (e : DelegationEnvelope) : Prop :=
  ∃ as, Line s.store.parentOf (IsRoot s) e as ∧
    ∀ a ∈ as, Narrows D e a ∧ ∀ c ∈ e.capabilities, AcceptedBy s a.recipient c a

structure Sound (D : Clock) (s : System) : Prop where
  keyed : ∀ id e, s.store.get id = some e → e.id = id ∧ id ≠ []
  dated : ∀ id e, s.store.get id = some e → (D.dateParse e.expiresAt).isSome
  /-- What was accepted under an id was accepted of the envelope that is there. -/
  logged : ∀ id caps, s.store.acceptedCapabilities id = some caps →
    ∃ e, s.store.get id = some e ∧ caps ⊆ e.capabilities ∧
      ∃ a ∈ s.acceptances, a.envelope = e ∧ a.recipient = e.recipient ∧ a.capabilities = caps
  linked : ∀ r id, s.store.envelopeIdForReceipt r = some id → s.store.isAccepted id = true
  founded : ∀ id e, s.store.get id = some e → Founded D s e

variable {D : Clock} {s t : System}

theorem Sound.acceptedBy (h : Sound D s) {id c : Text} {caps : List Text} {e : DelegationEnvelope}
    (hacc : s.store.acceptedCapabilities id = some caps) (hget : s.store.get id = some e)
    (hc : c ∈ caps) : AcceptedBy s e.recipient c e := by
  obtain ⟨e', hget', -, a, ha, hae, har, hac⟩ := h.logged id caps hacc
  rw [hget, Option.some.injEq] at hget'
  subst hget'
  exact ⟨a, ha, hae, har, hac ▸ hc⟩

theorem Sound.not_accepted (h : Sound D s) {id : Text} (hget : s.store.get id = none) :
    s.store.isAccepted id = false := by
  by_contra hne
  obtain ⟨caps, hcaps⟩ := isAccepted_iff.mp (by simpa using hne)
  obtain ⟨e, he, -⟩ := h.logged id caps hcaps
  rw [hget] at he
  cases he

/-- Nothing that an envelope rests on is lost. -/
structure Grows (s t : System) : Prop where
  receipts : ∀ r id, s.store.envelopeIdForReceipt r = some id →
    t.store.envelopeIdForReceipt r = some id
  envelopes : ∀ id, s.store.isAccepted id = true → t.store.get id = s.store.get id
  issued : s.issued ⊆ t.issued
  acceptances : s.acceptances ⊆ t.acceptances

theorem AcceptedBy.mono {who c : Text} {e : DelegationEnvelope} (h : AcceptedBy s who c e)
    (hg : Grows s t) : AcceptedBy t who c e := by
  obtain ⟨a, ha, h⟩ := h
  exact ⟨a, hg.acceptances ha, h⟩

/-- A parent stays the parent: its receipt was made on an accepted envelope. -/
theorem Sound.parentOf_mono (h : Sound D s) (hg : Grows s t) {e p : DelegationEnvelope}
    (hp : s.store.parentOf e = some p) : t.store.parentOf e = some p := by
  obtain ⟨id, hid, hget⟩ := Option.bind_eq_some_iff.mp hp
  obtain ⟨r, hr, hlink⟩ := Option.bind_eq_some_iff.mp hid
  obtain ⟨hlink, hne⟩ := given_eq_some.mp hlink
  have hlink' : given (t.store.envelopeIdForReceipt r) = some id :=
    given_eq_some.mpr ⟨hg.receipts r id hlink, hne⟩
  rw [Store.parentOf, hr, Option.bind_some, hlink', Option.bind_some,
    hg.envelopes id (h.linked r id hlink), hget]

theorem Sound.line_mono (h : Sound D s) (hg : Grows s t) {e : DelegationEnvelope}
    {as : List DelegationEnvelope} (hl : Line s.store.parentOf (IsRoot s) e as) :
    Line t.store.parentOf (IsRoot t) e as :=
  hl.mono (fun _ _ hp => h.parentOf_mono hg hp) fun _ hr => ⟨hr.1, hg.issued hr.2⟩

theorem Sound.founded_mono (h : Sound D s) (hg : Grows s t) {e : DelegationEnvelope}
    (hf : Founded D s e) : Founded D t e := by
  obtain ⟨as, hline, has⟩ := hf
  refine ⟨as, h.line_mono hg hline, ?_⟩
  intro a ha
  exact ⟨(has a ha).1, fun c hc => ((has a ha).2 c hc).mono hg⟩

/-- A step that accepts nothing keeps the invariant when the envelopes it adds are founded. -/
theorem Sound.of_grows (h : Sound D s) (hg : Grows s t)
    (hacc : t.store.accepted = s.store.accepted)
    (hget : ∀ id e, t.store.get id = some e → s.store.get id = some e ∨
      ((e.id = id ∧ id ≠ []) ∧ (D.dateParse e.expiresAt).isSome ∧ Founded D t e))
    (hlink : ∀ r id, t.store.envelopeIdForReceipt r = some id →
      s.store.envelopeIdForReceipt r = some id ∨ s.store.isAccepted id = true) :
    Sound D t := by
  have haccept : ∀ id, t.store.isAccepted id = s.store.isAccepted id := by
    intro id
    rw [Store.isAccepted, hacc, ← Store.isAccepted]
  refine ⟨?_, ?_, ?_, ?_, ?_⟩
  · intro id e he
    rcases hget id e he with he | ⟨hk, -⟩
    · exact h.keyed id e he
    · exact hk
  · intro id e he
    rcases hget id e he with he | ⟨-, hd, -⟩
    · exact h.dated id e he
    · exact hd
  · intro id caps hcaps
    rw [Store.acceptedCapabilities, hacc, ← Store.acceptedCapabilities] at hcaps
    obtain ⟨e, he, hsub, a, ha, hrest⟩ := h.logged id caps hcaps
    have hid : s.store.isAccepted id = true := isAccepted_iff.mpr ⟨caps, hcaps⟩
    exact ⟨e, (hg.envelopes id hid).trans he, hsub, a, hg.acceptances ha, hrest⟩
  · intro r id hr
    rw [haccept]
    rcases hlink r id hr with hr | hid
    · exact h.linked r id hr
    · exact hid
  · intro id e he
    rcases hget id e he with he | ⟨-, -, hf⟩
    · exact h.founded_mono hg (h.founded id e he)
    · exact hf

/-! ### Steps -/

theorem get_issue_self (s : Store) (e : DelegationEnvelope) : (s.issue e).get e.id = some e :=
  entryOf_assign_self e.id e s.envelopes

theorem get_issue_of_ne (s : Store) {e : DelegationEnvelope} {id : Text} (h : id ≠ e.id) :
    (s.issue e).get id = s.get id :=
  entryOf_assign_of_ne e s.envelopes h

theorem envelopeIdForReceipt_link_self (s : Store) (r id : Text) :
    (s.linkReceipt r id).envelopeIdForReceipt r = some id :=
  entryOf_assign_self r id s.receiptEnvelope

theorem envelopeIdForReceipt_link_of_ne (s : Store) {r r' id : Text} (h : r' ≠ r) :
    (s.linkReceipt r id).envelopeIdForReceipt r' = s.envelopeIdForReceipt r' :=
  entryOf_assign_of_ne id s.receiptEnvelope h

/-- Linking a new receipt to an accepted envelope; nonces, revocations and the audit flag play no
part. -/
theorem Sound.link (h : Sound D s) {r id : Text}
    (hfresh : s.store.envelopeIdForReceipt r = none) (hid : s.store.isAccepted id = true)
    {store : Store} (henv : store.envelopes = s.store.envelopes)
    (hacc : store.accepted = s.store.accepted)
    (hrec : store.receiptEnvelope = (s.store.linkReceipt r id).receiptEnvelope) :
    Sound D { s with store := store } ∧ Grows s { s with store := store } := by
  have hget : ∀ id, store.get id = s.store.get id := by
    intro id
    rw [Store.get, henv, ← Store.get]
  have hlink : ∀ r', store.envelopeIdForReceipt r' =
      (s.store.linkReceipt r id).envelopeIdForReceipt r' := by
    intro r'
    rw [Store.envelopeIdForReceipt, hrec, ← Store.envelopeIdForReceipt]
  have hg : Grows s { s with store := store } := by
    refine ⟨?_, fun id' _ => hget id', fun _ hx => hx, fun _ hx => hx⟩
    intro r' id' hr'
    have hne : r' ≠ r := by
      rintro rfl
      rw [hfresh] at hr'
      cases hr'
    rw [hlink, envelopeIdForReceipt_link_of_ne s.store hne, hr']
  refine ⟨h.of_grows hg hacc (fun id' e he => .inl ((hget id').symm.trans he)) ?_, hg⟩
  intro r' id' hr'
  rw [hlink] at hr'
  by_cases hne : r' = r
  · subst hne
    rw [envelopeIdForReceipt_link_self, Option.some.injEq] at hr'
    exact .inr (hr' ▸ hid)
  · rw [envelopeIdForReceipt_link_of_ne s.store hne] at hr'
    exact .inl hr'

/-- A store with the same envelopes, acceptances and receipts. -/
theorem Sound.of_same (h : Sound D s) {store : Store}
    (henv : store.envelopes = s.store.envelopes) (hacc : store.accepted = s.store.accepted)
    (hrec : store.receiptEnvelope = s.store.receiptEnvelope) :
    Sound D { s with store := store } ∧ Grows s { s with store := store } := by
  have hget : ∀ id, store.get id = s.store.get id := by
    intro id
    rw [Store.get, henv, ← Store.get]
  have hlink : ∀ r, store.envelopeIdForReceipt r = s.store.envelopeIdForReceipt r := by
    intro r
    rw [Store.envelopeIdForReceipt, hrec, ← Store.envelopeIdForReceipt]
  have hg : Grows s { s with store := store } :=
    ⟨fun r id hr => (hlink r).trans hr, fun id _ => hget id, fun _ hx => hx, fun _ hx => hx⟩
  exact ⟨h.of_grows hg hacc (fun id e he => .inl ((hget id).symm.trans he))
    fun r id hr => .inl ((hlink r).symm.trans hr), hg⟩

/-- An envelope put under an id that was not accepted. -/
theorem Sound.issue (h : Sound D s) {e : DelegationEnvelope} {issued : List DelegationEnvelope}
    (hsub : s.issued ⊆ issued) (hfree : s.store.isAccepted e.id = false) (hne : e.id ≠ [])
    (hdate : (D.dateParse e.expiresAt).isSome)
    (hfounded : Grows s { s with store := s.store.issue e, issued := issued } →
      Founded D { s with store := s.store.issue e, issued := issued } e) :
    Sound D { s with store := s.store.issue e, issued := issued } ∧
      Grows s { s with store := s.store.issue e, issued := issued } := by
  have hg : Grows s { s with store := s.store.issue e, issued := issued } := by
    refine ⟨fun _ _ hr => hr, ?_, hsub, fun _ hx => hx⟩
    intro id hid
    refine get_issue_of_ne s.store ?_
    rintro rfl
    rw [hfree] at hid
    cases hid
  refine ⟨h.of_grows hg rfl ?_ fun _ _ hr => .inl hr, hg⟩
  intro id e' he'
  by_cases hid : id = e.id
  · subst hid
    have he : e = e' := by
      have hself := get_issue_self s.store e
      rw [he', Option.some.injEq] at hself
      exact hself.symm
    subst he
    exact .inr ⟨⟨rfl, hne⟩, hdate, hfounded hg⟩
  · exact .inl ((get_issue_of_ne s.store hid).symm.trans he')

theorem Sound.accept (h : Sound D s) {request : DelegationAcceptanceRequest}
    {e : DelegationEnvelope} (hget : s.store.get request.envelopeId = some e)
    (hrec : request.recipient = e.recipient) (hnot : s.store.isAccepted e.id = false)
    (hsub : request.acceptedCapabilities ⊆ e.capabilities) :
    Sound D (s.accept e request) ∧ Grows s (s.accept e request) := by
  have hkey := h.keyed _ _ hget
  have hg : Grows s (s.accept e request) :=
    ⟨fun _ _ hr => hr, fun _ _ => rfl, fun _ hx => hx, fun _ hx => List.mem_cons_of_mem _ hx⟩
  refine ⟨?_, hg⟩
  refine ⟨h.keyed, h.dated, ?_, ?_, fun id e' he' => h.founded_mono hg (h.founded id e' he')⟩
  · intro id caps hcaps
    by_cases hid : id = e.id
    · subst hid
      have hset : request.acceptedCapabilities = caps := by
        rw [← Option.some.injEq, ← hcaps]
        exact (entryOf_assign_self e.id _ s.store.accepted).symm
      subst hset
      refine ⟨e, ?_, hsub, _, List.mem_cons_self, rfl, hrec, rfl⟩
      rw [hkey.1]
      exact hget
    · have hold : s.store.acceptedCapabilities id = some caps := by
        rw [← hcaps]
        exact (entryOf_assign_of_ne _ s.store.accepted hid).symm
      obtain ⟨e', he', hsub', a, ha, hrest⟩ := h.logged id caps hold
      exact ⟨e', he', hsub', a, List.mem_cons_of_mem _ ha, hrest⟩
  · intro r id hr
    have hid := h.linked r id hr
    have hne : id ≠ e.id := by
      rintro rfl
      rw [hnot] at hid
      cases hid
    rw [Store.isAccepted, System.accept, Store.recordAccepted, entryOf_assign_of_ne _ _ hne,
      ← Store.isAccepted]
    exact hid

/-- The log of forwards plays no part in the invariant. -/
theorem Sound.with_forwards (h : Sound D t) (hg : Grows s t)
    (forwards : List (DelegationEnvelope × DelegationEnvelope)) :
    Sound D { t with forwards := forwards } ∧ Grows s { t with forwards := forwards } :=
  ⟨⟨h.keyed, h.dated, h.logged, h.linked, h.founded⟩,
    ⟨hg.receipts, hg.envelopes, hg.issued, hg.acceptances⟩⟩

theorem Grows.trans {u : System} (h₁ : Grows s t) (h₂ : Grows t u)
    (hacc : t.store.accepted = s.store.accepted) : Grows s u where
  receipts r id hr := h₂.receipts r id (h₁.receipts r id hr)
  envelopes id hid := by
    have hid' : t.store.isAccepted id = true := by
      rw [Store.isAccepted, hacc, ← Store.isAccepted, hid]
    rw [h₂.envelopes id hid', h₁.envelopes id hid]
  issued _ hx := h₂.issued (h₁.issued hx)
  acceptances _ hx := h₂.acceptances (h₁.acceptances hx)

/-- A forward that widens neither the capabilities nor the expiry narrows its parent. -/
theorem Sound.narrows_forward (h : Sound D s) {request : DelegationForwardRequest} {uuid : Text}
    {mint : Minted} {p e : DelegationEnvelope} {id : Text} (hp : s.store.get id = some p)
    (hexp : expiryWidened D request.expiresAt p.expiresAt = false)
    (hnew : createDelegationEnvelope D (forwardInput request p (receiptIdOf uuid)) mint = .ok e) :
    Narrows D e p := by
  obtain ⟨-, -, hprin, -, hscope, hexpires, -, hdate⟩ := createDelegationEnvelope_ok hnew
  obtain ⟨t, ht⟩ := Option.isSome_iff_exists.mp hdate
  obtain ⟨u, hu⟩ := Option.isSome_iff_exists.mp (h.dated id p hp)
  have ht' : D.dateParse request.expiresAt = some t := by
    rw [← ht, hexpires, forwardInput]
  refine ⟨hprin, hscope, t, u, ht, hu, ?_⟩
  simpa [expiryWidened, ht', hu] using hexp

/-- The parent of a forwarded envelope is the envelope that was forwarded. -/
theorem parentOf_forwarded {store : Store} {request : DelegationForwardRequest} {uuid : Text}
    {mint : Minted} {p e : DelegationEnvelope}
    (hnew : createDelegationEnvelope D (forwardInput request p (receiptIdOf uuid)) mint = .ok e)
    (hlink : store.envelopeIdForReceipt (receiptIdOf uuid) = some p.id) (hne : p.id ≠ [])
    (hget : store.get p.id = some p) : store.parentOf e = some p := by
  obtain ⟨-, -, -, -, -, -, hparent, -⟩ := createDelegationEnvelope_ok hnew
  have hreceipt : given e.parentReceiptId = some (receiptIdOf uuid) := by
    have hr : receiptIdOf uuid ≠ [] := by simp [receiptIdOf]
    rw [hparent, forwardInput, given_eq_some.mpr ⟨rfl, hr⟩, given_eq_some.mpr ⟨rfl, hr⟩]
  have hid : given (store.envelopeIdForReceipt (receiptIdOf uuid)) = some p.id :=
    given_eq_some.mpr ⟨hlink, hne⟩
  rw [Store.parentOf, hreceipt, Option.bind_some, hid, Option.bind_some, hget]

/-- The id of an envelope that a forward makes is not that of an accepted one. -/
theorem Sound.forward_id_free (h : Sound D s) {request : DelegationForwardRequest} {now : Now}
    {uuid : Text} {mint : Minted} {p e : DelegationEnvelope}
    (hadm : Admissible s (.forward request now uuid mint))
    (hok : SparesAccepted s (.forward request now uuid mint))
    (hnew : createDelegationEnvelope D (forwardInput request p (receiptIdOf uuid)) mint = .ok e) :
    s.store.isAccepted e.id = false := by
  obtain ⟨hid, -⟩ := createDelegationEnvelope_ok hnew
  cases hg : given request.id with
  | none =>
      have hmint : e.id = "dlg-".toList ++ mint.id := by simp [hid, envelopeIdOf, forwardInput, hg]
      exact hmint ▸ h.not_accepted (hadm.2 hg)
  | some id =>
      have heq : e.id = id := by simp [hid, envelopeIdOf, forwardInput, hg]
      exact heq ▸ hok id hg

theorem Sound.forward (h : Sound D s) {request : DelegationForwardRequest} {now : Now}
    {uuid : Text} {mint : Minted} {p e : DelegationEnvelope}
    (hadm : Admissible s (.forward request now uuid mint))
    (hok : SparesAccepted s (.forward request now uuid mint))
    (hp : s.store.get request.parentEnvelopeId = some p)
    (href : forwardRefusal D s.store request now p = none)
    (hnew : createDelegationEnvelope D (forwardInput request p (receiptIdOf uuid)) mint = .ok e) :
    Sound D { s with store := (s.store.linkReceipt (receiptIdOf uuid) p.id).issue e } ∧
      Grows s { s with store := (s.store.linkReceipt (receiptIdOf uuid) p.id).issue e } := by
  obtain ⟨-, -, -, ⟨caps, hcaps, hsub⟩, hexp⟩ := forwardRefusal_none href
  obtain ⟨hid, -, -, hcap, -, -, -, hdate⟩ := createDelegationEnvelope_ok hnew
  have hpkey := h.keyed _ _ hp
  have hpacc : s.store.isAccepted p.id = true := isAccepted_iff.mpr ⟨caps, hcaps⟩
  have hpget : s.store.get p.id = some p := by rw [hpkey.1, hp]
  have hfree := h.forward_id_free hadm hok hnew
  obtain ⟨h₁, hg₁⟩ : Sound D { s with store := s.store.linkReceipt (receiptIdOf uuid) p.id } ∧
      Grows s { s with store := s.store.linkReceipt (receiptIdOf uuid) p.id } :=
    h.link hadm.1 hpacc rfl rfl rfl
  have hne : e.id ≠ [] := hid ▸ envelopeIdOf_ne_nil _ mint
  have hfounded : Grows { s with store := s.store.linkReceipt (receiptIdOf uuid) p.id }
        { s with store := (s.store.linkReceipt (receiptIdOf uuid) p.id).issue e } →
      Founded D { s with store := (s.store.linkReceipt (receiptIdOf uuid) p.id).issue e } e := by
    intro hg₂
    have hget' : ((s.store.linkReceipt (receiptIdOf uuid) p.id).issue e).get p.id = some p :=
      (hg₂.envelopes p.id hpacc).trans hpget
    have hlink : ((s.store.linkReceipt (receiptIdOf uuid) p.id).issue e).envelopeIdForReceipt
        (receiptIdOf uuid) = some p.id :=
      envelopeIdForReceipt_link_self s.store (receiptIdOf uuid) p.id
    have hparent := parentOf_forwarded hnew hlink (hpkey.1 ▸ hpkey.2) hget'
    obtain ⟨as, hline, has⟩ := h₁.founded p.id p hpget
    refine ⟨p :: as, .up hparent (h₁.line_mono hg₂ hline), ?_⟩
    have hnarrow := h.narrows_forward hp hexp hnew
    have hcapsub : ∀ c ∈ e.capabilities, c ∈ caps := by
      intro c hc
      rw [hcap] at hc
      exact hsub hc
    obtain ⟨p', hp', hle, -⟩ := h.logged p.id caps hcaps
    rw [hpget, Option.some.injEq] at hp'
    subst hp'
    intro a ha
    rcases List.mem_cons.mp ha with rfl | ha
    · exact ⟨hnarrow, fun c hc => h.acceptedBy hcaps hpget (hcapsub c hc)⟩
    · exact ⟨hnarrow.trans (has a ha).1, fun c hc =>
        ((has a ha).2 c (hle (hcapsub c hc))).mono hg₂⟩
  obtain ⟨h₂, hg₂⟩ := h₁.issue (fun _ hx => hx) hfree hne hdate hfounded
  exact ⟨h₂, hg₁.trans hg₂ rfl⟩

/-- A call that spares the accepted envelopes keeps the invariant, and loses nothing. -/
theorem Sound.of_effect (h : Sound D s) {c : Call} (hadm : Admissible s c) (hok : SparesAccepted s c)
    (heff : Effect D s c t) : Sound D t ∧ Grows s t := by
  cases heff with
  | nothing => exact h.of_same rfl rfl rfl
  | @issued input mint e hnew =>
      obtain ⟨hid, -, -, -, -, -, hparent, hdate⟩ := createDelegationEnvelope_ok hnew
      refine h.issue (fun _ hx => List.mem_cons_of_mem _ hx) ?_ (hid ▸ envelopeIdOf_ne_nil _ mint)
        hdate fun _ => ⟨[], .root ⟨?_, List.mem_cons_self⟩, by simp⟩
      · rw [hid]
        exact h.not_accepted hadm.2
      · rw [hparent, hadm.1]
  | accepted hget hrec hnot hsub => exact h.accept hget hrec hnot hsub
  | executed href =>
      obtain ⟨-, -, -, caps, hcaps, -⟩ := executionRefusal_none href
      exact h.link hadm (isAccepted_iff.mpr ⟨caps, hcaps⟩) rfl rfl rfl
  | linked href =>
      obtain ⟨-, -, -, ⟨caps, hcaps, -⟩, -⟩ := forwardRefusal_none href
      exact h.link hadm.1 (isAccepted_iff.mpr ⟨caps, hcaps⟩) rfl rfl rfl
  | forwarded hp href hnew =>
      obtain ⟨h', hg⟩ := h.forward hadm hok hp href hnew
      exact h'.with_forwards hg _
  | revoked id => exact h.of_same rfl rfl rfl
  | audited available => exact h.of_same rfl rfl rfl

theorem Sound.of_next (h : Sound D s) {c : Call} (hadm : Admissible s c) (hok : SparesAccepted s c) :
    Sound D (next D s c) ∧ Grows s (next D s c) :=
  h.of_effect hadm hok (next_effect D s c)

theorem sound_empty : Sound D {} := by
  constructor <;> intro a b h <;> cases h

/-! ### Authority only narrows -/

theorem sound_of_run {calls : List Call}
    (h : Run (Guarded (Step D) SparesAccepted) {} calls s) : Sound D s := by
  refine h.invariant (I := Sound D) ?_ sound_empty
  rintro s c t hs ⟨⟨hadm, rfl⟩, hok⟩
  exact (hs.of_next hadm hok).1

/-- What stands behind an execution of `c` by `who` on `e`: `who` is the recipient and accepted
this envelope with `c`, and so did the recipient of each envelope up to the one issued directly,
whose principal, scope and expiry bound those of `e`. -/
structure Authorized (D : Clock) (s : System) (who c : Text) (e : DelegationEnvelope) : Prop where
  recipient : who = e.recipient
  accepted : AcceptedBy s who c e
  chain : ∃ as, Line s.store.parentOf (IsRoot s) e as ∧
    ∀ a ∈ as, AcceptedBy s a.recipient c a ∧ Narrows D e a

/-- In a run whose forwards do not name the id of an accepted envelope, every execution that
succeeds is authorized. -/
theorem execute_authorized {calls : List Call} {request : DelegationActionRequest} {now : Now}
    {uuid : Text} {e : DelegationEnvelope}
    (hrun : Run (Guarded (Step D) SparesAccepted) {} calls s)
    (hexec : executed (executeBoundedDelegation D s.store request now uuid).2 = some e) :
    s.store.get request.envelopeId = some e ∧
      Authorized D s request.actorIdentity request.capability e := by
  have h := sound_of_run hrun
  rcases execute_cases D s.store request now uuid with ⟨-, hno⟩ | ⟨e', receipt', hget, href, heq⟩
  · rw [hno] at hexec
    cases hexec
  · rw [heq, executed, Option.some.injEq] at hexec
    subst hexec
    obtain ⟨-, -, hactor, caps, hcaps, hcap⟩ := executionRefusal_none href
    have hkey := h.keyed _ _ hget
    have hget' : s.store.get e'.id = some e' := by rw [hkey.1, hget]
    obtain ⟨e'', hget'', hsub, -⟩ := h.logged e'.id caps hcaps
    rw [hget', Option.some.injEq] at hget''
    subst hget''
    obtain ⟨as, hline, has⟩ := h.founded _ _ hget
    refine ⟨hget, hactor, ?_, as, hline, ?_⟩
    · rw [hactor]
      exact h.acceptedBy hcaps hget' hcap
    · intro a ha
      exact ⟨(has a ha).2 _ (hsub hcap), (has a ha).1⟩

/-! ### Runs that evaluate -/

instance (s : System) : ∀ c, Decidable (Admissible s c)
  | .issue input mint => inferInstanceAs (Decidable (given input.parentReceiptId = none ∧
      s.store.get (envelopeIdOf input.id mint) = none))
  | .accept _ _ => inferInstanceAs (Decidable True)
  | .execute _ _ uuid => inferInstanceAs (Decidable
      (s.store.envelopeIdForReceipt (receiptIdOf uuid) = none))
  | .forward request _ uuid mint => inferInstanceAs (Decidable
      (s.store.envelopeIdForReceipt (receiptIdOf uuid) = none ∧
        (given request.id = none → s.store.get ("dlg-".toList ++ mint.id) = none)))
  | .revoke _ => inferInstanceAs (Decidable True)
  | .setAuditAvailable _ => inferInstanceAs (Decidable True)

/-- The calls are admissible one after another, and meet `ok`. -/
def Goes (D : Clock) (ok : System → Call → Bool) : System → List Call → Bool
  | _, [] => true
  | s, c :: cs => decide (Admissible s c) && ok s c && Goes D ok (next D s c) cs

theorem run_of_goes {ok : System → Call → Bool} {good : System → Call → Prop}
    (hok : ∀ s c, ok s c = true → good s c) :
    ∀ {s : System} {calls : List Call}, Goes D ok s calls = true →
      Run (Guarded (Step D) good) s calls (calls.foldl (next D) s)
  | s, [], _ => .nil
  | s, c :: cs, h => by
      simp only [Goes, Bool.and_eq_true, decide_eq_true_eq] at h
      obtain ⟨⟨hadm, hc⟩, hcs⟩ := h
      exact (run_of_goes hok hcs).cons ⟨⟨hadm, rfl⟩, hok s c hc⟩

/-- A clock that knows one date ahead, and the epoch. -/
def smallClock : Clock where
  dateParse t := if t = "2030-01-01T00:00:00.000Z".toList then some 1893456000000 else none
  toISOString ms := if ms = 0 then some "1970-01-01T00:00:00.000Z".toList else none

/-- An envelope from `sender` to `recipient` with one capability. -/
def handoff (id sender recipient capability : Text) : DelegationEnvelopeInput :=
  { id := some id
    sender := sender
    recipient := recipient
    principal := "owner".toList
    purpose := "release".toList
    capabilities := [capability]
    audience := "ops".toList
    expiresAt := "2030-01-01T00:00:00.000Z".toList }

def epoch : Now := .number (some 0)

def noMint : Minted := ⟨[], []⟩

def acceptAs (id recipient capability : Text) : Call :=
  .accept ⟨id, recipient, [capability]⟩ epoch

def forwardAs (parent forwarder recipient capability : Text) (id : Text) (uuid : Text) : Call :=
  .forward
    { parentEnvelopeId := parent
      forwarder := forwarder
      newRecipient := recipient
      capabilities := [capability]
      purpose := "release".toList
      audience := "ops".toList
      expiresAt := "2030-01-01T00:00:00.000Z".toList
      id := some id }
    epoch uuid noMint

def actionAs (id actor capability : Text) : DelegationActionRequest :=
  { envelopeId := id
    actorIdentity := actor
    capability := capability
    audience := "ops".toList
    nonce := "once".toList
    risk := .low }

/-- `ann` accepts `e1` and forwards it to `cyd`, who accepts. -/
def handover : List Call :=
  [.issue (handoff "e1".toList "root".toList "ann".toList "read".toList) noMint,
    acceptAs "e1".toList "ann".toList "read".toList,
    forwardAs "e1".toList "ann".toList "cyd".toList "read".toList "e2".toList "r1".toList,
    acceptAs "e2".toList "cyd".toList "read".toList]

def sparesAccepted (s : System) : Call → Bool
  | .forward request _ _ _ => ((given request.id).map s.store.isAccepted) ≠ some true
  | _ => true

theorem sparesAccepted_spec (s : System) (c : Call) (h : sparesAccepted s c = true) :
    SparesAccepted s c := by
  cases c with
  | forward request now uuid mint =>
      intro id hid
      simpa [sparesAccepted, hid] using h
  | _ => trivial

theorem goes_handover : Goes smallClock sparesAccepted {} handover = true := by decide +kernel

theorem executed_handover : (executed (executeBoundedDelegation smallClock
    (handover.foldl (next smallClock) {}).store
    (actionAs "e2".toList "cyd".toList "read".toList) epoch "r2".toList).2).isSome = true := by
  decide +kernel

theorem execute_authorized_handover :
    ∃ e, executed (executeBoundedDelegation smallClock (handover.foldl (next smallClock) {}).store
        (actionAs "e2".toList "cyd".toList "read".toList) epoch "r2".toList).2 = some e ∧
      Authorized smallClock (handover.foldl (next smallClock) {}) "cyd".toList "read".toList e := by
  obtain ⟨e, he⟩ := Option.isSome_iff_exists.mp executed_handover
  exact ⟨e, he, (execute_authorized (run_of_goes sparesAccepted_spec goes_handover) he).2⟩

/-- `ann` accepts `e1` and `bob` accepts `e2`; `ann` forwards `e1` to `cyd` under the id `e2`. -/
def theft : List Call :=
  [.issue (handoff "e1".toList "root".toList "ann".toList "read".toList) noMint,
    .issue (handoff "e2".toList "root".toList "bob".toList "deploy".toList) noMint,
    acceptAs "e1".toList "ann".toList "read".toList,
    acceptAs "e2".toList "bob".toList "deploy".toList,
    forwardAs "e1".toList "ann".toList "cyd".toList "read".toList "e2".toList "r1".toList]

theorem goes_theft : Goes smallClock (fun _ _ => true) {} theft = true := by decide +kernel

/-- `cyd`, who accepted nothing, deploys on what `bob` accepted. -/
theorem stolen_acceptance :
    ∃ s e, Run (Step smallClock) {} theft s ∧
      executed (executeBoundedDelegation smallClock s.store
        (actionAs "e2".toList "cyd".toList "deploy".toList) epoch "r2".toList).2 = some e ∧
      ¬ Authorized smallClock s "cyd".toList "deploy".toList e := by
  have hrun : Run (Guarded (Step smallClock) fun _ _ => True) {} theft
      (theft.foldl (next smallClock) {}) :=
    run_of_goes (fun _ _ _ => trivial) goes_theft
  have hsome : (executed (executeBoundedDelegation smallClock
      (theft.foldl (next smallClock) {}).store
      (actionAs "e2".toList "cyd".toList "deploy".toList) epoch "r2".toList).2).isSome = true := by
    decide +kernel
  obtain ⟨e, he⟩ := Option.isSome_iff_exists.mp hsome
  refine ⟨_, e, hrun.of_guarded, he, ?_⟩
  intro h
  obtain ⟨a, ha, -, hwho, -⟩ := h.accepted
  have hnone : ∀ a ∈ (theft.foldl (next smallClock) {}).acceptances, a.recipient ≠ "cyd".toList := by
    decide +kernel
  exact hnone a ha hwho

end Remudero.Delegation
