import EventsApi.Proof.Registration

/-!
# Verified users have no confirmation tokens

A confirmation verifies a user and deletes the token of the user that it holds, so nobody else can
hold one. Only a resend that read the user before, and inserts its token after, leaves a verified
user with a token.
-/

namespace EventsApi

open ReadCommitted

abbrev ConfirmationWorld := World database ConfirmationRequest

variable {t u : Txn} {w w' w'' : ConfirmationWorld} {userId : Nat}

/-! ### The invariant -/

/-- The user is committed and has not confirmed the address. -/
def UnverifiedUser (userId : Nat) (w : ConfirmationWorld) : Prop :=
  ∃ user : User, (w.slot userTable userId).committed = some user ∧ user.emailVerifiedAt = none

/-- The token of the transaction is for a user that has not confirmed the address, or that the
transaction is creating. -/
def NewConfirmation (t : Txn) (w : ConfirmationWorld) (token : UserToken) : Prop :=
  UnverifiedUser token.userId w ∨ ∃ user : User,
    (w.slot userTable token.userId).held = some (t, some user) ∧ user.emailVerifiedAt = none

/-- A user is created unverified, and changed only before the address is confirmed. -/
structure Confirmations (w : ConfirmationWorld) : Prop where
  unique : Unique confirmationTable w
  owned : ∀ id (token : UserToken), (w.slot confirmationTable id).committed = some token →
    UnverifiedUser token.userId w
  linked : ∀ id (job : EmailOutboxJob) tokenId, (w.slot jobTable id).committed = some job →
    job.confirmationTokenId = some tokenId → (w.slot confirmationTable tokenId).committed ≠ none
  pending : ∀ id t (token : UserToken), (w.slot confirmationTable id).held = some (t, some token) →
    (w.slot confirmationTable id).committed = some token
      ∨ (w.slot confirmationTable id).committed = none ∧ NewConfirmation t w token
  users : ∀ userId t version, (w.slot userTable userId).held = some (t, version) →
    ∃ user : User, version = some user
      ∧ ((w.slot userTable userId).committed = none ∧ user.emailVerifiedAt = none
        ∨ ∃ old : User, (w.slot userTable userId).committed = some old
          ∧ old.emailVerifiedAt = none ∧ user.email = old.email)

/-- What a transaction relies on: users stay, its locks stay, and no job appears for a token it has
locked. -/
structure ConfirmationRely (t : Txn) (w w' : ConfirmationWorld) : Prop where
  users : ∀ userId (user : User), (w.slot userTable userId).committed = some user →
    ∃ user' : User, (w'.slot userTable userId).committed = some user' ∧ user'.email = user.email
  locks : ∀ tokenId, (w.slot confirmationTable tokenId).HeldBy t →
    (w'.slot confirmationTable tokenId).HeldBy t
  jobs : ∀ tokenId, (w.slot confirmationTable tokenId).HeldBy t →
    ∀ id (job : EmailOutboxJob), (w'.slot jobTable id).committed = some job →
      job.confirmationTokenId = some tokenId → (w.slot jobTable id).committed = some job

/-- Whoever has the address is yet to confirm it. -/
def AllUnverified (email : String) (w : ConfirmationWorld) : Prop :=
  ∀ userId < w.next userTable, ∀ user ∈ (w.slot userTable userId).committed,
    User.email user = email → User.emailVerifiedAt user = none

/-- A resend inserts its token only while the address of the request is yet to be confirmed. -/
def ResendsUnverified (t : Txn) (w : ConfirmationWorld) : Kind database → Prop
  | .insert T => T = confirmationTable → match w.request t with
      | some (.resendConfirmation email) => AllUnverified email w
      | _ => True
  | _ => True

instance (email : String) (w : ConfirmationWorld) : Decidable (AllUnverified email w) :=
  inferInstanceAs (Decidable (∀ userId < w.next userTable,
    ∀ user ∈ (w.slot userTable userId).committed, _ → _))

instance (t : Txn) (w : ConfirmationWorld) :
    (operation : Kind database) → Decidable (ResendsUnverified t w operation)
  | .insert T =>
      match h : w.request t with
      | some (.resendConfirmation email) =>
          decidable_of_iff (T = confirmationTable → AllUnverified email w)
            (by simp only [ResendsUnverified, h])
      | some (.register _) => .isTrue (by simp [ResendsUnverified, h])
      | some (.confirmEmail _) => .isTrue (by simp [ResendsUnverified, h])
      | none => .isTrue (by simp [ResendsUnverified, h])
  | .select _ => .isTrue trivial
  | .lock _ => .isTrue trivial
  | .commit => .isTrue trivial
  | .now => .isTrue trivial
  | .draw => .isTrue trivial

theorem ConfirmationRely.refl (t : Txn) (w : ConfirmationWorld) : ConfirmationRely t w w where
  users _ user huser := ⟨user, huser, rfl⟩
  locks _ := id
  jobs _ _ _ _ hjob _ := hjob

theorem ConfirmationRely.trans (h : ConfirmationRely t w w') (h' : ConfirmationRely t w' w'') :
    ConfirmationRely t w w'' where
  users userId user huser := by
    obtain ⟨user', huser', hemail⟩ := h.users userId user huser
    obtain ⟨user'', huser'', hemail'⟩ := h'.users userId user' huser'
    exact ⟨user'', huser'', hemail'.trans hemail⟩
  locks tokenId hheld := h'.locks tokenId (h.locks tokenId hheld)
  jobs tokenId hheld id job hjob hlinked :=
    h.jobs tokenId hheld id job (h'.jobs tokenId (h.locks tokenId hheld) id job hjob hlinked) hlinked

theorem UnverifiedUser.congr (h : UnverifiedUser userId w)
    (hcommitted : (w'.slot userTable userId).committed = (w.slot userTable userId).committed) :
    UnverifiedUser userId w' := by
  obtain ⟨user, huser, hnone⟩ := h
  exact ⟨user, hcommitted.trans huser, hnone⟩

section Committed

variable (hcommitted : ∀ T id, (w'.slot T id).committed = (w.slot T id).committed)

include hcommitted

theorem Confirmations.owned_congr (h : Confirmations w) (id : Nat) (token : UserToken)
    (htoken : (w'.slot confirmationTable id).committed = some token) :
    UnverifiedUser token.userId w' := by
  rw [hcommitted] at htoken
  exact (h.owned id token htoken).congr (hcommitted _ _)

theorem Confirmations.linked_congr (h : Confirmations w) (id : Nat) (job : EmailOutboxJob)
    (tokenId : Nat) (hjob : (w'.slot jobTable id).committed = some job)
    (hlinked : job.confirmationTokenId = some tokenId) :
    (w'.slot confirmationTable tokenId).committed ≠ none := by
  rw [hcommitted] at hjob ⊢
  exact h.linked id job tokenId hjob hlinked

end Committed

theorem Confirmations.congr (h : Confirmations w) (hslot : w'.slot = w.slot) : Confirmations w' := by
  have hunverified : ∀ {userId}, UnverifiedUser userId w → UnverifiedUser userId w' :=
    fun huser => huser.congr (by rw [hslot])
  refine ⟨⟨by rw [hslot]; exact h.unique.seen, by rw [hslot]; exact h.unique.pending⟩, ?_,
    by rw [hslot]; exact h.linked, ?_, by rw [hslot]; exact h.users⟩
  · rw [hslot]
    exact fun id token htoken => hunverified (h.owned id token htoken)
  · rw [hslot]
    intro id t token hheld
    refine (h.pending id t token hheld).imp_right fun ⟨hnone, hnew⟩ => ⟨hnone, ?_⟩
    unfold NewConfirmation
    rw [hslot]
    exact hnew.imp_left hunverified

theorem ConfirmationRely.congr (hslot : w'.slot = w.slot) : ConfirmationRely t w w' where
  users userId user huser := ⟨user, by rw [hslot]; exact huser, rfl⟩
  locks _ hheld := by rwa [hslot]
  jobs _ _ _ _ hjob _ := by rwa [hslot] at hjob

/-! ### One step -/

section Exec

variable {β : Type} {op : Op database β} {choice : Choice} {answer : β}

/-- What the operation does to tokens and users, the update of a user apart. -/
structure Confirming (t : Txn) (w : ConfirmationWorld) (op : Op database β) : Prop where
  tokens : op.Within confirmationTable KeptOrDeleted (NewConfirmation t w)
  users : op.Within userTable (fun _ _ => False) fun user : User => user.emailVerifiedAt = none
  uncommitting : op.kind ≠ .commit

theorem Confirming.newConfirmation (hop : Confirming t w op) (hsound : w.Sound)
    (hexec : op.exec t choice w = some (answer, w')) {token : UserToken}
    (h : NewConfirmation u w token) : NewConfirmation u w' token := by
  obtain huser | ⟨user, hheld, hnone⟩ := h
  · exact .inl (huser.congr (Op.exec_committed hop.uncommitting hexec _ _))
  · obtain hheld' | ⟨_, _, _, _, hfalse, _⟩ :=
      Op.exec_held hsound hop.users hop.uncommitting hexec hheld
    · exact .inr ⟨user, hheld', hnone⟩
    · exact hfalse.elim

/-- **One step.** Every operation but a commit keeps the invariant. -/
theorem Confirming.inv (hop : Confirming t w op) (h : Confirmations w) (hsound : w.Sound)
    (hexec : op.exec t choice w = some (answer, w')) : Confirmations w' := by
  have hcommitted := Op.exec_committed hop.uncommitting hexec
  have hstep := Op.exec_tableStep hop.tokens hexec
  have husers := Op.exec_tableStep hop.users hexec
  refine ⟨?_, h.owned_congr hcommitted, h.linked_congr hcommitted, ?_, ?_⟩
  · exact h.unique.step tokens_clash_symm hsound
      (hstep.mono (fun _ _ hchange => KeptOrDeleted.keepsClashes hchange) fun _ => id)
  · intro id u token hheld
    rw [hcommitted]
    have hkept : (w.slot confirmationTable id).held = some (u, some token) →
        (w.slot confirmationTable id).committed = some token
          ∨ (w.slot confirmationTable id).committed = none ∧ NewConfirmation u w' token := by
      intro hheld
      exact (h.pending id u token hheld).imp_right fun ⟨hnone, hnew⟩ =>
        ⟨hnone, hop.newConfirmation hsound hexec hnew⟩
    obtain ⟨hheld, _⟩ | ⟨rfl, _, ⟨seen, hview, hchange⟩ | ⟨new, rfl, heq, hnew, _⟩⟩ :=
      hstep.held hheld
    · exact hkept hheld
    · obtain heq | hnone := hchange
      · cases heq
        by_cases hown : (w.slot confirmationTable id).HeldBy u
        · obtain ⟨version, hown⟩ := hown
          rw [Slot.view_of_held hown] at hview
          exact hkept (hview ▸ hown)
        · exact .inl ((Slot.view_eq_committed hown).symm.trans hview)
      · cases hnone
    · cases heq
      refine .inr ⟨?_, hop.newConfirmation hsound hexec hnew⟩
      rw [hsound.beyond _ _ le_rfl]
      rfl
  · intro userId u version hheld
    rw [hcommitted]
    obtain ⟨hheld, _⟩ | ⟨rfl, _, ⟨_, _, hfalse⟩ | ⟨user, rfl, heq, hnone, _⟩⟩ := husers.held hheld
    · exact h.users userId u version hheld
    · exact hfalse.elim
    · refine ⟨user, heq, .inl ⟨?_, hnone⟩⟩
      rw [hsound.beyond _ _ le_rfl]
      rfl

theorem confirmationRely_of_exec (hkind : op.kind ≠ .commit) (hsound : w.Sound)
    (hexec : op.exec t choice w = some (answer, w')) (hne : u ≠ t) : ConfirmationRely u w w' where
  users userId user huser := by
    rw [Op.exec_committed hkind hexec]
    exact ⟨user, huser, rfl⟩
  locks tokenId hheld := by
    obtain ⟨version, hheld⟩ := hheld
    exact ⟨version, (congrArg Slot.held
      ((Op.exec_others hsound hexec hne).mine _ _ _ hheld)).trans hheld⟩
  jobs tokenId _ id job hjob _ := by rwa [Op.exec_committed hkind hexec] at hjob

end Exec

/-- The update of an unverified user, by a transaction that has changed no user yet. -/
theorem Confirmations.lockUser {choice : Choice} {p : User → Bool} {f : User → Option User}
    {found : Option User} (h : Confirmations w) (hfree : ∀ id, ¬ (w.slot userTable id).HeldBy t)
    (huser : UnverifiedUser userId w)
    (hf : ∀ old, ∃ user : User, f old = some user ∧ user.email = old.email)
    (hexec : (Op.lock userTable userId p f).exec t choice w = some (found, w')) :
    Confirmations w' := by
  obtain ⟨old, hold, hnone⟩ := huser
  have hcommitted := Op.exec_committed (by rintro ⟨⟩) hexec
  have htokens : w'.slot confirmationTable = w.slot confirmationTable :=
    exec_lock_slot_of_table_ne hexec (by rintro ⟨⟩)
  have hunverified : ∀ {userId}, UnverifiedUser userId w → UnverifiedUser userId w' :=
    fun huser => huser.congr (hcommitted _ _)
  have hview : (w.slot userTable userId).view t = some old :=
    (Slot.view_eq_committed (hfree userId)).trans hold
  obtain ⟨version, hslot, hversion⟩ : ∃ version : Option (database.Row userTable),
      w'.slot userTable = Function.update (w.slot userTable) userId
        ((w.slot userTable userId).put t version)
      ∧ ∃ user : User, version = some user ∧ user.email = old.email := by
    obtain ⟨hempty, _⟩ | ⟨seen, version, hseen, hslot, hlocked⟩ := exec_lock_slot hexec
    · cases hview.symm.trans hempty
    · cases hview.symm.trans hseen
      refine ⟨version, hslot, ?_⟩
      obtain ⟨_, _, rfl⟩ | ⟨_, _, rfl⟩ := hlocked
      · exact hf old
      · exact ⟨old, rfl, rfl⟩
  refine ⟨⟨by rw [htokens]; exact h.unique.seen, by rw [htokens]; exact h.unique.pending⟩,
    h.owned_congr hcommitted, h.linked_congr hcommitted, ?_, ?_⟩
  · rw [htokens]
    intro id u token hheld
    refine (h.pending id u token hheld).imp_right fun ⟨hnone, hnew⟩ => ⟨hnone, ?_⟩
    obtain huser | ⟨user, hheld, hverified⟩ := hnew
    · exact .inl (hunverified huser)
    · refine .inr ⟨user, ?_, hverified⟩
      rw [hslot, Function.update_of_ne]
      · exact hheld
      -- the row of a user that is being created is not the one that is there
      · intro hid
        rw [hid] at hheld
        obtain ⟨havailable, _⟩ := exec_lock hexec
        obtain hunheld | hown := Slot.availableTo_iff.mp havailable
        · cases hunheld.symm.trans hheld
        · exact hfree userId hown
  · intro id u version' hheld
    rw [hcommitted]
    by_cases hid : id = userId
    · subst hid
      rw [hslot, Function.update_self] at hheld
      cases hheld
      obtain ⟨user, heq, hemail⟩ := hversion
      exact ⟨user, heq, .inr ⟨old, hold, hnone, hemail⟩⟩
    · rw [hslot, Function.update_of_ne hid] at hheld
      exact h.users id u version' hheld

/-! ### The end of a transaction -/

theorem Confirmations.rollback (h : Confirmations w) (t : Txn) :
    Confirmations (w.finish t false) ∧ ∀ u, u ≠ t → ConfirmationRely u w (w.finish t false) := by
  have hcommitted : ∀ T id, ((w.finish t false).slot T id).committed = (w.slot T id).committed :=
    fun _ _ => Slot.release_false_committed
  have hunverified : ∀ {userId}, UnverifiedUser userId w → UnverifiedUser userId (w.finish t false) :=
    fun huser => huser.congr (hcommitted _ _)
  have hlock : ∀ {T id u version}, u ≠ t → (w.slot T id).held = some (u, version) →
      ((w.finish t false).slot T id).held = some (u, version) :=
    fun hne hheld => (congrArg Slot.held ((others_finish hne false).mine _ _ _ hheld)).trans hheld
  refine ⟨⟨h.unique.release tokens_clash_symm fun _ => rfl, h.owned_congr hcommitted,
    h.linked_congr hcommitted, ?_, ?_⟩, fun u hne => ?_⟩
  · intro id u token hheld
    obtain ⟨hne, hsame⟩ := Slot.held_of_release hheld
    rw [hcommitted]
    refine (h.pending id u token (hsame ▸ hheld)).imp_right fun ⟨hnone, hnew⟩ => ⟨hnone, ?_⟩
    exact hnew.imp hunverified fun ⟨user, hheld, hnone⟩ => ⟨user, hlock hne hheld, hnone⟩
  · intro userId u version hheld
    obtain ⟨_, hsame⟩ := Slot.held_of_release hheld
    rw [hcommitted]
    exact h.users userId u version (hsame ▸ hheld)
  · refine ⟨fun userId user huser => ⟨user, (hcommitted _ _).trans huser, rfl⟩, ?_, ?_⟩
    · exact fun tokenId ⟨version, hheld⟩ => ⟨version, hlock hne hheld⟩
    · intro tokenId _ id job hjob _
      rwa [hcommitted] at hjob

/-- What a transaction sees when it commits: every job it sees has its token, and if it verifies a
user, it has locked a token of the user and sees none. -/
structure Committable (t : Txn) (w : ConfirmationWorld) : Prop where
  linked : ∀ id (job : EmailOutboxJob) tokenId, (w.slot jobTable id).view t = some job →
    job.confirmationTokenId = some tokenId → (w.slot confirmationTable tokenId).view t ≠ none
  own : ∀ id (job : EmailOutboxJob) tokenId, (w.slot jobTable id).held = some (t, some job) →
    job.confirmationTokenId = some tokenId →
    (w.slot jobTable id).committed = some job ∨ (w.slot confirmationTable tokenId).HeldBy t
  verifies : ∀ userId (user : User), (w.slot userTable userId).held = some (t, some user) →
    user.emailVerifiedAt ≠ none →
    (∃ id, ∃ token : UserToken, (w.slot confirmationTable id).committed = some token
        ∧ token.userId = userId ∧ (w.slot confirmationTable id).HeldBy t)
      ∧ ∀ id (token : UserToken), (w.slot confirmationTable id).view t = some token →
        token.userId ≠ userId

/-- A user stays unverified, unless this transaction verifies it. -/
theorem Confirmations.unverified_commit (h : Confirmations w) (huser : UnverifiedUser userId w)
    (hnot : ∀ user : User, (w.slot userTable userId).held = some (t, some user) →
      user.emailVerifiedAt = none) : UnverifiedUser userId (w.finish t true) := by
  obtain ⟨user, huser, hnone⟩ := huser
  by_cases hown : (w.slot userTable userId).HeldBy t
  · obtain ⟨version, hown⟩ := hown
    obtain ⟨new, rfl, _⟩ := h.users userId t version hown
    exact ⟨new, Slot.release_true_committed.trans (Slot.view_of_held hown), hnot new hown⟩
  · exact ⟨user, Slot.release_true_committed.trans ((Slot.view_eq_committed hown).trans huser), hnone⟩

theorem Confirmations.commit (h : Confirmations w) (hready : Committable t w) :
    Confirmations (w.finish t true) ∧ ∀ u, u ≠ t → ConfirmationRely u w (w.finish t true) := by
  have hcommitted : ∀ T id, ((w.finish t true).slot T id).committed = (w.slot T id).view t :=
    fun _ _ => Slot.release_true_committed
  have hlock : ∀ {T id u version}, u ≠ t → (w.slot T id).held = some (u, version) →
      ((w.finish t true).slot T id).held = some (u, version) :=
    fun hne hheld => (congrArg Slot.held ((others_finish hne true).mine _ _ _ hheld)).trans hheld
  refine ⟨⟨h.unique.release tokens_clash_symm fun _ => rfl, ?_, ?_, ?_, ?_⟩, fun u hne => ?_⟩
  · intro id token htoken
    rw [hcommitted] at htoken
    have hnot : ∀ user : User, (w.slot userTable token.userId).held = some (t, some user) →
        user.emailVerifiedAt = none := by
      intro user hheld
      by_contra hverified
      exact (hready.verifies token.userId user hheld hverified).2 id token htoken rfl
    have howned : (w.slot confirmationTable id).committed = some token →
        UnverifiedUser token.userId (w.finish t true) :=
      fun hrow => h.unverified_commit (h.owned id token hrow) hnot
    by_cases hown : (w.slot confirmationTable id).HeldBy t
    · obtain ⟨version, hown⟩ := hown
      rw [Slot.view_of_held hown] at htoken
      subst htoken
      obtain hrow | ⟨_, huser | ⟨user, hheld, hnone⟩⟩ := h.pending id t token hown
      · exact howned hrow
      · exact h.unverified_commit huser hnot
      · exact ⟨user, (hcommitted _ _).trans (Slot.view_of_held hheld), hnone⟩
    · rw [Slot.view_eq_committed hown] at htoken
      exact howned htoken
  · intro id job tokenId hjob hlinked
    rw [hcommitted] at hjob ⊢
    exact hready.linked id job tokenId hjob hlinked
  · intro id u token hheld
    obtain ⟨hne, hsame⟩ := Slot.held_of_release hheld
    have hown : (w.slot confirmationTable id).held = some (u, some token) := hsame ▸ hheld
    have hfree : ¬ (w.slot confirmationTable id).HeldBy t := by
      rintro ⟨version, hversion⟩
      rw [hown] at hversion
      cases hversion
      exact hne rfl
    rw [hcommitted, Slot.view_eq_committed hfree]
    refine (h.pending id u token hown).imp_right fun ⟨hnone, hnew⟩ => ⟨hnone, ?_⟩
    obtain huser | ⟨user, huser, hverified⟩ := hnew
    · refine .inl (h.unverified_commit huser fun user hheld => ?_)
      by_contra hverified
      obtain ⟨⟨id', token', htoken', howner', version, hheld'⟩, _⟩ :=
        hready.verifies token.userId user hheld hverified
      -- the new token would clash with the one that is locked for the confirmation
      have hother : ¬ (w.slot confirmationTable id').HeldBy u := by
        rintro ⟨version', hversion'⟩
        rw [hheld'] at hversion'
        cases hversion'
        exact hne rfl
      have hclash := h.unique.seen u id id' token token' (by rintro rfl; exact hfree ⟨_, hheld'⟩)
        (Slot.view_of_held hown) ((Slot.view_eq_committed hother).trans htoken')
      change (token.userId == token'.userId || _) = false at hclash
      rw [howner', beq_self_eq_true, Bool.true_or] at hclash
      cases hclash
    · exact .inr ⟨user, hlock hne huser, hverified⟩
  · intro userId u version hheld
    obtain ⟨hne, hsame⟩ := Slot.held_of_release hheld
    have hown : (w.slot userTable userId).held = some (u, version) := hsame ▸ hheld
    have hfree : ¬ (w.slot userTable userId).HeldBy t := by
      rintro ⟨version', hversion⟩
      rw [hown] at hversion
      cases hversion
      exact hne rfl
    rw [hcommitted, Slot.view_eq_committed hfree]
    exact h.users userId u version hown
  · refine ⟨fun userId user huser => ?_, fun tokenId ⟨version, hheld⟩ => ⟨version, hlock hne hheld⟩,
      fun tokenId ⟨version, hheld⟩ id job hjob hlinked => ?_⟩
    · rw [hcommitted]
      by_cases hown : (w.slot userTable userId).HeldBy t
      · obtain ⟨own, hown⟩ := hown
        obtain ⟨new, rfl, ⟨hnone, _⟩ | ⟨old, hold, _, hemail⟩⟩ := h.users userId t own hown
        · cases huser.symm.trans hnone
        · cases huser.symm.trans hold
          exact ⟨new, Slot.view_of_held hown, hemail⟩
      · exact ⟨user, (Slot.view_eq_committed hown).trans huser, rfl⟩
    · rw [hcommitted] at hjob
      by_cases hown : (w.slot jobTable id).HeldBy t
      · obtain ⟨own, hown⟩ := hown
        rw [Slot.view_of_held hown] at hjob
        subst hjob
        obtain hrow | ⟨version', hheld'⟩ := hready.own id job tokenId hown hlinked
        · exact hrow
        · rw [hheld] at hheld'
          cases hheld'
          exact absurd rfl hne
      · rwa [Slot.view_eq_committed hown] at hjob

def confirmations : Discipline database ConfirmationRequest where
  inv := Confirmations
  rely := ConfirmationRely
  allowed := ResendsUnverified
  rely_refl := .refl
  rely_trans := .trans
  quiet hquiet h := ⟨h.congr hquiet.slot, fun _ => .congr hquiet.slot⟩
  rollback t _ _ h := h.rollback t

theorem Confirming.keeps {β : Type} {op : Op database β} {choice : Choice} {answer : β}
    (hop : Confirming t w op) (h : Confirmations w) (hsound : w.Sound)
    (hexec : op.exec t choice w = some (answer, w')) : confirmations.Keeps t w w' :=
  ⟨hop.inv h hsound hexec, fun _ hne => confirmationRely_of_exec hop.uncommitting hsound hexec hne⟩

/-! ### Assertions -/

/-- Every job that the transaction sees has its token, except for tokens that it has deleted and whose
jobs are still to be deleted. -/
structure Sweeping (left : List Nat) (t : Txn) (w : ConfirmationWorld) : Prop where
  linked : ∀ id (job : EmailOutboxJob) tokenId, (w.slot jobTable id).view t = some job →
    job.confirmationTokenId = some tokenId →
    tokenId ∈ left ∨ (w.slot confirmationTable tokenId).view t ≠ none
  own : ∀ id (job : EmailOutboxJob) tokenId, (w.slot jobTable id).held = some (t, some job) →
    job.confirmationTokenId = some tokenId →
    (w.slot jobTable id).committed = some job ∨ (w.slot confirmationTable tokenId).HeldBy t
  deleted : ∀ tokenId ∈ left, (w.slot confirmationTable tokenId).HeldBy t

/-- The tokens of the user that the transaction has locked are deleted, or still to be deleted. -/
def Cleared (userId : Nat) (left : List Nat) (t : Txn) (w : ConfirmationWorld) : Prop :=
  ∀ id (token : UserToken), (w.slot confirmationTable id).held = some (t, some token) →
    token.userId = userId → id ∈ left

/-- The transaction makes a token for the user, whom it has created or found by the address of the
request. -/
structure Issuing (userId : Nat) (t : Txn) (w : ConfirmationWorld) : Prop where
  owner : (∃ user : User, (w.slot userTable userId).held = some (t, some user)
      ∧ user.emailVerifiedAt = none)
    ∨ ∃ user : User, (w.slot userTable userId).committed = some user
      ∧ w.request t = some (.resendConfirmation user.email)
  unverified : ∀ id (user : User), (w.slot userTable id).held = some (t, some user) →
    user.emailVerifiedAt = none

/-- The transaction has locked the token, and made none of its own. -/
structure Borrowing (tokenId : Nat) (token : UserToken) (t : Txn) (w : ConfirmationWorld) :
    Prop where
  held : (w.slot confirmationTable tokenId).HeldBy t
  stored : (w.slot confirmationTable tokenId).committed = some token
  borrowed : ∀ id (token : UserToken), (w.slot confirmationTable id).held = some (t, some token) →
    (w.slot confirmationTable id).committed = some token

/-- The transaction has changed no user, or only this one. -/
def ChangesOnly (changes : Nat → Prop) (t : Txn) (w : ConfirmationWorld) : Prop :=
  ∀ id, (w.slot userTable id).HeldBy t → changes id

section Stable

variable {left : List Nat}

theorem Sweeping.stable : confirmations.Stable t (Sweeping left t) := by
  intro w w' h hw
  have hmine : ∀ {T id}, (w.slot T id).HeldBy t → w'.slot T id = w.slot T id := by
    rintro T id ⟨version, hheld⟩
    exact hw.others.mine T id version hheld
  refine ⟨fun id job tokenId hview hlinked => ?_, fun id job tokenId hheld hlinked => ?_,
    fun tokenId hleft => hw.rely.locks tokenId (h.deleted tokenId hleft)⟩
  · by_cases htoken : (w.slot confirmationTable tokenId).HeldBy t
    · rw [hmine htoken]
      apply h.linked id job tokenId _ hlinked
      by_cases hown : (w.slot jobTable id).HeldBy t
      · rwa [hmine hown] at hview
      · rw [Slot.view_eq_committed (hw.others.not_mine _ _ hown)] at hview
        rw [Slot.view_eq_committed hown]
        exact hw.rely.jobs tokenId htoken id job hview hlinked
    · right
      rw [Slot.view_eq_committed (hw.others.not_mine _ _ htoken)]
      apply hw.inv.linked id job tokenId _ hlinked
      by_cases hown : (w.slot jobTable id).HeldBy t
      · rw [hmine hown] at hview ⊢
        obtain ⟨version, hown⟩ := hown
        rw [Slot.view_of_held hown] at hview
        exact (h.own id job tokenId (hview ▸ hown) hlinked).resolve_right htoken
      · rwa [Slot.view_eq_committed (hw.others.not_mine _ _ hown)] at hview
  · have hbefore := hw.others.held_before hheld
    rw [hmine ⟨_, hbefore⟩]
    exact (h.own id job tokenId hbefore hlinked).imp_right (hw.rely.locks tokenId)

theorem Cleared.stable : confirmations.Stable t (Cleared userId left t) := fun h hw id token hheld =>
  h id token (hw.others.held_before hheld)

theorem Issuing.stable : confirmations.Stable t (Issuing userId t) := by
  intro w w' h hw
  refine ⟨?_, fun id user hheld => h.unverified id user (hw.others.held_before hheld)⟩
  obtain ⟨user, hheld, hnone⟩ | ⟨user, huser, hrequest⟩ := h.owner
  · exact .inl ⟨user, by rw [hw.others.mine _ _ _ hheld, hheld], hnone⟩
  · obtain ⟨user', huser', hemail⟩ := hw.rely.users userId user huser
    exact .inr ⟨user', huser', hemail ▸ hw.others.request t _ hrequest⟩

theorem Borrowing.stable {tokenId : Nat} {token : UserToken} :
    confirmations.Stable t (Borrowing tokenId token t) := by
  intro w w' h hw
  refine ⟨hw.rely.locks tokenId h.held, ?_, fun id token hheld => ?_⟩
  · obtain ⟨version, hheld⟩ := h.held
    rw [hw.others.mine _ _ _ hheld]
    exact h.stored
  · have hbefore := hw.others.held_before hheld
    rw [hw.others.mine _ _ _ hbefore]
    exact h.borrowed id token hbefore

theorem ChangesOnly.stable {changes : Nat → Prop} :
    confirmations.Stable t (ChangesOnly changes t) := fun h hw id ⟨version, hheld⟩ =>
  h id ⟨version, hw.others.held_before hheld⟩

end Stable

/-! ### Locking and inserting -/

section Put

variable {left left' : List Nat} {id : Nat}

theorem Sweeping.congr (h : Sweeping left t w) (hjobs : w'.slot jobTable = w.slot jobTable)
    (htokens : w'.slot confirmationTable = w.slot confirmationTable) : Sweeping left t w' where
  linked := by
    rw [hjobs, htokens]
    exact h.linked
  own := by
    rw [hjobs, htokens]
    exact h.own
  deleted := by
    rw [htokens]
    exact h.deleted

/-- A token under the lock of the transaction. If it is deleted, its jobs are still to go. -/
theorem Sweeping.putToken {version : Option (database.Row confirmationTable)} (h : Sweeping left t w)
    (hjobs : w'.slot jobTable = w.slot jobTable)
    (htokens : w'.slot confirmationTable = Function.update (w.slot confirmationTable) id
      ((w.slot confirmationTable id).put t version))
    (hdeleted : version = none → id ∈ left') (hkept : ∀ tokenId ∈ left, tokenId ∈ left')
    (hleft : ∀ tokenId ∈ left', tokenId ∈ left ∨ tokenId = id) : Sweeping left' t w' := by
  have hheld : ∀ tokenId, (w.slot confirmationTable tokenId).HeldBy t ∨ tokenId = id →
      (w'.slot confirmationTable tokenId).HeldBy t := by
    intro tokenId htoken
    rw [htokens]
    by_cases hid : tokenId = id
    · rw [hid, Function.update_self]
      exact ⟨version, rfl⟩
    · rw [Function.update_of_ne hid]
      exact htoken.resolve_right hid
  refine ⟨fun jobId job tokenId hview hlinked => ?_, fun jobId job tokenId hjob hlinked => ?_,
    fun tokenId hmem => hheld tokenId ((hleft tokenId hmem).imp_left (h.deleted tokenId))⟩
  · rw [hjobs] at hview
    rw [htokens]
    by_cases hid : tokenId = id
    · rw [hid, Function.update_self, Slot.view_put]
      cases version with
      | none => exact .inl (hdeleted rfl)
      | some token => exact .inr (Option.some_ne_none token)
    · rw [Function.update_of_ne hid]
      exact (h.linked jobId job tokenId hview hlinked).imp_left (hkept tokenId)
  · rw [hjobs] at hjob ⊢
    exact (h.own jobId job tokenId hjob hlinked).imp_right fun htoken => hheld tokenId (.inl htoken)

/-- A job under the lock of the transaction. -/
theorem Sweeping.putJob {version : Option (database.Row jobTable)} (h : Sweeping left t w)
    (htokens : w'.slot confirmationTable = w.slot confirmationTable)
    (hjobs : w'.slot jobTable = Function.update (w.slot jobTable) id
      ((w.slot jobTable id).put t version))
    (hversion : ∀ (job : EmailOutboxJob) tokenId, version = some job →
      job.confirmationTokenId = some tokenId →
      (tokenId ∈ left ∨ (w.slot confirmationTable tokenId).view t ≠ none)
        ∧ ((w.slot jobTable id).committed = some job
          ∨ (w.slot confirmationTable tokenId).HeldBy t)) : Sweeping left t w' := by
  refine ⟨fun jobId job tokenId hview hlinked => ?_, fun jobId job tokenId hheld hlinked => ?_, ?_⟩
  · rw [hjobs] at hview
    rw [htokens]
    by_cases hid : jobId = id
    · rw [hid, Function.update_self, Slot.view_put] at hview
      exact (hversion job tokenId hview hlinked).1
    · rw [Function.update_of_ne hid] at hview
      exact h.linked jobId job tokenId hview hlinked
  · rw [hjobs] at hheld ⊢
    rw [htokens]
    by_cases hid : jobId = id
    · rw [hid, Function.update_self] at hheld ⊢
      cases hheld
      exact (hversion job tokenId rfl hlinked).2
    · rw [Function.update_of_ne hid] at hheld ⊢
      exact h.own jobId job tokenId hheld hlinked
  · rw [htokens]
    exact h.deleted

end Put

/-! ### The deletion of the tokens of a user -/

theorem confirming_select (T : Table) (p : Nat → T.Row → Bool) :
    Confirming t w (.select (S := database) T p) :=
  ⟨trivial, trivial, by rintro ⟨⟩⟩

theorem confirming_lockToken {id : Nat} {p : UserToken → Bool} {f : UserToken → Option UserToken}
    (hf : ∀ token, KeptOrDeleted token (f token)) :
    Confirming t w (.lock confirmationTable id p f) :=
  ⟨fun _ token => ⟨fun _ => hf token, fun _ => .inl rfl⟩, nofun, by rintro ⟨⟩⟩

theorem confirming_insertUser {row : Nat → User} (hrow : ∀ id, (row id).emailVerifiedAt = none) :
    Confirming t w (.insert (S := database) userTable row) :=
  ⟨nofun, fun _ => hrow, by rintro ⟨⟩⟩

theorem confirming_insertJob {row : Nat → EmailOutboxJob} :
    Confirming t w (.insert (S := database) jobTable row) :=
  ⟨nofun, nofun, by rintro ⟨⟩⟩

theorem confirming_lockJob {id : Nat} {p : EmailOutboxJob → Bool}
    {f : EmailOutboxJob → Option EmailOutboxJob} : Confirming t w (.lock jobTable id p f) :=
  ⟨nofun, nofun, by rintro ⟨⟩⟩

/-- It sees no job of the token but these, and has deleted the token. -/
structure Unlinking (tokenId : Nat) (left jobIds : List Nat) (t : Txn) (w : ConfirmationWorld) :
    Prop where
  sweeping : Sweeping (tokenId :: left) t w
  jobs : ∀ id (job : EmailOutboxJob), (w.slot jobTable id).view t = some job →
    job.confirmationTokenId = some tokenId → id ∈ jobIds

section Delete

variable {left jobIds : List Nat} {choice : Choice} {id tokenId : Nat}

theorem Unlinking.stable : confirmations.Stable t (Unlinking tokenId left jobIds t) := by
  intro w w' h hw
  refine ⟨Sweeping.stable h.sweeping hw, fun id job hview hlinked => ?_⟩
  apply h.jobs id job _ hlinked
  by_cases hown : (w.slot jobTable id).HeldBy t
  · obtain ⟨version, hheld⟩ := hown
    rwa [hw.others.mine _ _ _ hheld] at hview
  · rw [Slot.view_eq_committed (hw.others.not_mine _ _ hown)] at hview
    rw [Slot.view_eq_committed hown]
    exact hw.rely.jobs tokenId (h.sweeping.deleted tokenId List.mem_cons_self) id job hview hlinked

theorem Sweeping.lockToken {ids : List Nat} {rows : List (Nat × database.Row confirmationTable)}
    {found : Option (database.Row confirmationTable)} (h : Sweeping (rows.map (·.1)) t w)
    (hcleared : Cleared userId (id :: ids) t w)
    (hexec : (Op.lock confirmationTable id (fun token : UserToken => token.userId == userId)
      fun _ => none).exec t choice w = some (found, w')) :
    Sweeping ((rows ++ (found.map (id, ·)).toList).map (·.1)) t w' ∧ Cleared userId ids t w' := by
  have hjobs : w'.slot jobTable = w.slot jobTable := exec_lock_slot_of_table_ne hexec (by rintro ⟨⟩)
  obtain ⟨hview, rfl, hslot⟩ | ⟨token, version, hview, hslot, hlocked⟩ := exec_lock_slot hexec
  · refine ⟨by simpa using h.congr hjobs hslot, fun tokenId token hheld howner => ?_⟩
    rw [hslot] at hheld
    refine (List.mem_cons.mp (hcleared tokenId token hheld howner)).resolve_left ?_
    rintro rfl
    rw [Slot.view_of_held hheld] at hview
    cases hview
  · refine ⟨h.putToken hjobs hslot ?_ ?_ ?_, fun tokenId token' hheld howner => ?_⟩
    · rintro rfl
      obtain ⟨_, rfl, _⟩ | ⟨_, _, hnone⟩ := hlocked
      · simp
      · cases hnone
    · intro tokenId htoken
      rw [List.map_append]
      exact List.mem_append_left _ htoken
    · intro tokenId htoken
      obtain ⟨_, rfl, _⟩ | ⟨_, rfl, _⟩ := hlocked
      · simpa using htoken
      · exact .inl (by simpa using htoken)
    · rw [hslot] at hheld
      by_cases hid : tokenId = id
      · subst hid
        rw [Function.update_self] at hheld
        cases hheld
        obtain ⟨_, _, hnone⟩ | ⟨hp, _, heq⟩ := hlocked
        · cases hnone
        · cases heq
          rw [howner, beq_self_eq_true] at hp
          cases hp
      · rw [Function.update_of_ne hid] at hheld
        exact (List.mem_cons.mp (hcleared tokenId token' hheld howner)).resolve_left hid

theorem Unlinking.lockJob {found : Option EmailOutboxJob}
    (h : Unlinking tokenId left (id :: jobIds) t w)
    (hexec : (Op.lock jobTable id (EmailOutbox.linkedToConfirmationToken tokenId)
      fun _ => none).exec t choice w = some (found, w')) : Unlinking tokenId left jobIds t w' := by
  have htokens : w'.slot confirmationTable = w.slot confirmationTable :=
    exec_lock_slot_of_table_ne hexec (by rintro ⟨⟩)
  obtain ⟨hview, rfl, hslot⟩ | ⟨job, version, hview, hslot, hlocked⟩ := exec_lock_slot hexec
  · refine ⟨h.sweeping.congr hslot htokens, fun jobId job hjob hlinked => ?_⟩
    rw [hslot] at hjob
    refine (List.mem_cons.mp (h.jobs jobId job hjob hlinked)).resolve_left ?_
    rintro rfl
    rw [hview] at hjob
    cases hjob
  · have hversion : ∀ job' : EmailOutboxJob, version = some job' → job' = job
        ∧ EmailOutbox.linkedToConfirmationToken tokenId job = false := by
      rintro job' rfl
      obtain ⟨_, _, hnone⟩ | ⟨hp, _, heq⟩ := hlocked
      · cases hnone
      · cases heq
        exact ⟨rfl, hp⟩
    refine ⟨h.sweeping.putJob htokens hslot fun job' tokenId' heq hlinked => ?_,
      fun jobId job' hjob hlinked => ?_⟩
    · obtain ⟨rfl, _⟩ := hversion job' heq
      refine ⟨h.sweeping.linked id job' tokenId' hview hlinked, ?_⟩
      by_cases hown : (w.slot jobTable id).HeldBy t
      · obtain ⟨own, hown⟩ := hown
        rw [Slot.view_of_held hown] at hview
        exact h.sweeping.own id job' tokenId' (hview ▸ hown) hlinked
      · exact .inl ((Slot.view_eq_committed hown).symm.trans hview)
    · rw [hslot] at hjob
      by_cases hid : jobId = id
      · subst hid
        rw [Function.update_self, Slot.view_put] at hjob
        obtain ⟨rfl, hp⟩ := hversion job' hjob
        rw [EmailOutbox.linkedToConfirmationToken, hlinked, beq_self_eq_true] at hp
        cases hp
      · rw [Function.update_of_ne hid] at hjob
        exact (List.mem_cons.mp (h.jobs jobId job' hjob hlinked)).resolve_left hid

/-- `ON DELETE CASCADE` of the deleted tokens. -/
theorem Sweeping.deleteLinkedJobs (h : Sweeping left t w) (hcleared : Cleared userId [] t w) :
    confirmations.Safe t (fun r w => r = .ok () ∧ Sweeping [] t w ∧ Cleared userId [] t w)
      (UserTokens.deleteLinkedJobs .confirmation left) w := by
  induction left generalizing w with
  | nil => exact ⟨rfl, h, hcleared⟩
  | cons tokenId left ih =>
      apply Discipline.Safe.exec
        (J := fun w => Sweeping (tokenId :: left) t w ∧ Cleared userId [] t w)
        (K := fun found w => Unlinking tokenId left (found.map (·.1)) t w ∧ Cleared userId [] t w)
      · exact fun h hw => ⟨Sweeping.stable h.1 hw, Cleared.stable h.2 hw⟩
      · exact ⟨h, hcleared⟩
      · intro w choice found w' h hsound hinv _ hexec
        refine ⟨(confirming_select _ _).keeps hinv hsound hexec, ?_⟩
        have hfound := fun id (job : EmailOutboxJob) (hview : (w.slot jobTable id).view t = some job)
            hlinked => exec_select_mem hsound hexec hview
              (beq_iff_eq.mpr hlinked : (job.confirmationTokenId == some tokenId) = true)
        obtain ⟨rfl, _⟩ := exec_select hexec
        exact ⟨⟨h.1.congr rfl rfl, fun id job hview hlinked =>
          List.mem_map_of_mem (hfound id job hview hlinked)⟩, h.2⟩
      · intro found w h
        apply (Discipline.Safe.lockEach (J := fun ids _ w =>
          Unlinking tokenId left ids t w ∧ Cleared userId [] t w) ?_ ?_ [] h).bind
        · rintro _ w ⟨_, _, h, hcleared⟩
          refine ih ⟨fun id job tokenId' hview hlinked => ?_, h.sweeping.own, fun tokenId' hmem =>
            h.sweeping.deleted tokenId' (List.mem_cons_of_mem _ hmem)⟩ hcleared
          obtain hleft | hview' := h.sweeping.linked id job tokenId' hview hlinked
          · obtain rfl | hleft := List.mem_cons.mp hleft
            · cases h.jobs id job hview hlinked
            · exact .inl hleft
          · exact .inr hview'
        · rintro _ w ⟨_, heq, _⟩
          cases heq
        · intro ids rows w w' h hw
          exact ⟨Unlinking.stable h.1 hw, Cleared.stable h.2 hw⟩
        · intro id ids rows w choice found w' h hsound hinv _ hexec
          refine ⟨confirming_lockJob.keeps hinv hsound hexec, h.1.lockJob hexec, ?_⟩
          unfold Cleared
          rw [exec_lock_slot_of_table_ne hexec (by rintro ⟨⟩)]
          exact h.2

/-- The tokens of the user are deleted with their jobs. -/
theorem Sweeping.deleteForUser (userId : Nat) (h : Sweeping [] t w) :
    confirmations.Safe t (fun r w => r = .ok () ∧ Sweeping [] t w ∧ Cleared userId [] t w)
      (UserTokens.deleteForUser .confirmation userId) w := by
  apply Discipline.Safe.exec Sweeping.stable h
    (K := fun found w => Sweeping [] t w ∧ Cleared userId (found.map (·.1)) t w)
  · intro w choice found w' h hsound hinv _ hexec
    refine ⟨(confirming_select _ _).keeps hinv hsound hexec, ?_⟩
    have hfound := fun id (token : UserToken)
        (hheld : (w.slot confirmationTable id).held = some (t, some token)) howner =>
      exec_select_mem hsound hexec (Slot.view_of_held hheld)
        (beq_iff_eq.mpr howner : (token.userId == userId) = true)
    obtain ⟨rfl, _⟩ := exec_select hexec
    exact ⟨h.congr rfl rfl, fun id token hheld howner =>
      List.mem_map_of_mem (hfound id token hheld howner)⟩
  · intro found w h
    apply (Discipline.Safe.lockEach (J := fun ids rows w =>
      Sweeping (rows.map (·.1)) t w ∧ Cleared userId ids t w) ?_ ?_ [] h).bind
    · rintro _ w ⟨deleted, ⟨⟩, h, hcleared⟩
      exact h.deleteLinkedJobs hcleared
    · rintro _ w ⟨_, heq, _⟩
      cases heq
    · intro ids rows w w' h hw
      exact ⟨Sweeping.stable h.1 hw, Cleared.stable h.2 hw⟩
    · intro id ids rows w choice found w' h hsound hinv _ hexec
      exact ⟨(confirming_lockToken fun _ => .inr rfl).keeps hinv hsound hexec,
        h.1.lockToken h.2 hexec⟩

end Delete

/-! ### What the deletion leaves alone -/

/-- The operation deletes tokens and jobs, and nothing else. -/
def Deletes (β : Type) (op : Op database β) : Prop :=
  op.Within confirmationTable KeptOrDeleted (fun _ => False)
    ∧ op.Within userTable (fun _ _ => False) (fun _ => False) ∧ op.kind ≠ .commit

theorem deletes_lockToken (id : Nat) (p : UserToken → Bool) :
    Deletes _ (.lock confirmationTable id p fun _ => none) :=
  ⟨fun _ _ => ⟨fun _ => .inr rfl, fun _ => .inl rfl⟩, nofun, by rintro ⟨⟩⟩

theorem deletes_lockJob (id : Nat) (p : EmailOutboxJob → Bool) :
    Deletes _ (.lock jobTable id p fun _ => none) :=
  ⟨nofun, nofun, by rintro ⟨⟩⟩

theorem deletes_deleteForUser (userId : Nat) :
    (UserTokens.deleteForUser .confirmation userId).All Deletes := by
  have hselect : ∀ T p, Deletes _ (.select (S := database) T p) :=
    fun _ _ => ⟨trivial, trivial, by rintro ⟨⟩⟩
  apply (Prog.All.statement (hselect _ _) fun _ => deletes_lockToken _ _).bind
  intro deleted
  induction deleted.map (·.1) with
  | nil => trivial
  | cons tokenId left ih =>
      exact (Prog.All.statement (hselect _ _) fun _ => deletes_lockJob _ _).bind fun _ => ih

section Frame

variable {β : Type} {op : Op database β} {choice : Choice} {answer : β}

theorem Issuing.deletes (hop : Deletes β op) (h : Issuing userId t w)
    (hexec : op.exec t choice w = some (answer, w')) : Issuing userId t w' := by
  have husers := Op.exec_slot_same hop.2.1 hop.2.2 hexec
  constructor
  · rw [husers, Op.exec_request hexec]
    exact h.owner
  · rw [husers]
    exact h.unverified

theorem ChangesOnly.deletes {changes : Nat → Prop} (hop : Deletes β op)
    (h : ChangesOnly changes t w) (hexec : op.exec t choice w = some (answer, w')) :
    ChangesOnly changes t w' := by
  unfold ChangesOnly
  rw [Op.exec_slot_same hop.2.1 hop.2.2 hexec]
  exact h

theorem Borrowing.deletes {tokenId : Nat} {token : UserToken} (hop : Deletes β op)
    (h : Borrowing tokenId token t w) (hsound : w.Sound)
    (hexec : op.exec t choice w = some (answer, w')) : Borrowing tokenId token t w' := by
  refine ⟨?_, (Op.exec_committed hop.2.2 hexec _ _).trans h.stored, fun id token hheld => ?_⟩
  · obtain ⟨version, hheld⟩ := h.held
    obtain hheld' | ⟨_, _, version', _, _, hheld'⟩ :=
      Op.exec_held hsound hop.1 hop.2.2 hexec hheld
    · exact ⟨version, hheld'⟩
    · exact ⟨version', hheld'⟩
  · rw [Op.exec_committed hop.2.2 hexec]
    obtain ⟨hheld, _⟩ | ⟨_, _, ⟨seen, hview, heq | hnone⟩ | ⟨_, _, _, hfalse, _⟩⟩ :=
      (Op.exec_tableStep hop.1 hexec).held hheld
    · exact h.borrowed id token hheld
    · cases heq
      by_cases hown : (w.slot confirmationTable id).HeldBy t
      · obtain ⟨version, hown⟩ := hown
        rw [Slot.view_of_held hown] at hview
        exact h.borrowed id token (hview ▸ hown)
      · exact (Slot.view_eq_committed hown).symm.trans hview
    · cases hnone
    · exact hfalse.elim

end Frame

/-! ### The requests -/

/-- The program keeps the discipline. -/
abbrev Preserving {α : Type} (t : Txn) (p : Db α) (w : ConfirmationWorld) : Prop :=
  confirmations.Safe t (fun _ _ => True) p w

section Program

variable {α : Type} {choice : Choice} {tokenId : Nat} {request : ConfirmationRequest}

/-- An operation that does not concern users, tokens or jobs. -/
theorem Preserving.idle {β : Type} {op : Op database β} {next : β → Db α}
    {J : ConfirmationWorld → Prop} (hstable : confirmations.Stable t J)
    (hop : ∀ w, Confirming t w op)
    (hslot : ∀ {w choice answer w'}, J w → op.exec t choice w = some (answer, w') → J w')
    (hnext : ∀ answer w, J w → Preserving t (next answer) w) (h : J w) :
    Preserving t (.exec op next) w :=
  Discipline.Safe.exec hstable h (K := fun _ => J)
    (fun h hsound hinv _ hexec => ⟨(hop _).keeps hinv hsound hexec, hslot h hexec⟩) hnext

theorem Issuing.newConfirmation (h : Issuing userId t w) (hsound : w.Sound)
    (hallowed : ResendsUnverified t w (.insert confirmationTable)) {token : UserToken}
    (howner : token.userId = userId) : NewConfirmation t w token := by
  subst howner
  obtain hown | ⟨user, huser, hrequest⟩ := h.owner
  · exact .inr hown
  · have hall : AllUnverified user.email w := by
      simpa only [hrequest] using hallowed rfl
    refine .inl ⟨user, huser, hall token.userId ?_ user huser rfl⟩
    by_contra hbeyond
    rw [hsound.beyond _ _ (Nat.le_of_not_lt hbeyond)] at huser
    cases huser

/-- A token of the user takes the place of the old one. -/
theorem Issuing.replace {tokenHash : String} {expiresAt startedAt : Int} (h : Issuing userId t w)
    (hsweeping : Sweeping [] t w) :
    confirmations.Safe t (Discipline.OnSuccess fun tokenId w => Issuing userId t w ∧ Sweeping [] t w
        ∧ ∃ token : UserToken, (w.slot confirmationTable tokenId).held = some (t, some token))
      (UserTokens.replace .confirmation userId tokenHash expiresAt startedAt) w := by
  have hframe := (hsweeping.deleteForUser userId).frame (F := Issuing userId t) Issuing.stable
    (fun hop h _ _ hexec => h.deletes hop hexec) (deletes_deleteForUser userId) h
  apply hframe.bind
  · rintro _ w ⟨⟨_, hsweeping, _⟩, h⟩
    apply Discipline.Safe.exec (J := fun w => Issuing userId t w ∧ Sweeping [] t w)
      (K := fun answer w => ∀ tokenId, answer = some tokenId → Issuing userId t w ∧ Sweeping [] t w
        ∧ ∃ token : UserToken, (w.slot confirmationTable tokenId).held = some (t, some token))
      (fun h hw => ⟨Issuing.stable h.1 hw, Sweeping.stable h.2 hw⟩) ⟨h, hsweeping⟩
    · intro w choice answer w' h hsound hinv hallowed hexec
      have hop : Confirming t w (.insert (S := database) confirmationTable fun _ =>
          (⟨userId, tokenHash, expiresAt, startedAt⟩ : UserToken)) :=
        ⟨fun _ _ => h.1.newConfirmation hsound hallowed rfl, nofun, by rintro ⟨⟩⟩
      refine ⟨hop.keeps hinv hsound hexec, ?_⟩
      rintro tokenId rfl
      have husers : w'.slot userTable = w.slot userTable :=
        exec_insert_slot_of_table_ne hexec (by rintro ⟨⟩)
      obtain ⟨rfl, hslot⟩ := exec_insert_slot hexec
      refine ⟨⟨?_, ?_⟩, ?_, ⟨userId, tokenHash, expiresAt, startedAt⟩, ?_⟩
      · rw [husers, Op.exec_request hexec]
        exact h.1.owner
      · rw [husers]
        exact h.1.unverified
      · exact h.2.putToken (exec_insert_slot_of_table_ne hexec (by rintro ⟨⟩)) hslot nofun
          (fun _ => id) fun _ => .inl
      · rw [hslot, Function.update_self]
        rfl
    · intro answer w h
      cases answer with
      | none => trivial
      | some tokenId => exact h tokenId rfl
  · exact fun _ _ _ => trivial

theorem Issuing.enqueueJob {message : EmailMessage} {now : Int} (h : Issuing userId t w)
    (hsweeping : Sweeping [] t w)
    (hheld : ∃ token : UserToken, (w.slot confirmationTable tokenId).held = some (t, some token)) :
    confirmations.Safe t (Discipline.OnSuccess fun _ w => Issuing userId t w ∧ Sweeping [] t w)
      (EmailOutbox.enqueueJob message now (some tokenId) none) w := by
  unfold EmailOutbox.enqueueJob
  split
  · trivial
  apply Discipline.Safe.exec (J := fun w => Issuing userId t w ∧ Sweeping [] t w
      ∧ ∃ token : UserToken, (w.slot confirmationTable tokenId).held = some (t, some token))
    (K := fun answer w => answer ≠ none → Issuing userId t w ∧ Sweeping [] t w)
  · rintro w w' ⟨h, hsweeping, token, hheld⟩ hw
    exact ⟨Issuing.stable h hw, Sweeping.stable hsweeping hw, token,
      by rw [hw.others.mine _ _ _ hheld, hheld]⟩
  · exact ⟨h, hsweeping, hheld⟩
  · rintro w choice answer w' ⟨h, hsweeping, token, hheld⟩ hsound hinv _ hexec
    refine ⟨confirming_insertJob.keeps hinv hsound hexec, fun hsome => ?_⟩
    obtain ⟨jobId, rfl⟩ := Option.ne_none_iff_exists'.mp hsome
    have husers : w'.slot userTable = w.slot userTable :=
      exec_insert_slot_of_table_ne hexec (by rintro ⟨⟩)
    obtain ⟨rfl, hslot⟩ := exec_insert_slot hexec
    refine ⟨⟨?_, ?_⟩, ?_⟩
    · rw [husers, Op.exec_request hexec]
      exact h.owner
    · rw [husers]
      exact h.unverified
    · refine hsweeping.putJob (exec_insert_slot_of_table_ne hexec (by rintro ⟨⟩)) hslot ?_
      rintro _ tokenId' ⟨⟩ ⟨⟩
      exact ⟨.inr (by rw [Slot.view_of_held hheld]; exact Option.some_ne_none token), .inr ⟨_, hheld⟩⟩
  · intro answer w h
    cases answer with
    | none => trivial
    | some => exact h (Option.some_ne_none _)

theorem Preserving.commit {next : Unit → Db α} {J : ConfirmationWorld → Prop}
    (hstable : confirmations.Stable t J) (hready : ∀ w, J w → Confirmations w → Committable t w)
    (hnext : ∀ w, Preserving t (next ()) w) (h : J w) : Preserving t (Prog.commit.bind next) w := by
  apply Discipline.Safe.exec hstable h (K := fun _ _ => True)
  · intro w choice answer w' h _ hinv _ hexec
    obtain rfl := exec_commit hexec
    obtain ⟨hinv', hrely⟩ := hinv.commit (hready w h hinv)
    refine ⟨⟨hinv'.congr rfl, fun u hne => (hrely u hne).trans (.congr rfl)⟩, trivial⟩
  · exact fun _ w _ => hnext w

theorem Issuing.commit {next : Unit → Db α} (h : Issuing userId t w) (hsweeping : Sweeping [] t w)
    (hnext : ∀ w, Preserving t (next ()) w) : Preserving t (Prog.commit.bind next) w := by
  apply Preserving.commit (J := fun w => Issuing userId t w ∧ Sweeping [] t w) _ _ hnext
    ⟨h, hsweeping⟩
  · exact fun h hw => ⟨Issuing.stable h.1 hw, Sweeping.stable h.2 hw⟩
  · rintro w ⟨h, hsweeping⟩ _
    refine ⟨fun id job tokenId hview hlinked => ?_, hsweeping.own, fun id user hheld hverified => ?_⟩
    · exact (hsweeping.linked id job tokenId hview hlinked).resolve_left List.not_mem_nil
    · exact absurd (h.unverified id user hheld) hverified

/-- The transaction has changed nothing, whatever tokens it has locked. -/
structure Idling (request : ConfirmationRequest) (t : Txn) (w : ConfirmationWorld) : Prop where
  asked : w.request t = some request
  sweeping : Sweeping [] t w
  free : ∀ id, ¬ (w.slot userTable id).HeldBy t
  borrowed : ∀ id (token : UserToken), (w.slot confirmationTable id).held = some (t, some token) →
    (w.slot confirmationTable id).committed = some token

theorem Idling.of_fresh (hfresh : Discipline.Fresh t w) (hinv : Confirmations w)
    (hasked : w.request t = some request) : Idling request t w := by
  refine ⟨hasked, ⟨fun id job tokenId hview hlinked => ?_, fun id job tokenId hheld _ => ?_, nofun⟩,
    fun id => hfresh.unlocked userTable id, fun id token hheld => ?_⟩
  · rw [Slot.view_eq_committed (hfresh.unlocked _ _)] at hview ⊢
    exact .inr (hinv.linked id job tokenId hview hlinked)
  · exact absurd ⟨_, hheld⟩ (hfresh.unlocked jobTable id)
  · exact absurd ⟨_, hheld⟩ (hfresh.unlocked confirmationTable id)

theorem Idling.stable : confirmations.Stable t (Idling request t) := fun h hw =>
  { asked := hw.others.request t request h.asked
    sweeping := Sweeping.stable h.sweeping hw
    free := fun id => hw.others.not_mine userTable id (h.free id)
    borrowed := fun id token hheld => by
      have hbefore := hw.others.held_before hheld
      rw [hw.others.mine _ _ _ hbefore]
      exact h.borrowed id token hbefore }

theorem Idling.congr (h : Idling request t w) (hslot : w'.slot = w.slot)
    (hrequest : w'.request = w.request) : Idling request t w' where
  asked := by rw [hrequest, h.asked]
  sweeping := h.sweeping.congr (by rw [hslot]) (by rw [hslot])
  free := by
    rw [hslot]
    exact h.free
  borrowed := by
    rw [hslot]
    exact h.borrowed

theorem Idling.now {next : Int → Db α} (h : Idling request t w)
    (hnext : ∀ clock w, Idling request t w → Preserving t (next clock) w) :
    Preserving t (Prog.now.bind next) w := by
  refine Preserving.idle Idling.stable (fun _ => ⟨trivial, trivial, by rintro ⟨⟩⟩) ?_ hnext h
  intro w choice clock w' h hexec
  obtain ⟨_, rfl⟩ := exec_now hexec
  exact h

theorem Idling.draw {next : String → Db α} (h : Idling request t w)
    (hnext : ∀ token w, Idling request t w → Preserving t (next token) w) :
    Preserving t (Prog.draw.bind next) w := by
  refine Preserving.idle Idling.stable (fun _ => ⟨trivial, trivial, by rintro ⟨⟩⟩) ?_ hnext h
  intro w choice token w' h hexec
  obtain ⟨_, rfl⟩ := exec_draw hexec
  exact h.congr rfl rfl

/-- An operation that leaves every row as it is. -/
theorem Issuing.idle {β : Type} {op : Op database β} {next : β → Db α} (h : Issuing userId t w)
    (hsweeping : Sweeping [] t w) (hop : ∀ w, Confirming t w op)
    (hslot : ∀ {w choice answer w'}, Issuing userId t w → Sweeping [] t w →
      op.exec t choice w = some (answer, w') → Issuing userId t w' ∧ Sweeping [] t w')
    (hnext : ∀ answer w, Issuing userId t w → Sweeping [] t w → Preserving t (next answer) w) :
    Preserving t (.exec op next) w :=
  Preserving.idle (J := fun w => Issuing userId t w ∧ Sweeping [] t w)
    (fun h hw => ⟨Issuing.stable h.1 hw, Sweeping.stable h.2 hw⟩) hop
    (fun h hexec => hslot h.1 h.2 hexec) (fun answer w h => hnext answer w h.1 h.2) ⟨h, hsweeping⟩

theorem Issuing.now {next : Int → Db α} (h : Issuing userId t w) (hsweeping : Sweeping [] t w)
    (hnext : ∀ clock w, Issuing userId t w → Sweeping [] t w → Preserving t (next clock) w) :
    Preserving t (Prog.now.bind next) w := by
  refine h.idle hsweeping (fun _ => ⟨trivial, trivial, by rintro ⟨⟩⟩) ?_ hnext
  intro w choice clock w' h hsweeping hexec
  obtain ⟨_, rfl⟩ := exec_now hexec
  exact ⟨h, hsweeping⟩

theorem Issuing.draw {next : String → Db α} (h : Issuing userId t w) (hsweeping : Sweeping [] t w)
    (hnext : ∀ token w, Issuing userId t w → Sweeping [] t w → Preserving t (next token) w) :
    Preserving t (Prog.draw.bind next) w := by
  refine h.idle hsweeping (fun _ => ⟨trivial, trivial, by rintro ⟨⟩⟩) ?_ hnext
  intro w choice token w' h hsweeping hexec
  obtain ⟨_, rfl⟩ := exec_draw hexec
  exact ⟨⟨h.owner, h.unverified⟩, hsweeping.congr rfl rfl⟩

theorem Issuing.select {T : Table} {p : Nat → T.Row → Bool} {next : Option (Nat × T.Row) → Db α}
    (h : Issuing userId t w) (hsweeping : Sweeping [] t w)
    (hnext : ∀ found w, Issuing userId t w → Sweeping [] t w → Preserving t (next found) w) :
    Preserving t ((Prog.scalar (S := database) T p).bind next) w := by
  refine h.idle hsweeping (fun _ => confirming_select _ _) ?_ fun rows => hnext rows.head?
  intro w choice rows w' h hsweeping hexec
  obtain ⟨rfl, _⟩ := exec_select hexec
  exact ⟨⟨h.owner, h.unverified⟩, hsweeping.congr rfl rfl⟩

/-- The users that a request without changes finds. -/
theorem Idling.selectUser {p : Nat → User → Bool} {next : Option (Nat × User) → Db α}
    (h : Idling request t w)
    (hnone : ∀ w, Idling request t w → Preserving t (next none) w)
    (hsome : ∀ userId user w, p userId user = true → Idling request t w →
      (request = .resendConfirmation user.email → Issuing userId t w) →
      Preserving t (next (some (userId, user))) w) :
    Preserving t ((Prog.scalar (S := database) userTable p).bind next) w := by
  apply Discipline.Safe.exec Idling.stable h (K := fun rows w => Idling request t w
    ∧ ∀ e ∈ rows, p e.1 e.2 = true ∧ (w.slot userTable e.1).committed = some e.2)
  · intro w choice rows w' h hsound hinv _ hexec
    refine ⟨(confirming_select _ _).keeps hinv hsound hexec, ?_⟩
    obtain ⟨rfl, _, hrows⟩ := exec_select hexec
    refine ⟨h.congr rfl rfl, fun e he => ?_⟩
    obtain ⟨_, hview, hp⟩ := (hrows e.1 e.2).mp he
    exact ⟨hp, (Slot.view_eq_committed (h.free e.1)).symm.trans hview⟩
  · rintro rows w ⟨h, hrows⟩
    cases rows with
    | nil => exact hnone w h
    | cons e rows =>
        obtain ⟨hp, huser⟩ := hrows e List.mem_cons_self
        refine hsome e.1 e.2 w hp h fun hrequest => ⟨.inr ⟨e.2, huser, ?_⟩, ?_⟩
        · rw [h.asked, hrequest]
        · exact fun id _ hheld => absurd ⟨_, hheld⟩ (h.free id)

end Program

section Handlers

variable {α : Type} {context : Context} {legalPages : List LegalPage}
  {request : ConfirmationRequest}

theorem Idling.resendConfirmation {email : String}
    (h : Idling (.resendConfirmation email) t w) :
    Preserving t (EventsApi.resendConfirmation context email) w := by
  apply h.now
  intro startedAt w h
  apply h.selectUser
  · exact fun _ _ => trivial
  rintro userId user w hfound h hissuing
  obtain rfl : user.email = email := beq_iff_eq.mp hfound
  have hissuing := hissuing rfl
  dsimp only
  split
  · trivial
  apply hissuing.now h.sweeping
  intro now w hissuing hsweeping
  apply hissuing.select hsweeping
  intro existing w hissuing hsweeping
  split
  · trivial
  apply hissuing.draw hsweeping
  intro rawToken w hissuing hsweeping
  apply (hissuing.replace hsweeping).bind_onSuccess _ fun _ _ => trivial
  rintro tokenId w ⟨hissuing, hsweeping, hheld⟩
  apply (hissuing.enqueueJob hsweeping hheld).bind_onSuccess _ fun _ _ => trivial
  rintro _ w ⟨hissuing, hsweeping⟩
  exact hissuing.commit hsweeping fun _ => trivial

theorem Idling.createUser {email passwordHash firstName lastName preferredLocale : String}
    {termsVersion : String} {marketingEmailConsent marketingPushConsent : Bool} {now startedAt : Int}
    (h : Idling request t w) :
    confirmations.Safe t
      (Discipline.OnSuccess fun (created : Nat × User) w =>
        Issuing created.1 t w ∧ Sweeping [] t w)
      (Users.create email passwordHash firstName lastName preferredLocale now termsVersion
        marketingEmailConsent now marketingPushConsent now startedAt) w := by
  apply Discipline.Safe.exec Idling.stable h
    (K := fun answer w => ∀ userId, answer = some userId → Issuing userId t w ∧ Sweeping [] t w)
  · intro w choice answer w' h hsound hinv _ hexec
    refine ⟨Confirming.keeps (confirming_insertUser fun _ => rfl) hinv hsound hexec, ?_⟩
    rintro userId rfl
    obtain ⟨rfl, hslot⟩ := exec_insert_slot hexec
    refine ⟨⟨.inl ?_, fun id user hheld => ?_⟩, h.sweeping.congr ?_ ?_⟩
    · rw [hslot, Function.update_self]
      exact ⟨_, rfl, rfl⟩
    · rw [hslot] at hheld
      by_cases hid : id = w.next userTable
      · subst hid
        rw [Function.update_self] at hheld
        cases hheld
        rfl
      · rw [Function.update_of_ne hid] at hheld
        exact absurd ⟨_, hheld⟩ (h.free id)
    · exact exec_insert_slot_of_table_ne hexec (by rintro ⟨⟩)
    · exact exec_insert_slot_of_table_ne hexec (by rintro ⟨⟩)
  · intro answer w h
    cases answer with
    | none => trivial
    | some userId => exact h userId rfl

theorem Idling.register {payload : RegisterRequest} (h : Idling request t w) :
    Preserving t (EventsApi.register context legalPages payload) w := by
  apply h.now
  intro startedAt w h
  apply h.selectUser
  swap
  · exact fun _ _ _ _ _ _ => trivial
  intro w h
  dsimp only
  split
  · trivial
  rename_i termsVersion _
  apply h.draw
  intro rawToken w h
  apply h.now
  intro now w h
  have hcreate : Preserving t
      (createAccount context payload termsVersion rawToken now startedAt) w := by
    apply h.draw
    intro salt w h
    cases hashPassword context.crypto payload.password salt with
    | error => trivial
    | ok passwordHash =>
    apply h.createUser.bind_onSuccess _ fun _ _ => trivial
    rintro ⟨userId, user⟩ w ⟨hissuing, hsweeping⟩
    apply (hissuing.replace hsweeping).bind_onSuccess _ fun _ _ => trivial
    rintro tokenId w ⟨hissuing, hsweeping, hheld⟩
    apply (hissuing.enqueueJob hsweeping hheld).bind_onSuccess _ fun _ _ => trivial
    rintro _ w ⟨hissuing, hsweeping⟩
    exact hissuing.commit hsweeping fun _ => trivial
  have hmapped : Preserving t ((createAccount context payload termsVersion rawToken now
      startedAt).mapError duplicateOnIntegrityError) w :=
    hcreate.mapError (fun _ _ => id) fun _ _ => id
  exact hmapped.bind (fun _ _ _ => trivial) fun _ _ _ => trivial

theorem Idling.lockToken {choice : Choice} {id : Nat} {p : UserToken → Bool}
    {rows : List (Nat × database.Row confirmationTable)}
    {found : Option (database.Row confirmationTable)} (h : Idling request t w)
    (hrows : ∀ e ∈ rows, Borrowing e.1 e.2 t w)
    (hexec : (Op.lock confirmationTable id p some).exec t choice w = some (found, w')) :
    Idling request t w'
      ∧ ∀ e ∈ rows ++ (found.map (id, ·)).toList, Borrowing e.1 e.2 t w' := by
  have hjobs : w'.slot jobTable = w.slot jobTable := exec_lock_slot_of_table_ne hexec (by rintro ⟨⟩)
  have hfree : ∀ id, ¬ (w'.slot userTable id).HeldBy t := by
    rw [exec_lock_slot_of_table_ne hexec (by rintro ⟨⟩)]
    exact h.free
  have hasked : w'.request t = some request := by rw [Op.exec_request hexec, h.asked]
  obtain ⟨_, rfl, hslot⟩ | ⟨row, version, hview, hslot, hlocked⟩ := exec_lock_slot hexec
  · refine ⟨⟨hasked, h.sweeping.congr hjobs hslot, hfree, by rw [hslot]; exact h.borrowed⟩, ?_⟩
    intro e he
    obtain ⟨hheld, hstored, hborrowed⟩ := hrows e (by simpa using he)
    exact ⟨by rwa [hslot], by rwa [hslot], by rwa [hslot]⟩
  · obtain rfl : version = some row := by
      obtain ⟨_, _, heq⟩ | ⟨_, _, heq⟩ := hlocked
      · exact heq
      · exact heq
    have hstored : (w.slot confirmationTable id).committed = some row := by
      by_cases hown : (w.slot confirmationTable id).HeldBy t
      · obtain ⟨own, hown⟩ := hown
        rw [Slot.view_of_held hown] at hview
        exact h.borrowed id row (hview ▸ hown)
      · exact (Slot.view_eq_committed hown).symm.trans hview
    have hcommitted := Op.exec_committed (by rintro ⟨⟩) hexec confirmationTable
    have hborrowed : ∀ id (token : UserToken),
        (w'.slot confirmationTable id).held = some (t, some token) →
        (w'.slot confirmationTable id).committed = some token := by
      intro id' token hheld
      rw [hcommitted]
      rw [hslot] at hheld
      by_cases hid : id' = id
      · subst hid
        rw [Function.update_self] at hheld
        cases hheld
        exact hstored
      · rw [Function.update_of_ne hid] at hheld
        exact h.borrowed id' token hheld
    refine ⟨⟨hasked, h.sweeping.putToken hjobs hslot nofun (fun _ hmem => hmem) fun _ => .inl, hfree,
      hborrowed⟩, fun e he => ?_⟩
    obtain he | he := List.mem_append.mp he
    · obtain ⟨⟨version, hheld⟩, hstored, _⟩ := hrows e he
      refine ⟨?_, (hcommitted e.1).trans hstored, hborrowed⟩
      rw [hslot]
      by_cases hid : e.1 = id
      · rw [hid, Function.update_self]
        exact ⟨some row, rfl⟩
      · rw [Function.update_of_ne hid]
        exact ⟨version, hheld⟩
    · obtain ⟨_, rfl, _⟩ | ⟨_, rfl, _⟩ := hlocked
      · obtain rfl : e = (id, row) := by simpa using he
        refine ⟨⟨some row, ?_⟩, (hcommitted id).trans hstored, hborrowed⟩
        rw [hslot, Function.update_self]
        rfl
      · cases he

/-- The token that is found is locked. -/
theorem Idling.getForUpdate {tokenHash : String} (h : Idling request t w) :
    confirmations.Safe t
      (Discipline.OnSuccess fun found w => Idling request t w
        ∧ ∀ tokenId token, found = some (tokenId, token) → Borrowing tokenId token t w)
      (UserTokens.getForUpdate .confirmation tokenHash) w := by
  have hstable : ∀ (ids : List Nat) (rows : List (Nat × UserToken)), confirmations.Stable t fun w =>
      Idling request t w ∧ ∀ e ∈ rows, Borrowing e.1 e.2 t w := by
    intro ids rows w w' h hw
    exact ⟨Idling.stable h.1 hw, fun e he => Borrowing.stable (h.2 e he) hw⟩
  apply Discipline.Safe.exec Idling.stable h (K := fun _ => Idling request t)
  · intro w choice found w' h hsound hinv _ hexec
    refine ⟨(confirming_select _ _).keeps hinv hsound hexec, ?_⟩
    obtain ⟨rfl, _⟩ := exec_select hexec
    exact h.congr rfl rfl
  intro found w h
  have hstart : Idling request t w ∧ ∀ e ∈ ([] : List (Nat × UserToken)), Borrowing e.1 e.2 t w :=
    ⟨h, fun _ he => by cases he⟩
  apply (Discipline.Safe.lockEach (T := confirmationTable) (J := fun _ rows w =>
    Idling request t w ∧ ∀ e ∈ rows, Borrowing e.1 e.2 t w) hstable ?_ [] hstart).bind
  · rintro _ w ⟨rows, ⟨⟩, h, hrows⟩
    refine ⟨h, fun tokenId token hfound => hrows (tokenId, token) ?_⟩
    exact List.mem_of_mem_head? hfound
  · exact fun _ _ _ => trivial
  · intro id ids rows w choice found w' h hsound hinv _ hexec
    refine ⟨(confirming_lockToken fun _ => .inl rfl).keeps hinv hsound hexec, ?_⟩
    exact h.1.lockToken h.2 hexec

/-- The user of the token is verified, and nobody else. -/
theorem Borrowing.verify {tokenId : Nat} {token : UserToken} {f : User → User} {next : Unit → Db α}
    (h : Borrowing tokenId token t w) (hidling : Idling request t w)
    (hf : ∀ user, (f user).email = user.email)
    (hnext : ∀ w, Borrowing tokenId token t w → Sweeping [] t w →
      ChangesOnly (· = token.userId) t w → Preserving t (next ()) w) :
    Preserving t ((updateRow .users token.userId f).bind next) w := by
  apply Discipline.Safe.exec (J := fun w => Borrowing tokenId token t w ∧ Idling request t w)
    (K := fun _ w => Borrowing tokenId token t w ∧ Sweeping [] t w
      ∧ ChangesOnly (· = token.userId) t w)
  · exact fun h hw => ⟨Borrowing.stable h.1 hw, Idling.stable h.2 hw⟩
  · exact ⟨h, hidling⟩
  · rintro w choice found w' ⟨h, hidling⟩ hsound hinv _ hexec
    have hjobs : w'.slot jobTable = w.slot jobTable :=
      exec_lock_slot_of_table_ne hexec (by rintro ⟨⟩)
    have htokens : w'.slot confirmationTable = w.slot confirmationTable :=
      exec_lock_slot_of_table_ne hexec (by rintro ⟨⟩)
    have hinv' : Confirmations w' := hinv.lockUser hidling.free (hinv.owned tokenId token h.stored)
      (fun old => ⟨f old, rfl, hf old⟩) hexec
    refine ⟨⟨hinv', fun u hne => confirmationRely_of_exec (by rintro ⟨⟩) hsound hexec hne⟩,
      ⟨by rw [htokens]; exact h.held, by rw [htokens]; exact h.stored,
        by rw [htokens]; exact h.borrowed⟩,
      hidling.sweeping.congr hjobs htokens, fun id hheld => ?_⟩
    by_contra hne
    rw [exec_lock_slot_of_ne hexec fun hsame => hne hsame.2] at hheld
    exact hidling.free id hheld
  · rintro found w ⟨h, hsweeping, honly⟩
    cases found with
    | none => trivial
    | some => exact hnext w h hsweeping honly

/-- What a confirmation has done when it commits. -/
theorem Borrowing.committable {tokenId : Nat} {token : UserToken} (h : Borrowing tokenId token t w)
    (hsweeping : Sweeping [] t w) (hcleared : Cleared token.userId [] t w)
    (honly : ChangesOnly (· = token.userId) t w) (hinv : Confirmations w) : Committable t w := by
  refine ⟨fun id job tokenId hview hlinked => ?_, hsweeping.own, fun userId user hheld _ => ?_⟩
  · exact (hsweeping.linked id job tokenId hview hlinked).resolve_left List.not_mem_nil
  · obtain rfl : userId = token.userId := honly userId ⟨_, hheld⟩
    refine ⟨⟨tokenId, token, h.stored, rfl, h.held⟩, fun id other hview howner => ?_⟩
    by_cases hown : (w.slot confirmationTable id).HeldBy t
    · obtain ⟨version, hown⟩ := hown
      rw [Slot.view_of_held hown] at hview
      exact List.not_mem_nil (hcleared id other (hview ▸ hown) howner)
    · rw [Slot.view_eq_committed hown] at hview
      have hne : id ≠ tokenId := by
        rintro rfl
        exact hown h.held
      have hclash := hinv.unique.committed hne hview h.stored
      change (other.userId == token.userId || _) = false at hclash
      rw [howner, beq_self_eq_true, Bool.true_or] at hclash
      cases hclash

theorem Idling.confirmEmail {rawToken : String} (h : Idling request t w) :
    Preserving t (EventsApi.confirmEmail context rawToken) w := by
  apply h.now
  intro startedAt w h
  apply h.getForUpdate.bind_onSuccess _ fun _ _ => trivial
  rintro (_ | ⟨tokenId, token⟩) w ⟨h, hfound⟩
  · trivial
  have hstable : confirmations.Stable t fun w =>
      Idling request t w ∧ Borrowing tokenId token t w :=
    fun h hw => ⟨Idling.stable h.1 hw, Borrowing.stable h.2 hw⟩
  refine Preserving.idle hstable (fun _ => ⟨trivial, trivial, by rintro ⟨⟩⟩) ?_ ?_
    ⟨h, hfound tokenId token rfl⟩
  · intro w choice now w' h hexec
    obtain ⟨_, rfl⟩ := exec_now hexec
    exact h
  intro now w h
  rw [Prog.pure_bind]
  split
  · trivial
  apply Discipline.Safe.exec hstable h (K := fun rows w =>
    (Idling request t w ∧ Borrowing tokenId token t w) ∧ ∀ e ∈ rows, e.1 = token.userId)
  · intro w choice rows w' h hsound hinv _ hexec
    refine ⟨(confirming_select _ _).keeps hinv hsound hexec, ?_⟩
    obtain ⟨rfl, _, hrows⟩ := exec_select hexec
    refine ⟨⟨h.1.congr rfl rfl, h.2.held, h.2.stored, h.2.borrowed⟩, fun e he => ?_⟩
    exact beq_iff_eq.mp ((hrows e.1 e.2).mp he).2.2
  rintro (_ | ⟨⟨userId, user⟩, rows⟩) w ⟨⟨h, hborrowing⟩, hrows⟩
  · trivial
  obtain rfl : userId = token.userId := hrows _ List.mem_cons_self
  apply hborrowing.verify h
  · exact fun _ => rfl
  intro w hborrowing hsweeping honly
  have hframe := (hsweeping.deleteForUser token.userId).frame
    (F := fun w => Borrowing tokenId token t w ∧ ChangesOnly (· = token.userId) t w)
    (fun h hw => ⟨Borrowing.stable h.1 hw, ChangesOnly.stable h.2 hw⟩)
    (fun hop h hsound _ hexec => ⟨h.1.deletes hop hsound hexec, h.2.deletes hop hexec⟩)
    (deletes_deleteForUser token.userId) ⟨hborrowing, honly⟩
  apply hframe.bind _ fun _ _ _ => trivial
  rintro _ w ⟨⟨_, hsweeping, hcleared⟩, hborrowing, honly⟩
  refine Preserving.commit (J := fun w => (Sweeping [] t w ∧ Cleared token.userId [] t w)
    ∧ Borrowing tokenId token t w ∧ ChangesOnly (· = token.userId) t w) ?_ ?_ (fun _ => trivial)
    ⟨⟨hsweeping, hcleared⟩, hborrowing, honly⟩
  · exact fun h hw => ⟨⟨Sweeping.stable h.1.1 hw, Cleared.stable h.1.2 hw⟩,
      Borrowing.stable h.2.1 hw, ChangesOnly.stable h.2.2 hw⟩
  · exact fun w h hinv => h.2.1.committable h.1.1 h.1.2 h.2.2 hinv

theorem confirmationSystem_verified :
    confirmations.Verified (confirmationSystem context legalPages) fun _ _ _ _ => True where
  stable _ _ _ _ _ _ _ := trivial
  close _ _ _ _ _ _ _ := trivial
  lost _ _ _ _ := trivial
  handler request t w _ hinv hfresh hrequest := by
    have h := Idling.of_fresh hfresh hinv hrequest
    cases request with
    | register payload => exact h.register.bind (fun _ _ _ => trivial) fun _ _ _ => trivial
    | confirmEmail rawToken => exact h.confirmEmail.bind (fun _ _ _ => trivial) fun _ _ _ => trivial
    | resendConfirmation email =>
        exact h.resendConfirmation.bind (fun _ _ _ => trivial) fun _ _ _ => trivial

end Handlers

/-! ### Runs -/

abbrev ConfirmationConfig := Config database ConfirmationRequest Exn (Option String)

/-- What is stored at the beginning: a token for each user at most, and only for those that are not
verified, and jobs of such tokens. -/
structure ConfirmationsStored (w : ConfirmationWorld) : Prop where
  unique : ∀ id id' (token token' : UserToken), id ≠ id' →
    (w.slot confirmationTable id).committed = some token →
    (w.slot confirmationTable id').committed = some token' →
    database.clash confirmationTable token token' = false
  owned : ∀ id (token : UserToken), (w.slot confirmationTable id).committed = some token →
    UnverifiedUser token.userId w
  linked : ∀ id (job : EmailOutboxJob) tokenId, (w.slot jobTable id).committed = some job →
    job.confirmationTokenId = some tokenId → (w.slot confirmationTable tokenId).committed ≠ none

theorem ConfirmationsStored.confirmations (h : ConfirmationsStored w) (hinitial : w.Initial) :
    Confirmations w := by
  have hunheld : ∀ {T id lock}, (w.slot T id).held ≠ some lock := by
    intro T id lock hheld
    cases (hinitial.unlocked T id).symm.trans hheld
  have hview : ∀ id t, (w.slot confirmationTable id).view t
      = (w.slot confirmationTable id).committed := fun id t =>
    Slot.view_eq_committed fun ⟨_, hheld⟩ => hunheld hheld
  refine ⟨⟨fun t id id' token token' hne htoken htoken' => ?_, fun _ _ _ _ _ _ _ hheld =>
    absurd hheld hunheld⟩, h.owned, h.linked, fun _ _ _ hheld => absurd hheld hunheld,
    fun _ _ _ hheld => absurd hheld hunheld⟩
  rw [hview] at htoken htoken'
  exact h.unique id id' token token' hne htoken htoken'

/-- A verified user has no confirmation token, and every job of such a token is of a token that is
there and belongs to somebody else. -/
def VerifiedUnmailed (w : ConfirmationWorld) : Prop :=
  ∀ userId (user : User), (w.slot userTable userId).committed = some user →
    user.emailVerifiedAt ≠ none →
    (∀ id (token : UserToken), (w.slot confirmationTable id).committed = some token →
        token.userId ≠ userId)
      ∧ ∀ id (job : EmailOutboxJob) tokenId, (w.slot jobTable id).committed = some job →
        job.confirmationTokenId = some tokenId → ∃ token : UserToken,
          (w.slot confirmationTable tokenId).committed = some token ∧ token.userId ≠ userId

/-- Users that were verified stay so, since the same time. -/
def KeepsVerification (w w' : ConfirmationWorld) : Prop :=
  ∀ userId (user : User), (w.slot userTable userId).committed = some user →
    user.emailVerifiedAt ≠ none → ∃ user' : User,
      (w'.slot userTable userId).committed = some user'
        ∧ user'.emailVerifiedAt = user.emailVerifiedAt

theorem Confirmations.verifiedUnmailed (h : Confirmations w) : VerifiedUnmailed w := by
  intro userId user huser hverified
  have hother : ∀ id (token : UserToken), (w.slot confirmationTable id).committed = some token →
      token.userId ≠ userId := by
    rintro id token htoken rfl
    obtain ⟨user', huser', hnone⟩ := h.owned id token htoken
    cases huser.symm.trans huser'
    exact hverified hnone
  refine ⟨hother, fun id job tokenId hjob hlinked => ?_⟩
  obtain ⟨token, htoken⟩ := Option.ne_none_iff_exists'.mp (h.linked id job tokenId hjob hlinked)
  exact ⟨token, htoken, hother tokenId token htoken⟩

section Runs

variable {context : Context} {legalPages : List LegalPage} {init : ConfirmationConfig → Prop}
  {c c' : ConfirmationConfig} {l : Label ConfirmationRequest}

/-- Nobody has a change of a verified user in hand. -/
theorem Confirmations.step_keepsVerification (h : Confirmations c.world)
    (hstep : (confirmationSystem context legalPages).step c l = some c') :
    KeepsVerification c.world c'.world := by
  intro userId user huser hverified
  obtain hsame | ⟨t, hheld⟩ := System.step_committed hstep userTable userId
  · exact ⟨user, hsame.trans huser, rfl⟩
  · obtain ⟨_, _, ⟨hnone, _⟩ | ⟨old, hold, hnone, _⟩⟩ := h.users userId t _ hheld
    · cases huser.symm.trans hnone
    · cases huser.symm.trans hold
      exact absurd hnone hverified

/-- **Verified users stay verified, and are mailed no more tokens.** In every run in which a resend
inserts its token only while the address is yet to be confirmed, a verified user has no confirmation
token and no job of one, and the time of the verification does not change. -/
theorem verified_users_unmailed
    (hinit : ∀ c, init c → c.Initial ∧ ConfirmationsStored c.world)
    (h : Transition.Reachable (confirmationSystem context legalPages).step init
      (fun c l => c.Meets ResendsUnverified l) c) :
    VerifiedUnmailed c.world
      ∧ ∀ c', Transition.Reachable (confirmationSystem context legalPages).step (· = c)
          (fun c l => c.Meets ResendsUnverified l) c' → KeepsVerification c.world c'.world := by
  have hinv : ∀ {c}, Transition.Reachable (confirmationSystem context legalPages).step init
      (fun c l => c.Meets ResendsUnverified l) c → Confirmations c.world := fun h =>
    (confirmationSystem_verified.holds
      (fun c hc => ⟨(hinit c hc).1, (hinit c hc).2.confirmations (hinit c hc).1.1⟩) h).inv
  refine ⟨(hinv h).verifiedUnmailed, fun c' h' => ?_⟩
  induction h' with
  | start hc =>
      rintro userId user huser _
      exact ⟨user, hc ▸ huser, rfl⟩
  | next hreach _ hstep ih =>
      intro userId user huser hverified
      obtain ⟨user', huser', heq⟩ := ih userId user huser hverified
      obtain ⟨user'', huser'', heq'⟩ := (hinv (h.trans hreach)).step_keepsVerification hstep userId
        user' huser' (heq ▸ hverified)
      exact ⟨user'', huser'', heq'.trans heq⟩

end Runs

/-- Jonas registers. -/
def registered : List (Label ConfirmationRequest) :=
  [.spawn 0 (.register jonas), .exec 0 {}, .exec 0 {}, .exec 0 { token := "a" }, .exec 0 {},
    .exec 0 { token := "b" }, .exec 0 {}, .exec 0 {}, .exec 0 {}, .exec 0 {}, .exec 0 {}, .close 0,
    .tick 60000000]

/-- He asks for another message, and confirms his address with the token of that. -/
def confirmedLater : List (Label ConfirmationRequest) :=
  [.spawn 1 (.resendConfirmation jonas.email), .exec 1 {}, .exec 1 { order := [1] }, .exec 1 {},
    .exec 1 { order := [0] }, .exec 1 { token := "c" }, .exec 1 { order := [0] }, .exec 1 {},
    .exec 1 { order := [0] }, .exec 1 {}, .exec 1 {}, .exec 1 {}, .exec 1 {}, .close 1,
    .spawn 2 (.confirmEmail "c"), .exec 2 {}, .exec 2 { order := [1] }, .exec 2 {}, .exec 2 {},
    .exec 2 { order := [1] }, .exec 2 {}, .exec 2 { order := [1] }, .exec 2 {},
    .exec 2 { order := [1] }, .exec 2 {}, .exec 2 {}, .close 2]

theorem smallService_confirmationsStored :
    ConfirmationsStored (smallService ConfirmationRequest Exn (Option String)).world where
  unique _ _ _ _ _ htoken := by cases htoken
  owned _ _ htoken := by cases htoken
  linked _ _ _ hjob := by cases hjob

/-- Jonas was verified at the time. -/
def VerifiedAt (time : Int) (w : ConfirmationWorld) : Prop :=
  (w.slot userTable 1).committed.map User.emailVerifiedAt = some (some time)

instance (time : Int) (w : ConfirmationWorld) : Decidable (VerifiedAt time w) :=
  inferInstanceAs (Decidable (_ = _))

theorem verified_users_unmailed_later :
    ∃ c, Transition.run (Transition.guarded (confirmationSystem plainContext publishedTerms).step
          fun c l => c.Meets ResendsUnverified l) (smallService _ _ _)
        (registered ++ confirmedLater) = some c
      ∧ VerifiedAt 60000000 c.world ∧ VerifiedUnmailed c.world := by
  have hrun : (Transition.run
      (Transition.guarded (confirmationSystem plainContext publishedTerms).step
        fun c l => c.Meets ResendsUnverified l)
      (smallService ConfirmationRequest Exn (Option String)) (registered ++ confirmedLater)).any
        fun c => decide (VerifiedAt 60000000 c.world) := by decide
  obtain ⟨c, hc, hverified⟩ := (Option.any_eq_true _ _).mp hrun
  refine ⟨c, hc, of_decide_eq_true hverified, ?_⟩
  have hinit : ∀ c, smallService ConfirmationRequest Exn (Option String) = c →
      c.Initial ∧ ConfirmationsStored c.world := by
    rintro _ rfl
    exact ⟨smallService_initial _ _ _, smallService_confirmationsStored⟩
  exact (verified_users_unmailed hinit (Transition.reachable_of_guarded_run rfl _ hc)).1

/-- He asks for another message while he confirms his address with the token of the first one. -/
def confirmedMeanwhile : List (Label ConfirmationRequest) :=
  [.spawn 1 (.resendConfirmation jonas.email), .exec 1 {}, .exec 1 { order := [1] },
    .spawn 2 (.confirmEmail "a"), .exec 2 {}, .exec 2 { order := [0] }, .exec 2 {}, .exec 2 {},
    .exec 2 { order := [1] }, .exec 2 {}, .exec 2 { order := [0] }, .exec 2 {},
    .exec 2 { order := [0] }, .exec 2 {}, .exec 2 {}, .close 2,
    .exec 1 {}, .exec 1 {}, .exec 1 { token := "c" }, .exec 1 {}, .exec 1 {}, .exec 1 {}, .exec 1 {},
    .close 1]

/-- A second later he confirms it once more. -/
def confirmedAgain : List (Label ConfirmationRequest) :=
  [.tick 1000000, .spawn 3 (.confirmEmail "c"), .exec 3 {}, .exec 3 { order := [1] }, .exec 3 {},
    .exec 3 {}, .exec 3 { order := [1] }, .exec 3 {}, .exec 3 { order := [1] }, .exec 3 {},
    .exec 3 { order := [1] }, .exec 3 {}, .exec 3 {}, .close 3]

/-- Jonas is verified, and has a token all the same, with which he is verified again. -/
theorem confirmedMeanwhile_mailed :
    ∃ c c', Transition.run (confirmationSystem plainContext publishedTerms).step
          (smallService _ _ _) (registered ++ confirmedMeanwhile) = some c
        ∧ Transition.run (confirmationSystem plainContext publishedTerms).step c confirmedAgain
          = some c'
        ∧ ¬ VerifiedUnmailed c.world ∧ ¬ KeepsVerification c.world c'.world := by
  have hrun : (Transition.run (confirmationSystem plainContext publishedTerms).step
      (smallService ConfirmationRequest Exn (Option String))
      (registered ++ confirmedMeanwhile)).any fun c =>
        decide (VerifiedAt 60000000 c.world
          ∧ (c.world.slot confirmationTable 1).committed.map UserToken.userId = some 1
          ∧ (c.world.slot jobTable 1).committed.map EmailOutboxJob.confirmationTokenId
            = some (some 1))
          && (Transition.run (confirmationSystem plainContext publishedTerms).step c
            confirmedAgain).any fun c' => decide (VerifiedAt 61000000 c'.world) := by decide
  obtain ⟨c, hc, hboth⟩ := (Option.any_eq_true _ _).mp hrun
  obtain ⟨hfirst, hagain⟩ := Bool.and_eq_true_iff.mp hboth
  obtain ⟨hverified, htoken, _⟩ := of_decide_eq_true hfirst
  obtain ⟨c', hc', hverified'⟩ := (Option.any_eq_true _ _).mp hagain
  obtain ⟨user, huser, htime⟩ := Option.map_eq_some_iff.mp hverified
  obtain ⟨token, htoken, howner⟩ := Option.map_eq_some_iff.mp htoken
  have hnot : user.emailVerifiedAt ≠ none := by
    rw [htime]
    exact Option.some_ne_none _
  refine ⟨c, c', hc, hc', fun h => (h 1 user huser hnot).1 1 token htoken howner, fun h => ?_⟩
  obtain ⟨user', huser', hsame⟩ := h 1 user huser hnot
  have hlater := of_decide_eq_true hverified'
  unfold VerifiedAt at hlater
  rw [huser', Option.map_some, hsame, htime] at hlater
  cases hlater

end EventsApi
