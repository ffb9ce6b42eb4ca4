import EventsApi.Library.ReadCommitted.Deletion
import EventsApi.Proof.CurrentUser

/-!
# What goes with an account

The deletion of a user reaches two levels down: the tokens and the sessions of the user go with the
user, and the jobs that mail the tokens go with the tokens. It reaches nothing else, and without the
right password it does not begin.
-/

namespace EventsApi

open ReadCommitted

/-- The rows that the foreign keys tie to the user, in the state that has been committed. -/
inductive BelongsTo (w : UserWorld) (userId : Nat) : Table → Nat → Prop where
  | user : BelongsTo w userId .users userId
  | token (kind : TokenKind) {tokenId : Nat} {token : UserToken}
      (htoken : (w.slot (tokenTable kind) tokenId).committed = some token)
      (howner : token.userId = userId) : BelongsTo w userId (.tokens kind) tokenId
  | session {sessionId : Nat} {session : RefreshTokenSession}
      (hsession : (w.slot sessionTable sessionId).committed = some session)
      (howner : session.userId = userId) : BelongsTo w userId .refreshTokenSessions sessionId
  | job (kind : TokenKind) {tokenId jobId : Nat} {token : UserToken} {job : EmailOutboxJob}
      (htoken : (w.slot (tokenTable kind) tokenId).committed = some token)
      (howner : token.userId = userId) (hjob : (w.slot jobTable jobId).committed = some job)
      (hlinked : UserTokens.linkedJob kind tokenId job = true) :
      BelongsTo w userId .emailOutboxJobs jobId

/-- The tokens of the user. -/
def tokenRows (w : UserWorld) (kind : TokenKind) (userId : Nat) : Set (database.Table × Nat) :=
  w.committedRows (tokenTable kind) fun _ (token : UserToken) => token.userId == userId

/-- The jobs that are linked to one of the tokens. -/
def linkedRows (w : UserWorld) (kind : TokenKind) (tokenIds : List Nat) :
    Set (database.Table × Nat) :=
  {row | ∃ tokenId ∈ tokenIds,
    row ∈ w.committedRows jobTable fun _ => UserTokens.linkedJob kind tokenId}

/-- What goes with the user by way of one kind of token. -/
def tokenCascade (w : UserWorld) (kind : TokenKind) (userId : Nat) : Set (database.Table × Nat) :=
  tokenRows w kind userId ∪ {row | ∃ tokenId, (tokenTable kind, tokenId) ∈ tokenRows w kind userId
    ∧ row ∈ w.committedRows jobTable fun _ => UserTokens.linkedJob kind tokenId}

def sessionRows (w : UserWorld) (userId : Nat) : Set (database.Table × Nat) :=
  w.committedRows sessionTable fun _ (session : RefreshTokenSession) => session.userId == userId

variable {context : Context} {t : Txn} {w₀ w : UserWorld} {rows : Set (database.Table × Nat)}
  {userId : Nat}

section Fresh

variable (hfresh : ∀ T id, ¬ (w₀.slot T id).HeldBy t) (hsound : w₀.Sound)

include hfresh hsound

theorem deleteLinkedJobs_ensures (kind : TokenKind) (tokenIds : List Nat)
    (h : Removing t rows w₀ w) :
    (UserTokens.deleteLinkedJobs kind tokenIds).Ensures t
      (fun r w' => r = .ok () ∧ Removing t (rows ∪ linkedRows w₀ kind tokenIds) w₀ w') w := by
  induction tokenIds generalizing rows w with
  | nil =>
      refine ⟨rfl, h.congr fun row => ⟨.inl, fun hrow => hrow.resolve_right ?_⟩⟩
      rintro ⟨_, hmem, _⟩
      exact List.not_mem_nil hmem
  | cons tokenId tokenIds ih =>
      refine (h.deleteWhere hfresh hsound _).bind ?_ ?_
      · rintro _ w₁ ⟨_, _, _, _, hremoving⟩
        refine (ih hremoving).mono ?_
        rintro r w₂ ⟨hr, hremoving⟩
        refine ⟨hr, hremoving.congr fun row => ?_⟩
        rw [Set.union_assoc]
        refine or_congr_right ⟨?_, ?_⟩
        · rintro (hrow | ⟨other, hmem, hrow⟩)
          · exact ⟨tokenId, List.mem_cons_self, hrow⟩
          · exact ⟨other, List.mem_cons_of_mem _ hmem, hrow⟩
        · rintro ⟨other, hmem, hrow⟩
          obtain rfl | hmem := List.mem_cons.mp hmem
          · exact .inl hrow
          · exact .inr ⟨other, hmem, hrow⟩
      · rintro _ _ ⟨_, ⟨⟩, _⟩

theorem deleteForUser_ensures (kind : TokenKind) (h : Removing t rows w₀ w)
    (hnone : ∀ tokenId, (tokenTable kind, tokenId) ∉ rows) :
    (UserTokens.deleteForUser kind userId).Ensures t
      (fun r w' => r = .ok () ∧ Removing t (rows ∪ tokenCascade w₀ kind userId) w₀ w') w := by
  refine (h.deleteWhere hfresh hsound _).bind ?_ ?_
  · rintro _ w₁ ⟨found, ⟨⟩, _, hfound, hremoving⟩
    refine (deleteLinkedJobs_ensures hfresh hsound kind _ hremoving).mono ?_
    rintro r w₂ ⟨hr, hremoving⟩
    refine ⟨hr, hremoving.congr fun row => ?_⟩
    rw [Set.union_assoc]
    refine or_congr_right (or_congr_right ⟨?_, ?_⟩)
    · rintro ⟨tokenId, hmem, hrow⟩
      exact ⟨tokenId, ((hfound tokenId).mp hmem).1, hrow⟩
    · rintro ⟨tokenId, hmem, hrow⟩
      exact ⟨tokenId, (hfound tokenId).mpr ⟨hmem, hnone tokenId⟩, hrow⟩
  · rintro _ _ ⟨_, ⟨⟩, _⟩

theorem deleteOwned_ensures (h : Removing t rows w₀ w)
    (hnone : ∀ T id, (T, id) ∈ rows → T = userTable) :
    (Users.deleteOwned [userId]).Ensures t (fun r w' => r = .ok () ∧ Removing t
      (rows ∪ tokenCascade w₀ .confirmation userId ∪ tokenCascade w₀ .passwordReset userId
        ∪ sessionRows w₀ userId) w₀ w') w := by
  have hconfirmation : ∀ tokenId, (tokenTable .confirmation, tokenId) ∉ rows :=
    fun tokenId hrow => nomatch hnone _ _ hrow
  have hreset : ∀ tokenId,
      (tokenTable .passwordReset, tokenId) ∉ rows ∪ tokenCascade w₀ .confirmation userId := by
    rintro tokenId (hrow | ⟨hT, _⟩ | ⟨_, _, hT, _⟩)
    · exact nomatch hnone _ _ hrow
    · cases hT
    · cases hT
  refine (deleteForUser_ensures hfresh hsound .confirmation h hconfirmation).bind ?_ ?_
  · rintro _ w₁ ⟨_, hremoving⟩
    refine (deleteForUser_ensures hfresh hsound .passwordReset hremoving hreset).bind ?_ ?_
    · rintro _ w₂ ⟨_, hremoving⟩
      refine (hremoving.deleteWhere hfresh hsound _).bind ?_ ?_
      · rintro _ w₃ ⟨_, _, _, _, hremoving⟩
        exact ⟨rfl, hremoving⟩
      · rintro _ _ ⟨_, ⟨⟩, _⟩
    · rintro _ _ ⟨⟨⟩, _⟩
  · rintro _ _ ⟨⟨⟩, _⟩

end Fresh

/-- The cascade reaches what belongs to the user. -/
theorem mem_cascade_iff {user : User} (huser : (w.slot userTable userId).committed = some user)
    (T : database.Table) (id : Nat) :
    (T, id) ∈ (w.committedRows userTable fun id _ => id == userId)
        ∪ tokenCascade w .confirmation userId ∪ tokenCascade w .passwordReset userId
        ∪ sessionRows w userId
      ↔ BelongsTo w userId T id := by
  constructor
  · have htokens : ∀ kind, (T, id) ∈ tokenCascade w kind userId → BelongsTo w userId T id := by
      rintro kind (⟨rfl, token, htoken, howner⟩ |
        ⟨tokenId, ⟨_, token, htoken, howner⟩, rfl, job, hjob, hlinked⟩)
      · exact .token kind htoken (beq_iff_eq.mp howner)
      · exact .job kind htoken (beq_iff_eq.mp howner) hjob hlinked
    rintro (((⟨rfl, _, _, hid⟩ | hrow) | hrow) | ⟨rfl, session, hsession, howner⟩)
    · obtain rfl : id = userId := beq_iff_eq.mp hid
      exact .user
    · exact htokens _ hrow
    · exact htokens _ hrow
    · exact .session hsession (beq_iff_eq.mp howner)
  · have htokens : ∀ kind, (T, id) ∈ tokenCascade w kind userId →
        (T, id) ∈ (w.committedRows userTable fun id _ => id == userId)
          ∪ tokenCascade w .confirmation userId ∪ tokenCascade w .passwordReset userId
          ∪ sessionRows w userId := by
      intro kind hrow
      cases kind with
      | confirmation => exact .inl (.inl (.inr hrow))
      | passwordReset => exact .inl (.inr hrow)
    intro h
    cases h with
    | user => exact .inl (.inl (.inl ⟨rfl, user, huser, beq_self_eq_true _⟩))
    | token kind htoken howner =>
        exact htokens kind (.inl ⟨rfl, _, htoken, beq_iff_eq.mpr howner⟩)
    | session hsession howner => exact .inr ⟨rfl, _, hsession, beq_iff_eq.mpr howner⟩
    | job kind htoken howner hjob hlinked =>
        refine htokens kind (.inr ⟨_, ⟨rfl, _, htoken, beq_iff_eq.mpr howner⟩, ?_⟩)
        exact ⟨rfl, _, hjob, hlinked⟩

/-- The rows that go with the user are gone, and no other row has changed. -/
abbrev Erased (userId : Nat) (w w' : UserWorld) : Prop :=
  Removed {row | BelongsTo w userId row.1 row.2} w w'

theorem deleteUser_ensures {user : User} (hfresh : ∀ T id, ¬ (w₀.slot T id).HeldBy t)
    (hsound : w₀.Sound) (huser : (w₀.slot userTable userId).committed = some user)
    (hread : OnlyRead w₀ w) :
    (Users.deleteUser userId).Ensures t (fun r w' => r = .ok () ∧ Erased userId w₀ w') w := by
  have hstart : Removing t ∅ w₀ w := .start hread.slot hread.next
  refine (hstart.deleteWhere hfresh hsound _).bind ?_ ?_
  · rintro found w₁ ⟨_, ⟨⟩, hnodup, hfound, hremoving⟩
    have hids : found.map (·.1) = [userId] := by
      have hmem : ∀ id, id ∈ found.map (·.1) ↔ id = userId := by
        intro id
        rw [hfound]
        constructor
        · rintro ⟨⟨_, _, _, hid⟩, _⟩
          exact beq_iff_eq.mp hid
        · rintro rfl
          exact ⟨⟨rfl, user, huser, beq_self_eq_true _⟩, Set.notMem_empty _⟩
      refine List.perm_singleton.mp ?_
      exact (List.perm_ext_iff_of_nodup hnodup (List.nodup_singleton _)).mpr fun id => by
        rw [hmem, List.mem_singleton]
    rw [hids]
    have hnone : ∀ T id, (T, id) ∈ ∅ ∪ w₀.committedRows userTable (fun id _ => id == userId) →
        T = userTable := by
      rintro T id (hempty | ⟨hT, _⟩)
      · exact absurd hempty (Set.notMem_empty _)
      · exact hT
    refine (deleteOwned_ensures hfresh hsound hremoving hnone).bind ?_ ?_
    · rintro _ w₂ ⟨_, hremoving⟩ choice answer w₃ hexec
      obtain rfl := exec_commit hexec
      refine ⟨rfl, (hremoving.congr fun row => ?_).commit hfresh⟩
      rw [Set.empty_union]
      exact mem_cascade_iff huser row.1 row.2
    · rintro _ _ ⟨⟨⟩, _⟩
  · rintro _ _ ⟨_, ⟨⟩, _⟩

/-- Nothing has happened to any row. -/
theorem OnlyRead.finish_slot (h : OnlyRead w₀ w) (hfresh : ∀ T id, ¬ (w₀.slot T id).HeldBy t) :
    (w.finish t false).slot = w₀.slot := by
  rw [World.finish_slot false (h.slot ▸ hfresh), h.slot]

/-- A user with a confirmed address and a valid access token is let in. -/
theorem getCurrentUser_succeeds {credentials : Option String} {user : User} (hsound : w.Sound)
    (hauthenticated : authenticatedAs context credentials w.clock = some userId)
    (hview : (w.slot userTable userId).view t = some user)
    (hverified : user.emailVerifiedAt ≠ none) :
    (getCurrentUser context credentials).Ensures t
      (fun r w' => r = .ok (w.clock, userId, user) ∧ OnlyRead w w') w := by
  unfold getCurrentUser
  cases credentials with
  | none => cases hauthenticated
  | some token =>
      apply Prog.Ensures.perform_bind
      intro choice checkedAt w₁ hexec
      obtain ⟨rfl, rfl⟩ := exec_now hexec
      obtain ⟨claims, hdecode, hsub⟩ := Option.map_eq_some_iff.mp hauthenticated
      rw [Option.bind_some] at hdecode
      rw [hdecode]
      apply Prog.Ensures.perform_bind
      intro choice startedAt w₂ hexec
      obtain ⟨rfl, rfl⟩ := exec_now hexec
      apply Prog.Ensures.scalar_bind
      intro choice rows w₃ hexec
      have hp : ∀ (id' : Nat) (_ : User), (id' == claims.sub) = true ↔ id' = userId := by
        intro id' _
        rw [hsub, beq_iff_eq]
      obtain ⟨rfl, rfl⟩ := select_user hp hsound hview hexec
      split
      · next hnobody => exact absurd hnobody (Option.some_ne_none _)
      · next hfound =>
          cases hfound
          split
          · next hunverified => exact absurd hunverified hverified
          · exact ⟨rfl, (OnlyRead.refl w₂).note t _⟩

section Requests

variable {credentials : Option String} {password : String} {user : User} {r : Except Exn Unit}
  {w' : UserWorld} (hfresh : ∀ T id, ¬ (w.slot T id).HeldBy t)
  (huser : (w.slot userTable userId).committed = some user)
  (hauthenticated : authenticatedAs context credentials w.clock = some userId)
  (hruns : (deleteAccount context credentials password).Runs t w r w')

include hfresh huser hauthenticated hruns

/-- **The right password.** The account goes with all that belongs to it, and nothing else does. -/
theorem deleteAccount_erases (hsound : w.Sound) (hverified : user.emailVerifiedAt ≠ none)
    (hright : verifyPassword context.crypto password user.passwordHash = .ok true) :
    r = .ok () ∧ Erased userId w w' := by
  have hview : (w.slot userTable userId).view t = some user :=
    (Slot.view_eq_committed (hfresh _ _)).trans huser
  have hensures : (deleteAccount context credentials password).Ensures t
      (fun r w' => r = .ok () ∧ Erased userId w w') w := by
    refine (getCurrentUser_succeeds hsound hauthenticated hview hverified).bind ?_ ?_
    · rintro _ w₁ ⟨⟨⟩, hread⟩
      dsimp only
      rw [hright]
      exact deleteUser_ensures hfresh hsound huser hread
    · rintro _ _ ⟨⟨⟩, _⟩
  obtain ⟨w₁, ⟨hr, herased⟩, rfl⟩ := hensures.runs hruns
  exact ⟨hr, herased.finish hfresh⟩

/-- **A wrong password.** The request is refused and has only read. -/
theorem deleteAccount_refuses
    (hwrong : verifyPassword context.crypto password user.passwordHash ≠ .ok true) :
    (∃ error, r = .error error) ∧ w'.slot = w.slot := by
  have hview : (w.slot userTable userId).view t = some user :=
    (Slot.view_eq_committed (hfresh _ _)).trans huser
  have hensures : (deleteAccount context credentials password).Ensures t
      (fun r w' => (∃ error, r = .error error) ∧ OnlyRead w w') w := by
    refine (getCurrentUser_ensures credentials).bind ?_ ?_
    · rintro ⟨startedAt, id, row⟩ w₁ ⟨hread, hidentified⟩
      obtain ⟨hid, _, hseen, _⟩ := hidentified startedAt id row rfl
      cases hid.symm.trans hauthenticated
      cases hseen.symm.trans hview
      dsimp only
      cases hverify : verifyPassword context.crypto password user.passwordHash with
      | error error => exact ⟨⟨error, rfl⟩, hread⟩
      | ok right =>
          cases right with
          | false => exact ⟨⟨invalidCurrentPassword, rfl⟩, hread⟩
          | true => exact absurd hverify hwrong
    · exact fun error w₁ hrefused => ⟨⟨error, rfl⟩, hrefused.1⟩
  obtain ⟨w₁, ⟨herror, hread⟩, rfl⟩ := hensures.runs hruns
  exact ⟨herror, hread.finish_slot hfresh⟩

end Requests

end EventsApi
