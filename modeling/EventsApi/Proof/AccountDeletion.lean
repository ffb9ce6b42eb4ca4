import EventsApi.Library.ReadCommitted.Amid
import EventsApi.Proof.AccountErasure
import EventsApi.Proof.DeletedUsers
import EventsApi.Proof.IssuedTokens

/-!
# After the deletion of an account

No credential of a deleted user is accepted any more. A token is found by its hash, its row can only
be the user's own, and the user is not there; the claims of an access token name the user, and the
user is not there. A new account with the same address is another user.
-/

namespace EventsApi

open ReadCommitted

/-- What a request shows to be let in. -/
inductive Credential where
  | accessToken (token : String)
  | refreshToken (rawToken : String)
  | mailedToken (kind : TokenKind) (rawToken : String)
  deriving DecidableEq

/-- The logout takes whatever it is given. -/
def UserRequest.credential : UserRequest → Option Credential
  | .changePassword credentials _ _ | .getProfile credentials | .deleteProfile credentials _
  | .updateMarketingConsents credentials _ | .addFavorite credentials _
  | .removeFavorite credentials _ => credentials.map .accessToken
  | .refresh rawToken => some (.refreshToken rawToken)
  | .resetPassword rawToken _ => some (.mailedToken .passwordReset rawToken)
  | .confirmEmail rawToken => some (.mailedToken .confirmation rawToken)
  | .register _ | .resendConfirmation _ | .forgotPassword _ | .login _ _ | .logout _ => none

/-- The service has given the credential out to the user: it has signed the access token, or keeps
the hash of the token with a row of the user. -/
def Credential.IssuedTo (context : Context) (userId : Nat) (w : UserWorld) : Credential → Prop
  | .accessToken token => ∃ payload : AccessTokenPayload,
      payload.claims.sub = userId ∧ token = context.crypto.encode payload
  | .refreshToken rawToken => ∃ (sessionId : Nat) (session : RefreshTokenSession),
      (w.slot sessionTable sessionId).committed = some session ∧ session.userId = userId
        ∧ session.tokenHash = hashRefreshToken context.crypto rawToken
  | .mailedToken kind rawToken => ∃ (tokenId : Nat) (token : UserToken),
      (w.slot (tokenTable kind) tokenId).committed = some token ∧ token.userId = userId
        ∧ token.tokenHash = context.crypto.sha256 rawToken

/-- A service that has given out no tokens yet. -/
def Unissued (c : UserConfig) : Prop :=
  c.Initial ∧ c.world.next sessionTable = 0 ∧ ∀ kind, c.world.next (tokenTable kind) = 0

/-! ### Requests with a credential of a user who is not there -/

/-- The end of a request that is turned away. -/
def TurnedAway {α : Type} (r : Except Exn α) : Prop := ∃ error, r = .error error

variable {context : Context} {legalPages : List LegalPage} {eventIds : List Int} {t : Txn}
  {userId : Nat}

/-- The user is not there. -/
def Absent (userId : Nat) (w : UserWorld) : Prop := w.slot userTable userId = Slot.empty

/-- The rows with the token are the user's. -/
def OnlyFor {T : database.Table} (key : database.Row T → String) (owner : database.Row T → Nat)
    (tokenHash : String) (userId : Nat) (w : UserWorld) : Prop :=
  ∀ id row, (w.slot T id).HasVersion row → key row = tokenHash → owner row = userId

theorem turnedAway_raise {α : Type} {F : UserWorld → Prop} (error : Exn) :
    (Prog.raise error : Db α).Amid t F TurnedAway :=
  ⟨error, rfl⟩

theorem TurnedAway.bind {α β : Type} {F : UserWorld → Prop} {p : Db α} {next : α → Db β}
    (h : p.Amid t F TurnedAway) : (p.bind next).Amid t F TurnedAway :=
  Prog.Amid.bind h (fun _ ⟨_, heq⟩ => nomatch heq) fun error _ => ⟨error, rfl⟩

/-- Whoever looks for the user finds nobody. -/
theorem absent_get {β : Type} {F : UserWorld → Prop} {Q : Except Exn β → Prop}
    {next : Option (Nat × User) → Db β} (habsent : ∀ w, F w → Absent userId w)
    (hnone : (next none).Amid t F Q) : (Users.get userId >>= next).Amid t F Q := by
  apply Prog.Amid.scalar_bind
  intro w choice rows w' hF hexec
  have hmatch : ∀ (id : Nat) (_ : User), (id == userId) = true → id = userId :=
    fun _ _ => beq_iff_eq.mp
  obtain rfl := exec_select_gone hmatch (habsent w hF) hexec
  exact hnone

/-- The token is the user's, and the user is not there. -/
def Orphaned {T : database.Table} (key : database.Row T → String) (owner : database.Row T → Nat)
    (tokenHash : String) (userId : Nat) (w : UserWorld) : Prop :=
  Absent userId w ∧ OnlyFor key owner tokenHash userId w

/-- Whoever shows the token is given a row of the user, or none. -/
theorem orphaned_bind {β : Type} {T : database.Table} {key : database.Row T → String}
    {owner : database.Row T → Nat} {tokenHash : String}
    {next : Option (Nat × database.Row T) → Db β}
    (hnone : (next none).Amid t (Orphaned key owner tokenHash userId) TurnedAway)
    (hsome : ∀ id row, owner row = userId →
      (next (some (id, row))).Amid t (Orphaned key owner tokenHash userId) TurnedAway) :
    (Prog.scalarForUpdate T (fun _ row => key row == tokenHash) >>= next).Amid t
      (Orphaned key owner tokenHash userId) TurnedAway := by
  refine (Prog.Amid.scalarForUpdate (J := fun row => owner row = userId) ?_).bind ?_ ?_
  · exact fun w id row hF hversion hmatch => hF.2 id row hversion (beq_iff_eq.mp hmatch)
  · rintro found ⟨_, ⟨⟩, howner⟩
    cases found with
    | none => exact hnone
    | some e => exact hsome e.1 e.2 (howner e rfl)
  · rintro error ⟨_, ⟨⟩, _⟩

theorem refresh_turnedAway {rawToken : String} :
    (refresh context rawToken).Amid t (Orphaned sessionKey sessionUser
      (hashRefreshToken context.crypto rawToken) userId) TurnedAway := by
  refine orphaned_bind (turnedAway_raise _) fun sessionId session howner => ?_
  change session.userId = userId at howner
  apply Prog.Amid.perform_bind
  intro w choice now w' _ hexec
  rw [howner]
  split
  · exact turnedAway_raise _
  · exact absent_get (fun _ hF => hF.1) (turnedAway_raise _)

theorem resetPassword_turnedAway {rawToken newPassword : String} :
    (resetPassword context rawToken newPassword).Amid t (Orphaned (tokenKey .passwordReset)
      (tokenUser .passwordReset) (context.crypto.sha256 rawToken) userId) TurnedAway := by
  apply Prog.Amid.perform_bind
  intro w choice startedAt w' _ hexec
  refine orphaned_bind (turnedAway_raise _) fun tokenId resetToken howner => ?_
  change resetToken.userId = userId at howner
  apply Prog.Amid.perform_bind
  intro w choice now w' _ hexec
  rw [howner]
  split
  · exact turnedAway_raise _
  · exact absent_get (fun _ hF => hF.1) (turnedAway_raise _)

theorem confirmEmail_turnedAway {rawToken : String} :
    (confirmEmail context rawToken).Amid t (Orphaned (tokenKey .confirmation)
      (tokenUser .confirmation) (context.crypto.sha256 rawToken) userId) TurnedAway := by
  apply Prog.Amid.perform_bind
  intro w choice startedAt w' _ hexec
  refine orphaned_bind (turnedAway_raise _) fun tokenId confirmation howner => ?_
  change confirmation.userId = userId at howner
  apply Prog.Amid.perform_bind
  intro w choice now w' _ hexec
  rw [howner]
  split
  · exact turnedAway_raise _
  · exact absent_get (fun _ hF => hF.1) (turnedAway_raise _)

/-- Whatever the credential leads to is the user's, and the user is not there. -/
def Worthless (context : Context) (userId : Nat) : Credential → UserWorld → Prop
  | .accessToken token, w => Absent userId w ∧ ∀ now claims,
      context.crypto.decode token now = some claims → claims.sub = userId
  | .refreshToken rawToken, w =>
      Orphaned sessionKey sessionUser (hashRefreshToken context.crypto rawToken) userId w
  | .mailedToken kind rawToken, w =>
      Orphaned (tokenKey kind) (tokenUser kind) (context.crypto.sha256 rawToken) userId w

theorem getCurrentUser_turnedAway {token : String} :
    (getCurrentUser context (some token)).Amid t (Worthless context userId (.accessToken token))
      TurnedAway := by
  apply Prog.Amid.perform_bind
  intro w choice checkedAt w' hF _
  cases hclaims : context.crypto.decode token checkedAt with
  | none => exact turnedAway_raise _
  | some claims =>
      apply Prog.Amid.perform_bind
      intro w choice startedAt w' _ _
      rw [hF.2 checkedAt claims hclaims]
      exact absent_get (fun _ hF => hF.1) (turnedAway_raise _)

/-- **One request.** A request with a credential that is worthless whenever it looks is turned
away. -/
theorem handler_turnedAway {request : UserRequest} {credential : Credential}
    (hcredential : request.credential = some credential) :
    (request.handler context legalPages eventIds).Amid t (Worthless context userId credential)
      TurnedAway := by
  have haccess : ∀ {α : Type} {credentials : Option String} {next : Int × Nat × User → Db α},
      credentials.map Credential.accessToken = some credential →
      ((getCurrentUser context credentials).bind next).Amid t
        (Worthless context userId credential) TurnedAway := by
    intro α credentials next hmap
    obtain ⟨token, rfl, rfl⟩ := Option.map_eq_some_iff.mp hmap
    exact TurnedAway.bind getCurrentUser_turnedAway
  cases request with
  | changePassword | getProfile | deleteProfile | updateMarketingConsents | addFavorite
  | removeFavorite => exact TurnedAway.bind (haccess hcredential)
  | refresh rawToken =>
      cases hcredential
      exact TurnedAway.bind refresh_turnedAway
  | resetPassword rawToken newPassword =>
      cases hcredential
      exact TurnedAway.bind resetPassword_turnedAway
  | confirmEmail rawToken =>
      cases hcredential
      exact TurnedAway.bind confirmEmail_turnedAway
  | register | resendConfirmation | forgotPassword | login | logout => cases hcredential

/-! ### Runs -/

/-- Access tokens decode to the claims that were put into them, if to any. -/
def DecodesToItsClaims (crypto : Crypto) : Prop :=
  ∀ (payload : AccessTokenPayload) (now : Int) (claims : TokenClaims),
    crypto.decode (crypto.encode payload) now = some claims → claims = payload.claims

section Runs

variable {c c' : UserConfig}
  (h : Transition.Reachable (userSystem context legalPages eventIds).step Unissued
    Transition.anyStep c)
  (h' : Transition.Reachable (userSystem context legalPages eventIds).step (· = c)
    Transition.anyStep c')

include h h'

theorem onlyFor_session {sessionId : Nat} {session : RefreshTokenSession}
    (hsession : (c.world.slot sessionTable sessionId).committed = some session) :
    OnlyFor sessionKey sessionUser session.tokenHash session.userId c'.world :=
  fun _ _ hversion hkey => System.owner_lasts context.crypto.sha256_injective sessions_minted
    (fun _ hc => ⟨hc.1, fun id => hc.1.1.beyond _ _ (hc.2.1 ▸ Nat.zero_le id)⟩) h hsession h'
    hversion hkey

theorem onlyFor_token {kind : TokenKind} {tokenId : Nat} {token : UserToken}
    (htoken : (c.world.slot (tokenTable kind) tokenId).committed = some token) :
    OnlyFor (tokenKey kind) (tokenUser kind) token.tokenHash token.userId c'.world :=
  fun _ _ hversion hkey => System.owner_lasts context.crypto.sha256_injective (tokens_minted kind)
    (fun _ hc => ⟨hc.1, fun id => hc.1.1.beyond _ _ (hc.2.2 kind ▸ Nat.zero_le id)⟩) h htoken h'
    hversion hkey

/-- A credential that was given out to a user is worthless when the user is gone. -/
theorem Credential.IssuedTo.worthless (hdecode : DecodesToItsClaims context.crypto)
    {credential : Credential} (hissued : credential.IssuedTo context userId c.world)
    (hgone : Gone c'.world userTable userId) : Worthless context userId credential c'.world := by
  cases credential with
  | accessToken token =>
      obtain ⟨payload, rfl, rfl⟩ := hissued
      refine ⟨hgone.2, fun now claims hclaims => ?_⟩
      rw [hdecode payload now claims hclaims]
  | refreshToken rawToken =>
      obtain ⟨sessionId, session, hsession, rfl, hhash⟩ := hissued
      exact ⟨hgone.2, hhash ▸ onlyFor_session h h' hsession⟩
  | mailedToken kind rawToken =>
      obtain ⟨tokenId, token, htoken, rfl, hhash⟩ := hissued
      exact ⟨hgone.2, hhash ▸ onlyFor_token h h' htoken⟩

end Runs

/-- **Accounts are deleted for good.** In every reachable state, the deletion of an account by its
user needs the password. With a wrong one it ends in an error and no row has changed. With the right
one the rows that belong to the user are gone, and no other row has changed; if no lock stands in
its way, the request gets there. Once a deletion has succeeded, no request that arrives in the rest
of the run with a credential of the user succeeds, whenever the credential was given out. -/
theorem account_deleted_for_good (hdecode : DecodesToItsClaims context.crypto) {c : UserConfig}
    (h : Transition.Reachable (userSystem context legalPages eventIds).step Unissued
      Transition.anyStep c) (userId : Nat) :
    (∀ (t : Txn) (credentials : Option String) (password : String) (user : User),
      c.client t = none → (c.world.slot userTable userId).committed = some user →
      authenticatedAs context credentials c.world.clock = some userId →
      (LocksFree t c.world →
        ∃ r w', (deleteAccount context credentials password).Runs t c.world r w')
      ∧ ∀ r w', (deleteAccount context credentials password).Runs t c.world r w' →
        (user.emailVerifiedAt ≠ none →
          verifyPassword context.crypto password user.passwordHash = .ok true →
          r = .ok () ∧ ∀ T id, (BelongsTo c.world userId T id → w'.slot T id = Slot.empty)
            ∧ (¬ BelongsTo c.world userId T id → w'.slot T id = c.world.slot T id))
        ∧ (verifyPassword context.crypto password user.passwordHash ≠ .ok true →
          (∃ error, r = .error error) ∧ w'.slot = c.world.slot))
    ∧ (Deleted userId c → ∀ c₁ c₂ c' : UserConfig,
      Transition.Reachable (userSystem context legalPages eventIds).step (· = c)
        Transition.anyStep c₂ →
      Transition.Reachable (userSystem context legalPages eventIds).step (· = c₂)
        Transition.anyStep c' →
      Transition.Reachable (userSystem context legalPages eventIds).step Unissued
        Transition.anyStep c₁ →
      Transition.Reachable (userSystem context legalPages eventIds).step (· = c₁)
        Transition.anyStep c₂ →
      ∀ (t : Txn) (request : UserRequest) (credential : Credential),
        c₂.client t = none → c'.world.request t = some request →
        request.credential = some credential → credential.IssuedTo context userId c₁.world →
        ∀ reply, c'.outcome t ≠ some (.ok reply)) := by
  have hinit : ∀ c : UserConfig, Unissued c → c.Initial := fun _ hc => hc.1
  refine ⟨?_, ?_⟩
  · intro t credentials password user hnew huser hauthenticated
    have hholds := erasures_verified.holds (fun c hc => ⟨hinit c hc, trivial⟩)
      (h.mono fun _ _ _ => Config.meets_of_forall fun _ _ _ => trivial)
    have hfresh : ∀ T id, ¬ (c.world.slot T id).HeldBy t := by
      have hstands := hholds.stands t
      unfold Discipline.Stands at hstands
      rw [hnew] at hstands
      exact hstands.1.unlocked
    refine ⟨fun hfree => hfree.exists_runs hholds.sound _, fun r w' hruns => ⟨?_, ?_⟩⟩
    · intro hverified hright
      obtain ⟨hr, herased⟩ := deleteAccount_erases hfresh huser hauthenticated hruns hholds.sound
        hverified hright
      exact ⟨hr, fun T id => ⟨herased.inside T id, herased.outside T id⟩⟩
    · exact deleteAccount_refuses hfresh huser hauthenticated hruns
  · intro hdeleted c₁ c₂ c' hlater hserved hissuing hpresented t request credential hnew hrequest
      hcredential hissued reply houtcome
    have hgone := gone_lasts hinit h (Deleted.gone hinit h hdeleted) hlater
    have hworthless : ∀ d, Transition.Reachable (userSystem context legalPages eventIds).step
        (· = c₂) Transition.anyStep d → Worthless context userId credential d.world :=
      fun d hd => hissued.worthless hissuing (hpresented.trans hd) hdecode
        (gone_lasts hinit (h.trans hlater) hgone hd)
    obtain ⟨error, herror⟩ := System.outcome_amid hworthless ⟨_, rfl⟩
      (handler_turnedAway hcredential) hnew hserved hrequest houtcome
    cases herror

/-! ### Ona's account -/

/-- The tokens are signed here, the one for Ona as "access". -/
def signingContext : Context :=
  { plainContext with
    crypto :=
      { plainContext.crypto with
        encode := fun payload =>
          if payload.claims = { sub := 0, email := "ona@example.lt" } then "access" else "unknown" } }

theorem signingContext_decodes : DecodesToItsClaims signingContext.crypto := by
  intro payload now claims hclaims
  by_cases hona : payload.claims = { sub := 0, email := "ona@example.lt" }
    <;> simp_all [signingContext, plainContext]

/-- She logs in, and is given "access" and "first". -/
def logsIn : List (Label UserRequest) :=
  [.spawn 0 (.login "ona@example.lt" "correct horse"),
    .exec 0 {}, .exec 0 { order := [0] }, .exec 0 { token := "first" }, .exec 0 {}, .exec 0 {},
    .exec 0 {}, .exec 0 {}, .exec 0 { token := "jti" }, .close 0]

/-- She deletes the account. -/
def deletesAccount : List (Label UserRequest) :=
  [.spawn 1 (.deleteProfile (some "access") "correct horse"),
    .exec 1 {}, .exec 1 {}, .exec 1 { order := [0] }, .exec 1 { order := [0] }, .exec 1 {},
    .exec 1 {}, .exec 1 {}, .exec 1 { order := [0] }, .exec 1 {}, .exec 1 {}, .close 1]

/-- Somebody shows her refresh token. -/
def refreshesLate : List (Label UserRequest) := [.spawn 2 (.refresh "first"), .exec 2 {}, .close 2]

theorem smallService_unissued : Unissued (smallService UserRequest Exn UserReply) :=
  ⟨smallService_initial _ _ _, rfl, fun _ => rfl⟩

/-- Ona's account is deleted with her password, and her refresh token is not taken afterwards. -/
theorem account_deleted_for_good_ona :
    ∃ c₁ c₂ c₃ : UserConfig,
      Transition.run (userSystem signingContext [] []).step (smallService _ _ _) logsIn = some c₁
        ∧ Transition.run (userSystem signingContext [] []).step c₁ deletesAccount = some c₂
        ∧ Transition.run (userSystem signingContext [] []).step c₂ refreshesLate = some c₃
        ∧ (∀ r w', (deleteAccount signingContext (some "access") "correct horse").Runs 1 c₁.world
            r w' → r = .ok () ∧ w'.slot userTable 0 = Slot.empty)
        ∧ (c₃.outcome 2).isSome ∧ ∀ reply, c₃.outcome 2 ≠ some (.ok reply) := by
  have hrun : (Transition.run (userSystem signingContext [] []).step (smallService _ _ _)
      logsIn).any fun c₁ => decide ((c₁.client 1).isNone
          ∧ (c₁.world.slot sessionTable 0).committed.any (fun session : RefreshTokenSession =>
              session.userId = 0
                ∧ session.tokenHash = hashRefreshToken signingContext.crypto "first")
          ∧ (c₁.world.slot userTable 0).committed.any (fun user : User =>
              user.emailVerifiedAt.isSome
                ∧ verifyPassword signingContext.crypto "correct horse" user.passwordHash = .ok true)
          ∧ authenticatedAs signingContext (some "access") c₁.world.clock = some 0)
        && (Transition.run (userSystem signingContext [] []).step c₁ deletesAccount).any fun c₂ =>
          decide ((c₂.client 2).isNone
              ∧ c₂.world.request 1 = some (.deleteProfile (some "access") "correct horse")
              ∧ c₂.outcome 1 = some (.ok .noContent) ∧ Did (findsUser 0) 1 c₂.world.trace)
            && (Transition.run (userSystem signingContext [] []).step c₂ refreshesLate).any
              fun c₃ => decide (c₃.world.request 2 = some (.refresh "first")
                ∧ (c₃.outcome 2).isSome) := by decide
  obtain ⟨c₁, hrun₁, hrun⟩ := (Option.any_eq_true _ _).mp hrun
  obtain ⟨hholds, hrun⟩ := Bool.and_eq_true_iff.mp hrun
  obtain ⟨hnew₁, hsession, huser, hauthenticated⟩ := of_decide_eq_true hholds
  obtain ⟨session, hsession, howner⟩ := (Option.any_eq_true _ _).mp hsession
  obtain ⟨user, huser, hright⟩ := (Option.any_eq_true _ _).mp huser
  obtain ⟨c₂, hrun₂, hrun⟩ := (Option.any_eq_true _ _).mp hrun
  obtain ⟨hdeletes, hrun⟩ := Bool.and_eq_true_iff.mp hrun
  obtain ⟨hnew₂, hrequest, hreply, hfinds⟩ := of_decide_eq_true hdeletes
  obtain ⟨c₃, hrun₃, hrun⟩ := (Option.any_eq_true _ _).mp hrun
  obtain ⟨hlate, hanswered⟩ := of_decide_eq_true hrun
  obtain ⟨howner, hhash⟩ := of_decide_eq_true howner
  obtain ⟨hverified, hright⟩ := of_decide_eq_true hright
  have hreach₁ : Transition.Reachable (userSystem signingContext [] []).step Unissued
      Transition.anyStep c₁ :=
    Transition.reachable_of_run smallService_unissued logsIn (fun _ _ _ _ _ _ _ => trivial) hrun₁
  have hreach₂ : Transition.Reachable (userSystem signingContext [] []).step (· = c₁)
      Transition.anyStep c₂ :=
    Transition.reachable_of_run (by rfl) deletesAccount (fun _ _ _ _ _ _ _ => trivial) hrun₂
  have hreach₃ : Transition.Reachable (userSystem signingContext [] []).step (· = c₂)
      Transition.anyStep c₃ :=
    Transition.reachable_of_run (by rfl) refreshesLate (fun _ _ _ _ _ _ _ => trivial) hrun₃
  refine ⟨c₁, c₂, c₃, hrun₁, hrun₂, hrun₃, fun r w' hruns => ?_, hanswered, ?_⟩
  · obtain ⟨hdeletion, -⟩ := account_deleted_for_good signingContext_decodes hreach₁ 0
    obtain ⟨hr, herased⟩ := ((hdeletion 1 _ _ user (Option.isNone_iff_eq_none.mp hnew₁) huser
      hauthenticated).2 r w' hruns).1 (Option.isSome_iff_ne_none.mp hverified) hright
    exact ⟨hr, (herased _ _).1 .user⟩
  · obtain ⟨-, hlater⟩ := account_deleted_for_good signingContext_decodes
      (hreach₁.trans hreach₂) 0
    exact hlater ⟨1, _, _, _, hrequest, hreply, hfinds⟩ c₁ c₂ c₃ (.start rfl) hreach₃ hreach₁
      hreach₂ 2 _ _ (Option.isNone_iff_eq_none.mp hnew₂) hlate rfl
      ⟨0, session, hsession, howner, hhash⟩

end EventsApi
