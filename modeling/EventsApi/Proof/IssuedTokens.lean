import EventsApi.Library.ReadCommitted.Minting
import EventsApi.Proof.CurrentUser

/-!
# Whose tokens the service gives out

Every request draws the refresh, confirmation and reset tokens that it gives out, stores the hash of
each in one row of the user it is for, and commits once. So no token ever comes to stand for another
user.
-/

namespace EventsApi

open ReadCommitted

abbrev sessionUser : database.Row sessionTable → Nat := RefreshTokenSession.userId

abbrev tokenUser (kind : TokenKind) : database.Row (tokenTable kind) → Nat := UserToken.userId

variable {context : Context} {legalPages : List LegalPage} {eventIds : List Int}

section Spares

variable {T : database.Table} {key : database.Row T → String} {owner : database.Row T → Nat}

theorem sparesTokens_modest : Modest (SparesTokens key owner) where
  select _ _ _ := trivial
  keep T' id p h row := by
    subst h
    constructor
    · rintro _ _ ⟨⟩
      exact ⟨rfl, rfl⟩
    · rintro _ _ ⟨⟩
      exact ⟨rfl, rfl⟩
  delete T' id p _ h row := by
    subst h
    constructor
    · rintro _ _ ⟨⟩
    · rintro _ _ ⟨⟩
      exact ⟨rfl, rfl⟩
  now := trivial
  draw := trivial

theorem sparesTokens_finding : Finding (SparesTokens key owner) := fun _ => trivial

theorem sparesTokens_inserting {T' : Table} (hne : T' ≠ T) :
    Inserting (SparesTokens key owner) T' :=
  fun _ h => absurd h hne

theorem sparesTokens_lock {T' : Table} (hne : T' ≠ T) (id : Nat) (p : T'.Row → Bool)
    (f : T'.Row → Option T'.Row) :
    SparesTokens key owner _ (.lock (S := database) T' id p f) :=
  fun h => absurd h hne

/-- The request makes tokens of this table. -/
def UserRequest.mintsIn : UserRequest → Table → Bool
  | .register _, .tokens .confirmation | .resendConfirmation _, .tokens .confirmation => true
  | .forgotPassword _, .tokens .passwordReset => true
  | .login _ _, .refreshTokenSessions | .refresh _, .refreshTokenSessions => true
  | _, _ => false

/-- The requests that make no tokens of the table give none of them out. -/
theorem handler_spares (husers : Table.users ≠ T) (hjobs : Table.emailOutboxJobs ≠ T)
    (hrevoke : RevokingSessions (SparesTokens key owner)) {request : UserRequest}
    (hrequest : request.mintsIn T = false) :
    (request.handler context legalPages eventIds).All (SparesTokens key owner) := by
  have hm : Modest (SparesTokens key owner) := sparesTokens_modest
  have hf : Finding (SparesTokens key owner) := sparesTokens_finding
  have hi : ∀ {T'}, T' ≠ T → Inserting (SparesTokens key owner) T' := sparesTokens_inserting
  have hpassword : SettingPasswords (SparesTokens key owner) := fun _ _ _ =>
    sparesTokens_lock husers _ _ _
  have hfavorites : ChangingFavorites (SparesTokens key owner) := fun _ _ _ _ =>
    sparesTokens_lock husers _ _ _
  cases request with
  | register payload =>
      have hT : Table.tokens .confirmation ≠ T := by
        rintro rfl
        cases hrequest
      exact (hm.register trivial hf (hi hjobs) (hi husers) (hi hT) _).bind fun _ => trivial
  | confirmEmail token =>
      refine (hm.confirmEmail trivial hf ?_ _).bind fun _ => trivial
      exact fun _ _ _ => sparesTokens_lock husers _ _ _
  | resendConfirmation email =>
      have hT : Table.tokens .confirmation ≠ T := by
        rintro rfl
        cases hrequest
      exact (hm.resendConfirmation trivial hf (hi hjobs) (hi hT) _).bind fun _ => trivial
  | forgotPassword email =>
      have hT : Table.tokens .passwordReset ≠ T := by
        rintro rfl
        cases hrequest
      exact (hm.forgotPassword trivial hf (hi hjobs) (hi hT) _).bind fun _ => trivial
  | resetPassword token newPassword =>
      exact (hm.resetPassword trivial hf hpassword hrevoke _ _).bind fun _ => trivial
  | changePassword credentials currentPassword newPassword =>
      exact (hm.changePassword trivial hf hpassword hrevoke _ _ _).bind fun _ => trivial
  | login email password =>
      have hT : Table.refreshTokenSessions ≠ T := by
        rintro rfl
        cases hrequest
      exact (hm.login trivial hf (hi hT) _ _).bind fun _ => trivial
  | refresh refreshToken =>
      have hT : Table.refreshTokenSessions ≠ T := by
        rintro rfl
        cases hrequest
      refine (hm.refresh trivial hf ?_ _).bind fun _ => trivial
      exact fun _ _ _ _ => sparesTokens_lock hT _ _ _
  | logout refreshToken => exact (hm.logout trivial hrevoke _).bind fun _ => trivial
  | getProfile credentials =>
      refine ((hm.getCurrentUser hf credentials).bind fun _ => ?_).bind fun _ => trivial
      trivial
  | deleteProfile credentials password =>
      refine (hm.deleteAccount trivial hf ?_ _ _).bind fun _ => trivial
      exact fun _ _ => sparesTokens_lock husers _ _ _
  | updateMarketingConsents credentials payload =>
      refine ((hm.getCurrentUser hf credentials).bind fun _ => ?_).bind fun _ => trivial
      refine hm.updateMarketingConsents trivial hf ?_ _ _ _
      exact fun _ _ _ _ => sparesTokens_lock husers _ _ _
  | addFavorite credentials eventId =>
      refine ((hm.getCurrentUser hf credentials).bind fun _ => ?_).bind fun _ => trivial
      dsimp only
      split
      · exact (hf.addFavorite trivial hfavorites _ _ _).bind fun _ => trivial
      · trivial
  | removeFavorite credentials eventId =>
      refine ((hm.getCurrentUser hf credentials).bind fun _ => ?_).bind fun _ => trivial
      exact (hf.removeFavorite trivial hfavorites _ _ _).bind fun _ => trivial

end Spares

/-! ### Refresh tokens -/

abbrev SparesSessions : ∀ β : Type, Op database β → Prop := SparesTokens sessionKey sessionUser

theorem sparesSessions_revoking : RevokingSessions SparesSessions := by
  intro id p now h row
  cases h
  constructor
  · rintro _ _ ⟨⟩
    exact ⟨rfl, rfl⟩
  · rintro _ _ ⟨⟩
    exact ⟨rfl, rfl⟩

theorem login_mints (email password : String) : (login context email password).Mints sessionKey
    sessionUser context.crypto.sha256 [] := by
  have hspares : Finding SparesSessions := sparesTokens_finding
  refine .perform_bind nofun trivial fun startedAt => .bind (finding_uncommitting.authenticate _ _)
    (hspares.authenticate _ _) fun found => ?_
  obtain ⟨userId, user⟩ := found
  simp only [openSession, createRefreshSession, RefreshSessions.create, insertRow, Prog.draw,
    Prog.now, Prog.commit, Prog.bind_eq, Prog.perform_bind, Prog.exec_bind]
  refine .draw fun rawToken => .keep nofun trivial fun now => .spend nofun ?_ fun answer => ?_
  · rintro ⟨⟩ id
    rfl
  · cases answer with
    | none => exact .raise _ _
    | some sessionId => exact .commit (sparesTokens_modest.authResponse _ _ _)

theorem refresh_mints (rawToken : String) : (refresh context rawToken).Mints sessionKey sessionUser
    context.crypto.sha256 [] := by
  have hspares : Modest SparesSessions := sparesTokens_modest
  refine .bind (ordinary_uncommitting.modest.getSessionForUpdate _) (hspares.getSessionForUpdate _)
    fun found => ?_
  split
  · exact .raise _ _
  · refine .perform_bind nofun trivial fun now => ?_
    split
    · exact .raise _ _
    · refine .bind (finding_uncommitting.get _) (sparesTokens_finding.get _) fun found => ?_
      split
      · exact .raise _ _
      · split
        · exact .raise _ _
        · simp only [updateRow, Prog.draw, Prog.commit, Prog.bind_eq, Prog.perform_bind,
            Prog.exec_bind]
          refine .draw fun replacement => .spend nofun ?_ fun answer => ?_
          · intro h row
            cases h
            constructor
            · rintro _ _ ⟨⟩
              exact ⟨rfl, .inr rfl⟩
            · rintro _ _ ⟨⟩
              exact ⟨rfl, .inl rfl⟩
          · cases answer with
            | none => exact .raise _ _
            | some session => exact .commit (hspares.authResponse _ _ _)

theorem sessions_minted (request : UserRequest) :
    (request.handler context legalPages eventIds).Mints sessionKey sessionUser
      context.crypto.sha256 [] := by
  cases hrequest : request.mintsIn .refreshTokenSessions with
  | false =>
      refine .of_all (handler_spares ?_ ?_ sparesSessions_revoking hrequest)
      · exact nofun
      · exact nofun
  | true =>
      cases request with
      | login email password => exact (login_mints _ _).bind_of_all fun _ => trivial
      | refresh refreshToken => exact (refresh_mints _).bind_of_all fun _ => trivial
      | register | confirmEmail | resendConfirmation | forgotPassword | resetPassword
      | changePassword | logout | getProfile | deleteProfile | updateMarketingConsents
      | addFavorite | removeFavorite => cases hrequest

/-! ### Confirmation and reset tokens -/

section Tokens

variable {kind : TokenKind}

abbrev SparesKind (kind : TokenKind) : ∀ β : Type, Op database β → Prop :=
  SparesTokens (tokenKey kind) (tokenUser kind)

theorem replace_mints {α : Type} {userId : Nat} {rawToken : String} {expiresAt startedAt : Int}
    {own : List String} {next : Nat → Db α}
    (hnext : ∀ tokenId, (next tokenId).Mints (tokenKey kind) (tokenUser kind) context.crypto.sha256
      own) :
    ((UserTokens.replace kind userId (context.crypto.sha256 rawToken) expiresAt startedAt).bind
      next).Mints (tokenKey kind) (tokenUser kind) context.crypto.sha256 (rawToken :: own) := by
  have hspares : Modest (SparesKind kind) := sparesTokens_modest
  rw [UserTokens.replace, Prog.bind_eq, Prog.bind_assoc]
  refine .bind (ordinary_uncommitting.modest.deleteForUser _ _) (hspares.deleteForUser _ _)
    fun _ => .spend nofun ?_ fun answer => ?_
  · rintro ⟨⟩ id
    rfl
  · cases answer with
    | none => exact .raise _ _
    | some tokenId => exact hnext tokenId

theorem enqueueJob_mints {α : Type} {message : EmailMessage} {now : Int}
    {confirmationTokenId passwordResetTokenId : Option Nat} {own : List String} {next : Db α}
    (hnext : next.Mints (tokenKey kind) (tokenUser kind) context.crypto.sha256 own) :
    ((EmailOutbox.enqueueJob message now confirmationTokenId passwordResetTokenId).bind
      fun _ => next).Mints (tokenKey kind) (tokenUser kind) context.crypto.sha256 own := by
  have hspares : Inserting (SparesKind kind) .emailOutboxJobs := sparesTokens_inserting nofun
  exact .bind ((inserting_uncommitting _).enqueueJob _ _ _ _) (hspares.enqueueJob _ _ _ _)
    fun _ => hnext

theorem sendToken_mints {cooldown expiresIn : Duration}
    {email : User → String → Nat → Int → EmailMessage} {message : String} {userId : Nat}
    {user : User} {startedAt : Int} :
    (sendToken context kind cooldown expiresIn email message userId user startedAt).Mints
      (tokenKey kind) (tokenUser kind) context.crypto.sha256 [] := by
  refine .perform_bind nofun trivial fun now => ?_
  have hopen := ordinary_uncommitting.select (tokenTable kind)
  refine .bind (Prog.All.scalar (hopen _ nofun)) (Prog.All.scalar trivial) fun existing => ?_
  split
  · exact .pure _ _
  · exact .draw_bind fun rawToken => replace_mints fun tokenId => enqueueJob_mints (.commit trivial)

theorem forgotPassword_mints (email : String) : (forgotPassword context email).Mints
    (tokenKey .passwordReset) (tokenUser .passwordReset) context.crypto.sha256 [] := by
  refine .perform_bind nofun trivial fun startedAt => ?_
  refine .bind (finding_uncommitting.getByEmail _) (sparesTokens_finding.getByEmail _)
    fun found => ?_
  split
  · exact .pure _ _
  · split
    · exact .pure _ _
    · exact sendToken_mints

theorem resendConfirmation_mints (email : String) : (resendConfirmation context email).Mints
    (tokenKey .confirmation) (tokenUser .confirmation) context.crypto.sha256 [] := by
  refine .perform_bind nofun trivial fun startedAt => ?_
  refine .bind (finding_uncommitting.getByEmail _) (sparesTokens_finding.getByEmail _)
    fun found => ?_
  split
  · exact .pure _ _
  · split
    · exact .pure _ _
    · exact sendToken_mints

theorem createAccount_mints (payload : RegisterRequest) (termsVersion rawToken : String)
    (now startedAt : Int) :
    (createAccount context payload termsVersion rawToken now startedAt).Mints
      (tokenKey .confirmation) (tokenUser .confirmation) context.crypto.sha256 [rawToken] := by
  have husers : Inserting (SparesKind .confirmation) .users := sparesTokens_inserting nofun
  refine .perform_bind nofun trivial fun salt => ?_
  refine .bind (Prog.All.ofExcept _) (Prog.All.ofExcept _) fun passwordHash => ?_
  refine .bind ((inserting_uncommitting .users).insertRow.bind fun _ => trivial)
    (husers.insertRow.bind fun _ => trivial) fun created => ?_
  exact replace_mints fun tokenId => enqueueJob_mints (.commit trivial)

theorem register_mints (payload : RegisterRequest) : (register context legalPages payload).Mints
    (tokenKey .confirmation) (tokenUser .confirmation) context.crypto.sha256 [] := by
  refine .perform_bind nofun trivial fun startedAt => ?_
  refine .bind (finding_uncommitting.getByEmail _) (sparesTokens_finding.getByEmail _)
    fun found => ?_
  split
  · exact .raise _ _
  · split
    · exact .raise _ _
    · refine .draw_bind fun rawToken => .perform_bind nofun trivial fun now => ?_
      exact (createAccount_mints _ _ _ _ _).mapError.bind_of_all fun _ => trivial

end Tokens

theorem tokens_minted (kind : TokenKind) (request : UserRequest) :
    (request.handler context legalPages eventIds).Mints (tokenKey kind) (tokenUser kind)
      context.crypto.sha256 [] := by
  cases hrequest : request.mintsIn (.tokens kind) with
  | false =>
      have hsessions : Table.refreshTokenSessions ≠ .tokens kind := nofun
      refine .of_all (handler_spares ?_ ?_ ?_ hrequest)
      · exact nofun
      · exact nofun
      · exact fun _ _ _ => sparesTokens_lock hsessions _ _ _
  | true =>
      cases request with
      | register payload =>
          cases kind with
          | confirmation => exact (register_mints _).bind_of_all fun _ => trivial
          | passwordReset => cases hrequest
      | resendConfirmation email =>
          cases kind with
          | confirmation => exact (resendConfirmation_mints _).bind_of_all fun _ => trivial
          | passwordReset => cases hrequest
      | forgotPassword email =>
          cases kind with
          | confirmation => cases hrequest
          | passwordReset => exact (forgotPassword_mints _).bind_of_all fun _ => trivial
      | login | refresh | confirmEmail | resetPassword | changePassword | logout | getProfile
      | deleteProfile | updateMarketingConsents | addFavorite | removeFavorite => cases hrequest

end EventsApi
