import EventsApi.Proof.AccountRecords

/-!
# Who may act for an address

Every request keeps the origins of the rows of accounts: it knows what its rows need from what it was
asked for and what it has read. So in every run a password was given by somebody entitled to, and
sessions are those of users with a confirmed address.
-/

namespace EventsApi

open ReadCommitted

variable {context : Context} {legalPages : List LegalPage} {eventIds : List Int}
  {start : UserWorld} {t : Txn} {w w' : UserWorld}

/-! ### Requests -/

theorem lasts_request {request : UserRequest} :
    Lasts fun w => w.request t = some request :=
  fun h hlater => hlater.request _ _ h

theorem safe_confirmEmail {rawToken : String} (h : w.request t = some (.confirmEmail rawToken)) :
    (origins context start).Safe t (fun _ _ => True) (confirmEmail context rawToken) w := by
  refine safe_neutral_bind lasts_request neutral_now h fun startedAt w h => ?_
  have hfound := @safe_getForUpdate context start t w .confirmation rawToken
  refine (Discipline.Safe.frame lasts_request.stable (fun hop h hsound hinv hexec =>
    lasts_request h (origins_keeps hsound hinv hexec (Neutral.lawful hop hexec)).2)
    (neutral_modest.getForUpdate _ _) hfound h).bind (fun found w h => ?_) fun _ _ _ => trivial
  obtain ⟨hshown, h⟩ := h
  split
  · trivial
  · rename_i tokenId confirmation
    have hlasts : Lasts fun w => Shown .confirmation rawToken confirmation.userId w
        ∧ w.request t = some (.confirmEmail rawToken) :=
      fun h hlater => ⟨lasts_shown h.1 hlater, lasts_request h.2 hlater⟩
    refine safe_neutral_bind hlasts neutral_now ⟨hshown _ rfl, h⟩ fun now w h => ?_
    split
    · trivial
    · refine (safe_find hlasts _ h).bind_onSuccess (fun found w h => ?_) fun _ _ => trivial
      split
      · trivial
      · rename_i userId user
        obtain ⟨⟨⟨address, hissued, haddress⟩, hrequest⟩, hfound⟩ := h
        obtain rfl : userId = confirmation.userId := beq_iff_eq.mp (hfound _ rfl).1
        have hlasts : Lasts fun w => Addressed address confirmation.userId w
            ∧ ConfirmedFor start w address :=
          fun h hlater => ⟨hlater.address _ _ h.1, h.2.later hlater⟩
        refine (safe_updateUser hlasts (fun w h => h.1) (fun w user h hemail hearned => ?_)
          ⟨haddress, .inr ⟨t, rawToken, hrequest, hissued⟩⟩).bind (fun _ w _ => ?_)
          fun _ _ _ => trivial
        · exact ⟨rfl, ⟨hearned.password, fun _ => hemail ▸ h.2⟩⟩
        · refine safe_neutral_bind lasts_true (neutral_modest.deleteForUser .confirmation _) trivial
            fun _ w _ => ?_
          exact safe_neutral lasts_true (p := Prog.commit) ⟨neutral_commit, fun _ => trivial⟩
            trivial

theorem safe_resetPassword {rawToken newPassword : String}
    (h : w.request t = some (.resetPassword rawToken newPassword)) :
    (origins context start).Safe t (fun _ _ => True) (resetPassword context rawToken newPassword)
      w := by
  refine safe_neutral_bind lasts_request neutral_now h fun startedAt w h => ?_
  have hfound := @safe_getForUpdate context start t w .passwordReset rawToken
  refine (Discipline.Safe.frame lasts_request.stable (fun hop h hsound hinv hexec =>
    lasts_request h (origins_keeps hsound hinv hexec (Neutral.lawful hop hexec)).2)
    (neutral_modest.getForUpdate _ _) hfound h).bind (fun found w h => ?_) fun _ _ _ => trivial
  obtain ⟨hshown, h⟩ := h
  split
  · trivial
  · rename_i tokenId resetToken
    have hlasts : Lasts fun w => Shown .passwordReset rawToken resetToken.userId w
        ∧ w.request t = some (.resetPassword rawToken newPassword) :=
      fun h hlater => ⟨lasts_shown h.1 hlater, lasts_request h.2 hlater⟩
    refine safe_neutral_bind hlasts neutral_now ⟨hshown _ rfl, h⟩ fun now w h => ?_
    split
    · trivial
    · refine (safe_find hlasts _ h).bind_onSuccess (fun found w h => ?_) fun _ _ => trivial
      split
      · trivial
      · rename_i userId user
        obtain ⟨h, hfound⟩ := h
        obtain rfl : userId = resetToken.userId := beq_iff_eq.mp (hfound _ rfl).1
        refine safe_neutral_bind hlasts neutral_draw h fun salt w h => ?_
        cases hhash : hashPassword context.crypto newPassword salt with
        | error error => trivial
        | ok passwordHash =>
            obtain ⟨⟨address, hissued, haddress⟩, hrequest⟩ := h
            exact safe_storePassword ⟨address, haddress, .reset hrequest hissued hhash⟩

/-- What a transaction knows of the user that its access token names. -/
def Authenticated (context : Context) (start : UserWorld) (credentials : Option String)
    (userId : Nat) (user : User) (w : UserWorld) : Prop :=
  (∃ now, authenticatedAs context credentials now = some userId)
    ∧ Known context start userId user w

theorem safe_getCurrentUser_known {credentials : Option String} : (origins context start).Safe t
    (Discipline.OnSuccess fun current w =>
      Authenticated context start credentials current.2.1 current.2.2 w)
    (getCurrentUser context credentials) w := by
  unfold getCurrentUser
  split
  · trivial
  · rename_i token
    refine (safe_neutral lasts_true neutral_now trivial).bind (fun checkedAt w _ => ?_)
      fun _ _ _ => trivial
    split
    · trivial
    · rename_i claims hdecode
      refine (safe_neutral lasts_true neutral_now trivial).bind (fun startedAt w _ => ?_)
        fun _ _ _ => trivial
      refine (safe_find lasts_true _ trivial).bind_onSuccess (fun found w h => ?_)
        fun _ _ => trivial
      split
      · trivial
      · rename_i userId user
        obtain ⟨hid, hknown⟩ := h.2 _ rfl
        obtain rfl : userId = claims.sub := beq_iff_eq.mp hid
        split
        · trivial
        · refine ⟨⟨checkedAt, ?_⟩, hknown⟩
          rw [authenticatedAs, Option.bind_some, hdecode]
          rfl

theorem safe_changePassword {credentials : Option String} {currentPassword newPassword : String}
    (h : w.request t = some (.changePassword credentials currentPassword newPassword)) :
    (origins context start).Safe t (fun _ _ => True)
      (changePassword context credentials currentPassword newPassword) w := by
  refine (Discipline.Safe.frame lasts_request.stable (fun hop h hsound hinv hexec =>
    lasts_request h (origins_keeps hsound hinv hexec (Neutral.lawful hop hexec)).2)
    (neutral_modest.getCurrentUser neutral_finding credentials) safe_getCurrentUser_known h).bind
    (fun current w h => ?_) fun _ _ _ => trivial
  obtain ⟨startedAt, userId, user⟩ := current
  obtain ⟨⟨⟨checkedAt, hauthenticated⟩, hknown⟩, hrequest⟩ := h
  dsimp only
  cases hcurrent : verifyPassword context.crypto currentPassword user.passwordHash with
  | error error => trivial
  | ok right =>
      cases right with
      | false => trivial
      | true =>
          cases hreused : verifyPassword context.crypto newPassword user.passwordHash with
          | error error => trivial
          | ok reused =>
              cases reused with
              | true => trivial
              | false =>
                  have hlasts : Lasts fun w => Known context start userId user w
                      ∧ w.request t = some (.changePassword credentials currentPassword
                        newPassword) :=
                    fun h hlater => ⟨lasts_known h.1 hlater, lasts_request h.2 hlater⟩
                  change (origins context start).Safe t _ ((Prog.now : Db Int).bind _) w
                  refine safe_neutral_bind hlasts neutral_now ⟨hknown, hrequest⟩
                    fun now w h => safe_neutral_bind hlasts neutral_draw h fun salt w h => ?_
                  cases hhash : hashPassword context.crypto newPassword salt with
                  | error error => trivial
                  | ok passwordHash =>
                      obtain ⟨⟨haddress, hearned⟩, hrequest⟩ := h
                      exact safe_storePassword ⟨_, haddress, .changed hrequest hauthenticated
                        haddress hearned.password hcurrent hhash⟩

/-- What a transaction must know to open a session. -/
def MayOpen (start : UserWorld) (userId : Nat) (w : UserWorld) : Prop :=
  ∃ address, Addressed address userId w ∧ ConfirmedFor start w address

theorem lasts_mayOpen {userId : Nat} : Lasts (MayOpen start userId) := by
  rintro w w' ⟨address, haddress, hconfirmed⟩ hlater
  exact ⟨address, hlater.address _ _ haddress, hconfirmed.later hlater⟩

theorem safe_authenticate (email password : String) : (origins context start).Safe t
    (Discipline.OnSuccess fun found w => MayOpen start found.1 w)
    (authenticate context email password) w := by
  refine (safe_find lasts_true _ trivial).bind_onSuccess (fun found w h => ?_) fun _ _ => trivial
  cases found with
  | none => trivial
  | some found =>
      obtain ⟨userId, user⟩ := found
      obtain ⟨_, haddress, hearned⟩ := h.2 _ rfl
      unfold checkCredentials
      dsimp only
      cases verifyPassword context.crypto password user.passwordHash with
      | error error => trivial
      | ok right =>
          cases right with
          | false => trivial
          | true =>
              simp only [Prog.ofExcept, Prog.bind_eq, Prog.pure_bind, if_true]
              split
              · trivial
              · rename_i verifiedAt hverified
                refine ⟨user.email, haddress, hearned.confirmed ?_⟩
                rw [hverified]
                exact Option.some_ne_none _

theorem safe_login_confirmed (email password : String) :
    (origins context start).Safe t (fun _ _ => True) (login context email password) w := by
  refine safe_neutral_bind lasts_true neutral_now trivial fun startedAt w _ => ?_
  refine (safe_authenticate email password).bind_onSuccess (fun found w h => ?_) fun _ _ => trivial
  obtain ⟨userId, user⟩ := found
  have hsession : (origins context start).Safe t (fun _ _ => True)
      (createRefreshSession context userId startedAt) w := by
    refine safe_neutral_bind lasts_mayOpen neutral_draw h fun rawToken w h => ?_
    refine safe_neutral_bind lasts_mayOpen neutral_now h fun now w h => ?_
    refine Discipline.Safe.exec (K := fun _ _ => True) lasts_mayOpen.stable h ?_
      fun answer w _ => by cases answer <;> trivial
    intro w choice answer w' h hsound hinv _ hexec
    refine ⟨(origins_keeps hsound hinv hexec ⟨?_, fun kind => ?_, ?_, ?_⟩).1, trivial⟩
    · exact .same (exec_insert_slot_of_table_ne hexec nofun)
    · exact .same (exec_insert_slot_of_table_ne hexec nofun)
    · exact tableStep_insert hexec fun _ _ => h
    · exact .same (exec_insert_slot_of_table_ne hexec nofun)
  refine hsession.bind (fun rawToken w _ => ?_) fun _ _ _ => trivial
  refine safe_neutral lasts_true (Prog.All.perform_bind neutral_commit fun _ => ?_) trivial
  exact neutral_modest.authResponse _ _ _

/-- The user with the address that a token is asked for. -/
theorem safe_getByEmail {kind : TokenKind} {email : String} (h : Asking kind email t w) :
    (origins context start).Safe t (Discipline.OnSuccess fun found w => ∀ e : Nat × User,
      found = some e → Addressed e.2.email e.1 w ∧ Asking kind e.2.email t w)
      (Users.getByEmail email) w := by
  refine (safe_find lasts_asking _ h).mono fun r w h => ?_
  cases r with
  | error error => trivial
  | ok found =>
      intro e hfound
      obtain ⟨hemail, haddress, _⟩ := h.2 e hfound
      obtain rfl := beq_iff_eq.mp hemail
      exact ⟨haddress, h.1⟩

theorem safe_resendConfirmation {email : String} (h : Asking .confirmation email t w) :
    (origins context start).Safe t (fun _ _ => True) (resendConfirmation context email) w := by
  refine safe_neutral_bind lasts_asking neutral_now h fun startedAt w h => ?_
  refine (safe_getByEmail h).bind_onSuccess (fun found w h => ?_) fun _ _ => trivial
  split
  · trivial
  · obtain ⟨haddress, hasking⟩ := h _ rfl
    split
    · trivial
    · exact safe_sendToken haddress hasking

theorem safe_forgotPassword {email : String} (h : Asking .passwordReset email t w) :
    (origins context start).Safe t (fun _ _ => True) (forgotPassword context email) w := by
  refine safe_neutral_bind lasts_asking neutral_now h fun startedAt w h => ?_
  refine (safe_getByEmail h).bind_onSuccess (fun found w h => ?_) fun _ _ => trivial
  split
  · trivial
  · obtain ⟨haddress, hasking⟩ := h _ rfl
    split
    · trivial
    · exact safe_sendToken haddress hasking

theorem safe_createAccount {payload : RegisterRequest} {termsVersion rawToken : String}
    {now startedAt : Int} (hrequest : w.request t = some (.register payload))
    (hissued : IssuedTo .confirmation rawToken payload.email w) :
    (origins context start).Safe t (fun _ _ => True)
      (createAccount context payload termsVersion rawToken now startedAt) w := by
  have hlasts : Lasts fun w => w.request t = some (.register payload)
      ∧ IssuedTo .confirmation rawToken payload.email w :=
    fun h hlater => ⟨lasts_request h.1 hlater, h.2.later hlater⟩
  refine safe_neutral_bind hlasts neutral_draw ⟨hrequest, hissued⟩ fun salt w h => ?_
  cases hhash : hashPassword context.crypto payload.password salt with
  | error error => trivial
  | ok passwordHash =>
      change (origins context start).Safe t _ ((Users.create payload.email passwordHash
        payload.firstName payload.lastName payload.locale now termsVersion
        payload.marketingEmailConsent now payload.marketingPushConsent now startedAt).bind _) w
      refine Discipline.Safe.bind_onSuccess (P := fun created w =>
        MayIssue .confirmation created.1 created.2.email rawToken w) ?_ (fun created w h => ?_)
        fun _ _ => trivial
      · refine (safe_insertUser hlasts (fun w h => ⟨?_, absurd rfl⟩) h).bind_onSuccess
          (fun userId w h => ?_) fun _ _ => trivial
        · exact .registered h.1 rfl hhash
        · exact ⟨h.2, h.1.2⟩
      · obtain ⟨userId, user⟩ := created
        have hcommit : (Prog.commit : Db Unit).All Neutral := ⟨neutral_commit, fun _ => trivial⟩
        exact safe_issue hcommit h

theorem safe_register {payload : RegisterRequest} (h : w.request t = some (.register payload)) :
    (origins context start).Safe t (fun _ _ => True) (register context legalPages payload) w := by
  refine safe_neutral_bind lasts_request neutral_now h fun startedAt w h => ?_
  refine safe_neutral_bind lasts_request (neutral_finding.getByEmail _) h fun found w h => ?_
  split
  · trivial
  · split
    · trivial
    · rename_i termsVersion _
      have hasking : Asking .confirmation payload.email t w := ⟨_, h, .inr ⟨payload, rfl, rfl⟩⟩
      refine (safe_draw lasts_request h hasking).bind_onSuccess (fun rawToken w h => ?_)
        fun _ _ => trivial
      have hlasts : Lasts fun w => w.request t = some (.register payload)
          ∧ IssuedTo .confirmation rawToken payload.email w :=
        fun h hlater => ⟨lasts_request h.1 hlater, h.2.later hlater⟩
      refine safe_neutral_bind hlasts neutral_now h fun now w h => ?_
      have haccount : (origins context start).Safe t (fun _ _ => True)
          ((createAccount context payload termsVersion rawToken now startedAt).mapError
            duplicateOnIntegrityError) w :=
        (safe_createAccount h.1 h.2).mapError (fun _ _ h => h) fun _ _ h => h
      exact haccount.bind (fun _ _ _ => trivial) fun _ _ _ => trivial

/-- **Every request.** -/
theorem safe_userRequest {request : UserRequest} (h : w.request t = some request) :
    (origins context start).Safe t (fun _ _ => True)
      (request.handler context legalPages eventIds) w := by
  have hanswer : ∀ {α : Type} {p : Db α} {f : α → UserReply},
      (origins context start).Safe t (fun _ _ => True) p w →
      (origins context start).Safe t (fun _ _ => True) (p.bind fun value => .pure (f value)) w :=
    fun hp => hp.bind (fun _ _ _ => trivial) fun _ _ _ => trivial
  have hneutral : ∀ {α : Type} {p : Db α}, p.All Neutral →
      (origins context start).Safe t (fun _ _ => True) p w :=
    fun hall => safe_neutral lasts_true hall trivial
  have hm := neutral_modest
  have hf := neutral_finding
  cases request with
  | register payload => exact hanswer (safe_register h)
  | confirmEmail token => exact hanswer (safe_confirmEmail h)
  | resendConfirmation email => exact hanswer (safe_resendConfirmation ⟨_, h, .inl rfl⟩)
  | forgotPassword email => exact hanswer (safe_forgotPassword ⟨_, h, rfl⟩)
  | resetPassword token newPassword => exact hanswer (safe_resetPassword h)
  | changePassword credentials currentPassword newPassword =>
      exact hanswer (safe_changePassword h)
  | login email password => exact hanswer (safe_login_confirmed email password)
  | refresh refreshToken =>
      refine hanswer (hneutral (hm.refresh neutral_commit hf ?_ _))
      exact fun id _ _ _ => neutral_updateSession id _ fun _ => rfl
  | logout refreshToken => exact hanswer (hneutral (hm.logout neutral_commit neutral_revoking _))
  | getProfile credentials =>
      refine hanswer (hneutral ((hm.getCurrentUser hf credentials).bind fun _ => ?_))
      trivial
  | deleteProfile credentials password =>
      refine hanswer (hneutral (hm.deleteAccount neutral_commit hf ?_ _ _))
      exact fun id p => neutral_delete .users id p
  | updateMarketingConsents credentials payload =>
      refine hanswer (hneutral ((hm.getCurrentUser hf credentials).bind fun _ => ?_))
      refine hm.updateMarketingConsents neutral_commit hf ?_ _ _ _
      exact fun id _ _ _ => neutral_updateUser id _ fun _ => ⟨rfl, rfl, rfl⟩
  | addFavorite credentials eventId =>
      refine hanswer (hneutral ((hm.getCurrentUser hf credentials).bind fun _ => ?_))
      dsimp only
      split
      · exact (hf.addFavorite neutral_commit neutral_favorites _ _ _).bind fun _ => trivial
      · trivial
  | removeFavorite credentials eventId =>
      refine hanswer (hneutral ((hm.getCurrentUser hf credentials).bind fun _ => ?_))
      exact (hf.removeFavorite neutral_commit neutral_favorites _ _ _).bind fun _ => trivial

theorem origins_verified : (origins context start).Verified
    (userSystem context legalPages eventIds) fun _ _ _ _ => True where
  stable _ _ _ _ _ _ _ := trivial
  close _ _ _ _ _ _ _ := trivial
  lost _ _ _ _ := trivial
  handler _ _ _ _ _ _ h := safe_userRequest h

/-! ### Runs -/

/-- A service that may have users, but no token, no session and nothing to be mailed. -/
structure OnlyUsers (c : UserConfig) : Prop where
  initial : c.Initial
  tokens : ∀ kind id, c.world.slot (tokenTable kind) id = Slot.empty
  sessions : ∀ id, c.world.slot sessionTable id = Slot.empty
  jobs : ∀ id, c.world.slot jobTable id = Slot.empty

theorem OnlyUsers.origins {c : UserConfig} (h : OnlyUsers c) :
    Origins context c.world c.world := by
  have hcommitted : ∀ {id} {user : User}, (c.world.slot userTable id).HasVersion user →
      (c.world.slot userTable id).committed = some user := by
    rintro id user (hcommitted | ⟨_, hheld⟩)
    · exact hcommitted
    · cases (h.initial.1.unlocked userTable id).symm.trans hheld
  have hnone : ∀ {T : database.Table} {id} {row : database.Row T}, c.world.slot T id = Slot.empty →
      ¬ (c.world.slot T id).HasVersion row := by
    rintro T id row hempty hversion
    rw [hempty] at hversion
    obtain hversion | ⟨_, hversion⟩ := hversion <;> cases hversion
  constructor
  · intro id user user' huser huser'
    cases (hcommitted huser).symm.trans (hcommitted huser')
    rfl
  · intro id user huser
    have huser := hcommitted huser
    exact ⟨.stored huser rfl, fun hverified => .inl ⟨id, user, huser, rfl, hverified⟩⟩
  · exact fun kind id token hversion => absurd hversion (hnone (h.tokens kind id))
  · exact fun id session hversion => absurd hversion (hnone (h.sessions id))
  · exact fun id job hversion => absurd hversion (hnone (h.jobs id))

theorem origins_reachable {c₀ c : UserConfig} (h₀ : OnlyUsers c₀)
    (h : Transition.Reachable (userSystem context legalPages eventIds).step (· = c₀)
      Transition.anyStep c) : Origins context c₀.world c.world := by
  have hinit : ∀ c, c = c₀ → c.Initial ∧ (origins context c₀.world).inv c.world := by
    rintro c rfl
    exact ⟨h₀.initial, h₀.origins⟩
  have hholds := origins_verified.holds hinit
    (h.mono fun _ _ _ => Config.meets_of_forall fun _ _ _ => trivial)
  exact hholds.inv

/-- **Who may act for an address.** Whatever requests run, in whatever order, with however many of
them lost: the password that an account has was given to it by somebody who was entitled to, and its
address counts as confirmed only if somebody has shown a token that was made for it. -/
theorem credentials_given_by_entitled {c₀ c : UserConfig} (h₀ : OnlyUsers c₀)
    (h : Transition.Reachable (userSystem context legalPages eventIds).step (· = c₀)
      Transition.anyStep c) {userId : Nat} {user : User}
    (huser : (c.world.slot userTable userId).committed = some user) :
    PasswordOf context c₀.world c.world user.email user.passwordHash
      ∧ (user.emailVerifiedAt ≠ none → ConfirmedFor c₀.world c.world user.email) := by
  have hearned := (@origins_reachable context _ _ _ _ h₀ h).users userId user (.inl huser)
  exact ⟨hearned.password, hearned.confirmed⟩

/-- Ona forgets her password and sets another one. -/
def setsForgottenPassword : List (Label UserRequest) :=
  [.spawn 0 (.forgotPassword "ona@example.lt"), .exec 0 {}, .exec 0 { order := [0] }, .exec 0 {},
    .exec 0 {}, .exec 0 { token := "reset" }, .exec 0 {}, .exec 0 {}, .exec 0 {}, .exec 0 {},
    .close 0, .spawn 1 (.resetPassword "reset" "battery staple"), .exec 1 {},
    .exec 1 { order := [0] }, .exec 1 {}, .exec 1 {}, .exec 1 { order := [0] },
    .exec 1 { token := "salt" }, .exec 1 {}, .exec 1 { order := [0] }, .exec 1 {},
    .exec 1 { order := [0] }, .exec 1 {}, .exec 1 {}, .exec 1 {}, .close 1]

theorem smallService_onlyUsers : OnlyUsers (smallService UserRequest Exn UserReply) where
  initial := smallService_initial _ _ _
  tokens _ _ := rfl
  sessions _ := rfl
  jobs _ := rfl

theorem credentials_given_by_entitled_ona :
    ∃ (c : UserConfig) (user : User),
      Transition.run (userSystem plainContext [] []).step (smallService _ _ _)
          setsForgottenPassword = some c
        ∧ (c.world.slot userTable 0).committed = some user ∧ user.passwordHash = "battery staple"
        ∧ PasswordOf plainContext (smallService UserRequest Exn UserReply).world c.world user.email
          user.passwordHash
        ∧ ConfirmedFor (smallService UserRequest Exn UserReply).world c.world user.email := by
  have hrun : (Transition.run (userSystem plainContext [] []).step (smallService _ _ _)
      setsForgottenPassword).any fun c => (c.world.slot userTable 0).committed.any
        fun user : User => decide (user.passwordHash = "battery staple"
          ∧ user.emailVerifiedAt.isSome) := by decide
  obtain ⟨c, hc, hrun⟩ := (Option.any_eq_true _ _).mp hrun
  obtain ⟨user, huser, hset⟩ := (Option.any_eq_true _ _).mp hrun
  obtain ⟨hpassword, hverified⟩ := of_decide_eq_true hset
  have hreach : Transition.Reachable (userSystem plainContext [] []).step
      (· = smallService UserRequest Exn UserReply) Transition.anyStep c :=
    Transition.reachable_of_run (by rfl) setsForgottenPassword (fun _ _ _ _ _ _ _ => trivial) hc
  obtain ⟨hgiven, hconfirmed⟩ :=
    credentials_given_by_entitled smallService_onlyUsers hreach huser
  exact ⟨c, user, hc, huser, hpassword, hgiven,
    hconfirmed (Option.isSome_iff_ne_none.mp hverified)⟩

/-- **Whose sessions they are.** Whatever requests run, a login session is only ever one of a user
whose address was confirmed, by a token that was made for it or before the run. -/
theorem sessions_of_confirmed_users {c₀ c : UserConfig} (h₀ : OnlyUsers c₀)
    (h : Transition.Reachable (userSystem context legalPages eventIds).step (· = c₀)
      Transition.anyStep c) {sessionId : Nat} {session : RefreshTokenSession}
    (hsession : (c.world.slot sessionTable sessionId).committed = some session) :
    ∃ address, ConfirmedFor c₀.world c.world address
      ∧ ∀ user : User, (c.world.slot userTable session.userId).committed = some user →
        user.email = address := by
  obtain ⟨address, ⟨_, haddress⟩, hconfirmed⟩ :=
    (@origins_reachable context _ _ _ _ h₀ h).sessions sessionId session (.inl hsession)
  exact ⟨address, hconfirmed, fun user huser => haddress user (.inl huser)⟩

def opensSession : List (Label UserRequest) :=
  [.spawn 0 (.login "ona@example.lt" "correct horse"), .exec 0 {}, .exec 0 { order := [0] },
    .exec 0 { token := "first" }, .exec 0 {}, .exec 0 {}, .exec 0 {}, .exec 0 {},
    .exec 0 { token := "jti" }, .close 0]

theorem sessions_of_confirmed_users_ona :
    ∃ (c : UserConfig) (session : RefreshTokenSession),
      Transition.run (userSystem plainContext [] []).step (smallService _ _ _) opensSession = some c
        ∧ (c.world.slot sessionTable 0).committed = some session
        ∧ ConfirmedFor (smallService UserRequest Exn UserReply).world c.world "ona@example.lt" := by
  have hrun : (Transition.run (userSystem plainContext [] []).step (smallService _ _ _)
      opensSession).any fun c => (c.world.slot sessionTable 0).committed.any
        (fun session : RefreshTokenSession => session.userId = 0)
          && (c.world.slot userTable 0).committed.any
            (fun user : User => user.email = "ona@example.lt") := by decide
  obtain ⟨c, hc, hrun⟩ := (Option.any_eq_true _ _).mp hrun
  obtain ⟨hsession, huser⟩ := Bool.and_eq_true_iff.mp hrun
  obtain ⟨session, hsession, howner⟩ := (Option.any_eq_true _ _).mp hsession
  obtain ⟨user, huser, hemail⟩ := (Option.any_eq_true _ _).mp huser
  have hreach : Transition.Reachable (userSystem plainContext [] []).step
      (· = smallService UserRequest Exn UserReply) Transition.anyStep c :=
    Transition.reachable_of_run (by rfl) opensSession (fun _ _ _ _ _ _ _ => trivial) hc
  obtain ⟨address, hconfirmed, haddress⟩ :=
    sessions_of_confirmed_users smallService_onlyUsers hreach hsession
  rw [of_decide_eq_true howner] at haddress
  obtain rfl := (haddress user huser).symm.trans (of_decide_eq_true hemail)
  exact ⟨c, session, hc, hsession, hconfirmed⟩

end EventsApi
