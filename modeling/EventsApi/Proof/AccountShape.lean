import EventsApi.Proof.Registration
import EventsApi.Users.Service

/-!
# The operations of the account requests

What is true of every statement that the requests are made of is true of the requests. None of them
does anything after its commit.
-/

namespace EventsApi

open ReadCommitted

/-- It is true of what requests are made of for the most part: they read, they lock rows to leave
them as they are, and they delete rows other than users. -/
structure Modest (P : ∀ β : Type, Op database β → Prop) : Prop where
  select : ∀ (T : Table) (p : Nat → T.Row → Bool), T ≠ .users → P _ (.select (S := database) T p)
  keep : ∀ (T : Table) (id : Nat) (p : T.Row → Bool), P _ (.lock (S := database) T id p some)
  delete : ∀ (T : Table) (id : Nat) (p : T.Row → Bool), T ≠ .users →
    P _ (.lock (S := database) T id p fun _ => none)
  now : P _ (.now (S := database))
  draw : P _ (.draw (S := database))

/-- It is true of every operation but insertions, commits and searches for a user: they read, they
lock rows to leave them as they are or to delete them, and they update users and sessions. -/
structure Ordinary (P : ∀ β : Type, Op database β → Prop) : Prop where
  select : ∀ (T : Table) (p : Nat → T.Row → Bool), T ≠ .users → P _ (.select (S := database) T p)
  keep : ∀ (T : Table) (id : Nat) (p : T.Row → Bool), P _ (.lock (S := database) T id p some)
  delete : ∀ (T : Table) (id : Nat) (p : T.Row → Bool),
    P _ (.lock (S := database) T id p fun _ => none)
  updateUser : ∀ (id : Nat) (p : User → Bool) (f : User → User),
    P _ (.lock (S := database) .users id p fun user => some (f user))
  updateSession : ∀ (id : Nat) (p : RefreshTokenSession → Bool)
    (f : RefreshTokenSession → RefreshTokenSession),
    P _ (.lock (S := database) .refreshTokenSessions id p fun session => some (f session))
  now : P _ (.now (S := database))
  draw : P _ (.draw (S := database))

theorem Ordinary.modest {P : ∀ β : Type, Op database β → Prop} (h : Ordinary P) : Modest P where
  select := h.select
  keep := h.keep
  delete T id p _ := h.delete T id p
  now := h.now
  draw := h.draw

theorem ordinary_uncommitting : Ordinary Uncommitting where
  select _ _ _ := nofun
  keep _ _ _ := nofun
  delete _ _ _ := nofun
  updateUser _ _ _ := nofun
  updateSession _ _ _ := nofun
  now := nofun
  draw := nofun

/-- Insertions into the table are among them. -/
def Inserting (P : ∀ β : Type, Op database β → Prop) (T : Table) : Prop :=
  ∀ row : Nat → T.Row, P _ (.insert (S := database) T row)

theorem inserting_uncommitting (T : Table) : Inserting Uncommitting T := fun _ => nofun

/-- Searches for a user are among them. -/
def Finding (P : ∀ β : Type, Op database β → Prop) : Prop :=
  ∀ p : Nat → User → Bool, P _ (.select (S := database) .users p)

theorem finding_uncommitting : Finding Uncommitting := fun _ => nofun

variable {P : ∀ β : Type, Op database β → Prop} {context : Context} {legalPages : List LegalPage}

theorem Inserting.insertRow {T : Table} {row : Nat → T.Row} (h : Inserting P T) :
    (insertRow T row).All P := by
  refine ⟨h row, fun answer => ?_⟩
  cases answer <;> trivial

theorem Inserting.enqueueJob (h : Inserting P .emailOutboxJobs) (message : EmailMessage) (now : Int)
    (confirmationTokenId passwordResetTokenId : Option Nat) :
    (EmailOutbox.enqueueJob message now confirmationTokenId passwordResetTokenId).All P := by
  obtain heq | ⟨row, heq⟩ := enqueueJob_cases message now confirmationTokenId passwordResetTokenId
  · rw [heq]
    trivial
  · rw [heq]
    exact h.insertRow

theorem Finding.getByEmail (h : Finding P) (email : String) : (Users.getByEmail email).All P :=
  Prog.All.scalar (h _)

theorem Finding.get (h : Finding P) (userId : Nat) : (Users.get userId).All P :=
  Prog.All.scalar (h _)

/-- Flushes of a new password are among them. -/
def SettingPasswords (P : ∀ β : Type, Op database β → Prop) : Prop :=
  ∀ (id : Nat) (passwordHash : String) (startedAt : Int), P _
    (.lock (S := database) .users id (fun _ => true) fun (user : User) =>
      some { user with passwordHash := passwordHash, updatedAt := startedAt })

/-- Flushes of the confirmation of an address are among them. -/
def Verifying (P : ∀ β : Type, Op database β → Prop) : Prop :=
  ∀ (id : Nat) (now startedAt : Int), P _
    (.lock (S := database) .users id (fun _ => true) fun (user : User) =>
      some { user with emailVerifiedAt := some now, updatedAt := startedAt })

/-- Deletions of users are among them. -/
def DeletingUsers (P : ∀ β : Type, Op database β → Prop) : Prop :=
  ∀ (id : Nat) (p : User → Bool), P _ (.lock (S := database) .users id p fun _ => none)

/-- Revocations of sessions are among them. -/
def RevokingSessions (P : ∀ β : Type, Op database β → Prop) : Prop :=
  ∀ (id : Nat) (p : RefreshTokenSession → Bool) (now : Int), P _
    (.lock (S := database) .refreshTokenSessions id p fun session =>
      some (RefreshSessions.revoke now session))

/-- Rotations of sessions are among them. -/
def RotatingSessions (P : ∀ β : Type, Op database β → Prop) : Prop :=
  ∀ (id : Nat) (tokenHash : String) (expiresAt now : Int), P _
    (.lock (S := database) .refreshTokenSessions id (fun _ => true) fun session =>
      some (RefreshSessions.rotate tokenHash expiresAt now session))

/-- Changes of the favorites of a user are among them. -/
def ChangingFavorites (P : ∀ β : Type, Op database β → Prop) : Prop :=
  ∀ (id : Nat) (p : User → Bool) (favorites : User → List Int) (startedAt : Int), P _
    (.lock (S := database) .users id p fun (user : User) =>
      some { user with favoriteEventIds := favorites user, updatedAt := startedAt })

/-- Changes of the consents of this user are among them. -/
def ChangingConsents (P : ∀ β : Type, Op database β → Prop) (userId : Nat) : Prop :=
  ∀ (id : Nat) (values : Option Bool × Option Bool) (updatedAt startedAt : Int), P _
    (.lock (S := database) .users id (fun _ => id == userId) fun (user : User) =>
      some (Users.setConsents values updatedAt startedAt user))

namespace Finding

variable (h : Finding P)

include h

theorem authenticate (email password : String) : (authenticate context email password).All P := by
  refine (h.getByEmail _).bind fun found => ?_
  obtain ⟨error, herror⟩ | ⟨_, _, _, _, hfound⟩ := checkCredentials_cases context password found
  · rw [herror]
    trivial
  · rw [hfound]
    trivial

variable (hcommit : P _ (.commit (S := database)))

include hcommit

/-- What follows an update of the user: the commit, and the reading of the row. -/
theorem commit_refresh (userId : Nat) :
    ((Prog.commit : Db Unit) >>= fun _ => Users.refresh userId).All P := by
  refine .perform_bind hcommit fun _ => (h.get userId).bind fun found => ?_
  split <;> trivial

theorem addFavorite (hfavorites : ChangingFavorites P) (userId : Nat) (eventId startedAt : Int) :
    (Users.addFavorite userId eventId startedAt).All P :=
  (Prog.All.statement (h _) fun _ => hfavorites _ _ _ _).bind fun _ => h.commit_refresh hcommit _

theorem removeFavorite (hfavorites : ChangingFavorites P) (userId : Nat)
    (eventId startedAt : Int) : (Users.removeFavorite userId eventId startedAt).All P :=
  (Prog.All.statement (h _) fun _ => hfavorites _ _ _ _).bind fun _ => h.commit_refresh hcommit _

end Finding

namespace Modest

variable (h : Modest P)

include h

theorem deleteWhere (T : Table) (hT : T ≠ .users) (p : Nat → T.Row → Bool) :
    (Prog.deleteWhere (S := database) T p : Db _).All P :=
  Prog.All.statement (h.select T p hT) fun id => h.delete T id (p id) hT

theorem getForUpdate (kind : TokenKind) (tokenHash : String) :
    (UserTokens.getForUpdate kind tokenHash).All P :=
  Prog.All.scalarForUpdate (h.select _ _ nofun) fun _ => h.keep _ _ _

theorem getSessionForUpdate (tokenHash : String) :
    (RefreshSessions.getForUpdate tokenHash).All P :=
  Prog.All.scalarForUpdate (h.select _ _ nofun) fun _ => h.keep _ _ _

theorem deleteLinkedJobs (kind : TokenKind) (tokenIds : List Nat) :
    (UserTokens.deleteLinkedJobs kind tokenIds).All P := by
  induction tokenIds with
  | nil => trivial
  | cons tokenId tokenIds ih =>
      exact (h.deleteWhere .emailOutboxJobs nofun _).bind fun _ => ih

theorem deleteForUser (kind : TokenKind) (userId : Nat) :
    (UserTokens.deleteForUser kind userId).All P :=
  (h.deleteWhere (.tokens kind) nofun _).bind fun _ => h.deleteLinkedJobs kind _

theorem replace (kind : TokenKind) (hinsert : Inserting P (.tokens kind)) (userId : Nat)
    (tokenHash : String) (expiresAt startedAt : Int) :
    (UserTokens.replace kind userId tokenHash expiresAt startedAt).All P :=
  (h.deleteForUser kind userId).bind fun _ => hinsert.insertRow

theorem revokeForUser (hrevoke : RevokingSessions P) (userId : Nat) (now : Int) :
    (RefreshSessions.revokeForUser userId now).All P :=
  Prog.All.statement (h.select _ _ nofun) fun id => hrevoke id _ now

theorem getCurrentUser (hfind : Finding P) (credentials : Option String) :
    (getCurrentUser context credentials).All P := by
  unfold EventsApi.getCurrentUser
  split
  · trivial
  · refine .perform_bind h.now fun checkedAt => ?_
    split
    · trivial
    · refine .perform_bind h.now fun startedAt => (hfind.get _).bind fun found => ?_
      split
      · trivial
      · split <;> trivial

theorem deleteOwned (userIds : List Nat) : (Users.deleteOwned userIds).All P := by
  induction userIds with
  | nil => trivial
  | cons userId userIds ih =>
      refine (h.deleteForUser .confirmation userId).bind fun _ => ?_
      refine (h.deleteForUser .passwordReset userId).bind fun _ => ?_
      exact (h.deleteWhere .refreshTokenSessions nofun _).bind fun _ => ih

/-! ### Whole requests -/

theorem authResponse (userId : Nat) (user : User) (refreshToken : String) :
    (authResponse context userId user refreshToken).All P :=
  ⟨h.now, fun _ => ⟨h.draw, fun _ => trivial⟩⟩

section Commit

variable (hcommit : P _ (.commit (S := database)))

include hcommit

theorem storePassword (hpassword : SettingPasswords P) (hrevoke : RevokingSessions P) (userId : Nat)
    (passwordHash : String) (now startedAt : Int) :
    (storePassword userId passwordHash now startedAt).All P := by
  refine (updateRow_all (hpassword userId _ _)).bind fun _ => ?_
  refine (h.deleteForUser .passwordReset userId).bind fun _ => ?_
  exact (h.revokeForUser hrevoke userId now).bind fun _ => ⟨hcommit, fun _ => trivial⟩

theorem updateMarketingConsents (hfind : Finding P) {userId : Nat}
    (hconsents : ChangingConsents P userId) (user : User) (startedAt : Int)
    (payload : MarketingConsentsUpdateRequest) :
    (updateMarketingConsents userId user startedAt payload).All P := by
  refine .perform_bind h.now fun updatedAt => Prog.All.bind ?_ fun _ => trivial
  unfold Users.updateMarketingConsents
  dsimp only
  split
  · exact (Prog.All.statement (hfind _) fun _ => hconsents _ _ _ _).bind
      fun _ => hfind.commit_refresh hcommit userId
  · trivial

theorem login (hfind : Finding P) (hsessions : Inserting P .refreshTokenSessions)
    (email password : String) : (login context email password).All P := by
  refine .perform_bind h.now fun startedAt => (hfind.authenticate _ _).bind fun found => ?_
  refine Prog.All.bind ?_ fun rawToken => ?_
  · refine .perform_bind h.draw fun rawToken => .perform_bind h.now fun now => ?_
    exact hsessions.insertRow.bind fun _ => trivial
  · exact .perform_bind hcommit fun _ => h.authResponse _ _ _

theorem refresh (hfind : Finding P) (hrotate : RotatingSessions P) (rawToken : String) :
    (refresh context rawToken).All P := by
  refine (h.getSessionForUpdate _).bind fun found => ?_
  split
  · trivial
  · refine .perform_bind h.now fun now => ?_
    split
    · trivial
    · refine (hfind.get _).bind fun found => ?_
      split
      · trivial
      · split
        · trivial
        · refine .perform_bind h.draw fun replacement => ?_
          refine (updateRow_all (hrotate _ _ _ _)).bind fun _ => ?_
          exact .perform_bind hcommit fun _ => h.authResponse _ _ _

theorem logout (hrevoke : RevokingSessions P) (rawToken : String) :
    (logout context rawToken).All P := by
  refine (h.getSessionForUpdate _).bind fun found => ?_
  split
  · exact ⟨hcommit, fun _ => trivial⟩
  · split
    · exact ⟨hcommit, fun _ => trivial⟩
    · refine .perform_bind h.now fun now => ?_
      exact (updateRow_all (hrevoke _ _ _)).bind fun _ => ⟨hcommit, fun _ => trivial⟩

theorem sendToken (hjobs : Inserting P .emailOutboxJobs) (kind : TokenKind)
    (htokens : Inserting P (.tokens kind))
    {cooldown expiresIn : Duration} {email : User → String → Nat → Int → EmailMessage}
    {message : String} {userId : Nat} {user : User} {startedAt : Int} :
    (sendToken context kind cooldown expiresIn email message userId user startedAt).All P := by
  refine .perform_bind h.now fun now => ?_
  refine (Prog.All.scalar (h.select (.tokens kind) _ nofun)).bind fun existing => ?_
  split
  · trivial
  · refine .perform_bind h.draw fun rawToken => ?_
    refine (h.replace kind htokens _ _ _ _).bind fun tokenId => ?_
    exact (hjobs.enqueueJob _ _ _ _).bind fun _ => ⟨hcommit, fun _ => trivial⟩

variable (hfind : Finding P)

include hfind

theorem resetPassword (hpassword : SettingPasswords P) (hrevoke : RevokingSessions P)
    (rawToken newPassword : String) : (resetPassword context rawToken newPassword).All P := by
  refine .perform_bind h.now fun startedAt => (h.getForUpdate _ _).bind fun found => ?_
  split
  · trivial
  · refine .perform_bind h.now fun now => ?_
    split
    · trivial
    · refine (hfind.get _).bind fun found => ?_
      split
      · trivial
      · refine .perform_bind h.draw fun salt => (Prog.All.ofExcept _).bind fun passwordHash => ?_
        exact h.storePassword hcommit hpassword hrevoke _ _ _ _

theorem changePassword (hpassword : SettingPasswords P) (hrevoke : RevokingSessions P)
    (credentials : Option String) (currentPassword newPassword : String) :
    (changePassword context credentials currentPassword newPassword).All P := by
  refine (h.getCurrentUser hfind credentials).bind fun current => ?_
  refine (Prog.All.ofExcept _).bind fun same => ?_
  split
  · refine (Prog.All.ofExcept _).bind fun reused => ?_
    split
    · trivial
    · refine .perform_bind h.now fun now => .perform_bind h.draw fun salt => ?_
      refine (Prog.All.ofExcept _).bind fun passwordHash => ?_
      exact h.storePassword hcommit hpassword hrevoke _ _ _ _
  · trivial

theorem confirmEmail (hverify : Verifying P) (rawToken : String) :
    (confirmEmail context rawToken).All P := by
  refine .perform_bind h.now fun startedAt => (h.getForUpdate _ _).bind fun found => ?_
  split
  · trivial
  · refine .perform_bind h.now fun now => ?_
    split
    · trivial
    · refine (hfind.get _).bind fun found => ?_
      split
      · trivial
      · refine (updateRow_all (hverify _ _ _)).bind fun _ => ?_
        exact (h.deleteForUser _ _).bind fun _ => ⟨hcommit, fun _ => trivial⟩

/-- The deletion of one user, with everything that goes with it. -/
theorem deleteUser (userId : Nat)
    (hdelete : ∀ id, P _ (.lock (S := database) .users id (fun _ => id == userId) fun _ => none)) :
    (Users.deleteUser userId).All P := by
  refine (Prog.All.statement (hfind _) hdelete).bind fun deleted => ?_
  exact (h.deleteOwned _).bind fun _ => ⟨hcommit, fun _ => trivial⟩

theorem deleteAccount (hdelete : DeletingUsers P) (credentials : Option String)
    (password : String) : (deleteAccount context credentials password).All P := by
  refine (h.getCurrentUser hfind credentials).bind fun current => ?_
  refine (Prog.All.ofExcept _).bind fun same => ?_
  split
  · exact h.deleteUser hcommit hfind _ fun _ => hdelete _ _
  · trivial

variable (hjobs : Inserting P .emailOutboxJobs)

include hjobs

theorem resendConfirmation (htokens : Inserting P (.tokens .confirmation)) (email : String) :
    (resendConfirmation context email).All P := by
  refine .perform_bind h.now fun startedAt => (hfind.getByEmail _).bind fun found => ?_
  split
  · trivial
  · split
    · trivial
    · exact h.sendToken hcommit hjobs .confirmation htokens

theorem forgotPassword (htokens : Inserting P (.tokens .passwordReset)) (email : String) :
    (forgotPassword context email).All P := by
  refine .perform_bind h.now fun startedAt => (hfind.getByEmail _).bind fun found => ?_
  split
  · trivial
  · split
    · trivial
    · exact h.sendToken hcommit hjobs .passwordReset htokens

theorem register (husers : Inserting P .users) (htokens : Inserting P (.tokens .confirmation))
    (payload : RegisterRequest) : (register context legalPages payload).All P := by
  refine .perform_bind h.now fun startedAt => (hfind.getByEmail _).bind fun found => ?_
  split
  · trivial
  · split
    · trivial
    · refine .perform_bind h.draw fun rawToken => .perform_bind h.now fun now => ?_
      refine Prog.All.bind (Prog.All.mapError ?_) fun _ => trivial
      refine .perform_bind h.draw fun salt => (Prog.All.ofExcept _).bind fun passwordHash => ?_
      refine Prog.All.bind (Prog.All.bind husers.insertRow fun _ => trivial) fun created => ?_
      refine (h.replace .confirmation htokens _ _ _ _).bind fun tokenId => ?_
      exact (hjobs.enqueueJob _ _ _ _).bind fun _ => ⟨hcommit, fun _ => trivial⟩

end Commit

end Modest

namespace Ordinary

variable (h : Ordinary P)

include h

theorem settingPasswords : SettingPasswords P := fun _ _ _ => h.updateUser _ _ _

theorem revoking : RevokingSessions P := fun _ _ _ => h.updateSession _ _ _

variable (hcommit : P _ (.commit (S := database)))

include hcommit

variable (hfind : Finding P)

include hfind

theorem resetPassword (rawToken newPassword : String) :
    (resetPassword context rawToken newPassword).All P :=
  h.modest.resetPassword hcommit hfind h.settingPasswords h.revoking _ _

theorem changePassword (credentials : Option String) (currentPassword newPassword : String) :
    (changePassword context credentials currentPassword newPassword).All P :=
  h.modest.changePassword hcommit hfind h.settingPasswords h.revoking _ _ _

theorem confirmEmail (rawToken : String) : (confirmEmail context rawToken).All P :=
  h.modest.confirmEmail hcommit hfind (fun _ _ _ => h.updateUser _ _ _) _

theorem deleteAccount (credentials : Option String) (password : String) :
    (deleteAccount context credentials password).All P :=
  h.modest.deleteAccount hcommit hfind (fun _ _ => h.delete _ _ _) _ _

end Ordinary

/-! ### The commit is the last operation -/

theorem storePassword_commitsLast (userId : Nat) (passwordHash : String) (now startedAt : Int) :
    (storePassword userId passwordHash now startedAt).CommitsLast := by
  have h := ordinary_uncommitting
  refine Prog.CommitsLast.bind (updateRow_all (h.updateUser userId _ _)) fun _ => ?_
  refine Prog.CommitsLast.bind (h.modest.deleteForUser .passwordReset userId) fun _ => ?_
  refine Prog.CommitsLast.bind (h.modest.revokeForUser h.revoking userId now) fun _ => ?_
  exact ⟨fun _ _ => ⟨(), rfl⟩, fun _ => trivial⟩

theorem resetPassword_commitsLast (rawToken newPassword : String) :
    (resetPassword context rawToken newPassword).CommitsLast := by
  have h := ordinary_uncommitting
  refine Prog.CommitsLast.bind ⟨h.now, fun _ => trivial⟩ fun startedAt => ?_
  refine Prog.CommitsLast.bind (h.modest.getForUpdate _ _) fun found => ?_
  split
  · trivial
  · refine Prog.CommitsLast.bind ⟨h.now, fun _ => trivial⟩ fun now => ?_
    split
    · trivial
    · refine Prog.CommitsLast.bind (finding_uncommitting.get _) fun found => ?_
      split
      · trivial
      · refine Prog.CommitsLast.bind ⟨h.draw, fun _ => trivial⟩ fun salt => ?_
        exact Prog.CommitsLast.bind (Prog.All.ofExcept _) fun _ => storePassword_commitsLast _ _ _ _

theorem changePassword_commitsLast (credentials : Option String)
    (currentPassword newPassword : String) :
    (changePassword context credentials currentPassword newPassword).CommitsLast := by
  have h := ordinary_uncommitting
  have hcurrent : (getCurrentUser context credentials).All Uncommitting :=
    h.modest.getCurrentUser finding_uncommitting credentials
  refine Prog.CommitsLast.bind hcurrent fun current => ?_
  refine Prog.CommitsLast.bind (Prog.All.ofExcept _) fun same => ?_
  split
  · refine Prog.CommitsLast.bind (Prog.All.ofExcept _) fun reused => ?_
    split
    · trivial
    · refine Prog.CommitsLast.bind ⟨h.now, fun _ => trivial⟩ fun now => ?_
      refine Prog.CommitsLast.bind ⟨h.draw, fun _ => trivial⟩ fun salt => ?_
      exact Prog.CommitsLast.bind (Prog.All.ofExcept _) fun _ => storePassword_commitsLast _ _ _ _
  · trivial

theorem deleteAccount_commitsLast (credentials : Option String) (password : String) :
    (deleteAccount context credentials password).CommitsLast := by
  have h := ordinary_uncommitting
  have hcurrent : (getCurrentUser context credentials).All Uncommitting :=
    h.modest.getCurrentUser finding_uncommitting credentials
  refine Prog.CommitsLast.bind hcurrent fun current => ?_
  refine Prog.CommitsLast.bind (Prog.All.ofExcept _) fun same => ?_
  split
  · have hdelete := Prog.All.statement (ε := Exn) (finding_uncommitting fun id _ => id == current.2.1)
      fun id => h.delete .users id _
    refine Prog.CommitsLast.bind hdelete fun deleted => ?_
    refine Prog.CommitsLast.bind (h.modest.deleteOwned _) fun _ => ?_
    exact ⟨fun _ _ => ⟨(), rfl⟩, fun _ => trivial⟩
  · trivial

theorem confirmEmail_commitsLast (rawToken : String) :
    (confirmEmail context rawToken).CommitsLast := by
  have h := ordinary_uncommitting
  refine Prog.CommitsLast.bind ⟨h.now, fun _ => trivial⟩ fun startedAt => ?_
  refine Prog.CommitsLast.bind (h.modest.getForUpdate _ _) fun found => ?_
  split
  · trivial
  · refine Prog.CommitsLast.bind ⟨h.now, fun _ => trivial⟩ fun now => ?_
    split
    · trivial
    · refine Prog.CommitsLast.bind (finding_uncommitting.get _) fun found => ?_
      split
      · trivial
      · refine Prog.CommitsLast.bind (updateRow_all (h.updateUser _ _ _)) fun _ => ?_
        refine Prog.CommitsLast.bind (h.modest.deleteForUser _ _) fun _ => ?_
        exact ⟨fun _ _ => ⟨(), rfl⟩, fun _ => trivial⟩

theorem sendToken_commitsLast (kind : TokenKind) {cooldown expiresIn : Duration}
    {email : User → String → Nat → Int → EmailMessage} {message : String} {userId : Nat}
    {user : User} {startedAt : Int} :
    (sendToken context kind cooldown expiresIn email message userId user startedAt).CommitsLast := by
  have h := ordinary_uncommitting
  refine Prog.CommitsLast.bind ⟨h.now, fun _ => trivial⟩ fun now => ?_
  refine Prog.CommitsLast.bind (Prog.All.scalar (h.select (.tokens kind) _ nofun)) fun existing => ?_
  split
  · trivial
  · refine Prog.CommitsLast.bind ⟨h.draw, fun _ => trivial⟩ fun rawToken => ?_
    have hreplace := h.modest.replace kind (inserting_uncommitting _)
    refine Prog.CommitsLast.bind (hreplace _ _ _ _) fun _ => ?_
    refine Prog.CommitsLast.bind ((inserting_uncommitting _).enqueueJob _ _ _ _) fun _ => ?_
    exact ⟨fun _ _ => ⟨message, rfl⟩, fun _ => trivial⟩

theorem resendConfirmation_commitsLast (email : String) :
    (resendConfirmation context email).CommitsLast := by
  refine Prog.CommitsLast.bind ⟨nofun, fun _ => trivial⟩ fun startedAt => ?_
  refine Prog.CommitsLast.bind (finding_uncommitting.getByEmail _) fun found => ?_
  split
  · trivial
  · split
    · trivial
    · exact sendToken_commitsLast _

theorem forgotPassword_commitsLast (email : String) :
    (forgotPassword context email).CommitsLast := by
  refine Prog.CommitsLast.bind ⟨nofun, fun _ => trivial⟩ fun startedAt => ?_
  refine Prog.CommitsLast.bind (finding_uncommitting.getByEmail _) fun found => ?_
  split
  · trivial
  · split
    · trivial
    · exact sendToken_commitsLast _

theorem AccountRequest.handler_commitsLast (request : AccountRequest) :
    (request.handler context legalPages).CommitsLast := by
  cases request with
  | register payload => exact (register_commitsLast payload).bind_pure
  | confirmEmail token => exact (confirmEmail_commitsLast token).bind_pure
  | resendConfirmation email => exact (resendConfirmation_commitsLast email).bind_pure
  | forgotPassword email => exact (forgotPassword_commitsLast email).bind_pure
  | resetPassword token newPassword =>
      exact (resetPassword_commitsLast token newPassword).bind_pure
  | changePassword credentials currentPassword newPassword =>
      exact (changePassword_commitsLast credentials currentPassword newPassword).bind_pure
  | deleteAccount credentials password =>
      exact (deleteAccount_commitsLast credentials password).bind_pure

end EventsApi
