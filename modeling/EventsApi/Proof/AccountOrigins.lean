import EventsApi.Library.ReadCommitted.References
import EventsApi.Proof.CurrentUser

/-!
# Where the rows of an account come from

Every password that an account has was given to it by a request that was entitled to: its
registration, one with a reset token that was made for its address, or one that knew the password
before. Its address counts as confirmed only after a request with a confirmation token that was made
for the address, and only then does it have login sessions. A token is mailed to the address that it
was made for. All this is in the rows as they are made, and nothing takes it back.
-/

namespace EventsApi

open ReadCommitted

/-- Whatever becomes of the user, the address is this one. -/
def Addressed (address : String) (userId : Nat) (w : UserWorld) : Prop :=
  userId < w.next userTable
    ∧ ∀ user : User, (w.slot userTable userId).HasVersion user → user.email = address

/-- The request asks for a token of this kind to be mailed to the address. -/
def AsksToken : TokenKind → (address : String) → UserRequest → Prop
  | .confirmation, address, request =>
      request = .resendConfirmation address
        ∨ ∃ payload : RegisterRequest, request = .register payload ∧ payload.email = address
  | .passwordReset, address, request => request = .forgotPassword address

/-- A request for such a token drew it. -/
def IssuedTo (kind : TokenKind) (rawToken address : String) (w : UserWorld) : Prop :=
  ∃ t request, (rawToken, t) ∈ w.drawn ∧ w.request t = some request
    ∧ AsksToken kind address request

/-- The hash is of a password that somebody entitled to gave the account with this address. -/
inductive PasswordOf (context : Context) (start w : UserWorld) (address : String) : String → Prop
  | stored {userId : Nat} {user : User}
      (huser : (start.slot userTable userId).committed = some user)
      (haddress : user.email = address) : PasswordOf context start w address user.passwordHash
  | registered {t : Txn} {payload : RegisterRequest} {salt passwordHash : String}
      (hrequest : w.request t = some (.register payload)) (haddress : payload.email = address)
      (hhash : hashPassword context.crypto payload.password salt = .ok passwordHash) :
      PasswordOf context start w address passwordHash
  | reset {t : Txn} {rawToken newPassword salt passwordHash : String}
      (hrequest : w.request t = some (.resetPassword rawToken newPassword))
      (hissued : IssuedTo .passwordReset rawToken address w)
      (hhash : hashPassword context.crypto newPassword salt = .ok passwordHash) :
      PasswordOf context start w address passwordHash
  | changed {t : Txn} {credentials : Option String} {now : Int} {userId : Nat}
      {currentPassword current newPassword salt passwordHash : String}
      (hrequest : w.request t = some (.changePassword credentials currentPassword newPassword))
      (hauthenticated : authenticatedAs context credentials now = some userId)
      (haddress : Addressed address userId w)
      (hcurrent : PasswordOf context start w address current)
      (hknown : verifyPassword context.crypto currentPassword current = .ok true)
      (hhash : hashPassword context.crypto newPassword salt = .ok passwordHash) :
      PasswordOf context start w address passwordHash

/-- The address was confirmed at the start, or somebody has shown a token that was made for it. -/
def ConfirmedFor (start w : UserWorld) (address : String) : Prop :=
  (∃ userId, ∃ user : User, (start.slot userTable userId).committed = some user
      ∧ user.email = address ∧ user.emailVerifiedAt ≠ none)
    ∨ ∃ t rawToken, w.request t = some (.confirmEmail rawToken)
      ∧ IssuedTo .confirmation rawToken address w

/-- The message that carries a token. -/
def TokenKind.email (context : Context) : TokenKind → User → String → Nat → Int → EmailMessage
  | .confirmation => confirmationEmail context
  | .passwordReset => passwordResetEmail context

variable (context : Context) (start : UserWorld)

structure Earned (w : UserWorld) (user : User) : Prop where
  password : PasswordOf context start w user.email user.passwordHash
  confirmed : user.emailVerifiedAt ≠ none → ConfirmedFor start w user.email

/-- The hash is of a token that was made for the address of its user. -/
def Issued (kind : TokenKind) (w : UserWorld) (token : UserToken) : Prop :=
  ∃ rawToken address, token.tokenHash = context.crypto.sha256 rawToken
    ∧ IssuedTo kind rawToken address w ∧ Addressed address token.userId w

def Opened (w : UserWorld) (session : RefreshTokenSession) : Prop :=
  ∃ address, Addressed address session.userId w ∧ ConfirmedFor start w address

/-- The job carries the token. -/
def Brings (kind : TokenKind) (tokenId : Nat) (token : UserToken) (job : EmailOutboxJob) : Prop :=
  ∃ user rawToken requestedAt, job.message = kind.email context user rawToken tokenId requestedAt
    ∧ token.tokenHash = context.crypto.sha256 rawToken

/-- The job carries the token it is linked to, to the user whose token it is. -/
def InOrder (w : UserWorld) (job : EmailOutboxJob) : Prop :=
  ∀ kind tokenId, UserTokens.linkedJob kind tokenId job = true →
    tokenId < w.next (tokenTable kind)
      ∧ ∀ token : UserToken, (w.slot (tokenTable kind) tokenId).HasVersion token →
        Brings context kind tokenId token job ∧ Addressed job.toAddress token.userId w

structure Origins (w : UserWorld) : Prop where
  address : ∀ id (user user' : User), (w.slot userTable id).HasVersion user →
    (w.slot userTable id).HasVersion user' → user.email = user'.email
  users : ∀ id user, (w.slot userTable id).HasVersion user → Earned context start w user
  tokens : ∀ kind id token, (w.slot (tokenTable kind) id).HasVersion token →
    Issued context kind w token
  sessions : ∀ id session, (w.slot sessionTable id).HasVersion session → Opened start w session
  jobs : ∀ id job, (w.slot jobTable id).HasVersion job → InOrder context w job

/-! ### What lasts -/

/-- Requests, tokens and addresses are never taken back. -/
structure Later (w w' : UserWorld) : Prop where
  drawn : ∀ e ∈ w.drawn, e ∈ w'.drawn
  request : ∀ t request, w.request t = some request → w'.request t = some request
  address : ∀ address userId, Addressed address userId w → Addressed address userId w'

variable {context start} {t : Txn} {w w' w'' : UserWorld}

theorem Later.refl (w : UserWorld) : Later w w := ⟨fun _ => id, fun _ _ => id, fun _ _ => id⟩

theorem Later.trans (h : Later w w') (h' : Later w' w'') : Later w w'' where
  drawn e he := h'.drawn e (h.drawn e he)
  request t request hrequest := h'.request t request (h.request t request hrequest)
  address address userId haddress := h'.address address userId (h.address address userId haddress)

section Later

variable (h : Later w w')

include h

theorem IssuedTo.later {kind : TokenKind} {rawToken address : String}
    (hissued : IssuedTo kind rawToken address w) : IssuedTo kind rawToken address w' := by
  obtain ⟨t, request, hdrawn, hrequest, hasks⟩ := hissued
  exact ⟨t, request, h.drawn _ hdrawn, h.request t request hrequest, hasks⟩

theorem PasswordOf.later {address passwordHash : String}
    (hpassword : PasswordOf context start w address passwordHash) :
    PasswordOf context start w' address passwordHash := by
  induction hpassword with
  | stored huser haddress => exact .stored huser haddress
  | registered hrequest haddress hhash =>
      exact .registered (h.request _ _ hrequest) haddress hhash
  | reset hrequest hissued hhash =>
      exact .reset (h.request _ _ hrequest) (hissued.later h) hhash
  | changed hrequest hauthenticated haddress _ hknown hhash hcurrent =>
      exact .changed (h.request _ _ hrequest) hauthenticated (h.address _ _ haddress) hcurrent
        hknown hhash

theorem ConfirmedFor.later {address : String} (hconfirmed : ConfirmedFor start w address) :
    ConfirmedFor start w' address := by
  obtain hstart | ⟨t, rawToken, hrequest, hissued⟩ := hconfirmed
  · exact .inl hstart
  · exact .inr ⟨t, rawToken, h.request _ _ hrequest, hissued.later h⟩

theorem Earned.later {user : User} (hearned : Earned context start w user) :
    Earned context start w' user where
  password := hearned.password.later h
  confirmed hverified := (hearned.confirmed hverified).later h

theorem Issued.later {kind : TokenKind} {token : UserToken} (hissued : Issued context kind w token) :
    Issued context kind w' token := by
  obtain ⟨rawToken, address, hhash, hto, haddress⟩ := hissued
  exact ⟨rawToken, address, hhash, hto.later h, h.address _ _ haddress⟩

theorem Opened.later {session : RefreshTokenSession} (hopened : Opened start w session) :
    Opened start w' session := by
  obtain ⟨address, haddress, hconfirmed⟩ := hopened
  exact ⟨address, h.address _ _ haddress, hconfirmed.later h⟩

end Later

/-! ### One step -/

/-- The user keeps the address, and what is earned stays earned. -/
def UserChange (context : Context) (start w : UserWorld) (user : User) (version : Option User) :
    Prop :=
  ∀ user', version = some user' → user'.email = user.email
    ∧ (Earned context start w user → Earned context start w user')

def KeepsOwner (session : RefreshTokenSession) (version : Option RefreshTokenSession) : Prop :=
  ∀ session', version = some session' → session'.userId = session.userId

def OnlyDeletes {T : database.Table} (row : database.Row T) (version : Option (database.Row T)) :
    Prop :=
  version = some row ∨ version = none

/-- What a step of a transaction may do to the rows of accounts. -/
structure Lawful (context : Context) (start : UserWorld) (t : Txn) (w w' : UserWorld) : Prop where
  users : TableStep t userTable (UserChange context start w) (Earned context start w) w w'
  tokens : ∀ kind, TableStep t (tokenTable kind) OnlyDeletes (Issued context kind w) w w'
  sessions : TableStep t sessionTable KeepsOwner (Opened start w) w w'
  jobs : TableStep t jobTable OnlyDeletes (InOrder context w) w w'

theorem Lawful.later (h : Lawful context start t w w') (hnext : ∀ T, w.next T ≤ w'.next T)
    (hdrawn : ∀ e ∈ w.drawn, e ∈ w'.drawn)
    (hrequest : ∀ t request, w.request t = some request → w'.request t = some request) :
    Later w w' where
  drawn := hdrawn
  request := hrequest
  address address userId haddress := by
    refine ⟨Nat.lt_of_lt_of_le haddress.1 (hnext _), fun user hversion => ?_⟩
    obtain hold | ⟨old, hold, hchange⟩ := h.users.hasVersion_before haddress.1 hversion
    · exact haddress.2 user hold
    · exact (hchange user rfl).1.trans (haddress.2 old hold)

theorem InOrder.step {job : EmailOutboxJob} (h : InOrder context w job) (hlater : Later w w')
    (hnext : ∀ T, w.next T ≤ w'.next T)
    (htokens : ∀ kind, TableStep t (tokenTable kind) OnlyDeletes (Issued context kind w) w w') :
    InOrder context w' job := by
  intro kind tokenId hlinked
  obtain ⟨hlt, hbrings⟩ := h kind tokenId hlinked
  refine ⟨Nat.lt_of_lt_of_le hlt (hnext _), fun token hversion => ?_⟩
  have hold : (w.slot (tokenTable kind) tokenId).HasVersion token := by
    obtain hold | ⟨old, hold, hsame | hnone⟩ := (htokens kind).hasVersion_before hlt hversion
    · exact hold
    · cases hsame
      exact hold
    · cases hnone
  exact (hbrings token hold).imp_right (hlater.address _ _)

/-- **One step.** What the rows say of their origins stays true. -/
theorem Origins.step (h : Origins context start w) (hsound : w.Sound)
    (hlawful : Lawful context start t w w') (hlater : Later w w')
    (hnext : ∀ T, w.next T ≤ w'.next T) : Origins context start w' where
  address id user user' huser huser' := by
    by_cases hbefore : id < w.next userTable
    · have hemail : ∀ {user : User}, (w'.slot userTable id).HasVersion user →
          ∃ old : User, (w.slot userTable id).HasVersion old ∧ user.email = old.email := by
        intro user hversion
        obtain hold | ⟨old, hold, hchange⟩ := hlawful.users.hasVersion_before hbefore hversion
        · exact ⟨user, hold, rfl⟩
        · exact ⟨old, hold, (hchange user rfl).1⟩
      obtain ⟨old, hold, heq⟩ := hemail huser
      obtain ⟨old', hold', heq'⟩ := hemail huser'
      rw [heq, heq', h.address id old old' hold hold']
    · have hempty := hsound.beyond userTable id (Nat.le_of_not_lt hbefore)
      rw [hlawful.users.hasVersion_unique hempty huser huser']
  users id user hversion := by
    obtain hold | ⟨old, hold, hchange⟩ | hnew := hlawful.users.hasVersion hversion
    · exact (h.users id user hold).later hlater
    · exact ((hchange user rfl).2 (h.users id old hold)).later hlater
    · exact hnew.later hlater
  tokens kind id token hversion := by
    obtain hold | ⟨old, hold, hsame | hnone⟩ | hnew := (hlawful.tokens kind).hasVersion hversion
    · exact (h.tokens kind id token hold).later hlater
    · cases hsame
      exact (h.tokens kind id token hold).later hlater
    · cases hnone
    · exact hnew.later hlater
  sessions id session hversion := by
    obtain hold | ⟨old, hold, hkeeps⟩ | hnew := hlawful.sessions.hasVersion hversion
    · exact (h.sessions id session hold).later hlater
    · obtain ⟨address, haddress, hconfirmed⟩ := (h.sessions id old hold).later hlater
      exact ⟨address, hkeeps session rfl ▸ haddress, hconfirmed⟩
    · exact hnew.later hlater
  jobs id job hversion := by
    obtain hold | ⟨old, hold, hsame | hnone⟩ | hnew := hlawful.jobs.hasVersion hversion
    · exact (h.jobs id job hold).step hlater hnext hlawful.tokens
    · cases hsame
      exact (h.jobs id job hold).step hlater hnext hlawful.tokens
    · cases hnone
    · exact hnew.step hlater hnext hlawful.tokens

/-- Time passes, or a client arrives. -/
theorem Origins.quiet (h : Origins context start w) (hquiet : Quiet w w') :
    Origins context start w' ∧ Later w w' := by
  have hlater : Later w w' :=
    { drawn := fun e he => hquiet.drawn ▸ he
      request := hquiet.request
      address := fun address userId haddress => by
        simp only [Addressed, hquiet.slot, hquiet.next] at haddress ⊢
        exact haddress }
  refine ⟨?_, hlater⟩
  constructor
  · rw [hquiet.slot]
    exact h.address
  · rw [hquiet.slot]
    exact fun id user hversion => (h.users id user hversion).later hlater
  · rw [hquiet.slot]
    exact fun kind id token hversion => (h.tokens kind id token hversion).later hlater
  · rw [hquiet.slot]
    exact fun id session hversion => (h.sessions id session hversion).later hlater
  · intro id job hversion
    rw [hquiet.slot] at hversion
    exact (h.jobs id job hversion).step (t := 0) hlater (fun T => (congrFun hquiet.next T).ge)
      fun _ => .same (by rw [hquiet.slot])

theorem lawful_rollback : Lawful context start t w (w.finish t false) where
  users := tableStep_rollback
  tokens _ := tableStep_rollback
  sessions := tableStep_rollback
  jobs := tableStep_rollback

variable (context start) in
/-- Everybody may rely on what is never taken back. -/
def origins : Discipline database UserRequest where
  inv := Origins context start
  rely _ := Later
  allowed _ _ _ := True
  rely_refl _ := Later.refl
  rely_trans := Later.trans
  quiet hquiet h := ⟨(h.quiet hquiet).1, fun _ => (h.quiet hquiet).2⟩
  rollback t w hsound h := by
    have hlawful := @lawful_rollback context start t w
    have hlater := hlawful.later (fun _ => le_rfl) (fun _ => id) fun _ _ => id
    exact ⟨h.step hsound hlawful hlater fun _ => le_rfl, fun _ _ => hlater⟩

end EventsApi
