import EventsApi.Auth.Emails
import EventsApi.Auth.Repository

/-!
# Login, sessions and passwords

`app/auth/service.py` and `get_current_user` of `app/core/dependencies.py`. A handler runs in one
transaction, which begins before its first statement and is rolled back unless it commits. A change
of an object that is not yet written is flushed before the next statement that needs it, which is
where the handlers below have the `UPDATE`.
-/

namespace EventsApi

open ReadCommitted

def invalidCredentials : Exn := .http .unauthorized "Invalid email or password" []

def unconfirmedEmail : Exn := .http .forbidden "Email address has not been confirmed" []

def invalidRefreshToken : Exn := .http .unauthorized "Invalid or expired refresh token" []

def invalidPasswordResetToken : Exn :=
  .http .badRequest "Invalid or expired password reset token" []

def invalidCurrentPassword : Exn := .http .badRequest "Current password is incorrect" []

def passwordReuse : Exn :=
  .http .badRequest "New password must be different from the current password" []

def unauthorized : Exn := .http .unauthorized "Unauthorized" [("WWW-Authenticate", "Bearer")]

def resendMessage : String :=
  "If the account exists and is unconfirmed, a confirmation email has been sent."

def passwordResetMessage : String :=
  "If the account exists, a password reset email has been sent."

/-- Fresh access and refresh credentials and the user they belong to. -/
structure AuthResponse where
  accessToken : String
  refreshToken : String
  user : UserResponse
  deriving DecidableEq

variable (context : Context)

def createAccessToken (claims : TokenClaims) : Db String := do
  let issuedAt ← Prog.now
  let jti ← Prog.draw
  return context.crypto.encode
    { claims := claims
      iat := issuedAt
      exp := issuedAt + parseDuration context.settings.jwtExpiresIn
      jti := jti }

def authResponse (userId : Nat) (user : User) (refreshToken : String) : Db AuthResponse := do
  let accessToken ← createAccessToken context { sub := userId, email := user.email }
  return { accessToken := accessToken
           refreshToken := refreshToken
           user := .ofUser userId user }

def createRefreshSession (userId : Nat) (startedAt : Int) : Db String := do
  let rawToken ← Prog.draw
  let now ← Prog.now
  let _ ← RefreshSessions.create userId (hashRefreshToken context.crypto rawToken)
    (now + parseDuration context.settings.refreshTokenExpiresIn) startedAt
  return rawToken

/-- What `authenticate` makes of the row it found. -/
def checkCredentials (password : String) : Option (Nat × User) → Db (Nat × User)
  | none => .raise invalidCredentials
  | some (userId, user) => do
      if ← Prog.ofExcept (verifyPassword context.crypto password user.passwordHash) then
        match user.emailVerifiedAt with
        | none => .raise unconfirmedEmail
        | some _ => return (userId, user)
      else .raise invalidCredentials

def authenticate (email password : String) : Db (Nat × User) := do
  checkCredentials context password (← Users.getByEmail email)

/-- What `login` does for the user it authenticated. -/
def openSession (startedAt : Int) : Nat × User → Db AuthResponse
  | (userId, user) => do
      let rawRefreshToken ← createRefreshSession context userId startedAt
      Prog.commit
      authResponse context userId user rawRefreshToken

def login (email password : String) : Db AuthResponse := do
  let startedAt ← Prog.now
  openSession context startedAt (← authenticate context email password)

/-- Rotate a valid refresh token and extend its inactivity window. -/
def refresh (rawToken : String) : Db AuthResponse := do
  match ← RefreshSessions.getForUpdate (hashRefreshToken context.crypto rawToken) with
  | none => .raise invalidRefreshToken
  | some (sessionId, stored) =>
      let now ← Prog.now
      if stored.revokedAt.isSome ∨ stored.expiresAt ≤ now then .raise invalidRefreshToken
      else
        match ← Users.get stored.userId with
        | none => .raise invalidRefreshToken
        | some (userId, user) =>
            match user.emailVerifiedAt with
            | none => .raise invalidRefreshToken
            | some _ =>
                let replacement ← Prog.draw
                updateRow .refreshTokenSessions sessionId
                  (RefreshSessions.rotate (hashRefreshToken context.crypto replacement)
                    (now + parseDuration context.settings.refreshTokenExpiresIn) now)
                Prog.commit
                authResponse context userId user replacement

/-- Revoke one refresh-token session, without revealing whether it existed. -/
def logout (rawToken : String) : Db Unit := do
  match ← RefreshSessions.getForUpdate (hashRefreshToken context.crypto rawToken) with
  | none => Prog.commit
  | some (sessionId, stored) =>
      match stored.revokedAt with
      | some _ => Prog.commit
      | none =>
          let now ← Prog.now
          updateRow .refreshTokenSessions sessionId (RefreshSessions.revoke now)
          Prog.commit

/-- The statements that `reset_password` and `change_password` share: the flush of the new password,
the deletion of the reset tokens and the revocation of the sessions. -/
def storePassword (userId : Nat) (passwordHash : String) (now startedAt : Int) : Db Unit := do
  updateRow .users userId fun (user : User) =>
    { user with passwordHash := passwordHash, updatedAt := startedAt }
  UserTokens.deleteForUser .passwordReset userId
  let _ ← RefreshSessions.revokeForUser userId now
  Prog.commit

/-- Consume a reset token, update the password, and revoke login sessions. -/
def resetPassword (rawToken newPassword : String) : Db Unit := do
  let startedAt ← Prog.now
  match ← UserTokens.getForUpdate .passwordReset (context.crypto.sha256 rawToken) with
  | none => .raise invalidPasswordResetToken
  | some (_, resetToken) =>
      let now ← Prog.now
      if resetToken.expiresAt ≤ now then .raise invalidPasswordResetToken
      else
        match ← Users.get resetToken.userId with
        | none => .raise invalidPasswordResetToken
        | some (userId, _) =>
            let salt ← Prog.draw
            let passwordHash ← Prog.ofExcept (hashPassword context.crypto newPassword salt)
            storePassword userId passwordHash now startedAt

/-- Resolve the bearer token to a user, or reject the request. Gives the start of the transaction
too. -/
def getCurrentUser (credentials : Option String) : Db (Int × Nat × User) := do
  match credentials with
  | none => .raise unauthorized
  | some token =>
      let checkedAt ← Prog.now
      match context.crypto.decode token checkedAt with
      | none => .raise unauthorized
      | some claims =>
          let startedAt ← Prog.now
          match ← Users.get claims.sub with
          | none => .raise unauthorized
          | some (userId, user) =>
              match user.emailVerifiedAt with
              | none => .raise unauthorized
              | some _ => return (startedAt, userId, user)

/-- Change an authenticated user's password and revoke every login session. -/
def changePassword (credentials : Option String) (currentPassword newPassword : String) :
    Db Unit := do
  let (startedAt, userId, user) ← getCurrentUser context credentials
  if ← Prog.ofExcept (verifyPassword context.crypto currentPassword user.passwordHash) then
    if ← Prog.ofExcept (verifyPassword context.crypto newPassword user.passwordHash) then
      .raise passwordReuse
    else
      let now ← Prog.now
      let salt ← Prog.draw
      let passwordHash ← Prog.ofExcept (hashPassword context.crypto newPassword salt)
      storePassword userId passwordHash now startedAt
  else .raise invalidCurrentPassword

/-- What `resend_confirmation` and `forgot_password` do alike for a user they apply to: unless the
cooldown of an earlier token still runs, replace it and queue the message. -/
def sendToken (kind : TokenKind) (cooldown expiresIn : Duration)
    (email : User → String → Nat → Int → EmailMessage) (message : String) (userId : Nat)
    (user : User) (startedAt : Int) : Db String := do
  let now ← Prog.now
  let existing ← UserTokens.getForUser kind userId
  if existing.any fun (_, token) => decide (now < token.createdAt + parseDuration cooldown) then
    return message
  else
    let rawToken ← Prog.draw
    let tokenId ← UserTokens.replace kind userId (context.crypto.sha256 rawToken)
      (now + parseDuration expiresIn) startedAt
    let _ ← EmailOutbox.enqueueJob (email user rawToken tokenId now) now
      (if kind = .confirmation then some tokenId else none)
      (if kind = .passwordReset then some tokenId else none)
    Prog.commit
    return message

def resendConfirmation (email : String) : Db String := do
  let startedAt ← Prog.now
  match ← Users.getByEmail email with
  | none => return resendMessage
  | some (userId, user) =>
      match user.emailVerifiedAt with
      | some _ => return resendMessage
      | none =>
          sendToken context .confirmation context.settings.emailResendCooldown
            context.settings.emailConfirmationExpiresIn (confirmationEmail context) resendMessage
            userId user startedAt

/-- Queue reset instructions without revealing whether an account exists. -/
def forgotPassword (email : String) : Db String := do
  let startedAt ← Prog.now
  match ← Users.getByEmail email with
  | none => return passwordResetMessage
  | some (userId, user) =>
      match user.emailVerifiedAt with
      | none => return passwordResetMessage
      | some _ =>
          sendToken context .passwordReset context.settings.passwordResetCooldown
            context.settings.passwordResetExpiresIn (passwordResetEmail context)
            passwordResetMessage userId user startedAt

/-! ### Requests -/

/-- The requests that touch login sessions. -/
inductive SessionRequest where
  | login (email password : String)
  | refresh (refreshToken : String)
  | logout (refreshToken : String)
  | changePassword (credentials : Option String) (currentPassword newPassword : String)
  | resetPassword (token newPassword : String)
  deriving DecidableEq

inductive Reply where
  | auth (response : AuthResponse)
  | noContent
  deriving DecidableEq

def SessionRequest.handler : SessionRequest → Db Reply
  | .login email password => do return .auth (← EventsApi.login context email password)
  | .refresh rawToken => do return .auth (← EventsApi.refresh context rawToken)
  | .logout rawToken => do
      EventsApi.logout context rawToken
      return .noContent
  | .changePassword credentials currentPassword newPassword => do
      EventsApi.changePassword context credentials currentPassword newPassword
      return .noContent
  | .resetPassword rawToken newPassword => do
      EventsApi.resetPassword context rawToken newPassword
      return .noContent

/-- The service, as far as login sessions go. -/
def sessionSystem : System database SessionRequest Exn Reply where
  handler := SessionRequest.handler context
  lost := .lost

/-- The requests that mail a token, and how each kind of them is told apart. -/
def TokenKind.handler : TokenKind → (email : String) → Db String
  | .confirmation => resendConfirmation context
  | .passwordReset => forgotPassword context

def TokenKind.message : TokenKind → String
  | .confirmation => resendMessage
  | .passwordReset => passwordResetMessage

def TokenKind.cooldown (settings : Settings) : TokenKind → Duration
  | .confirmation => settings.emailResendCooldown
  | .passwordReset => settings.passwordResetCooldown

def TokenKind.expiresIn (settings : Settings) : TokenKind → Duration
  | .confirmation => settings.emailConfirmationExpiresIn
  | .passwordReset => settings.passwordResetExpiresIn

/-- The service, as far as one kind of token goes. -/
def tokenSystem (kind : TokenKind) : System database String Exn String where
  handler := kind.handler context
  lost := .lost

end EventsApi
