import EventsApi.Auth.Models

/-!
# Data access of the authentication service

`app/users/repository.py`, `app/auth/repository.py`, `app/auth/password_repository.py`,
`app/auth/session_repository.py` and the enqueueing of `app/mailer/repository.py`, statement by
statement. The two token repositories are the same functions on two tables. `startedAt` is the time
the transaction began, which the database takes for `now()`.
-/

namespace EventsApi

open ReadCommitted

/-- `session.add` and `session.flush`: an `INSERT` that gives the new primary key. -/
def insertRow (T : Table) (row : Nat → T.Row) : Db Nat :=
  .exec (.insert (S := database) T row) fun
    | none => .raise .integrityError
    | some id => .pure id

/-- The flush of a changed object: an `UPDATE` by primary key. -/
def updateRow (T : Table) (id : Nat) (f : T.Row → T.Row) : Db Unit :=
  .exec (.lock (S := database) T id (fun _ => true) fun row => some (f row)) fun
    | none => .raise .staleDataError
    | some _ => .pure ()

namespace Users

def getByEmail (email : String) : Db (Option (Nat × User)) :=
  Prog.scalar (S := database) .users fun _ (user : User) => user.email == email

def get (userId : Nat) : Db (Option (Nat × User)) :=
  Prog.scalar (S := database) .users fun id _ => id == userId

end Users

namespace RefreshSessions

def create (userId : Nat) (tokenHash : String) (expiresAt startedAt : Int) : Db Nat :=
  insertRow .refreshTokenSessions fun _ =>
    { userId := userId
      tokenHash := tokenHash
      expiresAt := expiresAt
      revokedAt := none
      createdAt := startedAt
      updatedAt := startedAt : RefreshTokenSession }

def getForUpdate (tokenHash : String) : Db (Option (Nat × RefreshTokenSession)) :=
  Prog.scalarForUpdate (S := database) .refreshTokenSessions
    fun _ (session : RefreshTokenSession) => session.tokenHash == tokenHash

def rotate (tokenHash : String) (expiresAt now : Int) (session : RefreshTokenSession) :
    RefreshTokenSession :=
  { session with tokenHash := tokenHash, expiresAt := expiresAt, updatedAt := now }

def revoke (now : Int) (session : RefreshTokenSession) : RefreshTokenSession :=
  { session with revokedAt := some now, updatedAt := now }

/-- Revoke every active login session after a password change. -/
def revokeForUser (userId : Nat) (now : Int) : Db (List (Nat × RefreshTokenSession)) :=
  Prog.updateWhere (S := database) .refreshTokenSessions
    (fun _ (session : RefreshTokenSession) =>
      session.userId == userId && session.revokedAt.isNone)
    (revoke now)

end RefreshSessions

namespace UserTokens

variable (kind : TokenKind)

def getForUpdate (tokenHash : String) : Db (Option (Nat × UserToken)) :=
  Prog.scalarForUpdate (S := database) (.tokens kind)
    fun _ (token : UserToken) => token.tokenHash == tokenHash

def getForUser (userId : Nat) : Db (Option (Nat × UserToken)) :=
  Prog.scalar (S := database) (.tokens kind) fun _ (token : UserToken) => token.userId == userId

/-- The jobs that go with a token row. -/
def linkedJob (tokenId : Nat) : EmailOutboxJob → Bool :=
  match kind with
  | .confirmation => EmailOutbox.linkedToConfirmationToken tokenId
  | .passwordReset => EmailOutbox.linkedToPasswordResetToken tokenId

/-- `ON DELETE CASCADE` of the deleted tokens. -/
def deleteLinkedJobs : List Nat → Db Unit
  | [] => .pure ()
  | tokenId :: tokenIds => do
      let _ ← Prog.deleteWhere (S := database) .emailOutboxJobs fun _ => linkedJob kind tokenId
      deleteLinkedJobs tokenIds

def deleteForUser (userId : Nat) : Db Unit := do
  let deleted ← Prog.deleteWhere (S := database) (.tokens kind)
    fun _ (token : UserToken) => token.userId == userId
  deleteLinkedJobs kind (deleted.map (·.1))

def replace (userId : Nat) (tokenHash : String) (expiresAt startedAt : Int) : Db Nat := do
  deleteForUser kind userId
  insertRow (.tokens kind) fun _ =>
    { userId := userId
      tokenHash := tokenHash
      expiresAt := expiresAt
      createdAt := startedAt : UserToken }

end UserTokens

namespace EmailOutbox

/-- `enqueue`, as part of the transaction that makes the token. -/
def enqueueJob (message : EmailMessage) (now : Int)
    (confirmationTokenId passwordResetTokenId : Option Nat) : Db Nat :=
  match message.idempotencyKey with
  | none => .raise .valueError
  | some key =>
      insertRow .emailOutboxJobs fun id =>
        newJob id message key now confirmationTokenId passwordResetTokenId

end EmailOutbox

end EventsApi
