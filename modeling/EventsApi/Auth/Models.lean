import EventsApi.Users.Models
import EventsApi.Core.Errors
import EventsApi.Mailer.Repository
import EventsApi.Library.ReadCommitted.Program

/-!
# The database of the authentication service

`app/auth/models.py`, and the tables its transactions touch, with their unique constraints.
-/

namespace EventsApi

/-- A revocable, independently rotating login session. -/
structure RefreshTokenSession where
  userId : Nat
  tokenHash : String
  expiresAt : Int
  revokedAt : Option Int
  createdAt : Int
  updatedAt : Int
  deriving DecidableEq

inductive Table where
  | users
  | tokens (kind : TokenKind)
  | refreshTokenSessions
  | emailOutboxJobs
  deriving DecidableEq

def Table.Row : Table → Type
  | .users => User
  | .tokens _ => UserToken
  | .refreshTokenSessions => RefreshTokenSession
  | .emailOutboxJobs => EmailOutboxJob

instance (T : Table) : DecidableEq T.Row :=
  match T with
  | .users => inferInstanceAs (DecidableEq User)
  | .tokens _ => inferInstanceAs (DecidableEq UserToken)
  | .refreshTokenSessions => inferInstanceAs (DecidableEq RefreshTokenSession)
  | .emailOutboxJobs => inferInstanceAs (DecidableEq EmailOutboxJob)

/-- The unique constraints. -/
def clash : (T : Table) → T.Row → T.Row → Bool
  | .users, (a : User), (b : User) => a.email == b.email
  | .tokens _, (a : UserToken), (b : UserToken) =>
      a.userId == b.userId || a.tokenHash == b.tokenHash
  | .refreshTokenSessions, (a : RefreshTokenSession), (b : RefreshTokenSession) =>
      a.tokenHash == b.tokenHash
  | .emailOutboxJobs, (a : EmailOutboxJob), (b : EmailOutboxJob) => a.collides b

def database : ReadCommitted.Schema where
  Table := Table
  Row := Table.Row
  clash := clash
  tableEq := inferInstance
  rowEq := inferInstance

/-- A database with users and nothing else. -/
def storedUsers {Req : Type} (users : List User) : ReadCommitted.World database Req where
  slot
    | .users, id => ⟨users[id]?, none⟩
    | _, _ => .empty
  next
    | .users => users.length
    | _ => 0
  clock := 0
  drawn := []
  trace := []
  request _ := none

theorem storedUsers_initial {Req : Type} (users : List User) :
    (storedUsers users : ReadCommitted.World database Req).Initial where
  unlocked T id := by cases T <;> rfl
  beyond T id hle := by
    cases T with
    | users => exact congrArg (ReadCommitted.Slot.mk · none) (List.getElem?_eq_none hle)
    | _ => rfl
  undrawn := rfl
  untraced := rfl
  unrequested _ := rfl

/-- A transaction of the application. -/
abbrev Db (α : Type) : Type 1 := ReadCommitted.Prog database Exn α

end EventsApi
