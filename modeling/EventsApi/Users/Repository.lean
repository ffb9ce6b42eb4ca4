import EventsApi.Auth.Repository

/-!
# Data access for users

The writing half of `app/users/repository.py`. A bulk `UPDATE` commits in the function that issues
it, and the loaded row is refreshed after that. `startedAt` is the time the transaction began.
-/

namespace EventsApi

open ReadCommitted

namespace Users

def create (email passwordHash firstName lastName preferredLocale : String) (termsAcceptedAt : Int)
    (termsVersion : String) (marketingEmailConsent : Bool) (marketingEmailConsentUpdatedAt : Int)
    (marketingPushConsent : Bool) (marketingPushConsentUpdatedAt startedAt : Int) :
    Db (Nat × User) := do
  let user : User :=
    { email := email
      passwordHash := passwordHash
      firstName := firstName
      lastName := lastName
      emailVerifiedAt := none
      preferredLocale := preferredLocale
      termsAcceptedAt := termsAcceptedAt
      termsVersion := termsVersion
      marketingEmailConsent := marketingEmailConsent
      marketingEmailConsentUpdatedAt := some marketingEmailConsentUpdatedAt
      marketingPushConsent := marketingPushConsent
      marketingPushConsentUpdatedAt := some marketingPushConsentUpdatedAt
      favoriteEventIds := []
      createdAt := startedAt
      updatedAt := startedAt }
  let userId ← insertRow .users fun _ => user
  return (userId, user)

/-- `session.refresh(user)`. -/
def refresh (userId : Nat) : Db (Nat × User) := do
  match ← get userId with
  | none => .raise .invalidRequestError
  | some found => return found

/-- `ON DELETE CASCADE` of a deleted user: the tokens of both kinds with their jobs, and the login
sessions. -/
def deleteOwned : List Nat → Db Unit
  | [] => .pure ()
  | userId :: userIds => do
      UserTokens.deleteForUser .confirmation userId
      UserTokens.deleteForUser .passwordReset userId
      let _ ← Prog.deleteWhere (S := database) .refreshTokenSessions
        fun _ (session : RefreshTokenSession) => session.userId == userId
      deleteOwned userIds

def deleteUser (userId : Nat) : Db Unit := do
  let deleted ← Prog.deleteWhere (S := database) .users fun id _ => id == userId
  deleteOwned (deleted.map (·.1))
  Prog.commit

/-- The columns of the supplied channels whose value differs from the loaded row. -/
def changedConsents (user : User) (marketingEmailConsent marketingPushConsent : Option Bool) :
    Option Bool × Option Bool :=
  (marketingEmailConsent.filter (· != user.marketingEmailConsent),
    marketingPushConsent.filter (· != user.marketingPushConsent))

/-- The `SET` clause with these columns. -/
def setConsents (values : Option Bool × Option Bool) (updatedAt startedAt : Int) (user : User) :
    User :=
  { user with
    marketingEmailConsent := values.1.getD user.marketingEmailConsent
    marketingEmailConsentUpdatedAt :=
      if values.1.isSome then some updatedAt else user.marketingEmailConsentUpdatedAt
    marketingPushConsent := values.2.getD user.marketingPushConsent
    marketingPushConsentUpdatedAt :=
      if values.2.isSome then some updatedAt else user.marketingPushConsentUpdatedAt
    updatedAt := startedAt }

def updateMarketingConsents (userId : Nat) (user : User)
    (marketingEmailConsent marketingPushConsent : Option Bool) (updatedAt startedAt : Int) :
    Db (Nat × User) := do
  let values := changedConsents user marketingEmailConsent marketingPushConsent
  if values.1.isSome ∨ values.2.isSome then
    let _ ← Prog.updateWhere (S := database) .users (fun id _ => id == userId)
      (setConsents values updatedAt startedAt)
    Prog.commit
    refresh userId
  else return (userId, user)

/-- Append an event to the user's favorites, ignoring duplicates. -/
def addFavorite (userId : Nat) (eventId startedAt : Int) : Db (Nat × User) := do
  let _ ← Prog.updateWhere (S := database) .users
    (fun id (user : User) => id == userId && !user.favoriteEventIds.contains eventId)
    fun (user : User) =>
      { user with favoriteEventIds := user.favoriteEventIds ++ [eventId], updatedAt := startedAt }
  Prog.commit
  refresh userId

/-- PostgreSQL's `array_remove`: every occurrence goes. -/
def arrayRemove (ids : List Int) (eventId : Int) : List Int := ids.filter (· != eventId)

/-- Remove an event from the user's favorites, ignoring absences. -/
def removeFavorite (userId : Nat) (eventId startedAt : Int) : Db (Nat × User) := do
  let _ ← Prog.updateWhere (S := database) .users (fun id _ => id == userId)
    fun (user : User) =>
      { user with
        favoriteEventIds := arrayRemove user.favoriteEventIds eventId
        updatedAt := startedAt }
  Prog.commit
  refresh userId

end Users

/-! ### Requests -/

inductive FavoriteChange where
  | add (eventId : Int)
  | remove (eventId : Int)
  deriving DecidableEq

def FavoriteChange.eventId : FavoriteChange → Int
  | .add eventId | .remove eventId => eventId

structure FavoriteRequest where
  userId : Nat
  change : FavoriteChange
  deriving DecidableEq

def FavoriteRequest.handler (request : FavoriteRequest) : Db (Nat × User) := do
  let startedAt ← Prog.now
  match request.change with
  | .add eventId => Users.addFavorite request.userId eventId startedAt
  | .remove eventId => Users.removeFavorite request.userId eventId startedAt

/-- The service, as far as favorites go. -/
def favoriteSystem : System database FavoriteRequest Exn (Nat × User) where
  handler := FavoriteRequest.handler
  lost := .lost

end EventsApi
