import Mathlib.Init

/-!
# Users and the tokens mailed to them

`app/users/models.py` and `PasswordResetToken` of `app/auth/models.py`, which has the same columns
as `EmailConfirmationToken`. Primary keys are not part of a row: they say where it is stored.
-/

namespace EventsApi

structure User where
  email : String
  passwordHash : String
  firstName : String
  lastName : String
  emailVerifiedAt : Option Int
  preferredLocale : String
  termsAcceptedAt : Int
  termsVersion : String
  marketingEmailConsent : Bool
  marketingEmailConsentUpdatedAt : Option Int
  marketingPushConsent : Bool
  marketingPushConsentUpdatedAt : Option Int
  favoriteEventIds : List Int
  createdAt : Int
  updatedAt : Int
  deriving DecidableEq

inductive TokenKind where
  | confirmation
  | passwordReset
  deriving DecidableEq

/-- A short-lived, single-use token of a user. -/
structure UserToken where
  userId : Nat
  tokenHash : String
  expiresAt : Int
  createdAt : Int
  deriving DecidableEq

/-- A user as returned by the API. Never carries the password hash. -/
structure UserResponse where
  id : Nat
  email : String
  firstName : String
  lastName : String
  favoriteEventIds : List Int
  termsAcceptedAt : Int
  termsVersion : String
  marketingEmailConsent : Bool
  marketingEmailConsentUpdatedAt : Option Int
  marketingPushConsent : Bool
  marketingPushConsentUpdatedAt : Option Int
  createdAt : Int
  deriving DecidableEq

/-- `UserResponse.model_validate`. -/
def UserResponse.ofUser (id : Nat) (user : User) : UserResponse where
  id := id
  email := user.email
  firstName := user.firstName
  lastName := user.lastName
  favoriteEventIds := user.favoriteEventIds
  termsAcceptedAt := user.termsAcceptedAt
  termsVersion := user.termsVersion
  marketingEmailConsent := user.marketingEmailConsent
  marketingEmailConsentUpdatedAt := user.marketingEmailConsentUpdatedAt
  marketingPushConsent := user.marketingPushConsent
  marketingPushConsentUpdatedAt := user.marketingPushConsentUpdatedAt
  createdAt := user.createdAt

end EventsApi
