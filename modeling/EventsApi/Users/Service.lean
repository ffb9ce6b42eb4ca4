import EventsApi.Auth.Registration

/-!
# Account lifecycle

`app/users/service.py` and the consents of `app/users/schemas.py`. The row of the user is the one
that was loaded when the request was authenticated.
-/

namespace EventsApi

open ReadCommitted

/-- One or both channel-specific marketing preferences. -/
structure MarketingConsentsUpdateRequest where
  marketingEmailConsent : Option Bool
  marketingPushConsent : Option Bool
  requirePreference : marketingEmailConsent ≠ none ∨ marketingPushConsent ≠ none
  deriving DecidableEq

structure MarketingConsentsResponse where
  marketingEmailConsent : Bool
  marketingEmailConsentUpdatedAt : Option Int
  marketingPushConsent : Bool
  marketingPushConsentUpdatedAt : Option Int
  deriving DecidableEq

/-- `MarketingConsentsResponse.model_validate`. -/
def MarketingConsentsResponse.ofUser (user : User) : MarketingConsentsResponse where
  marketingEmailConsent := user.marketingEmailConsent
  marketingEmailConsentUpdatedAt := user.marketingEmailConsentUpdatedAt
  marketingPushConsent := user.marketingPushConsent
  marketingPushConsentUpdatedAt := user.marketingPushConsentUpdatedAt

/-- Update only the marketing channels supplied by the user. -/
def updateMarketingConsents (userId : Nat) (user : User) (startedAt : Int)
    (payload : MarketingConsentsUpdateRequest) : Db MarketingConsentsResponse := do
  let updatedAt ← Prog.now
  let (_, updated) ← Users.updateMarketingConsents userId user payload.marketingEmailConsent
    payload.marketingPushConsent updatedAt startedAt
  return .ofUser updated

variable (context : Context)

/-- Permanently delete an account after confirming its current password. -/
def deleteAccount (credentials : Option String) (password : String) : Db Unit := do
  let (_, userId, user) ← getCurrentUser context credentials
  if ← Prog.ofExcept (verifyPassword context.crypto password user.passwordHash) then
    Users.deleteUser userId
  else .raise invalidCurrentPassword

/-! ### Requests -/

structure ConsentRequest where
  credentials : Option String
  payload : MarketingConsentsUpdateRequest
  deriving DecidableEq

def ConsentRequest.handler (request : ConsentRequest) : Db MarketingConsentsResponse := do
  let (startedAt, userId, user) ← getCurrentUser context request.credentials
  updateMarketingConsents userId user startedAt request.payload

/-- The service, as far as marketing consents go. -/
def consentSystem : System database ConsentRequest Exn MarketingConsentsResponse where
  handler := ConsentRequest.handler context
  lost := .lost

/-- The requests that make tokens, or use or delete them. -/
inductive AccountRequest where
  | register (payload : RegisterRequest)
  | confirmEmail (token : String)
  | resendConfirmation (email : String)
  | forgotPassword (email : String)
  | resetPassword (token newPassword : String)
  | changePassword (credentials : Option String) (currentPassword newPassword : String)
  | deleteAccount (credentials : Option String) (password : String)
  deriving DecidableEq

/-- The answer is a message, or has no content. -/
def AccountRequest.handler (legalPages : List LegalPage) : AccountRequest → Db (Option String)
  | .register payload => do return some (← EventsApi.register context legalPages payload)
  | .confirmEmail rawToken => do
      EventsApi.confirmEmail context rawToken
      return none
  | .resendConfirmation email => do return some (← EventsApi.resendConfirmation context email)
  | .forgotPassword email => do return some (← EventsApi.forgotPassword context email)
  | .resetPassword rawToken newPassword => do
      EventsApi.resetPassword context rawToken newPassword
      return none
  | .changePassword credentials currentPassword newPassword => do
      EventsApi.changePassword context credentials currentPassword newPassword
      return none
  | .deleteAccount credentials password => do
      EventsApi.deleteAccount context credentials password
      return none

/-- The service, as far as accounts and their tokens go. -/
def accountSystem (legalPages : List LegalPage) :
    System database AccountRequest Exn (Option String) where
  handler := AccountRequest.handler context legalPages
  lost := .lost

/-- The requests that lock the password, the reset token or the sessions of a user, and the login
that makes the sessions. -/
inductive CredentialRequest where
  | login (email password : String)
  | refresh (refreshToken : String)
  | logout (refreshToken : String)
  | forgotPassword (email : String)
  | resetPassword (token newPassword : String)
  | changePassword (credentials : Option String) (currentPassword newPassword : String)
  | deleteAccount (credentials : Option String) (password : String)
  deriving DecidableEq

inductive CredentialReply where
  | auth (response : AuthResponse)
  | message (text : String)
  | noContent
  deriving DecidableEq

def CredentialRequest.handler : CredentialRequest → Db CredentialReply
  | .login email password => do return .auth (← EventsApi.login context email password)
  | .refresh rawToken => do return .auth (← EventsApi.refresh context rawToken)
  | .logout rawToken => do
      EventsApi.logout context rawToken
      return .noContent
  | .forgotPassword email => do return .message (← EventsApi.forgotPassword context email)
  | .resetPassword rawToken newPassword => do
      EventsApi.resetPassword context rawToken newPassword
      return .noContent
  | .changePassword credentials currentPassword newPassword => do
      EventsApi.changePassword context credentials currentPassword newPassword
      return .noContent
  | .deleteAccount credentials password => do
      EventsApi.deleteAccount context credentials password
      return .noContent

/-- The service, as far as the credentials of users go. -/
def credentialSystem : System database CredentialRequest Exn CredentialReply where
  handler := CredentialRequest.handler context
  lost := .lost

end EventsApi
