import EventsApi.Auth.Service
import EventsApi.Users.Repository

/-!
# Registration

`register` and `confirm_email` of `app/auth/service.py`, `RegisterRequest` of `app/users/schemas.py`
and `app/legal/repository.py`. Nothing in the service changes a legal page. An `INSERT` that a unique
constraint refuses rolls the transaction back, which the model has at the end of it.
-/

namespace EventsApi

open ReadCommitted

def duplicateEmail : Exn := .http .conflict "A user with this email already exists" []

def termsUnavailable : Exn :=
  .http .serviceUnavailable "Terms and Conditions are temporarily unavailable" []

def invalidConfirmationToken : Exn := .http .badRequest "Invalid or expired confirmation token" []

def registrationMessage : String :=
  "Registration successful. Check your email to confirm your account."

def minPasswordLength : Nat := 8

def supportedLocales : List String := ["en", "lt"]

/-- Payload for creating an account. The locale has been normalized. -/
structure RegisterRequest where
  email : String
  password : String
  firstName : String
  lastName : String
  locale : String
  marketingEmailConsent : Bool
  marketingPushConsent : Bool
  passwordLength : minPasswordLength ≤ password.length
  firstNameLength : 1 ≤ firstName.length
  lastNameLength : 1 ≤ lastName.length
  localeSupported : locale ∈ supportedLocales
  deriving DecidableEq

/-- A localized legal document. -/
structure LegalPage where
  slug : String
  locale : String
  version : String
  deriving DecidableEq

def termsSlug : String := "terms-and-conditions"

/-- Return the published Terms version for a locale. -/
def getTermsVersion (legalPages : List LegalPage) (locale : String) : Option String :=
  (legalPages.find? fun page => page.slug == termsSlug && page.locale == locale).map (·.version)

variable (context : Context)

/-- What `register` does under `try`. -/
def createAccount (payload : RegisterRequest) (termsVersion rawToken : String)
    (now startedAt : Int) : Db Unit := do
  let salt ← Prog.draw
  let passwordHash ← Prog.ofExcept (hashPassword context.crypto payload.password salt)
  let (userId, user) ← Users.create payload.email passwordHash payload.firstName payload.lastName
    payload.locale now termsVersion payload.marketingEmailConsent now payload.marketingPushConsent
    now startedAt
  let tokenId ← UserTokens.replace .confirmation userId (context.crypto.sha256 rawToken)
    (now + parseDuration context.settings.emailConfirmationExpiresIn) startedAt
  let _ ← EmailOutbox.enqueueJob (confirmationEmail context user rawToken tokenId now) now
    (some tokenId) none
  Prog.commit

/-- `except IntegrityError`. -/
def duplicateOnIntegrityError : Exn → Exn
  | .integrityError => duplicateEmail
  | error => error

def register (legalPages : List LegalPage) (payload : RegisterRequest) : Db String := do
  let startedAt ← Prog.now
  match ← Users.getByEmail payload.email with
  | some _ => .raise duplicateEmail
  | none =>
      match getTermsVersion legalPages payload.locale with
      | none => .raise termsUnavailable
      | some termsVersion =>
          let rawToken ← Prog.draw
          let now ← Prog.now
          (createAccount context payload termsVersion rawToken now startedAt).mapError
            duplicateOnIntegrityError
          return registrationMessage

/-- Consume a confirmation token and mark the address as verified. -/
def confirmEmail (rawToken : String) : Db Unit := do
  let startedAt ← Prog.now
  match ← UserTokens.getForUpdate .confirmation (context.crypto.sha256 rawToken) with
  | none => .raise invalidConfirmationToken
  | some (_, confirmation) =>
      let now ← Prog.now
      if confirmation.expiresAt ≤ now then .raise invalidConfirmationToken
      else
        match ← Users.get confirmation.userId with
        | none => .raise invalidConfirmationToken
        | some (userId, _) =>
            updateRow .users userId fun (user : User) =>
              { user with emailVerifiedAt := some now, updatedAt := startedAt }
            UserTokens.deleteForUser .confirmation userId
            Prog.commit

/-! ### Requests -/

/-- The service, as far as registration goes. -/
def registrationSystem (legalPages : List LegalPage) :
    System database RegisterRequest Exn String where
  handler := register context legalPages
  lost := .lost

/-- The requests that deal with confirmation tokens. -/
inductive ConfirmationRequest where
  | register (payload : RegisterRequest)
  | confirmEmail (token : String)
  | resendConfirmation (email : String)
  deriving DecidableEq

/-- The answer is a message, or has no content. -/
def ConfirmationRequest.handler (legalPages : List LegalPage) :
    ConfirmationRequest → Db (Option String)
  | .register payload => do return some (← EventsApi.register context legalPages payload)
  | .confirmEmail rawToken => do
      EventsApi.confirmEmail context rawToken
      return none
  | .resendConfirmation email => do return some (← EventsApi.resendConfirmation context email)

/-- The service, as far as confirmation tokens go. -/
def confirmationSystem (legalPages : List LegalPage) :
    System database ConfirmationRequest Exn (Option String) where
  handler := ConfirmationRequest.handler context legalPages
  lost := .lost

end EventsApi
