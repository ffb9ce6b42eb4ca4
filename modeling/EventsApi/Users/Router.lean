import EventsApi.Users.Service

/-!
# The endpoints of users

`app/auth/router.py` and `app/users/router.py`. The listing of the favorites is with the events: of
the tables here it reads what the profile reads. The service neither adds nor deletes an event.
-/

namespace EventsApi

open ReadCommitted

/-- A path parameter. -/
abbrev EventId := { eventId : Int // 1 ≤ eventId }

def eventNotFound (eventId : EventId) : Exn :=
  .http .notFound ("Event with ID " ++ toString eventId.val ++ " not found") []

inductive UserRequest where
  | register (payload : RegisterRequest)
  | confirmEmail (token : String)
  | resendConfirmation (email : String)
  | forgotPassword (email : String)
  | resetPassword (token newPassword : String)
  | changePassword (credentials : Option String) (currentPassword newPassword : String)
  | login (email password : String)
  | refresh (refreshToken : String)
  | logout (refreshToken : String)
  | getProfile (credentials : Option String)
  | deleteProfile (credentials : Option String) (password : String)
  | updateMarketingConsents (credentials : Option String) (payload : MarketingConsentsUpdateRequest)
  | addFavorite (credentials : Option String) (eventId : EventId)
  | removeFavorite (credentials : Option String) (eventId : EventId)
  deriving DecidableEq

inductive UserReply where
  | message (text : String)
  | auth (response : AuthResponse)
  | profile (user : UserResponse)
  | consents (response : MarketingConsentsResponse)
  | noContent
  deriving DecidableEq

variable (context : Context)

def getProfile (credentials : Option String) : Db UserResponse := do
  let (_, userId, user) ← getCurrentUser context credentials
  return .ofUser userId user

def addFavorite (eventIds : List Int) (credentials : Option String) (eventId : EventId) :
    Db UserResponse := do
  let (startedAt, userId, _) ← getCurrentUser context credentials
  if eventId.val ∈ eventIds then
    let (updatedId, updated) ← Users.addFavorite userId eventId.val startedAt
    return .ofUser updatedId updated
  else .raise (eventNotFound eventId)

def removeFavorite (credentials : Option String) (eventId : EventId) : Db UserResponse := do
  let (startedAt, userId, _) ← getCurrentUser context credentials
  let (updatedId, updated) ← Users.removeFavorite userId eventId.val startedAt
  return .ofUser updatedId updated

def UserRequest.handler (legalPages : List LegalPage) (eventIds : List Int) :
    UserRequest → Db UserReply
  | .register payload => do return .message (← EventsApi.register context legalPages payload)
  | .confirmEmail token => do
      EventsApi.confirmEmail context token
      return .noContent
  | .resendConfirmation email => do
      return .message (← EventsApi.resendConfirmation context email)
  | .forgotPassword email => do return .message (← EventsApi.forgotPassword context email)
  | .resetPassword token newPassword => do
      EventsApi.resetPassword context token newPassword
      return .noContent
  | .changePassword credentials currentPassword newPassword => do
      EventsApi.changePassword context credentials currentPassword newPassword
      return .noContent
  | .login email password => do return .auth (← EventsApi.login context email password)
  | .refresh refreshToken => do return .auth (← EventsApi.refresh context refreshToken)
  | .logout refreshToken => do
      EventsApi.logout context refreshToken
      return .noContent
  | .getProfile credentials => do return .profile (← EventsApi.getProfile context credentials)
  | .deleteProfile credentials password => do
      deleteAccount context credentials password
      return .noContent
  | .updateMarketingConsents credentials payload => do
      return .consents (← ConsentRequest.handler context ⟨credentials, payload⟩)
  | .addFavorite credentials eventId => do
      return .profile (← EventsApi.addFavorite context eventIds credentials eventId)
  | .removeFavorite credentials eventId => do
      return .profile (← EventsApi.removeFavorite context credentials eventId)

/-- The service, as far as users go. -/
def userSystem (legalPages : List LegalPage) (eventIds : List Int) :
    System database UserRequest Exn UserReply where
  handler := UserRequest.handler context legalPages eventIds
  lost := .lost

end EventsApi
