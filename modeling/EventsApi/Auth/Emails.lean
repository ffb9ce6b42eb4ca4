import EventsApi.Core.Security
import EventsApi.Mailer.Base
import EventsApi.Users.Models

/-!
# The messages of the authentication service

`_confirmation_email` and `_password_reset_email` of `app/auth/service.py`.
-/

namespace EventsApi

/-- `html.escape`. -/
def escape (text : String) : String :=
  String.join <| text.toList.map fun
    | '&' => "&amp;"
    | '<' => "&lt;"
    | '>' => "&gt;"
    | '"' => "&quot;"
    | '\'' => "&#x27;"
    | c => String.singleton c

structure ConfirmationEmailCopy where
  subject : String
  greeting : String
  instruction : String
  action : String
  requestedAt : String

structure PasswordResetEmailCopy where
  subject : String
  greeting : String
  instruction : String
  ignore : String
  action : String
  requestedAt : String

def englishConfirmation : ConfirmationEmailCopy where
  subject := "Confirm your email address"
  greeting := "Hi"
  instruction := "Confirm your email address to finish creating your account."
  action := "Confirm email address"
  requestedAt := "Link requested at"

/-- `_CONFIRMATION_EMAIL_COPY`, English where the locale has none. -/
def confirmationEmailCopy (locale : String) : ConfirmationEmailCopy :=
  if locale = "lt" then
    { subject := "Patvirtinkite el. pašto adresą"
      greeting := "Sveiki"
      instruction := "Patvirtinkite savo el. pašto adresą, kad užbaigtumėte paskyros kūrimą."
      action := "Patvirtinti el. pašto adresą"
      requestedAt := "Nuorodos užklausa pateikta" }
  else englishConfirmation

def englishPasswordReset : PasswordResetEmailCopy where
  subject := "Reset your password"
  greeting := "Hi"
  instruction := "Use the link below to choose a new password."
  ignore := "If you did not request this, you can ignore this email."
  action := "Reset password"
  requestedAt := "Link requested at"

/-- `_PASSWORD_RESET_EMAIL_COPY`, English where the locale has none. -/
def passwordResetEmailCopy (locale : String) : PasswordResetEmailCopy :=
  if locale = "lt" then
    { subject := "Atkurkite savo slaptažodį"
      greeting := "Sveiki"
      instruction := "Paspauskite žemiau esančią nuorodą ir pasirinkite naują slaptažodį."
      ignore := "Jei to neprašėte, galite nepaisyti šio laiško."
      action := "Atkurti slaptažodį"
      requestedAt := "Nuorodos užklausa pateikta" }
  else englishPasswordReset

variable (context : Context)

def confirmationEmail (user : User) (rawToken : String) (tokenId : Nat) (requestedAt : Int) :
    EmailMessage :=
  let url := context.tokenUrl context.settings.emailConfirmationUrl rawToken
  let copy := confirmationEmailCopy user.preferredLocale
  let requestedAtText := context.formatSystemTimestamp requestedAt
  { toAddress := user.email
    subject := copy.subject
    text := copy.greeting ++ " " ++ user.firstName ++ ",\n\n"
      ++ copy.instruction ++ "\n\n"
      ++ url ++ "\n\n"
      ++ copy.requestedAt ++ ": " ++ requestedAtText
    html := "<p>" ++ copy.greeting ++ " " ++ escape user.firstName ++ ",</p>"
      ++ "<p>" ++ copy.instruction ++ "</p>"
      ++ "<p><a href=\"" ++ escape url ++ "\">" ++ copy.action ++ "</a></p>"
      ++ "<p>" ++ copy.requestedAt ++ ": " ++ requestedAtText ++ "</p>"
    idempotencyKey := some ("email-confirmation/" ++ toString tokenId) }

def passwordResetEmail (user : User) (rawToken : String) (tokenId : Nat) (requestedAt : Int) :
    EmailMessage :=
  let url := context.tokenUrl context.settings.passwordResetUrl rawToken
  let copy := passwordResetEmailCopy user.preferredLocale
  let requestedAtText := context.formatSystemTimestamp requestedAt
  { toAddress := user.email
    subject := copy.subject
    text := copy.greeting ++ " " ++ user.firstName ++ ",\n\n"
      ++ copy.instruction ++ "\n\n"
      ++ url ++ "\n\n"
      ++ copy.requestedAt ++ ": " ++ requestedAtText ++ "\n\n"
      ++ copy.ignore
    html := "<p>" ++ copy.greeting ++ " " ++ escape user.firstName ++ ",</p>"
      ++ "<p>" ++ copy.instruction ++ "</p>"
      ++ "<p><a href=\"" ++ escape url ++ "\">" ++ copy.action ++ "</a></p>"
      ++ "<p>" ++ copy.requestedAt ++ ": " ++ requestedAtText ++ "</p>"
      ++ "<p>" ++ copy.ignore ++ "</p>"
    idempotencyKey := some ("password-reset/" ++ toString tokenId) }

end EventsApi
