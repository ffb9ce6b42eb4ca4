import Mathlib.Init

/-!
# Email messages

`app/mailer/base.py`.
-/

namespace EventsApi

/-- An email independent of any delivery provider's request shape. -/
structure EmailMessage where
  toAddress : String
  subject : String
  text : String
  html : String
  replyTo : Option String := none
  idempotencyKey : Option String := none
  deriving DecidableEq

/-- Raised when an email provider cannot accept a message. -/
structure EmailDeliveryError where
  message : String
  retryable : Bool := true
  errorCode : Option String := none
  statusCode : Option Nat := none
  deriving DecidableEq

end EventsApi
