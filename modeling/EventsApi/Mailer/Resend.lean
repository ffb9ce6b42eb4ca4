import EventsApi.Mailer.Base
import EventsApi.Library.FloatOrder
import Mathlib.Data.Rat.Defs
import Mathlib.Algebra.Order.Ring.Unbundled.Rat

/-!
# The Resend adapter

`app/mailer/resend.py`. What the provider answers to each request is a parameter, and a delivery is
the requests it makes with how it ends. The loop is written twice: once with what decides which
requests are made, and once with the bodies, the headers and the waiting between two requests.
-/

namespace EventsApi

namespace Resend

def emailsUrl : String := "https://api.resend.com/emails"

def maxAttempts : Nat := 3

def retryableServerStatuses : List Nat := [500, 502, 503, 504]

def retryableConflictCodes : List String := ["concurrent_idempotent_requests", "resource_locked"]

/-- What `response.json()` raises on a body nested deeper than the interpreter follows. It is no
`ValueError` and no `httpx.HTTPError`, so no handler of the adapter catches it. -/
inductive RecursionError where
  | recursionError
  deriving DecidableEq

/-- A response, with what reading the `name` or `code` of its body gives. -/
structure Response where
  statusCode : Nat
  errorCode : Except RecursionError (Option String)

/-- What `client.post` returns or raises. `httpError` is an `httpx.HTTPError` that is no
`TransportError`. -/
inductive PostResult where
  | responded (response : Response)
  | transportError (name : String)
  | httpError (name : String)

/-- What ends a delivery that failed. -/
inductive Failure where
  | status (response : Response)
  | transportError (name : String)
  | httpError (name : String)
  | recursionError

/-- What `send` raises. -/
inductive SendError where
  | delivery (error : EmailDeliveryError)
  | recursionError
  deriving DecidableEq

structure Payload where
  fromAddress : String
  toAddresses : List String
  subject : String
  text : String
  html : String
  replyTo : Option String
  deriving DecidableEq

/-- A request with the headers of the adapter. -/
structure Post where
  url : String
  authorization : String
  idempotencyKey : String
  payload : Payload
  deriving DecidableEq

def Response.isSuccess (response : Response) : Bool :=
  decide (200 ≤ response.statusCode ∧ response.statusCode ≤ 299)

/-- The code is read for every other status too, though only two of them look at it. -/
def isRetryableResponse (response : Response) : Except RecursionError Bool :=
  if response.statusCode ∈ retryableServerStatuses then .ok true
  else
    response.errorCode.map fun errorCode =>
      if response.statusCode = 409 then errorCode.any (retryableConflictCodes.contains ·)
      else if response.statusCode = 429 then errorCode == some "rate_limit_exceeded"
      else false

/-- The line of the log, which reads the code, and `raise_for_status`. -/
def Response.raised (response : Response) : Failure :=
  match response.errorCode with
  | .error _ => .recursionError
  | .ok _ => .status response

/-- What `send` raises for a failure. -/
def deliveryError : Failure → SendError
  | .status response =>
      match isRetryableResponse response, response.errorCode with
      | .ok retryable, .ok errorCode =>
          .delivery
            { message := "Resend rejected the email"
              retryable := retryable
              errorCode := errorCode
              statusCode := some response.statusCode }
      | _, _ => .recursionError
  | .transportError name =>
      .delivery { message := "Could not reach Resend", errorCode := some name }
  | .httpError name =>
      .delivery { message := "Resend rejected the email", errorCode := some name }
  | .recursionError => .recursionError

/-- The loop of `_send_with_retry`, with the number of attempts left. -/
def sendWithRetryFrom (post : Post) (results : Nat → PostResult) (attempt : Nat) :
    (left : Nat) → List Post × Except Failure Unit
  | 0 => ([], .ok ())
  | left + 1 =>
      let again :=
        let (posts, result) := sendWithRetryFrom post results (attempt + 1) left
        (post :: posts, result)
      match results attempt with
      | .httpError name => ([post], .error (.httpError name))
      | .transportError name =>
          if left = 0 then ([post], .error (.transportError name)) else again
      | .responded response =>
          if response.isSuccess then ([post], .ok ())
          else
            match isRetryableResponse response with
            | .error _ => ([post], .error .recursionError)
            | .ok retryable =>
                if !retryable ∨ left = 0 then ([post], .error response.raised) else again

/-! ### Bodies, headers and waiting -/

inductive JsonValue where
  | text (s : String)
  | other

/-- What `response.json()` makes of a body. A `ValueError` is `invalid`, a `RecursionError`
`tooDeep`. -/
inductive Body where
  | invalid
  | tooDeep
  | other
  | object (entry : String → Option JsonValue)

def errorCode : Body → Except RecursionError (Option String)
  | .invalid | .other => .ok none
  | .tooDeep => .error .recursionError
  | .object entry => .ok <| ["name", "code"].findSome? fun key =>
      match entry key with
      | some (.text s) => some s
      | _ => none

/-- A response with its body and its headers by lower-case name. -/
structure HttpResponse where
  statusCode : Nat
  body : Body
  header : String → Option String

/-- What the classification reads of a response. -/
def HttpResponse.response (response : HttpResponse) : Response :=
  ⟨response.statusCode, errorCode response.body⟩

inductive Outcome where
  | responded (response : HttpResponse)
  | transportError (name : String)
  | httpError (name : String)

def Outcome.result : Outcome → PostResult
  | .responded response => .responded response.response
  | .transportError name => .transportError name
  | .httpError name => .httpError name

/-- `float` on a header's text, where a `ValueError` is `none`, and the jitter drawn at each
attempt. -/
structure Waiting where
  parseFloat : String → Option (FloatOrder.Value Rat)
  jitter : Nat → Rat
  jitter_nonneg : ∀ attempt, 0 ≤ jitter attempt
  jitter_lt_one : ∀ attempt, jitter attempt < 1

def baseRetryDelaySeconds : Rat := 1 / 4

def maxRetryDelaySeconds : Rat := 5

/-- The first of the two rate-limit headers that is a number decides, brought between zero and the
maximum. Without one the delay doubles with each attempt. -/
def retryDelay (waiting : Waiting) (attempt : Nat) (response : Option HttpResponse) :
    FloatOrder.Value Rat :=
  let baseDelay := baseRetryDelaySeconds * 2 ^ attempt
  let backoff := (FloatOrder.Value.finite maxRetryDelaySeconds).min
    (.finite (baseDelay + waiting.jitter attempt * baseDelay))
  match response with
  | some response =>
      if response.statusCode = 429 then
        match ["retry-after", "ratelimit-reset"].findSome? fun name =>
            (response.header name).bind waiting.parseFloat with
        | some value =>
            (FloatOrder.Value.finite maxRetryDelaySeconds).min
              ((FloatOrder.Value.finite 0).max value)
        | none => backoff
      else backoff
  | none => backoff

inductive Action where
  | post (post : Post)
  | sleep (delay : FloatOrder.Value Rat)

/-- The loop of `_send_with_retry` with what it waits for, and the number of attempts left. -/
def retryFrom (waiting : Waiting) (post : Post) (outcomes : Nat → Outcome) (attempt : Nat) :
    (left : Nat) → List Action × Except Failure Unit
  | 0 => ([], .ok ())
  | left + 1 =>
      let again (response : Option HttpResponse) :=
        let (actions, result) := retryFrom waiting post outcomes (attempt + 1) left
        (.post post :: .sleep (retryDelay waiting attempt response) :: actions, result)
      match outcomes attempt with
      | .httpError name => ([.post post], .error (.httpError name))
      | .transportError name =>
          if left = 0 then ([.post post], .error (.transportError name)) else again none
      | .responded response =>
          if response.response.isSuccess then ([.post post], .ok ())
          else
            match isRetryableResponse response.response with
            | .error _ => ([.post post], .error .recursionError)
            | .ok retryable =>
                if !retryable ∨ left = 0 then ([.post post], .error response.response.raised)
                else again (some response)

end Resend

open Resend

structure ResendEmailSender where
  apiKey : String
  fromAddress : String

namespace ResendEmailSender

variable (sender : ResendEmailSender)

/-- `message.idempotency_key or f"email/{uuid4()}"`. -/
def idempotencyKey (message : EmailMessage) (uuid : String) : String :=
  match message.idempotencyKey with
  | none | some "" => "email/" ++ uuid
  | some key => key

def post (message : EmailMessage) (uuid : String) : Post where
  url := emailsUrl
  authorization := "Bearer " ++ sender.apiKey
  idempotencyKey := idempotencyKey message uuid
  payload :=
    { fromAddress := sender.fromAddress
      toAddresses := [message.toAddress]
      subject := message.subject
      text := message.text
      html := message.html
      replyTo := message.replyTo }

def missingApiKey : SendError :=
  .delivery
    { message := "RESEND_API_KEY is not configured"
      retryable := false
      errorCode := some "missing_api_key" }

/-- `send`: the requests made, and whether the provider accepted the message. -/
def send (message : EmailMessage) (uuid : String) (results : Nat → PostResult) :
    List Post × Except SendError Unit :=
  if sender.apiKey = "" then ([], .error missingApiKey)
  else
    let (posts, result) := sendWithRetryFrom (sender.post message uuid) results 0 maxAttempts
    (posts, result.mapError deliveryError)

/-- `send` with what it waits for between two requests. -/
def sendWaiting (waiting : Waiting) (message : EmailMessage) (uuid : String)
    (outcomes : Nat → Outcome) : List Action × Except SendError Unit :=
  if sender.apiKey = "" then ([], .error missingApiKey)
  else
    let (actions, result) := retryFrom waiting (sender.post message uuid) outcomes 0 maxAttempts
    (actions, result.mapError deliveryError)

end ResendEmailSender

end EventsApi
