import EventsApi.Mailer.Outbox
import EventsApi.Mailer.Resend
import EventsApi.Reports.Service

/-!
# The requests that fill the outbox

`register` and `resend_confirmation` queue a confirmation message, `forgot_password` a password reset
message, `submit_report` an issue report. The first three put the id of the token row they have just
inserted into the idempotency key, the last a fresh uuid. Ids come from one sequence for each token
table, which gives no number twice.
-/

namespace EventsApi

open EmailOutbox

/-- What a queued message is made of. -/
inductive Mail where
  | token (kind : TokenKind) (user : User) (rawToken : String) (tokenId : Nat)
  | issueReport (payload : SubmitReportRequest) (toAddress uuid : String)

/-- The value drawn for a message. -/
inductive Draw where
  | tokenId (kind : TokenKind) (id : Nat)
  | uuid (uuid : String)
  deriving DecidableEq

def Mail.draw : Mail → Draw
  | .token kind _ _ tokenId => .tokenId kind tokenId
  | .issueReport _ _ uuid => .uuid uuid

def Mail.message (context : Context) (requestedAt : Int) : Mail → EmailMessage
  | .token .confirmation user rawToken tokenId =>
      confirmationEmail context user rawToken tokenId requestedAt
  | .token .passwordReset user rawToken tokenId =>
      passwordResetEmail context user rawToken tokenId requestedAt
  | .issueReport payload toAddress uuid => reportEmail context payload toAddress requestedAt uuid

/-- The token row of the kind that the job is linked to. -/
def Mail.linkedToken (kind : TokenKind) : Mail → Option Nat
  | .token other _ _ tokenId => if other = kind then some tokenId else none
  | .issueReport .. => none

/-- The outbox, with the values drawn so far. -/
structure DeliveryState where
  outbox : EmailOutbox.State
  drawn : List Draw

inductive DeliveryLabel where
  /-- A request queues its message, with a value not drawn before. -/
  | request (mail : Mail) (now : Int)
  /-- A worker takes a step, or a token row is deleted. -/
  | outbox (l : Label)

def DeliveryState.empty : DeliveryState := ⟨.empty, []⟩

def DeliveryState.enqueueStep (context : Context) (s : DeliveryState) (mail : Mail) (now : Int) :
    Option DeliveryState :=
  (step s.outbox (.enqueue (mail.message context now) now (mail.linkedToken .confirmation)
    (mail.linkedToken .passwordReset))).map fun outbox => ⟨outbox, mail.draw :: s.drawn⟩

def deliveryStep (context : Context) (s : DeliveryState) : DeliveryLabel → Option DeliveryState
  | .request mail now => if mail.draw ∈ s.drawn then none else s.enqueueStep context mail now
  | .outbox (.enqueue ..) => none
  | .outbox l => (step s.outbox l).map fun outbox => { s with outbox := outbox }

def DeliveryReachable (context : Context) : DeliveryState → Prop :=
  Transition.Reachable (deliveryStep context) (· = .empty) Transition.anyStep

end EventsApi
