import EventsApi.Mailer.Base

/-!
# The email outbox table

`app/mailer/models.py` and `app/mailer/repository.py`. Each function is one transaction on the list
of stored jobs. Instants are microseconds of naive UTC.
-/

namespace EventsApi

/-- An email waiting for provider acceptance. -/
structure EmailOutboxJob where
  id : Nat
  confirmationTokenId : Option Nat
  passwordResetTokenId : Option Nat
  toAddress : String
  replyToAddress : Option String
  subject : String
  textBody : String
  htmlBody : String
  idempotencyKey : String
  attempts : Nat
  nextAttemptAt : Int
  lockedUntil : Option Int
  lockToken : Option String
  lastErrorCode : Option String
  failedAt : Option Int
  deriving DecidableEq

/-- The message a row carries to the provider. -/
def EmailOutboxJob.message (job : EmailOutboxJob) : EmailMessage where
  toAddress := job.toAddress
  replyTo := job.replyToAddress
  subject := job.subject
  text := job.textBody
  html := job.htmlBody
  idempotencyKey := some job.idempotencyKey

/-- Provider payload plus the lease that owns its current attempt. -/
structure ClaimedEmailJob where
  id : Nat
  attempts : Nat
  lockToken : String
  message : EmailMessage
  deriving DecidableEq

/-- The two ways an insertion is refused: the `ValueError` of a message without a key, and the
`IntegrityError` of a unique constraint. -/
inductive EnqueueError where
  | missingIdempotencyKey
  | integrityError
  deriving DecidableEq

/-- Two rows that a unique constraint keeps apart. Missing token ids never collide. -/
def EmailOutboxJob.collides (first second : EmailOutboxJob) : Bool :=
  first.idempotencyKey == second.idempotencyKey
    || first.confirmationTokenId.isSome
      && first.confirmationTokenId == second.confirmationTokenId
    || first.passwordResetTokenId.isSome
      && first.passwordResetTokenId == second.passwordResetTokenId

namespace EmailOutbox

/-- The row an insertion stores. -/
def newJob (id : Nat) (message : EmailMessage) (idempotencyKey : String) (now : Int)
    (confirmationTokenId passwordResetTokenId : Option Nat) : EmailOutboxJob where
  id := id
  confirmationTokenId := confirmationTokenId
  passwordResetTokenId := passwordResetTokenId
  toAddress := message.toAddress
  replyToAddress := message.replyTo
  subject := message.subject
  textBody := message.text
  htmlBody := message.html
  idempotencyKey := idempotencyKey
  attempts := 0
  nextAttemptAt := now
  lockedUntil := none
  lockToken := none
  lastErrorCode := none
  failedAt := none

/-- Store a message under the next id of the sequence. -/
def enqueue (jobs : List EmailOutboxJob) (id : Nat) (message : EmailMessage) (now : Int)
    (confirmationTokenId passwordResetTokenId : Option Nat) : Except EnqueueError EmailOutboxJob :=
  match message.idempotencyKey with
  | none => .error .missingIdempotencyKey
  | some key =>
      let job := newJob id message key now confirmationTokenId passwordResetTokenId
      if jobs.any job.collides then .error .integrityError else .ok job

/-- Not failed, due, and not under a running lease. -/
def isDue (now : Int) (job : EmailOutboxJob) : Bool :=
  job.failedAt.isNone && decide (job.nextAttemptAt ≤ now)
    && (job.lockedUntil.isNone || job.lockedUntil.any (· ≤ now))

/-- `ORDER BY next_attempt_at, id LIMIT 1`. -/
def firstDue : List EmailOutboxJob → Option EmailOutboxJob
  | [] => none
  | job :: jobs =>
      match firstDue jobs with
      | none => some job
      | some best =>
          if job.nextAttemptAt < best.nextAttemptAt
              ∨ job.nextAttemptAt = best.nextAttemptAt ∧ job.id ≤ best.id then some job
          else some best

/-- The row with the claim written to it. -/
def leased (job : EmailOutboxJob) (now leaseDuration : Int) (lockToken : String) :
    EmailOutboxJob :=
  { job with
    attempts := job.attempts + 1
    lockToken := some lockToken
    lockedUntil := some (now + leaseDuration) }

/-- The claim handed to the worker. -/
def claimOn (job : EmailOutboxJob) (lockToken : String) : ClaimedEmailJob where
  id := job.id
  attempts := job.attempts + 1
  lockToken := lockToken
  message := job.message

/-- The row a claim takes: the first due one that no other transaction has locked. -/
def claimable (jobs : List EmailOutboxJob) (now : Int) (skipped : List Nat) :
    Option EmailOutboxJob :=
  firstDue (jobs.filter fun job => isDue now job && !skipped.contains job.id)

/-- Take the first due job under a fresh lock token. `skipped` are the rows other transactions have
locked at that moment. -/
def claimNext (jobs : List EmailOutboxJob) (now leaseDuration : Int) (skipped : List Nat)
    (lockToken : String) : List EmailOutboxJob × Option ClaimedEmailJob :=
  match claimable jobs now skipped with
  | none => (jobs, none)
  | some job =>
      (jobs.map fun other =>
        if other.id = job.id then leased job now leaseDuration lockToken else other,
      some (claimOn job lockToken))

/-- The row is still under the claim's lease. -/
def ownedBy (claimed : ClaimedEmailJob) (job : EmailOutboxJob) : Bool :=
  job.id == claimed.id && job.lockToken == some claimed.lockToken

/-- Apply a change, or a deletion, to the row the claim still owns. Returns whether there was
one. -/
def settle (claimed : ClaimedEmailJob) (change : EmailOutboxJob → Option EmailOutboxJob)
    (jobs : List EmailOutboxJob) : List EmailOutboxJob × Bool :=
  (jobs.filterMap fun job => if ownedBy claimed job then change job else some job,
    jobs.any (ownedBy claimed))

def complete (claimed : ClaimedEmailJob) (jobs : List EmailOutboxJob) :
    List EmailOutboxJob × Bool :=
  settle claimed (fun _ => none) jobs

def retryLater (claimed : ClaimedEmailJob) (nextAttemptAt : Int) (errorCode : String)
    (jobs : List EmailOutboxJob) : List EmailOutboxJob × Bool :=
  settle claimed (fun job => some
    { job with
      nextAttemptAt := nextAttemptAt
      lockedUntil := none
      lockToken := none
      lastErrorCode := some errorCode }) jobs

/-- Message content is no longer needed once retries stop. -/
def fail (claimed : ClaimedEmailJob) (failedAt : Int) (errorCode : String)
    (jobs : List EmailOutboxJob) : List EmailOutboxJob × Bool :=
  settle claimed (fun job => some
    { job with
      lockedUntil := none
      lockToken := none
      lastErrorCode := some errorCode
      failedAt := some failedAt
      textBody := ""
      htmlBody := "" }) jobs

def linkedToConfirmationToken (tokenId : Nat) (job : EmailOutboxJob) : Bool :=
  job.confirmationTokenId == some tokenId

def linkedToPasswordResetToken (tokenId : Nat) (job : EmailOutboxJob) : Bool :=
  job.passwordResetTokenId == some tokenId

/-- `ON DELETE CASCADE`: deleting a token row deletes the jobs linked to it. -/
def deleteLinked (linked : EmailOutboxJob → Bool) (jobs : List EmailOutboxJob) :
    List EmailOutboxJob :=
  jobs.filter fun job => !linked job

end EmailOutbox

end EventsApi
