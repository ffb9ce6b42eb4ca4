import EventsApi.Core.Security
import EventsApi.Mailer.Outbox

/-!
# The worker of one process

`process_next_email` and `run_email_worker` of `app/mailer/outbox.py`, as the code runs them: two
transactions with the sender in between, and a loop that sleeps when there was nothing to do. The
process has one worker. Requests go on beside it, and what they do to the outbox between two of its
transactions is part of the turn.
-/

namespace EventsApi

namespace EmailOutbox

/-- How `await sender.send(message)` ends. -/
inductive SendOutcome where
  | returned
  | raised (error : EmailDeliveryError)
  /-- Any other exception. -/
  | raisedOther
  deriving DecidableEq

/-- What ends an iteration that neither returns nor is cancelled. -/
inductive WorkerError where
  | indexError
  | sendError
  deriving DecidableEq

/-- The stored jobs and the id sequence. -/
structure Stored where
  jobs : List EmailOutboxJob
  nextId : Nat

/-- What a request does to the outbox. -/
inductive Interlude where
  | enqueue (message : EmailMessage) (now : Int)
      (confirmationTokenId passwordResetTokenId : Option Nat)
  | deleteConfirmationToken (tokenId : Nat)
  | deletePasswordResetToken (tokenId : Nat)

def Stored.after (stored : Stored) : Interlude → Stored
  | .enqueue message now confirmationTokenId passwordResetTokenId =>
      (EmailOutbox.enqueue stored.jobs stored.nextId message now confirmationTokenId
        passwordResetTokenId).toOption.elim stored fun job =>
          ⟨stored.jobs ++ [job], stored.nextId + 1⟩
  | .deleteConfirmationToken tokenId =>
      { stored with jobs := deleteLinked (linkedToConfirmationToken tokenId) stored.jobs }
  | .deletePasswordResetToken tokenId =>
      { stored with jobs := deleteLinked (linkedToPasswordResetToken tokenId) stored.jobs }

def Stored.afterAll (stored : Stored) (interludes : List Interlude) : Stored :=
  interludes.foldl Stored.after stored

/-- One call of `process_next_email` takes the rows other transactions have locked, the token drawn,
the time until the call of the sender ends, how it ends, the time until the next iteration, and what
requests do during the call of the sender and after it. -/
structure Turn where
  skipped : List Nat := []
  lockToken : String
  sendTime : Nat
  restTime : Nat
  send : EmailMessage → SendOutcome
  during : List Interlude := []
  afterwards : List Interlude := []

/-- The second transaction, for each way the call of the sender ends. -/
def settleSend (claimed : ClaimedEmailJob) (failedAt : Int) (jobs : List EmailOutboxJob) :
    SendOutcome → List EmailOutboxJob × Except WorkerError Bool
  | .returned => ((complete claimed jobs).1, .ok true)
  | .raisedOther => (jobs, .error .sendError)
  | .raised error =>
      if error.retryable ∧ claimed.attempts < maxAttempts then
        (retryDelay claimed.attempts).elim (jobs, .error .indexError) fun delay =>
          ((retryLater claimed (failedAt + delay) (errorCode error) jobs).1, .ok true)
      else ((fail claimed failedAt (errorCode error) jobs).1, .ok true)

/-- Process one due email: the message handed to the sender, what is stored afterwards, and whether a
job was claimed. -/
def processNextEmail (leaseDuration claimedAt : Int) (turn : Turn) (stored : Stored) :
    Option ClaimedEmailJob × Stored × Except WorkerError Bool :=
  let (jobs, found) := claimNext stored.jobs claimedAt leaseDuration turn.skipped turn.lockToken
  found.elim (none, stored, .ok false) fun claimed =>
    let stored := Stored.afterAll { stored with jobs := jobs } turn.during
    let (jobs, result) :=
      settleSend claimed (claimedAt + turn.sendTime) stored.jobs (turn.send claimed.message)
    (some claimed, { stored with jobs := jobs }, result)

/-- What is stored when an iteration begins, and the clock. -/
structure WorkerState where
  stored : Stored
  clock : Int

/-- An exception counts as nothing processed. -/
def processed : Except WorkerError Bool → Bool
  | .ok processed => processed
  | .error _ => false

def defaultLeaseDuration : Int := 120 * microsPerSecond

/-- The loop in one process: the setting `email_outbox_poll_interval`, the state it starts from, and
what each iteration meets. -/
structure WorkerRun where
  pollInterval : Duration
  start : WorkerState
  turn : Nat → Turn

/-- An iteration of `run_email_worker`, with the sleep that may end it. -/
def WorkerState.iterate (pollInterval : Duration) (turn : Turn) (w : WorkerState) : WorkerState :=
  let (claimed, stored, result) := processNextEmail defaultLeaseDuration w.clock turn w.stored
  { stored := stored.afterAll turn.afterwards
    clock := w.clock + (if claimed.isSome then turn.sendTime else 0) + turn.restTime
      + if processed result then 0 else parseDuration pollInterval }

/-- Continuously drain due email jobs: the state after each number of iterations. -/
def runEmailWorker (run : WorkerRun) : Nat → WorkerState
  | 0 => run.start
  | n + 1 => (runEmailWorker run n).iterate run.pollInterval (run.turn n)

/-- What an iteration hands to the sender. -/
def handedOver (run : WorkerRun) (n : Nat) : Option ClaimedEmailJob :=
  let w := runEmailWorker run n
  (processNextEmail defaultLeaseDuration w.clock (run.turn n) w.stored).1

end EmailOutbox

end EventsApi
