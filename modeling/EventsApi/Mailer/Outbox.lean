import EventsApi.Mailer.Repository
import EventsApi.Library.Transition

/-!
# The outbox and its workers

`app/mailer/outbox.py`. A worker's iteration is a sequence of phases: claim a job in one
transaction, hand its message to the sender, see the call return or raise, settle in a second
transaction. Any number of workers take these steps in any order with each other, with enqueuing
requests and with token deletions, and a worker may stop between any two of its steps.

The log records what happened, most recent first. No step reads it.
-/

namespace EventsApi

namespace EmailOutbox

def microsPerSecond : Int := 1000000

/-- `RETRY_DELAYS`, in microseconds. -/
def retryDelays : List Int :=
  [30, 60, 120, 600, 3600, 7200, 14400].map (· * microsPerSecond)

def maxAttempts : Nat := retryDelays.length + 1

/-- `RETRY_DELAYS[attempts - 1]`. Index -1 is the last element, an index past the end raises. -/
def retryDelay (attempts : Nat) : Option Int :=
  if attempts = 0 then retryDelays.getLast? else retryDelays[attempts - 1]?

/-- `exc.error_code or type(exc).__name__`. -/
def errorCode (error : EmailDeliveryError) : String :=
  match error.errorCode with
  | none | some "" => "EmailDeliveryError"
  | some code => code

/-- Where a worker stands in `process_next_email`. -/
inductive Phase where
  | idle
  /-- The claim is committed, the sender not yet called. -/
  | claimed (job : ClaimedEmailJob)
  /-- Waiting for `sender.send`. -/
  | sending (job : ClaimedEmailJob)
  /-- The call returned, the job is to be completed. -/
  | returned (job : ClaimedEmailJob)
  /-- The call raised `EmailDeliveryError`, seen at the instant given. -/
  | raised (job : ClaimedEmailJob) (error : EmailDeliveryError) (failedAt : Int)
  deriving DecidableEq

def Phase.job : Phase → Option ClaimedEmailJob
  | .idle => none
  | .claimed job | .sending job | .returned job | .raised job _ _ => some job

/-- What a settling transaction sets out to do. -/
inductive Settlement where
  | completed
  | rescheduled (nextAttemptAt : Int)
  | failed (failedAt : Int)
  deriving DecidableEq

/-- An entry of the log. A settlement records whether it found the job still under the claim. -/
inductive Entry where
  | enqueued (id : Nat) (message : EmailMessage)
  | claimed (job : ClaimedEmailJob) (now leaseDuration : Int)
  | handed (job : ClaimedEmailJob)
  | sendReturned (job : ClaimedEmailJob)
  | sendRaised (job : ClaimedEmailJob) (error : EmailDeliveryError)
  | settled (job : ClaimedEmailJob) (settlement : Settlement) (updated : Bool)
  | tokenDeleted (jobId : Nat)
  deriving DecidableEq

/-- The stored jobs, the id sequence, the lock tokens drawn so far, the workers, and the log. -/
structure State where
  jobs : List EmailOutboxJob
  nextId : Nat
  issued : List String
  worker : Nat → Phase
  log : List Entry

inductive Label where
  | enqueue (message : EmailMessage) (now : Int)
      (confirmationTokenId passwordResetTokenId : Option Nat)
  | claim (worker : Nat) (now leaseDuration : Int) (skipped : List Nat) (lockToken : String)
  | handOver (worker : Nat)
  | sendReturns (worker : Nat)
  | sendRaises (worker : Nat) (error : EmailDeliveryError) (failedAt : Int)
  /-- Any other exception: `run_email_worker` logs it and goes on. -/
  | sendRaisesOther (worker : Nat)
  | settle (worker : Nat)
  | crash (worker : Nat)
  | deleteConfirmationToken (tokenId : Nat)
  | deletePasswordResetToken (tokenId : Nat)

def State.empty : State where
  jobs := []
  nextId := 0
  issued := []
  worker _ := .idle
  log := []

def State.setPhase (s : State) (worker : Nat) (phase : Phase) : State :=
  { s with worker := Function.update s.worker worker phase }

def State.note (s : State) (entry : Entry) : State := { s with log := entry :: s.log }

/-- The first transaction of an iteration. -/
def State.claimStep (s : State) (worker : Nat) (now leaseDuration : Int) (skipped : List Nat)
    (lockToken : String) : State :=
  match claimNext s.jobs now leaseDuration skipped lockToken with
  | (_, none) => s
  | (jobs, some claimed) =>
      { s with
        jobs := jobs
        issued := lockToken :: s.issued
        worker := Function.update s.worker worker (.claimed claimed)
        log := .claimed claimed now leaseDuration :: s.log }

/-- Store what a settling transaction left, with its entry in the log. -/
def State.settleWith (s : State) (worker : Nat) (claimed : ClaimedEmailJob)
    (settlement : Settlement) (result : List EmailOutboxJob × Bool) : State :=
  { s with
    jobs := result.1
    worker := Function.update s.worker worker .idle
    log := .settled claimed settlement result.2 :: s.log }

/-- The second transaction of an iteration. -/
def State.settleStep (s : State) (worker : Nat) : Option State :=
  match s.worker worker with
  | .returned claimed =>
      some (s.settleWith worker claimed .completed (complete claimed s.jobs))
  | .raised claimed error failedAt =>
      if error.retryable ∧ claimed.attempts < maxAttempts then
        match retryDelay claimed.attempts with
        | none => some (s.setPhase worker .idle)
        | some delay => some (s.settleWith worker claimed (.rescheduled (failedAt + delay))
            (retryLater claimed (failedAt + delay) (errorCode error) s.jobs))
      else
        some (s.settleWith worker claimed (.failed failedAt)
          (fail claimed failedAt (errorCode error) s.jobs))
  | _ => none

/-- Drop the jobs linked to a deleted token row, with one entry in the log for each. -/
def State.cascade (s : State) (linked : EmailOutboxJob → Bool) : State :=
  { s with
    jobs := deleteLinked linked s.jobs
    log := (s.jobs.filter linked).map (fun job => .tokenDeleted job.id) ++ s.log }

def step (s : State) : Label → Option State
  | .enqueue message now confirmationTokenId passwordResetTokenId =>
      match enqueue s.jobs s.nextId message now confirmationTokenId passwordResetTokenId with
      | .error _ => some s
      | .ok job => some
          { s with
            jobs := s.jobs ++ [job]
            nextId := s.nextId + 1
            log := .enqueued job.id message :: s.log }
  | .claim worker now leaseDuration skipped lockToken =>
      if s.worker worker = .idle ∧ lockToken ∉ s.issued then
        some (s.claimStep worker now leaseDuration skipped lockToken)
      else none
  | .handOver worker =>
      match s.worker worker with
      | .claimed claimed => some ((s.setPhase worker (.sending claimed)).note (.handed claimed))
      | _ => none
  | .sendReturns worker =>
      match s.worker worker with
      | .sending claimed =>
          some ((s.setPhase worker (.returned claimed)).note (.sendReturned claimed))
      | _ => none
  | .sendRaises worker error failedAt =>
      match s.worker worker with
      | .sending claimed =>
          some ((s.setPhase worker (.raised claimed error failedAt)).note
            (.sendRaised claimed error))
      | _ => none
  | .sendRaisesOther worker =>
      match s.worker worker with
      | .sending _ => some (s.setPhase worker .idle)
      | _ => none
  | .settle worker => s.settleStep worker
  | .crash worker => some (s.setPhase worker .idle)
  | .deleteConfirmationToken tokenId =>
      some (s.cascade (linkedToConfirmationToken tokenId))
  | .deletePasswordResetToken tokenId =>
      some (s.cascade (linkedToPasswordResetToken tokenId))

/-- Reachable from the empty outbox by any steps. -/
def Reachable (s : State) : Prop :=
  Transition.Reachable step (· = State.empty) Transition.anyStep s

/-! ### Reading the log -/

/-- The claims made, most recent first. -/
def claims (log : List Entry) : List ClaimedEmailJob :=
  log.filterMap fun
    | .claimed claimed _ _ => some claimed
    | _ => none

/-- The hand-overs to the sender, most recent first. -/
def handOvers (log : List Entry) : List ClaimedEmailJob :=
  log.filterMap fun
    | .handed claimed => some claimed
    | _ => none

/-- The most recent claim of a job. -/
def lastClaim (log : List Entry) (jobId : Nat) : Option ClaimedEmailJob :=
  (claims log).find? (·.id == jobId)

/-- The claim a stored job is under, if its lease has not been given back. -/
def State.currentClaim (s : State) (jobId : Nat) : Option ClaimedEmailJob :=
  match s.jobs.find? (·.id == jobId) with
  | none => none
  | some job => if job.lockToken.isSome then lastClaim s.log jobId else none

end EmailOutbox

end EventsApi
