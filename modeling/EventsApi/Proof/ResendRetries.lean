import EventsApi.Mailer.Resend
import Mathlib.Algebra.Order.Field.Rat
import Mathlib.Tactic.NormNum

/-!
# Retries of one delivery

A delivery posts the same request until an outcome settles it or the attempts run out, and waits
once between two posts. The outcome of the last post decides how it ends. Whatever the provider puts
into its rate-limit headers, no wait is longer than the maximum. Only a body nested too deeply to
read its code ends a delivery with an error that nothing catches.
-/

namespace EventsApi

open Resend FloatOrder

theorem baseRetryDelaySeconds_nonneg : 0 ≤ baseRetryDelaySeconds := by
  norm_num [baseRetryDelaySeconds]

theorem maxRetryDelaySeconds_nonneg : 0 ≤ maxRetryDelaySeconds := by
  norm_num [maxRetryDelaySeconds]

variable {waiting : Waiting} {post : Post} {outcomes : Nat → Outcome}

/-! ### One wait -/

theorem within_backoff (waiting : Waiting) (attempt : Nat) :
    ((Value.finite maxRetryDelaySeconds).min (.finite (baseRetryDelaySeconds * 2 ^ attempt
      + waiting.jitter attempt * (baseRetryDelaySeconds * 2 ^ attempt)))).Within 0
      maxRetryDelaySeconds := by
  have hbase : 0 ≤ baseRetryDelaySeconds * 2 ^ attempt :=
    mul_nonneg baseRetryDelaySeconds_nonneg (pow_nonneg (by norm_num) attempt)
  have hjitter := mul_nonneg (waiting.jitter_nonneg attempt) hbase
  exact Value.min_finite maxRetryDelaySeconds_nonneg (.inl ⟨_, rfl, add_nonneg hbase hjitter⟩)

/-- **Every wait is between zero and the maximum.** -/
theorem within_retryDelay (waiting : Waiting) (attempt : Nat) (response : Option HttpResponse) :
    (retryDelay waiting attempt response).Within 0 maxRetryDelaySeconds := by
  have hbackoff := within_backoff waiting attempt
  cases response with
  | none => exact hbackoff
  | some response =>
      rw [retryDelay]
      split
      · split
        · exact Value.within_clamp maxRetryDelaySeconds_nonneg _
        · exact hbackoff
      · exact hbackoff

/-! ### The outcomes that settle a delivery -/

def Resend.Outcome.Success : Outcome → Prop
  | .responded response => response.response.isSuccess = true
  | _ => False

/-- A response that is neither a success nor worth another attempt. -/
def Resend.Outcome.Rejected : Outcome → Prop
  | .responded response =>
      response.response.isSuccess = false ∧ isRetryableResponse response.response = .ok false
  | _ => False

/-- No request follows the outcome. -/
def Resend.Outcome.Settles (outcome : Outcome) : Prop :=
  outcome.Success ∨ outcome.Rejected ∨ ∃ name, outcome = .httpError name

/-- Another request follows the outcome, if there are attempts left. -/
def Resend.Outcome.Retried : Outcome → Prop
  | .responded response =>
      response.response.isSuccess = false ∧ isRetryableResponse response.response = .ok true
  | .transportError _ => True
  | .httpError _ => False

/-- The adapter reads the code of the response: to classify it, unless its status alone decides, and
for the log after the last request. -/
def Resend.Outcome.CodeRead (attempt : Nat) : Outcome → Prop
  | .responded response =>
      response.response.isSuccess = false
        ∧ (response.statusCode ∉ retryableServerStatuses ∨ attempt + 1 = maxAttempts)
  | _ => False

/-- The outcome is a response whose body is nested too deeply. -/
def Resend.Outcome.TooDeep : Outcome → Prop
  | .responded response => response.body = .tooDeep
  | _ => False

/-- No body whose code is read is nested too deeply. -/
def Resend.CodesReadable (outcomes : Nat → Outcome) : Prop :=
  ∀ attempt < maxAttempts, (∀ i < attempt, (outcomes i).Retried) →
    (outcomes attempt).CodeRead attempt → ¬ (outcomes attempt).TooDeep

/-- How a delivery ends whose last request had the outcome. -/
def Resend.Outcome.ending : Outcome → Except Failure Unit
  | .responded response =>
      if response.response.isSuccess then .ok () else .error response.response.raised
  | .transportError name => .error (.transportError name)
  | .httpError name => .error (.httpError name)

theorem Resend.errorCode_eq_error_iff {body : Body} {error : RecursionError} :
    errorCode body = .error error ↔ body = .tooDeep := by
  cases body <;> simp [errorCode]

theorem Resend.isRetryableResponse_of_mem {response : Response}
    (h : response.statusCode ∈ retryableServerStatuses) :
    isRetryableResponse response = .ok true := by
  rw [isRetryableResponse, if_pos h]

theorem Resend.isRetryableResponse_of_error {response : Response} {error : RecursionError}
    (h : response.errorCode = .error error)
    (hstatus : response.statusCode ∉ retryableServerStatuses) :
    isRetryableResponse response = .error error := by
  rw [isRetryableResponse, if_neg hstatus, h]
  rfl

/-- Where the classification fails, so does reading the code once more. -/
theorem Resend.Response.raised_of_error {response : Response} {error : RecursionError}
    (h : isRetryableResponse response = .error error) : response.raised = .recursionError := by
  rw [isRetryableResponse] at h
  cases hcode : response.errorCode with
  | error _ => rw [Response.raised, hcode]
  | ok code =>
      rw [hcode] at h
      split at h <;> cases h

theorem Resend.Outcome.not_retried_of_settles {outcome : Outcome} (h : outcome.Settles) :
    ¬ outcome.Retried := by
  intro hretried
  cases outcome with
  | transportError name => rcases h with h | h | ⟨_, ⟨⟩⟩ <;> exact h
  | httpError name => exact hretried
  | responded response =>
      obtain h | ⟨_, h⟩ | ⟨_, ⟨⟩⟩ := h
      · exact absurd (h.symm.trans hretried.1) (by decide)
      · exact absurd (h.symm.trans hretried.2) (by decide)

/-- The request, and after each wait the request again. -/
def posting (post : Post) (delays : List (Value Rat)) : List Action :=
  .post post :: delays.flatMap fun delay => [.sleep delay, .post post]

/-- The loop from an attempt on, as the waits between its requests. -/
structure Attempts (waiting : Waiting) (post : Post) (outcomes : Nat → Outcome) (attempt left : Nat)
    (delays : List (Value Rat)) : Prop where
  run : retryFrom waiting post outcomes attempt (left + 1)
    = (posting post delays, (outcomes (attempt + delays.length)).ending)
  length_le : delays.length ≤ left
  within : ∀ delay ∈ delays, delay.Within 0 maxRetryDelaySeconds
  retried : ∀ i < delays.length, (outcomes (attempt + i)).Retried
  ended : ¬ (outcomes (attempt + delays.length)).Retried ∨ delays.length = left

theorem attempts_of_last {attempt left : Nat}
    (hrun : retryFrom waiting post outcomes attempt (left + 1)
      = ([.post post], (outcomes attempt).ending))
    (hlast : ¬ (outcomes attempt).Retried ∨ left = 0) :
    Attempts waiting post outcomes attempt left [] where
  run := hrun
  length_le := Nat.zero_le left
  within _ h := nomatch h
  retried _ h := nomatch h
  ended := hlast.imp_right Eq.symm

theorem Attempts.again {attempt left : Nat} {delays : List (Value Rat)}
    (h : Attempts waiting post outcomes (attempt + 1) left delays) (response : Option HttpResponse)
    (hrun : retryFrom waiting post outcomes attempt (left + 1 + 1)
      = (let (actions, result) := retryFrom waiting post outcomes (attempt + 1) (left + 1)
        (.post post :: .sleep (retryDelay waiting attempt response) :: actions, result)))
    (hretried : (outcomes attempt).Retried) :
    Attempts waiting post outcomes attempt (left + 1)
      (retryDelay waiting attempt response :: delays) := by
  have hlength : attempt + (retryDelay waiting attempt response :: delays).length
      = attempt + 1 + delays.length := by
    rw [List.length_cons]
    omega
  constructor
  · rw [hrun, h.run, hlength]
    rfl
  · exact Nat.succ_le_succ h.length_le
  · exact List.forall_mem_cons.mpr ⟨within_retryDelay waiting attempt response, h.within⟩
  · intro i hi
    cases i with
    | zero => exact hretried
    | succ i =>
        have hi : i < delays.length := Nat.lt_of_succ_lt_succ hi
        have hnext : attempt + (i + 1) = attempt + 1 + i := by omega
        rw [hnext]
        exact h.retried i hi
  · rw [hlength]
    exact h.ended.imp_right (congrArg (· + 1))

/-- An outcome that is not followed by another request ends the loop. -/
theorem retryFrom_of_ended {attempt left : Nat}
    (h : ¬ (outcomes attempt).Retried ∨ left = 0) :
    retryFrom waiting post outcomes attempt (left + 1)
      = ([.post post], (outcomes attempt).ending) := by
  rw [retryFrom]
  cases houtcome : outcomes attempt with
  | httpError name => rfl
  | transportError name =>
      rw [houtcome] at h
      have hlast : left = 0 := h.resolve_left (not_not_intro trivial)
      exact if_pos hlast
  | responded response =>
      rw [houtcome] at h
      cases hsuccess : response.response.isSuccess with
      | true => simp [Outcome.ending, hsuccess]
      | false =>
          cases hretryable : isRetryableResponse response.response with
          | error error =>
              simp only [Outcome.ending, hsuccess, Response.raised_of_error hretryable]
              rw [hretryable]
              rfl
          | ok retryable =>
              have hends : (!retryable) = true ∨ left = 0 := h.imp_left fun hnot => by
                cases retryable with
                | true => exact absurd ⟨hsuccess, hretryable⟩ hnot
                | false => rfl
              simp only [Outcome.ending, hsuccess]
              rw [hretryable]
              exact if_pos hends

/-- The run lemma, by induction on the attempts left. What an outcome does to the loop is read off
once, and the induction adds one wait in front. -/
theorem exists_attempts (waiting : Waiting) (post : Post) (outcomes : Nat → Outcome)
    (attempt left : Nat) : ∃ delays, Attempts waiting post outcomes attempt left delays := by
  induction left generalizing attempt with
  | zero => exact ⟨[], attempts_of_last (retryFrom_of_ended (.inr rfl)) (.inr rfl)⟩
  | succ left ih =>
      by_cases hretried : (outcomes attempt).Retried
      · obtain ⟨delays, h⟩ := ih (attempt + 1)
        cases houtcome : outcomes attempt with
        | httpError name => rw [houtcome] at hretried; exact hretried.elim
        | transportError name =>
            refine ⟨_, h.again none ?_ hretried⟩
            rw [retryFrom, houtcome]
            rfl
        | responded response =>
            refine ⟨_, h.again (some response) ?_ hretried⟩
            rw [houtcome] at hretried
            rw [retryFrom, houtcome]
            simp only [hretried.1]
            rw [hretried.2]
            simp
      · exact ⟨[], attempts_of_last (retryFrom_of_ended (.inl hretried)) (.inl hretried)⟩

/-! ### How a delivery ends -/

/-- The last response is not a success, and its body is nested too deeply. -/
def Resend.Outcome.Unreadable : Outcome → Prop
  | .responded response => response.response.isSuccess = false ∧ response.body = .tooDeep
  | _ => False

theorem Resend.Outcome.ending_ok_iff (outcome : Outcome) :
    outcome.ending = .ok () ↔ outcome.Success := by
  cases outcome with
  | responded response =>
      cases hsuccess : response.response.isSuccess <;>
        simp [Outcome.ending, Outcome.Success, hsuccess]
  | transportError name => exact iff_of_false nofun id
  | httpError name => exact iff_of_false nofun id

theorem Resend.Outcome.ending_of_unreadable {outcome : Outcome} (h : outcome.Unreadable) :
    outcome.ending = .error .recursionError := by
  cases outcome with
  | responded response =>
      have hcode : response.response.errorCode = .error .recursionError := by
        rw [HttpResponse.response, h.2]
        rfl
      simp [Outcome.ending, h.1, Response.raised, hcode]
  | transportError name => exact h.elim
  | httpError name => exact h.elim

/-- The loop and `send` classify the last response alike. -/
theorem Resend.Outcome.raises_of_readable {outcome : Outcome} {failure : Failure}
    (hreadable : ¬ outcome.Unreadable) (h : outcome.ending = .error failure) :
    ∃ error, deliveryError failure = .delivery error
      ∧ (error.retryable = false ↔ outcome.Rejected) := by
  cases outcome with
  | responded response =>
      cases hsuccess : response.response.isSuccess with
      | true => simp [Outcome.ending, hsuccess] at h
      | false =>
          cases hcode : response.response.errorCode with
          | error error =>
              exact absurd ⟨hsuccess, errorCode_eq_error_iff.mp hcode⟩ hreadable
          | ok code =>
              obtain ⟨retryable, hretryable⟩ :
                  ∃ retryable, isRetryableResponse response.response = .ok retryable := by
                rw [isRetryableResponse, hcode]
                split <;> exact ⟨_, rfl⟩
              simp only [Outcome.ending, hsuccess, Bool.false_eq_true, if_false, Response.raised,
                hcode, Except.error.injEq] at h
              subst h
              simp [deliveryError, hretryable, hcode, Outcome.Rejected, hsuccess]
  | transportError name =>
      cases h
      exact ⟨_, rfl, iff_of_false nofun id⟩
  | httpError name =>
      cases h
      exact ⟨_, rfl, iff_of_false nofun id⟩

/-- An outcome that is neither settled nor tried again is a response whose body cannot be read. -/
theorem Resend.Outcome.settles_of_readable {outcome : Outcome} (hreadable : ¬ outcome.Unreadable)
    (hnot : ¬ outcome.Retried) : outcome.Settles := by
  cases outcome with
  | transportError name => exact absurd trivial hnot
  | httpError name => exact .inr (.inr ⟨name, rfl⟩)
  | responded response =>
      cases hsuccess : response.response.isSuccess with
      | true => exact .inl hsuccess
      | false =>
          cases hretryable : isRetryableResponse response.response with
          | ok retryable =>
              cases retryable with
              | true => exact absurd ⟨hsuccess, hretryable⟩ hnot
              | false => exact .inr (.inl ⟨hsuccess, hretryable⟩)
          | error error =>
              have hstatus : response.response.statusCode ∉ retryableServerStatuses := by
                intro hmem
                rw [isRetryableResponse_of_mem hmem] at hretryable
                cases hretryable
              cases hcode : response.response.errorCode with
              | error error => exact absurd ⟨hsuccess, errorCode_eq_error_iff.mp hcode⟩ hreadable
              | ok code =>
                  rw [isRetryableResponse, if_neg hstatus, hcode] at hretryable
                  cases hretryable

/-- Whether every code can be read is decided where the loop ends. -/
theorem Attempts.codesReadable_iff {delays : List (Value Rat)}
    (h : Attempts waiting post outcomes 0 2 delays) :
    CodesReadable outcomes ↔ ¬ (outcomes delays.length).Unreadable := by
  have hretried := h.retried
  have hended := h.ended
  simp only [Nat.zero_add] at hretried hended
  constructor
  · intro hreadable hunreadable
    have hlt : delays.length < maxAttempts := Nat.lt_succ_of_le h.length_le
    have hnot := hreadable delays.length hlt hretried
    cases houtcome : outcomes delays.length with
    | transportError name => rw [houtcome] at hunreadable; exact hunreadable
    | httpError name => rw [houtcome] at hunreadable; exact hunreadable
    | responded response =>
        rw [houtcome] at hunreadable hnot hended
        refine hnot ⟨hunreadable.1, hended.imp (fun hnot hmem => ?_) (congrArg (· + 1))⟩
          hunreadable.2
        exact hnot ⟨hunreadable.1, isRetryableResponse_of_mem hmem⟩
  · intro hreadable attempt hlt hbefore hread htoo
    cases houtcome : outcomes attempt with
    | transportError name => rw [houtcome] at htoo; exact htoo
    | httpError name => rw [houtcome] at htoo; exact htoo
    | responded response =>
        rw [houtcome] at hread htoo
        obtain ⟨hsuccess, hstatus⟩ := hread
        obtain hless | rfl | hmore := Nat.lt_trichotomy attempt delays.length
        · -- a retried response with such a body has one of the four statuses
          have hagain := hretried attempt hless
          rw [houtcome] at hagain
          have hle := h.length_le
          have hmem : response.statusCode ∉ retryableServerStatuses :=
            hstatus.resolve_right fun hlast => by rw [maxAttempts] at hlast; omega
          have hcode : response.response.errorCode = .error .recursionError := by
            rw [HttpResponse.response, htoo]
            rfl
          rw [Outcome.Retried, isRetryableResponse_of_error hcode hmem] at hagain
          cases hagain.2
        · rw [houtcome] at hreadable
          exact hreadable ⟨hsuccess, htoo⟩
        · have hlast := hended.resolve_left (not_not_intro (hbefore _ hmore))
          rw [maxAttempts] at hlt
          omega

/-- The requests among the actions. -/
def posts (actions : List Action) : List Post :=
  actions.filterMap fun
    | .post post => some post
    | .sleep _ => none

theorem posts_retryFrom (waiting : Waiting) (post : Post) (outcomes : Nat → Outcome)
    (attempt left : Nat) :
    sendWithRetryFrom post (fun i => (outcomes i).result) attempt left
      = (posts (retryFrom waiting post outcomes attempt left).1,
        (retryFrom waiting post outcomes attempt left).2) := by
  induction left generalizing attempt with
  | zero => rfl
  | succ left ih =>
      rw [sendWithRetryFrom, retryFrom, ih]
      cases outcomes attempt with
      | httpError name => rfl
      | transportError name =>
          by_cases hlast : left = 0
          · simp [Outcome.result, hlast, posts]
          · simp [Outcome.result, hlast, posts]
      | responded response =>
          cases hsuccess : response.response.isSuccess with
          | true => simp [Outcome.result, hsuccess, posts]
          | false =>
              simp only [Outcome.result, hsuccess]
              cases hretryable : isRetryableResponse response.response with
              | error error => rfl
              | ok retryable =>
                  by_cases hends : (!retryable) = true ∨ left = 0
                  · simp only [hends, posts]
                    rfl
                  · simp only [hends, posts]
                    rfl

variable (sender : ResendEmailSender)

/-- Without the waits, the delivery is the one of the other loop. -/
theorem send_eq_sendWaiting (waiting : Waiting) (message : EmailMessage) (uuid : String)
    (outcomes : Nat → Outcome) :
    sender.send message uuid (fun i => (outcomes i).result)
      = (posts (sender.sendWaiting waiting message uuid outcomes).1,
        (sender.sendWaiting waiting message uuid outcomes).2) := by
  rw [ResendEmailSender.send, ResendEmailSender.sendWaiting]
  by_cases hkey : sender.apiKey = ""
  · rw [if_pos hkey, if_pos hkey]
    rfl
  · rw [if_neg hkey, if_neg hkey, posts_retryFrom waiting]

/-- What is promised of a delivery, with the waits between its requests: one request posted between
once and three times with one wait between two posts, never longer than the maximum. It goes on past
no outcome that settles it and stops before the third post at no other, it returns exactly when the
last post succeeded, and otherwise it raises a delivery error that is final exactly when the last
outcome was a response not worth another attempt. -/
structure SendsAsPromised (waiting : Waiting) (message : EmailMessage) (uuid : String)
    (outcomes : Nat → Outcome) (delays : List (Value Rat)) : Prop where
  actions : (sender.sendWaiting waiting message uuid outcomes).1
    = posting (sender.post message uuid) delays
  attempts : delays.length + 1 ≤ 3
  within : ∀ delay ∈ delays, delay.Within 0 5
  unsettled : ∀ i < delays.length, ¬ (outcomes i).Settles
  settled : (outcomes delays.length).Settles ∨ delays.length + 1 = 3
  returns : (sender.sendWaiting waiting message uuid outcomes).2 = .ok ()
    ↔ (outcomes delays.length).Success
  raises : (sender.sendWaiting waiting message uuid outcomes).2 ≠ .ok () →
    ∃ error, (sender.sendWaiting waiting message uuid outcomes).2 = .error (.delivery error)
      ∧ (error.retryable = false ↔ (outcomes delays.length).Rejected)

variable {sender} {message : EmailMessage} {uuid : String}

theorem Attempts.sendWaiting (hkey : sender.apiKey ≠ "") {delays : List (Value Rat)}
    (h : Attempts waiting (sender.post message uuid) outcomes 0 2 delays) :
    sender.sendWaiting waiting message uuid outcomes
      = (posting (sender.post message uuid) delays,
        (outcomes delays.length).ending.mapError deliveryError) := by
  have hrun := h.run
  rw [Nat.zero_add] at hrun
  rw [ResendEmailSender.sendWaiting, if_neg hkey, maxAttempts, hrun]

theorem Attempts.sendsAsPromised (hkey : sender.apiKey ≠ "") {delays : List (Value Rat)}
    (h : Attempts waiting (sender.post message uuid) outcomes 0 2 delays)
    (hreadable : ¬ (outcomes delays.length).Unreadable) :
    SendsAsPromised sender waiting message uuid outcomes delays := by
  have hsend := h.sendWaiting hkey
  have hretried := h.retried
  have hended := h.ended
  simp only [Nat.zero_add] at hretried hended
  constructor
  · rw [hsend]
  · exact Nat.succ_le_succ h.length_le
  · exact h.within
  · exact fun i hi hsettles => Outcome.not_retried_of_settles hsettles (hretried i hi)
  · exact hended.imp (Outcome.settles_of_readable hreadable) (congrArg (· + 1))
  · rw [hsend, ← Outcome.ending_ok_iff]
    cases (outcomes delays.length).ending <;> simp [Except.mapError]
  · intro hraised
    rw [hsend] at hraised ⊢
    cases hending : (outcomes delays.length).ending with
    | ok => rw [hending] at hraised; exact absurd rfl hraised
    | error failure =>
        obtain ⟨error, herror, hfinal⟩ := Outcome.raises_of_readable hreadable hending
        exact ⟨error, congrArg Except.error herror, hfinal⟩

theorem Attempts.recursionError (hkey : sender.apiKey ≠ "") {delays : List (Value Rat)}
    (h : Attempts waiting (sender.post message uuid) outcomes 0 2 delays)
    (hunreadable : (outcomes delays.length).Unreadable) :
    (sender.sendWaiting waiting message uuid outcomes).2 = .error .recursionError := by
  rw [h.sendWaiting hkey, Outcome.ending_of_unreadable hunreadable]
  rfl

theorem SendsAsPromised.not_recursionError {delays : List (Value Rat)}
    (h : SendsAsPromised sender waiting message uuid outcomes delays) :
    (sender.sendWaiting waiting message uuid outcomes).2 ≠ .error .recursionError := by
  intro hresult
  obtain ⟨error, herror, -⟩ := h.raises (by rw [hresult]; exact nofun)
  rw [hresult] at herror
  cases herror

/-- **One delivery.** With an API key, `send` does what is promised exactly when no body whose code
it reads is nested too deeply. -/
theorem sendWaiting_settles (sender : ResendEmailSender) (hkey : sender.apiKey ≠ "")
    (waiting : Waiting) (message : EmailMessage) (uuid : String) (outcomes : Nat → Outcome) :
    (∃ delays, SendsAsPromised sender waiting message uuid outcomes delays)
      ↔ CodesReadable outcomes := by
  obtain ⟨delays, h⟩ := exists_attempts waiting (sender.post message uuid) outcomes 0 2
  rw [h.codesReadable_iff]
  constructor
  · rintro ⟨_, hpromised⟩ hunreadable
    exact hpromised.not_recursionError (h.recursionError hkey hunreadable)
  · intro hreadable
    exact ⟨delays, h.sendsAsPromised hkey hreadable⟩

/-- Two numbers are read from headers, and no jitter is added. -/
def plainWaiting : Waiting where
  parseFloat
    | "2" => some (.finite 2)
    | "nan" => some .nan
    | _ => none
  jitter _ := 0
  jitter_nonneg _ := le_rfl
  jitter_lt_one _ := by norm_num

/-- A response over the rate limit, and then a success. -/
def limitedOnce : Nat → Outcome
  | 0 => .responded ⟨429, .object fun _ => some (.text "rate_limit_exceeded"), fun _ => some "nan"⟩
  | _ => .responded ⟨200, .other, fun _ => none⟩

def resendSender : ResendEmailSender := ⟨"secret", "Renginiai <info@example.lt>"⟩

def greeting : EmailMessage :=
  { toAddress := "ona@example.lt", subject := "Labas", text := "Labas", html := "<p>Labas</p>" }

theorem codesReadable_limitedOnce : CodesReadable limitedOnce := by
  intro attempt _ _ _ htoo
  cases attempt <;> cases htoo

theorem sendWaiting_settles_limitedOnce :
    ∃ delays, SendsAsPromised resendSender plainWaiting greeting "u" limitedOnce delays :=
  (sendWaiting_settles resendSender (by decide) plainWaiting greeting "u" limitedOnce).mpr
    codesReadable_limitedOnce

/-- The provider refuses the request with a body of many nested arrays. -/
def nestedAnswer (_ : Nat) : Outcome := .responded ⟨400, .tooDeep, fun _ => none⟩

/-- Neither `_error_code` nor `send` catches what reading the body raises. -/
theorem sendWaiting_nestedAnswer :
    (resendSender.sendWaiting plainWaiting greeting "u" nestedAnswer).2 = .error .recursionError
      ∧ ¬ ∃ delays, SendsAsPromised resendSender plainWaiting greeting "u" nestedAnswer delays := by
  have hresult : (resendSender.sendWaiting plainWaiting greeting "u" nestedAnswer).2
      = .error .recursionError := rfl
  exact ⟨hresult, fun ⟨_, h⟩ => h.not_recursionError hresult⟩

end EventsApi
