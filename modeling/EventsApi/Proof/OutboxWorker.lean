import EventsApi.Mailer.Worker
import EventsApi.Proof.OutboxSpacing

/-!
# The worker's loop

What a call of `process_next_email` does to each stored row, and from it that the loop hands jobs
over in the order in which they fall due.
-/

namespace EventsApi.EmailOutbox

/-! ### Which job is first -/

/-- `ORDER BY next_attempt_at, id`. -/
def Precedes (first second : EmailOutboxJob) : Prop :=
  first.nextAttemptAt < second.nextAttemptAt
    ∨ first.nextAttemptAt = second.nextAttemptAt ∧ first.id ≤ second.id

theorem firstDue_precedes {jobs : List EmailOutboxJob} {best : EmailOutboxJob}
    (h : firstDue jobs = some best) : ∀ job ∈ jobs, Precedes best job := by
  induction jobs generalizing best with
  | nil => cases h
  | cons first jobs ih =>
      rw [firstDue] at h
      split at h
      · rename_i hnone
        cases h
        intro job hjob
        obtain rfl | hjob := List.mem_cons.mp hjob
        · exact Or.inr ⟨rfl, le_rfl⟩
        · cases jobs with
          | nil => cases hjob
          | cons second rest =>
              rw [firstDue] at hnone
              split at hnone
              · cases hnone
              · split at hnone <;> cases hnone
      · rename_i rest hrest
        have hprecedes := ih hrest
        unfold Precedes at hprecedes ⊢
        split at h
        · rename_i hfirst
          cases h
          intro job hjob
          obtain rfl | hjob := List.mem_cons.mp hjob
          · exact Or.inr ⟨rfl, le_rfl⟩
          · have := hprecedes job hjob
            omega
        · rename_i hfirst
          cases h
          intro job hjob
          obtain rfl | hjob := List.mem_cons.mp hjob
          · omega
          · exact hprecedes job hjob

theorem firstDue_isSome {jobs : List EmailOutboxJob} {job : EmailOutboxJob} (h : job ∈ jobs) :
    ∃ best, firstDue jobs = some best := by
  cases jobs with
  | nil => cases h
  | cons first jobs =>
      rw [firstDue]
      split
      · exact ⟨_, rfl⟩
      · split <;> exact ⟨_, rfl⟩

section Claimable

variable {jobs : List EmailOutboxJob} {now : Int} {skipped : List Nat} {job : EmailOutboxJob}

theorem mem_candidates (hjob : job ∈ jobs) (hdue : isDue now job = true)
    (hskipped : job.id ∉ skipped) :
    job ∈ jobs.filter fun job => isDue now job && !skipped.contains job.id := by
  simp [List.mem_filter, hjob, hdue, hskipped]

theorem claimable_isSome (hjob : job ∈ jobs) (hdue : isDue now job = true)
    (hskipped : job.id ∉ skipped) : ∃ best, claimable jobs now skipped = some best :=
  firstDue_isSome (mem_candidates hjob hdue hskipped)

theorem claimable_precedes {best : EmailOutboxJob} (h : claimable jobs now skipped = some best)
    (hjob : job ∈ jobs) (hdue : isDue now job = true) (hskipped : job.id ∉ skipped) :
    Precedes best job :=
  firstDue_precedes h job (mem_candidates hjob hdue hskipped)

end Claimable

/-! ### Ids -/

/-- Ids are unique and below the sequence. -/
structure Stored.Numbered (stored : Stored) : Prop where
  nodup : (stored.jobs.map (·.id)).Nodup
  lt : ∀ job ∈ stored.jobs, job.id < stored.nextId

namespace Stored.Numbered

variable {stored : Stored}

theorem eq_of_id_eq (h : stored.Numbered) {job job' : EmailOutboxJob} (hjob : job ∈ stored.jobs)
    (hjob' : job' ∈ stored.jobs) (hid : job.id = job'.id) : job = job' :=
  List.inj_on_of_nodup_map h.nodup hjob hjob' hid

/-- Rows that go, or change in other columns, leave the others numbered. -/
theorem filterMap (h : stored.Numbered) {f : EmailOutboxJob → Option EmailOutboxJob}
    (hf : ∀ job job', f job = some job' → job'.id = job.id) :
    ({ stored with jobs := stored.jobs.filterMap f } : Stored).Numbered where
  nodup := h.nodup.sublist (sublist_map_filterMap hf stored.jobs)
  lt := by
    intro job' hjob'
    obtain ⟨job, hjob, hchange⟩ := List.mem_filterMap.mp hjob'
    exact hf job job' hchange ▸ h.lt job hjob

theorem deleteLinked (h : stored.Numbered) (linked : EmailOutboxJob → Bool) :
    ({ stored with jobs := EmailOutbox.deleteLinked linked stored.jobs } : Stored).Numbered := by
  rw [deleteLinked_eq_filterMap]
  refine h.filterMap fun job job' hjob' => ?_
  rw [Option.guard_eq_some_iff] at hjob'
  rw [hjob'.1]

theorem append (h : stored.Numbered) {job : EmailOutboxJob} (hid : job.id = stored.nextId) :
    (⟨stored.jobs ++ [job], stored.nextId + 1⟩ : Stored).Numbered where
  nodup := by
    rw [List.map_append, List.map_singleton, List.nodup_append_comm, List.singleton_append,
      List.nodup_cons]
    refine ⟨fun hmem => ?_, h.nodup⟩
    obtain ⟨other, hother, hsame⟩ := List.mem_map.mp hmem
    have := h.lt other hother
    omega
  lt := by
    intro other hother
    obtain hother | hother := List.mem_append.mp hother
    · exact Nat.lt_succ_of_lt (h.lt other hother)
    · rw [List.mem_singleton.mp hother, hid]
      exact Nat.lt_succ_self _

end Stored.Numbered

/-! ### What requests do beside the worker -/

/-- A row that was not there before: queued by one of the requests. -/
def Arrived (stored : Stored) (interludes : List Interlude) (row : EmailOutboxJob) : Prop :=
  stored.nextId ≤ row.id ∧ ∃ message now confirmationTokenId passwordResetTokenId,
    .enqueue message now confirmationTokenId passwordResetTokenId ∈ interludes
      ∧ row.nextAttemptAt = now

section Interludes

variable {stored : Stored}

theorem after_enqueue_cases (stored : Stored) (message : EmailMessage) (now : Int)
    (confirmationTokenId passwordResetTokenId : Option Nat) :
    stored.after (.enqueue message now confirmationTokenId passwordResetTokenId) = stored
    ∨ ∃ key, message.idempotencyKey = some key
      ∧ stored.after (.enqueue message now confirmationTokenId passwordResetTokenId)
        = ⟨stored.jobs ++
            [newJob stored.nextId message key now confirmationTokenId passwordResetTokenId],
          stored.nextId + 1⟩ := by
  simp only [Stored.after]
  cases henqueue : EmailOutbox.enqueue stored.jobs stored.nextId message now confirmationTokenId
      passwordResetTokenId with
  | error => exact Or.inl rfl
  | ok job =>
      obtain ⟨key, hkey, rfl, _⟩ := enqueue_spec henqueue
      exact Or.inr ⟨key, hkey, rfl⟩

theorem Stored.Numbered.after (h : stored.Numbered) (i : Interlude) :
    (stored.after i).Numbered := by
  cases i with
  | enqueue message now confirmationTokenId passwordResetTokenId =>
      obtain heq | ⟨key, _, heq⟩ :=
        after_enqueue_cases stored message now confirmationTokenId passwordResetTokenId
      · rwa [heq]
      · rw [heq]
        exact h.append rfl
  | deleteConfirmationToken | deletePasswordResetToken => exact h.deleteLinked _

theorem nextId_le_after (stored : Stored) (i : Interlude) :
    stored.nextId ≤ (stored.after i).nextId := by
  cases i with
  | enqueue message now confirmationTokenId passwordResetTokenId =>
      obtain heq | ⟨key, _, heq⟩ :=
        after_enqueue_cases stored message now confirmationTokenId passwordResetTokenId
      · rw [heq]
      · rw [heq]
        exact Nat.le_succ _
  | deleteConfirmationToken | deletePasswordResetToken => exact le_rfl

theorem mem_after {i : Interlude} {row : EmailOutboxJob} (h : row ∈ (stored.after i).jobs) :
    row ∈ stored.jobs ∨ Arrived stored [i] row := by
  cases i with
  | enqueue message now confirmationTokenId passwordResetTokenId =>
      obtain heq | ⟨key, _, heq⟩ :=
        after_enqueue_cases stored message now confirmationTokenId passwordResetTokenId
      · exact Or.inl (heq ▸ h)
      · rw [heq] at h
        obtain h | h := List.mem_append.mp h
        · exact Or.inl h
        · obtain rfl := List.mem_singleton.mp h
          exact Or.inr ⟨le_rfl, message, now, _, _, List.mem_singleton_self _, rfl⟩
  | deleteConfirmationToken | deletePasswordResetToken => exact Or.inl (List.mem_filter.mp h).1

theorem Stored.Numbered.afterAll (h : stored.Numbered) (interludes : List Interlude) :
    (stored.afterAll interludes).Numbered := by
  induction interludes generalizing stored with
  | nil => exact h
  | cons i interludes ih => exact ih (h.after i)

theorem nextId_le_afterAll (stored : Stored) (interludes : List Interlude) :
    stored.nextId ≤ (stored.afterAll interludes).nextId := by
  induction interludes generalizing stored with
  | nil => exact le_rfl
  | cons i interludes ih => exact (nextId_le_after stored i).trans (ih _)

theorem mem_afterAll {interludes : List Interlude} {row : EmailOutboxJob}
    (h : row ∈ (stored.afterAll interludes).jobs) :
    row ∈ stored.jobs ∨ Arrived stored interludes row := by
  induction interludes generalizing stored with
  | nil => exact Or.inl h
  | cons i interludes ih =>
      obtain h | ⟨hid, message, now, _, _, hmem, hnow⟩ := ih h
      · obtain h | ⟨hid, message, now, _, _, hmem, hnow⟩ := mem_after h
        · exact Or.inl h
        · obtain rfl := List.mem_singleton.mp hmem
          exact Or.inr ⟨hid, message, now, _, _, List.mem_cons_self, hnow⟩
      · exact Or.inr ⟨(nextId_le_after stored i).trans hid, message, now, _, _,
          List.mem_cons_of_mem _ hmem, hnow⟩

theorem Arrived.mono {stored' : Stored} {interludes interludes' : List Interlude}
    {row : EmailOutboxJob} (h : Arrived stored' interludes row)
    (hnext : stored.nextId ≤ stored'.nextId) (hsub : interludes ⊆ interludes') :
    Arrived stored interludes' row := by
  obtain ⟨hid, message, now, _, _, hmem, hnow⟩ := h
  exact ⟨hnext.trans hid, message, now, _, _, hsub hmem, hnow⟩

end Interludes

/-! ### One call -/

/-- What a claimed row is left as, unless it is deleted. -/
inductive Handled (leaseDuration claimedAt : Int) (turn : Turn) (job : EmailOutboxJob) :
    EmailOutboxJob → Prop where
  | rescheduled (error : EmailDeliveryError) (delay : Int)
      (hsend : turn.send job.message = .raised error)
      (hretry : error.retryable = true ∧ job.attempts + 1 < maxAttempts)
      (hdelay : retryDelay (job.attempts + 1) = some delay) :
      Handled leaseDuration claimedAt turn job
        { job with
          attempts := job.attempts + 1
          nextAttemptAt := claimedAt + turn.sendTime + delay
          lockedUntil := none
          lockToken := none
          lastErrorCode := some (errorCode error) }
  | failed (error : EmailDeliveryError) (hsend : turn.send job.message = .raised error)
      (hstop : ¬ (error.retryable = true ∧ job.attempts + 1 < maxAttempts)) :
      Handled leaseDuration claimedAt turn job
        { job with
          attempts := job.attempts + 1
          lockedUntil := none
          lockToken := none
          lastErrorCode := some (errorCode error)
          failedAt := some (claimedAt + turn.sendTime)
          textBody := ""
          htmlBody := "" }
  | abandoned (hsend : turn.send job.message = .raisedOther) :
      Handled leaseDuration claimedAt turn job (leased job claimedAt leaseDuration turn.lockToken)

theorem retryDelay_pos {attempts : Nat} {delay : Int} (h : retryDelay attempts = some delay) :
    0 < delay := by
  have hall : ∀ delay ∈ retryDelays, 0 < delay := by decide
  unfold retryDelay at h
  split at h
  · exact hall delay (List.mem_of_getLast? h)
  · exact hall delay (List.mem_of_getElem? h)

theorem retryDelay_isSome {attempts : Nat} (hpos : 1 ≤ attempts) (hlt : attempts < maxAttempts) :
    ∃ delay, retryDelay attempts = some delay := by
  have hlt : attempts - 1 < retryDelays.length := by
    unfold maxAttempts at hlt
    omega
  exact ⟨_, (retryDelay_eq hpos).trans (List.getElem?_eq_getElem hlt)⟩

section Call

variable {leaseDuration claimedAt : Int} {turn : Turn} {stored : Stored} {job : EmailOutboxJob}

theorem processNextEmail_idle
    (h : claimable stored.jobs claimedAt turn.skipped = none) :
    processNextEmail leaseDuration claimedAt turn stored = (none, stored, .ok false) := by
  simp [processNextEmail, claimNext, h]

/-- The table after the claim and what requests do while the sender is called. -/
def midCall (leaseDuration claimedAt : Int) (turn : Turn) (stored : Stored)
    (job : EmailOutboxJob) : Stored :=
  Stored.afterAll
    { stored with
      jobs := stored.jobs.map fun other =>
        if other.id = job.id then leased job claimedAt leaseDuration turn.lockToken else other }
    turn.during

theorem processNextEmail_claimed
    (h : claimable stored.jobs claimedAt turn.skipped = some job) :
    processNextEmail leaseDuration claimedAt turn stored =
      (some (claimOn job turn.lockToken),
        { midCall leaseDuration claimedAt turn stored job with
          jobs := (settleSend (claimOn job turn.lockToken) (claimedAt + turn.sendTime)
            (midCall leaseDuration claimedAt turn stored job).jobs (turn.send job.message)).1 },
        (settleSend (claimOn job turn.lockToken) (claimedAt + turn.sendTime)
          (midCall leaseDuration claimedAt turn stored job).jobs (turn.send job.message)).2) := by
  simp only [processNextEmail, claimNext, h, Option.elim, midCall, claimOn]

theorem handedOver_eq {claimed : ClaimedEmailJob} :
    (processNextEmail leaseDuration claimedAt turn stored).1 = some claimed ↔
      ∃ job, claimable stored.jobs claimedAt turn.skipped = some job
        ∧ claimed = claimOn job turn.lockToken := by
  cases hclaim : claimable stored.jobs claimedAt turn.skipped with
  | none => simp [processNextEmail_idle hclaim]
  | some job => simp [processNextEmail_claimed hclaim, eq_comm]

theorem numbered_leaseRow (h : stored.Numbered) (job : EmailOutboxJob) (lockToken : String) :
    ({ stored with
      jobs := stored.jobs.map fun other =>
        if other.id = job.id then leased job claimedAt leaseDuration lockToken else other } :
      Stored).Numbered := by
  rw [← List.filterMap_eq_map]
  refine h.filterMap fun other other' hother => ?_
  obtain rfl := Option.some_inj.mp hother
  dsimp only [Function.comp]
  split
  · exact ‹other.id = job.id›.symm
  · rfl

theorem numbered_midCall (h : stored.Numbered) (job : EmailOutboxJob) :
    (midCall leaseDuration claimedAt turn stored job).Numbered :=
  (numbered_leaseRow h job turn.lockToken).afterAll turn.during

theorem nextId_le_midCall (stored : Stored) (job : EmailOutboxJob) :
    stored.nextId ≤ (midCall leaseDuration claimedAt turn stored job).nextId := by
  refine le_trans ?_ (nextId_le_afterAll _ turn.during)
  exact le_rfl

theorem mem_midCall {row : EmailOutboxJob}
    (h : row ∈ (midCall leaseDuration claimedAt turn stored job).jobs) :
    row = leased job claimedAt leaseDuration turn.lockToken ∨ row ∈ stored.jobs ∧ row.id ≠ job.id
      ∨ Arrived stored turn.during row := by
  obtain h | h := mem_afterAll h
  · exact (mem_leaseRow h).imp_right Or.inl
  · exact Or.inr (Or.inr h)

theorem settleSend_eq (claimed : ClaimedEmailJob) (failedAt : Int) (jobs : List EmailOutboxJob)
    (outcome : SendOutcome) :
    (settleSend claimed failedAt jobs outcome).1 = jobs
    ∨ ∃ change, (settleSend claimed failedAt jobs outcome).1 = (settle claimed change jobs).1
      ∧ ∀ row row', change row = some row' → row'.id = row.id := by
  cases outcome with
  | returned => exact Or.inr ⟨_, rfl, fun _ _ h => nomatch h⟩
  | raisedOther => exact Or.inl rfl
  | raised error =>
      simp only [settleSend]
      split
      · cases hdelay : retryDelay claimed.attempts with
        | none => exact Or.inl rfl
        | some delay =>
            refine Or.inr ⟨_, rfl, fun row row' h => ?_⟩
            cases h
            rfl
      · refine Or.inr ⟨_, rfl, fun row row' h => ?_⟩
        cases h
        rfl

theorem numbered_settleSend (h : stored.Numbered) (claimed : ClaimedEmailJob) (failedAt : Int)
    (outcome : SendOutcome) :
    ({ stored with jobs := (settleSend claimed failedAt stored.jobs outcome).1 } :
      Stored).Numbered := by
  obtain heq | ⟨change, heq, hid⟩ := settleSend_eq claimed failedAt stored.jobs outcome
  · rwa [heq]
  · rw [heq]
    refine h.filterMap fun row row' hrow => ?_
    split at hrow
    · exact hid row row' hrow
    · cases hrow
      rfl

theorem numbered_processNextEmail (h : stored.Numbered) :
    (processNextEmail leaseDuration claimedAt turn stored).2.1.Numbered := by
  cases hclaim : claimable stored.jobs claimedAt turn.skipped with
  | none => rwa [processNextEmail_idle hclaim]
  | some job =>
      rw [processNextEmail_claimed hclaim]
      exact numbered_settleSend (numbered_midCall h job) _ _ _

theorem nextId_le_processNextEmail (stored : Stored) :
    stored.nextId ≤ (processNextEmail leaseDuration claimedAt turn stored).2.1.nextId := by
  cases hclaim : claimable stored.jobs claimedAt turn.skipped with
  | none => rw [processNextEmail_idle hclaim]
  | some job =>
      rw [processNextEmail_claimed hclaim]
      exact nextId_le_midCall stored job

/-- What the second transaction makes of the row just claimed. -/
theorem handled_of_settleSend {row : EmailOutboxJob} {jobs : List EmailOutboxJob}
    (h : row ∈ (settleSend (claimOn job turn.lockToken) (claimedAt + turn.sendTime) jobs
      (turn.send job.message)).1)
    (hid : row.id = job.id)
    (honly : ∀ other ∈ jobs, other.id = job.id →
      other = leased job claimedAt leaseDuration turn.lockToken) :
    Handled leaseDuration claimedAt turn job row := by
  have hown : ownedBy (claimOn job turn.lockToken)
      (leased job claimedAt leaseDuration turn.lockToken) = true :=
    ownedBy_iff.mpr ⟨rfl, rfl⟩
  have hleased : ∀ change, row ∈ (settle (claimOn job turn.lockToken) change jobs).1 →
      (∀ row row', change row = some row' → row'.id = row.id) →
      change (leased job claimedAt leaseDuration turn.lockToken) = some row := by
    intro change hrow hchange
    obtain ⟨hrow, hnot⟩ | ⟨other, hother, hown', hother'⟩ := mem_settle hrow
    · rw [honly row hrow hid, hown] at hnot
      cases hnot
    · rwa [honly other hother ((hchange other row hother').symm.trans hid)] at hother'
  cases hsend : turn.send job.message with
  | returned =>
      rw [hsend] at h
      exact nomatch hleased (fun _ => none) h (fun _ _ h => nomatch h)
  | raisedOther =>
      rw [hsend] at h
      rw [honly row h hid]
      exact .abandoned hsend
  | raised error =>
      rw [hsend] at h
      simp only [settleSend] at h
      split at h
      · rename_i hretry
        obtain ⟨delay, hdelay⟩ := retryDelay_isSome (Nat.le_add_left 1 job.attempts) hretry.2
        rw [show (claimOn job turn.lockToken).attempts = job.attempts + 1 from rfl, hdelay] at h
        have hchanged := hleased _ h fun _ _ hrow => by cases hrow; rfl
        cases hchanged
        exact .rescheduled error delay hsend hretry hdelay
      · rename_i hstop
        have hchanged := hleased _ h fun _ _ hrow => by cases hrow; rfl
        cases hchanged
        exact .failed error hsend hstop

theorem mem_settleSend {claimed : ClaimedEmailJob} {failedAt : Int} {jobs : List EmailOutboxJob}
    {outcome : SendOutcome} {row : EmailOutboxJob}
    (h : row ∈ (settleSend claimed failedAt jobs outcome).1) (hid : row.id ≠ claimed.id) :
    row ∈ jobs := by
  obtain heq | ⟨change, heq, hchange⟩ := settleSend_eq claimed failedAt jobs outcome
  · rwa [heq] at h
  · rw [heq] at h
    obtain ⟨hrow, _⟩ | ⟨other, _, hown, hother⟩ := mem_settle h
    · exact hrow
    · exact absurd ((hchange other row hother).trans (ownedBy_iff.mp hown).1) hid

/-- **One call, row by row.** A stored row arrived during the call, is the claimed one after it was
handled, or was there before and is as it was. -/
theorem mem_processNextEmail (h : stored.Numbered) {row : EmailOutboxJob}
    (hrow : row ∈ (processNextEmail leaseDuration claimedAt turn stored).2.1.jobs) :
    Arrived stored turn.during row
    ∨ (∃ job ∈ stored.jobs, claimable stored.jobs claimedAt turn.skipped = some job
      ∧ row.id = job.id ∧ Handled leaseDuration claimedAt turn job row)
    ∨ row ∈ stored.jobs
      ∧ ∀ job, claimable stored.jobs claimedAt turn.skipped = some job → row.id ≠ job.id := by
  cases hclaim : claimable stored.jobs claimedAt turn.skipped with
  | none =>
      rw [processNextEmail_idle hclaim] at hrow
      exact Or.inr (Or.inr ⟨hrow, fun _ h => nomatch h⟩)
  | some job =>
      rw [processNextEmail_claimed hclaim] at hrow
      have hjob := (claimable_spec hclaim).1
      by_cases hid : row.id = job.id
      · refine Or.inr (Or.inl ⟨job, hjob, rfl, hid, handled_of_settleSend hrow hid ?_⟩)
        intro other hother hsame
        obtain hleased | ⟨_, hne⟩ | ⟨hnew, _⟩ := mem_midCall hother
        · exact hleased
        · exact absurd hsame hne
        · have := h.lt job hjob
          omega
      · obtain rfl | ⟨hold, _⟩ | harrived := mem_midCall (mem_settleSend hrow hid)
        · exact absurd rfl hid
        · refine Or.inr (Or.inr ⟨hold, fun job' hjob' => ?_⟩)
          cases hjob'
          exact hid
        · exact Or.inl harrived

end Call

/-! ### The loop -/

section Loop

variable {run : WorkerRun}

theorem runEmailWorker_stored (run : WorkerRun) (n : Nat) :
    (runEmailWorker run (n + 1)).stored =
      (processNextEmail defaultLeaseDuration (runEmailWorker run n).clock (run.turn n)
        (runEmailWorker run n).stored).2.1.afterAll (run.turn n).afterwards :=
  rfl

theorem numbered_runEmailWorker (h : run.start.stored.Numbered) (n : Nat) :
    (runEmailWorker run n).stored.Numbered := by
  induction n with
  | zero => exact h
  | succ n ih => exact (numbered_processNextEmail ih).afterAll _

theorem nextId_le_runEmailWorker (run : WorkerRun) {n m : Nat} (h : n ≤ m) :
    (runEmailWorker run n).stored.nextId ≤ (runEmailWorker run m).stored.nextId := by
  induction h with
  | refl => exact le_rfl
  | step _ ih =>
      exact ih.trans ((nextId_le_processNextEmail _).trans (nextId_le_afterAll _ _))

theorem clock_le_runEmailWorker (run : WorkerRun) {n m : Nat} (h : n ≤ m) :
    (runEmailWorker run n).clock ≤ (runEmailWorker run m).clock := by
  induction h with
  | refl => exact Int.le_refl _
  | @step m _ ih =>
      refine Int.le_trans ih ?_
      have hpoll := (parseDuration_mem run.pollInterval).1
      rw [runEmailWorker, WorkerState.iterate]
      dsimp only
      split <;> split <;> omega

/-- **One iteration, row by row.** -/
theorem mem_runEmailWorker (h : run.start.stored.Numbered) {n : Nat} {row : EmailOutboxJob}
    (hrow : row ∈ (runEmailWorker run (n + 1)).stored.jobs) :
    Arrived (runEmailWorker run n).stored ((run.turn n).during ++ (run.turn n).afterwards) row
    ∨ (∃ job ∈ (runEmailWorker run n).stored.jobs,
      claimable (runEmailWorker run n).stored.jobs (runEmailWorker run n).clock
        (run.turn n).skipped = some job
      ∧ row.id = job.id
      ∧ Handled defaultLeaseDuration (runEmailWorker run n).clock (run.turn n) job row)
    ∨ row ∈ (runEmailWorker run n).stored.jobs
      ∧ (handedOver run n).map (·.id) ≠ some row.id := by
  rw [runEmailWorker_stored] at hrow
  obtain hrow | harrived := mem_afterAll hrow
  · obtain harrived | hhandled | ⟨hold, hnot⟩ :=
      mem_processNextEmail (numbered_runEmailWorker h n) hrow
    · exact Or.inl (harrived.mono le_rfl (List.subset_append_left _ _))
    · exact Or.inr (Or.inl hhandled)
    · refine Or.inr (Or.inr ⟨hold, fun hhanded => ?_⟩)
      obtain ⟨claimed, hclaimed, hid⟩ := Option.map_eq_some_iff.mp hhanded
      obtain ⟨job, hjob, rfl⟩ := handedOver_eq.mp hclaimed
      exact hnot job hjob hid.symm
  · exact Or.inl (harrived.mono (nextId_le_processNextEmail _) (List.subset_append_right _ _))

/-- A row that is not handed over stays as it is, as long as it stays. -/
theorem row_persists (h : run.start.stored.Numbered) {n m : Nat} (hle : n ≤ m)
    {job : EmailOutboxJob} (hjob : job ∈ (runEmailWorker run n).stored.jobs)
    (hnot : ∀ k, n ≤ k → k < m → (handedOver run k).map (·.id) ≠ some job.id)
    {row : EmailOutboxJob} (hrow : row ∈ (runEmailWorker run m).stored.jobs)
    (hid : row.id = job.id) : row = job := by
  induction hle generalizing row with
  | refl => exact (numbered_runEmailWorker h n).eq_of_id_eq hrow hjob hid
  | @step m hle ih =>
      have hlt : job.id < (runEmailWorker run m).stored.nextId :=
        ((numbered_runEmailWorker h n).lt job hjob).trans_le (nextId_le_runEmailWorker run hle)
      obtain ⟨hnew, _⟩ | ⟨first, _, hclaim, hfirst, _⟩ | ⟨hold, _⟩ := mem_runEmailWorker h hrow
      · omega
      · refine absurd ?_ (hnot m hle (Nat.lt_succ_self m))
        refine Option.map_eq_some_iff.mpr ⟨_, handedOver_eq.mpr ⟨first, hclaim, rfl⟩, ?_⟩
        exact hfirst.symm.trans hid
      · exact ih (fun k hk hkm => hnot k hk (Nat.lt_succ_of_lt hkm)) hold hid

theorem isDue_mono {job : EmailOutboxJob} {now now' : Int} (hle : now ≤ now')
    (h : isDue now job = true) : isDue now' job = true := by
  rw [isDue_iff] at h ⊢
  exact ⟨h.1, Int.le_trans h.2.1 hle,
    fun lockedUntil hlocked => Int.le_trans (h.2.2 lockedUntil hlocked) hle⟩

/-- **Jobs are handed over in the order in which they fall due.** Of two jobs that are due at one
iteration, the one with the earlier `next_attempt_at` (at the same one, the one queued first) is
handed over before the other, unless it is deleted with its token first or another transaction has
its row locked. -/
theorem handed_over_in_order (h : run.start.stored.Numbered) {n m : Nat} (hle : n ≤ m)
    {first second : EmailOutboxJob} (hfirst : first ∈ (runEmailWorker run n).stored.jobs)
    (hsecond : second ∈ (runEmailWorker run n).stored.jobs) (hne : first.id ≠ second.id)
    (hdue : isDue (runEmailWorker run n).clock first = true)
    (hprecedes : Precedes first second)
    (hskipped : first.id ∉ (run.turn m).skipped)
    (hhanded : (handedOver run m).map (·.id) = some second.id)
    (honce : ∀ k, n ≤ k → k < m → (handedOver run k).map (·.id) ≠ some second.id) :
    (∃ k, n ≤ k ∧ k < m ∧ (handedOver run k).map (·.id) = some first.id)
    ∨ ∀ row ∈ (runEmailWorker run m).stored.jobs, row.id ≠ first.id := by
  by_contra hcontra
  push Not at hcontra
  obtain ⟨hnever, row, hrow, hid⟩ := hcontra
  obtain rfl := row_persists h hle hfirst (fun k hk hkm => hnever k hk hkm) hrow hid
  obtain ⟨claimed, hclaimed, hsame⟩ := Option.map_eq_some_iff.mp hhanded
  obtain ⟨best, hbest, rfl⟩ := handedOver_eq.mp hclaimed
  obtain rfl := row_persists h hle hsecond honce (claimable_spec hbest).1 hsame
  have hlater := claimable_precedes hbest hrow
    (isDue_mono (clock_le_runEmailWorker run hle) hdue) hskipped
  unfold Precedes at hprecedes hlater
  omega

def queuedJob (id : Nat) (key : String) : EmailOutboxJob :=
  newJob id ⟨"a@x.lt", "Subject", "Text", "Html", none, some key⟩ key 0 none none

/-- Two jobs, and a provider that takes every message. -/
def deliveringRun : WorkerRun where
  pollInterval := Settings.default.emailOutboxPollInterval
  start := ⟨⟨[queuedJob 0 "first", queuedJob 1 "second"], 2⟩, 0⟩
  turn n := { lockToken := toString n, sendTime := 1, restTime := 1, send := fun _ => .returned }

theorem deliveringRun_numbered : deliveringRun.start.stored.Numbered where
  nodup := by decide
  lt := by decide

theorem handed_over_in_order_delivering :
    (∃ k, 0 ≤ k ∧ k < 1 ∧ (handedOver deliveringRun k).map (·.id) = some 0)
    ∨ ∀ row ∈ (runEmailWorker deliveringRun 1).stored.jobs, row.id ≠ 0 :=
  have hfirst : queuedJob 0 "first" ∈ (runEmailWorker deliveringRun 0).stored.jobs :=
    List.mem_cons_self
  have hsecond : queuedJob 1 "second" ∈ (runEmailWorker deliveringRun 0).stored.jobs :=
    List.mem_cons_of_mem _ (List.mem_singleton_self _)
  handed_over_in_order deliveringRun_numbered (Nat.zero_le 1) hfirst hsecond (by decide)
    (by decide) (Or.inr ⟨rfl, by decide⟩) List.not_mem_nil (by decide) fun k _ hk => by
      obtain rfl : k = 0 := by omega
      decide

end Loop

end EventsApi.EmailOutbox
