import EventsApi.Proof.OutboxWorker
import Mathlib.Data.Finset.Card
import Mathlib.Order.OrderIsoNat

/-!
# Every job is settled

While a job waits, every call claims one that is ahead of it, and what is ahead of it becomes less
with each. A retry leaves a job with one attempt fewer, so after finitely many it is accepted or
given up.
-/

namespace EventsApi.EmailOutbox

/-! ### No job waits forever -/

section Waiting

variable {run : WorkerRun}

/-- Time goes on, no transaction keeps a row locked, a request that queues a message has read the
clock at most a fixed time before, and the sender raises nothing but `EmailDeliveryError`. -/
structure WorkerRun.Fair (run : WorkerRun) : Prop where
  time_passes : ∀ instant, ∃ n, instant ≤ (runEmailWorker run n).clock
  unlocked : ∀ id, ∃ N, ∀ n, N ≤ n → id ∉ (run.turn n).skipped
  prompt : ∃ lag, ∀ n message now confirmationTokenId passwordResetTokenId,
    .enqueue message now confirmationTokenId passwordResetTokenId
        ∈ (run.turn n).during ++ (run.turn n).afterwards →
      (runEmailWorker run n).clock - lag ≤ now
  raises : ∀ n message, (run.turn n).send message ≠ .raisedOther

/-- The jobs that may still come before one whose next attempt is due at the instant given. -/
def ahead (run : WorkerRun) (instant : Int) (n : Nat) : Finset Nat :=
  (((runEmailWorker run n).stored.jobs.filter fun row =>
    row.failedAt.isNone && decide (row.nextAttemptAt ≤ instant)).map (·.id)).toFinset

theorem mem_ahead {instant : Int} {n id : Nat} :
    id ∈ ahead run instant n ↔ ∃ row ∈ (runEmailWorker run n).stored.jobs,
      row.failedAt = none ∧ row.nextAttemptAt ≤ instant ∧ row.id = id := by
  simp [ahead, and_assoc]

theorem Handled.later {leaseDuration claimedAt : Int} {turn : Turn} {job row : EmailOutboxJob}
    (h : Handled leaseDuration claimedAt turn job row)
    (hraises : turn.send job.message ≠ .raisedOther) (hfailed : row.failedAt = none) :
    claimedAt < row.nextAttemptAt := by
  cases h with
  | rescheduled error delay _ _ hdelay =>
      have := retryDelay_pos hdelay
      dsimp only
      omega
  | failed => cases hfailed
  | abandoned hsend => exact absurd hsend hraises

/-- An iteration that hands over a job ahead leaves fewer of them, once the clock is past the
instant by more than requests lag. -/
theorem ahead_lt (h : run.start.stored.Numbered) {instant lag : Int} {n : Nat}
    (hprompt : ∀ message now confirmationTokenId passwordResetTokenId,
      .enqueue message now confirmationTokenId passwordResetTokenId
          ∈ (run.turn n).during ++ (run.turn n).afterwards →
        (runEmailWorker run n).clock - lag ≤ now)
    (hraises : ∀ message, (run.turn n).send message ≠ .raisedOther)
    (hclock : instant ≤ (runEmailWorker run n).clock)
    (hlag : instant + lag < (runEmailWorker run n).clock) {best : EmailOutboxJob}
    (hbest : claimable (runEmailWorker run n).stored.jobs (runEmailWorker run n).clock
      (run.turn n).skipped = some best)
    (hle : best.nextAttemptAt ≤ instant) : ahead run instant (n + 1) < ahead run instant n := by
  have hnumbered := numbered_runEmailWorker h n
  obtain ⟨hmem, hdue⟩ := claimable_spec hbest
  have hkept : ∀ row ∈ (runEmailWorker run (n + 1)).stored.jobs, row.failedAt = none →
      row.nextAttemptAt ≤ instant →
      row ∈ (runEmailWorker run n).stored.jobs ∧ row.id ≠ best.id := by
    intro row hrow hfailed hearly
    obtain ⟨_, message, now, _, _, hqueued, hnow⟩ | ⟨job, _, _, _, hhandled⟩ | ⟨hold, hnot⟩ :=
      mem_runEmailWorker h hrow
    · have := hprompt message now _ _ hqueued
      omega
    · have := hhandled.later (hraises _) hfailed
      omega
    · refine ⟨hold, fun hid => hnot ?_⟩
      exact Option.map_eq_some_iff.mpr ⟨_, handedOver_eq.mpr ⟨best, hbest, rfl⟩, hid.symm⟩
  rw [Finset.ssubset_iff_of_subset]
  · refine ⟨best.id, mem_ahead.mpr ⟨best, hmem, isDue_failedAt hdue, hle, rfl⟩, fun hafter => ?_⟩
    obtain ⟨row, hrow, hfailed, hearly, hid⟩ := mem_ahead.mp hafter
    exact (hkept row hrow hfailed hearly).2 hid
  · intro id hid
    obtain ⟨row, hrow, hfailed, hearly, hid⟩ := mem_ahead.mp hid
    exact mem_ahead.mpr ⟨row, (hkept row hrow hfailed hearly).1, hfailed, hearly, hid⟩

/-- **No job waits forever**: it is handed over, or deleted. -/
theorem leaves_or_handed_over (h : run.start.stored.Numbered) (hfair : run.Fair) {n : Nat}
    {job : EmailOutboxJob} (hjob : job ∈ (runEmailWorker run n).stored.jobs)
    (hfailed : job.failedAt = none) :
    ∃ m, n ≤ m ∧ ((handedOver run m).map (·.id) = some job.id
      ∨ ∀ row ∈ (runEmailWorker run (m + 1)).stored.jobs, row.id ≠ job.id) := by
  by_contra hcontra
  push Not at hcontra
  obtain ⟨lag, hprompt⟩ := hfair.prompt
  obtain ⟨N₁, hunlocked⟩ := hfair.unlocked job.id
  obtain ⟨N₂, hpast⟩ := hfair.time_passes
    (max (job.nextAttemptAt + max lag 0 + 1) (job.lockedUntil.getD 0))
  have hstays : ∀ m, n ≤ m → job ∈ (runEmailWorker run m).stored.jobs := by
    intro m hm
    obtain rfl | hlt := hm.eq_or_lt
    · exact hjob
    · obtain ⟨k, rfl⟩ : ∃ k, m = k + 1 := ⟨m - 1, by omega⟩
      obtain ⟨row, hrow, hid⟩ := (hcontra k (Nat.lt_succ_iff.mp hlt)).2
      rwa [← row_persists h hm hjob (fun j hj _ => (hcontra j hj).1) hrow hid]
  let N := max n (max N₁ N₂)
  refine not_strictAnti_of_wellFoundedLT (fun k => ahead run job.nextAttemptAt (N + k))
    (strictAnti_nat_of_succ_lt fun k => ?_)
  have hclock : max (job.nextAttemptAt + max lag 0 + 1) (job.lockedUntil.getD 0)
      ≤ (runEmailWorker run (N + k)).clock :=
    Int.le_trans hpast (clock_le_runEmailWorker run (by omega))
  have hhere := hstays (N + k) (by omega)
  have hdue : isDue (runEmailWorker run (N + k)).clock job = true := by
    rw [isDue_iff]
    refine ⟨hfailed, by omega, fun lockedUntil hlocked => ?_⟩
    rw [hlocked, Option.getD_some] at hclock
    omega
  have hskipped := hunlocked (N + k) (by omega)
  obtain ⟨best, hbest⟩ := claimable_isSome hhere hdue hskipped
  have hprecedes := claimable_precedes hbest hhere hdue hskipped
  unfold Precedes at hprecedes
  exact ahead_lt (n := N + k) h (hprompt (N + k)) (hfair.raises (N + k)) (by omega) (by omega)
    hbest (by omega)

end Waiting

/-! ### How a job leaves the outbox -/

/-- The deletion of a token takes the job along. -/
def Interlude.deletes : Interlude → EmailOutboxJob → Bool
  | .enqueue .. => fun _ => false
  | .deleteConfirmationToken tokenId => linkedToConfirmationToken tokenId
  | .deletePasswordResetToken tokenId => linkedToPasswordResetToken tokenId

def DeletedBy (interludes : List Interlude) (job : EmailOutboxJob) : Prop :=
  ∃ i ∈ interludes, i.deletes job = true

section Leaving

variable {leaseDuration claimedAt : Int} {turn : Turn} {stored : Stored} {job : EmailOutboxJob}

theorem stays_after (hjob : job ∈ stored.jobs) {i : Interlude} (hi : i.deletes job = false) :
    job ∈ (stored.after i).jobs := by
  cases i with
  | enqueue message now confirmationTokenId passwordResetTokenId =>
      obtain heq | ⟨key, _, heq⟩ :=
        after_enqueue_cases stored message now confirmationTokenId passwordResetTokenId
      · rwa [heq]
      · rw [heq]
        exact List.mem_append_left _ hjob
  | deleteConfirmationToken | deletePasswordResetToken =>
      exact List.mem_filter.mpr ⟨hjob, congrArg not hi⟩

theorem stays_afterAll (hjob : job ∈ stored.jobs) (interludes : List Interlude) :
    job ∈ (stored.afterAll interludes).jobs ∨ DeletedBy interludes job := by
  induction interludes generalizing stored with
  | nil => exact Or.inl hjob
  | cons i interludes ih =>
      by_cases hi : i.deletes job = true
      · exact Or.inr ⟨i, List.mem_cons_self, hi⟩
      · obtain hstays | ⟨other, hother, hdeletes⟩ := ih (stays_after hjob (Bool.eq_false_iff.mpr hi))
        · exact Or.inl hstays
        · exact Or.inr ⟨other, List.mem_cons_of_mem _ hother, hdeletes⟩

/-- Two versions of one row. -/
def SameJob (row job : EmailOutboxJob) : Prop :=
  row.id = job.id ∧ row.confirmationTokenId = job.confirmationTokenId
    ∧ row.passwordResetTokenId = job.passwordResetTokenId

theorem SameJob.deletes {row : EmailOutboxJob} (h : SameJob row job) (i : Interlude) :
    i.deletes row = i.deletes job := by
  cases i with
  | enqueue => rfl
  | deleteConfirmationToken => exact congrArg (· == _) h.2.1
  | deletePasswordResetToken => exact congrArg (· == _) h.2.2

theorem SameJob.deletedBy {row : EmailOutboxJob} (h : SameJob row job)
    {interludes : List Interlude} (hdeleted : DeletedBy interludes row) :
    DeletedBy interludes job := by
  obtain ⟨i, hi, hdeletes⟩ := hdeleted
  exact ⟨i, hi, (h.deletes i).symm.trans hdeletes⟩

theorem DeletedBy.mono {interludes interludes' : List Interlude} (h : DeletedBy interludes job)
    (hsub : interludes ⊆ interludes') : DeletedBy interludes' job := by
  obtain ⟨i, hi, hdeletes⟩ := h
  exact ⟨i, hsub hi, hdeletes⟩

theorem sameJob_leased (job : EmailOutboxJob) (now leaseDuration : Int) (lockToken : String) :
    SameJob (leased job now leaseDuration lockToken) job :=
  ⟨rfl, rfl, rfl⟩

theorem stays_settle {claimed : ClaimedEmailJob} {jobs : List EmailOutboxJob} (hjob : job ∈ jobs)
    {change : EmailOutboxJob → EmailOutboxJob} (hsame : SameJob (change job) job) :
    ∃ row ∈ (settle claimed (fun row => some (change row)) jobs).1, SameJob row job := by
  by_cases hown : ownedBy claimed job = true
  · exact ⟨change job, List.mem_filterMap.mpr ⟨job, hjob, if_pos hown⟩, hsame⟩
  · exact ⟨job, List.mem_filterMap.mpr ⟨job, hjob, if_neg hown⟩, rfl, rfl, rfl⟩

theorem stays_settleSend {claimed : ClaimedEmailJob} {failedAt : Int} {jobs : List EmailOutboxJob}
    (hjob : job ∈ jobs) (outcome : SendOutcome) :
    (∃ row ∈ (settleSend claimed failedAt jobs outcome).1, SameJob row job)
    ∨ job.id = claimed.id ∧ outcome = .returned := by
  cases outcome with
  | returned =>
      by_cases hown : ownedBy claimed job = true
      · exact Or.inr ⟨(ownedBy_iff.mp hown).1, rfl⟩
      · exact Or.inl ⟨job, List.mem_filterMap.mpr ⟨job, hjob, if_neg hown⟩, rfl, rfl, rfl⟩
  | raisedOther => exact Or.inl ⟨job, hjob, rfl, rfl, rfl⟩
  | raised error =>
      left
      simp only [settleSend]
      split
      · cases retryDelay claimed.attempts with
        | none => exact ⟨job, hjob, rfl, rfl, rfl⟩
        | some delay =>
            dsimp only [Option.elim_some, retryLater]
            refine stays_settle hjob ?_
            exact ⟨rfl, rfl, rfl⟩
      · dsimp only [fail]
        refine stays_settle hjob ?_
        exact ⟨rfl, rfl, rfl⟩

theorem stays_midCall {row : EmailOutboxJob}
    (hrow : row ∈ stored.jobs.map fun other =>
      if other.id = job.id then leased job claimedAt leaseDuration turn.lockToken else other) :
    row ∈ (midCall leaseDuration claimedAt turn stored job).jobs ∨ DeletedBy turn.during row := by
  refine stays_afterAll ?_ turn.during
  exact hrow

/-- **A row that a call leaves out** was deleted with its token, or the sender returned for it. -/
theorem stays_processNextEmail (h : stored.Numbered) (hjob : job ∈ stored.jobs) :
    (∃ row ∈ (processNextEmail leaseDuration claimedAt turn stored).2.1.jobs, SameJob row job)
    ∨ DeletedBy turn.during job
    ∨ claimable stored.jobs claimedAt turn.skipped = some job
      ∧ turn.send job.message = .returned := by
  cases hclaim : claimable stored.jobs claimedAt turn.skipped with
  | none =>
      rw [processNextEmail_idle hclaim]
      exact Or.inl ⟨job, hjob, rfl, rfl, rfl⟩
  | some first =>
      rw [processNextEmail_claimed hclaim]
      dsimp only
      by_cases hid : job.id = first.id
      · obtain rfl := h.eq_of_id_eq hjob (claimable_spec hclaim).1 hid
        have hsame := sameJob_leased job claimedAt leaseDuration turn.lockToken
        obtain hstays | hdeleted :=
          stays_midCall (leased_mem hjob claimedAt leaseDuration turn.lockToken)
        · obtain ⟨row, hrow, hid, hconfirmation, hreset⟩ | ⟨_, hreturned⟩ :=
            stays_settleSend hstays (turn.send job.message)
          · exact Or.inl ⟨row, hrow, hid, hconfirmation, hreset⟩
          · exact Or.inr (Or.inr ⟨rfl, hreturned⟩)
        · exact Or.inr (Or.inl (hsame.deletedBy hdeleted))
      · obtain hstays | hdeleted := stays_midCall (List.mem_map.mpr ⟨job, hjob, if_neg hid⟩)
        · obtain hrow | ⟨hsame, _⟩ := stays_settleSend hstays (turn.send first.message)
          · exact Or.inl hrow
          · exact absurd hsame hid
        · exact Or.inr (Or.inl hdeleted)

end Leaving

/-! ### Every job is settled -/

section Settled

variable {run : WorkerRun}

theorem stays_runEmailWorker (h : run.start.stored.Numbered) {n : Nat} {job : EmailOutboxJob}
    (hjob : job ∈ (runEmailWorker run n).stored.jobs) :
    (∃ row ∈ (runEmailWorker run (n + 1)).stored.jobs, SameJob row job)
    ∨ DeletedBy ((run.turn n).during ++ (run.turn n).afterwards) job
    ∨ claimable (runEmailWorker run n).stored.jobs (runEmailWorker run n).clock
        (run.turn n).skipped = some job
      ∧ (run.turn n).send job.message = .returned := by
  rw [runEmailWorker_stored]
  obtain ⟨row, hrow, hsame⟩ | hdeleted | hreturned :=
    stays_processNextEmail (numbered_runEmailWorker h n) hjob
  · obtain hstays | hdeleted := stays_afterAll hrow (run.turn n).afterwards
    · exact Or.inl ⟨row, hstays, hsame⟩
    · exact Or.inr (Or.inl ((hsame.deletedBy hdeleted).mono (List.subset_append_right _ _)))
  · exact Or.inr (Or.inl (hdeleted.mono (List.subset_append_left _ _)))
  · exact Or.inr (Or.inr hreturned)

/-- The provider took the message of the job. -/
def Accepted (run : WorkerRun) (job : EmailOutboxJob) (n : Nat) : Prop :=
  ∃ claimed, handedOver run n = some claimed ∧ claimed.id = job.id ∧ claimed.message = job.message
    ∧ (run.turn n).send claimed.message = .returned

/-- The job is kept, and no longer tried. -/
def GivenUp (run : WorkerRun) (job : EmailOutboxJob) (n : Nat) : Prop :=
  ∃ row ∈ (runEmailWorker run (n + 1)).stored.jobs, row.id = job.id ∧ row.failedAt ≠ none

/-- The iterations from one to another that hand the job over. -/
def handOversBetween (run : WorkerRun) (id n m : Nat) : Finset Nat :=
  (Finset.Icc n m).filter fun k => (handedOver run k).map (·.id) = some id

theorem handOversBetween_subset {id n m k : Nat}
    (hnot : ∀ j, n ≤ j → j < m → (handedOver run j).map (·.id) ≠ some id) :
    handOversBetween run id n k ⊆ insert m (handOversBetween run id (m + 1) k) := by
  intro j hj
  simp only [handOversBetween, Finset.mem_filter, Finset.mem_Icc, Finset.mem_insert] at hj ⊢
  obtain ⟨⟨hnj, hjk⟩, hhanded⟩ := hj
  by_cases hlt : j < m
  · exact absurd hhanded (hnot j hnj hlt)
  · by_cases heq : j = m
    · exact Or.inl heq
    · exact Or.inr ⟨⟨by omega, hjk⟩, hhanded⟩

theorem handOversBetween_self {id n m : Nat}
    (hnot : ∀ j, n ≤ j → j < m → (handedOver run j).map (·.id) ≠ some id) :
    (handOversBetween run id n m).card ≤ 1 := by
  refine (Finset.card_le_card (handOversBetween_subset hnot)).trans ?_
  rw [show handOversBetween run id (m + 1) m = ∅ by simp [handOversBetween]]
  exact Finset.card_insert_le m ∅

/-- The first iteration from one on that hands over or drops a job finds it as it was. -/
theorem first_handed_over (h : run.start.stored.Numbered) (hfair : run.Fair) {n : Nat}
    {job : EmailOutboxJob} (hjob : job ∈ (runEmailWorker run n).stored.jobs)
    (hfailed : job.failedAt = none) :
    ∃ m, n ≤ m ∧ job ∈ (runEmailWorker run m).stored.jobs
      ∧ (∀ k, n ≤ k → k < m → (handedOver run k).map (·.id) ≠ some job.id)
      ∧ ((handedOver run m).map (·.id) = some job.id
        ∨ ∀ row ∈ (runEmailWorker run (m + 1)).stored.jobs, row.id ≠ job.id) := by
  classical
  have hexists := leaves_or_handed_over h hfair hjob hfailed
  obtain ⟨m, ⟨hle, hlast⟩, hmin⟩ : ∃ m, (n ≤ m ∧ ((handedOver run m).map (·.id) = some job.id
        ∨ ∀ row ∈ (runEmailWorker run (m + 1)).stored.jobs, row.id ≠ job.id))
      ∧ ∀ k < m, ¬ (n ≤ k ∧ ((handedOver run k).map (·.id) = some job.id
        ∨ ∀ row ∈ (runEmailWorker run (k + 1)).stored.jobs, row.id ≠ job.id)) :=
    ⟨Nat.find hexists, Nat.find_spec hexists, fun _ => Nat.find_min hexists⟩
  push Not at hmin
  refine ⟨m, hle, ?_, fun k hk hlt => (hmin k hlt hk).1, hlast⟩
  obtain rfl | hlt := hle.eq_or_lt
  · exact hjob
  · obtain ⟨k, rfl⟩ : ∃ k, m = k + 1 := ⟨m - 1, by omega⟩
    obtain ⟨row, hrow, hid⟩ := (hmin k (Nat.lt_succ_self k) (Nat.lt_succ_iff.mp hlt)).2
    rwa [← row_persists h hle hjob (fun j hj hjm => (hmin j hjm hj).1) hrow hid]

/-- **Every job is settled.** In the loop of one process, whatever requests do beside it, every job
that has not failed is accepted by the provider, given up, or deleted with its token, and until then
it is handed over at most as often as it has attempts left. -/
theorem every_job_settles (h : run.start.stored.Numbered) (hfair : run.Fair) {n : Nat}
    {job : EmailOutboxJob} (hjob : job ∈ (runEmailWorker run n).stored.jobs)
    (hfailed : job.failedAt = none) :
    ∃ m, n ≤ m
      ∧ (Accepted run job m ∨ GivenUp run job m
        ∨ DeletedBy ((run.turn m).during ++ (run.turn m).afterwards) job)
      ∧ (handOversBetween run job.id n m).card ≤ max 1 (maxAttempts - job.attempts) := by
  -- By induction on the attempts left: a retry leaves the same job with one fewer.
  generalize hleft : max 1 (maxAttempts - job.attempts) = left
  induction left using Nat.strong_induction_on generalizing n job with
  | _ left ih =>
      obtain ⟨m, hle, hhere, hbefore, hlast⟩ := first_handed_over h hfair hjob hfailed
      have honce : (handOversBetween run job.id n m).card ≤ left :=
        (handOversBetween_self hbefore).trans (by omega)
      obtain ⟨row, hrow, hsame⟩ | hdeleted | ⟨hclaim, hreturned⟩ := stays_runEmailWorker h hhere
      · obtain hhanded | hgone := hlast
        · obtain ⟨claimed, hclaimed, hid⟩ := Option.map_eq_some_iff.mp hhanded
          obtain ⟨first, hclaim, rfl⟩ := handedOver_eq.mp hclaimed
          obtain rfl := (numbered_runEmailWorker h m).eq_of_id_eq (claimable_spec hclaim).1 hhere
            hid
          obtain ⟨hnew, _⟩ | ⟨other, _, hother, _, hhandled⟩ | ⟨_, hnot⟩ := mem_runEmailWorker h hrow
          · have := (numbered_runEmailWorker h m).lt _ hhere
            have := hsame.1
            omega
          · obtain rfl := Option.some_inj.mp (hother.symm.trans hclaim)
            cases hrowFailed : row.failedAt with
            | some failedAt =>
                refine ⟨m, hle, Or.inr (Or.inl ⟨row, hrow, hsame.1, ?_⟩), honce⟩
                simp [hrowFailed]
            | none =>
                cases hhandled with
                | rescheduled error delay _ hretry _ =>
                    have hfewer : max 1 (maxAttempts - (other.attempts + 1)) < left := by omega
                    obtain ⟨k, hk, hend, hcard⟩ := ih _ hfewer hrow hrowFailed rfl
                    refine ⟨k, by omega, ?_, ?_⟩
                    · obtain ⟨claimed, hclaimed, hid, hmessage, hreturned⟩ | hfailed | hdeleted :=
                        hend
                      · exact Or.inl ⟨claimed, hclaimed, hid, hmessage, hreturned⟩
                      · exact Or.inr (Or.inl hfailed)
                      · exact Or.inr (Or.inr (hsame.deletedBy hdeleted))
                    · have hsub := Finset.card_le_card
                        (handOversBetween_subset (k := k) hbefore)
                      have hinsert := Finset.card_insert_le m
                        (handOversBetween run other.id (m + 1) k)
                      dsimp only at hcard
                      omega
                | failed => cases hrowFailed
                | abandoned hsend => exact absurd hsend (hfair.raises m _)
          · exact absurd (hhanded.trans (congrArg some hsame.1.symm)) hnot
        · exact absurd hsame.1 (hgone row hrow)
      · exact ⟨m, hle, Or.inr (Or.inr hdeleted), honce⟩
      · refine ⟨m, hle, Or.inl ⟨claimOn job (run.turn m).lockToken, ?_, rfl, rfl, hreturned⟩, honce⟩
        exact handedOver_eq.mpr ⟨job, hclaim, rfl⟩

theorem le_clock_of_rest (hrest : ∀ n, 1 ≤ (run.turn n).restTime) (n : Nat) :
    run.start.clock + n ≤ (runEmailWorker run n).clock := by
  induction n with
  | zero => simp [runEmailWorker]
  | succ n ih =>
      have hpoll := (parseDuration_mem run.pollInterval).1
      have hn := hrest n
      rw [runEmailWorker, WorkerState.iterate]
      dsimp only
      split <;> split <;> omega

theorem deliveringRun_fair : deliveringRun.Fair where
  time_passes instant := by
    refine ⟨instant.toNat, Int.le_trans (Int.self_le_toNat instant) ?_⟩
    have hrest : ∀ n, 1 ≤ (deliveringRun.turn n).restTime := fun _ => le_rfl
    have hclock := le_clock_of_rest hrest instant.toNat
    rwa [show deliveringRun.start.clock = 0 from rfl, Int.zero_add] at hclock
  unlocked _ := ⟨0, fun _ _ => List.not_mem_nil⟩
  prompt := ⟨0, fun _ _ _ _ _ hmem => nomatch hmem⟩
  raises _ _ := SendOutcome.noConfusion

theorem every_job_settles_delivering :
    ∃ m, 0 ≤ m
      ∧ (Accepted deliveringRun (queuedJob 1 "second") m
        ∨ GivenUp deliveringRun (queuedJob 1 "second") m
        ∨ DeletedBy ((deliveringRun.turn m).during ++ (deliveringRun.turn m).afterwards)
          (queuedJob 1 "second"))
      ∧ (handOversBetween deliveringRun 1 0 m).card ≤ 8 :=
  every_job_settles deliveringRun_numbered deliveringRun_fair
    (List.mem_cons_of_mem _ (List.mem_singleton_self _)) rfl

end Settled

end EventsApi.EmailOutbox
