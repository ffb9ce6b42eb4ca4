import EventsApi.Proof.OutboxAttempts
import EventsApi.Proof.OutboxWorker

/-!
# The loop is a run of the interleaved machine

Each call of `process_next_email` is a claim, a hand-over, the end of the sender's call and a
settlement, with the steps of the requests in between. What holds in every state of the machine
therefore holds of the loop.
-/

namespace EventsApi.EmailOutbox

/-- A request's step, as one of the machine. -/
def Interlude.label : Interlude → Label
  | .enqueue message now confirmationTokenId passwordResetTokenId =>
      .enqueue message now confirmationTokenId passwordResetTokenId
  | .deleteConfirmationToken tokenId => .deleteConfirmationToken tokenId
  | .deletePasswordResetToken tokenId => .deletePasswordResetToken tokenId

def State.stored (s : State) : Stored := ⟨s.jobs, s.nextId⟩

section Refinement

variable {s : State}

theorem step_interlude (s : State) (i : Interlude) :
    ∃ s', step s i.label = some s' ∧ s'.stored = s.stored.after i ∧ s'.worker = s.worker
      ∧ s'.issued = s.issued ∧ handOvers s'.log = handOvers s.log := by
  cases i with
  | enqueue message now confirmationTokenId passwordResetTokenId =>
      simp only [Interlude.label, step, State.stored, Stored.after]
      cases EmailOutbox.enqueue s.jobs s.nextId message now confirmationTokenId
          passwordResetTokenId with
      | error => exact ⟨s, rfl, rfl, rfl, rfl, rfl⟩
      | ok job => exact ⟨_, rfl, rfl, rfl, rfl, rfl⟩
  | deleteConfirmationToken | deletePasswordResetToken =>
      exact ⟨_, rfl, rfl, rfl, rfl, handOvers_cascade _ _⟩

theorem reachable_interludes (h : Reachable s) (interludes : List Interlude) :
    ∃ s', Reachable s' ∧ s'.stored = s.stored.afterAll interludes ∧ s'.worker = s.worker
      ∧ s'.issued = s.issued ∧ handOvers s'.log = handOvers s.log := by
  induction interludes generalizing s with
  | nil => exact ⟨s, h, rfl, rfl, rfl, rfl⟩
  | cons i interludes ih =>
      obtain ⟨t, hstep, hstored, hworker, hissued, hhanded⟩ := step_interlude s i
      obtain ⟨s', hreach, hstored', hworker', hissued', hhanded'⟩ := ih (h.next trivial hstep)
      refine ⟨s', hreach, ?_, hworker'.trans hworker, hissued'.trans hissued,
        hhanded'.trans hhanded⟩
      rw [hstored', hstored]
      rfl

theorem step_claim {worker : Nat} (hidle : s.worker worker = .idle) {now leaseDuration : Int}
    {skipped : List Nat} {lockToken : String} (hfresh : lockToken ∉ s.issued) :
    step s (.claim worker now leaseDuration skipped lockToken)
      = some (s.claimStep worker now leaseDuration skipped lockToken) := by
  rw [step, if_pos ⟨hidle, hfresh⟩]

/-- The end of the sender's call and the second transaction. -/
theorem reachable_settleSend (h : Reachable s) {worker : Nat} {claimed : ClaimedEmailJob}
    (hsending : s.worker worker = .sending claimed) (failedAt : Int) (outcome : SendOutcome) :
    ∃ s', Reachable s'
      ∧ s'.stored = { s.stored with jobs := (settleSend claimed failedAt s.jobs outcome).1 }
      ∧ s'.worker worker = .idle ∧ s'.issued = s.issued ∧ handOvers s'.log = handOvers s.log := by
  cases outcome with
  | returned =>
      have hreturns : step s (.sendReturns worker)
          = some ((s.setPhase worker (.returned claimed)).note (.sendReturned claimed)) := by
        simp only [step, hsending]
      have hsettle : step ((s.setPhase worker (.returned claimed)).note (.sendReturned claimed))
          (.settle worker) = some (((s.setPhase worker (.returned claimed)).note
            (.sendReturned claimed)).settleWith worker claimed .completed
              (complete claimed s.jobs)) := by
        simp [step, State.settleStep, State.setPhase, State.note]
      refine ⟨_, (h.next trivial hreturns).next trivial hsettle, rfl, ?_, rfl, rfl⟩
      simp [State.settleWith]
  | raisedOther =>
      have hraises : step s (.sendRaisesOther worker) = some (s.setPhase worker .idle) := by
        simp only [step, hsending]
      refine ⟨_, h.next trivial hraises, rfl, ?_, rfl, rfl⟩
      simp [State.setPhase]
  | raised error =>
      have hraises : step s (.sendRaises worker error failedAt)
          = some ((s.setPhase worker (.raised claimed error failedAt)).note
            (.sendRaised claimed error)) := by
        simp only [step, hsending]
      have hreach := h.next trivial hraises
      simp only [settleSend]
      split
      · rename_i hretry
        cases hdelay : retryDelay claimed.attempts with
        | none =>
            have hsettle : step ((s.setPhase worker (.raised claimed error failedAt)).note
                (.sendRaised claimed error)) (.settle worker)
                = some (((s.setPhase worker (.raised claimed error failedAt)).note
                  (.sendRaised claimed error)).setPhase worker .idle) := by
              simp [step, State.settleStep, State.setPhase, State.note, hretry, hdelay]
            refine ⟨_, hreach.next trivial hsettle, rfl, ?_, rfl, rfl⟩
            simp [State.setPhase]
        | some delay =>
            have hsettle : step ((s.setPhase worker (.raised claimed error failedAt)).note
                (.sendRaised claimed error)) (.settle worker)
                = some (((s.setPhase worker (.raised claimed error failedAt)).note
                  (.sendRaised claimed error)).settleWith worker claimed
                    (.rescheduled (failedAt + delay))
                    (retryLater claimed (failedAt + delay) (errorCode error) s.jobs)) := by
              simp [step, State.settleStep, State.setPhase, State.note, hretry, hdelay]
            refine ⟨_, hreach.next trivial hsettle, rfl, ?_, rfl, rfl⟩
            simp [State.settleWith]
      · rename_i hstop
        have hsettle : step ((s.setPhase worker (.raised claimed error failedAt)).note
            (.sendRaised claimed error)) (.settle worker)
            = some (((s.setPhase worker (.raised claimed error failedAt)).note
              (.sendRaised claimed error)).settleWith worker claimed (.failed failedAt)
                (fail claimed failedAt (errorCode error) s.jobs)) := by
          simp [step, State.settleStep, State.setPhase, State.note, hstop]
        refine ⟨_, hreach.next trivial hsettle, rfl, ?_, rfl, rfl⟩
        simp [State.settleWith]

/-- A call of `process_next_email`, beside what requests do meanwhile. -/
theorem reachable_processNextEmail (h : Reachable s) {worker : Nat}
    (hidle : s.worker worker = .idle) (leaseDuration claimedAt : Int) {turn : Turn}
    (hfresh : turn.lockToken ∉ s.issued) :
    ∃ s', Reachable s'
      ∧ s'.stored = (processNextEmail leaseDuration claimedAt turn s.stored).2.1
      ∧ s'.worker worker = .idle ∧ s'.issued ⊆ turn.lockToken :: s.issued
      ∧ handOvers s'.log
        = (processNextEmail leaseDuration claimedAt turn s.stored).1.toList ++ handOvers s.log := by
  obtain ⟨hnone, heq⟩ | ⟨job, hclaim, heq⟩ :=
    claimStep_cases s worker claimedAt leaseDuration turn.skipped turn.lockToken
  · rw [processNextEmail_idle hnone]
    exact ⟨s, h, rfl, hidle, List.subset_cons_self _ _, rfl⟩
  · rw [processNextEmail_claimed hclaim]
    have hclaimed := h.next trivial (heq ▸ step_claim hidle hfresh)
    have hhanded := hclaimed.next trivial (l := .handOver worker) (by simp [step]; rfl)
    obtain ⟨t, hreach, hstored, hworker, hissued, hlog⟩ := reachable_interludes hhanded turn.during
    have hsending : t.worker worker = .sending (claimOn job turn.lockToken) := by
      rw [hworker]
      simp [State.setPhase, State.note]
    obtain ⟨s', hreach', hstored', hidle', hissued', hlog'⟩ := reachable_settleSend hreach hsending
      (claimedAt + turn.sendTime) (turn.send job.message)
    refine ⟨s', hreach', ?_, hidle', ?_, ?_⟩
    · have hjobs : t.jobs = (midCall leaseDuration claimedAt turn s.stored job).jobs :=
        congrArg Stored.jobs hstored
      rw [hstored', hstored, hjobs]
      rfl
    · rw [hissued', hissued]
      exact List.Subset.refl _
    · rw [hlog', hlog]
      rfl

/-- **The loop is a run of the interleaved machine.** Whatever requests do beside it, its states are
states of the machine with any number of workers, and the hand-overs are the same. -/
theorem runEmailWorker_refines {run : WorkerRun} {worker : Nat} (h : Reachable s)
    (hidle : s.worker worker = .idle) (hstart : run.start.stored = s.stored)
    (hfresh : ∀ n, (run.turn n).lockToken ∉ s.issued)
    (hdistinct : Function.Injective fun n => (run.turn n).lockToken) (n : Nat) :
    ∃ s', Reachable s' ∧ s'.stored = (runEmailWorker run n).stored ∧ s'.worker worker = .idle
      ∧ handOvers s'.log
        = ((List.range n).filterMap (handedOver run)).reverse ++ handOvers s.log := by
  -- The tokens issued so far are the earlier ones of the loop and those it started with.
  suffices hmore : ∃ s', Reachable s' ∧ s'.stored = (runEmailWorker run n).stored
      ∧ s'.worker worker = .idle
      ∧ (∀ token ∈ s'.issued, token ∈ s.issued ∨ ∃ k < n, (run.turn k).lockToken = token)
      ∧ handOvers s'.log
        = ((List.range n).filterMap (handedOver run)).reverse ++ handOvers s.log by
    obtain ⟨s', hreach, hstored, hidle', _, hlog⟩ := hmore
    exact ⟨s', hreach, hstored, hidle', hlog⟩
  induction n with
  | zero => exact ⟨s, h, hstart.symm, hidle, fun token htoken => Or.inl htoken, rfl⟩
  | succ n ih =>
      obtain ⟨t, hreach, hstored, hidle', hissued, hlog⟩ := ih
      have hnew : (run.turn n).lockToken ∉ t.issued := by
        intro htoken
        obtain hold | ⟨k, hk, hsame⟩ := hissued _ htoken
        · exact hfresh n hold
        · exact absurd (hdistinct hsame) hk.ne
      obtain ⟨u, hreach', hstored', hidle'', hissued', hlog'⟩ := reachable_processNextEmail
        hreach hidle' defaultLeaseDuration (runEmailWorker run n).clock hnew
      obtain ⟨s', hreach'', hstored'', hworker, hissued'', hlog''⟩ :=
        reachable_interludes hreach' (run.turn n).afterwards
      refine ⟨s', hreach'', ?_, hworker ▸ hidle'', ?_, ?_⟩
      · rw [hstored'', hstored', hstored]
        rfl
      · intro token htoken
        rw [hissued''] at htoken
        obtain rfl | htoken := List.mem_cons.mp (hissued' htoken)
        · exact Or.inr ⟨n, Nat.lt_succ_self n, rfl⟩
        · obtain hold | ⟨k, hk, hsame⟩ := hissued token htoken
          · exact Or.inl hold
          · exact Or.inr ⟨k, Nat.lt_succ_of_lt hk, hsame⟩
      · rw [hlog'', hlog', hlog, hstored, List.range_succ, List.filterMap_append,
          List.reverse_append]
        change (handedOver run n).toList ++ _ = _
        cases hn : handedOver run n <;> simp [hn]

end Refinement

/-- A message is queued after the first call, and a provider that is busy gets it in the second. -/
def queueingRun : WorkerRun where
  pollInterval := Settings.default.emailOutboxPollInterval
  start := ⟨⟨[], 0⟩, 0⟩
  turn n :=
    { lockToken := String.ofList (List.replicate n 'x')
      sendTime := 1
      restTime := 1
      send := fun _ => .raised { message := "busy" }
      afterwards := if n = 0 then
        [.enqueue ⟨"a@x.lt", "Subject", "Text", "Html", none, some "key"⟩ 0 none none] else [] }

theorem runEmailWorker_refines_queueing :
    ∃ s', Reachable s' ∧ s'.stored = (runEmailWorker queueingRun 2).stored ∧ s'.worker 0 = .idle
      ∧ handOvers s'.log
        = ((List.range 2).filterMap (handedOver queueingRun)).reverse ++ handOvers State.empty.log :=
  runEmailWorker_refines (.start rfl) rfl rfl (fun _ => List.not_mem_nil)
    (fun n m h => by simpa [queueingRun] using congrArg String.length h) 2

end EventsApi.EmailOutbox
