import EventsApi.Proof.OutboxLease

/-!
# When a job is claimed again

A claim waits for the back-off of a retry, or for the lease of a claim that was never given back. An
observer writes down the clock readings of a run. The invariant reads `next_attempt_at`,
`locked_until` and `attempts` of a row off the newest of them that are about its job, so it does not
matter how the clocks of different workers compare.
-/

namespace EventsApi.EmailOutbox

/-- A clock reading and the job it decides about. -/
inductive Reading where
  | enqueued (id : Nat) (now : Int)
  | claimed (job : ClaimedEmailJob) (now leaseDuration : Int)
  | rescheduled (job : ClaimedEmailJob) (failedAt : Int)
  deriving DecidableEq

def Reading.jobId : Reading → Nat
  | .enqueued id _ => id
  | .claimed job _ _ | .rescheduled job _ => job.id

/-- The reading a step takes. A retry counts when it finds the job still under its claim. -/
def readingOf (s : State) : Label → Option Reading
  | .enqueue message now confirmationTokenId passwordResetTokenId =>
      match enqueue s.jobs s.nextId message now confirmationTokenId passwordResetTokenId with
      | .error _ => none
      | .ok job => some (.enqueued job.id now)
  | .claim _ now leaseDuration skipped lockToken =>
      (claimable s.jobs now skipped).map fun job =>
        .claimed (claimOn job lockToken) now leaseDuration
  | .settle worker =>
      match s.worker worker with
      | .raised claimed error failedAt =>
          if (error.retryable = true ∧ claimed.attempts < maxAttempts)
              ∧ s.jobs.any (ownedBy claimed) = true then
            some (.rescheduled claimed failedAt)
          else none
      | _ => none
  | _ => none

/-- Runs from the empty outbox, with the readings taken. -/
def Observed : State → List Reading → Prop :=
  Transition.Recorded step readingOf (· = State.empty) Transition.anyStep

/-- None of the readings claims the job. -/
def Unclaimed (id : Nat) (readings : List Reading) : Prop :=
  ∀ claimed now leaseDuration, .claimed claimed now leaseDuration ∈ readings → claimed.id ≠ id

/-- None of the readings is about the job. -/
def Silent (id : Nat) (readings : List Reading) : Prop :=
  ∀ reading ∈ readings, reading.jobId ≠ id

theorem Silent.unclaimed {id : Nat} {readings : List Reading} (h : Silent id readings) :
    Unclaimed id readings :=
  fun _ _ _ hmem => h _ hmem

theorem Silent.cons {id : Nat} {readings : List Reading} {reading : Reading}
    (h : Silent id readings) (hne : reading.jobId ≠ id) : Silent id (reading :: readings) :=
  List.forall_mem_cons.mpr ⟨hne, h⟩

/-! ### The columns of a row -/

/-- What the readings say about a row: it was never claimed, its newest reading is a claim whose
lease it carries, or that claim was given back for a later attempt, or its retries have stopped. -/
inductive RowClock (history : List Reading) (row : EmailOutboxJob) : Prop where
  | fresh (enqueuedAt : Int) (hnone : Unclaimed row.id history)
      (henqueued : ∀ now, .enqueued row.id now ∈ history ↔ now = enqueuedAt)
      (hnext : row.nextAttemptAt = enqueuedAt) (hattempts : row.attempts = 0)
      (htoken : row.lockToken = none)
  | leased (newer older : List Reading) (claimed : ClaimedEmailJob) (now leaseDuration : Int)
      (hhistory : history = newer ++ .claimed claimed now leaseDuration :: older)
      (hid : claimed.id = row.id) (hnewer : Silent row.id newer)
      (hpos : 1 ≤ claimed.attempts) (hattempts : row.attempts = claimed.attempts)
      (htoken : row.lockToken = some claimed.lockToken)
      (huntil : row.lockedUntil = some (now + leaseDuration))
  | rescheduled (newer between older : List Reading) (claimed : ClaimedEmailJob)
      (now leaseDuration failedAt delay : Int)
      (hhistory : history = newer ++ .rescheduled claimed failedAt ::
        (between ++ .claimed claimed now leaseDuration :: older))
      (hid : claimed.id = row.id) (hnewer : Silent row.id newer) (hbetween : Silent row.id between)
      (hrange : 1 ≤ claimed.attempts ∧ claimed.attempts < maxAttempts)
      (hattempts : row.attempts = claimed.attempts) (htoken : row.lockToken = none)
      (hdelay : retryDelays[claimed.attempts - 1]? = some delay)
      (hnext : row.nextAttemptAt = failedAt + delay)
  | failed (hfailed : row.failedAt.isSome) (htoken : row.lockToken = none)

theorem RowClock.cons {history : List Reading} {row : EmailOutboxJob} (h : RowClock history row)
    {reading : Reading} (hne : reading.jobId ≠ row.id) : RowClock (reading :: history) row := by
  cases h with
  | fresh enqueuedAt hnone henqueued hnext hattempts htoken =>
      refine .fresh enqueuedAt (fun claimed now leaseDuration hmem => ?_) (fun now => ?_) hnext
        hattempts htoken
      · obtain rfl | hold := List.mem_cons.mp hmem
        · exact hne
        · exact hnone claimed now leaseDuration hold
      · rw [List.mem_cons, henqueued]
        exact or_iff_right fun heq => hne (heq ▸ rfl)
  | leased newer older claimed now leaseDuration hhistory hid hnewer hpos hattempts htoken huntil =>
      exact .leased (reading :: newer) older claimed now leaseDuration (by rw [hhistory]; rfl) hid
        (hnewer.cons hne) hpos hattempts htoken huntil
  | rescheduled newer between older claimed now leaseDuration failedAt delay hhistory hid hnewer
      hbetween hrange hattempts htoken hdelay hnext =>
      exact .rescheduled (reading :: newer) between older claimed now leaseDuration failedAt delay
        (by rw [hhistory]; rfl) hid (hnewer.cons hne) hbetween hrange hattempts htoken hdelay hnext
  | failed hfailed htoken => exact .failed hfailed htoken

/-- Readings are about jobs once enqueued, the claims among them are in the log, and every row has
the columns its readings give it. -/
structure ClockInv (s : State) (history : List Reading) : Prop where
  known : ∀ reading ∈ history, reading.jobId < s.nextId
  logged : ∀ claimed now leaseDuration, .claimed claimed now leaseDuration ∈ history →
    claimed ∈ claims s.log
  rows : ∀ row ∈ s.jobs, RowClock history row

theorem Effect.nextId_le {s s' : State} {l : Label} (h : Effect s l s') : s.nextId ≤ s'.nextId := by
  cases h with
  | enqueue => exact Nat.le_succ _
  | _ => exact le_rfl

theorem ClockInv.unread {s s' : State} {l : Label} {history : List Reading}
    (h : ClockInv s history) (heffect : Effect s l s')
    (hrows : ∀ row ∈ s'.jobs, RowClock history row) : ClockInv s' history where
  known reading hmem := (h.known reading hmem).trans_le heffect.nextId_le
  logged claimed now leaseDuration hmem :=
    claims_mono heffect.log_suffix (h.logged claimed now leaseDuration hmem)
  rows := hrows

/-! ### Preservation -/

section Preservation

variable {s : State} {history : List Reading}

theorem clockInv_empty : ClockInv State.empty [] where
  known := by simp
  logged := by simp
  rows := by simp [State.empty]

theorem ClockInv.enqueue (h : ClockInv s history) (hlease : LeaseInv s) (message : EmailMessage)
    (key : String) (now : Int) (confirmationTokenId passwordResetTokenId : Option Nat) :
    ClockInv
      { s with
        jobs := s.jobs ++
          [newJob s.nextId message key now confirmationTokenId passwordResetTokenId]
        nextId := s.nextId + 1
        log := .enqueued s.nextId message :: s.log }
      (.enqueued s.nextId now :: history) where
  known := by
    intro reading hmem
    obtain rfl | hold := List.mem_cons.mp hmem
    · exact Nat.lt_succ_self _
    · exact (h.known reading hold).trans (Nat.lt_succ_self _)
  logged := by
    intro claimed claimedAt leaseDuration hmem
    exact h.logged claimed claimedAt leaseDuration ((List.mem_cons.mp hmem).resolve_left (by simp))
  rows := by
    intro row hrow
    obtain hold | hnew := List.mem_append.mp hrow
    · exact (h.rows row hold).cons (hlease.ids_lt row hold).ne'
    · rw [List.mem_singleton.mp hnew]
      have hunknown : ∀ reading ∈ history, reading.jobId ≠ s.nextId :=
        fun reading hmem => (h.known reading hmem).ne
      refine .fresh now (fun claimed claimedAt leaseDuration hmem => ?_) (fun at' => ?_) rfl rfl rfl
      · obtain hread | hold := List.mem_cons.mp hmem
        · cases hread
        · exact hunknown _ hold
      · constructor
        · intro hmem
          obtain hread | hold := List.mem_cons.mp hmem
          · cases hread
            rfl
          · exact absurd rfl (hunknown _ hold)
        · rintro rfl
          exact List.mem_cons_self

theorem ClockInv.claim (h : ClockInv s history) (hlease : LeaseInv s) {job : EmailOutboxJob}
    (hjob : job ∈ s.jobs) (worker : Nat) (now leaseDuration : Int) (lockToken : String) :
    ClockInv
      { s with
        jobs := s.jobs.map fun other =>
          if other.id = job.id then leased job now leaseDuration lockToken else other
        issued := lockToken :: s.issued
        worker := Function.update s.worker worker (.claimed (claimOn job lockToken))
        log := .claimed (claimOn job lockToken) now leaseDuration :: s.log }
      (.claimed (claimOn job lockToken) now leaseDuration :: history) where
  known := by
    intro reading hmem
    obtain rfl | hold := List.mem_cons.mp hmem
    · exact hlease.ids_lt job hjob
    · exact h.known reading hold
  logged := by
    intro claimed claimedAt duration hmem
    obtain hread | hold := List.mem_cons.mp hmem
    · cases hread
      exact List.mem_cons_self
    · exact List.mem_cons_of_mem _ (h.logged claimed claimedAt duration hold)
  rows := by
    intro row hrow
    obtain rfl | ⟨hold, hid⟩ := mem_leaseRow hrow
    · exact .leased [] history (claimOn job lockToken) now leaseDuration rfl rfl (by simp [Silent])
        (Nat.le_add_left 1 _) rfl rfl rfl
    · exact (h.rows row hold).cons hid.symm

theorem mem_settle {claimed : ClaimedEmailJob} {change : EmailOutboxJob → Option EmailOutboxJob}
    {jobs : List EmailOutboxJob} {row' : EmailOutboxJob}
    (h : row' ∈ (settle claimed change jobs).1) :
    row' ∈ jobs ∧ ownedBy claimed row' = false
      ∨ ∃ row ∈ jobs, ownedBy claimed row = true ∧ change row = some row' := by
  obtain ⟨row, hrow, hchange⟩ := List.mem_filterMap.mp h
  split at hchange
  · exact Or.inr ⟨row, hrow, ‹_›, hchange⟩
  · cases hchange
    exact Or.inl ⟨hrow, Bool.eq_false_iff.mpr ‹_›⟩

/-- The readings of a row a claim still owns: its newest reading is that claim. -/
theorem ClockInv.owned (h : ClockInv s history) (hlease : LeaseInv s) {claimed : ClaimedEmailJob}
    (hclaimed : claimed ∈ claims s.log) {row : EmailOutboxJob} (hrow : row ∈ s.jobs)
    (hown : ownedBy claimed row = true) :
    ∃ newer older now leaseDuration,
      history = newer ++ .claimed claimed now leaseDuration :: older ∧ Silent row.id newer
        ∧ 1 ≤ claimed.attempts ∧ row.attempts = claimed.attempts := by
  have htoken := (ownedBy_iff.mp hown).2
  cases h.rows row hrow with
  | leased newer older latest now leaseDuration hhistory _ hnewer hpos hattempts hlatest =>
      have hlogged : latest ∈ claims s.log := h.logged latest now leaseDuration (by simp [hhistory])
      have hsame : latest.lockToken = claimed.lockToken :=
        Option.some_inj.mp (hlatest.symm.trans htoken)
      obtain rfl : latest = claimed := List.inj_on_of_nodup_map hlease.tokens_nodup hlogged hclaimed
        hsame
      exact ⟨newer, older, now, leaseDuration, hhistory, hnewer, hpos, hattempts⟩
  | fresh _ _ _ _ _ hnone => simp [hnone] at htoken
  | rescheduled _ _ _ _ _ _ _ _ _ _ _ _ _ _ hnone => simp [hnone] at htoken
  | failed _ hnone => simp [hnone] at htoken

theorem retryDelay_eq {attempts : Nat} (h : 1 ≤ attempts) :
    retryDelay attempts = retryDelays[attempts - 1]? := by
  rw [retryDelay, if_neg (by omega)]

theorem ClockInv.retry (h : ClockInv s history) (hlease : LeaseInv s) {worker : Nat}
    {claimed : ClaimedEmailJob} (hclaimed : claimed ∈ claims s.log) {failedAt delay : Int}
    {code : String} (hdelay : retryDelay claimed.attempts = some delay)
    (hlast : claimed.attempts < maxAttempts) {row : EmailOutboxJob} (hrow : row ∈ s.jobs)
    (hown : ownedBy claimed row = true) :
    ClockInv (s.settleWith worker claimed (.rescheduled (failedAt + delay))
        (retryLater claimed (failedAt + delay) code s.jobs))
      (.rescheduled claimed failedAt :: history) where
  known := by
    intro reading hmem
    obtain rfl | hold := List.mem_cons.mp hmem
    · calc claimed.id = row.id := (ownedBy_iff.mp hown).1.symm
        _ < s.nextId := hlease.ids_lt row hrow
    · exact h.known reading hold
  logged := by
    intro other now leaseDuration hmem
    exact h.logged other now leaseDuration ((List.mem_cons.mp hmem).resolve_left (by simp))
  rows := by
    intro row' hrow'
    obtain ⟨hold, hother⟩ | ⟨old, hold, hownOld, hchange⟩ := mem_settle hrow'
    · apply (h.rows row' hold).cons
      intro hid
      have hsame : row' = row :=
        hlease.eq_of_id_eq hold hrow (hid.symm.trans (ownedBy_iff.mp hown).1.symm)
      rw [hsame, hown] at hother
      cases hother
    · obtain ⟨newer, older, now, leaseDuration, hhistory, hnewer, hpos, hattempts⟩ :=
        h.owned hlease hclaimed hold hownOld
      cases hchange
      exact .rescheduled [] newer older claimed now leaseDuration failedAt delay
        (by rw [hhistory]; rfl) (ownedBy_iff.mp hownOld).1.symm (by simp [Silent]) hnewer
        ⟨hpos, hlast⟩ hattempts rfl (retryDelay_eq hpos ▸ hdelay) rfl

theorem clockInv_settle {s' : State} {worker : Nat} (hlease : LeaseInv s) (hphases : PhaseInv s)
    (h : ClockInv s history) (hs : s.settleStep worker = some s') :
    ClockInv s' ((readingOf s (.settle worker)).toList ++ history) := by
  have heffect := effect_of_settleStep hs
  unfold State.settleStep at hs
  rw [readingOf]
  split at hs
  · rename_i claimed hphase
    cases hs
    rw [hphase]
    apply h.unread heffect
    intro row' hrow'
    obtain ⟨hold, _⟩ | ⟨_, _, _, hchange⟩ := mem_settle hrow'
    · exact h.rows row' hold
    · cases hchange
  · rename_i claimed error failedAt hphase
    have hclaimed := (hphases worker).job_mem (congrArg Phase.job hphase)
    rw [hphase]
    dsimp only
    split at hs
    · rename_i hretry
      by_cases howned : s.jobs.any (ownedBy claimed) = true
      · rw [if_pos ⟨hretry, howned⟩]
        obtain ⟨row, hrow, hown⟩ := List.any_eq_true.mp howned
        obtain ⟨_, _, _, _, _, _, hpos, _⟩ := h.owned hlease hclaimed hrow hown
        split at hs
        · rename_i hdelay
          -- attempt numbers of a retry are indices of the table of delays
          rw [retryDelay_eq hpos, List.getElem?_eq_none_iff] at hdelay
          have hlast : claimed.attempts < retryDelays.length + 1 := hretry.2
          omega
        · rename_i delay hdelay
          cases hs
          exact h.retry hlease hclaimed hdelay hretry.2 hrow hown
      · rw [if_neg fun hread => howned hread.2]
        apply h.unread heffect
        split at hs <;> cases hs
        · exact h.rows
        · intro row' hrow'
          obtain ⟨hold, _⟩ | ⟨row, hrow, hown, _⟩ := mem_settle hrow'
          · exact h.rows row' hold
          · exact absurd (List.any_eq_true.mpr ⟨row, hrow, hown⟩) howned
    · rename_i hstop
      cases hs
      rw [if_neg fun hread => hstop hread.1]
      apply h.unread heffect
      intro row' hrow'
      obtain ⟨hold, _⟩ | ⟨_, _, _, hchange⟩ := mem_settle hrow'
      · exact h.rows row' hold
      · cases hchange
        exact .failed rfl rfl
  · cases hs

theorem clockInv_step {s' : State} {l : Label} (hlease : LeaseInv s) (hphases : PhaseInv s)
    (h : ClockInv s history) (hs : step s l = some s') :
    ClockInv s' ((readingOf s l).toList ++ history) := by
  cases l with
  | enqueue message now confirmationTokenId passwordResetTokenId =>
      cases henqueue : enqueue s.jobs s.nextId message now confirmationTokenId
          passwordResetTokenId with
      | error _ =>
          simp only [step, henqueue] at hs
          cases hs
          simp only [readingOf, henqueue]
          exact h
      | ok job =>
          obtain ⟨key, _, hjob, _⟩ := enqueue_spec henqueue
          simp only [step, henqueue] at hs
          cases hs
          simp only [readingOf, henqueue]
          rw [hjob]
          exact h.enqueue hlease message key now confirmationTokenId passwordResetTokenId
  | claim worker now leaseDuration skipped lockToken =>
      simp only [step] at hs
      rw [readingOf]
      split at hs
      · cases hs
        obtain ⟨hnone, heq⟩ | ⟨job, hclaim, heq⟩ :=
          claimStep_cases s worker now leaseDuration skipped lockToken
        · rw [heq, hnone]
          exact h
        · rw [heq, hclaim]
          exact h.claim hlease (claimable_spec hclaim).1 worker now leaseDuration lockToken
      · cases hs
  | settle worker => exact clockInv_settle hlease hphases h hs
  | _ =>
      cases effect_of_step hs with
      | nothing => exact h
      | move => exact h.unread (effect_of_step hs) h.rows
      | cascade =>
          apply h.unread (effect_of_step hs)
          exact fun row hrow => h.rows row (List.mem_filter.mp hrow).1

theorem clockInv_observed (h : Observed s history) : ClockInv s history :=
  Transition.Recorded.invariant_of (fun s => LeaseInv s ∧ PhaseInv s)
    (fun hreach => ⟨leaseInv_reachable hreach, phaseInv_reachable hreach⟩)
    (fun _ hinit => hinit ▸ clockInv_empty)
    (fun _ _ _ _ hfact hinv _ hs => clockInv_step hfact.1 hfact.2 hinv hs) h

end Preservation

/-! ### Successive claims -/

/-- The newest claim of a job is at one place in a history. -/
theorem newest_claim_unique {id : Nat} {newer newer' older older' : List Reading}
    {claimed claimed' : ClaimedEmailJob} {now now' leaseDuration leaseDuration' : Int}
    (heq : newer ++ .claimed claimed now leaseDuration :: older
      = newer' ++ .claimed claimed' now' leaseDuration' :: older')
    (hid : claimed.id = id) (hid' : claimed'.id = id) (hnewer : Unclaimed id newer)
    (hnewer' : Unclaimed id newer') :
    newer = newer' ∧ claimed = claimed' ∧ now = now' ∧ leaseDuration = leaseDuration' := by
  induction newer generalizing newer' with
  | nil =>
      cases newer' with
      | nil => simpa using (List.cons.inj heq).1
      | cons reading newer' =>
          obtain ⟨rfl, _⟩ := List.cons.inj heq
          exact absurd hid (hnewer' claimed now leaseDuration List.mem_cons_self)
  | cons reading newer ih =>
      cases newer' with
      | nil =>
          obtain ⟨rfl, _⟩ := List.cons.inj heq
          exact absurd hid' (hnewer claimed' now' leaseDuration' List.mem_cons_self)
      | cons reading' newer' =>
          obtain ⟨rfl, hrest⟩ := List.cons.inj heq
          obtain ⟨rfl, hsame⟩ := ih hrest
            (fun other at' duration hmem => hnewer other at' duration (List.mem_cons_of_mem _ hmem))
            (fun other at' duration hmem => hnewer' other at' duration (List.mem_cons_of_mem _ hmem))
          exact ⟨rfl, hsame⟩

theorem isDue_iff {now : Int} {job : EmailOutboxJob} :
    isDue now job = true ↔ job.failedAt = none ∧ job.nextAttemptAt ≤ now
      ∧ ∀ lockedUntil, job.lockedUntil = some lockedUntil → lockedUntil ≤ now := by
  cases hlocked : job.lockedUntil <;> simp [isDue, hlocked, and_assoc]

/-- What the readings before a claim say about when it may come. -/
theorem claim_timing {history : List Reading} {row : EmailOutboxJob} {now' : Int}
    (hrow : RowClock history row) (hdue : isDue now' row = true) :
    (Unclaimed row.id history → row.attempts = 0 ∧ ∃ enqueuedAt,
      (∀ now, .enqueued row.id now ∈ history ↔ now = enqueuedAt) ∧ enqueuedAt ≤ now')
    ∧ ∀ between older earlier now leaseDuration,
      history = between ++ .claimed earlier now leaseDuration :: older → earlier.id = row.id →
      Unclaimed row.id between →
        row.attempts = earlier.attempts
        ∧ (∀ failedAt, .rescheduled earlier failedAt ∈ between →
          1 ≤ earlier.attempts ∧ earlier.attempts < maxAttempts ∧
            ∃ delay, retryDelays[earlier.attempts - 1]? = some delay ∧ failedAt + delay ≤ now')
        ∧ ((∀ failedAt, .rescheduled earlier failedAt ∉ between) →
          now + leaseDuration ≤ now') := by
  obtain ⟨hlive, hnextDue, hlockDue⟩ := isDue_iff.mp hdue
  cases hrow with
  | fresh enqueuedAt hnone henqueued hnext hattempts _ =>
      refine ⟨fun _ => ⟨hattempts, enqueuedAt, henqueued, hnext ▸ hnextDue⟩, ?_⟩
      rintro between older earlier now leaseDuration rfl hid _
      exact absurd hid (hnone earlier now leaseDuration (by simp))
  | leased newer older claimed now leaseDuration hhistory hid hnewer hpos hattempts _ huntil =>
      refine ⟨fun hnone => absurd hid (hnone claimed now leaseDuration (by simp [hhistory])), ?_⟩
      rintro between older' earlier now₀ leaseDuration₀ rfl hearlier hbetween
      obtain ⟨rfl, rfl, rfl, rfl⟩ :=
        newest_claim_unique hhistory hearlier hid hbetween hnewer.unclaimed
      refine ⟨hattempts, fun failedAt hmem => absurd hearlier (hnewer _ hmem), fun _ => ?_⟩
      exact hlockDue _ huntil
  | rescheduled newer between older claimed now leaseDuration failedAt delay hhistory hid hnewer
      hbetween hrange hattempts _ hdelay hnext =>
      refine ⟨fun hnone => absurd hid (hnone claimed now leaseDuration (by simp [hhistory])), ?_⟩
      rintro between' older' earlier now₀ leaseDuration₀ rfl hearlier hbetween'
      have hunclaimed : Unclaimed row.id (newer ++ .rescheduled claimed failedAt :: between) := by
        intro other at' duration hmem
        obtain hmem | hmem := List.mem_append.mp hmem
        · exact hnewer.unclaimed _ _ _ hmem
        · exact hbetween.unclaimed _ at' duration ((List.mem_cons.mp hmem).resolve_left (by simp))
      have hregrouped : between' ++ .claimed earlier now₀ leaseDuration₀ :: older'
          = (newer ++ .rescheduled claimed failedAt :: between)
            ++ .claimed claimed now leaseDuration :: older := by
        rw [hhistory, List.append_assoc, List.cons_append]
      obtain ⟨rfl, rfl, rfl, rfl⟩ :=
        newest_claim_unique hregrouped hearlier hid hbetween' hunclaimed
      refine ⟨hattempts, fun at' hmem => ⟨hrange.1, hrange.2, delay, hdelay, ?_⟩,
        fun hnone => absurd (List.mem_append_right _ List.mem_cons_self) (hnone failedAt)⟩
      have hat : at' = failedAt := by
        obtain hmem | hmem := List.mem_append.mp hmem
        · exact absurd hid (hnewer _ hmem)
        · obtain hread | hmem := List.mem_cons.mp hmem
          · cases hread
            rfl
          · exact absurd hid (hbetween _ hmem)
      rw [hat, ← hnext]
      exact hnextDue
  | failed hfailed => simp [hlive] at hfailed

/-- **Claims of a job are spaced.** Take any claim in the history of a run. If it is the first of its
job, its reading is not before the job's enqueueing, and its attempt number is 1. If not, its attempt
number follows that of the claim before it; when that one was given back for a retry, its number
indexes the table of delays and the delay has passed since the failure, and when it was not, its
lease has ended. -/
theorem claims_spaced {s : State} {history : List Reading} (h : Observed s history)
    {after before : List Reading} {later : ClaimedEmailJob} {now' leaseDuration' : Int}
    (hhistory : history = after ++ .claimed later now' leaseDuration' :: before) :
    (Unclaimed later.id before → later.attempts = 1 ∧ ∃ enqueuedAt,
      (∀ now, .enqueued later.id now ∈ before ↔ now = enqueuedAt) ∧ enqueuedAt ≤ now')
    ∧ ∀ between older earlier now leaseDuration,
      before = between ++ .claimed earlier now leaseDuration :: older → earlier.id = later.id →
      Unclaimed later.id between →
        later.attempts = earlier.attempts + 1
        ∧ (∀ failedAt, .rescheduled earlier failedAt ∈ between →
          1 ≤ earlier.attempts ∧ earlier.attempts < maxAttempts ∧
            ∃ delay, retryDelays[earlier.attempts - 1]? = some delay ∧ failedAt + delay ≤ now')
        ∧ ((∀ failedAt, .rescheduled earlier failedAt ∉ between) →
          now + leaseDuration ≤ now') := by
  subst hhistory
  obtain ⟨t, l, _, ht, _, _, hread⟩ := Transition.Recorded.split h
  cases l with
  | claim worker now₀ leaseDuration₀ skipped lockToken =>
      obtain ⟨job, hclaim, heq⟩ := Option.map_eq_some_iff.mp hread
      cases heq
      obtain ⟨hjob, hdue⟩ := claimable_spec hclaim
      obtain ⟨hfirst, hnext⟩ := claim_timing ((clockInv_observed ht).rows job hjob) hdue
      refine ⟨fun hnone => ?_, fun between older earlier now leaseDuration hbefore hid hnone => ?_⟩
      · obtain ⟨hattempts, henqueued⟩ := hfirst hnone
        exact ⟨congrArg (· + 1) hattempts, henqueued⟩
      · obtain ⟨hattempts, hspaced⟩ := hnext between older earlier now leaseDuration hbefore hid hnone
        exact ⟨congrArg (· + 1) hattempts, hspaced⟩
  | enqueue =>
      rw [readingOf] at hread
      split at hread <;> cases hread
  | settle =>
      rw [readingOf] at hread
      split at hread
      · split at hread <;> cases hread
      · cases hread
  | _ => cases hread

/-- A first attempt fails by a clock that is behind the one it was claimed by. -/
def retriedRun : List Label :=
  [.enqueue ⟨"a@x.lt", "Subject", "Text", "Html", none, some "key"⟩ 5 none none,
    .claim 0 10 120 [] "first", .handOver 0, .sendRaises 0 ⟨"busy", true, none, some 429⟩ 3,
    .settle 0, .claim 1 30000003 120 [] "second"]

def retriedClaim (attempts : Nat) (lockToken : String) : ClaimedEmailJob :=
  ⟨0, attempts, lockToken, ⟨"a@x.lt", "Subject", "Text", "Html", none, some "key"⟩⟩

theorem claims_spaced_retried :
    ∃ s, Observed s [.claimed (retriedClaim 2 "second") 30000003 120,
        .rescheduled (retriedClaim 1 "first") 3, .claimed (retriedClaim 1 "first") 10 120,
        .enqueued 0 5]
      ∧ (retriedClaim 2 "second").attempts = (retriedClaim 1 "first").attempts + 1
      ∧ ∃ delay, retryDelays[0]? = some delay ∧ 3 + delay ≤ 30000003 := by
  have hrun : ∃ s, Transition.recordedRun step readingOf State.empty retriedRun
      = some (s, [.claimed (retriedClaim 2 "second") 30000003 120,
        .rescheduled (retriedClaim 1 "first") 3, .claimed (retriedClaim 1 "first") 10 120,
        .enqueued 0 5]) := ⟨_, rfl⟩
  obtain ⟨s, hrun⟩ := hrun
  have hobserved : Observed s [.claimed (retriedClaim 2 "second") 30000003 120,
      .rescheduled (retriedClaim 1 "first") 3, .claimed (retriedClaim 1 "first") 10 120,
      .enqueued 0 5] := by
    apply Transition.recorded_of_recordedRun _ _ hrun
    rfl
  obtain ⟨hattempts, hretried, _⟩ := (claims_spaced hobserved (List.nil_append _).symm).2
    [.rescheduled (retriedClaim 1 "first") 3] [.enqueued 0 5] (retriedClaim 1 "first") 10 120 rfl
    rfl (by simp [Unclaimed])
  exact ⟨s, hobserved, hattempts, (hretried 3 List.mem_cons_self).2.2⟩

end EventsApi.EmailOutbox
