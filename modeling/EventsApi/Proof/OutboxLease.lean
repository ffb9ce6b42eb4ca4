import EventsApi.Proof.OutboxSteps

/-!
# Only the latest claimant settles a job

The invariant ties the lock columns of a row to the log: a lock token in the table is the token of
the job's most recent claim, and no two claims share one. A claim that lost its lease therefore
matches no row, whatever happened to the job in between.
-/

namespace EventsApi.EmailOutbox

/-! ### The lease invariant -/

/-- Ids are unique and below the sequence, the two lock columns are set together, and a lock token
in the table is that of the job's most recent claim. Lock tokens of different claims differ. -/
structure LeaseInv (s : State) : Prop where
  ids_nodup : (s.jobs.map (·.id)).Nodup
  ids_lt : ∀ job ∈ s.jobs, job.id < s.nextId
  lock_iff : ∀ job ∈ s.jobs, job.lockToken = none ↔ job.lockedUntil = none
  owner : ∀ job ∈ s.jobs, ∀ token, job.lockToken = some token →
    ∃ claimed, lastClaim s.log job.id = some claimed ∧ claimed.lockToken = token
      ∧ claimed.attempts = job.attempts
  tokens_nodup : ((claims s.log).map (·.lockToken)).Nodup
  tokens_issued : ∀ claimed ∈ claims s.log, claimed.lockToken ∈ s.issued

theorem leaseInv_empty : LeaseInv State.empty where
  ids_nodup := List.nodup_nil
  ids_lt := by simp [State.empty]
  lock_iff := by simp [State.empty]
  owner := by simp [State.empty]
  tokens_nodup := List.nodup_nil
  tokens_issued := by simp [State.empty, claims]

section Preservation

variable {s : State}

theorem LeaseInv.eq_of_id_eq (h : LeaseInv s) {job job' : EmailOutboxJob} (hjob : job ∈ s.jobs)
    (hjob' : job' ∈ s.jobs) (hid : job.id = job'.id) : job = job' :=
  List.inj_on_of_nodup_map h.ids_nodup hjob hjob' hid

theorem LeaseInv.shrink (h : LeaseInv s) (f : EmailOutboxJob → Option EmailOutboxJob)
    (hf : ∀ job job', f job = some job' → job' = job ∨ job'.id = job.id
      ∧ job'.lockToken = none ∧ job'.lockedUntil = none) (worker : Nat → Phase)
    {log : List Entry} (hlog : claims log = claims s.log) :
    LeaseInv { s with jobs := s.jobs.filterMap f, worker := worker, log := log } where
  ids_nodup := h.ids_nodup.sublist (sublist_map_filterMap (fun job job' hjob => by
    obtain rfl | ⟨hid, _, _⟩ := hf job job' hjob
    · rfl
    · exact hid) s.jobs)
  ids_lt := by
    intro job' hjob'
    obtain ⟨job, hjob, hchange⟩ := List.mem_filterMap.mp hjob'
    obtain rfl | ⟨hid, _, _⟩ := hf job job' hchange
    · exact h.ids_lt job' hjob
    · exact hid ▸ h.ids_lt job hjob
  lock_iff := by
    intro job' hjob'
    obtain ⟨job, hjob, hchange⟩ := List.mem_filterMap.mp hjob'
    obtain rfl | ⟨_, htoken, huntil⟩ := hf job job' hchange
    · exact h.lock_iff job' hjob
    · simp [htoken, huntil]
  owner := by
    intro job' hjob' token htoken
    obtain ⟨job, hjob, hchange⟩ := List.mem_filterMap.mp hjob'
    obtain rfl | ⟨_, hnone, _⟩ := hf job job' hchange
    · simpa only [lastClaim, hlog] using h.owner job' hjob token htoken
    · simp [hnone] at htoken
  tokens_nodup := by simpa only [hlog] using h.tokens_nodup
  tokens_issued := by simpa only [hlog] using h.tokens_issued

theorem LeaseInv.quiet (h : LeaseInv s) {worker : Nat → Phase} {log : List Entry}
    (hlog : claims log = claims s.log) : LeaseInv { s with worker := worker, log := log } := by
  have hsame : ∀ job job' : EmailOutboxJob, some job = some job' → job' = job ∨ job'.id = job.id
      ∧ job'.lockToken = none ∧ job'.lockedUntil = none :=
    fun job job' hjob => Or.inl (Option.some_inj.mp hjob).symm
  have hinv := h.shrink some hsame worker hlog
  simpa only [List.filterMap_some] using hinv

theorem LeaseInv.enqueue (h : LeaseInv s) {job : EmailOutboxJob} (hid : job.id = s.nextId)
    (hlock : job.lockToken = none ∧ job.lockedUntil = none) {log : List Entry}
    (hlog : claims log = claims s.log) :
    LeaseInv { s with
      jobs := s.jobs ++ [job]
      nextId := s.nextId + 1
      log := log } where
  ids_nodup := by
    rw [List.map_append, List.map_singleton, List.nodup_append]
    refine ⟨h.ids_nodup, List.nodup_singleton _, fun a ha b hb => ?_⟩
    obtain ⟨old, hold, rfl⟩ := List.mem_map.mp ha
    rw [List.mem_singleton.mp hb, hid]
    exact (h.ids_lt old hold).ne
  ids_lt := by
    intro job' hjob'
    obtain hold | hnew := List.mem_append.mp hjob'
    · exact (h.ids_lt job' hold).trans (Nat.lt_succ_self _)
    · rw [List.mem_singleton.mp hnew, hid]
      exact Nat.lt_succ_self _
  lock_iff := by
    intro job' hjob'
    obtain hold | hnew := List.mem_append.mp hjob'
    · exact h.lock_iff job' hold
    · simp [List.mem_singleton.mp hnew, hlock]
  owner := by
    intro job' hjob' token htoken
    obtain hold | hnew := List.mem_append.mp hjob'
    · simpa only [lastClaim, hlog] using h.owner job' hold token htoken
    · simp [List.mem_singleton.mp hnew, hlock] at htoken
  tokens_nodup := by simpa only [hlog] using h.tokens_nodup
  tokens_issued := by simpa only [hlog] using h.tokens_issued

theorem LeaseInv.claim (h : LeaseInv s) {job : EmailOutboxJob} (hjob : job ∈ s.jobs)
    {worker : Nat → Phase} {now leaseDuration : Int} {lockToken : String}
    (hfresh : lockToken ∉ s.issued) :
    LeaseInv { s with
      jobs := s.jobs.map fun other =>
        if other.id = job.id then leased job now leaseDuration lockToken else other
      issued := lockToken :: s.issued
      worker := worker
      log := .claimed (claimOn job lockToken) now leaseDuration :: s.log } where
  ids_nodup := by
    rw [map_id_leaseRow]
    exact h.ids_nodup
  ids_lt := by
    intro row hrow
    obtain rfl | ⟨hold, _⟩ := mem_leaseRow hrow
    · exact h.ids_lt job hjob
    · exact h.ids_lt row hold
  lock_iff := by
    intro row hrow
    obtain rfl | ⟨hold, _⟩ := mem_leaseRow hrow
    · simp [leased]
    · exact h.lock_iff row hold
  owner := by
    intro row hrow token htoken
    obtain rfl | ⟨hold, hid⟩ := mem_leaseRow hrow
    · cases htoken
      exact ⟨claimOn job lockToken, by simp [lastClaim, claims, claimOn, leased], rfl, rfl⟩
    · obtain ⟨claimed, hlast, hclaimed⟩ := h.owner row hold token htoken
      refine ⟨claimed, ?_, hclaimed⟩
      have hother : (claimOn job lockToken).id ≠ row.id := fun heq => hid heq.symm
      simpa [lastClaim, claims, List.find?_cons, hother] using hlast
  tokens_nodup := by
    have hnew : lockToken ∉ (claims s.log).map (·.lockToken) := by
      intro hmem
      obtain ⟨claimed, hclaimed, rfl⟩ := List.mem_map.mp hmem
      exact hfresh (h.tokens_issued claimed hclaimed)
    exact List.nodup_cons.mpr ⟨hnew, h.tokens_nodup⟩
  tokens_issued := by
    intro claimed hclaimed
    obtain rfl | hold := List.mem_cons.mp hclaimed
    · exact List.mem_cons_self
    · exact List.mem_cons_of_mem _ (h.tokens_issued claimed hold)

end Preservation

theorem LeaseInv.cascade {s : State} (h : LeaseInv s) (linked : EmailOutboxJob → Bool) :
    LeaseInv (s.cascade linked) := by
  unfold State.cascade
  rw [deleteLinked_eq_filterMap]
  refine h.shrink _ (fun job job' hjob => Or.inl ?_) s.worker (claims_cascade _ _)
  exact (Option.guard_eq_some_iff.mp hjob).1.symm

theorem LeaseInv.settleWith {s : State} (h : LeaseInv s) {worker : Nat} {phase : Phase}
    {claimed : ClaimedEmailJob} {settlement : Settlement}
    {change : EmailOutboxJob → Option EmailOutboxJob}
    (hmove : SettleMove phase claimed settlement change) :
    LeaseInv (s.settleWith worker claimed settlement (settle claimed change s.jobs)) := by
  refine h.shrink _ (fun job job' hjob => ?_) _ rfl
  split at hjob
  · obtain ⟨hid, htoken, huntil, _⟩ := hmove.spec.2 job job' hjob
    exact Or.inr ⟨hid, htoken, huntil⟩
  · exact Or.inl (Option.some_inj.mp hjob).symm

theorem leaseInv_step {s s' : State} (l : Label) (h : LeaseInv s) (hs : step s l = some s') :
    LeaseInv s' := by
  cases effect_of_step hs with
  | nothing => exact h
  | enqueue => exact h.enqueue rfl ⟨rfl, rfl⟩ rfl
  | claim _ _ _ _ _ job hclaim hfresh => exact h.claim (claimable_spec hclaim).1 hfresh
  | move _ _ _ entries hmove =>
      exact h.quiet (by rw [claims_append, hmove.claims_eq_nil, List.nil_append])
  | settle _ _ _ _ hmove => exact h.settleWith hmove
  | cascade _ linked => exact h.cascade linked

theorem leaseInv_reachable {s : State} (h : Reachable s) : LeaseInv s :=
  Transition.Reachable.invariant (fun _ hinit => hinit ▸ leaseInv_empty)
    (fun _ l _ hinv _ hs => leaseInv_step l hinv hs) h

/-! ### Workers and the log -/

/-- The claim a worker is at is in the log, and so is the answer it got for it. -/
def PhaseLogged (log : List Entry) : Phase → Prop
  | .idle => True
  | .claimed claimed | .sending claimed => claimed ∈ claims log
  | .returned claimed => claimed ∈ claims log ∧ .sendReturned claimed ∈ log
  | .raised claimed error _ => claimed ∈ claims log ∧ .sendRaised claimed error ∈ log

theorem PhaseLogged.mono {log log' : List Entry} {phase : Phase} (h : PhaseLogged log phase)
    (hlog : log <:+ log') : PhaseLogged log' phase := by
  cases phase with
  | idle => trivial
  | claimed | sending => exact claims_mono hlog h
  | returned | raised => exact ⟨claims_mono hlog h.1, hlog.subset h.2⟩

theorem PhaseLogged.job_mem {log : List Entry} {phase : Phase} (h : PhaseLogged log phase)
    {claimed : ClaimedEmailJob} (hjob : phase.job = some claimed) : claimed ∈ claims log := by
  cases phase <;> cases hjob
  · exact h
  · exact h
  · exact h.1
  · exact h.1

theorem PhaseMove.logged {log entries : List Entry} {before after : Phase}
    (hmove : PhaseMove before after entries) (h : PhaseLogged log before) :
    PhaseLogged (entries ++ log) after := by
  cases hmove with
  | handOver => exact claims_mono (List.suffix_cons _ _) h
  | sendReturns | sendRaises =>
      exact ⟨claims_mono (List.suffix_cons _ _) h, List.mem_cons_self⟩
  | stop => trivial

def PhaseInv (s : State) : Prop := ∀ worker, PhaseLogged s.log (s.worker worker)

theorem PhaseInv.update {s s' : State} (h : PhaseInv s) {worker : Nat} {phase : Phase}
    (hworker : s'.worker = Function.update s.worker worker phase) (hlog : s.log <:+ s'.log)
    (hphase : PhaseLogged s'.log phase) : PhaseInv s' := by
  intro other
  rw [hworker]
  by_cases heq : other = worker
  · rw [heq, Function.update_self]
    exact hphase
  · rw [Function.update_of_ne heq]
    exact (h other).mono hlog

theorem phaseInv_step {s s' : State} (l : Label) (h : PhaseInv s) (hs : step s l = some s') :
    PhaseInv s' := by
  have hlog := (effect_of_step hs).log_suffix
  cases effect_of_step hs with
  | nothing => exact h
  | enqueue => exact fun worker => (h worker).mono hlog
  | claim => exact h.update rfl hlog List.mem_cons_self
  | move _ worker _ _ hmove => exact h.update rfl hlog (hmove.logged (h worker))
  | settle => exact h.update rfl hlog trivial
  | cascade => exact fun worker => (h worker).mono hlog

theorem phaseInv_reachable {s : State} (h : Reachable s) : PhaseInv s :=
  Transition.Reachable.invariant (fun _ hinit _ => hinit ▸ trivial)
    (fun _ l _ hinv _ hs => phaseInv_step l hinv hs) h

/-! ### Ownership -/

theorem LeaseInv.currentClaim_of_owned {s : State} (h : LeaseInv s) {claimed : ClaimedEmailJob}
    (hclaimed : claimed ∈ claims s.log) {job : EmailOutboxJob} (hjob : job ∈ s.jobs)
    (hown : ownedBy claimed job = true) : s.currentClaim claimed.id = some claimed := by
  obtain ⟨hid, htoken⟩ := ownedBy_iff.mp hown
  obtain ⟨latest, hlast, hsame, _⟩ := h.owner job hjob _ htoken
  have hlatest : latest = claimed := List.inj_on_of_nodup_map h.tokens_nodup
    (List.mem_of_find?_eq_some hlast) hclaimed hsame
  have hfind : s.jobs.find? (·.id == claimed.id) = some job := by
    cases hfound : s.jobs.find? (·.id == claimed.id) with
    | none =>
        have := List.find?_eq_none.mp hfound job hjob
        simp [hid] at this
    | some other =>
        have hother : other.id = claimed.id := by simpa using List.find?_some hfound
        rw [h.eq_of_id_eq (List.mem_of_find?_eq_some hfound) hjob (hother.trans hid.symm)]
  unfold State.currentClaim
  rw [hfind]
  dsimp only
  rw [htoken, Option.isSome_some, if_pos rfl, ← hid, hlast, hlatest]

theorem LeaseInv.settle_of_not_current {s : State} (h : LeaseInv s) {claimed : ClaimedEmailJob}
    (hclaimed : claimed ∈ claims s.log) (hstale : s.currentClaim claimed.id ≠ some claimed)
    (change : EmailOutboxJob → Option EmailOutboxJob) :
    settle claimed change s.jobs = (s.jobs, false) := by
  refine settle_of_not_owned change fun job hjob => Bool.eq_false_iff.mpr fun hown => ?_
  exact hstale (h.currentClaim_of_owned hclaimed hjob hown)

/-- **Only the latest claimant settles a job.** In every reachable state the lock columns of a row
are null together, a lock token names the most recent claim of its job and no other claim, and a
settlement by any claim that is not the job's current one returns False and changes nothing. -/
theorem only_current_claim_settles {s : State} (h : Reachable s) :
    (∀ job ∈ s.jobs, (job.lockToken = none ↔ job.lockedUntil = none)
      ∧ ∀ token, job.lockToken = some token → ∃ latest, lastClaim s.log job.id = some latest
        ∧ ∀ claimed ∈ claims s.log, claimed.lockToken = token ↔ claimed = latest)
    ∧ (∀ claimed ∈ claims s.log, s.currentClaim claimed.id ≠ some claimed →
      complete claimed s.jobs = (s.jobs, false)
      ∧ (∀ nextAttemptAt errorCode,
        retryLater claimed nextAttemptAt errorCode s.jobs = (s.jobs, false))
      ∧ ∀ failedAt errorCode, fail claimed failedAt errorCode s.jobs = (s.jobs, false))
    ∧ ∀ worker s', step s (.settle worker) = some s' → s'.jobs ≠ s.jobs →
      ∃ claimed, (s.worker worker).job = some claimed
        ∧ s.currentClaim claimed.id = some claimed := by
  have hinv := leaseInv_reachable h
  refine ⟨fun job hjob => ⟨hinv.lock_iff job hjob, fun token htoken => ?_⟩, ?_, ?_⟩
  · obtain ⟨latest, hlast, hlatest, _⟩ := hinv.owner job hjob token htoken
    refine ⟨latest, hlast, fun claimed hclaimed => ⟨fun hsame => ?_, fun heq => heq ▸ hlatest⟩⟩
    exact List.inj_on_of_nodup_map hinv.tokens_nodup hclaimed (List.mem_of_find?_eq_some hlast)
      (hsame.trans hlatest.symm)
  · intro claimed hclaimed hstale
    exact ⟨hinv.settle_of_not_current hclaimed hstale _,
      fun _ _ => hinv.settle_of_not_current hclaimed hstale _,
      fun _ _ => hinv.settle_of_not_current hclaimed hstale _⟩
  · intro worker s' hs hchanged
    cases effect_of_settleStep hs with
    | nothing => exact absurd rfl hchanged
    | move => exact absurd rfl hchanged
    | settle _ claimed settlement change hmove =>
        refine ⟨claimed, hmove.spec.1, by_contra fun hstale => hchanged ?_⟩
        have hclaimed := (phaseInv_reachable h worker).job_mem hmove.spec.1
        exact congrArg Prod.fst (hinv.settle_of_not_current hclaimed hstale change)
    | cascade _ _ hlinked => cases hlinked

/-- A worker whose lease ends while it waits for the sender, so that another claims the job. -/
def overtakenRun : List Label :=
  [.enqueue ⟨"a@x.lt", "Subject", "Text", "Html", none, some "key"⟩ 0 none none,
    .claim 0 0 120 [] "first", .handOver 0, .claim 1 200 120 [] "second", .sendReturns 0]

def overtakenClaim : ClaimedEmailJob :=
  ⟨0, 1, "first", ⟨"a@x.lt", "Subject", "Text", "Html", none, some "key"⟩⟩

theorem only_current_claim_settles_overtaken :
    ∃ s, Transition.run step State.empty overtakenRun = some s
      ∧ s.worker 0 = .returned overtakenClaim ∧ overtakenClaim ∈ claims s.log
      ∧ s.jobs ≠ [] ∧ complete overtakenClaim s.jobs = (s.jobs, false) := by
  refine ⟨_, rfl, rfl, by decide, by decide, ?_⟩
  have hreach := reachable_of_run overtakenRun rfl
  exact ((only_current_claim_settles hreach).2.1 overtakenClaim (by decide) (by decide)).1

end EventsApi.EmailOutbox
