import EventsApi.Proof.OutboxFate
import Mathlib.Data.List.Perm.Subperm

/-!
# How often a job is handed to the sender

The attempt counter is compared with `MAX_ATTEMPTS` only where `EmailDeliveryError` is caught. A
last attempt that ends in any other way leaves its lease to run out, and the job is claimed and sent
again. Attempts stay within the bound exactly in the runs in which that never happens.
-/

namespace EventsApi.EmailOutbox

/-- The hand-overs of one job. -/
def handOversOf (log : List Entry) (id : Nat) : List ClaimedEmailJob :=
  (handOvers log).filter (·.id == id)

/-- No stored job counts more than `MAX_ATTEMPTS` attempts, and none was sent more often. -/
def AttemptsBounded (s : State) : Prop :=
  (∀ row ∈ s.jobs, row.attempts ≤ maxAttempts)
    ∧ ∀ id, (handOversOf s.log id).length ≤ maxAttempts

/-- The step claims a job whose attempt number `MAX_ATTEMPTS` was never settled. -/
def ReclaimsLastAttempt (s : State) : Label → Prop
  | .claim _ now _ skipped _ => ∃ job, claimable s.jobs now skipped = some job
      ∧ job.lockToken ≠ none ∧ maxAttempts ≤ job.attempts
  | _ => False

/-! ### Every claim is handed over at most once -/

theorem handOvers_append (first second : List Entry) :
    handOvers (first ++ second) = handOvers first ++ handOvers second :=
  List.filterMap_append

theorem mem_handOvers {log : List Entry} {claimed : ClaimedEmailJob} :
    claimed ∈ handOvers log ↔ .handed claimed ∈ log := by
  rw [handOvers, List.mem_filterMap]
  constructor
  · rintro ⟨e, he, hclaimed⟩
    split at hclaimed
    · cases hclaimed
      exact he
    · cases hclaimed
  · exact fun h => ⟨_, h, rfl⟩

theorem handOvers_cascade (jobs : List EmailOutboxJob) (log : List Entry) :
    handOvers (jobs.map (fun job => .tokenDeleted job.id) ++ log) = handOvers log := by
  have hnone : handOvers (jobs.map fun job => .tokenDeleted job.id) = [] := by
    rw [handOvers, List.filterMap_map]
    exact List.filterMap_eq_nil_iff.mpr fun _ _ => rfl
  rw [handOvers_append, hnone, List.nil_append]

/-- Two workers are never at the same claim, and one that is about to hand its claim over has not
done so before. -/
structure HandInv (s : State) : Prop where
  unsent : ∀ worker claimed, s.worker worker = .claimed claimed → claimed ∉ handOvers s.log
  held_once : ∀ worker worker' claimed, (s.worker worker).job = some claimed →
    (s.worker worker').job = some claimed → worker = worker'
  nodup : (handOvers s.log).Nodup

theorem handInv_empty : HandInv State.empty where
  unsent := by simp [State.empty]
  held_once := by simp [State.empty, Phase.job]
  nodup := List.nodup_nil

theorem HandInv.update {s s' : State} (h : HandInv s) {worker : Nat} {phase : Phase}
    (hworker : s'.worker = Function.update s.worker worker phase)
    (hlog : handOvers s'.log = handOvers s.log)
    (hphase : ∀ claimed, phase.job = some claimed →
      (s.worker worker).job = some claimed ∧ phase ≠ .claimed claimed) : HandInv s' := by
  have hjob : ∀ other claimed, (s'.worker other).job = some claimed →
      (s.worker other).job = some claimed := by
    intro other claimed hother
    rw [hworker] at hother
    by_cases heq : other = worker
    · rw [heq, Function.update_self] at hother
      exact heq ▸ (hphase claimed hother).1
    · rwa [Function.update_of_ne heq] at hother
  refine ⟨fun other claimed hother => ?_, fun first second claimed hfirst hsecond =>
    h.held_once first second claimed (hjob _ _ hfirst) (hjob _ _ hsecond), hlog ▸ h.nodup⟩
  rw [hlog]
  rw [hworker] at hother
  by_cases heq : other = worker
  · rw [heq, Function.update_self] at hother
    exact absurd hother (hphase claimed (congrArg Phase.job hother)).2
  · rw [Function.update_of_ne heq] at hother
    exact h.unsent other claimed hother

theorem HandInv.claim {s s' : State} (h : HandInv s) (hphases : PhaseInv s) (hfate : FateInv s)
    {worker : Nat} {claimed : ClaimedEmailJob} (hnew : claimed ∉ claims s.log)
    (hworker : s'.worker = Function.update s.worker worker (.claimed claimed))
    (hlog : handOvers s'.log = handOvers s.log) : HandInv s' := by
  have hother : ∀ other, other ≠ worker → (s.worker other).job ≠ some claimed :=
    fun other _ hjob => hnew ((hphases other).job_mem hjob)
  refine ⟨fun other claimed' hphase => ?_, fun first second claimed' hfirst hsecond => ?_,
    hlog ▸ h.nodup⟩
  · rw [hlog]
    rw [hworker] at hphase
    by_cases heq : other = worker
    · rw [heq, Function.update_self] at hphase
      cases hphase
      exact fun hmem => hnew (hfate.handed claimed (mem_handOvers.mp hmem))
    · rw [Function.update_of_ne heq] at hphase
      exact h.unsent other claimed' hphase
  · rw [hworker] at hfirst hsecond
    by_cases heq : first = worker <;> by_cases heq' : second = worker
    · exact heq.trans heq'.symm
    · rw [heq, Function.update_self] at hfirst
      rw [Function.update_of_ne heq'] at hsecond
      cases hfirst
      exact absurd hsecond (hother second heq')
    · rw [heq', Function.update_self] at hsecond
      rw [Function.update_of_ne heq] at hfirst
      cases hsecond
      exact absurd hfirst (hother first heq)
    · rw [Function.update_of_ne heq] at hfirst
      rw [Function.update_of_ne heq'] at hsecond
      exact h.held_once first second claimed' hfirst hsecond

theorem HandInv.handOver {s s' : State} (h : HandInv s) {worker : Nat} {claimed : ClaimedEmailJob}
    (hphase : s.worker worker = .claimed claimed)
    (hworker : s'.worker = Function.update s.worker worker (.sending claimed))
    (hlog : handOvers s'.log = claimed :: handOvers s.log) : HandInv s' := by
  have hmid : HandInv { s with worker := s'.worker } :=
    h.update hworker rfl fun other hjob => by
      cases hjob
      exact ⟨congrArg Phase.job hphase, by simp⟩
  refine ⟨fun other claimed' hother => ?_, hmid.held_once, ?_⟩
  · rw [hlog, List.mem_cons, not_or]
    refine ⟨fun heq => ?_, hmid.unsent other claimed' hother⟩
    have hsame : other = worker := hmid.held_once other worker claimed
      (heq ▸ congrArg Phase.job hother) (by simp [hworker, Phase.job])
    simp [hworker, hsame] at hother
  · rw [hlog]
    exact List.nodup_cons.mpr ⟨h.unsent worker claimed hphase, h.nodup⟩

theorem claimOn_not_mem_claims {s : State} (hlease : LeaseInv s) {job : EmailOutboxJob}
    {lockToken : String} (hfresh : lockToken ∉ s.issued) :
    claimOn job lockToken ∉ claims s.log :=
  fun hmem => hfresh (hlease.tokens_issued _ hmem)

theorem handInv_step {s s' : State} (l : Label) (hlease : LeaseInv s) (hphases : PhaseInv s)
    (hfate : FateInv s) (h : HandInv s) (hs : step s l = some s') : HandInv s' := by
  cases effect_of_step hs with
  | nothing => exact h
  | enqueue => exact ⟨h.unsent, h.held_once, h.nodup⟩
  | claim _ _ _ _ _ job _ hfresh =>
      exact h.claim hphases hfate (claimOn_not_mem_claims hlease hfresh) rfl rfl
  | move _ worker phase entries hmove =>
      generalize heq : s.worker worker = before at hmove
      cases hmove with
      | handOver claimed => exact h.handOver heq rfl rfl
      | sendReturns claimed | sendRaises claimed =>
          refine h.update rfl rfl fun other hjob => ?_
          cases hjob
          exact ⟨congrArg Phase.job heq, by simp⟩
      | stop => exact h.update rfl rfl (by simp [Phase.job])
  | settle => exact h.update rfl rfl (by simp [Phase.job])
  | cascade =>
      have hlog := handOvers_cascade (s.jobs.filter ‹_›) s.log
      refine ⟨fun worker claimed hphase => ?_, h.held_once, ?_⟩
      · rw [State.cascade, hlog]
        exact h.unsent worker claimed hphase
      · rw [State.cascade, hlog]
        exact h.nodup

theorem handInv_reachable {s : State} (h : Reachable s) : HandInv s :=
  Transition.Reachable.invariant_of
    (fun s => LeaseInv s ∧ PhaseInv s ∧ FateInv s)
    (fun hr => ⟨leaseInv_reachable hr, phaseInv_reachable hr, fateInv_reachable hr⟩)
    (fun _ hinit => hinit ▸ handInv_empty)
    (fun _ l _ hfact hinv _ hs => handInv_step l hfact.1 hfact.2.1 hfact.2.2 hinv hs) h

theorem handOversOf_length_le {s : State} (h : HandInv s) (hfate : FateInv s) (id : Nat) :
    (handOversOf s.log id).length ≤ (claimsOf s.log id).length := by
  refine (List.Nodup.subperm (h.nodup.filter _) fun claimed hmem => ?_).length_le
  obtain ⟨hhanded, hid⟩ := List.mem_filter.mp hmem
  exact List.mem_filter.mpr ⟨hfate.handed claimed (mem_handOvers.mp hhanded), hid⟩

/-! ### The attempt counter -/

/-- The counter of a row is the number of its claims, and a row that may be claimed without waiting
for a lease has an attempt left. -/
structure AttemptsInv (s : State) : Prop where
  counted : ∀ row ∈ s.jobs, (claimsOf s.log row.id).length = row.attempts
  bounded : ∀ id, (claimsOf s.log id).length ≤ maxAttempts
  left : ∀ row ∈ s.jobs, row.lockToken = none → row.failedAt = none → row.attempts < maxAttempts

theorem attemptsInv_empty : AttemptsInv State.empty where
  counted := by simp [State.empty]
  bounded := by simp [State.empty, claimsOf, claims]
  left := by simp [State.empty]

theorem AttemptsInv.bounds {s : State} (h : AttemptsInv s) (hhand : HandInv s) (hfate : FateInv s) :
    AttemptsBounded s := by
  refine ⟨fun row hrow => h.counted row hrow ▸ h.bounded row.id, fun id => ?_⟩
  exact (handOversOf_length_le hhand hfate id).trans (h.bounded id)

theorem LeaseInv.attempts_of_owned {s : State} (h : LeaseInv s) {claimed : ClaimedEmailJob}
    (hclaimed : claimed ∈ claims s.log) {row : EmailOutboxJob} (hrow : row ∈ s.jobs)
    (hown : ownedBy claimed row = true) : claimed.attempts = row.attempts := by
  obtain ⟨latest, hlast, htoken, hattempts⟩ := h.owner row hrow _ (ownedBy_iff.mp hown).2
  rw [← hattempts, List.inj_on_of_nodup_map h.tokens_nodup hclaimed
    (List.mem_of_find?_eq_some hlast) htoken.symm]

theorem claimsOf_nextId {s : State} (hfate : FateInv s) : claimsOf s.log s.nextId = [] := by
  apply List.filter_eq_nil_iff.mpr
  intro claimed hmem hid
  have hlt := hfate.enqueued_lt _ _ (hfate.claimed claimed hmem)
  exact hlt.ne (by simpa using hid)

theorem attemptsInv_step {s s' : State} {l : Label} (hlease : LeaseInv s) (hphases : PhaseInv s)
    (hfate : FateInv s) (h : AttemptsInv s) (hallowed : ¬ ReclaimsLastAttempt s l)
    (hs : step s l = some s') : AttemptsInv s' := by
  cases effect_of_step hs with
  | nothing => exact h
  | enqueue =>
      refine ⟨fun row hrow => ?_, h.bounded, fun row hrow hfree hlive => ?_⟩
      · obtain hold | hnew := List.mem_append.mp hrow
        · exact h.counted row hold
        · rw [List.mem_singleton.mp hnew]
          exact congrArg List.length (claimsOf_nextId hfate)
      · obtain hold | hnew := List.mem_append.mp hrow
        · exact h.left row hold hfree hlive
        · rw [List.mem_singleton.mp hnew]
          exact (by decide : 0 < maxAttempts)
  | claim worker now leaseDuration skipped lockToken job hclaim _ =>
      obtain ⟨hjob, hdue⟩ := claimable_spec hclaim
      have hleft : job.attempts < maxAttempts := by
        by_cases hfree : job.lockToken = none
        · exact h.left job hjob hfree (isDue_failedAt hdue)
        · exact not_le.mp fun hle => hallowed ⟨job, hclaim, hfree, hle⟩
      have hself : claimsOf (.claimed (claimOn job lockToken) now leaseDuration :: s.log) job.id
          = claimOn job lockToken :: claimsOf s.log job.id :=
        List.filter_cons_of_pos (by simp [claimOn])
      have hother : ∀ id, job.id ≠ id →
          claimsOf (.claimed (claimOn job lockToken) now leaseDuration :: s.log) id
            = claimsOf s.log id :=
        fun id hne => List.filter_cons_of_neg (by simpa [claimOn] using hne)
      refine ⟨fun row hrow => ?_, fun id => ?_, fun row hrow hfree hlive => ?_⟩
      · obtain rfl | ⟨hold, hne⟩ := mem_leaseRow hrow
        · exact (congrArg List.length hself).trans (congrArg (· + 1) (h.counted job hjob))
        · exact (congrArg List.length (hother row.id hne.symm)).trans (h.counted row hold)
      · by_cases heq : job.id = id
        · rw [← heq]
          apply (congrArg List.length hself).trans_le
          rw [List.length_cons, h.counted job hjob]
          exact hleft
        · exact (congrArg List.length (hother id heq)).trans_le (h.bounded id)
      · obtain rfl | ⟨hold, _⟩ := mem_leaseRow hrow
        · cases hfree
        · exact h.left row hold hfree hlive
  | move _ _ _ entries hmove =>
      have hlog : ∀ id, claimsOf (entries ++ s.log) id = claimsOf s.log id := fun id => by
        rw [claimsOf, claims_append, hmove.claims_eq_nil, List.nil_append, claimsOf]
      refine ⟨fun row hrow => ?_, fun id => ?_, h.left⟩
      · exact (congrArg List.length (hlog row.id)).trans (h.counted row hrow)
      · exact (congrArg List.length (hlog id)).trans_le (h.bounded id)
  | settle worker claimed _ change hmove =>
      refine ⟨fun row' hrow' => ?_, h.bounded, fun row' hrow' hfree hlive => ?_⟩
      · obtain ⟨row, hrow, hchange⟩ := List.mem_filterMap.mp hrow'
        split at hchange
        · obtain ⟨hid, _, _, hattempts⟩ := hmove.spec.2 row row' hchange
          rw [hid, hattempts]
          exact h.counted row hrow
        · cases hchange
          exact h.counted row' hrow
      · obtain ⟨row, hrow, hchange⟩ := List.mem_filterMap.mp hrow'
        split at hchange
        · rename_i hown
          have hattempts := hlease.attempts_of_owned ((hphases worker).job_mem hmove.spec.1)
            hrow hown
          generalize s.worker worker = phase at hmove
          cases hmove with
          | complete => cases hchange
          | retryLater _ _ _ _ hretry =>
              cases hchange
              exact hattempts ▸ hretry.2
          | fail =>
              cases hchange
              cases hlive
        · cases hchange
          exact h.left row' hrow hfree hlive
  | cascade _ linked =>
      have hlog : ∀ id, claimsOf (s.cascade linked).log id = claimsOf s.log id := fun id => by
        rw [State.cascade, claimsOf, claims_cascade, claimsOf]
      refine ⟨fun row hrow => ?_, fun id => ?_,
        fun row hrow => h.left row (List.mem_filter.mp hrow).1⟩
      · rw [hlog]
        exact h.counted row (List.mem_filter.mp hrow).1
      · rw [hlog]
        exact h.bounded id

theorem attemptsBounded_of_settled {s : State} (h : Transition.Reachable step (· = State.empty)
    (fun s l => ¬ ReclaimsLastAttempt s l) s) : AttemptsBounded s := by
  have hreach : ∀ {t}, Transition.Reachable step (· = State.empty)
      (fun s l => ¬ ReclaimsLastAttempt s l) t → Reachable t :=
    fun ht => ht.mono fun _ _ _ => trivial
  have hinv : AttemptsInv s := Transition.Reachable.invariant_of
    (fun s => LeaseInv s ∧ PhaseInv s ∧ FateInv s)
    (fun ht => ⟨leaseInv_reachable (hreach ht), phaseInv_reachable (hreach ht),
      fateInv_reachable (hreach ht)⟩)
    (fun _ hinit => hinit ▸ attemptsInv_empty)
    (fun _ _ _ hfact hinv hallowed hs =>
      attemptsInv_step hfact.1 hfact.2.1 hfact.2.2 hinv hallowed hs) h
  exact hinv.bounds (handInv_reachable (hreach h)) (fateInv_reachable (hreach h))

theorem not_bounded_of_reclaim {s s' : State} {l : Label} (hs : step s l = some s')
    (hreclaim : ReclaimsLastAttempt s l) : ¬ AttemptsBounded s' := by
  cases l with
  | claim worker now leaseDuration skipped lockToken =>
      obtain ⟨job, hclaim, _, hle⟩ := hreclaim
      simp only [step] at hs
      split at hs
      · cases hs
        intro hbounded
        obtain ⟨hnone, _⟩ | ⟨job', hclaim', heq⟩ :=
          claimStep_cases s worker now leaseDuration skipped lockToken
        · rw [hclaim] at hnone
          cases hnone
        · rw [hclaim] at hclaim'
          cases hclaim'
          rw [heq] at hbounded
          have hmem := leased_mem (claimable_spec hclaim).1 now leaseDuration lockToken
          exact absurd (hbounded.1 _ hmem) (not_le.mpr (Nat.lt_succ_of_le hle))
      · cases hs
  | _ => exact hreclaim.elim

/-- **Attempts are bounded exactly while every last attempt is settled.** A run keeps every job
within `MAX_ATTEMPTS` attempts and hand-overs in all its states if and only if no step of it claims
a job whose attempt number `MAX_ATTEMPTS` was left unsettled. -/
theorem attempts_bounded_iff_last_attempts_settled (labels : List Label) :
    (∀ before s, before <+: labels → Transition.run step State.empty before = some s →
      AttemptsBounded s)
    ↔ ∀ before l s s', before ++ [l] <+: labels →
      Transition.run step State.empty before = some s → step s l = some s' →
      ¬ ReclaimsLastAttempt s l := by
  constructor
  · intro hbounded before l s s' hpre hrun hs hreclaim
    refine not_bounded_of_reclaim hs hreclaim (hbounded (before ++ [l]) s' hpre ?_)
    rw [Transition.run_concat, hrun]
    exact hs
  · intro hsettled before s hpre hrun
    refine attemptsBounded_of_settled (Transition.reachable_of_run ?_ before ?_ hrun)
    · rfl
    · exact fun before' l t t' hpre' => hsettled before' l t t' (hpre'.trans hpre)

/-- Nine times the sender raises something other than `EmailDeliveryError`, which the worker
logs. -/
def abandonedRun : List Label :=
  .enqueue ⟨"a@x.lt", "Subject", "Text", "Html", none, some "key"⟩ 0 none none ::
    (["a", "b", "c", "d", "e", "f", "g", "h", "i"].zipIdx.flatMap fun (lockToken, i) =>
      [.claim 0 (i * 200) 120 [] lockToken, .handOver 0, .sendRaisesOther 0])

theorem abandonedRun_exceeds_maxAttempts :
    ∃ s, Transition.run step State.empty abandonedRun = some s
      ∧ s.jobs.map (·.attempts) = [9] ∧ (handOversOf s.log 0).length = 9 ∧ maxAttempts = 8
      ∧ ¬ AttemptsBounded s := by
  refine ⟨_, rfl, by decide, by decide, rfl, fun hbounded => ?_⟩
  exact absurd (hbounded.2 0) (by decide)

end EventsApi.EmailOutbox
