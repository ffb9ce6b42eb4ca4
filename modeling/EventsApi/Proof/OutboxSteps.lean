import EventsApi.Mailer.Outbox
import Mathlib.Data.List.Nodup

/-!
# What a step of the outbox can do

One inversion of `step`, by what happens to the table, the workers and the log, and what each table
operation leaves in the table. The invariants are proved from these cases.
-/

namespace EventsApi.EmailOutbox

theorem sublist_map_filterMap {α β : Type*} {f : α → Option α} {key : α → β}
    (hkey : ∀ a b, f a = some b → key b = key a) (l : List α) :
    ((l.filterMap f).map key).Sublist (l.map key) := by
  induction l with
  | nil => exact List.Sublist.refl _
  | cons a l ih =>
      rw [List.filterMap_cons]
      cases hf : f a with
      | none => exact ih.cons _
      | some b => simpa [hkey a b hf] using ih

theorem map_filterMap_of_some {α β : Type*} {f : α → Option α} {key : α → β} {l : List α}
    (h : ∀ a ∈ l, ∃ b, f a = some b ∧ key b = key a) : (l.filterMap f).map key = l.map key := by
  induction l with
  | nil => rfl
  | cons a l ih =>
      obtain ⟨b, hb, hkey⟩ := h a List.mem_cons_self
      rw [List.filterMap_cons_some hb, List.map_cons, List.map_cons, hkey,
        ih fun a ha => h a (List.mem_cons_of_mem _ ha)]

/-! ### The table operations -/

theorem mem_of_firstDue {jobs : List EmailOutboxJob} {job : EmailOutboxJob}
    (h : firstDue jobs = some job) : job ∈ jobs := by
  induction jobs with
  | nil => cases h
  | cons first jobs ih =>
      rw [firstDue] at h
      split at h
      · cases h
        exact List.mem_cons_self
      · rename_i best hbest
        split at h
        · cases h
          exact List.mem_cons_self
        · cases h
          exact List.mem_cons_of_mem _ (ih hbest)

theorem claimable_spec {jobs : List EmailOutboxJob} {now : Int} {skipped : List Nat}
    {job : EmailOutboxJob} (h : claimable jobs now skipped = some job) :
    job ∈ jobs ∧ isDue now job = true := by
  have hmem := mem_of_firstDue h
  rw [List.mem_filter, Bool.and_eq_true] at hmem
  exact ⟨hmem.1, hmem.2.1⟩

theorem isDue_failedAt {now : Int} {job : EmailOutboxJob} (h : isDue now job = true) :
    job.failedAt = none := by
  simp only [isDue, Bool.and_eq_true, Option.isNone_iff_eq_none] at h
  exact h.1.1

theorem claimStep_cases (s : State) (worker : Nat) (now leaseDuration : Int) (skipped : List Nat)
    (lockToken : String) :
    (claimable s.jobs now skipped = none
      ∧ s.claimStep worker now leaseDuration skipped lockToken = s) ∨
    ∃ job, claimable s.jobs now skipped = some job
      ∧ s.claimStep worker now leaseDuration skipped lockToken =
        { s with
          jobs := s.jobs.map fun other =>
            if other.id = job.id then leased job now leaseDuration lockToken else other
          issued := lockToken :: s.issued
          worker := Function.update s.worker worker (.claimed (claimOn job lockToken))
          log := .claimed (claimOn job lockToken) now leaseDuration :: s.log } := by
  unfold State.claimStep claimNext
  cases hclaim : claimable s.jobs now skipped with
  | none => exact Or.inl ⟨rfl, rfl⟩
  | some job => exact Or.inr ⟨job, rfl, rfl⟩

theorem ownedBy_iff {claimed : ClaimedEmailJob} {job : EmailOutboxJob} :
    ownedBy claimed job = true ↔ job.id = claimed.id ∧ job.lockToken = some claimed.lockToken := by
  simp [ownedBy]

theorem settle_of_not_owned {claimed : ClaimedEmailJob}
    (change : EmailOutboxJob → Option EmailOutboxJob) {jobs : List EmailOutboxJob}
    (h : ∀ job ∈ jobs, ownedBy claimed job = false) :
    settle claimed change jobs = (jobs, false) := by
  apply Prod.ext
  · refine (List.filterMap_congr fun job hjob => ?_).trans (List.filterMap_some)
    rw [h job hjob, if_neg Bool.false_ne_true]
  · exact List.any_eq_false.mpr fun job hjob => by simp [h job hjob]

theorem mem_leaseRow {jobs : List EmailOutboxJob} {job row : EmailOutboxJob}
    {now leaseDuration : Int} {lockToken : String}
    (h : row ∈ jobs.map fun other =>
      if other.id = job.id then leased job now leaseDuration lockToken else other) :
    row = leased job now leaseDuration lockToken ∨ row ∈ jobs ∧ row.id ≠ job.id := by
  obtain ⟨other, hother, hrow⟩ := List.mem_map.mp h
  split at hrow
  · exact Or.inl hrow.symm
  · rename_i hid
    exact Or.inr ⟨hrow ▸ hother, hrow ▸ hid⟩

theorem leased_mem {jobs : List EmailOutboxJob} {job : EmailOutboxJob} (hjob : job ∈ jobs)
    (now leaseDuration : Int) (lockToken : String) :
    leased job now leaseDuration lockToken ∈ jobs.map fun other =>
      if other.id = job.id then leased job now leaseDuration lockToken else other :=
  List.mem_map.mpr ⟨job, hjob, if_pos rfl⟩

theorem map_id_leaseRow (jobs : List EmailOutboxJob) (job : EmailOutboxJob)
    (now leaseDuration : Int) (lockToken : String) :
    (jobs.map fun other =>
      if other.id = job.id then leased job now leaseDuration lockToken else other).map (·.id)
      = jobs.map (·.id) := by
  rw [List.map_map]
  apply List.map_congr_left
  intro other _
  by_cases hid : other.id = job.id
  · simp [hid, leased]
  · simp [hid]

theorem claims_append (first second : List Entry) :
    claims (first ++ second) = claims first ++ claims second :=
  List.filterMap_append

theorem claims_mono {log log' : List Entry} (h : log <:+ log') {claimed : ClaimedEmailJob}
    (hclaimed : claimed ∈ claims log) : claimed ∈ claims log' :=
  (h.filterMap _).subset hclaimed

theorem claims_cascade (jobs : List EmailOutboxJob) (log : List Entry) :
    claims (jobs.map (fun job => .tokenDeleted job.id) ++ log) = claims log := by
  have hnone : claims (jobs.map fun job => .tokenDeleted job.id) = [] := by
    rw [claims, List.filterMap_map]
    exact List.filterMap_eq_nil_iff.mpr fun _ _ => rfl
  rw [claims_append, hnone, List.nil_append]

theorem deleteLinked_eq_filterMap (linked : EmailOutboxJob → Bool) (jobs : List EmailOutboxJob) :
    deleteLinked linked jobs = jobs.filterMap (Option.guard fun job => !linked job) := by
  rw [deleteLinked, List.filterMap_eq_filter]

theorem enqueue_spec {jobs : List EmailOutboxJob} {id : Nat} {message : EmailMessage} {now : Int}
    {confirmationTokenId passwordResetTokenId : Option Nat} {job : EmailOutboxJob}
    (h : enqueue jobs id message now confirmationTokenId passwordResetTokenId = .ok job) :
    ∃ key, message.idempotencyKey = some key
      ∧ job = newJob id message key now confirmationTokenId passwordResetTokenId
      ∧ jobs.any job.collides = false := by
  unfold enqueue at h
  split at h
  · cases h
  · rename_i key hkey
    dsimp only at h
    split at h
    · cases h
    · rename_i hcollides
      cases h
      exact ⟨key, hkey, rfl, Bool.eq_false_iff.mpr hcollides⟩

/-! ### The cases of a step -/

/-- A worker moves on, or stops, without touching the table. -/
inductive PhaseMove : Phase → Phase → List Entry → Prop where
  | handOver (claimed : ClaimedEmailJob) :
      PhaseMove (.claimed claimed) (.sending claimed) [.handed claimed]
  | sendReturns (claimed : ClaimedEmailJob) :
      PhaseMove (.sending claimed) (.returned claimed) [.sendReturned claimed]
  | sendRaises (claimed : ClaimedEmailJob) (error : EmailDeliveryError) (failedAt : Int) :
      PhaseMove (.sending claimed) (.raised claimed error failedAt) [.sendRaised claimed error]
  | stop (phase : Phase) : PhaseMove phase .idle []

/-- The three settlements, by the phase that leads to each and the change of the row it owns. -/
inductive SettleMove : Phase → ClaimedEmailJob → Settlement →
    (EmailOutboxJob → Option EmailOutboxJob) → Prop where
  | complete (claimed : ClaimedEmailJob) :
      SettleMove (.returned claimed) claimed .completed fun _ => none
  | retryLater (claimed : ClaimedEmailJob) (error : EmailDeliveryError) (failedAt delay : Int)
      (hretry : error.retryable = true ∧ claimed.attempts < maxAttempts) :
      SettleMove (.raised claimed error failedAt) claimed (.rescheduled (failedAt + delay))
        fun job => some
          { job with
            nextAttemptAt := failedAt + delay
            lockedUntil := none
            lockToken := none
            lastErrorCode := some (errorCode error) }
  | fail (claimed : ClaimedEmailJob) (error : EmailDeliveryError) (failedAt : Int)
      (hstop : ¬ (error.retryable = true ∧ claimed.attempts < maxAttempts)) :
      SettleMove (.raised claimed error failedAt) claimed (.failed failedAt)
        fun job => some
          { job with
            lockedUntil := none
            lockToken := none
            lastErrorCode := some (errorCode error)
            failedAt := some failedAt
            textBody := ""
            htmlBody := "" }

/-- The link a token deletion follows. -/
def Label.deletes : Label → Option (EmailOutboxJob → Bool)
  | .deleteConfirmationToken tokenId => some (linkedToConfirmationToken tokenId)
  | .deletePasswordResetToken tokenId => some (linkedToPasswordResetToken tokenId)
  | _ => none

/-- What a step can do to the state. -/
inductive Effect (s : State) : Label → State → Prop where
  | nothing (l : Label) : Effect s l s
  | enqueue (message : EmailMessage) (key : String) (now : Int)
      (confirmationTokenId passwordResetTokenId : Option Nat)
      (hkey : message.idempotencyKey = some key) :
      Effect s (.enqueue message now confirmationTokenId passwordResetTokenId)
        { s with
          jobs := s.jobs ++
            [newJob s.nextId message key now confirmationTokenId passwordResetTokenId]
          nextId := s.nextId + 1
          log := .enqueued s.nextId message :: s.log }
  | claim (worker : Nat) (now leaseDuration : Int) (skipped : List Nat) (lockToken : String)
      (job : EmailOutboxJob) (hclaim : claimable s.jobs now skipped = some job)
      (hfresh : lockToken ∉ s.issued) :
      Effect s (.claim worker now leaseDuration skipped lockToken)
        { s with
          jobs := s.jobs.map fun other =>
            if other.id = job.id then leased job now leaseDuration lockToken else other
          issued := lockToken :: s.issued
          worker := Function.update s.worker worker (.claimed (claimOn job lockToken))
          log := .claimed (claimOn job lockToken) now leaseDuration :: s.log }
  | move (l : Label) (worker : Nat) (phase : Phase) (entries : List Entry)
      (hmove : PhaseMove (s.worker worker) phase entries) :
      Effect s l
        { s with
          worker := Function.update s.worker worker phase
          log := entries ++ s.log }
  | settle (worker : Nat) (claimed : ClaimedEmailJob) (settlement : Settlement)
      (change : EmailOutboxJob → Option EmailOutboxJob)
      (hmove : SettleMove (s.worker worker) claimed settlement change) :
      Effect s (.settle worker)
        (s.settleWith worker claimed settlement (EmailOutbox.settle claimed change s.jobs))
  | cascade (l : Label) (linked : EmailOutboxJob → Bool) (hlinked : l.deletes = some linked) :
      Effect s l (s.cascade linked)

theorem effect_of_settleStep {s s' : State} {worker : Nat} (h : s.settleStep worker = some s') :
    Effect s (.settle worker) s' := by
  unfold State.settleStep at h
  split at h
  · rename_i claimed hphase
    cases h
    exact .settle worker claimed .completed _ (hphase ▸ .complete claimed)
  · rename_i claimed error failedAt hphase
    split at h
    · rename_i hretry
      split at h
      · cases h
        exact .move _ worker .idle [] (.stop _)
      · rename_i delay hdelay
        cases h
        exact .settle worker claimed _ _ (hphase ▸ .retryLater claimed error failedAt delay hretry)
    · rename_i hstop
      cases h
      exact .settle worker claimed _ _ (hphase ▸ .fail claimed error failedAt hstop)
  · cases h

theorem effect_of_step {s s' : State} {l : Label} (hs : step s l = some s') : Effect s l s' := by
  cases l with
  | enqueue message now confirmationTokenId passwordResetTokenId =>
      simp only [step] at hs
      split at hs
      · cases hs
        exact .nothing _
      · rename_i job hjob
        obtain ⟨key, hkey, rfl, _⟩ := enqueue_spec hjob
        cases hs
        exact .enqueue message key now confirmationTokenId passwordResetTokenId hkey
  | claim worker now leaseDuration skipped lockToken =>
      simp only [step] at hs
      split at hs
      · rename_i hguard
        cases hs
        obtain ⟨_, heq⟩ | ⟨job, hclaim, heq⟩ :=
          claimStep_cases s worker now leaseDuration skipped lockToken
        · rw [heq]
          exact .nothing _
        · rw [heq]
          exact .claim worker now leaseDuration skipped lockToken job hclaim hguard.2
      · cases hs
  | handOver worker =>
      simp only [step] at hs
      split at hs
      · rename_i claimed hphase
        cases hs
        exact .move _ worker _ [.handed claimed] (hphase ▸ .handOver claimed)
      · cases hs
  | sendReturns worker =>
      simp only [step] at hs
      split at hs
      · rename_i claimed hphase
        cases hs
        exact .move _ worker _ [.sendReturned claimed] (hphase ▸ .sendReturns claimed)
      · cases hs
  | sendRaises worker error failedAt =>
      simp only [step] at hs
      split at hs
      · rename_i claimed hphase
        cases hs
        exact .move _ worker _ [.sendRaised claimed error]
          (hphase ▸ .sendRaises claimed error failedAt)
      · cases hs
  | sendRaisesOther worker =>
      simp only [step] at hs
      split at hs
      · cases hs
        exact .move _ worker .idle [] (.stop _)
      · cases hs
  | settle worker => exact effect_of_settleStep hs
  | crash worker =>
      cases hs
      exact .move _ worker .idle [] (.stop _)
  | deleteConfirmationToken tokenId =>
      cases hs
      exact .cascade _ _ rfl
  | deletePasswordResetToken tokenId =>
      cases hs
      exact .cascade _ _ rfl

theorem Effect.log_suffix {s s' : State} {l : Label} (h : Effect s l s') : s.log <:+ s'.log := by
  cases h with
  | nothing => exact List.suffix_rfl
  | enqueue | claim | settle => exact List.suffix_cons _ _
  | move | cascade => exact List.suffix_append _ _

theorem PhaseMove.claims_eq_nil {before after : Phase} {entries : List Entry}
    (h : PhaseMove before after entries) : claims entries = [] := by
  cases h <;> rfl

theorem SettleMove.spec {phase : Phase} {claimed : ClaimedEmailJob} {settlement : Settlement}
    {change : EmailOutboxJob → Option EmailOutboxJob}
    (h : SettleMove phase claimed settlement change) :
    phase.job = some claimed ∧ ∀ job job', change job = some job' →
      job'.id = job.id ∧ job'.lockToken = none ∧ job'.lockedUntil = none
        ∧ job'.attempts = job.attempts := by
  cases h with
  | complete => exact ⟨rfl, fun _ _ hjob => nomatch hjob⟩
  | retryLater =>
      refine ⟨rfl, fun job job' hjob => ?_⟩
      cases hjob
      exact ⟨rfl, rfl, rfl, rfl⟩
  | fail =>
      refine ⟨rfl, fun job job' hjob => ?_⟩
      cases hjob
      exact ⟨rfl, rfl, rfl, rfl⟩

theorem reachable_of_run (labels : List Label) {s : State}
    (h : Transition.run step State.empty labels = some s) : Reachable s := by
  refine Transition.reachable_of_run ?_ labels (fun _ _ _ _ _ _ _ => trivial) h
  rfl

end EventsApi.EmailOutbox
