import EventsApi.Proof.OutboxLease

/-!
# What becomes of an enqueued message

Every message ever enqueued is waiting unchanged in the table, or stored as failed with its bodies
erased, or was delivered, or was dropped with its token row, and never two of these. The invariant
reads the log: which messages were enqueued, which jobs were removed and why, and what the sender
answered before a job was settled.
-/

namespace EventsApi.EmailOutbox

/-- The four conditions of an enqueued job. -/
inductive Condition where
  | waiting
  | failed
  | delivered
  | unlinked
  deriving DecidableEq

/-- A row that still carries its message. -/
def RowWaiting (message : EmailMessage) (row : EmailOutboxJob) : Prop :=
  row.failedAt = none ∧ row.message = message

/-- A row whose retries stopped. -/
def RowFailed (row : EmailOutboxJob) : Prop :=
  row.failedAt.isSome ∧ row.textBody = "" ∧ row.htmlBody = ""
    ∧ row.lockToken = none ∧ row.lockedUntil = none

/-- A worker removed the job under a claim of it. -/
def Completed (log : List Entry) (id : Nat) : Prop :=
  ∃ claimed, claimed.id = id ∧ .settled claimed .completed true ∈ log

/-- The removal came after the sender returned for that very message. -/
def Delivered (log : List Entry) (id : Nat) (message : EmailMessage) : Prop :=
  ∃ claimed earlier, .settled claimed .completed true :: earlier <:+ log ∧ claimed.id = id
    ∧ claimed.message = message ∧ .sendReturned claimed ∈ earlier

/-- An enqueued job is in one of the conditions. -/
def State.Fate (s : State) (id : Nat) (message : EmailMessage) : Condition → Prop
  | .waiting => ∃ row ∈ s.jobs, row.id = id ∧ RowWaiting message row
  | .failed => ∃ row ∈ s.jobs, row.id = id ∧ RowFailed row
  | .delivered => (∀ row ∈ s.jobs, row.id ≠ id) ∧ Delivered s.log id message
  | .unlinked => (∀ row ∈ s.jobs, row.id ≠ id) ∧ .tokenDeleted id ∈ s.log

theorem Delivered.mono {log log' : List Entry} {id : Nat} {message : EmailMessage}
    (h : Delivered log id message) (hlog : log <:+ log') : Delivered log' id message := by
  obtain ⟨claimed, earlier, hsuf, hrest⟩ := h
  exact ⟨claimed, earlier, hsuf.trans hlog, hrest⟩

theorem Delivered.completed {log : List Entry} {id : Nat} {message : EmailMessage}
    (h : Delivered log id message) : Completed log id := by
  obtain ⟨claimed, earlier, hsuf, hid, _⟩ := h
  exact ⟨claimed, hid, hsuf.subset List.mem_cons_self⟩

theorem RowFailed.not_owned {row : EmailOutboxJob} (h : RowFailed row) (claimed : ClaimedEmailJob) :
    ownedBy claimed row = false := by
  simp [ownedBy, h.2.2.2.1]

/-! ### The invariant -/

/-- What the log says about messages, and how the table agrees with it. -/
structure FateInv (s : State) : Prop where
  enqueued_lt : ∀ id message, .enqueued id message ∈ s.log → id < s.nextId
  enqueued_unique : ∀ id message message', .enqueued id message ∈ s.log →
    .enqueued id message' ∈ s.log → message = message'
  stored : ∀ row ∈ s.jobs, ∃ message, .enqueued row.id message ∈ s.log
    ∧ (RowWaiting message row ∨ RowFailed row)
  claimed : ∀ claimed ∈ claims s.log, .enqueued claimed.id claimed.message ∈ s.log
  handed : ∀ claimed, .handed claimed ∈ s.log → claimed ∈ claims s.log
  completed : ∀ id, Completed s.log id → ∃ message, .enqueued id message ∈ s.log
    ∧ Delivered s.log id message
  unlinked : ∀ id, .tokenDeleted id ∈ s.log → ∃ message, .enqueued id message ∈ s.log
  removed : ∀ id, Completed s.log id ∨ .tokenDeleted id ∈ s.log → ∀ row ∈ s.jobs, row.id ≠ id
  removed_once : ∀ id, Completed s.log id → .tokenDeleted id ∉ s.log
  accounted : ∀ id message, .enqueued id message ∈ s.log →
    (∃ row ∈ s.jobs, row.id = id) ∨ Completed s.log id ∨ .tokenDeleted id ∈ s.log

theorem fateInv_empty : FateInv State.empty := by
  constructor <;> simp [State.empty, claims, Completed]

section Preservation

variable {s : State}

/-- The entries that enqueue or remove a job. -/
def Entry.isMilestone : Entry → Bool
  | .enqueued _ _ | .settled _ .completed true | .tokenDeleted _ => true
  | _ => false

theorem PhaseMove.not_milestone {before after : Phase} {entries : List Entry}
    (h : PhaseMove before after entries) {e : Entry} (he : e ∈ entries) :
    e.isMilestone = false := by
  cases h with
  | handOver | sendReturns | sendRaises =>
      rw [List.mem_singleton.mp he]
      rfl
  | stop => cases he

theorem PhaseMove.handed_job {before after : Phase} {entries : List Entry}
    (h : PhaseMove before after entries) {claimed : ClaimedEmailJob}
    (he : .handed claimed ∈ entries) : before.job = some claimed := by
  cases h with
  | handOver =>
      cases List.mem_singleton.mp he
      rfl
  | sendReturns | sendRaises => cases List.mem_singleton.mp he
  | stop => cases he

theorem FateInv.quiet (h : FateInv s) {s' : State} (hnext : s'.nextId = s.nextId)
    (hlog : s.log <:+ s'.log) (hmilestone : ∀ e ∈ s'.log, e.isMilestone = true → e ∈ s.log)
    (hids : s'.jobs.map (·.id) = s.jobs.map (·.id))
    (hstored : ∀ row ∈ s'.jobs, ∃ message, .enqueued row.id message ∈ s.log
      ∧ (RowWaiting message row ∨ RowFailed row))
    (hclaimed : ∀ claimed ∈ claims s'.log, .enqueued claimed.id claimed.message ∈ s.log)
    (hhanded : ∀ claimed, .handed claimed ∈ s'.log →
      .handed claimed ∈ s.log ∨ claimed ∈ claims s.log) : FateInv s' := by
  have henqueued : ∀ id message, .enqueued id message ∈ s'.log → .enqueued id message ∈ s.log :=
    fun _ _ hmem => hmilestone _ hmem rfl
  have hdeleted : ∀ id, .tokenDeleted id ∈ s'.log → .tokenDeleted id ∈ s.log :=
    fun _ hmem => hmilestone _ hmem rfl
  have hcompleted : ∀ id, Completed s'.log id → Completed s.log id :=
    fun _ ⟨claimed, hid, hmem⟩ => ⟨claimed, hid, hmilestone _ hmem rfl⟩
  have hrows : ∀ id, (∃ row ∈ s'.jobs, row.id = id) ↔ ∃ row ∈ s.jobs, row.id = id := by
    intro id
    simpa only [List.mem_map] using iff_of_eq (congrArg (id ∈ ·) hids)
  refine ⟨?_, ?_, ?_, ?_, ?_, ?_, ?_, ?_, ?_, ?_⟩
  · exact fun id message hmem => hnext ▸ h.enqueued_lt id message (henqueued id message hmem)
  · exact fun id message message' hmem hmem' =>
      h.enqueued_unique id message message' (henqueued _ _ hmem) (henqueued _ _ hmem')
  · intro row hrow
    obtain ⟨message, hmem, hcondition⟩ := hstored row hrow
    exact ⟨message, hlog.subset hmem, hcondition⟩
  · exact fun claimed hmem => hlog.subset (hclaimed claimed hmem)
  · intro claimed hmem
    obtain hold | hnew := hhanded claimed hmem
    · exact claims_mono hlog (h.handed claimed hold)
    · exact claims_mono hlog hnew
  · intro id hmem
    obtain ⟨message, henq, hdelivered⟩ := h.completed id (hcompleted id hmem)
    exact ⟨message, hlog.subset henq, hdelivered.mono hlog⟩
  · intro id hmem
    obtain ⟨message, henq⟩ := h.unlinked id (hdeleted id hmem)
    exact ⟨message, hlog.subset henq⟩
  · intro id hremoved row hrow hid
    obtain ⟨old, hold, holdId⟩ := (hrows id).mp ⟨row, hrow, hid⟩
    exact h.removed id (hremoved.imp (hcompleted id) (hdeleted id)) old hold holdId
  · exact fun id hmem hdel => h.removed_once id (hcompleted id hmem) (hdeleted id hdel)
  · intro id message hmem
    obtain hrow | hcomp | hdel := h.accounted id message (henqueued id message hmem)
    · exact Or.inl ((hrows id).mpr hrow)
    · exact Or.inr (Or.inl (hcomp.imp fun _ => And.imp_right fun hm => hlog.subset hm))
    · exact Or.inr (Or.inr (hlog.subset hdel))

theorem FateInv.enqueue (h : FateInv s) (message : EmailMessage) (key : String) (now : Int)
    (confirmationTokenId passwordResetTokenId : Option Nat)
    (hkey : message.idempotencyKey = some key) :
    FateInv
      { s with
        jobs := s.jobs ++
          [newJob s.nextId message key now confirmationTokenId passwordResetTokenId]
        nextId := s.nextId + 1
        log := .enqueued s.nextId message :: s.log } := by
  have hlog : s.log <:+ .enqueued s.nextId message :: s.log := List.suffix_cons _ _
  have hcompleted : ∀ id, Completed (.enqueued s.nextId message :: s.log) id →
      Completed s.log id := by simp [Completed]
  constructor
  case enqueued_lt =>
    intro id other hmem
    obtain hnew | hold := List.mem_cons.mp hmem
    · cases hnew
      exact Nat.lt_succ_self _
    · exact (h.enqueued_lt id other hold).trans (Nat.lt_succ_self _)
  case enqueued_unique =>
    intro id first second hfirst hsecond
    obtain hnew | hold := List.mem_cons.mp hfirst <;>
      obtain hnew' | hold' := List.mem_cons.mp hsecond
    · cases hnew
      cases hnew'
      rfl
    · cases hnew
      exact absurd (h.enqueued_lt _ _ hold') (lt_irrefl _)
    · cases hnew'
      exact absurd (h.enqueued_lt _ _ hold) (lt_irrefl _)
    · exact h.enqueued_unique id first second hold hold'
  case stored =>
    intro row hrow
    obtain hold | hnew := List.mem_append.mp hrow
    · obtain ⟨other, hmem, hcondition⟩ := h.stored row hold
      exact ⟨other, hlog.subset hmem, hcondition⟩
    · rw [List.mem_singleton.mp hnew]
      refine ⟨message, List.mem_cons_self, Or.inl ⟨rfl, ?_⟩⟩
      cases message
      simp_all [newJob, EmailOutboxJob.message]
  case claimed =>
    exact fun claimed hmem => hlog.subset (h.claimed claimed hmem)
  case handed =>
    intro claimed hmem
    exact h.handed claimed ((List.mem_cons.mp hmem).resolve_left (by simp))
  case completed =>
    intro id hmem
    obtain ⟨other, henq, hdelivered⟩ := h.completed id (hcompleted id hmem)
    exact ⟨other, hlog.subset henq, hdelivered.mono hlog⟩
  case unlinked =>
    intro id hmem
    obtain ⟨other, henq⟩ := h.unlinked id ((List.mem_cons.mp hmem).resolve_left (by simp))
    exact ⟨other, hlog.subset henq⟩
  case removed =>
    intro id hremoved row hrow
    have hold : Completed s.log id ∨ .tokenDeleted id ∈ s.log :=
      hremoved.imp (hcompleted id) fun hmem => (List.mem_cons.mp hmem).resolve_left (by simp)
    obtain hrow | hnew := List.mem_append.mp hrow
    · exact h.removed id hold row hrow
    · have hlt : id < s.nextId := by
        obtain ⟨other, henq⟩ : ∃ other, .enqueued id other ∈ s.log := by
          obtain hcomp | hdel := hold
          · exact (h.completed id hcomp).imp fun _ => And.left
          · exact h.unlinked id hdel
        exact h.enqueued_lt id other henq
      rw [List.mem_singleton.mp hnew]
      exact hlt.ne'
  case removed_once =>
    intro id hmem hdel
    exact h.removed_once id (hcompleted id hmem) ((List.mem_cons.mp hdel).resolve_left (by simp))
  case accounted =>
    intro id other hmem
    obtain hnew | hold := List.mem_cons.mp hmem
    · cases hnew
      exact Or.inl ⟨_, List.mem_append_right _ List.mem_cons_self, rfl⟩
    · obtain ⟨row, hrow, hid⟩ | ⟨claimed, hid, hcomp⟩ | hdel := h.accounted id other hold
      · exact Or.inl ⟨row, List.mem_append_left _ hrow, hid⟩
      · exact Or.inr (Or.inl ⟨claimed, hid, hlog.subset hcomp⟩)
      · exact Or.inr (Or.inr (hlog.subset hdel))

theorem FateInv.claim (h : FateInv s) {job : EmailOutboxJob} (hjob : job ∈ s.jobs)
    (hdue : job.failedAt = none) {worker : Nat} {now leaseDuration : Int} {lockToken : String} :
    FateInv
      { s with
        jobs := s.jobs.map fun other =>
          if other.id = job.id then leased job now leaseDuration lockToken else other
        issued := lockToken :: s.issued
        worker := Function.update s.worker worker (.claimed (claimOn job lockToken))
        log := .claimed (claimOn job lockToken) now leaseDuration :: s.log } := by
  obtain ⟨message, henq, hcondition⟩ := h.stored job hjob
  have hwaiting : RowWaiting message job :=
    hcondition.resolve_right fun hfailed => by simp [RowFailed, hdue] at hfailed
  refine h.quiet rfl (List.suffix_cons _ _) ?_ (map_id_leaseRow ..) ?_ ?_ ?_
  · intro e he hmile
    obtain rfl | hold := List.mem_cons.mp he
    · cases hmile
    · exact hold
  · intro row hrow
    obtain rfl | ⟨hold, _⟩ := mem_leaseRow hrow
    · exact ⟨message, henq, Or.inl hwaiting⟩
    · exact h.stored row hold
  · intro claimed hmem
    obtain rfl | hold := List.mem_cons.mp hmem
    · simpa [claimOn, hwaiting.2] using henq
    · exact h.claimed claimed hold
  · exact fun claimed hmem => Or.inl ((List.mem_cons.mp hmem).resolve_left (by simp))

theorem FateInv.move (h : FateInv s) (hphases : PhaseInv s) {worker : Nat} {phase : Phase}
    {entries : List Entry} (hmove : PhaseMove (s.worker worker) phase entries) :
    FateInv
      { s with
        worker := Function.update s.worker worker phase
        log := entries ++ s.log } := by
  refine h.quiet rfl (List.suffix_append _ _) ?_ rfl h.stored ?_ ?_
  · intro e he hmile
    apply (List.mem_append.mp he).resolve_left
    intro hnew
    rw [hmove.not_milestone hnew] at hmile
    cases hmile
  · intro claimed hmem
    rw [claims_append, hmove.claims_eq_nil, List.nil_append] at hmem
    exact h.claimed claimed hmem
  · intro claimed hmem
    obtain hnew | hold := List.mem_append.mp hmem
    · exact Or.inr ((hphases worker).job_mem (hmove.handed_job hnew))
    · exact Or.inl hold

theorem FateInv.settleStored (h : FateInv s) (worker : Nat) (claimed : ClaimedEmailJob)
    (settlement : Settlement) (result : List EmailOutboxJob × Bool)
    (hquiet : settlement = .completed → result.2 = false)
    (hids : result.1.map (·.id) = s.jobs.map (·.id))
    (hstored : ∀ row ∈ result.1, ∃ message, .enqueued row.id message ∈ s.log
      ∧ (RowWaiting message row ∨ RowFailed row)) :
    FateInv (s.settleWith worker claimed settlement result) := by
  refine h.quiet rfl (List.suffix_cons _ _) ?_ hids hstored ?_ ?_
  · intro e he hmile
    apply (List.mem_cons.mp he).resolve_left
    intro hnew
    rw [hnew] at hmile
    cases settlement <;> simp_all [Entry.isMilestone]
  · exact fun other hmem => h.claimed other hmem
  · exact fun other hmem => Or.inl ((List.mem_cons.mp hmem).resolve_left (by simp))

theorem SettleMove.rowStored {phase : Phase} {claimed : ClaimedEmailJob} {settlement : Settlement}
    {change : EmailOutboxJob → Option EmailOutboxJob}
    (hmove : SettleMove phase claimed settlement change) (hkeeps : settlement ≠ .completed)
    {message : EmailMessage} {row : EmailOutboxJob} (hrow : RowWaiting message row) :
    ∃ row', change row = some row' ∧ row'.id = row.id
      ∧ (RowWaiting message row' ∨ RowFailed row') := by
  cases hmove with
  | complete => exact absurd rfl hkeeps
  | retryLater => exact ⟨_, rfl, rfl, Or.inl hrow⟩
  | fail => exact ⟨_, rfl, rfl, Or.inr ⟨rfl, rfl, rfl, rfl, rfl⟩⟩

theorem FateInv.waiting_of_owned (h : FateInv s) {row : EmailOutboxJob} (hrow : row ∈ s.jobs)
    {claimed : ClaimedEmailJob} (hown : ownedBy claimed row = true) :
    ∃ message, .enqueued row.id message ∈ s.log ∧ RowWaiting message row := by
  obtain ⟨message, henq, hcondition⟩ := h.stored row hrow
  refine ⟨message, henq, hcondition.resolve_right fun hfailed => ?_⟩
  rw [hfailed.not_owned] at hown
  cases hown

theorem FateInv.settleKept (h : FateInv s) {worker : Nat} {phase : Phase}
    {claimed : ClaimedEmailJob} {settlement : Settlement}
    {change : EmailOutboxJob → Option EmailOutboxJob}
    (hmove : SettleMove phase claimed settlement change) (hkeeps : settlement ≠ .completed) :
    FateInv (s.settleWith worker claimed settlement (settle claimed change s.jobs)) := by
  have hrow : ∀ row ∈ s.jobs, ∃ row', (if ownedBy claimed row then change row else some row)
      = some row' ∧ row'.id = row.id ∧ ∃ message, .enqueued row.id message ∈ s.log
        ∧ (RowWaiting message row' ∨ RowFailed row') := by
    intro row hrow
    by_cases hown : ownedBy claimed row = true
    · obtain ⟨message, henq, hwaiting⟩ := h.waiting_of_owned hrow hown
      obtain ⟨row', hchange, hid, hcondition⟩ := hmove.rowStored hkeeps hwaiting
      exact ⟨row', by rw [if_pos hown, hchange], hid, message, henq, hcondition⟩
    · exact ⟨row, by rw [if_neg hown], rfl, h.stored row hrow⟩
  apply h.settleStored worker claimed settlement _ (fun heq => absurd heq hkeeps)
  · apply map_filterMap_of_some
    intro row hmem
    obtain ⟨row', hchange, hid, _⟩ := hrow row hmem
    exact ⟨row', hchange, hid⟩
  · intro row' hmem
    obtain ⟨row, hold, hchange⟩ := List.mem_filterMap.mp hmem
    obtain ⟨row'', hchange', hid, message, henq, hcondition⟩ := hrow row hold
    rw [hchange, Option.some_inj] at hchange'
    exact ⟨message, by rwa [hchange', hid], hchange' ▸ hcondition⟩

/-- An entry that says a job was removed. -/
def Entry.removes : Entry → Option Nat
  | .settled job .completed true => some job.id
  | .tokenDeleted jobId => some jobId
  | _ => none

theorem removes_of_completed {log : List Entry} {id : Nat}
    (h : Completed log id ∨ .tokenDeleted id ∈ log) : ∃ e ∈ log, e.removes = some id := by
  obtain ⟨claimed, rfl, hmem⟩ | hmem := h
  · exact ⟨_, hmem, rfl⟩
  · exact ⟨_, hmem, rfl⟩

theorem completed_of_removes {log : List Entry} {id : Nat} {e : Entry} (he : e ∈ log)
    (hid : e.removes = some id) : Completed log id ∨ .tokenDeleted id ∈ log := by
  unfold Entry.removes at hid
  split at hid
  · rename_i claimed
    exact Or.inl ⟨claimed, Option.some_inj.mp hid, he⟩
  · exact Or.inr (Option.some_inj.mp hid ▸ he)
  · cases hid

theorem completed_append {first second : List Entry} {id : Nat} :
    Completed (first ++ second) id ↔ Completed first id ∨ Completed second id := by
  simp only [Completed, List.mem_append, and_or_left, exists_or]

theorem FateInv.remove (h : FateInv s) {jobs : List EmailOutboxJob} (entries : List Entry)
    (worker : Nat → Phase)
    (hremoves : ∀ e ∈ entries, ∃ id, e.removes = some id)
    (hjobs : ∀ row, row ∈ jobs ↔ row ∈ s.jobs ∧ ∀ e ∈ entries, e.removes ≠ some row.id)
    (hstored : ∀ e ∈ entries, ∀ id, e.removes = some id → ∃ row ∈ s.jobs, row.id = id)
    (honce : ∀ id, Completed entries id → .tokenDeleted id ∉ entries)
    (hdelivered : ∀ id, Completed entries id → ∃ message, .enqueued id message ∈ s.log
      ∧ Delivered (entries ++ s.log) id message) :
    FateInv { s with jobs := jobs, worker := worker, log := entries ++ s.log } := by
  have hlog : s.log <:+ entries ++ s.log := List.suffix_append _ _
  have hold : ∀ e, e.removes = none → e ∈ entries ++ s.log → e ∈ s.log := by
    intro e hnone hmem
    apply (List.mem_append.mp hmem).resolve_left
    intro hnew
    obtain ⟨id, hid⟩ := hremoves e hnew
    simp [hnone] at hid
  -- Nothing that the new entries remove had been removed before.
  have hfirst : ∀ id, Completed entries id ∨ .tokenDeleted id ∈ entries →
      ¬ (Completed s.log id ∨ .tokenDeleted id ∈ s.log) := by
    intro id hnew hbefore
    obtain ⟨e, he, hid⟩ := removes_of_completed hnew
    obtain ⟨row, hrow, hrowId⟩ := hstored e he id hid
    exact h.removed id hbefore row hrow hrowId
  constructor
  case enqueued_lt => exact fun id message hmem => h.enqueued_lt id message (hold _ rfl hmem)
  case enqueued_unique =>
    exact fun id message message' hmem hmem' =>
      h.enqueued_unique id message message' (hold _ rfl hmem) (hold _ rfl hmem')
  case stored =>
    intro row hrow
    obtain ⟨message, henq, hcondition⟩ := h.stored row ((hjobs row).mp hrow).1
    exact ⟨message, hlog.subset henq, hcondition⟩
  case claimed =>
    intro claimed hmem
    obtain ⟨e, he, hclaim⟩ := List.mem_filterMap.mp hmem
    split at hclaim
    · refine hlog.subset (h.claimed claimed (List.mem_filterMap.mpr ⟨_, hold _ rfl he, hclaim⟩))
    · cases hclaim
  case handed =>
    exact fun claimed hmem => claims_mono hlog (h.handed claimed (hold _ rfl hmem))
  case completed =>
    intro id hmem
    obtain hnew | hbefore := completed_append.mp hmem
    · obtain ⟨message, henq, hdel⟩ := hdelivered id hnew
      exact ⟨message, hlog.subset henq, hdel⟩
    · obtain ⟨message, henq, hdel⟩ := h.completed id hbefore
      exact ⟨message, hlog.subset henq, hdel.mono hlog⟩
  case unlinked =>
    intro id hmem
    obtain hnew | hbefore := List.mem_append.mp hmem
    · obtain ⟨row, hrow, rfl⟩ := hstored _ hnew id rfl
      obtain ⟨message, henq, _⟩ := h.stored row hrow
      exact ⟨message, hlog.subset henq⟩
    · obtain ⟨message, henq⟩ := h.unlinked id hbefore
      exact ⟨message, hlog.subset henq⟩
  case removed =>
    intro id hremoved row hrow hid
    obtain ⟨e, he, heid⟩ := removes_of_completed hremoved
    obtain hnew | hbefore := List.mem_append.mp he
    · exact ((hjobs row).mp hrow).2 e hnew (hid ▸ heid)
    · exact h.removed id (completed_of_removes hbefore heid) row ((hjobs row).mp hrow).1 hid
  case removed_once =>
    intro id hcomp hdel
    obtain hnew | hbefore := completed_append.mp hcomp <;>
      obtain hnew' | hbefore' := List.mem_append.mp hdel
    · exact honce id hnew hnew'
    · exact hfirst id (Or.inl hnew) (Or.inr hbefore')
    · exact hfirst id (Or.inr hnew') (Or.inl hbefore)
    · exact h.removed_once id hbefore hbefore'
  case accounted =>
    intro id message hmem
    obtain ⟨row, hrow, hid⟩ | hcomp | hdel := h.accounted id message (hold _ rfl hmem)
    · by_cases hgone : ∀ e ∈ entries, e.removes ≠ some row.id
      · exact Or.inl ⟨row, (hjobs row).mpr ⟨hrow, hgone⟩, hid⟩
      · push Not at hgone
        obtain ⟨e, he, heid⟩ := hgone
        exact Or.inr (completed_of_removes (List.mem_append_left _ he) (hid ▸ heid))
    · exact Or.inr (Or.inl (completed_append.mpr (Or.inr hcomp)))
    · exact Or.inr (Or.inr (hlog.subset hdel))

theorem FateInv.complete (h : FateInv s) (hlease : LeaseInv s) (worker : Nat → Phase)
    {claimed : ClaimedEmailJob} (hclaimed : claimed ∈ claims s.log)
    (hreturned : .sendReturned claimed ∈ s.log) {row : EmailOutboxJob} (hrow : row ∈ s.jobs)
    (hown : ownedBy claimed row = true) :
    FateInv
      { s with
        jobs := (complete claimed s.jobs).1
        worker := worker
        log := .settled claimed .completed true :: s.log } := by
  have hid : row.id = claimed.id := (ownedBy_iff.mp hown).1
  apply h.remove [.settled claimed .completed true] worker
  · exact fun e he => ⟨claimed.id, by rw [List.mem_singleton.mp he]; rfl⟩
  · intro other
    have hiff : other ∈ (EmailOutbox.complete claimed s.jobs).1
        ↔ other ∈ s.jobs ∧ ownedBy claimed other = false := by
      simp [EmailOutbox.complete, EmailOutbox.settle, List.mem_filterMap]
    rw [hiff]
    apply and_congr_right
    intro hother
    simp only [List.mem_singleton, forall_eq, Entry.removes, ne_eq, Option.some_inj]
    constructor
    · intro hfree heq
      rw [hlease.eq_of_id_eq hother hrow (heq.symm.trans hid.symm), hown] at hfree
      cases hfree
    · intro hne
      exact Bool.eq_false_iff.mpr fun hown' => hne (ownedBy_iff.mp hown').1.symm
  · intro e he id heid
    rw [List.mem_singleton.mp he] at heid
    exact ⟨row, hrow, hid.trans (Option.some_inj.mp heid)⟩
  · exact fun id _ hdel => by cases List.mem_singleton.mp hdel
  · rintro id ⟨other, rfl, hmem⟩
    cases List.mem_singleton.mp hmem
    exact ⟨claimed.message, h.claimed claimed hclaimed, claimed, s.log, List.suffix_rfl, rfl, rfl,
      hreturned⟩

theorem FateInv.settle (h : FateInv s) (hlease : LeaseInv s) (hphases : PhaseInv s) {worker : Nat}
    {claimed : ClaimedEmailJob} {settlement : Settlement}
    {change : EmailOutboxJob → Option EmailOutboxJob}
    (hmove : SettleMove (s.worker worker) claimed settlement change) :
    FateInv (s.settleWith worker claimed settlement (settle claimed change s.jobs)) := by
  by_cases hkeeps : settlement = .completed
  · have hphase := hphases worker
    generalize s.worker worker = phase at hmove hphase
    cases hmove with
    | complete =>
        by_cases hany : s.jobs.any (ownedBy claimed) = true
        · obtain ⟨row, hrow, hown⟩ := List.any_eq_true.mp hany
          have hgone := h.complete hlease (Function.update s.worker worker .idle)
            hphase.1 hphase.2 hrow hown
          simpa only [State.settleWith, EmailOutbox.complete, EmailOutbox.settle, hany] using hgone
        · rw [settle_of_not_owned _ fun row hrow => Bool.eq_false_iff.mpr fun hown =>
            hany (List.any_eq_true.mpr ⟨row, hrow, hown⟩)]
          exact h.settleStored worker claimed _ _ (fun _ => rfl) rfl h.stored
    | retryLater | fail => cases hkeeps
  · exact h.settleKept hmove hkeeps

theorem FateInv.cascade (h : FateInv s) (hlease : LeaseInv s) (linked : EmailOutboxJob → Bool) :
    FateInv (s.cascade linked) := by
  have hentry : ∀ e, e ∈ (s.jobs.filter linked).map (fun job => Entry.tokenDeleted job.id) ↔
      ∃ job ∈ s.jobs, linked job = true ∧ .tokenDeleted job.id = e := by
    simp [List.mem_map, List.mem_filter, and_assoc]
  apply h.remove _ s.worker
  · intro e he
    obtain ⟨job, _, _, rfl⟩ := (hentry e).mp he
    exact ⟨job.id, rfl⟩
  · intro row
    rw [deleteLinked, List.mem_filter]
    refine and_congr_right fun hrow => ⟨fun hkept e he hid => ?_, fun hkept => ?_⟩
    · obtain ⟨job, hjob, hlinked, rfl⟩ := (hentry e).mp he
      rw [hlease.eq_of_id_eq hjob hrow (Option.some_inj.mp hid)] at hlinked
      simp [hlinked] at hkept
    · rw [Bool.not_eq_true', Bool.eq_false_iff]
      exact fun hlinked => hkept _ ((hentry _).mpr ⟨row, hrow, hlinked, rfl⟩) rfl
  · intro e he id heid
    obtain ⟨job, hjob, _, rfl⟩ := (hentry e).mp he
    exact ⟨job, hjob, Option.some_inj.mp heid⟩
  · rintro id ⟨claimed, _, hmem⟩
    obtain ⟨_, _, _, heq⟩ := (hentry _).mp hmem
    cases heq
  · rintro id ⟨claimed, _, hmem⟩
    obtain ⟨_, _, _, heq⟩ := (hentry _).mp hmem
    cases heq

end Preservation

theorem fateInv_step {s s' : State} (l : Label) (hlease : LeaseInv s) (hphases : PhaseInv s)
    (h : FateInv s) (hs : step s l = some s') : FateInv s' := by
  cases effect_of_step hs with
  | nothing => exact h
  | enqueue message key now confirmationTokenId passwordResetTokenId hkey =>
      exact h.enqueue message key now confirmationTokenId passwordResetTokenId hkey
  | claim _ _ _ _ _ job hclaim hfresh =>
      exact h.claim (claimable_spec hclaim).1 (isDue_failedAt (claimable_spec hclaim).2)
  | move _ _ _ _ hmove => exact h.move hphases hmove
  | settle _ _ _ _ hmove => exact h.settle hlease hphases hmove
  | cascade _ linked => exact h.cascade hlease linked

theorem fateInv_reachable {s : State} (h : Reachable s) : FateInv s :=
  Transition.Reachable.invariant_of
    (fun s => LeaseInv s ∧ PhaseInv s)
    (fun hr => ⟨leaseInv_reachable hr, phaseInv_reachable hr⟩)
    (fun _ hinit => hinit ▸ fateInv_empty)
    (fun _ l _ hfact hinv _ hs => fateInv_step l hfact.1 hfact.2 hinv hs) h

/-! ### The conditions -/

theorem FateInv.exists_condition {s : State} (h : FateInv s) {id : Nat} {message : EmailMessage}
    (henq : .enqueued id message ∈ s.log) : ∃ condition, s.Fate id message condition := by
  obtain ⟨row, hrow, rfl⟩ | hcomp | hdel := h.accounted id message henq
  · obtain ⟨other, henq', hcondition⟩ := h.stored row hrow
    obtain rfl := h.enqueued_unique row.id message other henq henq'
    obtain hwaiting | hfailed := hcondition
    · exact ⟨.waiting, row, hrow, rfl, hwaiting⟩
    · exact ⟨.failed, row, hrow, rfl, hfailed⟩
  · obtain ⟨other, henq', hdelivered⟩ := h.completed id hcomp
    obtain rfl := h.enqueued_unique id message other henq henq'
    exact ⟨.delivered, h.removed id (Or.inl hcomp), hdelivered⟩
  · exact ⟨.unlinked, h.removed id (Or.inr hdel), hdel⟩

theorem FateInv.condition_unique {s : State} (h : FateInv s) (hlease : LeaseInv s) {id : Nat}
    {message : EmailMessage} {first second : Condition} (hfirst : s.Fate id message first)
    (hsecond : s.Fate id message second) : first = second := by
  -- A stored row is waiting or failed, never both, as there is one row of each id.
  have hrow : ∀ row ∈ s.jobs, ∀ row' ∈ s.jobs, row.id = id → row'.id = id →
      RowWaiting message row → ¬ RowFailed row' := by
    intro row hmem row' hmem' hid hid' hwaiting hfailed
    rw [hlease.eq_of_id_eq hmem hmem' (hid.trans hid'.symm)] at hwaiting
    simp [RowFailed, hwaiting.1] at hfailed
  cases first <;> cases second
  case waiting.waiting | failed.failed | delivered.delivered | unlinked.unlinked => rfl
  case waiting.failed =>
    obtain ⟨row, hmem, hid, hwaiting⟩ := hfirst
    obtain ⟨row', hmem', hid', hfailed⟩ := hsecond
    exact absurd hfailed (hrow row hmem row' hmem' hid hid' hwaiting)
  case failed.waiting =>
    obtain ⟨row, hmem, hid, hfailed⟩ := hfirst
    obtain ⟨row', hmem', hid', hwaiting⟩ := hsecond
    exact absurd hfailed (hrow row' hmem' row hmem hid' hid hwaiting)
  case waiting.delivered | waiting.unlinked | failed.delivered | failed.unlinked =>
    obtain ⟨row, hmem, hid, _⟩ := hfirst
    exact absurd hid (hsecond.1 row hmem)
  case delivered.waiting | unlinked.waiting | delivered.failed | unlinked.failed =>
    obtain ⟨row, hmem, hid, _⟩ := hsecond
    exact absurd hid (hfirst.1 row hmem)
  case delivered.unlinked => exact absurd hsecond.2 (h.removed_once id hfirst.2.completed)
  case unlinked.delivered => exact absurd hfirst.2 (h.removed_once id hsecond.2.completed)

/-! ### Failed jobs -/

/-- No claim can take the job any more. -/
def Stopped (s : State) (id : Nat) : Prop :=
  id < s.nextId ∧ ∀ row ∈ s.jobs, row.id = id → row.failedAt ≠ none

/-- The claims of one job. -/
def claimsOf (log : List Entry) (id : Nat) : List ClaimedEmailJob :=
  (claims log).filter (·.id == id)

theorem SettleMove.failedAt_mono {phase : Phase} {claimed : ClaimedEmailJob}
    {settlement : Settlement} {change : EmailOutboxJob → Option EmailOutboxJob}
    (hmove : SettleMove phase claimed settlement change) {row row' : EmailOutboxJob}
    (hrow : change row = some row') (hfailed : row.failedAt ≠ none) : row'.failedAt ≠ none := by
  cases hmove <;> cases hrow
  · exact hfailed
  · simp

theorem stopped_step {s s' : State} {l : Label} {id : Nat} (h : Stopped s id)
    (hs : step s l = some s') : Stopped s' id ∧ claimsOf s'.log id = claimsOf s.log id := by
  obtain ⟨hlt, hrows⟩ := h
  cases effect_of_step hs with
  | nothing => exact ⟨⟨hlt, hrows⟩, rfl⟩
  | enqueue =>
      refine ⟨⟨hlt.trans (Nat.lt_succ_self _), fun row hrow hid => ?_⟩, rfl⟩
      obtain hold | hnew := List.mem_append.mp hrow
      · exact hrows row hold hid
      · rw [List.mem_singleton.mp hnew] at hid
        exact absurd hid hlt.ne'
  | claim _ now leaseDuration _ lockToken job hclaim _ =>
      obtain ⟨hjob, hdue⟩ := claimable_spec hclaim
      have hother : job.id ≠ id := fun hid => hrows job hjob hid (isDue_failedAt hdue)
      refine ⟨⟨hlt, fun row hrow hid => ?_⟩, ?_⟩
      · obtain rfl | ⟨hold, _⟩ := mem_leaseRow hrow
        · exact absurd hid hother
        · exact hrows row hold hid
      · exact List.filter_cons_of_neg (by simpa [claimOn] using hother)
  | move _ _ _ _ hmove =>
      refine ⟨⟨hlt, hrows⟩, ?_⟩
      rw [claimsOf, claims_append, hmove.claims_eq_nil, List.nil_append, claimsOf]
  | settle _ _ _ _ hmove =>
      refine ⟨⟨hlt, fun row' hrow' hid => ?_⟩, rfl⟩
      obtain ⟨row, hrow, hchange⟩ := List.mem_filterMap.mp hrow'
      split at hchange
      · refine hmove.failedAt_mono hchange (hrows row hrow ?_)
        exact (hmove.spec.2 row row' hchange).1.symm.trans hid
      · cases hchange
        exact hrows row' hrow hid
  | cascade =>
      refine ⟨⟨hlt, fun row hrow => hrows row (List.mem_filter.mp hrow).1⟩, ?_⟩
      rw [State.cascade, claimsOf, claims_cascade, claimsOf]

theorem stopped_run {s s' : State} {id : Nat} (h : Stopped s id) (labels : List Label)
    (hrun : Transition.run step s labels = some s') :
    Stopped s' id ∧ claimsOf s'.log id = claimsOf s.log id := by
  induction labels using List.reverseRecOn generalizing s' with
  | nil =>
      cases hrun
      exact ⟨h, rfl⟩
  | append_singleton labels l ih =>
      rw [Transition.run_concat, Option.bind_eq_some_iff] at hrun
      obtain ⟨t, ht, hs⟩ := hrun
      obtain ⟨hstopped, hsame⟩ := ih ht
      obtain ⟨hstopped', hsame'⟩ := stopped_step hstopped hs
      exact ⟨hstopped', hsame'.trans hsame⟩

theorem failing_step {s s' : State} {l : Label} (hlease : LeaseInv s) (hphases : PhaseInv s)
    (hs : step s l = some s') {row row' : EmailOutboxJob} (hrow : row ∈ s.jobs)
    (hrow' : row' ∈ s'.jobs) (hid : row'.id = row.id) (hbefore : row.failedAt = none)
    (hafter : row'.failedAt ≠ none) (hlt : row.id < s.nextId) :
    ∃ worker claimed error failedAt, l = .settle worker
      ∧ s.worker worker = .raised claimed error failedAt
      ∧ s.currentClaim row.id = some claimed ∧ .sendRaised claimed error ∈ s.log
      ∧ (error.retryable = false ∨ maxAttempts ≤ claimed.attempts) := by
  have hsame : ∀ other ∈ s.jobs, other.id = row.id → other.failedAt = none :=
    fun other hother heq => hlease.eq_of_id_eq hother hrow heq ▸ hbefore
  cases effect_of_step hs with
  | nothing => exact absurd (hsame row' hrow' hid) hafter
  | enqueue =>
      obtain hold | hnew := List.mem_append.mp hrow'
      · exact absurd (hsame row' hold hid) hafter
      · rw [List.mem_singleton.mp hnew] at hid
        exact absurd hid hlt.ne'
  | claim _ _ _ _ _ job hclaim _ =>
      obtain rfl | ⟨hold, _⟩ := mem_leaseRow hrow'
      · exact absurd (isDue_failedAt (claimable_spec hclaim).2) hafter
      · exact absurd (hsame row' hold hid) hafter
  | move => exact absurd (hsame row' hrow' hid) hafter
  | cascade => exact absurd (hsame row' (List.mem_filter.mp hrow').1 hid) hafter
  | settle worker claimed settlement change hmove =>
      obtain ⟨other, hother, hchange⟩ := List.mem_filterMap.mp hrow'
      split at hchange
      · rename_i hown
        have hotherId : other.id = row.id :=
          (hmove.spec.2 other row' hchange).1.symm.trans hid
        have hclaimedId : claimed.id = row.id := (ownedBy_iff.mp hown).1.symm.trans hotherId
        have hcurrent := hlease.currentClaim_of_owned ((hphases worker).job_mem hmove.spec.1)
          hother hown
        have hphase := hphases worker
        generalize heq : s.worker worker = phase at hmove hphase
        cases hmove with
        | complete => cases hchange
        | retryLater =>
            cases hchange
            exact absurd (hsame other hother hotherId) hafter
        | fail _ error failedAt hstop =>
            refine ⟨worker, claimed, error, failedAt, rfl, heq, hclaimedId ▸ hcurrent, hphase.2, ?_⟩
            rw [not_and_or, Bool.not_eq_true, not_lt] at hstop
            exact hstop
      · cases hchange
        exact absurd (hsame row' hother hid) hafter

/-- **No message is lost, forged or sent erased.** In every reachable state every enqueued job is in
exactly one of the four conditions, a job whose retries stopped is claimed in no continuation,
whatever a sender is handed was enqueued under that id, and only the current claimant stops the
retries, after a permanent error or on the last attempt. -/
theorem enqueued_job_has_one_condition {s : State} (h : Reachable s) :
    (∀ id message, .enqueued id message ∈ s.log → ∃! condition, s.Fate id message condition)
    ∧ (∀ row ∈ s.jobs, row.failedAt ≠ none → ∀ labels s',
      Transition.run step s labels = some s' → claimsOf s'.log row.id = claimsOf s.log row.id)
    ∧ (∀ claimed, .handed claimed ∈ s.log → .enqueued claimed.id claimed.message ∈ s.log)
    ∧ ∀ l s', step s l = some s' → ∀ row ∈ s.jobs, ∀ row' ∈ s'.jobs, row'.id = row.id →
      row.failedAt = none → row'.failedAt ≠ none →
      ∃ worker claimed error failedAt, l = .settle worker
        ∧ s.worker worker = .raised claimed error failedAt
        ∧ s.currentClaim row.id = some claimed ∧ .sendRaised claimed error ∈ s.log
        ∧ (error.retryable = false ∨ maxAttempts ≤ claimed.attempts) := by
  have hlease := leaseInv_reachable h
  have hphases := phaseInv_reachable h
  have hfate := fateInv_reachable h
  refine ⟨fun id message henq => ?_, fun row hrow hfailed labels s' hrun => ?_, ?_, ?_⟩
  · obtain ⟨condition, hcondition⟩ := hfate.exists_condition henq
    exact ⟨condition, hcondition, fun other hother =>
      hfate.condition_unique hlease hother hcondition⟩
  · have hstopped : Stopped s row.id := by
      refine ⟨hlease.ids_lt row hrow, fun other hother hid => ?_⟩
      exact hlease.eq_of_id_eq hother hrow hid ▸ hfailed
    exact (stopped_run hstopped labels hrun).2
  · exact fun claimed hmem => hfate.claimed claimed (hfate.handed claimed hmem)
  · intro l s' hs row hrow row' hrow' hid hbefore hafter
    exact failing_step hlease hphases hs hrow hrow' hid hbefore hafter (hlease.ids_lt row hrow)

/-- A message that the provider refuses for good. -/
def refusedRun : List Label :=
  [.enqueue ⟨"a@x.lt", "Subject", "Text", "Html", none, some "key"⟩ 0 none none,
    .claim 0 0 120 [] "first", .handOver 0,
    .sendRaises 0 ⟨"invalid address", false, none, none⟩ 1, .settle 0]

theorem enqueued_job_has_one_condition_refused :
    ∃ s, Transition.run step State.empty refusedRun = some s
      ∧ ∃! condition, s.Fate 0 ⟨"a@x.lt", "Subject", "Text", "Html", none, some "key"⟩ condition := by
  have hreach := reachable_of_run refusedRun rfl
  exact ⟨_, rfl, (enqueued_job_has_one_condition hreach).1 0 _ (by decide)⟩

end EventsApi.EmailOutbox
