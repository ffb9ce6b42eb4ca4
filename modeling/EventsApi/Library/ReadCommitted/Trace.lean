import EventsApi.Library.ReadCommitted.Atomic

/-!
# What a transaction did

An operation writes down at most one thing, of its own kind, so the trace tells what a transaction
has done and what it has not. A request that commits last of all and ends in an error has done
nothing that others see.
-/

namespace ReadCommitted

variable {S : Schema} {Req ε α β : Type}

def Event.kind : Event S → Kind S
  | .selected T _ => .select T
  | .locked T _ _ => .lock T
  | .inserted T _ => .insert T
  | .committed => .commit

/-- The transaction did something of this sort. -/
def Did (p : Event S → Bool) (t : Txn) (trace : List (Entry S)) : Prop :=
  ∃ e ∈ trace, e.txn = t ∧ p e.event = true

instance (p : Event S → Bool) (t : Txn) (trace : List (Entry S)) : Decidable (Did p t trace) :=
  inferInstanceAs (Decidable (∃ e ∈ trace, e.txn = t ∧ p e.event = true))

variable {p : Event S → Bool} {t u : Txn} {trace : List (Entry S)} {w w' : World S Req}
  {op : Op S β} {choice : Choice} {answer : β}

theorem did_cons {e : Entry S} :
    Did p t (e :: trace) ↔ e.txn = t ∧ p e.event = true ∨ Did p t trace :=
  List.exists_mem_cons_iff _ _ _

theorem Others.did (h : Others t w w') : Did p t w'.trace ↔ Did p t w.trace := by
  constructor
  · rintro ⟨e, he, hown, hevent⟩
    exact ⟨e, h.mem_trace_of_own he hown, hown, hevent⟩
  · rintro ⟨e, he, hown, hevent⟩
    exact ⟨e, h.trace_subset e he, hown, hevent⟩

theorem Op.exec_trace (h : op.exec t choice w = some (answer, w')) : w'.trace = w.trace
    ∨ ∃ event, event.kind = op.kind ∧ w'.trace = ⟨t, w.clock, event⟩ :: w.trace := by
  cases op with
  | select T p =>
      obtain ⟨rfl, _⟩ := exec_select h
      exact .inr ⟨_, rfl, rfl⟩
  | lock T id p f =>
      obtain ⟨_, ⟨_, _, rfl⟩ | ⟨row, _, ⟨_, _, rfl⟩ | ⟨_, _, rfl⟩⟩⟩ := exec_lock h
      · exact .inl rfl
      · exact .inr ⟨_, rfl, rfl⟩
      · exact .inl rfl
  | insert T row =>
      obtain ⟨_, ⟨_, _, rfl⟩ | ⟨_, _, rfl⟩⟩ := exec_insert h
      · exact .inl rfl
      · exact .inr ⟨_, rfl, rfl⟩
  | commit =>
      obtain rfl := exec_commit h
      exact .inr ⟨_, rfl, rfl⟩
  | now =>
      obtain ⟨_, rfl⟩ := exec_now h
      exact .inl rfl
  | draw =>
      obtain ⟨_, rfl⟩ := exec_draw h
      exact .inl rfl

/-- An operation of another kind does nothing of the sort. -/
theorem Op.exec_did (hp : ∀ event, event.kind = op.kind → p event = false)
    (h : op.exec t choice w = some (answer, w')) : Did p u w'.trace ↔ Did p u w.trace := by
  obtain htrace | ⟨event, hkind, htrace⟩ := Op.exec_trace h
  · rw [htrace]
  · rw [htrace, did_cons]
    refine ⟨fun hdid => hdid.resolve_left ?_, .inr⟩
    rintro ⟨_, hevent⟩
    rw [hp event hkind] at hevent
    cases hevent

/-! ### Requests that end in an error -/

def Label.client : Label Req → Option Txn
  | .spawn t _ | .exec t _ | .close t | .crash t => some t
  | .tick _ => none

section Systems

variable {system : System S Req ε α} {init : Config S Req ε α → Prop}
  {allowed : Config S Req ε α → Label Req → Prop} {c c' c'' : Config S Req ε α} {l : Label Req}

theorem System.step_trace_subset (h : system.step c l = some c') :
    ∀ e ∈ c.world.trace, e ∈ c'.world.trace := by
  cases l with
  | spawn u request =>
      simp only [System.step] at h
      split at h
      · cases h
      · cases h
        exact fun _ => id
  | exec u choice =>
      simp only [System.step] at h
      split at h
      · split at h
        · cases h
        · rename_i hexec
          cases h
          obtain htrace | ⟨_, _, htrace⟩ := Op.exec_trace hexec
          · exact fun e he => htrace ▸ he
          · exact fun e he => htrace ▸ List.mem_cons_of_mem _ he
      · cases h
  | close u =>
      simp only [System.step] at h
      split at h
      · cases h
        exact fun _ => id
      · cases h
        exact fun _ => id
      · cases h
  | crash u =>
      simp only [System.step] at h
      split at h
      · cases h
        exact fun _ => id
      · cases h
  | tick duration =>
      cases h
      exact fun _ => id

theorem System.hasCommitted_lasts
    (h : Transition.Reachable system.step (· = c) allowed c') (hcommitted : c.world.HasCommitted t) :
    c'.world.HasCommitted t := by
  induction h with
  | start hc => exact hc ▸ hcommitted
  | next _ _ hstep ih =>
      obtain ⟨e, he, hrest⟩ := ih
      exact ⟨e, System.step_trace_subset hstep e he, hrest⟩

/-- A step of a client changes a row that others see only by committing. -/
theorem System.step_committed_same (h : system.step c l = some c') (hl : l.client = some t)
    (hopen : ¬ c'.world.HasCommitted t) (T : S.Table) (id : Nat) :
    (c'.world.slot T id).committed = (c.world.slot T id).committed := by
  cases l with
  | spawn u request =>
      simp only [System.step] at h
      split at h
      · cases h
      · cases h
        rfl
  | exec u choice =>
      cases hl
      simp only [System.step] at h
      split at h
      · rename_i op next _
        split at h
        · cases h
        · rename_i hexec
          cases h
          apply Op.exec_committed (fun hkind => hopen ?_) hexec
          cases op with
          | commit =>
              obtain rfl := exec_commit hexec
              exact ⟨_, List.mem_cons_self, rfl, rfl⟩
          | select | lock | insert | now | draw => cases hkind
      · cases h
  | close u =>
      simp only [System.step] at h
      split at h
      · cases h
        exact Slot.release_false_committed
      · cases h
        exact Slot.release_false_committed
      · cases h
  | crash u =>
      simp only [System.step] at h
      split at h
      · cases h
        exact Slot.release_false_committed
      · cases h
  | tick duration => cases hl

/-- **No effect.** If programs commit last of all, no step of a client that ends in an error changes
a row that others see. -/
theorem System.committed_of_error (hhandler : ∀ request, (system.handler request).CommitsLast)
    (hinit : ∀ c, init c → c.Initial) (h : Transition.Reachable system.step init allowed c)
    (hallowed : allowed c l) (hstep : system.step c l = some c') (hl : l.client = some t)
    (hrest : Transition.Reachable system.step (· = c') allowed c'') {error : ε}
    (houtcome : c''.outcome t = some (.error error)) (T : S.Table) (id : Nat) :
    (c'.world.slot T id).committed = (c.world.slot T id).committed := by
  apply System.step_committed_same hstep hl fun hcommitted => ?_
  apply System.uncommitted_of_commitsLast hhandler hinit ((h.next hallowed hstep).trans hrest) t
  · intro value hclient
    cases (Config.client_of_outcome houtcome).symm.trans hclient
  · exact System.hasCommitted_lasts hrest hcommitted

end Systems

end ReadCommitted
