import EventsApi.Library.ReadCommitted.Atomic

/-!
# In the midst of others

What a program comes to when nothing is known of the others but that an assertion holds before each
of its operations.
-/

namespace ReadCommitted

variable {S : Schema} {Req ε α β : Type}

/-- Every way through the program that finds the assertion true before each operation ends like
this. -/
def Prog.Amid (t : Txn) (F : World S Req → Prop) (Q : Except ε α → Prop) : Prog S ε α → Prop
  | .pure value => Q (.ok value)
  | .raise error => Q (.error error)
  | .exec op next => ∀ w choice answer w', F w → op.exec t choice w = some (answer, w') →
      (next answer).Amid t F Q

namespace Prog.Amid

variable {t : Txn} {F : World S Req → Prop} {Q : Except ε α → Prop} {Q' : Except ε β → Prop}
  {p : Prog S ε α} {T : S.Table}

theorem bind {next : α → Prog S ε β} (h : p.Amid t F Q)
    (hok : ∀ value, Q (.ok value) → (next value).Amid t F Q')
    (herror : ∀ error, Q (.error error) → Q' (.error error)) : (p.bind next).Amid t F Q' := by
  induction p with
  | pure value => exact hok value h
  | raise error => exact herror error h
  | exec op rest ih =>
      exact fun w choice answer w' hF hexec => ih answer (h w choice answer w' hF hexec)

theorem perform_bind {op : Op S α} {next : α → Prog S ε β}
    (h : ∀ w choice answer w', F w → op.exec t choice w = some (answer, w') →
      (next answer).Amid t F Q') : (Prog.perform op >>= next).Amid t F Q' :=
  h

theorem scalar_bind {q : Nat → S.Row T → Bool} {next : Option (Nat × S.Row T) → Prog S ε β}
    (h : ∀ w choice rows w', F w → (Op.select T q).exec t choice w = some (rows, w') →
      (next rows.head?).Amid t F Q') : (Prog.scalar T q >>= next).Amid t F Q' :=
  h

/-- What is true of every version that matches is true of the rows that are locked. -/
theorem lockEach {q : Nat → S.Row T → Bool} {f : S.Row T → Option (S.Row T)} {J : S.Row T → Prop}
    (hJ : ∀ w id row, F w → (w.slot T id).HasVersion row → q id row = true → J row)
    (ids : List Nat) :
    (Prog.lockEach T q f ids : Prog S ε _).Amid t F fun r => ∃ rows, r = .ok rows
      ∧ ∀ e ∈ rows, J e.2 := by
  induction ids with
  | nil => exact ⟨[], rfl, nofun⟩
  | cons id ids ih =>
      intro w choice found w' hF hexec
      apply ih.bind
      · rintro value ⟨rows, ⟨⟩, hrows⟩
        refine ⟨_, rfl, fun e he => ?_⟩
        obtain he | he := List.mem_append.mp he
        · obtain ⟨row, hrow, rfl⟩ := Option.map_eq_some_iff.mp (Option.mem_toList.mp he)
          obtain ⟨_, ⟨_, hnone, _⟩ | ⟨seen, hview, ⟨hq, hseen, _⟩ | ⟨_, hnone, _⟩⟩⟩ := exec_lock hexec
          · cases hnone.symm.trans hrow
          · cases hseen.symm.trans hrow
            exact hJ w id row hF (Slot.hasVersion_of_view hview) hq
          · cases hnone.symm.trans hrow
        · exact hrows e he
      · rintro error ⟨_, ⟨⟩, _⟩

theorem scalarForUpdate {q : Nat → S.Row T → Bool} {J : S.Row T → Prop}
    (hJ : ∀ w id row, F w → (w.slot T id).HasVersion row → q id row = true → J row) :
    (Prog.scalarForUpdate T q : Prog S ε _).Amid t F fun r => ∃ found, r = .ok found
      ∧ ∀ e, found = some e → J e.2 := by
  intro w choice rows w' hF hexec
  apply (lockEach hJ _).bind
  · rintro value ⟨rows, ⟨⟩, hrows⟩
    exact ⟨_, rfl, fun e he => hrows e (List.mem_of_mem_head? he)⟩
  · rintro error ⟨_, ⟨⟩, _⟩

end Prog.Amid

/-- A row that is gone is not found. -/
theorem exec_select_gone {t : Txn} {choice : Choice} {w w' : World S Req} {T : S.Table}
    {q : Nat → S.Row T → Bool} {rows : List (Nat × S.Row T)} {id : Nat}
    (hq : ∀ id' row, q id' row = true → id' = id) (hgone : w.slot T id = Slot.empty)
    (h : (Op.select T q).exec t choice w = some (rows, w')) : rows = [] := by
  obtain ⟨_, _, hrows⟩ := exec_select h
  refine List.eq_nil_iff_forall_not_mem.mpr fun e he => ?_
  obtain ⟨_, hview, hmatch⟩ := (hrows e.1 e.2).mp he
  rw [hq _ _ hmatch, hgone] at hview
  cases hview

/-! ### Runs -/

variable {system : System S Req ε α} {allowed : Config S Req ε α → Label Req → Prop}
  {c c' : Config S Req ε α} {t : Txn} {F : World S Req → Prop} {Q : Except ε α → Prop}
  {request : Req}

/-- **The run.** A request that arrives when the assertion has come to hold for good ends like
this. -/
theorem System.outcome_amid
    (hF : ∀ c', Transition.Reachable system.step (· = c) allowed c' → F c'.world)
    (hlost : Q (.error system.lost)) (hhandler : (system.handler request).Amid t F Q)
    (hnew : c.client t = none) (h : Transition.Reachable system.step (· = c) allowed c')
    (hrequest : c'.world.request t = some request) {r : Except ε α}
    (houtcome : c'.outcome t = some r) : Q r := by
  have hclient : ∀ p, c'.client t = some p → p.Amid t F Q := by
    clear houtcome
    induction h with
    | start hc =>
        intro p hp
        rw [hc, hnew] at hp
        cases hp
    | @next d d' l hreach _ hstep ih =>
        intro p hp
        obtain hsame | ⟨request', _, hrequest', hspawned⟩ |
          ⟨_, op, next, choice, answer, _, hold, hexec, hnext⟩ | ⟨_, _, _, hold, hcrashed, _⟩ :=
          System.client_cases hstep t
        · have hold := hsame.symm.trans hp
          refine ih ?_ p hold
          rwa [← System.step_request hstep (by rw [hold]; exact Option.some_ne_none p)]
        · cases hspawned.symm.trans hp
          cases hrequest'.symm.trans hrequest
          exact hhandler
        · cases hnext.symm.trans hp
          have hrequest' : d.world.request t = some request := by
            rwa [← System.step_request hstep (by rw [hold]; exact Option.some_ne_none _)]
          exact ih hrequest' _ hold d.world choice answer d'.world (hF d hreach) hexec
        · cases hcrashed.symm.trans hp
          exact hlost
  have hend := hclient _ (Config.client_of_outcome houtcome)
  cases r with
  | ok value => exact hend
  | error error => exact hend

end ReadCommitted
