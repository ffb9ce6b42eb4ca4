import EventsApi.Library.ReadCommitted.TableStep

/-!
# All or nothing

A row that a transaction inserts is seen by nobody else until the transaction commits, and is gone
for good if it never does. A request that commits last of all has therefore left nothing behind if
it ended in an error.
-/

namespace ReadCommitted

variable {S : Schema} {Req ε α β : Type}

/-! ### What a program goes on with -/

/-- Every operation the program may come to, and what it goes on with. -/
def Prog.Each (P : ∀ β : Type, Op S β → (β → Prog S ε α) → Prop) : Prog S ε α → Prop
  | .pure _ => True
  | .raise _ => True
  | .exec op next => P _ op next ∧ ∀ answer, (next answer).Each P

theorem Prog.Each.of_all {P : ∀ β : Type, Op S β → Prop} {p : Prog S ε α} (h : p.All P) :
    p.Each fun β op _ => P β op := by
  induction p with
  | pure | raise => trivial
  | exec op next ih => exact ⟨h.1, fun answer => ih answer (h.2 answer)⟩

/-- A commit is the end of the program. -/
def EndsProgram (β : Type) (op : Op S β) (next : β → Prog S ε α) : Prop :=
  op.kind = .commit → ∀ answer, ∃ value, next answer = .pure value

def Prog.CommitsLast (p : Prog S ε α) : Prop := p.Each EndsProgram

def Uncommitting (β : Type) (op : Op S β) : Prop := op.kind ≠ .commit

theorem Prog.CommitsLast.bind {p : Prog S ε α} {next : α → Prog S ε β} (h : p.All Uncommitting)
    (hnext : ∀ value, (next value).CommitsLast) : (p.bind next).CommitsLast := by
  induction p with
  | pure value => exact hnext value
  | raise error => trivial
  | exec op rest ih =>
      exact ⟨fun hcommit => absurd hcommit h.1, fun answer => ih answer (h.2 answer)⟩

/-- A program that commits last of all is safe if its other operations keep an assertion, and a
commit from there keeps the discipline. -/
theorem Discipline.Safe.of_commitsLast {Req : Type} {D : Discipline S Req} {t : Txn}
    {P : ∀ β : Type, Op S β → Prop} {J : World S Req → Prop} (hstable : D.Stable t J)
    (hkeeps : ∀ {β : Type} {op : Op S β} {w w' : World S Req} {choice : Choice} {answer : β},
      P β op → op.kind ≠ .commit → J w → w.Sound → D.inv w →
      op.exec t choice w = some (answer, w') → D.Keeps t w w' ∧ J w')
    (hcommit : ∀ {w : World S Req}, J w → w.Sound → D.inv w → D.allowed t w .commit →
      D.Keeps t w ((w.finish t true).note t .committed))
    {p : Prog S ε α} (hall : p.All P) (hlast : p.CommitsLast) {w : World S Req} (h : J w) :
    D.Safe t (fun _ _ => True) p w := by
  induction p generalizing w with
  | pure | raise => trivial
  | exec op next ih =>
      intro w₁ hw hallowed choice answer w₂ hexec
      by_cases hkind : op.kind = .commit
      · obtain ⟨value, hvalue⟩ := hlast.1 hkind answer
        rw [hvalue]
        cases op with
        | commit =>
            obtain rfl := exec_commit hexec
            exact ⟨hcommit (hstable h hw) hw.sound hw.inv hallowed, trivial⟩
        | select | lock | insert | now | draw => cases hkind
      · obtain ⟨hkeep, hJ⟩ := hkeeps hall.1 hkind (hstable h hw) hw.sound hw.inv hexec
        exact ⟨hkeep, ih answer (hall.2 answer) (hlast.2 answer) hJ⟩

/-- An insertion that a unique constraint refuses ends the program with this error. -/
def RefusedWith (error : ε) : (β : Type) → Op S β → (β → Prog S ε α) → Prop
  | _, .insert _ _, next => next none = .raise error
  | _, _, _ => True

theorem Prog.Each.bind_refusedWith {error : ε} {p : Prog S ε α} {next : α → Prog S ε β}
    (h : p.Each (RefusedWith error)) (hnext : ∀ value, (next value).Each (RefusedWith error)) :
    (p.bind next).Each (RefusedWith error) := by
  induction p with
  | pure value => exact hnext value
  | raise error => trivial
  | exec op rest ih =>
      refine ⟨?_, fun answer => ih answer (h.2 answer)⟩
      cases op with
      | insert T row => exact congrArg (Prog.bind · next) h.1
      | select | lock | commit | now | draw => trivial

theorem Prog.CommitsLast.mapError {f : ε → ε} {p : Prog S ε α} (h : p.CommitsLast) :
    (p.mapError f).CommitsLast := by
  induction p with
  | pure | raise => trivial
  | exec op rest ih =>
      refine ⟨fun hcommit answer => ?_, fun answer => ih answer (h.2 answer)⟩
      obtain ⟨value, hvalue⟩ := h.1 hcommit answer
      exact ⟨value, congrArg (Prog.mapError f) hvalue⟩

/-- Nothing but a value comes after the program. -/
theorem Prog.CommitsLast.bind_pure {p : Prog S ε α} {f : α → β} (h : p.CommitsLast) :
    (p.bind fun value => .pure (f value)).CommitsLast := by
  induction p with
  | pure | raise => trivial
  | exec op rest ih =>
      refine ⟨fun hcommit answer => ?_, fun answer => ih answer (h.2 answer)⟩
      obtain ⟨value, hvalue⟩ := h.1 hcommit answer
      exact ⟨f value, congrArg (Prog.bind · fun value => .pure (f value)) hvalue⟩

theorem Prog.Each.mapError_refusedWith {f : ε → ε} {error : ε} {p : Prog S ε α}
    (h : p.Each (RefusedWith error)) : (p.mapError f).Each (RefusedWith (f error)) := by
  induction p with
  | pure | raise => trivial
  | exec op rest ih =>
      refine ⟨?_, fun answer => ih answer (h.2 answer)⟩
      cases op with
      | insert T row => exact congrArg (Prog.mapError f) h.1
      | select | lock | commit | now | draw => trivial

def Uninserting : (β : Type) → Op S β → Prop
  | _, .insert _ _ => False
  | _, _ => True

theorem Prog.Each.of_uninserting {error : ε} {p : Prog S ε α} (h : p.All Uninserting) :
    p.Each (RefusedWith error) := by
  induction p with
  | pure | raise => trivial
  | exec op rest ih =>
      refine ⟨?_, fun answer => ih answer (h.2 answer)⟩
      cases op with
      | insert T row => exact h.1.elim
      | select | lock | commit | now | draw => trivial

section Systems

variable {system : System S Req ε α} {init : Config S Req ε α → Prop}
  {allowed : Config S Req ε α → Label Req → Prop} {c c' : Config S Req ε α} {t u : Txn}
  {l : Label Req} {w w' : World S Req}

/-- A client takes its steps along its own program. -/
theorem System.client_cases (h : system.step c l = some c') (t : Txn) :
    c'.client t = c.client t
      ∨ (∃ request, c.client t = none ∧ c'.world.request t = some request
        ∧ c'.client t = some (system.handler request))
      ∨ (∃ (β : Type) (op : Op S β) (next : β → Prog S ε α) (choice : Choice) (answer : β),
        l = .exec t choice ∧ c.client t = some (.exec op next)
          ∧ op.exec t choice c.world = some (answer, c'.world)
          ∧ c'.client t = some (next answer))
      ∨ ∃ (β : Type) (op : Op S β) (next : β → Prog S ε α), c.client t = some (.exec op next)
        ∧ c'.client t = some (.raise system.lost) ∧ c'.world = c.world.finish t false := by
  cases l with
  | spawn u request =>
      simp only [System.step] at h
      split at h
      · cases h
      · rename_i hnone
        cases h
        by_cases ht : t = u
        · subst ht
          exact .inr (.inl ⟨request, hnone, by simp, by simp⟩)
        · exact .inl (by simp [ht])
  | exec u choice =>
      simp only [System.step] at h
      split at h
      · rename_i op next hclient
        split at h
        · cases h
        · rename_i answer world hexec
          cases h
          by_cases ht : t = u
          · subst ht
            exact .inr (.inr (.inl ⟨_, op, next, choice, answer, rfl, hclient, hexec, by simp⟩))
          · exact .inl (by simp [ht])
      · cases h
  | close u =>
      simp only [System.step] at h
      split at h
      · cases h
        exact .inl rfl
      · cases h
        exact .inl rfl
      · cases h
  | crash u =>
      simp only [System.step] at h
      split at h
      · rename_i op next hclient
        cases h
        by_cases ht : t = u
        · subst ht
          exact .inr (.inr (.inr ⟨_, op, next, hclient, by simp, rfl⟩))
        · exact .inl (by simp [ht])
      · cases h
  | tick duration =>
      cases h
      exact .inl rfl

/-- A client's request does not change. -/
theorem System.step_request (h : system.step c l = some c') (hclient : c.client t ≠ none) :
    c'.world.request t = c.world.request t := by
  cases l with
  | spawn u request =>
      simp only [System.step] at h
      split at h
      · cases h
      · rename_i hnone
        cases h
        have ht : t ≠ u := by
          rintro rfl
          exact hclient hnone
        simp [ht]
  | exec u choice =>
      simp only [System.step] at h
      split at h
      · split at h
        · cases h
        · rename_i hexec
          cases h
          exact congrFun (Op.exec_request hexec) t
      · cases h
  | close u =>
      simp only [System.step] at h
      split at h
      · cases h
        rfl
      · cases h
        rfl
      · cases h
  | crash u =>
      simp only [System.step] at h
      split at h
      · cases h
        rfl
      · cases h
  | tick duration =>
      cases h
      rfl

/-- What every handler goes by is true of every client. -/
theorem System.each_of_handler {P : Req → ∀ β : Type, Op S β → (β → Prog S ε α) → Prop}
    (hhandler : ∀ request, (system.handler request).Each (P request))
    (hinit : ∀ c, init c → ∀ t, c.client t = none)
    (h : Transition.Reachable system.step init allowed c) :
    ∀ t p, c.client t = some p → ∃ request, c.world.request t = some request
      ∧ p.Each (P request) := by
  induction h with
  | start hc =>
      intro t p hclient
      rw [hinit _ hc t] at hclient
      cases hclient
  | next _ _ hstep ih =>
    intro t p hclient
    obtain hsame | ⟨request, _, hrequest, hnew⟩ | ⟨_, op, next, _, answer, _, hold, _, hnew⟩ |
      ⟨_, _, _, hold, hnew, _⟩ := System.client_cases hstep t
    · have hold := hsame.symm.trans hclient
      rw [System.step_request hstep (by rw [hold]; exact Option.some_ne_none p)]
      exact ih t p hold
    · cases hnew.symm.trans hclient
      exact ⟨request, hrequest, hhandler request⟩
    · cases hnew.symm.trans hclient
      rw [System.step_request hstep (by rw [hold]; exact Option.some_ne_none _)]
      obtain ⟨request, hrequest, heach⟩ := ih t _ hold
      exact ⟨request, hrequest, heach.2 answer⟩
    · cases hnew.symm.trans hclient
      rw [System.step_request hstep (by rw [hold]; exact Option.some_ne_none _)]
      obtain ⟨request, hrequest, _⟩ := ih t _ hold
      exact ⟨request, hrequest, trivial⟩

/-- Only the commit of a transaction commits it. -/
theorem System.step_hasCommitted (h : system.step c l = some c')
    (hcommitted : c'.world.HasCommitted t) : c.world.HasCommitted t
      ∨ ∃ (β : Type) (op : Op S β) (next : β → Prog S ε α) (answer : β),
        c.client t = some (.exec op next) ∧ op.kind = .commit
          ∧ c'.client t = some (next answer) := by
  cases l with
  | spawn u request =>
      simp only [System.step] at h
      split at h
      · cases h
      · cases h
        exact .inl hcommitted
  | exec u choice =>
      simp only [System.step] at h
      split at h
      · rename_i op next hclient
        split at h
        · cases h
        · rename_i answer world hexec
          cases h
          by_contra hnot
          obtain ⟨hopen, hnot⟩ := not_or.mp hnot
          by_cases hkind : op.kind = .commit
          · by_cases ht : t = u
            · subst ht
              exact hnot ⟨_, op, next, answer, hclient, hkind, by simp⟩
            · cases op with
              | commit =>
                  obtain rfl := exec_commit hexec
                  obtain ⟨e, he, hown, hevent⟩ := hcommitted
                  obtain rfl | he := List.mem_cons.mp he
                  · exact ht hown.symm
                  · exact hopen ⟨e, he, hown, hevent⟩
              | select | lock | insert | now | draw => cases hkind
          · exact Op.exec_uncommitted hkind hexec hopen hcommitted
      · cases h
  | close u =>
      simp only [System.step] at h
      split at h
      · cases h
        exact .inl hcommitted
      · cases h
        exact .inl hcommitted
      · cases h
  | crash u =>
      simp only [System.step] at h
      split at h
      · cases h
        exact .inl hcommitted
      · cases h
  | tick duration =>
      cases h
      exact .inl hcommitted

/-- A client that has not returned has not committed. -/
theorem System.uncommitted_of_commitsLast
    (hhandler : ∀ request, (system.handler request).CommitsLast)
    (hinit : ∀ c, init c → c.Initial) (h : Transition.Reachable system.step init allowed c) (t : Txn)
    (hreturned : ∀ value, c.client t ≠ some (.pure value)) : ¬ c.world.HasCommitted t := by
  induction h with
  | start hc =>
      rintro ⟨e, he, _⟩
      rw [(hinit _ hc).1.untraced] at he
      cases he
  | @next c c' l hreach _ hstep ih =>
      intro hcommitted
      have hlast := System.each_of_handler (P := fun _ => EndsProgram) hhandler
        (fun c hc => (hinit c hc).2) hreach t
      have hopen : ∀ value, c.client t ≠ some (.pure value) := by
        intro value hclient
        obtain hsame | ⟨_, hnone, _⟩ | ⟨_, _, _, _, _, _, hexec, _⟩ | ⟨_, _, _, hexec, _⟩ :=
          System.client_cases hstep t
        · exact hreturned value (hsame.trans hclient)
        · cases hnone.symm.trans hclient
        · cases hexec.symm.trans hclient
        · cases hexec.symm.trans hclient
      obtain hcommitted | ⟨_, op, next, answer, hclient, hkind, hnew⟩ :=
        System.step_hasCommitted hstep hcommitted
      · exact ih hopen hcommitted
      · obtain ⟨_, _, hends, _⟩ := hlast _ hclient
        obtain ⟨value, hvalue⟩ := hends hkind answer
        exact hreturned value (hnew.trans (congrArg some hvalue))

end Systems

/-! ### Inserted rows -/

/-- Every row has one inserter, and until that has committed nobody else has anything to do with
it. -/
structure Attributed (w : World S Req) : Prop where
  below : ∀ e ∈ w.trace, ∀ T id, e.event = .inserted T id → id < w.next T
  once : ∀ e ∈ w.trace, ∀ e' ∈ w.trace, ∀ T id, e.event = .inserted T id →
    e'.event = .inserted T id → e.txn = e'.txn
  unseen : ∀ e ∈ w.trace, ∀ T id, e.event = .inserted T id → ¬ w.HasCommitted e.txn →
    (w.slot T id).committed = none
      ∧ ∀ u version, (w.slot T id).held = some (u, version) → u = e.txn

section Attributed

variable {w w' : World S Req} {t : Txn}

theorem World.HasCommitted.note (h : w.HasCommitted t) (u : Txn) (event : Event S) :
    (w.note u event).HasCommitted t := by
  obtain ⟨e, he, hrest⟩ := h
  exact ⟨e, List.mem_cons_of_mem _ he, hrest⟩

/-- What is noted is no insertion, so the insertions are the old ones. -/
theorem World.inserted_of_note {event : Event S} (hevent : ∀ T id, event ≠ .inserted T id) :
    ∀ e ∈ (w.note t event).trace, ∀ T id, e.event = .inserted T id → e ∈ w.trace := by
  intro e he T id hinserted
  obtain rfl | he := List.mem_cons.mp he
  · exact absurd hinserted (hevent T id)
  · exact he

theorem Attributed.note (h : Attributed w) (t : Txn) {event : Event S}
    (hevent : ∀ T id, event ≠ .inserted T id) : Attributed (w.note t event) := by
  have hold := World.inserted_of_note (w := w) (t := t) hevent
  constructor
  · exact fun e he T id hinserted => h.below e (hold e he T id hinserted) T id hinserted
  · intro e he e' he' T id hinserted hinserted'
    exact h.once e (hold e he T id hinserted) e' (hold e' he' T id hinserted') T id hinserted
      hinserted'
  · intro e he T id hinserted hopen
    exact h.unseen e (hold e he T id hinserted) T id hinserted fun hdone => hopen (hdone.note t event)

theorem Attributed.write (h : Attributed w) {T : S.Table} {id : Nat} {row : S.Row T}
    (hview : (w.slot T id).view t = some row) (version : Option (S.Row T)) :
    Attributed (w.write t T id version) where
  below := h.below
  once := h.once
  unseen e he T' id' hinserted hopen := by
    obtain ⟨hcommitted, hheld⟩ := h.unseen e he T' id' hinserted hopen
    refine ⟨(write_committed id version T' id').trans hcommitted, fun u version' hheld' => ?_⟩
    by_cases hsame : T' = T ∧ id' = id
    · obtain ⟨rfl, rfl⟩ := hsame
      rw [World.write_slot_self] at hheld'
      cases hheld'
      by_cases hown : (w.slot T' id').HeldBy t
      · obtain ⟨own, hown⟩ := hown
        exact hheld t own hown
      · rw [Slot.view_eq_committed hown, hcommitted] at hview
        cases hview
    · rw [World.write_slot_of_ne version hsame] at hheld'
      exact hheld u version' hheld'

theorem Attributed.insert (h : Attributed w) (hsound : w.Sound) (T : S.Table) (row : S.Row T) :
    Attributed ((w.allocate t T row).note t (.inserted T (w.next T))) := by
  have hnext : ∀ T', w.next T' ≤ (w.allocate t T row).next T' :=
    (others_allocate hsound (Nat.succ_ne_self t) row).next_le
  have hnew : ∀ {T' id'}, (Event.inserted T (w.next T) : Event S) = .inserted T' id' →
      T' = T ∧ id' = w.next T := by
    rintro _ _ ⟨⟩
    exact ⟨rfl, rfl⟩
  have hfree : ∀ e ∈ w.trace, e.event ≠ .inserted T (w.next T) :=
    fun e he hinserted => (h.below e he T _ hinserted).ne rfl
  constructor
  · intro e he T' id' hinserted
    obtain rfl | he := List.mem_cons.mp he
    · obtain ⟨rfl, rfl⟩ := hnew hinserted
      simp [World.note, World.allocate]
    · exact (h.below e he T' id' hinserted).trans_le (hnext T')
  · intro e he e' he' T' id' hinserted hinserted'
    obtain rfl | he := List.mem_cons.mp he
    · obtain ⟨rfl, rfl⟩ := hnew hinserted
      obtain rfl | he' := List.mem_cons.mp he'
      · rfl
      · exact absurd hinserted' (hfree e' he')
    · obtain rfl | he' := List.mem_cons.mp he'
      · obtain ⟨rfl, rfl⟩ := hnew hinserted'
        exact absurd hinserted (hfree e he)
      · exact h.once e he e' he' T' id' hinserted hinserted'
  · intro e he T' id' hinserted hopen
    change ((w.write t T (w.next T) (some row)).slot T' id').committed = none ∧ ∀ u version,
      ((w.write t T (w.next T) (some row)).slot T' id').held = some (u, version) → u = e.txn
    obtain rfl | he := List.mem_cons.mp he
    · obtain ⟨rfl, rfl⟩ := hnew hinserted
      rw [World.write_slot_self, hsound.beyond _ _ le_rfl]
      refine ⟨rfl, ?_⟩
      rintro u version ⟨⟩
      rfl
    · have hne : ¬ (T' = T ∧ id' = w.next T) := by
        rintro ⟨rfl, rfl⟩
        exact hfree e he hinserted
      rw [World.write_slot_of_ne _ hne]
      exact h.unseen e he T' id' hinserted fun hdone => hopen (hdone.note t _)

/-- The end of a transaction takes the rows with it that it has not committed. -/
theorem Attributed.finish (h : Attributed w) (t : Txn) : Attributed (w.finish t false) where
  below := h.below
  once := h.once
  unseen e he T id hinserted hopen := by
    obtain ⟨hcommitted, hheld⟩ := h.unseen e he T id hinserted hopen
    refine ⟨Slot.release_false_committed.trans hcommitted, fun u version hheld' => ?_⟩
    rw [(World.held_of_finish hheld').2] at hheld'
    exact hheld u version hheld'

theorem Attributed.commit (h : Attributed w) (t : Txn) :
    Attributed ((w.finish t true).note t .committed) := by
  have hold : ∀ e ∈ ((w.finish t true).note t .committed).trace, ∀ T id,
      e.event = .inserted T id → e ∈ w.trace := World.inserted_of_note nofun
  constructor
  · exact fun e he T id hinserted => h.below e (hold e he T id hinserted) T id hinserted
  · intro e he e' he' T id hinserted hinserted'
    exact h.once e (hold e he T id hinserted) e' (hold e' he' T id hinserted') T id hinserted
      hinserted'
  · intro e he T id hinserted hopen
    have hne : e.txn ≠ t := by
      rintro rfl
      exact hopen ⟨_, List.mem_cons_self, rfl, rfl⟩
    obtain ⟨hcommitted, hheld⟩ := h.unseen e (hold e he T id hinserted) T id hinserted
      fun hdone => hopen (World.HasCommitted.note hdone t _)
    have hfree : ¬ (w.slot T id).HeldBy t := fun ⟨version, hown⟩ => hne (hheld t version hown).symm
    change ((w.slot T id).release t true).committed = none
      ∧ ∀ u version, ((w.slot T id).release t true).held = some (u, version) → u = e.txn
    rw [Slot.release_of_not_held true hfree]
    exact ⟨hcommitted, hheld⟩

theorem Attributed.exec {op : Op S β} {choice : Choice} {answer : β} (h : Attributed w)
    (hsound : w.Sound) (hexec : op.exec t choice w = some (answer, w')) : Attributed w' := by
  cases op with
  | select T p =>
      obtain ⟨rfl, _⟩ := exec_select hexec
      exact h.note t (by rintro _ _ ⟨⟩)
  | lock T id p f =>
      obtain ⟨_, ⟨_, _, rfl⟩ | ⟨row, hview, ⟨_, _, rfl⟩ | ⟨_, _, rfl⟩⟩⟩ := exec_lock hexec
      · exact h
      · exact (h.write hview _).note t (by rintro _ _ ⟨⟩)
      · exact h.write hview _
  | insert T row =>
      obtain ⟨_, ⟨_, _, rfl⟩ | ⟨_, _, rfl⟩⟩ := exec_insert hexec
      · exact h
      · exact h.insert hsound T _
  | commit =>
      obtain rfl := exec_commit hexec
      exact h.commit t
  | now =>
      obtain ⟨_, rfl⟩ := exec_now hexec
      exact h
  | draw =>
      obtain ⟨_, rfl⟩ := exec_draw hexec
      exact ⟨h.below, h.once, h.unseen⟩

variable {system : System S Req ε α} {init : Config S Req ε α → Prop}
  {allowed : Config S Req ε α → Label Req → Prop} {c c' : Config S Req ε α} {l : Label Req}

theorem System.step_attributed (h : system.step c l = some c') (hsound : c.world.Sound)
    (hinserted : Attributed c.world) : c'.world.Sound ∧ Attributed c'.world := by
  cases l with
  | spawn u request =>
      simp only [System.step] at h
      split at h
      · cases h
      · cases h
        exact ⟨⟨hsound.beyond, hsound.drawn_nodup⟩, hinserted.below, hinserted.once,
          hinserted.unseen⟩
  | exec u choice =>
      simp only [System.step] at h
      split at h
      · split at h
        · cases h
        · rename_i hexec
          cases h
          exact ⟨Op.exec_sound hsound hexec, hinserted.exec hsound hexec⟩
      · cases h
  | close u =>
      simp only [System.step] at h
      split at h
      · cases h
        exact ⟨hsound.finish false, hinserted.finish u⟩
      · cases h
        exact ⟨hsound.finish false, hinserted.finish u⟩
      · cases h
  | crash u =>
      simp only [System.step] at h
      split at h
      · cases h
        exact ⟨hsound.finish false, hinserted.finish u⟩
      · cases h
  | tick duration =>
      cases h
      exact ⟨⟨hsound.beyond, hsound.drawn_nodup⟩, hinserted.below, hinserted.once,
        hinserted.unseen⟩

theorem System.attributed (hinit : ∀ c, init c → c.Initial)
    (h : Transition.Reachable system.step init allowed c) : c.world.Sound ∧ Attributed c.world := by
  induction h with
  | start hc =>
      have huntraced := (hinit _ hc).1.untraced
      refine ⟨⟨(hinit _ hc).1.beyond, ?_⟩, ?_, ?_, ?_⟩
      · rw [(hinit _ hc).1.undrawn]
        exact List.nodup_nil
      all_goals
        rw [huntraced]
        exact fun e he => absurd he List.not_mem_nil
  | next _ _ hstep ih => exact System.step_attributed hstep ih.1 ih.2

/-- **All or nothing.** If programs commit last of all, a client that has not returned has left no
row that it inserted. -/
theorem System.inserted_unseen (hhandler : ∀ request, (system.handler request).CommitsLast)
    (hinit : ∀ c, init c → c.Initial) (h : Transition.Reachable system.step init allowed c)
    (hreturned : ∀ value, c.client t ≠ some (.pure value)) :
    ∀ e ∈ c.world.trace, e.txn = t → ∀ T id, e.event = .inserted T id →
      (c.world.slot T id).committed = none := by
  rintro e he rfl T id hinserted
  exact ((System.attributed hinit h).2.unseen e he T id hinserted
    (System.uncommitted_of_commitsLast hhandler hinit h e.txn hreturned)).1

end Attributed

end ReadCommitted
