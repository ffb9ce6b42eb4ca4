import EventsApi.Library.ReadCommitted.Atomic
import Mathlib.Logic.Relation

/-!
# Who waits for whom

An operation on one row has to wait while another transaction holds the row. A policy says which
operations a transaction may come to, given what it holds, and a program is careful if it is safe and
comes to none against the policy, whether it goes on or has to wait. If every handler is careful, so
is every client in every reachable configuration.
-/

namespace ReadCommitted

variable {S : Schema} {Req ε α β : Type}

/-- The row that an operation locks. -/
def Op.wants : {β : Type} → Op S β → Option (S.Table × Nat)
  | _, .lock T id _ _ => some (T, id)
  | _, _ => none

/-- The row that a client is about to lock. -/
def Config.wants (c : Config S Req ε α) (t : Txn) : Option (S.Table × Nat) :=
  match c.client t with
  | some (.exec op _) => op.wants
  | _ => none

/-- The client is about to lock a row that another one holds. -/
def Config.WaitsFor (c : Config S Req ε α) (t u : Txn) : Prop :=
  ∃ row ∈ c.wants t, u ≠ t ∧ (c.world.slot row.1 row.2).HeldBy u

instance (c : Config S Req ε α) (t u : Txn) : Decidable (c.WaitsFor t u) :=
  inferInstanceAs
    (Decidable (∃ row ∈ c.wants t, u ≠ t ∧ (c.world.slot row.1 row.2).HeldBy u))

variable {system : System S Req ε α} {c c' : Config S Req ε α} {l : Label Req} {t u : Txn}
  {w w' : World S Req} {row : S.Table × Nat} {op : Op S β} {choice : Choice} {answer : β}

theorem Config.wants_of_client {next : β → Prog S ε α} (h : c.client t = some (.exec op next)) :
    c.wants t = op.wants := by
  unfold Config.wants
  rw [h]

theorem Config.client_of_wants (h : c.wants t = some row) :
    ∃ (β : Type) (op : Op S β) (next : β → Prog S ε α),
      c.client t = some (.exec op next) ∧ op.wants = some row := by
  unfold Config.wants at h
  split at h
  · exact ⟨_, _, _, ‹_›, h⟩
  · cases h

theorem exec_lock_eq_none {T : S.Table} {id : Nat} {p : S.Row T → Bool}
    {f : S.Row T → Option (S.Row T)} :
    (Op.lock T id p f).exec t choice w = none ↔ (w.slot T id).availableTo t = false := by
  simp only [Op.exec]
  split
  · rename_i havailable
    rw [havailable]
    split
    · simp
    · split <;> simp
  · rename_i havailable
    simp [Bool.eq_false_iff.mpr havailable]

/-- **Waiting.** A client that is about to lock a row cannot go on as long as another one holds the
row, and only then. -/
theorem System.stuck_iff (h : c.wants t = some row) :
    (∀ choice, system.step c (.exec t choice) = none) ↔ ∃ u, c.WaitsFor t u := by
  obtain ⟨_, op, next, hclient, hwants⟩ := Config.client_of_wants h
  cases op with
  | lock T id p f =>
      cases hwants
      have hstep (choice : Choice) : system.step c (.exec t choice) = none
          ↔ (Op.lock T id p f).exec t choice c.world = none := by
        simp only [System.step, hclient]
        split <;> simp_all
      simp only [hstep, exec_lock_eq_none]
      constructor
      · intro havailable
        have hfree : ¬ ((c.world.slot T id).held = none ∨ (c.world.slot T id).HeldBy t) := by
          rw [← Slot.availableTo_iff, havailable {}]
          exact Bool.false_ne_true
        obtain ⟨hheld, hown⟩ := not_or.mp hfree
        obtain ⟨⟨u, version⟩, hu⟩ := Option.ne_none_iff_exists'.mp hheld
        refine ⟨u, (T, id), h, ?_, version, hu⟩
        rintro rfl
        exact hown ⟨version, hu⟩
      · rintro ⟨u, row, hrow, hne, hheld⟩ _
        cases h.symm.trans hrow
        by_contra havailable
        exact Slot.not_heldBy_of_available (Bool.not_eq_false _ ▸ havailable) hne hheld
  | select | insert | commit | now | draw => cases hwants

/-- A relation without chains of three steps has no cycles. -/
theorem acyclic_of_no_chain {σ : Type*} {R : σ → σ → Prop}
    (h : ∀ x y z v, R x y → R y z → ¬ R z v) (x : σ) : ¬ Relation.TransGen R x x := by
  -- whoever is on a cycle leads to somebody on a cycle
  have hnext : ∀ {x}, Relation.TransGen R x x → ∃ y, R x y ∧ Relation.TransGen R y y := by
    intro x hcycle
    obtain ⟨y, hxy, hyx⟩ := Relation.TransGen.head'_iff.mp hcycle
    exact ⟨y, hxy, Relation.TransGen.tail' hyx hxy⟩
  intro hcycle
  obtain ⟨y, hxy, hcycle⟩ := hnext hcycle
  obtain ⟨z, hyz, hcycle⟩ := hnext hcycle
  obtain ⟨v, hzv, _⟩ := hnext hcycle
  exact h x y z v hxy hyz hzv

/-! ### Who holds what -/

/-- The version of a row that the operation puts under the lock of its transaction. -/
inductive Op.Puts (t : Txn) (w : World S Req) :
    {β : Type} → Op S β → (T : S.Table) → Nat → Option (S.Row T) → Prop
  | changed {T : S.Table} {id : Nat} {p : S.Row T → Bool} {f : S.Row T → Option (S.Row T)}
      {row : S.Row T} (hview : (w.slot T id).view t = some row) (hp : p row = true) :
      Puts t w (.lock T id p f) T id (f row)
  | kept {T : S.Table} {id : Nat} {p : S.Row T → Bool} {f : S.Row T → Option (S.Row T)}
      {row : S.Row T} (hview : (w.slot T id).view t = some row) (hp : p row = false) :
      Puts t w (.lock T id p f) T id (some row)
  | inserted {T : S.Table} {row : Nat → S.Row T} :
      Puts t w (.insert T row) T (w.next T) (some (row (w.next T)))

/-- A version was under its lock before, or the operation has just put it there. -/
theorem Op.exec_puts {T : S.Table} {id : Nat} {version : Option (S.Row T)}
    (h : op.exec t choice w = some (answer, w'))
    (hheld : (w'.slot T id).held = some (u, version)) :
    (w.slot T id).held = some (u, version) ∨ u = t ∧ op.Puts t w T id version := by
  cases op with
  | lock T' id' p f =>
      by_cases hsame : T = T' ∧ id = id'
      · obtain ⟨rfl, rfl⟩ := hsame
        obtain ⟨_, ⟨_, _, rfl⟩ | ⟨row, hview, ⟨hp, _, rfl⟩ | ⟨hp, _, rfl⟩⟩⟩ := exec_lock h
        · exact .inl hheld
        · change ((w.write t T id _).slot T id).held = _ at hheld
          rw [World.write_slot_self] at hheld
          cases hheld
          exact .inr ⟨rfl, .changed hview hp⟩
        · rw [World.write_slot_self] at hheld
          cases hheld
          exact .inr ⟨rfl, .kept hview hp⟩
      · rw [exec_lock_slot_of_ne h hsame] at hheld
        exact .inl hheld
  | insert T' row =>
      obtain ⟨_, ⟨_, _, rfl⟩ | ⟨_, _, rfl⟩⟩ := exec_insert h
      · exact .inl hheld
      · by_cases hsame : T = T' ∧ id = w.next T'
        · obtain ⟨rfl, rfl⟩ := hsame
          change ((w.write t T _ _).slot T _).held = _ at hheld
          rw [World.write_slot_self] at hheld
          cases hheld
          exact .inr ⟨rfl, .inserted⟩
        · have hslot : ((w.allocate t T' (row (w.next T'))).slot T id).held = (w.slot T id).held :=
            congrArg Slot.held (World.write_slot_of_ne (w := w) (t := t) _ hsame)
          exact .inl (hslot.symm.trans hheld)
  | commit =>
      obtain rfl := exec_commit h
      exact .inl ((congrArg Slot.held (Slot.held_of_release hheld).2).symm.trans hheld)
  | select =>
      obtain ⟨rfl, _⟩ := exec_select h
      exact .inl hheld
  | now =>
      obtain ⟨_, rfl⟩ := exec_now h
      exact .inl hheld
  | draw =>
      obtain ⟨_, rfl⟩ := exec_draw h
      exact .inl hheld

/-- A lock is taken by the operation on its row, or comes with a new row. -/
theorem Op.exec_heldBy {T : S.Table} {id : Nat} (h : op.exec t choice w = some (answer, w'))
    (hheld : (w'.slot T id).HeldBy u) : (w.slot T id).HeldBy u
      ∨ u = t ∧ (op.wants = some (T, id) ∨ op.kind = .insert T ∧ id = w.next T) := by
  obtain ⟨version, hheld⟩ := hheld
  obtain hheld | ⟨rfl, hputs⟩ := Op.exec_puts h hheld
  · exact .inl ⟨version, hheld⟩
  · cases hputs with
    | changed | kept => exact .inr ⟨rfl, .inl rfl⟩
    | inserted => exact .inr ⟨rfl, .inr ⟨rfl, rfl⟩⟩

theorem Op.exec_holds (hsound : w.Sound) (hkind : op.kind ≠ .commit)
    (h : op.exec t choice w = some (answer, w')) {T : S.Table} {id : Nat}
    (hheld : (w.slot T id).HeldBy u) : (w'.slot T id).HeldBy u := by
  obtain ⟨version, hheld⟩ := hheld
  obtain hheld | ⟨_, _, version', _, _, hheld⟩ :=
    Op.exec_held hsound (op.within_true T) hkind h hheld
  · exact ⟨version, hheld⟩
  · exact ⟨version', hheld⟩

/-- A row under a lock is seen by others as before. -/
theorem Op.exec_committed_of_heldBy {T : S.Table} {id : Nat}
    (h : op.exec t choice w = some (answer, w')) (hheld : (w'.slot T id).HeldBy u) :
    (w'.slot T id).committed = (w.slot T id).committed := by
  by_cases hkind : op.kind = .commit
  · cases op with
    | commit =>
        obtain rfl := exec_commit h
        obtain ⟨_, hheld⟩ := hheld
        exact congrArg Slot.committed (Slot.held_of_release hheld).2
    | select | lock | insert | now | draw => cases hkind
  · exact Op.exec_committed hkind h T id

theorem Others.heldBy (h : Others t w w') {T : S.Table} {id : Nat} :
    (w'.slot T id).HeldBy t ↔ (w.slot T id).HeldBy t := by
  constructor
  · rintro ⟨version, hheld⟩
    exact ⟨version, h.held_before hheld⟩
  · rintro ⟨version, hheld⟩
    exact ⟨version, (h.mine T id version hheld).symm ▸ hheld⟩

/-! ### Careful programs -/

namespace Discipline

variable (D : Discipline S Req) (policy : Txn → World S Req → (β : Type) → Op S β → Prop)

/-- A safe program that goes by the policy. -/
def Careful (t : Txn) (Q : Except ε α → World S Req → Prop) : Prog S ε α → World S Req → Prop
  | .pure value, w => Q (.ok value) w
  | .raise error, w => Q (.error error) w
  | .exec op next, w => ∀ w₁, D.Interferes t w w₁ →
      policy t w₁ _ op
        ∧ ∀ choice answer w₂, op.exec t choice w₁ = some (answer, w₂) →
          D.Keeps t w₁ w₂ ∧ Careful t Q (next answer) w₂

variable {D policy} {Q : Except ε α → World S Req → Prop} {p : Prog S ε α}

theorem Careful.safe (h : D.Careful policy t Q p w) : D.Safe t Q p w := by
  induction p generalizing w with
  | pure value => exact h
  | raise error => exact h
  | exec op next ih =>
      intro w₁ hw _ choice answer w₂ hexec
      obtain ⟨hkeeps, hnext⟩ := (h w₁ hw).2 choice answer w₂ hexec
      exact ⟨hkeeps, ih answer hnext⟩

theorem Careful.exec {J : World S Req → Prop} {K : β → World S Req → Prop}
    {next : β → Prog S ε α} (hstable : D.Stable t J) (h : J w)
    (hpolicy : ∀ {w}, J w → D.inv w → policy t w β op)
    (hop : ∀ {w choice answer w'}, J w → w.Sound → D.inv w →
      op.exec t choice w = some (answer, w') → D.Keeps t w w' ∧ K answer w')
    (hnext : ∀ answer w, K answer w → D.Careful policy t Q (next answer) w) :
    D.Careful policy t Q (.exec op next) w := by
  intro w₁ hw
  refine ⟨hpolicy (hstable h hw) hw.inv, fun choice answer w₂ hexec => ?_⟩
  obtain ⟨hkeeps, hK⟩ := hop (hstable h hw) hw.sound hw.inv hexec
  exact ⟨hkeeps, hnext answer w₂ hK⟩

theorem Careful.mono {Q' : Except ε α → World S Req → Prop} (hmono : ∀ r w, Q r w → Q' r w)
    (h : D.Careful policy t Q p w) : D.Careful policy t Q' p w := by
  induction p generalizing w with
  | pure value => exact hmono _ _ h
  | raise error => exact hmono _ _ h
  | exec op next ih =>
      refine fun w₁ hw => ⟨(h w₁ hw).1, fun choice answer w₂ hexec => ?_⟩
      obtain ⟨hkeeps, hnext⟩ := (h w₁ hw).2 choice answer w₂ hexec
      exact ⟨hkeeps, ih answer hnext⟩

theorem Careful.bind {γ : Type} {Q' : Except ε γ → World S Req → Prop} {next : α → Prog S ε γ}
    (h : D.Careful policy t Q p w)
    (hok : ∀ value w, Q (.ok value) w → D.Careful policy t Q' (next value) w)
    (herror : ∀ error w, Q (.error error) w → Q' (.error error) w) :
    D.Careful policy t Q' (p.bind next) w := by
  induction p generalizing w with
  | pure value => exact hok value w h
  | raise error => exact herror error w h
  | exec op rest ih =>
      refine fun w₁ hw => ⟨(h w₁ hw).1, fun choice answer w₂ hexec => ?_⟩
      obtain ⟨hkeeps, hrest⟩ := (h w₁ hw).2 choice answer w₂ hexec
      exact ⟨hkeeps, ih answer hrest⟩

theorem Careful.interfere (h : D.Careful policy t (fun _ _ => True) p w)
    (hw : D.Interferes t w w') : D.Careful policy t (fun _ _ => True) p w' := by
  cases p with
  | pure | raise => trivial
  | exec op next => exact fun w₁ hw₁ => h w₁ (hw.trans hw₁)

/-- What the others leave true, and every operation of the transaction itself but its commit. -/
structure Durable (D : Discipline S Req) (t : Txn) (F : World S Req → Prop) : Prop where
  stable : D.Stable t F
  exec : ∀ {β : Type} {op : Op S β} {w w' : World S Req} {choice : Choice} {answer : β},
    op.kind ≠ .commit → w.Sound → F w → op.exec t choice w = some (answer, w') → F w'

theorem Durable.and {F F' : World S Req → Prop} (h : D.Durable t F) (h' : D.Durable t F') :
    D.Durable t fun w => F w ∧ F' w where
  stable hF hw := ⟨h.stable hF.1 hw, h'.stable hF.2 hw⟩
  exec hkind hsound hF hexec :=
    ⟨h.exec hkind hsound hF.1 hexec, h'.exec hkind hsound hF.2 hexec⟩

theorem Careful.frame {F : World S Req → Prop} (hF : D.Durable t F) (hall : p.All Uncommitting)
    (h : D.Careful policy t Q p w) (hw : F w) :
    D.Careful policy t (fun r w => Q r w ∧ F w) p w := by
  induction p generalizing w with
  | pure value => exact ⟨h, hw⟩
  | raise error => exact ⟨h, hw⟩
  | exec op next ih =>
      refine fun w₁ hinterferes => ⟨(h w₁ hinterferes).1, fun choice answer w₂ hexec => ?_⟩
      obtain ⟨hkeeps, hnext⟩ := (h w₁ hinterferes).2 choice answer w₂ hexec
      refine ⟨hkeeps, ih answer (hall.2 answer) hnext ?_⟩
      exact hF.exec hall.1 hinterferes.sound (hF.stable hw hinterferes) hexec

/-- Programs whose operations keep to the policy by themselves. -/
theorem Careful.of_all {P : ∀ β : Type, Op S β → Prop} {J : World S Req → Prop}
    (hstable : D.Stable t J)
    (hpolicy : ∀ {β : Type} {op : Op S β} {w : World S Req}, P β op → policy t w β op)
    (hkeeps : ∀ {β : Type} {op : Op S β} {w w' : World S Req} {choice : Choice} {answer : β},
      P β op → J w → w.Sound → D.inv w → op.exec t choice w = some (answer, w') →
      D.Keeps t w w' ∧ J w')
    (hall : p.All P) (h : J w) : D.Careful policy t (fun _ w => J w) p w := by
  induction p generalizing w with
  | pure value => exact h
  | raise error => exact h
  | exec op next ih =>
      refine fun w₁ hw => ⟨hpolicy hall.1, fun choice answer w₂ hexec => ?_⟩
      obtain ⟨hkeep, hJ⟩ := hkeeps hall.1 (hstable h hw) hw.sound hw.inv hexec
      exact ⟨hkeep, ih answer (hall.2 answer) hJ⟩

/-- The rule for locking rows one after the other. -/
theorem Careful.lockEach {T : S.Table} {p : Nat → S.Row T → Bool}
    {f : S.Row T → Option (S.Row T)} {J : List Nat → List (Nat × S.Row T) → World S Req → Prop}
    (hstable : ∀ ids rows, D.Stable t (J ids rows))
    (hpolicy : ∀ {id ids rows w}, J (id :: ids) rows w → D.inv w →
      policy t w _ (.lock T id (p id) f))
    (hlock : ∀ {id ids rows w choice found w'}, J (id :: ids) rows w → w.Sound → D.inv w →
      (Op.lock T id (p id) f).exec t choice w = some (found, w') →
      D.Keeps t w w' ∧ J ids (rows ++ (found.map (id, ·)).toList) w')
    {ids : List Nat} (rows : List (Nat × S.Row T)) (h : J ids rows w) :
    D.Careful policy t (fun (r : Except ε _) w => ∃ more, r = .ok more ∧ J [] (rows ++ more) w)
      (Prog.lockEach T p f ids) w := by
  induction ids generalizing rows w with
  | nil => exact ⟨[], rfl, by rwa [List.append_nil]⟩
  | cons id ids ih =>
      have hstand {w₁ : World S Req} (hw : D.Interferes t w w₁) : J (id :: ids) rows w₁ :=
        hstable (id :: ids) rows h hw
      refine fun w₁ hw => ⟨hpolicy (hstand hw) hw.inv, fun choice found w₂ hexec => ?_⟩
      obtain ⟨hkeeps, hJ⟩ := hlock (hstand hw) hw.sound hw.inv hexec
      refine ⟨hkeeps, (ih _ hJ).bind ?_ ?_⟩
      · rintro value w ⟨more, heq, hmore⟩
        cases heq
        exact ⟨_, rfl, by rwa [← List.append_assoc]⟩
      · rintro error w ⟨_, heq, _⟩
        cases heq

/-! ### Whole systems -/

/-- Every client goes on with a careful program. -/
def Careful.All (D : Discipline S Req)
    (policy : Txn → World S Req → (β : Type) → Op S β → Prop) (c : Config S Req ε α) : Prop :=
  ∀ t p, c.client t = some p → D.Careful policy t (fun _ _ => True) p c.world

section Systems

variable {Q : Req → Txn → Except ε α → World S Req → Prop}

theorem Careful.All.spawn {request : Req}
    (hhandler : ∀ request t w, w.Sound → D.inv w → Fresh t w → w.request t = some request →
      D.Careful policy t (fun _ _ => True) (system.handler request) w)
    (h : Careful.All D policy c) (hholds : Holds D Q c) (hholds' : Holds D Q c')
    (hs : system.step c (.spawn u request) = some c') : Careful.All D policy c' := by
  simp only [System.step] at hs
  split at hs
  · cases hs
  · rename_i hnone
    have hstands := hholds.stands u
    unfold Stands at hstands
    rw [hnone] at hstands
    cases hs
    have hquiet := hstands.1.quiet_spawn hstands.2 request
    have hrely := (D.quiet hquiet hholds.inv).2
    intro t p hclient
    by_cases ht : t = u
    · subst ht
      obtain rfl : system.handler request = p := by simpa using hclient
      exact hhandler request t _ hholds'.sound hholds'.inv
        (hstands.1.others (hquiet.others t)) (by simp)
    · apply (h t p (by simpa [ht] using hclient)).interfere
      exact ⟨hquiet.others t, hrely t, hholds'.sound, hholds'.inv⟩

theorem Careful.All.exec (h : Careful.All D policy c) (hholds : Holds D Q c)
    (hholds' : Holds D Q c') (hs : system.step c (.exec u choice) = some c') :
    Careful.All D policy c' := by
  simp only [System.step] at hs
  split at hs
  · rename_i op next hclient
    split at hs
    · cases hs
    · rename_i answer world hexec
      cases hs
      obtain ⟨hkeeps, hnext⟩ := (h u _ hclient c.world (.refl hholds.sound hholds.inv)).2 choice
        answer world hexec
      intro t p hclient'
      by_cases ht : t = u
      · subst ht
        obtain rfl : next answer = p := by simpa using hclient'
        exact hnext
      · apply (h t p (by simpa [ht] using hclient')).interfere
        exact ⟨Op.exec_others hholds.sound hexec ht, hkeeps.2 t ht, hholds'.sound, hholds'.inv⟩
  · cases hs

/-- The end of a client, by its own will or not, leaves the others careful. -/
theorem Careful.All.rollback (h : Careful.All D policy c) (hholds : Holds D Q c)
    (hholds' : Holds D Q c') (hworld : c'.world = c.world.finish u false)
    (hclient : ∀ t, t ≠ u → c'.client t = c.client t)
    (hself : ∃ r, c'.client u = some (.ofExcept r)) : Careful.All D policy c' := by
  intro t p hp
  by_cases ht : t = u
  · subst ht
    obtain ⟨r, hr⟩ := hself
    cases hr.symm.trans hp
    cases r <;> trivial
  · apply (h t p ((hclient t ht).symm.trans hp)).interfere
    refine ⟨?_, ?_, hholds'.sound, hholds'.inv⟩
    · rw [hworld]
      exact others_finish ht false
    · rw [hworld]
      exact (D.rollback u hholds.sound hholds.inv).2 t ht

theorem Careful.All.step
    (hhandler : ∀ request t w, w.Sound → D.inv w → Fresh t w → w.request t = some request →
      D.Careful policy t (fun _ _ => True) (system.handler request) w)
    (h : Careful.All D policy c) (hholds : Holds D Q c) (hholds' : Holds D Q c')
    (hs : system.step c l = some c') : Careful.All D policy c' := by
  cases l with
  | spawn u request => exact h.spawn hhandler hholds hholds' hs
  | exec u choice => exact h.exec hholds hholds' hs
  | close u =>
      simp only [System.step] at hs
      split at hs
      · rename_i value hclient
        cases hs
        exact h.rollback hholds hholds' rfl (fun _ _ => rfl) ⟨.ok value, hclient⟩
      · rename_i error hclient
        cases hs
        exact h.rollback hholds hholds' rfl (fun _ _ => rfl) ⟨.error error, hclient⟩
      · cases hs
  | crash u =>
      simp only [System.step] at hs
      split at hs
      · cases hs
        exact h.rollback hholds hholds' rfl (fun t ht => by simp [ht])
          ⟨.error system.lost, by simp [Prog.ofExcept]⟩
      · cases hs
  | tick duration =>
      cases hs
      have hquiet := Quiet.tick c.world duration
      intro t p hclient
      apply (h t p hclient).interfere
      exact ⟨hquiet.others t, (D.quiet hquiet hholds.inv).2 t, hholds'.sound, hholds'.inv⟩

/-- **Soundness.** If every handler is careful, the invariant holds in every reachable
configuration, and whatever a client is about to do goes by the policy. -/
theorem Careful.policy_of_client (hany : ∀ t w kind, D.allowed t w kind)
    (hhandler : ∀ request t w, w.Sound → D.inv w → Fresh t w → w.request t = some request →
      D.Careful policy t (fun _ _ => True) (system.handler request) w)
    {init : Config S Req ε α → Prop} {allowed : Config S Req ε α → Label Req → Prop}
    (hinit : ∀ c, init c → c.Initial ∧ D.inv c.world)
    (h : Transition.Reachable system.step init allowed c) :
    c.world.Sound ∧ D.inv c.world ∧ (∀ t, c.client t = none → Fresh t c.world)
      ∧ ∀ t (β : Type) (op : Op S β) (next : β → Prog S ε α),
        c.client t = some (.exec op next) → policy t c.world β op := by
  have hverified : D.Verified system fun _ _ _ _ => True :=
    ⟨fun _ _ _ _ _ _ _ => trivial, fun _ _ _ _ _ _ _ => trivial, fun _ _ _ _ => trivial,
      fun request t w hsound hinv hfresh hrequest =>
        (hhandler request t w hsound hinv hfresh hrequest).safe⟩
  have hholds {c : Config S Req ε α} (h : Transition.Reachable system.step init allowed c) :
      Holds D (fun _ _ _ _ => True) c :=
    hverified.holds hinit (h.mono fun _ _ _ => Config.meets_of_forall hany)
  have hall : Careful.All D policy c := by
    induction h with
    | start hc =>
        intro t p hclient
        cases ((hinit _ hc).1.2 t).symm.trans hclient
    | next hreach hallowed hs ih =>
        exact ih.step hhandler (hholds hreach) (hholds (hreach.next hallowed hs)) hs
  refine ⟨(hholds h).sound, (hholds h).inv, fun t hclient => ?_, fun t β op next hclient => ?_⟩
  · have hstands := (hholds h).stands t
    unfold Stands at hstands
    rw [hclient] at hstands
    exact hstands.1
  · exact (hall t _ hclient c.world (.refl (hholds h).sound (hholds h).inv)).1

end Systems

end Discipline

end ReadCommitted
