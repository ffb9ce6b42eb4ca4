import EventsApi.Library.ReadCommitted.Waiting

/-!
# Rows that refer to rows

A foreign key stays what it is as long as its row lives, and each row has at most one. So what a
transaction learned about the references of a row that it has found holds until it comes to lock the
row, unless the row is gone by then.

A row that refers to another one keeps it from being deleted, and its insertion waits while the
other one is being deleted. With this the transactions wait for each other in two more ways.
-/

namespace ReadCommitted

variable {S : Schema} {Req β : Type}

/-- The row was deleted for good. -/
def Gone (w : World S Req) (T : S.Table) (id : Nat) : Prop :=
  id < w.next T ∧ w.slot T id = Slot.empty

variable (refs : (T : S.Table) → S.Row T → List (S.Table × Nat))

/-- The row is deleted, or refers to the same rows as before. -/
def KeepsReferences (T : S.Table) (row : S.Row T) (version : Option (S.Row T)) : Prop :=
  ∀ row', version = some row' → refs T row' = refs T row

/-- The row refers to one row at most. -/
def RefersToOne (T : S.Table) (row : S.Row T) : Prop := (refs T row).length ≤ 1

structure References (w : World S Req) : Prop where
  held : ∀ T id t row row', (w.slot T id).held = some (t, some row') →
    (w.slot T id).committed = some row → refs T row' = refs T row
  one : ∀ T id row, (w.slot T id).HasVersion row → RefersToOne refs T row

/-- The rows that others see keep what they refer to until they are gone. -/
structure Lasting (w w' : World S Req) : Prop where
  stays : ∀ T id row, (w.slot T id).committed = some row →
    Gone w' T id ∨ ∃ row', (w'.slot T id).committed = some row' ∧ refs T row' = refs T row
  gone : ∀ T id, Gone w T id → Gone w' T id

/-- The row is the transaction's own, or gone, or refers to rows of this sort. -/
def Seen (P : List (S.Table × Nat) → Prop) (t : Txn) (T : S.Table) (id : Nat)
    (w : World S Req) : Prop :=
  (w.slot T id).HeldBy t ∨ Gone w T id
    ∨ ∃ row, (w.slot T id).committed = some row ∧ P (refs T row)

variable {refs} {t u : Txn} {w w' w'' : World S Req} {T : S.Table} {id : Nat}
  {P : List (S.Table × Nat) → Prop} {op : Op S β} {choice : Choice} {answer : β}

theorem Lasting.refl (w : World S Req) : Lasting refs w w where
  stays _ _ row hrow := .inr ⟨row, hrow, rfl⟩
  gone _ _ := id

theorem Lasting.trans (h : Lasting refs w w') (h' : Lasting refs w' w'') : Lasting refs w w'' where
  stays T id row hrow := by
    obtain hgone | ⟨row', hrow', hrefs⟩ := h.stays T id row hrow
    · exact .inl (h'.gone T id hgone)
    · obtain hgone | ⟨row'', hrow'', hrefs'⟩ := h'.stays T id row' hrow'
      · exact .inl hgone
      · exact .inr ⟨row'', hrow'', hrefs'.trans hrefs⟩
  gone T id hgone := h'.gone T id (h.gone T id hgone)

theorem Lasting.quiet (h : Quiet w w') : Lasting refs w w' where
  stays T id row hrow := .inr ⟨row, by rw [h.slot, hrow], rfl⟩
  gone T id hgone := ⟨h.next ▸ hgone.1, by rw [h.slot, hgone.2]⟩

theorem World.Sound.lt_next (h : w.Sound) (hslot : w.slot T id ≠ Slot.empty) : id < w.next T := by
  by_contra hle
  exact hslot (h.beyond T id (Nat.le_of_not_lt hle))

/-- An operation has no use for a row that is gone. -/
theorem Op.exec_gone (h : op.exec t choice w = some (answer, w')) (hgone : Gone w T id) :
    Gone w' T id := by
  obtain ⟨hlt, hempty⟩ := hgone
  cases op with
  | select T' p =>
      obtain ⟨rfl, _⟩ := exec_select h
      exact ⟨hlt, hempty⟩
  | lock T' id' p f =>
      by_cases hsame : T = T' ∧ id = id'
      · obtain ⟨rfl, rfl⟩ := hsame
        obtain ⟨_, ⟨_, _, rfl⟩ | ⟨row, hview, _⟩⟩ := exec_lock h
        · exact ⟨hlt, hempty⟩
        · rw [hempty] at hview
          cases hview
      · refine ⟨?_, (exec_lock_slot_of_ne h hsame).trans hempty⟩
        obtain ⟨_, ⟨_, _, rfl⟩ | ⟨_, _, ⟨_, _, rfl⟩ | ⟨_, _, rfl⟩⟩⟩ := exec_lock h
        · exact hlt
        · exact hlt
        · exact hlt
  | insert T' row =>
      obtain ⟨_, ⟨_, _, rfl⟩ | ⟨_, _, rfl⟩⟩ := exec_insert h
      · exact ⟨hlt, hempty⟩
      · refine ⟨?_, (World.write_slot_of_ne _ ?_).trans hempty⟩
        · change id < Function.update w.next T' (w.next T' + 1) T
          by_cases hT : T = T'
          · subst hT
            rw [Function.update_self]
            exact hlt.trans (Nat.lt_succ_self _)
          · rwa [Function.update_of_ne hT]
        · rintro ⟨rfl, rfl⟩
          exact Nat.lt_irrefl _ hlt
  | commit =>
      obtain rfl := exec_commit h
      refine ⟨hlt, ?_⟩
      change (w.slot T id).release t true = _
      rw [hempty]
      rfl
  | now =>
      obtain ⟨_, rfl⟩ := exec_now h
      exact ⟨hlt, hempty⟩
  | draw =>
      obtain ⟨_, rfl⟩ := exec_draw h
      exact ⟨hlt, hempty⟩

theorem finish_lasting (hsound : w.Sound) (h : References refs w) (keep : Bool) :
    Lasting refs w (w.finish t keep) where
  stays T id row hrow := by
    change Gone _ T id ∨ ∃ row', ((w.slot T id).release t keep).committed = some row' ∧ _
    by_cases hheld : (w.slot T id).HeldBy t
    · obtain ⟨version, hheld⟩ := hheld
      cases keep with
      | false => exact .inr ⟨row, Slot.release_false_committed.trans hrow, rfl⟩
      | true =>
          rw [Slot.release_of_held true hheld]
          cases version with
          | none =>
              refine .inl ⟨hsound.lt_next fun hempty => ?_, Slot.release_of_held true hheld⟩
              rw [hempty] at hheld
              cases hheld
          | some row' => exact .inr ⟨row', rfl, h.held T id t row row' hheld hrow⟩
    · rw [Slot.release_of_not_held keep hheld]
      exact .inr ⟨row, hrow, rfl⟩
  gone T id hgone := by
    refine ⟨hgone.1, ?_⟩
    change (w.slot T id).release t keep = _
    rw [hgone.2]
    rfl

theorem Op.exec_lasting (hsound : w.Sound) (h : References refs w)
    (hexec : op.exec t choice w = some (answer, w')) : Lasting refs w w' where
  stays T id row hrow := by
    by_cases hkind : op.kind = .commit
    · cases op with
      | commit =>
          obtain rfl := exec_commit hexec
          exact (finish_lasting hsound h true).stays T id row hrow
      | select | lock | insert | now | draw => cases hkind
    · exact .inr ⟨row, (Op.exec_committed hkind hexec T id).trans hrow, rfl⟩
  gone T id := Op.exec_gone hexec

/-- **References last.** Every step that leaves rows what they refer to, or deletes them, and
inserts rows with one reference at most, keeps them in order. -/
theorem References.step (h : References refs w) (hsound : w.Sound)
    (hstep : ∀ T, TableStep t T (KeepsReferences refs T) (RefersToOne refs T) w w') :
    References refs w' where
  held T id u row row' hheld hcommitted := by
    obtain ⟨hheld, hsame⟩ | ⟨rfl, hsame, ⟨seen, hview, hkeeps⟩ | ⟨_, rfl, _⟩⟩ :=
      (hstep T).held hheld
    · exact h.held T id u row row' hheld (hsame ▸ hcommitted)
    · rw [hsame] at hcommitted
      rw [hkeeps row' rfl]
      by_cases hown : (w.slot T id).HeldBy u
      · obtain ⟨version, hown⟩ := hown
        rw [Slot.view_of_held hown] at hview
        exact h.held T id u row seen (hview ▸ hown) hcommitted
      · rw [Slot.view_eq_committed hown, hcommitted] at hview
        cases hview
        rfl
    · rw [hsame, hsound.beyond T _ le_rfl] at hcommitted
      cases hcommitted
  one T id row hversion := by
    obtain hversion | ⟨seen, hversion, hkeeps⟩ | hnew := (hstep T).hasVersion hversion
    · exact h.one T id row hversion
    · have hone := h.one T id seen hversion
      unfold RefersToOne at hone ⊢
      rwa [hkeeps row rfl]
    · exact hnew

/-! ### What a statement has found -/

theorem seen_of_view {row : S.Row T} (hview : (w.slot T id).view t = some row)
    (hP : P (refs T row)) : Seen refs P t T id w := by
  by_cases hown : (w.slot T id).HeldBy t
  · exact .inl hown
  · exact .inr (.inr ⟨row, (Slot.view_eq_committed hown).symm.trans hview, hP⟩)

theorem Seen.others (h : Seen refs P t T id w) (hw : Others t w w') (hlasting : Lasting refs w w') :
    Seen refs P t T id w' := by
  obtain hown | hgone | ⟨row, hrow, hP⟩ := h
  · exact .inl (hw.heldBy.mpr hown)
  · exact .inr (.inl (hlasting.gone T id hgone))
  · obtain hgone | ⟨row', hrow', hrefs⟩ := hlasting.stays T id row hrow
    · exact .inr (.inl hgone)
    · exact .inr (.inr ⟨row', hrow', hrefs ▸ hP⟩)

theorem Seen.exec (h : Seen refs P t T id w) (hsound : w.Sound) (hkind : op.kind ≠ .commit)
    (hexec : op.exec t choice w = some (answer, w')) : Seen refs P t T id w' := by
  obtain hown | hgone | ⟨row, hrow, hP⟩ := h
  · exact .inl (Op.exec_holds hsound hkind hexec hown)
  · exact .inr (.inl (Op.exec_gone hexec hgone))
  · exact .inr (.inr ⟨row, (Op.exec_committed hkind hexec T id).trans hrow, hP⟩)

/-! ### Waiting for a reference

Until its transaction ends, a new row holds a lock on the rows it refers to. An `UPDATE`, which
leaves the key alone, does not mind this lock; a `DELETE` and a `SELECT FOR UPDATE` do. -/

variable {ε α : Type} {c : Config S Req ε α} {row : S.Table × Nat}

variable (refs) in
/-- The rows that the row to be inserted refers to. -/
def Op.refersTo (w : World S Req) : {β : Type} → Op S β → List (S.Table × Nat)
  | _, .insert T row => refs T (row (w.next T))
  | _, _ => []

/-- The operation deletes the row, or selects it `FOR UPDATE`. -/
def Op.Claims (t : Txn) (w : World S Req) (row : S.Table × Nat) : {β : Type} → Op S β → Prop
  | _, .lock T id _ f => (T, id) = row
      ∧ ∃ seen, (w.slot T id).view t = some seen ∧ (f seen = none ∨ f seen = some seen)
  | _, _ => False

variable (refs) in
/-- The transaction has inserted a row that refers to this one. -/
def World.RefersTo (w : World S Req) (t : Txn) (row : S.Table × Nat) : Prop :=
  ∃ T id inserted, (w.slot T id).held = some (t, some inserted)
    ∧ (w.slot T id).committed = none ∧ row ∈ refs T inserted

variable (refs) in
def Config.refersTo (c : Config S Req ε α) (t : Txn) : List (S.Table × Nat) :=
  match c.client t with
  | some (.exec op _) => op.refersTo refs c.world
  | _ => []

def Config.Claims (c : Config S Req ε α) (t : Txn) (row : S.Table × Nat) : Prop :=
  match c.client t with
  | some (.exec op _) => op.Claims t c.world row
  | _ => False

variable (refs) in
/-- The client is about to refer to a row that another one has deleted. -/
def Config.WaitsToRefer (c : Config S Req ε α) (t u : Txn) : Prop :=
  ∃ row ∈ c.refersTo refs t, u ≠ t ∧ (c.world.slot row.1 row.2).HeldBy u
    ∧ (c.world.slot row.1 row.2).view u = none

instance (c : Config S Req ε α) (t u : Txn) : Decidable (c.WaitsToRefer refs t u) :=
  inferInstanceAs (Decidable (∃ row ∈ c.refersTo refs t, u ≠ t
    ∧ (c.world.slot row.1 row.2).HeldBy u ∧ (c.world.slot row.1 row.2).view u = none))

variable (refs) in
/-- The client is about to delete a row, or to select it `FOR UPDATE`, that another one refers to. A
row that is its own already it need not wait for. -/
def Config.WaitsForReference (c : Config S Req ε α) (t u : Txn) : Prop :=
  ∃ row, c.Claims t row ∧ u ≠ t ∧ ¬ (c.world.slot row.1 row.2).HeldBy t
    ∧ c.world.RefersTo refs u row

variable (refs) in
/-- The client waits for another one, whichever lock it is for. -/
def Config.Waits (c : Config S Req ε α) (t u : Txn) : Prop :=
  c.WaitsFor t u ∨ c.WaitsToRefer refs t u ∨ c.WaitsForReference refs t u

/-- The operation deletes rows of the table. -/
def Op.Deletes (T : S.Table) : {β : Type} → Op S β → Prop
  | _, .lock T' _ _ f => T' = T ∧ ∃ seen, f seen = none
  | _, _ => False

theorem Op.Claims.wants (h : op.Claims t w row) : op.wants = some row := by
  cases op with
  | lock => exact congrArg some h.1
  | select | insert | commit | now | draw => exact h.elim

theorem Op.Claims.view (h : op.Claims t w row) :
    ∃ seen, (w.slot row.1 row.2).view t = some seen := by
  cases op with
  | lock =>
      obtain ⟨rfl, seen, hview, _⟩ := h
      exact ⟨seen, hview⟩
  | select | insert | commit | now | draw => exact h.elim

theorem Config.client_of_refersTo (h : row ∈ c.refersTo refs t) :
    ∃ (β : Type) (op : Op S β) (next : β → Prog S ε α),
      c.client t = some (.exec op next) ∧ row ∈ op.refersTo refs c.world := by
  unfold Config.refersTo at h
  split at h
  · exact ⟨_, _, _, ‹_›, h⟩
  · cases h

theorem Config.client_of_claims (h : c.Claims t row) :
    ∃ (β : Type) (op : Op S β) (next : β → Prog S ε α),
      c.client t = some (.exec op next) ∧ op.Claims t c.world row := by
  unfold Config.Claims at h
  split at h
  · exact ⟨_, _, _, ‹_›, h⟩
  · exact h.elim

/-- Whoever others wait for holds a row. -/
theorem Config.Waits.held (h : c.Waits refs t u) : ∃ T id, (c.world.slot T id).HeldBy u := by
  obtain ⟨row, _, _, hheld⟩ | ⟨row, _, _, hheld, _⟩ | ⟨_, _, _, _, T, id, _, hheld, _⟩ := h
  · exact ⟨row.1, row.2, hheld⟩
  · exact ⟨row.1, row.2, hheld⟩
  · exact ⟨T, id, _, hheld⟩

/-- A row that is being deleted was so before, or the operation deletes rows. -/
theorem Op.exec_deleted (h : op.exec t choice w = some (answer, w'))
    (hheld : (w'.slot T id).held = some (u, none)) :
    (w.slot T id).held = some (u, none) ∨ u = t ∧ op.Deletes T := by
  refine (Op.exec_puts h hheld).imp_right (And.imp_right fun hputs => ?_)
  generalize hversion : (none : Option (S.Row T)) = version at hputs
  cases hputs with
  | changed => exact ⟨rfl, _, hversion.symm⟩
  | kept | inserted => cases hversion

/-- A new row was there before, with the same references, or is being inserted. -/
theorem Op.exec_inserted {new : S.Row T → Prop} (hop : op.Within T (KeepsReferences refs T) new)
    (hkind : op.kind ≠ .commit) (h : op.exec t choice w = some (answer, w')) {inserted : S.Row T}
    (hheld : (w'.slot T id).held = some (u, some inserted))
    (hnew : (w'.slot T id).committed = none) :
    (∃ before, (w.slot T id).held = some (u, some before) ∧ (w.slot T id).committed = none
      ∧ refs T inserted = refs T before)
    ∨ u = t ∧ op.refersTo refs w = refs T inserted := by
  rw [Op.exec_committed hkind h T id] at hnew
  -- what a transaction sees of a new row is its own version
  have hbefore {seen : S.Row T} (hview : (w.slot T id).view t = some seen) :
      (w.slot T id).held = some (t, some seen) := by
    by_cases hown : (w.slot T id).HeldBy t
    · obtain ⟨version, hown⟩ := hown
      rw [Slot.view_of_held hown] at hview
      rw [hown, hview]
    · rw [Slot.view_eq_committed hown, hnew] at hview
      cases hview
  obtain hheld | ⟨rfl, hputs⟩ := Op.exec_puts h hheld
  · exact .inl ⟨inserted, hheld, hnew, rfl⟩
  · generalize hversion : some inserted = version at hputs
    cases hputs with
    | changed hview hp =>
        exact .inl ⟨_, hbefore hview, hnew, (hop rfl _).1 hp inserted hversion.symm⟩
    | kept hview hp => exact .inl ⟨_, hbefore hview, hnew, (hop rfl _).2 hp inserted hversion.symm⟩
    | inserted => exact .inr ⟨rfl, congrArg (refs T) (Option.some.inj hversion.symm)⟩

end ReadCommitted
