import EventsApi.Library.ReadCommitted.Safety

/-!
# One table at a time

Most invariants are about one table. Seen from a table, a step of a transaction either leaves it
alone, puts a version in one row under its lock, inserts a row, or gives the locks of the
transaction back. `Op.Within` bounds what an operation may put there.
-/

namespace ReadCommitted

variable {S : Schema} {Req ε α β : Type} {T : S.Table}

/-- The operation leaves in a row of the table only what `change` allows, and inserts only `new`
rows. -/
def Op.Within (T : S.Table) (change : S.Row T → Option (S.Row T) → Prop) (new : S.Row T → Prop) :
    {β : Type} → Op S β → Prop
  | _, .lock T' _ p f => ∀ (h : T' = T) (row : S.Row T'),
      (p row = true → change (h ▸ row) (h ▸ f row))
        ∧ (p row = false → change (h ▸ row) (some (h ▸ row)))
  | _, .insert T' row => ∀ (h : T' = T) (id : Nat), new (h ▸ row id)
  | _, _ => True

inductive TableStep (t : Txn) (T : S.Table) (change : S.Row T → Option (S.Row T) → Prop)
    (new : S.Row T → Prop) (w w' : World S Req) : Prop where
  | same (hslot : w'.slot T = w.slot T)
  | lock (id : Nat) (row : S.Row T) (version : Option (S.Row T))
      (havailable : (w.slot T id).availableTo t = true)
      (hview : (w.slot T id).view t = some row) (hchange : change row version)
      (hslot : w'.slot T = Function.update (w.slot T) id ((w.slot T id).put t version))
  | insert (row : S.Row T) (hnew : new row) (hwaits : w.insertWaits t T row = false)
      (hclashes : w.insertClashes t T row = false)
      (hentry : (⟨t, w.clock, .inserted T (w.next T)⟩ : Entry S) ∈ w'.trace)
      (hslot : w'.slot T
        = Function.update (w.slot T) (w.next T) ((w.slot T (w.next T)).put t (some row)))
  | release (keep : Bool) (hkeep : keep = true → w'.HasCommitted t)
      (hslot : ∀ id, w'.slot T id = (w.slot T id).release t keep)

variable {t u : Txn} {w w' : World S Req} {choice : Choice} {answer : β} {op : Op S β}
  {change : S.Row T → Option (S.Row T) → Prop} {new : S.Row T → Prop}

theorem write_slot (T' : S.Table) (id : Nat) (version : Option (S.Row T')) :
    (w.write t T' id version).slot T'
      = Function.update (w.slot T') id ((w.slot T' id).put t version) := by
  simp [World.write, World.setSlot]

theorem write_slot_of_table_ne {T' : S.Table} (h : T' ≠ T) (id : Nat)
    (version : Option (S.Row T')) : (w.write t T' id version).slot T = w.slot T := by
  simp [World.write, World.setSlot, h.symm]

/-- The locking of one row, seen from its table. -/
theorem exec_lock_slot {id : Nat} {p : S.Row T → Bool} {f : S.Row T → Option (S.Row T)}
    {found : Option (S.Row T)} (h : (Op.lock T id p f).exec t choice w = some (found, w')) :
    (w.slot T id).view t = none ∧ found = none ∧ w'.slot T = w.slot T
      ∨ ∃ row version, (w.slot T id).view t = some row
        ∧ w'.slot T = Function.update (w.slot T) id ((w.slot T id).put t version)
        ∧ (p row = true ∧ found = some row ∧ version = f row
          ∨ p row = false ∧ found = none ∧ version = some row) := by
  obtain ⟨_, ⟨hview, rfl, rfl⟩ | ⟨row, hview, ⟨hp, rfl, rfl⟩ | ⟨hp, rfl, rfl⟩⟩⟩ := exec_lock h
  · exact .inl ⟨hview, rfl, rfl⟩
  · exact .inr ⟨row, _, hview, write_slot T id _, .inl ⟨hp, rfl, rfl⟩⟩
  · exact .inr ⟨row, _, hview, write_slot T id _, .inr ⟨hp, rfl, rfl⟩⟩

theorem exec_lock_slot_of_table_ne {T' : S.Table} {id : Nat} {p : S.Row T' → Bool}
    {f : S.Row T' → Option (S.Row T')} {found : Option (S.Row T')}
    (h : (Op.lock T' id p f).exec t choice w = some (found, w')) (hne : T' ≠ T) :
    w'.slot T = w.slot T := by
  obtain ⟨_, ⟨_, _, rfl⟩ | ⟨row, _, ⟨_, _, rfl⟩ | ⟨_, _, rfl⟩⟩⟩ := exec_lock h
  · rfl
  · exact write_slot_of_table_ne hne id _
  · exact write_slot_of_table_ne hne id _

/-- An insertion that is not refused, seen from its table. -/
theorem exec_insert_slot {row : Nat → S.Row T} {id : Nat}
    (h : (Op.insert T row).exec t choice w = some (some id, w')) :
    id = w.next T
      ∧ w'.slot T = Function.update (w.slot T) id ((w.slot T id).put t (some (row id))) := by
  obtain ⟨_, ⟨_, hnone, _⟩ | ⟨_, hid, rfl⟩⟩ := exec_insert h
  · cases hnone
  · cases hid
    exact ⟨rfl, write_slot T _ _⟩

theorem exec_insert_slot_of_table_ne {T' : S.Table} {row : Nat → S.Row T'} {answer : Option Nat}
    (h : (Op.insert T' row).exec t choice w = some (answer, w')) (hne : T' ≠ T) :
    w'.slot T = w.slot T := by
  obtain ⟨_, ⟨_, _, rfl⟩ | ⟨_, _, rfl⟩⟩ := exec_insert h
  · rfl
  · exact write_slot_of_table_ne hne _ _

theorem Op.exec_tableStep (hwithin : op.Within T change new)
    (h : op.exec t choice w = some (answer, w')) : TableStep t T change new w w' := by
  cases op with
  | select T' p =>
      obtain ⟨rfl, _⟩ := exec_select h
      exact .same rfl
  | lock T' id p f =>
      obtain ⟨havailable, ⟨_, _, rfl⟩ | ⟨row, hview, hlocked⟩⟩ := exec_lock h
      · exact .same rfl
      by_cases hT : T' = T
      · subst hT
        obtain ⟨hchange, hkeep⟩ := hwithin rfl row
        rcases hlocked with ⟨hp, _, rfl⟩ | ⟨hp, _, rfl⟩
        · exact .lock id row _ havailable hview (hchange hp) (write_slot T' id _)
        · exact .lock id row _ havailable hview (hkeep hp) (write_slot T' id _)
      · rcases hlocked with ⟨_, _, rfl⟩ | ⟨_, _, rfl⟩
        · exact .same (write_slot_of_table_ne hT id _)
        · exact .same (write_slot_of_table_ne hT id _)
  | insert T' row =>
      obtain ⟨hwaits, ⟨_, _, rfl⟩ | ⟨hclashes, _, rfl⟩⟩ := exec_insert h
      · exact .same rfl
      by_cases hT : T' = T
      · subst hT
        exact .insert _ (hwithin rfl _) hwaits hclashes List.mem_cons_self (write_slot T' _ _)
      · exact .same (write_slot_of_table_ne hT _ _)
  | commit =>
      obtain rfl := exec_commit h
      exact .release true (fun _ => ⟨_, List.mem_cons_self, rfl, rfl⟩) fun _ => rfl
  | now =>
      obtain ⟨_, rfl⟩ := exec_now h
      exact .same rfl
  | draw =>
      obtain ⟨_, rfl⟩ := exec_draw h
      exact .same rfl

/-- An operation that commits nothing and has no business with a table leaves it alone. -/
theorem Op.exec_slot_same (hwithin : op.Within T (fun _ _ => False) fun _ => False)
    (hkind : op.kind ≠ .commit) (h : op.exec t choice w = some (answer, w')) :
    w'.slot T = w.slot T := by
  cases op with
  | select T' p =>
      obtain ⟨rfl, _⟩ := exec_select h
      rfl
  | lock T' id p f =>
      obtain ⟨_, ⟨_, _, rfl⟩ | ⟨row, _, hlocked⟩⟩ := exec_lock h
      · rfl
      by_cases hT : T' = T
      · subst hT
        obtain ⟨hp, _⟩ | ⟨hp, _⟩ := hlocked
        · exact ((hwithin rfl row).1 hp).elim
        · exact ((hwithin rfl row).2 hp).elim
      · obtain ⟨_, _, rfl⟩ | ⟨_, _, rfl⟩ := hlocked
        · exact write_slot_of_table_ne hT id _
        · exact write_slot_of_table_ne hT id _
  | insert T' row =>
      obtain ⟨_, ⟨_, _, rfl⟩ | ⟨_, _, rfl⟩⟩ := exec_insert h
      · rfl
      by_cases hT : T' = T
      · subst hT
        exact (hwithin rfl 0).elim
      · exact write_slot_of_table_ne hT _ _
  | commit => exact absurd rfl hkind
  | now =>
      obtain ⟨_, rfl⟩ := exec_now h
      rfl
  | draw =>
      obtain ⟨_, rfl⟩ := exec_draw h
      rfl

theorem tableStep_rollback : TableStep t T change new w (w.finish t false) :=
  .release false nofun fun _ => rfl

theorem Op.exec_trace_subset (hsound : w.Sound) (h : op.exec t choice w = some (answer, w')) :
    ∀ e ∈ w.trace, e ∈ w'.trace :=
  (Op.exec_others hsound h (Nat.succ_ne_self t)).trace_subset

theorem Op.exec_drawn_subset (hsound : w.Sound) (h : op.exec t choice w = some (answer, w')) :
    ∀ e ∈ w.drawn, e ∈ w'.drawn :=
  (Op.exec_others hsound h (Nat.succ_ne_self t)).drawn_subset

theorem Op.exec_uncommitted (hkind : op.kind ≠ .commit) (h : op.exec t choice w = some (answer, w'))
    (hopen : ¬ w.HasCommitted u) : ¬ w'.HasCommitted u := by
  have hnote : ∀ {w₁ : World S Req} {event : Event S}, w₁.trace = w.trace → event ≠ .committed →
      ¬ (w₁.note t event).HasCommitted u := by
    rintro w₁ event htrace hevent ⟨e, he, htxn, hcommitted⟩
    obtain rfl | he := List.mem_cons.mp he
    · exact hevent hcommitted
    · exact hopen ⟨e, htrace ▸ he, htxn, hcommitted⟩
  cases op with
  | select T p =>
      obtain ⟨rfl, _⟩ := exec_select h
      exact hnote rfl nofun
  | lock T id p f =>
      obtain ⟨_, ⟨_, _, rfl⟩ | ⟨row, _, ⟨_, _, rfl⟩ | ⟨_, _, rfl⟩⟩⟩ := exec_lock h
      · exact hopen
      · exact hnote rfl nofun
      · exact hopen
  | insert T row =>
      obtain ⟨_, ⟨_, _, rfl⟩ | ⟨_, _, rfl⟩⟩ := exec_insert h
      · exact hopen
      · exact hnote rfl nofun
  | commit => exact absurd rfl hkind
  | now =>
      obtain ⟨_, rfl⟩ := exec_now h
      exact hopen
  | draw =>
      obtain ⟨_, rfl⟩ := exec_draw h
      exact hopen

theorem write_committed {T' : S.Table} (id : Nat) (version : Option (S.Row T')) (T : S.Table)
    (id' : Nat) : ((w.write t T' id version).slot T id').committed = (w.slot T id').committed := by
  by_cases hsame : T = T' ∧ id' = id
  · obtain ⟨rfl, rfl⟩ := hsame
    rw [World.write_slot_self]
    rfl
  · rw [World.write_slot_of_ne version hsame]

theorem Op.exec_committed (hkind : op.kind ≠ .commit) (h : op.exec t choice w = some (answer, w'))
    (T : S.Table) (id : Nat) : (w'.slot T id).committed = (w.slot T id).committed := by
  cases op with
  | select T' p =>
      obtain ⟨rfl, _⟩ := exec_select h
      rfl
  | lock T' id' p f =>
      obtain ⟨_, ⟨_, _, rfl⟩ | ⟨row, _, ⟨_, _, rfl⟩ | ⟨_, _, rfl⟩⟩⟩ := exec_lock h
      · rfl
      · exact write_committed id' _ T id
      · exact write_committed id' _ T id
  | insert T' row =>
      obtain ⟨_, ⟨_, _, rfl⟩ | ⟨_, _, rfl⟩⟩ := exec_insert h
      · rfl
      · exact write_committed _ _ T id
  | commit => exact absurd rfl hkind
  | now =>
      obtain ⟨_, rfl⟩ := exec_now h
      rfl
  | draw =>
      obtain ⟨_, rfl⟩ := exec_draw h
      rfl

/-- What becomes of a version under a lock, short of a commit: its holder may put another one
there. -/
theorem Op.exec_held (hsound : w.Sound) (hwithin : op.Within T change new)
    (hkind : op.kind ≠ .commit) (h : op.exec t choice w = some (answer, w')) {id : Nat}
    {version : Option (S.Row T)} (hheld : (w.slot T id).held = some (u, version)) :
    (w'.slot T id).held = some (u, version)
      ∨ u = t ∧ ∃ row version', version = some row ∧ change row version'
        ∧ (w'.slot T id).held = some (u, version') := by
  cases op with
  | select T' p =>
      obtain ⟨rfl, _⟩ := exec_select h
      exact .inl hheld
  | lock T' id' p f =>
      obtain ⟨havailable, ⟨_, _, rfl⟩ | ⟨row, hview, hlocked⟩⟩ := exec_lock h
      · exact .inl hheld
      by_cases hsame : T = T' ∧ id = id'
      · obtain ⟨rfl, rfl⟩ := hsame
        obtain rfl : u = t := by
          by_contra hne
          exact Slot.not_heldBy_of_available havailable hne ⟨version, hheld⟩
        rw [Slot.view_of_held hheld] at hview
        obtain ⟨hchange, hkeep⟩ := hwithin rfl row
        obtain ⟨hp, _, rfl⟩ | ⟨hp, _, rfl⟩ := hlocked
        · exact .inr ⟨rfl, row, _, hview, hchange hp, congrArg Slot.held (World.write_slot_self _)⟩
        · exact .inr ⟨rfl, row, _, hview, hkeep hp, congrArg Slot.held (World.write_slot_self _)⟩
      · left
        obtain ⟨_, _, rfl⟩ | ⟨_, _, rfl⟩ := hlocked
        · exact (congrArg Slot.held (World.write_slot_of_ne (w := w) (t := t) _ hsame)).trans hheld
        · exact (congrArg Slot.held (World.write_slot_of_ne (w := w) (t := t) _ hsame)).trans hheld
  | insert T' row =>
      obtain ⟨_, ⟨_, _, rfl⟩ | ⟨_, _, rfl⟩⟩ := exec_insert h
      · exact .inl hheld
      · have hne : ¬ (T = T' ∧ id = w.next T') := by
          rintro ⟨rfl, rfl⟩
          rw [hsound.beyond _ _ le_rfl] at hheld
          cases hheld
        exact .inl ((congrArg Slot.held (World.write_slot_of_ne (w := w) (t := t) _ hne)).trans hheld)
  | commit => exact absurd rfl hkind
  | now =>
      obtain ⟨_, rfl⟩ := exec_now h
      exact .inl hheld
  | draw =>
      obtain ⟨_, rfl⟩ := exec_draw h
      exact .inl hheld

theorem Op.within_true (op : Op S β) (T : S.Table) :
    op.Within T (fun _ _ => True) fun _ => True := by
  cases op with
  | lock => exact fun _ _ => ⟨fun _ => trivial, fun _ => trivial⟩
  | insert => exact fun _ _ => trivial
  | select | commit | now | draw => trivial

theorem Op.Within.mono {change' : S.Row T → Option (S.Row T) → Prop} {new' : S.Row T → Prop}
    (hchange : ∀ row version, change row version → change' row version)
    (hnew : ∀ row, new row → new' row) (h : op.Within T change new) :
    op.Within T change' new' := by
  cases op with
  | lock T' id p f =>
      exact fun hT row => ⟨fun hp => hchange _ _ ((h hT row).1 hp),
        fun hp => hchange _ _ ((h hT row).2 hp)⟩
  | insert T' row => exact fun hT id => hnew _ (h hT id)
  | select | commit | now | draw => trivial

namespace TableStep

theorem mono {change' : S.Row T → Option (S.Row T) → Prop} {new' : S.Row T → Prop}
    (h : TableStep t T change new w w') (hchange : ∀ row version, change row version →
      change' row version) (hnew : ∀ row, new row → new' row) :
    TableStep t T change' new' w w' := by
  cases h with
  | same hslot => exact .same hslot
  | lock id row version havailable hview hallowed hslot =>
      exact .lock id row version havailable hview (hchange row version hallowed) hslot
  | insert row hrow hwaits hclashes hentry hslot =>
      exact .insert row (hnew row hrow) hwaits hclashes hentry hslot
  | release keep hkeep hslot => exact .release keep hkeep hslot

/-- A version that appears is a change of one the transaction saw, or a new row. -/
theorem hasVersion (h : TableStep t T change new w w') {id : Nat} {row' : S.Row T}
    (hversion : (w'.slot T id).HasVersion row') : (w.slot T id).HasVersion row'
      ∨ (∃ row, (w.slot T id).HasVersion row ∧ change row (some row')) ∨ new row' := by
  cases h with
  | same hslot => exact .inl (hslot ▸ hversion)
  | lock id₀ row version _ hview hchange hslot =>
      rw [hslot] at hversion
      by_cases hid : id = id₀
      · subst hid
        rw [Function.update_self] at hversion
        obtain hcommitted | ⟨_, hheld⟩ := hversion
        · exact .inl (.inl hcommitted)
        · cases hheld
          exact .inr (.inl ⟨row, Slot.hasVersion_of_view hview, hchange⟩)
      · rw [Function.update_of_ne hid] at hversion
        exact .inl hversion
  | insert row hnew _ _ _ hslot =>
      rw [hslot] at hversion
      by_cases hid : id = w.next T
      · subst hid
        rw [Function.update_self] at hversion
        obtain hcommitted | ⟨_, hheld⟩ := hversion
        · exact .inl (.inl hcommitted)
        · cases hheld
          exact .inr (.inr hnew)
      · rw [Function.update_of_ne hid] at hversion
        exact .inl hversion
  | release keep _ hslot =>
      rw [hslot] at hversion
      exact .inl (Slot.hasVersion_of_release hversion)

/-- A version in a row that is not new is a change of one that was there. -/
theorem hasVersion_before (h : TableStep t T change new w w') {id : Nat} (hbefore : id < w.next T)
    {row' : S.Row T} (hversion : (w'.slot T id).HasVersion row') : (w.slot T id).HasVersion row'
      ∨ ∃ row, (w.slot T id).HasVersion row ∧ change row (some row') := by
  cases h with
  | insert row _ _ _ _ hslot =>
      rw [hslot, Function.update_of_ne (Nat.ne_of_lt hbefore)] at hversion
      exact .inl hversion
  | same hslot => exact .inl (hslot ▸ hversion)
  | lock id₀ row version havailable hview hchange hslot =>
      have hstep : TableStep t T change (fun _ => False) w w' :=
        .lock id₀ row version havailable hview hchange hslot
      exact (hstep.hasVersion hversion).imp_right fun hfrom => hfrom.resolve_right not_false
  | release keep hkeep hslot =>
      have hstep : TableStep t T change (fun _ => False) w w' := .release keep hkeep hslot
      exact (hstep.hasVersion hversion).imp_right fun hfrom => hfrom.resolve_right not_false

/-- A row that was not there has one version at most. -/
theorem hasVersion_unique (h : TableStep t T change new w w') {id : Nat}
    (hempty : w.slot T id = Slot.empty) {row row' : S.Row T}
    (hrow : (w'.slot T id).HasVersion row) (hrow' : (w'.slot T id).HasVersion row') :
    row = row' := by
  have hnone : ∀ {row}, ¬ (w.slot T id).HasVersion row := by
    intro row hversion
    rw [hempty] at hversion
    obtain hversion | ⟨_, hversion⟩ := hversion <;> cases hversion
  cases h with
  | insert inserted _ _ _ _ hslot =>
      by_cases hid : id = w.next T
      · subst hid
        rw [hslot, Function.update_self, hempty] at hrow hrow'
        have hput : ∀ {row}, (Slot.put t (some inserted) Slot.empty).HasVersion row →
            row = inserted := by
          rintro row (hversion | ⟨_, hversion⟩) <;> cases hversion
          rfl
        rw [hput hrow, hput hrow']
      · rw [hslot, Function.update_of_ne hid] at hrow
        exact absurd hrow hnone
  | same hslot => exact absurd (hslot ▸ hrow) hnone
  | lock id₀ seen version havailable hview hchange hslot =>
      by_cases hid : id = id₀
      · subst hid
        exact absurd (Slot.hasVersion_of_view hview) hnone
      · rw [hslot, Function.update_of_ne hid] at hrow
        exact absurd hrow hnone
  | release keep _ hslot =>
      rw [hslot] at hrow
      exact absurd (Slot.hasVersion_of_release hrow) hnone

/-- A committed version was committed before, or was the transaction's own until it committed. -/
theorem committed (h : TableStep t T change new w w') {id : Nat} {version : Option (S.Row T)}
    (hcommitted : (w'.slot T id).committed = version) : (w.slot T id).committed = version
      ∨ (w.slot T id).held = some (t, version) ∧ w'.HasCommitted t := by
  cases h with
  | same hslot => exact .inl (hslot ▸ hcommitted)
  | lock id₀ row changed _ hview hchange hslot =>
      rw [hslot] at hcommitted
      by_cases hid : id = id₀
      · subst hid
        rw [Function.update_self] at hcommitted
        exact .inl hcommitted
      · rw [Function.update_of_ne hid] at hcommitted
        exact .inl hcommitted
  | insert row hnew _ _ _ hslot =>
      rw [hslot] at hcommitted
      by_cases hid : id = w.next T
      · subst hid
        rw [Function.update_self] at hcommitted
        exact .inl hcommitted
      · rw [Function.update_of_ne hid] at hcommitted
        exact .inl hcommitted
  | release keep hkeep hslot =>
      rw [hslot] at hcommitted
      by_cases hheld : (w.slot T id).HeldBy t
      · obtain ⟨own, hown⟩ := hheld
        rw [Slot.release_of_held keep hown] at hcommitted
        cases keep with
        | true => exact .inr ⟨by rw [hown, ← hcommitted]; rfl, hkeep rfl⟩
        | false => exact .inl hcommitted
      · rw [Slot.release_of_not_held keep hheld] at hcommitted
        exact .inl hcommitted

/-- A lock was there before, or the transaction has just put a version under it. -/
theorem held (h : TableStep t T change new w w') {id : Nat} {version : Option (S.Row T)}
    (hheld : (w'.slot T id).held = some (u, version)) :
    (w.slot T id).held = some (u, version) ∧ w'.slot T id = w.slot T id
      ∨ u = t ∧ (w'.slot T id).committed = (w.slot T id).committed
        ∧ ((∃ row, (w.slot T id).view t = some row ∧ change row version)
          ∨ ∃ row, id = w.next T ∧ version = some row ∧ new row
            ∧ (⟨t, w.clock, .inserted T id⟩ : Entry S) ∈ w'.trace) := by
  cases h with
  | same hslot => exact .inl ⟨hslot ▸ hheld, by rw [hslot]⟩
  | lock id₀ row changed _ hview hchange hslot =>
      rw [hslot] at hheld ⊢
      by_cases hid : id = id₀
      · subst hid
        rw [Function.update_self] at hheld ⊢
        cases hheld
        exact .inr ⟨rfl, rfl, .inl ⟨row, hview, hchange⟩⟩
      · rw [Function.update_of_ne hid] at hheld ⊢
        exact .inl ⟨hheld, rfl⟩
  | insert row hnew _ _ hentry hslot =>
      rw [hslot] at hheld ⊢
      by_cases hid : id = w.next T
      · subst hid
        rw [Function.update_self] at hheld ⊢
        cases hheld
        exact .inr ⟨rfl, rfl, .inr ⟨row, rfl, rfl, hnew, hentry⟩⟩
      · rw [Function.update_of_ne hid] at hheld ⊢
        exact .inl ⟨hheld, rfl⟩
  | release keep hkeep hslot =>
      rw [hslot] at hheld ⊢
      obtain ⟨_, hsame⟩ := Slot.held_of_release hheld
      exact .inl ⟨hsame ▸ hheld, hsame⟩

/-- A transaction that has just committed holds nothing. -/
theorem unlocked_of_commit {choice : Choice} {answer : Unit}
    (h : Op.commit.exec t choice w = some (answer, w')) (T : S.Table) (id : Nat) :
    ¬ (w'.slot T id).HeldBy t := by
  obtain rfl := exec_commit h
  rintro ⟨version, hheld⟩
  exact (World.held_of_finish hheld).1 rfl

end TableStep

/-- A committed version gives way only to one that was pending under a lock. -/
theorem System.step_committed {system : System S Req ε α} {c c' : Config S Req ε α}
    {l : Label Req} (h : system.step c l = some c') (T : S.Table) (id : Nat) :
    (c'.world.slot T id).committed = (c.world.slot T id).committed
      ∨ ∃ t, (c.world.slot T id).held = some (t, (c'.world.slot T id).committed) := by
  cases l with
  | spawn t request =>
      simp only [System.step] at h
      split at h
      · cases h
      · cases h
        exact .inl rfl
  | exec t choice =>
      simp only [System.step] at h
      split at h
      · rename_i op next _
        split at h
        · cases h
        · rename_i answer w hexec
          cases h
          obtain hsame | ⟨hheld, _⟩ := (Op.exec_tableStep (op.within_true T) hexec).committed rfl
          · exact .inl hsame.symm
          · exact .inr ⟨t, hheld⟩
      · cases h
  | close t =>
      simp only [System.step] at h
      split at h
      · cases h
        exact .inl Slot.release_false_committed
      · cases h
        exact .inl Slot.release_false_committed
      · cases h
  | crash t =>
      simp only [System.step] at h
      split at h
      · cases h
        exact .inl Slot.release_false_committed
      · cases h
  | tick duration =>
      cases h
      exact .inl rfl

/-! ### Whole programs -/

/-- Every operation the program may come to. -/
def Prog.All (P : ∀ β : Type, Op S β → Prop) : Prog S ε α → Prop
  | .pure _ => True
  | .raise _ => True
  | .exec op next => P _ op ∧ ∀ answer, (next answer).All P

namespace Prog.All

variable {P : ∀ β : Type, Op S β → Prop}

theorem bind {p : Prog S ε α} {next : α → Prog S ε β} (h : p.All P)
    (hnext : ∀ value, (next value).All P) : (p.bind next).All P := by
  induction p with
  | pure value => exact hnext value
  | raise error => trivial
  | exec op rest ih => exact ⟨h.1, fun answer => ih answer (h.2 answer)⟩

theorem mono {P' : ∀ β : Type, Op S β → Prop} {p : Prog S ε α} (h : p.All P)
    (hmono : ∀ β op, P β op → P' β op) : p.All P' := by
  induction p with
  | pure value => trivial
  | raise error => trivial
  | exec op next ih => exact ⟨hmono _ op h.1, fun answer => ih answer (h.2 answer)⟩

theorem and {P' : ∀ β : Type, Op S β → Prop} {p : Prog S ε α} (h : p.All P) (h' : p.All P') :
    p.All fun β op => P β op ∧ P' β op := by
  induction p with
  | pure value => trivial
  | raise error => trivial
  | exec op next ih => exact ⟨⟨h.1, h'.1⟩, fun answer => ih answer (h.2 answer) (h'.2 answer)⟩

theorem mapError {f : ε → ε} {p : Prog S ε α} (h : p.All P) : (p.mapError f).All P := by
  induction p with
  | pure value => trivial
  | raise error => trivial
  | exec op next ih => exact ⟨h.1, fun answer => ih answer (h.2 answer)⟩

theorem perform_bind {op : Op S β} {next : β → Prog S ε α} (hop : P β op)
    (hnext : ∀ answer, (next answer).All P) : (Prog.perform op >>= next).All P :=
  ⟨hop, hnext⟩

theorem lockEach {p : Nat → S.Row T → Bool} {f : S.Row T → Option (S.Row T)}
    (hlock : ∀ id, P _ (.lock T id (p id) f)) (ids : List Nat) :
    (Prog.lockEach T p f ids : Prog S ε _).All P := by
  induction ids with
  | nil => trivial
  | cons id ids ih => exact ⟨hlock id, fun found => ih.bind fun _ => trivial⟩

theorem statement {p : Nat → S.Row T → Bool} {f : S.Row T → Option (S.Row T)}
    (hselect : P _ (.select T p)) (hlock : ∀ id, P _ (.lock T id (p id) f)) :
    (Prog.statement T p f : Prog S ε _).All P :=
  bind ⟨hselect, fun _ => trivial⟩ fun _ => lockEach hlock _

theorem scalar {p : Nat → S.Row T → Bool} (hselect : P _ (.select T p)) :
    (Prog.scalar T p : Prog S ε _).All P :=
  bind ⟨hselect, fun _ => trivial⟩ fun _ => trivial

theorem scalarForUpdate {p : Nat → S.Row T → Bool} (hselect : P _ (.select T p))
    (hlock : ∀ id, P _ (.lock T id (p id) some)) :
    (Prog.scalarForUpdate T p : Prog S ε _).All P :=
  bind (statement hselect hlock) fun _ => trivial

theorem ofExcept (r : Except ε α) : (Prog.ofExcept r : Prog S ε α).All P := by
  cases r <;> trivial

end Prog.All

/-- What neither the others nor the operations of the program make false holds at its end too. -/
theorem Discipline.Safe.frame {D : Discipline S Req} {P : ∀ β : Type, Op S β → Prop}
    {Q : Except ε α → World S Req → Prop} {F : World S Req → Prop} (hstable : D.Stable t F)
    (hkeeps : ∀ {β : Type} {op : Op S β} {w w' : World S Req} {choice : Choice} {answer : β},
      P β op → F w → w.Sound → D.inv w → op.exec t choice w = some (answer, w') → F w')
    {p : Prog S ε α} (hall : p.All P) (h : D.Safe t Q p w) (hF : F w) :
    D.Safe t (fun r w => Q r w ∧ F w) p w := by
  induction p generalizing w with
  | pure value => exact ⟨h, hF⟩
  | raise error => exact ⟨h, hF⟩
  | exec op next ih =>
      intro w₁ hw hallowed choice answer w₂ hexec
      obtain ⟨hkeep, hnext⟩ := h w₁ hw hallowed choice answer w₂ hexec
      exact ⟨hkeep, ih answer (hall.2 answer) hnext
        (hkeeps hall.1 (hstable hF hw) hw.sound hw.inv hexec)⟩

/-- A program is safe if each of its operations keeps the discipline wherever an assertion holds
that the others leave true. -/
theorem Discipline.Safe.of_all {D : Discipline S Req} {P : ∀ β : Type, Op S β → Prop}
    {J : World S Req → Prop} (hstable : D.Stable t J)
    (hkeeps : ∀ {β : Type} {op : Op S β} {w w' : World S Req} {choice : Choice} {answer : β},
      P β op → J w → w.Sound → D.inv w → D.allowed t w op.kind →
      op.exec t choice w = some (answer, w') → D.Keeps t w w' ∧ J w')
    {p : Prog S ε α} (hall : p.All P) (h : J w) : D.Safe t (fun _ w => J w) p w := by
  induction p generalizing w with
  | pure value => exact h
  | raise error => exact h
  | exec op next ih =>
      intro w₁ hw hallowed choice answer w₂ hexec
      obtain ⟨hkeep, hJ⟩ := hkeeps hall.1 (hstable h hw) hw.sound hw.inv hallowed hexec
      exact ⟨hkeep, ih answer (hall.2 answer) hJ⟩

end ReadCommitted
