import EventsApi.Library.ReadCommitted.Alone

/-!
# One transaction after the other, on plain tables

While no two transactions are open at a time, locks and versions do not matter. A transaction works
on its own copy of the tables, `COMMIT` stores the copy, and what has not been stored by the end is
forgotten. A `SELECT FOR UPDATE` is a `SELECT`, and an `UPDATE` or a `DELETE` changes the rows that
match all at once.
-/

namespace ReadCommitted

variable {S : Schema} {Req ε α β : Type}

abbrev Tables (S : Schema) := (T : S.Table) → Nat → Option (S.Row T)

namespace Tables

def put (tables : Tables S) (T : S.Table) (id : Nat) (version : Option (S.Row T)) : Tables S :=
  Function.update tables T (Function.update (tables T) id version)

/-- An `UPDATE` or a `DELETE`. -/
def change (tables : Tables S) (T : S.Table) (p : Nat → S.Row T → Bool)
    (f : S.Row T → Option (S.Row T)) : Tables S :=
  Function.update tables T fun id =>
    (tables T id).bind fun row => if p id row then f row else some row

/-- The same to these rows only. -/
def changeOn (tables : Tables S) (T : S.Table) (ids : List Nat) (p : Nat → S.Row T → Bool)
    (f : S.Row T → Option (S.Row T)) : Tables S :=
  Function.update tables T fun id =>
    if id ∈ ids then (tables T id).bind fun row => if p id row then f row else some row
    else tables T id

/-- The rows that match, in some order. -/
structure Finds (tables : Tables S) (T : S.Table) (p : Nat → S.Row T → Bool)
    (rows : List (Nat × S.Row T)) : Prop where
  nodup : (rows.map (·.1)).Nodup
  mem : ∀ id row, (id, row) ∈ rows ↔ tables T id = some row ∧ p id row = true

variable {tables : Tables S} {T : S.Table} {p : Nat → S.Row T → Bool}

/-- The first of the rows, if there is any. -/
theorem Finds.head {rows : List (Nat × S.Row T)} (h : tables.Finds T p rows)
    {P : Option (Nat × S.Row T) → Prop}
    (hsome : ∀ id row, tables T id = some row → p id row = true → P (some (id, row)))
    (hnone : (∀ id row, tables T id = some row → p id row = false) → P none) : P rows.head? := by
  cases hhead : rows.head? with
  | none =>
      refine hnone fun id row hrow => Bool.eq_false_iff.mpr fun hmatch => ?_
      have hmem := (h.mem id row).mpr ⟨hrow, hmatch⟩
      rw [List.head?_eq_none_iff.mp hhead] at hmem
      exact List.not_mem_nil hmem
  | some found =>
      obtain ⟨hrow, hmatch⟩ := (h.mem found.1 found.2).mp (List.mem_of_mem_head? hhead)
      exact hsome found.1 found.2 hrow hmatch

/-- The row with this number. -/
theorem Finds.eq_singleton {id : Nat} {row : S.Row T} {rows : List (Nat × S.Row T)}
    (h : tables.Finds T (fun id' _ => id' == id) rows) (hrow : tables T id = some row) :
    rows = [(id, row)] := by
  have hmem := (h.mem id row).mpr ⟨hrow, beq_self_eq_true id⟩
  have hall : ∀ found ∈ rows, found.1 = id := fun found hfound =>
    beq_iff_eq.mp ((h.mem found.1 found.2).mp hfound).2
  have hnodup := h.nodup
  cases rows with
  | nil => cases hmem
  | cons found rest =>
      cases rest with
      | nil => rw [List.mem_singleton.mp hmem]
      | cons found' rest =>
          have hsame : found.1 = found'.1 := by rw [hall found (by simp), hall found' (by simp)]
          simp [hsame] at hnodup

/-- Each of the rows is found again under its lock. -/
theorem Finds.filterMap {rows : List (Nat × S.Row T)} (h : tables.Finds T p rows) :
    (rows.map (·.1)).filterMap (fun id => ((tables T id).filter (p id)).map (id, ·)) = rows := by
  rw [List.filterMap_map]
  refine (List.filterMap_congr fun found hfound => ?_).trans List.filterMap_some
  obtain ⟨hrow, hmatch⟩ := (h.mem found.1 found.2).mp hfound
  change ((tables T found.1).filter (p found.1)).map (found.1, ·) = some found
  rw [hrow, Option.filter_some_pos hmatch]
  rfl

/-- A row that does not match is not changed. -/
theorem Finds.changeOn {rows : List (Nat × S.Row T)} (h : tables.Finds T p rows)
    (f : S.Row T → Option (S.Row T)) :
    tables.changeOn T (rows.map (·.1)) p f = tables.change T p f := by
  refine congrArg (Function.update tables T) (funext fun id => ?_)
  split
  · rfl
  · rename_i hmissing
    cases hrow : tables T id with
    | none => rfl
    | some row =>
        have hmiss : ¬ p id row = true := fun hmatch =>
          hmissing (List.mem_map_of_mem ((h.mem id row).mpr ⟨hrow, hmatch⟩))
        rw [Option.bind_some, if_neg hmiss]

theorem change_some : tables.change T p some = tables := by
  rw [change]
  refine (congrArg _ (funext fun id => ?_)).trans (Function.update_eq_self T tables)
  simp

theorem put_of_ne {id id' : Nat} (h : id' ≠ id) (version : Option (S.Row T)) :
    tables.put T id version T id' = tables T id' := by
  simp [put, h]

/-- One row after the other. -/
theorem changeOn_put {id : Nat} {ids : List Nat} (h : id ∉ ids) (f : S.Row T → Option (S.Row T)) :
    (tables.put T id ((tables T id).bind fun row => if p id row then f row else some row)).changeOn
        T ids p f
      = tables.changeOn T (id :: ids) p f := by
  rw [changeOn, changeOn, put, Function.update_idem]
  refine congrArg (Function.update tables T) (funext fun id' => ?_)
  by_cases hid : id' = id
  · subst hid
    simp [h]
  · simp [hid]

/-- No two rows of a table are alike. -/
def Distinct {ρ : Type} (alike : ρ → ρ → Prop) (rows : Nat → Option ρ) : Prop :=
  ∀ id id' row row', rows id = some row → rows id' = some row' → alike row row' → id = id'

theorem Distinct.update {ρ : Type} {alike : ρ → ρ → Prop} {rows : Nat → Option ρ} {id : Nat}
    {row : ρ} (h : Distinct alike rows) (hsymm : ∀ row row', alike row row' → alike row' row)
    (hnew : ∀ id' other, rows id' = some other → ¬ alike row other) :
    Distinct alike (Function.update rows id (some row)) := by
  intro i j a b hi hj halike
  by_cases hid : i = id
  · by_cases hid' : j = id
    · rw [hid, hid']
    · rw [hid, Function.update_self] at hi
      rw [Function.update_of_ne hid'] at hj
      cases hi
      exact (hnew j b hj halike).elim
  · rw [Function.update_of_ne hid] at hi
    by_cases hid' : j = id
    · rw [hid', Function.update_self] at hj
      cases hj
      exact (hnew i a hi (hsymm _ _ halike)).elim
    · rw [Function.update_of_ne hid'] at hj
      exact h i j a b hi hj halike

def Clashes (tables : Tables S) (T : S.Table) (row : S.Row T) : Prop :=
  ∃ id other, tables T id = some other ∧ S.clash T row other = true

end Tables

/-- What a transaction that is alone has before it: what is stored, and its own copy. -/
structure Desk (S : Schema) where
  stored : Tables S
  working : Tables S
  next : S.Table → Nat
  clock : Int
  drawn : List String

namespace Desk

variable (d : Desk S)

def withWorking (tables : Tables S) : Desk S := { d with working := tables }

def insert (T : S.Table) (row : S.Row T) : Desk S :=
  { d with
    working := d.working.put T (d.next T) (some row)
    next := Function.update d.next T (d.next T + 1) }

theorem next_lt_insert (next : S.Table → Nat) (T : S.Table) :
    next T < Function.update next T (next T + 1) T := by
  rw [Function.update_self]
  exact Nat.lt_succ_self _

end Desk

/-- What an operation does on the tables. -/
def Op.Does : {β : Type} → Op S β → Desk S → β → Desk S → Prop
  | _, .select T p, d, rows, d' => d.working.Finds T p rows ∧ d' = d
  | _, .lock T id p f, d, found, d' => found = (d.working T id).filter p
      ∧ d' = d.withWorking (d.working.put T id
        ((d.working T id).bind fun row => if p row then f row else some row))
  | _, .insert T row, d, id, d' =>
      d.working.Clashes T (row (d.next T)) ∧ id = none ∧ d' = d
        ∨ ¬ d.working.Clashes T (row (d.next T)) ∧ id = some (d.next T)
          ∧ d' = d.insert T (row (d.next T))
  | _, .commit, d, _, d' => d' = { d with stored := d.working }
  | _, .now, d, clock, d' => clock = d.clock ∧ d' = d
  | _, .draw, d, token, d' => token ∉ d.drawn ∧ d' = { d with drawn := token :: d.drawn }

/-- Every way through the program ends with this postcondition. -/
def Prog.Yields (Q : Except ε α → Desk S → Prop) : Prog S ε α → Desk S → Prop
  | .pure value, d => Q (.ok value) d
  | .raise error, d => Q (.error error) d
  | .exec op next, d => ∀ answer d', op.Does d answer d' → (next answer).Yields Q d'

/-! ### Locks do not matter -/

/-- The world as one transaction has it before it. -/
def World.desk (w : World S Req) (t : Txn) : Desk S where
  stored T id := (w.slot T id).committed
  working T id := (w.slot T id).view t
  next := w.next
  clock := w.clock
  drawn := w.drawn.map (·.1)

section Exec

variable {t : Txn} {w w' : World S Req} {choice : Choice}

theorem desk_note (event : Event S) : (w.note t event).desk t = w.desk t := rfl

theorem view_write {T : S.Table} {id : Nat} (version : Option (S.Row T)) :
    (fun T' id' => ((w.write t T id version).slot T' id').view t)
      = Tables.put (fun T' id' => (w.slot T' id').view t) T id version := by
  funext T' id'
  by_cases hT : T' = T
  · subst hT
    by_cases hid : id' = id
    · subst hid
      simp [Tables.put, World.write_slot_self]
    · rw [World.write_slot_of_ne _ fun h => hid h.2]
      simp [Tables.put, hid]
  · rw [World.write_slot_of_ne _ fun h => hT h.1]
    simp [Tables.put, hT]

theorem desk_write {T : S.Table} {id : Nat} (version : Option (S.Row T)) :
    (w.write t T id version).desk t
      = (w.desk t).withWorking ((w.desk t).working.put T id version) := by
  have hstored : (fun T' id' => ((w.write t T id version).slot T' id').committed)
      = fun T' id' => (w.slot T' id').committed :=
    funext fun T' => funext fun id' => write_committed id version T' id'
  simp only [World.desk, Desk.withWorking, hstored, view_write]
  rfl

theorem desk_lock {T : S.Table} {id : Nat} {p : S.Row T → Bool} {f : S.Row T → Option (S.Row T)}
    {found : Option (S.Row T)} (hexec : (Op.lock T id p f).exec t choice w = some (found, w')) :
    (Op.lock T id p f).Does (w.desk t) found (w'.desk t) := by
  have hworking : (w.desk t).working T id = (w.slot T id).view t := rfl
  simp only [Op.Does, hworking]
  obtain ⟨_, ⟨hview, rfl, rfl⟩ | ⟨row, hview, ⟨hp, rfl, rfl⟩ | ⟨hp, rfl, rfl⟩⟩⟩ := exec_lock hexec
  · rw [hview]
    refine ⟨rfl, ?_⟩
    have hsame : (w'.desk t).working.put T id none = (w'.desk t).working := by
      rw [Tables.put, ← hview, ← hworking, Function.update_eq_self, Function.update_eq_self]
    rw [Option.bind_none, hsame]
    rfl
  · rw [hview, Option.bind_some, if_pos hp, desk_note, desk_write]
    exact ⟨(Option.filter_some_pos hp).symm, rfl⟩
  · have hmiss : ¬ p row = true := Bool.eq_false_iff.mp hp
    rw [hview, Option.bind_some, if_neg hmiss, desk_write]
    exact ⟨(Option.filter_some_neg hp).symm, rfl⟩

/-- What is stored and what the transaction sees is the same after a commit. -/
theorem desk_commit :
    ((w.finish t true).note t .committed).desk t
      = { w.desk t with stored := (w.desk t).working } := by
  have hstored : (fun T id => ((w.finish t true).slot T id).committed)
      = fun T id => (w.slot T id).view t :=
    funext fun T => funext fun id => Slot.release_true_committed
  have hworking : (fun T id => ((w.finish t true).slot T id).view t)
      = fun T id => (w.slot T id).view t := by
    rw [← hstored]
    funext T id
    refine Slot.view_eq_committed ?_
    rintro ⟨version, hheld⟩
    exact (World.held_of_finish hheld).1 rfl
  change Desk.mk _ _ _ _ _ = _
  rw [World.desk]
  congr 1

/-- **One operation.** -/
theorem Op.exec_does {op : Op S β} {answer : β} (hsound : w.Sound)
    (hexec : op.exec t choice w = some (answer, w')) : op.Does (w.desk t) answer (w'.desk t) := by
  have hbefore : ∀ {T : S.Table} {id : Nat} {row : S.Row T}, (w.slot T id).view t = some row →
      id < w.next T := by
    intro T id row hview
    by_contra hle
    rw [hsound.beyond T id (Nat.le_of_not_lt hle)] at hview
    cases hview
  cases op with
  | select T p =>
      obtain ⟨rfl, hperm, hrows⟩ := exec_select hexec
      refine ⟨⟨hperm.nodup_iff.mpr (World.nodup_matching p), fun id row => ?_⟩, rfl⟩
      rw [hrows]
      exact ⟨fun h => h.2, fun h => ⟨hbefore h.1, h⟩⟩
  | lock T id p f => exact desk_lock hexec
  | insert T row =>
      have hclashes : w.insertClashes t T (row (w.next T)) = true
          ↔ (w.desk t).working.Clashes T (row (w.next T)) := by
        rw [World.insertClashes, List.any_eq_true]
        constructor
        · rintro ⟨id, _, hclash⟩
          obtain ⟨other, hview, hclash⟩ := (Option.any_eq_true _ _).mp hclash
          exact ⟨id, other, hview, hclash⟩
        · rintro ⟨id, other, hview, hclash⟩
          refine ⟨id, List.mem_range.mpr (hbefore hview), ?_⟩
          exact (Option.any_eq_true _ _).mpr ⟨other, hview, hclash⟩
      obtain ⟨_, ⟨hclash, rfl, rfl⟩ | ⟨hclash, rfl, rfl⟩⟩ := exec_insert hexec
      · exact .inl ⟨hclashes.mp hclash, rfl, rfl⟩
      · refine .inr ⟨fun h => ?_, rfl, ?_⟩
        · rw [hclashes.mpr h] at hclash
          cases hclash
        · calc (w.allocate t T (row (w.next T))).desk t
              = { (w.write t T (w.next T) (some (row (w.next T)))).desk t with
                  next := Function.update w.next T (w.next T + 1) } := rfl
            _ = (w.desk t).insert T (row (w.next T)) := by
                rw [desk_write]
                rfl
  | commit =>
      obtain rfl := exec_commit hexec
      exact desk_commit
  | now =>
      obtain ⟨rfl, rfl⟩ := exec_now hexec
      exact ⟨rfl, rfl⟩
  | draw =>
      obtain ⟨hfresh, rfl⟩ := exec_draw hexec
      refine ⟨fun hmem => ?_, rfl⟩
      obtain ⟨⟨token, u⟩, he, rfl⟩ := List.mem_map.mp hmem
      exact hfresh u he

end Exec

/-- No transaction is open. -/
structure World.Idle (w : World S Req) : Prop where
  sound : w.Sound
  unlocked : ∀ T id u, ¬ (w.slot T id).HeldBy u

theorem World.Idle.tick {w : World S Req} (h : w.Idle) (clock : Int) :
    ({ w with clock := clock } : World S Req).Idle :=
  ⟨⟨h.sound.beyond, h.sound.drawn_nodup⟩, h.unlocked⟩

theorem World.Initial.idle {w : World S Req} (h : w.Initial) : w.Idle where
  sound := ⟨h.beyond, h.undrawn ▸ List.nodup_nil⟩
  unlocked T id u hheld := by
    obtain ⟨version, hheld⟩ := hheld
    rw [h.unlocked T id] at hheld
    cases hheld

/-- What is stored, when no transaction is open. -/
structure Shelf (S : Schema) where
  rows : Tables S
  next : S.Table → Nat
  clock : Int
  drawn : List String

def World.shelf (w : World S Req) : Shelf S where
  rows T id := (w.slot T id).committed
  next := w.next
  clock := w.clock
  drawn := w.drawn.map (·.1)

/-- A transaction begins with a copy of what is stored. -/
def Shelf.desk (shelf : Shelf S) : Desk S where
  stored := shelf.rows
  working := shelf.rows
  next := shelf.next
  clock := shelf.clock
  drawn := shelf.drawn

/-- The end of a transaction forgets its copy. -/
def Desk.shelf (d : Desk S) : Shelf S where
  rows := d.stored
  next := d.next
  clock := d.clock
  drawn := d.drawn

/-- What would be stored if the transaction committed now. -/
def Desk.draft (d : Desk S) : Shelf S where
  rows := d.working
  next := d.next
  clock := d.clock
  drawn := d.drawn

/-- Another content of a table. -/
def Shelf.replace (shelf : Shelf S) (T : S.Table) (rows : Nat → Option (S.Row T)) : Shelf S :=
  { shelf with rows := Function.update shelf.rows T rows }

@[simp]
theorem Shelf.replace_self (shelf : Shelf S) (T : S.Table) (rows : Nat → Option (S.Row T)) :
    (shelf.replace T rows).rows T = rows := by
  simp [replace]

theorem Shelf.replace_of_ne (shelf : Shelf S) {T T' : S.Table} (h : T' ≠ T)
    (rows : Nat → Option (S.Row T)) : (shelf.replace T rows).rows T' = shelf.rows T' := by
  simp [replace, h]

@[simp]
theorem Shelf.replace_rows (shelf : Shelf S) (T : S.Table) :
    shelf.replace T (shelf.rows T) = shelf := by
  simp [replace]

@[simp]
theorem Shelf.replace_replace (shelf : Shelf S) (T : S.Table)
    (rows rows' : Nat → Option (S.Row T)) : (shelf.replace T rows).replace T rows' = shelf.replace T rows' := by
  simp [replace]

section Runs

variable {t : Txn} {w w' : World S Req} {p : Prog S ε α} {r : Except ε α}
  {Q : Except ε α → Desk S → Prop}

theorem World.Idle.desk (h : w.Idle) (t : Txn) : w.desk t = w.shelf.desk := by
  have hview : (fun T id => (w.slot T id).view t) = fun T id => (w.slot T id).committed :=
    funext fun T => funext fun id => Slot.view_eq_committed (h.unlocked T id t)
  rw [World.desk, hview]
  rfl

theorem Prog.Runs.yields (hruns : p.Runs t w r w') (hfree : LocksFree t w) (hsound : w.Sound)
    (h : p.Yields Q (w.desk t)) : ∃ d, Q r d ∧ w'.Idle ∧ w'.shelf = d.shelf := by
  have hclosed : ∀ {w : World S Req}, LocksFree t w → w.Sound →
      (w.finish t false).Idle ∧ (w.finish t false).shelf = (w.desk t).shelf := by
    intro w hfree hsound
    refine ⟨⟨hsound.finish false, fun T id u => ?_⟩, ?_⟩
    · rintro ⟨version, hheld⟩
      obtain ⟨hne, hsame⟩ := World.held_of_finish hheld
      exact hne (hfree T id u ⟨version, hsame ▸ hheld⟩)
    · have hrows : (fun T id => ((w.finish t false).slot T id).committed)
          = fun T id => (w.slot T id).committed :=
        funext fun T => funext fun id => Slot.release_false_committed
      rw [World.shelf, hrows]
      rfl
  induction hruns with
  | pure value w => exact ⟨_, h, hclosed hfree hsound⟩
  | raise error w => exact ⟨_, h, hclosed hfree hsound⟩
  | exec hexec _ ih =>
      exact ih (hfree.exec hsound hexec) (Op.exec_sound hsound hexec)
        (h _ _ (Op.exec_does hsound hexec))

/-- **A whole transaction.** What a program yields on the stored tables is what it leaves there when
it runs alone. -/
theorem World.Idle.runs (hidle : w.Idle) (h : p.Yields Q w.shelf.desk) (hruns : p.Runs t w r w') :
    ∃ d, Q r d ∧ w'.Idle ∧ w'.shelf = d.shelf :=
  hruns.yields (fun T id u hheld => absurd hheld (hidle.unlocked T id u)) hidle.sound
    (hidle.desk t ▸ h)

end Runs

/-! ### Rules -/

namespace Prog.Yields

variable {Q : Except ε α → Desk S → Prop} {Q' : Except ε β → Desk S → Prop} {p : Prog S ε α}
  {d : Desk S}

theorem mono {Q₁ : Except ε α → Desk S → Prop} (h : p.Yields Q d)
    (hmono : ∀ r d, Q r d → Q₁ r d) : p.Yields Q₁ d := by
  induction p generalizing d with
  | pure value => exact hmono _ _ h
  | raise error => exact hmono _ _ h
  | exec op next ih => exact fun answer d' hdoes => ih answer (h answer d' hdoes)

theorem bind {next : α → Prog S ε β} (h : p.Yields Q d)
    (hok : ∀ value d, Q (.ok value) d → (next value).Yields Q' d)
    (herror : ∀ error d, Q (.error error) d → Q' (.error error) d) :
    (p.bind next).Yields Q' d := by
  induction p generalizing d with
  | pure value => exact hok value d h
  | raise error => exact herror error d h
  | exec op rest ih => exact fun answer d' hdoes => ih answer (h answer d' hdoes)

theorem mapError {f : ε → ε} {Q₁ : Except ε α → Desk S → Prop} (h : p.Yields Q d)
    (hok : ∀ value d, Q (.ok value) d → Q₁ (.ok value) d)
    (herror : ∀ error d, Q (.error error) d → Q₁ (.error (f error)) d) :
    (p.mapError f).Yields Q₁ d := by
  induction p generalizing d with
  | pure value => exact hok value d h
  | raise error => exact herror error d h
  | exec op rest ih => exact fun answer d' hdoes => ih answer (h answer d' hdoes)

/-- The second part goes on from each end of the first. -/
theorem after {next : α → Prog S ε β}
    (h : p.Yields (fun r d => (Prog.ofExcept r >>= next).Yields Q' d) d) :
    (p >>= next).Yields Q' d :=
  h.bind (fun _ _ => id) fun _ _ => id

theorem ok_bind {value : α} {next : α → Prog S ε β} (h : (next value).Yields Q' d) :
    (Prog.ofExcept (.ok value) >>= next).Yields Q' d :=
  h

theorem map {f : α → β} (h : p.Yields (fun r => Q' (r.map f)) d) :
    (p.bind fun value => .pure (f value)).Yields Q' d :=
  h.bind (fun _ _ => id) fun _ _ => id

/-- The first part always returns, with this. -/
theorem bind_ok {P : α → Desk S → Prop} {next : α → Prog S ε β}
    (h : p.Yields (fun r d => ∃ value, r = .ok value ∧ P value d) d)
    (hnext : ∀ value d, P value d → (next value).Yields Q' d) : (p.bind next).Yields Q' d := by
  refine h.bind ?_ ?_
  · rintro value d ⟨_, ⟨⟩, hvalue⟩
    exact hnext value d hvalue
  · rintro _ _ ⟨_, ⟨⟩, _⟩

variable {T : S.Table}

theorem now {next : Int → Prog S ε α} (h : (next d.clock).Yields Q d) :
    (Prog.now >>= next).Yields Q d := by
  rintro _ _ ⟨rfl, rfl⟩
  exact h

theorem commit {Q : Except ε Unit → Desk S → Prop}
    (h : Q (.ok ()) { d with stored := d.working }) : Prog.commit.Yields Q d := by
  rintro _ _ rfl
  exact h

theorem commit_bind {next : Unit → Prog S ε α}
    (h : (next ()).Yields Q { d with stored := d.working }) :
    (Prog.commit >>= next).Yields Q d := by
  rintro _ _ rfl
  exact h

theorem draw {next : String → Prog S ε α} (h : ∀ token, token ∉ d.drawn →
    (next token).Yields Q { d with drawn := token :: d.drawn }) :
    (Prog.draw >>= next).Yields Q d := by
  rintro token _ ⟨hfresh, rfl⟩
  exact h token hfresh

/-- A `SELECT` of at most one row: it finds one that matches, or there is none. -/
theorem scalar {q : Nat → S.Row T → Bool} {next : Option (Nat × S.Row T) → Prog S ε α}
    (hsome : ∀ id row, d.working T id = some row → q id row = true →
      (next (some (id, row))).Yields Q d)
    (hnone : (∀ id row, d.working T id = some row → q id row = false) → (next none).Yields Q d) :
    (Prog.scalar T q >>= next).Yields Q d := by
  rintro rows _ ⟨hfinds, rfl⟩
  exact hfinds.head (P := fun found => (next found).Yields Q _) hsome hnone

theorem lockEach {q : Nat → S.Row T → Bool} {f : S.Row T → Option (S.Row T)} {ids : List Nat}
    (hnodup : ids.Nodup) : (Prog.lockEach T q f ids : Prog S ε _).Yields (fun r d' =>
      r = .ok (ids.filterMap fun id => ((d.working T id).filter (q id)).map (id, ·))
        ∧ d' = d.withWorking (d.working.changeOn T ids q f)) d := by
  induction ids generalizing d with
  | nil =>
      refine ⟨rfl, ?_⟩
      simp [Tables.changeOn, Desk.withWorking]
  | cons id ids ih =>
      obtain ⟨hnew, hnodup⟩ := List.nodup_cons.mp hnodup
      rintro found _ ⟨rfl, rfl⟩
      refine bind (ih hnodup) ?_ ?_
      · rintro value _ ⟨⟨⟩, rfl⟩
        refine ⟨congrArg Except.ok ?_, congrArg d.withWorking ?_⟩
        · have hrest : ∀ version, ids.filterMap
                (fun id' => ((d.working.put T id version T id').filter (q id')).map (id', ·))
              = ids.filterMap fun id' => ((d.working T id').filter (q id')).map (id', ·) := by
            intro version
            refine List.filterMap_congr fun id' hid' => ?_
            rw [Tables.put_of_ne fun heq : id' = id => hnew (heq ▸ hid')]
          refine (congrArg _ (hrest _)).trans ?_
          cases hfound : (d.working T id).filter (q id) with
          | none => simp [hfound]
          | some row => simp [hfound]
        · exact Tables.changeOn_put hnew f
      · rintro _ _ ⟨⟨⟩, _⟩

theorem statement {q : Nat → S.Row T → Bool} {f : S.Row T → Option (S.Row T)}
    {next : List (Nat × S.Row T) → Prog S ε α}
    (h : ∀ rows, d.working.Finds T q rows →
      (next rows).Yields Q (d.withWorking (d.working.change T q f))) :
    (Prog.statement T q f >>= next).Yields Q d := by
  rintro rows d ⟨hfinds, rfl⟩
  refine bind (lockEach hfinds.nodup) ?_ ?_
  · rintro _ _ ⟨⟨⟩, rfl⟩
    rw [hfinds.changeOn, hfinds.filterMap]
    exact h rows hfinds
  · rintro _ _ ⟨⟨⟩, _⟩

/-- A `SELECT FOR UPDATE` of at most one row changes nothing. -/
theorem scalarForUpdate {q : Nat → S.Row T → Bool} {next : Option (Nat × S.Row T) → Prog S ε α}
    (hsome : ∀ id row, d.working T id = some row → q id row = true →
      (next (some (id, row))).Yields Q d)
    (hnone : (∀ id row, d.working T id = some row → q id row = false) → (next none).Yields Q d) :
    (Prog.scalarForUpdate T q >>= next).Yields Q d := by
  have hsame : d.withWorking (d.working.change T q some) = d := by
    rw [Tables.change_some]
    rfl
  rw [Prog.scalarForUpdate, Prog.bind_eq, Prog.bind_eq, Prog.bind_assoc]
  refine statement fun rows hfinds => ?_
  rw [hsame]
  exact hfinds.head (P := fun found => (next found).Yields Q _) hsome hnone

end Prog.Yields

/-! ### Histories -/

/-- A history that an abstract state goes through, one request after the other. -/
inductive Abides {σ : Type*} (serves : σ → Served Req ε α → σ → Prop) (start : σ) :
    List (Served Req ε α) → σ → Prop where
  | start : Abides serves start [] start
  | next {history : List (Served Req ε α)} {a a' : σ} {served : Served Req ε α}
      (h : Abides serves start history a) (hserves : serves a served a') :
      Abides serves start (served :: history) a'

/-- What an abstract state keeps with every request. -/
theorem Abides.invariant {σ : Type*} {serves : σ → Served Req ε α → σ → Prop} {start a : σ}
    {history : List (Served Req ε α)} {J : σ → Prop} (h : Abides serves start history a)
    (hstart : J start) (hkeeps : ∀ a served a', J a → serves a served a' → J a') : J a := by
  induction h with
  | start => exact hstart
  | next _ hserves ih => exact hkeeps _ _ _ ih hserves

/-- **Refinement, one request after the other.** When each transaction serves its request as the
abstract state may, so does every history. -/
theorem System.Serially.abides {system : System S Req ε α} {σ : Type*}
    {serves : σ → Served Req ε α → σ → Prop} {shows : σ → Shelf S → Prop} {a : σ}
    {history : List (Served Req ε α)} {w w' : World S Req}
    (hclock : ∀ a shelf clock, shows a shelf → shows a { shelf with clock := clock })
    (hserves : ∀ a shelf request, shows a shelf → (system.handler request).Yields
      (fun r d => ∃ a', serves a ⟨shelf.clock, request, r⟩ a' ∧ shows a' d.shelf) shelf.desk)
    (hidle : w.Idle) (hshows : shows a w.shelf) (h : system.Serially w history w') :
    ∃ a', Abides serves a history a' ∧ w'.Idle ∧ shows a' w'.shelf := by
  induction h with
  | start => exact ⟨a, .start, hidle, hshows⟩
  | @next history w₁ w₂ t served _ _ hruns ih =>
      obtain ⟨a₁, habides, hidle₁, hshows₁⟩ := ih
      obtain ⟨d, ⟨a₂, hserved, hshows₂⟩, hidle₂, hshelf⟩ := (hidle₁.tick served.time).runs
        (hserves a₁ _ served.request (hclock a₁ _ served.time hshows₁)) hruns
      exact ⟨a₂, .next habides hserved, hidle₂, hshelf ▸ hshows₂⟩

end ReadCommitted
