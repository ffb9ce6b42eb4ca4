import EventsApi.Library.ReadCommitted.Program
import Mathlib.Data.List.Nodup

/-!
# What one transaction can do to the others

The cases of each operation, and what every operation of one transaction leaves alone, seen from
another: the rows the other has locked, its part of the trace, the tokens it drew.
-/

namespace ReadCommitted

variable {S : Schema} {Req ε α β : Type}

/-- What holds of every transaction's steps, seen from transaction `t`: its locks are its own, and
the rest only grows. -/
structure Others (t : Txn) (w w' : World S Req) : Prop where
  mine : ∀ T id version, (w.slot T id).held = some (t, version) → w'.slot T id = w.slot T id
  not_mine : ∀ T id, ¬ (w.slot T id).HeldBy t → ¬ (w'.slot T id).HeldBy t
  next_le : ∀ T, w.next T ≤ w'.next T
  clock_le : w.clock ≤ w'.clock
  drawn : ∃ new, w'.drawn = new ++ w.drawn ∧ ∀ e ∈ new, e.2 ≠ t
  trace : ∃ new, w'.trace = new ++ w.trace ∧ ∀ e ∈ new, e.txn ≠ t
  request : ∀ u request, w.request u = some request → w'.request u = some request

theorem Others.refl (t : Txn) (w : World S Req) : Others t w w where
  mine _ _ _ _ := rfl
  not_mine _ _ := id
  next_le _ := le_rfl
  clock_le := Int.le_refl _
  drawn := ⟨[], rfl, by simp⟩
  trace := ⟨[], rfl, by simp⟩
  request _ _ := id

theorem Others.trans {t : Txn} {w₁ w₂ w₃ : World S Req} (h : Others t w₁ w₂)
    (h' : Others t w₂ w₃) : Others t w₁ w₃ where
  mine T id version hheld := by
    have hsame := h.mine T id version hheld
    rw [h'.mine T id version (by rw [hsame, hheld]), hsame]
  not_mine T id hnot := h'.not_mine T id (h.not_mine T id hnot)
  next_le T := (h.next_le T).trans (h'.next_le T)
  clock_le := Int.le_trans h.clock_le h'.clock_le
  drawn := by
    obtain ⟨new, heq, hnew⟩ := h.drawn
    obtain ⟨new', heq', hnew'⟩ := h'.drawn
    refine ⟨new' ++ new, by rw [heq', heq, List.append_assoc], fun e he => ?_⟩
    exact (List.mem_append.mp he).elim (hnew' e) (hnew e)
  trace := by
    obtain ⟨new, heq, hnew⟩ := h.trace
    obtain ⟨new', heq', hnew'⟩ := h'.trace
    refine ⟨new' ++ new, by rw [heq', heq, List.append_assoc], fun e he => ?_⟩
    exact (List.mem_append.mp he).elim (hnew' e) (hnew e)
  request u request hreq := h'.request u request (h.request u request hreq)

section Others

variable {t : Txn} {w w' : World S Req} (h : Others t w w')

include h

theorem Others.trace_subset : ∀ e ∈ w.trace, e ∈ w'.trace := by
  obtain ⟨new, heq, _⟩ := h.trace
  exact fun e he => heq ▸ List.mem_append_right _ he

theorem Others.drawn_subset : ∀ e ∈ w.drawn, e ∈ w'.drawn := by
  obtain ⟨new, heq, _⟩ := h.drawn
  exact fun e he => heq ▸ List.mem_append_right _ he

theorem Others.mem_trace_of_own {e : Entry S} (he : e ∈ w'.trace) (hown : e.txn = t) :
    e ∈ w.trace := by
  obtain ⟨new, heq, hnew⟩ := h.trace
  rw [heq] at he
  exact (List.mem_append.mp he).resolve_left fun hmem => hnew e hmem hown

theorem Others.mem_drawn_of_own {token : String} (he : (token, t) ∈ w'.drawn) :
    (token, t) ∈ w.drawn := by
  obtain ⟨new, heq, hnew⟩ := h.drawn
  rw [heq] at he
  exact (List.mem_append.mp he).resolve_left fun hmem => hnew _ hmem rfl

theorem Others.held_before {T : S.Table} {id : Nat} {version : Option (S.Row T)}
    (hheld : (w'.slot T id).held = some (t, version)) :
    (w.slot T id).held = some (t, version) := by
  have hmine : (w.slot T id).HeldBy t := by
    by_contra hnot
    exact h.not_mine T id hnot ⟨version, hheld⟩
  obtain ⟨own, hown⟩ := hmine
  rwa [h.mine T id own hown] at hheld

theorem Others.hasCommitted_self (hcommitted : w'.HasCommitted t) : w.HasCommitted t := by
  obtain ⟨e, he, hown, hevent⟩ := hcommitted
  exact ⟨e, h.mem_trace_of_own he hown, hown, hevent⟩

theorem Others.hasCommitted {u : Txn} (hcommitted : w.HasCommitted u) : w'.HasCommitted u := by
  obtain ⟨e, he, hrest⟩ := hcommitted
  exact ⟨e, h.trace_subset e he, hrest⟩

end Others

/-- Time passes, or a client arrives. -/
structure Quiet (w w' : World S Req) : Prop where
  slot : w'.slot = w.slot
  next : w'.next = w.next
  drawn : w'.drawn = w.drawn
  trace : w'.trace = w.trace
  clock_le : w.clock ≤ w'.clock
  request : ∀ u request, w.request u = some request → w'.request u = some request
  newcomer : ∀ u, w'.request u ≠ w.request u → ∀ e ∈ w.trace, e.txn ≠ u

theorem Quiet.others {w w' : World S Req} (h : Quiet w w') (t : Txn) : Others t w w' where
  mine T id _ _ := by rw [h.slot]
  not_mine T id hnot := by rwa [h.slot]
  next_le T := by rw [h.next]
  clock_le := h.clock_le
  drawn := ⟨[], by rw [h.drawn, List.nil_append], by simp⟩
  trace := ⟨[], by rw [h.trace, List.nil_append], by simp⟩
  request := h.request

theorem Quiet.tick (w : World S Req) (duration : Nat) :
    Quiet w { w with clock := w.clock + duration } where
  slot := rfl
  next := rfl
  drawn := rfl
  trace := rfl
  clock_le := Int.le_add_of_nonneg_right (Int.natCast_nonneg _)
  request _ _ := id
  newcomer _ hne := absurd rfl hne

/-- Slots past the sequence are unused, and no token is drawn twice. -/
structure World.Sound (w : World S Req) : Prop where
  beyond : ∀ T id, w.next T ≤ id → w.slot T id = Slot.empty
  drawn_nodup : (w.drawn.map (·.1)).Nodup

/-- A token has one drawer. -/
theorem World.Sound.drawer_unique {w : World S Req} (h : w.Sound) {token : String} {t u : Txn}
    (ht : (token, t) ∈ w.drawn) (hu : (token, u) ∈ w.drawn) : t = u := by
  have heq := List.inj_on_of_nodup_map h.drawn_nodup ht hu rfl
  exact congrArg Prod.snd heq

/-! ### The cases of an operation -/

section Exec

variable {t u : Txn} {choice : Choice} {w w' : World S Req} {T : S.Table}

theorem exec_select {p : Nat → S.Row T → Bool} {rows : List (Nat × S.Row T)}
    (h : (Op.select T p).exec t choice w = some (rows, w')) :
    w' = w.note t (.selected T rows) ∧ (rows.map (·.1)).Perm (w.matching t T p)
      ∧ ∀ id row, (id, row) ∈ rows ↔
        id < w.next T ∧ (w.slot T id).view t = some row ∧ p id row = true := by
  simp only [Op.exec] at h
  split at h
  · rename_i hperm
    cases h
    have hmem : ∀ id, id ∈ choice.order ↔ id ∈ w.matching t T p := fun id => hperm.mem_iff
    refine ⟨rfl, ?_, fun id row => ?_⟩
    · refine List.Perm.trans (List.Perm.of_eq ?_) hperm
      rw [List.map_filterMap]
      refine (List.filterMap_congr fun id hid => ?_).trans List.filterMap_some
      obtain ⟨_, row, hview, _⟩ := World.mem_matching.mp ((hmem id).mp hid)
      simp [hview]
    · rw [List.mem_filterMap]
      constructor
      · rintro ⟨id', hid', hrow⟩
        obtain ⟨hlt, row', hview, hp⟩ := World.mem_matching.mp ((hmem id').mp hid')
        rw [hview] at hrow
        cases hrow
        exact ⟨hlt, hview, hp⟩
      · rintro ⟨hlt, hview, hp⟩
        exact ⟨id, (hmem id).mpr (World.mem_matching.mpr ⟨hlt, row, hview, hp⟩), by rw [hview]; rfl⟩
  · cases h

/-- A statement that finds no two different rows finds one at most. -/
theorem exec_select_length_le_one {p : Nat → S.Row T → Bool} {rows : List (Nat × S.Row T)}
    (h : (Op.select T p).exec t choice w = some (rows, w'))
    (hsame : ∀ e ∈ rows, ∀ e' ∈ rows, e.1 = e'.1) : rows.length ≤ 1 := by
  obtain ⟨_, hperm, _⟩ := exec_select h
  have hnodup : (rows.map (·.1)).Nodup := hperm.nodup_iff.mpr (World.nodup_matching p)
  cases rows with
  | nil => exact Nat.zero_le 1
  | cons e rest =>
      cases rest with
      | nil => exact le_rfl
      | cons e' rest =>
          have heq := hsame e List.mem_cons_self e' (List.mem_cons_of_mem _ List.mem_cons_self)
          rw [List.map_cons, List.nodup_cons, List.map_cons, heq] at hnodup
          exact absurd List.mem_cons_self hnodup.1

/-- A statement on one row finds that row or nothing. -/
theorem exec_select_one {p : Nat → S.Row T → Bool} {rows : List (Nat × S.Row T)} {id : Nat}
    (hp : ∀ id' row, p id' row = true → id' = id)
    (h : (Op.select T p).exec t choice w = some (rows, w')) :
    rows = [] ∨ rows.map (·.1) = [id] := by
  obtain ⟨_, _, hrows⟩ := exec_select h
  have hid : ∀ e ∈ rows, e.1 = id := fun e he => hp _ _ ((hrows e.1 e.2).mp he).2.2
  have hlength := exec_select_length_le_one h fun e he e' he' => (hid e he).trans (hid e' he').symm
  cases rows with
  | nil => exact .inl rfl
  | cons e rest =>
      obtain rfl : rest = [] :=
        List.length_eq_zero_iff.mp (Nat.le_zero.mp (Nat.le_of_succ_le_succ hlength))
      exact .inr (congrArg (fun id => [id]) (hid e List.mem_cons_self))

theorem exec_select_mem (hsound : w.Sound) {p : Nat → S.Row T → Bool} {rows : List (Nat × S.Row T)}
    (h : (Op.select T p).exec t choice w = some (rows, w')) {id : Nat} {row : S.Row T}
    (hview : (w.slot T id).view t = some row) (hp : p id row = true) : (id, row) ∈ rows := by
  obtain ⟨_, _, hrows⟩ := exec_select h
  refine (hrows id row).mpr ⟨?_, hview, hp⟩
  by_contra hbeyond
  rw [hsound.beyond T id (Nat.le_of_not_lt hbeyond)] at hview
  cases hview

theorem exec_lock {id : Nat} {p : S.Row T → Bool} {f : S.Row T → Option (S.Row T)}
    {found : Option (S.Row T)} (h : (Op.lock T id p f).exec t choice w = some (found, w')) :
    (w.slot T id).availableTo t = true ∧
      ((w.slot T id).view t = none ∧ found = none ∧ w' = w
      ∨ ∃ row, (w.slot T id).view t = some row ∧
        (p row = true ∧ found = some row
            ∧ w' = (w.write t T id (f row)).note t (.locked T id row)
          ∨ p row = false ∧ found = none ∧ w' = w.write t T id (some row))) := by
  simp only [Op.exec] at h
  split at h
  · rename_i havailable
    refine ⟨havailable, ?_⟩
    split at h
    · rename_i hview
      cases h
      exact Or.inl ⟨hview, rfl, rfl⟩
    · rename_i row hview
      refine Or.inr ⟨row, hview, ?_⟩
      split at h
      · rename_i hp
        cases h
        exact Or.inl ⟨hp, rfl, rfl⟩
      · rename_i hp
        cases h
        exact Or.inr ⟨Bool.eq_false_iff.mpr hp, rfl, rfl⟩
  · cases h

theorem exec_lock_slot_of_ne {id : Nat} {p : S.Row T → Bool} {f : S.Row T → Option (S.Row T)}
    {found : Option (S.Row T)} (h : (Op.lock T id p f).exec t choice w = some (found, w'))
    {T' : S.Table} {id' : Nat} (hne : ¬ (T' = T ∧ id' = id)) :
    w'.slot T' id' = w.slot T' id' := by
  obtain ⟨_, ⟨_, _, rfl⟩ | ⟨row, _, ⟨_, _, rfl⟩ | ⟨_, _, rfl⟩⟩⟩ := exec_lock h
  · rfl
  · exact World.write_slot_of_ne _ hne
  · exact World.write_slot_of_ne _ hne

theorem exec_insert {row : Nat → S.Row T} {id : Option Nat}
    (h : (Op.insert T row).exec t choice w = some (id, w')) :
    w.insertWaits t T (row (w.next T)) = false ∧
      (w.insertClashes t T (row (w.next T)) = true ∧ id = none ∧ w' = w
      ∨ w.insertClashes t T (row (w.next T)) = false ∧ id = some (w.next T)
        ∧ w' = (w.allocate t T (row (w.next T))).note t (.inserted T (w.next T))) := by
  simp only [Op.exec] at h
  split at h
  · cases h
  · rename_i hwaits
    refine ⟨Bool.eq_false_iff.mpr hwaits, ?_⟩
    split at h
    · rename_i hclash
      cases h
      exact Or.inl ⟨hclash, rfl, rfl⟩
    · rename_i hclash
      cases h
      exact Or.inr ⟨Bool.eq_false_iff.mpr hclash, rfl, rfl⟩

theorem exec_commit {answer : Unit} (h : Op.commit.exec t choice w = some (answer, w')) :
    w' = (w.finish t true).note t .committed := by
  cases h
  rfl

theorem exec_now {answer : Int} (h : Op.now.exec t choice w = some (answer, w')) :
    answer = w.clock ∧ w' = w := by
  cases h
  exact ⟨rfl, rfl⟩

theorem exec_draw {token : String} (h : Op.draw.exec t choice w = some (token, w')) :
    (∀ u, (token, u) ∉ w.drawn) ∧ w' = { w with drawn := (token, t) :: w.drawn } := by
  simp only [Op.exec] at h
  split at h
  · cases h
  · rename_i hfresh
    cases h
    refine ⟨fun u hmem => hfresh (List.any_eq_true.mpr ⟨_, hmem, ?_⟩), rfl⟩
    simp

/-! ### What every operation keeps -/

theorem others_note (hne : u ≠ t) (event : Event S) : Others u w (w.note t event) :=
  { Others.refl u w with
    trace := ⟨[⟨t, w.clock, event⟩], rfl, by simpa using hne.symm⟩ }

theorem others_write {id : Nat} (havailable : (w.slot T id).availableTo t = true) (hne : u ≠ t)
    (version : Option (S.Row T)) : Others u w (w.write t T id version) :=
  { Others.refl u w with
    mine := fun T' id' held hheld => by
      by_cases hsame : T' = T ∧ id' = id
      · obtain ⟨rfl, rfl⟩ := hsame
        exact absurd ⟨held, hheld⟩ (Slot.not_heldBy_of_available havailable hne)
      · exact World.write_slot_of_ne version hsame
    not_mine := fun T' id' hnot => by
      by_cases hsame : T' = T ∧ id' = id
      · obtain ⟨rfl, rfl⟩ := hsame
        rw [World.write_slot_self]
        rintro ⟨held, hheld⟩
        cases hheld
        exact hne rfl
      · rwa [World.write_slot_of_ne version hsame] }

theorem others_finish (hne : u ≠ t) (keep : Bool) : Others u w (w.finish t keep) :=
  { Others.refl u w with
    mine := fun T' id' held hheld => by
      apply Slot.release_of_not_held keep
      rintro ⟨version, hversion⟩
      rw [hheld] at hversion
      cases hversion
      exact hne rfl
    not_mine := fun T' id' hnot => by
      rintro ⟨version, hversion⟩
      rw [(World.held_of_finish hversion).2] at hversion
      exact hnot ⟨version, hversion⟩ }

theorem others_allocate (hsound : w.Sound) (hne : u ≠ t) (row : S.Row T) :
    Others u w (w.allocate t T row) := by
  have havailable : (w.slot T (w.next T)).availableTo t = true := by
    rw [hsound.beyond T _ le_rfl]
    rfl
  refine { others_write havailable hne (some row) with next_le := fun T' => ?_ }
  by_cases hT : T' = T
  · subst hT
    simp [World.allocate]
  · simp [World.allocate, hT]

theorem Op.exec_others {op : Op S β} {answer : β} (hsound : w.Sound)
    (h : op.exec t choice w = some (answer, w')) (hne : u ≠ t) : Others u w w' := by
  cases op with
  | select T p =>
      obtain ⟨rfl, _⟩ := exec_select h
      exact others_note hne _
  | lock T id p f =>
      obtain ⟨havailable, ⟨_, _, rfl⟩ | ⟨row, _, ⟨_, _, rfl⟩ | ⟨_, _, rfl⟩⟩⟩ := exec_lock h
      · exact .refl u _
      · exact (others_write havailable hne _).trans (others_note hne _)
      · exact others_write havailable hne _
  | insert T row =>
      obtain ⟨_, ⟨_, _, rfl⟩ | ⟨_, _, rfl⟩⟩ := exec_insert h
      · exact .refl u _
      · exact (others_allocate hsound hne _).trans (others_note hne _)
  | commit =>
      obtain rfl := exec_commit h
      exact (others_finish hne true).trans (others_note hne _)
  | now =>
      obtain ⟨_, rfl⟩ := exec_now h
      exact .refl u _
  | draw =>
      obtain ⟨_, rfl⟩ := exec_draw h
      exact { Others.refl u w with drawn := ⟨[(answer, t)], rfl, by simpa using hne.symm⟩ }

theorem World.Sound.write (hsound : w.Sound) {id : Nat} {row : S.Row T}
    (hview : (w.slot T id).view t = some row) (version : Option (S.Row T)) :
    (w.write t T id version).Sound where
  beyond T' id' hle := by
    refine (World.write_slot_of_ne version fun hsame => ?_).trans (hsound.beyond T' id' hle)
    obtain ⟨rfl, rfl⟩ := hsame
    rw [hsound.beyond T' id' hle] at hview
    cases hview
  drawn_nodup := hsound.drawn_nodup

theorem World.Sound.note (hsound : w.Sound) (event : Event S) : (w.note t event).Sound :=
  ⟨hsound.beyond, hsound.drawn_nodup⟩

theorem World.Sound.at_clock (hsound : w.Sound) (now : Int) :
    World.Sound { w with clock := now } :=
  ⟨hsound.beyond, hsound.drawn_nodup⟩

theorem World.Sound.finish (hsound : w.Sound) (keep : Bool) : (w.finish t keep).Sound where
  beyond T id hle := by
    change (w.slot T id).release t keep = _
    rw [hsound.beyond T id hle]
    rfl
  drawn_nodup := hsound.drawn_nodup

theorem World.Sound.allocate (hsound : w.Sound) (row : S.Row T) : (w.allocate t T row).Sound where
  beyond T' id hle := by
    by_cases hT : T' = T
    · subst hT
      have hlt : w.next T' < id := Nat.lt_of_succ_le (by simpa [World.allocate] using hle)
      apply (World.write_slot_of_ne _ fun hsame => hlt.ne' hsame.2).trans
      exact hsound.beyond T' id hlt.le
    · have hle' : w.next T' ≤ id := by simpa [World.allocate, hT] using hle
      exact (World.write_slot_of_ne _ fun hsame => hT hsame.1).trans (hsound.beyond T' id hle')
  drawn_nodup := hsound.drawn_nodup

theorem Op.exec_sound {op : Op S β} {answer : β} (hsound : w.Sound)
    (h : op.exec t choice w = some (answer, w')) : w'.Sound := by
  cases op with
  | select T p =>
      obtain ⟨rfl, _⟩ := exec_select h
      exact ⟨hsound.beyond, hsound.drawn_nodup⟩
  | lock T id p f =>
      obtain ⟨_, ⟨_, _, rfl⟩ | ⟨row, hview, ⟨_, _, rfl⟩ | ⟨_, _, rfl⟩⟩⟩ := exec_lock h
      · exact hsound
      · exact ⟨(hsound.write hview (f row)).beyond, hsound.drawn_nodup⟩
      · exact hsound.write hview _
  | insert T row =>
      obtain ⟨_, ⟨_, _, rfl⟩ | ⟨_, _, rfl⟩⟩ := exec_insert h
      · exact hsound
      · exact ⟨(hsound.allocate _).beyond, hsound.drawn_nodup⟩
  | commit =>
      obtain rfl := exec_commit h
      exact ⟨(hsound.finish true).beyond, hsound.drawn_nodup⟩
  | now =>
      obtain ⟨_, rfl⟩ := exec_now h
      exact hsound
  | draw =>
      obtain ⟨hfresh, rfl⟩ := exec_draw h
      refine ⟨hsound.beyond, List.nodup_cons.mpr ⟨fun hmem => ?_, hsound.drawn_nodup⟩⟩
      obtain ⟨⟨token, u⟩, hmem, heq⟩ := List.mem_map.mp hmem
      dsimp only at heq
      exact hfresh u (heq ▸ hmem)

theorem Op.exec_request {op : Op S β} {answer : β} (h : op.exec t choice w = some (answer, w')) :
    w'.request = w.request := by
  cases op with
  | select =>
      obtain ⟨rfl, _⟩ := exec_select h
      rfl
  | lock =>
      obtain ⟨_, ⟨_, _, rfl⟩ | ⟨row, _, ⟨_, _, rfl⟩ | ⟨_, _, rfl⟩⟩⟩ := exec_lock h <;> rfl
  | insert =>
      obtain ⟨_, ⟨_, _, rfl⟩ | ⟨_, _, rfl⟩⟩ := exec_insert h <;> rfl
  | commit =>
      obtain rfl := exec_commit h
      rfl
  | now =>
      obtain ⟨_, rfl⟩ := exec_now h
      rfl
  | draw =>
      obtain ⟨_, rfl⟩ := exec_draw h
      rfl

end Exec

end ReadCommitted
