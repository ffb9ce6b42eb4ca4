import EventsApi.Library.ReadCommitted.Alone

/-!
# Deletions

A `DELETE` that nothing interferes with leaves a pending deletion in every row that matches and has
no other effect. The commit makes all of them at once.
-/

namespace ReadCommitted

variable {S : Schema} {Req ε : Type}

/-- The rows of a table that match as they were last committed. -/
def World.committedRows (w : World S Req) (T : S.Table) (p : Nat → S.Row T → Bool) :
    Set (S.Table × Nat) :=
  {row | row.1 = T ∧ ∃ version, (w.slot T row.2).committed = some version
    ∧ p row.2 version = true}

/-- These rows have a pending deletion, and nothing else has happened to any. -/
structure Removing (t : Txn) (rows : Set (S.Table × Nat)) (w₀ w : World S Req) : Prop where
  inside : ∀ T id, (T, id) ∈ rows → (w₀.slot T id).held = none
    ∧ w.slot T id = ⟨(w₀.slot T id).committed, some (t, none)⟩
  outside : ∀ T id, (T, id) ∉ rows → w.slot T id = w₀.slot T id
  next : w.next = w₀.next

/-- These rows are gone, and nothing else has happened to any. -/
structure Removed (rows : Set (S.Table × Nat)) (w₀ w : World S Req) : Prop where
  inside : ∀ T id, (T, id) ∈ rows → w.slot T id = Slot.empty
  outside : ∀ T id, (T, id) ∉ rows → w.slot T id = w₀.slot T id

variable {t : Txn} {rows : Set (S.Table × Nat)} {w₀ w w' : World S Req} {T : S.Table}

theorem Removing.start (hslot : w.slot = w₀.slot) (hnext : w.next = w₀.next) :
    Removing t ∅ w₀ w where
  inside _ _ := False.elim
  outside T id _ := by rw [hslot]
  next := hnext

theorem Removing.note (h : Removing t rows w₀ w) (event : Event S) :
    Removing t rows w₀ (w.note t event) :=
  ⟨h.inside, h.outside, h.next⟩

theorem Removing.congr {rows' : Set (S.Table × Nat)} (h : Removing t rows w₀ w)
    (hrows : ∀ row, row ∈ rows ↔ row ∈ rows') : Removing t rows' w₀ w :=
  Set.ext hrows ▸ h

theorem Removing.view_inside (h : Removing t rows w₀ w) {id : Nat} (hrow : (T, id) ∈ rows) :
    (w.slot T id).view t = none :=
  Slot.view_of_held (congrArg Slot.held (h.inside T id hrow).2)

section Fresh

variable (hfresh : ∀ T id, ¬ (w₀.slot T id).HeldBy t)

include hfresh

theorem Removing.view_outside (h : Removing t rows w₀ w) {id : Nat} (hrow : (T, id) ∉ rows) :
    (w.slot T id).view t = (w₀.slot T id).committed := by
  rw [h.outside T id hrow, Slot.view_eq_committed (hfresh T id)]

theorem Removing.lock (h : Removing t rows w₀ w) {id : Nat} {row : S.Row T} {p : S.Row T → Bool}
    {choice : Choice} {found : Option (S.Row T)} (hrow : (T, id) ∉ rows)
    (hcommitted : (w₀.slot T id).committed = some row) (hp : p row = true)
    (hexec : (Op.lock T id p fun _ => none).exec t choice w = some (found, w')) :
    found = some row ∧ Removing t (insert (T, id) rows) w₀ w' := by
  have hview := (h.view_outside hfresh hrow).trans hcommitted
  obtain ⟨havailable, hlocked⟩ := exec_lock hexec
  rw [h.outside T id hrow, Slot.availableTo_iff] at havailable
  have hfree := havailable.resolve_right (hfresh T id)
  obtain ⟨hnone, _⟩ | ⟨row', hrow', ⟨_, rfl, rfl⟩ | ⟨hmiss, _⟩⟩ := hlocked
  · cases hnone.symm.trans hview
  · cases hrow'.symm.trans hview
    refine ⟨rfl, fun T' id' hmem => ?_, fun T' id' hmem => ?_, h.next⟩
    · by_cases hsame : T' = T ∧ id' = id
      · obtain ⟨rfl, rfl⟩ := hsame
        refine ⟨hfree, (World.write_slot_self (w := w) (t := t) none).trans ?_⟩
        rw [h.outside T' id' hrow]
        rfl
      · rw [World.note, World.write_slot_of_ne (w := w) (t := t) none hsame]
        refine h.inside T' id' (hmem.resolve_left fun heq => hsame ?_)
        exact ⟨congrArg Prod.fst heq, congrArg Prod.snd heq⟩
    · have hsame : ¬ (T' = T ∧ id' = id) := by
        rintro ⟨rfl, rfl⟩
        exact hmem (.inl rfl)
      exact (World.write_slot_of_ne (w := w) (t := t) none hsame).trans
        (h.outside T' id' fun hold => hmem (.inr hold))
  · cases (hview.symm.trans ‹_›)
    rw [hp] at hmiss
    cases hmiss

theorem Removing.lockEach {p : Nat → S.Row T → Bool} {ids : List Nat} (hnodup : ids.Nodup)
    (h : Removing t rows w₀ w)
    (hids : ∀ id ∈ ids, (T, id) ∈ w₀.committedRows T p ∧ (T, id) ∉ rows) :
    (Prog.lockEach T p (fun _ => none) ids : Prog S ε _).Ensures t (fun r w' => ∃ found,
      r = .ok found ∧ found.map (·.1) = ids
        ∧ Removing t (rows ∪ {row | row.1 = T ∧ row.2 ∈ ids}) w₀ w') w := by
  induction ids generalizing rows w with
  | nil =>
      refine ⟨[], rfl, rfl, h.congr fun row => ⟨.inl, fun hrow => hrow.resolve_right ?_⟩⟩
      rintro ⟨_, hid⟩
      exact List.not_mem_nil hid
  | cons id ids ih =>
      intro choice found w₁ hexec
      obtain ⟨hmatch, hrow⟩ := hids id List.mem_cons_self
      obtain ⟨_, row, hcommitted, hp⟩ := hmatch
      obtain ⟨rfl, hlocked⟩ := h.lock hfresh hrow hcommitted hp hexec
      obtain ⟨hnew, hnodup⟩ := List.nodup_cons.mp hnodup
      refine (ih hnodup hlocked fun id' hid' => ⟨(hids id' (List.mem_cons_of_mem _ hid')).1, ?_⟩).bind
        ?_ ?_
      · rintro (heq | hold)
        · obtain ⟨_, rfl⟩ := Prod.mk.inj heq
          exact hnew hid'
        · exact (hids id' (List.mem_cons_of_mem _ hid')).2 hold
      · rintro value w₂ ⟨_, ⟨⟩, hmore, hremoving⟩
        refine ⟨(id, row) :: value, rfl, congrArg (id :: ·) hmore, ?_⟩
        refine hremoving.congr fun row => ?_
        obtain ⟨T', id'⟩ := row
        simp only [Set.mem_union, Set.mem_insert_iff, Set.mem_ofPred_eq, List.mem_cons,
          Prod.mk.injEq]
        tauto
      · rintro error w₂ ⟨_, ⟨⟩, _⟩

/-- **One statement.** It finds the rows that match and are still there, and leaves a pending deletion
in each. -/
theorem Removing.deleteWhere (hsound : w₀.Sound) (h : Removing t rows w₀ w)
    (p : Nat → S.Row T → Bool) :
    (Prog.deleteWhere T p : Prog S ε _).Ensures t (fun r w' => ∃ found,
      r = .ok found ∧ (found.map (·.1)).Nodup
        ∧ (∀ id, id ∈ found.map (·.1) ↔ (T, id) ∈ w₀.committedRows T p ∧ (T, id) ∉ rows)
        ∧ Removing t (rows ∪ w₀.committedRows T p) w₀ w') w := by
  intro choice seen w₁ hexec
  obtain ⟨rfl, hperm, hseen⟩ := exec_select hexec
  have hnodup : (seen.map (·.1)).Nodup := hperm.nodup_iff.mpr (World.nodup_matching p)
  have hids : ∀ id, id ∈ seen.map (·.1) ↔ (T, id) ∈ w₀.committedRows T p ∧ (T, id) ∉ rows := by
    intro id
    constructor
    · intro hid
      obtain ⟨⟨found, row⟩, hrow, rfl⟩ := List.mem_map.mp hid
      obtain ⟨_, hview, hp⟩ := (hseen found row).mp hrow
      have hout : (T, found) ∉ rows := by
        intro hin
        cases (h.view_inside hin).symm.trans hview
      exact ⟨⟨rfl, row, (h.view_outside hfresh hout).symm.trans hview, hp⟩, hout⟩
    · rintro ⟨⟨_, row, hcommitted, hp⟩, hout⟩
      have hlt : id < w.next T := by
        rw [h.next]
        by_contra hle
        rw [hsound.beyond T id (Nat.le_of_not_lt hle)] at hcommitted
        cases hcommitted
      have hview := (h.view_outside hfresh hout).trans hcommitted
      exact List.mem_map.mpr ⟨(id, row), (hseen id row).mpr ⟨hlt, hview, hp⟩, rfl⟩
  refine ((h.note (.selected T seen)).lockEach hfresh hnodup fun id hid => (hids id).mp hid).mono ?_
  rintro _ w₂ ⟨found, rfl, hfound, hremoving⟩
  refine ⟨found, rfl, hfound ▸ hnodup, hfound ▸ hids, hremoving.congr fun row => ?_⟩
  obtain ⟨T', id'⟩ := row
  by_cases hin : (T', id') ∈ rows
  · exact iff_of_true (.inl hin) (.inl hin)
  · refine or_congr_right ⟨?_, fun hmatch => ?_⟩
    · rintro ⟨rfl, hid⟩
      exact ((hids id').mp hid).1
    · have hT : T' = T := hmatch.1
      subst hT
      exact ⟨rfl, (hids id').mpr ⟨hmatch, hin⟩⟩

theorem Removing.commit (h : Removing t rows w₀ w) :
    Removed rows w₀ ((w.finish t true).note t .committed) where
  inside T id hrow := by
    change (w.slot T id).release t true = _
    rw [(h.inside T id hrow).2]
    exact Slot.release_of_held true rfl
  outside T id hrow := by
    change (w.slot T id).release t true = _
    rw [h.outside T id hrow, Slot.release_of_not_held true (hfresh T id)]

theorem Removed.finish (h : Removed rows w₀ w) : Removed rows w₀ (w.finish t false) where
  inside T id hrow := by
    change (w.slot T id).release t false = _
    rw [h.inside T id hrow]
    rfl
  outside T id hrow := by
    change (w.slot T id).release t false = _
    rw [h.outside T id hrow, Slot.release_of_not_held false (hfresh T id)]

end Fresh

end ReadCommitted
