import EventsApi.Library.ReadCommitted.TableStep

/-!
# Unique constraints

An insertion waits for what others are changing and is refused where it clashes with what it sees.
So no transaction ever sees two rows that a unique constraint keeps apart, as long as rows keep what
they are told apart by.
-/

namespace ReadCommitted

variable {S : Schema} {Req : Type} {T : S.Table} {t u : Txn} {w w' : World S Req}

/-- No two rows of a table clash: not where one transaction sees both, and not where two
transactions are changing one each. -/
structure Unique (T : S.Table) (w : World S Req) : Prop where
  seen : ∀ t id id' row row', id ≠ id' → (w.slot T id).view t = some row →
    (w.slot T id').view t = some row' → S.clash T row row' = false
  pending : ∀ t u id id' row row', t ≠ u →
    (w.slot T id).held = some (t, some row) → (w.slot T id).committed ≠ some row →
    (w.slot T id').held = some (u, some row') → (w.slot T id').committed ≠ some row' →
    S.clash T row row' = false

/-- The row is deleted, or clashes with the same rows as before. -/
def KeepsClashes (T : S.Table) (row : S.Row T) (version : Option (S.Row T)) : Prop :=
  ∀ row', version = some row' → ∀ other, S.clash T row' other = S.clash T row other

theorem Slot.view_put_of_ne {ρ : Type} {s : Slot ρ} (version : Option ρ)
    (havailable : s.availableTo t = true) (hne : u ≠ t) : (s.put t version).view u = s.view u := by
  rw [view_eq_committed (not_heldBy_of_available havailable hne)]
  apply view_eq_committed
  rintro ⟨_, hheld⟩
  cases hheld
  exact hne rfl

/-- There are more transactions than hold locks on two rows. -/
theorem Unique.committed (h : Unique T w) {id id' : Nat} {row row' : S.Row T} (hne : id ≠ id')
    (hrow : (w.slot T id).committed = some row) (hrow' : (w.slot T id').committed = some row') :
    S.clash T row row' = false := by
  have hfree : ∀ s : Slot (S.Row T), ∃ bound, ∀ t, bound < t → ¬ s.HeldBy t := by
    intro s
    by_cases hheld : ∃ t, s.HeldBy t
    · obtain ⟨t, version, hheld⟩ := hheld
      refine ⟨t, ?_⟩
      rintro u hlt ⟨version', hheld'⟩
      rw [hheld] at hheld'
      cases hheld'
      exact absurd hlt (Nat.lt_irrefl t)
    · exact ⟨0, fun u _ hu => hheld ⟨u, hu⟩⟩
  obtain ⟨bound, hbound⟩ := hfree (w.slot T id)
  obtain ⟨bound', hbound'⟩ := hfree (w.slot T id')
  apply h.seen (bound + bound' + 1) id id' row row' hne
  · rw [Slot.view_eq_committed (hbound _ (Nat.lt_succ_of_le (Nat.le_add_right _ _))), hrow]
  · rw [Slot.view_eq_committed (hbound' _ (Nat.lt_succ_of_le (Nat.le_add_left _ _))), hrow']

section Step

variable (hsymm : ∀ row row' : S.Row T, S.clash T row row' = S.clash T row' row)

include hsymm

/-- A version put in one slot, by a transaction that could lock it, keeps the constraint if it
clashes with nothing that the transaction sees and with nothing that others are changing. -/
theorem Unique.put (h : Unique T w) {id₀ : Nat} {version : Option (S.Row T)}
    (havailable : (w.slot T id₀).availableTo t = true)
    (hslot : w'.slot T = Function.update (w.slot T) id₀ ((w.slot T id₀).put t version))
    (hseen : ∀ id row row', id ≠ id₀ → version = some row → (w.slot T id).view t = some row' →
      S.clash T row row' = false)
    (hpending : ∀ u id row row', u ≠ t → version = some row → (w.slot T id₀).committed ≠ some row →
      (w.slot T id).held = some (u, some row') → (w.slot T id).committed ≠ some row' →
      S.clash T row row' = false) : Unique T w' := by
  have hsame : ∀ id, id ≠ id₀ → w'.slot T id = w.slot T id := fun id hid => by
    rw [hslot, Function.update_of_ne hid]
  have hput : w'.slot T id₀ = (w.slot T id₀).put t version := by
    rw [hslot, Function.update_self]
  have hheld : ∀ id u row, u ≠ t → (w'.slot T id).held = some (u, some row) →
      w'.slot T id = w.slot T id := by
    intro id u row hne hheld
    apply hsame id
    rintro rfl
    rw [hput] at hheld
    cases hheld
    exact hne rfl
  constructor
  · intro u id id' row row' hne hrow hrow'
    by_cases hu : u = t
    · subst hu
      by_cases hid : id = id₀
      · subst hid
        rw [hput, Slot.view_put] at hrow
        rw [hsame id' hne.symm] at hrow'
        exact hseen id' row row' hne.symm hrow hrow'
      · rw [hsame id hid] at hrow
        by_cases hid' : id' = id₀
        · subst hid'
          rw [hput, Slot.view_put] at hrow'
          rw [hsymm]
          exact hseen id row' row hid hrow' hrow
        · rw [hsame id' hid'] at hrow'
          exact h.seen u id id' row row' hne hrow hrow'
    · have hview : ∀ id, (w'.slot T id).view u = (w.slot T id).view u := by
        intro id
        by_cases hid : id = id₀
        · rw [hid, hput, Slot.view_put_of_ne version havailable hu]
        · rw [hsame id hid]
      rw [hview] at hrow hrow'
      exact h.seen u id id' row row' hne hrow hrow'
  · have hown : ∀ u id id' row row', u ≠ t → (w'.slot T id).held = some (t, some row) →
        (w'.slot T id).committed ≠ some row → (w.slot T id').held = some (u, some row') →
        (w.slot T id').committed ≠ some row' → S.clash T row row' = false := by
      intro u id id' row row' hne hrow hchanged hrow' hchanged'
      by_cases hid : id = id₀
      · subst hid
        rw [hput] at hrow hchanged
        cases hrow
        exact hpending u id' row row' hne rfl hchanged hrow' hchanged'
      · rw [hsame id hid] at hrow hchanged
        exact h.pending t u id id' row row' (Ne.symm hne) hrow hchanged hrow' hchanged'
    intro u v id id' row row' hne hrow hchanged hrow' hchanged'
    by_cases hu : u = t
    · subst hu
      have hsame' := hheld id' v row' (Ne.symm hne) hrow'
      rw [hsame'] at hrow' hchanged'
      exact hown v id id' row row' (Ne.symm hne) hrow hchanged hrow' hchanged'
    · have hsame' := hheld id u row hu hrow
      rw [hsame'] at hrow hchanged
      by_cases hv : v = t
      · subst hv
        rw [hsymm]
        exact hown u id' id row' row hu hrow' hchanged' hrow hchanged
      · have hsame'' := hheld id' v row' hv hrow'
        rw [hsame''] at hrow' hchanged'
        exact h.pending u v id id' row row' hne hrow hchanged hrow' hchanged'

/-- The end of a transaction keeps the constraint. -/
theorem Unique.release (h : Unique T w) {keep : Bool}
    (hslot : ∀ id, w'.slot T id = (w.slot T id).release t keep) : Unique T w' := by
  have hother : ∀ id u version, (w'.slot T id).held = some (u, version) →
      u ≠ t ∧ w'.slot T id = w.slot T id := by
    intro id u version hheld
    rw [hslot] at hheld ⊢
    exact Slot.held_of_release hheld
  -- what everybody sees of a row that they do not hold is what `t` saw, or the committed version
  have hcommitted : ∀ id, (w'.slot T id).committed
      = if keep then (w.slot T id).view t else (w.slot T id).committed := by
    intro id
    rw [hslot, Slot.release_committed]
  have hfree : ∀ id id' row row', id ≠ id' → (w'.slot T id).committed = some row →
      (w'.slot T id').committed = some row' → S.clash T row row' = false := by
    intro id id' row row' hne hrow hrow'
    rw [hcommitted] at hrow hrow'
    cases keep with
    | true => exact h.seen t id id' row row' hne hrow hrow'
    | false => exact h.committed hne hrow hrow'
  have hmixed : ∀ u id id' row row', id ≠ id' → (w'.slot T id).held = some (u, some row) →
      ¬ (w'.slot T id').HeldBy u → (w'.slot T id').committed = some row' →
      S.clash T row row' = false := by
    intro u id id' row row' hne hheld hfree' hrow'
    obtain ⟨hut, hsame⟩ := hother id u _ hheld
    rw [hsame] at hheld
    have hunheld : ¬ (w.slot T id').HeldBy u := by
      rintro ⟨version, hversion⟩
      refine hfree' ⟨version, ?_⟩
      rw [hslot, Slot.release_of_not_held keep, hversion]
      rintro ⟨version', hversion'⟩
      rw [hversion] at hversion'
      cases hversion'
      exact hut rfl
    by_cases hold : (w.slot T id').committed = some row'
    · apply h.seen u id id' row row' hne (Slot.view_of_held hheld)
      rw [Slot.view_eq_committed hunheld, hold]
    · rw [hcommitted] at hrow'
      cases keep with
      | false => exact absurd hrow' hold
      | true =>
          have hown : (w.slot T id').held = some (t, some row') := by
            by_cases hown : (w.slot T id').HeldBy t
            · obtain ⟨own, hown⟩ := hown
              rw [if_pos rfl, Slot.view_of_held hown] at hrow'
              rw [hown, hrow']
            · rw [if_pos rfl, Slot.view_eq_committed hown] at hrow'
              exact absurd hrow' hold
          by_cases hchanged : (w.slot T id).committed = some row
          · have hnot : ¬ (w.slot T id).HeldBy t := by
              rintro ⟨version, hversion⟩
              rw [hheld] at hversion
              cases hversion
              exact hut rfl
            refine h.seen t id id' row row' hne ?_ (Slot.view_of_held hown)
            rw [Slot.view_eq_committed hnot, hchanged]
          · exact h.pending u t id id' row row' hut hheld hchanged hown hold
  constructor
  · intro u id id' row row' hne hrow hrow'
    by_cases hu : (w'.slot T id).HeldBy u
    · obtain ⟨own, hown⟩ := hu
      rw [Slot.view_of_held hown] at hrow
      by_cases hu' : (w'.slot T id').HeldBy u
      · obtain ⟨own', hown'⟩ := hu'
        rw [Slot.view_of_held hown'] at hrow'
        rw [(hother id u _ hown).2] at hown
        rw [(hother id' u _ hown').2] at hown'
        apply h.seen u id id' row row' hne
        · rw [Slot.view_of_held hown, hrow]
        · rw [Slot.view_of_held hown', hrow']
      · rw [Slot.view_eq_committed hu'] at hrow'
        exact hmixed u id id' row row' hne (hrow ▸ hown) hu' hrow'
    · rw [Slot.view_eq_committed hu] at hrow
      by_cases hu' : (w'.slot T id').HeldBy u
      · obtain ⟨own', hown'⟩ := hu'
        rw [Slot.view_of_held hown'] at hrow'
        rw [hsymm]
        exact hmixed u id' id row' row hne.symm (hrow' ▸ hown') hu hrow
      · rw [Slot.view_eq_committed hu'] at hrow'
        exact hfree id id' row row' hne hrow hrow'
  · intro u v id id' row row' hne hrow hchanged hrow' hchanged'
    have hsame := (hother id u _ hrow).2
    have hsame' := (hother id' v _ hrow').2
    rw [hsame] at hrow hchanged
    rw [hsame'] at hrow' hchanged'
    exact h.pending u v id id' row row' hne hrow hchanged hrow' hchanged'

/-- **Unique constraints hold.** Every step that leaves rows what they are told apart by, or deletes
them, keeps the constraint. -/
theorem Unique.step {new : S.Row T → Prop} (h : Unique T w) (hsound : w.Sound)
    (hstep : TableStep t T (KeepsClashes T) new w w') : Unique T w' := by
  cases hstep with
  | same hslot =>
      constructor
      · rw [hslot]
        exact h.seen
      · rw [hslot]
        exact h.pending
  | lock id₀ row₀ version havailable hview hchange hslot =>
      apply h.put hsymm havailable hslot
      · rintro id row row' hne rfl hrow'
        rw [hchange row rfl]
        exact h.seen t id₀ id row₀ row' (Ne.symm hne) hview hrow'
      · rintro u id row row' hne rfl hchanged hheld hchanged'
        rw [hchange row rfl]
        have hview' : (w.slot T id).view u = some row' := Slot.view_of_held hheld
        by_cases hsame : (w.slot T id₀).committed = some row₀
        · refine h.seen u id₀ id row₀ row' ?_ ?_ hview'
          · rintro rfl
            exact Slot.not_heldBy_of_available havailable hne ⟨_, hheld⟩
          · rw [Slot.view_eq_committed (Slot.not_heldBy_of_available havailable hne), hsame]
        · by_cases hown : (w.slot T id₀).HeldBy t
          · obtain ⟨own, hown⟩ := hown
            rw [Slot.view_of_held hown] at hview
            exact h.pending t u id₀ id row₀ row' (Ne.symm hne) (hview ▸ hown) hsame hheld hchanged'
          · rw [Slot.view_eq_committed hown] at hview
            exact absurd hview hsame
  | insert row₀ _ hwaits hclashes _ hslot =>
      have hempty := hsound.beyond T (w.next T) le_rfl
      have hlt : ∀ id version, (w.slot T id).view version ≠ none → id < w.next T := by
        intro id u hview
        by_contra hle
        rw [hsound.beyond T id (Nat.le_of_not_lt hle)] at hview
        exact hview rfl
      apply h.put hsymm (by rw [hempty]; rfl) hslot
      · rintro id row row' hne heq hrow'
        cases heq
        have hid := hlt id t (by rw [hrow']; nofun)
        exact World.not_insertClashes_iff.mp hclashes id hid row' hrow'
      · rintro u id row row' hne heq hchanged hheld hchanged'
        cases heq
        have hid := hlt id u (by rw [Slot.view_of_held hheld]; nofun)
        have hwait := List.any_eq_false.mp hwaits id (List.mem_range.mpr hid)
        rw [hheld] at hwait
        refine Bool.eq_false_iff.mpr fun hclash => hwait ?_
        simp [hne, Ne.symm hchanged', hclash]
  | release keep _ hslot => exact h.release hsymm hslot

end Step

end ReadCommitted
