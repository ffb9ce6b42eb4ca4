import EventsApi.Library.ReadCommitted.TableStep

/-!
# Rows found by a random token

A row carries the hash of a token that its transaction drew, and whoever shows the token is given
the row. Tokens are drawn once and their hashes do not collide, so a token that no row carries is
safe with its drawer until the drawer commits, and a token that was replaced after that is worthless
for good.
-/

namespace ReadCommitted

variable {S : Schema} {Req β : Type} {T : S.Table} (key : S.Row T → String) (hash : String → String)

/-- No version of a row carries the token. -/
def Unused (raw : String) (w : World S Req) : Prop :=
  ∀ id row, (w.slot T id).HasVersion row → key row ≠ hash raw

/-- The row carries a token that its transaction drew and nobody carries yet. -/
def NewlyKeyed (t : Txn) (w : World S Req) (row : S.Row T) : Prop :=
  ¬ w.HasCommitted t ∧ ∃ raw, (raw, t) ∈ w.drawn ∧ Unused key hash raw w ∧ key row = hash raw

/-- The row is deleted, or keeps the token it carries, or is given a new one. -/
def Rekeyed (t : Txn) (w : World S Req) (row : S.Row T) (version : Option (S.Row T)) : Prop :=
  ∀ row', version = some row' → key row' = key row ∨ NewlyKeyed key hash t w row'

/-- Rows carry tokens that were drawn, and each is carried by one row only. The drawer of a
committed row's token has committed, that of another transaction's version too. -/
structure Keyed (w : World S Req) : Prop where
  committed : ∀ id row, (w.slot T id).committed = some row →
    ∃ raw u, (raw, u) ∈ w.drawn ∧ w.HasCommitted u ∧ key row = hash raw
  held : ∀ id t row, (w.slot T id).held = some (t, some row) →
    ∃ raw u, (raw, u) ∈ w.drawn ∧ (u = t ∨ w.HasCommitted u) ∧ key row = hash raw
  home : ∀ id id' row row', (w.slot T id).HasVersion row → (w.slot T id').HasVersion row' →
    key row = key row' → id = id'

variable {key hash} {t u : Txn} {w w' : World S Req} {raw : String}

theorem Keyed.hasVersion (h : Keyed key hash w) {id : Nat} {row : S.Row T}
    (hversion : (w.slot T id).HasVersion row) :
    ∃ raw u, (raw, u) ∈ w.drawn ∧ key row = hash raw := by
  obtain hcommitted | ⟨t, hheld⟩ := hversion
  · obtain ⟨raw, u, hdrawn, _, hkey⟩ := h.committed id row hcommitted
    exact ⟨raw, u, hdrawn, hkey⟩
  · obtain ⟨raw, u, hdrawn, _, hkey⟩ := h.held id t row hheld
    exact ⟨raw, u, hdrawn, hkey⟩

/-- A token leads to one row. -/
theorem Keyed.selects_one (h : Keyed key hash w) {token : String} {choice : Choice}
    {rows : List (Nat × S.Row T)}
    (hexec : (Op.select T fun _ row => key row == token).exec t choice w = some (rows, w')) :
    rows.length ≤ 1 := by
  apply exec_select_length_le_one hexec
  intro e he e' he'
  obtain ⟨_, hview, hkey⟩ := ((exec_select hexec).2.2 e.1 e.2).mp he
  obtain ⟨_, hview', hkey'⟩ := ((exec_select hexec).2.2 e'.1 e'.2).mp he'
  apply h.home _ _ _ _ (Slot.hasVersion_of_view hview) (Slot.hasVersion_of_view hview')
  exact (beq_iff_eq.mp hkey).trans (beq_iff_eq.mp hkey').symm

section Injective

variable (hinjective : Function.Injective hash)

include hinjective

theorem Keyed.unused_of_undrawn (h : Keyed key hash w) (hundrawn : ∀ u, (raw, u) ∉ w.drawn) :
    Unused key hash raw w := by
  intro id row hversion hkey
  obtain ⟨raw', u, hdrawn, hkey'⟩ := h.hasVersion hversion
  have heq : raw' = raw := hinjective (hkey'.symm.trans hkey)
  exact hundrawn u (heq ▸ hdrawn)

/-- **A drawn token waits for its drawer.** Whatever the others do, no row comes to carry it before
its drawer has committed. -/
theorem Keyed.unused_of_others (h' : Keyed key hash w') (hsound' : w'.Sound) (hw : Others t w w')
    (hdrawn : (raw, t) ∈ w.drawn) (hcommitted : ¬ w.HasCommitted t)
    (hunused : Unused key hash raw w) : Unused key hash raw w' := by
  have hdrawer : ∀ raw' u row, (raw', u) ∈ w'.drawn → key row = hash raw' → key row = hash raw →
      u = t := by
    intro raw' u row hdrawn' hkey' hkey
    have heq : raw' = raw := hinjective (hkey'.symm.trans hkey)
    subst heq
    exact hsound'.drawer_unique hdrawn' (hw.drawn_subset _ hdrawn)
  intro id row hversion hkey
  obtain hrow | ⟨holder, hheld⟩ := hversion
  · obtain ⟨raw', u, hdrawn', hdone, hkey'⟩ := h'.committed id row hrow
    obtain rfl := hdrawer raw' u row hdrawn' hkey' hkey
    exact hcommitted (hw.hasCommitted_self hdone)
  · obtain ⟨raw', u, hdrawn', howner, hkey'⟩ := h'.held id holder row hheld
    obtain rfl := hdrawer raw' u row hdrawn' hkey' hkey
    obtain rfl | hdone := howner
    · exact hunused id row (.inr ⟨u, hw.held_before hheld⟩) hkey
    · exact hcommitted (hw.hasCommitted_self hdone)

/-- A token somebody else drew does not come to be carried by what the transaction does. -/
theorem Unused.step (hstep : TableStep t T (Rekeyed key hash t w) (NewlyKeyed key hash t w) w w')
    (hdrawn : ¬ w.HasCommitted t → (raw, t) ∉ w.drawn) (h : Unused key hash raw w) :
    Unused key hash raw w' := by
  have hfresh : ∀ row, NewlyKeyed key hash t w row → key row ≠ hash raw := by
    rintro row ⟨hcommitted, raw', hdrawn', _, hkey'⟩ hkey
    have heq : raw' = raw := hinjective (hkey'.symm.trans hkey)
    exact hdrawn hcommitted (heq ▸ hdrawn')
  intro id row' hversion
  obtain hversion | ⟨row, hversion, hchange⟩ | hnew := hstep.hasVersion hversion
  · exact h id row' hversion
  · obtain hkey | hnew := hchange row' rfl
    · exact hkey ▸ h id row hversion
    · exact hfresh row' hnew
  · exact hfresh row' hnew

end Injective

theorem NewlyKeyed.ne (h : NewlyKeyed key hash t w row) {id : Nat} {row' : S.Row T}
    (hversion : (w.slot T id).HasVersion row') : key row ≠ key row' := by
  obtain ⟨_, raw, _, hunused, hkey⟩ := h
  rw [hkey]
  exact (hunused id row' hversion).symm

theorem Keyed.home_update (h : Keyed key hash w) {id₀ : Nat} {slot : Slot (S.Row T)}
    (hslot : w'.slot T = Function.update (w.slot T) id₀ slot)
    (hsame : ∀ row', slot.HasVersion row' →
      (∃ row, (w.slot T id₀).HasVersion row ∧ key row' = key row) ∨ NewlyKeyed key hash t w row') :
    ∀ id id' row row', (w'.slot T id).HasVersion row → (w'.slot T id').HasVersion row' →
      key row = key row' → id = id' := by
  have hother : ∀ id row row', id ≠ id₀ → slot.HasVersion row →
      (w.slot T id).HasVersion row' → key row ≠ key row' := by
    intro id row row' hne hversion hversion' hkey
    obtain ⟨old, hold, holdKey⟩ | hnew := hsame row hversion
    · exact hne (h.home id id₀ row' old hversion' hold (hkey.symm.trans holdKey))
    · exact hnew.ne hversion' hkey
  intro id id' row row' hversion hversion' hkey
  rw [hslot] at hversion hversion'
  by_cases hid : id = id₀
  · by_cases hid' : id' = id₀
    · rw [hid, hid']
    · rw [hid, Function.update_self] at hversion
      rw [Function.update_of_ne hid'] at hversion'
      exact absurd hkey (hother id' row row' hid' hversion hversion')
  · rw [Function.update_of_ne hid] at hversion
    by_cases hid' : id' = id₀
    · rw [hid', Function.update_self] at hversion'
      exact absurd hkey.symm (hother id row' row hid hversion' hversion)
    · rw [Function.update_of_ne hid'] at hversion'
      exact h.home id id' row row' hversion hversion' hkey

/-- **Tokens stay in order.** Every step that deletes rows, or leaves them their tokens or gives
them new ones of its own, keeps them so. -/
theorem Keyed.step (h : Keyed key hash w)
    (hstep : TableStep t T (Rekeyed key hash t w) (NewlyKeyed key hash t w) w w')
    (hdrawn : ∀ e ∈ w.drawn, e ∈ w'.drawn)
    (hcommitted : ∀ u, w.HasCommitted u → w'.HasCommitted u) : Keyed key hash w' where
  committed id row hrow := by
    obtain hrow | ⟨hheld, hdone⟩ := hstep.committed hrow
    · obtain ⟨raw, u, hraw, hdone, hkey⟩ := h.committed id row hrow
      exact ⟨raw, u, hdrawn _ hraw, hcommitted u hdone, hkey⟩
    · obtain ⟨raw, u, hraw, howner, hkey⟩ := h.held id t row hheld
      refine ⟨raw, u, hdrawn _ hraw, ?_, hkey⟩
      obtain rfl | hdone' := howner
      · exact hdone
      · exact hcommitted u hdone'
  held id u row hheld := by
    have hfresh : NewlyKeyed key hash t w row →
        ∃ raw v, (raw, v) ∈ w'.drawn ∧ (v = t ∨ w'.HasCommitted v) ∧ key row = hash raw := by
      rintro ⟨_, raw, hraw, _, hkey⟩
      exact ⟨raw, t, hdrawn _ hraw, .inl rfl, hkey⟩
    obtain ⟨hheld, _⟩ | ⟨rfl, _, ⟨old, hview, hchange⟩ | ⟨new, _, heq, hnew, _⟩⟩ := hstep.held hheld
    · obtain ⟨raw, v, hraw, howner, hkey⟩ := h.held id u row hheld
      exact ⟨raw, v, hdrawn _ hraw, howner.imp_right (hcommitted v), hkey⟩
    · obtain hkey | hnew := hchange row rfl
      · by_cases hown : (w.slot T id).HeldBy u
        · obtain ⟨version, hown⟩ := hown
          rw [Slot.view_of_held hown] at hview
          obtain ⟨raw, v, hraw, howner, hkey'⟩ := h.held id u old (hview ▸ hown)
          exact ⟨raw, v, hdrawn _ hraw, howner.imp_right (hcommitted v), hkey.trans hkey'⟩
        · rw [Slot.view_eq_committed hown] at hview
          obtain ⟨raw, v, hraw, hdone, hkey'⟩ := h.committed id old hview
          exact ⟨raw, v, hdrawn _ hraw, .inr (hcommitted v hdone), hkey.trans hkey'⟩
      · exact hfresh hnew
    · cases heq
      exact hfresh hnew
  home := by
    cases hstep with
    | same hslot =>
        intro id id' row row'
        rw [hslot]
        exact h.home id id' row row'
    | lock id₀ old version _ hview hchange hslot =>
        apply h.home_update (t := t) hslot
        intro row' hversion
        obtain hrow | ⟨_, hheld⟩ := hversion
        · exact .inl ⟨row', .inl hrow, rfl⟩
        · cases hheld
          exact (hchange row' rfl).imp_left fun hkey => ⟨old, Slot.hasVersion_of_view hview, hkey⟩
    | insert new hnew _ _ _ hslot =>
        apply h.home_update (t := t) hslot
        intro row' hversion
        obtain hrow | ⟨_, hheld⟩ := hversion
        · exact .inl ⟨row', .inl hrow, rfl⟩
        · cases hheld
          exact .inr hnew
    | release keep _ hslot =>
        intro id id' row row' hversion hversion'
        rw [hslot] at hversion hversion'
        exact h.home id id' row row' (Slot.hasVersion_of_release hversion)
          (Slot.hasVersion_of_release hversion')

end ReadCommitted
