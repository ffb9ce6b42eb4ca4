import EventsApi.Library.ReadCommitted.Tokens

/-!
# Whose token it is

A program makes rows with tokens that it draws, each for one row, and has nothing more to do with the
table once it has committed. Then a token that was seen in a row is its owner's for good: whatever
becomes of the row, nobody else's row comes to carry the token.
-/

namespace ReadCommitted

variable {S : Schema} {Req ε α β ω : Type} {T : S.Table}

section Programs

variable (key : S.Row T → String) (owner : S.Row T → ω) (hash : String → String)

/-- The row is deleted, or keeps its owner and its token. -/
def KeepsToken (row : S.Row T) (version : Option (S.Row T)) : Prop :=
  ∀ row', version = some row' → owner row' = owner row ∧ key row' = key row

/-- The row is deleted, or keeps its owner, and its token too unless it is given this one. -/
def Reissued (raw : String) (row : S.Row T) (version : Option (S.Row T)) : Prop :=
  ∀ row', version = some row' → owner row' = owner row
    ∧ (key row' = key row ∨ key row' = hash raw)

/-- The operation makes no row and gives out no token. -/
def SparesTokens (β : Type) (op : Op S β) : Prop :=
  op.Within T (KeepsToken key owner) fun _ => False

/-- The program makes do with the tokens at hand and those it draws. -/
inductive Prog.Mints : List String → Prog S ε α → Prop where
  | pure (own : List String) (value : α) : Mints own (.pure value)
  | raise (own : List String) (error : ε) : Mints own (.raise error)
  | draw {own : List String} {next : String → Prog S ε α}
      (hnext : ∀ raw, Mints (raw :: own) (next raw)) : Mints own (.exec .draw next)
  | spend {β : Type} {raw : String} {own : List String} {op : Op S β} {next : β → Prog S ε α}
      (hkind : op.kind ≠ .commit)
      (hwithin : op.Within T (Reissued key owner hash raw) fun row => key row = hash raw)
      (hnext : ∀ answer, Mints own (next answer)) : Mints (raw :: own) (.exec op next)
  | keep {β : Type} {own : List String} {op : Op S β} {next : β → Prog S ε α}
      (hkind : op.kind ≠ .commit) (hspares : SparesTokens key owner β op)
      (hnext : ∀ answer, Mints own (next answer)) : Mints own (.exec op next)
  | commit {own : List String} {next : Unit → Prog S ε α}
      (hnext : (next ()).All (SparesTokens key owner)) : Mints own (.exec .commit next)

/-- A version under a lock has the owner of the row, and tokens are in order. -/
structure TokenOwners (w : World S Req) : Prop where
  keyed : Keyed key hash w
  owner : ∀ id t row row', (w.slot T id).held = some (t, some row') →
    (w.slot T id).committed = some row → owner row' = owner row

/-- The transaction that drew the token has committed, and whoever carries it has this owner. -/
structure SettledOn (raw : String) (user : ω) (w : World S Req) : Prop where
  drawn : ∃ t, (raw, t) ∈ w.drawn ∧ w.HasCommitted t
  owner : ∀ id row, (w.slot T id).HasVersion row → key row = hash raw → owner row = user

/-- The tokens at hand are the transaction's own, and nobody carries them. -/
structure AtHand (t : Txn) (own : List String) (w : World S Req) : Prop where
  uncommitted : ¬ w.HasCommitted t
  nodup : own.Nodup
  drawn : ∀ raw ∈ own, (raw, t) ∈ w.drawn
  unused : ∀ raw ∈ own, Unused key hash raw w

/-- What a step of the transaction may do to a row. -/
def MintChange (t : Txn) (w : World S Req) (row : S.Row T) (version : Option (S.Row T)) : Prop :=
  ∀ row', version = some row' → owner row' = owner row
    ∧ (key row' = key row ∨ NewlyKeyed key hash t w row')

end Programs

variable {key : S.Row T → String} {owner : S.Row T → ω} {hash : String → String} {t u : Txn}
  {w w' : World S Req} {raw : String} {own : List String} {choice : Choice} {op : Op S β}
  {answer : β}

theorem MintChange.rekeyed {row : S.Row T} {version : Option (S.Row T)}
    (h : MintChange key owner hash t w row version) : Rekeyed key hash t w row version :=
  fun row' heq => (h row' heq).2

theorem AtHand.newlyKeyed (h : AtHand key hash t own w) (hraw : raw ∈ own) {row : S.Row T}
    (hkey : key row = hash raw) : NewlyKeyed key hash t w row :=
  ⟨h.uncommitted, raw, h.drawn raw hraw, h.unused raw hraw, hkey⟩

/-! ### One step -/

theorem TokenOwners.step (h : TokenOwners key owner hash w) (hsound : w.Sound)
    (hstep : TableStep t T (MintChange key owner hash t w) (NewlyKeyed key hash t w) w w')
    (hdrawn : ∀ e ∈ w.drawn, e ∈ w'.drawn)
    (hcommitted : ∀ u, w.HasCommitted u → w'.HasCommitted u) :
    TokenOwners key owner hash w' where
  keyed := h.keyed.step (hstep.mono (fun _ _ hchange => hchange.rekeyed) fun _ => id) hdrawn
    hcommitted
  owner id u row row' hheld hrow := by
    obtain ⟨hheld, hsame⟩ | ⟨rfl, hsame, ⟨seen, hview, hchange⟩ | ⟨_, rfl, _⟩⟩ := hstep.held hheld
    · exact h.owner id u row row' hheld (hsame ▸ hrow)
    · rw [hsame] at hrow
      rw [(hchange row' rfl).1]
      by_cases hown : (w.slot T id).HeldBy u
      · obtain ⟨version, hown⟩ := hown
        rw [Slot.view_of_held hown] at hview
        exact h.owner id u row seen (hview ▸ hown) hrow
      · rw [Slot.view_eq_committed hown, hrow] at hview
        cases hview
        rfl
    · rw [hsame, hsound.beyond T _ le_rfl] at hrow
      cases hrow

/-- A token that was seen is its owner's. -/
theorem TokenOwners.settledOn (h : TokenOwners key owner hash w) {id : Nat} {row : S.Row T}
    (hrow : (w.slot T id).committed = some row) :
    ∃ raw, key row = hash raw ∧ SettledOn key owner hash raw (owner row) w := by
  obtain ⟨raw, u, hdrawn, hcommitted, hkey⟩ := h.keyed.committed id row hrow
  refine ⟨raw, hkey, ⟨u, hdrawn, hcommitted⟩, fun id' row' hversion hkey' => ?_⟩
  obtain rfl := h.keyed.home id id' row row' (.inl hrow) hversion (hkey.trans hkey'.symm)
  obtain hcommitted | ⟨t, hheld⟩ := hversion
  · cases hrow.symm.trans hcommitted
    rfl
  · exact h.owner id t row row' hheld hrow

theorem TokenOwners.quiet (h : TokenOwners key owner hash w) (hquiet : Quiet w w') :
    TokenOwners key owner hash w' where
  keyed := h.keyed.step (t := 0) (.same (by rw [hquiet.slot])) (fun e he => hquiet.drawn ▸ he)
    fun u => (hquiet.others u).hasCommitted
  owner := by
    rw [hquiet.slot]
    exact h.owner

theorem SettledOn.quiet {user : ω} (h : SettledOn key owner hash raw user w)
    (hquiet : Quiet w w') : SettledOn key owner hash raw user w' where
  drawn := by
    obtain ⟨u, hraw, hdone⟩ := h.drawn
    exact ⟨u, hquiet.drawn ▸ hraw, (hquiet.others u).hasCommitted hdone⟩
  owner := by
    rw [hquiet.slot]
    exact h.owner

/-- A table that has not been used. -/
theorem tokenOwners_of_empty (h : ∀ id, w.slot T id = Slot.empty) :
    TokenOwners key owner hash w where
  keyed := by
    have hversion : ∀ id row, ¬ (w.slot T id).HasVersion row := by
      intro id row hversion
      rw [h id] at hversion
      rcases hversion with hrow | ⟨_, hrow⟩ <;> cases hrow
    constructor
    · exact fun id row hrow => absurd (.inl hrow) (hversion id row)
    · exact fun id t row hrow => absurd (.inr ⟨t, hrow⟩) (hversion id row)
    · exact fun id _ row _ hrow => absurd hrow (hversion id row)
  owner id t row row' hheld := by
    rw [h id] at hheld
    cases hheld

section Injective

variable (hinjective : Function.Injective hash)

include hinjective

/-- **One step.** No step of a transaction gives a token to anybody but its owner. -/
theorem SettledOn.step {user : ω} (h : SettledOn key owner hash raw user w) (hsound : w.Sound)
    (hstep : TableStep t T (MintChange key owner hash t w) (NewlyKeyed key hash t w) w w')
    (hdrawn : ∀ e ∈ w.drawn, e ∈ w'.drawn)
    (hcommitted : ∀ u, w.HasCommitted u → w'.HasCommitted u) :
    SettledOn key owner hash raw user w' where
  drawn := by
    obtain ⟨u, hraw, hdone⟩ := h.drawn
    exact ⟨u, hdrawn _ hraw, hcommitted u hdone⟩
  owner id row' hversion hkey := by
    have hnew : ∀ {row}, NewlyKeyed key hash t w row → key row ≠ hash raw := by
      rintro row ⟨hopen, other, hother, _, hkey⟩ hkey'
      have heq : other = raw := hinjective (hkey.symm.trans hkey')
      subst heq
      obtain ⟨u, hraw, hdone⟩ := h.drawn
      exact hopen (hsound.drawer_unique hother hraw ▸ hdone)
    obtain hversion | ⟨row, hversion, hchange⟩ | hfresh := hstep.hasVersion hversion
    · exact h.owner id row' hversion hkey
    · obtain ⟨howner, hsame | hfresh⟩ := hchange row' rfl
      · exact howner.trans (h.owner id row hversion (hsame.symm.trans hkey))
      · exact absurd hkey (hnew hfresh)
    · exact absurd hkey (hnew hfresh)

variable (key owner) in
/-- The discipline of programs that draw the tokens they use. -/
def minting : Discipline S Req where
  inv := TokenOwners key owner hash
  rely _ w w' := ∀ raw user, SettledOn key owner hash raw user w →
    SettledOn key owner hash raw user w'
  allowed _ _ _ := True
  rely_refl _ _ _ _ := id
  rely_trans h h' raw user hsettled := h' raw user (h raw user hsettled)
  quiet hquiet h := ⟨h.quiet hquiet, fun _ _ _ hsettled => hsettled.quiet hquiet⟩
  rollback _ _ hsound h :=
    ⟨h.step hsound tableStep_rollback (fun _ => id) fun _ => id, fun _ _ _ _ hsettled =>
      hsettled.step hinjective hsound tableStep_rollback (fun _ => id) fun _ => id⟩

theorem TokenOwners.keeps (h : TokenOwners key owner hash w) (hsound : w.Sound)
    (hwithin : op.Within T (MintChange key owner hash t w) (NewlyKeyed key hash t w))
    (hexec : op.exec t choice w = some (answer, w')) :
    (minting key owner hinjective).Keeps t w w' := by
  have hstep := Op.exec_tableStep hwithin hexec
  have hdrawn := Op.exec_drawn_subset hsound hexec
  have hcommitted : ∀ u, w.HasCommitted u → w'.HasCommitted u := by
    rintro u ⟨e, he, hrest⟩
    exact ⟨e, Op.exec_trace_subset hsound hexec e he, hrest⟩
  exact ⟨h.step hsound hstep hdrawn hcommitted,
    fun _ _ _ _ hsettled => hsettled.step hinjective hsound hstep hdrawn hcommitted⟩

/-- What is at hand stays at hand while the others take their steps. -/
theorem AtHand.stable : (minting key owner hinjective : Discipline S Req).Stable t
    (AtHand key hash t own) := fun h hw =>
  { uncommitted := fun hdone => h.uncommitted (hw.others.hasCommitted_self hdone)
    nodup := h.nodup
    drawn := fun raw hraw => hw.others.drawn_subset _ (h.drawn raw hraw)
    unused := fun raw hraw => hw.inv.keyed.unused_of_others hinjective hw.sound hw.others
      (h.drawn raw hraw) h.uncommitted (h.unused raw hraw) }

end Injective

theorem keepsToken_mint {row : S.Row T} {version : Option (S.Row T)}
    (h : KeepsToken key owner row version) : MintChange key owner hash t w row version :=
  fun row' heq => ⟨(h row' heq).1, .inl (h row' heq).2⟩

theorem AtHand.reissued (h : AtHand key hash t own w) (hraw : raw ∈ own) {row : S.Row T}
    {version : Option (S.Row T)} (hchange : Reissued key owner hash raw row version) :
    MintChange key owner hash t w row version :=
  fun row' heq => ⟨(hchange row' heq).1, (hchange row' heq).2.imp_right (h.newlyKeyed hraw)⟩

theorem AtHand.tail (h : AtHand key hash t (raw :: own) w) : AtHand key hash t own w where
  uncommitted := h.uncommitted
  nodup := (List.nodup_cons.mp h.nodup).2
  drawn other hother := h.drawn other (List.mem_cons_of_mem _ hother)
  unused other hother := h.unused other (List.mem_cons_of_mem _ hother)

/-- What is at hand stays at hand unless it is used. -/
theorem AtHand.exec (h : AtHand key hash t own w) (hsound : w.Sound) (hkind : op.kind ≠ .commit)
    (hwithin : op.Within T (fun row version => ∀ row', version = some row' →
      key row' = key row ∨ ∀ raw ∈ own, key row' ≠ hash raw) fun row =>
        ∀ raw ∈ own, key row ≠ hash raw)
    (hexec : op.exec t choice w = some (answer, w')) : AtHand key hash t own w' where
  uncommitted := Op.exec_uncommitted hkind hexec h.uncommitted
  nodup := h.nodup
  drawn raw hraw := Op.exec_drawn_subset hsound hexec _ (h.drawn raw hraw)
  unused raw hraw id row' hversion := by
    obtain hversion | ⟨row, hversion, hchange⟩ | hnew :=
      (Op.exec_tableStep hwithin hexec).hasVersion hversion
    · exact h.unused raw hraw id row' hversion
    · obtain hsame | hother := hchange row' rfl
      · exact hsame ▸ h.unused raw hraw id row hversion
      · exact hother raw hraw
    · exact hnew raw hraw

/-! ### Programs -/

namespace Prog.Mints

variable {p : Prog S ε α}

/-- A program that draws the tokens it uses keeps the discipline. -/
theorem safe (hinjective : Function.Injective hash) (h : p.Mints key owner hash own)
    (hhand : AtHand key hash t own w) :
    (minting key owner hinjective).Safe t (fun _ _ => True) p w := by
  induction h generalizing w with
  | pure | raise => trivial
  | draw hnext ih =>
      intro w₁ hw _ choice raw w₂ hexec
      have hhand := AtHand.stable hinjective hhand hw
      have hkeeps := hw.inv.keeps hinjective hw.sound (by trivial) hexec
      obtain ⟨hfresh, rfl⟩ := exec_draw hexec
      have hunused : Unused key hash raw w₁ := hw.inv.keyed.unused_of_undrawn hinjective hfresh
      refine ⟨hkeeps, ih raw ?_⟩
      constructor
      · exact hhand.uncommitted
      · exact List.nodup_cons.mpr ⟨fun hraw => hfresh t (hhand.drawn raw hraw), hhand.nodup⟩
      · intro other hother
        obtain rfl | hother := List.mem_cons.mp hother
        · exact List.mem_cons_self
        · exact List.mem_cons_of_mem _ (hhand.drawn other hother)
      · intro other hother
        obtain rfl | hother := List.mem_cons.mp hother
        · exact hunused
        · exact hhand.unused other hother
  | @spend _ raw own op next hkind hwithin hnext ih =>
      intro w₁ hw _ choice answer w₂ hexec
      have hhand := AtHand.stable hinjective hhand hw
      have hother : ∀ {row}, key row = hash raw → ∀ other ∈ own, key row ≠ hash other := by
        intro row hkey other hmem heq
        obtain rfl := hinjective (hkey.symm.trans heq)
        exact (List.nodup_cons.mp hhand.nodup).1 hmem
      refine ⟨hw.inv.keeps hinjective hw.sound ?_ hexec, ih answer ?_⟩
      · exact hwithin.mono (fun _ _ => hhand.reissued List.mem_cons_self) fun _ =>
          hhand.newlyKeyed List.mem_cons_self
      · refine hhand.tail.exec hw.sound hkind (hwithin.mono ?_ fun _ => hother) hexec
        exact fun row version hchange row' heq => (hchange row' heq).2.imp_right hother
  | keep hkind hspares hnext ih =>
      intro w₁ hw _ choice answer w₂ hexec
      have hhand := AtHand.stable hinjective hhand hw
      refine ⟨hw.inv.keeps hinjective hw.sound ?_ hexec, ih answer ?_⟩
      · exact Op.Within.mono (fun _ _ => keepsToken_mint) (fun _ => False.elim) hspares
      · refine hhand.exec hw.sound hkind (Op.Within.mono ?_ (fun _ => False.elim) hspares) hexec
        exact fun row version hchange row' heq => .inl (hchange row' heq).2
  | commit hnext =>
      intro w₁ hw _ choice answer w₂ hexec
      refine ⟨hw.inv.keeps hinjective hw.sound (by trivial) hexec, ?_⟩
      refine (Discipline.Safe.of_all (J := fun _ => True) (fun _ _ => trivial) ?_ hnext
        trivial).mono fun _ _ _ => trivial
      intro β op w w' choice answer hspares _ hsound hinv _ hexec
      refine ⟨hinv.keeps hinjective hsound ?_ hexec, trivial⟩
      exact Op.Within.mono (fun _ _ => keepsToken_mint) (fun _ => False.elim) hspares

variable {next : α → Prog S ε β}

theorem of_all (h : p.All (SparesTokens key owner)) : p.Mints key owner hash own := by
  induction p with
  | pure value => exact .pure own value
  | raise error => exact .raise own error
  | exec op rest ih =>
      by_cases hkind : op.kind = .commit
      · cases op with
        | commit => exact .commit (h.2 ())
        | select | lock | insert | now | draw => cases hkind
      · exact .keep hkind h.1 fun answer => ih answer (h.2 answer)

theorem bind (hopen : p.All fun _ op => op.kind ≠ .commit) (h : p.All (SparesTokens key owner))
    (hnext : ∀ value, (next value).Mints key owner hash own) :
    (p.bind next).Mints key owner hash own := by
  induction p with
  | pure value => exact hnext value
  | raise error => exact .raise own error
  | exec op rest ih => exact .keep hopen.1 h.1 fun answer => ih answer (hopen.2 answer) (h.2 answer)

theorem perform_bind {op : Op S α} (hkind : op.kind ≠ .commit) (hspares : SparesTokens key owner α op)
    (hnext : ∀ answer, (next answer).Mints key owner hash own) :
    (Prog.perform op >>= next).Mints key owner hash own :=
  .keep hkind hspares hnext

theorem draw_bind {next : String → Prog S ε β}
    (hnext : ∀ raw, (next raw).Mints key owner hash (raw :: own)) :
    (Prog.draw >>= next).Mints key owner hash own :=
  .draw hnext

theorem mapError {f : ε → ε} (h : p.Mints key owner hash own) :
    (p.mapError f).Mints key owner hash own := by
  induction h with
  | pure own value => exact .pure own value
  | raise own error => exact .raise own _
  | draw _ ih => exact .draw ih
  | spend hkind hwithin _ ih => exact .spend hkind hwithin ih
  | keep hkind hspares _ ih => exact .keep hkind hspares ih
  | commit hnext => exact .commit hnext.mapError

/-- What comes after the program has nothing to do with tokens. -/
theorem bind_of_all (h : p.Mints key owner hash own)
    (hnext : ∀ value, (next value).All (SparesTokens key owner)) :
    (p.bind next).Mints key owner hash own := by
  induction h with
  | pure own value => exact of_all (hnext value)
  | raise own error => exact .raise own error
  | draw _ ih => exact .draw ih
  | spend hkind hwithin _ ih => exact .spend hkind hwithin ih
  | keep hkind hspares _ ih => exact .keep hkind hspares ih
  | commit hrest => exact .commit (hrest.bind hnext)

end Prog.Mints

/-! ### Whole systems -/

section Systems

variable {system : System S Req ε α} {init : Config S Req ε α → Prop} {c c' : Config S Req ε α}
  (hinjective : Function.Injective hash)
  (hhandler : ∀ request, (system.handler request).Mints key owner hash [])

include hhandler

theorem minting_verified :
    (minting key owner hinjective).Verified system fun _ _ _ _ => True where
  stable _ _ _ _ _ _ _ := trivial
  close _ _ _ _ _ _ _ := trivial
  lost _ _ _ _ := trivial
  handler request _ _ _ _ hfresh _ :=
    (hhandler request).safe hinjective ⟨hfresh.uncommitted, List.nodup_nil, nofun, nofun⟩

include hinjective

/-- **Tokens do not change hands.** Once a row with a token has been committed, whatever comes to
carry the token in the rest of the run has the same owner. -/
theorem System.owner_lasts
    (hinit : ∀ c, init c → c.Initial ∧ ∀ id, c.world.slot T id = Slot.empty)
    (h : Transition.Reachable system.step init Transition.anyStep c) {id id' : Nat}
    {row row' : S.Row T} (hrow : (c.world.slot T id).committed = some row)
    (h' : Transition.Reachable system.step (· = c) Transition.anyStep c')
    (hversion : (c'.world.slot T id').HasVersion row') (hkey : key row' = key row) :
    owner row' = owner row := by
  have hverified := minting_verified hinjective hhandler
  have hstart : ∀ c, init c → c.Initial ∧ TokenOwners key owner hash c.world :=
    fun c hc => ⟨(hinit c hc).1, tokenOwners_of_empty (hinit c hc).2⟩
  have hallowed : ∀ (c : Config S Req ε α) (l : Label Req), Transition.anyStep c l →
      c.Meets (minting key owner hinjective).allowed l :=
    fun _ _ _ => Config.meets_of_forall fun _ _ _ => trivial
  obtain ⟨raw, hraw, hsettled⟩ := (hverified.holds hstart (h.mono hallowed)).inv.settledOn hrow
  have hlater : SettledOn key owner hash raw (owner row) c'.world :=
    hverified.lasts hstart (fun hrely hsettled => hrely _ _ hsettled) (h.mono hallowed) hsettled
      (h'.mono hallowed)
  exact hlater.owner id' row' hversion (hkey.trans hraw)

end Systems

end ReadCommitted
