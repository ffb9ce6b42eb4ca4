import EventsApi.Library.ReadCommitted.References
import EventsApi.Proof.CurrentUser
import EventsApi.Proof.TokenAcceptance

/-!
# Deleted users are gone

A request for the deletion of an account that succeeded was about a user who is gone: either it
deleted the row itself, or found that somebody else had. Rows that are gone do not come back, so all
it takes is to follow the row until the commit.
-/

namespace EventsApi

open ReadCommitted

/-- Nothing is referred to. -/
abbrev noReferences (T : database.Table) (_ : database.Row T) : List (database.Table × Nat) := []

theorem references_none (w : UserWorld) : References noReferences w where
  held _ _ _ _ _ _ _ := rfl
  one _ _ _ _ := Nat.zero_le 1

/-- Rows stay until they are gone, and then they stay gone. -/
def erasures : Discipline database UserRequest where
  inv _ := True
  rely _ := Lasting noReferences
  allowed _ _ _ := True
  rely_refl _ := Lasting.refl
  rely_trans := Lasting.trans
  quiet hquiet _ := ⟨trivial, fun _ => Lasting.quiet hquiet⟩
  rollback _ _ hsound _ :=
    ⟨trivial, fun _ _ => finish_lasting hsound (references_none _) false⟩

variable {context : Context} {legalPages : List LegalPage} {eventIds : List Int} {t : Txn}
  {userId : Nat} {w w' : UserWorld}

theorem erasures_keeps {β : Type} {op : Op database β} {choice : Choice} {answer : β}
    (hsound : w.Sound) (hexec : op.exec t choice w = some (answer, w')) :
    erasures.Keeps t w w' :=
  ⟨trivial, fun _ _ => Op.exec_lasting hsound (references_none w) hexec⟩

theorem erasures_safe {α : Type} (p : Db α) : erasures.Safe t (fun _ _ => True) p w := by
  induction p generalizing w with
  | pure | raise => trivial
  | exec op next ih =>
      intro w₁ hw _ choice answer w₂ hexec
      exact ⟨erasures_keeps hw.sound hexec, ih answer⟩

/-- The only user that the transaction has found. -/
def FoundOnly (userId : Nat) (t : Txn) (w : UserWorld) : Prop :=
  ∀ other, Did (findsUser other) t w.trace → other = userId

theorem findsUser_selected {other : Nat} {rows : List (Nat × database.Row userTable)}
    (hfinds : findsUser other (.selected userTable rows) = true) :
    ∃ user, rows.head? = some (other, user) := by
  simpa [findsUser] using hfinds

/-- The user was there when the transaction looked. -/
structure Meant (userId : Nat) (t : Txn) (w : UserWorld) : Prop where
  only : FoundOnly userId t w
  unlocked : ∀ T id, ¬ (w.slot T id).HeldBy t
  seen : Seen noReferences (fun _ => True) t userTable userId w

/-- The user is gone, or will be when the transaction commits. -/
structure Doomed (userId : Nat) (t : Txn) (w : UserWorld) : Prop where
  only : FoundOnly userId t w
  row : (w.slot userTable userId).held = some (t, none) ∨ Gone w userTable userId

theorem foundOnly_of_fresh (h : Discipline.Fresh t w) (userId : Nat) :
    FoundOnly userId t w := by
  rintro other ⟨e, he, hown, _⟩
  exact absurd hown (h.untraced e he)

theorem Meant.stable : erasures.Stable t (Meant userId t) := fun h hw =>
  { only := fun other hdid => h.only other (hw.others.did.mp hdid)
    unlocked := fun T id => hw.others.not_mine T id (h.unlocked T id)
    seen := h.seen.others hw.others hw.rely }

theorem Doomed.stable : erasures.Stable t (Doomed userId t) := fun h hw =>
  { only := fun other hdid => h.only other (hw.others.did.mp hdid)
    row := h.row.imp (fun hheld => (congrArg Slot.held (hw.others.mine _ _ _ hheld)).trans hheld)
      (hw.rely.gone _ _) }

/-- The operation commits nothing and finds no user. -/
def Heedless (β : Type) (op : Op database β) : Prop :=
  op.kind ≠ .commit ∧ op.kind ≠ .select userTable ∧ op.kind ≠ .insert userTable

theorem heedless_modest : Modest Heedless where
  select _ _ hT := ⟨nofun, fun h => hT (Kind.select.inj h), nofun⟩
  keep _ _ _ := ⟨nofun, nofun, nofun⟩
  delete _ _ _ _ := ⟨nofun, nofun, nofun⟩
  now := ⟨nofun, nofun, nofun⟩
  draw := ⟨nofun, nofun, nofun⟩

theorem Doomed.exec {β : Type} {op : Op database β} {choice : Choice} {answer : β}
    (h : Doomed userId t w) (hop : Heedless β op) (hsound : w.Sound)
    (hexec : op.exec t choice w = some (answer, w')) : Doomed userId t w' where
  only other hdid :=
    h.only other ((Op.exec_did (findsUser_eq_false hop.2.1 hop.2.2) hexec).mp hdid)
  row := by
    obtain hheld | hgone := h.row
    · obtain hsame | ⟨_, _, _, hnone, _⟩ :=
        Op.exec_held hsound (op.within_true userTable) hop.1 hexec hheld
      · exact .inl hsame
      · cases hnone
    · exact .inr (Op.exec_gone hexec hgone)

/-! ### The deletion -/

theorem safe_getCurrentUser (credentials : Option String) (h : Discipline.Fresh t w) :
    erasures.Safe t (Discipline.OnSuccess fun current => Meant current.2.1 t)
      (getCurrentUser context credentials) w := by
  have hstable : erasures.Stable t (Discipline.Fresh (S := database) t) := fun h hw =>
    h.others hw.others
  have hnow : ∀ {w w' : UserWorld} {choice : Choice} {answer : Int}, Discipline.Fresh t w →
      w.Sound → Op.now.exec t choice w = some (answer, w') →
      erasures.Keeps t w w' ∧ Discipline.Fresh t w' := by
    intro w w' choice answer h hsound hexec
    refine ⟨erasures_keeps hsound hexec, ?_⟩
    obtain ⟨_, rfl⟩ := exec_now hexec
    exact h
  unfold getCurrentUser
  split
  · trivial
  · refine .perform_bind hstable h (fun h hsound _ _ hexec => hnow h hsound hexec) ?_
    intro checkedAt w h
    split
    · trivial
    · rename_i claims _
      refine .perform_bind hstable h (fun h hsound _ _ hexec => hnow h hsound hexec) ?_
      intro startedAt w h
      refine .scalar_bind (K := fun rows w => ∀ id user, rows.head? = some (id, user) →
        Meant id t w) hstable h ?_ ?_
      · intro w choice rows w' h hsound _ _ hexec
        refine ⟨erasures_keeps hsound hexec, fun id user hhead => ?_⟩
        obtain ⟨rfl, _, hrows⟩ := exec_select hexec
        obtain ⟨_, hview, _⟩ := (hrows id user).mp (List.mem_of_mem_head? hhead)
        constructor
        · intro other hdid
          obtain ⟨_, hfinds⟩ | hdid := did_cons.mp hdid
          · obtain ⟨_, hother⟩ := findsUser_selected hfinds
            exact (congrArg Prod.fst (Option.some.inj (hhead.symm.trans hother))).symm
          · exact foundOnly_of_fresh h id other hdid
        · exact h.unlocked
        · exact seen_of_view hview trivial
      · intro rows w hmeant
        split
        · trivial
        · rename_i id user hhead
          split
          · trivial
          · exact hmeant id user hhead

/-- The search of a `DELETE` finds the user, or the user is gone. -/
theorem Meant.select {choice : Choice} {rows : List (Nat × database.Row userTable)}
    (h : Meant userId t w) (hsound : w.Sound)
    (hexec : (Op.select (S := database) userTable fun id _ => id == userId).exec t choice w
      = some (rows, w')) :
    rows = [] ∧ Doomed userId t w' ∨ rows.map (·.1) = [userId] ∧ Meant userId t w' := by
  have hone : rows = [] ∨ rows.map (·.1) = [userId] :=
    exec_select_one (fun _ _ => beq_iff_eq.mp) hexec
  obtain ⟨rfl, _, hrows⟩ := exec_select hexec
  have honly : FoundOnly userId t (w.note t (.selected userTable rows)) := by
    intro other hdid
    obtain ⟨_, hfinds⟩ | hdid := did_cons.mp hdid
    · obtain ⟨user, hother⟩ := findsUser_selected hfinds
      exact beq_iff_eq.mp ((hrows other user).mp (List.mem_of_mem_head? hother)).2.2
    · exact h.only other hdid
  obtain rfl | hids := hone
  · refine .inl ⟨rfl, honly, .inr ?_⟩
    obtain hheld | hgone | ⟨user, huser, _⟩ := h.seen
    · exact absurd hheld (h.unlocked _ _)
    · exact hgone
    · have hview := (Slot.view_eq_committed (h.unlocked _ _)).trans huser
      have hfound := exec_select_mem hsound hexec hview (beq_self_eq_true userId)
      exact absurd hfound List.not_mem_nil
  · exact .inr ⟨hids, honly, h.unlocked, h.seen⟩

/-- Its lock deletes the user, unless the user is gone by then. -/
theorem Meant.lock {choice : Choice} {found : Option (database.Row userTable)}
    (h : Meant userId t w)
    (hexec : (Op.lock (S := database) userTable userId (fun _ => userId == userId)
      fun _ => none).exec t choice w = some (found, w')) : Doomed userId t w' where
  only other hdid := by
    refine h.only other ((Op.exec_did (findsUser_eq_false ?_ ?_) hexec).mp hdid)
    · exact nofun
    · exact nofun
  row := by
    obtain ⟨_, ⟨hview, _, rfl⟩ | ⟨row, _, ⟨_, _, rfl⟩ | ⟨hmiss, _⟩⟩⟩ := exec_lock hexec
    · rw [Slot.view_eq_committed (h.unlocked _ _)] at hview
      obtain hheld | hgone | ⟨user, huser, _⟩ := h.seen
      · exact absurd hheld (h.unlocked _ _)
      · exact .inr hgone
      · cases hview.symm.trans huser
    · exact .inl (congrArg Slot.held (World.write_slot_self (w := w) (t := t) none))
    · rw [beq_self_eq_true] at hmiss
      cases hmiss

theorem safe_deleteRow (h : Meant userId t w) :
    erasures.Safe t (Discipline.OnSuccess fun _ => Doomed userId t)
      (Prog.deleteWhere (S := database) userTable (fun id _ => id == userId) : Db _) w := by
  intro w₁ hw _ choice rows w₂ hexec
  refine ⟨erasures_keeps hw.sound hexec, ?_⟩
  obtain ⟨rfl, hdoomed⟩ | ⟨hids, hmeant⟩ := (Meant.stable h hw).select hw.sound hexec
  · exact hdoomed
  · change erasures.Safe t _ (Prog.lockEach userTable _ _ (rows.map (·.1))) w₂
    rw [hids]
    intro w₃ hw₃ _ choice found w₄ hexec
    exact ⟨erasures_keeps hw₃.sound hexec, (Meant.stable hmeant hw₃).lock hexec⟩

/-- **The deletion.** When it has committed, the user is gone. -/
theorem safe_deleteUser (h : Meant userId t w) :
    erasures.Safe t (Discipline.OnSuccess fun _ w => FoundOnly userId t w
      ∧ Gone w userTable userId) (Users.deleteUser userId) w := by
  refine (safe_deleteRow h).bind_onSuccess (fun rows w hdoomed => ?_) fun _ _ => trivial
  have hkeeps : ∀ {β : Type} {op : Op database β} {w w' : UserWorld} {choice : Choice}
      {answer : β}, Heedless β op → Doomed userId t w → w.Sound → True → True →
      op.exec t choice w = some (answer, w') → erasures.Keeps t w w' ∧ Doomed userId t w' :=
    fun hop hdoomed hsound _ _ hexec =>
      ⟨erasures_keeps hsound hexec, hdoomed.exec hop hsound hexec⟩
  refine (Discipline.Safe.of_all Doomed.stable hkeeps (heedless_modest.deleteOwned _)
    hdoomed).bind (fun _ w hdoomed => ?_) fun _ _ _ => trivial
  intro w₁ hw _ choice answer w₂ hexec
  refine ⟨erasures_keeps hw.sound hexec, ?_⟩
  have hdoomed := Doomed.stable hdoomed hw
  constructor
  · intro other hdid
    obtain rfl := exec_commit hexec
    obtain ⟨_, hfinds⟩ | hdid := did_cons.mp hdid
    · cases hfinds
    · exact hdoomed.only other hdid
  · obtain hheld | hgone := hdoomed.row
    · have hlt : userId < w₁.next userTable := by
        refine hw.sound.lt_next fun hempty => ?_
        rw [hempty] at hheld
        cases hheld
      obtain rfl := exec_commit hexec
      exact ⟨hlt, Slot.release_of_held true hheld⟩
    · exact Op.exec_gone hexec hgone

theorem safe_deleteAccount (credentials : Option String) (password : String)
    (h : Discipline.Fresh t w) :
    erasures.Safe t (Discipline.OnSuccess fun _ w => ∃ userId, FoundOnly userId t w
      ∧ Gone w userTable userId) (deleteAccount context credentials password) w := by
  refine (safe_getCurrentUser credentials h).bind_onSuccess (fun current w hmeant => ?_)
    fun _ _ => trivial
  obtain ⟨startedAt, userId, user⟩ := current
  dsimp only
  cases verifyPassword context.crypto password user.passwordHash with
  | error error => trivial
  | ok right =>
      cases right with
      | false => trivial
      | true =>
          refine (safe_deleteUser hmeant).mono fun r w hdeleted => ?_
          cases r with
          | ok value => exact ⟨userId, hdeleted⟩
          | error error => trivial

/-! ### Runs -/

/-- If the request asks for the deletion of an account and has succeeded, the user that it found is
gone. -/
def DeletesWhomItFound (request : UserRequest) (t : Txn) (r : Except Exn UserReply)
    (w : UserWorld) : Prop :=
  ∀ credentials password reply, request = .deleteProfile credentials password → r = .ok reply →
    ∀ userId, Did (findsUser userId) t w.trace → Gone w userTable userId

theorem erasures_verified :
    erasures.Verified (userSystem context legalPages eventIds) DeletesWhomItFound where
  stable _ _ _ _ _ h hw credentials password reply hrequest hr userId hdid :=
    hw.rely.gone _ _ (h credentials password reply hrequest hr userId (hw.others.did.mp hdid))
  close request t r w hsound _ h credentials password reply hrequest hr userId hdid := by
    exact (finish_lasting hsound (references_none w) false).gone _ _
      (h credentials password reply hrequest hr userId hdid)
  lost _ _ _ _ _ _ _ _ := nofun
  handler request t w _ _ hfresh _ := by
    cases request with
    | deleteProfile credentials password =>
        refine (safe_deleteAccount credentials password hfresh).bind_onSuccess ?_ ?_
        · rintro _ w ⟨userId, honly, hgone⟩ _ _ _ _ _ other hdid
          exact honly other hdid ▸ hgone
        · exact fun _ _ _ _ _ _ => nofun
    | _ => exact (erasures_safe _).mono fun _ _ _ _ _ _ => nofun

/-- A deletion of the user's account has succeeded. -/
def Deleted (userId : Nat) (c : UserConfig) : Prop :=
  ∃ t credentials password reply, c.world.request t = some (.deleteProfile credentials password)
    ∧ c.outcome t = some (.ok reply) ∧ Did (findsUser userId) t c.world.trace

variable {init : UserConfig → Prop} {c c' : UserConfig}
  (hinit : ∀ c, init c → c.Initial)
  (h : Transition.Reachable (userSystem context legalPages eventIds).step init Transition.anyStep c)

include hinit h

theorem Deleted.gone (hdeleted : Deleted userId c) : Gone c.world userTable userId := by
  obtain ⟨t, credentials, password, reply, hrequest, houtcome, hdid⟩ := hdeleted
  have hholds := erasures_verified.holds (fun c hc => ⟨hinit c hc, trivial⟩)
    (h.mono fun _ _ _ => Config.meets_of_forall fun _ _ _ => trivial)
  obtain ⟨request, hrequest', hdone⟩ := hholds.outcome (Config.client_of_outcome houtcome)
  cases hrequest.symm.trans hrequest'
  exact hdone credentials password reply rfl rfl userId hdid

/-- **Gone for good.** Nothing in a later run brings the user back. -/
theorem gone_lasts (hgone : Gone c.world userTable userId)
    (h' : Transition.Reachable (userSystem context legalPages eventIds).step (· = c)
      Transition.anyStep c') : Gone c'.world userTable userId :=
  erasures_verified.lasts (fun c hc => ⟨hinit c hc, trivial⟩)
    (fun hrely hgone => hrely.gone _ _ hgone)
    (h.mono fun _ _ _ => Config.meets_of_forall fun _ _ _ => trivial) hgone
    (h'.mono fun _ _ _ => Config.meets_of_forall fun _ _ _ => trivial)

end EventsApi
