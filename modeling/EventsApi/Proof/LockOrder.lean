import EventsApi.Library.ReadCommitted.References
import EventsApi.Proof.AccountShape
import EventsApi.Proof.RefreshTokens

/-!
# The order of row locks

Each request starts from one row: a refresh and a logout from a session, a request for a reset token
and a reset from the token, a change of the password and the deletion of an account from the user.
Every further row refers to one that the transaction holds already. Only a reset goes the other way
once, from the token to its user. New rows refer to rows of the transaction itself, or to a user: a
login then holds no row, and a request for a reset token at most a token of that user.
-/

namespace EventsApi

open ReadCommitted

abbrev CredentialWorld := World database CredentialRequest

abbrev CredentialConfig := Config database CredentialRequest Exn CredentialReply

/-- The foreign keys of a row. -/
def references : (T : database.Table) → database.Row T → List (database.Table × Nat)
  | .users, _ => []
  | .tokens _, (token : UserToken) => [(userTable, token.userId)]
  | .refreshTokenSessions, (session : RefreshTokenSession) => [(userTable, session.userId)]
  | .emailOutboxJobs, (job : EmailOutboxJob) =>
      (job.confirmationTokenId.map (tokenTable .confirmation, ·)).toList
        ++ (job.passwordResetTokenId.map (tokenTable .passwordReset, ·)).toList

/-- The table of the first row that the request locks. -/
def CredentialRequest.entry : CredentialRequest → Option Table
  | .login .. => none
  | .refresh _ | .logout _ => some .refreshTokenSessions
  | .forgotPassword _ | .resetPassword .. => some (.tokens .passwordReset)
  | .changePassword .. | .deleteAccount .. => some .users

def CredentialRequest.resets : CredentialRequest → Bool
  | .resetPassword .. => true
  | _ => false

def CredentialRequest.deletes : CredentialRequest → Bool
  | .deleteAccount .. => true
  | _ => false

/-- A login, a refresh, a logout or a request for a reset token. -/
def CredentialRequest.brief : CredentialRequest → Bool
  | .login .. | .refresh _ | .logout _ | .forgotPassword _ => true
  | _ => false

def Enters (t : Txn) (w : CredentialWorld) (T : database.Table) : Prop :=
  ∃ request, w.request t = some request ∧ request.entry = some T

/-- The row refers to one that the transaction holds. -/
def Under (t : Txn) (w : CredentialWorld) (T : database.Table) (id : Nat) : Prop :=
  ∃ row, (w.slot T id).committed = some row
    ∧ ∃ ref ∈ references T row, (w.slot ref.1 ref.2).HeldBy t

/-- A reset goes from the token that it holds to the user. -/
def Climbs (t : Txn) (w : CredentialWorld) (T : database.Table) (id : Nat) : Prop :=
  T = userTable ∧ (w.request t).any (·.resets) = true
    ∧ ∃ tokenId token, (w.slot (tokenTable .passwordReset) tokenId).committed = some token
      ∧ (w.slot (tokenTable .passwordReset) tokenId).HeldBy t ∧ token.userId = id

/-- Why a transaction holds a row. -/
def Entitled (t : Txn) (w : CredentialWorld) (T : database.Table) (id : Nat) : Prop :=
  Enters t w T ∨ Under t w T id ∨ Climbs t w T id

/-- The transaction holds no row. -/
def Lockless (t : Txn) (w : CredentialWorld) : Prop :=
  ∀ T id, ¬ (w.slot T id).HeldBy t

/-- Which row a transaction may ask for. -/
def LocksInTurn (t : Txn) (w : CredentialWorld) (row : database.Table × Nat) : Prop :=
  (w.slot row.1 row.2).HeldBy t ∨ Gone w row.1 row.2
    ∨ (∃ version, (w.slot row.1 row.2).committed = some version)
      ∧ (Lockless t w ∧ Enters t w row.1 ∨ Under t w row.1 row.2 ∨ Climbs t w row.1 row.2)

/-- The transaction requests a reset token and holds one of the user. -/
def HoldsTokenOf (userId : Nat) (t : Txn) (w : CredentialWorld) : Prop :=
  ∃ tokenId token, (w.slot (tokenTable .passwordReset) tokenId).committed = some token
    ∧ (w.slot (tokenTable .passwordReset) tokenId).HeldBy t ∧ (token : UserToken).userId = userId

/-- Which row a transaction may refer to. -/
def RefersInTurn (t : Txn) (w : CredentialWorld) (ref : database.Table × Nat) : Prop :=
  (w.request t).any (·.brief) = true
    ∧ ((w.slot ref.1 ref.2).HeldBy t ∨ ref.1 = userTable
      ∧ (Lockless t w ∨ HoldsTokenOf ref.2 t w
        ∧ ∃ email, w.request t = some (.forgotPassword email)))

/-- What a transaction may do. -/
structure GoesInTurn (t : Txn) (w : CredentialWorld) (β : Type) (op : Op database β) : Prop where
  locks : ∀ row, op.wants = some row → LocksInTurn t w row
  refers : ∀ ref ∈ op.refersTo references w, RefersInTurn t w ref
  deletes : op.Deletes userTable → (w.request t).any (·.deletes) = true

variable (context : Context)

structure LocksInOrder (w : CredentialWorld) : Prop where
  unique : Unique (tokenTable .passwordReset) w
  keyed : Keyed sessionKey context.crypto.sha256 w
  references : References references w
  users : ∀ id t, (w.slot userTable id).HeldBy t →
    ∃ user, (w.slot userTable id).committed = some user
  entitled : ∀ T id t row, (w.slot T id).committed = some row → (w.slot T id).HeldBy t →
    Entitled t w T id
  inserted : ∀ T id t row, (w.slot T id).held = some (t, some row) →
    (w.slot T id).committed = none → EventsApi.references T row ≠ [] →
    (w.request t).any (·.brief) = true
  deleted : ∀ id t, (w.slot userTable id).held = some (t, none) →
    (w.request t).any (·.deletes) = true

variable {context} {t u : Txn} {w w' : CredentialWorld} {T : database.Table} {id : Nat}

/-! ### Entitlement -/

theorem sort_of_others {sort : CredentialRequest → Bool} (hw : Others t w w')
    (h : (w.request t).any sort = true) : (w'.request t).any sort = true := by
  obtain ⟨request, hrequest, hsort⟩ := (Option.any_eq_true _ _).mp h
  rw [hw.request t request hrequest]
  exact hsort

theorem Entitled.others (h : Entitled t w T id) (hw : Others t w w')
    (hheld : (w.slot T id).HeldBy t) : Entitled t w' T id := by
  have hsame : ∀ {T id}, (w.slot T id).HeldBy t → w'.slot T id = w.slot T id := by
    rintro T id ⟨version, hheld⟩
    exact hw.mine T id version hheld
  obtain ⟨request, hrequest, hentry⟩ | ⟨row, hrow, ref, href, hown⟩ |
    ⟨rfl, hresets, tokenId, token, htoken, hown, huser⟩ := h
  · exact .inl ⟨request, hw.request t request hrequest, hentry⟩
  · refine .inr (.inl ⟨row, ?_, ref, href, hw.heldBy.mpr hown⟩)
    rw [hsame hheld, hrow]
  · have htoken' := hsame hown ▸ htoken
    exact .inr (.inr
      ⟨rfl, sort_of_others hw hresets, tokenId, token, htoken', hw.heldBy.mpr hown, huser⟩)

section Exec

variable {β : Type} {op : Op database β} {choice : Choice} {answer : β}

theorem Under.exec (h : Under t w T id) (hsound : w.Sound) (hkind : op.kind ≠ .commit)
    (hexec : op.exec u choice w = some (answer, w')) : Under t w' T id := by
  obtain ⟨row, hrow, ref, href, hown⟩ := h
  exact ⟨row, (Op.exec_committed hkind hexec T id).trans hrow, ref, href,
    Op.exec_holds hsound hkind hexec hown⟩

theorem Climbs.exec (h : Climbs t w T id) (hsound : w.Sound) (hkind : op.kind ≠ .commit)
    (hexec : op.exec u choice w = some (answer, w')) : Climbs t w' T id := by
  obtain ⟨rfl, hresets, tokenId, token, htoken, hown, huser⟩ := h
  exact ⟨rfl, by rwa [Op.exec_request hexec], tokenId, token,
    (Op.exec_committed hkind hexec _ _).trans htoken, Op.exec_holds hsound hkind hexec hown, huser⟩

theorem Entitled.exec (h : Entitled t w T id) (hsound : w.Sound) (hkind : op.kind ≠ .commit)
    (hexec : op.exec u choice w = some (answer, w')) : Entitled t w' T id := by
  obtain ⟨request, hrequest, hentry⟩ | hunder | hclimbs := h
  · exact .inl ⟨request, by rwa [Op.exec_request hexec], hentry⟩
  · exact .inr (.inl (hunder.exec hsound hkind hexec))
  · exact .inr (.inr (hclimbs.exec hsound hkind hexec))

/-! ### What an operation may do to the tables -/

/-- The session is deleted, or found by the same token as before. -/
def KeepsTokenHash (session : RefreshTokenSession) (version : Option RefreshTokenSession) : Prop :=
  ∀ session', version = some session' → session'.tokenHash = session.tokenHash

structure Orderly (context : Context) (t : Txn) (w : CredentialWorld) (op : Op database β) :
    Prop where
  users : op.kind ≠ .insert userTable
  tokens : op.Within (tokenTable .passwordReset) KeptOrDeleted fun _ => True
  sessions : op.Within sessionTable (Rekeyed sessionKey context.crypto.sha256 t w)
    (NewlyKeyed sessionKey context.crypto.sha256 t w)
  references : ∀ T, op.Within T (KeepsReferences references T) (RefersToOne references T)

/-- An operation without new session tokens. -/
structure Plain (β : Type) (op : Op database β) : Prop where
  users : op.kind ≠ .insert userTable
  tokens : op.Within (tokenTable .passwordReset) KeptOrDeleted fun _ => True
  sessions : op.Within sessionTable KeepsTokenHash fun _ => False
  references : ∀ T, op.Within T (KeepsReferences EventsApi.references T)
    (RefersToOne EventsApi.references T)

theorem Plain.orderly (h : Plain β op) : Orderly context t w op where
  users := h.users
  tokens := h.tokens
  sessions := h.sessions.mono (fun _ _ hkeeps session' heq => .inl (hkeeps session' heq))
    fun _ => False.elim
  references := h.references

/-- **One step.** Locks stay in order while a transaction asks for rows in turn. -/
theorem LocksInOrder.exec (h : LocksInOrder context w) (hsound : w.Sound)
    (hop : Orderly context t w op) (hkind : op.kind ≠ .commit) (hturn : GoesInTurn t w β op)
    (hexec : op.exec t choice w = some (answer, w')) : LocksInOrder context w' where
  unique := h.unique.step tokens_clash_symm hsound
    ((Op.exec_tableStep hop.tokens hexec).mono (fun _ _ => KeptOrDeleted.keepsClashes) fun _ => id)
  keyed := h.keyed.step (Op.exec_tableStep hop.sessions hexec) (Op.exec_drawn_subset hsound hexec)
    fun v => (Op.exec_others hsound hexec (Nat.succ_ne_self t)).hasCommitted
  references := h.references.step hsound fun T => Op.exec_tableStep (hop.references T) hexec
  users id v hheld := by
    rw [Op.exec_committed hkind hexec]
    obtain hheld' | ⟨rfl, hwants | ⟨hinsert, _⟩⟩ := Op.exec_heldBy hexec hheld
    · exact h.users id v hheld'
    · obtain hown | hgone | ⟨huser, _⟩ := hturn.locks _ hwants
      · exact h.users id v hown
      · obtain ⟨version, hheld⟩ := hheld
        rw [(Op.exec_gone hexec hgone).2] at hheld
        cases hheld
      · exact huser
    · exact absurd hinsert hop.users
  entitled T id v row hrow hheld := by
    rw [Op.exec_committed hkind hexec] at hrow
    obtain hheld | ⟨rfl, hwants | ⟨_, rfl⟩⟩ := Op.exec_heldBy hexec hheld
    · have hentitled := h.entitled T id v row hrow hheld
      by_cases hv : v = t
      · exact hentitled.exec hsound hkind hexec
      · exact hentitled.others (Op.exec_others hsound hexec hv) hheld
    · obtain hown | hgone | ⟨_, hturn⟩ := hturn.locks _ hwants
      · exact (h.entitled T id v row hrow hown).exec hsound hkind hexec
      · rw [hgone.2] at hrow
        cases hrow
      · exact Entitled.exec (hturn.imp_left And.right) hsound hkind hexec
    · rw [hsound.beyond T _ le_rfl] at hrow
      cases hrow
  inserted T id v row hheld hnone hrefs := by
    rw [Op.exec_request hexec]
    obtain ⟨before, hheld, hnone, hsame⟩ | ⟨rfl, hrefers⟩ :=
      Op.exec_inserted (hop.references T) hkind hexec hheld hnone
    · exact h.inserted T id v before hheld hnone (hsame ▸ hrefs)
    · obtain ⟨ref, href⟩ := List.exists_mem_of_ne_nil _ hrefs
      exact (hturn.refers ref (hrefers ▸ href)).1
  deleted id v hheld := by
    rw [Op.exec_request hexec]
    obtain hheld | ⟨rfl, hdeletes⟩ := Op.exec_deleted hexec hheld
    · exact h.deleted id v hheld
    · exact hturn.deletes hdeletes

end Exec

theorem LocksInOrder.release (h : LocksInOrder context w) (hsound : w.Sound) {keep : Bool}
    (hslot : ∀ T id, w'.slot T id = (w.slot T id).release t keep)
    (hkeep : keep = true → w'.HasCommitted t) (hothers : ∀ u, u ≠ t → Others u w w') :
    LocksInOrder context w' where
  unique := h.unique.release tokens_clash_symm (hslot _)
  keyed := h.keyed.step (t := t) (.release keep hkeep (hslot _))
    (hothers _ (Nat.succ_ne_self t)).drawn_subset
    fun _ => (hothers _ (Nat.succ_ne_self t)).hasCommitted
  references := h.references.step (t := t) hsound fun T => .release keep hkeep (hslot T)
  users id v hheld := by
    obtain ⟨version, hheld⟩ := hheld
    rw [hslot] at hheld ⊢
    have hsame := (Slot.held_of_release hheld).2
    rw [hsame] at hheld ⊢
    exact h.users id v ⟨version, hheld⟩
  entitled T id v row hrow hheld := by
    obtain ⟨version, hheld⟩ := hheld
    rw [hslot] at hrow hheld
    obtain ⟨hv, hsame⟩ := Slot.held_of_release hheld
    rw [hsame] at hrow hheld
    exact (h.entitled T id v row hrow ⟨version, hheld⟩).others (hothers v hv) ⟨version, hheld⟩
  inserted T id v row hheld hnone hrefs := by
    rw [hslot] at hheld hnone
    obtain ⟨hv, hsame⟩ := Slot.held_of_release hheld
    rw [hsame] at hheld hnone
    exact sort_of_others (hothers v hv) (h.inserted T id v row hheld hnone hrefs)
  deleted id v hheld := by
    rw [hslot] at hheld
    obtain ⟨hv, hsame⟩ := Slot.held_of_release hheld
    rw [hsame] at hheld
    exact sort_of_others (hothers v hv) (h.deleted id v hheld)

theorem LocksInOrder.commit (h : LocksInOrder context w) (hsound : w.Sound) :
    LocksInOrder context ((w.finish t true).note t .committed) :=
  h.release (t := t) hsound (fun _ _ => rfl)
    (fun _ => ⟨_, List.mem_cons_self, rfl, rfl⟩)
    fun _ hne => (others_finish hne true).trans (others_note hne _)

theorem LocksInOrder.quiet (h : LocksInOrder context w) (hquiet : Quiet w w') :
    LocksInOrder context w' where
  unique := ⟨by rw [hquiet.slot]; exact h.unique.seen, by rw [hquiet.slot]; exact h.unique.pending⟩
  keyed := h.keyed.step (t := 0) (.same (congrFun hquiet.slot _))
    (hquiet.others 0).drawn_subset fun _ => (hquiet.others 0).hasCommitted
  references :=
    ⟨by rw [hquiet.slot]; exact h.references.held, by rw [hquiet.slot]; exact h.references.one⟩
  users := by
    rw [hquiet.slot]
    exact h.users
  entitled T id v row hrow hheld := by
    rw [hquiet.slot] at hrow hheld
    exact (h.entitled T id v row hrow hheld).others (hquiet.others v) hheld
  inserted T id v row hheld hnone hrefs := by
    rw [hquiet.slot] at hheld hnone
    exact sort_of_others (hquiet.others v) (h.inserted T id v row hheld hnone hrefs)
  deleted id v hheld := by
    rw [hquiet.slot] at hheld
    exact sort_of_others (hquiet.others v) (h.deleted id v hheld)

variable (context) in
/-- The discipline of the requests, as far as row locks go. -/
def lockOrder : Discipline database CredentialRequest where
  inv := LocksInOrder context
  rely _ := Lasting references
  allowed _ _ _ := True
  rely_refl _ := Lasting.refl
  rely_trans := Lasting.trans
  quiet hquiet h := ⟨h.quiet hquiet, fun _ => Lasting.quiet hquiet⟩
  rollback _ _ hsound h :=
    ⟨h.release hsound (fun _ _ => rfl) nofun fun _ hne => others_finish hne false,
      fun _ _ => finish_lasting hsound h.references false⟩

end EventsApi
