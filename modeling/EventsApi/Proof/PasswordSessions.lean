import EventsApi.Proof.SessionSteps

/-!
# Sessions outlive the password they were opened with

A new password revokes the sessions its transaction finds. It does not find the session of a login
that read the old password and has not committed, and the login does not look at the password again.
What is proved is that nothing else goes wrong: if every login commits while the password it
verified is still the stored one, and every new password is committed with all the sessions of the
user locked and so revoked, a session that is not revoked was opened with the stored password.
-/

namespace EventsApi

open ReadCommitted

def SessionRequest.StoresPassword : SessionRequest → Prop
  | .changePassword .. | .resetPassword .. => True
  | .login .. | .refresh .. | .logout .. => False

def SessionRequest.isLogin : SessionRequest → Bool
  | .login .. => true
  | .refresh .. | .logout .. | .changePassword .. | .resetPassword .. => false

/-- The passwords of the users that were read, if any, are still stored. -/
def stillStored (w : SessionWorld) (e : Entry database) : Bool :=
  match e.event with
  | .selected .users (rows : List (Nat × User)) => rows.all fun entry =>
      (w.slot userTable entry.1).committed.any fun (user : User) =>
        user.passwordHash == entry.2.passwordHash
  | _ => true

/-- A login may commit while the passwords it read are still stored, and a transaction with a new
password if it has locked every session of the user that is not revoked. -/
structure Undisturbed (t : Txn) (w : SessionWorld) : Prop where
  login : (w.request t).any SessionRequest.isLogin → ∀ e ∈ w.trace, e.txn = t → stillStored w e
  password : ∀ id < w.next sessionTable, ∀ session ∈ (w.slot sessionTable id).committed,
    ¬ RefreshTokenSession.Revoked session →
    (w.slot userTable (RefreshTokenSession.userId session)).HeldBy t →
    (w.slot sessionTable id).HeldBy t

instance (t : Txn) (w : SessionWorld) : Decidable (Undisturbed t w) :=
  decidable_of_iff
    (((w.request t).any SessionRequest.isLogin → ∀ e ∈ w.trace, e.txn = t → stillStored w e)
      ∧ ∀ id < w.next sessionTable, ∀ session ∈ (w.slot sessionTable id).committed,
        ¬ RefreshTokenSession.Revoked session →
        (w.slot userTable (RefreshTokenSession.userId session)).HeldBy t →
        (w.slot sessionTable id).HeldBy t)
    ⟨fun h => ⟨h.1, h.2⟩, fun h => ⟨h.login, h.password⟩⟩

/-- The side condition on a step: a commit that is undisturbed. -/
def CommitsUndisturbed (t : Txn) (w : SessionWorld) : Kind database → Prop
  | .commit => Undisturbed t w
  | .select _ | .lock _ | .insert _ | .now | .draw => True

instance (t : Txn) (w : SessionWorld) (kind : Kind database) :
    Decidable (CommitsUndisturbed t w kind) :=
  match kind with
  | .commit => inferInstanceAs (Decidable (Undisturbed t w))
  | .select _ | .lock _ | .insert _ | .now | .draw => .isTrue trivial

variable (context : Context)

/-- The login `t` read the user with the password hash and verified it. -/
def VerifiedBy (t : Txn) (userId : Nat) (passwordHash : String) (w : SessionWorld) : Prop :=
  ∃ email password, w.request t = some (.login email password)
    ∧ context.crypto.checkpw password passwordHash = true
    ∧ ∃ clock, ∃ rows : List (Nat × User),
      (⟨t, clock, .selected userTable rows⟩ : Entry database) ∈ w.trace
        ∧ ∃ user, (userId, user) ∈ rows ∧ user.passwordHash = passwordHash

/-- The login `t` opened the session, after it verified the password hash. -/
def OpenedBy (t : Txn) (id userId : Nat) (passwordHash : String) (w : SessionWorld) : Prop :=
  VerifiedBy context t userId passwordHash w
    ∧ ∃ clock, (⟨t, clock, .inserted sessionTable id⟩ : Entry database) ∈ w.trace

structure PasswordSessions (w : SessionWorld) : Prop where
  descends : ∀ id (session : RefreshTokenSession),
    (w.slot sessionTable id).committed = some session → ¬ session.Revoked →
    ∃ user : User, (w.slot userTable session.userId).committed = some user
      ∧ ∃ t, OpenedBy context t id session.userId user.passwordHash w
  pending : ∀ id t (session : RefreshTokenSession),
    (w.slot sessionTable id).held = some (t, some session) → ¬ session.Revoked →
    (∃ old : RefreshTokenSession, (w.slot sessionTable id).committed = some old
        ∧ old.userId = session.userId ∧ ¬ old.Revoked)
      ∨ ∃ passwordHash, OpenedBy context t id session.userId passwordHash w
  storing : ∀ userId t version, (w.slot userTable userId).held = some (t, version) →
    ∃ request, w.request t = some request ∧ request.StoresPassword

variable {context} {t u : Txn} {w w' : SessionWorld}

theorem VerifiedBy.mono {userId : Nat} {passwordHash : String}
    (h : VerifiedBy context t userId passwordHash w) (htrace : ∀ e ∈ w.trace, e ∈ w'.trace)
    (hrequest : ∀ request, w.request t = some request → w'.request t = some request) :
    VerifiedBy context t userId passwordHash w' := by
  obtain ⟨email, password, hreq, hcheck, clock, rows, hselected, hrow⟩ := h
  exact ⟨email, password, hrequest _ hreq, hcheck, clock, rows, htrace _ hselected, hrow⟩

theorem OpenedBy.mono {id userId : Nat} {passwordHash : String}
    (h : OpenedBy context t id userId passwordHash w) (htrace : ∀ e ∈ w.trace, e ∈ w'.trace)
    (hrequest : ∀ request, w.request t = some request → w'.request t = some request) :
    OpenedBy context t id userId passwordHash w' := by
  obtain ⟨hverified, clock, hinserted⟩ := h
  exact ⟨hverified.mono htrace hrequest, clock, htrace _ hinserted⟩

theorem OpenedBy.others {id userId : Nat} {passwordHash : String}
    (h : OpenedBy context t id userId passwordHash w) (hw : Others u w w') :
    OpenedBy context t id userId passwordHash w' :=
  h.mono hw.trace_subset fun request => hw.request t request

/-- A version of the same user's session, not revoked only if the old one is not. -/
def SameOwner (session : RefreshTokenSession) (version : Option RefreshTokenSession) : Prop :=
  ∃ session' : RefreshTokenSession, version = some session' ∧ session'.userId = session.userId
    ∧ (session.Revoked → session'.Revoked)

/-- The request of the transaction stores a password. -/
def Storing (t : Txn) (w : SessionWorld) : Prop :=
  ∃ request, w.request t = some request ∧ request.StoresPassword

/-- A step that commits nothing. -/
theorem PasswordSessions.step (h : PasswordSessions context w)
    (hsessions : TableStep t sessionTable SameOwner (fun session : RefreshTokenSession =>
      ∃ passwordHash, VerifiedBy context t session.userId passwordHash w) w w')
    (husers : TableStep t userTable (fun _ _ => Storing t w) (fun _ => False) w w')
    (hothers : ∀ u, u ≠ t → Others u w w') (hrequest : w'.request = w.request)
    (hsame : ∀ T id, (w'.slot T id).committed = (w.slot T id).committed) :
    PasswordSessions context w' := by
  have hother := hothers (t + 1) (Nat.succ_ne_self t)
  constructor
  · intro id session hcommitted hactive
    rw [hsame] at hcommitted ⊢
    obtain ⟨user, huser, u, hopened⟩ := h.descends id session hcommitted hactive
    exact ⟨user, huser, u, hopened.others hother⟩
  · intro id u session hheld hactive
    rw [hsame]
    have hold : ∀ old : RefreshTokenSession, (w.slot sessionTable id).view u = some old →
        SameOwner old (some session) → (∃ old : RefreshTokenSession,
          (w.slot sessionTable id).committed = some old ∧ old.userId = session.userId
            ∧ ¬ old.Revoked)
        ∨ ∃ passwordHash, OpenedBy context u id session.userId passwordHash w' := by
      rintro old hview ⟨session', heq, howner, hrevoked⟩
      cases heq
      have hactive' : ¬ old.Revoked := fun hold => hactive (hrevoked hold)
      by_cases hown : (w.slot sessionTable id).HeldBy u
      · obtain ⟨version, hown⟩ := hown
        rw [Slot.view_of_held hown] at hview
        rw [howner]
        exact (h.pending id u old (hview ▸ hown) hactive').imp_right fun ⟨hash, hopened⟩ =>
          ⟨hash, hopened.others hother⟩
      · rw [Slot.view_eq_committed hown] at hview
        exact .inl ⟨old, hview, howner.symm, hactive'⟩
    obtain ⟨hheld, _⟩ | ⟨rfl, _, ⟨old, hview, hchange⟩
        | ⟨new, rfl, heq, ⟨hash, hverified⟩, hentry⟩⟩ :=
      hsessions.held hheld
    · exact (h.pending id u session hheld hactive).imp_right fun ⟨hash, hopened⟩ =>
        ⟨hash, hopened.others hother⟩
    · exact hold old hview hchange
    · cases heq
      refine .inr ⟨hash, hverified.mono hother.trace_subset fun _ hreq => hrequest ▸ hreq, ?_⟩
      exact ⟨w.clock, hentry⟩
  · intro userId u version hheld
    rw [hrequest]
    obtain ⟨hheld, _⟩ | ⟨rfl, _, ⟨_, _, hstoring⟩ | ⟨_, _, _, hfalse, _⟩⟩ := husers.held hheld
    · exact h.storing userId u version hheld
    · exact hstoring
    · exact hfalse.elim

theorem VerifiedBy.stillStored {userId : Nat} {passwordHash : String}
    (h : VerifiedBy context t userId passwordHash w) (hundisturbed : Undisturbed t w) :
    ∃ user : User, (w.slot userTable userId).committed = some user
      ∧ user.passwordHash = passwordHash := by
  obtain ⟨email, password, hreq, _, clock, rows, hselected, read, hrow, rfl⟩ := h
  have hstill := hundisturbed.login (by rw [hreq]; rfl) _ hselected rfl
  have hread := List.all_eq_true.mp hstill (userId, read) hrow
  obtain ⟨user, huser, hhash⟩ := (Option.any_eq_true _ _).mp hread
  exact ⟨user, huser, beq_iff_eq.mp hhash⟩

/-- **The commit.** Undisturbed, and with every session of the user revoked whose password it
stores, a commit keeps the sessions that are not revoked with the stored passwords. -/
theorem PasswordSessions.commit {choice : Choice} {answer : Unit} (h : PasswordSessions context w)
    (hsound : w.Sound) (hundisturbed : Undisturbed t w)
    (hrevoked : ∀ id (session : RefreshTokenSession),
      (w.slot sessionTable id).held = some (t, some session) →
      (w.slot userTable session.userId).HeldBy t → session.Revoked)
    (hexec : Op.commit.exec t choice w = some (answer, w')) : PasswordSessions context w' := by
  have hother : Others (t + 1) w w' := Op.exec_others hsound hexec (Nat.succ_ne_self t)
  have hslot : ∀ T id, w'.slot T id = (w.slot T id).release t true := by
    rw [exec_commit hexec]
    exact fun _ _ => rfl
  have hback : ∀ T id u version, (w'.slot T id).held = some (u, version) →
      w'.slot T id = w.slot T id := by
    intro T id u version hheld
    rw [hslot] at hheld ⊢
    exact (Slot.held_of_release hheld).2
  constructor
  · intro id session hcommitted hactive
    rw [hslot]
    rw [hslot] at hcommitted
    have hdescends : ∀ old : RefreshTokenSession,
        (w.slot sessionTable id).committed = some old → old.userId = session.userId →
        ¬ old.Revoked → ¬ (w.slot userTable session.userId).HeldBy t →
        ∃ user : User, ((w.slot userTable session.userId).release t true).committed = some user
          ∧ ∃ t, OpenedBy context t id session.userId user.passwordHash w' := by
      intro old hold howner hactive hunheld
      rw [Slot.release_of_not_held true hunheld]
      obtain ⟨user, huser, u, hopened⟩ := h.descends id old hold hactive
      rw [howner] at huser hopened
      exact ⟨user, huser, u, hopened.others hother⟩
    by_cases hheld : (w.slot sessionTable id).HeldBy t
    · obtain ⟨version, hheld⟩ := hheld
      rw [Slot.release_of_held true hheld] at hcommitted
      obtain rfl : version = some session := hcommitted
      have hunheld : ¬ (w.slot userTable session.userId).HeldBy t :=
        fun huser => hactive (hrevoked id session hheld huser)
      obtain ⟨old, hold, howner, hactive'⟩ | ⟨hash, hopened⟩ := h.pending id t session hheld hactive
      · exact hdescends old hold howner hactive' hunheld
      · rw [Slot.release_of_not_held true hunheld]
        obtain ⟨user, huser, hhash⟩ := hopened.1.stillStored hundisturbed
        exact ⟨user, huser, t, hhash ▸ hopened.others hother⟩
    · rw [Slot.release_of_not_held true hheld] at hcommitted
      refine hdescends session hcommitted rfl hactive fun huser => ?_
      have hlt : id < w.next sessionTable := by
        by_contra hle
        rw [hsound.beyond sessionTable id (Nat.le_of_not_lt hle)] at hcommitted
        cases hcommitted
      exact hheld (hundisturbed.password id hlt session hcommitted hactive huser)
  · intro id u session hheld hactive
    have heq := hback _ _ _ _ hheld
    rw [heq] at hheld ⊢
    exact (h.pending id u session hheld hactive).imp_right fun ⟨hash, hopened⟩ =>
      ⟨hash, hopened.others hother⟩
  · intro userId u version hheld
    have heq := hback _ _ _ _ hheld
    rw [heq] at hheld
    rw [Op.exec_request hexec]
    exact h.storing userId u version hheld

theorem PasswordSessions.quiet (h : PasswordSessions context w) (hquiet : Quiet w w') :
    PasswordSessions context w' := by
  have hopened : ∀ {u id userId passwordHash}, OpenedBy context u id userId passwordHash w →
      OpenedBy context u id userId passwordHash w' :=
    fun hopened => hopened.others (hquiet.others 0)
  constructor
  · intro id session hcommitted hactive
    rw [hquiet.slot] at hcommitted ⊢
    obtain ⟨user, huser, u, hlogin⟩ := h.descends id session hcommitted hactive
    exact ⟨user, huser, u, hopened hlogin⟩
  · intro id u session hheld hactive
    rw [hquiet.slot] at hheld ⊢
    exact (h.pending id u session hheld hactive).imp_right fun ⟨hash, hlogin⟩ =>
      ⟨hash, hopened hlogin⟩
  · intro userId u version hheld
    rw [hquiet.slot] at hheld
    obtain ⟨request, hreq, hstores⟩ := h.storing userId u version hheld
    exact ⟨request, hquiet.request u request hreq, hstores⟩

variable (context) in
def passwordSessions : Discipline database SessionRequest where
  inv := PasswordSessions context
  rely _ _ _ := True
  allowed := CommitsUndisturbed
  rely_refl _ _ := trivial
  rely_trans _ _ := trivial
  quiet hquiet h := ⟨h.quiet hquiet, fun _ => trivial⟩
  rollback _ _ _ h := ⟨h.step tableStep_rollback tableStep_rollback
    (fun _ hne => others_finish hne false) rfl fun _ _ => Slot.release_false_committed,
    fun _ _ => trivial⟩

/-! ### The requests -/

section Exec

variable {β : Type} {op : Op database β} {choice : Choice} {answer : β}

theorem PasswordSessions.exec (h : PasswordSessions context w) (hsound : w.Sound)
    (hexec : op.exec t choice w = some (answer, w'))
    (hsessions : op.Within sessionTable SameOwner fun session : RefreshTokenSession =>
      ∃ passwordHash, VerifiedBy context t session.userId passwordHash w)
    (husers : op.Within userTable (fun _ _ => Storing t w) fun _ => False)
    (hkind : op.kind ≠ .commit) : (passwordSessions context).Keeps t w w' :=
  ⟨h.step (Op.exec_tableStep hsessions hexec) (Op.exec_tableStep husers hexec)
    (fun _ hne => Op.exec_others hsound hexec hne) (Op.exec_request hexec)
    (Op.exec_committed hkind hexec), fun _ _ => trivial⟩

/-- An operation that leaves users alone, and sessions with their owners. -/
def KeepsOwners (β : Type) (op : Op database β) : Prop :=
  op.Within sessionTable SameOwner (fun _ => False)
    ∧ op.Within userTable (fun _ _ => False) fun _ => False

theorem LeavesUsers.keepsOwners (h : LeavesUsers β op) : KeepsOwners β op := by
  refine ⟨Op.Within.mono ?_ (fun _ => id) h.1, h.2⟩
  rintro session version (rfl | ⟨now, rfl⟩)
  · exact ⟨session, rfl, rfl, id⟩
  · exact ⟨RefreshSessions.revoke now session, rfl, rfl, fun _ => rfl⟩

theorem KeepsOwners.exec (hop : KeepsOwners β op) (h : PasswordSessions context w)
    (hsound : w.Sound) (hallowed : CommitsUndisturbed t w op.kind)
    (hrevoked : ∀ id (session : RefreshTokenSession),
      (w.slot sessionTable id).held = some (t, some session) →
      (w.slot userTable session.userId).HeldBy t → session.Revoked)
    (hexec : op.exec t choice w = some (answer, w')) :
    (passwordSessions context).Keeps t w w' := by
  have hopen : op.kind ≠ .commit → (passwordSessions context).Keeps t w w' :=
    h.exec hsound hexec (hop.1.mono (fun _ _ => id) fun _ => False.elim)
      (hop.2.mono (fun _ _ => False.elim) fun _ => id)
  cases op with
  | commit => exact ⟨h.commit hsound hallowed hrevoked hexec, fun _ _ => trivial⟩
  | select | lock | insert | now | draw => exact hopen nofun

end Exec

/-- A request that stores no password. -/
def NotStoring (t : Txn) (w : SessionWorld) : Prop :=
  ∃ request, w.request t = some request ∧ ¬ request.StoresPassword

theorem NotStoring.stable : (passwordSessions context).Stable t (NotStoring t) := by
  rintro w w' ⟨request, hreq, hnot⟩ hw
  exact ⟨request, hw.others.request t request hreq, hnot⟩

theorem safe_keepsOwners {ε α : Type} {p : Prog database ε α} (hall : p.All KeepsOwners)
    (h : NotStoring t w) :
    (passwordSessions context).Safe t (fun _ w => NotStoring t w) p w := by
  refine Discipline.Safe.of_all NotStoring.stable ?_ hall h
  intro β op w w' choice answer hop hnot hsound hinv hallowed hexec
  obtain ⟨request, hreq, hnot⟩ := hnot
  refine ⟨hop.exec hinv hsound hallowed ?_ hexec, request, ?_, hnot⟩
  · rintro id session _ ⟨version, huser⟩
    obtain ⟨request', hreq', hstores⟩ := hinv.storing _ t version huser
    have heq := hreq.symm.trans hreq'
    cases heq
    exact absurd hstores hnot
  · rw [Op.exec_request hexec, hreq]

theorem safe_leavesUsers {α : Type} {p : Db α} (hall : p.All LeavesUsers) (h : NotStoring t w) :
    (passwordSessions context).Safe t (fun _ w => NotStoring t w) p w :=
  safe_keepsOwners (hall.mono fun _ _ => LeavesUsers.keepsOwners) h

/-! ### Login and refresh -/

section Login

variable {userId : Nat} {passwordHash : String} {β : Type} {op : Op database β} {choice : Choice}
  {answer : β}

theorem VerifiedBy.stable :
    (passwordSessions context).Stable t (VerifiedBy context t userId passwordHash) := fun h hw =>
  h.mono hw.others.trace_subset fun request => hw.others.request t request

theorem VerifiedBy.notStoring (h : VerifiedBy context t userId passwordHash w) :
    NotStoring t w := by
  obtain ⟨email, password, hreq, _⟩ := h
  exact ⟨_, hreq, id⟩

theorem VerifiedBy.exec (h : VerifiedBy context t userId passwordHash w) (hsound : w.Sound)
    (hinv : PasswordSessions context w) (hexec : op.exec t choice w = some (answer, w'))
    (hsessions : op.Within sessionTable SameOwner fun session : RefreshTokenSession =>
      session.userId = userId)
    (husers : op.Within userTable (fun _ _ => False) fun _ => False) (hkind : op.kind ≠ .commit) :
    (passwordSessions context).Keeps t w w' ∧ VerifiedBy context t userId passwordHash w' := by
  refine ⟨hinv.exec hsound hexec (hsessions.mono (fun _ _ => id) ?_)
    (husers.mono (fun _ _ => False.elim) fun _ => id) hkind, h.mono ?_ ?_⟩
  · rintro session rfl
    exact ⟨passwordHash, h⟩
  · exact Op.exec_trace_subset hsound hexec
  · exact fun request hreq => by rw [Op.exec_request hexec, hreq]

theorem PasswordSessions.safe_openSession {user : User}
    (h : VerifiedBy context t userId user.passwordHash w) (startedAt : Int) :
    (passwordSessions context).Safe t (fun _ w => NotStoring t w)
      (openSession context startedAt (userId, user)) w := by
  refine Discipline.Safe.exec VerifiedBy.stable h (fun h hsound hinv _ hexec =>
    h.exec hsound hinv hexec trivial trivial nofun) fun raw w h => ?_
  refine Discipline.Safe.exec VerifiedBy.stable h (fun h hsound hinv _ hexec =>
    h.exec hsound hinv hexec trivial trivial nofun) fun now w h => ?_
  refine Discipline.Safe.exec VerifiedBy.stable h (fun h hsound hinv _ hexec =>
    h.exec hsound hinv hexec (fun _ _ => rfl) nofun nofun) fun found w h => ?_
  cases found with
  | none => exact h.notStoring
  | some id =>
      refine safe_leavesUsers ?_ h.notStoring
      exact .perform_bind ⟨trivial, trivial⟩ fun _ => leavesUsers_of_idle (idle_authResponse _ _ _)

theorem PasswordSessions.safe_login {email password : String}
    (h : w.request t = some (.login email password)) :
    (passwordSessions context).Safe t (fun _ w => NotStoring t w) (login context email password)
      w := by
  have hstable : (passwordSessions context).Stable t fun w =>
      w.request t = some (.login email password) := fun h hw => hw.others.request t _ h
  refine Discipline.Safe.perform_bind hstable h ?_ fun startedAt w
    (h : w.request t = some (.login email password)) => ?_
  · intro w choice answer w' h hsound hinv _ hexec
    exact ⟨hinv.exec hsound hexec trivial trivial nofun, by rw [Op.exec_request hexec, h]⟩
  refine Discipline.Safe.exec hstable h ?_ fun rows w
    (h : w.request t = some (.login email password)
      ∧ ∃ clock, (⟨t, clock, .selected userTable rows⟩ : Entry database) ∈ w.trace) => ?_
  · intro w choice rows w' h hsound hinv _ hexec
    refine ⟨hinv.exec hsound hexec trivial trivial nofun, by rw [Op.exec_request hexec, h], ?_⟩
    rw [(exec_select hexec).1]
    exact ⟨w.clock, List.mem_cons_self⟩
  obtain ⟨hreq, clock, hselected⟩ := h
  change (passwordSessions context).Safe t _
    ((checkCredentials context password rows.head?).bind (openSession context startedAt)) w
  obtain ⟨error, hraise⟩ | ⟨userId, user, hfound, hcheck, hpure⟩ :=
    checkCredentials_cases context password rows.head?
  · rw [hraise]
    exact ⟨_, hreq, id⟩
  · rw [hpure]
    refine PasswordSessions.safe_openSession ⟨email, password, hreq, hcheck, clock, rows, hselected,
      user, List.mem_of_head? hfound, rfl⟩ startedAt

theorem keepsOwners_refresh (raw : String) : (refresh context raw).All KeepsOwners := by
  have hmono : ∀ {α : Type} {p : Db α}, p.All LeavesUsers → p.All KeepsOwners :=
    fun h => h.mono fun _ _ => LeavesUsers.keepsOwners
  apply (hmono (leavesUsers_getForUpdate _)).bind
  intro found
  split
  · trivial
  · refine .perform_bind ⟨trivial, trivial⟩ fun now => ?_
    split
    · trivial
    · refine (Prog.All.scalar ⟨trivial, trivial⟩).bind fun found => ?_
      split
      · trivial
      · split
        · trivial
        · refine .perform_bind ⟨trivial, trivial⟩ fun replacement => ?_
          have hrotate : ∀ sessionId p hash expiresAt, KeepsOwners _
              (.lock sessionTable sessionId p fun session =>
                some (RefreshSessions.rotate hash expiresAt now session)) := fun _ _ _ _ =>
            ⟨fun _ session => ⟨fun _ => ⟨_, rfl, rfl, id⟩, fun _ => ⟨session, rfl, rfl, id⟩⟩, nofun⟩
          apply (updateRow_all (hrotate _ _ _ _)).bind
          intro _
          exact .perform_bind ⟨trivial, trivial⟩ fun _ =>
            hmono (leavesUsers_of_idle (idle_authResponse _ _ _))

end Login

/-! ### A new password -/

/-- The transaction may store a password for this user and no other, and has revoked the sessions of
the user as far as it has locked them. -/
structure Revoking (userId : Nat) (t : Txn) (w : SessionWorld) : Prop where
  storing : Storing t w
  user : ∀ id, (w.slot userTable id).HeldBy t → id = userId
  revoked : ∀ id (session : RefreshTokenSession),
    (w.slot sessionTable id).held = some (t, some session) → session.userId = userId →
    session.Revoked

section Revoking

variable {userId : Nat} {β : Type} {op : Op database β} {choice : Choice} {answer : β}

theorem Storing.exec (h : Storing t w) (hexec : op.exec t choice w = some (answer, w')) :
    Storing t w' := by
  obtain ⟨request, hreq, hstores⟩ := h
  exact ⟨request, by rw [Op.exec_request hexec, hreq], hstores⟩

theorem Revoking.stable : (passwordSessions context).Stable t (Revoking userId t) := by
  intro w w' h hw
  constructor
  · obtain ⟨request, hreq, hstores⟩ := h.storing
    exact ⟨request, hw.others.request t request hreq, hstores⟩
  · rintro id ⟨version, hheld⟩
    exact h.user id ⟨version, hw.others.held_before hheld⟩
  · exact fun id session hheld => h.revoked id session (hw.others.held_before hheld)

theorem Revoking.idle (h : Revoking userId t w) (hidle : Idle β op) (hsound : w.Sound)
    (hinv : PasswordSessions context w) (hexec : op.exec t choice w = some (answer, w'))
    (hallowed : CommitsUndisturbed t w op.kind) :
    (passwordSessions context).Keeps t w w' ∧ Revoking userId t w' := by
  have howners : KeepsOwners β op := ⟨hidle.1.mono (fun _ _ => False.elim) fun _ => id, hidle.2⟩
  refine ⟨howners.exec hinv hsound hallowed ?_ hexec, h.storing.exec hexec, ?_, ?_⟩
  · exact fun id session hheld huser => h.revoked id session hheld (h.user _ huser)
  · rintro id ⟨version, hheld⟩
    obtain ⟨hheld, _⟩ | ⟨_, _, ⟨_, _, hfalse⟩ | ⟨_, _, _, hfalse, _⟩⟩ :=
      (Op.exec_tableStep hidle.2 hexec).held hheld
    · exact h.user id ⟨version, hheld⟩
    · exact hfalse.elim
    · exact hfalse.elim
  · intro id session hheld
    obtain ⟨hheld, _⟩ | ⟨_, _, ⟨_, _, hfalse⟩ | ⟨_, _, _, hfalse, _⟩⟩ :=
      (Op.exec_tableStep hidle.1 hexec).held hheld
    · exact h.revoked id session hheld
    · exact hfalse.elim
    · exact hfalse.elim

theorem Revoking.safe_idle {α : Type} {p : Db α} (hall : p.All Idle) (h : Revoking userId t w) :
    (passwordSessions context).Safe t (fun _ w => Revoking userId t w) p w :=
  Discipline.Safe.of_all Revoking.stable
    (fun hidle h hsound hinv hallowed hexec => h.idle hidle hsound hinv hexec hallowed) hall h

/-- The transaction has locked neither users nor sessions. -/
def Unlocked (t : Txn) (w : SessionWorld) : Prop := ∀ userId, Revoking userId t w

theorem Unlocked.stable : (passwordSessions context).Stable t (Unlocked t) :=
  fun h hw userId => Revoking.stable (h userId) hw

theorem Unlocked.idle (h : Unlocked t w) (hidle : Idle β op) (hsound : w.Sound)
    (hinv : PasswordSessions context w) (hexec : op.exec t choice w = some (answer, w'))
    (hallowed : CommitsUndisturbed t w op.kind) :
    (passwordSessions context).Keeps t w w' ∧ Unlocked t w' :=
  ⟨((h 0).idle hidle hsound hinv hexec hallowed).1, fun userId =>
    ((h userId).idle hidle hsound hinv hexec hallowed).2⟩

theorem Unlocked.safe_idle {α : Type} {p : Db α} (hall : p.All Idle) (h : Unlocked t w) :
    (passwordSessions context).Safe t (fun _ w => Unlocked t w) p w :=
  Discipline.Safe.of_all Unlocked.stable
    (fun hidle h hsound hinv hallowed hexec => h.idle hidle hsound hinv hexec hallowed) hall h

/-- The flush of the new password. -/
theorem Unlocked.lockUser {p : User → Bool} {f : User → Option User} {found : Option User}
    (h : Unlocked t w) (hsound : w.Sound) (hinv : PasswordSessions context w)
    (hexec : (Op.lock userTable userId p f).exec t choice w = some (found, w')) :
    (passwordSessions context).Keeps t w w' ∧ Revoking userId t w' := by
  have hkeeps := hinv.exec hsound hexec nofun
    (fun _ _ => ⟨fun _ => (h 0).storing, fun _ => (h 0).storing⟩) nofun
  refine ⟨hkeeps, (h 0).storing.exec hexec, ?_, ?_⟩
  · rintro id ⟨version, hheld⟩
    by_contra hid
    rw [exec_lock_slot_of_ne hexec fun hsame => hid hsame.2] at hheld
    have hother := (h (id + 1)).user id ⟨version, hheld⟩
    omega
  · intro id session hheld howner
    have hsame : w'.slot sessionTable id = w.slot sessionTable id :=
      exec_lock_slot_of_ne hexec fun heq => nomatch heq.1
    rw [hsame] at hheld
    exact (h userId).revoked id session hheld howner

theorem Revoking.lockSession {id : Nat} {now : Int} {found : Option RefreshTokenSession}
    (h : Revoking userId t w) (hsound : w.Sound) (hinv : PasswordSessions context w)
    (hexec : (Op.lock sessionTable id (fun session : RefreshTokenSession =>
      session.userId == userId && session.revokedAt.isNone) fun session =>
        some (RefreshSessions.revoke now session)).exec t choice w = some (found, w')) :
    (passwordSessions context).Keeps t w w' ∧ Revoking userId t w' := by
  have howner : (Op.lock sessionTable id (fun session : RefreshTokenSession =>
      session.userId == userId && session.revokedAt.isNone) fun session =>
        some (RefreshSessions.revoke now session)).Within sessionTable SameOwner fun _ => False :=
    fun _ session => ⟨fun _ => ⟨_, rfl, rfl, fun _ => rfl⟩,
      fun _ => ⟨session, rfl, rfl, fun hrevoked => hrevoked⟩⟩
  -- a row that does not match is another user's, or revoked already
  have hrevokes : (Op.lock sessionTable id (fun session : RefreshTokenSession =>
      session.userId == userId && session.revokedAt.isNone) fun session =>
        some (RefreshSessions.revoke now session)).Within sessionTable
          (fun _ version => ∀ session : RefreshTokenSession, version = some session →
            session.userId = userId → session.Revoked) fun _ => False := by
    refine fun _ row => ⟨fun _ session heq _ => ?_, fun hp session heq howner => ?_⟩
    · cases heq
      rfl
    · cases heq
      simp only [howner, BEq.rfl, Bool.true_and, Option.isNone_eq_false_iff] at hp
      exact hp
  have hkeeps := hinv.exec hsound hexec (howner.mono (fun _ _ hsame => hsame) fun _ => False.elim)
    nofun nofun
  refine ⟨hkeeps, h.storing.exec hexec, ?_, ?_⟩
  · rintro id' ⟨version, hheld⟩
    have hsame : w'.slot userTable id' = w.slot userTable id' :=
      exec_lock_slot_of_ne hexec fun heq => nomatch heq.1
    rw [hsame] at hheld
    exact h.user id' ⟨version, hheld⟩
  · intro id' session hheld howner
    obtain ⟨hheld, _⟩ | ⟨_, _, ⟨_, _, hrevoked⟩ | ⟨_, _, _, hfalse, _⟩⟩ :=
      (Op.exec_tableStep hrevokes hexec).held hheld
    · exact h.revoked id' session hheld howner
    · exact hrevoked session rfl howner
    · exact hfalse.elim

theorem Unlocked.safe_storePassword (h : Unlocked t w) (passwordHash : String)
    (now startedAt : Int) :
    (passwordSessions context).Safe t (fun _ _ => True)
      (storePassword userId passwordHash now startedAt) w := by
  refine Discipline.Safe.exec Unlocked.stable h (fun h hsound hinv _ hexec =>
    h.lockUser hsound hinv hexec) fun found w h => ?_
  cases found with
  | none => trivial
  | some user =>
      refine (Revoking.safe_idle (idle_deleteForUser .passwordReset userId) h).bind ?_
        fun _ _ _ => trivial
      intro _ w h
      refine Discipline.Safe.exec Revoking.stable h (fun h hsound hinv hallowed hexec =>
        h.idle (idle_select _ _) hsound hinv hexec hallowed) fun rows w h => ?_
      refine (Discipline.Safe.lockEach (J := fun _ _ => Revoking userId t)
        (fun _ _ => Revoking.stable) (fun h hsound hinv _ hexec =>
          h.lockSession hsound hinv hexec) [] h).bind ?_ fun _ _ _ => trivial
      rintro _ w ⟨_, _, h⟩
      exact Discipline.Safe.exec Revoking.stable h (fun h hsound hinv hallowed hexec =>
        h.idle idle_commit hsound hinv hexec hallowed) fun _ _ _ => trivial

theorem Unlocked.safe_step {ε α : Type} {op : Op database β} {next : β → Prog database ε α}
    {Q : Except ε α → SessionWorld → Prop} (h : Unlocked t w) (hidle : Idle β op)
    (hnext : ∀ answer w, Unlocked t w → (passwordSessions context).Safe t Q (next answer) w) :
    (passwordSessions context).Safe t Q (Prog.perform op >>= next) w :=
  Discipline.Safe.perform_bind Unlocked.stable h
    (fun h hsound hinv hallowed hexec => h.idle hidle hsound hinv hexec hallowed) hnext

theorem Unlocked.safe_bind {α γ : Type} {p : Db α} {next : α → Db γ}
    {Q : Except Exn γ → SessionWorld → Prop} (h : Unlocked t w) (hall : p.All Idle)
    (hnext : ∀ value w, Unlocked t w → (passwordSessions context).Safe t Q (next value) w)
    (herror : ∀ error w, Q (.error error) w) :
    (passwordSessions context).Safe t Q (p.bind next) w :=
  (Unlocked.safe_idle hall h).bind hnext fun error w _ => herror error w

theorem Unlocked.safe_hashAndStore (h : Unlocked t w) (newPassword : String)
    (now startedAt : Int) :
    (passwordSessions context).Safe t (fun _ _ => True)
      (do
        let salt ← Prog.draw
        let passwordHash ← Prog.ofExcept (hashPassword context.crypto newPassword salt)
        storePassword userId passwordHash now startedAt) w := by
  refine h.safe_step ⟨trivial, trivial⟩ fun salt w h => ?_
  exact h.safe_bind (Prog.All.ofExcept _) (fun _ _ h => h.safe_storePassword _ _ _)
    fun _ _ => trivial

theorem Unlocked.safe_resetPassword (h : Unlocked t w) (raw newPassword : String) :
    (passwordSessions context).Safe t (fun _ _ => True) (resetPassword context raw newPassword)
      w := by
  refine h.safe_step ⟨trivial, trivial⟩ fun startedAt w h => ?_
  refine h.safe_bind (idle_getToken .passwordReset _) (fun found w h => ?_) fun _ _ => trivial
  split
  · trivial
  · refine h.safe_step ⟨trivial, trivial⟩ fun now w h => ?_
    split
    · trivial
    · refine h.safe_bind (Prog.All.scalar (idle_select .users _)) (fun found w h => ?_)
        fun _ _ => trivial
      split
      · trivial
      · exact h.safe_hashAndStore newPassword now startedAt

theorem Unlocked.safe_changePassword (h : Unlocked t w) (credentials : Option String)
    (currentPassword newPassword : String) :
    (passwordSessions context).Safe t (fun _ _ => True)
      (changePassword context credentials currentPassword newPassword) w := by
  refine h.safe_bind (idle_getCurrentUser credentials) (fun current w h => ?_) fun _ _ => trivial
  obtain ⟨startedAt, userId, user⟩ := current
  refine h.safe_bind (Prog.All.ofExcept _) (fun fits w h => ?_) fun _ _ => trivial
  split
  · refine h.safe_bind (Prog.All.ofExcept _) (fun same w h => ?_) fun _ _ => trivial
    split
    · trivial
    · refine h.safe_step ⟨trivial, trivial⟩ fun now w h => ?_
      exact h.safe_hashAndStore newPassword now startedAt
  · trivial

end Revoking

/-! ### The service -/

theorem PasswordSessions.safe_handler {request : SessionRequest} (hfresh : Discipline.Fresh t w)
    (hreq : w.request t = some request) :
    (passwordSessions context).Safe t (fun _ _ => True)
      (SessionRequest.handler context request) w := by
  have hunlocked : request.StoresPassword → Unlocked t w := fun hstores userId =>
    { storing := ⟨request, hreq, hstores⟩
      user := fun id hheld => absurd hheld (hfresh.unlocked userTable id)
      revoked := fun id session hheld => absurd ⟨_, hheld⟩ (hfresh.unlocked sessionTable id) }
  cases request with
  | login email password =>
      exact (PasswordSessions.safe_login hreq).bind (fun _ _ _ => trivial) fun _ _ _ => trivial
  | refresh raw =>
      refine (safe_keepsOwners (keepsOwners_refresh raw) ⟨_, hreq, id⟩).bind ?_ ?_
      · exact fun _ _ _ => trivial
      · exact fun _ _ _ => trivial
  | logout raw =>
      refine (safe_leavesUsers (leavesUsers_logout raw) ⟨_, hreq, id⟩).bind ?_ ?_
      · exact fun _ _ _ => trivial
      · exact fun _ _ _ => trivial
  | changePassword credentials currentPassword newPassword =>
      exact ((hunlocked trivial).safe_changePassword _ _ _).bind (fun _ _ _ => trivial)
        fun _ _ _ => trivial
  | resetPassword raw newPassword =>
      exact ((hunlocked trivial).safe_resetPassword _ _).bind (fun _ _ _ => trivial)
        fun _ _ _ => trivial

theorem passwordSessions_verified :
    (passwordSessions context).Verified (sessionSystem context) fun _ _ _ _ => True where
  stable _ _ _ _ _ _ _ := trivial
  close _ _ _ _ _ _ _ := trivial
  lost _ _ _ _ := trivial
  handler _ _ _ _ _ hfresh hreq := PasswordSessions.safe_handler hfresh hreq

theorem passwordSessions_initial {c : Config database SessionRequest Exn Reply}
    (h : NoSessions c) : PasswordSessions context c.world := by
  constructor
  · intro id session hcommitted
    rw [h.empty id] at hcommitted
    cases hcommitted
  · intro id t session hheld
    rw [h.empty id] at hheld
    cases hheld
  · intro userId t version hheld
    rw [h.1.1.unlocked userTable userId] at hheld
    cases hheld

variable (context) in
/-- Every session that is not revoked was opened by a login that verified the stored password. -/
def SessionsUpToDate (w : SessionWorld) : Prop :=
  ∀ id (session : RefreshTokenSession),
    (w.slot sessionTable id).committed = some session → ¬ session.Revoked →
    ∃ user : User, (w.slot userTable session.userId).committed = some user
      ∧ ∃ t, OpenedBy context t id session.userId user.passwordHash w

/-- **Sessions are as good as the password.** In every run whose commits are undisturbed, every
session that is not revoked was opened by a login that verified the password now stored. -/
theorem sessions_upToDate_of_undisturbed {c : Config database SessionRequest Exn Reply}
    (h : Transition.Reachable (sessionSystem context).step NoSessions
      (fun c l => c.Meets CommitsUndisturbed l) c) : SessionsUpToDate context c.world :=
  (passwordSessions_verified.holds
    (fun _ hinit => ⟨hinit.1, passwordSessions_initial hinit⟩) h).inv.descends

/-- Ona logs in and changes her password. -/
def changedPassword : List (Label SessionRequest) :=
  [.spawn 0 (.login "ona@example.lt" "correct horse"),
    .exec 0 {}, .exec 0 { order := [0] }, .exec 0 { token := "first" }, .exec 0 {}, .exec 0 {},
    .exec 0 {}, .exec 0 {}, .exec 0 { token := "access" }, .close 0,
    .spawn 1 (.changePassword (some "access") "correct horse" "battery staple"),
    .exec 1 {}, .exec 1 {}, .exec 1 { order := [0] }, .exec 1 {}, .exec 1 { token := "salt" },
    .exec 1 {}, .exec 1 {}, .exec 1 { order := [0] }, .exec 1 {}, .exec 1 {}]

/-- Then she logs in with the new one. -/
def loggedInAgain : List (Label SessionRequest) :=
  [.spawn 2 (.login "ona@example.lt" "battery staple"),
    .exec 2 {}, .exec 2 { order := [0] }, .exec 2 { token := "second" }, .exec 2 {}, .exec 2 {},
    .exec 2 {}]

theorem sessions_upToDate_of_undisturbed_again :
    ∃ c, Transition.run (Transition.guarded (sessionSystem plainContext).step
          fun c l => c.Meets CommitsUndisturbed l) (smallService _ _ _)
        (changedPassword ++ loggedInAgain) = some c
      ∧ SessionsUpToDate plainContext c.world := by
  have hrun : (Transition.run (Transition.guarded (sessionSystem plainContext).step
      fun c l => c.Meets CommitsUndisturbed l) (smallService _ _ _)
      (changedPassword ++ loggedInAgain)).isSome := by decide
  obtain ⟨c, hc⟩ := Option.isSome_iff_exists.mp hrun
  refine ⟨c, hc, sessions_upToDate_of_undisturbed ?_⟩
  exact Transition.reachable_of_guarded_run smallService_noSessions _ hc

/-! ### A login that comes too late -/

def readsPassword (passwordHash : String) (e : Entry database) : Bool :=
  match e.event with
  | .selected .users (rows : List (Nat × User)) =>
      rows.any fun entry => entry.2.passwordHash == passwordHash
  | _ => false

theorem VerifiedBy.readsPassword {userId : Nat} {passwordHash : String}
    (h : VerifiedBy context t userId passwordHash w) :
    ∃ e ∈ w.trace, readsPassword passwordHash e = true := by
  obtain ⟨_, _, _, _, clock, rows, hselected, user, hrow, rfl⟩ := h
  exact ⟨_, hselected, List.any_eq_true.mpr ⟨_, hrow, BEq.rfl⟩⟩

/-- The session is not revoked, and nobody has read the password of its user that is now stored. -/
def Outlives (w : SessionWorld) (id : Nat) : Prop :=
  ∃ session ∈ (w.slot sessionTable id).committed, ¬ RefreshTokenSession.Revoked session
    ∧ ∃ user ∈ (w.slot userTable (RefreshTokenSession.userId session)).committed,
      ∀ e ∈ w.trace, ¬ readsPassword (User.passwordHash user) e

instance (w : SessionWorld) (id : Nat) : Decidable (Outlives w id) :=
  inferInstanceAs (Decidable (∃ session ∈ (w.slot sessionTable id).committed,
    ¬ RefreshTokenSession.Revoked session
      ∧ ∃ user ∈ (w.slot userTable (RefreshTokenSession.userId session)).committed,
        ∀ e ∈ w.trace, ¬ readsPassword (User.passwordHash user) e))

theorem Outlives.not_upToDate {id : Nat} (h : Outlives w id) : ¬ SessionsUpToDate context w := by
  obtain ⟨session, hsession, hactive, user, huser, hunread⟩ := h
  intro hupToDate
  obtain ⟨user', huser', t, hverified, _⟩ := hupToDate id session hsession hactive
  have heq := huser.symm.trans huser'
  cases heq
  obtain ⟨e, he, hreads⟩ := hverified.readsPassword
  exact hunread e he hreads

/-- A login that reads Ona's password before she changes it, and commits after that. -/
def lateLogin : List (Label SessionRequest) :=
  [.spawn 2 (.login "ona@example.lt" "correct horse"), .exec 2 {}, .exec 2 { order := [0] }]
    ++ changedPassword
    ++ [.exec 2 { token := "second" }, .exec 2 {}, .exec 2 {}, .exec 2 {}]

theorem lateLogin_outlives_password :
    ∃ c, Transition.run (sessionSystem plainContext).step (smallService _ _ _) lateLogin = some c
      ∧ Transition.Reachable (sessionSystem plainContext).step NoSessions Transition.anyStep c
      ∧ ¬ SessionsUpToDate plainContext c.world := by
  have hrun : (Transition.run (sessionSystem plainContext).step (smallService _ _ _)
      lateLogin).any fun c => decide (Outlives c.world 1) := by decide
  obtain ⟨c, hc, houtlives⟩ := (Option.any_eq_true _ _).mp hrun
  refine ⟨c, hc, ?_, (of_decide_eq_true houtlives).not_upToDate⟩
  exact Transition.reachable_of_run smallService_noSessions lateLogin
    (fun _ _ _ _ _ _ _ => trivial) hc

end EventsApi
