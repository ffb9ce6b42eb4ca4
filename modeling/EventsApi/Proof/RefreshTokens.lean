import EventsApi.Proof.SessionSteps
import EventsApi.Library.ReadCommitted.Tokens

/-!
# Refresh tokens are good for one exchange

Refreshing rewrites the token hash that the session is found by, under the row lock that found it.
So the second of two refreshes with one token waits, looks again, and finds nothing: the token is
spent from the moment its exchange commits.
-/

namespace EventsApi

open ReadCommitted

variable (context : Context)

/-- A refresh request that went through. -/
def Exchanged (t : Txn) (raw : String) (w : SessionWorld) : Prop :=
  w.request t = some (.refresh raw) ∧ w.HasCommitted t

instance (t : Txn) (raw : String) (w : SessionWorld) : Decidable (Exchanged t raw w) :=
  inferInstanceAs (Decidable (w.request t = some (.refresh raw) ∧ w.HasCommitted t))

/-- No session carries the token, and its drawer has done with it. -/
def Spent (raw : String) (w : SessionWorld) : Prop :=
  Unused sessionKey context.crypto.sha256 raw w ∧ ∃ u, (raw, u) ∈ w.drawn ∧ w.HasCommitted u

/-- The only session row the transaction ever locked. -/
def OnlyLocked (t : Txn) (id : Nat) (session : RefreshTokenSession) (w : SessionWorld) : Prop :=
  ∀ e ∈ w.trace, e.txn = t → ∀ id' session', e.event = .locked sessionTable id' session' →
    id' = id ∧ session' = session

/-- The request locked one session row, which carried the token and was neither revoked nor
expired. -/
def LockedActive (t : Txn) (raw : String) (w : SessionWorld) : Prop :=
  ∃ id session clock, (⟨t, clock, .locked sessionTable id session⟩ : Entry database) ∈ w.trace
    ∧ sessionKey session = context.crypto.sha256 raw ∧ ¬ session.Revoked
    ∧ clock < session.expiresAt ∧ OnlyLocked t id session w

/-- A version with the revocation of the old one and its token, or a new token of the transaction's
own. -/
def SessionChange (t : Txn) (w : SessionWorld) (session : RefreshTokenSession)
    (version : Option RefreshTokenSession) : Prop :=
  ∃ session' : RefreshTokenSession, version = some session'
    ∧ (session.Revoked → session'.Revoked)
    ∧ (session'.tokenHash = session.tokenHash
      ∨ NewlyKeyed sessionKey context.crypto.sha256 t w session')

structure SessionTokens (w : SessionWorld) : Prop where
  keyed : Keyed sessionKey context.crypto.sha256 w
  kept : ∀ id (session : RefreshTokenSession) t version,
    (w.slot sessionTable id).committed = some session → session.Revoked →
    (w.slot sessionTable id).held = some (t, version) →
    ∃ session' : RefreshTokenSession, version = some session' ∧ session'.Revoked
  spent : ∀ t raw, Exchanged t raw w → Spent context raw w
  once : ∀ t u raw, Exchanged t raw w → Exchanged u raw w → t = u
  active : ∀ t raw, Exchanged t raw w → LockedActive context t raw w

variable {context} {t u : Txn} {raw : String} {w w' : SessionWorld}

theorem SessionChange.rekeyed {session : RefreshTokenSession}
    {version : Option RefreshTokenSession} (h : SessionChange context t w session version) :
    Rekeyed sessionKey context.crypto.sha256 t w session version := by
  obtain ⟨session', rfl, _, hkey⟩ := h
  intro row' heq
  cases heq
  exact hkey

theorem LockedActive.mono (h : LockedActive context t raw w) (hsub : ∀ e ∈ w.trace, e ∈ w'.trace)
    (hown : ∀ e ∈ w'.trace, e.txn = t → e ∈ w.trace) : LockedActive context t raw w' := by
  obtain ⟨id, session, clock, hentry, hkey, hactive, hclock, honly⟩ := h
  exact ⟨id, session, clock, hsub _ hentry, hkey, hactive, hclock,
    fun e he htxn => honly e (hown e he htxn) htxn⟩

theorem SessionTokens.kept_step (h : SessionTokens context w) (hsound : w.Sound)
    (hstep : TableStep t sessionTable (SessionChange context t w)
      (NewlyKeyed sessionKey context.crypto.sha256 t w) w w') :
    ∀ id (session : RefreshTokenSession) u version,
    (w'.slot sessionTable id).committed = some session → session.Revoked →
    (w'.slot sessionTable id).held = some (u, version) →
    ∃ session' : RefreshTokenSession, version = some session' ∧ session'.Revoked := by
  intro id session u version hcommitted hrevoked hheld
  obtain ⟨hheld, _⟩ | ⟨rfl, hsame, ⟨seen, hview, session', rfl, hkeeps, _⟩ | ⟨_, rfl, _⟩⟩ :=
    hstep.held hheld
  · obtain hcommitted | ⟨hown, _⟩ := hstep.committed hcommitted
    · exact h.kept id session u version hcommitted hrevoked hheld
    · rw [hheld] at hown
      cases hown
      exact ⟨session, rfl, hrevoked⟩
  · rw [hsame] at hcommitted
    refine ⟨session', rfl, hkeeps ?_⟩
    by_cases hown : (w.slot sessionTable id).HeldBy u
    · obtain ⟨own, hown⟩ := hown
      rw [Slot.view_of_held hown] at hview
      obtain ⟨session'', heq, hrevoked'⟩ := h.kept id session u own hcommitted hrevoked hown
      rw [hview] at heq
      cases heq
      exact hrevoked'
    · rw [Slot.view_eq_committed hown, hcommitted] at hview
      cases hview
      exact hrevoked
  · rw [hsame, hsound.beyond sessionTable _ le_rfl] at hcommitted
    cases hcommitted

/-- A step of the transaction `t` on the sessions keeps the tokens in order, if no refresh goes
through with it, or one does whose token was still carried and no longer is. -/
theorem SessionTokens.step (h : SessionTokens context w) (hsound : w.Sound)
    (hstep : TableStep t sessionTable (SessionChange context t w)
      (NewlyKeyed sessionKey context.crypto.sha256 t w) w w')
    (hothers : ∀ u, u ≠ t → Others u w w') (hrequest : w'.request = w.request)
    (hexchange : ∀ raw, Exchanged t raw w' → Exchanged t raw w ∧ w'.trace = w.trace
      ∨ Spent context raw w' ∧ ¬ Spent context raw w ∧ LockedActive context t raw w') :
    SessionTokens context w' := by
  have hother := hothers (t + 1) (Nat.succ_ne_self t)
  have hkeyed := hstep.mono (fun _ _ hchange => SessionChange.rekeyed hchange) fun _ => id
  have hspent : ∀ raw, Spent context raw w → Spent context raw w' := by
    rintro raw ⟨hunused, u, hdrawn, hdone⟩
    refine ⟨hunused.step context.crypto.sha256_injective hkeyed fun hopen hmine => ?_, u, ?_, ?_⟩
    · exact hopen (hsound.drawer_unique hdrawn hmine ▸ hdone)
    · exact hother.drawn_subset _ hdrawn
    · exact hother.hasCommitted hdone
  have hback : ∀ u raw, u ≠ t → Exchanged u raw w' → Exchanged u raw w := by
    rintro u raw hne ⟨hreq, hdone⟩
    exact ⟨hrequest ▸ hreq, (hothers u hne).hasCommitted_self hdone⟩
  have hnew : ∀ u raw, Exchanged u raw w' → ¬ Exchanged u raw w → ¬ Spent context raw w := by
    intro u raw hu hnot
    by_cases hut : u = t
    · subst hut
      obtain ⟨hold, _⟩ | ⟨_, hfresh, _⟩ := hexchange raw hu
      · exact absurd hold hnot
      · exact hfresh
    · exact absurd (hback u raw hut hu) hnot
  constructor
  · exact h.keyed.step hkeyed hother.drawn_subset fun u => hother.hasCommitted
  · exact h.kept_step hsound hstep
  · intro u raw hu
    by_cases hut : u = t
    · subst hut
      obtain ⟨hold, _⟩ | ⟨hdone, _⟩ := hexchange raw hu
      · exact hspent raw (h.spent u raw hold)
      · exact hdone
    · exact hspent raw (h.spent u raw (hback u raw hut hu))
  · intro u v raw hu hv
    by_cases hu' : Exchanged u raw w
    · by_cases hv' : Exchanged v raw w
      · exact h.once u v raw hu' hv'
      · exact absurd (h.spent u raw hu') (hnew v raw hv hv')
    · by_cases hv' : Exchanged v raw w
      · exact absurd (h.spent v raw hv') (hnew u raw hu hu')
      · have hut : u = t := by
          by_contra hne
          exact hu' (hback u raw hne hu)
        have hvt : v = t := by
          by_contra hne
          exact hv' (hback v raw hne hv)
        rw [hut, hvt]
  · intro u raw hu
    by_cases hut : u = t
    · subst hut
      obtain ⟨hold, htrace⟩ | ⟨_, _, hactive⟩ := hexchange raw hu
      · exact (h.active u raw hold).mono (fun _ he => htrace ▸ he) fun _ he _ => htrace ▸ he
      · exact hactive
    · apply (h.active u raw (hback u raw hut hu)).mono hother.trace_subset
      intro e he htxn
      exact (hothers u hut).mem_trace_of_own he htxn

theorem SessionTokens.quiet (h : SessionTokens context w) (hquiet : Quiet w w') :
    SessionTokens context w' := by
  have hdone : ∀ u, w'.HasCommitted u → w.HasCommitted u := fun u => by
    unfold World.HasCommitted
    rw [hquiet.trace]
    exact id
  have hdone' : ∀ u, w.HasCommitted u → w'.HasCommitted u := fun u =>
    (hquiet.others u).hasCommitted
  have hback : ∀ u raw, Exchanged u raw w' → Exchanged u raw w := by
    rintro u raw ⟨hreq, hcommitted⟩
    refine ⟨?_, hdone u hcommitted⟩
    by_contra hnot
    obtain ⟨e, he, htxn, _⟩ := hdone u hcommitted
    exact hquiet.newcomer u (fun heq => hnot (heq ▸ hreq)) e he htxn
  have hslot : w'.slot sessionTable = w.slot sessionTable := by rw [hquiet.slot]
  constructor
  · exact h.keyed.step (t := 0) (.same hslot) (fun e he => hquiet.drawn ▸ he) hdone'
  · rw [hslot]
    exact h.kept
  · intro u raw hu
    obtain ⟨hunused, v, hdrawn, hcommitted⟩ := h.spent u raw (hback u raw hu)
    refine ⟨fun id row => ?_, v, hquiet.drawn ▸ hdrawn, hdone' v hcommitted⟩
    rw [hslot]
    exact hunused id row
  · exact fun u v raw hu hv => h.once u v raw (hback u raw hu) (hback v raw hv)
  · intro u raw hu
    refine (h.active u raw (hback u raw hu)).mono ?_ ?_ <;> rw [hquiet.trace]
    · exact fun _ he => he
    · exact fun _ he _ => he

theorem SessionTokens.rollback (h : SessionTokens context w) (hsound : w.Sound) (t : Txn) :
    SessionTokens context (w.finish t false) :=
  h.step hsound (t := t) tableStep_rollback (fun _ hne => others_finish hne false) rfl
    fun _ hexchanged => .inl ⟨hexchanged, rfl⟩

variable (context) in
def sessionTokens : Discipline database SessionRequest where
  inv := SessionTokens context
  rely _ _ _ := True
  allowed _ _ _ := True
  rely_refl _ _ := trivial
  rely_trans _ _ := trivial
  quiet hquiet h := ⟨h.quiet hquiet, fun _ => trivial⟩
  rollback t _ hsound h := ⟨h.rollback hsound t, fun _ _ => trivial⟩

/-! ### The requests -/

section Keeps

variable {β : Type} {op : Op database β} {choice : Choice} {answer : β}

theorem SessionTokens.keeps (h : SessionTokens context w) (hsound : w.Sound)
    (hexec : op.exec t choice w = some (answer, w'))
    (hwithin : op.Within sessionTable (SessionChange context t w)
      (NewlyKeyed sessionKey context.crypto.sha256 t w))
    (hexchange : ∀ raw, Exchanged t raw w' → Exchanged t raw w ∧ w'.trace = w.trace
      ∨ Spent context raw w' ∧ ¬ Spent context raw w ∧ LockedActive context t raw w') :
    (sessionTokens context).Keeps t w w' :=
  ⟨h.step hsound (Op.exec_tableStep hwithin hexec) (fun _ hne => Op.exec_others hsound hexec hne)
    (Op.exec_request hexec) hexchange, fun _ _ => trivial⟩

theorem OnlyRevokes.within (h : OnlyRevokes β op) :
    op.Within sessionTable (SessionChange context t w)
      (NewlyKeyed sessionKey context.crypto.sha256 t w) := by
  refine Op.Within.mono ?_ (fun _ => False.elim) h
  rintro session version (rfl | ⟨now, rfl⟩)
  · exact ⟨session, rfl, id, .inl rfl⟩
  · exact ⟨RefreshSessions.revoke now session, rfl, fun _ => rfl, .inl rfl⟩

theorem SessionTokens.keeps_open (h : SessionTokens context w) (hsound : w.Sound)
    (hexec : op.exec t choice w = some (answer, w'))
    (hwithin : op.Within sessionTable (SessionChange context t w)
      (NewlyKeyed sessionKey context.crypto.sha256 t w))
    (hkind : op.kind ≠ .commit) (hopen : ¬ w.HasCommitted t) :
    (sessionTokens context).Keeps t w w' ∧ ¬ w'.HasCommitted t := by
  have hopen' := Op.exec_uncommitted hkind hexec hopen
  exact ⟨h.keeps hsound hexec hwithin fun raw hexchanged => absurd hexchanged.2 hopen', hopen'⟩

end Keeps

/-- A request other than a refresh. -/
def NotRefresh (t : Txn) (w : SessionWorld) : Prop :=
  ∃ request, w.request t = some request ∧ ∀ raw, request ≠ .refresh raw

theorem NotRefresh.stable : (sessionTokens context).Stable t (NotRefresh t) := by
  rintro w w' ⟨request, hreq, hne⟩ hw
  exact ⟨request, hw.others.request t request hreq, hne⟩

theorem safe_of_onlyRevokes {ε α : Type} {p : Prog database ε α} (hall : p.All OnlyRevokes)
    (h : NotRefresh t w) :
    (sessionTokens context).Safe t (fun _ w => NotRefresh t w) p w := by
  refine Discipline.Safe.of_all NotRefresh.stable ?_ hall h
  intro β op w w' choice answer honly hnot hsound hinv _ hexec
  obtain ⟨request, hreq, hne⟩ := hnot
  have hreq' : w'.request t = some request := by rw [Op.exec_request hexec, hreq]
  refine ⟨hinv.keeps hsound hexec honly.within fun raw hexchanged => ?_, request, hreq', hne⟩
  obtain ⟨hrefresh, _⟩ := hexchanged
  rw [hreq'] at hrefresh
  exact absurd (Option.some.inj hrefresh) (hne raw)

/-- The transaction has not committed. -/
structure Begun (request : SessionRequest) (t : Txn) (w : SessionWorld) : Prop where
  request : w.request t = some request
  uncommitted : ¬ w.HasCommitted t

/-- The transaction has drawn a token that no session carries yet. -/
structure Drew (context : Context) (request : SessionRequest) (t : Txn) (raw : String)
    (w : SessionWorld) : Prop extends Begun request t w where
  drawn : (raw, t) ∈ w.drawn
  unused : Unused sessionKey context.crypto.sha256 raw w

section Assertions

variable {request : SessionRequest}

theorem Begun.stable : (sessionTokens context).Stable t (Begun request t) := fun h hw =>
  ⟨hw.others.request t request h.request,
    fun hdone => h.uncommitted (hw.others.hasCommitted_self hdone)⟩

theorem Drew.stable : (sessionTokens context).Stable t (Drew context request t raw) := fun h hw =>
  { Begun.stable h.toBegun hw with
    drawn := hw.others.drawn_subset _ h.drawn
    unused := hw.inv.keyed.unused_of_others context.crypto.sha256_injective hw.sound hw.others
      h.drawn h.uncommitted h.unused }

theorem Begun.notRefresh (h : Begun request t w) (hne : ∀ raw, request ≠ .refresh raw) :
    NotRefresh t w :=
  ⟨request, h.request, hne⟩

theorem Drew.newlyKeyed (h : Drew context request t raw w) {session : RefreshTokenSession}
    (hkey : session.tokenHash = hashRefreshToken context.crypto raw) :
    NewlyKeyed sessionKey context.crypto.sha256 t w session :=
  ⟨h.uncommitted, raw, h.drawn, h.unused, hkey⟩

theorem Begun.exec {β : Type} {op : Op database β} {choice : Choice} {answer : β}
    (h : Begun request t w) (hsound : w.Sound) (hinv : SessionTokens context w)
    (hexec : op.exec t choice w = some (answer, w'))
    (hwithin : op.Within sessionTable (SessionChange context t w)
      (NewlyKeyed sessionKey context.crypto.sha256 t w)) (hkind : op.kind ≠ .commit) :
    (sessionTokens context).Keeps t w w' ∧ Begun request t w' := by
  obtain ⟨hkeeps, hopen⟩ := hinv.keeps_open hsound hexec hwithin hkind h.uncommitted
  exact ⟨hkeeps, by rw [Op.exec_request hexec, h.request], hopen⟩

theorem Begun.draw {choice : Choice} (h : Begun request t w) (hsound : w.Sound)
    (hinv : SessionTokens context w) (hexec : Op.draw.exec t choice w = some (raw, w')) :
    (sessionTokens context).Keeps t w w' ∧ Drew context request t raw w' := by
  obtain ⟨hkeeps, hbegun⟩ := h.exec hsound hinv hexec trivial nofun
  obtain ⟨hundrawn, rfl⟩ := exec_draw hexec
  have hunused : Unused sessionKey context.crypto.sha256 raw w :=
    hinv.keyed.unused_of_undrawn context.crypto.sha256_injective hundrawn
  exact ⟨hkeeps, hbegun, List.mem_cons_self, hunused⟩

theorem Drew.now {choice : Choice} {answer : Int} (h : Drew context request t raw w)
    (hsound : w.Sound) (hinv : SessionTokens context w)
    (hexec : Op.now.exec t choice w = some (answer, w')) :
    (sessionTokens context).Keeps t w w' ∧ Drew context request t raw w' := by
  obtain ⟨hkeeps, _⟩ := h.toBegun.exec hsound hinv hexec trivial nofun
  obtain ⟨_, rfl⟩ := exec_now hexec
  exact ⟨hkeeps, h⟩

/-! ### Login -/

theorem safe_openSession (h : Begun request t w) (hne : ∀ raw, request ≠ .refresh raw)
    (startedAt : Int) (userId : Nat) (user : User) :
    (sessionTokens context).Safe t (fun _ w => NotRefresh t w)
      (openSession context startedAt (userId, user)) w := by
  refine Discipline.Safe.exec Begun.stable h
    (fun h hsound hinv _ hexec => h.draw hsound hinv hexec) fun raw w h => ?_
  refine Discipline.Safe.exec Drew.stable h
    (fun h hsound hinv _ hexec => h.now hsound hinv hexec) fun now w h => ?_
  refine Discipline.Safe.exec Drew.stable h
    (fun h hsound hinv _ hexec => h.toBegun.exec hsound hinv hexec
      (fun _ _ => h.newlyKeyed rfl) nofun) fun found w h => ?_
  cases found with
  | none => exact h.notRefresh hne
  | some id =>
      refine safe_of_onlyRevokes (onlyRevokes_of_leavesUsers ?_) (h.notRefresh hne)
      exact .perform_bind ⟨trivial, trivial⟩ fun _ => leavesUsers_of_idle (idle_authResponse _ _ _)

theorem safe_login (h : Begun request t w) (hne : ∀ raw, request ≠ .refresh raw)
    (email password : String) :
    (sessionTokens context).Safe t (fun _ w => NotRefresh t w)
      (login context email password) w := by
  refine Discipline.Safe.exec Begun.stable h
    (fun h hsound hinv _ hexec => h.exec hsound hinv hexec trivial nofun) fun startedAt w h => ?_
  refine Discipline.Safe.exec Begun.stable h
    (fun h hsound hinv _ hexec => h.exec hsound hinv hexec trivial nofun) fun rows w h => ?_
  change (sessionTokens context).Safe t _
    ((checkCredentials context password rows.head?).bind (openSession context startedAt)) w
  obtain ⟨error, hraise⟩ | ⟨userId, user, _, _, hpure⟩ :=
    checkCredentials_cases context password rows.head?
  · rw [hraise]
    exact h.notRefresh hne
  · rw [hpure]
    exact safe_openSession h hne startedAt userId user

end Assertions

/-! ### Refresh -/

/-- The refresh has locked no session yet. -/
structure Searching (raw : String) (t : Txn) (w : SessionWorld) : Prop
    extends Begun (.refresh raw) t w where
  unheld : ∀ id, ¬ (w.slot sessionTable id).HeldBy t
  unlocked : ∀ e ∈ w.trace, e.txn = t → ∀ id session, e.event ≠ .locked sessionTable id session

/-- The refresh holds the session that carries its token. -/
structure Locked (context : Context) (raw : String) (t : Txn) (id : Nat)
    (session : RefreshTokenSession) (clock : Int) (w : SessionWorld) : Prop
    extends Begun (.refresh raw) t w where
  committed : (w.slot sessionTable id).committed = some session
  held : (w.slot sessionTable id).held = some (t, some session)
  key : sessionKey session = context.crypto.sha256 raw
  entry : (⟨t, clock, .locked sessionTable id session⟩ : Entry database) ∈ w.trace
  past : clock ≤ w.clock
  only : OnlyLocked t id session w

/-- The refresh has given the session another token. -/
structure Rotated (context : Context) (raw : String) (t : Txn) (id : Nat)
    (session : RefreshTokenSession) (clock : Int) (w : SessionWorld) : Prop
    extends Begun (.refresh raw) t w where
  committed : (w.slot sessionTable id).committed = some session
  held : ∃ rotated, (w.slot sessionTable id).held = some (t, some rotated)
    ∧ sessionKey rotated ≠ context.crypto.sha256 raw
  key : sessionKey session = context.crypto.sha256 raw
  entry : (⟨t, clock, .locked sessionTable id session⟩ : Entry database) ∈ w.trace
  only : OnlyLocked t id session w

section Refresh

variable {id : Nat} {session : RefreshTokenSession} {clock : Int} {choice : Choice}

theorem OnlyLocked.others (h : OnlyLocked t id session w) (hw : Others t w w') :
    OnlyLocked t id session w' :=
  fun e he htxn => h e (hw.mem_trace_of_own he htxn) htxn

theorem OnlyLocked.note {event : ReadCommitted.Event database} (h : OnlyLocked t id session w)
    (hevent : ∀ id' session', event = .locked sessionTable id' session' →
      id' = id ∧ session' = session) : OnlyLocked t id session (w.note t event) := by
  intro e he htxn
  obtain rfl | he := List.mem_cons.mp he
  · exact hevent
  · exact h e he htxn

theorem Searching.stable : (sessionTokens context).Stable t (Searching raw t) := fun h hw =>
  { Begun.stable h.toBegun hw with
    unheld := fun id => hw.others.not_mine sessionTable id (h.unheld id)
    unlocked := fun e he htxn => h.unlocked e (hw.others.mem_trace_of_own he htxn) htxn }

theorem Locked.stable :
    (sessionTokens context).Stable t (Locked context raw t id session clock) := fun h hw => by
  have hslot := hw.others.mine sessionTable id _ h.held
  exact { Begun.stable h.toBegun hw with
    committed := by rw [hslot, h.committed]
    held := by rw [hslot, h.held]
    key := h.key
    entry := hw.others.trace_subset _ h.entry
    past := Int.le_trans h.past hw.others.clock_le
    only := h.only.others hw.others }

theorem Rotated.stable :
    (sessionTokens context).Stable t (Rotated context raw t id session clock) := fun h hw => by
  obtain ⟨rotated, hheld, hkey⟩ := h.held
  have hslot := hw.others.mine sessionTable id _ hheld
  exact { Begun.stable h.toBegun hw with
    committed := by rw [hslot, h.committed]
    held := ⟨rotated, by rw [hslot, hheld], hkey⟩
    key := h.key
    entry := hw.others.trace_subset _ h.entry
    only := h.only.others hw.others }

/-- A token leads to one session. -/
theorem SessionTokens.found (h : SessionTokens context w) {hash : String}
    {rows : List (Nat × RefreshTokenSession)}
    (hexec : (Op.select sessionTable fun _ (session : RefreshTokenSession) =>
      session.tokenHash == hash).exec t choice w = some (rows, w')) :
    rows = [] ∨ ∃ id session, rows = [(id, session)] := by
  have hlength := h.keyed.selects_one hexec
  cases rows with
  | nil => exact .inl rfl
  | cons found rest =>
      obtain rfl : rest = [] :=
        List.length_eq_zero_iff.mp (Nat.le_zero.mp (Nat.le_of_succ_le_succ hlength))
      exact .inr ⟨found.1, found.2, rfl⟩

theorem Searching.select {rows : List (Nat × RefreshTokenSession)}
    {p : Nat → RefreshTokenSession → Bool} (h : Searching raw t w) (hsound : w.Sound)
    (hinv : SessionTokens context w)
    (hexec : (Op.select sessionTable p).exec t choice w = some (rows, w')) :
    (sessionTokens context).Keeps t w w' ∧ Searching raw t w' := by
  obtain ⟨hkeeps, hbegun⟩ := h.toBegun.exec hsound hinv hexec trivial nofun
  obtain ⟨rfl, _⟩ := exec_select hexec
  refine ⟨hkeeps, hbegun, h.unheld, fun e he htxn id' session' => ?_⟩
  obtain rfl | he := List.mem_cons.mp he
  · exact nofun
  · exact h.unlocked e he htxn id' session'

/-- What the row lock of a refresh finds. -/
theorem Searching.lock {found : Option RefreshTokenSession} (h : Searching raw t w)
    (hsound : w.Sound) (hinv : SessionTokens context w)
    (hexec : (Op.lock sessionTable id (fun session =>
      sessionKey session == hashRefreshToken context.crypto raw) some).exec t choice w
        = some (found, w')) :
    (sessionTokens context).Keeps t w w' ∧ ∀ session, found = some session →
      ∃ clock, Locked context raw t id session clock w' := by
  obtain ⟨hkeeps, hbegun⟩ := h.toBegun.exec hsound hinv hexec
    (OnlyRevokes.within fun _ _ => ⟨fun _ => .inl rfl, fun _ => .inl rfl⟩) nofun
  refine ⟨hkeeps, ?_⟩
  rintro session rfl
  obtain ⟨_, ⟨_, hnone, _⟩ | ⟨row, hview, ⟨hp, hfound, rfl⟩ | ⟨_, hnone, _⟩⟩⟩ := exec_lock hexec
  · cases hnone
  · cases hfound
    refine ⟨w.clock, hbegun, ?_, ?_, beq_iff_eq.mp hp, List.mem_cons_self, Int.le_refl _, ?_⟩
    · rw [Slot.view_eq_committed (h.unheld id)] at hview
      change ((w.write t sessionTable id _).slot sessionTable id).committed = _
      rw [World.write_slot_self]
      exact hview
    · change ((w.write t sessionTable id _).slot sessionTable id).held = _
      rw [World.write_slot_self]
      rfl
    · intro e he htxn id' session' hevent
      obtain rfl | he := List.mem_cons.mp he
      · cases hevent
        exact ⟨rfl, rfl⟩
      · exact absurd hevent (h.unlocked e he htxn id' session')
  · cases hnone

theorem Locked.now {answer : Int} (h : Locked context raw t id session clock w) (hsound : w.Sound)
    (hinv : SessionTokens context w) (hexec : Op.now.exec t choice w = some (answer, w')) :
    (sessionTokens context).Keeps t w w'
      ∧ Locked context raw t id session clock w' ∧ clock ≤ answer := by
  obtain ⟨hkeeps, _⟩ := h.toBegun.exec hsound hinv hexec trivial nofun
  obtain ⟨rfl, rfl⟩ := exec_now hexec
  exact ⟨hkeeps, h, h.past⟩

theorem Locked.selectUser {rows : List (Nat × User)} {p : Nat → User → Bool}
    (h : Locked context raw t id session clock w) (hsound : w.Sound)
    (hinv : SessionTokens context w)
    (hexec : (Op.select userTable p).exec t choice w = some (rows, w')) :
    (sessionTokens context).Keeps t w w' ∧ Locked context raw t id session clock w' := by
  obtain ⟨hkeeps, hbegun⟩ := h.toBegun.exec hsound hinv hexec trivial nofun
  obtain ⟨rfl, _⟩ := exec_select hexec
  exact ⟨hkeeps, hbegun, h.committed, h.held, h.key, List.mem_cons_of_mem _ h.entry, h.past,
    h.only.note nofun⟩

theorem Locked.draw {replacement : String} (h : Locked context raw t id session clock w)
    (hsound : w.Sound) (hinv : SessionTokens context w)
    (hexec : Op.draw.exec t choice w = some (replacement, w')) :
    (sessionTokens context).Keeps t w w' ∧ Locked context raw t id session clock w'
      ∧ Drew context (.refresh raw) t replacement w' := by
  obtain ⟨hkeeps, hdrew⟩ := h.toBegun.draw hsound hinv hexec
  obtain ⟨_, rfl⟩ := exec_draw hexec
  exact ⟨hkeeps, ⟨hdrew.toBegun, h.committed, h.held, h.key, h.entry, h.past, h.only⟩, hdrew⟩

theorem Locked.rotate {replacement : String} {expiresAt now : Int}
    {found : Option RefreshTokenSession} (h : Locked context raw t id session clock w)
    (hdrew : Drew context (.refresh raw) t replacement w) (hsound : w.Sound)
    (hinv : SessionTokens context w)
    (hexec : (Op.lock sessionTable id (fun _ => true) fun session =>
      some (RefreshSessions.rotate (hashRefreshToken context.crypto replacement) expiresAt now
        session)).exec t choice w = some (found, w')) :
    (sessionTokens context).Keeps t w w' ∧ Rotated context raw t id session clock w' := by
  obtain ⟨hkeeps, hbegun⟩ := h.toBegun.exec hsound hinv hexec (fun _ session =>
    ⟨fun _ => ⟨_, rfl, fun hrevoked => hrevoked, .inr (hdrew.newlyKeyed rfl)⟩,
      fun _ => ⟨session, rfl, fun hrevoked => hrevoked, .inl rfl⟩⟩) nofun
  refine ⟨hkeeps, ?_⟩
  have hview : (w.slot sessionTable id).view t = some session := Slot.view_of_held h.held
  obtain ⟨_, ⟨hnone, _⟩ | ⟨row, hrow, ⟨_, _, rfl⟩ | ⟨hfalse, _⟩⟩⟩ := exec_lock hexec
  · rw [hview] at hnone
    cases hnone
  · rw [hview] at hrow
    cases hrow
    refine ⟨hbegun, ?_, ⟨RefreshSessions.rotate (hashRefreshToken context.crypto replacement)
      expiresAt now session, ?_, ?_⟩, h.key, List.mem_cons_of_mem _ h.entry, h.only.note ?_⟩
    · change ((w.write t sessionTable id _).slot sessionTable id).committed = _
      rw [World.write_slot_self]
      exact h.committed
    · change ((w.write t sessionTable id _).slot sessionTable id).held = _
      rw [World.write_slot_self]
      rfl
    · rw [← h.key]
      exact (hdrew.unused id session (.inl h.committed)).symm
    · rintro id' session' ⟨⟩
      exact ⟨rfl, rfl⟩
  · cases hfalse

theorem Exchanged.raw_eq {raw' : String} (h : Exchanged t raw' w)
    (hreq : w.request t = some (.refresh raw)) : raw = raw' := by
  have heq := hreq.symm.trans h.1
  cases heq
  rfl

/-- **The exchange.** When a refresh commits, the token it was given is spent. -/
theorem Rotated.commit {answer : Unit} (h : Rotated context raw t id session clock w)
    (hactive : ¬ session.Revoked) (hclock : clock < session.expiresAt) (hsound : w.Sound)
    (hinv : SessionTokens context w) (hexec : Op.commit.exec t choice w = some (answer, w')) :
    (sessionTokens context).Keeps t w w' ∧ Exchanged t raw w' := by
  have hreq : w'.request t = some (.refresh raw) := by rw [Op.exec_request hexec, h.request]
  have hslot : w'.slot sessionTable = fun id => (w.slot sessionTable id).release t true := by
    rw [exec_commit hexec]
    rfl
  have hdone : ∀ u, w.HasCommitted u → w'.HasCommitted u := fun u =>
    (Op.exec_others hsound hexec (Nat.succ_ne_self t)).hasCommitted
  have hunused : Unused sessionKey context.crypto.sha256 raw w' := by
    intro id' session' hversion hkey
    rw [hslot] at hversion
    have hid : id' = id := hinv.keyed.home id' id session' session
      (Slot.hasVersion_of_release hversion) (.inl h.committed) (hkey.trans h.key.symm)
    obtain ⟨rotated, hheld, hchanged⟩ := h.held
    subst hid
    dsimp only at hversion
    rw [Slot.release_of_held true hheld] at hversion
    obtain heq | ⟨_, hnone⟩ := hversion
    · cases heq
      exact hchanged hkey
    · cases hnone
  have hspent : Spent context raw w' := by
    obtain ⟨raw', u, hdrawn, hcommitted, hkey⟩ := hinv.keyed.committed id session h.committed
    obtain rfl : raw' = raw := context.crypto.sha256_injective (hkey.symm.trans h.key)
    exact ⟨hunused, u, Op.exec_drawn_subset hsound hexec _ hdrawn, hdone u hcommitted⟩
  refine ⟨hinv.keeps hsound hexec trivial fun raw' hexchanged => .inr ?_, hreq, ?_⟩
  · obtain rfl := hexchanged.raw_eq hreq
    refine ⟨hspent, fun hspent' => hspent'.1 id session (.inl h.committed) h.key, id, session,
      clock,
      Op.exec_trace_subset hsound hexec _ h.entry, h.key, hactive, hclock, ?_⟩
    rw [exec_commit hexec]
    exact h.only.note nofun
  · rw [exec_commit hexec]
    exact ⟨_, List.mem_cons_self, rfl, rfl⟩

theorem Exchanged.stable : (sessionTokens context).Stable t (Exchanged t raw) := fun h hw =>
  ⟨hw.others.request t _ h.1, hw.others.hasCommitted h.2⟩

theorem Exchanged.exec {β : Type} {op : Op database β} {answer : β} (h : Exchanged t raw w)
    (hsound : w.Sound) (hinv : SessionTokens context w)
    (hexec : op.exec t choice w = some (answer, w')) (honly : OnlyRevokes β op)
    (htrace : w'.trace = w.trace) :
    (sessionTokens context).Keeps t w w' ∧ Exchanged t raw w' := by
  have hreq : w'.request t = some (.refresh raw) := by rw [Op.exec_request hexec, h.1]
  refine ⟨hinv.keeps hsound hexec honly.within fun raw' hexchanged => .inl ?_, hreq, ?_⟩
  · obtain rfl := hexchanged.raw_eq hreq
    exact ⟨h, htrace⟩
  · exact (Op.exec_others hsound hexec (Nat.succ_ne_self t)).hasCommitted h.2

theorem safe_refreshed (h : Exchanged t raw w) (userId : Nat) (user : User) (token : String) :
    (sessionTokens context).Safe t (fun _ w => Exchanged t raw w)
      (authResponse context userId user token) w := by
  refine Discipline.Safe.exec Exchanged.stable h (fun h hsound hinv _ hexec =>
    h.exec hsound hinv hexec trivial (by rw [(exec_now hexec).2])) fun issuedAt w h => ?_
  refine Discipline.Safe.exec Exchanged.stable h (fun h hsound hinv _ hexec =>
    h.exec hsound hinv hexec trivial (by rw [(exec_draw hexec).2])) fun jti w h => ?_
  exact h

/-- The postcondition of a refresh: it answers only after its commit. -/
def Answered (t : Txn) (raw : String) {α : Type} (r : Except Exn α) (w : SessionWorld) : Prop :=
  ∀ reply, r = .ok reply → Exchanged t raw w

theorem answered_error {α : Type} {error : Exn} : Answered t raw (.error error : Except Exn α) w :=
  nofun

theorem safe_rotate (h : Locked context raw t id session clock w) (hactive : ¬ session.Revoked)
    (hclock : clock < session.expiresAt) (userId : Nat) (user : User) (expiresAt now : Int) :
    (sessionTokens context).Safe t (Answered t raw)
      (do
        let replacement ← Prog.draw
        updateRow .refreshTokenSessions id
          (RefreshSessions.rotate (hashRefreshToken context.crypto replacement) expiresAt now)
        Prog.commit
        authResponse context userId user replacement) w := by
  refine Discipline.Safe.exec Locked.stable h (fun h hsound hinv _ hexec =>
    h.draw hsound hinv hexec) fun replacement w h => ?_
  obtain ⟨hlocked, hdrew⟩ := h
  refine Discipline.Safe.exec
    (J := fun w => Locked context raw t id session clock w
      ∧ Drew context (.refresh raw) t replacement w)
    (fun h hw => ⟨Locked.stable h.1 hw, Drew.stable h.2 hw⟩) ⟨hlocked, hdrew⟩
    (fun h hsound hinv _ hexec => h.1.rotate h.2 hsound hinv hexec) fun found w h => ?_
  cases found with
  | none => exact answered_error
  | some row =>
      refine Discipline.Safe.exec Rotated.stable h (fun h hsound hinv _ hexec =>
        h.commit hactive hclock hsound hinv hexec) fun _ w h => ?_
      exact (safe_refreshed h userId user replacement).mono fun _ _ h _ _ => h

theorem safe_refresh (h : Searching raw t w) :
    (sessionTokens context).Safe t (Answered t raw) (refresh context raw) w := by
  refine Discipline.Safe.exec Searching.stable h ?_ fun rows w
    (h : Searching raw t w ∧ (rows = [] ∨ ∃ id session, rows = [(id, session)])) => ?_
  · intro w choice rows w' h hsound hinv _ hexec
    obtain ⟨hkeeps, h'⟩ := h.select hsound hinv hexec
    exact ⟨hkeeps, h', hinv.found hexec⟩
  obtain ⟨h, rfl | ⟨id, session, rfl⟩⟩ := h
  · exact answered_error
  refine Discipline.Safe.exec Searching.stable h (fun h hsound hinv _ hexec =>
    h.lock hsound hinv hexec) fun found w h => ?_
  cases found with
  | none => exact answered_error
  | some session =>
      obtain ⟨clock, h⟩ := h session rfl
      refine Discipline.Safe.perform_bind Locked.stable h (fun h hsound hinv _ hexec =>
        h.now hsound hinv hexec) fun now w h => ?_
      obtain ⟨h, hle⟩ := h
      split
      · exact answered_error
      · rename_i hactive
        obtain ⟨hactive, hfresh⟩ := not_or.mp hactive
        refine Discipline.Safe.scalar_bind Locked.stable h (fun h hsound hinv _ hexec =>
          h.selectUser hsound hinv hexec) fun rows w h => ?_
        split
        · exact answered_error
        · split
          · exact answered_error
          · exact safe_rotate h hactive (by omega) _ _ _ _

end Refresh

/-! ### The service -/

/-- The token gets a session exchanged right now. -/
def Accepts (context : Context) (w : SessionWorld) (id : Nat) (raw : String) : Prop :=
  ∃ session : RefreshTokenSession, (w.slot sessionTable id).committed = some session
    ∧ session.tokenHash = hashRefreshToken context.crypto raw ∧ ¬ session.Revoked
    ∧ w.clock < session.expiresAt

/-- A refresh answers only after its commit. -/
def AnsweredRefresh (request : SessionRequest) (t : Txn) (r : Except Exn Reply)
    (w : SessionWorld) : Prop :=
  ∀ raw, request = .refresh raw → Answered t raw r w

theorem answeredRefresh_of_ne {request : SessionRequest} {r : Except Exn Reply}
    (hne : ∀ raw, request ≠ .refresh raw) : AnsweredRefresh request t r w :=
  fun raw heq => absurd heq (hne raw)

theorem safe_revoking {request : SessionRequest} {p : Db Reply} (h : Begun request t w)
    (hne : ∀ raw, request ≠ .refresh raw) (hall : p.All OnlyRevokes) :
    (sessionTokens context).Safe t (AnsweredRefresh request t) p w :=
  (safe_of_onlyRevokes hall (h.notRefresh hne)).mono fun _ _ _ => answeredRefresh_of_ne hne

theorem safe_handler {request : SessionRequest} (hfresh : Discipline.Fresh t w)
    (hreq : w.request t = some request) :
    (sessionTokens context).Safe t (AnsweredRefresh request t)
      (SessionRequest.handler context request) w := by
  have hbegun : Begun request t w := ⟨hreq, hfresh.uncommitted⟩
  cases request with
  | login email password =>
      have hne : ∀ raw, SessionRequest.login email password ≠ .refresh raw := nofun
      apply (safe_login hbegun hne email password).bind
      · exact fun _ _ _ => answeredRefresh_of_ne hne
      · exact fun _ _ _ => answeredRefresh_of_ne hne
  | refresh raw =>
      have hsearching : Searching raw t w :=
        ⟨hbegun, hfresh.unlocked sessionTable, fun e he htxn => absurd htxn (hfresh.untraced e he)⟩
      apply (safe_refresh hsearching).bind
      · intro response w hanswered raw' heq reply _
        cases heq
        exact hanswered response rfl
      · intro error w _ raw' _
        exact answered_error
  | logout raw =>
      refine safe_revoking hbegun nofun (onlyRevokes_of_leavesUsers ?_)
      exact (leavesUsers_logout raw).bind fun _ => trivial
  | changePassword credentials currentPassword newPassword =>
      exact safe_revoking hbegun nofun ((onlyRevokes_changePassword _ _ _).bind fun _ => trivial)
  | resetPassword raw newPassword =>
      exact safe_revoking hbegun nofun ((onlyRevokes_resetPassword _ _).bind fun _ => trivial)

theorem sessionTokens_verified :
    (sessionTokens context).Verified (sessionSystem context) AnsweredRefresh where
  stable _ _ _ _ _ h hw raw heq reply hreply := Exchanged.stable (h raw heq reply hreply) hw
  close _ _ _ _ _ _ h := h
  lost _ _ _ _ _ _ := answered_error
  handler _ _ _ _ _ hfresh hreq := safe_handler hfresh hreq

theorem sessionTokens_initial {c : Config database SessionRequest Exn Reply}
    (hnone : NoSessions c) : SessionTokens context c.world := by
  have hversion : ∀ id row, ¬ (c.world.slot sessionTable id).HasVersion row := by
    intro id row h
    rw [hnone.empty id] at h
    rcases h with h | ⟨_, h⟩ <;> cases h
  have hnever : ∀ t raw, ¬ Exchanged t raw c.world := by
    rintro t raw ⟨_, e, he, _⟩
    rw [hnone.1.1.untraced] at he
    cases he
  constructor
  · constructor
    · exact fun id row h => absurd (.inl h) (hversion id row)
    · exact fun id t row h => absurd (.inr ⟨t, h⟩) (hversion id row)
    · exact fun id _ row _ h => absurd h (hversion id row)
  · exact fun id session _ _ h => absurd (.inl h) (hversion id session)
  · exact fun t raw h => absurd h (hnever t raw)
  · exact fun t _ raw h => absurd h (hnever t raw)
  · exact fun t raw h => absurd h (hnever t raw)

theorem sessionTokens_holds {c : Config database SessionRequest Exn Reply}
    (h : Transition.Reachable (sessionSystem context).step NoSessions Transition.anyStep c) :
    Discipline.Holds (sessionTokens context) AnsweredRefresh c :=
  sessionTokens_verified.holds (fun _ hinit => ⟨hinit.1, sessionTokens_initial hinit⟩)
    (h.mono fun _ _ _ => Config.meets_of_forall fun _ _ _ => trivial)

theorem revoked_step {c c' : Config database SessionRequest Exn Reply} {l : Label SessionRequest}
    (h : SessionTokens context c.world) (hs : (sessionSystem context).step c l = some c') {id : Nat}
    (hrevoked : ∃ session : RefreshTokenSession,
      (c.world.slot sessionTable id).committed = some session ∧ session.Revoked) :
    ∃ session : RefreshTokenSession,
      (c'.world.slot sessionTable id).committed = some session ∧ session.Revoked := by
  obtain ⟨session, hcommitted, hrevoked⟩ := hrevoked
  obtain hsame | ⟨t, hheld⟩ := System.step_committed hs sessionTable id
  · exact ⟨session, hsame.trans hcommitted, hrevoked⟩
  · exact h.kept id session t _ hcommitted hrevoked hheld

/-- **Refresh tokens are good for one exchange.** In every run of the service: no two requests
exchange one token, and a refresh that is answered was committed; a session accepts one token; a
session once revoked stays revoked for the rest of the run; and a refresh that goes through locked
one session, which was neither revoked nor expired at that moment. -/
theorem refreshTokens_exchanged_once {c : Config database SessionRequest Exn Reply}
    (h : Transition.Reachable (sessionSystem context).step NoSessions Transition.anyStep c) :
    (∀ t u raw, Exchanged t raw c.world → Exchanged u raw c.world → t = u)
    ∧ (∀ t raw reply, c.world.request t = some (.refresh raw) →
        c.client t = some (.pure reply) → Exchanged t raw c.world)
    ∧ (∀ id raw raw', Accepts context c.world id raw → Accepts context c.world id raw' →
        raw = raw')
    ∧ (∀ id (session : RefreshTokenSession) labels c',
        (c.world.slot sessionTable id).committed = some session → session.Revoked →
        Transition.run (sessionSystem context).step c labels = some c' →
        ∃ session' : RefreshTokenSession,
          (c'.world.slot sessionTable id).committed = some session' ∧ session'.Revoked)
    ∧ (∀ t raw, Exchanged t raw c.world → LockedActive context t raw c.world) := by
  have hholds := sessionTokens_holds h
  refine ⟨hholds.inv.once, ?_, ?_, ?_, hholds.inv.active⟩
  · intro t raw reply hreq hclient
    obtain ⟨request, hreq', hanswered⟩ := hholds.outcome (r := .ok reply) hclient
    have heq := hreq'.symm.trans hreq
    cases heq
    exact hanswered raw rfl reply rfl
  · rintro id raw raw' ⟨session, hrow, hhash, _⟩ ⟨session', hrow', hhash', _⟩
    have heq := hrow.symm.trans hrow'
    cases heq
    exact context.crypto.sha256_injective (hhash.symm.trans hhash')
  · intro id session labels c' hcommitted hrevoked hrun
    have hstep : ∀ c l c', Transition.Reachable (sessionSystem context).step NoSessions
        Transition.anyStep c → (∃ session : RefreshTokenSession,
          (c.world.slot sessionTable id).committed = some session ∧ session.Revoked) →
        (sessionSystem context).step c l = some c' → ∃ session : RefreshTokenSession,
          (c'.world.slot sessionTable id).committed = some session ∧ session.Revoked :=
      fun _ _ _ hc hrevoked hs => revoked_step (sessionTokens_holds hc).inv hs hrevoked
    exact h.lasts hstep ⟨session, hcommitted, hrevoked⟩ labels hrun

/-- Ona logs in, and two clients refresh with her token at once. -/
def replayedToken : List (Label SessionRequest) :=
  [.spawn 0 (.login "ona@example.lt" "correct horse"),
    .exec 0 {}, .exec 0 { order := [0] }, .exec 0 { token := "first" }, .exec 0 {}, .exec 0 {},
    .exec 0 {},
    .spawn 1 (.refresh "first"), .spawn 2 (.refresh "first"),
    .exec 1 { order := [0] }, .exec 2 { order := [0] },
    .exec 1 {}, .exec 1 {}, .exec 1 { order := [0] }, .exec 1 { token := "second" }, .exec 1 {},
    .exec 1 {},
    .exec 2 {}, .close 2]

theorem refreshTokens_exchanged_once_replayed :
    ∃ c, Transition.run (sessionSystem plainContext).step (smallService _ _ _) replayedToken
        = some c
      ∧ Exchanged 1 "first" c.world ∧ ∀ u, Exchanged u "first" c.world → u = 1 := by
  have hrun : (Transition.run (sessionSystem plainContext).step (smallService _ _ _)
      replayedToken).any fun c => decide (Exchanged 1 "first" c.world) := by decide
  obtain ⟨c, hc, hexchanged⟩ := (Option.any_eq_true _ _).mp hrun
  have hreach : Transition.Reachable (sessionSystem plainContext).step NoSessions
      Transition.anyStep c :=
    Transition.reachable_of_run smallService_noSessions replayedToken
      (fun _ _ _ _ _ _ _ => trivial) hc
  have hone := of_decide_eq_true hexchanged
  exact ⟨c, hc, hone, fun u hu => (refreshTokens_exchanged_once hreach).1 u 1 _ hu hone⟩

end EventsApi
