import EventsApi.Library.ReadCommitted.Trace
import EventsApi.Proof.AccountShape

/-!
# What a token is accepted for

A token is shown once for an effect. Whoever shows it locks its row, reads the clock and deletes the
tokens of the user, so nobody else finds the row again. Resets and replacements delete the tokens
that they make worthless, and lock them before they commit. A change of password deletes those that
it finds, and a token that is committed after its search outlives it.
-/

namespace EventsApi

open ReadCommitted

abbrev AccountWorld := World database AccountRequest

abbrev AccountConfig := Config database AccountRequest Exn (Option String)

/-- The request shows the token. -/
def AccountRequest.accepts (kind : TokenKind) (raw : String) : AccountRequest → Bool
  | .confirmEmail token => decide (kind = .confirmation ∧ token = raw)
  | .resetPassword token _ => decide (kind = .passwordReset ∧ token = raw)
  | _ => false

/-- The request ends the life of the tokens that its user has. -/
def AccountRequest.retires (kind : TokenKind) : AccountRequest → Bool
  | .confirmEmail _ => decide (kind = .confirmation)
  | .resetPassword _ _ | .changePassword _ _ _ => decide (kind = .passwordReset)
  | _ => false

def AccountRequest.changesPassword : AccountRequest → Bool
  | .changePassword _ _ _ => true
  | _ => false

/-- The event is the insertion of a token of the kind. -/
def makesToken (kind : TokenKind) : ReadCommitted.Event database → Bool
  | .inserted T _ => decide (T = tokenTable kind)
  | _ => false

def makesTokenAt (kind : TokenKind) (id : Nat) : ReadCommitted.Event database → Bool
  | .inserted T id' => decide (T = tokenTable kind ∧ id' = id)
  | _ => false

/-- The event is a statement that gives the user, or the insertion of the user. -/
def findsUser (userId : Nat) : ReadCommitted.Event database → Bool
  | .selected T rows => decide (T = userTable ∧ (rows.map (·.1)).head? = some userId)
  | .inserted T id => decide (T = userTable ∧ id = userId)
  | _ => false

/-- The transaction is about the user, and replaces tokens or ends their life. -/
def Supersedes (kind : TokenKind) (userId : Nat) (request : Txn → Option AccountRequest) (t : Txn)
    (trace : List (Entry database)) : Prop :=
  Did (findsUser userId) t trace
    ∧ (Did (makesToken kind) t trace ∨ (request t).any (·.retires kind) = true)

instance (kind : TokenKind) (userId : Nat) (request : Txn → Option AccountRequest) (t : Txn)
    (trace : List (Entry database)) : Decidable (Supersedes kind userId request t trace) :=
  inferInstanceAs (Decidable (_ ∧ _))

/-- The token was made by a transaction that has committed, and no transaction has committed since
that replaced it or ended its life. The trace is the newest entry first. -/
def Current (kind : TokenKind) (id userId : Nat) (request : Txn → Option AccountRequest) :
    List (Entry database) → Prop
  | [] => False
  | e :: earlier =>
      e.event = .committed ∧ Did (makesTokenAt kind id) e.txn earlier
        ∨ ¬ (e.event = .committed ∧ Supersedes kind userId request e.txn earlier)
          ∧ Current kind id userId request earlier

instance decidableCurrent (kind : TokenKind) (id userId : Nat)
    (request : Txn → Option AccountRequest) :
    (trace : List (Entry database)) → Decidable (Current kind id userId request trace)
  | [] => .isFalse not_false
  | _ :: earlier =>
      have := decidableCurrent kind id userId request earlier
      inferInstanceAs (Decidable (_ ∨ _))

variable (context : Context)

/-- The event is the locking of the token's row, while the token is current and has not expired. -/
def LocksCurrent (kind : TokenKind) (raw : String) (request : Txn → Option AccountRequest)
    (earlier : List (Entry database)) (clock : Int) : ReadCommitted.Event database → Prop
  | .locked (.tokens kind') id (token : UserToken) =>
      kind' = kind ∧ token.tokenHash = context.crypto.sha256 raw ∧ clock < token.expiresAt
        ∧ Current kind id token.userId request earlier
  | _ => False

instance (kind : TokenKind) (raw : String) (request : Txn → Option AccountRequest)
    (earlier : List (Entry database)) (clock : Int) : (event : ReadCommitted.Event database) →
    Decidable (LocksCurrent context kind raw request earlier clock event)
  | .locked (.tokens kind') id (token : UserToken) =>
      inferInstanceAs (Decidable (kind' = kind ∧ token.tokenHash = context.crypto.sha256 raw
        ∧ clock < token.expiresAt ∧ Current kind id token.userId request earlier))
  | .locked .users _ _ => .isFalse id
  | .locked .refreshTokenSessions _ _ => .isFalse id
  | .locked .emailOutboxJobs _ _ => .isFalse id
  | .selected _ _ => .isFalse id
  | .inserted _ _ => .isFalse id
  | .committed => .isFalse id

/-- The transaction locked the token's row while the token was current and had not expired. -/
def LockedCurrent (kind : TokenKind) (raw : String) (t : Txn)
    (request : Txn → Option AccountRequest) : List (Entry database) → Prop
  | [] => False
  | e :: earlier =>
      e.txn = t ∧ LocksCurrent context kind raw request earlier e.clock e.event
        ∨ LockedCurrent kind raw t request earlier

instance decidableLockedCurrent (kind : TokenKind) (raw : String) (t : Txn)
    (request : Txn → Option AccountRequest) :
    (trace : List (Entry database)) → Decidable (LockedCurrent context kind raw t request trace)
  | [] => .isFalse id
  | _ :: earlier =>
      have := decidableLockedCurrent kind raw t request earlier
      inferInstanceAs (Decidable (_ ∨ _))

/-- A change of password commits only when each reset token of its user that others see is one that
it has deleted. -/
def DeletesResetTokens (t : Txn) (w : AccountWorld) : Kind database → Prop
  | .commit => (w.request t).any (·.changesPassword) = true →
      ∀ id < w.next (tokenTable .passwordReset),
        ∀ token ∈ ((w.slot (tokenTable .passwordReset) id).committed : Option UserToken),
          Did (findsUser token.userId) t w.trace →
            (w.slot (tokenTable .passwordReset) id).held = some (t, none)
  | _ => True

instance (t : Txn) (w : AccountWorld) : (operation : Kind database) →
    Decidable (DeletesResetTokens t w operation)
  | .commit => inferInstanceAs (Decidable ((w.request t).any (·.changesPassword) = true →
      ∀ id < w.next (tokenTable .passwordReset),
        ∀ token ∈ ((w.slot (tokenTable .passwordReset) id).committed : Option UserToken),
          Did (findsUser token.userId) t w.trace →
            (w.slot (tokenTable .passwordReset) id).held = some (t, none)))
  | .select _ => .isTrue trivial
  | .lock _ => .isTrue trivial
  | .insert _ => .isTrue trivial
  | .now => .isTrue trivial
  | .draw => .isTrue trivial

/-- The transaction showed the token and committed. -/
def Accepted (kind : TokenKind) (raw : String) (t : Txn) (w : AccountWorld) : Prop :=
  (w.request t).any (·.accepts kind raw) = true ∧ w.HasCommitted t

/-- Tokens that others see are current. Those that were accepted were current, were accepted once and
are gone for good. -/
structure AcceptsOnce (kind : TokenKind) (w : AccountWorld) : Prop where
  unique : Unique (tokenTable kind) w
  keyed : Keyed (tokenKey kind) context.crypto.sha256 w
  current : ∀ id (token : UserToken), (w.slot (tokenTable kind) id).committed = some token →
    Current kind id token.userId w.request w.trace
  accepted : ∀ t raw, Accepted kind raw t w →
    LockedCurrent context kind raw t w.request w.trace
      ∧ Unused (tokenKey kind) context.crypto.sha256 raw w
      ∧ ∃ u, (raw, u) ∈ w.drawn ∧ w.HasCommitted u
  once : ∀ t u raw, Accepted kind raw t w → Accepted kind raw u w → t = u

/-- The trace grows, and the requests of those who have left something there stay. -/
structure Extends (w w' : AccountWorld) : Prop where
  trace : w.trace <:+ w'.trace
  request : ∀ e ∈ w.trace, w'.request e.txn = w.request e.txn

variable {context} {kind : TokenKind} {t u : Txn} {w w' w'' : AccountWorld} {raw : String}
  {request request' : Txn → Option AccountRequest} {trace trace' : List (Entry database)}

theorem Extends.refl (w : AccountWorld) : Extends w w := ⟨List.suffix_rfl, fun _ _ => rfl⟩

theorem Extends.trans (h : Extends w w') (h' : Extends w' w'') : Extends w w'' where
  trace := h.trace.trans h'.trace
  request e he := (h'.request e (h.trace.subset he)).trans (h.request e he)

theorem Extends.quiet (h : Quiet w w') : Extends w w' where
  trace := h.trace ▸ List.suffix_rfl
  request e he := by
    by_contra hne
    exact h.newcomer e.txn hne e he rfl

theorem Op.exec_extends {β : Type} {op : Op database β} {choice : Choice} {answer : β}
    (h : op.exec t choice w = some (answer, w')) : Extends w w' where
  trace := by
    obtain htrace | ⟨_, _, htrace⟩ := Op.exec_trace h
    · exact htrace ▸ List.suffix_rfl
    · exact htrace ▸ List.suffix_cons _ _
  request _ _ := by rw [Op.exec_request h]

theorem supersedes_congr {userId : Nat} (hrequest : request' t = request t) :
    Supersedes kind userId request' t trace ↔ Supersedes kind userId request t trace := by
  unfold Supersedes
  rw [hrequest]

theorem Current.congr {id userId : Nat} (h : Current kind id userId request trace)
    (hrequest : ∀ e ∈ trace, request' e.txn = request e.txn) :
    Current kind id userId request' trace := by
  induction trace with
  | nil => exact h
  | cons e earlier ih =>
      obtain hmade | ⟨hnone, hcurrent⟩ := h
      · exact .inl hmade
      · refine .inr ⟨?_, ih hcurrent fun e he => hrequest e (List.mem_cons_of_mem _ he)⟩
        rwa [supersedes_congr (hrequest e List.mem_cons_self)]

theorem LocksCurrent.congr {clock : Int} {event : ReadCommitted.Event database}
    (h : LocksCurrent context kind raw request trace clock event)
    (hrequest : ∀ e ∈ trace, request' e.txn = request e.txn) :
    LocksCurrent context kind raw request' trace clock event := by
  unfold LocksCurrent at h ⊢
  split at h
  · exact ⟨h.1, h.2.1, h.2.2.1, h.2.2.2.congr hrequest⟩
  · exact h

theorem LockedCurrent.congr (h : LockedCurrent context kind raw t request trace)
    (hrequest : ∀ e ∈ trace, request' e.txn = request e.txn) :
    LockedCurrent context kind raw t request' trace := by
  induction trace with
  | nil => exact h
  | cons e earlier ih =>
      have hearlier : ∀ e ∈ earlier, request' e.txn = request e.txn := fun e he =>
        hrequest e (List.mem_cons_of_mem _ he)
      exact h.imp (fun hlocks => ⟨hlocks.1, hlocks.2.congr hearlier⟩) fun hrest =>
        ih hrest hearlier

theorem LockedCurrent.of_suffix (h : LockedCurrent context kind raw t request trace)
    (hsuffix : trace <:+ trace') : LockedCurrent context kind raw t request trace' := by
  obtain ⟨new, rfl⟩ := hsuffix
  induction new with
  | nil => exact h
  | cons e new ih => exact .inr ih

theorem LockedCurrent.extends (h : LockedCurrent context kind raw t w.request w.trace)
    (hw : Extends w w') : LockedCurrent context kind raw t w'.request w'.trace :=
  (h.congr hw.request).of_suffix hw.trace

theorem KeptOrDeleted.rekeyed {token : UserToken} {version : Option UserToken}
    (h : KeptOrDeleted token version) :
    Rekeyed (tokenKey kind) context.crypto.sha256 t w token version := by
  intro token' heq
  obtain hsame | hnone := h
  · cases hsame.symm.trans heq
    exact .inl rfl
  · cases hnone.symm.trans heq

/-! ### One step -/

/-- Nobody comes to carry a token that was accepted: its drawer has committed. -/
theorem AcceptsOnce.unused_step (h : AcceptsOnce context kind w) (hsound : w.Sound)
    (haccepted : Accepted kind raw u w)
    (hstep : TableStep t (tokenTable kind) KeptOrDeleted
      (NewlyKeyed (tokenKey kind) context.crypto.sha256 t w) w w') :
    Unused (tokenKey kind) context.crypto.sha256 raw w' := by
  obtain ⟨_, hunused, v, hdrawn, hdone⟩ := h.accepted u raw haccepted
  apply hunused.step context.crypto.sha256_injective
    (hstep.mono (fun _ _ => KeptOrDeleted.rekeyed) fun _ => id)
  intro hopen hmine
  exact hopen (hsound.drawer_unique hmine hdrawn ▸ hdone)

/-- **One step.** Every operation but a commit keeps the invariant. -/
theorem AcceptsOnce.exec {β : Type} {op : Op database β} {choice : Choice} {answer : β}
    (h : AcceptsOnce context kind w) (hsound : w.Sound)
    (hwithin : op.Within (tokenTable kind) KeptOrDeleted
      (NewlyKeyed (tokenKey kind) context.crypto.sha256 t w)) (hkind : op.kind ≠ .commit)
    (hexec : op.exec t choice w = some (answer, w')) : AcceptsOnce context kind w' := by
  have hother := Op.exec_others hsound hexec (Nat.succ_ne_self t)
  have hstep := Op.exec_tableStep hwithin hexec
  have hextends := Op.exec_extends hexec
  have hbefore : ∀ {v raw}, Accepted kind raw v w' → Accepted kind raw v w := by
    rintro v raw ⟨hshown, hdone⟩
    rw [Op.exec_request hexec] at hshown
    exact ⟨hshown, not_imp_not.mp (Op.exec_uncommitted hkind hexec) hdone⟩
  constructor
  · exact h.unique.step tokens_clash_symm hsound
      (hstep.mono (fun _ _ => KeptOrDeleted.keepsClashes) fun _ => id)
  · exact h.keyed.step (hstep.mono (fun _ _ => KeptOrDeleted.rekeyed) fun _ => id)
      hother.drawn_subset fun v => hother.hasCommitted
  · intro id token htoken
    rw [Op.exec_committed hkind hexec] at htoken
    have hcurrent := (h.current id token htoken).congr hextends.request
    obtain htrace | ⟨event, hevent, htrace⟩ := Op.exec_trace hexec
    · rw [htrace]
      exact hcurrent
    · rw [htrace]
      refine .inr ⟨fun hcommit => hkind ?_, hcurrent⟩
      exact hevent.symm.trans (congrArg Event.kind hcommit.1)
  · intro v raw haccepted
    obtain ⟨hlocked, _, drawer, hdrawn, hdone⟩ := h.accepted v raw (hbefore haccepted)
    exact ⟨hlocked.extends hextends, h.unused_step hsound (hbefore haccepted) hstep,
      drawer, hother.drawn_subset _ hdrawn, hother.hasCommitted hdone⟩
  · exact fun v v' raw haccepted haccepted' =>
      h.once v v' raw (hbefore haccepted) (hbefore haccepted')

theorem AcceptsOnce.rollback (h : AcceptsOnce context kind w) (hsound : w.Sound) :
    AcceptsOnce context kind (w.finish t false) where
  unique := h.unique.release tokens_clash_symm fun _ => rfl
  keyed := h.keyed.step (t := t) tableStep_rollback (fun _ => id) fun _ => id
  current id token htoken := h.current id token (Slot.release_false_committed.symm.trans htoken)
  accepted v raw haccepted := by
    obtain ⟨hlocked, _, hdrawer⟩ := h.accepted v raw haccepted
    exact ⟨hlocked, h.unused_step hsound haccepted tableStep_rollback, hdrawer⟩
  once := h.once

theorem AcceptsOnce.quiet (h : AcceptsOnce context kind w) (hquiet : Quiet w w') :
    AcceptsOnce context kind w' := by
  have hextends := Extends.quiet hquiet
  have hslot : ∀ T, w'.slot T = w.slot T := fun T => by rw [hquiet.slot]
  have hbefore : ∀ {v raw}, Accepted kind raw v w' → Accepted kind raw v w := by
    rintro v raw ⟨hshown, e, he, rfl, hcommit⟩
    rw [hquiet.trace] at he
    rw [hextends.request e he] at hshown
    exact ⟨hshown, e, he, rfl, hcommit⟩
  constructor
  · exact ⟨by rw [hslot]; exact h.unique.seen, by rw [hslot]; exact h.unique.pending⟩
  · exact h.keyed.step (t := 0) (.same (hslot _)) (fun e he => hquiet.drawn ▸ he)
      fun v => (hquiet.others v).hasCommitted
  · intro id token htoken
    rw [hslot] at htoken
    rw [hquiet.trace]
    exact (h.current id token htoken).congr hextends.request
  · intro v raw haccepted
    obtain ⟨hlocked, hunused, drawer, hdrawn, hdone⟩ := h.accepted v raw (hbefore haccepted)
    refine ⟨hlocked.extends hextends, ?_, drawer, hquiet.drawn ▸ hdrawn,
      (hquiet.others drawer).hasCommitted hdone⟩
    unfold Unused
    rw [hslot]
    exact hunused
  · exact fun v v' raw haccepted haccepted' =>
      h.once v v' raw (hbefore haccepted) (hbefore haccepted')

variable (context) in
/-- What a transaction must have done when it commits: each version that it leaves is an old one or a
token that it made, each token that it supersedes is deleted, and so is the one that it accepts. -/
structure Closing (kind : TokenKind) (t : Txn) (w : AccountWorld) : Prop where
  lent : ∀ id version, (w.slot (tokenTable kind) id).held = some (t, version) →
    version = none ∨ version = (w.slot (tokenTable kind) id).committed
      ∨ Did (makesTokenAt kind id) t w.trace
  superseded : ∀ id (token : UserToken), (w.slot (tokenTable kind) id).committed = some token →
    Supersedes kind token.userId w.request t w.trace →
    (w.slot (tokenTable kind) id).held = some (t, none)
  accepted : ∀ raw, (w.request t).any (·.accepts kind raw) = true →
    LockedCurrent context kind raw t w.request w.trace
      ∧ ∃ id, ∃ token : UserToken, (w.slot (tokenTable kind) id).committed = some token
        ∧ (w.slot (tokenTable kind) id).held = some (t, none)
        ∧ token.tokenHash = context.crypto.sha256 raw

theorem Closing.current (h : Closing context kind t w) (hinv : AcceptsOnce context kind w) {id : Nat}
    {token : UserToken} (htoken : (w.slot (tokenTable kind) id).view t = some token) :
    Current kind id token.userId w.request (⟨t, w.clock, .committed⟩ :: w.trace) := by
  have hkept : (w.slot (tokenTable kind) id).committed = some token →
      (w.slot (tokenTable kind) id).held ≠ some (t, none) →
      Current kind id token.userId w.request (⟨t, w.clock, .committed⟩ :: w.trace) := by
    intro hstored hheld
    refine .inr ⟨fun hsupersedes => hheld ?_, hinv.current id token hstored⟩
    exact h.superseded id token hstored hsupersedes.2
  by_cases hown : (w.slot (tokenTable kind) id).HeldBy t
  · obtain ⟨version, hown⟩ := hown
    obtain rfl := (Slot.view_of_held hown).symm.trans htoken
    obtain hnone | hsame | hmade := h.lent id _ hown
    · cases hnone
    · apply hkept hsame.symm
      rw [hown]
      rintro ⟨⟩
    · exact .inl ⟨rfl, hmade⟩
  · rw [Slot.view_eq_committed hown] at htoken
    exact hkept htoken fun hheld => hown ⟨none, hheld⟩

/-- The hash of a token that is accepted is deleted with its row. -/
theorem Closing.unused (h : Closing context kind t w) (hinv : AcceptsOnce context kind w)
    (hshown : (w.request t).any (·.accepts kind raw) = true) :
    Unused (tokenKey kind) context.crypto.sha256 raw (w.finish t true) := by
  obtain ⟨_, id, token, hstored, hdeleted, hhash⟩ := h.accepted raw hshown
  intro id' token' hversion hkey
  obtain rfl : id' = id := hinv.keyed.home id' id token' token (Slot.hasVersion_of_release hversion)
    (.inl hstored) (hkey.trans hhash.symm)
  change ((w.slot (tokenTable kind) id').release t true).HasVersion token' at hversion
  rw [Slot.release_of_held true hdeleted] at hversion
  obtain hversion | ⟨_, hversion⟩ := hversion
  · cases hversion
  · cases hversion

/-- **The commit.** -/
theorem AcceptsOnce.commit (h : AcceptsOnce context kind w) (hclosing : Closing context kind t w) :
    AcceptsOnce context kind ((w.finish t true).note t .committed) := by
  have hextends : Extends w ((w.finish t true).note t .committed) :=
    ⟨List.suffix_cons _ _, fun _ _ => rfl⟩
  have hbefore : ∀ {v raw}, Accepted kind raw v ((w.finish t true).note t .committed) →
      v ≠ t → Accepted kind raw v w := by
    rintro v raw ⟨hshown, e, he, rfl, hcommit⟩ hne
    obtain rfl | he := List.mem_cons.mp he
    · exact absurd rfl hne
    · exact ⟨hshown, e, he, rfl, hcommit⟩
  -- nobody has accepted before what the transaction accepts now
  have hfirst : ∀ {v raw}, (w.request t).any (·.accepts kind raw) = true →
      Accepted kind raw v ((w.finish t true).note t .committed) → v = t := by
    intro v raw hshown haccepted
    by_contra hne
    obtain ⟨_, hunused, _⟩ := h.accepted v raw (hbefore haccepted hne)
    obtain ⟨_, id, token, hstored, _, hhash⟩ := hclosing.accepted raw hshown
    exact hunused id token (.inl hstored) hhash
  constructor
  · exact h.unique.release tokens_clash_symm fun _ => rfl
  · exact h.keyed.step (t := t) (.release true (fun _ => ⟨_, List.mem_cons_self, rfl, rfl⟩)
      fun _ => rfl) (fun _ => id) fun v hdone => hdone.note t _
  · intro id token htoken
    exact hclosing.current h (Slot.release_true_committed.symm.trans htoken)
  · intro v raw haccepted
    by_cases hv : v = t
    · subst hv
      obtain ⟨hlocked, id, token, hstored, _, hhash⟩ := hclosing.accepted raw haccepted.1
      obtain ⟨raw', drawer, hdrawn, hdone, hhash'⟩ := h.keyed.committed id token hstored
      obtain rfl : raw' = raw := context.crypto.sha256_injective (hhash'.symm.trans hhash)
      exact ⟨hlocked.extends hextends, hclosing.unused h haccepted.1, drawer, hdrawn,
        hdone.note v _⟩
    · obtain ⟨hlocked, hunused, drawer, hdrawn, hdone⟩ := h.accepted v raw (hbefore haccepted hv)
      refine ⟨hlocked.extends hextends, fun id token hversion => ?_, drawer, hdrawn, hdone.note t _⟩
      exact hunused id token (Slot.hasVersion_of_release hversion)
  · intro v v' raw haccepted haccepted'
    by_cases hv : v = t
    · subst hv
      exact (hfirst haccepted.1 haccepted').symm
    · by_cases hv' : v' = t
      · subst hv'
        exact hfirst haccepted'.1 haccepted
      · exact h.once v v' raw (hbefore haccepted hv) (hbefore haccepted' hv')

/-- The discipline of the requests, as far as one kind of token goes. -/
def acceptances (context : Context) (kind : TokenKind) :
    Discipline database AccountRequest where
  inv := AcceptsOnce context kind
  rely _ := Extends
  allowed := DeletesResetTokens
  rely_refl _ := Extends.refl
  rely_trans := Extends.trans
  quiet hquiet h := ⟨h.quiet hquiet, fun _ => Extends.quiet hquiet⟩
  rollback _ _ hsound h := ⟨h.rollback hsound, fun _ _ => ⟨List.suffix_rfl, fun _ _ => rfl⟩⟩

/-! ### One transaction -/

/-- The transaction has not committed, and has left tokens as they are, deleted them or made them. -/
structure Underway (kind : TokenKind) (request : AccountRequest) (t : Txn) (w : AccountWorld) :
    Prop where
  asked : w.request t = some request
  uncommitted : ¬ w.HasCommitted t
  lent : ∀ id version, (w.slot (tokenTable kind) id).held = some (t, version) →
    version = none ∨ version = (w.slot (tokenTable kind) id).committed
      ∨ (w.slot (tokenTable kind) id).committed = none ∧ Did (makesTokenAt kind id) t w.trace

/-- The transaction has found no user but this one. -/
def FindsOnly (found : Option Nat) (t : Txn) (w : AccountWorld) : Prop :=
  ∀ userId, Did (findsUser userId) t w.trace → found = some userId

section Exec

variable {request : AccountRequest} {β : Type} {op : Op database β} {choice : Choice} {answer : β}

theorem Underway.others (h : Underway kind request t w) (hw : Others t w w') :
    Underway kind request t w' where
  asked := hw.request t request h.asked
  uncommitted hcommitted := h.uncommitted (hw.hasCommitted_self hcommitted)
  lent id version hheld := by
    have hbefore := hw.held_before hheld
    rw [hw.mine _ id version hbefore, hw.did]
    exact h.lent id version hbefore

theorem FindsOnly.others {found : Option Nat} (h : FindsOnly found t w) (hw : Others t w w') :
    FindsOnly found t w' :=
  fun userId hfinds => h userId (hw.did.mp hfinds)

theorem Underway.exec {new : UserToken → Prop} (h : Underway kind request t w) (hsound : w.Sound)
    (hwithin : op.Within (tokenTable kind) KeptOrDeleted new) (hkind : op.kind ≠ .commit)
    (hexec : op.exec t choice w = some (answer, w')) : Underway kind request t w' where
  asked := by rw [Op.exec_request hexec, h.asked]
  uncommitted := Op.exec_uncommitted hkind hexec h.uncommitted
  lent id version hheld := by
    have hkept : ∀ {version}, (w.slot (tokenTable kind) id).held = some (t, version) →
        version = none ∨ version = (w.slot (tokenTable kind) id).committed
          ∨ (w.slot (tokenTable kind) id).committed = none
            ∧ Did (makesTokenAt kind id) t w'.trace := by
      intro version hheld
      refine (h.lent id version hheld).imp_right (Or.imp_right ?_)
      rintro ⟨hnone, e, he, hmade⟩
      exact ⟨hnone, e, Op.exec_trace_subset hsound hexec e he, hmade⟩
    rw [Op.exec_committed hkind hexec]
    obtain ⟨hheld, _⟩ | ⟨_, _, ⟨seen, hview, heq | hnone⟩ | ⟨token, rfl, _, _, hentry⟩⟩ :=
      (Op.exec_tableStep hwithin hexec).held hheld
    · exact hkept hheld
    · subst heq
      by_cases hown : (w.slot (tokenTable kind) id).HeldBy t
      · obtain ⟨own, hown⟩ := hown
        rw [Slot.view_of_held hown] at hview
        exact hkept (hview ▸ hown)
      · exact .inr (.inl ((Slot.view_eq_committed hown).symm.trans hview).symm)
    · exact .inl hnone
    · rw [hsound.beyond _ _ le_rfl]
      exact .inr (.inr ⟨rfl, _, hentry, rfl, decide_eq_true ⟨rfl, rfl⟩⟩)

theorem findsUser_eq_false {userId : Nat} (hselect : op.kind ≠ .select userTable)
    (hinsert : op.kind ≠ .insert userTable) (event : ReadCommitted.Event database)
    (hkind : event.kind = op.kind) : findsUser userId event = false := by
  cases event with
  | selected T rows => exact decide_eq_false fun h => hselect (h.1 ▸ hkind.symm)
  | inserted T id => exact decide_eq_false fun h => hinsert (h.1 ▸ hkind.symm)
  | locked | committed => rfl

theorem FindsOnly.exec {found : Option Nat} (h : FindsOnly found t w)
    (hselect : op.kind ≠ .select userTable) (hinsert : op.kind ≠ .insert userTable)
    (hexec : op.exec t choice w = some (answer, w')) : FindsOnly found t w' :=
  fun userId hfinds => h userId ((Op.exec_did (findsUser_eq_false hselect hinsert) hexec).mp hfinds)

/-- The first user that the transaction finds. -/
theorem FindsOnly.note {found : Option Nat} {event : ReadCommitted.Event database}
    (h : FindsOnly none t w) (htrace : w'.trace = ⟨t, w.clock, event⟩ :: w.trace)
    (hevent : ∀ userId, findsUser userId event = true → found = some userId) :
    FindsOnly found t w' := by
  intro userId hfinds
  rw [htrace, did_cons] at hfinds
  obtain ⟨_, hfinds⟩ | hfinds := hfinds
  · exact hevent userId hfinds
  · cases h userId hfinds

end Exec

/-! ### Requests that make no token and show none -/

/-- The operation makes no token of the kind, and leaves the others as they are or deletes them. -/
def Tidying (kind : TokenKind) (β : Type) (op : Op database β) : Prop :=
  op.Within (tokenTable kind) KeptOrDeleted fun _ => False

theorem ordinary_tidying (kind : TokenKind) : Ordinary (Tidying kind) where
  select _ _ _ := trivial
  keep T id p := by
    rintro ⟨⟩ token
    exact ⟨fun _ => .inl rfl, fun _ => .inl rfl⟩
  delete T id p := by
    rintro ⟨⟩ token
    exact ⟨fun _ => .inr rfl, fun _ => .inl rfl⟩
  updateUser _ _ _ := nofun
  updateSession _ _ _ := nofun
  now := trivial
  draw := trivial

theorem inserting_tidying {T : Table} (hne : T ≠ tokenTable kind) : Inserting (Tidying kind) T :=
  fun _ hT => absurd hT hne

theorem Tidying.makesToken_eq_false {β : Type} {op : Op database β} (h : Tidying kind β op)
    (event : ReadCommitted.Event database) (hkind : event.kind = op.kind) :
    makesToken kind event = false := by
  cases event with
  | inserted T id =>
      apply decide_eq_false
      rintro rfl
      cases op with
      | insert T row =>
          cases hkind
          exact h rfl 0
      | select | lock | commit | now | draw => cases hkind
  | selected | locked | committed => rfl

section Idle

variable {request : AccountRequest}

/-- A change of password is the only request that ends the life of tokens and shows none. -/
def Unconcerned (kind : TokenKind) (request : AccountRequest) : Prop :=
  (∀ raw, request.accepts kind raw = false)
    ∧ (request.retires kind = true → kind = .passwordReset ∧ request.changesPassword = true)

theorem Underway.closing (h : Underway kind request t w) (hsound : w.Sound)
    (hunmade : ¬ Did (makesToken kind) t w.trace) (hallowed : DeletesResetTokens t w .commit)
    (hrequest : Unconcerned kind request) : Closing context kind t w where
  lent id version hheld := (h.lent id version hheld).imp_right (Or.imp_right And.right)
  superseded id token htoken hsupersedes := by
    have hretires := hsupersedes.2.resolve_left hunmade
    rw [h.asked] at hretires
    obtain ⟨rfl, hchanges⟩ := hrequest.2 hretires
    refine hallowed (by rw [h.asked]; exact hchanges) id ?_ token htoken hsupersedes.1
    by_contra hbeyond
    rw [hsound.beyond _ _ (Nat.le_of_not_lt hbeyond)] at htoken
    cases htoken
  accepted raw hshown := by
    rw [h.asked] at hshown
    cases (hrequest.1 raw).symm.trans hshown

theorem Underway.safe {α : Type} {p : Db α} (hrequest : Unconcerned kind request)
    (hall : p.All (Tidying kind)) (hlast : p.CommitsLast) (h : Underway kind request t w)
    (hunmade : ¬ Did (makesToken kind) t w.trace) :
    (acceptances context kind).Safe t (fun _ _ => True) p w := by
  apply Discipline.Safe.of_commitsLast
    (J := fun w => Underway kind request t w ∧ ¬ Did (makesToken kind) t w.trace) ?_ ?_ ?_
    hall hlast ⟨h, hunmade⟩
  · exact fun h hw => ⟨h.1.others hw.others, fun hmakes => h.2 (hw.others.did.mp hmakes)⟩
  · intro β op w w' choice answer hop hkind h hsound hinv hexec
    refine ⟨⟨hinv.exec hsound (hop.mono (fun _ _ => id) fun _ => False.elim) hkind hexec,
      fun _ _ => Op.exec_extends hexec⟩, h.1.exec hsound hop hkind hexec, fun hmakes => h.2 ?_⟩
    exact (Op.exec_did hop.makesToken_eq_false hexec).mp hmakes
  · intro w h hsound hinv hallowed
    exact ⟨hinv.commit (h.1.closing hsound h.2 hallowed hrequest),
      fun _ _ => ⟨List.suffix_cons _ _, fun _ _ => rfl⟩⟩

end Idle

/-! ### Requests that make a token -/

/-- Such an operation that finds no user either. -/
def Aside (kind : TokenKind) (β : Type) (op : Op database β) : Prop :=
  Tidying kind β op ∧ Uncommitting β op ∧ op.kind ≠ .select userTable
    ∧ op.kind ≠ .insert userTable

theorem ordinary_aside (kind : TokenKind) : Ordinary (Aside kind) where
  select _ _ hT := ⟨trivial, nofun, fun heq => hT (Kind.select.inj heq), nofun⟩
  keep T id p := ⟨(ordinary_tidying kind).keep T id p, nofun, nofun, nofun⟩
  delete T id p := ⟨(ordinary_tidying kind).delete T id p, nofun, nofun, nofun⟩
  updateUser id p f := ⟨(ordinary_tidying kind).updateUser id p f, nofun, nofun, nofun⟩
  updateSession id p f := ⟨(ordinary_tidying kind).updateSession id p f, nofun, nofun, nofun⟩
  now := ⟨trivial, nofun, nofun, nofun⟩
  draw := ⟨trivial, nofun, nofun, nofun⟩

/-- The transaction is under way and has found no user but this one. -/
def Engaged (kind : TokenKind) (request : AccountRequest) (found : Option Nat) (t : Txn)
    (w : AccountWorld) : Prop :=
  Underway kind request t w ∧ FindsOnly found t w

variable (context) in
/-- It has drawn the token that it is going to make. -/
structure Making (kind : TokenKind) (request : AccountRequest) (found : Option Nat) (raw : String)
    (t : Txn) (w : AccountWorld) : Prop where
  engaged : Engaged kind request found t w
  drawn : (raw, t) ∈ w.drawn
  unused : Unused (tokenKey kind) context.crypto.sha256 raw w

/-- It has made the token. -/
structure Delivering (kind : TokenKind) (request : AccountRequest) (userId id : Nat) (t : Txn)
    (w : AccountWorld) : Prop where
  engaged : Engaged kind request (some userId) t w
  made : ∃ token : UserToken, (w.slot (tokenTable kind) id).held = some (t, some token)
    ∧ token.userId = userId
  fresh : (w.slot (tokenTable kind) id).committed = none

section Making

variable {request : AccountRequest} {found : Option Nat} {userId id : Nat} {α β : Type}
  {op : Op database β} {choice : Choice} {answer : β}


theorem Engaged.others (h : Engaged kind request found t w) (hw : Others t w w') :
    Engaged kind request found t w' :=
  ⟨h.1.others hw, h.2.others hw⟩

theorem Engaged.exec (hop : Aside kind β op) (h : Engaged kind request found t w)
    (hsound : w.Sound) (hexec : op.exec t choice w = some (answer, w')) :
    Engaged kind request found t w' :=
  ⟨h.1.exec hsound hop.1 hop.2.1 hexec, h.2.exec hop.2.2.1 hop.2.2.2 hexec⟩

theorem Tidying.unused (hop : Tidying kind β op) (hexec : op.exec t choice w = some (answer, w'))
    (h : Unused (tokenKey kind) context.crypto.sha256 raw w) :
    Unused (tokenKey kind) context.crypto.sha256 raw w' := by
  intro id token hversion
  obtain hversion | ⟨_, hversion, heq | hnone⟩ | hfalse :=
    (Op.exec_tableStep hop hexec).hasVersion hversion
  · exact h id token hversion
  · cases heq
    exact h id token hversion
  · cases hnone
  · exact hfalse.elim

theorem Making.exec (hop : Aside kind β op) (h : Making context kind request found raw t w)
    (hsound : w.Sound) (hexec : op.exec t choice w = some (answer, w')) :
    Making context kind request found raw t w' :=
  ⟨h.engaged.exec hop hsound hexec, Op.exec_drawn_subset hsound hexec _ h.drawn,
    hop.1.unused hexec h.unused⟩

theorem Making.stable : (acceptances context kind).Stable t
    (Making context kind request found raw t) := by
  intro w w' h hw
  refine ⟨h.engaged.others hw.others, hw.others.drawn_subset _ h.drawn, ?_⟩
  exact hw.inv.keyed.unused_of_others context.crypto.sha256_injective hw.sound hw.others h.drawn
    h.engaged.1.uncommitted h.unused

theorem Delivering.others (h : Delivering kind request userId id t w) (hw : Others t w w') :
    Delivering kind request userId id t w' := by
  obtain ⟨token, hheld, howner⟩ := h.made
  have hsame := hw.mine _ id _ hheld
  exact ⟨h.engaged.others hw, ⟨token, by rw [hsame, hheld], howner⟩, by rw [hsame, h.fresh]⟩

/-- Tokens of one user exclude each other, so those that the transaction sees besides its own are
deleted. -/
theorem Delivering.closing (h : Delivering kind request userId id t w)
    (hunique : Unique (tokenTable kind) w) (haccepts : ∀ raw, request.accepts kind raw = false) :
    Closing context kind t w where
  lent id version hheld := (h.engaged.1.lent id version hheld).imp_right (Or.imp_right And.right)
  superseded id' token' htoken' hsupersedes := by
    obtain ⟨token, hheld, howner⟩ := h.made
    have howner' : userId = token'.userId := Option.some.inj (h.engaged.2 _ hsupersedes.1)
    have hne : id ≠ id' := by
      rintro rfl
      cases h.fresh.symm.trans htoken'
    have hunseen : (w.slot (tokenTable kind) id').view t ≠ some token' := by
      intro hview
      have hclash := hunique.seen t id id' token token' hne (Slot.view_of_held hheld) hview
      change (token.userId == token'.userId || token.tokenHash == token'.tokenHash) = false at hclash
      rw [howner, howner', BEq.rfl, Bool.true_or] at hclash
      cases hclash
    by_cases hown : (w.slot (tokenTable kind) id').HeldBy t
    · obtain ⟨version, hown⟩ := hown
      obtain hnone | hsame | ⟨hnone, _⟩ := h.engaged.1.lent id' version hown
      · rw [hown, hnone]
      · exact absurd ((Slot.view_of_held hown).trans (hsame.trans htoken')) hunseen
      · cases hnone.symm.trans htoken'
    · exact absurd ((Slot.view_eq_committed hown).trans htoken') hunseen
  accepted raw hshown := by
    rw [h.engaged.1.asked] at hshown
    cases (haccepts raw).symm.trans hshown

/-! #### Its steps -/

theorem Tidying.keeps (hop : Tidying kind β op) (hkind : op.kind ≠ .commit) (hsound : w.Sound)
    (hinv : AcceptsOnce context kind w) (hexec : op.exec t choice w = some (answer, w')) :
    (acceptances context kind).Keeps t w w' :=
  ⟨hinv.exec hsound (hop.mono (fun _ _ => id) fun _ => False.elim) hkind hexec,
    fun _ _ => Op.exec_extends hexec⟩

theorem Aside.keeps (hop : Aside kind β op) (hsound : w.Sound) (hinv : AcceptsOnce context kind w)
    (hexec : op.exec t choice w = some (answer, w')) :
    (acceptances context kind).Keeps t w w' :=
  hop.1.keeps hop.2.1 hsound hinv hexec

theorem Engaged.all {p : Db α} (hall : p.All (Aside kind)) (h : Engaged kind request found t w) :
    (acceptances context kind).Safe t (fun _ => Engaged kind request found t) p w :=
  Discipline.Safe.of_all (fun h hw => h.others hw.others)
    (fun hop h hsound hinv _ hexec => ⟨hop.keeps hsound hinv hexec,
      h.exec hop hsound hexec⟩) hall h

theorem Making.all {p : Db α} (hall : p.All (Aside kind))
    (h : Making context kind request found raw t w) :
    (acceptances context kind).Safe t (fun _ => Making context kind request found raw t) p w :=
  Discipline.Safe.of_all Making.stable
    (fun hop h hsound hinv _ hexec => ⟨hop.keeps hsound hinv hexec,
      h.exec hop hsound hexec⟩) hall h

theorem Engaged.draw {next : String → Db α} {Q : Except Exn α → AccountWorld → Prop}
    (h : Engaged kind request found t w)
    (hnext : ∀ raw w, Making context kind request found raw t w →
      (acceptances context kind).Safe t Q (next raw) w) :
    (acceptances context kind).Safe t Q (Prog.draw >>= next) w := by
  have hop : Aside kind String (.draw (S := database)) := (ordinary_aside kind).draw
  apply Discipline.Safe.perform_bind (K := fun raw w => Making context kind request found raw t w)
    (fun h hw => Engaged.others h hw.others) h ?_ hnext
  intro w choice raw w' h hsound hinv _ hexec
  refine ⟨hop.keeps hsound hinv hexec, h.exec hop hsound hexec, ?_, ?_⟩
  · obtain ⟨_, rfl⟩ := exec_draw hexec
    exact List.mem_cons_self
  · obtain ⟨hundrawn, rfl⟩ := exec_draw hexec
    have hunused : Unused (tokenKey kind) context.crypto.sha256 raw w :=
      hinv.keyed.unused_of_undrawn context.crypto.sha256_injective hundrawn
    exact hunused

theorem Making.insert {token : UserToken} {answer : Option Nat}
    (h : Making context kind request (some userId) raw t w) (howner : token.userId = userId)
    (hhash : token.tokenHash = context.crypto.sha256 raw) (hsound : w.Sound)
    (hinv : AcceptsOnce context kind w)
    (hexec : (Op.insert (S := database) (tokenTable kind) fun _ => token).exec t choice w
      = some (answer, w')) :
    (acceptances context kind).Keeps t w w'
      ∧ ∀ id, answer = some id → Delivering kind request userId id t w' := by
  have hwithin : (Op.insert (S := database) (tokenTable kind) fun _ => token).Within
      (tokenTable kind) KeptOrDeleted (NewlyKeyed (tokenKey kind) context.crypto.sha256 t w) :=
    fun _ _ => ⟨h.engaged.1.uncommitted, raw, h.drawn, h.unused, hhash⟩
  have hengaged : Engaged kind request (some userId) t w' :=
    ⟨h.engaged.1.exec hsound hwithin (by rintro ⟨⟩) hexec,
      h.engaged.2.exec (by rintro ⟨⟩) (by rintro ⟨⟩) hexec⟩
  refine ⟨⟨hinv.exec hsound hwithin (by rintro ⟨⟩) hexec,
    fun _ _ => Op.exec_extends hexec⟩, ?_⟩
  rintro id rfl
  have hcommitted := Op.exec_committed (by rintro ⟨⟩) hexec (tokenTable kind) id
  obtain ⟨rfl, hslot⟩ := exec_insert_slot hexec
  refine ⟨hengaged, ⟨token, ?_, howner⟩, ?_⟩
  · rw [hslot, Function.update_self]
    rfl
  · rw [hcommitted, hsound.beyond _ _ le_rfl]
    rfl

theorem Making.replace {expiresAt startedAt : Int}
    (h : Making context kind request (some userId) raw t w) :
    (acceptances context kind).Safe t
      (Discipline.OnSuccess fun id => Delivering kind request userId id t)
      (UserTokens.replace kind userId (context.crypto.sha256 raw) expiresAt startedAt) w := by
  apply (h.all ((ordinary_aside kind).modest.deleteForUser kind userId)).bind
  · intro _ w h
    apply Discipline.Safe.exec Making.stable h
      (K := fun answer w => ∀ id, answer = some id → Delivering kind request userId id t w)
    · intro w choice answer w' h hsound hinv _ hexec
      exact h.insert rfl rfl hsound hinv hexec
    · intro answer w hid
      cases answer with
      | none => trivial
      | some id => exact hid id rfl
  · exact fun _ _ _ => trivial

/-- Such an operation that leaves the tokens of the kind alone. -/
def Elsewhere (kind : TokenKind) (β : Type) (op : Op database β) : Prop :=
  Aside kind β op ∧ op.Within (tokenTable kind) (fun _ _ => False) fun _ => False

theorem Delivering.enqueueJob {message : EmailMessage} {now : Int}
    {confirmationTokenId passwordResetTokenId : Option Nat}
    (h : Delivering kind request userId id t w) :
    (acceptances context kind).Safe t (fun _ => Delivering kind request userId id t)
      (EmailOutbox.enqueueJob message now confirmationTokenId passwordResetTokenId) w := by
  have hjobs : Inserting (Elsewhere kind) .emailOutboxJobs := fun row =>
    ⟨⟨inserting_tidying (T := .emailOutboxJobs) nofun row, nofun, nofun, nofun⟩, nofun⟩
  apply Discipline.Safe.of_all (fun h hw => Delivering.others h hw.others) ?_
    (hjobs.enqueueJob _ _ _ _) h
  intro β op w w' choice answer hop h hsound hinv _ hexec
  have hslot := Op.exec_slot_same hop.2 hop.1.2.1 hexec
  refine ⟨hop.1.keeps hsound hinv hexec, h.engaged.exec hop.1 hsound hexec, ?_, ?_⟩
  · rw [hslot]
    exact h.made
  · rw [hslot]
    exact h.fresh

theorem Delivering.commit {next : Unit → Db α} (h : Delivering kind request userId id t w)
    (haccepts : ∀ raw, request.accepts kind raw = false) (hnext : ∃ value, next () = .pure value) :
    (acceptances context kind).Safe t (fun _ _ => True) (.exec .commit next) w := by
  apply Discipline.Safe.exec (K := fun _ _ => True) (fun h hw => Delivering.others h hw.others) h
  · intro w choice answer w' h hsound hinv _ hexec
    obtain rfl := exec_commit hexec
    exact ⟨⟨hinv.commit (h.closing hinv.unique haccepts),
      fun _ _ => ⟨List.suffix_cons _ _, fun _ _ => rfl⟩⟩, trivial⟩
  · intro answer w _
    obtain ⟨value, hvalue⟩ := hnext
    rw [hvalue]
    trivial

/-- What the requests do alike for the user that they found. -/
theorem Engaged.sendToken {cooldown expiresIn : Duration}
    {email : User → String → Nat → Int → EmailMessage} {message : String} {user : User}
    {startedAt : Int} (h : Engaged kind request (some userId) t w)
    (haccepts : ∀ raw, request.accepts kind raw = false) :
    (acceptances context kind).Safe t (fun _ _ => True)
      (sendToken context kind cooldown expiresIn email message userId user startedAt) w := by
  have hordinary := ordinary_aside kind
  have hsearch : (UserTokens.getForUser kind userId).All (Aside kind) :=
    Prog.All.scalar (hordinary.select (.tokens kind) _ nofun)
  apply (h.all (p := Prog.now) ⟨hordinary.now, fun _ => trivial⟩).bind
  · intro now w h
    apply (h.all hsearch).bind
    · intro existing w h
      split
      · trivial
      · apply h.draw
        intro rawToken w h
        apply h.replace.bind
        · intro tokenId w h
          apply h.enqueueJob.bind
          · exact fun _ _ h => h.commit haccepts ⟨message, rfl⟩
          · exact fun _ _ _ => trivial
        · exact fun _ _ _ => trivial
    · exact fun _ _ _ => trivial
  · exact fun _ _ _ => trivial

/-- The first search for a user. -/
theorem Engaged.scalar {p : Nat → User → Bool} {next : Option (Nat × User) → Db α}
    {Q : Except Exn α → AccountWorld → Prop} (h : Engaged kind request none t w)
    (hnext : ∀ (found : Option (Nat × User)) w, Engaged kind request (found.map Prod.fst) t w →
      (acceptances context kind).Safe t Q (next found) w) :
    (acceptances context kind).Safe t Q
      (Prog.scalar (S := database) .users p >>= next) w := by
  apply Discipline.Safe.scalar_bind (T := userTable) (fun h hw => Engaged.others h hw.others) h
    (K := fun rows w => Engaged kind request (rows.head?.map Prod.fst) t w) ?_
    fun rows w h => hnext _ _ h
  intro w choice rows w' h hsound hinv _ hexec
  have htidying : Tidying kind _ (.select (S := database) .users p) := trivial
  refine ⟨htidying.keeps (by rintro ⟨⟩) hsound hinv hexec,
    h.1.exec hsound htidying (by rintro ⟨⟩) hexec, ?_⟩
  obtain ⟨rfl, _⟩ := exec_select hexec
  apply h.2.note rfl
  intro userId hfinds
  rw [← List.head?_map]
  exact (of_decide_eq_true hfinds).2

theorem Engaged.resendConfirmation {email : String}
    (h : Engaged .confirmation request none t w)
    (haccepts : ∀ raw, request.accepts .confirmation raw = false) :
    (acceptances context .confirmation).Safe t (fun _ _ => True)
      (resendConfirmation context email) w := by
  apply (h.all (p := Prog.now) ⟨(ordinary_aside _).now, fun _ => trivial⟩).bind
  · intro startedAt w h
    apply h.scalar
    intro found w h
    split
    · trivial
    · split
      · trivial
      · exact h.sendToken haccepts
  · exact fun _ _ _ => trivial

theorem Engaged.forgotPassword {email : String} (h : Engaged .passwordReset request none t w)
    (haccepts : ∀ raw, request.accepts .passwordReset raw = false) :
    (acceptances context .passwordReset).Safe t (fun _ _ => True)
      (forgotPassword context email) w := by
  apply (h.all (p := Prog.now) ⟨(ordinary_aside _).now, fun _ => trivial⟩).bind
  · intro startedAt w h
    apply h.scalar
    intro found w h
    split
    · trivial
    · split
      · trivial
      · exact h.sendToken haccepts
  · exact fun _ _ _ => trivial

theorem Making.insertUser {user : User} (h : Making context kind request none raw t w) :
    (acceptances context kind).Safe t
      (Discipline.OnSuccess fun userId => Making context kind request (some userId) raw t)
      (insertRow .users fun _ => user) w := by
  apply Discipline.Safe.exec Making.stable h
    (K := fun answer w => ∀ userId, answer = some userId →
      Making context kind request (some userId) raw t w)
  · intro w choice answer w' h hsound hinv _ hexec
    have htidying : Tidying kind _ (.insert (S := database) .users fun _ => user) :=
      inserting_tidying (T := .users) nofun _
    refine ⟨htidying.keeps (by rintro ⟨⟩) hsound hinv hexec, ?_⟩
    rintro userId rfl
    have hunderway := h.engaged.1.exec hsound htidying (by rintro ⟨⟩) hexec
    refine ⟨⟨hunderway, ?_⟩, Op.exec_drawn_subset hsound hexec _ h.drawn,
      htidying.unused hexec h.unused⟩
    obtain ⟨_, ⟨_, hnone, _⟩ | ⟨_, hid, rfl⟩⟩ := exec_insert hexec
    · cases hnone
    · cases hid
      apply h.engaged.2.note rfl
      intro userId' hfinds
      simp only [findsUser, decide_eq_true_eq] at hfinds
      exact congrArg some hfinds.2
  · intro answer w h
    cases answer with
    | none => trivial
    | some userId => exact h userId rfl

theorem Making.createAccount {payload : RegisterRequest} {termsVersion : String}
    {now startedAt : Int} (h : Making context .confirmation request none raw t w)
    (haccepts : ∀ raw, request.accepts .confirmation raw = false) :
    (acceptances context .confirmation).Safe t (fun _ _ => True)
      (createAccount context payload termsVersion raw now startedAt) w := by
  apply (h.all (p := Prog.draw) ⟨(ordinary_aside _).draw, fun _ => trivial⟩).bind
  · intro salt w h
    apply (h.all (Prog.All.ofExcept _)).bind
    · intro passwordHash w h
      have hcreate (user : User) : (acceptances context .confirmation).Safe t
          (Discipline.OnSuccess fun created : Nat × User =>
            Making context .confirmation request (some created.1) raw t)
          ((insertRow .users fun _ => user).bind fun userId => .pure (userId, user)) w :=
        h.insertUser.bind (fun _ _ h => h) fun _ _ _ => trivial
      apply (hcreate _).bind
      · intro created w h
        apply h.replace.bind
        · intro tokenId w h
          apply h.enqueueJob.bind
          · exact fun _ _ h => h.commit haccepts ⟨(), rfl⟩
          · exact fun _ _ _ => trivial
        · exact fun _ _ _ => trivial
      · exact fun _ _ _ => trivial
    · exact fun _ _ _ => trivial
  · exact fun _ _ _ => trivial

theorem Engaged.register {legalPages : List LegalPage} {payload : RegisterRequest}
    (h : Engaged .confirmation request none t w)
    (haccepts : ∀ raw, request.accepts .confirmation raw = false) :
    (acceptances context .confirmation).Safe t (fun _ _ => True)
      (register context legalPages payload) w := by
  apply (h.all (p := Prog.now) ⟨(ordinary_aside _).now, fun _ => trivial⟩).bind
  · intro startedAt w h
    apply h.scalar
    intro found w h
    split
    · trivial
    · split
      · trivial
      · apply h.draw
        intro rawToken w h
        apply (h.all (p := Prog.now) ⟨(ordinary_aside _).now, fun _ => trivial⟩).bind
        · intro now w h
          apply Discipline.Safe.bind (Q := fun _ _ => True)
          · exact (h.createAccount haccepts).mapError (fun _ _ _ => trivial)
              fun _ _ _ => trivial
          · exact fun _ _ _ => trivial
          · exact fun _ _ _ => trivial
        · exact fun _ _ _ => trivial
  · exact fun _ _ _ => trivial

end Making

/-! ### Requests that show a token -/

/-- The operation leaves every token of the kind as it is. -/
def Keeping (kind : TokenKind) (β : Type) (op : Op database β) : Prop :=
  op.Within (tokenTable kind) (fun (token : UserToken) version => version = some token)
    fun _ => False

/-- The transaction has found no user yet and has made no token. -/
def Looking (kind : TokenKind) (request : AccountRequest) (t : Txn) (w : AccountWorld) : Prop :=
  Engaged kind request none t w ∧ ¬ Did (makesToken kind) t w.trace

variable (context) in
/-- It has locked the row of the token, which was current. If time was up then, it still is. -/
structure Taking (kind : TokenKind) (raw : String) (id : Nat) (token : UserToken) (t : Txn)
    (w : AccountWorld) : Prop where
  held : (w.slot (tokenTable kind) id).held = some (t, some token)
  stored : (w.slot (tokenTable kind) id).committed = some token
  hash : token.tokenHash = context.crypto.sha256 raw
  timely : token.expiresAt ≤ w.clock ∨ LockedCurrent context kind raw t w.request w.trace

variable (context) in
/-- It accepts the token, whose row it has left in this version. -/
structure Consuming (kind : TokenKind) (request : AccountRequest) (found : Option Nat) (raw : String)
    (id : Nat) (token : UserToken) (version : Option UserToken) (t : Txn) (w : AccountWorld) :
    Prop where
  engaged : Engaged kind request found t w
  held : (w.slot (tokenTable kind) id).held = some (t, version)
  stored : (w.slot (tokenTable kind) id).committed = some token
  hash : token.tokenHash = context.crypto.sha256 raw
  current : LockedCurrent context kind raw t w.request w.trace

section Consuming

variable {request : AccountRequest} {found : Option Nat} {id : Nat} {token : UserToken}
  {version version' : Option UserToken} {α β : Type} {op : Op database β} {choice : Choice}
  {answer : β}

theorem Keeping.tidying (hop : Keeping kind β op) : Tidying kind β op :=
  hop.mono (fun _ _ => .inl) fun _ => id

theorem Keeping.held (hop : Keeping kind β op) (hsound : w.Sound) (hkind : op.kind ≠ .commit)
    (hexec : op.exec t choice w = some (answer, w'))
    (h : (w.slot (tokenTable kind) id).held = some (t, version)) :
    (w'.slot (tokenTable kind) id).held = some (t, version) := by
  obtain hheld | ⟨_, row, version', rfl, rfl, hheld⟩ := Op.exec_held hsound hop hkind hexec h
  · exact hheld
  · exact hheld

theorem Looking.others (h : Looking kind request t w) (hw : Others t w w') :
    Looking kind request t w' :=
  ⟨h.1.others hw, fun hmakes => h.2 (hw.did.mp hmakes)⟩

theorem Looking.exec (hop : Aside kind β op) (h : Looking kind request t w) (hsound : w.Sound)
    (hexec : op.exec t choice w = some (answer, w')) : Looking kind request t w' :=
  ⟨h.1.exec hop hsound hexec,
    fun hmakes => h.2 ((Op.exec_did hop.1.makesToken_eq_false hexec).mp hmakes)⟩

theorem Taking.stable :
    (acceptances context kind).Stable t (Taking context kind raw id token t) := by
  intro w w' h hw
  have hsame := hw.others.mine _ id _ h.held
  exact ⟨by rw [hsame, h.held], by rw [hsame, h.stored], h.hash,
    h.timely.imp (fun hlate => Int.le_trans hlate hw.others.clock_le) fun hlocked =>
      hlocked.extends hw.rely⟩

theorem Taking.exec (hop : Keeping kind β op) (hkind : op.kind ≠ .commit)
    (h : Taking context kind raw id token t w) (hsound : w.Sound)
    (hexec : op.exec t choice w = some (answer, w')) : Taking context kind raw id token t w' where
  held := hop.held hsound hkind hexec h.held
  stored := (Op.exec_committed hkind hexec _ _).trans h.stored
  hash := h.hash
  timely := h.timely.imp
    (fun hlate =>
      Int.le_trans hlate (Op.exec_others hsound hexec (Nat.succ_ne_self t)).clock_le)
    fun hlocked => hlocked.extends (Op.exec_extends hexec)

theorem Consuming.stable : (acceptances context kind).Stable t
    (Consuming context kind request found raw id token version t) := by
  intro w w' h hw
  have hsame := hw.others.mine _ id _ h.held
  exact ⟨h.engaged.others hw.others, by rw [hsame, h.held], by rw [hsame, h.stored], h.hash,
    h.current.extends hw.rely⟩

theorem Consuming.next (hop : Aside kind β op)
    (h : Consuming context kind request found raw id token version t w) (hsound : w.Sound)
    (hexec : op.exec t choice w = some (answer, w'))
    (hheld : (w'.slot (tokenTable kind) id).held = some (t, version')) :
    Consuming context kind request found raw id token version' t w' :=
  ⟨h.engaged.exec hop hsound hexec, hheld, (Op.exec_committed hop.2.1 hexec _ _).trans h.stored,
    h.hash, h.current.extends (Op.exec_extends hexec)⟩

theorem Consuming.exec (hop : Aside kind β op) (hkeep : version = none ∨ Keeping kind β op)
    (h : Consuming context kind request found raw id token version t w) (hsound : w.Sound)
    (hexec : op.exec t choice w = some (answer, w')) :
    Consuming context kind request found raw id token version t w' := by
  apply h.next hop hsound hexec
  obtain rfl | hkeep := hkeep
  · obtain hheld | ⟨_, _, _, hfalse, _⟩ := Op.exec_held hsound hop.1 hop.2.1 hexec h.held
    · exact hheld
    · cases hfalse
  · exact hkeep.held hsound hop.2.1 hexec h.held

/-- The user has one token, and it is deleted. -/
theorem Consuming.closing
    (h : Consuming context kind request (some token.userId) raw id token none t w)
    (hunique : Unique (tokenTable kind) w)
    (haccepts : ∀ raw', request.accepts kind raw' = true → raw' = raw) :
    Closing context kind t w where
  lent id version hheld := (h.engaged.1.lent id version hheld).imp_right (Or.imp_right And.right)
  superseded id' token' htoken' hsupersedes := by
    have howner : token.userId = token'.userId := Option.some.inj (h.engaged.2 _ hsupersedes.1)
    by_cases hid : id = id'
    · exact hid ▸ h.held
    · have hclash := hunique.committed hid h.stored htoken'
      change (token.userId == token'.userId || token.tokenHash == token'.tokenHash) = false at hclash
      rw [howner, BEq.rfl, Bool.true_or] at hclash
      cases hclash
  accepted raw' hshown := by
    rw [h.engaged.1.asked] at hshown
    obtain rfl := haccepts raw' hshown
    exact ⟨h.current, id, token, h.stored, h.held, h.hash⟩

theorem Looking.all {p : Db α} (hall : p.All (Aside kind)) (h : Looking kind request t w) :
    (acceptances context kind).Safe t (fun _ => Looking kind request t) p w :=
  Discipline.Safe.of_all (fun h hw => h.others hw.others)
    (fun hop h hsound hinv _ hexec => ⟨hop.keeps hsound hinv hexec,
      h.exec hop hsound hexec⟩) hall h

theorem makesToken_of_makesTokenAt {trace : List (Entry database)}
    (h : Did (makesTokenAt kind id) t trace) : Did (makesToken kind) t trace := by
  obtain ⟨e, he, hown, hmakes⟩ := h
  refine ⟨e, he, hown, ?_⟩
  unfold makesTokenAt at hmakes
  unfold makesToken
  split at hmakes
  · exact decide_eq_true (of_decide_eq_true hmakes).1
  · cases hmakes

/-- It sees the tokens that others see. -/
theorem Looking.stored (h : Looking kind request t w)
    (hview : (w.slot (tokenTable kind) id).view t = some token) :
    (w.slot (tokenTable kind) id).committed = some token := by
  by_cases hown : (w.slot (tokenTable kind) id).HeldBy t
  · obtain ⟨version, hown⟩ := hown
    obtain rfl := (Slot.view_of_held hown).symm.trans hview
    obtain hnone | hsame | ⟨_, hmade⟩ := h.1.1.lent id _ hown
    · cases hnone
    · exact hsame.symm
    · exact absurd (makesToken_of_makesTokenAt hmade) h.2
  · exact (Slot.view_eq_committed hown).symm.trans hview

theorem keeping_lock (id : Nat) (p : UserToken → Bool) :
    Keeping kind _ (.lock (S := database) (tokenTable kind) id p some) :=
  fun _ _ => ⟨fun _ => rfl, fun _ => rfl⟩

theorem aside_lock (id : Nat) (p : UserToken → Bool) :
    Aside kind _ (.lock (S := database) (tokenTable kind) id p some) :=
  (ordinary_aside kind).keep (.tokens kind) id p

theorem Looking.lock {taken : Option UserToken} (h : Looking kind request t w)
    (hinv : AcceptsOnce context kind w)
    (hexec : (Op.lock (S := database) (tokenTable kind) id
      (fun token : UserToken => token.tokenHash == context.crypto.sha256 raw) some).exec t choice w
        = some (taken, w')) :
    ∀ token, taken = some token → Taking context kind raw id token t w' := by
  rintro token rfl
  obtain ⟨_, ⟨_, hnone, _⟩ | ⟨row, hview, ⟨hp, heq, rfl⟩ | ⟨_, hnone, _⟩⟩⟩ := exec_lock hexec
  · cases hnone
  · cases heq
    have hstored := h.stored hview
    refine ⟨congrArg Slot.held (World.write_slot_self _), ?_, beq_iff_eq.mp hp, ?_⟩
    · exact (write_committed id _ _ id).trans hstored
    · by_cases hearly : w.clock < token.expiresAt
      · refine .inr (.inl ⟨rfl, rfl, beq_iff_eq.mp hp, hearly, ?_⟩)
        exact hinv.current id token hstored
      · exact .inl (Int.not_lt.mp hearly)
  · cases hnone

theorem Looking.getForUpdate (h : Looking kind request t w) :
    (acceptances context kind).Safe t
      (Discipline.OnSuccess fun found w => Looking kind request t w
        ∧ ∀ id token, found = some (id, token) → Taking context kind raw id token t w)
      (UserTokens.getForUpdate kind (context.crypto.sha256 raw)) w := by
  have hordinary := ordinary_aside kind
  apply Discipline.Safe.exec (K := fun _ w => Looking kind request t w
    ∧ ∀ e ∈ ([] : List (Nat × UserToken)), Taking context kind raw e.1 e.2 t w)
    (fun h hw => Looking.others h hw.others) h
  · intro w choice found w' h hsound hinv _ hexec
    have hop := hordinary.select (.tokens kind)
      (fun _ (token : UserToken) => token.tokenHash == context.crypto.sha256 raw) nofun
    exact ⟨hop.keeps hsound hinv hexec, h.exec hop hsound hexec,
      fun _ he => absurd he List.not_mem_nil⟩
  · intro found w h
    apply (Discipline.Safe.lockEach (T := tokenTable kind) (J := fun _ rows w =>
      Looking kind request t w ∧ ∀ e ∈ rows, Taking context kind raw e.1 e.2 t w) ?_ ?_ [] h).bind
    · rintro _ w ⟨rows, ⟨⟩, h, hrows⟩
      exact ⟨h, fun id token hfound => hrows (id, token) (List.mem_of_mem_head? hfound)⟩
    · exact fun _ _ _ => trivial
    · intro ids rows w w' h hw
      exact ⟨h.1.others hw.others, fun e he => Taking.stable (h.2 e he) hw⟩
    · intro id ids rows w choice taken w' h hsound hinv _ hexec
      have hop : Aside kind _ (.lock (S := database) (tokenTable kind) id
          (fun token => token.tokenHash == context.crypto.sha256 raw) some) :=
        aside_lock id _
      refine ⟨hop.keeps hsound hinv hexec, h.1.exec hop hsound hexec, fun e he => ?_⟩
      obtain he | he := List.mem_append.mp he
      · exact (h.2 e he).exec (keeping_lock _ _) (by rintro ⟨⟩) hsound hexec
      · obtain ⟨token, htaken, rfl⟩ := Option.map_eq_some_iff.mp (Option.mem_toList.mp he)
        exact h.1.lock hinv hexec token htaken

/-- The reading of the clock tells whether the token was current when its row was locked. -/
theorem Taking.now {next : Int → Db α} {Q : Except Exn α → AccountWorld → Prop}
    (h : Taking context kind raw id token t w) (hlooking : Looking kind request t w)
    (hlate : ∀ now w, token.expiresAt ≤ now → (acceptances context kind).Safe t Q (next now) w)
    (hnext : ∀ now w, ¬ token.expiresAt ≤ now →
      Consuming context kind request none raw id token (some token) t w →
      (acceptances context kind).Safe t Q (next now) w) :
    (acceptances context kind).Safe t Q (Prog.now >>= next) w := by
  have hop : Aside kind Int (.now (S := database)) := (ordinary_aside kind).now
  apply Discipline.Safe.perform_bind
    (J := fun w => Looking kind request t w ∧ Taking context kind raw id token t w)
    (K := fun now w => now = w.clock
      ∧ Looking kind request t w ∧ Taking context kind raw id token t w)
    (fun h hw => ⟨h.1.others hw.others, Taking.stable h.2 hw⟩) ⟨hlooking, h⟩
  · intro w choice now w' h hsound hinv _ hexec
    refine ⟨hop.keeps hsound hinv hexec, ?_⟩
    obtain ⟨rfl, rfl⟩ := exec_now hexec
    exact ⟨rfl, h⟩
  · rintro now w ⟨rfl, hlooking, h⟩
    by_cases hexpired : token.expiresAt ≤ w.clock
    · exact hlate _ w hexpired
    · exact hnext _ w hexpired ⟨hlooking.1, h.held, h.stored, h.hash, h.timely.resolve_left hexpired⟩

/-- The user of the token is the one that it finds. -/
theorem Consuming.get {next : Option (Nat × User) → Db α}
    {Q : Except Exn α → AccountWorld → Prop}
    (h : Consuming context kind request none raw id token (some token) t w)
    (hnone : ∀ w, (acceptances context kind).Safe t Q (next none) w)
    (hsome : ∀ user w,
      Consuming context kind request (some token.userId) raw id token (some token) t w →
      (acceptances context kind).Safe t Q (next (some (token.userId, user))) w) :
    (acceptances context kind).Safe t Q (Users.get token.userId >>= next) w := by
  apply Discipline.Safe.scalar_bind (T := userTable) Consuming.stable h
    (K := fun rows w => (∀ e ∈ rows, e.1 = token.userId)
      ∧ Consuming context kind request (some token.userId) raw id token (some token) t w)
  · intro w choice rows w' h hsound hinv _ hexec
    have hkeeping : Keeping kind _ (.select (S := database) .users
      fun userId _ => userId == token.userId) := trivial
    have hunderway := h.engaged.1.exec hsound hkeeping.tidying (by rintro ⟨⟩) hexec
    refine ⟨hkeeping.tidying.keeps (by rintro ⟨⟩) hsound hinv hexec, ?_⟩
    obtain ⟨rfl, _, hrows⟩ := exec_select hexec
    have howner : ∀ e ∈ rows, e.1 = token.userId := fun e he =>
      beq_iff_eq.mp ((hrows e.1 e.2).mp he).2.2
    refine ⟨howner, ⟨hunderway, h.engaged.2.note rfl fun userId hfinds => ?_⟩, h.held, h.stored,
      h.hash, h.current.extends ⟨List.suffix_cons _ _, fun _ _ => rfl⟩⟩
    have hhead := (of_decide_eq_true hfinds).2
    obtain ⟨e, he, rfl⟩ := List.mem_map.mp (List.mem_of_mem_head? hhead)
    exact congrArg some (howner e he).symm
  · rintro rows w ⟨howner, h⟩
    cases rows with
    | nil => exact hnone w
    | cons e rows =>
        obtain ⟨userId, user⟩ := e
        obtain rfl : userId = token.userId := howner _ List.mem_cons_self
        exact hsome user w h

theorem Consuming.all {p : Db α} (hall : p.All (Aside kind))
    (hkeep : version = none ∨ p.All (Keeping kind))
    (h : Consuming context kind request found raw id token version t w) :
    (acceptances context kind).Safe t
      (fun _ => Consuming context kind request found raw id token version t) p w := by
  have hboth : p.All fun β op => Aside kind β op ∧ (version = none ∨ Keeping kind β op) := by
    obtain hnone | hkeep := hkeep
    · exact hall.mono fun _ _ hop => ⟨hop, .inl hnone⟩
    · exact (hall.and hkeep).mono fun _ _ hop => ⟨hop.1, .inr hop.2⟩
  exact Discipline.Safe.of_all Consuming.stable
    (fun hop h hsound hinv _ hexec => ⟨hop.1.keeps hsound hinv hexec,
      h.exec hop.1 hop.2 hsound hexec⟩) hboth h

/-- The row is deleted, or is among those to come. -/
theorem Consuming.delete {id' : Nat} {ids : List Nat} {deleted : Option UserToken}
    (h : Consuming context kind request found raw id token version t w)
    (hversion : version = none ∨ version = some token ∧ id ∈ id' :: ids) (hsound : w.Sound)
    (hexec : (Op.lock (S := database) (tokenTable kind) id'
      (fun token' : UserToken => token'.userId == token.userId) fun _ => none).exec t choice w
        = some (deleted, w')) :
    ∃ version', Consuming context kind request found raw id token version' t w'
      ∧ (version' = none ∨ version' = some token ∧ id ∈ ids) := by
  have hop : Aside kind _ (.lock (S := database) (tokenTable kind) id'
      (fun token' : UserToken => token'.userId == token.userId) fun _ => none) :=
    (ordinary_aside kind).delete (.tokens kind) id' _
  obtain rfl | ⟨rfl, hmem⟩ := hversion
  · exact ⟨none, h.exec hop (.inl rfl) hsound hexec, .inl rfl⟩
  · by_cases hid : id = id'
    · subst hid
      refine ⟨none, h.next hop hsound hexec ?_, .inl rfl⟩
      have hview := Slot.view_of_held h.held
      obtain ⟨hnone, _⟩ | ⟨row, version', hrow, hslot, ⟨_, _, rfl⟩ | ⟨hother, _⟩⟩ :=
        exec_lock_slot hexec
      · cases hnone.symm.trans hview
      · rw [hslot, Function.update_self]
        rfl
      · cases hrow.symm.trans hview
        rw [BEq.rfl] at hother
        cases hother
    · refine ⟨some token, h.next hop hsound hexec ?_, .inr ⟨rfl, ?_⟩⟩
      · rw [exec_lock_slot_of_ne hexec fun hsame => hid hsame.2, h.held]
      · exact (List.mem_cons.mp hmem).resolve_left hid

theorem Consuming.deleteForUser
    (h : Consuming context kind request found raw id token (some token) t w) :
    (acceptances context kind).Safe t
      (fun _ => Consuming context kind request found raw id token none t)
      (UserTokens.deleteForUser kind token.userId) w := by
  have hordinary := ordinary_aside kind
  apply Discipline.Safe.exec Consuming.stable h
    (K := fun (rows : List (Nat × UserToken)) w => ∃ version,
      Consuming context kind request found raw id token version t w
        ∧ (version = none ∨ version = some token ∧ id ∈ rows.map (·.1)))
  · intro w choice rows w' h hsound hinv _ hexec
    have hop := hordinary.select (.tokens kind)
      (fun _ (token' : UserToken) => token'.userId == token.userId) nofun
    have hkeeping : Keeping kind _ (.select (S := database) (.tokens kind)
      fun _ (token' : UserToken) => token'.userId == token.userId) := trivial
    refine ⟨hop.keeps hsound hinv hexec, some token,
      h.exec hop (.inr hkeeping) hsound hexec, .inr ⟨rfl, ?_⟩⟩
    exact List.mem_map_of_mem (f := Prod.fst) (exec_select_mem hsound hexec
      (Slot.view_of_held h.held) (beq_self_eq_true token.userId))
  · intro rows w h
    apply Discipline.Safe.bind
      (Q := fun _ => Consuming context kind request found raw id token none t)
    · apply (Discipline.Safe.lockEach (T := tokenTable kind) (J := fun ids _ w => ∃ version,
        Consuming context kind request found raw id token version t w
          ∧ (version = none ∨ version = some token ∧ id ∈ ids)) ?_ ?_ [] h).mono
      · rintro _ w ⟨_, _, version, h, hnone | ⟨_, hmem⟩⟩
        · exact hnone ▸ h
        · cases hmem
      · rintro ids _ w w' ⟨version, h, hversion⟩ hw
        exact ⟨version, Consuming.stable h hw, hversion⟩
      · rintro id' ids _ w choice deleted w' ⟨version, h, hversion⟩ hsound hinv _ hexec
        have hop := hordinary.delete (.tokens kind) id'
          fun token' : UserToken => token'.userId == token.userId
        exact ⟨hop.keeps hsound hinv hexec, h.delete hversion hsound hexec⟩
    · exact fun deleted w h => h.all (hordinary.modest.deleteLinkedJobs kind _) (.inl rfl)
    · exact fun _ _ h => h

/-- Whoever is told that the token was accepted has committed. -/
abbrev Committing {α : Type} (t : Txn) : Except Exn α → AccountWorld → Prop :=
  Discipline.OnSuccess fun _ w => w.HasCommitted t

theorem Consuming.commit
    (h : Consuming context kind request (some token.userId) raw id token none t w)
    (haccepts : ∀ raw', request.accepts kind raw' = true → raw' = raw) :
    (acceptances context kind).Safe t (Committing t) (Prog.commit : Db Unit) w := by
  apply Discipline.Safe.exec (K := fun _ w => w.HasCommitted t) Consuming.stable h
  · intro w choice answer w' h hsound hinv _ hexec
    obtain rfl := exec_commit hexec
    exact ⟨⟨hinv.commit (h.closing hinv.unique haccepts),
      fun _ _ => ⟨List.suffix_cons _ _, fun _ _ => rfl⟩⟩, _, List.mem_cons_self, rfl, rfl⟩
  · exact fun _ _ h => h

theorem Consuming.updateUser {f : User → User}
    (h : Consuming context kind request found raw id token (some token) t w) :
    (acceptances context kind).Safe t
      (fun _ => Consuming context kind request found raw id token (some token) t)
      (updateRow .users token.userId f) w :=
  h.all (updateRow_all ((ordinary_aside kind).updateUser _ _ _))
    (.inr (updateRow_all nofun))

theorem Consuming.storePassword {passwordHash : String} {now startedAt : Int}
    (h : Consuming context .passwordReset request (some token.userId) raw id token (some token) t w)
    (haccepts : ∀ raw', request.accepts .passwordReset raw' = true → raw' = raw) :
    (acceptances context .passwordReset).Safe t (Committing t)
      (storePassword token.userId passwordHash now startedAt) w := by
  apply h.updateUser.bind
  · intro _ w h
    apply h.deleteForUser.bind
    · intro _ w h
      have hordinary := ordinary_aside .passwordReset
      have hrevoke := hordinary.modest.revokeForUser hordinary.revoking token.userId now
      apply (h.all hrevoke (.inl rfl)).bind
      · exact fun _ _ h => h.commit haccepts
      · exact fun _ _ _ => trivial
    · exact fun _ _ _ => trivial
  · exact fun _ _ _ => trivial

theorem Looking.resetPassword {newPassword : String} (h : Looking .passwordReset request t w)
    (haccepts : ∀ raw', request.accepts .passwordReset raw' = true → raw' = raw) :
    (acceptances context .passwordReset).Safe t (Committing t)
      (resetPassword context raw newPassword) w := by
  have hdraw : (Prog.draw : Db String).All (Aside .passwordReset) :=
    ⟨(ordinary_aside _).draw, fun _ => trivial⟩
  apply (h.all (p := Prog.now) ⟨(ordinary_aside _).now, fun _ => trivial⟩).bind
  · intro startedAt w h
    apply (h.getForUpdate).bind
    · rintro found w ⟨h, htaken⟩
      split
      · trivial
      · rename_i id token
        apply (htaken id token rfl).now h
        · intro now w hexpired
          rw [if_pos hexpired]
          trivial
        · intro now w hexpired h
          rw [if_neg hexpired]
          apply h.get
          · exact fun _ => trivial
          · intro user w h
            apply (h.all hdraw (.inr ⟨trivial, fun _ => trivial⟩)).bind
            · intro salt w h
              apply (h.all (Prog.All.ofExcept _) (.inr (Prog.All.ofExcept _))).bind
              · exact fun _ _ h => h.storePassword haccepts
              · exact fun _ _ _ => trivial
            · exact fun _ _ _ => trivial
    · exact fun _ _ _ => trivial
  · exact fun _ _ _ => trivial

theorem Looking.confirmEmail (h : Looking .confirmation request t w)
    (haccepts : ∀ raw', request.accepts .confirmation raw' = true → raw' = raw) :
    (acceptances context .confirmation).Safe t (Committing t) (confirmEmail context raw) w := by
  apply (h.all (p := Prog.now) ⟨(ordinary_aside _).now, fun _ => trivial⟩).bind
  · intro startedAt w h
    apply (h.getForUpdate).bind
    · rintro found w ⟨h, htaken⟩
      split
      · trivial
      · rename_i id token
        apply (htaken id token rfl).now h
        · intro now w hexpired
          rw [if_pos hexpired]
          trivial
        · intro now w hexpired h
          rw [if_neg hexpired]
          apply h.get
          · exact fun _ => trivial
          · intro user w h
            apply h.updateUser.bind
            · intro _ w h
              apply h.deleteForUser.bind
              · exact fun _ _ h => h.commit haccepts
              · exact fun _ _ _ => trivial
            · exact fun _ _ _ => trivial
    · exact fun _ _ _ => trivial
  · exact fun _ _ _ => trivial

end Consuming

/-! ### The service -/

/-- A request that shows a token has committed when it succeeds. -/
abbrev Effected {α : Type} (kind : TokenKind) (request : AccountRequest) (t : Txn) :
    Except Exn α → AccountWorld → Prop :=
  Discipline.OnSuccess fun _ w => ∀ raw, request.accepts kind raw = true → w.HasCommitted t

section Service

variable {request : AccountRequest} {legalPages : List LegalPage} {α : Type}


theorem looking_of_fresh (h : Discipline.Fresh t w) (hrequest : w.request t = some request) :
    Looking kind request t w := by
  have hundone : ∀ {p}, ¬ Did p t w.trace := by
    rintro p ⟨e, he, hown, _⟩
    exact h.untraced e he hown
  exact ⟨⟨⟨hrequest, h.uncommitted, fun id version hheld =>
    absurd ⟨version, hheld⟩ (h.unlocked _ id)⟩, fun _ hdid => absurd hdid hundone⟩, hundone⟩

theorem Looking.idle (h : Looking kind request t w) (hrequest : Unconcerned kind request)
    (hall : (request.handler context legalPages).All (Tidying kind)) :
    (acceptances context kind).Safe t (Effected kind request t)
      (request.handler context legalPages) w := by
  apply (h.1.1.safe hrequest hall request.handler_commitsLast h.2).mono
  rintro (error | answer) w _
  · trivial
  · exact fun raw hshown => absurd ((hrequest.1 raw).symm.trans hshown) Bool.false_ne_true

/-- A request that shows no token owes nothing for its success. -/
theorem effected_of_safe {f : α → Option String} {p : Db α}
    (haccepts : ∀ raw, request.accepts kind raw = false)
    (h : (acceptances context kind).Safe t (fun _ _ => True) p w) :
    (acceptances context kind).Safe t (Effected kind request t)
      (p.bind fun answer => .pure (f answer)) w :=
  h.bind (fun _ _ _ raw hshown => absurd ((haccepts raw).symm.trans hshown) Bool.false_ne_true)
    fun _ _ _ => trivial

theorem effected_of_committing {p : Db Unit}
    (h : (acceptances context kind).Safe t (Committing t) p w) :
    (acceptances context kind).Safe t (Effected kind request t)
      (p.bind fun _ => .pure (none : Option String)) w :=
  h.bind (fun _ _ hdone _ _ => hdone) fun _ _ _ => trivial

theorem Looking.handler (h : Looking kind request t w) :
    (acceptances context kind).Safe t (Effected kind request t)
      (request.handler context legalPages) w := by
  have hordinary := ordinary_tidying kind
  have hcommit : Tidying kind _ (.commit (S := database)) := trivial
  have hfind : Finding (Tidying kind) := fun _ => trivial
  have hjobs : Inserting (Tidying kind) .emailOutboxJobs := inserting_tidying nofun
  have husers : Inserting (Tidying kind) .users := inserting_tidying nofun
  cases request with
  | register payload =>
      cases kind with
      | confirmation =>
          exact effected_of_safe (fun _ => rfl) (h.1.register fun _ => rfl)
      | passwordReset =>
          apply h.idle ⟨fun _ => rfl, nofun⟩
          have hregister : (register context legalPages payload).All (Tidying .passwordReset) :=
            hordinary.modest.register hcommit hfind hjobs husers (inserting_tidying nofun) payload
          exact hregister.bind fun _ => trivial
  | confirmEmail token =>
      cases kind with
      | confirmation =>
          apply effected_of_committing
          exact h.confirmEmail fun raw hshown => (of_decide_eq_true hshown).2.symm
      | passwordReset =>
          apply h.idle ⟨fun _ => rfl, nofun⟩
          exact (hordinary.confirmEmail hcommit hfind token).bind fun _ => trivial
  | resendConfirmation email =>
      cases kind with
      | confirmation =>
          exact effected_of_safe (fun _ => rfl) (h.1.resendConfirmation fun _ => rfl)
      | passwordReset =>
          apply h.idle ⟨fun _ => rfl, nofun⟩
          exact (hordinary.modest.resendConfirmation hcommit hfind hjobs (inserting_tidying nofun)
            email).bind fun _ => trivial
  | forgotPassword email =>
      cases kind with
      | confirmation =>
          apply h.idle ⟨fun _ => rfl, nofun⟩
          exact (hordinary.modest.forgotPassword hcommit hfind hjobs (inserting_tidying nofun)
            email).bind fun _ => trivial
      | passwordReset =>
          exact effected_of_safe (fun _ => rfl) (h.1.forgotPassword fun _ => rfl)
  | resetPassword token newPassword =>
      cases kind with
      | confirmation =>
          apply h.idle ⟨fun _ => rfl, nofun⟩
          exact (hordinary.resetPassword hcommit hfind token newPassword).bind fun _ => trivial
      | passwordReset =>
          apply effected_of_committing
          exact h.resetPassword fun raw hshown => (of_decide_eq_true hshown).2.symm
  | changePassword credentials currentPassword newPassword =>
      apply h.idle ⟨fun _ => rfl, fun hretires => ⟨of_decide_eq_true hretires, rfl⟩⟩
      exact (hordinary.changePassword hcommit hfind credentials currentPassword newPassword).bind
        fun _ => trivial
  | deleteAccount credentials password =>
      apply h.idle ⟨fun _ => rfl, nofun⟩
      exact (hordinary.deleteAccount hcommit hfind credentials password).bind fun _ => trivial

theorem accountSystem_verified :
    (acceptances context kind).Verified (accountSystem context legalPages)
      fun request t => Effected kind request t where
  stable request t r := by
    apply Discipline.OnSuccess.stable
    exact fun _ _ _ h hw raw hshown => hw.others.hasCommitted (h raw hshown)
  close request t r w _ _ h := by
    cases r with
    | ok answer => exact h
    | error error => trivial
  lost _ _ _ _ := trivial
  handler request t w _ _ hfresh hrequest := (looking_of_fresh hfresh hrequest).handler

/-- The request of the client shows the token, and the client was told that it was accepted. -/
def AcceptedFor (kind : TokenKind) (raw : String) (t : Txn) (c : AccountConfig) : Prop :=
  (c.world.request t).any (·.accepts kind raw) = true ∧ ∃ answer, c.outcome t = some (.ok answer)

instance (kind : TokenKind) (raw : String) (t : Txn) (c : AccountConfig) :
    Decidable (AcceptedFor kind raw t c) :=
  match h : c.outcome t with
  | some (.ok answer) =>
      decidable_of_iff ((c.world.request t).any (·.accepts kind raw) = true)
        ⟨fun hshown => ⟨hshown, answer, h⟩, And.left⟩
  | some (.error _) => .isFalse fun ⟨_, _, hanswer⟩ => by cases h.symm.trans hanswer
  | none => .isFalse fun ⟨_, _, hanswer⟩ => by cases h.symm.trans hanswer

/-- A service that has made no token yet. -/
def Tokenless (c : AccountConfig) : Prop :=
  c.Initial ∧ ∀ kind, c.world.next (tokenTable kind) = 0

theorem Tokenless.acceptsOnce {c : AccountConfig} (h : Tokenless c) :
    AcceptsOnce context kind c.world := by
  have hempty : ∀ id, c.world.slot (tokenTable kind) id = Slot.empty := fun id =>
    h.1.1.beyond _ id ((h.2 kind).symm ▸ Nat.zero_le id)
  have hview : ∀ t id, (c.world.slot (tokenTable kind) id).view t = none := by
    intro t id
    rw [hempty]
    rfl
  have hversion : ∀ id token, ¬ (c.world.slot (tokenTable kind) id).HasVersion token := by
    intro id token hversion
    rw [hempty] at hversion
    obtain hversion | ⟨_, hversion⟩ := hversion
    · cases hversion
    · cases hversion
  have hopen : ∀ t, ¬ c.world.HasCommitted t := by
    rintro t ⟨e, he, _⟩
    rw [h.1.1.untraced] at he
    cases he
  refine ⟨⟨fun t id id' token token' _ htoken => ?_, fun t u id id' token token' _ htoken => ?_⟩,
    ⟨fun id token htoken => ?_, fun id t token htoken => ?_, fun id id' token token' htoken => ?_⟩,
    fun id token htoken => ?_, fun t raw haccepted => absurd haccepted.2 (hopen t),
    fun t u raw haccepted => absurd haccepted.2 (hopen t)⟩
  · cases (hview t id).symm.trans htoken
  · exact absurd (.inr ⟨t, htoken⟩) (hversion id token)
  · exact absurd (.inl htoken) (hversion id token)
  · exact absurd (.inr ⟨t, htoken⟩) (hversion id token)
  · exact absurd htoken (hversion id token)
  · exact absurd (.inl htoken) (hversion id token)

/-- Every step of the client on the way to the configuration leaves the rows alone that others
see. -/
def LeavesRows (context : Context) (legalPages : List LegalPage) (t : Txn) (c : AccountConfig) :
    Prop :=
  ∀ c₁ l c₂, Transition.Reachable (accountSystem context legalPages).step Tokenless
      Transition.anyStep c₁ →
    (accountSystem context legalPages).step c₁ l = some c₂ → l.client = some t →
    Transition.Reachable (accountSystem context legalPages).step (· = c₂) Transition.anyStep c →
    ∀ T id, (c₂.world.slot T id).committed = (c₁.world.slot T id).committed

theorem leavesRows_of_error {c : AccountConfig} {error : Exn}
    (houtcome : c.outcome t = some (.error error)) : LeavesRows context legalPages t c :=
  fun _ _ _ hreach hstep hl hrest T id =>
    System.committed_of_error AccountRequest.handler_commitsLast (fun _ hc => hc.1) hreach trivial
      hstep hl hrest houtcome T id

/-- **A token is accepted once, and while it is current.** In every run in which a change of password
commits only when the reset tokens of its user are among those that it has deleted, each token is
accepted for one request at most, whose transaction locked its row before it expired, while it was
the latest of its kind for its user and none of them had been used, replaced or ended. A request that
is turned away leaves every row as it was. -/
theorem tokens_accepted_once {c : AccountConfig}
    (h : Transition.Reachable (accountSystem context legalPages).step Tokenless
      (fun c l => c.Meets DeletesResetTokens l) c) :
    (∀ kind raw t u, AcceptedFor kind raw t c → AcceptedFor kind raw u c → t = u)
      ∧ (∀ kind raw t, AcceptedFor kind raw t c →
          LockedCurrent context kind raw t c.world.request c.world.trace)
      ∧ ∀ t error, c.outcome t = some (.error error) → LeavesRows context legalPages t c := by
  have hholds (kind : TokenKind) : Discipline.Holds (acceptances context kind)
      (fun request t => Effected kind request t) c :=
    (accountSystem_verified).holds (fun _ hc => ⟨hc.1, hc.acceptsOnce⟩) h
  have haccepted : ∀ {kind raw t}, AcceptedFor kind raw t c → Accepted kind raw t c.world := by
    rintro kind raw t ⟨hshown, answer, houtcome⟩
    obtain ⟨request, hrequest, heffected⟩ :=
      (hholds kind).outcome (Config.client_of_outcome houtcome)
    refine ⟨hshown, heffected raw ?_⟩
    rwa [hrequest] at hshown
  refine ⟨fun kind raw t u ht hu => ?_, fun kind raw t ht => ?_, fun t error => leavesRows_of_error⟩
  · exact (hholds kind).inv.once t u raw (haccepted ht) (haccepted hu)
  · exact ((hholds kind).inv.accepted t raw (haccepted ht)).1

end Service

/-- Ona forgets her password. -/
def forgotten : List (Label AccountRequest) :=
  [.spawn 1 (.forgotPassword confirmedUser.email), .exec 1 {}, .exec 1 { order := [0] }, .exec 1 {},
    .exec 1 {}, .exec 1 { token := "t" }, .exec 1 {}, .exec 1 {}, .exec 1 {}, .exec 1 {}]

/-- She sets another one with the token that she was mailed. -/
def setAgain : List (Label AccountRequest) :=
  [.spawn 2 (.resetPassword "t" "battery staple"), .exec 2 {}, .exec 2 { order := [0] }, .exec 2 {},
    .exec 2 {}, .exec 2 { order := [0] }, .exec 2 { token := "salt" }, .exec 2 {},
    .exec 2 { order := [0] }, .exec 2 {}, .exec 2 { order := [0] }, .exec 2 {}, .exec 2 {},
    .exec 2 {}]

theorem smallService_tokenless : Tokenless (smallService AccountRequest Exn (Option String)) :=
  ⟨smallService_initial _ _ _, fun _ => rfl⟩

theorem tokens_accepted_once_setAgain :
    ∃ c, Transition.run (Transition.guarded (accountSystem plainContext publishedTerms).step
          fun c l => c.Meets DeletesResetTokens l) (smallService _ _ _) (forgotten ++ setAgain)
        = some c
      ∧ AcceptedFor .passwordReset "t" 2 c
      ∧ LockedCurrent plainContext .passwordReset "t" 2 c.world.request c.world.trace := by
  have hrun : (Transition.run (Transition.guarded (accountSystem plainContext publishedTerms).step
      fun c l => c.Meets DeletesResetTokens l) (smallService AccountRequest Exn (Option String))
      (forgotten ++ setAgain)).any fun c => decide (AcceptedFor .passwordReset "t" 2 c) := by decide
  obtain ⟨c, hc, haccepted⟩ := (Option.any_eq_true _ _).mp hrun
  have hreach := Transition.reachable_of_guarded_run smallService_tokenless _ hc
  have haccepted := of_decide_eq_true haccepted
  exact ⟨c, hc, haccepted, (tokens_accepted_once hreach).2.1 _ _ _ haccepted⟩

/-- She is changing her password, and has found no reset token to delete. -/
def changing : List (Label AccountRequest) :=
  [.spawn 0 (.changePassword (some "access") "correct horse" "battery staple"), .exec 0 {},
    .exec 0 {}, .exec 0 { order := [0] }, .exec 0 {}, .exec 0 { token := "pepper" }, .exec 0 {},
    .exec 0 {}]

/-- The token that she is mailed meanwhile survives the change, and sets another password. -/
theorem setAgain_after_change :
    ∃ c, Transition.run (accountSystem plainContext publishedTerms).step (smallService _ _ _)
        (changing ++ forgotten ++ [.exec 0 {}, .exec 0 {}] ++ setAgain) = some c
      ∧ c.outcome 0 = some (.ok none) ∧ AcceptedFor .passwordReset "t" 2 c
      ∧ ¬ LockedCurrent plainContext .passwordReset "t" 2 c.world.request c.world.trace := by
  have hrun : (Transition.run (accountSystem plainContext publishedTerms).step
      (smallService AccountRequest Exn (Option String))
      (changing ++ forgotten ++ [.exec 0 {}, .exec 0 {}] ++ setAgain)).any fun c =>
        decide (c.outcome 0 = some (.ok none) ∧ AcceptedFor .passwordReset "t" 2 c
          ∧ ¬ LockedCurrent plainContext .passwordReset "t" 2 c.world.request c.world.trace) := by
    decide
  obtain ⟨c, hc, h⟩ := (Option.any_eq_true _ _).mp hrun
  exact ⟨c, hc, of_decide_eq_true h⟩

end EventsApi
