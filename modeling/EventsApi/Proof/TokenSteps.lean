import EventsApi.Proof.SessionSteps
import EventsApi.Library.ReadCommitted.Tokens
import EventsApi.Library.ReadCommitted.Unique

/-!
# What requests for a token do to the tables

A request touches the tokens of the user that its address belongs to, and the jobs of the token it
makes. Tokens of one user exclude each other, and a new one comes with a job of its own.
-/

namespace EventsApi

open ReadCommitted

abbrev tokenTable (kind : TokenKind) : database.Table := Table.tokens kind

abbrev confirmationTable : database.Table := Table.tokens .confirmation

abbrev jobTable : database.Table := Table.emailOutboxJobs

abbrev TokenWorld := World database String

abbrev tokenKey (kind : TokenKind) : database.Row (tokenTable kind) → String := UserToken.tokenHash

/-- The address is that of the user. -/
def OwnedBy (email : String) (userId : Nat) (w : TokenWorld) : Prop :=
  ∃ user : User, (w.slot userTable userId).committed = some user ∧ user.email = email

/-- The request of the transaction is about the user. -/
def RequestedFor (t : Txn) (userId : Nat) (w : TokenWorld) : Prop :=
  ∃ email, w.request t = some email ∧ OwnedBy email userId w

/-- The idempotency key of the message that carries a token. -/
def TokenKind.jobKey : TokenKind → (tokenId : Nat) → String
  | .confirmation, tokenId => "email-confirmation/" ++ toString tokenId
  | .passwordReset, tokenId => "password-reset/" ++ toString tokenId

/-- The job mails the token. -/
structure Mails (kind : TokenKind) (tokenId : Nat) (job : EmailOutboxJob) : Prop where
  key : job.idempotencyKey = kind.jobKey tokenId
  confirmation : job.confirmationTokenId = if kind = .confirmation then some tokenId else none
  passwordReset : job.passwordResetTokenId = if kind = .passwordReset then some tokenId else none

/-- No job mails the token. -/
def Unmailed (kind : TokenKind) (tokenId : Nat) (w : TokenWorld) : Prop :=
  ∀ id job, (w.slot jobTable id).HasVersion job → ¬ Mails kind tokenId job

variable (context : Context) (kind : TokenKind)

/-- The cooldown of the old token was over at the clock reading that the new one was made with. -/
def CooledDown (old new : UserToken) : Prop :=
  old.createdAt + parseDuration (kind.cooldown context.settings)
    ≤ new.expiresAt - parseDuration (kind.expiresIn context.settings)

/-- A token is left as it is, or deleted on behalf of its user before a new one is made. -/
def TokenChange (t : Txn) (w : TokenWorld) (token : UserToken) (version : Option UserToken) :
    Prop :=
  version = some token ∨ version = none ∧ RequestedFor t token.userId w
    ∧ ∀ id new, (w.slot (tokenTable kind) id).held = some (t, some new) →
        (w.slot (tokenTable kind) id).committed ≠ none

/-- A token that is made on behalf of its user, with a hash of its own, after the cooldown of the
tokens it replaces. -/
def NewToken (t : Txn) (w : TokenWorld) (token : UserToken) : Prop :=
  NewlyKeyed (tokenKey kind) context.crypto.sha256 t w token ∧ RequestedFor t token.userId w
    ∧ ∀ id (old : UserToken), (w.slot (tokenTable kind) id).held = some (t, none) →
        (w.slot (tokenTable kind) id).committed = some old → old.userId = token.userId →
        CooledDown context kind old token

def JobChange (job : EmailOutboxJob) (version : Option EmailOutboxJob) : Prop :=
  version = some job ∨ version = none

/-- A job that mails a token of the transaction's own. -/
def NewJob (t : Txn) (w : TokenWorld) (job : EmailOutboxJob) : Prop :=
  ∃ tokenId, (w.slot (tokenTable kind) tokenId).HeldBy t ∧ Mails kind tokenId job

structure TokenRequests (w : TokenWorld) : Prop where
  users : ∀ userId, (w.slot userTable userId).held = none
  unique : Unique (tokenTable kind) w
  keyed : Keyed (tokenKey kind) context.crypto.sha256 w
  owner : ∀ id t version (token : UserToken),
    (w.slot (tokenTable kind) id).held = some (t, version) →
    version ≠ (w.slot (tokenTable kind) id).committed →
    (w.slot (tokenTable kind) id).committed = some token ∨ version = some token →
    RequestedFor t token.userId w
  jobs : ∀ id job, (w.slot jobTable id).HasVersion job →
    ∃ tokenId < w.next (tokenTable kind), Mails kind tokenId job
  cooled : ∀ t id id' (old new : UserToken),
    (w.slot (tokenTable kind) id).held = some (t, none) →
    (w.slot (tokenTable kind) id).committed = some old →
    (w.slot (tokenTable kind) id').held = some (t, some new) →
    (w.slot (tokenTable kind) id').committed = none → old.userId = new.userId →
    CooledDown context kind old new

/-- What a transaction relies on: users are not changed, nobody else mails its tokens, and nobody
makes or restores a token of its user except by committing a request for the same address. -/
structure TokenRely (t : Txn) (w w' : TokenWorld) : Prop where
  request : ∀ u email, w.request u = some email → w'.request u = some email
  committed : ∀ u, w.HasCommitted u → w'.HasCommitted u
  users : ∀ userId, (w'.slot userTable userId).committed = (w.slot userTable userId).committed
  unmailed : ∀ tokenId, (w.slot (tokenTable kind) tokenId).HeldBy t →
    (w'.slot (tokenTable kind) tokenId).HeldBy t
      ∧ (Unmailed kind tokenId w → Unmailed kind tokenId w')
  tokens : ∀ email, w.request t = some email →
    (∀ u, u ≠ t → w'.request u = some email → w'.HasCommitted u → w.HasCommitted u) →
    ∀ id (token : UserToken), (w'.slot (tokenTable kind) id).committed = some token →
      OwnedBy email token.userId w → (w.slot (tokenTable kind) id).committed = some token

variable {context kind} {t u : Txn} {w w' w'' : TokenWorld}

theorem TokenRely.refl (t : Txn) (w : TokenWorld) : TokenRely kind t w w where
  request _ _ := id
  committed _ := id
  users _ := rfl
  unmailed _ hheld := ⟨hheld, id⟩
  tokens _ _ _ _ _ htoken _ := htoken

theorem OwnedBy.congr {email : String} {userId : Nat} (h : OwnedBy email userId w)
    (husers : ∀ userId, (w'.slot userTable userId).committed
      = (w.slot userTable userId).committed) : OwnedBy email userId w' := by
  obtain ⟨user, huser, hemail⟩ := h
  exact ⟨user, (husers userId).trans huser, hemail⟩

theorem OwnedBy.unique {email email' : String} {userId : Nat} (h : OwnedBy email userId w)
    (h' : OwnedBy email' userId w) : email = email' := by
  obtain ⟨user, huser, rfl⟩ := h
  obtain ⟨user', huser', rfl⟩ := h'
  cases huser.symm.trans huser'
  rfl

theorem TokenRely.trans (h : TokenRely kind t w w') (h' : TokenRely kind t w' w'') :
    TokenRely kind t w w'' where
  request u email hreq := h'.request u email (h.request u email hreq)
  committed u hdone := h'.committed u (h.committed u hdone)
  users userId := (h'.users userId).trans (h.users userId)
  unmailed tokenId hheld := by
    obtain ⟨hheld', hkeep⟩ := h.unmailed tokenId hheld
    obtain ⟨hheld'', hkeep'⟩ := h'.unmailed tokenId hheld'
    exact ⟨hheld'', fun hnone => hkeep' (hkeep hnone)⟩
  tokens email hreq hothers id token htoken howned := by
    refine h.tokens email hreq ?_ id token ?_ howned
    · exact fun u hne hu hdone => hothers u hne (h'.request u email hu) (h'.committed u hdone)
    · refine h'.tokens email (h.request t email hreq) ?_ id token htoken (howned.congr h.users)
      exact fun u hne hu hdone => h.committed u (hothers u hne hu hdone)

theorem RequestedFor.rely {userId : Nat} (h : RequestedFor u userId w)
    (hrely : TokenRely kind t w w') : RequestedFor u userId w' := by
  obtain ⟨email, hreq, howned⟩ := h
  exact ⟨email, hrely.request u email hreq, howned.congr hrely.users⟩

theorem Mails.unique {tokenId tokenId' : Nat} {job : EmailOutboxJob} (h : Mails kind tokenId job)
    (h' : Mails kind tokenId' job) : tokenId = tokenId' := by
  cases kind with
  | confirmation => exact Option.some.inj (h.confirmation.symm.trans h'.confirmation)
  | passwordReset => exact Option.some.inj (h.passwordReset.symm.trans h'.passwordReset)

theorem toString_nat_injective {i j : Nat} (h : toString i = toString j) : i = j := by
  have hdigits := congrArg String.toList h
  rw [Nat.toString_eq_repr, Nat.toString_eq_repr, Nat.toList_repr, Nat.toList_repr] at hdigits
  rw [← Nat.ofDigitChars_ten_toDigits (n := i), hdigits, Nat.ofDigitChars_ten_toDigits]

theorem TokenKind.jobKey_injective : Function.Injective kind.jobKey := by
  intro i j h
  cases kind with
  | confirmation => exact toString_nat_injective ((String.append_right_inj _).mp h)
  | passwordReset => exact toString_nat_injective ((String.append_right_inj _).mp h)

/-- The jobs that mail two tokens do not collide. -/
theorem Mails.not_collides {tokenId tokenId' : Nat} {job job' : EmailOutboxJob}
    (h : Mails kind tokenId job) (h' : Mails kind tokenId' job') (hne : tokenId ≠ tokenId') :
    job.collides job' = false := by
  have hkey : kind.jobKey tokenId ≠ kind.jobKey tokenId' := TokenKind.jobKey_injective.ne hne
  unfold EmailOutboxJob.collides
  rw [h.key, h'.key, h.confirmation, h'.confirmation, h.passwordReset, h'.passwordReset]
  cases kind <;> simp [hkey, hne]

/-! ### One step -/

variable (context kind) in
/-- A step of the transaction `t`. -/
structure TokenStep (t : Txn) (w w' : TokenWorld) : Prop where
  tokens : TableStep t (tokenTable kind) (TokenChange kind t w) (NewToken context kind t w) w w'
  jobs : TableStep t jobTable JobChange (NewJob kind t w) w w'
  users : TableStep t userTable (fun _ _ => False) (fun _ => False) w w'
  others : ∀ u, u ≠ t → Others u w w'
  request : w'.request = w.request
  /-- A version is committed once, by the commit of its transaction. -/
  committed : ∀ id version, (w'.slot (tokenTable kind) id).committed = version →
    (w.slot (tokenTable kind) id).committed = version
      ∨ (w.slot (tokenTable kind) id).held = some (t, version) ∧ ¬ w.HasCommitted t
        ∧ w'.HasCommitted t

theorem TokenStep.users_committed (hstep : TokenStep context kind t w w')
    (h : TokenRequests context kind w) (userId : Nat) :
    (w'.slot userTable userId).committed = (w.slot userTable userId).committed := by
  obtain hsame | ⟨hheld, _⟩ := hstep.users.committed rfl
  · exact hsame.symm
  · rw [h.users userId] at hheld
    cases hheld

theorem TokenStep.rely (hstep : TokenStep context kind t w w') (h : TokenRequests context kind w)
    (hne : u ≠ t) : TokenRely kind u w w' where
  request v email hreq := by rw [hstep.request, hreq]
  committed v := (hstep.others u hne).hasCommitted
  users := hstep.users_committed h
  unmailed tokenId hheld := by
    obtain ⟨version, hheld⟩ := hheld
    refine ⟨⟨version, by rw [(hstep.others u hne).mine _ _ version hheld, hheld]⟩, ?_⟩
    intro hunmailed id job hversion hmails
    obtain hversion | ⟨old, hversion, heq | heq⟩ | ⟨tokenId', hheld', hmails'⟩ :=
      hstep.jobs.hasVersion hversion
    · exact hunmailed id job hversion hmails
    · cases heq
      exact hunmailed id job hversion hmails
    · cases heq
    · obtain rfl := hmails.unique hmails'
      obtain ⟨version', hheld'⟩ := hheld'
      rw [hheld] at hheld'
      cases hheld'
      exact hne rfl
  tokens email hreq hothers id token htoken howned := by
    obtain hsame | ⟨hheld, hopen, hdone⟩ := hstep.committed id _ htoken
    · exact hsame
    · by_contra hchanged
      obtain ⟨email', hreq', howned'⟩ := h.owner id t _ token hheld (Ne.symm hchanged) (.inr rfl)
      obtain rfl := howned.unique howned'
      exact hopen (hothers t (Ne.symm hne) (by rw [hstep.request, hreq']) hdone)

theorem tokens_clash_symm (row row' : UserToken) :
    database.clash (tokenTable kind) row row' = database.clash (tokenTable kind) row' row := by
  change (row.userId == row'.userId || row.tokenHash == row'.tokenHash)
    = (row'.userId == row.userId || row'.tokenHash == row.tokenHash)
  rw [BEq.comm, BEq.comm (a := row.tokenHash)]

/-- A token is left as it is or deleted. -/
def KeptOrDeleted (token : UserToken) (version : Option UserToken) : Prop :=
  version = some token ∨ version = none

theorem KeptOrDeleted.keepsClashes {kind : TokenKind} {token : UserToken}
    {version : Option UserToken} (h : KeptOrDeleted token version) :
    KeepsClashes (tokenTable kind) token version := by
  intro token' heq other
  obtain hsame | hnone := h
  · cases hsame.symm.trans heq
    rfl
  · cases hnone.symm.trans heq

theorem TokenChange.keepsClashes {token : UserToken} {version : Option UserToken}
    (h : TokenChange kind t w token version) : KeepsClashes (tokenTable kind) token version := by
  intro token' heq other
  obtain hsame | ⟨hnone, _⟩ := h
  · cases hsame.symm.trans heq
    rfl
  · cases hnone.symm.trans heq

theorem TokenChange.rekeyed {token : UserToken} {version : Option UserToken}
    (h : TokenChange kind t w token version) :
    Rekeyed (tokenKey kind) context.crypto.sha256 t w token version := by
  intro token' heq
  obtain hsame | ⟨hnone, _⟩ := h
  · cases hsame.symm.trans heq
    exact .inl rfl
  · cases hnone.symm.trans heq

theorem TokenStep.owner (hstep : TokenStep context kind t w w') (h : TokenRequests context kind w)
    (hsound : w.Sound) : ∀ id u version (token : UserToken),
    (w'.slot (tokenTable kind) id).held = some (u, version) →
    version ≠ (w'.slot (tokenTable kind) id).committed →
    (w'.slot (tokenTable kind) id).committed = some token ∨ version = some token →
    RequestedFor u token.userId w' := by
  intro id u version token hheld hchanged htoken
  have hrely := hstep.rely h (Nat.succ_ne_self t)
  obtain ⟨hheld, hsame⟩ | ⟨rfl, hsame, ⟨seen, hview, hchange⟩ | ⟨new, rfl, rfl, hnew, _⟩⟩ :=
    hstep.tokens.held hheld
  · rw [hsame] at hchanged htoken
    exact (h.owner id u version token hheld hchanged htoken).rely hrely
  · rw [hsame] at hchanged htoken
    by_cases hown : (w.slot (tokenTable kind) id).HeldBy u
    · obtain ⟨own, hown⟩ := hown
      rw [Slot.view_of_held hown] at hview
      obtain rfl | ⟨rfl, hrequested, _⟩ := hchange
      · exact (h.owner id u _ token (hview ▸ hown) hchanged htoken).rely hrely
      · by_cases hseen : (w.slot (tokenTable kind) id).committed = some seen
        · obtain htoken | htoken := htoken
          · cases hseen.symm.trans htoken
            exact hrequested.rely hrely
          · cases htoken
        · obtain htoken | htoken := htoken
          · exact (h.owner id u _ token (hview ▸ hown) (Ne.symm hseen) (.inl htoken)).rely hrely
          · cases htoken
    · rw [Slot.view_eq_committed hown] at hview
      obtain rfl | ⟨rfl, hrequested, _⟩ := hchange
      · exact absurd hview.symm hchanged
      · obtain htoken | htoken := htoken
        · cases hview.symm.trans htoken
          exact hrequested.rely hrely
        · cases htoken
  · rw [hsame, hsound.beyond _ _ le_rfl] at htoken
    obtain htoken | htoken := htoken
    · cases htoken
    · cases htoken
      exact hnew.2.1.rely hrely

theorem TokenStep.cooled (hstep : TokenStep context kind t w w')
    (h : TokenRequests context kind w) : ∀ u id id' (old new : UserToken),
    (w'.slot (tokenTable kind) id).held = some (u, none) →
    (w'.slot (tokenTable kind) id).committed = some old →
    (w'.slot (tokenTable kind) id').held = some (u, some new) →
    (w'.slot (tokenTable kind) id').committed = none → old.userId = new.userId →
    CooledDown context kind old new := by
  intro u id id' old new hheld hold hheld' hnone howner
  cases hstep.tokens with
  | same hslot =>
      rw [hslot] at hheld hold hheld' hnone
      exact h.cooled u id id' old new hheld hold hheld' hnone howner
  | lock id₀ seen version havailable hview hchange hslot =>
      rw [hslot] at hheld hold hheld' hnone
      -- a row that was only locked is no new one
      have hnew : (w.slot (tokenTable kind) id').held = some (u, some new)
          ∧ (w.slot (tokenTable kind) id').committed = none := by
        by_cases hid' : id' = id₀
        · subst hid'
          rw [Function.update_self] at hheld' hnone
          cases hheld'
          obtain hsame | ⟨hfalse, _⟩ := hchange
          · cases hsame
            by_cases hown : (w.slot (tokenTable kind) id').HeldBy t
            · obtain ⟨own, hown⟩ := hown
              rw [Slot.view_of_held hown] at hview
              exact ⟨hview ▸ hown, hnone⟩
            · rw [Slot.view_eq_committed hown] at hview
              cases hview.symm.trans hnone
          · cases hfalse
        · rw [Function.update_of_ne hid'] at hheld' hnone
          exact ⟨hheld', hnone⟩
      by_cases hid : id = id₀
      · subst hid
        rw [Function.update_self] at hheld hold
        cases hheld
        obtain hfalse | ⟨_, _, hfirst⟩ := hchange
        · cases hfalse
        · exact absurd hnew.2 (hfirst id' new hnew.1)
      · rw [Function.update_of_ne hid] at hheld hold
        exact h.cooled u id id' old new hheld hold hnew.1 hnew.2 howner
  | insert token hnew _ _ _ hslot =>
      rw [hslot] at hheld hold hheld' hnone
      by_cases hid : id = w.next (tokenTable kind)
      · subst hid
        rw [Function.update_self] at hheld
        cases hheld
      · rw [Function.update_of_ne hid] at hheld hold
        by_cases hid' : id' = w.next (tokenTable kind)
        · subst hid'
          rw [Function.update_self] at hheld'
          cases hheld'
          exact hnew.2.2 id old hheld hold howner
        · rw [Function.update_of_ne hid'] at hheld' hnone
          exact h.cooled u id id' old new hheld hold hheld' hnone howner
  | release keep _ hslot =>
      have hsame : ∀ {id version}, (w'.slot (tokenTable kind) id).held = some (u, version) →
          w'.slot (tokenTable kind) id = w.slot (tokenTable kind) id := by
        intro id version hheld
        rw [hslot] at hheld ⊢
        exact (Slot.held_of_release hheld).2
      have heq := hsame hheld
      have heq' := hsame hheld'
      rw [heq] at hheld hold
      rw [heq'] at hheld' hnone
      exact h.cooled u id id' old new hheld hold hheld' hnone howner

/-- **One step.** Every step of a request keeps the tables in order. -/
theorem TokenStep.inv (hstep : TokenStep context kind t w w') (h : TokenRequests context kind w)
    (hsound : w.Sound) : TokenRequests context kind w' := by
  have hother := hstep.others (t + 1) (Nat.succ_ne_self t)
  constructor
  · intro userId
    cases hheld : (w'.slot userTable userId).held with
    | none => rfl
    | some lock =>
        obtain ⟨holder, version⟩ := lock
        obtain ⟨hheld, _⟩ | ⟨_, _, ⟨_, _, hfalse⟩ | ⟨_, _, _, hfalse, _⟩⟩ :=
          hstep.users.held hheld
        · rw [h.users userId] at hheld
          cases hheld
        · exact hfalse.elim
        · exact hfalse.elim
  · exact h.unique.step tokens_clash_symm hsound
      (hstep.tokens.mono (fun _ _ hchange => TokenChange.keepsClashes hchange) fun _ => id)
  · refine h.keyed.step (hstep.tokens.mono (fun _ _ hchange => TokenChange.rekeyed hchange)
      fun _ hnew => hnew.1) hother.drawn_subset fun u => hother.hasCommitted
  · exact hstep.owner h hsound
  · intro id job hversion
    have hnext : w.next (tokenTable kind) ≤ w'.next (tokenTable kind) := hother.next_le _
    have hjob : ∀ {job}, (w.slot jobTable id).HasVersion job →
        ∃ tokenId < w'.next (tokenTable kind), Mails kind tokenId job := by
      intro job hversion
      obtain ⟨tokenId, hlt, hmails⟩ := h.jobs id job hversion
      exact ⟨tokenId, Nat.lt_of_lt_of_le hlt hnext, hmails⟩
    obtain hversion | ⟨old, hversion, heq | heq⟩ | ⟨tokenId, ⟨version, hheld⟩, hmails⟩ :=
      hstep.jobs.hasVersion hversion
    · exact hjob hversion
    · cases heq
      exact hjob hversion
    · cases heq
    · refine ⟨tokenId, Nat.lt_of_lt_of_le ?_ hnext, hmails⟩
      by_contra hle
      rw [hsound.beyond _ _ (Nat.le_of_not_lt hle)] at hheld
      cases hheld
  · exact hstep.cooled h

theorem TokenRequests.quiet (h : TokenRequests context kind w) (hquiet : Quiet w w') :
    TokenRequests context kind w' := by
  have hslot : ∀ T, w'.slot T = w.slot T := fun T => by rw [hquiet.slot]
  have hdone : ∀ u, w.HasCommitted u → w'.HasCommitted u := fun u =>
    (hquiet.others u).hasCommitted
  constructor
  · rw [hslot]
    exact h.users
  · exact ⟨by rw [hslot]; exact h.unique.seen, by rw [hslot]; exact h.unique.pending⟩
  · exact h.keyed.step (t := 0) (.same (hslot _)) (fun e he => hquiet.drawn ▸ he) hdone
  · intro id t version token hheld hchanged htoken
    rw [hslot] at hheld hchanged htoken
    obtain ⟨email, hreq, howned⟩ := h.owner id t version token hheld hchanged htoken
    exact ⟨email, hquiet.request t email hreq, howned.congr fun userId => by rw [hslot]⟩
  · rw [hslot, hquiet.next]
    exact h.jobs
  · rw [hslot]
    exact h.cooled

theorem TokenRely.quiet (hquiet : Quiet w w') : TokenRely kind t w w' where
  request := hquiet.request
  committed u := (hquiet.others u).hasCommitted
  users userId := by rw [hquiet.slot]
  unmailed tokenId hheld := by
    unfold Unmailed
    rw [hquiet.slot]
    exact ⟨hheld, id⟩
  tokens _ _ _ id token htoken _ := by rwa [hquiet.slot] at htoken

variable (context kind) in
theorem tokenStep_rollback (t : Txn) (w : TokenWorld) :
    TokenStep context kind t w (w.finish t false) where
  tokens := tableStep_rollback
  jobs := tableStep_rollback
  users := tableStep_rollback
  others _ hne := others_finish hne false
  request := rfl
  committed _ _ hversion := .inl (Slot.release_false_committed.symm.trans hversion)

theorem Op.exec_tokenStep {β : Type} {op : Op database β} {choice : Choice} {answer : β}
    (hsound : w.Sound) (hexec : op.exec t choice w = some (answer, w'))
    (htokens : op.Within (tokenTable kind) (TokenChange kind t w) (NewToken context kind t w))
    (hjobs : op.Within jobTable JobChange (NewJob kind t w))
    (husers : op.Within userTable (fun _ _ => False) fun _ => False)
    (hopen : ¬ w.HasCommitted t) : TokenStep context kind t w w' where
  tokens := Op.exec_tableStep htokens hexec
  jobs := Op.exec_tableStep hjobs hexec
  users := Op.exec_tableStep husers hexec
  others _ hne := Op.exec_others hsound hexec hne
  request := Op.exec_request hexec
  committed _ _ hversion := ((Op.exec_tableStep htokens hexec).committed hversion).imp_right
    fun h => ⟨h.1, hopen, h.2⟩

end EventsApi
