import EventsApi.Proof.AccountOrigins

/-!
# What transactions know of the rows of an account

Most statements of the requests have no say in where a row comes from. What is left are the tokens
and their messages, the rows of new users, the confirmation of an address and the password. Whoever
writes one of these knows what it needs: from a token found under its hash, or from the row of the
user.
-/

namespace EventsApi

open ReadCommitted

variable {context : Context} {start : UserWorld} {t : Txn} {w w' : UserWorld}

theorem origins_keeps {β : Type} {op : Op database β} {choice : Choice} {answer : β}
    (hsound : w.Sound) (h : Origins context start w)
    (hexec : op.exec t choice w = some (answer, w')) (hlawful : Lawful context start t w w') :
    (origins context start).Keeps t w w' ∧ Later w w' := by
  have hothers := Op.exec_others hsound hexec (Nat.succ_ne_self t)
  have hlater := hlawful.later hothers.next_le hothers.drawn_subset hothers.request
  exact ⟨⟨h.step hsound hlawful hlater hothers.next_le, fun _ _ => hlater⟩, hlater⟩

/-! ### Statements that have no say -/

def KeepsCredentials (user : User) (version : Option User) : Prop :=
  ∀ user', version = some user' → user'.email = user.email
    ∧ user'.passwordHash = user.passwordHash ∧ user'.emailVerifiedAt = user.emailVerifiedAt

structure Neutral (β : Type) (op : Op database β) : Prop where
  users : op.Within userTable KeepsCredentials fun _ => False
  tokens : ∀ kind, op.Within (tokenTable kind) OnlyDeletes fun _ => False
  sessions : op.Within sessionTable KeepsOwner fun _ => False
  jobs : op.Within jobTable OnlyDeletes fun _ => False

theorem KeepsCredentials.change {user : User} {version : Option User}
    (h : KeepsCredentials user version) : UserChange context start w user version := by
  intro user' heq
  obtain ⟨hemail, hpassword, hverified⟩ := h user' heq
  refine ⟨hemail, fun hearned => ⟨?_, fun hconfirmed => ?_⟩⟩
  · rw [hemail, hpassword]
    exact hearned.password
  · rw [hemail]
    exact hearned.confirmed (hverified ▸ hconfirmed)

theorem Neutral.lawful {β : Type} {op : Op database β} {choice : Choice} {answer : β}
    (h : Neutral β op) (hexec : op.exec t choice w = some (answer, w')) :
    Lawful context start t w w' where
  users := (Op.exec_tableStep h.users hexec).mono (fun _ _ => KeepsCredentials.change)
    fun _ => False.elim
  tokens kind := (Op.exec_tableStep (h.tokens kind) hexec).mono (fun _ _ => id) fun _ => False.elim
  sessions := (Op.exec_tableStep h.sessions hexec).mono (fun _ _ => id) fun _ => False.elim
  jobs := (Op.exec_tableStep h.jobs hexec).mono (fun _ _ => id) fun _ => False.elim

section Within

variable {T T' : database.Table} {change : database.Row T → Option (database.Row T) → Prop}
  {new : database.Row T → Prop} (hkeep : ∀ row, change row (some row)) (id : Nat)
  (p : database.Row T' → Bool)

include hkeep

theorem within_keep : (Op.lock T' id p some).Within T change new := by
  intro h row
  subst h
  exact ⟨fun _ => hkeep row, fun _ => hkeep row⟩

theorem within_delete (hdelete : ∀ row, change row none) :
    (Op.lock T' id p fun _ => none).Within T change new := by
  intro h row
  subst h
  exact ⟨fun _ => hdelete row, fun _ => hkeep row⟩

end Within

theorem keepsCredentials_self (user : database.Row userTable) :
    KeepsCredentials user (some user) := by
  rintro _ ⟨⟩
  exact ⟨rfl, rfl, rfl⟩

theorem keepsOwner_self (session : database.Row sessionTable) :
    KeepsOwner session (some session) := by
  rintro _ ⟨⟩
  rfl

theorem onlyDeletes_self {T : database.Table} (row : database.Row T) :
    OnlyDeletes row (some row) :=
  .inl rfl

theorem onlyDeletes_none {T : database.Table} (row : database.Row T) : OnlyDeletes row none :=
  .inr rfl

theorem neutral_delete (T : Table) (id : Nat) (p : T.Row → Bool) :
    Neutral _ (.lock (S := database) T id p fun _ => none) where
  users := within_delete keepsCredentials_self id p fun _ => nofun
  tokens _ := within_delete onlyDeletes_self id p onlyDeletes_none
  sessions := within_delete keepsOwner_self id p fun _ => nofun
  jobs := within_delete onlyDeletes_self id p onlyDeletes_none

theorem neutral_modest : Modest Neutral where
  select _ _ _ := ⟨trivial, fun _ => trivial, trivial, trivial⟩
  keep _ id p := ⟨within_keep keepsCredentials_self id p,
    fun _ => within_keep onlyDeletes_self id p, within_keep keepsOwner_self id p,
    within_keep onlyDeletes_self id p⟩
  delete T id p _ := neutral_delete T id p
  now := ⟨trivial, fun _ => trivial, trivial, trivial⟩
  draw := ⟨trivial, fun _ => trivial, trivial, trivial⟩

theorem neutral_finding : Finding Neutral := fun _ => ⟨trivial, fun _ => trivial, trivial, trivial⟩

theorem neutral_commit : Neutral _ (.commit (S := database)) :=
  ⟨trivial, fun _ => trivial, trivial, trivial⟩

/-- An update of a user that leaves the credentials alone. -/
theorem neutral_updateUser (id : Nat) (p : User → Bool) {f : User → User}
    (hf : ∀ user, (f user).email = user.email ∧ (f user).passwordHash = user.passwordHash
      ∧ (f user).emailVerifiedAt = user.emailVerifiedAt) :
    Neutral _ (.lock (S := database) .users id p fun user => some (f user)) where
  users := by
    intro h row
    cases h
    refine ⟨fun _ => ?_, fun _ => keepsCredentials_self row⟩
    rintro _ ⟨⟩
    exact hf row
  tokens _ := nofun
  sessions := nofun
  jobs := nofun

theorem neutral_updateSession (id : Nat) (p : RefreshTokenSession → Bool)
    {f : RefreshTokenSession → RefreshTokenSession} (hf : ∀ session,
      (f session).userId = session.userId) :
    Neutral _ (.lock (S := database) .refreshTokenSessions id p fun session => some (f session)) where
  users := nofun
  tokens _ := nofun
  sessions := by
    intro h row
    cases h
    refine ⟨fun _ => ?_, fun _ => keepsOwner_self row⟩
    rintro _ ⟨⟩
    exact hf row
  jobs := nofun

theorem neutral_revoking : RevokingSessions Neutral := fun id p _ =>
  neutral_updateSession id p fun _ => rfl

theorem neutral_favorites : ChangingFavorites Neutral := fun id p _ _ =>
  neutral_updateUser id p fun _ => ⟨rfl, rfl, rfl⟩

/-! ### What a transaction knows -/

/-- What is true of the rows of accounts for good, once it is true. -/
def Lasts (J : UserWorld → Prop) : Prop := ∀ {w w'}, J w → Later w w' → J w'

theorem Lasts.stable {J : UserWorld → Prop} (h : Lasts J) : (origins context start).Stable t J :=
  fun hJ hw => h hJ hw.rely

theorem lasts_true : Lasts fun _ => True := fun _ _ => trivial

theorem lasts_addressed {address : String} {userId : Nat} : Lasts (Addressed address userId) :=
  fun h hlater => hlater.address _ _ h

/-- A program that has no say keeps the origins, and what its transaction knows. -/
theorem safe_neutral {α : Type} {p : Db α} {J : UserWorld → Prop} (hlasts : Lasts J)
    (hall : p.All Neutral) (h : J w) : (origins context start).Safe t (fun _ => J) p w := by
  refine .of_all hlasts.stable (fun hop h hsound hinv _ hexec => ?_) hall h
  obtain ⟨hkeeps, hlater⟩ := origins_keeps hsound hinv hexec (Neutral.lawful hop hexec)
  exact ⟨hkeeps, hlasts h hlater⟩

theorem safe_neutral_bind {α β : Type} {p : Db α} {next : α → Db β} {J : UserWorld → Prop}
    (hlasts : Lasts J) (hall : p.All Neutral) (h : J w)
    (hnext : ∀ value w, J w → (origins context start).Safe t (fun _ _ => True) (next value) w) :
    (origins context start).Safe t (fun _ _ => True) (p.bind next) w :=
  (safe_neutral hlasts hall h).bind hnext fun _ _ _ => trivial

theorem neutral_now : (Prog.now : Db Int).All Neutral := ⟨neutral_modest.now, fun _ => trivial⟩

theorem neutral_draw : (Prog.draw : Db String).All Neutral := ⟨neutral_modest.draw, fun _ => trivial⟩

/-- The row was read, and was earned. -/
def Known (context : Context) (start : UserWorld) (userId : Nat) (user : User) (w : UserWorld) :
    Prop :=
  Addressed user.email userId w ∧ Earned context start w user

theorem lasts_known {userId : Nat} {user : User} : Lasts (Known context start userId user) :=
  fun h hlater => ⟨hlater.address _ _ h.1, h.2.later hlater⟩

theorem safe_find {J : UserWorld → Prop} (hlasts : Lasts J) (p : Nat → User → Bool) (h : J w) :
    (origins context start).Safe t
      (Discipline.OnSuccess fun found w => J w ∧ ∀ e : Nat × User, found = some e →
        p e.1 e.2 = true ∧ Known context start e.1 e.2 w)
      (Prog.scalar (S := database) .users p : Db _) w := by
  refine Discipline.Safe.exec (K := fun (rows : List (Nat × User)) w => J w ∧ ∀ e,
    rows.head? = some e → p e.1 e.2 = true ∧ Known context start e.1 e.2 w) hlasts.stable h ?_
    fun rows w h => h
  intro w choice rows w' h hsound hinv _ hexec
  obtain ⟨hkeeps, hlater⟩ := origins_keeps hsound hinv hexec ((neutral_finding p).lawful hexec)
  refine ⟨hkeeps, hlasts h hlater, fun e hhead => ?_⟩
  obtain ⟨_, _, hrows⟩ := exec_select hexec
  obtain ⟨hlt, hview, hp⟩ := (hrows e.1 e.2).mp (List.mem_of_mem_head? hhead)
  have hversion := Slot.hasVersion_of_view hview
  have haddress : Addressed e.2.email e.1 w :=
    ⟨hlt, fun user huser => hinv.address _ _ _ huser hversion⟩
  exact ⟨hp, hlater.address _ _ haddress, (hinv.users _ _ hversion).later hlater⟩

/-! ### A token and its message -/

theorem tableStep_insert {T T' : database.Table} {row : Nat → database.Row T'}
    {change : database.Row T → Option (database.Row T) → Prop} {new : database.Row T → Prop}
    {choice : Choice} {answer : Option Nat}
    (hexec : (Op.insert T' row).exec t choice w = some (answer, w'))
    (hnew : ∀ (h : T' = T) (id : Nat), new (h ▸ row id)) : TableStep t T change new w w' := by
  have hwithin : (Op.insert T' row).Within T change new := hnew
  exact Op.exec_tableStep hwithin hexec

/-- The transaction has made the token and holds its row. -/
def HasMade (kind : TokenKind) (tokenId userId : Nat) (tokenHash : String) (t : Txn)
    (w : UserWorld) : Prop :=
  (w.slot (tokenTable kind) tokenId).committed = none
    ∧ ∃ token : UserToken, (w.slot (tokenTable kind) tokenId).held = some (t, some token)
      ∧ token.userId = userId ∧ token.tokenHash = tokenHash

theorem HasMade.stable {kind : TokenKind} {tokenId userId : Nat} {tokenHash : String} :
    (origins context start).Stable t (HasMade kind tokenId userId tokenHash t) := by
  rintro w w' ⟨hnone, token, hheld, htoken⟩ hw
  rw [HasMade, hw.others.mine _ _ _ hheld]
  exact ⟨hnone, token, hheld, htoken⟩

theorem HasMade.version {kind : TokenKind} {tokenId userId : Nat} {tokenHash : String}
    (h : HasMade kind tokenId userId tokenHash t w) {token : UserToken}
    (hversion : (w.slot (tokenTable kind) tokenId).HasVersion token) :
    token.userId = userId ∧ token.tokenHash = tokenHash := by
  obtain ⟨hnone, made, hheld, hmade⟩ := h
  obtain hcommitted | ⟨_, hversion⟩ := hversion
  · cases hnone.symm.trans hcommitted
  · cases hheld.symm.trans hversion
    exact hmade

/-- What a transaction must know to make a token for a user. -/
def MayIssue (kind : TokenKind) (userId : Nat) (address rawToken : String) (w : UserWorld) : Prop :=
  Addressed address userId w ∧ IssuedTo kind rawToken address w

theorem lasts_mayIssue {kind : TokenKind} {userId : Nat} {address rawToken : String} :
    Lasts (MayIssue kind userId address rawToken) :=
  fun h hlater => ⟨hlater.address _ _ h.1, h.2.later hlater⟩

theorem safe_replace {kind : TokenKind} {userId : Nat} {address rawToken : String}
    {expiresAt startedAt : Int} (h : MayIssue kind userId address rawToken w) :
    (origins context start).Safe t (Discipline.OnSuccess fun tokenId w =>
      Addressed address userId w ∧ HasMade kind tokenId userId (context.crypto.sha256 rawToken) t w)
      (UserTokens.replace kind userId (context.crypto.sha256 rawToken) expiresAt startedAt) w := by
  refine (safe_neutral lasts_mayIssue (neutral_modest.deleteForUser kind userId) h).bind
    (fun _ w h => ?_) fun _ _ _ => trivial
  refine Discipline.Safe.exec (K := fun answer w => ∀ tokenId, answer = some tokenId →
    Addressed address userId w ∧ HasMade kind tokenId userId (context.crypto.sha256 rawToken) t w)
    lasts_mayIssue.stable h ?_ fun answer w h => ?_
  · intro w choice answer w' h hsound hinv _ hexec
    have hlawful : Lawful context start t w w' := by
      refine ⟨?_, fun kind' => ?_, ?_, ?_⟩
      · exact .same (exec_insert_slot_of_table_ne hexec nofun)
      · refine tableStep_insert hexec fun heq id => ?_
        cases heq
        exact ⟨rawToken, address, rfl, h.2, h.1⟩
      · exact .same (exec_insert_slot_of_table_ne hexec nofun)
      · exact .same (exec_insert_slot_of_table_ne hexec nofun)
    obtain ⟨hkeeps, hlater⟩ := origins_keeps hsound hinv hexec hlawful
    refine ⟨hkeeps, ?_⟩
    rintro tokenId rfl
    obtain ⟨rfl, hslot⟩ := exec_insert_slot hexec
    refine ⟨hlater.address _ _ h.1, ?_⟩
    rw [HasMade, hslot, Function.update_self, hsound.beyond (tokenTable kind) _ le_rfl]
    exact ⟨rfl, _, rfl, rfl, rfl⟩
  · cases answer with
    | none => trivial
    | some tokenId => exact h tokenId rfl

/-- The token that a job of one kind is linked to in the column of another. -/
def TokenKind.link (kind kind' : TokenKind) (tokenId : Nat) : Option Nat :=
  if kind = kind' then some tokenId else none

theorem linkedJob_newJob {kind kind' : TokenKind} {id tokenId tokenId' : Nat}
    {message : EmailMessage} {key : String} {now : Int}
    (h : UserTokens.linkedJob kind' tokenId' (EmailOutbox.newJob id message key now
      (kind.link .confirmation tokenId) (kind.link .passwordReset tokenId)) = true) :
    kind' = kind ∧ tokenId' = tokenId := by
  cases kind <;> cases kind' <;> simp_all [UserTokens.linkedJob, EmailOutbox.newJob,
    EmailOutbox.linkedToConfirmationToken, EmailOutbox.linkedToPasswordResetToken, TokenKind.link]

/-- **The message.** A job that carries the token that the transaction has just made is in order. -/
theorem safe_enqueueJob {kind : TokenKind} {user : User} {rawToken : String} {tokenId userId : Nat}
    {now : Int} (h : Addressed user.email userId w
      ∧ HasMade kind tokenId userId (context.crypto.sha256 rawToken) t w) :
    (origins context start).Safe t (fun _ _ => True)
      (EmailOutbox.enqueueJob (kind.email context user rawToken tokenId now) now
        (kind.link .confirmation tokenId) (kind.link .passwordReset tokenId)) w := by
  obtain ⟨key, hkey⟩ : ∃ key,
      (kind.email context user rawToken tokenId now).idempotencyKey = some key := by
    cases kind <;> exact ⟨_, rfl⟩
  have haddress : (kind.email context user rawToken tokenId now).toAddress = user.email := by
    cases kind <;> rfl
  have hmessage : ∀ id, (EmailOutbox.newJob id (kind.email context user rawToken tokenId now) key
      now (kind.link .confirmation tokenId) (kind.link .passwordReset tokenId)).message
        = kind.email context user rawToken tokenId now := by
    intro id
    cases kind <;> (cases hkey; rfl)
  unfold EmailOutbox.enqueueJob
  rw [hkey]
  refine Discipline.Safe.exec (J := fun w => Addressed user.email userId w
    ∧ HasMade kind tokenId userId (context.crypto.sha256 rawToken) t w) (K := fun _ _ => True)
    (fun h hw => ⟨lasts_addressed.stable h.1 hw, HasMade.stable h.2 hw⟩) h ?_
    fun answer w _ => by cases answer <;> trivial
  rintro w choice answer w' ⟨haddressed, hmade⟩ hsound hinv _ hexec
  refine ⟨(origins_keeps hsound hinv hexec ⟨?_, fun kind' => ?_, ?_, ?_⟩).1, trivial⟩
  · exact .same (exec_insert_slot_of_table_ne hexec nofun)
  · exact .same (exec_insert_slot_of_table_ne hexec nofun)
  · exact .same (exec_insert_slot_of_table_ne hexec nofun)
  · refine tableStep_insert hexec fun _ id kind' tokenId' hlinked => ?_
    obtain ⟨rfl, rfl⟩ := linkedJob_newJob hlinked
    refine ⟨hsound.lt_next fun hempty => ?_, fun token hversion => ?_⟩
    · obtain ⟨_, token, hheld, _⟩ := hmade
      rw [hempty] at hheld
      cases hheld
    · obtain ⟨howner, hhash⟩ := hmade.version hversion
      refine ⟨⟨user, rawToken, now, hmessage id, hhash⟩, ?_⟩
      rw [← haddress] at haddressed
      rw [howner]
      exact haddressed

/-- The token is made, and its message queued. -/
theorem safe_issue {α : Type} {kind : TokenKind} {user : User} {rawToken : String} {userId : Nat}
    {expiresAt startedAt now : Int} {rest : Db α} (hrest : rest.All Neutral)
    (h : MayIssue kind userId user.email rawToken w) :
    (origins context start).Safe t (fun _ _ => True)
      ((UserTokens.replace kind userId (context.crypto.sha256 rawToken) expiresAt startedAt).bind
        fun tokenId => (EmailOutbox.enqueueJob (kind.email context user rawToken tokenId now) now
          (kind.link .confirmation tokenId) (kind.link .passwordReset tokenId)).bind
            fun _ => rest) w := by
  refine (safe_replace h).bind_onSuccess (fun _ _ h => ?_) fun _ _ => trivial
  refine (safe_enqueueJob h).bind (fun _ w _ => ?_) fun _ _ _ => trivial
  exact safe_neutral lasts_true hrest trivial

/-- The transaction serves a request for a token of this kind for this address. -/
def Asking (kind : TokenKind) (address : String) (t : Txn) (w : UserWorld) : Prop :=
  ∃ request, w.request t = some request ∧ AsksToken kind address request

theorem lasts_asking {kind : TokenKind} {address : String} : Lasts (Asking kind address t) := by
  rintro w w' ⟨request, hrequest, hasks⟩ hlater
  exact ⟨request, hlater.request _ _ hrequest, hasks⟩

/-- What the transaction draws is a token for the address. -/
theorem safe_draw {kind : TokenKind} {address : String} {J : UserWorld → Prop} (hlasts : Lasts J)
    (h : J w) (hasking : Asking kind address t w) : (origins context start).Safe t
      (Discipline.OnSuccess fun rawToken w => J w ∧ IssuedTo kind rawToken address w)
      (Prog.draw : Db String) w := by
  refine Discipline.Safe.exec (J := fun w => J w ∧ Asking kind address t w)
    (K := fun rawToken w => J w ∧ IssuedTo kind rawToken address w)
    (fun h hw => ⟨hlasts.stable h.1 hw, lasts_asking.stable h.2 hw⟩) ⟨h, hasking⟩ ?_
    fun rawToken w h => h
  rintro w choice rawToken w' ⟨h, request, hrequest, hasks⟩ hsound hinv _ hexec
  obtain ⟨hkeeps, hlater⟩ := origins_keeps hsound hinv hexec (neutral_modest.draw.lawful hexec)
  refine ⟨hkeeps, hlasts h hlater, t, request, ?_, hlater.request _ _ hrequest, hasks⟩
  obtain ⟨_, rfl⟩ := exec_draw hexec
  exact List.mem_cons_self

theorem safe_sendToken {kind : TokenKind} {cooldown expiresIn : Duration} {message : String}
    {userId : Nat} {user : User} {startedAt : Int} (h : Addressed user.email userId w)
    (hasking : Asking kind user.email t w) :
    (origins context start).Safe t (fun _ _ => True)
      (sendToken context kind cooldown expiresIn (kind.email context) message userId user
        startedAt) w := by
  have hlasts : Lasts fun w => Addressed user.email userId w ∧ Asking kind user.email t w :=
    fun h hlater => ⟨lasts_addressed h.1 hlater, lasts_asking h.2 hlater⟩
  have hexisting : (UserTokens.getForUser kind userId).All Neutral :=
    Prog.All.scalar (neutral_modest.select (.tokens kind) _ nofun)
  refine safe_neutral_bind hlasts neutral_now ⟨h, hasking⟩ fun now w h => ?_
  refine safe_neutral_bind hlasts hexisting h fun existing w h => ?_
  split
  · trivial
  · have hrest : ((Prog.commit : Db Unit).bind fun _ => Prog.pure message).All Neutral :=
      ⟨neutral_commit, fun _ => trivial⟩
    exact (safe_draw lasts_addressed h.1 h.2).bind_onSuccess
      (fun rawToken w h => safe_issue hrest h) fun _ _ => trivial

/-! ### The rows of users -/

/-- A lock, seen from a table, with what is known of the row that it finds. -/
theorem tableStep_lock {T T' : database.Table} {id : Nat} {p : database.Row T' → Bool}
    {f : database.Row T' → Option (database.Row T')}
    {change : database.Row T → Option (database.Row T) → Prop} {new : database.Row T → Prop}
    {choice : Choice} {found : Option (database.Row T')}
    (hexec : (Op.lock T' id p f).exec t choice w = some (found, w'))
    (hchange : ∀ (h : T' = T) (row : database.Row T'), (w.slot T' id).view t = some row →
      change (h ▸ row) (h ▸ f row) ∧ change (h ▸ row) (some (h ▸ row))) :
    TableStep t T change new w w' := by
  by_cases hT : T' = T
  · subst hT
    obtain ⟨_, _, hslot⟩ | ⟨row, version, hview, hslot, hlocked⟩ := exec_lock_slot hexec
    · exact .same hslot
    · obtain ⟨havailable, _⟩ := exec_lock hexec
      refine .lock id row version havailable hview ?_ hslot
      obtain ⟨_, _, rfl⟩ | ⟨_, _, rfl⟩ := hlocked
      · exact (hchange rfl row hview).1
      · exact (hchange rfl row hview).2
  · exact .same (exec_lock_slot_of_table_ne hexec hT)

/-- An update of a user whose address is known. -/
theorem safe_updateUser {J : UserWorld → Prop} (hlasts : Lasts J) {userId : Nat} {address : String}
    {f : User → User} (haddress : ∀ w, J w → Addressed address userId w)
    (hf : ∀ w user, J w → user.email = address → Earned context start w user →
      (f user).email = user.email ∧ Earned context start w (f user)) (h : J w) :
    (origins context start).Safe t (fun _ => J) (updateRow .users userId f) w := by
  refine Discipline.Safe.exec (K := fun _ => J) hlasts.stable h ?_ fun answer w h => by
    cases answer <;> exact h
  intro w choice found w' h hsound hinv _ hexec
  refine (origins_keeps hsound hinv hexec ⟨tableStep_lock hexec fun _ user hview => ?_,
    fun kind => ?_, ?_, ?_⟩).imp_right (hlasts h)
  · have hversion := Slot.hasVersion_of_view hview
    have hemail := (haddress w h).2 user hversion
    constructor
    · rintro _ ⟨⟩
      exact (hf w user h hemail (hinv.users _ _ hversion)).imp_right fun hearned _ => hearned
    · rintro _ ⟨⟩
      exact ⟨rfl, id⟩
  · exact .same (exec_lock_slot_of_table_ne hexec nofun)
  · exact .same (exec_lock_slot_of_table_ne hexec nofun)
  · exact .same (exec_lock_slot_of_table_ne hexec nofun)

/-- The user is new, and nobody but the transaction knows the row. -/
theorem safe_insertUser {J : UserWorld → Prop} (hlasts : Lasts J) {user : User}
    (hearned : ∀ w, J w → Earned context start w user) (h : J w) : (origins context start).Safe t
    (Discipline.OnSuccess fun userId w => J w ∧ Addressed user.email userId w)
      (insertRow .users fun _ => user) w := by
  refine Discipline.Safe.exec (K := fun answer w => ∀ userId, answer = some userId → J w
    ∧ Addressed user.email userId w) hlasts.stable h ?_ fun answer w h => ?_
  · intro w choice answer w' h hsound hinv _ hexec
    have hlawful : Lawful context start t w w' := by
      refine ⟨tableStep_insert hexec fun _ _ => hearned w h, fun kind => ?_, ?_, ?_⟩
      · exact .same (exec_insert_slot_of_table_ne hexec nofun)
      · exact .same (exec_insert_slot_of_table_ne hexec nofun)
      · exact .same (exec_insert_slot_of_table_ne hexec nofun)
    obtain ⟨hkeeps, hlater⟩ := origins_keeps hsound hinv hexec hlawful
    refine ⟨hkeeps, ?_⟩
    rintro userId rfl
    obtain ⟨rfl, hslot⟩ := exec_insert_slot hexec
    refine ⟨hlasts h hlater, ?_, fun found hversion => ?_⟩
    · obtain ⟨_, ⟨_, hnone, _⟩ | ⟨_, _, rfl⟩⟩ := exec_insert hexec
      · cases hnone
      · change _ < Function.update w.next userTable (w.next userTable + 1) userTable
        rw [Function.update_self]
        exact Nat.lt_succ_self _
    · rw [hslot, Function.update_self, hsound.beyond userTable _ le_rfl] at hversion
      obtain hversion | ⟨_, hversion⟩ := hversion <;> cases hversion
      rfl
  · cases answer with
    | none => trivial
    | some userId => exact h userId rfl

/-- What a transaction must know to set the password of a user. -/
def MaySet (context : Context) (start : UserWorld) (userId : Nat) (passwordHash : String)
    (w : UserWorld) : Prop :=
  ∃ address, Addressed address userId w ∧ PasswordOf context start w address passwordHash

theorem safe_storePassword {userId : Nat} {passwordHash : String} {now startedAt : Int}
    (h : MaySet context start userId passwordHash w) :
    (origins context start).Safe t (fun _ _ => True)
      (storePassword userId passwordHash now startedAt) w := by
  obtain ⟨address, haddress, hpassword⟩ := h
  have hlasts : Lasts fun w => Addressed address userId w
      ∧ PasswordOf context start w address passwordHash :=
    fun h hlater => ⟨hlater.address _ _ h.1, h.2.later hlater⟩
  refine (safe_updateUser hlasts (fun w h => h.1) (fun w user h hemail hearned => ?_)
    ⟨haddress, hpassword⟩).bind (fun _ w _ => ?_) fun _ _ _ => trivial
  · exact ⟨rfl, ⟨hemail ▸ h.2, hearned.confirmed⟩⟩
  · refine safe_neutral_bind lasts_true (neutral_modest.deleteForUser .passwordReset userId) trivial
      fun _ w _ => ?_
    refine safe_neutral_bind lasts_true (neutral_modest.revokeForUser neutral_revoking userId now)
      trivial fun _ w _ => ?_
    exact safe_neutral lasts_true (p := Prog.commit) ⟨neutral_commit, fun _ => trivial⟩ trivial

/-! ### Tokens that are shown -/

/-- The token was made for the address of the user. -/
def Shown (kind : TokenKind) (rawToken : String) (userId : Nat) (w : UserWorld) : Prop :=
  ∃ address, IssuedTo kind rawToken address w ∧ Addressed address userId w

theorem lasts_shown {kind : TokenKind} {rawToken : String} {userId : Nat} :
    Lasts (Shown kind rawToken userId) := by
  rintro w w' ⟨address, hissued, haddress⟩ hlater
  exact ⟨address, hissued.later hlater, hlater.address _ _ haddress⟩

theorem Issued.shown {kind : TokenKind} {rawToken : String} {token : UserToken}
    (h : Issued context kind w token) (hhash : token.tokenHash = context.crypto.sha256 rawToken) :
    Shown kind rawToken token.userId w := by
  obtain ⟨raw, address, hraw, hissued, haddress⟩ := h
  obtain rfl := context.crypto.sha256_injective (hraw.symm.trans hhash)
  exact ⟨address, hissued, haddress⟩

/-- What is found under the hash of a token was made for that token. -/
theorem safe_getForUpdate {kind : TokenKind} {rawToken : String} :
    (origins context start).Safe t (Discipline.OnSuccess fun found w => ∀ e : Nat × UserToken,
      found = some e → Shown kind rawToken e.2.userId w)
      (UserTokens.getForUpdate kind (context.crypto.sha256 rawToken)) w := by
  have hselect := neutral_modest.select (.tokens kind)
    (fun _ (token : UserToken) => token.tokenHash == context.crypto.sha256 rawToken) nofun
  have hlasts : ∀ rows : List (Nat × database.Row (tokenTable kind)),
      Lasts fun w => ∀ e ∈ rows, Shown kind rawToken (UserToken.userId e.2) w :=
    fun rows _ _ h hlater e he => lasts_shown (h e he) hlater
  refine Discipline.Safe.bind (Q := fun r w => ∃ rows : List (Nat × UserToken), r = .ok rows
    ∧ ∀ e ∈ rows, Shown kind rawToken e.2.userId w) ?_ ?_ ?_
  · refine Discipline.Safe.exec (J := fun _ => True) (K := fun _ _ => True) lasts_true.stable trivial
      (fun _ hsound hinv _ hexec => ⟨(origins_keeps hsound hinv hexec (hselect.lawful hexec)).1,
        trivial⟩) fun selected w _ => ?_
    refine (Discipline.Safe.lockEach (T := tokenTable kind) (J := fun _ rows w => ∀ e ∈ rows,
      Shown kind rawToken (UserToken.userId e.2) w) (fun _ rows => Lasts.stable (hlasts rows)) ?_ []
      (by simp)).mono fun r w h => ?_
    · intro id ids rows w choice found w' h hsound hinv _ hexec
      obtain ⟨hkeeps, hlater⟩ := origins_keeps hsound hinv hexec
        ((neutral_modest.keep (.tokens kind) id _).lawful hexec)
      refine ⟨hkeeps, fun e he => ?_⟩
      obtain he | he := List.mem_append.mp he
      · exact lasts_shown (h e he) hlater
      · obtain ⟨token, hfound, rfl⟩ := Option.map_eq_some_iff.mp (Option.mem_toList.mp he)
        obtain ⟨_, hnone, _⟩ | ⟨row, _, hview, _, ⟨hmatch, hrow, _⟩ | ⟨_, hnone, _⟩⟩ :=
          exec_lock_slot hexec
        · cases hnone.symm.trans hfound
        · cases hrow.symm.trans hfound
          have hissued := hinv.tokens kind id token (Slot.hasVersion_of_view hview)
          exact lasts_shown (hissued.shown (beq_iff_eq.mp hmatch)) hlater
        · cases hnone.symm.trans hfound
    · obtain ⟨rows, rfl, hrows⟩ := h
      exact ⟨rows, rfl, hrows⟩
  · rintro rows w ⟨_, ⟨⟩, hrows⟩
    exact fun e hhead => hrows e (List.mem_of_mem_head? hhead)
  · rintro error w ⟨_, ⟨⟩, _⟩

end EventsApi
