import EventsApi.Proof.CurrentUser

/-!
# The history of the marketing consents

Requests are served one after the other. Each channel of a user keeps the value that was supplied
last, and the time of the last request that changed it. All other requests of the service leave the
four columns as they are.
-/

namespace EventsApi

open ReadCommitted

/-! ### One channel -/

inductive Channel where
  | email
  | push
  deriving DecidableEq

def User.consent (user : User) : Channel → Bool
  | .email => user.marketingEmailConsent
  | .push => user.marketingPushConsent

def User.consentUpdatedAt (user : User) : Channel → Option Int
  | .email => user.marketingEmailConsentUpdatedAt
  | .push => user.marketingPushConsentUpdatedAt

def MarketingConsentsResponse.consent (columns : MarketingConsentsResponse) : Channel → Bool
  | .email => columns.marketingEmailConsent
  | .push => columns.marketingPushConsent

def MarketingConsentsResponse.consentUpdatedAt (columns : MarketingConsentsResponse) :
    Channel → Option Int
  | .email => columns.marketingEmailConsentUpdatedAt
  | .push => columns.marketingPushConsentUpdatedAt

theorem User.consent_ofUser (user : User) (channel : Channel) :
    user.consent channel = (MarketingConsentsResponse.ofUser user).consent channel := by
  cases channel <;> rfl

theorem User.consentUpdatedAt_ofUser (user : User) (channel : Channel) :
    user.consentUpdatedAt channel
      = (MarketingConsentsResponse.ofUser user).consentUpdatedAt channel := by
  cases channel <;> rfl

def RegisterRequest.consent (payload : RegisterRequest) : Channel → Bool
  | .email => payload.marketingEmailConsent
  | .push => payload.marketingPushConsent

def MarketingConsentsUpdateRequest.consent (payload : MarketingConsentsUpdateRequest) :
    Channel → Option Bool
  | .email => payload.marketingEmailConsent
  | .push => payload.marketingPushConsent

/-- The value that was supplied last. The updates are the latest first. -/
def lastSupplied (registered : Bool) (updates : List (Int × Option Bool)) : Bool :=
  (updates.filterMap (·.2)).head?.getD registered

/-- When a value was supplied that differed from the one before. -/
def changeTimes (registered : Bool) : List (Int × Option Bool) → List Int
  | [] => []
  | (time, value) :: earlier =>
      if value.any (· != lastSupplied registered earlier) then
        time :: changeTimes registered earlier
      else changeTimes registered earlier

/-- The columns of a channel are what the updates since the registration make of them. -/
structure Recorded (registered : Bool) (registeredAt : Int) (updates : List (Int × Option Bool))
    (consent : Bool) (updatedAt : Option Int) : Prop where
  consent : consent = lastSupplied registered updates
  updatedAt : updatedAt = some ((changeTimes registered updates).head?.getD registeredAt)

theorem lastSupplied_cons (registered : Bool) (time : Int) (value : Option Bool)
    (earlier : List (Int × Option Bool)) : lastSupplied registered ((time, value) :: earlier)
      = value.getD (lastSupplied registered earlier) := by
  cases value <;> rfl

theorem recorded_registration (registered : Bool) (registeredAt : Int) :
    Recorded registered registeredAt [] registered (some registeredAt) :=
  ⟨rfl, rfl⟩

/-- **One update.** What the code writes for a channel is what the history asks for. -/
theorem Recorded.update {registered consent : Bool} {registeredAt : Int}
    {updates : List (Int × Option Bool)} {updatedAt : Option Int}
    (h : Recorded registered registeredAt updates consent updatedAt) (time : Int)
    (value : Option Bool) : Recorded registered registeredAt ((time, value) :: updates)
      ((value.filter (· != consent)).getD consent)
      (if (value.filter (· != consent)).isSome then some time else updatedAt) := by
  obtain ⟨rfl, rfl⟩ := h
  constructor
  · rw [lastSupplied_cons]
    cases value with
    | none => rfl
    | some new => cases new <;> cases lastSupplied registered updates <;> rfl
  · rw [changeTimes]
    cases value with
    | none => rfl
    | some new =>
        rw [Option.filter_some, Option.any_some]
        split <;> rfl

/-- The times and values of one channel. -/
def onChannel (channel : Channel) (updates : List (Int × MarketingConsentsUpdateRequest)) :
    List (Int × Option Bool) :=
  updates.map fun update => (update.1, update.2.consent channel)

/-- The four columns of the user are what the updates make of them. -/
def RecordedBy (payload : RegisterRequest) (registeredAt : Int)
    (updates : List (Int × MarketingConsentsUpdateRequest)) (user : User) : Prop :=
  ∀ channel, Recorded (payload.consent channel) registeredAt (onChannel channel updates)
    (user.consent channel) (user.consentUpdatedAt channel)

/-- The row that an update leaves of a user. -/
def updatedUser (payload : MarketingConsentsUpdateRequest) (now : Int) (user : User) : User :=
  let values := Users.changedConsents user payload.marketingEmailConsent
    payload.marketingPushConsent
  if values.1.isSome ∨ values.2.isSome then Users.setConsents values now now user else user

/-- What the update does to one channel: nothing unless it supplies another value. -/
theorem updatedUser_channel (payload : MarketingConsentsUpdateRequest) (now : Int) (user : User)
    (channel : Channel) :
    (updatedUser payload now user).consent channel
        = ((payload.consent channel).filter (· != user.consent channel)).getD (user.consent channel)
      ∧ (updatedUser payload now user).consentUpdatedAt channel
        = if ((payload.consent channel).filter (· != user.consent channel)).isSome then some now
          else user.consentUpdatedAt channel := by
  unfold updatedUser
  dsimp only
  split
  · cases channel <;> exact ⟨rfl, rfl⟩
  · rename_i hnone
    obtain ⟨hemail, hpush⟩ := not_or.mp hnone
    have hkept : ∀ {values : Option Bool} {consent : Bool} {updatedAt : Option Int},
        ¬ values.isSome = true → consent = values.getD consent
          ∧ updatedAt = if values.isSome then some now else updatedAt := by
      intro values consent updatedAt h
      cases values with
      | none => exact ⟨rfl, rfl⟩
      | some value => exact absurd rfl h
    cases channel with
    | email => exact hkept hemail
    | push => exact hkept hpush

theorem RecordedBy.update {payload : RegisterRequest} {registeredAt : Int}
    {updates : List (Int × MarketingConsentsUpdateRequest)} {user : User}
    (h : RecordedBy payload registeredAt updates user) (time : Int)
    (update : MarketingConsentsUpdateRequest) :
    RecordedBy payload registeredAt ((time, update) :: updates) (updatedUser update time user) := by
  intro channel
  obtain ⟨hconsent, hupdatedAt⟩ := updatedUser_channel update time user channel
  rw [hconsent, hupdatedAt]
  exact (h channel).update time _

/-- An update that was made already is none. -/
theorem changedConsents_updatedUser (payload : MarketingConsentsUpdateRequest) (now : Int)
    (user : User) : Users.changedConsents (updatedUser payload now user)
      payload.marketingEmailConsent payload.marketingPushConsent = (none, none) := by
  have hdone : ∀ (value : Option Bool) (consent : Bool),
      value.filter (· != (value.filter (· != consent)).getD consent) = none := by
    intro value consent
    cases value with
    | none => rfl
    | some new => cases new <;> cases consent <;> rfl
  have hchannel (channel : Channel) : (payload.consent channel).filter
      (· != (updatedUser payload now user).consent channel) = none := by
    rw [(updatedUser_channel payload now user channel).1]
    exact hdone _ _
  exact Prod.ext (hchannel .email) (hchannel .push)

/-! ### What leaves the columns alone -/

/-- The user is still there, with the same four columns. -/
def KeepsColumns (user : database.Row userTable) (version : Option (database.Row userTable)) :
    Prop :=
  ∃ user', version = some user'
    ∧ MarketingConsentsResponse.ofUser user' = MarketingConsentsResponse.ofUser user

/-- A change of the user's row leaves the four columns as they are. -/
def Spares (userId : Nat) : (β : Type) → Op database β → Prop
  | _, .lock T id p f => ∀ h : T = userTable, id = userId → ∀ row, p row = true →
      KeepsColumns (h ▸ row) (h ▸ f row)
  | _, _ => True

/-- Nobody is at work on the row of the user, which has these columns. -/
structure AtRest (userId : Nat) (columns : MarketingConsentsResponse) (w : UserWorld) : Prop where
  sound : w.Sound
  slot : ∃ user : User, w.slot userTable userId = ⟨some user, none⟩ ∧ .ofUser user = columns

/-- Nobody but the transaction is, and each version has them. -/
structure Spared (userId : Nat) (columns : MarketingConsentsResponse) (t : Txn) (w : UserWorld) :
    Prop where
  sound : w.Sound
  committed : ∃ user : User, (w.slot userTable userId).committed = some user
    ∧ .ofUser user = columns
  held : ∀ u version, (w.slot userTable userId).held = some (u, version) →
    u = t ∧ ∃ user : User, version = some user ∧ .ofUser user = columns

variable {context : Context} {legalPages : List LegalPage} {eventIds : List Int} {userId : Nat}
  {columns : MarketingConsentsResponse} {t : Txn} {w w' : UserWorld} {β : Type}
  {op : Op database β} {choice : Choice} {answer : β}

theorem slot_eq {ρ : Type} {s : Slot ρ} {version : Option ρ} {held : Option (Txn × Option ρ)}
    (hcommitted : s.committed = version) (hheld : s.held = held) : s = ⟨version, held⟩ := by
  rw [← hcommitted, ← hheld]

theorem AtRest.keeping (h : AtRest userId columns w) (t : Txn) : Spared userId columns t w := by
  obtain ⟨user, hslot, hcolumns⟩ := h.slot
  refine ⟨h.sound, ⟨user, congrArg Slot.committed hslot, hcolumns⟩, fun u version hheld => ?_⟩
  rw [hslot] at hheld
  cases hheld

theorem Spared.unheld (h : Spared userId columns t w) (keep : Bool) :
    ((w.finish t keep).slot userTable userId).held = none := by
  cases hheld : ((w.finish t keep).slot userTable userId).held with
  | none => rfl
  | some lock =>
      obtain ⟨hne, hsame⟩ := World.held_of_finish hheld
      rw [hsame] at hheld
      exact absurd (h.held lock.1 lock.2 hheld).1 hne

theorem Spared.finish (h : Spared userId columns t w) :
    AtRest userId columns (w.finish t false) := by
  obtain ⟨user, hcommitted, hcolumns⟩ := h.committed
  refine ⟨h.sound.finish false, user, slot_eq ?_ (h.unheld false), hcolumns⟩
  exact Slot.release_false_committed.trans hcommitted

theorem Spared.seen (h : Spared userId columns t w) :
    ∃ user : User, (w.slot userTable userId).view t = some user ∧ .ofUser user = columns := by
  by_cases hown : (w.slot userTable userId).HeldBy t
  · obtain ⟨version, hheld⟩ := hown
    obtain ⟨_, user, rfl, hcolumns⟩ := h.held t version hheld
    exact ⟨user, Slot.view_of_held hheld, hcolumns⟩
  · obtain ⟨user, hcommitted, hcolumns⟩ := h.committed
    exact ⟨user, (Slot.view_eq_committed hown).trans hcommitted, hcolumns⟩

theorem Spared.congr (h : Spared userId columns t w)
    (hslot : w'.slot userTable userId = w.slot userTable userId) (hsound : w'.Sound) :
    Spared userId columns t w' :=
  ⟨hsound, hslot ▸ h.committed, hslot ▸ h.held⟩

theorem Spared.put (h : Spared userId columns t w) {user : database.Row userTable}
    {version : Option (database.Row userTable)}
    (hview : (w.slot userTable userId).view t = some user) (hkeeps : KeepsColumns user version)
    (hslot : w'.slot userTable userId = (w.slot userTable userId).put t version)
    (hsound : w'.Sound) : Spared userId columns t w' := by
  refine ⟨hsound, hslot ▸ h.committed, fun u version' hheld => ?_⟩
  rw [hslot] at hheld
  cases hheld
  obtain ⟨seen, hseen, hcolumns⟩ := h.seen
  obtain ⟨user', hversion, hkept⟩ := hkeeps
  cases hseen.symm.trans hview
  exact ⟨rfl, user', hversion, hkept.trans hcolumns⟩

/-- **One operation.** An operation that spares the columns keeps them. -/
theorem Spared.exec (h : Spared userId columns t w) (hop : Spares userId β op)
    (hexec : op.exec t choice w = some (answer, w')) : Spared userId columns t w' := by
  have hsound := Op.exec_sound h.sound hexec
  cases op with
  | select T p =>
      obtain ⟨rfl, _⟩ := exec_select hexec
      exact h.congr rfl hsound
  | lock T id p f =>
      by_cases hsame : userTable = T ∧ userId = id
      · obtain ⟨rfl, rfl⟩ := hsame
        obtain ⟨_, ⟨_, _, rfl⟩ | ⟨user, hview, ⟨hp, _, rfl⟩ | ⟨_, _, rfl⟩⟩⟩ := exec_lock hexec
        · exact h
        · have hkeeps : KeepsColumns user (f user) := hop rfl rfl user hp
          exact h.put hview hkeeps (World.write_slot_self (w := w) (t := t) (f user)) hsound
        · exact h.put hview ⟨user, rfl, rfl⟩ (World.write_slot_self _) hsound
      · exact h.congr (exec_lock_slot_of_ne hexec hsame) hsound
  | insert T row =>
      obtain ⟨_, ⟨_, _, rfl⟩ | ⟨_, _, rfl⟩⟩ := exec_insert hexec
      · exact h
      · refine h.congr (World.write_slot_of_ne _ ?_) hsound
        rintro ⟨rfl, hnext⟩
        obtain ⟨user, hcommitted, _⟩ := h.committed
        rw [h.sound.beyond userTable userId hnext.ge] at hcommitted
        cases hcommitted
  | commit =>
      obtain rfl := exec_commit hexec
      obtain ⟨user, hseen, hcolumns⟩ := h.seen
      refine ⟨hsound, ⟨user, Slot.release_true_committed.trans hseen, hcolumns⟩, ?_⟩
      intro u version hheld
      cases (h.unheld true).symm.trans hheld
  | now =>
      obtain ⟨_, rfl⟩ := exec_now hexec
      exact h
  | draw =>
      obtain ⟨_, rfl⟩ := exec_draw hexec
      exact h.congr rfl hsound

/-- **A whole program.** -/
theorem Spared.ensures {α : Type} {p : Db α} (h : Spared userId columns t w)
    (hall : p.All (Spares userId)) :
    p.Ensures t (fun _ => Spared userId columns t) w :=
  .of_all (fun hop h hexec => h.exec hop hexec) hall h

/-! ### The other requests -/

theorem spares_modest : Modest (Spares userId) where
  select _ _ _ := trivial
  keep T id p h _ row _ := by
    subst h
    exact ⟨row, rfl, rfl⟩
  delete _ _ _ hT h := absurd h hT
  now := trivial
  draw := trivial

theorem spares_finding : Finding (Spares userId) := fun _ => trivial

theorem spares_inserting (T : Table) : Inserting (Spares userId) T := fun _ => trivial

theorem spares_settingPasswords : SettingPasswords (Spares userId) :=
  fun _ _ _ _ _ _ _ => ⟨_, rfl, rfl⟩

theorem spares_revoking : RevokingSessions (Spares userId) := fun _ _ _ h => nomatch h

theorem spares_changingFavorites : ChangingFavorites (Spares userId) :=
  fun _ _ _ _ _ _ _ _ => ⟨_, rfl, rfl⟩

theorem spares_changingConsents {id : Nat} (hne : id ≠ userId) :
    ChangingConsents (Spares userId) id :=
  fun _ _ _ _ _ hid' _ hid => absurd ((beq_iff_eq.mp hid).symm.trans hid') hne

/-- The request is the user's own, for other consents or for the end of the account. -/
def UserRequest.ownedBy (context : Context) (userId : Nat) (now : Int) : UserRequest → Bool
  | .updateMarketingConsents credentials _ | .deleteProfile credentials _ =>
      authenticatedAs context credentials now == some userId
  | _ => false

/-- A request that starts from the row of its user. -/
theorem Spared.current {α : Type} {credentials : Option String}
    {next : Int × Nat × User → Db α} (h : Spared userId columns t w)
    (hnext : ∀ startedAt id user, authenticatedAs context credentials w.clock = some id →
      (next (startedAt, id, user)).All (Spares userId)) :
    ((getCurrentUser context credentials).bind next).Ensures t
      (fun _ => Spared userId columns t) w := by
  apply (getCurrentUser_ensures credentials).bind
  · rintro ⟨startedAt, id, user⟩ w' ⟨hread, hidentified⟩
    have hspared := h.congr (congrFun (congrFun hread.slot _) _) (hread.sound h.sound)
    exact hspared.ensures (hnext _ _ _ (hidentified _ _ _ rfl).authenticated)
  · rintro error w' ⟨hread, _⟩
    exact h.congr (congrFun (congrFun hread.slot _) _) (hread.sound h.sound)

/-- **Every other request.** It leaves the columns of the user as they are. -/
theorem Spared.handler (h : Spared userId columns t w) {request : UserRequest}
    (hother : request.ownedBy context userId w.clock = false) :
    (request.handler context legalPages eventIds).Ensures t
      (fun _ => Spared userId columns t) w := by
  have hm : Modest (Spares userId) := spares_modest
  have hf : Finding (Spares userId) := spares_finding
  have hi : ∀ T, Inserting (Spares userId) T := spares_inserting
  have hne : ∀ {credentials : Option String} {id : Nat},
      (authenticatedAs context credentials w.clock == some userId) = false →
      authenticatedAs context credentials w.clock = some id → id ≠ userId := by
    rintro credentials id hother hid rfl
    rw [hid, beq_self_eq_true] at hother
    cases hother
  have hreply : ∀ {α : Type} {p : Db α} {f : α → UserReply},
      p.Ensures t (fun _ => Spared userId columns t) w →
      (p.bind fun value => .pure (f value)).Ensures t (fun _ => Spared userId columns t) w :=
    fun hp => hp.bind (fun _ _ => id) fun _ _ => id
  cases request with
  | register payload =>
      exact hreply (h.ensures (hm.register trivial hf (hi _) (hi _) (hi _) payload))
  | confirmEmail token =>
      exact hreply (h.ensures (hm.confirmEmail trivial hf (fun _ _ _ _ _ _ _ => ⟨_, rfl, rfl⟩) _))
  | resendConfirmation email =>
      exact hreply (h.ensures (hm.resendConfirmation trivial hf (hi _) (hi _) email))
  | forgotPassword email =>
      exact hreply (h.ensures (hm.forgotPassword trivial hf (hi _) (hi _) email))
  | resetPassword token newPassword =>
      exact hreply (h.ensures
        (hm.resetPassword trivial hf spares_settingPasswords spares_revoking _ _))
  | changePassword credentials currentPassword newPassword =>
      exact hreply (h.ensures
        (hm.changePassword trivial hf spares_settingPasswords spares_revoking _ _ _))
  | login email password => exact hreply (h.ensures (hm.login trivial hf (hi _) _ _))
  | refresh refreshToken =>
      exact hreply (h.ensures (hm.refresh trivial hf (fun _ _ _ _ h => nomatch h) _))
  | logout refreshToken => exact hreply (h.ensures (hm.logout trivial spares_revoking _))
  | getProfile credentials => exact hreply (h.current fun _ _ _ _ => trivial)
  | deleteProfile credentials password =>
      apply hreply
      apply h.current
      intro startedAt id user hid
      apply (Prog.All.ofExcept _).bind
      intro same
      split
      · refine hm.deleteUser trivial hf id fun _ _ hid' _ hmatch => ?_
        exact absurd ((beq_iff_eq.mp hmatch).symm.trans hid') (hne hother hid)
      · trivial
  | updateMarketingConsents credentials payload =>
      apply hreply
      apply h.current
      exact fun _ _ user hid =>
        hm.updateMarketingConsents trivial hf (spares_changingConsents (hne hother hid)) user _ _
  | addFavorite credentials eventId =>
      apply hreply
      apply h.current
      intro startedAt id user _
      dsimp only
      split
      · exact (hf.addFavorite trivial spares_changingFavorites _ _ _).bind fun _ => trivial
      · trivial
  | removeFavorite credentials eventId =>
      apply hreply
      apply h.current
      intro startedAt id user _
      exact (hf.removeFavorite trivial spares_changingFavorites _ _ _).bind fun _ => trivial

/-! ### The registration -/

/-- The user was inserted by the transaction, which has not committed. -/
structure Inserted (userId : Nat) (user : User) (t : Txn) (w : UserWorld) : Prop where
  sound : w.Sound
  slot : w.slot userTable userId = ⟨none, some (t, some user)⟩

theorem inserted_of_exec {row : Nat → User} (hsound : w.Sound)
    (hexec : (Op.insert (S := database) userTable row).exec t choice w = some (some userId, w')) :
    userId = w.next userTable ∧ Inserted userId (row userId) t w' := by
  obtain ⟨hid, hslot⟩ := exec_insert_slot hexec
  refine ⟨hid, Op.exec_sound hsound hexec, ?_⟩
  rw [hslot, Function.update_self, hsound.beyond _ _ hid.ge]
  rfl

theorem Inserted.slot_release {user : User} (h : Inserted userId user t w) :
    ((w.finish t true).note t .committed).slot userTable userId = ⟨some user, none⟩ := by
  change (w.slot userTable userId).release t true = _
  rw [h.slot]
  exact Slot.release_of_held true rfl

theorem Inserted.ensures {α : Type} {p : Db α} {user : User} (h : Inserted userId user t w)
    (hidle : p.All Idle) (huncommitting : p.All Uncommitting) :
    p.Ensures t (fun _ => Inserted userId user t) w := by
  apply Prog.Ensures.of_all ?_ (hidle.and huncommitting) h
  rintro β op choice answer w w' ⟨hidle, hkind⟩ ⟨hsound, hslot⟩ hexec
  refine ⟨Op.exec_sound hsound hexec, ?_⟩
  rw [Op.exec_slot_same hidle.2 hkind hexec]
  exact hslot

theorem idle_inserting (T : Table) (hsession : T ≠ .refreshTokenSessions) (huser : T ≠ .users) :
    Inserting Idle T :=
  fun _ => ⟨fun h => absurd h hsession, fun h => absurd h huser⟩

theorem idle_replace (kind : TokenKind) (userId : Nat) (tokenHash : String)
    (expiresAt startedAt : Int) :
    (UserTokens.replace kind userId tokenHash expiresAt startedAt).All Idle :=
  (idle_deleteForUser kind userId).bind fun _ =>
    (idle_inserting (.tokens kind) nofun nofun).insertRow

/-- The transaction has committed the user, with these columns. -/
structure Created (userId : Nat) (payload : RegisterRequest) (now : Int) (w : UserWorld) :
    Prop where
  sound : w.Sound
  slot : ∃ user : User, w.slot userTable userId = ⟨some user, none⟩
    ∧ .ofUser user = (⟨payload.marketingEmailConsent, some now, payload.marketingPushConsent,
      some now⟩ : MarketingConsentsResponse)

variable (context) in
theorem createAccount_ensures (payload : RegisterRequest) (termsVersion rawToken : String)
    (now startedAt : Int) (hsound : w.Sound) :
    (createAccount context payload termsVersion rawToken now startedAt).Ensures t
      (Discipline.OnSuccess fun _ => Created (w.next userTable) payload now) w := by
  apply Prog.Ensures.perform_bind
  intro choice salt w₁ hexec
  obtain ⟨_, rfl⟩ := exec_draw hexec
  have hdrawn := Op.exec_sound hsound hexec
  cases hashPassword context.crypto payload.password salt with
  | error error => trivial
  | ok passwordHash =>
      intro choice found w₂ hexec
      cases found with
      | none => trivial
      | some userId =>
          obtain ⟨rfl, h⟩ := inserted_of_exec hdrawn hexec
          apply (h.ensures (idle_replace _ _ _ _ _) (replace_uncommitting _ _ _ _ _)).bind
          · intro tokenId w₃ h
            have henqueue := (idle_inserting .emailOutboxJobs nofun nofun).enqueueJob
            apply (h.ensures (henqueue _ _ _ _) (enqueueJob_uncommitting _ _ _ _)).bind
            · intro _ w₄ h choice answer w₅ hexec
              obtain rfl := exec_commit hexec
              exact ⟨Op.exec_sound h.sound hexec, _, h.slot_release, rfl⟩
            · exact fun _ _ _ => trivial
          · exact fun _ _ _ => trivial

theorem register_ensures {payload : RegisterRequest} (hsound : w.Sound) :
    (register context legalPages payload).Ensures t
      (Discipline.OnSuccess fun _ => Created (w.next userTable) payload w.clock) w := by
  apply Prog.Ensures.perform_bind
  intro choice startedAt w₁ hexec
  obtain ⟨rfl, rfl⟩ := exec_now hexec
  apply Prog.Ensures.scalar_bind
  intro choice rows w₂ hexec
  obtain ⟨rfl, _⟩ := exec_select hexec
  have hread := Op.exec_sound hsound hexec
  cases rows.head? with
  | some found => trivial
  | none =>
      dsimp only
      cases getTermsVersion legalPages payload.locale with
      | none => trivial
      | some termsVersion =>
          apply Prog.Ensures.perform_bind
          intro choice rawToken w₃ hexec
          obtain ⟨_, rfl⟩ := exec_draw hexec
          have hdrawn := Op.exec_sound hread hexec
          apply Prog.Ensures.perform_bind
          intro choice now w₄ hexec
          obtain ⟨rfl, rfl⟩ := exec_now hexec
          have hcreated := createAccount_ensures (t := t) context payload termsVersion rawToken
            w₁.clock w₁.clock hdrawn
          apply Prog.Ensures.bind_onSuccess (hcreated.mapError (fun _ _ h => h) fun _ _ _ => trivial)
          · exact fun _ _ h => h
          · exact fun _ _ => trivial

/-! ### An update -/

/-- The row is the updated one, and nothing was written where nothing was to change. -/
structure UpdatedBy (payload : MarketingConsentsUpdateRequest) (userId : Nat) (user : User)
    (w w' : UserWorld) : Prop where
  sound : w'.Sound
  slot : w'.slot userTable userId = ⟨some (updatedUser payload w.clock user), none⟩
  unwritten : Users.changedConsents user payload.marketingEmailConsent payload.marketingPushConsent
    = (none, none) → w'.slot = w.slot

theorem UpdatedBy.note {payload : MarketingConsentsUpdateRequest} {user : User}
    (h : UpdatedBy payload userId user w w') (event : ReadCommitted.Event database) :
    UpdatedBy payload userId user w (w'.note t event) :=
  ⟨h.sound.note event, h.slot, h.unwritten⟩

/-- What a request for other consents comes to. If it is refused, nothing was written. -/
def UpdatedOrRefused (payload : MarketingConsentsUpdateRequest) (userId : Nat) (user : User)
    (w : UserWorld) {α : Type} : Except Exn α → UserWorld → Prop
  | .ok _, w' => UpdatedBy payload userId user w w'
  | .error _, w' => w'.Sound ∧ w'.slot = w.slot

theorem updateMarketingConsents_ensures {user : User} (hsound : w.Sound)
    (hslot : w.slot userTable userId = ⟨some user, none⟩)
    (payload : MarketingConsentsUpdateRequest) :
    (updateMarketingConsents userId user w.clock payload).Ensures t
      (UpdatedOrRefused payload userId user w) w := by
  have hview : ∀ {w' : UserWorld} {user : User}, w'.slot userTable userId = ⟨some user, none⟩ →
      (w'.slot userTable userId).view t = some user := by
    intro w' user h
    rw [h]
    rfl
  apply Prog.Ensures.perform_bind
  intro choice updatedAt w₁ hexec
  obtain ⟨rfl, rfl⟩ := exec_now hexec
  apply Prog.Ensures.bind (Q := UpdatedOrRefused payload userId user w₁)
  · unfold Users.updateMarketingConsents
    dsimp only
    split
    · rename_i hsome
      intro choice rows w₂ hexec
      have hfound := Op.exec_sound hsound hexec
      obtain ⟨rfl, rfl⟩ := select_user (fun _ _ => beq_iff_eq) hsound (hview hslot) hexec
      intro choice found w₃ hexec
      have hlocked := Op.exec_sound hfound hexec
      obtain ⟨_, ⟨hnone, _⟩ | ⟨_, hseen, ⟨_, rfl, rfl⟩ | ⟨hp, _⟩⟩⟩ := exec_lock hexec
      · cases (hview hslot).symm.trans hnone
      · cases (hview hslot).symm.trans hseen
        intro choice answer w₄ hexec
        have hcommitted := Op.exec_sound hlocked hexec
        have hupdated : UpdatedBy payload userId user w₁ w₄ := by
          refine ⟨hcommitted, ?_, fun hnone => ?_⟩
          · rw [updatedUser, if_pos hsome, exec_commit hexec]
            refine (congrArg (Slot.release t true) (World.write_slot_self _)).trans ?_
            exact Slot.release_of_held true rfl
          · rw [hnone] at hsome
            exact absurd hsome (by decide)
        intro choice rows w₅ hexec
        obtain ⟨rfl, rfl⟩ := select_user (fun _ _ => beq_iff_eq) hcommitted (hview hupdated.slot)
          hexec
        exact hupdated.note _
      · exact absurd (beq_self_eq_true userId) (ne_true_of_eq_false hp)
    · rename_i hnone
      exact ⟨hsound, by rw [updatedUser, if_neg hnone]; exact hslot, fun _ => rfl⟩
  · exact fun _ _ h => h
  · exact fun _ _ h => h

theorem consentRequest_ensures {user : User} (hsound : w.Sound)
    (hslot : w.slot userTable userId = ⟨some user, none⟩) {credentials : Option String}
    (hown : ∀ id, authenticatedAs context credentials w.clock = some id → id = userId)
    (payload : MarketingConsentsUpdateRequest) :
    (ConsentRequest.handler context ⟨credentials, payload⟩).Ensures t
      (UpdatedOrRefused payload userId user w) w := by
  apply (getCurrentUser_ensures credentials).bind
  · rintro ⟨startedAt, id, loaded⟩ w' ⟨hread, hidentified⟩
    obtain ⟨hauth, rfl, hseen, _⟩ := hidentified _ _ _ rfl
    obtain rfl : userId = id := (hown id hauth).symm
    rw [hslot] at hseen
    obtain rfl : user = loaded := Option.some.inj hseen
    have hslot' : w'.slot userTable userId = ⟨some user, none⟩ := by rw [hread.slot, hslot]
    have h := updateMarketingConsents_ensures (t := t) (hread.sound hsound) hslot' payload
    rw [hread.clock] at h
    apply h.mono
    rintro (error | response) w'' hupdated
    · exact ⟨hupdated.1, hupdated.2.trans hread.slot⟩
    · refine ⟨hupdated.sound, ?_, fun hnone => ?_⟩
      · rw [← hread.clock]
        exact hupdated.slot
      · rw [← hread.slot]
        exact hupdated.unwritten hnone
  · exact fun error w' h => ⟨h.1.sound hsound, h.1.slot⟩

/-! ### The history -/

abbrev ServedUserRequest := ReadCommitted.Served UserRequest Exn UserReply

/-- What a request changed of the user's consents: when, and the values it supplied. -/
def consentUpdate (context : Context) (userId : Nat) (served : ServedUserRequest) :
    Option (Int × MarketingConsentsUpdateRequest) :=
  match served.request, served.reply with
  | .updateMarketingConsents credentials payload, .ok _ =>
      if authenticatedAs context credentials served.time = some userId then
        some (served.time, payload)
      else none
  | _, _ => none

/-- The user asks for the end of the account. -/
def AsksDeletion (context : Context) (userId : Nat) (served : ServedUserRequest) : Prop :=
  ∃ credentials password, served.request = .deleteProfile credentials password
    ∧ authenticatedAs context credentials served.time = some userId

/-- The user's columns are what these updates make of them, and nobody is at work on the row. -/
structure Standing (userId : Nat) (payload : RegisterRequest) (registeredAt : Int)
    (updates : List (Int × MarketingConsentsUpdateRequest)) (w : UserWorld) : Prop where
  sound : w.Sound
  slot : ∃ user : User, w.slot userTable userId = ⟨some user, none⟩
    ∧ RecordedBy payload registeredAt updates user

theorem recordedBy_congr {payload : RegisterRequest} {registeredAt : Int}
    {updates : List (Int × MarketingConsentsUpdateRequest)} {user user' : User}
    (h : RecordedBy payload registeredAt updates user)
    (hcolumns : MarketingConsentsResponse.ofUser user' = .ofUser user) :
    RecordedBy payload registeredAt updates user' := by
  intro channel
  rw [User.consent_ofUser, User.consentUpdatedAt_ofUser, hcolumns, ← User.consent_ofUser,
    ← User.consentUpdatedAt_ofUser]
  exact h channel

theorem Created.standing {payload : RegisterRequest} {now : Int}
    (h : Created userId payload now w) : Standing userId payload now [] w := by
  obtain ⟨hsound, user, hslot, hcolumns⟩ := h
  refine ⟨hsound, user, hslot, fun channel => ?_⟩
  rw [User.consent_ofUser, User.consentUpdatedAt_ofUser, hcolumns]
  cases channel <;> exact recorded_registration _ _

theorem finish_slot_of_unheld {T : database.Table} {id : Nat} {version : Option (database.Row T)}
    (h : w.slot T id = ⟨version, none⟩) (t : Txn) (keep : Bool) :
    (w.finish t keep).slot T id = ⟨version, none⟩ := by
  change (w.slot T id).release t keep = _
  rw [h]
  rfl

/-- **One request.** Whatever the request is, the columns follow it. -/
theorem Standing.serve {payload : RegisterRequest} {registeredAt : Int}
    {updates : List (Int × MarketingConsentsUpdateRequest)} {served : ServedUserRequest}
    (h : Standing userId payload registeredAt updates w)
    (hkept : ¬ AsksDeletion context userId served)
    (hruns : (served.request.handler context legalPages eventIds).Runs t
      { w with clock := served.time } served.reply w') :
    Standing userId payload registeredAt ((consentUpdate context userId served).toList ++ updates)
      w' := by
  obtain ⟨hsound, user, hslot, hrecorded⟩ := h
  have hrest : AtRest userId (.ofUser user) { w with clock := served.time } :=
    ⟨hsound.at_clock _, user, hslot, rfl⟩
  obtain ⟨time, request, reply⟩ := served
  cases hown : request.ownedBy context userId time with
  | false =>
      obtain ⟨w₁, hspared, rfl⟩ := ((hrest.keeping t).handler hown).runs hruns
      obtain ⟨hsound', user', hslot', hcolumns⟩ := hspared.finish
      have hnone : consentUpdate context userId ⟨time, request, reply⟩ = none := by
        unfold consentUpdate
        split
        · rename_i heq _
          obtain rfl : request = _ := heq
          exact if_neg fun hauth => ne_true_of_eq_false hown (beq_iff_eq.mpr hauth)
        · rfl
      rw [hnone]
      exact ⟨hsound', user', hslot', recordedBy_congr hrecorded hcolumns⟩
  | true =>
      cases request with
      | updateMarketingConsents credentials update =>
          have hauth : authenticatedAs context credentials time = some userId := beq_iff_eq.mp hown
          have hensures : ((UserRequest.updateMarketingConsents credentials update).handler context
              legalPages eventIds).Ensures t (UpdatedOrRefused update userId user _) _ :=
            (consentRequest_ensures hrest.sound hslot (fun id hid =>
              Option.some.inj (hid.symm.trans hauth)) update).bind (fun _ _ h => h) fun _ _ h => h
          obtain ⟨w₁, hanswered, rfl⟩ := hensures.runs hruns
          cases reply with
          | ok reply =>
              have hupdate : consentUpdate context userId
                  ⟨time, .updateMarketingConsents credentials update, .ok reply⟩
                    = some (time, update) := if_pos hauth
              rw [hupdate]
              exact ⟨hanswered.sound.finish false, _,
                finish_slot_of_unheld hanswered.slot t false, hrecorded.update time update⟩
          | error error =>
              refine ⟨hanswered.1.finish false, user, finish_slot_of_unheld ?_ t false, hrecorded⟩
              rw [hanswered.2]
              exact hslot
      | deleteProfile credentials password =>
          exact absurd ⟨credentials, password, rfl, beq_iff_eq.mp hown⟩ hkept
      | register | confirmEmail | resendConfirmation | forgotPassword | resetPassword
      | changePassword | login | refresh | logout | getProfile | addFavorite | removeFavorite =>
          cases hown

/-- **A whole history.** -/
theorem Standing.serially {payload : RegisterRequest} {registeredAt : Int}
    {history : List ServedUserRequest} (h : Standing userId payload registeredAt [] w)
    (hhistory : (userSystem context legalPages eventIds).Serially w history w')
    (hkept : ∀ served ∈ history, ¬ AsksDeletion context userId served) :
    Standing userId payload registeredAt (history.filterMap (consentUpdate context userId)) w' := by
  induction hhistory with
  | start => exact h
  | @next history w₁ w₂ t served _ _ hruns ih =>
      have hnext := (ih fun served hmem => hkept served (List.mem_cons_of_mem _ hmem)).serve
        (hkept served List.mem_cons_self) hruns
      rw [List.filterMap_cons]
      cases hupdate : consentUpdate context userId served with
      | none =>
          rw [hupdate] at hnext
          exact hnext
      | some update =>
          rw [hupdate] at hnext
          exact hnext

/-- The credentials name nobody but the user. -/
def CredentialsOf (context : Context) (userId : Nat) (credentials : Option String) : Prop :=
  ∀ now id, authenticatedAs context credentials now = some id → id = userId

/-- What an update leaves: the channels that it does not supply are as they were, and when it is
made again right after, no row of any table changes. -/
structure UpdateEffect (context : Context) (userId : Nat) (request : ConsentRequest) (user : User)
    (w : UserWorld) : Prop where
  unsupplied : ∃ user' : User, w.slot userTable userId = ⟨some user', none⟩
    ∧ ∀ channel, request.payload.consent channel = none →
      user'.consent channel = user.consent channel
        ∧ user'.consentUpdatedAt channel = user.consentUpdatedAt channel
  repeated : ∀ t later r w', (∀ T id, ¬ (w.slot T id).HeldBy t) →
    (request.handler context).Runs t { w with clock := later } r w' → w'.slot = w.slot

theorem updateEffect {user : User} {request : ConsentRequest} {time : Int}
    {response : MarketingConsentsResponse} (hsound : w.Sound)
    (hslot : w.slot userTable userId = ⟨some user, none⟩)
    (hown : CredentialsOf context userId request.credentials)
    (hruns : (request.handler context).Runs t { w with clock := time } (.ok response) w') :
    UpdateEffect context userId request user w' := by
  obtain ⟨credentials, payload⟩ := request
  obtain ⟨w₁, hupdated, rfl⟩ :=
    (consentRequest_ensures (hsound.at_clock time) hslot (hown time) payload).runs hruns
  have hslot' := finish_slot_of_unheld hupdated.slot t false
  refine ⟨⟨_, hslot', fun channel hnone => ?_⟩, fun t' later r w'' hfree hruns' => ?_⟩
  · obtain ⟨hconsent, hupdatedAt⟩ := updatedUser_channel payload time user channel
    rw [hnone] at hconsent hupdatedAt
    exact ⟨hconsent, hupdatedAt⟩
  · obtain ⟨w₂, hanswered, rfl⟩ := (consentRequest_ensures
      ((hupdated.sound.finish false).at_clock later) hslot' (hown later) payload).runs hruns'
    have hsame : w₂.slot = (w₁.finish t false).slot := by
      cases r with
      | ok => exact hanswered.unwritten (changedConsents_updatedUser payload time user)
      | error => exact hanswered.2
    rw [World.finish_slot false (hsame ▸ hfree), hsame]

/-- **The consents are on record.** After a registration and any requests that are served one after
the other, as long as the user does not ask for the end of the account, each channel has the value
that was supplied last and the time of the last request that changed it. Whatever update comes next
alters no channel that it does not supply, and changes nothing when it is made again. -/
theorem consents_recorded {payload : RegisterRequest} {message : String} {w₁ w₂ : UserWorld}
    {history : List ServedUserRequest} (hsound : w.Sound)
    (hregistered : (register context legalPages payload).Runs t w (.ok message) w₁)
    (hhistory : (userSystem context legalPages eventIds).Serially w₁ history w₂)
    (hkept : ∀ served ∈ history, ¬ AsksDeletion context (w.next userTable) served) :
    ∃ user : User, w₂.slot userTable (w.next userTable) = ⟨some user, none⟩
      ∧ RecordedBy payload w.clock (history.filterMap (consentUpdate context (w.next userTable))) user
      ∧ ∀ request t' time response w₃,
        CredentialsOf context (w.next userTable) request.credentials →
        (request.handler context).Runs t' { w₂ with clock := time } (.ok response) w₃ →
        UpdateEffect context (w.next userTable) request user w₃ := by
  obtain ⟨w', hcreated, rfl⟩ := (register_ensures hsound).runs hregistered
  obtain ⟨user, hslot, hcolumns⟩ := hcreated.slot
  have hstanding : Standing (w.next userTable) payload w.clock [] (w'.finish t false) :=
    Created.standing
      ⟨hcreated.sound.finish false, user, finish_slot_of_unheld hslot t false, hcolumns⟩
  obtain ⟨hsound', user', hslot', hrecorded⟩ := hstanding.serially hhistory hkept
  exact ⟨user', hslot', hrecorded, fun _ _ _ _ _ hown hruns => updateEffect hsound' hslot' hown hruns⟩

/-! ### Jonas's consents -/

/-- Nobody has registered yet. -/
def emptyService : UserWorld := storedUsers []

theorem emptyService_sound : emptyService.Sound where
  beyond T id hle := (storedUsers_initial []).beyond T id hle
  drawn_nodup := List.nodup_nil

/-- His registration, which is mailed the token "t". -/
def registrationChoices : List Choice :=
  [{}, {}, { token := "t" }, {}, { token := "salt" }, {}, {}, {}, {}, {}]

/-- He confirms his address, agrees to emails, and agrees to them again with the push notifications.
The last request is the first in the list. -/
def agreements : List (Attempt UserRequest) :=
  [⟨1, 30, .updateMarketingConsents (some "access") ⟨some true, some true, by decide⟩,
      [{}, {}, { order := [0] }, {}, { order := [0] }, {}, {}, { order := [0] }]⟩,
    ⟨1, 20, .updateMarketingConsents (some "access") ⟨some true, none, by decide⟩,
      [{}, {}, { order := [0] }, {}, { order := [0] }, {}, {}, { order := [0] }]⟩,
    ⟨1, 10, .confirmEmail "t",
      [{}, { order := [0] }, {}, {}, { order := [0] }, {}, { order := [0] }, {}, { order := [0] },
        {}, {}]⟩]

/-- What the updates among them supply, and when. -/
def agreedTo : List (Int × MarketingConsentsUpdateRequest) :=
  [(30, ⟨some true, some true, by decide⟩), (20, ⟨some true, none, by decide⟩)]

theorem consents_recorded_agreements :
    ∃ w₁ history w₂, ∃ user : User,
      (register plainContext publishedTerms jonas).Runs 0 emptyService (.ok registrationMessage) w₁
        ∧ (userSystem plainContext publishedTerms []).Serially w₁ history w₂
        ∧ w₂.slot userTable 0 = ⟨some user, none⟩
        ∧ user.consent .email = true ∧ user.consentUpdatedAt .email = some 20
        ∧ user.consent .push = true ∧ user.consentUpdatedAt .push = some 30 := by
  have hrun : ((register plainContext publishedTerms jonas).play 0 registrationChoices
      emptyService).any fun registered => decide (registered.1 = .ok registrationMessage)
        && ((userSystem plainContext publishedTerms []).serve registered.2 agreements).any
          fun served => decide (served.1.map (·.request) = agreements.map (·.request)
            ∧ served.1.filterMap (consentUpdate plainContext 0) = agreedTo) := by decide
  obtain ⟨⟨r, w₁⟩, hplay, hrun⟩ := (Option.any_eq_true _ _).mp hrun
  obtain ⟨hreply, hrun⟩ := Bool.and_eq_true_iff.mp hrun
  obtain rfl : r = .ok registrationMessage := of_decide_eq_true hreply
  obtain ⟨⟨history, w₂⟩, hserve, hserved⟩ := (Option.any_eq_true _ _).mp hrun
  obtain ⟨hrequests, hupdates⟩ := of_decide_eq_true hserved
  have hkept : ∀ served ∈ history, ¬ AsksDeletion plainContext 0 served := by
    rintro served hmem ⟨credentials, password, hrequest, _⟩
    have hmem' := List.mem_map_of_mem (f := ReadCommitted.Served.request) hmem
    rw [hrequests, hrequest] at hmem'
    simp [agreements] at hmem'
  have hregistered := Prog.runs_of_play hplay
  have hhistory := System.serially_of_serve hserve
  obtain ⟨user, hslot, hrecorded, _⟩ :=
    consents_recorded emptyService_sound hregistered hhistory hkept
  have hemail := hrecorded .email
  have hpush := hrecorded .push
  rw [show emptyService.next userTable = 0 from rfl, hupdates] at hemail hpush
  exact ⟨w₁, history, w₂, user, hregistered, hhistory, hslot, hemail.consent, hemail.updatedAt,
    hpush.consent, hpush.updatedAt⟩

end EventsApi
