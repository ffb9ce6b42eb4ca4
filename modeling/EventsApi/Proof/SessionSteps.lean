import EventsApi.Auth.Service
import EventsApi.Library.ReadCommitted.TableStep

/-!
# What the requests do to sessions and users

Most operations of the session requests leave the users alone, and do nothing to a session but
revoke it. What is left is the insertion of a login, the rotation of a refresh, and the new
password. -/

namespace EventsApi

open ReadCommitted

abbrev userTable : database.Table := Table.users

/-- The table of login sessions. -/
abbrev sessionTable : database.Table := Table.refreshTokenSessions

/-- The hash a session is found by. -/
abbrev sessionKey : database.Row sessionTable → String := RefreshTokenSession.tokenHash

abbrev SessionWorld := World database SessionRequest

abbrev RefreshTokenSession.Revoked (session : RefreshTokenSession) : Prop :=
  session.revokedAt.isSome = true

/-- A service that has no session yet. -/
def NoSessions (c : Config database SessionRequest Exn Reply) : Prop :=
  c.Initial ∧ c.world.next sessionTable = 0

theorem NoSessions.empty {c : Config database SessionRequest Exn Reply} (h : NoSessions c)
    (id : Nat) : c.world.slot sessionTable id = Slot.empty :=
  h.1.1.beyond sessionTable id (h.2 ▸ Nat.zero_le id)

/-- A session is left as it is or revoked. -/
def KeptOrRevoked (session : RefreshTokenSession) (version : Option RefreshTokenSession) : Prop :=
  version = some session ∨ ∃ now, version = some (RefreshSessions.revoke now session)

/-- An operation that does nothing to a session but revoke it. -/
def OnlyRevokes (β : Type) (op : Op database β) : Prop :=
  op.Within sessionTable KeptOrRevoked fun _ => False

/-- Such an operation that leaves the users alone too. -/
def LeavesUsers (β : Type) (op : Op database β) : Prop :=
  OnlyRevokes β op ∧ op.Within userTable (fun _ _ => False) fun _ => False

/-- An operation that leaves sessions and users alone. -/
def Idle (β : Type) (op : Op database β) : Prop :=
  op.Within sessionTable (fun _ _ => False) (fun _ => False)
    ∧ op.Within userTable (fun _ _ => False) fun _ => False

variable {context : Context} {α : Type} {p : Db α}

theorem onlyRevokes_of_leavesUsers (h : p.All LeavesUsers) : p.All OnlyRevokes :=
  h.mono fun _ _ => And.left

theorem leavesUsers_of_idle (h : p.All Idle) : p.All LeavesUsers :=
  h.mono fun _ _ hidle => ⟨hidle.1.mono (fun _ _ => False.elim) fun _ => id, hidle.2⟩

theorem updateRow_all {P : ∀ β : Type, Op database β → Prop} {T : Table} {id : Nat}
    {f : T.Row → T.Row}
    (hlock : P _ (.lock (S := database) T id (fun _ => true) fun row => some (f row))) :
    (updateRow T id f).All P :=
  ⟨hlock, fun found => by cases found <;> trivial⟩

variable (context) in
theorem checkCredentials_cases (password : String) (found : Option (Nat × User)) :
    (∃ error, checkCredentials context password found = .raise error)
      ∨ ∃ userId user, found = some (userId, user)
        ∧ context.crypto.checkpw password user.passwordHash = true
        ∧ checkCredentials context password found = .pure (userId, user) := by
  match found with
  | none => exact .inl ⟨_, rfl⟩
  | some (userId, user) =>
      by_cases hsize : password.utf8ByteSize ≤ bcryptMaxBytes
      · cases hcheck : context.crypto.checkpw password user.passwordHash with
        | false =>
            refine .inl ⟨invalidCredentials, ?_⟩
            simp [checkCredentials, verifyPassword, hsize, hcheck, Prog.ofExcept]
        | true =>
            cases hverified : user.emailVerifiedAt with
            | none =>
                refine .inl ⟨unconfirmedEmail, ?_⟩
                simp [checkCredentials, verifyPassword, hsize, hcheck, hverified, Prog.ofExcept]
            | some at_ =>
                refine .inr ⟨userId, user, rfl, hcheck, ?_⟩
                simp [checkCredentials, verifyPassword, hsize, hcheck, hverified, Prog.ofExcept]
      · refine .inl ⟨.valueError, ?_⟩
        simp [checkCredentials, verifyPassword, hsize, Prog.ofExcept]

/-- A search by primary key finds the user that the transaction sees. -/
theorem select_user {Req : Type} {w w' : World database Req} {t : Txn} {choice : Choice}
    {userId : Nat} {user : User} {p : Nat → User → Bool} {rows : List (Nat × User)}
    (hp : ∀ id' user', p id' user' = true ↔ id' = userId) (hsound : w.Sound)
    (hview : (w.slot userTable userId).view t = some user)
    (hexec : (Op.select (S := database) userTable p).exec t choice w = some (rows, w')) :
    rows = [(userId, user)] ∧ w' = w.note t (.selected userTable rows) := by
  have hmem : (userId, user) ∈ rows := exec_select_mem hsound hexec hview ((hp userId user).mpr rfl)
  have hone : rows = [] ∨ rows.map (·.1) = [userId] :=
    exec_select_one (fun id' user' hmatch => (hp id' user').mp hmatch) hexec
  obtain rfl | hids := hone
  · exact absurd hmem List.not_mem_nil
  · have hlength : rows.length = 1 := by simpa using congrArg List.length hids
    obtain ⟨entry, rfl⟩ := List.length_eq_one_iff.mp hlength
    rw [List.mem_singleton.mp hmem]
    exact ⟨rfl, (exec_select hexec).1⟩

/-! ### Operations that leave sessions and users alone -/

theorem idle_authResponse (userId : Nat) (user : User) (refreshToken : String) :
    (authResponse context userId user refreshToken).All Idle :=
  ⟨⟨trivial, trivial⟩, fun _ => ⟨⟨trivial, trivial⟩, fun _ => trivial⟩⟩

theorem idle_getCurrentUser (credentials : Option String) :
    (getCurrentUser context credentials).All Idle := by
  unfold getCurrentUser
  split
  · trivial
  · refine .perform_bind ⟨trivial, trivial⟩ fun checkedAt => ?_
    split
    · trivial
    · refine .perform_bind ⟨trivial, trivial⟩ fun startedAt => ?_
      refine (Prog.All.scalar ⟨trivial, trivial⟩).bind fun found => ?_
      split
      · trivial
      · split <;> trivial

theorem idle_select (T : Table) (p : Nat → T.Row → Bool) :
    Idle _ (.select (S := database) T p) :=
  ⟨trivial, trivial⟩

theorem idle_commit : Idle _ (.commit (S := database)) :=
  ⟨trivial, trivial⟩

theorem idle_lockToken (kind : TokenKind) (tokenId : Nat) (p : UserToken → Bool)
    (f : UserToken → Option UserToken) :
    Idle _ (.lock (S := database) (.tokens kind) tokenId p f) :=
  ⟨nofun, nofun⟩

theorem idle_getToken (kind : TokenKind) (hash : String) :
    (UserTokens.getForUpdate kind hash).All Idle :=
  Prog.All.scalarForUpdate ⟨trivial, trivial⟩ fun _ => idle_lockToken _ _ _ _

theorem idle_deleteLinkedJobs (kind : TokenKind) (ids : List Nat) :
    (UserTokens.deleteLinkedJobs kind ids).All Idle := by
  induction ids with
  | nil => trivial
  | cons id ids ih =>
      refine (Prog.All.statement ⟨trivial, trivial⟩ fun _ => ?_).bind fun _ => ih
      exact ⟨nofun, nofun⟩

theorem idle_deleteForUser (kind : TokenKind) (userId : Nat) :
    (UserTokens.deleteForUser kind userId).All Idle :=
  (Prog.All.statement ⟨trivial, trivial⟩ fun _ => idle_lockToken _ _ _ _).bind
    fun _ => idle_deleteLinkedJobs _ _

/-! ### Operations that leave the users alone -/

theorem leavesUsers_getForUpdate (hash : String) :
    (RefreshSessions.getForUpdate hash).All LeavesUsers :=
  Prog.All.scalarForUpdate ⟨trivial, trivial⟩ fun _ =>
    ⟨fun _ _ => ⟨fun _ => .inl rfl, fun _ => .inl rfl⟩, fun h => nomatch h⟩

theorem leavesUsers_revoke (sessionId : Nat) (p : RefreshTokenSession → Bool) (now : Int) :
    LeavesUsers _
      (.lock sessionTable sessionId p fun session => some (RefreshSessions.revoke now session)) :=
  ⟨fun _ _ => ⟨fun _ => .inr ⟨now, rfl⟩, fun _ => .inl rfl⟩, fun h => nomatch h⟩

theorem leavesUsers_commit : (Prog.commit : Db Unit).All LeavesUsers :=
  ⟨⟨trivial, trivial⟩, fun _ => trivial⟩

theorem leavesUsers_logout (raw : String) : (logout context raw).All LeavesUsers := by
  refine (leavesUsers_getForUpdate _).bind fun found => ?_
  split
  · exact leavesUsers_commit
  · split
    · exact leavesUsers_commit
    · refine .perform_bind ⟨trivial, trivial⟩ fun now => ?_
      exact (updateRow_all (leavesUsers_revoke _ _ _)).bind fun _ => leavesUsers_commit

/-! ### The new password -/

theorem onlyRevokes_of_idle (h : p.All Idle) : p.All OnlyRevokes :=
  onlyRevokes_of_leavesUsers (leavesUsers_of_idle h)

theorem onlyRevokes_storePassword (userId : Nat) (passwordHash : String) (now startedAt : Int) :
    (storePassword userId passwordHash now startedAt).All OnlyRevokes := by
  refine (updateRow_all fun h => nomatch h).bind fun _ => ?_
  apply (onlyRevokes_of_idle (idle_deleteForUser _ _)).bind
  intro _
  refine (Prog.All.statement trivial fun _ => (leavesUsers_revoke _ _ _).1).bind fun _ => ?_
  exact ⟨trivial, fun _ => trivial⟩

theorem onlyRevokes_resetPassword (raw newPassword : String) :
    (resetPassword context raw newPassword).All OnlyRevokes := by
  refine .perform_bind trivial fun startedAt => ?_
  apply (onlyRevokes_of_idle (idle_getToken _ _)).bind
  intro found
  split
  · trivial
  · refine .perform_bind trivial fun now => ?_
    split
    · trivial
    · apply (Prog.All.scalar trivial).bind
      intro found
      split
      · trivial
      · refine .perform_bind trivial fun salt => ?_
        exact (Prog.All.ofExcept _).bind fun _ => onlyRevokes_storePassword _ _ _ _

theorem onlyRevokes_changePassword (credentials : Option String)
    (currentPassword newPassword : String) :
    (changePassword context credentials currentPassword newPassword).All OnlyRevokes := by
  apply (onlyRevokes_of_idle (idle_getCurrentUser credentials)).bind
  intro current
  obtain ⟨startedAt, userId, user⟩ := current
  apply (Prog.All.ofExcept _).bind
  intro fits
  split
  · apply (Prog.All.ofExcept _).bind
    intro same
    split
    · trivial
    · refine .perform_bind trivial fun now => .perform_bind trivial fun salt => ?_
      exact (Prog.All.ofExcept _).bind fun _ => onlyRevokes_storePassword _ _ _ _
  · trivial

/-! ### A small service, to run things on -/

def plainContext : Context where
  settings := .default
  crypto := { Crypto.plain with
    decode := fun token _ =>
      if token = "access" then some { sub := 0, email := "ona@example.lt" } else none }
  tokenUrl baseUrl token := baseUrl ++ "?token=" ++ token
  zone := .fixed 7200000000
  zoneName _ := "EET"

/-- Her password is "correct horse". -/
def confirmedUser : User where
  email := "ona@example.lt"
  passwordHash := "correct horse"
  firstName := "Ona"
  lastName := "Onaitė"
  emailVerifiedAt := some 0
  preferredLocale := "lt"
  termsAcceptedAt := 0
  termsVersion := "1"
  marketingEmailConsent := false
  marketingEmailConsentUpdatedAt := some 0
  marketingPushConsent := false
  marketingPushConsentUpdatedAt := some 0
  favoriteEventIds := []
  createdAt := 0
  updatedAt := 0

/-- One account, and no client yet. -/
def smallService (Req ε α : Type) : Config database Req ε α where
  world := storedUsers [confirmedUser]
  client _ := none

theorem smallService_initial (Req ε α : Type) : (smallService Req ε α).Initial :=
  ⟨storedUsers_initial _, fun _ => rfl⟩

theorem smallService_noSessions : NoSessions (smallService _ _ _) :=
  ⟨smallService_initial _ _ _, rfl⟩

end EventsApi
