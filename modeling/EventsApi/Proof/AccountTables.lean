import EventsApi.Library.ReadCommitted.Sequential
import EventsApi.Proof.AccountBook
import EventsApi.Proof.TokenSteps

/-!
# The book of accounts in the tables

How the tables hold what the book says. A password is there as a bcrypt hash, a secret as its
SHA-256 hash, and a login that has been ended may still have a row. Every secret that has a row was
drawn, so a new one excludes none of them, and every job mails a token whose number is already given,
so a new token can always be mailed.
-/

namespace EventsApi

open ReadCommitted

variable (context : Context)

/-- The row of an account. -/
structure Account.Stored (account : Account) (user : User) : Prop where
  email : user.email = account.email
  hashable : Hashable account.password
  password : ∃ salt, user.passwordHash = context.crypto.hashpw account.password salt
  confirmed : account.confirmed = user.emailVerifiedAt.isSome
  favorites : user.favoriteEventIds = account.favorites
  marketingEmail : user.marketingEmailConsent = account.marketingEmail
  marketingPush : user.marketingPushConsent = account.marketingPush

def MailedSecret.row (τ : MailedSecret) : UserToken where
  userId := τ.userId
  tokenHash := context.crypto.sha256 τ.secret
  expiresAt := τ.expiresAt
  createdAt := τ.sentAt

/-- The row of a login. -/
structure OpenLogin.Stored (login : OpenLogin) (session : RefreshTokenSession) : Prop where
  userId : session.userId = login.userId
  tokenHash : session.tokenHash = context.crypto.sha256 login.secret
  expiresAt : session.expiresAt = login.expiresAt
  revokedAt : session.revokedAt = none

/-- A table of tokens. -/
structure Secrets (mailed : Set MailedSecret) (rows : Nat → Option UserToken)
    (drawn : List String) : Prop where
  mem : ∀ τ, τ ∈ mailed ↔ ∃ id, rows id = some (τ.row context)
  drawn : ∀ id token, rows id = some token →
    ∃ secret ∈ drawn, token.tokenHash = context.crypto.sha256 secret
  distinct : Tables.Distinct
    (fun token token' => token.userId = token'.userId ∨ token.tokenHash = token'.tokenHash) rows

/-- The table of login sessions. -/
structure Logins (logins : Set OpenLogin) (rows : Nat → Option RefreshTokenSession)
    (drawn : List String) : Prop where
  mem : ∀ login, login ∈ logins ↔
    ∃ id session, rows id = some session ∧ login.Stored context session
  drawn : ∀ id session, rows id = some session →
    ∃ secret ∈ drawn, session.tokenHash = context.crypto.sha256 secret
  distinct : Tables.Distinct (fun session session' => session.tokenHash = session'.tokenHash) rows

/-- The tables hold what the book says. -/
structure Book.Shows (book : Book) (s : Shelf database) : Prop where
  beyond : ∀ T id, s.next T ≤ id → s.rows T id = none
  accounts : ∀ userId,
    Option.Rel (Account.Stored context) (book.account userId) (s.rows userTable userId)
  secrets : ∀ kind, Secrets context (book.mailed kind) (s.rows (tokenTable kind)) s.drawn
  logins : Logins context book.logins (s.rows sessionTable) s.drawn
  jobs : ∀ id (job : EmailOutboxJob), s.rows jobTable id = some job →
    ∃ kind tokenId, tokenId < s.next (tokenTable kind) ∧ Mails kind tokenId job

variable {context} {book : Book} {s : Shelf database}

/-! ### Passwords -/

section Password

variable {account : Account} {user : User}

theorem Account.Stored.verify (h : account.Stored context user) {attempt : String}
    (hshort : Hashable attempt) :
    verifyPassword context.crypto attempt user.passwordHash
      = .ok (decide (attempt = account.password)) := by
  obtain ⟨salt, hpassword⟩ := h.password
  refine (if_pos hshort).trans ?_
  rw [hpassword]
  refine congrArg Except.ok (Bool.eq_iff_iff.mpr ?_)
  rw [context.crypto.checkpw_hashpw _ _ salt hshort h.hashable, decide_eq_true_iff]

theorem verifyPassword_long {attempt passwordHash : String} (hlong : ¬ Hashable attempt) :
    verifyPassword context.crypto attempt passwordHash = .error .valueError :=
  if_neg hlong

theorem hashPassword_short {password salt : String} (hshort : Hashable password) :
    hashPassword context.crypto password salt = .ok (context.crypto.hashpw password salt) :=
  if_pos hshort

theorem hashPassword_long {password salt : String} (hlong : ¬ Hashable password) :
    hashPassword context.crypto password salt = .error .valueError :=
  if_neg hlong

end Password

/-! ### The table of users -/

section Accounts

variable {accounts : Nat → Option Account} {rows : Nat → Option User}

theorem Account.Stored.shown {account : Account} {user : User} (h : account.Stored context user)
    (userId : Nat) : account.Shown userId (.ofUser userId user) :=
  ⟨rfl, h.email, h.favorites, h.marketingEmail, h.marketingPush⟩

/-- An `UPDATE` that is about one row. -/
theorem accounts_update
    (h : ∀ userId, Option.Rel (Account.Stored context) (accounts userId) (rows userId))
    {p : Nat → User → Bool} {f : User → User} {userId : Nat} {user : User} {account : Account}
    (hrow : rows userId = some user) (hp : ∀ id user, p id user = true → id = userId)
    (hmatch : p userId user = true → account.Stored context (f user))
    (hmiss : p userId user = false → account.Stored context user) (id : Nat) :
    Option.Rel (Account.Stored context) (Function.update accounts userId (some account) id)
      ((rows id).bind fun user => if p id user then some (f user) else some user) := by
  by_cases hid : id = userId
  · subst hid
    rw [Function.update_self, hrow, Option.bind_some]
    split
    · rename_i hchanged
      exact .some (hmatch hchanged)
    · rename_i hkept
      exact .some (hmiss (Bool.eq_false_iff.mpr hkept))
  · have hsame : ∀ user, (if p id user then some (f user) else some user) = some user :=
      fun user => if_neg fun hmatch => hid (hp id user hmatch)
    have hrows : (rows id).bind some = rows id := by cases rows id <;> rfl
    rw [Function.update_of_ne hid]
    simp only [hsame]
    rw [hrows]
    exact h id

theorem accounts_delete
    (h : ∀ userId, Option.Rel (Account.Stored context) (accounts userId) (rows userId))
    (userId userId' : Nat) : Option.Rel (Account.Stored context)
      (Function.update accounts userId none userId')
      ((rows userId').bind fun user => if userId' == userId then none else some user) := by
  by_cases hid : userId' = userId
  · subst hid
    rw [Function.update_self]
    simp only [beq_self_eq_true, if_true]
    cases rows userId' <;> exact .none
  · rw [Function.update_of_ne hid]
    simp only [beq_iff_eq, hid, if_false]
    have hsame : (rows userId').bind some = rows userId' := by cases rows userId' <;> rfl
    rw [hsame]
    exact h userId'

end Accounts

/-! ### A table of tokens -/

section Secrets

variable {mailed : Set MailedSecret} {rows : Nat → Option UserToken} {drawn drawn' : List String}

theorem Secrets.mono (h : Secrets context mailed rows drawn) (hdrawn : drawn ⊆ drawn') :
    Secrets context mailed rows drawn' where
  mem := h.mem
  drawn id token hrow := by
    obtain ⟨secret, hsecret, hhash⟩ := h.drawn id token hrow
    exact ⟨secret, hdrawn hsecret, hhash⟩
  distinct := h.distinct

/-- Every row is that of a secret. -/
theorem Secrets.exists_row (h : Secrets context mailed rows drawn) {id : Nat} {token : UserToken}
    (hrow : rows id = some token) : ∃ τ ∈ mailed, τ.secret ∈ drawn ∧ token = τ.row context := by
  obtain ⟨secret, hsecret, hhash⟩ := h.drawn id token hrow
  have htoken : token
      = (⟨token.userId, secret, token.createdAt, token.expiresAt⟩ : MailedSecret).row context := by
    rw [MailedSecret.row, ← hhash]
  exact ⟨_, (h.mem _).mpr ⟨id, htoken ▸ hrow⟩, hsecret, htoken⟩

theorem Secrets.mem_drawn (h : Secrets context mailed rows drawn) {τ : MailedSecret}
    (hτ : τ ∈ mailed) : τ.secret ∈ drawn := by
  obtain ⟨id, hrow⟩ := (h.mem τ).mp hτ
  obtain ⟨secret, hsecret, hhash⟩ := h.drawn id _ hrow
  exact context.crypto.sha256_injective hhash ▸ hsecret

theorem MailedSecret.row_injective : Function.Injective (MailedSecret.row context) := by
  rintro ⟨userId, secret, sentAt, expiresAt⟩ ⟨userId', secret', sentAt', expiresAt'⟩ h
  obtain ⟨rfl, hhash, rfl, rfl⟩ := UserToken.mk.inj h
  obtain rfl := context.crypto.sha256_injective hhash
  rfl

/-- A user has one secret, and a secret has one user. -/
theorem Secrets.unique (h : Secrets context mailed rows drawn) {τ σ : MailedSecret}
    (hτ : τ ∈ mailed) (hσ : σ ∈ mailed) (hsame : τ.userId = σ.userId ∨ τ.secret = σ.secret) :
    τ = σ := by
  obtain ⟨id, hrow⟩ := (h.mem τ).mp hτ
  obtain ⟨id', hrow'⟩ := (h.mem σ).mp hσ
  obtain rfl := h.distinct id id' _ _ hrow hrow' (hsame.imp_right (congrArg context.crypto.sha256))
  exact MailedSecret.row_injective (Option.some.inj (hrow.symm.trans hrow'))

theorem Secrets.delete (h : Secrets context mailed rows drawn) (userId : Nat) :
    Secrets context {τ ∈ mailed | τ.userId ≠ userId}
      (fun id => (rows id).bind fun token => if token.userId == userId then none else some token)
      drawn := by
  have hrows : ∀ id token, ((rows id).bind fun token =>
      if token.userId == userId then none else some token) = some token ↔
        rows id = some token ∧ token.userId ≠ userId := by
    intro id token
    cases hrow : rows id with
    | none => simp
    | some old =>
        by_cases howner : old.userId = userId
        · simp only [Option.bind_some, howner, beq_self_eq_true, if_true, Option.some.injEq]
          refine ⟨fun h => (Option.some_ne_none _ h.symm).elim, ?_⟩
          rintro ⟨rfl, hne⟩
          exact (hne howner).elim
        · simp only [Option.bind_some, beq_iff_eq, howner, if_false, Option.some.injEq]
          refine ⟨?_, And.left⟩
          rintro rfl
          exact ⟨rfl, howner⟩
  constructor
  · intro τ
    simp only [hrows, Set.mem_sep_iff, h.mem τ, exists_and_right]
    rfl
  · intro id token hrow
    exact h.drawn id token ((hrows id token).mp hrow).1
  · intro id id' token token' hrow hrow'
    exact h.distinct id id' token token' ((hrows id token).mp hrow).1
      ((hrows id' token').mp hrow').1

theorem Secrets.insert (h : Secrets context mailed rows drawn) {τ : MailedSecret} {id : Nat}
    (hfree : rows id = none) (hdrawn : τ.secret ∈ drawn)
    (hnew : ∀ σ ∈ mailed, σ.userId ≠ τ.userId ∧ σ.secret ≠ τ.secret) :
    Secrets context (insert τ mailed) (Function.update rows id (some (τ.row context))) drawn := by
  have hother : ∀ {id' token}, rows id' = some token →
      ¬ (token.userId = τ.userId ∨ token.tokenHash = context.crypto.sha256 τ.secret) := by
    intro id' token hrow
    obtain ⟨σ, hσ, _, rfl⟩ := h.exists_row hrow
    obtain ⟨howner, hsecret⟩ := hnew σ hσ
    rintro (hsame | hsame)
    · exact howner hsame
    · exact hsecret (context.crypto.sha256_injective hsame)
  have hne : ∀ {id' token}, rows id' = some token → id' ≠ id := by
    rintro id' token hrow rfl
    cases hfree.symm.trans hrow
  constructor
  · intro σ
    rw [Set.mem_insert_iff, h.mem σ]
    constructor
    · rintro (rfl | ⟨id', hrow⟩)
      · exact ⟨id, Function.update_self ..⟩
      · exact ⟨id', (Function.update_of_ne (hne hrow) ..).trans hrow⟩
    · rintro ⟨id', hrow⟩
      by_cases hid : id' = id
      · subst hid
        rw [Function.update_self] at hrow
        exact .inl (MailedSecret.row_injective (Option.some.inj hrow)).symm
      · rw [Function.update_of_ne hid] at hrow
        exact .inr ⟨id', hrow⟩
  · intro id' token hrow
    by_cases hid : id' = id
    · subst hid
      rw [Function.update_self] at hrow
      cases hrow
      exact ⟨τ.secret, hdrawn, rfl⟩
    · rw [Function.update_of_ne hid] at hrow
      exact h.drawn id' token hrow
  · refine h.distinct.update (fun _ _ => Or.imp Eq.symm Eq.symm) fun id' token hrow hsame => ?_
    exact hother hrow (hsame.imp Eq.symm Eq.symm)

end Secrets

/-! ### The table of login sessions -/

section Logins

variable {logins : Set OpenLogin} {rows rows' : Nat → Option RefreshTokenSession}
  {drawn drawn' : List String}

theorem Logins.mono (h : Logins context logins rows drawn) (hdrawn : drawn ⊆ drawn') :
    Logins context logins rows drawn' where
  mem := h.mem
  drawn id session hrow := by
    obtain ⟨secret, hsecret, hhash⟩ := h.drawn id session hrow
    exact ⟨secret, hdrawn hsecret, hhash⟩
  distinct := h.distinct

theorem Logins.mem_drawn (h : Logins context logins rows drawn) {login : OpenLogin}
    (hlogin : login ∈ logins) : login.secret ∈ drawn := by
  obtain ⟨id, session, hrow, hstored⟩ := (h.mem login).mp hlogin
  obtain ⟨secret, hsecret, hhash⟩ := h.drawn id session hrow
  exact context.crypto.sha256_injective (hstored.tokenHash.symm.trans hhash) ▸ hsecret

/-- What becomes of a row: it goes on as it is, or its login is over. -/
def Continued (context : Context) (keep : OpenLogin → Prop)
    (version version' : Option RefreshTokenSession) : Prop :=
  (version' = version ∧ ∀ session login, version = some session → login.Stored context session →
      keep login)
    ∨ ∃ session, version = some session ∧ (∀ login, login.Stored context session → ¬ keep login)
      ∧ ∀ session', version' = some session' → session'.tokenHash = session.tokenHash
        ∧ session'.revokedAt ≠ none

theorem Logins.keep (h : Logins context logins rows drawn) {keep : OpenLogin → Prop}
    (hrows : ∀ id, Continued context keep (rows id) (rows' id)) :
    Logins context {login ∈ logins | keep login} rows' drawn := by
  have hbefore : ∀ {id session'}, rows' id = some session' →
      ∃ session, rows id = some session ∧ session'.tokenHash = session.tokenHash := by
    intro id session' hrow
    obtain ⟨hsame, _⟩ | ⟨session, hbefore, _, hover⟩ := hrows id
    · exact ⟨session', hsame ▸ hrow, rfl⟩
    · exact ⟨session, hbefore, (hover session' hrow).1⟩
  constructor
  · intro login
    rw [Set.mem_sep_iff, h.mem login]
    constructor
    · rintro ⟨⟨id, session, hrow, hstored⟩, hkeep⟩
      obtain ⟨hsame, _⟩ | ⟨session₁, hbefore, hover, _⟩ := hrows id
      · exact ⟨id, session, hsame.trans hrow, hstored⟩
      · cases hrow.symm.trans hbefore
        exact (hover login hstored hkeep).elim
    · rintro ⟨id, session', hrow, hstored⟩
      obtain ⟨hsame, hgoes⟩ | ⟨_, _, _, hover⟩ := hrows id
      · rw [hsame] at hrow
        exact ⟨⟨id, session', hrow, hstored⟩, hgoes session' login hrow hstored⟩
      · exact ((hover session' hrow).2 hstored.revokedAt).elim
  · intro id session' hrow
    obtain ⟨session, hbefore, hhash⟩ := hbefore hrow
    rw [hhash]
    exact h.drawn id session hbefore
  · intro id id' session session' hrow hrow' hsame
    obtain ⟨old, hold, hhash⟩ := hbefore hrow
    obtain ⟨old', hold', hhash'⟩ := hbefore hrow'
    exact h.distinct id id' old old' hold hold' (hhash.symm.trans (hsame.trans hhash'))

/-- The logins of a user are over: their rows are revoked, or deleted. -/
theorem Logins.close (h : Logins context logins rows drawn) {userId : Nat}
    {p : RefreshTokenSession → Bool} {f : RefreshTokenSession → Option RefreshTokenSession}
    (hp : ∀ session, session.revokedAt = none → (p session = true ↔ session.userId = userId))
    (hf : ∀ session session', f session = some session' →
      session'.tokenHash = session.tokenHash ∧ session'.revokedAt ≠ none) :
    Logins context {login ∈ logins | login.userId ≠ userId}
      (fun id => (rows id).bind fun session => if p session then f session else some session)
      drawn := by
  refine h.keep fun id => ?_
  cases hrow : rows id with
  | none => exact .inl ⟨rfl, nofun⟩
  | some session =>
      rw [Option.bind_some]
      split
      · rename_i hmatch
        refine .inr ⟨session, rfl, fun login hstored hkept => hkept ?_, hf session⟩
        exact hstored.userId.symm.trans ((hp session hstored.revokedAt).mp hmatch)
      · rename_i hmiss
        refine .inl ⟨rfl, ?_⟩
        rintro _ login ⟨⟩ hstored howner
        exact hmiss ((hp session hstored.revokedAt).mpr (hstored.userId.trans howner))

theorem Logins.insert (h : Logins context logins rows drawn) {login : OpenLogin} {id : Nat}
    {session : RefreshTokenSession} (hfree : rows id = none)
    (hstored : login.Stored context session)
    (hdrawn : login.secret ∈ drawn)
    (hnew : ∀ id' other, rows id' = some other → other.tokenHash ≠ session.tokenHash) :
    Logins context (insert login logins) (Function.update rows id (some session)) drawn := by
  have hne : ∀ {id' session}, rows id' = some session → id' ≠ id := by
    rintro id' session hrow rfl
    cases hfree.symm.trans hrow
  constructor
  · intro login'
    rw [Set.mem_insert_iff, h.mem login']
    constructor
    · rintro (rfl | ⟨id', session', hrow, hstored'⟩)
      · exact ⟨id, session, Function.update_self .., hstored⟩
      · exact ⟨id', session', (Function.update_of_ne (hne hrow) ..).trans hrow, hstored'⟩
    · rintro ⟨id', session', hrow, hstored'⟩
      by_cases hid : id' = id
      · subst hid
        rw [Function.update_self] at hrow
        cases hrow
        refine .inl ?_
        obtain ⟨userId, secret, expiresAt⟩ := login
        obtain ⟨userId', secret', expiresAt'⟩ := login'
        obtain rfl : userId' = userId := hstored'.userId.symm.trans hstored.userId
        obtain rfl : expiresAt' = expiresAt := hstored'.expiresAt.symm.trans hstored.expiresAt
        obtain rfl : secret' = secret := context.crypto.sha256_injective
          (hstored'.tokenHash.symm.trans hstored.tokenHash)
        rfl
      · rw [Function.update_of_ne hid] at hrow
        exact .inr ⟨id', session', hrow, hstored'⟩
  · intro id' session' hrow
    by_cases hid : id' = id
    · subst hid
      rw [Function.update_self] at hrow
      cases hrow
      exact ⟨login.secret, hdrawn, hstored.tokenHash⟩
    · rw [Function.update_of_ne hid] at hrow
      exact h.drawn id' session' hrow
  · exact h.distinct.update (fun _ _ => Eq.symm) fun id' other hrow hsame =>
      hnew id' other hrow hsame.symm

end Logins

/-! ### One table changes -/

namespace Book.Shows

theorem grow (h : book.Shows context s) {next : database.Table → Nat} {drawn : List String}
    (hnext : ∀ T, s.next T ≤ next T) (hdrawn : s.drawn ⊆ drawn) :
    book.Shows context { s with next := next, drawn := drawn } where
  beyond T id hle := h.beyond T id ((hnext T).trans hle)
  accounts := h.accounts
  secrets kind := (h.secrets kind).mono hdrawn
  logins := h.logins.mono hdrawn
  jobs id job hjob := by
    obtain ⟨kind, tokenId, hlt, hmails⟩ := h.jobs id job hjob
    exact ⟨kind, tokenId, Nat.lt_of_lt_of_le hlt (hnext _), hmails⟩

theorem draw (h : book.Shows context s) (token : String) :
    book.Shows context { s with drawn := token :: s.drawn } :=
  h.grow (fun _ => le_rfl) (List.subset_cons_self token s.drawn)

/-- The next row of a table is to be written. -/
theorem reserve (h : book.Shows context s) (T : database.Table) :
    book.Shows context { s with next := Function.update s.next T (s.next T + 1) } := by
  refine h.grow (fun T' => ?_) (List.Subset.refl s.drawn)
  by_cases hT : T' = T
  · subst hT
    rw [Function.update_self]
    exact Nat.le_succ _
  · rw [Function.update_of_ne hT]

theorem tick (h : book.Shows context s) (clock : Int) :
    book.Shows context { s with clock := clock } :=
  ⟨h.beyond, h.accounts, h.secrets, h.logins, h.jobs⟩

/-- Row numbers are given from the beginning on. -/
theorem lt_next (h : book.Shows context s) {T : database.Table} {id : Nat} {row : database.Row T}
    (hrow : s.rows T id = some row) : id < s.next T := by
  by_contra hle
  rw [h.beyond T id (Nat.le_of_not_lt hle)] at hrow
  cases hrow

theorem exists_account (h : book.Shows context s) {userId : Nat} {user : User}
    (hrow : s.rows userTable userId = some user) :
    ∃ account, book.account userId = some account ∧ account.Stored context user := by
  have hrel := h.accounts userId
  rw [hrow] at hrel
  cases haccount : book.account userId with
  | none =>
      rw [haccount] at hrel
      cases hrel
  | some account =>
      rw [haccount] at hrel
      cases hrel with
      | some hstored => exact ⟨account, rfl, hstored⟩

theorem exists_user (h : book.Shows context s) {userId : Nat} {account : Account}
    (haccount : book.account userId = some account) :
    ∃ user : User, s.rows userTable userId = some user ∧ account.Stored context user := by
  have hrel := h.accounts userId
  rw [haccount] at hrel
  cases hrow : s.rows userTable userId with
  | none =>
      rw [hrow] at hrel
      cases hrel
  | some user =>
      rw [hrow] at hrel
      cases hrel with
      | some hstored => exact ⟨user, rfl, hstored⟩

/-- Nobody has the number of the next row. -/
theorem vacant (h : book.Shows context s) : book.account (s.next userTable) = none := by
  cases haccount : book.account (s.next userTable) with
  | none => rfl
  | some account =>
      obtain ⟨user, hrow, _⟩ := h.exists_user haccount
      exact (Nat.lt_irrefl _ (h.lt_next hrow)).elim

theorem beyond_replace (h : book.Shows context s) {T : database.Table}
    {rows : Nat → Option (database.Row T)} (hbeyond : ∀ id, s.next T ≤ id → rows id = none) :
    ∀ T' id, s.next T' ≤ id → (s.replace T rows).rows T' id = none := by
  intro T' id hle
  by_cases hT : T' = T
  · subst hT
    rw [Shelf.replace_self]
    exact hbeyond id hle
  · rw [Shelf.replace_of_ne s hT]
    exact h.beyond T' id hle

theorem replaceUsers (h : book.Shows context s) {accounts : Nat → Option Account}
    {rows : Nat → Option (database.Row userTable)}
    (hrows : ∀ userId, Option.Rel (Account.Stored context) (accounts userId) (rows userId))
    (hbeyond : ∀ id, s.next userTable ≤ id → rows id = none) :
    ({ book with account := accounts } : Book).Shows context (s.replace userTable rows) where
  beyond := h.beyond_replace hbeyond
  accounts userId := by
    rw [Shelf.replace_self]
    exact hrows userId
  secrets kind := by
    rw [s.replace_of_ne (nofun : tokenTable kind ≠ userTable)]
    exact h.secrets kind
  logins := by
    rw [s.replace_of_ne (nofun : sessionTable ≠ userTable)]
    exact h.logins
  jobs := by
    rw [s.replace_of_ne (nofun : jobTable ≠ userTable)]
    exact h.jobs

theorem replaceTokens (h : book.Shows context s) {kind : TokenKind} {mailed : Set MailedSecret}
    {rows : Nat → Option (database.Row (tokenTable kind))}
    (hrows : Secrets context mailed rows s.drawn)
    (hbeyond : ∀ id, s.next (tokenTable kind) ≤ id → rows id = none) :
    ({ book with mailed := Function.update book.mailed kind mailed } : Book).Shows context
      (s.replace (tokenTable kind) rows) where
  beyond := h.beyond_replace hbeyond
  accounts := by
    rw [s.replace_of_ne (nofun : userTable ≠ tokenTable kind)]
    exact h.accounts
  secrets kind' := by
    by_cases hkind : kind' = kind
    · subst hkind
      rw [Shelf.replace_self]
      simp only [Function.update_self]
      exact hrows
    · rw [Shelf.replace_of_ne s fun heq => hkind (Table.tokens.inj heq)]
      simp only [Function.update_of_ne hkind]
      exact h.secrets kind'
  logins := by
    rw [s.replace_of_ne (nofun : sessionTable ≠ tokenTable kind)]
    exact h.logins
  jobs := by
    rw [s.replace_of_ne (nofun : jobTable ≠ tokenTable kind)]
    exact h.jobs

theorem replaceSessions (h : book.Shows context s) {logins : Set OpenLogin}
    {rows : Nat → Option (database.Row sessionTable)} (hrows : Logins context logins rows s.drawn)
    (hbeyond : ∀ id, s.next sessionTable ≤ id → rows id = none) :
    ({ book with logins := logins } : Book).Shows context (s.replace sessionTable rows) where
  beyond := h.beyond_replace hbeyond
  accounts := by
    rw [s.replace_of_ne (nofun : userTable ≠ sessionTable)]
    exact h.accounts
  secrets kind := by
    rw [s.replace_of_ne (nofun : tokenTable kind ≠ sessionTable)]
    exact h.secrets kind
  logins := by
    rw [Shelf.replace_self]
    exact hrows
  jobs := by
    rw [s.replace_of_ne (nofun : jobTable ≠ sessionTable)]
    exact h.jobs

theorem replaceJobs (h : book.Shows context s) {rows : Nat → Option (database.Row jobTable)}
    (hrows : ∀ id job, rows id = some job →
      ∃ kind tokenId, tokenId < s.next (tokenTable kind) ∧ Mails kind tokenId job)
    (hbeyond : ∀ id, s.next jobTable ≤ id → rows id = none) :
    book.Shows context (s.replace jobTable rows) where
  beyond := h.beyond_replace hbeyond
  accounts := by
    rw [s.replace_of_ne (nofun : userTable ≠ jobTable)]
    exact h.accounts
  secrets kind := by
    rw [s.replace_of_ne (nofun : tokenTable kind ≠ jobTable)]
    exact h.secrets kind
  logins := by
    rw [s.replace_of_ne (nofun : sessionTable ≠ jobTable)]
    exact h.logins
  jobs := by
    rw [Shelf.replace_self]
    exact hrows

end Book.Shows

end EventsApi
