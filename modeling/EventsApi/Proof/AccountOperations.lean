import EventsApi.Proof.AccountOrigins
import EventsApi.Proof.AccountTables

/-!
# What the statements of a request do to the book

Each function of the repositories, on tables that hold the book: a search finds what the book says,
a change leaves tables that hold another book. No unique constraint refuses a row.
-/

namespace EventsApi

open ReadCommitted

variable {context : Context} {book : Book} {d : Desk database} {α : Type}
  {Q : Except Exn α → Desk database → Prop}

/-! ### Searches -/

theorem getByEmail_yields {email : String} {next : Option (Nat × User) → Db α}
    (h : book.Shows context d.draft)
    (hsome : ∀ userId user account, d.working userTable userId = some user →
      account.Stored context user → book.At email userId account →
        (next (some (userId, user))).Yields Q d)
    (hnone : book.Unused email → (next none).Yields Q d) :
    (Users.getByEmail email >>= next).Yields Q d := by
  refine Prog.Yields.scalar (fun userId user hrow hemail => ?_) fun hnobody => ?_
  · obtain ⟨account, haccount, hstored⟩ := h.exists_account hrow
    have haddress : account.email = email := hstored.email.symm.trans (beq_iff_eq.mp hemail)
    exact hsome userId user account hrow hstored ⟨haccount, haddress⟩
  · refine hnone ?_
    rintro userId account ⟨haccount, rfl⟩
    obtain ⟨user, hrow, hstored⟩ := h.exists_user haccount
    have hmiss := hnobody userId user hrow
    rw [hstored.email, beq_self_eq_true] at hmiss
    cases hmiss

theorem get_yields {userId : Nat} {next : Option (Nat × User) → Db α}
    (h : book.Shows context d.draft)
    (hsome : ∀ user account, d.working userTable userId = some user →
      account.Stored context user → book.account userId = some account →
        (next (some (userId, user))).Yields Q d)
    (hnone : book.account userId = none → (next none).Yields Q d) :
    (Users.get userId >>= next).Yields Q d := by
  refine Prog.Yields.scalar (fun id user hrow hid => ?_) fun hnobody => ?_
  · obtain rfl : id = userId := beq_iff_eq.mp hid
    obtain ⟨account, haccount, hstored⟩ := h.exists_account hrow
    exact hsome user account hrow hstored haccount
  · refine hnone ?_
    cases haccount : book.account userId with
    | none => rfl
    | some account =>
        obtain ⟨user, hrow, _⟩ := h.exists_user haccount
        have hmiss := hnobody userId user hrow
        rw [beq_self_eq_true] at hmiss
        cases hmiss

theorem getForUpdate_yields {kind : TokenKind} {secret : String}
    {next : Option (Nat × UserToken) → Db α} (h : book.Shows context d.draft)
    (hsome : ∀ id, ∀ τ ∈ book.mailed kind, τ.secret = secret →
      (next (some (id, τ.row context))).Yields Q d)
    (hnone : (∀ τ ∈ book.mailed kind, τ.secret ≠ secret) → (next none).Yields Q d) :
    (UserTokens.getForUpdate kind (context.crypto.sha256 secret) >>= next).Yields Q d := by
  refine Prog.Yields.scalarForUpdate (fun id token hrow hhash => ?_) fun hnobody => ?_
  · obtain ⟨τ, hτ, _, rfl⟩ := (h.secrets kind).exists_row hrow
    exact hsome id τ hτ (context.crypto.sha256_injective (beq_iff_eq.mp hhash))
  · refine hnone ?_
    rintro τ hτ rfl
    obtain ⟨id, hrow⟩ := ((h.secrets kind).mem τ).mp hτ
    exact Bool.eq_false_iff.mp (hnobody id _ hrow) (beq_self_eq_true _)

theorem getForUser_yields {kind : TokenKind} {userId : Nat}
    {next : Option (Nat × UserToken) → Db α} (h : book.Shows context d.draft)
    (hnext : ∀ existing, (∀ id token, existing = some (id, token) →
        ∃ τ ∈ book.mailed kind, τ.userId = userId ∧ token = τ.row context) →
      (∀ τ ∈ book.mailed kind, τ.userId = userId → ∃ id, existing = some (id, τ.row context)) →
        (next existing).Yields Q d) : (UserTokens.getForUser kind userId >>= next).Yields Q d := by
  refine Prog.Yields.scalar (fun id token hrow howner => hnext _ ?_ ?_)
    fun hnobody => hnext none nofun ?_
  · rintro _ _ ⟨⟩
    obtain ⟨τ, hτ, _, rfl⟩ := (h.secrets kind).exists_row hrow
    exact ⟨τ, hτ, beq_iff_eq.mp howner, rfl⟩
  · intro τ hτ howner'
    obtain ⟨σ, hσ, _, rfl⟩ := (h.secrets kind).exists_row hrow
    obtain rfl : σ = τ := (h.secrets kind).unique hσ hτ
      (.inl ((beq_iff_eq.mp howner).trans howner'.symm))
    exact ⟨id, rfl⟩
  · rintro τ hτ rfl
    obtain ⟨id, hrow⟩ := ((h.secrets kind).mem τ).mp hτ
    exact (Bool.eq_false_iff.mp (hnobody id _ hrow) (beq_self_eq_true _)).elim

theorem getSession_yields {secret : String} {next : Option (Nat × RefreshTokenSession) → Db α}
    (h : book.Shows context d.draft)
    (hsome : ∀ id session, d.working sessionTable id = some session →
      session.tokenHash = context.crypto.sha256 secret → (next (some (id, session))).Yields Q d)
    (hnone : (∀ login ∈ book.logins, login.secret ≠ secret) → (next none).Yields Q d) :
    (RefreshSessions.getForUpdate (hashRefreshToken context.crypto secret)
      >>= next).Yields Q d := by
  refine Prog.Yields.scalarForUpdate (fun id session hrow hhash => ?_) fun hnobody => ?_
  · exact hsome id session hrow (beq_iff_eq.mp hhash)
  · refine hnone ?_
    rintro login hlogin rfl
    obtain ⟨id, session, hrow, hstored⟩ := (h.logins.mem login).mp hlogin
    exact Bool.eq_false_iff.mp (hnobody id session hrow) (beq_iff_eq.mpr hstored.tokenHash)

theorem getCurrentUser_yields {credentials : Option String}
    {Q : Except Exn (Int × Nat × User) → Desk database → Prop} (h : book.Shows context d.draft)
    (hok : ∀ userId user account, d.working userTable userId = some user →
      account.Stored context user → book.Bears context credentials d.clock userId account →
        Q (.ok (d.clock, userId, user)) d)
    (herror : (∀ userId account, ¬ book.Bears context credentials d.clock userId account) →
      Q (.error unauthorized) d) : (getCurrentUser context credentials).Yields Q d := by
  unfold getCurrentUser
  cases credentials with
  | none =>
      refine herror fun userId account hbears => ?_
      cases hbears.1
  | some token =>
      refine Prog.Yields.now ?_
      have hnamed : authenticatedAs context (some token) d.clock
          = (context.crypto.decode token d.clock).map (·.sub) := rfl
      cases hdecode : context.crypto.decode token d.clock with
      | none =>
          refine herror fun userId account hbears => ?_
          rw [Book.Bears, hnamed, hdecode] at hbears
          cases hbears.1
      | some claims =>
          rw [hdecode, Option.map_some] at hnamed
          refine Prog.Yields.now (get_yields h (fun user account hrow hstored haccount => ?_)
            fun hnobody => ?_)
          · have hconfirmed := hstored.confirmed
            dsimp only
            cases hverified : user.emailVerifiedAt with
            | none =>
                rw [hverified] at hconfirmed
                refine herror fun userId account' hbears => ?_
                obtain rfl := Option.some.inj (hnamed.symm.trans hbears.1)
                cases haccount.symm.trans hbears.2.1
                cases hconfirmed.symm.trans hbears.2.2
            | some verifiedAt =>
                rw [hverified] at hconfirmed
                exact hok claims.sub user account hrow hstored ⟨hnamed, haccount, hconfirmed⟩
          · refine herror fun userId account hbears => ?_
            obtain rfl := Option.some.inj (hnamed.symm.trans hbears.1)
            cases hnobody.symm.trans hbears.2.1

/-! ### Statements -/

theorem updateRow_yields {T : Table} {id : Nat} {f : T.Row → T.Row} {row : T.Row}
    {next : Unit → Db α} (hrow : d.working T id = some row)
    (h : (next ()).Yields Q (d.withWorking (d.working.put T id (some (f row))))) :
    (updateRow T id f >>= next).Yields Q d := by
  rintro found _ ⟨rfl, rfl⟩
  rw [hrow]
  exact h

theorem insertRow_yields {T : Table} {row : Nat → T.Row}
    {Q : Except Exn Nat → Desk database → Prop} (hnew : ¬ d.working.Clashes T (row (d.next T)))
    (h : Q (.ok (d.next T)) (d.insert T (row (d.next T)))) : (insertRow T row).Yields Q d := by
  rintro id _ (⟨hclash, _⟩ | ⟨_, rfl, rfl⟩)
  · exact (hnew hclash).elim
  · exact h

/-! ### Accounts -/

theorem Book.Shows.setAccount {s : Shelf database} (h : book.Shows context s) {userId : Nat}
    {account : Account} {user : User} (hlt : userId < s.next userTable)
    (hstored : account.Stored context user) :
    (book.setAccount userId account).Shows context
      (s.replace userTable (Function.update (s.rows userTable) userId (some user))) := by
  refine h.replaceUsers (fun id => ?_) fun id hle => ?_
  · by_cases hid : id = userId
    · subst hid
      simp only [Function.update_self]
      exact .some hstored
    · simp only [Function.update_of_ne hid]
      exact h.accounts id
  · rw [Function.update_of_ne (by omega)]
    exact h.beyond userTable id hle

/-- The one account at an address goes to a new row. -/
theorem Book.Shows.unclashed {s : Shelf database} (h : book.Shows context s) {user : User}
    (hunused : book.Unused user.email) : ¬ s.rows.Clashes userTable user := by
  rintro ⟨id, other, hrow, hclash⟩
  obtain ⟨account, haccount, hstored⟩ := h.exists_account hrow
  have hsame : user.email = other.email := beq_iff_eq.mp hclash
  exact hunused id account ⟨haccount, hstored.email.symm.trans hsame.symm⟩

/-! ### Tokens -/

theorem Book.Shows.fresh {s : Shelf database} (h : book.Shows context s) {secret : String}
    (hfresh : secret ∉ s.drawn) : book.Fresh secret := by
  refine ⟨fun kind τ hτ => ?_, fun login hlogin => ?_⟩
  · rintro rfl
    exact hfresh ((h.secrets kind).mem_drawn hτ)
  · rintro rfl
    exact hfresh (h.logins.mem_drawn hlogin)

theorem Book.Shows.drop {s : Shelf database} (h : book.Shows context s) (kind : TokenKind)
    (userId : Nat) : (book.drop kind userId).Shows context
      (s.replace (tokenTable kind) fun id => (s.rows (tokenTable kind) id).bind
        fun (token : UserToken) => if token.userId == userId then none else some token) := by
  refine h.replaceTokens ((h.secrets kind).delete userId) fun id hle => ?_
  rw [h.beyond _ id hle]
  rfl

theorem Book.Shows.post {s : Shelf database} (h : book.Shows context s) {kind : TokenKind}
    {τ : MailedSecret} {id : Nat} (hfree : s.rows (tokenTable kind) id = none)
    (hlt : id < s.next (tokenTable kind)) (hdrawn : τ.secret ∈ s.drawn)
    (hnew : ∀ σ ∈ book.mailed kind, σ.userId ≠ τ.userId ∧ σ.secret ≠ τ.secret) :
    (book.post kind τ).Shows context (s.replace (tokenTable kind)
      (Function.update (s.rows (tokenTable kind)) id (some (τ.row context)))) := by
  refine h.replaceTokens ((h.secrets kind).insert hfree hdrawn hnew) fun id' hle => ?_
  rw [Function.update_of_ne (by omega)]
  exact h.beyond _ id' hle

/-- The tables hold this book, and these tokens have been drawn. -/
def Book.Left (context : Context) (book : Book) (drawn : List String) (d : Desk database) : Prop :=
  book.Shows context d.draft ∧ d.drawn = drawn

theorem deleteLinkedJobs_yields {drawn : List String} (kind : TokenKind) (tokenIds : List Nat)
    (h : book.Left context drawn d) : (UserTokens.deleteLinkedJobs kind tokenIds).Yields
      (fun r d' => ∃ value, r = .ok value ∧ book.Left context drawn d') d := by
  induction tokenIds generalizing d with
  | nil => exact ⟨(), rfl, h⟩
  | cons tokenId tokenIds ih =>
      refine Prog.Yields.statement fun _ _ => ih ⟨?_, h.2⟩
      refine h.1.replaceJobs (fun id job hrow => ?_) fun id hle => ?_
      · cases hold : d.working jobTable id with
        | none =>
            rw [hold] at hrow
            cases hrow
        | some old =>
            rw [hold, Option.bind_some] at hrow
            split at hrow
            · cases hrow
            · cases hrow
              exact h.1.jobs id job hold
      · have hnone : d.working jobTable id = none := h.1.beyond jobTable id hle
        rw [hnone]
        rfl

theorem deleteForUser_yields {drawn : List String} (kind : TokenKind) (userId : Nat)
    (h : book.Left context drawn d) : (UserTokens.deleteForUser kind userId).Yields
      (fun r d' => ∃ value, r = .ok value ∧ (book.drop kind userId).Left context drawn d') d := by
  refine Prog.Yields.statement fun rows _ => deleteLinkedJobs_yields kind (rows.map (·.1)) ?_
  exact ⟨h.1.drop kind userId, h.2⟩

/-- No stored job mails the token. -/
def Unsent (kind : TokenKind) (tokenId : Nat) (d : Desk database) : Prop :=
  ∀ id (job : EmailOutboxJob), d.working jobTable id = some job →
    ∃ kind' tokenId', Mails kind' tokenId' job ∧ (kind' = kind → tokenId' ≠ tokenId)

theorem replace_yields {kind : TokenKind} {τ : MailedSecret} (h : book.Shows context d.draft)
    (hdrawn : τ.secret ∈ d.drawn) (hfresh : book.Fresh τ.secret) :
    (UserTokens.replace kind τ.userId (context.crypto.sha256 τ.secret) τ.expiresAt
      τ.sentAt).Yields (fun r d' => ∃ tokenId, r = .ok tokenId
        ∧ (book.mail kind τ).Shows context d'.draft ∧ tokenId < d'.next (tokenTable kind)
        ∧ Unsent kind tokenId d') d := by
  refine (deleteForUser_yields kind τ.userId ⟨h, rfl⟩).bind_ok fun _ d₁ ⟨hdropped, hdrawn₁⟩ => ?_
  have hmailed : ∀ σ ∈ (book.drop kind τ.userId).mailed kind,
      σ.userId ≠ τ.userId ∧ σ.secret ≠ τ.secret := fun σ hσ =>
    have hkept := Book.mem_drop.mp hσ
    ⟨hkept.2, hfresh.1 kind σ hkept.1⟩
  have hgiven := Desk.next_lt_insert d₁.next (tokenTable kind)
  refine insertRow_yields ?_ ⟨d₁.next (tokenTable kind), rfl, ?_, ?_, ?_⟩
  · rintro ⟨id, other, hrow, hclash⟩
    obtain ⟨σ, hσ, _, rfl⟩ := (hdropped.secrets kind).exists_row hrow
    obtain ⟨howner, hsecret⟩ := hmailed σ hσ
    obtain hsame | hsame := Bool.or_eq_true_iff.mp hclash
    · exact howner (beq_iff_eq.mp hsame).symm
    · exact hsecret (context.crypto.sha256_injective (beq_iff_eq.mp hsame)).symm
  · exact (hdropped.reserve (tokenTable kind)).post (hdropped.beyond _ _ le_rfl) hgiven
      (hdrawn₁.symm ▸ hdrawn : τ.secret ∈ d₁.drawn) hmailed
  · exact hgiven
  · intro id job hrow
    have hkept : d₁.working jobTable id = some job := hrow
    obtain ⟨kind', tokenId, hlt, hmails⟩ := hdropped.jobs id job hkept
    refine ⟨kind', tokenId, hmails, ?_⟩
    rintro rfl rfl
    exact Nat.lt_irrefl _ hlt

theorem append_ne_append {c c' : Char} {a b : String} (hne : c ≠ c')
    (ha : a.toList.head? = some c) (hb : b.toList.head? = some c') (x y : String) :
    a ++ x ≠ b ++ y := by
  intro h
  have hfirst := congrArg (fun key => key.toList.head?) h
  simp only [String.toList_append, List.head?_append, ha, hb, Option.some_or,
    Option.some.injEq] at hfirst
  exact hne hfirst

theorem TokenKind.jobKey_ne {kind kind' : TokenKind} (hne : kind ≠ kind') (tokenId tokenId' : Nat) :
    kind.jobKey tokenId ≠ kind'.jobKey tokenId' := by
  have hkeys : TokenKind.confirmation.jobKey tokenId ≠ TokenKind.passwordReset.jobKey tokenId' :=
    append_ne_append (c := 'e') (by decide) rfl rfl _ _
  have hkeys' : TokenKind.passwordReset.jobKey tokenId ≠ TokenKind.confirmation.jobKey tokenId' :=
    append_ne_append (c := 'p') (by decide) rfl rfl _ _
  cases kind <;> cases kind' <;> first | exact (hne rfl).elim | assumption

/-- The jobs that mail two tokens, also of two kinds, do not collide. -/
theorem Mails.apart {kind kind' : TokenKind} {tokenId tokenId' : Nat} {job job' : EmailOutboxJob}
    (h : Mails kind tokenId job) (h' : Mails kind' tokenId' job')
    (hne : kind' = kind → tokenId' ≠ tokenId) : job.collides job' = false := by
  by_cases hkind : kind' = kind
  · subst hkind
    exact h.not_collides h' (hne rfl).symm
  · have hkey := TokenKind.jobKey_ne (Ne.symm hkind) tokenId tokenId'
    unfold EmailOutboxJob.collides
    rw [h.key, h'.key, h.confirmation, h'.confirmation, h.passwordReset, h'.passwordReset]
    cases kind <;> cases kind' <;> first | exact (hkind rfl).elim | simp [hkey]

theorem Book.Shows.addJob {s : Shelf database} (h : book.Shows context s) (kind : TokenKind)
    {tokenId id : Nat} {job : EmailOutboxJob} (hid : id < s.next jobTable)
    (hlt : tokenId < s.next (tokenTable kind)) (hmails : Mails kind tokenId job) :
    book.Shows context
      (s.replace jobTable (Function.update (s.rows jobTable) id (some job))) := by
  refine h.replaceJobs (fun id' job' hrow => ?_) fun id' hle => ?_
  · by_cases hsame : id' = id
    · subst hsame
      rw [Function.update_self] at hrow
      cases hrow
      exact ⟨kind, tokenId, hlt, hmails⟩
    · rw [Function.update_of_ne hsame] at hrow
      exact h.jobs id' job' hrow
  · rw [Function.update_of_ne (by omega)]
    exact h.beyond jobTable id' hle

theorem enqueueJob_yields {kind : TokenKind} {tokenId : Nat} {message : EmailMessage} {now : Int}
    (h : book.Shows context d.draft) (hlt : tokenId < d.next (tokenTable kind))
    (hunsent : Unsent kind tokenId d)
    (hkey : message.idempotencyKey = some (kind.jobKey tokenId)) :
    (EmailOutbox.enqueueJob message now (if kind = .confirmation then some tokenId else none)
      (if kind = .passwordReset then some tokenId else none)).Yields
        (fun r d' => ∃ id, r = .ok id ∧ book.Shows context d'.draft) d := by
  unfold EmailOutbox.enqueueJob
  rw [hkey]
  refine insertRow_yields ?_ ⟨_, rfl, ?_⟩
  · rintro ⟨id, other, hrow, hclash⟩
    obtain ⟨kind', tokenId', hother, hne⟩ := hunsent id other hrow
    exact Bool.eq_false_iff.mp (Mails.apart ⟨rfl, rfl, rfl⟩ hother hne) hclash
  · exact (h.reserve jobTable).addJob kind (Desk.next_lt_insert d.next jobTable) hlt ⟨rfl, rfl, rfl⟩

/-- **A new secret.** It takes the place of those before, and a job takes it to the user. -/
theorem mail_yields {kind : TokenKind} {τ : MailedSecret} {now : Int} {user : User} {rest : Db α}
    (h : book.Shows context d.draft) (hdrawn : τ.secret ∈ d.drawn) (hfresh : book.Fresh τ.secret)
    (hrest : ∀ d', (book.mail kind τ).Shows context d'.draft → rest.Yields Q d') :
    (UserTokens.replace kind τ.userId (context.crypto.sha256 τ.secret) τ.expiresAt τ.sentAt
      >>= fun tokenId => EmailOutbox.enqueueJob (kind.email context user τ.secret tokenId now) now
        (if kind = .confirmation then some tokenId else none)
        (if kind = .passwordReset then some tokenId else none) >>= fun _ => rest).Yields Q d := by
  refine (replace_yields h hdrawn hfresh).bind_ok fun tokenId d₁ ⟨hmailed, hlt, hunsent⟩ => ?_
  have hkey : (kind.email context user τ.secret tokenId now).idempotencyKey
      = some (kind.jobKey tokenId) := by cases kind <;> rfl
  exact (enqueueJob_yields hmailed hlt hunsent hkey).bind_ok fun _ d₂ hshows => hrest d₂ hshows

/-! ### Login sessions -/

section Sessions

variable {s : Shelf database} {secret : String}

/-- A token that has just been drawn is that of no session, whether its login goes on or is over. -/
theorem Book.Shows.unheld (h : book.Shows context s) (hfresh : secret ∉ s.drawn) :
    ∀ id (session : RefreshTokenSession), s.rows sessionTable id = some session →
      session.tokenHash ≠ context.crypto.sha256 secret := by
  intro id session hrow hsame
  obtain ⟨drawn, hdrawn, hhash⟩ := h.logins.drawn id session hrow
  obtain rfl := context.crypto.sha256_injective (hsame.symm.trans hhash)
  exact hfresh hdrawn

theorem Book.Shows.addLogin (h : book.Shows context s) {login : OpenLogin} {id : Nat}
    {session : RefreshTokenSession} (hfree : s.rows sessionTable id = none)
    (hlt : id < s.next sessionTable) (hstored : login.Stored context session)
    (hdrawn : login.secret ∈ s.drawn)
    (hnew : ∀ id' (other : RefreshTokenSession), s.rows sessionTable id' = some other →
      other.tokenHash ≠ context.crypto.sha256 login.secret) :
    (book.addLogin login).Shows context
      (s.replace sessionTable (Function.update (s.rows sessionTable) id (some session))) := by
  refine h.replaceSessions (h.logins.insert hfree hstored hdrawn fun id' other hrow => ?_)
    fun id' hle => ?_
  · rw [hstored.tokenHash]
    exact hnew id' other hrow
  · rw [Function.update_of_ne (by omega)]
    exact h.beyond sessionTable id' hle

/-- The login with the secret of a row is over, whatever becomes of the row. -/
theorem Book.Shows.endLogin (h : book.Shows context s) {id : Nat} {session : RefreshTokenSession}
    (hrow : s.rows sessionTable id = some session)
    (hhash : session.tokenHash = context.crypto.sha256 secret)
    (version : Option (database.Row sessionTable))
    (hversion : ∀ session' : RefreshTokenSession, version = some session' →
      session'.tokenHash = session.tokenHash ∧ session'.revokedAt ≠ none) :
    (book.endLogin secret).Shows context
      (s.replace sessionTable (Function.update (s.rows sessionTable) id version)) := by
  refine h.replaceSessions (h.logins.keep fun id' => ?_) fun id' hle => ?_
  · by_cases hid : id' = id
    · subst hid
      rw [Function.update_self]
      refine .inr ⟨session, hrow, fun login hstored hne => hne ?_, hversion⟩
      exact context.crypto.sha256_injective (hstored.tokenHash.symm.trans hhash)
    · rw [Function.update_of_ne hid]
      refine .inl ⟨rfl, fun other login hother hstored hsame => hid ?_⟩
      have hother' : other.tokenHash = session.tokenHash := by
        rw [hstored.tokenHash, hsame, hhash]
      exact h.logins.distinct id' id other session hother hrow hother'
  · have hlt := h.lt_next hrow
    rw [Function.update_of_ne (by omega)]
    exact h.beyond sessionTable id' hle

/-- There is no login with this secret. -/
theorem Book.endLogin_eq (hnone : ∀ login ∈ book.logins, login.secret ≠ secret) :
    book.endLogin secret = book := by
  have hlogins : {login ∈ book.logins | login.secret ≠ secret} = book.logins :=
    Set.sep_eq_self_iff_mem_true.mpr hnone
  rw [endLogin, hlogins]

/-- The login with the secret of a row goes on with another. -/
theorem Book.Shows.rotate (h : book.Shows context s) {id : Nat} {session : RefreshTokenSession}
    (hrow : s.rows sessionTable id = some session)
    (hhash : session.tokenHash = context.crypto.sha256 secret) (hopen : session.revokedAt = none)
    {replacement : String} {expiresAt now : Int} (hdrawn : replacement ∈ s.drawn)
    (hnew : ∀ id' (other : RefreshTokenSession), s.rows sessionTable id' = some other →
      other.tokenHash ≠ context.crypto.sha256 replacement) :
    ((book.endLogin secret).addLogin ⟨session.userId, replacement, expiresAt⟩).Shows context
      (s.replace sessionTable (Function.update (s.rows sessionTable) id
        (some (RefreshSessions.rotate (hashRefreshToken context.crypto replacement) expiresAt now
          session)))) := by
  have hended := h.endLogin hrow hhash none nofun
  have hrows := s.replace_self sessionTable (Function.update (s.rows sessionTable) id none)
  have hstored : OpenLogin.Stored context ⟨session.userId, replacement, expiresAt⟩
      (RefreshSessions.rotate (hashRefreshToken context.crypto replacement) expiresAt now
        session) := ⟨rfl, rfl, rfl, hopen⟩
  have hadded := hended.addLogin ?_ (h.lt_next hrow) hstored hdrawn ?_
  · simpa only [hrows, Shelf.replace_replace, Function.update_idem] using hadded
  · rw [hrows, Function.update_self]
  · intro id' other hother
    rw [hrows] at hother
    by_cases hid : id' = id
    · rw [hid, Function.update_self] at hother
      cases hother
    · rw [Function.update_of_ne hid] at hother
      exact hnew id' other hother

/-- The logins of a user are over. -/
theorem Book.Shows.endLogins (h : book.Shows context s) {userId : Nat}
    {p : RefreshTokenSession → Bool} {f : RefreshTokenSession → Option RefreshTokenSession}
    (hp : ∀ session, session.revokedAt = none → (p session = true ↔ session.userId = userId))
    (hf : ∀ session session', f session = some session' →
      session'.tokenHash = session.tokenHash ∧ session'.revokedAt ≠ none) :
    (book.endLogins userId).Shows context
      (s.replace sessionTable fun id => (s.rows sessionTable id).bind
        fun (session : RefreshTokenSession) => if p session then f session else some session) := by
  refine h.replaceSessions (h.logins.close hp hf) fun id hle => ?_
  rw [h.beyond sessionTable id hle]
  rfl

end Sessions

theorem Book.Shows.updateUser {s : Shelf database} (h : book.Shows context s)
    {p : Nat → User → Bool} {f : User → User} {userId : Nat} {user : User} {account : Account}
    (hrow : s.rows userTable userId = some user) (hp : ∀ id user, p id user = true → id = userId)
    (hmatch : p userId user = true → account.Stored context (f user))
    (hmiss : p userId user = false → account.Stored context user) :
    (book.setAccount userId account).Shows context
      (s.replace userTable fun id => (s.rows userTable id).bind
        fun (user : User) => if p id user then some (f user) else some user) := by
  refine h.replaceUsers (accounts_update h.accounts hrow hp hmatch hmiss) fun id hle => ?_
  rw [h.beyond userTable id hle]
  rfl

theorem Book.Shows.strike {s : Shelf database} (h : book.Shows context s) (userId : Nat) :
    ({ book with account := Function.update book.account userId none } : Book).Shows context
      (s.replace userTable fun id => (s.rows userTable id).bind
        fun (user : User) => if id == userId then none else some user) := by
  refine h.replaceUsers (accounts_delete h.accounts userId) fun id hle => ?_
  rw [h.beyond userTable id hle]
  rfl

/-- An account goes with its secrets of both kinds and its logins. -/
theorem Book.forget_eq (book : Book) (userId : Nat) : book.forget userId
    = ((({ book with account := Function.update book.account userId none } : Book).drop
        .confirmation userId).drop .passwordReset userId).endLogins userId := by
  have hmailed : (book.forget userId).mailed = Function.update (Function.update book.mailed
      .confirmation {τ ∈ book.mailed .confirmation | τ.userId ≠ userId})
        .passwordReset {τ ∈ book.mailed .passwordReset | τ.userId ≠ userId} := by
    funext kind
    cases kind <;> rfl
  rw [Book.mk.injEq]
  exact ⟨rfl, hmailed, rfl⟩

/-- **The cascade.** -/
theorem deleteUser_yields {userId : Nat} {user : User} (h : book.Shows context d.draft)
    (hrow : d.working userTable userId = some user) : (Users.deleteUser userId).Yields
      (fun r d' => r = .ok () ∧ (book.forget userId).Shows context d'.shelf) d := by
  refine Prog.Yields.statement fun rows hfinds => ?_
  obtain rfl := hfinds.eq_singleton hrow
  refine Prog.Yields.bind_ok (P := fun _ d' => (book.forget userId).Shows context d'.draft) ?_
    fun _ d' hforgotten => Prog.Yields.commit ⟨rfl, hforgotten⟩
  refine (deleteForUser_yields .confirmation userId ⟨h.strike userId, rfl⟩).bind_ok
    fun _ d₁ hconfirmation => ?_
  refine (deleteForUser_yields .passwordReset userId hconfirmation).bind_ok fun _ d₂ hreset => ?_
  refine Prog.Yields.statement fun _ _ => ⟨(), rfl, ?_⟩
  rw [book.forget_eq userId]
  exact hreset.1.endLogins (fun _ _ => beq_iff_eq) nofun

/-- **A new password.** The reset tokens of the user go, and the logins are over. -/
theorem storePassword_yields {userId : Nat} {account : Account} {user : User}
    {newPassword salt : String} {now startedAt : Int} (h : book.Shows context d.draft)
    (hrow : d.working userTable userId = some user) (hstored : account.Stored context user)
    (hshort : Hashable newPassword) :
    (storePassword userId (context.crypto.hashpw newPassword salt) now startedAt).Yields
      (fun r d' => r = .ok () ∧ (((book.setAccount userId
        { account with password := newPassword }).drop .passwordReset userId).endLogins
          userId).Shows context d'.shelf) d := by
  refine updateRow_yields hrow ?_
  have hset : (book.setAccount userId { account with password := newPassword }).Shows context
      (d.draft.replace userTable (Function.update (d.working userTable) userId (some { user with
        passwordHash := context.crypto.hashpw newPassword salt, updatedAt := startedAt }))) :=
    h.setAccount (h.lt_next hrow)
      { hstored with hashable := hshort, password := ⟨salt, rfl⟩ }
  refine (deleteForUser_yields .passwordReset userId ⟨hset, rfl⟩).bind_ok fun _ d₁ hdropped => ?_
  refine Prog.Yields.statement fun _ _ => Prog.Yields.commit ⟨rfl, ?_⟩
  refine hdropped.1.endLogins (fun session hopen => ?_) ?_
  · rw [hopen]
    simp
  · rintro session _ ⟨⟩
    exact ⟨rfl, Option.some_ne_none _⟩

end EventsApi
