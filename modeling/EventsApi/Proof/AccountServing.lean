import EventsApi.Proof.AccountOperations
import EventsApi.Proof.ConsentHistory

/-!
# The service refines the book of accounts

Each request, on tables that hold a book, answers as the book allows and leaves tables that hold the
book it becomes. So does every history of requests that are served one after the other.
-/

namespace EventsApi

open ReadCommitted

variable {context : Context} {legalPages : List LegalPage} {eventIds : List Int} {book : Book}
  {s : Shelf database}

variable (context legalPages eventIds) in
/-- The request ends as the book allows. -/
def Book.Answers (book : Book) (now : Int) (request : UserRequest) (r : Except Exn UserReply)
    (d : Desk database) : Prop :=
  ∃ book', book.Serves context legalPages eventIds now request r book' ∧ book'.Shows context d.shelf

/-! ### Registration and confirmation -/

theorem createAccount_yields {payload : RegisterRequest} {termsVersion rawToken : String}
    {d : Desk database} (h : book.Shows context d.draft) (hstored : book.Shows context d.shelf)
    (hunused : book.Unused payload.email) (hfresh : book.Fresh rawToken)
    (hdrawn : rawToken ∈ d.drawn) (now : Int) :
    (createAccount context payload termsVersion rawToken now now).Yields (fun r d' =>
      r = .error .valueError ∧ ¬ Hashable payload.password ∧ book.Shows context d'.shelf
        ∨ r = .ok () ∧ Hashable payload.password ∧ ∃ userId, book.account userId = none
          ∧ ((book.setAccount userId payload.account).mail .confirmation
            ⟨userId, rawToken, now,
              now + parseDuration context.settings.emailConfirmationExpiresIn⟩).Shows context
                d'.shelf) d := by
  refine Prog.Yields.draw fun salt _ => ?_
  by_cases hshort : Hashable payload.password
  · rw [hashPassword_short hshort]
    refine Prog.Yields.ok_bind (Prog.Yields.after (Prog.Yields.after (insertRow_yields
      ((h.draw salt).unclashed hunused) ?_)))
    have hset : ∀ user : User, payload.account.Stored context user →
        (book.setAccount (d.next userTable) payload.account).Shows context
          (({ d with drawn := salt :: d.drawn } : Desk database).insert userTable user).draft :=
      fun user =>
        ((h.draw salt).reserve userTable).setAccount (Desk.next_lt_insert d.next userTable)
    exact mail_yields (τ := ⟨d.next userTable, rawToken, now, _⟩)
      (hset _ ⟨rfl, hshort, ⟨salt, rfl⟩, rfl, rfl, rfl, rfl⟩)
      (List.mem_cons_of_mem _ hdrawn) hfresh fun d' hmailed =>
        Prog.Yields.commit (.inr ⟨rfl, hshort, d.next userTable, h.vacant, hmailed⟩)
  · rw [hashPassword_long hshort]
    exact .inl ⟨rfl, hshort, hstored.draw salt⟩

theorem register_yields (h : book.Shows context s) (payload : RegisterRequest) :
    (register context legalPages payload).Yields (fun r => book.Answers context legalPages eventIds
      s.clock (.register payload) (r.map .message)) s.desk := by
  refine Prog.Yields.now (getByEmail_yields h (fun userId user account _ _ haddress => ?_)
    fun hunused => ?_)
  · exact ⟨book, .addressTaken haddress, h⟩
  · dsimp only
    cases hterms : getTermsVersion legalPages payload.locale with
    | none => exact ⟨book, .termsMissing hunused hterms, h⟩
    | some termsVersion =>
        have hpublished : getTermsVersion legalPages payload.locale ≠ none := by
          rw [hterms]
          exact Option.some_ne_none _
        refine Prog.Yields.draw fun rawToken hraw => Prog.Yields.now ?_
        have hdrawn := h.draw rawToken
        refine Prog.Yields.after (Prog.Yields.mapError (createAccount_yields hdrawn hdrawn hunused
          (h.fresh hraw) List.mem_cons_self s.clock) ?_ ?_)
        · rintro _ d (⟨⟨⟩, _⟩ | ⟨_, hshort, userId, hnew, hshows⟩)
          exact ⟨_, .registered hunused hpublished hshort hnew (h.fresh hraw), hshows⟩
        · rintro _ d (⟨⟨⟩, hlong, hshows⟩ | ⟨⟨⟩, _⟩)
          exact ⟨book, .registrationTooLong hunused hpublished hlong, hshows⟩

section Live

variable {kind : TokenKind} {secret : String} {now : Int} {τ : MailedSecret}

theorem Book.Shows.dead_of_expired (h : book.Shows context s) (hτ : τ ∈ book.mailed kind)
    (hsecret : τ.secret = secret) (hexpired : τ.expiresAt ≤ now) :
    ∀ σ account, ¬ book.Live kind secret now σ account := by
  rintro σ account ⟨hσ, hsecret', hlater, _⟩
  obtain rfl := (h.secrets kind).unique hτ hσ (.inr (hsecret.trans hsecret'.symm))
  omega

theorem Book.Shows.dead_of_ownerless (h : book.Shows context s) (hτ : τ ∈ book.mailed kind)
    (hsecret : τ.secret = secret) (hnobody : book.account τ.userId = none) :
    ∀ σ account, ¬ book.Live kind secret now σ account := by
  rintro σ account ⟨hσ, hsecret', _, haccount⟩
  obtain rfl := (h.secrets kind).unique hτ hσ (.inr (hsecret.trans hsecret'.symm))
  cases hnobody.symm.trans haccount

end Live

theorem confirmEmail_yields (h : book.Shows context s) (secret : String) :
    (confirmEmail context secret).Yields (fun r => book.Answers context legalPages eventIds
      s.clock (.confirmEmail secret) (r.map fun _ => .noContent)) s.desk := by
  refine Prog.Yields.now (getForUpdate_yields h (fun id τ hτ hsecret => ?_) fun hnone => ?_)
  · refine Prog.Yields.now ?_
    split
    · rename_i hexpired
      exact ⟨book, .notConfirmed (h.dead_of_expired hτ hsecret hexpired), h⟩
    · rename_i hlater
      refine get_yields h (fun user account hrow hstored haccount => ?_) fun hnobody => ?_
      · refine updateRow_yields hrow ?_
        have hset : (book.setAccount τ.userId { account with confirmed := true }).Shows context
            (s.replace userTable (Function.update (s.rows userTable) τ.userId
              (some { user with emailVerifiedAt := some s.clock, updatedAt := s.clock }))) :=
          h.setAccount (h.lt_next hrow) { hstored with confirmed := rfl }
        refine (deleteForUser_yields .confirmation τ.userId ⟨hset, rfl⟩).bind_ok
          fun _ d hdropped => Prog.Yields.commit ?_
        exact ⟨_, .confirmed ⟨hτ, hsecret, not_le.mp hlater, haccount⟩, hdropped.1⟩
      · exact ⟨book, .notConfirmed (h.dead_of_ownerless hτ hsecret hnobody), h⟩
  · exact ⟨book, .notConfirmed fun σ account hlive => hnone σ hlive.1 hlive.2.1, h⟩

theorem resetPassword_yields (h : book.Shows context s) (secret newPassword : String) :
    (resetPassword context secret newPassword).Yields (fun r => book.Answers context legalPages
      eventIds s.clock (.resetPassword secret newPassword) (r.map fun _ => .noContent)) s.desk := by
  refine Prog.Yields.now (getForUpdate_yields h (fun id τ hτ hsecret => ?_) fun hnone => ?_)
  · refine Prog.Yields.now ?_
    split
    · rename_i hexpired
      exact ⟨book, .notReset (h.dead_of_expired hτ hsecret hexpired), h⟩
    · rename_i hlater
      refine get_yields h (fun user account hrow hstored haccount => ?_) fun hnobody => ?_
      · have hlive : book.Live .passwordReset secret s.clock τ account :=
          ⟨hτ, hsecret, not_le.mp hlater, haccount⟩
        refine Prog.Yields.draw fun salt _ => ?_
        by_cases hshort : Hashable newPassword
        · rw [hashPassword_short hshort]
          refine Prog.Yields.ok_bind
            (Prog.Yields.mono (storePassword_yields (h.draw salt) hrow hstored hshort) ?_)
          rintro _ d ⟨rfl, hshows⟩
          exact ⟨_, .reset hlive hshort, hshows⟩
        · rw [hashPassword_long hshort]
          exact ⟨book, .resetTooLong hlive hshort, h.draw salt⟩
      · exact ⟨book, .notReset (h.dead_of_ownerless hτ hsecret hnobody), h⟩
  · exact ⟨book, .notReset fun σ account hlive => hnone σ hlive.1 hlive.2.1, h⟩

/-! ### Secrets by mail -/

theorem sendToken_yields (h : book.Shows context s) (kind : TokenKind) {email : String}
    {userId : Nat} {user : User} {account : Account} (haddress : book.At email userId account)
    (hstate : account.confirmed = kind.ofConfirmed) :
    (sendToken context kind (kind.cooldown context.settings) (kind.expiresIn context.settings)
      (kind.email context) kind.message userId user s.clock).Yields (fun r => book.Answers context
        legalPages eventIds s.clock (kind.request email) (r.map .message)) s.desk := by
  refine Prog.Yields.now (getForUser_yields h fun existing hfound hall => ?_)
  split
  · rename_i hrecent
    obtain ⟨⟨id, token⟩, rfl, hlater⟩ := (Option.any_eq_true _ _).mp hrecent
    obtain ⟨τ, hτ, howner, rfl⟩ := hfound id token rfl
    exact ⟨book, .mailedBefore rfl haddress hstate hτ howner (of_decide_eq_true hlater), h⟩
  · rename_i hover
    have hcool : ∀ τ ∈ book.mailed kind, τ.userId = userId →
        τ.sentAt + parseDuration (kind.cooldown context.settings) ≤ s.clock := by
      intro τ hτ howner
      obtain ⟨id, rfl⟩ := hall τ hτ howner
      exact not_lt.mp fun hlater => hover (decide_eq_true hlater)
    refine Prog.Yields.draw fun rawToken hraw => ?_
    refine mail_yields (τ := ⟨userId, rawToken, s.clock, _⟩) (h.draw rawToken) List.mem_cons_self
      (h.fresh hraw) fun d hmailed => Prog.Yields.commit_bind ?_
    exact ⟨_, .mailed rfl haddress hstate hcool (h.fresh hraw), hmailed⟩

theorem request_yields (h : book.Shows context s) (kind : TokenKind) (email : String) :
    (kind.handler context email).Yields (fun r => book.Answers context legalPages eventIds s.clock
      (kind.request email) (r.map .message)) s.desk := by
  have hnothing : ∀ {userId : Nat} {account : Account}, book.At email userId account →
      account.confirmed ≠ kind.ofConfirmed → book.Answers context legalPages eventIds s.clock
        (kind.request email) (.ok (.message kind.message)) s.desk := fun haddress hstate =>
    ⟨book, .nothingMailed rfl (.inr ⟨_, _, haddress, hstate⟩), h⟩
  have hunknown : book.Unused email → book.Answers context legalPages eventIds s.clock
      (kind.request email) (.ok (.message kind.message)) s.desk := fun hunused =>
    ⟨book, .nothingMailed rfl (.inl hunused), h⟩
  cases kind with
  | confirmation =>
      refine Prog.Yields.now (getByEmail_yields h (fun userId user account _ hstored haddress => ?_)
        hunknown)
      have hconfirmed := hstored.confirmed
      dsimp only
      cases hverified : user.emailVerifiedAt with
      | some verifiedAt =>
          rw [hverified] at hconfirmed
          refine hnothing haddress ?_
          rw [hconfirmed]
          exact Bool.true_eq_false.mp
      | none =>
          rw [hverified] at hconfirmed
          exact sendToken_yields h .confirmation haddress hconfirmed
  | passwordReset =>
      refine Prog.Yields.now (getByEmail_yields h (fun userId user account _ hstored haddress => ?_)
        hunknown)
      have hconfirmed := hstored.confirmed
      dsimp only
      cases hverified : user.emailVerifiedAt with
      | none =>
          rw [hverified] at hconfirmed
          refine hnothing haddress ?_
          rw [hconfirmed]
          exact Bool.false_eq_true.mp
      | some verifiedAt =>
          rw [hverified] at hconfirmed
          exact sendToken_yields h .passwordReset haddress hconfirmed

/-! ### Passwords and accounts -/

theorem changePassword_yields (h : book.Shows context s) (credentials : Option String)
    (currentPassword newPassword : String) :
    (changePassword context credentials currentPassword newPassword).Yields
      (fun r => book.Answers context legalPages eventIds s.clock
        (.changePassword credentials currentPassword newPassword) (r.map fun _ => .noContent))
      s.desk := by
  refine Prog.Yields.after (getCurrentUser_yields h
    (fun userId user account hrow hstored hbears => ?_)
    fun hnobody => ⟨book, .turnedAway rfl hnobody, h⟩)
  refine Prog.Yields.ok_bind ?_
  dsimp only
  by_cases hcurrent : Hashable currentPassword
  · rw [hstored.verify hcurrent]
    refine Prog.Yields.ok_bind ?_
    split
    · rename_i hright
      have hright : currentPassword = account.password := of_decide_eq_true hright
      by_cases hshort : Hashable newPassword
      · rw [hstored.verify hshort]
        refine Prog.Yields.ok_bind ?_
        split
        · rename_i hsame
          exact ⟨book, .passwordReused hbears hright (of_decide_eq_true hsame), h⟩
        · rename_i hnew
          refine Prog.Yields.now (Prog.Yields.draw fun salt _ => ?_)
          rw [hashPassword_short hshort]
          refine Prog.Yields.ok_bind
            (Prog.Yields.mono (storePassword_yields (h.draw salt) hrow hstored hshort) ?_)
          rintro _ d ⟨rfl, hshows⟩
          exact ⟨_, .changed hbears hright hshort fun hsame => hnew (decide_eq_true hsame), hshows⟩
      · rw [verifyPassword_long hshort]
        exact ⟨book, .changeTooLong hbears (.inr ⟨hright, hshort⟩), h⟩
    · rename_i hwrong
      exact ⟨book, .changeRefused hbears hcurrent fun hsame => hwrong (decide_eq_true hsame), h⟩
  · rw [verifyPassword_long hcurrent]
    exact ⟨book, .changeTooLong hbears (.inl hcurrent), h⟩

theorem deleteAccount_yields (h : book.Shows context s) (credentials : Option String)
    (password : String) : (deleteAccount context credentials password).Yields
      (fun r => book.Answers context legalPages eventIds s.clock
        (.deleteProfile credentials password) (r.map fun _ => .noContent)) s.desk := by
  refine Prog.Yields.after (getCurrentUser_yields h
    (fun userId user account hrow hstored hbears => ?_)
    fun hnobody => ⟨book, .turnedAway rfl hnobody, h⟩)
  refine Prog.Yields.ok_bind ?_
  dsimp only
  by_cases hshort : Hashable password
  · rw [hstored.verify hshort]
    refine Prog.Yields.ok_bind ?_
    split
    · rename_i hright
      refine Prog.Yields.mono (deleteUser_yields h hrow) ?_
      rintro _ d ⟨rfl, hshows⟩
      exact ⟨_, .deleted hbears (of_decide_eq_true hright), hshows⟩
    · rename_i hwrong
      exact ⟨book, .deletionRefused hbears hshort fun hsame => hwrong (decide_eq_true hsame), h⟩
  · rw [verifyPassword_long hshort]
    exact ⟨book, .deletionTooLong hbears hshort, h⟩

/-! ### Logins -/

theorem authResponse_yields {d : Desk database} {userId : Nat} {user : User} {account : Account}
    {refreshToken : String} {Q : Except Exn AuthResponse → Desk database → Prop}
    (hstored : account.Stored context user)
    (h : ∀ response jti, AuthResponse.For context userId account refreshToken d.clock response →
      Q (.ok response) { d with drawn := jti :: d.drawn }) :
    (authResponse context userId user refreshToken).Yields Q d := by
  refine Prog.Yields.after (Prog.Yields.now (Prog.Yields.draw fun jti _ => h _ jti ?_))
  exact ⟨hstored.shown userId, rfl, jti, by rw [← hstored.email]⟩

/-- A login is opened for a user that has been let in. -/
theorem openSession_yields {userId : Nat} {user : User} {account : Account}
    {Q : Except Exn AuthResponse → Desk database → Prop} (h : book.Shows context s)
    (hstored : account.Stored context user)
    (hopened : ∀ secret response d, book.Fresh secret →
      AuthResponse.For context userId account secret s.clock response →
      (book.addLogin ⟨userId, secret,
        s.clock + parseDuration context.settings.refreshTokenExpiresIn⟩).Shows context d.shelf →
        Q (.ok response) d) :
    (openSession context s.clock (userId, user)).Yields Q s.desk := by
  refine Prog.Yields.after (Prog.Yields.draw fun secret hfresh => Prog.Yields.now
    (Prog.Yields.after (insertRow_yields ?_ ?_)))
  · rintro ⟨id, other, hrow, hclash⟩
    exact h.unheld hfresh id other hrow (beq_iff_eq.mp hclash).symm
  · refine Prog.Yields.commit_bind (authResponse_yields hstored fun response jti hresponse => ?_)
    refine hopened secret response _ (h.fresh hfresh) hresponse ?_
    exact (((h.draw secret).reserve sessionTable).addLogin (h.beyond _ _ le_rfl)
      (Desk.next_lt_insert s.next sessionTable) ⟨rfl, rfl, rfl, rfl⟩ List.mem_cons_self
      (h.unheld hfresh)).draw jti

theorem login_yields (h : book.Shows context s) (email password : String) :
    (login context email password).Yields (fun r => book.Answers context legalPages eventIds
      s.clock (.login email password) (r.map .auth)) s.desk := by
  refine Prog.Yields.now (Prog.Yields.after (getByEmail_yields h
    (fun userId user account hrow hstored haddress => ?_)
    fun hunused => ⟨book, .unknownAddress hunused, h⟩))
  have hconfirmed := hstored.confirmed
  unfold checkCredentials
  dsimp only
  by_cases hshort : Hashable password
  · rw [hstored.verify hshort]
    refine Prog.Yields.ok_bind ?_
    split
    · rename_i hright
      have hright : password = account.password := of_decide_eq_true hright
      cases hverified : user.emailVerifiedAt with
      | none =>
          rw [hverified] at hconfirmed
          exact ⟨book, .unconfirmed haddress hright hconfirmed, h⟩
      | some verifiedAt =>
          rw [hverified] at hconfirmed
          refine openSession_yields h hstored fun secret response d hfresh hresponse hshows => ?_
          exact ⟨_, .loggedIn haddress hright hconfirmed hfresh hresponse, hshows⟩
    · rename_i hwrong
      exact ⟨book, .wrongPassword haddress hshort fun hsame => hwrong (decide_eq_true hsame), h⟩
  · rw [verifyPassword_long hshort]
    exact ⟨book, .loginTooLong haddress hshort, h⟩

theorem refresh_yields (h : book.Shows context s) (secret : String) :
    (refresh context secret).Yields (fun r => book.Answers context legalPages eventIds s.clock
      (.refresh secret) (r.map .auth)) s.desk := by
  refine getSession_yields h (fun id session hrow hhash => ?_) fun hnone => ?_
  · refine Prog.Yields.now ?_
    have hrows : ∀ {login : OpenLogin} {account : Account},
        book.Continues secret s.clock login account → login.Stored context session := by
      rintro login account ⟨hlogin, rfl, _⟩
      obtain ⟨id', session', hrow', hstored⟩ := (h.logins.mem login).mp hlogin
      obtain rfl := h.logins.distinct id' id session' session hrow' hrow
        (hstored.tokenHash.trans hhash.symm)
      cases hrow.symm.trans hrow'
      exact hstored
    have hrefused : (∀ login account, ¬ book.Continues secret s.clock login account) →
        book.Answers context legalPages eventIds s.clock (.refresh secret)
          (.error invalidRefreshToken) s.desk := fun hdead => ⟨book, .notContinued hdead, h⟩
    split
    · rename_i hover
      refine hrefused fun login account hcontinues => ?_
      have hstored := hrows hcontinues
      obtain hrevoked | hexpired := hover
      · rw [hstored.revokedAt] at hrevoked
        cases hrevoked
      · rw [hstored.expiresAt] at hexpired
        exact not_le.mpr hcontinues.2.2.1 hexpired
    · rename_i hgoes
      obtain ⟨hopen, hlater⟩ := not_or.mp hgoes
      refine get_yields h (fun user account huser huserStored haccount => ?_) fun hnobody => ?_
      · have hconfirmed := huserStored.confirmed
        dsimp only
        cases hverified : user.emailVerifiedAt with
        | none =>
            rw [hverified] at hconfirmed
            refine hrefused fun login account' hcontinues => ?_
            have howner := (hrows hcontinues).userId
            obtain ⟨_, _, _, haccount', hconfirmed'⟩ := hcontinues
            rw [← howner, haccount] at haccount'
            cases haccount'
            cases hconfirmed.symm.trans hconfirmed'
        | some verifiedAt =>
            rw [hverified] at hconfirmed
            have hopen : session.revokedAt = none := by simpa using hopen
            have hcontinues : book.Continues secret s.clock
                ⟨session.userId, secret, session.expiresAt⟩ account :=
              ⟨(h.logins.mem _).mpr ⟨id, session, hrow, rfl, hhash, rfl, hopen⟩, rfl,
                not_le.mp hlater, haccount, hconfirmed⟩
            refine Prog.Yields.draw fun replacement hfresh => updateRow_yields hrow
              (Prog.Yields.commit_bind (authResponse_yields huserStored fun _ jti hresponse => ?_))
            exact ⟨_, .continued hcontinues (h.fresh hfresh) hresponse,
              ((h.draw replacement).rotate hrow hhash hopen List.mem_cons_self
                (h.unheld hfresh)).draw jti⟩
      · refine hrefused fun login account hcontinues => ?_
        have haccount := hcontinues.2.2.2.1
        rw [← (hrows hcontinues).userId, hnobody] at haccount
        cases haccount
  · exact ⟨book, .notContinued fun login account hcontinues =>
      hnone login hcontinues.1 hcontinues.2.1, h⟩

theorem logout_yields (h : book.Shows context s) (secret : String) :
    (logout context secret).Yields (fun r => book.Answers context legalPages eventIds s.clock
      (.logout secret) (r.map fun _ => .noContent)) s.desk := by
  have hanswers : ∀ {d : Desk database}, (book.endLogin secret).Shows context d.shelf →
      book.Answers context legalPages eventIds s.clock (.logout secret) (.ok .noContent) d :=
    fun hshows => ⟨_, .loggedOut, hshows⟩
  refine getSession_yields h (fun id session hrow hhash => ?_) fun hnone => ?_
  · dsimp only
    cases hrevoked : session.revokedAt with
    | some revokedAt =>
        have hover := h.endLogin hrow hhash (s.rows sessionTable id) fun session' hrow' => by
          cases hrow.symm.trans hrow'
          exact ⟨rfl, hrevoked ▸ Option.some_ne_none _⟩
        rw [Function.update_eq_self, Shelf.replace_rows] at hover
        exact Prog.Yields.commit (hanswers hover)
    | none =>
        refine Prog.Yields.now (updateRow_yields hrow (Prog.Yields.commit (hanswers ?_)))
        refine h.endLogin hrow hhash _ ?_
        rintro _ ⟨⟩
        exact ⟨rfl, Option.some_ne_none _⟩
  · refine Prog.Yields.commit (hanswers ?_)
    rw [book.endLogin_eq hnone]
    exact h

/-! ### Profiles -/

theorem getProfile_yields (h : book.Shows context s) (credentials : Option String) :
    (getProfile context credentials).Yields (fun r => book.Answers context legalPages eventIds
      s.clock (.getProfile credentials) (r.map .profile)) s.desk := by
  refine Prog.Yields.after (getCurrentUser_yields h (fun userId user account _ hstored hbears => ?_)
    fun hnobody => ⟨book, .turnedAway rfl hnobody, h⟩)
  exact ⟨book, .profile hbears (hstored.shown userId), h⟩

/-- A bulk `UPDATE` of the row of a user, and the row as it is after it. -/
theorem updateProfile_yields {d : Desk database} {userId : Nat} {user : User}
    {p : Nat → User → Bool} {f : User → User} {Q : Except Exn (Nat × User) → Desk database → Prop}
    (account : Account) (h : book.Shows context d.draft)
    (hrow : d.working userTable userId = some user)
    (hp : ∀ id user, p id user = true → id = userId)
    (hmatch : p userId user = true → account.Stored context (f user))
    (hmiss : p userId user = false → account.Stored context user)
    (hupdated : ∀ user d', account.Stored context user →
      (book.setAccount userId account).Shows context d'.shelf → Q (.ok (userId, user)) d') :
    (Prog.updateWhere (S := database) userTable p f >>= fun _ => Prog.commit >>= fun _ =>
      Users.refresh userId).Yields Q d := by
  refine Prog.Yields.statement fun _ _ => Prog.Yields.commit_bind ?_
  have hshows := h.updateUser hrow hp hmatch hmiss
  have haccount : (book.setAccount userId account).account userId = some account :=
    Function.update_self ..
  refine get_yields hshows (fun user account' _ hstored haccount' => ?_) fun hnobody => ?_
  · cases haccount.symm.trans haccount'
    exact hupdated user _ hstored hshows
  · cases haccount.symm.trans hnobody

theorem getD_filter_ne (supplied : Option Bool) (stored : Bool) :
    (supplied.filter (· != stored)).getD stored = supplied.getD stored := by
  cases supplied with
  | none => rfl
  | some value => cases value <;> cases stored <;> rfl

/-- The columns of the two channels. -/
theorem Account.Stored.setConsents {account : Account} {user : User}
    (h : account.Stored context user) (payload : MarketingConsentsUpdateRequest)
    (updatedAt startedAt : Int) : (account.setConsents payload).Stored context
      (Users.setConsents (Users.changedConsents user payload.marketingEmailConsent
        payload.marketingPushConsent) updatedAt startedAt user) where
  email := h.email
  hashable := h.hashable
  password := h.password
  confirmed := h.confirmed
  favorites := h.favorites
  marketingEmail := (getD_filter_ne _ _).trans (h.marketingEmail ▸ rfl)
  marketingPush := (getD_filter_ne _ _).trans (h.marketingPush ▸ rfl)

/-- What differs from no column changes nothing. -/
theorem Account.setConsents_self {account : Account} {user : User}
    (h : account.Stored context user) {payload : MarketingConsentsUpdateRequest}
    (hsame : ¬ ((Users.changedConsents user payload.marketingEmailConsent
        payload.marketingPushConsent).1.isSome = true
      ∨ (Users.changedConsents user payload.marketingEmailConsent
        payload.marketingPushConsent).2.isSome = true)) :
    account.setConsents payload = account := by
  obtain ⟨hemail, hpush⟩ := not_or.mp hsame
  have hset := h.setConsents payload 0 0
  have hemail' := hset.marketingEmail
  have hpush' := hset.marketingPush
  simp only [Users.setConsents, Option.not_isSome_iff_eq_none.mp hemail,
    Option.not_isSome_iff_eq_none.mp hpush, Option.getD_none] at hemail' hpush'
  rw [h.marketingEmail] at hemail'
  rw [h.marketingPush] at hpush'
  exact (Account.mk.injEq ..).mpr ⟨rfl, rfl, rfl, rfl, hemail'.symm, hpush'.symm⟩

theorem updateConsents_yields (h : book.Shows context s) (credentials : Option String)
    (payload : MarketingConsentsUpdateRequest) :
    (ConsentRequest.handler context ⟨credentials, payload⟩).Yields (fun r => book.Answers context
      legalPages eventIds s.clock (.updateMarketingConsents credentials payload)
      (r.map .consents)) s.desk := by
  refine Prog.Yields.after (getCurrentUser_yields h
    (fun userId user account hrow hstored hbears => ?_)
    fun hnobody => ⟨book, .turnedAway rfl hnobody, h⟩)
  refine Prog.Yields.ok_bind (Prog.Yields.now (Prog.Yields.after ?_))
  unfold Users.updateMarketingConsents
  dsimp only
  split
  · refine updateProfile_yields (account.setConsents payload) h hrow (fun _ _ => beq_iff_eq.mp)
      (fun _ => hstored.setConsents payload s.clock s.clock)
      (fun hmiss => (beq_eq_false_iff_ne.mp hmiss rfl).elim) fun user d hstored hshows => ?_
    exact ⟨_, .consents hbears hstored.marketingEmail hstored.marketingPush, hshows⟩
  · rename_i hunchanged
    have hsame := Account.setConsents_self hstored hunchanged
    refine ⟨_, .consents hbears (hsame.symm ▸ hstored.marketingEmail)
      (hsame.symm ▸ hstored.marketingPush), ?_⟩
    rw [hsame, Book.setAccount_self hbears.2.1]
    exact h

theorem Account.Stored.addFavorite {account : Account} {user : User}
    (h : account.Stored context user) {eventId : Int}
    (hnew : user.favoriteEventIds.contains eventId = false) (startedAt : Int) :
    (account.addFavorite eventId).Stored context
      { user with
        favoriteEventIds := user.favoriteEventIds ++ [eventId], updatedAt := startedAt } := by
  have hmissing : eventId ∉ account.favorites := by
    rw [← h.favorites]
    simpa using hnew
  rw [Account.addFavorite, if_neg hmissing]
  exact { h with favorites := congrArg (· ++ [eventId]) h.favorites }

theorem Account.Stored.addFavorite_again {account : Account} {user : User}
    (h : account.Stored context user) {eventId : Int}
    (hold : user.favoriteEventIds.contains eventId = true) :
    (account.addFavorite eventId).Stored context user := by
  have hmem : eventId ∈ account.favorites := by
    rw [← h.favorites]
    simpa using hold
  rwa [Account.addFavorite, if_pos hmem]

theorem Account.Stored.removeFavorite {account : Account} {user : User}
    (h : account.Stored context user) (eventId startedAt : Int) :
    (account.removeFavorite eventId).Stored context
      { user with
        favoriteEventIds := Users.arrayRemove user.favoriteEventIds eventId
        updatedAt := startedAt } := by
  have hfavorites : Users.arrayRemove user.favoriteEventIds eventId
      = (account.removeFavorite eventId).favorites := by
    rw [h.favorites, Users.arrayRemove, Account.removeFavorite]
    refine List.filter_congr fun other _ => ?_
    exact Bool.eq_iff_iff.mpr (by simp)
  exact { h with favorites := hfavorites }

theorem addFavorite_yields (h : book.Shows context s) (credentials : Option String)
    (eventId : EventId) : (addFavorite context eventIds credentials eventId).Yields
      (fun r => book.Answers context legalPages eventIds s.clock
        (.addFavorite credentials eventId) (r.map .profile)) s.desk := by
  refine Prog.Yields.after (getCurrentUser_yields h
    (fun userId user account hrow hstored hbears => ?_)
    fun hnobody => ⟨book, .turnedAway rfl hnobody, h⟩)
  refine Prog.Yields.ok_bind ?_
  dsimp only
  split
  · rename_i hevent
    refine Prog.Yields.after (updateProfile_yields (account.addFavorite eventId.val) h hrow
      (fun id user hmatch => beq_iff_eq.mp (Bool.and_eq_true_iff.mp hmatch).1)
      (fun hmatch => hstored.addFavorite (by simpa using hmatch) s.clock)
      (fun hmiss => hstored.addFavorite_again (by simpa using hmiss))
      fun user d hstored hshows => ?_)
    exact ⟨_, .favoriteAdded hbears hevent (hstored.shown userId), hshows⟩
  · rename_i hmissing
    exact ⟨book, .favoriteMissing hbears hmissing, h⟩

theorem removeFavorite_yields (h : book.Shows context s) (credentials : Option String)
    (eventId : EventId) : (removeFavorite context credentials eventId).Yields
      (fun r => book.Answers context legalPages eventIds s.clock
        (.removeFavorite credentials eventId) (r.map .profile)) s.desk := by
  refine Prog.Yields.after (getCurrentUser_yields h
    (fun userId user account hrow hstored hbears => ?_)
    fun hnobody => ⟨book, .turnedAway rfl hnobody, h⟩)
  refine Prog.Yields.ok_bind (Prog.Yields.after (updateProfile_yields
    (account.removeFavorite eventId.val) h hrow (fun _ _ => beq_iff_eq.mp)
    (fun _ => hstored.removeFavorite eventId.val s.clock)
    (fun hmiss => (beq_eq_false_iff_ne.mp hmiss rfl).elim) fun user d hstored hshows => ?_))
  exact ⟨_, .favoriteRemoved hbears (hstored.shown userId), hshows⟩

/-! ### Histories -/

/-- **One request.** -/
theorem UserRequest.yields (h : book.Shows context s) (request : UserRequest) :
    (request.handler context legalPages eventIds).Yields
      (book.Answers context legalPages eventIds s.clock request) s.desk := by
  cases request with
  | register payload => exact Prog.Yields.map (register_yields h payload)
  | confirmEmail token => exact Prog.Yields.map (confirmEmail_yields h token)
  | resendConfirmation email => exact Prog.Yields.map (request_yields h .confirmation email)
  | forgotPassword email => exact Prog.Yields.map (request_yields h .passwordReset email)
  | resetPassword token newPassword =>
      exact Prog.Yields.map (resetPassword_yields h token newPassword)
  | changePassword credentials currentPassword newPassword =>
      exact Prog.Yields.map (changePassword_yields h credentials currentPassword newPassword)
  | login email password => exact Prog.Yields.map (login_yields h email password)
  | refresh refreshToken => exact Prog.Yields.map (refresh_yields h refreshToken)
  | logout refreshToken => exact Prog.Yields.map (logout_yields h refreshToken)
  | getProfile credentials => exact Prog.Yields.map (getProfile_yields h credentials)
  | deleteProfile credentials password =>
      exact Prog.Yields.map (deleteAccount_yields h credentials password)
  | updateMarketingConsents credentials payload =>
      exact Prog.Yields.map (updateConsents_yields h credentials payload)
  | addFavorite credentials eventId =>
      exact Prog.Yields.map (addFavorite_yields h credentials eventId)
  | removeFavorite credentials eventId =>
      exact Prog.Yields.map (removeFavorite_yields h credentials eventId)

variable (context legalPages eventIds) in
/-- A history of the book. -/
abbrev Book.Records (book : Book) (history : List ServedUserRequest)
    (book' : Book) : Prop :=
  Abides (fun book served book' =>
    book.Serves context legalPages eventIds served.time served.request served.reply book')
    book history book'

theorem Book.shows_of_history {w w' : UserWorld}
    {history : List ServedUserRequest} (hidle : w.Idle)
    (hshows : book.Shows context w.shelf)
    (hhistory : (userSystem context legalPages eventIds).Serially w history w') :
    ∃ book', book.Records context legalPages eventIds history book' ∧ w'.Idle
      ∧ book'.Shows context w'.shelf := by
  have hanswers : ∀ (book : Book) s request, book.Shows context s →
      ((userSystem context legalPages eventIds).handler request).Yields
        (book.Answers context legalPages eventIds s.clock request) s.desk :=
    fun _ _ request h => request.yields h
  exact hhistory.abides (fun _ _ clock h => h.tick clock) hanswers hidle hshows

theorem Book.Records.consistent {history : List ServedUserRequest} {book' : Book}
    (h : book.Records context legalPages eventIds history book') (hbook : book.Consistent) :
    book'.Consistent :=
  h.invariant hbook fun _ _ _ h hserves => hserves.consistent h

section Empty

variable {w w' : UserWorld} {history : List ServedUserRequest}

theorem blank_shows (hinitial : w.Initial) (hempty : ∀ T, w.next T = 0) :
    Book.blank.Shows context w.shelf := by
  have hrows : ∀ T id, w.shelf.rows T id = none := fun T id =>
    congrArg Slot.committed (hinitial.beyond T id (hempty T ▸ Nat.zero_le id))
  have hnone : ∀ {T id} {row : database.Row T}, w.shelf.rows T id ≠ some row := by
    intro T id row hrow
    cases (hrows T id).symm.trans hrow
  refine ⟨fun T id _ => hrows T id, fun userId => ?_, fun kind => ?_, ?_, ?_⟩
  · rw [hrows userTable userId]
    exact .none
  · refine ⟨fun τ => ⟨nofun, ?_⟩, fun id token hrow => (hnone hrow).elim,
      fun id _ token _ hrow => (hnone hrow).elim⟩
    rintro ⟨id, hrow⟩
    exact (hnone hrow).elim
  · refine ⟨fun login => ⟨nofun, ?_⟩, fun id session hrow => (hnone hrow).elim,
      fun id _ session _ hrow => (hnone hrow).elim⟩
    rintro ⟨id, session, hrow, _⟩
    exact (hnone hrow).elim
  · exact fun id job hrow => (hnone hrow).elim

/-- **The service keeps the book.** From an empty database, every history of requests is one that
the book allows, and leaves tables that hold what became of it. -/
theorem accounts_refine_book (hinitial : w.Initial) (hempty : ∀ T, w.next T = 0)
    (hhistory : (userSystem context legalPages eventIds).Serially w history w') :
    ∃ book, Book.blank.Records context legalPages eventIds history book
      ∧ book.Shows context w'.shelf := by
  obtain ⟨book, hrecords, _, hshows⟩ :=
    Book.shows_of_history hinitial.idle (blank_shows hinitial hempty) hhistory
  exact ⟨book, hrecords, hshows⟩

end Empty

/-- Jonas registers, confirms his address and logs in. The last request is the first in the list. -/
def firstDay : List (Attempt UserRequest) :=
  [⟨0, 20, .login jonas.email jonas.password,
      [{}, { order := [0] }, { token := "r" }, {}, {}, {}, {}, { token := "j" }]⟩,
    ⟨0, 10, .confirmEmail "t",
      [{}, { order := [0] }, {}, {}, { order := [0] }, {}, { order := [0] }, {}, { order := [0] },
        {}, {}]⟩,
    ⟨0, 0, .register jonas, registrationChoices⟩]

theorem accounts_refine_book_firstDay :
    ∃ history w', ∃ book : Book,
      (userSystem plainContext publishedTerms []).Serially emptyService history w'
        ∧ history.map (·.reply.toOption.isSome) = [true, true, true]
        ∧ Book.blank.Records plainContext publishedTerms [] history book
        ∧ book.Shows plainContext w'.shelf := by
  have hrun : ((userSystem plainContext publishedTerms []).serve emptyService firstDay).any
      fun served => decide (served.1.map (·.reply.toOption.isSome) = [true, true, true]) := by
    decide
  obtain ⟨⟨history, w'⟩, hserve, hreplies⟩ := (Option.any_eq_true _ _).mp hrun
  have hhistory := System.serially_of_serve hserve
  obtain ⟨book, hrecords, hshows⟩ := accounts_refine_book (storedUsers_initial [])
    (by rintro (_ | _ | _ | _) <;> rfl) hhistory
  exact ⟨history, w', book, hhistory, of_decide_eq_true hreplies, hrecords, hshows⟩

/-! ### Secrets -/

/-- The row of a secret that can still be used. -/
def TokenStored (context : Context) (w : UserWorld) (kind : TokenKind) (secret : String)
    (now : Int) : Prop :=
  ∃ id, ∃ token : UserToken, (w.slot (tokenTable kind) id).committed = some token
    ∧ token.tokenHash = context.crypto.sha256 secret ∧ now < token.expiresAt

def SessionStored (context : Context) (w : UserWorld) (secret : String) (now : Int) : Prop :=
  ∃ id, ∃ session : RefreshTokenSession, (w.slot sessionTable id).committed = some session
    ∧ session.tokenHash = context.crypto.sha256 secret ∧ session.revokedAt = none
    ∧ now < session.expiresAt

/-- The requests that are nothing without a secret. -/
inductive UserRequest.Redeems (context : Context) (w : UserWorld) (now : Int) :
    UserRequest → Prop → Prop where
  | confirmEmail (secret : String) :
      Redeems context w now (.confirmEmail secret) (TokenStored context w .confirmation secret now)
  | resetPassword (secret newPassword : String) (hshort : Hashable newPassword) :
      Redeems context w now (.resetPassword secret newPassword)
        (TokenStored context w .passwordReset secret now)
  | refresh (secret : String) :
      Redeems context w now (.refresh secret) (SessionStored context w secret now)

section Secrets

variable {w : UserWorld} {now : Int} {secret : String}

theorem Book.Shows.tokenStored_iff (h : book.Shows context w.shelf) (hbook : book.Consistent)
    (kind : TokenKind) : TokenStored context w kind secret now
      ↔ ∃ τ account, book.Live kind secret now τ account := by
  constructor
  · rintro ⟨id, token, hrow, hhash, hlater⟩
    obtain ⟨τ, hτ, _, rfl⟩ := (h.secrets kind).exists_row hrow
    obtain ⟨account, haccount, _⟩ := hbook.mailed kind τ hτ
    exact ⟨τ, account, hτ, context.crypto.sha256_injective hhash, hlater, haccount⟩
  · rintro ⟨τ, account, hτ, rfl, hlater, _⟩
    obtain ⟨id, hrow⟩ := ((h.secrets kind).mem τ).mp hτ
    exact ⟨id, τ.row context, hrow, rfl, hlater⟩

theorem Book.Shows.sessionStored_iff (h : book.Shows context w.shelf) (hbook : book.Consistent) :
    SessionStored context w secret now
      ↔ ∃ login account, book.Continues secret now login account := by
  constructor
  · rintro ⟨id, session, hrow, hhash, hopen, hlater⟩
    have hlogin : (⟨session.userId, secret, session.expiresAt⟩ : OpenLogin) ∈ book.logins :=
      (h.logins.mem _).mpr ⟨id, session, hrow, rfl, hhash, rfl, hopen⟩
    obtain ⟨account, haccount, hconfirmed⟩ := hbook.logins _ hlogin
    exact ⟨_, account, hlogin, rfl, hlater, haccount, hconfirmed⟩
  · rintro ⟨login, account, hlogin, rfl, hlater, _⟩
    obtain ⟨id, session, hrow, hstored⟩ := (h.logins.mem login).mp hlogin
    exact ⟨id, session, hrow, hstored.tokenHash, hstored.revokedAt, hstored.expiresAt ▸ hlater⟩

theorem Book.Serves.confirmEmail_iff {r : Except Exn UserReply} {book' : Book}
    (h : book.Serves context legalPages eventIds now (.confirmEmail secret) r book') :
    (∃ reply, r = .ok reply) ↔ ∃ τ account, book.Live .confirmation secret now τ account := by
  have hother : ∀ {kind email}, UserRequest.confirmEmail secret ≠ TokenKind.request kind email := by
    intro kind
    cases kind <;> exact nofun
  cases h with
  | notConfirmed hdead => exact ⟨nofun, fun ⟨τ, account, hlive⟩ => (hdead τ account hlive).elim⟩
  | confirmed hlive => exact ⟨fun _ => ⟨_, _, hlive⟩, fun _ => ⟨_, rfl⟩⟩
  | nothingMailed hrequest => exact (hother hrequest).elim
  | mailedBefore hrequest => exact (hother hrequest).elim
  | mailed hrequest => exact (hother hrequest).elim
  | turnedAway hbearing => cases hbearing

theorem Book.Serves.resetPassword_iff {newPassword : String} {r : Except Exn UserReply}
    {book' : Book} (hshort : Hashable newPassword)
    (h : book.Serves context legalPages eventIds now (.resetPassword secret newPassword) r book') :
    (∃ reply, r = .ok reply) ↔ ∃ τ account, book.Live .passwordReset secret now τ account := by
  have hother : ∀ {kind email},
      UserRequest.resetPassword secret newPassword ≠ TokenKind.request kind email := by
    intro kind
    cases kind <;> exact nofun
  cases h with
  | notReset hdead => exact ⟨nofun, fun ⟨τ, account, hlive⟩ => (hdead τ account hlive).elim⟩
  | resetTooLong _ hlong => exact (hlong hshort).elim
  | reset hlive => exact ⟨fun _ => ⟨_, _, hlive⟩, fun _ => ⟨_, rfl⟩⟩
  | nothingMailed hrequest => exact (hother hrequest).elim
  | mailedBefore hrequest => exact (hother hrequest).elim
  | mailed hrequest => exact (hother hrequest).elim
  | turnedAway hbearing => cases hbearing

theorem Book.Serves.refresh_iff {r : Except Exn UserReply} {book' : Book}
    (h : book.Serves context legalPages eventIds now (.refresh secret) r book') :
    (∃ reply, r = .ok reply) ↔ ∃ login account, book.Continues secret now login account := by
  have hother : ∀ {kind email}, UserRequest.refresh secret ≠ TokenKind.request kind email := by
    intro kind
    cases kind <;> exact nofun
  cases h with
  | notContinued hdead =>
      exact ⟨nofun, fun ⟨login, account, hcontinues⟩ => (hdead login account hcontinues).elim⟩
  | continued hcontinues => exact ⟨fun _ => ⟨_, _, hcontinues⟩, fun _ => ⟨_, rfl⟩⟩
  | nothingMailed hrequest => exact (hother hrequest).elim
  | mailedBefore hrequest => exact (hother hrequest).elim
  | mailed hrequest => exact (hother hrequest).elim
  | turnedAway hbearing => cases hbearing

/-- **Secrets work until they are used, replaced or expired.** After every history from an empty
database, a request with a secret succeeds exactly if the secret is stored and its time is not
over. -/
theorem secrets_work {w₀ w w' : UserWorld} {history : List ServedUserRequest}
    {t : Txn} {request : UserRequest} {stored : Prop} {r : Except Exn UserReply}
    (hinitial : w₀.Initial) (hempty : ∀ T, w₀.next T = 0)
    (hhistory : (userSystem context legalPages eventIds).Serially w₀ history w)
    (hredeems : request.Redeems context w now stored)
    (hruns : (request.handler context legalPages eventIds).Runs t { w with clock := now } r w') :
    (∃ reply, r = .ok reply) ↔ stored := by
  obtain ⟨book, hrecords, hidle, hshows⟩ :=
    Book.shows_of_history hinitial.idle (blank_shows hinitial hempty) hhistory
  have hbook := hrecords.consistent Book.blank_consistent
  obtain ⟨_, ⟨book', hserves, _⟩, _⟩ :=
    (hidle.tick now).runs (request.yields (hshows.tick now)) hruns
  cases hredeems with
  | confirmEmail secret =>
      rw [hshows.tokenStored_iff hbook]
      exact Book.Serves.confirmEmail_iff hserves
  | resetPassword secret newPassword hshort =>
      rw [hshows.tokenStored_iff hbook]
      exact Book.Serves.resetPassword_iff hshort hserves
  | refresh secret =>
      rw [hshows.sessionStored_iff hbook]
      exact Book.Serves.refresh_iff hserves

/-- The refresh token of the login. -/
theorem secrets_work_firstDay :
    ∃ history, ∃ w w' : UserWorld, ∃ r,
      (userSystem plainContext publishedTerms []).Serially emptyService history w
        ∧ ((UserRequest.refresh "r").handler plainContext publishedTerms []).Runs 0
          { w with clock := 30 } r w'
        ∧ ∃ reply, r = .ok reply := by
  have hrun : ((userSystem plainContext publishedTerms []).serve emptyService firstDay).any
      fun served => ((served.2.slot sessionTable 0).committed.any
          fun (session : RefreshTokenSession) => decide (session.tokenHash = "r"
            ∧ session.revokedAt = none ∧ 30 < session.expiresAt))
        && (((UserRequest.refresh "r").handler plainContext publishedTerms []).play 0
          [{ order := [0] }, {}, {}, { order := [0] }, { token := "r2" }, {}, {}, {},
            { token := "j2" }] { served.2 with clock := 30 }).isSome := by decide
  obtain ⟨⟨history, w⟩, hserve, hrun⟩ := (Option.any_eq_true _ _).mp hrun
  obtain ⟨hstored, hplays⟩ := Bool.and_eq_true_iff.mp hrun
  obtain ⟨session, hrow, hsession⟩ := (Option.any_eq_true _ _).mp hstored
  obtain ⟨hhash, hopen, hlater⟩ := of_decide_eq_true hsession
  obtain ⟨⟨r, w'⟩, hplay⟩ := Option.isSome_iff_exists.mp hplays
  have hhistory := System.serially_of_serve hserve
  have hruns := Prog.runs_of_play hplay
  exact ⟨history, w, w', r, hhistory, hruns, (secrets_work (storedUsers_initial [])
    (by rintro (_ | _ | _ | _) <;> rfl) hhistory (.refresh "r") hruns).mpr
      ⟨0, session, hrow, hhash, hopen, hlater⟩⟩

end Secrets

end EventsApi
