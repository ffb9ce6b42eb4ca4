import EventsApi.Proof.CurrentUser
import Mathlib.Data.Set.Basic

/-!
# The book of accounts

What the service is for, one request at a time and in the words of its users: who has an account,
with which password and whether the address is confirmed, which secrets have been mailed and not
been used, and which logins are open. There are no hashes, no rows and no outbox here, and a request
does at once what it does.
-/

namespace EventsApi

/-- An account, as its owner knows it. -/
structure Account where
  email : String
  password : String
  confirmed : Bool
  favorites : List Int
  marketingEmail : Bool
  marketingPush : Bool

namespace Account

variable (account : Account)

def addFavorite (eventId : Int) : Account :=
  if eventId ∈ account.favorites then account
  else { account with favorites := account.favorites ++ [eventId] }

def removeFavorite (eventId : Int) : Account :=
  { account with favorites := account.favorites.filter (· ≠ eventId) }

/-- What is not supplied stays. -/
def setConsents (payload : MarketingConsentsUpdateRequest) : Account :=
  { account with
    marketingEmail := payload.marketingEmailConsent.getD account.marketingEmail
    marketingPush := payload.marketingPushConsent.getD account.marketingPush }

theorem addFavorite_email (eventId : Int) :
    (account.addFavorite eventId).email = account.email := by
  unfold addFavorite
  split <;> rfl

theorem addFavorite_confirmed (eventId : Int) :
    (account.addFavorite eventId).confirmed = account.confirmed := by
  unfold addFavorite
  split <;> rfl

/-- What the owner sees of the account. -/
structure Shown (userId : Nat) (response : UserResponse) : Prop where
  id : response.id = userId
  email : response.email = account.email
  favorites : response.favoriteEventIds = account.favorites
  marketingEmail : response.marketingEmailConsent = account.marketingEmail
  marketingPush : response.marketingPushConsent = account.marketingPush

end Account

/-- A new account. -/
def RegisterRequest.account (payload : RegisterRequest) : Account where
  email := payload.email
  password := payload.password
  confirmed := false
  favorites := []
  marketingEmail := payload.marketingEmailConsent
  marketingPush := payload.marketingPushConsent

/-- A secret that has been mailed to the owner of an account. -/
structure MailedSecret where
  userId : Nat
  secret : String
  sentAt : Int
  expiresAt : Int

/-- A login that has not been ended, with the refresh token it goes on with. -/
structure OpenLogin where
  userId : Nat
  secret : String
  expiresAt : Int

structure Book where
  account : Nat → Option Account
  mailed : TokenKind → Set MailedSecret
  logins : Set OpenLogin

namespace Book

variable (book : Book)

/-- Nobody has an account. -/
def blank : Book where
  account _ := none
  mailed _ := ∅
  logins := ∅

def setAccount (userId : Nat) (account : Account) : Book :=
  { book with account := Function.update book.account userId (some account) }

/-- The secrets of this kind that the user has been mailed are worth nothing any more. -/
def drop (kind : TokenKind) (userId : Nat) : Book :=
  { book with
    mailed := Function.update book.mailed kind {τ ∈ book.mailed kind | τ.userId ≠ userId} }

def post (kind : TokenKind) (τ : MailedSecret) : Book :=
  { book with mailed := Function.update book.mailed kind (insert τ (book.mailed kind)) }

/-- A new secret, in the place of those before. -/
def mail (kind : TokenKind) (τ : MailedSecret) : Book := (book.drop kind τ.userId).post kind τ

def addLogin (login : OpenLogin) : Book := { book with logins := insert login book.logins }

def endLogin (secret : String) : Book :=
  { book with logins := {login ∈ book.logins | login.secret ≠ secret} }

def endLogins (userId : Nat) : Book :=
  { book with logins := {login ∈ book.logins | login.userId ≠ userId} }

/-- All that there is of an account. -/
def forget (userId : Nat) : Book where
  account := Function.update book.account userId none
  mailed kind := {τ ∈ book.mailed kind | τ.userId ≠ userId}
  logins := {login ∈ book.logins | login.userId ≠ userId}

/-- The account at this address. -/
def At (email : String) (userId : Nat) (account : Account) : Prop :=
  book.account userId = some account ∧ account.email = email

def Unused (email : String) : Prop := ∀ userId account, ¬ book.At email userId account

/-- The secret was mailed to the owner of this account, has not been used and has not expired. -/
def Live (kind : TokenKind) (secret : String) (now : Int) (τ : MailedSecret) (account : Account) :
    Prop :=
  τ ∈ book.mailed kind ∧ τ.secret = secret ∧ now < τ.expiresAt
    ∧ book.account τ.userId = some account

/-- The bearer token names a user whose address is confirmed. -/
def Bears (context : Context) (credentials : Option String) (now : Int) (userId : Nat)
    (account : Account) : Prop :=
  authenticatedAs context credentials now = some userId ∧ book.account userId = some account
    ∧ account.confirmed = true

/-- The refresh token goes on with this login of this account. -/
def Continues (secret : String) (now : Int) (login : OpenLogin) (account : Account) : Prop :=
  login ∈ book.logins ∧ login.secret = secret ∧ now < login.expiresAt
    ∧ book.account login.userId = some account ∧ account.confirmed = true

/-- Nothing in the book has this secret. -/
def Fresh (secret : String) : Prop :=
  (∀ kind, ∀ τ ∈ book.mailed kind, τ.secret ≠ secret)
    ∧ ∀ login ∈ book.logins, login.secret ≠ secret

variable {book : Book} {kind : TokenKind} {userId : Nat}

theorem setAccount_self {account : Account} (h : book.account userId = some account) :
    book.setAccount userId account = book := by
  rw [setAccount, ← h, Function.update_eq_self]

theorem drop_mailed : (book.drop kind userId).mailed
    = Function.update book.mailed kind {τ ∈ book.mailed kind | τ.userId ≠ userId} := rfl

theorem mail_mailed {τ : MailedSecret} : (book.mail kind τ).mailed
    = Function.update (book.drop kind τ.userId).mailed kind
      (insert τ ((book.drop kind τ.userId).mailed kind)) := rfl

theorem forget_account :
    (book.forget userId).account = Function.update book.account userId none := rfl

@[simp]
theorem mem_drop {τ : MailedSecret} :
    τ ∈ (book.drop kind userId).mailed kind ↔ τ ∈ book.mailed kind ∧ τ.userId ≠ userId := by
  simp [drop]

theorem drop_subset (kind' : TokenKind) :
    (book.drop kind userId).mailed kind' ⊆ book.mailed kind' := by
  by_cases hkind : kind' = kind
  · subst hkind
    exact fun τ hτ => (mem_drop.mp hτ).1
  · rw [drop_mailed, Function.update_of_ne hkind]

theorem mem_mail {τ σ : MailedSecret} {kind' : TokenKind}
    (hσ : σ ∈ (book.mail kind τ).mailed kind') :
    kind' = kind ∧ σ = τ ∨ σ ∈ book.mailed kind' := by
  by_cases hkind : kind' = kind
  · subst hkind
    rw [mail_mailed, Function.update_self] at hσ
    exact hσ.imp (fun heq => ⟨rfl, heq⟩) fun hkept => (mem_drop.mp hkept).1
  · rw [mail_mailed, Function.update_of_ne hkind] at hσ
    exact .inr (drop_subset kind' hσ)

end Book

/-- The secrets for which an address has to be confirmed already. -/
def TokenKind.ofConfirmed : TokenKind → Bool
  | .confirmation => false
  | .passwordReset => true

def TokenKind.request : TokenKind → (email : String) → UserRequest
  | .confirmation => .resendConfirmation
  | .passwordReset => .forgotPassword

/-- The credentials of the requests that need them. -/
def UserRequest.bearing : UserRequest → Option (Option String)
  | .changePassword credentials _ _ | .getProfile credentials | .deleteProfile credentials _
  | .updateMarketingConsents credentials _ | .addFavorite credentials _
  | .removeFavorite credentials _ => some credentials
  | _ => none

/-- bcrypt takes the password. -/
def Hashable (password : String) : Prop := password.utf8ByteSize ≤ bcryptMaxBytes

/-- What a login or a rotation answers. -/
structure AuthResponse.For (context : Context) (userId : Nat) (account : Account) (secret : String)
    (now : Int) (response : AuthResponse) : Prop where
  user : account.Shown userId response.user
  refreshToken : response.refreshToken = secret
  accessToken : ∃ jti, response.accessToken = context.crypto.encode
    { claims := { sub := userId, email := account.email }
      iat := now
      exp := now + parseDuration context.settings.jwtExpiresIn
      jti := jti }

variable (context : Context) (legalPages : List LegalPage) (eventIds : List Int) (now : Int)

/-- What a request may answer, and what becomes of the book. -/
inductive Book.Serves (book : Book) : UserRequest → Except Exn UserReply → Book → Prop where
  | addressTaken {payload : RegisterRequest} {userId : Nat} {account : Account}
      (haddress : book.At payload.email userId account) :
      Serves book (.register payload) (.error duplicateEmail) book
  | termsMissing {payload : RegisterRequest} (hunused : book.Unused payload.email)
      (hterms : getTermsVersion legalPages payload.locale = none) :
      Serves book (.register payload) (.error termsUnavailable) book
  | registrationTooLong {payload : RegisterRequest} (hunused : book.Unused payload.email)
      (hterms : getTermsVersion legalPages payload.locale ≠ none)
      (hlong : ¬ Hashable payload.password) :
      Serves book (.register payload) (.error .valueError) book
  | registered {payload : RegisterRequest} {userId : Nat} {secret : String}
      (hunused : book.Unused payload.email)
      (hterms : getTermsVersion legalPages payload.locale ≠ none)
      (hshort : Hashable payload.password) (hnew : book.account userId = none)
      (hfresh : book.Fresh secret) :
      Serves book (.register payload) (.ok (.message registrationMessage))
        ((book.setAccount userId payload.account).mail .confirmation
          ⟨userId, secret, now,
            now + parseDuration context.settings.emailConfirmationExpiresIn⟩)
  | notConfirmed {secret : String}
      (hdead : ∀ τ account, ¬ book.Live .confirmation secret now τ account) :
      Serves book (.confirmEmail secret) (.error invalidConfirmationToken) book
  | confirmed {secret : String} {τ : MailedSecret} {account : Account}
      (hlive : book.Live .confirmation secret now τ account) :
      Serves book (.confirmEmail secret) (.ok .noContent)
        ((book.setAccount τ.userId { account with confirmed := true }).drop .confirmation τ.userId)
  | nothingMailed {request : UserRequest} {kind : TokenKind} {email : String}
      (hrequest : request = kind.request email)
      (hnone : book.Unused email ∨ ∃ userId account, book.At email userId account
        ∧ account.confirmed ≠ kind.ofConfirmed) :
      Serves book request (.ok (.message kind.message)) book
  | mailedBefore {request : UserRequest} {kind : TokenKind} {email : String} {userId : Nat}
      {account : Account} {τ : MailedSecret} (hrequest : request = kind.request email)
      (haddress : book.At email userId account)
      (hstate : account.confirmed = kind.ofConfirmed) (hmailed : τ ∈ book.mailed kind)
      (howner : τ.userId = userId)
      (hrecent : now < τ.sentAt + parseDuration (kind.cooldown context.settings)) :
      Serves book request (.ok (.message kind.message)) book
  | mailed {request : UserRequest} {kind : TokenKind} {email : String} {userId : Nat}
      {account : Account} {secret : String} (hrequest : request = kind.request email)
      (haddress : book.At email userId account)
      (hstate : account.confirmed = kind.ofConfirmed)
      (hcool : ∀ τ ∈ book.mailed kind, τ.userId = userId →
        τ.sentAt + parseDuration (kind.cooldown context.settings) ≤ now)
      (hfresh : book.Fresh secret) :
      Serves book request (.ok (.message kind.message))
        (book.mail kind
          ⟨userId, secret, now, now + parseDuration (kind.expiresIn context.settings)⟩)
  | notReset {secret newPassword : String}
      (hdead : ∀ τ account, ¬ book.Live .passwordReset secret now τ account) :
      Serves book (.resetPassword secret newPassword) (.error invalidPasswordResetToken) book
  | resetTooLong {secret newPassword : String} {τ : MailedSecret} {account : Account}
      (hlive : book.Live .passwordReset secret now τ account) (hlong : ¬ Hashable newPassword) :
      Serves book (.resetPassword secret newPassword) (.error .valueError) book
  | reset {secret newPassword : String} {τ : MailedSecret} {account : Account}
      (hlive : book.Live .passwordReset secret now τ account) (hshort : Hashable newPassword) :
      Serves book (.resetPassword secret newPassword) (.ok .noContent)
        (((book.setAccount τ.userId { account with password := newPassword }).drop .passwordReset
          τ.userId).endLogins τ.userId)
  | turnedAway {request : UserRequest} {credentials : Option String}
      (hbearing : request.bearing = some credentials)
      (hnobody : ∀ userId account, ¬ book.Bears context credentials now userId account) :
      Serves book request (.error unauthorized) book
  | changeTooLong {credentials : Option String} {currentPassword newPassword : String}
      {userId : Nat} {account : Account}
      (hbears : book.Bears context credentials now userId account)
      (hlong : ¬ Hashable currentPassword
        ∨ currentPassword = account.password ∧ ¬ Hashable newPassword) :
      Serves book (.changePassword credentials currentPassword newPassword) (.error .valueError)
        book
  | changeRefused {credentials : Option String} {currentPassword newPassword : String}
      {userId : Nat} {account : Account}
      (hbears : book.Bears context credentials now userId account)
      (hshort : Hashable currentPassword) (hwrong : currentPassword ≠ account.password) :
      Serves book (.changePassword credentials currentPassword newPassword)
        (.error invalidCurrentPassword) book
  | passwordReused {credentials : Option String} {currentPassword newPassword : String}
      {userId : Nat} {account : Account}
      (hbears : book.Bears context credentials now userId account)
      (hright : currentPassword = account.password) (hsame : newPassword = account.password) :
      Serves book (.changePassword credentials currentPassword newPassword)
        (.error passwordReuse) book
  | changed {credentials : Option String} {currentPassword newPassword : String}
      {userId : Nat} {account : Account}
      (hbears : book.Bears context credentials now userId account)
      (hright : currentPassword = account.password) (hshort : Hashable newPassword)
      (hnew : newPassword ≠ account.password) :
      Serves book (.changePassword credentials currentPassword newPassword) (.ok .noContent)
        (((book.setAccount userId { account with password := newPassword }).drop .passwordReset
          userId).endLogins userId)
  | unknownAddress {email password : String} (hunused : book.Unused email) :
      Serves book (.login email password) (.error invalidCredentials) book
  | loginTooLong {email password : String} {userId : Nat} {account : Account}
      (haddress : book.At email userId account) (hlong : ¬ Hashable password) :
      Serves book (.login email password) (.error .valueError) book
  | wrongPassword {email password : String} {userId : Nat} {account : Account}
      (haddress : book.At email userId account) (hshort : Hashable password)
      (hwrong : password ≠ account.password) :
      Serves book (.login email password) (.error invalidCredentials) book
  | unconfirmed {email password : String} {userId : Nat} {account : Account}
      (haddress : book.At email userId account) (hright : password = account.password)
      (hstate : account.confirmed = false) :
      Serves book (.login email password) (.error unconfirmedEmail) book
  | loggedIn {email password : String} {userId : Nat} {account : Account} {secret : String}
      {response : AuthResponse} (haddress : book.At email userId account)
      (hright : password = account.password) (hstate : account.confirmed = true)
      (hfresh : book.Fresh secret)
      (hresponse : response.For context userId account secret now) :
      Serves book (.login email password) (.ok (.auth response))
        (book.addLogin
          ⟨userId, secret, now + parseDuration context.settings.refreshTokenExpiresIn⟩)
  | notContinued {secret : String}
      (hdead : ∀ login account, ¬ book.Continues secret now login account) :
      Serves book (.refresh secret) (.error invalidRefreshToken) book
  | continued {secret replacement : String} {login : OpenLogin} {account : Account}
      {response : AuthResponse} (hcontinues : book.Continues secret now login account)
      (hfresh : book.Fresh replacement)
      (hresponse : response.For context login.userId account replacement now) :
      Serves book (.refresh secret) (.ok (.auth response))
        ((book.endLogin secret).addLogin ⟨login.userId, replacement,
          now + parseDuration context.settings.refreshTokenExpiresIn⟩)
  | loggedOut {secret : String} :
      Serves book (.logout secret) (.ok .noContent) (book.endLogin secret)
  | profile {credentials : Option String} {userId : Nat} {account : Account}
      {response : UserResponse} (hbears : book.Bears context credentials now userId account)
      (hresponse : account.Shown userId response) :
      Serves book (.getProfile credentials) (.ok (.profile response)) book
  | deletionTooLong {credentials : Option String} {password : String} {userId : Nat}
      {account : Account} (hbears : book.Bears context credentials now userId account)
      (hlong : ¬ Hashable password) :
      Serves book (.deleteProfile credentials password) (.error .valueError) book
  | deletionRefused {credentials : Option String} {password : String} {userId : Nat}
      {account : Account} (hbears : book.Bears context credentials now userId account)
      (hshort : Hashable password) (hwrong : password ≠ account.password) :
      Serves book (.deleteProfile credentials password) (.error invalidCurrentPassword) book
  | deleted {credentials : Option String} {password : String} {userId : Nat}
      {account : Account} (hbears : book.Bears context credentials now userId account)
      (hright : password = account.password) :
      Serves book (.deleteProfile credentials password) (.ok .noContent) (book.forget userId)
  | consents {credentials : Option String} {payload : MarketingConsentsUpdateRequest}
      {userId : Nat} {account : Account} {response : MarketingConsentsResponse}
      (hbears : book.Bears context credentials now userId account)
      (hemail : response.marketingEmailConsent = (account.setConsents payload).marketingEmail)
      (hpush : response.marketingPushConsent = (account.setConsents payload).marketingPush) :
      Serves book (.updateMarketingConsents credentials payload) (.ok (.consents response))
        (book.setAccount userId (account.setConsents payload))
  | favoriteMissing {credentials : Option String} {eventId : EventId} {userId : Nat}
      {account : Account} (hbears : book.Bears context credentials now userId account)
      (hmissing : eventId.val ∉ eventIds) :
      Serves book (.addFavorite credentials eventId) (.error (eventNotFound eventId)) book
  | favoriteAdded {credentials : Option String} {eventId : EventId} {userId : Nat}
      {account : Account} {response : UserResponse}
      (hbears : book.Bears context credentials now userId account) (hevent : eventId.val ∈ eventIds)
      (hresponse : (account.addFavorite eventId.val).Shown userId response) :
      Serves book (.addFavorite credentials eventId) (.ok (.profile response))
        (book.setAccount userId (account.addFavorite eventId.val))
  | favoriteRemoved {credentials : Option String} {eventId : EventId} {userId : Nat}
      {account : Account} {response : UserResponse}
      (hbears : book.Bears context credentials now userId account)
      (hresponse : (account.removeFavorite eventId.val).Shown userId response) :
      Serves book (.removeFavorite credentials eventId) (.ok (.profile response))
        (book.setAccount userId (account.removeFavorite eventId.val))

/-! ### Consistency -/

/-- An address has one account. A secret belongs to an account that it can still do something for,
and a login to one with a confirmed address. -/
structure Book.Consistent (book : Book) : Prop where
  address : ∀ {userId userId' account account'}, book.account userId = some account →
    book.account userId' = some account' → account.email = account'.email → userId = userId'
  mailed : ∀ kind, ∀ τ ∈ book.mailed kind,
    ∃ account, book.account τ.userId = some account ∧ account.confirmed = kind.ofConfirmed
  logins : ∀ login ∈ book.logins,
    ∃ account, book.account login.userId = some account ∧ account.confirmed = true

theorem Book.blank_consistent : Book.blank.Consistent := ⟨nofun, nofun, nofun⟩

namespace Book.Consistent

variable {book book' : Book} {userId : Nat} {account : Account}

/-- One account changes, with what belongs to it. -/
theorem set (h : book.Consistent) (hself : book'.account userId = some account)
    (hother : ∀ id, id ≠ userId → book'.account id = book.account id)
    (haddress : ∀ id other, book.account id = some other → other.email = account.email →
      id = userId)
    (hmailed : ∀ kind, ∀ τ ∈ book'.mailed kind, τ.userId ≠ userId ∧ τ ∈ book.mailed kind
      ∨ τ.userId = userId ∧ account.confirmed = kind.ofConfirmed)
    (hlogins : ∀ login ∈ book'.logins, login.userId ≠ userId ∧ login ∈ book.logins
      ∨ login.userId = userId ∧ account.confirmed = true) : book'.Consistent where
  address {id id' first second} hfirst hsecond hsame := by
    by_cases hid : id = userId
    · subst hid
      cases hself.symm.trans hfirst
      by_cases hid' : id' = id
      · exact hid'.symm
      · rw [hother id' hid'] at hsecond
        exact (haddress id' second hsecond hsame.symm).symm
    · rw [hother id hid] at hfirst
      by_cases hid' : id' = userId
      · subst hid'
        cases hself.symm.trans hsecond
        exact haddress id first hfirst hsame
      · rw [hother id' hid'] at hsecond
        exact h.address hfirst hsecond hsame
  mailed kind τ hτ := by
    obtain ⟨howner, hbefore⟩ | ⟨rfl, hstate⟩ := hmailed kind τ hτ
    · rw [hother _ howner]
      exact h.mailed kind τ hbefore
    · exact ⟨account, hself, hstate⟩
  logins login hlogin := by
    obtain ⟨howner, hbefore⟩ | ⟨rfl, hstate⟩ := hlogins login hlogin
    · rw [hother _ howner]
      exact h.logins login hbefore
    · exact ⟨account, hself, hstate⟩

/-- What belongs to an account whose state is the same. -/
theorem mailed_of_same (h : book.Consistent) {old : Account}
    (haccount : book.account userId = some old) (hsame : account.confirmed = old.confirmed)
    {kind : TokenKind} {τ : MailedSecret} (hτ : τ ∈ book.mailed kind) :
    τ.userId ≠ userId ∧ τ ∈ book.mailed kind
      ∨ τ.userId = userId ∧ account.confirmed = kind.ofConfirmed := by
  by_cases howner : τ.userId = userId
  · obtain ⟨owner, howner', hstate⟩ := h.mailed kind τ hτ
    rw [howner, haccount] at howner'
    cases howner'
    exact .inr ⟨howner, hsame.trans hstate⟩
  · exact .inl ⟨howner, hτ⟩

theorem logins_of_same (h : book.Consistent) {old : Account}
    (haccount : book.account userId = some old)
    (hsame : old.confirmed = true → account.confirmed = true) {login : OpenLogin}
    (hlogin : login ∈ book.logins) : login.userId ≠ userId ∧ login ∈ book.logins
      ∨ login.userId = userId ∧ account.confirmed = true := by
  by_cases howner : login.userId = userId
  · obtain ⟨owner, howner', hstate⟩ := h.logins login hlogin
    rw [howner, haccount] at howner'
    cases howner'
    exact .inr ⟨howner, hsame hstate⟩
  · exact .inl ⟨howner, hlogin⟩

theorem address_of_same (h : book.Consistent) {old : Account}
    (haccount : book.account userId = some old) (hemail : account.email = old.email) :
    ∀ id other, book.account id = some other → other.email = account.email → id = userId :=
  fun _ _ hother hsame => h.address hother haccount (hsame.trans hemail)

theorem forget (h : book.Consistent) (userId : Nat) : (book.forget userId).Consistent where
  address {id id' first second} hfirst hsecond hsame := by
    have hkept : ∀ {id account}, (book.forget userId).account id = some account →
        book.account id = some account := by
      intro id account haccount
      by_cases hid : id = userId
      · rw [Book.forget_account, hid, Function.update_self] at haccount
        cases haccount
      · rwa [Book.forget_account, Function.update_of_ne hid] at haccount
    exact h.address (hkept hfirst) (hkept hsecond) hsame
  mailed kind τ hτ := by
    obtain ⟨account, haccount, hstate⟩ := h.mailed kind τ hτ.1
    exact ⟨account, (Function.update_of_ne hτ.2 ..).trans haccount, hstate⟩
  logins login hlogin := by
    obtain ⟨account, haccount, hstate⟩ := h.logins login hlogin.1
    exact ⟨account, (Function.update_of_ne hlogin.2 ..).trans haccount, hstate⟩

theorem restrict (h : book.Consistent) (haccount : book'.account = book.account)
    (hmailed : ∀ kind, book'.mailed kind ⊆ book.mailed kind)
    (hlogins : book'.logins ⊆ book.logins) : book'.Consistent where
  address := haccount ▸ h.address
  mailed kind τ hτ := haccount ▸ h.mailed kind τ (hmailed kind hτ)
  logins login hlogin := haccount ▸ h.logins login (hlogins hlogin)

theorem endLogin (h : book.Consistent) (secret : String) : (book.endLogin secret).Consistent :=
  h.restrict rfl (fun _ => subset_rfl) fun _ hlogin => hlogin.1

theorem addLogin (h : book.Consistent) {login : OpenLogin}
    (haccount : book.account login.userId = some account) (hstate : account.confirmed = true) :
    (book.addLogin login).Consistent where
  address := h.address
  mailed := h.mailed
  logins login' hlogin' := by
    obtain rfl | hlogin' := hlogin'
    · exact ⟨account, haccount, hstate⟩
    · exact h.logins login' hlogin'

theorem mail (h : book.Consistent) {kind : TokenKind} {τ : MailedSecret}
    (haccount : book.account τ.userId = some account)
    (hstate : account.confirmed = kind.ofConfirmed) : (book.mail kind τ).Consistent where
  address := h.address
  mailed kind' σ hσ := by
    obtain ⟨rfl, rfl⟩ | hσ := Book.mem_mail hσ
    · exact ⟨account, haccount, hstate⟩
    · exact h.mailed kind' σ hσ
  logins := h.logins

/-- The address and its state stay. -/
theorem setAccount (h : book.Consistent) {old : Account} (haccount : book.account userId = some old)
    (hemail : account.email = old.email) (hsame : account.confirmed = old.confirmed) :
    (book.setAccount userId account).Consistent :=
  h.set (Function.update_self ..) (fun _ hid => Function.update_of_ne hid ..)
    (h.address_of_same haccount hemail) (fun _ _ => h.mailed_of_same haccount hsame)
    fun _ => h.logins_of_same haccount fun hold => hsame.trans hold

theorem setPassword (h : book.Consistent) (haccount : book.account userId = some account)
    (password : String) : (((book.setAccount userId { account with password := password }).drop
      .passwordReset userId).endLogins userId).Consistent := by
  have hset : (book.setAccount userId { account with password := password }).Consistent :=
    h.setAccount haccount rfl rfl
  exact hset.restrict rfl Book.drop_subset fun _ hlogin => hlogin.1

end Book.Consistent

/-- **What a book keeps.** -/
theorem Book.Serves.consistent {context : Context} {legalPages : List LegalPage}
    {eventIds : List Int} {now : Int} {book book' : Book} {request : UserRequest}
    {r : Except Exn UserReply} (h : book.Consistent)
    (hserves : book.Serves context legalPages eventIds now request r book') : book'.Consistent := by
  cases hserves with
  | @registered payload userId secret hunused _ _ hnew =>
      have hnobody : ∀ {id account}, book.account id = some account → id ≠ userId := by
        rintro _ account haccount rfl
        cases hnew.symm.trans haccount
      have hset : (book.setAccount userId payload.account).Consistent := by
        refine h.set (Function.update_self ..) (fun id hid => Function.update_of_ne hid ..) ?_ ?_ ?_
        · intro id other hother hsame
          exact (hunused id other ⟨hother, hsame⟩).elim
        · intro kind τ hτ
          obtain ⟨account, haccount, _⟩ := h.mailed kind τ hτ
          exact .inl ⟨hnobody haccount, hτ⟩
        · intro login hlogin
          obtain ⟨account, haccount, _⟩ := h.logins login hlogin
          exact .inl ⟨hnobody haccount, hlogin⟩
      exact hset.mail (Function.update_self ..) rfl
  | @confirmed secret τ account hlive =>
      refine h.set (Function.update_self ..) (fun id hid => Function.update_of_ne hid ..)
        (h.address_of_same hlive.2.2.2 rfl) (fun kind σ hσ => ?_)
        fun login hlogin => h.logins_of_same hlive.2.2.2 (fun _ => rfl) hlogin
      -- what is left to the user is a secret for a confirmed address
      cases kind with
      | confirmation => exact .inl ⟨(Book.mem_drop.mp hσ).2, (Book.mem_drop.mp hσ).1⟩
      | passwordReset =>
          by_cases howner : σ.userId = τ.userId
          · exact .inr ⟨howner, rfl⟩
          · exact .inl ⟨howner, Book.drop_subset _ hσ⟩
  | mailed _ haddress hstate => exact h.mail haddress.1 hstate
  | reset hlive => exact h.setPassword hlive.2.2.2 _
  | changed hbears => exact h.setPassword hbears.2.1 _
  | loggedIn haddress _ hstate => exact h.addLogin haddress.1 hstate
  | continued hcontinues =>
      exact (h.endLogin _).addLogin hcontinues.2.2.2.1 hcontinues.2.2.2.2
  | loggedOut => exact h.endLogin _
  | deleted => exact h.forget _
  | consents hbears => exact h.setAccount hbears.2.1 rfl rfl
  | favoriteAdded hbears =>
      exact h.setAccount hbears.2.1 (Account.addFavorite_email ..)
        (Account.addFavorite_confirmed ..)
  | favoriteRemoved hbears => exact h.setAccount hbears.2.1 rfl rfl
  | _ => exact h

end EventsApi
