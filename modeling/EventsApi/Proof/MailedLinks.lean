import EventsApi.Auth.Links
import EventsApi.Proof.AccountOwners

/-!
# Where a mailed link leads

A link is the configured URL with one more pair in its query, and reading the query gives the token
back. A message with a link is stored by the transaction that makes the token, and neither the token
nor the message is changed afterwards.
-/

namespace EventsApi

open ReadCommitted

/-! ### The link -/

/-- The link leads where the base URL does, with the token as the last pair of its query. -/
def LeadsTo (netlocValid : List Char → Bool) (baseUrl url token : String) : Prop :=
  ∃ parts query, UrlSplit.urlsplit netlocValid baseUrl.toList = some parts
    ∧ UrlSplit.urlsplit netlocValid url.toList = some { parts with query := query }
    ∧ UrlQuery.parseQsl query
      = UrlQuery.parseQsl parts.query ++ [("token".toList, token.toList)]

theorem urlencode_plain {pairs : List (List Char × List Char)} {c : Char}
    (h : c ∈ UrlQuery.urlencode pairs) : c ≠ '#' ∧ UrlSplit.isRemoved c = false := by
  have hplain : ∀ {other : Char}, UrlQuery.quotedChar other = false → other ≠ '=' → other ≠ '&' →
      c ≠ other := by
    intro other hquoted hequals hand
    obtain hc | rfl | rfl := UrlQuery.mem_urlencode h
    · exact UrlQuery.ne_of_quotedChar hc hquoted
    · exact hequals.symm
    · exact hand.symm
  refine ⟨hplain (by decide) (by decide) (by decide), Bool.eq_false_iff.mpr fun hremoved => ?_⟩
  simp only [UrlSplit.isRemoved, List.contains_iff_mem, List.mem_cons, List.not_mem_nil,
    or_false] at hremoved
  obtain hc | hc | hc := hremoved
  · exact hplain (by decide) (by decide) (by decide) hc
  · exact hplain (by decide) (by decide) (by decide) hc
  · exact hplain (by decide) (by decide) (by decide) hc

theorem tokenUrl_leadsTo {netlocValid : List Char → Bool} {baseUrl token url : String}
    (h : tokenUrl netlocValid baseUrl token = some url) :
    LeadsTo netlocValid baseUrl url token := by
  obtain ⟨parts, hparts, rfl⟩ := Option.map_eq_some_iff.mp h
  have hpairs : UrlQuery.parseQsl parts.query ++ [("token".toList, token.toList)] ≠ [] := by
    simp
  refine ⟨parts, _, hparts, ?_, UrlQuery.parseQsl_urlencode _⟩
  rw [String.toList_ofList]
  exact UrlSplit.urlsplit_urlunsplit hparts (UrlQuery.urlencode_ne_nil hpairs)
    fun c hc => urlencode_plain hc

theorem LeadsTo.token_unique {netlocValid : List Char → Bool} {baseUrl url token token' : String}
    (h : LeadsTo netlocValid baseUrl url token) (h' : LeadsTo netlocValid baseUrl url token') :
    token = token' := by
  obtain ⟨parts, query, hbase, hurl, hquery⟩ := h
  obtain ⟨parts', query', hbase', hurl', hquery'⟩ := h'
  cases hbase.symm.trans hbase'
  obtain rfl : query = query' := by
    cases hurl.symm.trans hurl'
    rfl
  have hlast := List.append_cancel_left (hquery.symm.trans hquery')
  exact String.toList_inj.mp (congrArg Prod.snd (List.cons.inj hlast).1)

theorem tokenUrl_cases (netlocValid : List Char → Bool) (baseUrl : String) :
    (UrlSplit.urlsplit netlocValid baseUrl.toList = none
      ∧ ∀ token, tokenUrl netlocValid baseUrl token = none)
    ∨ ∃ link : String → String, ∀ token, tokenUrl netlocValid baseUrl token = some (link token) := by
  cases hparts : UrlSplit.urlsplit netlocValid baseUrl.toList with
  | none => exact .inl ⟨rfl, fun token => by rw [tokenUrl, hparts, Option.map_none]⟩
  | some parts => exact .inr ⟨_, fun token => by rw [tokenUrl, hparts, Option.map_some]⟩

/-- **The links of a base URL.** Either it makes no link at all, or one for every token, which leads
where the base URL does, keeps the pairs of its query and reads back to the token. -/
theorem tokenUrl_round_trip (netlocValid : List Char → Bool) (baseUrl : String) :
    (UrlSplit.urlsplit netlocValid baseUrl.toList = none
      ∧ ∀ token, tokenUrl netlocValid baseUrl token = none)
    ∨ ∃ link : String → String, Function.Injective link
      ∧ ∀ token, tokenUrl netlocValid baseUrl token = some (link token)
        ∧ LeadsTo netlocValid baseUrl (link token) token := by
  obtain hnone | ⟨link, hlink⟩ := tokenUrl_cases netlocValid baseUrl
  · exact .inl hnone
  · have hleads : ∀ token, LeadsTo netlocValid baseUrl (link token) token := fun token =>
      tokenUrl_leadsTo (hlink token)
    refine .inr ⟨link, fun token token' heq => ?_, fun token => ⟨hlink token, hleads token⟩⟩
    exact (hleads token).token_unique (heq ▸ hleads token')

/-! ### Messages -/

variable {context : Context} {legalPages : List LegalPage} {eventIds : List Int}

def TokenKind.baseUrl (settings : Settings) : TokenKind → String
  | .confirmation => settings.emailConfirmationUrl
  | .passwordReset => settings.passwordResetUrl

theorem links_email {kind : TokenKind} {user : User} {rawToken : String} {tokenId : Nat}
    {requestedAt : Int} {job : EmailOutboxJob}
    (h : job.message = kind.email context user rawToken tokenId requestedAt) :
    Links (context.tokenUrl (kind.baseUrl context.settings) rawToken) job := by
  cases kind with
  | confirmation => exact links_confirmationEmail h
  | passwordReset =>
      have htext : job.textBody = _ := congrArg EmailMessage.text h
      have hhtml : job.htmlBody = _ := congrArg EmailMessage.html h
      let copy := passwordResetEmailCopy user.preferredLocale
      let requestedAtText := context.formatSystemTimestamp requestedAt
      constructor
      · refine ⟨copy.greeting ++ " " ++ user.firstName ++ ",\n\n" ++ copy.instruction ++ "\n\n",
          "\n\n" ++ copy.requestedAt ++ ": " ++ requestedAtText ++ "\n\n" ++ copy.ignore, ?_⟩
        simp only [htext, TokenKind.email, TokenKind.baseUrl, passwordResetEmail,
          String.append_assoc, copy, requestedAtText]
      · refine ⟨"<p>" ++ copy.greeting ++ " " ++ escape user.firstName ++ ",</p>" ++ "<p>"
          ++ copy.instruction ++ "</p>" ++ "<p><a href=\"", "\">" ++ copy.action ++ "</a></p>"
          ++ "<p>" ++ copy.requestedAt ++ ": " ++ requestedAtText ++ "</p>"
          ++ "<p>" ++ copy.ignore ++ "</p>", ?_⟩
        simp only [hhtml, TokenKind.email, TokenKind.baseUrl, passwordResetEmail,
          String.append_assoc, copy, requestedAtText]

/-- The configured base URLs make links, and the messages have them. -/
def MakesLinks (netlocValid : List Char → Bool) (context : Context) : Prop :=
  ∀ (kind : TokenKind) rawToken, tokenUrl netlocValid (kind.baseUrl context.settings) rawToken
    = some (context.tokenUrl (kind.baseUrl context.settings) rawToken)

/-! ### Runs -/

/-- **Mailed links.** Whatever requests run, in whatever order, with however many of them lost: a
message that is linked to a stored token is addressed to the user whose token it is, and has a link
that leads where the configured URL does and reads back to a token that the stored hash is of. -/
theorem mailed_link_redeems {netlocValid : List Char → Bool} (hlinks : MakesLinks netlocValid context)
    {c₀ c : UserConfig} (h₀ : OnlyUsers c₀)
    (h : Transition.Reachable (userSystem context legalPages eventIds).step (· = c₀)
      Transition.anyStep c)
    {kind : TokenKind} {jobId tokenId : Nat} {job : EmailOutboxJob} {token : UserToken}
    (hjob : (c.world.slot jobTable jobId).committed = some job)
    (hlinked : UserTokens.linkedJob kind tokenId job = true)
    (htoken : (c.world.slot (tokenTable kind) tokenId).committed = some token) :
    (∀ user : User, (c.world.slot userTable token.userId).committed = some user →
        user.email = job.toAddress)
      ∧ ∃ rawToken url, context.crypto.sha256 rawToken = token.tokenHash ∧ Links url job
        ∧ LeadsTo netlocValid (kind.baseUrl context.settings) url rawToken := by
  have horigins : Origins context c₀.world c.world := origins_reachable h₀ h
  obtain ⟨_, hbrings⟩ := horigins.jobs jobId job (.inl hjob) kind tokenId hlinked
  obtain ⟨⟨user, rawToken, requestedAt, hmessage, hhash⟩, _, haddressed⟩ :=
    hbrings token (.inl htoken)
  refine ⟨fun user huser => haddressed user (.inl huser), rawToken, _, hhash.symm,
    links_email hmessage, tokenUrl_leadsTo (hlinks kind rawToken)⟩

/-! ### Ona's link -/

/-- Links are made here as the service makes them, of base URLs with any network location. -/
def linkingContext : Context :=
  { plainContext with
    tokenUrl := fun baseUrl token => (tokenUrl (fun _ => true) baseUrl token).getD "" }

theorem linkingContext_makesLinks : MakesLinks (fun _ => true) linkingContext := by
  intro kind rawToken
  obtain ⟨hnone, _⟩ | ⟨link, hlink⟩ :=
    tokenUrl_cases (fun _ => true) (kind.baseUrl linkingContext.settings)
  · cases hnone
  · have hurl : linkingContext.tokenUrl (kind.baseUrl linkingContext.settings) rawToken
        = (tokenUrl (fun _ => true) (kind.baseUrl linkingContext.settings) rawToken).getD "" := rfl
    rw [hurl, hlink rawToken, Option.getD_some]

/-- Ona has forgotten her password. -/
def forgetsPassword : List (Label UserRequest) :=
  [.spawn 0 (.forgotPassword "ona@example.lt"), .exec 0 {}, .exec 0 { order := [0] }, .exec 0 {},
    .exec 0 {}, .exec 0 { token := "reset" }, .exec 0 {}, .exec 0 {}, .exec 0 {}, .exec 0 {},
    .close 0]

/-- The message that waits for her leads to the page for a new password, with her token. -/
theorem mailed_link_redeems_ona :
    ∃ (c : UserConfig) (job : EmailOutboxJob) (token : UserToken) (rawToken url : String),
      Transition.run (userSystem linkingContext [] []).step (smallService _ _ _) forgetsPassword
          = some c
        ∧ (c.world.slot jobTable 0).committed = some job
        ∧ (c.world.slot (tokenTable .passwordReset) 0).committed = some token
        ∧ job.toAddress = "ona@example.lt" ∧ Links url job
        ∧ linkingContext.crypto.sha256 rawToken = token.tokenHash
        ∧ LeadsTo (fun _ => true) linkingContext.settings.passwordResetUrl url rawToken := by
  have hrun : (Transition.run (userSystem linkingContext [] []).step (smallService _ _ _)
      forgetsPassword).any fun c => decide (
        (c.world.slot jobTable 0).committed.any (UserTokens.linkedJob .passwordReset 0)
          ∧ (c.world.slot (tokenTable .passwordReset) 0).committed.any
            (fun token : UserToken => token.userId = 0)
          ∧ (c.world.slot userTable 0).committed.any
            (fun user : User => user.email = "ona@example.lt")) := by decide
  obtain ⟨c, hc, hrun⟩ := (Option.any_eq_true _ _).mp hrun
  obtain ⟨hjob, htoken, huser⟩ := of_decide_eq_true hrun
  obtain ⟨job, hjob, hlinked⟩ := (Option.any_eq_true _ _).mp hjob
  obtain ⟨token, htoken, howner⟩ := (Option.any_eq_true _ _).mp htoken
  obtain ⟨user, huser, hemail⟩ := (Option.any_eq_true _ _).mp huser
  have hreach : Transition.Reachable (userSystem linkingContext [] []).step
      (· = smallService UserRequest Exn UserReply) Transition.anyStep c :=
    Transition.reachable_of_run (by rfl) forgetsPassword (fun _ _ _ _ _ _ _ => trivial) hc
  obtain ⟨haddress, rawToken, url, hhash, hlinks, hleads⟩ :=
    mailed_link_redeems linkingContext_makesLinks smallService_onlyUsers hreach hjob hlinked htoken
  rw [of_decide_eq_true howner] at haddress
  refine ⟨c, job, token, rawToken, url, hc, hjob, htoken, ?_, hlinks, hhash, hleads⟩
  exact (haddress user huser).symm.trans (of_decide_eq_true hemail)

end EventsApi
