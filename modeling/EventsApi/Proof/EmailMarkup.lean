import EventsApi.Library.Html
import EventsApi.Proof.SessionSteps
import EventsApi.Reports.Service

/-!
# Messages and their markup

The HTML bodies put names, links and reports between fixed tags. Each body is what its template is
written as with every string escaped, so whatever the strings are, a reader finds the tags of the
template and, with the references resolved, the strings themselves.
-/

namespace EventsApi

open Html

theorem toList_escape (text : String) : (escape text).toList = escapeText text.toList := by
  rw [escape, String.toList_join, List.flatMap_map, escapeText]
  refine List.flatMap_congr fun c _ => ?_
  unfold escapeChar
  split <;> simp

/-- The tz database abbreviates with letters, digits and signs. -/
def PlainZoneNames (context : Context) : Prop :=
  ∀ t, Plain (context.zoneName t).toList

/-- A formatted timestamp is digits, hyphens, a colon, blanks and the name of a time zone. -/
theorem plain_formatSystemTimestamp {context : Context} (hname : PlainZoneNames context)
    (instant : Int) : Plain (context.formatSystemTimestamp instant).toList := by
  have hminute (stamp : Calendar.Timestamp) : Plain stamp.minuteText := by
    constructor
    all_goals
      intro hmem
      rcases Calendar.Timestamp.mem_minuteText hmem with hdigit | hmark
      · exact absurd hdigit (by decide)
      · exact absurd hmark (by decide)
  rw [Context.formatSystemTimestamp, formatSystemTimestamp, String.toList_append,
    String.toList_append, String.toList_ofList]
  exact ((hminute _).append (by decide)).append (hname _)

/-! ### The templates -/

def paragraph (content : List Piece) : List Piece :=
  .openTag ['p'] [] :: content ++ [.closeTag ['p']]

/-- A text with nothing put into it. -/
def fixed (text : String) : Piece := .text text.toList [] []

def link (url action : String) : List Piece :=
  [.openTag ['a'] [⟨"href".toList, url.toList⟩], fixed action, .closeTag ['a']]

def confirmationTemplate (copy : ConfirmationEmailCopy) (firstName url requestedAt : String) :
    List Piece :=
  paragraph [.text (copy.greeting ++ " ").toList firstName.toList [',']]
    ++ paragraph [fixed copy.instruction]
    ++ paragraph (link url copy.action)
    ++ paragraph [fixed (copy.requestedAt ++ ": " ++ requestedAt)]

def passwordResetTemplate (copy : PasswordResetEmailCopy) (firstName url requestedAt : String) :
    List Piece :=
  paragraph [.text (copy.greeting ++ " ").toList firstName.toList [',']]
    ++ paragraph [fixed copy.instruction]
    ++ paragraph (link url copy.action)
    ++ paragraph [fixed (copy.requestedAt ++ ": " ++ requestedAt)]
    ++ paragraph [fixed copy.ignore]

def strong (text : String) : List Piece :=
  [.openTag "strong".toList [], fixed text, .closeTag "strong".toList]

def reportTemplate (reporter platform appVersion submittedAt message : String) : List Piece :=
  [.openTag ['h', '2'] [], fixed "New Avilys issue report", .closeTag ['h', '2']]
    ++ paragraph (strong "From:" ++ [.text [' '] reporter.toList []])
    ++ paragraph (strong "Platform:" ++ [.text [' '] platform.toList []])
    ++ paragraph (strong "App version:" ++ [.text [' '] appVersion.toList []])
    ++ paragraph (strong "Submitted at:" ++ [fixed (" " ++ submittedAt)])
    ++ [.openTag ['h', 'r'] [],
      .openTag "div".toList [⟨"style".toList, "white-space:pre-wrap".toList⟩],
      .text [] message.toList [], .closeTag "div".toList]

/-! ### The bodies -/

variable (context : Context)

theorem html_confirmationEmail (user : User) (rawToken : String) (tokenId : Nat)
    (requestedAt : Int) :
    (confirmationEmail context user rawToken tokenId requestedAt).html.toList
      = write (fill escapeText (confirmationTemplate (confirmationEmailCopy user.preferredLocale)
        user.firstName (context.tokenUrl context.settings.emailConfirmationUrl rawToken)
        (context.formatSystemTimestamp requestedAt))) := by
  simp [confirmationEmail, confirmationTemplate, paragraph, link, fixed, fill, write, Piece.token,
    Token.write, Attribute.write, toList_escape, escapeText]

theorem html_passwordResetEmail (user : User) (rawToken : String) (tokenId : Nat)
    (requestedAt : Int) :
    (passwordResetEmail context user rawToken tokenId requestedAt).html.toList
      = write (fill escapeText (passwordResetTemplate (passwordResetEmailCopy user.preferredLocale)
        user.firstName (context.tokenUrl context.settings.passwordResetUrl rawToken)
        (context.formatSystemTimestamp requestedAt))) := by
  simp [passwordResetEmail, passwordResetTemplate, paragraph, link, fixed, fill, write, Piece.token,
    Token.write, Attribute.write, toList_escape, escapeText]

set_option maxRecDepth 4000 in
theorem html_reportEmail (payload : SubmitReportRequest) (toAddress : String) (submittedAt : Int)
    (uuid : String) :
    (reportEmail context payload toAddress submittedAt uuid).html.toList
      = write (fill escapeText (reportTemplate (display payload.email) (display payload.platform)
        (display payload.appVersion) (context.formatSystemTimestamp submittedAt)
        payload.message)) := by
  have hstyle : "white-space:pre-wrap".toList.flatMap escapeChar = "white-space:pre-wrap".toList := by
    decide
  simp only [reportEmail, reportTemplate, paragraph, strong, fixed, fill, write, Piece.token,
    Token.write, Attribute.write, escapeText, String.toList_append, toList_escape, List.map_append,
    List.map_cons, List.map_nil, List.flatMap_append, List.flatMap_cons, List.flatMap_nil, hstyle]
  simp

/-! ### The texts of the templates -/

/-- A fixed text that can stand between tags. -/
structure Phrase (text : String) : Prop where
  plain : Plain text.toList
  nonempty : text.toList ≠ []

theorem phrases_confirmationEmailCopy (locale : String) :
    Phrase (confirmationEmailCopy locale).greeting
      ∧ Phrase (confirmationEmailCopy locale).instruction
      ∧ Phrase (confirmationEmailCopy locale).action
      ∧ Phrase (confirmationEmailCopy locale).requestedAt := by
  unfold confirmationEmailCopy
  split <;> refine ⟨?_, ?_, ?_, ?_⟩ <;> constructor <;> decide

theorem phrases_passwordResetEmailCopy (locale : String) :
    Phrase (passwordResetEmailCopy locale).greeting
      ∧ Phrase (passwordResetEmailCopy locale).instruction
      ∧ Phrase (passwordResetEmailCopy locale).ignore
      ∧ Phrase (passwordResetEmailCopy locale).action
      ∧ Phrase (passwordResetEmailCopy locale).requestedAt := by
  unfold passwordResetEmailCopy
  split <;> refine ⟨?_, ?_, ?_, ?_, ?_⟩ <;> constructor <;> decide

theorem Phrase.append {text : String} (h : Phrase text) {rest : String}
    (hrest : Plain rest.toList) : Phrase (text ++ rest) where
  plain := by
    rw [String.toList_append]
    exact h.plain.append hrest
  nonempty := by
    rw [String.toList_append]
    exact fun hempty => h.nonempty (List.append_eq_nil_iff.mp hempty).1

theorem plain_colon : Plain ": ".toList := by decide

theorem Phrase.valid {text : String} (h : Phrase text) : (fixed text).Valid :=
  ⟨h.plain, by decide, by simpa using h.nonempty⟩

theorem Phrase.valid_before {text : String} (h : Phrase text) (slot : List Char)
    {after : List Char} (hafter : Plain after) : (Piece.text text.toList slot after).Valid :=
  ⟨h.plain, hafter, by simp [h.nonempty]⟩

theorem valid_paragraph {content : List Piece} (h : ∀ piece ∈ content, piece.Valid) :
    ∀ piece ∈ paragraph content, piece.Valid := by
  have htag : Name ['p'] := by constructor <;> decide
  simp only [paragraph, List.mem_append, List.mem_cons, List.not_mem_nil, or_false]
  rintro piece ((rfl | hpiece) | rfl)
  · exact ⟨htag, List.forall_mem_nil _⟩
  · exact h piece hpiece
  · exact htag

theorem valid_link (url : String) {action : String} (h : Phrase action) :
    ∀ piece ∈ link url action, piece.Valid := by
  have htag : Name ['a'] := by constructor <;> decide
  have hkey : Name "href".toList := by constructor <;> decide
  simp only [link, List.mem_cons, List.not_mem_nil, or_false]
  rintro piece (rfl | rfl | rfl)
  · exact ⟨htag, by simpa using hkey⟩
  · exact h.valid
  · exact htag

theorem valid_strong {text : String} (h : Phrase text) : ∀ piece ∈ strong text, piece.Valid := by
  have htag : Name "strong".toList := by constructor <;> decide
  simp only [strong, List.mem_cons, List.not_mem_nil, or_false]
  rintro piece (rfl | rfl | rfl)
  · exact ⟨htag, List.forall_mem_nil _⟩
  · exact h.valid
  · exact htag

/-- The paragraphs that a confirmation and a password reset have in common. -/
theorem valid_request {greeting instruction action requested requestedAt : String}
    (firstName url : String) (hgreeting : Phrase greeting) (hinstruction : Phrase instruction)
    (haction : Phrase action) (hrequested : Phrase requested) (hat : Plain requestedAt.toList) :
    ∀ piece ∈ paragraph [.text (greeting ++ " ").toList firstName.toList [',']]
        ++ paragraph [fixed instruction] ++ paragraph (link url action)
        ++ paragraph [fixed (requested ++ ": " ++ requestedAt)], piece.Valid := by
  have hgreeted : Phrase (greeting ++ " ") := hgreeting.append (by decide)
  have hstamp := (hrequested.append plain_colon).append hat
  simp only [List.forall_mem_append]
  exact ⟨⟨⟨valid_paragraph (by simpa using hgreeted.valid_before firstName.toList (by decide)),
    valid_paragraph (by simpa using hinstruction.valid)⟩, valid_paragraph (valid_link url haction)⟩,
    valid_paragraph (by simpa using hstamp.valid)⟩

theorem valid_confirmationTemplate (locale firstName url : String) {requestedAt : String}
    (hrequested : Plain requestedAt.toList) :
    ∀ piece ∈ confirmationTemplate (confirmationEmailCopy locale) firstName url requestedAt,
      piece.Valid := by
  obtain ⟨hgreeting, hinstruction, haction, hat⟩ := phrases_confirmationEmailCopy locale
  exact valid_request firstName url hgreeting hinstruction haction hat hrequested

theorem valid_passwordResetTemplate (locale firstName url : String) {requestedAt : String}
    (hrequested : Plain requestedAt.toList) :
    ∀ piece ∈ passwordResetTemplate (passwordResetEmailCopy locale) firstName url requestedAt,
      piece.Valid := by
  obtain ⟨hgreeting, hinstruction, hignore, haction, hat⟩ := phrases_passwordResetEmailCopy locale
  refine List.forall_mem_append.mpr ⟨?_, valid_paragraph (by simpa using hignore.valid)⟩
  exact valid_request firstName url hgreeting hinstruction haction hat hrequested

theorem valid_reportTemplate (reporter platform appVersion : String) {submittedAt message : String}
    (hsubmitted : Plain submittedAt.toList) (hmessage : message ≠ "") :
    ∀ piece ∈ reportTemplate reporter platform appVersion submittedAt message, piece.Valid := by
  have hheading : Name ['h', '2'] := by constructor <;> decide
  have hrule : Name ['h', 'r'] := by constructor <;> decide
  have hdiv : Name "div".toList := by constructor <;> decide
  have hstyle : Name "style".toList := by constructor <;> decide
  have hlabel {text : String} (h : Phrase text) (slot : String) :
      ∀ piece ∈ paragraph (strong text ++ [.text [' '] slot.toList []]), piece.Valid := by
    refine valid_paragraph (List.forall_mem_append.mpr ⟨valid_strong h, ?_⟩)
    rw [List.forall_mem_singleton]
    exact ⟨by decide, by decide, by simp⟩
  have hstamp : Phrase (" " ++ submittedAt) := Phrase.append ⟨by decide, by decide⟩ hsubmitted
  simp only [reportTemplate, List.forall_mem_append]
  refine ⟨⟨⟨⟨⟨?_, hlabel ⟨by decide, by decide⟩ reporter⟩, hlabel ⟨by decide, by decide⟩ platform⟩,
    hlabel ⟨by decide, by decide⟩ appVersion⟩, valid_paragraph (List.forall_mem_append.mpr
      ⟨valid_strong ⟨by decide, by decide⟩, by simpa using hstamp.valid⟩)⟩, ?_⟩
  · simp only [List.mem_cons, List.not_mem_nil, or_false]
    rintro piece (rfl | rfl | rfl)
    · exact ⟨hheading, List.forall_mem_nil _⟩
    · exact Phrase.valid ⟨by decide, by decide⟩
    · exact hheading
  · simp only [List.mem_cons, List.not_mem_nil, or_false]
    rintro piece (rfl | rfl | rfl | rfl)
    · exact ⟨hrule, List.forall_mem_nil _⟩
    · exact ⟨hdiv, by simpa using hstyle⟩
    · exact ⟨by decide, by decide, by simpa using hmessage⟩
    · exact hdiv

/-! ### What a reader finds -/

def opening (name : String) : Token := .openTag name.toList []

def closing (name : String) : Token := .closeTag name.toList

def paragraphTags (content : List Token) : List Token := opening "p" :: content ++ [closing "p"]

def linkTags : List Token := [.openTag ['a'] [⟨"href".toList, []⟩], closing "a"]

def confirmationTags : List Token :=
  paragraphTags [] ++ paragraphTags [] ++ paragraphTags linkTags ++ paragraphTags []

def passwordResetTags : List Token := confirmationTags ++ paragraphTags []

def reportTags : List Token :=
  let label := paragraphTags [opening "strong", closing "strong"]
  [opening "h2", closing "h2"] ++ label ++ label ++ label ++ label
    ++ [opening "hr", .openTag "div".toList [⟨"style".toList, "white-space:pre-wrap".toList⟩],
      closing "div"]

/-- A reader of the body finds the tags, apart from the value of `href`, and with the references
resolved the strings of the template in their places. -/
structure Shows (html : String) (template : List Piece) (tags : List Token) : Prop where
  tags : skeleton "href".toList (tokenise html.toList) = tags
  strings : (tokenise html.toList).map Token.unescape = fill id template

theorem shows_of_written {html : String} {template : List Piece} {tags : List Token}
    (hhtml : html.toList = write (fill escapeText template))
    (hvalid : ∀ piece ∈ template, piece.Valid) (hseparate : Separate (fill id template))
    (htags : skeleton "href".toList (fill escapeText template) = tags) :
    Shows html template tags := by
  obtain ⟨hread, hstrings⟩ := tokenise_fill hvalid hseparate
  rw [← hhtml] at hread
  exact ⟨by rw [hread, htags], by rw [hread, hstrings]⟩

/-- **Messages keep their markup.** For all strings put into them, the three kinds of bodies show the
tags of their template in its order, the same for any two messages of a kind but for the one `href`,
and exactly these strings in its places. -/
theorem messages_keep_markup (hname : PlainZoneNames context) :
    (∀ (user : User) (rawToken : String) (tokenId : Nat) (requestedAt : Int),
      Shows (confirmationEmail context user rawToken tokenId requestedAt).html
        (confirmationTemplate (confirmationEmailCopy user.preferredLocale) user.firstName
          (context.tokenUrl context.settings.emailConfirmationUrl rawToken)
          (context.formatSystemTimestamp requestedAt))
        confirmationTags)
    ∧ (∀ (user : User) (rawToken : String) (tokenId : Nat) (requestedAt : Int),
      Shows (passwordResetEmail context user rawToken tokenId requestedAt).html
        (passwordResetTemplate (passwordResetEmailCopy user.preferredLocale) user.firstName
          (context.tokenUrl context.settings.passwordResetUrl rawToken)
          (context.formatSystemTimestamp requestedAt))
        passwordResetTags)
    ∧ ∀ (payload : SubmitReportRequest) (toAddress : String) (submittedAt : Int) (uuid : String),
      Shows (reportEmail context payload toAddress submittedAt uuid).html
        (reportTemplate (display payload.email) (display payload.platform)
          (display payload.appVersion) (context.formatSystemTimestamp submittedAt) payload.message)
        reportTags := by
  refine ⟨fun user rawToken tokenId requestedAt => ?_, fun user rawToken tokenId requestedAt => ?_,
    fun payload toAddress submittedAt uuid => ?_⟩
  · refine shows_of_written (html_confirmationEmail context user rawToken tokenId requestedAt)
      (valid_confirmationTemplate _ _ _ (plain_formatSystemTimestamp hname requestedAt)) ?_ rfl
    simp [confirmationTemplate, paragraph, link, fixed, fill, Piece.token, Separate, Token.isText]
  · refine shows_of_written (html_passwordResetEmail context user rawToken tokenId requestedAt)
      (valid_passwordResetTemplate _ _ _ (plain_formatSystemTimestamp hname requestedAt)) ?_ rfl
    simp [passwordResetTemplate, paragraph, link, fixed, fill, Piece.token, Separate, Token.isText]
  · refine shows_of_written (html_reportEmail context payload toAddress submittedAt uuid)
      (valid_reportTemplate _ _ _ (plain_formatSystemTimestamp hname submittedAt)
        payload.message_ne) ?_ rfl
    simp [reportTemplate, paragraph, strong, fixed, fill, Piece.token, Separate, Token.isText]

/-- Her name brings tags and a reference of its own. -/
def taggedUser : User := { confirmedUser with firstName := "<b>Ona</b> &lt; Co" }

def scriptReport : SubmitReportRequest where
  email := none
  message := "<script>alert('1')</script></div>"
  platform := some "\"iOS\" & <web>"
  appVersion := some ""
  message_ne := by decide
  message_le := by decide
  platform_le := by decide
  appVersion_le := by decide

theorem messages_keep_markup_taggedUser :
    let confirmation := confirmationEmail plainContext taggedUser "a\"b" 1 1767268800000000
    let report := reportEmail plainContext scriptReport "help@example.lt" 1767268800000000 "u"
    (skeleton "href".toList (tokenise confirmation.html.toList) = confirmationTags
      ∧ (tokenise confirmation.html.toList).map Token.unescape
        = [opening "p", .text "Sveiki <b>Ona</b> &lt; Co,".toList, closing "p", opening "p",
          .text "Patvirtinkite savo el. pašto adresą, kad užbaigtumėte paskyros kūrimą.".toList,
          closing "p", opening "p",
          .openTag ['a']
            [⟨"href".toList, "http://localhost:3000/confirm-email?token=a\"b".toList⟩],
          .text "Patvirtinti el. pašto adresą".toList, closing "a", closing "p", opening "p",
          .text "Nuorodos užklausa pateikta: 2026-01-01 14:00 EET".toList, closing "p"])
    ∧ skeleton "href".toList (tokenise report.html.toList) = reportTags
    ∧ (tokenise report.html.toList).map Token.unescape
      = fill id (reportTemplate "Not provided" "\"iOS\" & <web>" "Not provided"
          "2026-01-01 14:00 EET" "<script>alert('1')</script></div>") := by
  intro confirmation report
  obtain ⟨hconfirmation, _, hreport⟩ := messages_keep_markup plainContext
    fun _ => (by decide : Plain "EET".toList)
  have hshown := hconfirmation taggedUser "a\"b" 1 1767268800000000
  have hreported := hreport scriptReport "help@example.lt" 1767268800000000 "u"
  exact ⟨⟨hshown.tags, hshown.strings⟩, hreported.tags, hreported.strings⟩

end EventsApi
