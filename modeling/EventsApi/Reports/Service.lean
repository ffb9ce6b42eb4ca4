import EventsApi.Auth.Emails
import EventsApi.Auth.Repository

/-!
# Issue reports

`app/reports/schemas.py` and `app/reports/service.py`.
-/

namespace EventsApi

open ReadCommitted

/-- A problem report that passed validation. -/
structure SubmitReportRequest where
  email : Option String
  message : String
  platform : Option String
  appVersion : Option String
  message_ne : message ≠ ""
  message_le : message.length ≤ 5000
  platform_le : ∀ text ∈ platform, text.length ≤ 100
  appVersion_le : ∀ text ∈ appVersion, text.length ≤ 100

def reportSubmittedMessage : String := "Report submitted successfully"

def reportUnavailable : Exn := .http .serviceUnavailable "Report submission is unavailable" []

/-- `value or "Not provided"`. -/
def display : Option String → String
  | none | some "" => "Not provided"
  | some value => value

variable (context : Context)

def reportEmail (payload : SubmitReportRequest) (toAddress : String) (submittedAt : Int)
    (uuid : String) : EmailMessage :=
  let reporter := display payload.email
  let platform := display payload.platform
  let appVersion := display payload.appVersion
  let submittedAtText := context.formatSystemTimestamp submittedAt
  { toAddress := toAddress
    replyTo := payload.email
    subject := "New Avilys issue report"
    text := "New Avilys issue report\n\n"
      ++ "From: " ++ reporter ++ "\n"
      ++ "Platform: " ++ platform ++ "\n"
      ++ "App version: " ++ appVersion ++ "\n"
      ++ "Submitted at: " ++ submittedAtText ++ "\n\n"
      ++ payload.message
    html := "<h2>New Avilys issue report</h2>"
      ++ "<p><strong>From:</strong> " ++ escape reporter ++ "</p>"
      ++ "<p><strong>Platform:</strong> " ++ escape platform ++ "</p>"
      ++ "<p><strong>App version:</strong> " ++ escape appVersion ++ "</p>"
      ++ "<p><strong>Submitted at:</strong> " ++ submittedAtText ++ "</p>"
      ++ "<hr>"
      ++ "<div style=\"white-space:pre-wrap\">" ++ escape payload.message ++ "</div>"
    idempotencyKey := some ("issue-report/" ++ uuid) }

def submitReport (payload : SubmitReportRequest) : Db String := do
  match context.settings.reportToEmail with
  | none => .raise reportUnavailable
  | some toAddress =>
      let now ← Prog.now
      let uuid ← Prog.draw
      let _ ← EmailOutbox.enqueueJob (reportEmail context payload toAddress now uuid) now none none
      Prog.commit
      return reportSubmittedMessage

end EventsApi
