import EventsApi.Library.ThreeValued
import EventsApi.Library.Like
import EventsApi.Library.ClockZone
import EventsApi.Library.FloatOrder
import EventsApi.Library.Html
import EventsApi.Library.Decimal
import EventsApi.Library.Listing
import EventsApi.Library.UrlQuery
import EventsApi.Library.UrlSplit
import EventsApi.Library.Transition
import EventsApi.Library.ReadCommitted.Store
import EventsApi.Library.ReadCommitted.Program
import EventsApi.Library.ReadCommitted.Interference
import EventsApi.Library.ReadCommitted.Alone
import EventsApi.Library.ReadCommitted.Safety
import EventsApi.Library.ReadCommitted.TableStep
import EventsApi.Library.ReadCommitted.Atomic
import EventsApi.Library.ReadCommitted.Tokens
import EventsApi.Library.ReadCommitted.Trace
import EventsApi.Library.ReadCommitted.Waiting
import EventsApi.Library.ReadCommitted.References
import EventsApi.Library.ReadCommitted.Unique
import EventsApi.Library.ReadCommitted.Deletion
import EventsApi.Library.ReadCommitted.Minting
import EventsApi.Library.ReadCommitted.Amid
import EventsApi.Events.Models
import EventsApi.Events.Schemas
import EventsApi.Events.Repository
import EventsApi.Events.Router
import EventsApi.Mailer.Base
import EventsApi.Mailer.Repository
import EventsApi.Mailer.Outbox
import EventsApi.Core.Errors
import EventsApi.Core.Security
import EventsApi.Core.Time
import EventsApi.Users.Models
import EventsApi.Auth.Models
import EventsApi.Auth.Repository
import EventsApi.Users.Repository
import EventsApi.Auth.Registration
import EventsApi.Users.Service
import EventsApi.Users.Router
import EventsApi.Auth.Emails
import EventsApi.Auth.Service
import EventsApi.Auth.Links
import EventsApi.Reports.Service
import EventsApi.Mailer.Resend
import EventsApi.Mailer.Delivery
import EventsApi.Mailer.Worker
import EventsApi.Proof.PriceText
import EventsApi.Proof.FreeRule
import EventsApi.Proof.PastRule
import EventsApi.Proof.StartDate
import EventsApi.Proof.EventTime
import EventsApi.Proof.DateWindow
import EventsApi.Proof.Orderings
import EventsApi.Proof.LiteralSearch
import EventsApi.Proof.Pages
import EventsApi.Proof.FavoritesListing
import EventsApi.Proof.OutboxSteps
import EventsApi.Proof.OutboxLease
import EventsApi.Proof.OutboxFate
import EventsApi.Proof.OutboxAttempts
import EventsApi.Proof.OutboxSpacing
import EventsApi.Proof.OutboxWorker
import EventsApi.Proof.OutboxLiveness
import EventsApi.Proof.OutboxRefinement
import EventsApi.Proof.LoginErrors
import EventsApi.Proof.SessionSteps
import EventsApi.Proof.RefreshTokens
import EventsApi.Proof.FavoriteChanges
import EventsApi.Proof.PasswordSessions
import EventsApi.Proof.TokenCooldown
import EventsApi.Proof.TokenSteps
import EventsApi.Proof.DeliveryKeys
import EventsApi.Proof.ResendRetries
import EventsApi.Proof.EmailMarkup
import EventsApi.Proof.MarketingConsents
import EventsApi.Proof.Registration
import EventsApi.Proof.EmailVerification
import EventsApi.Proof.AccountShape
import EventsApi.Proof.ConsentHistory
import EventsApi.Proof.AccountErasure
import EventsApi.Proof.IssuedTokens
import EventsApi.Proof.DeletedUsers
import EventsApi.Proof.AccountDeletion
import EventsApi.Proof.CurrentUser
import EventsApi.Proof.TokenAcceptance
import EventsApi.Proof.AccountOrigins
import EventsApi.Proof.AccountRecords
import EventsApi.Proof.AccountOwners
import EventsApi.Proof.MailedLinks
import EventsApi.Proof.LockOrder
import EventsApi.Proof.Deadlock
import EventsApi.Events.Views
import EventsApi.Library.ReadCommitted.CommitOrder
import EventsApi.Proof.EventViews
import EventsApi.Library.ReadCommitted.Sequential
import EventsApi.Proof.AccountBook
import EventsApi.Proof.AccountTables
import EventsApi.Proof.AccountOperations
import EventsApi.Proof.AccountServing
import EventsApi.Library.Calendar
import EventsApi.Library.Timestamp
import EventsApi.Events.Wire
import EventsApi.Proof.PublishedTimes
import EventsApi.Events.Query
import EventsApi.Proof.LocationQuery
