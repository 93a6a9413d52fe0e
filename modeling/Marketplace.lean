import Marketplace.Run
import Marketplace.ReadCommitted
import Marketplace.Binary64
import Marketplace.Money
import Marketplace.Events
import Marketplace.Schema
import Marketplace.Checkout
import Marketplace.Sale
import Marketplace.CheckoutInv
import Marketplace.CheckoutRun
import Marketplace.Ledger
import Marketplace.Solo
import Marketplace.Idempotency
import Marketplace.Serializable
import Marketplace.Deadlock
import Marketplace.Table
import Marketplace.AuthSchema
import Marketplace.Auth
import Marketplace.Family
import Marketplace.AuthInv
import Marketplace.AuthRun
import Marketplace.Chain
import Marketplace.Revocation
import Marketplace.Denylist
import Marketplace.Pipeline
import Marketplace.PipelineInv
import Marketplace.PipelineTables
import Marketplace.Passes
import Marketplace.PipelineRun
import Marketplace.Receipts
import Marketplace.Limits
import Marketplace.S3
import Marketplace.Files
import Marketplace.FilesInv
import Marketplace.Commit
import Marketplace.Completed
import Marketplace.Workers
import Marketplace.SlidingWindow
import Marketplace.RateLimit
import Marketplace.Limiter
import Marketplace.Snapshot
import Marketplace.Retry
import Marketplace.LostUpdate
import Marketplace.Gateway
import Marketplace.Relays
import Marketplace.Doubles
import Marketplace.Texts
import Marketplace.Transducer
import Marketplace.Utf8
import Marketplace.OrdersApi
import Marketplace.EventStream
import Marketplace.CursorWalk
import Marketplace.CreateOrders
import Marketplace.Cache
import Marketplace.SingleFlight
import Marketplace.Sessions
import Marketplace.RecalcRating
import Marketplace.PartPlan
import Marketplace.OnePass
import Marketplace.UntilEmpty
import Marketplace.Intents
import Marketplace.SameFile
import Marketplace.Parts
import Marketplace.PartListing
import Marketplace.Resume
import Marketplace.ExactMoney
import Marketplace.Publisher
import Marketplace.RetryLoop
import Marketplace.RetryAfter
import Marketplace.Outage
import Marketplace.JustAMiss
import Marketplace.IntentRequests
import Marketplace.EmptyKey
import Marketplace.CataloguePrices
import Marketplace.CursorTexts
import Marketplace.Percent
import Marketplace.Edge
import Marketplace.Json
import Marketplace.JsonTrees
import Marketplace.RequestBody
import Marketplace.Decimals
import Marketplace.Utf16
import Marketplace.LastSeparator
import Marketplace.Assets
import Marketplace.Stringify
import Marketplace.IsoDate
import Marketplace.OrderPlaced
import Marketplace.Jsonb
import Marketplace.Agreement
import Marketplace.ApiSteps
import Marketplace.Views
import Marketplace.Isolation
import Marketplace.HttpApi
import Marketplace.Mediation
import Marketplace.LoggedOut
import Marketplace.Cdn
import Marketplace.Downloads
import Marketplace.Tokens
import Marketplace.KeyRotation
import Marketplace.OrdersEdge
import Marketplace.Offers
import Marketplace.Uploads
import Marketplace.Finishing
import Marketplace.RollingSessions
import Marketplace.Browsers
import Marketplace.LimitedServer
