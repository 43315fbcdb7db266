import Harbormaster.Foundation.Program
import Harbormaster.Foundation.Interleaving
import Harbormaster.Foundation.Table
import Harbormaster.Foundation.Succession
import Harbormaster.Registry
import Harbormaster.Regular
import Harbormaster.BusinessDays
import Harbormaster.CalendarParity
import Harbormaster.Slot.Store
import Harbormaster.Berthmaster.SlotContract
import Harbormaster.Berthmaster.Race
import Harbormaster.Berthmaster.Crash
import Harbormaster.Berthmaster.Replay
import Harbormaster.Arrival.Processor
import Harbormaster.Arrival.Verdicts
import Harbormaster.Arrival.World
import Harbormaster.Arrival.Landing
import Harbormaster.Arrival.QuietWindow
import Harbormaster.Arrival.Delivery
import Harbormaster.Foundation.Budget
import Harbormaster.Arrival.Concurrent
import Harbormaster.Foundation.Dict
import Harbormaster.Foundation.Matching
import Harbormaster.Foundation.Readings
import Harbormaster.Foundation.Ranking
import Harbormaster.Foundation.CommonSubsequence
import Harbormaster.Foundation.Rounding
import Harbormaster.Inspector.Text
import Harbormaster.Inspector.Dates
import Harbormaster.Inspector.DateText
import Harbormaster.Inspector.FilenameDates
import Harbormaster.Inspector.Table
import Harbormaster.Inspector.ValueDate
import Harbormaster.Inspector.Attribution
import Harbormaster.Inspector.Canonical
import Harbormaster.Inspector.Decimal
import Harbormaster.Inspector.Resolver
import Harbormaster.Inspector.Confidence
import Harbormaster.Inspector.Emit
import Harbormaster.Inspector.Classify
import Harbormaster.Inspector.SubBatches
import Harbormaster.Inspector.Resolution
import Harbormaster.Inspector.Stamping
import Harbormaster.Configuration
import Harbormaster.Inspector.Resolved
import Harbormaster.Handover
import Harbormaster.Inspector.Tier1Pass
import Harbormaster.Inspector.HeaderNames
import Harbormaster.Inspector.PricePass
import Harbormaster.Inspector.ColumnOrder
import Harbormaster.Inspector.PriceStructure
import Harbormaster.Inspector.SurplusPrices
import Harbormaster.Inspector.Escalation
import Harbormaster.Foundation.Sha256
import Harbormaster.Foundation.Bytes
import Harbormaster.Foundation.HashChain
import Harbormaster.Foundation.Timestamp
import Harbormaster.Audit.Record
import Harbormaster.Audit.Tamper
import Harbormaster.Audit.Append
import Harbormaster.Bus.Memory
import Harbormaster.Bus.Replacement
import Harbormaster.ControlPlane.Projector
import Harbormaster.ControlPlane.Convergence
import Harbormaster.ControlPlane.Quarantine
import Harbormaster.Berthmaster.Sides
import Harbormaster.Engine
import Harbormaster.Berthmaster.Operations
import Harbormaster.Berthmaster.Deadline
import Harbormaster.Berthmaster.AlertOnce
import Harbormaster.Berthmaster.Cuts
import Harbormaster.Berthmaster.AuditTrail
import Harbormaster.Arrival.Emission
import Harbormaster.Store.Migrate
import Harbormaster.Reconstub.Difference
import Harbormaster.Reconstub.Reconcile
import Harbormaster.Inspector.Dispatch
import Harbormaster.Inspector.RoutingOrder
import Harbormaster.Inspector.ReviewReasons
import Harbormaster.Foundation.Filling
import Harbormaster.Inspector.Projection
import Harbormaster.Inspector.ClaudeAdjudicator
import Harbormaster.Inspector.ModelBoundary
import Harbormaster.Inspector.ConflictingOwners
import Harbormaster.Inspector.DecimalContext
import Harbormaster.Inspector.DecimalText
import Harbormaster.Loading
import Harbormaster.Ownership
import Harbormaster.OneSided
import Harbormaster.Foundation.Utf8
import Harbormaster.Inspector.Formats
import Harbormaster.Inspector.Sniff
import Harbormaster.Inspector.AmountGrammar
import Harbormaster.Inspector.CrossCheck
import Harbormaster.Audit.Boundaries
import Harbormaster.ControlPlane.ReviewDecision
import Harbormaster.Inspector.HeaderRow
import Harbormaster.Inspector.DelimitedText
import Harbormaster.Inspector.EmailText
import Harbormaster.Foundation.Writes
import Harbormaster.Foundation.DottedPath
import Harbormaster.Foundation.LabelledTree
import Harbormaster.Inspector.FlatTable
import Harbormaster.Inspector.JsonFlatten
import Harbormaster.Foundation.Xml
import Harbormaster.Inspector.XmlFlatten
import Harbormaster.Inspector.XmlRecords
import Harbormaster.Inspector.Fixml
import Harbormaster.Inspector.NestedNames
import Harbormaster.Foundation.SlashPath
import Harbormaster.FileSystem
import Harbormaster.Store.ObjectStore
import Harbormaster.Foundation.Replacement
import Harbormaster.Ingress.Queue
import Harbormaster.Inspector.Qualifiers
import Harbormaster.Foundation.Offers
import Harbormaster.Inspector.Spelling
import Harbormaster.Inspector.Rounds
import Harbormaster.Inspector.Replay
import Harbormaster.Bus.Consumer
import Harbormaster.Foundation.Redelivery
import Harbormaster.ControlPlane.Consumption
import Harbormaster.Foundation.Growth
import Harbormaster.ControlPlane.Console
import Harbormaster.ControlPlane.Summary
import Harbormaster.Foundation.Mailbox
import Harbormaster.ControlPlane.EventHub
import Harbormaster.Store.Rollback
import Harbormaster.Audit.VerifyAll
import Harbormaster.Foundation.Announcement
import Harbormaster.Reconstub.Report
import Harbormaster.Inspector.DeterministicFake
import Harbormaster.Inspector.Promotion
import Harbormaster.CanonicalStore
import Harbormaster.Inspector.DelimitedRoundTrip
