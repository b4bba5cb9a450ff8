import IncidentPipeline.Foundation.Json
import IncidentPipeline.Foundation.JsonSchema
import IncidentPipeline.Foundation.Text
import IncidentPipeline.Foundation.Interleaving
import IncidentPipeline.Foundation.Trace
import IncidentPipeline.Foundation.Calendar
import IncidentPipeline.Extract.Schema
import IncidentPipeline.Extract.WireSchema
import IncidentPipeline.Migrations.TextHash
import IncidentPipeline.Migrations.Merge
import IncidentPipeline.Eval.Scoring
import IncidentPipeline.Foundation.Fibers
import IncidentPipeline.Eval.Calibration
import IncidentPipeline.Scripts.ExtractionRun
import IncidentPipeline.Review.Forms
import IncidentPipeline.Review.RoundTrip
import IncidentPipeline.Review.UntouchedForm
import IncidentPipeline.Review.Correction
import IncidentPipeline.Db.Schema
import IncidentPipeline.Ingest.Pipeline
import IncidentPipeline.Queue.PostgresQueue
import IncidentPipeline.Extract.Extractor
import IncidentPipeline.Extract.Client
import IncidentPipeline.Extract.Anchors
import IncidentPipeline.Review.Fields
import IncidentPipeline.Review.Routing
import IncidentPipeline.Extract.Pipeline
import IncidentPipeline.Worker.Main
import IncidentPipeline.Db.Tables
import IncidentPipeline.Queue.AtLeastOnce
import IncidentPipeline.Review.States
import IncidentPipeline.Foundation.Ranking
import IncidentPipeline.Review.Ranking
import IncidentPipeline.Review.Reporting
import IncidentPipeline.Review.Queries
import IncidentPipeline.Review.Presentation
import IncidentPipeline.Ingest.Documents
import IncidentPipeline.Ingest.Readings
import IncidentPipeline.Foundation.Serial
import IncidentPipeline.Extract.Derive
import IncidentPipeline.Foundation.Double
import IncidentPipeline.Extract.Durations
import IncidentPipeline.Extract.Billing
import IncidentPipeline.Extract.Conversation
import IncidentPipeline.Extract.Retry
import IncidentPipeline.Review.RoutingRace
import IncidentPipeline.Worker.Changes
import IncidentPipeline.Worker.Protocol
import IncidentPipeline.Worker.Stages
import IncidentPipeline.Worker.Executions
import IncidentPipeline.Worker.Interleavings
import IncidentPipeline.Worker.Service
import IncidentPipeline.Telemetry.Cost
import IncidentPipeline.Worker.Attempts
import IncidentPipeline.Worker.Reextraction
import IncidentPipeline.Worker.Confidences
import IncidentPipeline.Worker.Audit
import IncidentPipeline.Scripts.Latency
import IncidentPipeline.Worker.EndOfRun
import IncidentPipeline.Review.Candidates
import IncidentPipeline.Review.Passages
import IncidentPipeline.Review.BlankLines
import IncidentPipeline.Review.Selection
import IncidentPipeline.Foundation.Browser
import IncidentPipeline.Review.Highlight
import IncidentPipeline.Foundation.Lines
import IncidentPipeline.Foundation.Markup
import IncidentPipeline.Ingest.Parse
import IncidentPipeline.Ingest.InlineMarkup
import IncidentPipeline.Ingest.Plan
import IncidentPipeline.Foundation.Batch
import IncidentPipeline.Scripts.SeedCorpus
import IncidentPipeline.Scripts.SeedPlan
import IncidentPipeline.Scripts.SeedRun
import IncidentPipeline.Scripts.Reseed
import IncidentPipeline.Foundation.Interpolation
import IncidentPipeline.Scripts.Percentile
import IncidentPipeline.Eval.Allocation
import IncidentPipeline.Eval.Split
import IncidentPipeline.Scripts.ReproCheck
import IncidentPipeline.Eval.ValidateLabels
import IncidentPipeline.Foundation.Regex
import IncidentPipeline.Review.Context
import IncidentPipeline.Worker.Progress
import IncidentPipeline.Db.Constraints
import IncidentPipeline.Api.Auth
import IncidentPipeline.Api.Review
import IncidentPipeline.Api.ReviewUi
import IncidentPipeline.Api.Decisions
import IncidentPipeline.Api.Requests
import IncidentPipeline.Api.Ledger
import IncidentPipeline.Api.ClosedLoop
import IncidentPipeline.Foundation.Locking
import IncidentPipeline.Review.Locking
import IncidentPipeline.Api.Walk
import IncidentPipeline.Foundation.Exposition
import IncidentPipeline.Telemetry.Metrics
import IncidentPipeline.Telemetry.Scrape
import IncidentPipeline.Foundation.Commits
import IncidentPipeline.Migrations.FieldReviews
import IncidentPipeline.Migrations.Backfill
import IncidentPipeline.Worker.Confidences
