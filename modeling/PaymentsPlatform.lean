import PaymentsPlatform.Acceptance.Checks
import PaymentsPlatform.Acceptance.Contents
import PaymentsPlatform.Acceptance.Exposure
import PaymentsPlatform.Acceptance.Pattern
import PaymentsPlatform.Api.Cache
import PaymentsPlatform.Api.CacheHistory
import PaymentsPlatform.Api.Concurrency
import PaymentsPlatform.Api.Freshness
import PaymentsPlatform.Api.Handlers
import PaymentsPlatform.Api.Keys
import PaymentsPlatform.Api.Pagination
import PaymentsPlatform.Api.Queries
import PaymentsPlatform.Api.Tokens
import PaymentsPlatform.Api.Transparency
import PaymentsPlatform.Api.Windows
import PaymentsPlatform.Arithmetic.Rounding
import PaymentsPlatform.Collections.Recency
import PaymentsPlatform.Encoding.Base64
import PaymentsPlatform.Extract.FxRates
import PaymentsPlatform.Extract.Retry
import PaymentsPlatform.Gold.Metrics
import PaymentsPlatform.Gold.Summary
import PaymentsPlatform.Json.Bytes
import PaymentsPlatform.Json.Distinct
import PaymentsPlatform.Json.Loads
import PaymentsPlatform.Json.Within
import PaymentsPlatform.Json.RoundTrip
import PaymentsPlatform.Json.Surrogates
import PaymentsPlatform.Machine.Run
import PaymentsPlatform.Sequenced.Cell
import PaymentsPlatform.Sequenced.Rows
import PaymentsPlatform.Silver.Accounting
import PaymentsPlatform.Silver.Contract
import PaymentsPlatform.Silver.Convergence
import PaymentsPlatform.Silver.Cuts
import PaymentsPlatform.Silver.DeadLetters
import PaymentsPlatform.Silver.Fidelity
import PaymentsPlatform.Silver.Envelope
import PaymentsPlatform.Silver.Events
import PaymentsPlatform.Silver.Keyed
import PaymentsPlatform.Silver.Log
import PaymentsPlatform.Silver.Replay
import PaymentsPlatform.Silver.Rows
import PaymentsPlatform.Silver.Source
import PaymentsPlatform.Silver.Structure
import PaymentsPlatform.Silver.Upsert
import PaymentsPlatform.Snowflake.Completion
import PaymentsPlatform.Snowflake.CopyHistory
import PaymentsPlatform.Snowflake.Dimensions
import PaymentsPlatform.Snowflake.ForwardFill
import PaymentsPlatform.Snowflake.Jsonl
import PaymentsPlatform.Snowflake.KeyLayout
import PaymentsPlatform.Snowflake.Landing
import PaymentsPlatform.Snowflake.Pipeline
import PaymentsPlatform.Snowflake.Reconciliation
import PaymentsPlatform.Snowflake.Restaging
import PaymentsPlatform.Snowflake.RunIdentity
import PaymentsPlatform.Snowflake.Serving
import PaymentsPlatform.Snowflake.SnapshotRuns
import PaymentsPlatform.Snowflake.Staging
import PaymentsPlatform.Snowflake.StgPayments
import PaymentsPlatform.Snowflake.UsdFact
import PaymentsPlatform.Sql.Frame
import PaymentsPlatform.Sql.Group
import PaymentsPlatform.Sql.Join
import PaymentsPlatform.Sql.Like
import PaymentsPlatform.Text.Capture
import PaymentsPlatform.Text.Decimal
import PaymentsPlatform.Text.Findall
import PaymentsPlatform.Text.Join
import PaymentsPlatform.Text.Lines
import PaymentsPlatform.Text.Scientific
import PaymentsPlatform.Text.Words
import PaymentsPlatform.Text.Pieces
import PaymentsPlatform.Text.Lexical
import PaymentsPlatform.Time.Calendar
import PaymentsPlatform.Time.IsoFormat
import PaymentsPlatform.Arithmetic.Rounding
import PaymentsPlatform.Bronze.Exactness
import PaymentsPlatform.Bronze.Faults
import PaymentsPlatform.Bronze.Masking
import PaymentsPlatform.Bundle.References
import PaymentsPlatform.Trino.Statements
import PaymentsPlatform.Trino.Script
import PaymentsPlatform.Trino.Splitting
import PaymentsPlatform.Trino.Exactness
import PaymentsPlatform.Streaming.Rewind
import PaymentsPlatform.Sequenced.Passes
import PaymentsPlatform.Bronze.Ingestion
import PaymentsPlatform.Lakehouse.Delivery
import PaymentsPlatform.Api.Totals
import PaymentsPlatform.Lakehouse.Serving
import PaymentsPlatform.Interaction.Session
import PaymentsPlatform.Interaction.Network
import PaymentsPlatform.Catalog.Bootstrap
import PaymentsPlatform.Catalog.Replicas
import PaymentsPlatform.Catalog.Readiness
import PaymentsPlatform.Extract.Payments
import PaymentsPlatform.Snowflake.Delivered
import PaymentsPlatform.Sql.Tests
import PaymentsPlatform.Snowflake.Gate
import PaymentsPlatform.Snowflake.Released
import PaymentsPlatform.Snowflake.Progress
import PaymentsPlatform.Machine.Interference
import PaymentsPlatform.Snowflake.Interleaving
