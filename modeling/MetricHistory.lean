import MetricHistory.Gate
import MetricHistory.Json.Record
import MetricHistory.Sample.Fixture
import MetricHistory.Sample.RandomHistory
import MetricHistory.Proofs.Links
import MetricHistory.Proofs.Ancestry.Closure
import MetricHistory.Proofs.Calendar.Date
import MetricHistory.Proofs.Calendar.Period
import MetricHistory.Proofs.Session
import MetricHistory.Proofs.Calendar.Instant
import MetricHistory.Proofs.Candle
import MetricHistory.Proofs.Chronology
import MetricHistory.Proofs.Reordering
import MetricHistory.Proofs.Ancestry.Memo
import MetricHistory.Proofs.Component.RepeatedEdges
import MetricHistory.Proofs.Remeasurement
import MetricHistory.Proofs.Component.Coarsening
import MetricHistory.Proofs.Rollup
import MetricHistory.Proofs.Calendar.Week
import MetricHistory.Proofs.Ancestry.Embedding
import MetricHistory.Proofs.Component.Renaming
import MetricHistory.Proofs.Renaming
import MetricHistory.Proofs.Component.Discovery
import MetricHistory.Proofs.Ancestry.FirstToReach
import MetricHistory.Proofs.Component.BreadthFirst
import MetricHistory.Proofs.LinkedPairs
import MetricHistory.Proofs.Segments
import MetricHistory.Proofs.Growth
import MetricHistory.Proofs.Ancestry.Interposition
import MetricHistory.Proofs.Ancestry.Log
import MetricHistory.Proofs.Ancestry.Indexed
import MetricHistory.Proofs.Sample.Draw
import MetricHistory.Proofs.Sample.Growth
import MetricHistory.Proofs.Sample.Order
import MetricHistory.Proofs.Sample.Density
import MetricHistory.Proofs.Sample.Faults
import MetricHistory.Proofs.Calendar.Stamp
import MetricHistory.Proofs.Json
import MetricHistory.Proofs.Metric
import MetricHistory.Proofs.Staleness
import MetricHistory.Proofs.Ancestry.Stack
import MetricHistory.Proofs.Register
