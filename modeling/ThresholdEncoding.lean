import ThresholdEncoding.Document.Instances
import ThresholdEncoding.Domain.Cursor
import ThresholdEncoding.Domain.FloatingEnds
import ThresholdEncoding.Domain.Text
import ThresholdEncoding.Encoder.Basic
import ThresholdEncoding.Instance.Statistics
import ThresholdEncoding.Proofs.Extended
import ThresholdEncoding.Proofs.Saturation
import ThresholdEncoding.Proofs.BoundarySearch
import ThresholdEncoding.Proofs.BoundarySearch.Run
import ThresholdEncoding.Proofs.Domain.Function
import ThresholdEncoding.Proofs.Domain.WellFormed
import ThresholdEncoding.Proofs.Domain.Enumeration
import ThresholdEncoding.Proofs.Domain.Sequence
import ThresholdEncoding.Proofs.Domain.Search
import ThresholdEncoding.Proofs.Domain.Extent
import ThresholdEncoding.Proofs.Domain.Grid
import ThresholdEncoding.Proofs.Domain.Address
import ThresholdEncoding.Proofs.Domain.Sum
import ThresholdEncoding.Proofs.Domain.Addition
import ThresholdEncoding.Proofs.Domain.Construction
import ThresholdEncoding.Proofs.Encoder.Literal
import ThresholdEncoding.Proofs.Encoder.Bounds
import ThresholdEncoding.Proofs.Encoder.Start
import ThresholdEncoding.Proofs.Encoder.Walk
import ThresholdEncoding.Proofs.Encoder.Equivalence
import ThresholdEncoding.Proofs.Encoder.Consequence
import ThresholdEncoding.Proofs.Encoder.Extremes
import ThresholdEncoding.Proofs.Encoder.Verdict
import ThresholdEncoding.Proofs.Encoder.Stop
import ThresholdEncoding.Proofs.Encoder.Visited
import ThresholdEncoding.Proofs.Encoder.Pruning
import ThresholdEncoding.Proofs.Encoder.Rounding
import ThresholdEncoding.Proofs.Instance.Build
import ThresholdEncoding.Proofs.Instance.Reduces
import ThresholdEncoding.Proofs.Instance.Splitting
import ThresholdEncoding.Proofs.Instance.Relations
import ThresholdEncoding.Proofs.Instance.Coherence
import ThresholdEncoding.Proofs.Instance.RoundTrip
import ThresholdEncoding.Proofs.Instance.Failure
import ThresholdEncoding.Proofs.Instance.Request
import ThresholdEncoding.Proofs.Instance.Meaning
import ThresholdEncoding.Proofs.Instance.AllDifferent
import ThresholdEncoding.Proofs.Instance.Atomicity
import ThresholdEncoding.Proofs.Pipeline
import ThresholdEncoding.Proofs.Domain.Searchable
import ThresholdEncoding.Proofs.Domain.CanonicalSum
import ThresholdEncoding.Proofs.Domain.Reach
import ThresholdEncoding.Proofs.Encoder.Translation
import ThresholdEncoding.Proofs.Clause
import ThresholdEncoding.Proofs.Domain.Record
import ThresholdEncoding.Proofs.Domain.Image
import ThresholdEncoding.Proofs.Domain.Cursor
import ThresholdEncoding.Proofs.Domain.Scaling
import ThresholdEncoding.Proofs.Encoder.ClauseShape
import ThresholdEncoding.Proofs.Objective
import ThresholdEncoding.Proofs.Objective.Enclosure
