import GiPricing.Graph.Kahn
import GiPricing.Attribution.Allocation
import GiPricing.Graph.Reach
import GiPricing.Dataflow.Run
import GiPricing.Rating.Invariants
import GiPricing.Rating.Accepted
import GiPricing.Rating.Hygiene
import GiPricing.Ladder.Reconcile
import GiPricing.Runtime.Compiled
import GiPricing.Score.Quote
import GiPricing.Score.Served
import GiPricing.Deployment.Forward
import GiPricing.Deployment.Gated
import GiPricing.Governance.Quorum
import GiPricing.Modelling.Versions
import GiPricing.Validation.NoBypass
import GiPricing.Attribution.Dependence
import GiPricing.Dislocation.Conserved
import GiPricing.Dislocation.Quantiles
import GiPricing.Jobs.Runs
import GiPricing.Jobs.Outbox
import GiPricing.Serving.Slot
import GiPricing.Data.Reference
import GiPricing.Governance.References
import GiPricing.Rbac.BreakGlass
import GiPricing.RateTables.Complete
import GiPricing.Deployment.Round
import GiPricing.Batch.Runs
import GiPricing.Blobs.Live
import GiPricing.Regression.Replay
import GiPricing.Factors.Effect
import GiPricing.Factors.Design
import GiPricing.Rating.Precise
import GiPricing.Rating.Rename
import GiPricing.Rating.Submitted
import GiPricing.Rating.OrderFree
import GiPricing.Data.Parts
import GiPricing.Rating.Lexers
import GiPricing.Audit.Chain
import GiPricing.Modelling.Profile
import GiPricing.RateTables.Edits
import GiPricing.RateTables.Answers
import GiPricing.Money.Arithmetic
import GiPricing.Data.Ledger
import GiPricing.Expressions.Meaning
import GiPricing.Score.Declared
import GiPricing.Attribution.Masks
import GiPricing.Deployment.Routing
import GiPricing.RateTables.Diff
import GiPricing.Regression.Sweep
import GiPricing.Order.Cuts
import GiPricing.Modelling.Bandings
import GiPricing.Modelling.FitBandings
import GiPricing.RateTables.Weights
import GiPricing.Data.Explode
import GiPricing.Rating.Guards
import GiPricing.Runtime.Refusals
import GiPricing.RateTables.Cells
import GiPricing.Summary.Tables
import GiPricing.Regression.GoldenDelta
import GiPricing.Perils.Premium
import GiPricing.RateTables.Laws
import GiPricing.Order.Blocks
import GiPricing.Data.Folds
import GiPricing.Data.Leakage
import GiPricing.Factors.Boosted
import GiPricing.Factors.BoostedCall
import GiPricing.Expressions.Kernel
import GiPricing.Expressions.Singularities
import GiPricing.Validation.Settled
import GiPricing.Validation.Linkage
import GiPricing.Validation.Levels
import GiPricing.Numeric.Steps
import GiPricing.Modelling.EbmMonotone
import GiPricing.Relational.Distinct
import GiPricing.Factors.Frames
import GiPricing.Factors.Complexity
import GiPricing.Factors.Directions
import GiPricing.Factors.Blocks
import GiPricing.Factors.TypeThree
import GiPricing.Comparison.OneBook
import GiPricing.Comparison.Repeats
import GiPricing.Factors.Interval
import GiPricing.Runtime.Sorts
import GiPricing.Modelling.GroupingEvidence
import GiPricing.Modelling.TemplateShapes
import GiPricing.Modelling.Pairs
import GiPricing.Modelling.Evidence
import GiPricing.Ladder.Replayed
