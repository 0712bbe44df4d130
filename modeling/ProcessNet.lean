import ProcessNet.Collections.OrderedMap
import ProcessNet.Collections.OrderedSet
import ProcessNet.Number.Shortest
import ProcessNet.Text.Quoted
import ProcessNet.Name.Fresh
import ProcessNet.Name.Ids
import ProcessNet.Data.Guard
import ProcessNet.Net.Basic
import ProcessNet.Net.Edit
import ProcessNet.Execution.Simulation
import ProcessNet.Net.Connectivity
import ProcessNet.Reduction.Prune
import ProcessNet.Pattern.Algebra
import ProcessNet.Pattern.Prune
import ProcessNet.Interchange.DescriptionText
import ProcessNet.Interchange.DirectlyFollows
import ProcessNet.View.Graph
import ProcessNet.View.Dot
import ProcessNet.View.Listing
import ProcessNet.Settings
import ProcessNet.Proofs.Data.Guard
import ProcessNet.Proofs.Data.Leaves
import ProcessNet.Proofs.Net.Tokens
import ProcessNet.Proofs.Net.Edit
import ProcessNet.Proofs.Net.WellFormed
import ProcessNet.Proofs.Net.Growth
import ProcessNet.Proofs.Net.Ends
import ProcessNet.Proofs.Net.Marking
import ProcessNet.Proofs.Execution.Evolution
import ProcessNet.Proofs.Execution.Firing
import ProcessNet.Proofs.Execution.Voting
import ProcessNet.Proofs.TokenGame.Basic
import ProcessNet.Proofs.TokenGame.Skeleton
import ProcessNet.Proofs.TokenGame.Refinement
import ProcessNet.Proofs.TokenGame.Operators
import ProcessNet.Proofs.TokenGame.Collecting
import ProcessNet.Proofs.TokenGame.Shortcut
import ProcessNet.Proofs.Reduction.Bypass
import ProcessNet.Proofs.Reduction.Pruned
import ProcessNet.Proofs.Reduction.Behaviour
import ProcessNet.Proofs.Reduction.Soundness
import ProcessNet.Proofs.Reduction.Totals
import ProcessNet.Proofs.Reduction.Reported
import ProcessNet.Proofs.Pattern.Blueprint
import ProcessNet.Proofs.Pattern.WellFormed
import ProcessNet.Proofs.Pattern.Assembly
import ProcessNet.Proofs.Pattern.Operators
import ProcessNet.Proofs.Pattern.Built
import ProcessNet.Proofs.Pattern.Completion
import ProcessNet.Proofs.Pattern.Soundness
import ProcessNet.Proofs.Reduction.Interface
import ProcessNet.Proofs.Reduction.Redirections
import ProcessNet.Proofs.Pattern.Prune
import ProcessNet.Proofs.Execution.Commitment
import ProcessNet.Proofs.TokenGame.Episodes
import ProcessNet.Proofs.TokenGame.Apart
import ProcessNet.Proofs.TokenGame.Words
import ProcessNet.Proofs.Pattern.Traces
import ProcessNet.Proofs.Pattern.Absorption
import ProcessNet.Proofs.Pattern.PruneSoundness
import ProcessNet.Proofs.Execution.Refusal
import ProcessNet.Proofs.Execution.MarkingEquation
import ProcessNet.Proofs.Reduction.Accounting
import ProcessNet.Proofs.Execution.Drawing
import ProcessNet.Proofs.Execution.Replay
import ProcessNet.Proofs.Execution.Answering
import ProcessNet.Proofs.Interchange.Description
import ProcessNet.Proofs.Execution.Uncontested
import ProcessNet.Proofs.Json.Reading
import ProcessNet.Proofs.Json.Strings
import ProcessNet.Proofs.Number.Rounding
import ProcessNet.Proofs.Json.Numbers
import ProcessNet.Proofs.Json.Record
import ProcessNet.Proofs.Interchange.DescriptionText
import ProcessNet.Proofs.Pattern.Outline
import ProcessNet.Proofs.Pattern.Isomorphism
import ProcessNet.Proofs.Pattern.OutlineAssembly
import ProcessNet.Proofs.Pattern.Laws
import ProcessNet.Proofs.Reduction.NormalForm
import ProcessNet.Proofs.Net.Normalisation
import ProcessNet.Proofs.Execution.Fireability
import ProcessNet.Proofs.View.Graph
import ProcessNet.Proofs.View.Dot
import ProcessNet.Proofs.Interchange.BoundaryMarkings
import ProcessNet.Proofs.Pattern.Acceptance
import ProcessNet.Proofs.Interchange.DirectlyFollows
import ProcessNet.Proofs.Net.FreshElements
import ProcessNet.Proofs.Reduction.Removal
import ProcessNet.Proofs.Number.Nearest
import ProcessNet.Proofs.Net.Bounds
