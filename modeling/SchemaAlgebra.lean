import SchemaAlgebra.Combinator.Array
import SchemaAlgebra.Combinator.Instance
import SchemaAlgebra.Combinator.Object
import SchemaAlgebra.Combinator.Primitive
import SchemaAlgebra.Combinator.Union
import SchemaAlgebra.Main
import SchemaAlgebra.Proofs.Termination
import SchemaAlgebra.Proofs.Nodes
import SchemaAlgebra.Proofs.Walks
import SchemaAlgebra.Proofs.Acceptance
import SchemaAlgebra.Proofs.Coverage
import SchemaAlgebra.Proofs.Overreach
import SchemaAlgebra.Proofs.Budget
import SchemaAlgebra.Proofs.Branches
import SchemaAlgebra.Proofs.Origins
import SchemaAlgebra.Proofs.Once
import SchemaAlgebra.Proofs.Rework
import SchemaAlgebra.Proofs.Removal
import SchemaAlgebra.Proofs.Activity
import SchemaAlgebra.Proofs.Limits
import SchemaAlgebra.Proofs.Effects
import SchemaAlgebra.Proofs.Untouched
import SchemaAlgebra.Proofs.Observers
import SchemaAlgebra.Proofs.Combination
import SchemaAlgebra.Proofs.Serialized
import SchemaAlgebra.Proofs.Deserialized
import SchemaAlgebra.Proofs.Discrimination
import SchemaAlgebra.Proofs.Scopes
import SchemaAlgebra.Proofs.Widening
import SchemaAlgebra.Proofs.WiderPlan
import SchemaAlgebra.Proofs.Nullable
import SchemaAlgebra.Proofs.Precedence
import SchemaAlgebra.Proofs.Definitions
import SchemaAlgebra.Proofs.Histories
import SchemaAlgebra.Proofs.Questions
import SchemaAlgebra.Proofs.Dialects
import SchemaAlgebra.Proofs.Reporting
import SchemaAlgebra.Proofs.Foreseen
import SchemaAlgebra.Proofs.Chains
import SchemaAlgebra.Proofs.Closing
import SchemaAlgebra.Proofs.Tags
import SchemaAlgebra.Proofs.Sweeping
import SchemaAlgebra.Proofs.Relaxation
import SchemaAlgebra.Proofs.Inheritance
import SchemaAlgebra.Proofs.Merging
import SchemaAlgebra.Proofs.RoundTrips
import SchemaAlgebra.Proofs.Selection
import SchemaAlgebra.Proofs.Overlays
import SchemaAlgebra.Proofs.Naming
import SchemaAlgebra.Proofs.Counting
import SchemaAlgebra.Proofs.Dates
import SchemaAlgebra.Proofs.Escapes
import SchemaAlgebra.Proofs.Marks
import SchemaAlgebra.Proofs.Tours
