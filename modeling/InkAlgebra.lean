import InkAlgebra.Main
import InkAlgebra.Polynomial.Text
import InkAlgebra.Proofs.Expression.Grammar
import InkAlgebra.Proofs.Expression.Parsing
import InkAlgebra.Proofs.Number.Exact
import InkAlgebra.Proofs.Polynomial.Degrees
import InkAlgebra.Proofs.Polynomial.Formal
import InkAlgebra.Proofs.Expression.Value
import InkAlgebra.Proofs.Polynomial.Substitution
import InkAlgebra.Proofs.Expression.Canonical
import InkAlgebra.Proofs.Expression.Phrases
import InkAlgebra.Proofs.Layout.Grouping
import InkAlgebra.Proofs.Layout.PlainRow
import InkAlgebra.Proofs.Expression.Acceptance
import InkAlgebra.Proofs.Expression.Adjacency
import InkAlgebra.Proofs.Equation.Sides
import InkAlgebra.Proofs.Typeset.Reading
import InkAlgebra.Proofs.Typeset.Faithful
import InkAlgebra.Proofs.Number.Binary64
import InkAlgebra.Proofs.Layout.Tiling
import InkAlgebra.Proofs.Layout.Tree
import InkAlgebra.Proofs.Layout.Ledger
import InkAlgebra.Proofs.Layout.Products
import InkAlgebra.Proofs.Equation.Count
import InkAlgebra.Proofs.Number.Rounding
import InkAlgebra.Proofs.Polynomial.Growth
import InkAlgebra.Proofs.Roots.Bisection
import InkAlgebra.Proofs.Roots.Bracket
import InkAlgebra.Proofs.Roots.Coverage
import InkAlgebra.Proofs.Roots.Termination
import InkAlgebra.Proofs.Roots.Order
import InkAlgebra.Proofs.Layout.Depth
import InkAlgebra.Proofs.Layout.Barless
import InkAlgebra.Proofs.Expression.Settled
import InkAlgebra.Proofs.Expression.Simulation
import InkAlgebra.Proofs.Typeset.Solved
import InkAlgebra.Proofs.Number.Laws
import InkAlgebra.Proofs.Expression.Composition
import InkAlgebra.Proofs.Polynomial.Reduced
import InkAlgebra.Proofs.Equation.Difference
import InkAlgebra.Proofs.Roots.Opposite
import InkAlgebra.Proofs.Equation.Renaming
import InkAlgebra.Proofs.Equation.Caps
import InkAlgebra.Proofs.Layout.Arrangement
import InkAlgebra.Proofs.Layout.Similarity
import InkAlgebra.Proofs.Command.DetectionFiles
import InkAlgebra.Proofs.Equation.Outcome
import InkAlgebra.Proofs.Polynomial.Derivative
import InkAlgebra.Proofs.Polynomial.Powers
import InkAlgebra.Proofs.Number.Extended
import InkAlgebra.Proofs.Roots.Enclosure
import InkAlgebra.Proofs.Polynomial.Unbounded
import InkAlgebra.Proofs.Expression.Spelling
import InkAlgebra.Proofs.Expression.Junctions
import InkAlgebra.Proofs.Expression.Regrouping
import InkAlgebra.Proofs.Expression.Apart
import InkAlgebra.Proofs.Layout.Unbracketed
import InkAlgebra.Proofs.Expression.Lossless
import InkAlgebra.Proofs.Polynomial.Stored
import InkAlgebra.Proofs.Roots.Outcome
import InkAlgebra.Proofs.Roots.Precision
import InkAlgebra.Proofs.Roots.Halving
import InkAlgebra.Proofs.Number.Units
import InkAlgebra.Proofs.Polynomial.Monomial
import InkAlgebra.Proofs.Polynomial.ReadBack
import InkAlgebra.Proofs.Expression.Brackets
import InkAlgebra.Proofs.Expression.Trimming
import InkAlgebra.Proofs.Expression.WholeNumbers
import InkAlgebra.Proofs.Layout.Outermost
import InkAlgebra.Proofs.Layout.Partition
import InkAlgebra.Proofs.Json.Records
import InkAlgebra.Proofs.Command.DetectionFields
import InkAlgebra.Proofs.Number.Nearest
import InkAlgebra.Proofs.Number.Magnitude
import InkAlgebra.Proofs.Polynomial.Overflow
import InkAlgebra.Proofs.Number.Decades
import InkAlgebra.Proofs.Number.Places
import InkAlgebra.Proofs.Equation.Reported
import InkAlgebra.Proofs.Layout.Reach
