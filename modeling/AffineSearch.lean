import AffineSearch.Document.Basic
import AffineSearch.Document.Expr
import AffineSearch.Document.Pattern
import AffineSearch.Document.Step
import AffineSearch.Expr.Basic
import AffineSearch.Expr.Fold
import AffineSearch.Expr.Normal
import AffineSearch.Expr.Substitute
import AffineSearch.Expr.Text
import AffineSearch.Expr.Value
import AffineSearch.IndexMap.Basic
import AffineSearch.IndexMap.Project
import AffineSearch.IndexMap.Text
import AffineSearch.Mask
import AffineSearch.Pattern.Basic
import AffineSearch.Pattern.Eliminate
import AffineSearch.Pattern.Rearrange
import AffineSearch.Pattern.Text
import AffineSearch.Pattern.WellFormed
import AffineSearch.Proofs.Document.RoundTrip
import AffineSearch.Proofs.Expr.Combine
import AffineSearch.Proofs.Expr.Constants
import AffineSearch.Proofs.Expr.Folded
import AffineSearch.Proofs.Expr.Folding
import AffineSearch.Proofs.Expr.LeftNested
import AffineSearch.Proofs.Expr.Magnitude
import AffineSearch.Proofs.Expr.Renaming
import AffineSearch.Proofs.Expr.Substitution
import AffineSearch.Proofs.Expr.Summands
import AffineSearch.Proofs.Expr.Text
import AffineSearch.Proofs.Expr.Total
import AffineSearch.Proofs.Expr.Variables
import AffineSearch.Proofs.IndexMap.Domain
import AffineSearch.Proofs.IndexMap.Operators
import AffineSearch.Proofs.IndexMap.Projection
import AffineSearch.Proofs.IndexMap.Replacement
import AffineSearch.Proofs.IndexMap.Scope
import AffineSearch.Proofs.IndexMap.Specialize
import AffineSearch.Proofs.IndexMap.Table
import AffineSearch.Proofs.Mask.Numerals
import AffineSearch.Proofs.Mask.Subsets
import AffineSearch.Proofs.Pattern.Conservation
import AffineSearch.Proofs.Pattern.Decomposition
import AffineSearch.Proofs.Pattern.Expansion
import AffineSearch.Proofs.Pattern.Folded
import AffineSearch.Proofs.Pattern.Interchange
import AffineSearch.Proofs.Pattern.Invariant
import AffineSearch.Proofs.Pattern.Merge
import AffineSearch.Proofs.Pattern.Operators
import AffineSearch.Proofs.Pattern.Permutation
import AffineSearch.Proofs.Pattern.Removal
import AffineSearch.Proofs.Pattern.Selection
import AffineSearch.Proofs.Pattern.Text
import AffineSearch.Proofs.Pattern.Validation
import AffineSearch.Proofs.Search.Balance
import AffineSearch.Proofs.Search.Budget
import AffineSearch.Proofs.Search.Candidates
import AffineSearch.Proofs.Search.Complete
import AffineSearch.Proofs.Search.Descent
import AffineSearch.Proofs.Search.Exact
import AffineSearch.Proofs.Search.InPlace
import AffineSearch.Proofs.Search.Limited
import AffineSearch.Proofs.Search.Recorded
import AffineSearch.Proofs.Search.Reordering
import AffineSearch.Proofs.Search.Report
import AffineSearch.Proofs.Search.Shape
import AffineSearch.Proofs.Search.Tally
import AffineSearch.Proofs.Step.Effect
import AffineSearch.Proofs.Step.Elimination
import AffineSearch.Proofs.Step.Text
import AffineSearch.Proofs.Text.Lines
import AffineSearch.Proofs.Text.Reading
import AffineSearch.Proofs.Tree.Addresses
import AffineSearch.Proofs.Tree.Building
import AffineSearch.Proofs.Tree.Collection
import AffineSearch.Proofs.Tree.Drawing
import AffineSearch.Proofs.Tree.Paths
import AffineSearch.Proofs.Tree.Size
import AffineSearch.Proofs.Word.Exact
import AffineSearch.Search.Candidates
import AffineSearch.Search.Event
import AffineSearch.Search.Explore
import AffineSearch.Search.Limits
import AffineSearch.Step.Basic
import AffineSearch.Step.Perform
import AffineSearch.Step.Variables
import AffineSearch.Text
import AffineSearch.Tree.Basic
import AffineSearch.Tree.Drawing
import AffineSearch.Tree.Paths
import AffineSearch.Word
