import FreeForm.Data
import FreeForm.Data.Decode
import FreeForm.Data.Encode
import FreeForm.Decimal.Shortest
import FreeForm.Error
import FreeForm.Frontier
import FreeForm.Grammar
import FreeForm.Locate
import FreeForm.LogicalLine
import FreeForm.Lowering.Chain
import FreeForm.Lowering.Construct
import FreeForm.Lowering.Expr
import FreeForm.Lowering.Literal
import FreeForm.Lowering.Shape
import FreeForm.Lowering.Variable
import FreeForm.Nesting
import FreeForm.Noise
import FreeForm.Options
import FreeForm.Parse
import FreeForm.Pattern
import FreeForm.Reading
import FreeForm.Reading.Depth
import FreeForm.Rule
import FreeForm.Span
import FreeForm.Text
import FreeForm.Text.Blank
import FreeForm.Text.Quoted
import FreeForm.Text.Unprintable
import FreeForm.Tree
import FreeForm.Tree.Nodes
import FreeForm.Tree.Outline
import FreeForm.Tree.Walk
import FreeForm.Typed.Chain
import FreeForm.Typed.Construct
import FreeForm.Typed.Expr
import FreeForm.Typed.Literal
import FreeForm.Typed.Spelling
import FreeForm.Typed.Variable
import FreeForm.Proofs.Derivation
import FreeForm.Proofs.SpanOrder
import FreeForm.Proofs.ChildRules
import FreeForm.Proofs.LeafText
import FreeForm.Proofs.LoweringTotal
import FreeForm.Proofs.FirstLexemes
import FreeForm.Proofs.LeadingNoise
import FreeForm.Proofs.NestingScan
import FreeForm.Proofs.CallNesting
import FreeForm.Proofs.Trimming
import FreeForm.Proofs.Context
import FreeForm.Proofs.Assembly
import FreeForm.Proofs.LexemeHeads
import FreeForm.Proofs.Follow
import FreeForm.Proofs.Determined
import FreeForm.Proofs.Choices
import FreeForm.Proofs.CallOrIndex
import FreeForm.Proofs.OtherRest
import FreeForm.Proofs.Reparse
import FreeForm.Proofs.Spelled
import FreeForm.Proofs.SpelledLiterals
import FreeForm.Proofs.SpelledVariables
import FreeForm.Proofs.SpelledExpressions
import FreeForm.Proofs.SpelledStatements
import FreeForm.Proofs.SpelledNesting
import FreeForm.Proofs.RoundTrip
import FreeForm.Proofs.NodeEnds
import FreeForm.Proofs.Relocation
import FreeForm.Proofs.Lockstep
import FreeForm.Proofs.RangeParse
import FreeForm.Proofs.Tiled
import FreeForm.Proofs.TokenEnds
import FreeForm.Proofs.Interchange
import FreeForm.Proofs.TrailingNoise
import FreeForm.Proofs.StatementStart
import FreeForm.Proofs.LineEnds
import FreeForm.Proofs.CompleteHits
import FreeForm.Proofs.LinePartition
import FreeForm.Proofs.SourceParts
import FreeForm.Proofs.HitPlaces
import FreeForm.Proofs.CommentLines
import FreeForm.Proofs.OutlineText
import FreeForm.Proofs.LowerCase
import FreeForm.Proofs.LetterCase
import FreeForm.Proofs.StatementLines
import FreeForm.Proofs.CompleteParse
import FreeForm.Proofs.CallRecord
import FreeForm.Proofs.CallsFirst
import FreeForm.Proofs.FurthestFailure
import FreeForm.Proofs.UnansweredMatches
import FreeForm.Proofs.LoweringSteps
import FreeForm.Proofs.ChainForm
import FreeForm.Proofs.NodeText
import FreeForm.Proofs.WrittenLiterals
import FreeForm.Proofs.Reproduced
import FreeForm.Proofs.CallStructure
import FreeForm.Proofs.ChainSpans
import FreeForm.Proofs.MaximalMunch
import FreeForm.Proofs.WholeNames
import FreeForm.Proofs.LongestNumber
import FreeForm.Proofs.ArgumentLists
import FreeForm.Proofs.SearchOrder
