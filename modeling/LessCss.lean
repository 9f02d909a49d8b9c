import LessCss.Session
import LessCss.Proofs.Evaluator.Reuse
import LessCss.Proofs.Evaluator.Recursion
import LessCss.Proofs.Evaluator.FrameDiscipline
import LessCss.Proofs.Css.FlatSheets
import LessCss.Proofs.Css.Formats
import LessCss.Proofs.Evaluation.ImportantCalls
import LessCss.Proofs.Evaluator.NestedLookup
import LessCss.Proofs.Spacing.Comments
import LessCss.Proofs.Expression.Parentheses
import LessCss.Proofs.Expression.Slashes
import LessCss.Proofs.Expression.InertText
import LessCss.Proofs.Expression.Indirection
import LessCss.Proofs.Expression.Strings
import LessCss.Proofs.Expression.Enclosure
import LessCss.Proofs.Extension.Growth
import LessCss.Proofs.Selector.Product
import LessCss.Proofs.Mixin.Definitions
import LessCss.Proofs.Value.Numerals
import LessCss.Proofs.Function.Arguments
import LessCss.Proofs.Function.Language
import LessCss.Proofs.Number.Written
