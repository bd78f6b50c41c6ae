import DynamicEval.Config
import DynamicEval.Copy
import DynamicEval.Json.Document
import DynamicEval.Path.Typing
import DynamicEval.Path.Write
import DynamicEval.Root
import DynamicEval.Stock
import DynamicEval.Text.NameCase
import DynamicEval.Proofs.Expr.Soundness
import DynamicEval.Proofs.Expr.Completeness
import DynamicEval.Proofs.Eval.Targets
import DynamicEval.Proofs.Ty
import DynamicEval.Proofs.WellFormed
import DynamicEval.Proofs.WellFormed.Coercion
import DynamicEval.Proofs.WellFormed.Edit
import DynamicEval.Proofs.WellFormed.Path
import DynamicEval.Proofs.Path.Place
import DynamicEval.Proofs.WellFormed.Copy
import DynamicEval.Proofs.WellFormed.Merge
import DynamicEval.Proofs.WellFormed.Scope
import DynamicEval.Proofs.WellFormed.World
import DynamicEval.Proofs.WellFormed.Eval
import DynamicEval.Proofs.WellFormed.Session
import DynamicEval.Proofs.Heap.Reach
import DynamicEval.Proofs.Coercion
import DynamicEval.Proofs.Heap.Leads
import DynamicEval.Proofs.Edit
import DynamicEval.Proofs.Edit.Fills
import DynamicEval.Proofs.Path.ReadBack
import DynamicEval.Proofs.Token.Lexeme
import DynamicEval.Proofs.Token.Tiling
import DynamicEval.Proofs.Token.Spacing
import DynamicEval.Proofs.Token.Quotes
import DynamicEval.Proofs.Token.Canonical
import DynamicEval.Proofs.Expr.Quotes
import DynamicEval.Proofs.Merge
import DynamicEval.Proofs.Path.Growth
import DynamicEval.Proofs.Cache
import DynamicEval.Proofs.Cache.Ledger
import DynamicEval.Proofs.Cache.Recency
import DynamicEval.Proofs.Cacheless.Eval
import DynamicEval.Proofs.Cacheless.HostCode
import DynamicEval.Proofs.Cacheless.Session
import DynamicEval.Proofs.Shadowing
import DynamicEval.Proofs.Trace.Order
import DynamicEval.Proofs.Trace.Run
import DynamicEval.Proofs.Heap.Region
import DynamicEval.Proofs.Heap.Unshared
import DynamicEval.Proofs.Region.Coercion
import DynamicEval.Proofs.Region.Edit
import DynamicEval.Proofs.Copy
import DynamicEval.Proofs.Detached
import DynamicEval.Proofs.Path.Read
import DynamicEval.Proofs.Cache.Fifo
import DynamicEval.Proofs.Json.RoundTrip
import DynamicEval.Proofs.Numeral.Digits
import DynamicEval.Proofs.Numeral
import DynamicEval.Proofs.Numeral.Trailing
import DynamicEval.Proofs.Token.Written
import DynamicEval.Proofs.Expr.Rendering
import DynamicEval.Proofs.Alike
import DynamicEval.Proofs.Alike.Path
import DynamicEval.Proofs.Alike.Redaction
import DynamicEval.Proofs.Alike.Document
import DynamicEval.Proofs.Alike.Copy
import DynamicEval.Proofs.Secrecy
import DynamicEval.Proofs.Path.Frame
import DynamicEval.Proofs.Path.Hidden
import DynamicEval.Proofs.Absorption
import DynamicEval.Proofs.Eval.Services
import DynamicEval.Proofs.Snapshot
import DynamicEval.Proofs.Number
import DynamicEval.Proofs.Token.Number
import DynamicEval.Proofs.Eval.Failures
import DynamicEval.Proofs.Eval.Sums
import DynamicEval.Proofs.Path.Index
import DynamicEval.Proofs.Path.Miss
import DynamicEval.Proofs.Path.Identifier
import DynamicEval.Proofs.Merge.Neutral
import DynamicEval.Proofs.Merge.Associative
import DynamicEval.Proofs.Merge.Stops
import DynamicEval.Proofs.Clone
import DynamicEval.Proofs.Path.OneSlot
import DynamicEval.Proofs.Coercion.ByBase
import DynamicEval.Proofs.Equality
import DynamicEval.Proofs.Zero
import DynamicEval.Proofs.Rounding
import DynamicEval.Proofs.Order
import DynamicEval.Proofs.Eval.Comparisons
import DynamicEval.Proofs.Eval.Integers
import DynamicEval.Proofs.Token.Literals
import DynamicEval.Proofs.Eval.Literals
import DynamicEval.Proofs.Eval.Modular
import DynamicEval.Proofs.Eval.Names
import DynamicEval.Proofs.Rebinding
import DynamicEval.Proofs.Eval.Selectors
import DynamicEval.Proofs.Path.Typing
import DynamicEval.Proofs.Coercion.Projection
import DynamicEval.Proofs.Text.Pattern
import DynamicEval.Proofs.Text.NameCase
import DynamicEval.Proofs.Token.Scanner
import DynamicEval.Proofs.Expr.Descent
import DynamicEval.Proofs.Reordered
import DynamicEval.Proofs.Reordered.Coercion
import DynamicEval.Proofs.Reordered.Merge
import DynamicEval.Proofs.Reordered.Unobservable
import DynamicEval.Proofs.Reordered.Document
