import Lox.Proofs.Parse.Charge
import Lox.Proofs.Parse.Deletion
import Lox.Proofs.Parse.Omission
import Lox.Proofs.Parse.Order
import Lox.Proofs.Parse.Segment
import Lox.Proofs.Parse.Viable
import Lox.Proofs.Run.Lexical
import Lox.Proofs.Run.Limit
import Lox.Proofs.Run.Refinement
import Lox.Proofs.Run.Scopes
import Lox.Proofs.Scan.Coverage
import Lox.Proofs.Scan.Spacing
import Lox.Proofs.Session.Counterpart
import Lox.Proofs.Session.Feed
import Lox.Proofs.Session.Safety
import Lox.Semantics
import Lox.Session
import Lox.Syntax.Draft
import Lox.Syntax.Grammar
import Lox.Token.Lexeme
import Lox.Proofs.Run.Chain
import Lox.Proofs.Run.Frame
import Lox.Proofs.Number.Decimal
import Lox.Proofs.Number.Double
import Lox.Proofs.Run.EmptyScope
import Lox.Proofs.Session.Literal
import Lox.Proofs.Parse.Cursor
import Lox.Proofs.Session.Blame
