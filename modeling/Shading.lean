import Shading.Text.Basic
import Shading.Text.Quote
import Shading.Text.Hidden
import Shading.Text.Quoted
import Shading.Binary64.Basic
import Shading.Binary64.Shortest
import Shading.Literal.Numeral
import Shading.Literal.Basic
import Shading.Expr.Operation
import Shading.Expr.Basic
import Shading.Variable.Basic
import Shading.Store.Basic
import Shading.Expr.Inspect
import Shading.Fault
import Shading.Piece.Basic
import Shading.Piece.Brackets
import Shading.Statement.Item
import Shading.Event
import Shading.Source.Comment
import Shading.Source.Line
import Shading.Source.Basic
import Shading.Symbol.Basic
import Shading.Symbol.Occurrence
import Shading.Action
import Shading.Statement.SplitTree
import Shading.Statement.Operand
import Shading.Statement.Draft
import Shading.Statement.Value
import Shading.Session
import Shading.Proofs.Text
import Shading.Proofs.Scan
import Shading.Proofs.Word
import Shading.Proofs.Infix.Syntax
import Shading.Proofs.Root
import Shading.Proofs.Infix.Cuts
import Shading.Proofs.Infix.Tree
import Shading.Proofs.Infix.Value
import Shading.Proofs.Substitution
import Shading.Proofs.Comments
import Shading.Proofs.NormalForm
import Shading.Proofs.Definitions
import Shading.Proofs.Verbatim
import Shading.Proofs.Printing.Term
import Shading.Proofs.Printing.Roundtrip
import Shading.Proofs.Declaration
import Shading.Proofs.Declared
import Shading.Proofs.Keeps
import Shading.Proofs.Commit
import Shading.Proofs.WellFormed
import Shading.Proofs.Independence
import Shading.Proofs.Rescan
import Shading.Proofs.Sides
import Shading.Proofs.Frame
import Shading.Proofs.History
import Shading.Proofs.Flat
import Shading.Proofs.Chunks
import Shading.Proofs.Depth
import Shading.Proofs.Rendering
import Shading.Proofs.Limit
import Shading.Proofs.Lead
import Shading.Proofs.Relocation
import Shading.Proofs.Resume
import Shading.Proofs.Target
import Shading.Proofs.Assignment
import Shading.Proofs.Idle
import Shading.Proofs.Single
import Shading.Proofs.Compound
import Shading.Proofs.Token
import Shading.Proofs.Runs
import Shading.Proofs.Nearest
import Shading.Proofs.Oversized
import Shading.Proofs.Room
import Shading.Proofs.Enclosed
import Shading.Proofs.Arity
