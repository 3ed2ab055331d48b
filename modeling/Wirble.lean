import Wirble.Wil.DefUse
import Wirble.Library.Dag
import Wirble.Wil.Semantics
import Wirble.Library.Word
import Wirble.Wil.Integers
import Wirble.Wrs.Pattern
import Wirble.Wrs.StdRewrite
import Wirble.Wrs.Apply
import Wirble.Wil.Rewire
import Wirble.Wil.Evolve
import Wirble.Wrs.Step
import Wirble.Wrs.Preserve
import Wirble.Library.Term
import Wirble.Wrs.Equinox
import Wirble.Wrs.EquinoxTerms
import Wirble.Wrs.Normalize
import Wirble.Wrs.EquinoxSound
import Wirble.Library.Weight
import Wirble.Wrs.Termination
import Wirble.Wrs.NormalForm
import Wirble.Wrs.Terms
import Wirble.Wrs.Canonical
import Wirble.Wrs.Confluence
import Wirble.Mal.Ir
import Wirble.Mal.Cfg
import Wirble.Mal.Ssa
import Wirble.Library.Decimal
import Wirble.Library.Search
import Wirble.Mal.Peephole
import Wirble.Mal.Execute
import Wirble.Mal.PeepholeSound
import Wirble.Library.Bytes
import Wirble.Mds.Machine
import Wirble.Mds.Printer
import Wirble.Mds.Decodable
import Wirble.Library.Dfs
import Wirble.Tos.Layout
import Wirble.Library.Reader
import Wirble.Wvm.Instr
import Wirble.Wvm.Prototype
import Wirble.Wvm.Object
import Wirble.Wvm.Truncate
import Wirble.Wrs.Acyclic
import Wirble.Wrs.Calls
import Wirble.Wvm.Runtime
import Wirble.Wvm.Verified
import Wirble.Wvm.Encode
import Wirble.Library.Fields
import Wirble.Wvm.Decode
import Wirble.Mal.Straight
import Wirble.Wvm.Values
import Wirble.Wvm.Emitted
import Wirble.Wrs.Idle
import Wirble.Wrs.Types
import Wirble.Wrs.Sorts
import Wirble.Common.Strpool
import Wirble.Common.Arena
import Wirble.Library.Bfs
import Wirble.Wil.Traverse
import Wirble.Library.Sexp
import Wirble.Wrs.Assignments
import Wirble.Wrs.PatternText
import Wirble.Wvm.Compiled
import Wirble.Wvm.Isolated
import Wirble.Wvm.Computes
import Wirble.Mal.Lower
import Wirble.Wrs.Returns
import Wirble.Frontend.Expr
import Wirble.Frontend.Pipeline
import Wirble.Frontend.Levels
import Wirble.Library.Halting
import Wirble.Mal.Params
import Wirble.Mal.PeepholeHalts
import Wirble.Wil.Redirect
import Wirble.Mal.Replacement
import Wirble.Library.Linked
import Wirble.Mal.InstList
import Wirble.Mal.InstLists
import Wirble.Wrs.Instantiate
import Wirble.Library.Dominance
import Wirble.Mal.Dominators
import Wirble.Wvm.Lines
import Wirble.Wvm.Registers
import Wirble.Library.QuotedSexp
import Wirble.Wrs.SExpr
import Wirble.Wrs.SExprText
import Wirble.Wrs.Guards
import Wirble.Mal.Integers
import Wirble.Mal.RegisterGraph
import Wirble.Mal.Preserves
import Wirble.Mal.CreationOrder
import Wirble.Library.Signed
import Wirble.Library.IntRange
import Wirble.Wvm.Arithmetic
import Wirble.Wvm.Ranges
import Wirble.Wvm.WellFormed
import Wirble.Tos.BlockIds
import Wirble.Mds.Conforming
import Wirble.Frontend.Folding
import Wirble.Library.Lexer
import Wirble.Support.SexpReader
import Wirble.Common.Growth
import Wirble.Wvm.Lowered
import Wirble.Wvm.Rewritten
import Wirble.Mal.LoweredSsa
import Wirble.Frontend.Backend
import Wirble.Wvm.HostStack
import Wirble.Common.ByteBuf
import Wirble.Frontend.Source
import Wirble.Wrs.RuleText
import Wirble.Wrs.Accounts
import Wirble.Wrs.RuleObjects
import Wirble.Wrs.Session
import Wirble.Mds.Selection
import Wirble.Mal.Stock
import Wirble.Frontend.Accepts
import Wirble.Library.Listing
import Wirble.Wvm.Disassemble
import Wirble.Mds.Listing
import Wirble.Tos.Printer
import Wirble.Mds.Assembly
