import Futhark.Doc
import Futhark.Document
import Futhark.Error
import Futhark.Grammar.Attribute
import Futhark.Grammar.Expr
import Futhark.Grammar.ModuleType
import Futhark.Grammar.Nesting
import Futhark.Grammar.Nonterminal
import Futhark.Grammar.Parser
import Futhark.Grammar.Pattern
import Futhark.Grammar.Program
import Futhark.Grammar.TypeExpr
import Futhark.Import.Directory
import Futhark.Import.FileSystem
import Futhark.Import.Path
import Futhark.Numeral
import Futhark.Operator
import Futhark.Parse
import Futhark.Proofs.Binding.Binders
import Futhark.Proofs.Binding.Pattern
import Futhark.Proofs.Brackets.Balanced
import Futhark.Proofs.Brackets.Expr
import Futhark.Proofs.Brackets.Program
import Futhark.Proofs.Brackets.Report
import Futhark.Proofs.Brackets.Tracks
import Futhark.Proofs.Brackets.TypeExpr
import Futhark.Proofs.Documentation.Attached
import Futhark.Proofs.Documentation.Comment
import Futhark.Proofs.Documentation.Rendered
import Futhark.Proofs.Expected.Accepted
import Futhark.Proofs.Expected.Atom
import Futhark.Proofs.Expected.Clears
import Futhark.Proofs.Expected.Expr
import Futhark.Proofs.Expected.ModuleType
import Futhark.Proofs.Expected.Pattern
import Futhark.Proofs.Expected.Program
import Futhark.Proofs.Expected.Replacement
import Futhark.Proofs.Expected.Rules
import Futhark.Proofs.Expected.TypeExpr
import Futhark.Proofs.Grammar.Ensures
import Futhark.Proofs.Grammar.Entry
import Futhark.Proofs.Grammar.Frame
import Futhark.Proofs.Grammar.Parameters
import Futhark.Proofs.Grammar.Runs
import Futhark.Proofs.Grammar.Spans
import Futhark.Proofs.Grammar.Spells
import Futhark.Proofs.Grammar.Yields
import Futhark.Proofs.Imports.Calls
import Futhark.Proofs.Imports.FileTree
import Futhark.Proofs.Imports.Files
import Futhark.Proofs.Imports.Influence
import Futhark.Proofs.Imports.Order
import Futhark.Proofs.Levels.Chain
import Futhark.Proofs.Levels.Reach
import Futhark.Proofs.Levels.Stratified
import Futhark.Proofs.Lockstep.Basic
import Futhark.Proofs.Lockstep.Definition
import Futhark.Proofs.Lockstep.Expr
import Futhark.Proofs.Lockstep.Following
import Futhark.Proofs.Lockstep.Layout
import Futhark.Proofs.Lockstep.LocalFunction
import Futhark.Proofs.Lockstep.Pattern
import Futhark.Proofs.Lockstep.Program
import Futhark.Proofs.Lockstep.Rereading
import Futhark.Proofs.Lockstep.Rules
import Futhark.Proofs.Lockstep.TypeExpr
import Futhark.Proofs.Nesting.Depth
import Futhark.Proofs.Nesting.Limit
import Futhark.Proofs.Parallel.Basic
import Futhark.Proofs.Parallel.Expr
import Futhark.Proofs.Parallel.Local
import Futhark.Proofs.Parallel.Program
import Futhark.Proofs.Parallel.TypeExpr
import Futhark.Proofs.ReadBack.Atom
import Futhark.Proofs.ReadBack.Canonical
import Futhark.Proofs.ReadBack.Expr
import Futhark.Proofs.ReadBack.Fragment
import Futhark.Proofs.ReadBack.Keyword
import Futhark.Proofs.ReadBack.ModuleType
import Futhark.Proofs.ReadBack.Name
import Futhark.Proofs.ReadBack.Operation
import Futhark.Proofs.ReadBack.Pattern
import Futhark.Proofs.ReadBack.Program
import Futhark.Proofs.ReadBack.Stable
import Futhark.Proofs.ReadBack.TypeExpr
import Futhark.Proofs.Render.Block
import Futhark.Proofs.Render.Expr
import Futhark.Proofs.Render.ModuleType
import Futhark.Proofs.Render.Name
import Futhark.Proofs.Render.Pattern
import Futhark.Proofs.Render.Phrase
import Futhark.Proofs.Render.Program
import Futhark.Proofs.Render.TypeExpr
import Futhark.Proofs.Sound.Atom
import Futhark.Proofs.Sound.Exact
import Futhark.Proofs.Sound.Expr
import Futhark.Proofs.Sound.ModuleType
import Futhark.Proofs.Sound.Name
import Futhark.Proofs.Sound.Nested
import Futhark.Proofs.Sound.Pattern
import Futhark.Proofs.Sound.Program
import Futhark.Proofs.Sound.TypeExpr
import Futhark.Proofs.Text.Position
import Futhark.Proofs.Token.Detached
import Futhark.Proofs.Token.Digit
import Futhark.Proofs.Token.Lexical
import Futhark.Proofs.Token.Lines
import Futhark.Proofs.Token.Literal
import Futhark.Proofs.Token.Lossless
import Futhark.Proofs.Token.Newline
import Futhark.Proofs.Token.Number
import Futhark.Proofs.Token.Pieces
import Futhark.Proofs.Token.Projection
import Futhark.Proofs.Token.Quoted
import Futhark.Proofs.Token.Reading
import Futhark.Proofs.Token.Relocation
import Futhark.Proofs.Token.Respaced
import Futhark.Proofs.Token.Scan
import Futhark.Proofs.Token.Spelled
import Futhark.Proofs.Token.Spelling
import Futhark.Proofs.Token.Symbol
import Futhark.Proofs.Tree.Core
import Futhark.Proofs.Tree.Level
import Futhark.Proofs.Tree.Node
import Futhark.Proofs.Tree.Relabel
import Futhark.Proofs.Tree.Tier
import Futhark.Proofs.Tree.WellFormed
import Futhark.Proofs.Warnings.Diagnostics
import Futhark.Proofs.Warnings.Reached
import Futhark.Proofs.Warnings.Rules
import Futhark.Render.Expr
import Futhark.Render.Name
import Futhark.Render.Pattern
import Futhark.Render.Program
import Futhark.Render.TypeExpr
import Futhark.Span
import Futhark.Text.Bytes
import Futhark.Text.Quoted
import Futhark.Text.Split
import Futhark.Token.Basic
import Futhark.Token.Lexeme
import Futhark.Token.Scanner
import Futhark.Token.Stream
import Futhark.Tree.Expr
import Futhark.Tree.ModuleType
import Futhark.Tree.Name
import Futhark.Tree.Pattern
import Futhark.Tree.Program
import Futhark.Tree.TypeExpr
