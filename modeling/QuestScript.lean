import QuestScript.AnalysisError
import QuestScript.Caret
import QuestScript.Diagnostic.Basic
import QuestScript.Diagnostic.Document
import QuestScript.Diagnostic.Invocation
import QuestScript.Diagnostic.Problem
import QuestScript.Diagnostic.Report
import QuestScript.Diagnostic.Semantic
import QuestScript.Diagnostic.Syntactic
import QuestScript.Editor.Analysis
import QuestScript.Editor.CodeAction
import QuestScript.Editor.Completion
import QuestScript.Editor.Highlight
import QuestScript.Editor.Hover
import QuestScript.Editor.Navigation
import QuestScript.Editor.Outline
import QuestScript.Editor.Rename
import QuestScript.Editor.Signature
import QuestScript.Flavor
import QuestScript.Grammar.Argument
import QuestScript.Grammar.Basic
import QuestScript.Grammar.Document
import QuestScript.Grammar.Statement
import QuestScript.Grammar.SyntaxError
import QuestScript.Json.Format
import QuestScript.Json.Reader
import QuestScript.Json.Value
import QuestScript.Parse
import QuestScript.Reference
import QuestScript.Settings
import QuestScript.Spelling
import QuestScript.Symbol.Action
import QuestScript.Symbol.Basic
import QuestScript.Symbol.Catalog
import QuestScript.Symbol.Rule
import QuestScript.Symbol.StateIndex
import QuestScript.Text.Ascii
import QuestScript.Text.Edit
import QuestScript.Text.LetterCase
import QuestScript.Text.Lowercase
import QuestScript.Text.Position
import QuestScript.Token.Basic
import QuestScript.Token.Keyword
import QuestScript.Token.Kind
import QuestScript.Token.Lexeme
import QuestScript.Token.Stream
import QuestScript.Tree.Basic
import QuestScript.Tree.Kind
import QuestScript.Tree.Place
import QuestScript.Tree.Walk
import QuestScript.Tree.Weave
import QuestScript.Workspace
import QuestScript.Proofs.Lossless
import QuestScript.Proofs.Exact
import QuestScript.Proofs.Span
import QuestScript.Proofs.Token.Delimiter
import QuestScript.Proofs.Token.Case
import QuestScript.Proofs.Ast.Names
import QuestScript.Proofs.Tree.Significant
import QuestScript.Proofs.Editor.Highlight
import QuestScript.Proofs.Check.MainBlocks
import QuestScript.Proofs.Check.Range
import QuestScript.Proofs.Check.StateBlocks
import QuestScript.Proofs.Check.Unresolved
import QuestScript.Proofs.Check.WellFormed
import QuestScript.Proofs.Editor.Navigation
import QuestScript.Proofs.Extension.Document
import QuestScript.Proofs.Fix.AddState
import QuestScript.Proofs.Fix.Progress
import QuestScript.Proofs.Fix.Casing
import QuestScript.Proofs.Grammar.Header
import QuestScript.Proofs.Grammar.Robust
import QuestScript.Proofs.Layout.Document
import QuestScript.Proofs.Rename.Document
import QuestScript.Proofs.Workspace.Refinement
import QuestScript.Proofs.Grammar.Account
import QuestScript.Proofs.Builder.Basic
import QuestScript.Proofs.Builder.Program
import QuestScript.Proofs.Builder.Follow
import QuestScript.Proofs.Builder.Halting
import QuestScript.Proofs.Caret.Touch
import QuestScript.Proofs.Caret.Scan
import QuestScript.Proofs.Caret.Lost
import QuestScript.Proofs.Editor.Encoding
import QuestScript.Proofs.Check.Arguments
import QuestScript.Proofs.Check.Syntactic
import QuestScript.Proofs.Spelling.Distance
import QuestScript.Proofs.Spelling.Band
import QuestScript.Proofs.Spelling.InPlace
import QuestScript.Proofs.Spelling.Closest
import QuestScript.Proofs.Spelling.Edits
import QuestScript.Proofs.Symbol.StateIndex
import QuestScript.Proofs.Editor.Outline
import QuestScript.Proofs.Caret.Token
import QuestScript.Proofs.Editor.Completion
import QuestScript.Proofs.Editor.Signature
import QuestScript.Proofs.Editor.Ranking
import QuestScript.Proofs.Json.Record
import QuestScript.Proofs.Json.Format
import QuestScript.Proofs.Check.Accepted
import QuestScript.Proofs.Tree.Walk
import QuestScript.Proofs.Tree.Navigation
