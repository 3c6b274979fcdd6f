import TextGrammar.Main
import TextGrammar.Files.Basic
import TextGrammar.Grammar.Resolve
import TextGrammar.Grammar.Basic
import TextGrammar.Token.Reader
import TextGrammar.Token.Scan
import TextGrammar.Tree.Document
import TextGrammar.Tree.Content
import TextGrammar.Proofs.Tree.RoundTrip
import TextGrammar.Proofs.Grammar.LiteralText
import TextGrammar.Proofs.Grammar.GuardHeight
import TextGrammar.Proofs.Grammar.Reach
import TextGrammar.Proofs.Grammar.Replay
import TextGrammar.Proofs.Outline.Step
import TextGrammar.Proofs.Tree.Normal
import TextGrammar.Proofs.Tree.Values
import TextGrammar.Proofs.Tree.Closing
import TextGrammar.Proofs.Outline.Cut
import TextGrammar.Proofs.Grammar.Cut
import TextGrammar.Proofs.Grammar.Stacks
import TextGrammar.Proofs.Grammar.Substitution
import TextGrammar.Proofs.Run.Move
import TextGrammar.Proofs.Run.Session
import TextGrammar.Proofs.Grammar.Floor
import TextGrammar.Proofs.Run.Visit
import TextGrammar.Proofs.Grammar.Choice
import TextGrammar.Proofs.Grammar.Merge
import TextGrammar.Proofs.Grammar.Rank
import TextGrammar.Proofs.Token.Exact
import TextGrammar.Proofs.Token.Reader
import TextGrammar.Proofs.RuleSet.Json
import TextGrammar.Proofs.CommandLine.Lines
import TextGrammar.Proofs.Grammar.Unselected
import TextGrammar.Proofs.Grammar.Cached
import TextGrammar.Proofs.Grammar.Frame
import TextGrammar.Proofs.Grammar.Scope
import TextGrammar.Proofs.Tree.PlainText
import TextGrammar.Proofs.Tree.Content
import TextGrammar.Proofs.Tree.Stray
import TextGrammar.Proofs.RuleSet.Edit
import TextGrammar.Proofs.CommandLine.Arguments
import TextGrammar.Proofs.CommandLine.Input
import TextGrammar.Proofs.RuleSet.Ron
import TextGrammar.Proofs.Grammar.Seeded
import TextGrammar.Proofs.Modifier.Substitute
