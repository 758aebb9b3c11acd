import TokenLang.Extension
import TokenLang.Main
import TokenLang.Value.Outline
import TokenLang.Proofs.StackMap.Selection
import TokenLang.Proofs.StackMap.Probing
import TokenLang.Proofs.StackMap.Arrangement
import TokenLang.Proofs.Token.Bracket
import TokenLang.Proofs.Eval.Balance
import TokenLang.Proofs.Eval.Gaps
import TokenLang.Proofs.RoundTrip.Evaluation
import TokenLang.Proofs.Eval.Nesting
import TokenLang.Proofs.Session.Limits
import TokenLang.Proofs.Session.Builtins
import TokenLang.Proofs.RoundTrip.Buffer
import TokenLang.Proofs.Command.Chunks
import TokenLang.Proofs.Eval.Unmatched
import TokenLang.Proofs.Form.Grammar
import TokenLang.Proofs.Eval.Places
import TokenLang.Proofs.OperatorTree.Scanning
import TokenLang.Proofs.Value.Canonical
import TokenLang.Proofs.Eval.Choice
import TokenLang.Proofs.Arith
import TokenLang.Proofs.Numeral
import TokenLang.Proofs.Eval.Collections
import TokenLang.Proofs.Eval.ShortCircuit
import TokenLang.Proofs.Lexeme.Division
import TokenLang.Proofs.Eval.Hops
import TokenLang.Proofs.Order
import TokenLang.Proofs.Generator
