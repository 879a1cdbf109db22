import GuidedDecoding.Text.SharedPrefix
import GuidedDecoding.Grammar.JsonText
import GuidedDecoding.Matcher.Mask
import GuidedDecoding.Matcher.JumpForward
import GuidedDecoding.Schema.GrammarText
import GuidedDecoding.Settings
import GuidedDecoding.Proofs.Automaton.LeftRecursion
import GuidedDecoding.Proofs.Automaton.Reprinting
import GuidedDecoding.Proofs.Automaton.TailCalls
import GuidedDecoding.Proofs.Grammar.Comments
import GuidedDecoding.Proofs.Grammar.JsonText
import GuidedDecoding.Proofs.Grammar.Layouts
import GuidedDecoding.Proofs.Grammar.NormalShape
import GuidedDecoding.Proofs.Grammar.RuleTable
import GuidedDecoding.Proofs.Grammar.TextRecursion
import GuidedDecoding.Proofs.Grammar.WellFormed
import GuidedDecoding.Proofs.Matcher.Cache
import GuidedDecoding.Proofs.Matcher.JumpForward
import GuidedDecoding.Proofs.Matcher.Refusal
import GuidedDecoding.Proofs.Matcher.Stopping
import GuidedDecoding.Proofs.Matcher.Survival
import GuidedDecoding.Proofs.Matcher.Tokenization
import GuidedDecoding.Proofs.Schema.Indentation
import GuidedDecoding.Proofs.Schema.Items
import GuidedDecoding.Proofs.Schema.JsonTexts
import GuidedDecoding.Proofs.Schema.Keys
import GuidedDecoding.Proofs.Schema.Required
import GuidedDecoding.Proofs.Schema.Strings
import GuidedDecoding.Proofs.Schema.Termination
import GuidedDecoding.Proofs.Text.Canonical
import GuidedDecoding.Proofs.Vocabulary.ByteLevel
