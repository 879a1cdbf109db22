import Std.Data.TreeMap
import GuidedDecoding.Grammar.Definition
import GuidedDecoding.Grammar.LeftRecursion
import GuidedDecoding.Grammar.NormalForm
import GuidedDecoding.Grammar.Printer

namespace GuidedDecoding

structure GrammarSettings where
  mainRule : String := "root"
  normalize : Bool := true
  deriving Repr, DecidableEq, Inhabited

/-- A grammar without left recursion whose references all point into its rule table. -/
structure Grammar where
  rules : Array Rule
  main : RuleId
  normalized : Bool
  deriving Repr

namespace Grammar

abbrev NameIndex := Std.TreeMap String RuleId

def numberFrom (index : NameIndex) (next : RuleId) : List String → Except GrammarError NameIndex
  | [] => .ok index
  | name :: rest =>
    if index.contains name then .error (.duplicateRule name)
    else numberFrom (index.insert name next) (next + 1) rest

def resolveName (index : NameIndex) (user reference : String) : Except GrammarError RuleId :=
  match index[reference]? with
  | some r => .ok r
  | none => .error (.undefinedRule user reference)

def resolveDefinition (index : NameIndex) (definition : Definition) : Except GrammarError Rule := do
  let body ← definition.body.resolve (resolveName index definition.name)
  return ⟨definition.name, body⟩

def resolve (definitions : List Definition) (main : String) :
    Except GrammarError (List Rule × RuleId) := do
  let index ← numberFrom ∅ 0 (definitions.map Definition.name)
  let some main := index[main]? | .error (.undefinedMain main)
  let rules ← definitions.mapM (resolveDefinition index)
  return (rules, main)

def bodies (rules : Array Rule) : Array (Expr RuleId) := rules.map Rule.body

/-- The grammar of a text. The rules of the text are preferred in reports of left recursion. -/
def ofText (text : List Char) (settings : GrammarSettings) : Except GrammarError Grammar := do
  let definitions ← (Definition.read text).mapError fun fault =>
    .syntaxError (.before text fault.rest) fault.cause
  let (rules, main) ← resolve definitions settings.mainRule
  let compiled := (if settings.normalize then NormalForm.ofRules rules else rules).toArray
  match leftRecursiveRule? (bodies compiled) rules.length with
  | some r => .error (.leftRecursion (compiled[r]?.elim "" Rule.name))
  | none => return ⟨compiled, main, settings.normalize⟩

def compile (text : String) (settings : GrammarSettings) : Except GrammarError Grammar :=
  ofText text.toList settings

def ruleName? (grammar : Grammar) (r : RuleId) : Option String := grammar.rules[r]?.map Rule.name

def ruleId? (grammar : Grammar) (name : String) : Option RuleId :=
  grammar.rules.findIdx? (·.name == name)

def text (grammar : Grammar) : List Char :=
  grammar.rules.toList.flatMap (Rule.text fun r => (grammar.ruleName? r).getD "<unknown>")

end Grammar
end GuidedDecoding
