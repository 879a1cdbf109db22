import Std.Data.TreeSet
import GuidedDecoding.Grammar.Expr

namespace GuidedDecoding.NormalForm

structure State where
  names : Std.TreeSet String
  next : RuleId
  helpers : List Rule
  counter : Nat

abbrev Rewriting := StateM State

def prepend (item : Expr RuleId) (items : List (Expr RuleId)) : List (Expr RuleId) :=
  match item, items with
  | .literal a, .literal b :: rest => .literal (a ++ b) :: rest
  | item, items => item :: items

def merge (items : List (Expr RuleId)) : List (Expr RuleId) := items.foldr prepend []

def toBody (alternatives : List (List (Expr RuleId))) : Expr RuleId :=
  .choice (alternatives.map .sequence)

/-- The first name `owner_n` with `n` above the counter that no rule has. Of `tries` names in a row
one is free if fewer than `tries` names are taken. -/
def freshName (names : Std.TreeSet String) (owner : String) (counter : Nat) :
    Nat → Nat × String
  | 0 => (counter + 1, owner ++ "_" ++ toString (counter + 1))
  | tries + 1 =>
    let name := owner ++ "_" ++ toString (counter + 1)
    if names.contains name then freshName names owner (counter + 1) tries else (counter + 1, name)

def addRule (owner : String) (alternatives : List (List (Expr RuleId))) : Rewriting (Expr RuleId) :=
  fun state =>
    let (counter, name) := freshName state.names owner state.counter state.names.size
    (.rule state.next,
      { names := state.names.insert name
        next := state.next + 1
        helpers := ⟨name, toBody alternatives⟩ :: state.helpers
        counter := counter })

def optionalCopies (owner : String) (items : List (Expr RuleId)) (tail : List (Expr RuleId)) :
    Nat → Rewriting (List (Expr RuleId))
  | 0 => return tail
  | count + 1 => do
    let copy ← addRule owner [items ++ tail, []]
    optionalCopies owner items [copy] count

def unit? : List (Expr RuleId) → Option (Expr RuleId)
  | [.charClass negated ranges] => some (.charClass negated ranges)
  | [.rule r] => some (.rule r)
  | _ => none

def repeated (owner : String) (items : List (Expr RuleId)) (min : Nat) (max : Option Nat) :
    Rewriting (List (Expr RuleId)) := do
  if items.isEmpty then return []
  let required := (List.replicate min items).flatten
  match max with
  | none =>
    let unit ← match unit? items with
      | some unit => pure unit
      | none => addRule owner [items]
    return required ++ [.repetition unit 0 none]
  | some max => return required ++ (← optionalCopies owner items [] (max - min))

mutual

/-- The items of a sequence that is equal to the expression. Adjacent literals may remain. -/
def items (owner : String) : Expr RuleId → Rewriting (List (Expr RuleId))
  | .empty => return []
  | .literal [] => return []
  | .literal bytes => return [.literal bytes]
  | .charClass negated ranges => return [.charClass negated ranges]
  | .rule r => return [.rule r]
  | .sequence parts => itemsAll owner parts
  | .choice parts => do
    match ← alternatives owner parts with
    | [only] => return only
    | several => return [← addRule owner several]
  | .repetition body min max => do
    let unit ← items owner body
    repeated owner (merge unit) min max

def itemsAll (owner : String) : List (Expr RuleId) → Rewriting (List (Expr RuleId))
  | [] => return []
  | part :: rest => do
    let first ← items owner part
    let others ← itemsAll owner rest
    return first ++ others

def alternatives (owner : String) : List (Expr RuleId) → Rewriting (List (List (Expr RuleId)))
  | [] => return []
  | .choice parts :: rest => do
    let first ← alternatives owner parts
    let others ← alternatives owner rest
    return first ++ others
  | part :: rest => do
    let first ← items owner part
    let others ← alternatives owner rest
    return merge first :: others

end

def rewriteRule (rule : Rule) : Rewriting Rule := do
  modify fun state => { state with counter := 0 }
  return { rule with body := toBody (← alternatives rule.name [rule.body]) }

/-- Bodies become choices of sequences of items. Other choices and repetitions become rules behind those of the text. -/
def ofRules (rules : List Rule) : List Rule :=
  let start : State := ⟨.ofList (rules.map Rule.name), rules.length, [], 0⟩
  let (rules, state) := (rules.mapM rewriteRule).run start
  rules ++ state.helpers.reverse

end GuidedDecoding.NormalForm
