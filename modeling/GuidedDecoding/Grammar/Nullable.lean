import GuidedDecoding.Grammar.Expr
import GuidedDecoding.Search.Saturation

namespace GuidedDecoding

namespace Expr

mutual

def nullable (known : RuleId → Bool) : Expr RuleId → Bool
  | empty => true
  | literal bytes => bytes.isEmpty
  | charClass _ _ => false
  | rule r => known r
  | sequence items => nullableAll known items
  | choice alternatives => nullableAny known alternatives
  | repetition body min _ => min == 0 || nullable known body

def nullableAll (known : RuleId → Bool) : List (Expr RuleId) → Bool
  | [] => true
  | e :: rest => nullable known e && nullableAll known rest

def nullableAny (known : RuleId → Bool) : List (Expr RuleId) → Bool
  | [] => false
  | e :: rest => nullable known e || nullableAny known rest

end

end Expr

def ruleBody? (bodies : Array (Expr RuleId)) (r : RuleId) : Option (Expr RuleId) := bodies[r]?

def nullableRules (bodies : Array (Expr RuleId)) : Std.TreeSet RuleId :=
  saturate (fun known r => (ruleBody? bodies r).any (·.nullable known)) ∅ (List.range bodies.size)

end GuidedDecoding
