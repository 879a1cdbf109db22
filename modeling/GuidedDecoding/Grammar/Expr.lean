import GuidedDecoding.Text.CodeRange

namespace GuidedDecoding

abbrev RuleId := Nat

inductive Expr (ref : Type) where
  | empty
  | literal (bytes : List UInt8)
  | charClass (negated : Bool) (ranges : List CodeRange)
  | rule (target : ref)
  | sequence (items : List (Expr ref))
  | choice (alternatives : List (Expr ref))
  /-- At least `min` and at most `max` times; no `max` means no upper bound. A `max` below `min`
  counts as `min`. -/
  | repetition (body : Expr ref) (min : Nat) (max : Option Nat)
  deriving Inhabited, Repr

def Expr.single (many : List (Expr ref) → Expr ref) : List (Expr ref) → Expr ref
  | [item] => item
  | items => many items

structure Rule where
  name : String
  body : Expr RuleId
  deriving Inhabited, Repr

namespace Expr

mutual

/-- Replaces references, stopping at the first that fails. An empty literal becomes the empty
expression. -/
def resolve (target : ref → Except ε ref') : Expr ref → Except ε (Expr ref')
  | empty => .ok empty
  | literal [] => .ok empty
  | literal bytes => .ok (literal bytes)
  | charClass negated ranges => .ok (charClass negated ranges)
  | rule r => rule <$> target r
  | sequence items => sequence <$> resolveAll target items
  | choice alternatives => choice <$> resolveAll target alternatives
  | repetition body min max => (repetition · min max) <$> resolve target body

def resolveAll (target : ref → Except ε ref') : List (Expr ref) → Except ε (List (Expr ref'))
  | [] => .ok []
  | e :: rest => do
    let e ← resolve target e
    let rest ← resolveAll target rest
    return e :: rest

end

end Expr
end GuidedDecoding
