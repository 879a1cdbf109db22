import GuidedDecoding.Grammar.Expr
import GuidedDecoding.Grammar.Token

namespace GuidedDecoding

structure Definition where
  name : String
  body : Expr String
  deriving Inhabited, Repr

/-- What has been read of the alternatives between two parentheses, or of a whole body. -/
structure Level where
  alternatives : List (Expr String)
  items : List (Expr String)
  lacking : SyntaxCause

namespace Level

def start (lacking : SyntaxCause) : Level := ⟨[], [], lacking⟩

def push (level : Level) (item : Expr String) : Level := { level with items := item :: level.items }

def sequence (level : Level) : Expr String := .single .sequence level.items.reverse

def nextAlternative (level : Level) : Level :=
  ⟨level.sequence :: level.alternatives, [], .expectedAlternative⟩

def close (level : Level) : Expr String :=
  .single .choice (level.sequence :: level.alternatives).reverse

def quantify (level : Level) (min : Nat) (max : Option Nat) : Level :=
  match level.items with
  | [] => level
  | item :: items => { level with items := .repetition item min max :: items }

end Level

structure Body where
  name : String
  level : Level
  outer : List Level
  bare : Bool

namespace Body

def start (name : String) : Body := ⟨name, .start .expectedExpression, [], false⟩

def push (body : Body) (item : Expr String) : Body :=
  { body with level := body.level.push item, bare := true }

def finish (body : Body) (rest : List Char) : Except SyntaxFault Definition :=
  match body.level.items, body.outer with
  | [], _ => .error ⟨body.level.lacking, rest⟩
  | _, [] => .ok ⟨body.name, body.level.close⟩
  | _, _ => .error ⟨.unbalancedParenthesis, rest⟩

def misplaced (body : Body) (token : Token) : SyntaxFault :=
  match body.finish token.start with
  | .ok _ => ⟨.expectedRule, token.start⟩
  | .error fault => fault

def step (body : Body) (token : Token) : Except SyntaxFault Body :=
  match token.lexeme with
  | .name text => .ok (body.push (.rule text))
  | .literal bytes => .ok (body.push (.literal bytes))
  | .charClass negated ranges => .ok (body.push (.charClass negated ranges))
  | .brokenAtom fault => .error fault
  | .opening =>
    .ok { body with
      level := .start .unbalancedParenthesis, outer := body.level :: body.outer, bare := false }
  | .closing =>
    match body.level.items, body.outer with
    | _ :: _, level :: outer =>
      .ok { body with level := level.push body.level.close, outer := outer, bare := true }
    | _, _ => .error (body.misplaced token)
  | .bar =>
    match body.level.items with
    | [] => .error (body.misplaced token)
    | _ => .ok { body with level := body.level.nextAlternative, bare := false }
  | .quantifier min max =>
    if body.bare && token.attached then
      .ok { body with level := body.level.quantify min max, bare := false }
    else .error (body.misplaced token)
  | .brokenQuantifier fault =>
    .error (if body.bare && token.attached then fault else body.misplaced token)
  | .defines | .semicolon | .stray => .error (body.misplaced token)

end Body

namespace Definition

/-- Reads on after the definitions `done`, last first, and perhaps within another one. A name in
front of the defining sign ends the definition before it, and so does an attached semicolon. -/
def ofTokensFrom (done : List Definition) : Option Body → List Token →
    Except SyntaxFault (List Definition)
  | none, [] => .ok done.reverse
  | some body, [] => do
    let last ← body.finish []
    return (last :: done).reverse
  | none, token :: rest =>
    match token.lexeme, rest with
    | .name text, ⟨.defines, _, _, _⟩ :: rest => ofTokensFrom done (some (.start text)) rest
    | .name _, next :: _ => .error ⟨.expectedRule, next.start⟩
    | .name _, [] => .error ⟨.expectedRule, []⟩
    | _, _ => .error ⟨.expectedRule, token.start⟩
  | some body, token :: rest =>
    match token.lexeme, rest with
    | .name text, ⟨.defines, _, _, _⟩ :: rest =>
      match body.finish (if body.level.items.isEmpty then token.after else token.start) with
      | .ok definition => ofTokensFrom (definition :: done) (some (.start text)) rest
      | .error fault => .error fault
    | .semicolon, rest =>
      match body.finish token.start with
      | .ok definition =>
        if token.attached then ofTokensFrom (definition :: done) none rest
        else .error ⟨.expectedRule, token.start⟩
      | .error fault => .error fault
    | _, rest =>
      match body.step token with
      | .ok body => ofTokensFrom done (some body) rest
      | .error fault => .error fault

def read (text : List Char) : Except SyntaxFault (List Definition) :=
  match ofTokensFrom [] none (Token.scan text) with
  | .ok [] => .error ⟨.noRule, []⟩
  | result => result

end Definition
end GuidedDecoding
