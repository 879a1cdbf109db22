namespace GuidedDecoding

inductive SyntaxCause where
  | expectedRule
  | expectedExpression
  | expectedAlternative
  | unbalancedParenthesis
  | malformedRange
  | rangeOrder
  | rangeTooLarge
  | unterminatedLiteral
  | notScalarValue
  | unterminatedEscape
  | invalidEscape
  | malformedHexEscape
  | emptyClass
  | unterminatedClass
  | classOrder
  | noRule
  deriving Repr, DecidableEq

def maxRepetition : Nat := 65536

def SyntaxCause.message : SyntaxCause → String
  | expectedRule => "expected a rule definition"
  | expectedExpression => "expected an expression"
  | expectedAlternative => "expected an expression after '|'"
  | unbalancedParenthesis => "unbalanced parenthesis"
  | malformedRange => "malformed repetition range"
  | rangeOrder => "repetition upper bound is smaller than the lower bound"
  | rangeTooLarge => s!"repetition bound exceeds {maxRepetition}"
  | unterminatedLiteral => "unterminated string literal"
  | notScalarValue => "escape sequence is not a Unicode scalar value"
  | unterminatedEscape => "unterminated escape sequence"
  | invalidEscape => "invalid escape sequence"
  | malformedHexEscape => "malformed hexadecimal escape sequence"
  | emptyClass => "empty character class"
  | unterminatedClass => "unterminated character class"
  | classOrder => "character range is out of order"
  | noRule => "the grammar does not define any rule"

/-- A cause together with the text that was not yet read when it was found. -/
structure SyntaxFault where
  cause : SyntaxCause
  rest : List Char
  deriving Repr, DecidableEq

structure Location where
  line : Nat
  column : Nat
  deriving Repr, DecidableEq

namespace Location

def advance (at_ : Location) (c : Char) : Location :=
  if c = '\n' then ⟨at_.line + 1, 1⟩ else ⟨at_.line, at_.column + 1⟩

def before (text rest : List Char) : Location :=
  (text.take (text.length - rest.length)).foldl advance ⟨1, 1⟩

end Location

inductive GrammarError where
  | syntaxError (place : Location) (cause : SyntaxCause)
  | undefinedMain (name : String)
  | undefinedRule (rule reference : String)
  | duplicateRule (name : String)
  | leftRecursion (rule : String)
  deriving Repr, DecidableEq

def GrammarError.message : GrammarError → String
  | syntaxError place cause =>
    "EBNF syntax error at line " ++ toString place.line ++ ", column " ++ toString place.column ++
      ": " ++ cause.message
  | undefinedMain name => "EBNF semantics error: the main rule `" ++ name ++ "` is not defined"
  | undefinedRule rule reference =>
    "EBNF semantics error: rule `" ++ rule ++ "` references the undefined rule `" ++ reference ++
      "`"
  | duplicateRule name => "EBNF semantics error: rule `" ++ name ++ "` is defined more than once"
  | leftRecursion rule => "EBNF semantics error: rule `" ++ rule ++ "` is left recursive"

end GuidedDecoding
