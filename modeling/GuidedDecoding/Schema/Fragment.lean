import GuidedDecoding.Grammar.Printer

namespace GuidedDecoding

inductive Fragment where
  | literal (bytes : List UInt8)
  | charClass (inside : String)
  | rule (name : String)
  | repeated (body : Fragment) (min : Nat) (max : Option Nat)
  | group (alternatives : List (List Fragment))
  deriving Repr, Inhabited

namespace Fragment

abbrev Sequence := List Fragment

def ofText (text : List Char) : Fragment := literal (Utf8.encode text)

def empty : Fragment := literal []

def optional (body : Fragment) : Fragment := repeated body 0 (some 1)

def many (body : Fragment) : Fragment := repeated body 0 none

def bounded (body : Fragment) (min : Nat) (max : Option Nat) : Fragment :=
  if max = some 0 then empty else repeated body min max

mutual

def text : Fragment → List Char
  | literal bytes => Printer.literal bytes
  | charClass inside => '[' :: inside.toList ++ [']']
  | rule name => name.toList
  | repeated body min max => body.text ++ Printer.quantifier min max
  | group alternatives => Printer.parenthesized (Printer.choice (alternativeTexts alternatives))

def sequenceTexts : List Fragment → List (List Char)
  | [] => []
  | piece :: rest => piece.text :: sequenceTexts rest

def alternativeTexts : List (List Fragment) → List (List Char)
  | [] => []
  | pieces :: rest => Printer.sequence (sequenceTexts pieces) :: alternativeTexts rest

end

end Fragment

open Fragment (Sequence)

structure FragmentRule where
  name : String
  alternatives : List Sequence
  deriving Repr, Inhabited

def FragmentRule.text (rule : FragmentRule) : List Char :=
  Printer.definition rule.name (Printer.choice (Fragment.alternativeTexts rule.alternatives))

end GuidedDecoding
