import GuidedDecoding.Grammar.Expr
import GuidedDecoding.Text.Escape

namespace GuidedDecoding

namespace Printer

def literal (bytes : List UInt8) : List Char := '"' :: Escape.bytes bytes ++ ['"']

def range (r : CodeRange) : List Char :=
  if r.lo = r.hi then Escape.classChar r.lo
  else Escape.classChar r.lo ++ '-' :: Escape.classChar r.hi

def charClass (negated : Bool) (ranges : List CodeRange) : List Char :=
  '[' :: (if negated then ['^'] else []) ++ ranges.flatMap range ++ [']']

def number (n : Nat) : List Char := Nat.toDigits 10 n

def quantifier (min : Nat) (max : Option Nat) : List Char :=
  match min, max with
  | 0, none => ['*']
  | 1, none => ['+']
  | 0, some 1 => ['?']
  | min, none => '\x7b' :: number min ++ [',', '\x7d']
  | min, some max =>
    if min = max then '\x7b' :: number min ++ ['\x7d']
    else '\x7b' :: number min ++ ',' :: number max ++ ['\x7d']

def sequence (items : List (List Char)) : List Char := [' '].intercalate items

def choice (alternatives : List (List Char)) : List Char := [' ', '|', ' '].intercalate alternatives

def parenthesized (text : List Char) : List Char := '(' :: text ++ [')']

def group (nested : Bool) (count : Nat) (text : List Char) : List Char :=
  if nested && 1 < count then parenthesized text else text

def definition (name : String) (body : List Char) : List Char :=
  name.toList ++ [' ', ':', ':', '=', ' '] ++ body ++ ['\n']

end Printer

namespace Expr

mutual

def text (name : ref → String) (nested : Bool) : Expr ref → List Char
  | empty => ['"', '"']
  | literal bytes => Printer.literal bytes
  | charClass negated ranges => Printer.charClass negated ranges
  | rule r => (name r).toList
  | sequence [] => ['"', '"']
  | sequence items =>
    Printer.group nested items.length (Printer.sequence (texts name true items))
  | choice alternatives =>
    Printer.group nested alternatives.length
      (Printer.choice (texts name (nested && alternatives.length == 1) alternatives))
  | repetition body min max => text name true body ++ Printer.quantifier min max

def texts (name : ref → String) (nested : Bool) : List (Expr ref) → List (List Char)
  | [] => []
  | e :: rest => text name nested e :: texts name nested rest

end

end Expr

def Rule.text (name : RuleId → String) (rule : Rule) : List Char :=
  Printer.definition rule.name (rule.body.text name false)

end GuidedDecoding
