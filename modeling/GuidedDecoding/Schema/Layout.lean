import GuidedDecoding.Schema.Fragment
import GuidedDecoding.Text.Blank

namespace GuidedDecoding

open Fragment (Sequence)

structure SchemaSettings where
  /-- Any blanks around brackets, commas and colons. The indentation does not count then, and the
  separators only without the blanks around them. -/
  anyWhitespace : Bool := true
  indent : Option Nat := none
  separators : Option (String × String) := none
  strict : Bool := true
  deriving Repr, DecidableEq, Inhabited

structure Layout where
  opening : Fragment
  between : Sequence
  keyValue : Sequence
  closing : Fragment
  inEmpty : Fragment

namespace Layout

def blanks : Fragment := .many (.charClass " \\n\\t")

def spaced (between keyValue : List Char) : Layout :=
  let around text := [blanks, Fragment.ofText (Text.trim text), blanks]
  ⟨blanks, around between, around keyValue, blanks, blanks⟩

def oneLine (between keyValue : List Char) : Layout :=
  ⟨.empty, [.ofText between], [.ofText keyValue], .empty, .empty⟩

def lines (between keyValue : List Char) (indent depth : Nat) : Layout :=
  let line depth := '\n' :: List.replicate (indent * depth) ' '
  ⟨.ofText (line (depth + 1)), [.ofText (between ++ line (depth + 1))], [.ofText keyValue],
    .ofText (line depth), .empty⟩

end Layout

namespace SchemaSettings

def separatorTexts (settings : SchemaSettings) : List Char × List Char :=
  match settings.separators, settings.indent with
  | some (between, keyValue), _ => (between.toList, keyValue.toList)
  | none, some _ => ([','], [':', ' '])
  | none, none => ([',', ' '], [':', ' '])

def layout (settings : SchemaSettings) (depth : Nat) : Layout :=
  let (between, keyValue) := settings.separatorTexts
  if settings.anyWhitespace then .spaced between keyValue
  else
    match settings.indent with
    | some indent => .lines between keyValue indent depth
    | none => .oneLine between keyValue

def inlineLayout (settings : SchemaSettings) : Layout :=
  let (between, keyValue) := { settings with indent := none }.separatorTexts
  if settings.anyWhitespace then .spaced between keyValue else .oneLine between keyValue

end SchemaSettings
end GuidedDecoding
