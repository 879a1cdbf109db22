import GuidedDecoding.Schema.Basic
import GuidedDecoding.Schema.Layout

namespace GuidedDecoding

open Fragment (Sequence)

namespace Layout

def arrayOf (layout : Layout) (inside : Sequence) : Sequence :=
  [.ofText ['[']] ++ layout.opening :: inside ++ [layout.closing, .ofText [']']]

def emptyArray (layout : Layout) : Sequence := [.ofText ['['], layout.inEmpty, .ofText [']']]

def objectOf (layout : Layout) (inside : Sequence) : Sequence :=
  [.ofText ['\x7b']] ++ layout.opening :: inside ++ [layout.closing, .ofText ['\x7d']]

def emptyObject (layout : Layout) : Sequence :=
  [.ofText ['\x7b'], layout.inEmpty, .ofText ['\x7d']]

def another (layout : Layout) (item : Sequence) : Fragment := .group [layout.between ++ item]

def pair (layout : Layout) (key value : Fragment) : Sequence := key :: layout.keyValue ++ [value]

def separated (layout : Layout) : List Fragment → Sequence
  | [] => []
  | [item] => [item]
  | item :: rest => item :: layout.between ++ layout.separated rest

end Layout

def SchemaSettings.orEmpty (settings : SchemaSettings) (nonEmpty empty : Sequence) : Sequence :=
  if settings.strict then nonEmpty else [.group [nonEmpty, empty]]

namespace Schema

/-- An array that begins with the leading items; as many extra items follow as the bounds allow. -/
def arrayText (settings : SchemaSettings) (layout : Layout) (leading : List Fragment)
    (extra : Option Fragment) (count : CountBounds) : Except SchemaFault Sequence :=
  let fixed := leading.length
  if (extra.isNone ∧ fixed < count.min) ∨ count.max.any (· < fixed) then .error .contradictoryCount
  else .ok <|
    match leading, extra with
    | [], none => layout.emptyArray
    | leading, none => layout.arrayOf (layout.separated leading)
    | [], some item =>
      if count.max = some 0 then layout.emptyArray
      else
        let more := Fragment.bounded (layout.another [item]) (count.min - 1) (count.max.map (· - 1))
        let nonEmpty := layout.arrayOf [item, more]
        if count.min = 0 then settings.orEmpty nonEmpty layout.emptyArray else nonEmpty
    | leading, some item =>
      let more :=
        Fragment.bounded (layout.another [item]) (count.min - fixed) (count.max.map (· - fixed))
      layout.arrayOf (layout.separated leading ++ [more])

structure Member where
  pair : Sequence
  required : Bool

def membersAfter (layout : Layout) : List Member → Sequence
  | [] => []
  | member :: rest =>
    let text := layout.between ++ member.pair
    (if member.required then text else [.optional (.group [text])]) ++ membersAfter layout rest

def membersUntil (layout : Layout) : List Member → Sequence
  | [] => []
  | member :: rest =>
    if member.required then member.pair ++ membersAfter layout rest
    else .optional (.group [member.pair ++ layout.between]) :: membersUntil layout rest

/-- The members of an object none of which is required: any of them may be the first, and what may
follow a listed one is its tail. -/
def membersFrom (pairs : List Sequence) (tails : List Fragment) (extra : Option Sequence)
    (last : Fragment) : Fragment :=
  .group ((pairs.zip tails).map (fun (pair, tail) => pair ++ [tail]) ++
    extra.toList.map (· ++ [last]))

end Schema
end GuidedDecoding
