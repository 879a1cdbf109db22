import GuidedDecoding.Schema.Brackets

namespace GuidedDecoding.CommonRules

open Fragment (literal charClass rule group optional many ofText)

def digits : Fragment := charClass "0-9"

def someDigits : Fragment := .repeated digits 1 none

def quotationMark : Fragment := ofText ['"']

def whole : List Fragment :=
  [optional (ofText ['-']), group [[ofText ['0']], [charClass "1-9", many digits]]]

def fixed : List FragmentRule :=
  [⟨"basic_escape", [[charClass "\"\\\\/bfnrt"],
      [ofText ['u'], .repeated (charClass "A-Fa-f0-9") 4 (some 4)]]⟩,
    ⟨"basic_char", [[charClass "^\"\\\\\\x00-\\x1f"], [ofText ['\\'], rule "basic_escape"]]⟩,
    ⟨"basic_string", [[quotationMark, many (rule "basic_char"), quotationMark]]⟩,
    ⟨"basic_integer", [whole]⟩,
    ⟨"basic_number", [whole ++ [optional (group [[ofText ['.'], someDigits]]),
      optional (group [[charClass "eE", optional (charClass "+-"), someDigits]])]]⟩,
    ⟨"basic_boolean", [[ofText ['t', 'r', 'u', 'e']], [ofText ['f', 'a', 'l', 's', 'e']]]⟩,
    ⟨"basic_null", [[ofText ['n', 'u', 'l', 'l']]]⟩,
    ⟨"basic_any", [[rule "basic_number"], [rule "basic_string"], [rule "basic_boolean"],
      [rule "basic_null"], [rule "basic_array"], [rule "basic_object"]]⟩]

def array (settings : SchemaSettings) : FragmentRule :=
  let layout := settings.inlineLayout
  let item := rule "basic_any"
  ⟨"basic_array", [settings.orEmpty
    (layout.arrayOf [item, many (layout.another [item])]) layout.emptyArray]⟩

def object (settings : SchemaSettings) : FragmentRule :=
  let layout := settings.inlineLayout
  let pair := layout.pair (rule "basic_string") (rule "basic_any")
  ⟨"basic_object", [settings.orEmpty
    (layout.objectOf (pair ++ [many (layout.another pair)])) layout.emptyObject]⟩

def all (settings : SchemaSettings) : List FragmentRule :=
  fixed ++ [array settings, object settings]

def names : List String := (all {}).map FragmentRule.name ++ ["root"]

end GuidedDecoding.CommonRules
