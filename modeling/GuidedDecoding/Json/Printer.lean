import GuidedDecoding.Decimal.Shortest
import GuidedDecoding.Json.Basic

namespace GuidedDecoding

/-- Numbers have no exponent mark if their first digit has an exponent of ten from -5 to 15, a whole
number among these ends in `.0`, and the exponents of other numbers have a sign. -/
def JsonNumber.layout : Decimal.Layout := ⟨-5, 16, ['.', '0'], ['e', '+'], ['e', '-']⟩

def JsonNumber.text : JsonNumber → List Char
  | .integer n => (toString n).toList
  | .float negative magnitude =>
    (if negative then ['-'] else []) ++ (Decimal.shortest magnitude).render layout

namespace Json

def escapeChar (c : Char) : List Char :=
  if c = '"' then ['\\', '"']
  else if c = '\\' then ['\\', '\\']
  else if c = '\x08' then ['\\', 'b']
  else if c = '\x0c' then ['\\', 'f']
  else if c = '\n' then ['\\', 'n']
  else if c = '\r' then ['\\', 'r']
  else if c = '\t' then ['\\', 't']
  else if c.toNat < 0x20 then '\\' :: 'u' :: Hex.digits 4 c.toNat
  else [c]

def quote (text : String) : List Char := '"' :: text.toList.flatMap escapeChar ++ ['"']

mutual

def text : Json → List Char
  | .null => ['n', 'u', 'l', 'l']
  | .bool true => ['t', 'r', 'u', 'e']
  | .bool false => ['f', 'a', 'l', 's', 'e']
  | .number n => n.text
  | .string s => quote s
  | .array items => '[' :: itemsText items ++ [']']
  | .object members => '\x7b' :: membersText members ++ ['\x7d']

def itemsText : List Json → List Char
  | [] => []
  | [item] => item.text
  | item :: rest => item.text ++ ',' :: itemsText rest

def membersText : List (String × Json) → List Char
  | [] => []
  | [(key, value)] => quote key ++ ':' :: value.text
  | (key, value) :: rest => quote key ++ ':' :: value.text ++ ',' :: membersText rest

end

end Json
end GuidedDecoding
