import GuidedDecoding.Json.Pointer
import GuidedDecoding.Json.Printer
import GuidedDecoding.Log
import GuidedDecoding.Schema.CommonRules
import GuidedDecoding.Schema.Keywords
import GuidedDecoding.Schema.Names

namespace GuidedDecoding

open Fragment (Sequence)

inductive SchemaError where
  | invalidJson
  /-- A part of the schema cannot be expressed; it would have become part of the rule. -/
  | unsupported (rule : String) (fault : SchemaFault)
  | grammar (error : GrammarError)
  deriving Repr, DecidableEq

namespace Conversion

structure State where
  rules : Array FragmentRule := #[]
  taken : Std.TreeSet String := .ofList CommonRules.names
  references : List (String × String) := []
  events : Array Event := #[]

end Conversion

abbrev Conversion := ExceptT SchemaError (StateM Conversion.State)

namespace Conversion

def fail (rule : String) (fault : SchemaFault) : Conversion α := throw (.unsupported rule fault)

def orFail (rule : String) : Except SchemaFault α → Conversion α
  | .ok a => pure a
  | .error fault => fail rule fault

def report (event : Event) : Conversion Unit :=
  modify fun s => { s with events := s.events.push event }

def freshName (base : String) : Conversion String := do
  let name := Names.fresh (← get).taken base
  modify fun s => { s with taken := s.taken.insert name }
  return name

def addRule (name : String) (alternatives : List Sequence) : Conversion Unit :=
  modify fun s => { s with rules := s.rules.push ⟨name, alternatives⟩ }

def nameRule (base : String) (alternatives : List Sequence) : Conversion Fragment := do
  let name ← freshName base
  addRule name alternatives
  return .rule name

/-- A body as one piece: a rule name stays what it is, all else gets a rule. -/
def asRule (base : String) : Sequence → Conversion Fragment
  | [.rule name] => pure (.rule name)
  | body => nameRule base [body]

def takeBounds (rule : String) (count : Except SchemaFault CountBounds) :
    Conversion CountBounds := do
  let count ← orFail rule count
  if let some keyword := count.dropped then report (.droppedBound keyword rule maxRepetition)
  return count

/-- For each listed member what may follow it: the end, or any later member and what may follow
that one. -/
def tails (layout : Layout) (base : String) (last : Fragment) (place : Nat) :
    List Sequence → Conversion (List Fragment)
  | [] => pure []
  | [_] => pure [last]
  | _ :: next :: rest => do
    let later ← tails layout base last (place + 1) (next :: rest)
    let tail := later.headD last
    let own ← nameRule s!"{base}_part_{place}" [[tail], layout.between ++ next ++ [tail]]
    return own :: later

/-- The pieces of an object. Only if a member is required, or nothing can be a member, is there no
choice between an empty and a non-empty form. -/
def objectText (settings : SchemaSettings) (layout : Layout) (base : String)
    (members : List Schema.Member) (extra : Option Fragment) : Conversion Sequence := do
  let extra := extra.map (layout.pair (.rule "basic_string"))
  let more := extra.map fun pair => Fragment.many (layout.another pair)
  if members.any Schema.Member.required then
    return layout.objectOf (Schema.membersUntil layout members ++ more.toList)
  else
    match members, extra with
    | [], none => return layout.emptyObject
    | [], some pair =>
      return settings.orEmpty (layout.objectOf (pair ++ more.toList)) layout.emptyObject
    | members, extra =>
      let last := more.getD .empty
      let pairs := members.map Schema.Member.pair
      let tails ← tails layout base last 0 pairs
      return settings.orEmpty (layout.objectOf [Schema.membersFrom pairs tails extra last])
        layout.emptyObject

def basicRule : BasicType → String
  | .integer => "basic_integer"
  | .number => "basic_number"
  | .boolean => "basic_boolean"
  | .null => "basic_null"

def stringText (count : CountBounds) : Sequence :=
  match count.min, count.max with
  | 0, none => [.rule "basic_string"]
  | min, max =>
    [CommonRules.quotationMark, .bounded (.rule "basic_char") min max, CommonRules.quotationMark]

def valueText (value : Json) : Fragment := .ofText value.text

/-- The rule of a reference: `#` is the schema itself, others are expanded the first time they are
met. The rule has its name before the expansion begins, so the expansion may refer to it. -/
def referenceText (resolve : List Char → Option Schema)
    (expand : Schema → String → Conversion Sequence) (rule target : String) :
    Conversion Sequence := do
  if target == "#" then return [.rule "root"]
  else
    match (← get).references.lookup target with
    | some name => return [.rule name]
    | none =>
      match target.toList with
      | '#' :: pointer =>
        let some schema := resolve pointer | fail rule (.danglingReference target)
        let last := (pointer.reverse.takeWhile (· != '/')).reverse
        let name ← freshName ("defs_" ++ Names.sanitize last)
        modify fun s => { s with references := (target, name) :: s.references }
        addRule name [← expand schema name]
        return [.rule name]
      | _ => fail rule (.remoteReference target)

section

variable (settings : SchemaSettings) (reference : String → String → Nat → Conversion Sequence)

mutual

/-- The body of the rule for a schema inside `depth` arrays and objects. The rule may still be
without a name; then `rule` is the name that it would get. References are left to `reference`. -/
def body (rule : String) (depth : Nat) : Schema → Conversion Sequence
  | .anything => pure [.rule "basic_any"]
  | .unsupported fault => fail rule fault
  | .annotated ignored schema => do
    ignored.forM fun keyword => report (.ignoredKeyword keyword rule)
    body rule depth schema
  | .reference target => reference rule target depth
  | .constant value => pure [valueText value]
  | .enumeration values => pure [.group (values.map fun value => [valueText value])]
  | .union members => do
    let members ← numbered rule "_case_" depth 0 members
    return [.group (members.map fun member => [member])]
  | .types alternatives => do return [.group (← bodies rule depth alternatives)]
  | .basic type => pure [.rule (basicRule type)]
  | .text length => do return stringText (← takeBounds rule length)
  | .array leading extra count => do
    let leading ← numbered rule "_item_" (depth + 1) 0 leading
    let extra ← extraRule (rule ++ "_items") (depth + 1) extra
    let count ← takeBounds rule count
    orFail rule (Schema.arrayText settings (settings.layout depth) leading extra count)
  | .object properties extra => do
    let layout := settings.layout depth
    let extra ← extraRule (rule ++ "_addl") (depth + 1) extra
    let members ← listed layout rule (depth + 1) 0 properties
    objectText settings layout rule members extra

def numbered (rule suffix : String) (depth place : Nat) : List Schema → Conversion (List Fragment)
  | [] => pure []
  | schema :: rest => do
    let name := rule ++ suffix ++ toString place
    let first ← asRule name (← body name depth schema)
    return first :: (← numbered rule suffix depth (place + 1) rest)

def bodies (rule : String) (depth : Nat) : List Schema → Conversion (List Sequence)
  | [] => pure []
  | schema :: rest => do
    let first ← body rule depth schema
    return first :: (← bodies rule depth rest)

def extraRule (rule : String) (depth : Nat) : Extra Schema → Conversion (Option Fragment)
  | .forbidden => pure none
  | .unspecified => pure (if settings.strict then none else some (.rule "basic_any"))
  | .schema schema => do return some (← asRule rule (← body rule depth schema))

def listed (layout : Layout) (rule : String) (depth place : Nat) :
    List (String × Bool × Schema) → Conversion (List Schema.Member)
  | [] => pure []
  | (key, required, schema) :: rest => do
    let name := rule ++ "_prop_" ++ toString place
    let value ← asRule name (← body name depth schema)
    let pair := layout.pair (.ofText (Json.quote key)) value
    return ⟨pair, required⟩ :: (← listed layout rule depth (place + 1) rest)

end

end

def expanded (settings : SchemaSettings) (resolve : List Char → Option Schema) :
    Nat → String → Nat → Schema → Conversion Sequence
  | 0 => body settings fun rule target _ =>
    referenceText resolve (fun _ name => fail name (.danglingReference target)) rule target
  | nesting + 1 => body settings fun rule target depth =>
    referenceText resolve (fun schema name => expanded settings resolve nesting name depth schema)
      rule target

end Conversion

end GuidedDecoding
