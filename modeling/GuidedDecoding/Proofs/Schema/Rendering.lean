import Mathlib
import GuidedDecoding.Proofs.Schema.Fragment
import GuidedDecoding.Schema.Conversion

namespace GuidedDecoding

open Fragment (Sequence)

namespace Schema

/-- What a schema is made of, references followed. -/
inductive Part (resolve : List Char → Option Schema) : Schema → Schema → Prop where
  | annotated {ignored : List String} {schema : Schema} : Part resolve (.annotated ignored schema) schema
  | reference {target : String} {pointer : List Char} {schema : Schema} (inside : target.toList = '#' :: pointer)
    (found : resolve pointer = some schema) : Part resolve (.reference target) schema
  | union {members : List Schema} {schema : Schema} (member : schema ∈ members) : Part resolve (.union members) schema
  | types {alternatives : List Schema} {schema : Schema} (member : schema ∈ alternatives) :
    Part resolve (.types alternatives) schema
  | leading {leading : List Schema} {extra : Extra Schema} {count : Except SchemaFault CountBounds} {schema : Schema}
    (member : schema ∈ leading) : Part resolve (.array leading extra count) schema
  | item {leading : List Schema} {count : Except SchemaFault CountBounds} {schema : Schema} :
    Part resolve (.array leading (.schema schema) count) schema
  | property {properties : List (String × Bool × Schema)} {extra : Extra Schema} {key : String} {required : Bool}
    {schema : Schema} (member : (key, required, schema) ∈ properties) : Part resolve (.object properties extra) schema
  | member {properties : List (String × Bool × Schema)} {schema : Schema} :
    Part resolve (.object properties (.schema schema)) schema

def levels : Schema → Nat
  | .array _ _ _ | .object _ _ => 1
  | _ => 0

/-- A schema occurs in another one, however deep inside and behind however many references. -/
def Uses (resolve : List Char → Option Schema) : Schema → Schema → Prop := Relation.ReflTransGen (Part resolve)

/-- There is something to choose from, and counts are those of a repetition. Lists of types are left out. -/
def Fits : Schema → Prop
  | .enumeration values => values ≠ []
  | .union members => members ≠ []
  | .text (.ok count) => Quantifiable count.min count.max
  | .array _ _ (.ok count) => Quantifiable count.min count.max
  | _ => True

def moreItems (layout : Layout) (item : Fragment) (count : CountBounds) (fixed : Nat) : Fragment :=
  .bounded (layout.another [item]) (count.min - fixed) (count.max.map (· - fixed))

/-- The ways to write an array: there can be no item, all items are listed, more items follow the listed ones, or
no item is listed. -/
inductive ArrayForm (settings : SchemaSettings) (layout : Layout) (leading : List Fragment) (extra : Option Fragment)
    (count : CountBounds) : Sequence → Prop where
  | bare (unlisted : leading = []) (closed : extra = none ∨ count.max = some 0) :
    ArrayForm settings layout leading extra count layout.emptyArray
  | fixed (listed : leading ≠ []) (forbidden : extra = none) :
    ArrayForm settings layout leading extra count (layout.arrayOf (layout.separated leading))
  | extended {item : Fragment} (listed : leading ≠ []) (allowed : extra = some item) :
    ArrayForm settings layout leading extra count
      (layout.arrayOf (layout.separated leading ++ [moreItems layout item count leading.length]))
  | unlisted {item : Fragment} (unlisted : leading = []) (allowed : extra = some item) (inhabited : count.max ≠ some 0)
    (least : count.min ≠ 0) :
    ArrayForm settings layout leading extra count (layout.arrayOf [item, moreItems layout item count 1])
  | optional {item : Fragment} (unlisted : leading = []) (allowed : extra = some item) (inhabited : count.max ≠ some 0)
    (least : count.min = 0) :
    ArrayForm settings layout leading extra count
      (settings.orEmpty (layout.arrayOf [item, moreItems layout item count 1]) layout.emptyArray)

theorem arrayForm_of_arrayText {settings : SchemaSettings} {layout : Layout} {leading : List Fragment}
    {extra : Option Fragment} {count : CountBounds} {body : Sequence}
    (written : arrayText settings layout leading extra count = .ok body) :
    (extra = none → count.min ≤ leading.length) ∧ (∀ most ∈ count.max, leading.length ≤ most) ∧
      ArrayForm settings layout leading extra count body := by
  unfold arrayText at written
  dsimp only at written
  split at written
  next => cases written
  next consistent =>
    obtain rfl := Except.ok.inj written
    simp only [Option.isNone_iff_eq_none, not_or, not_and, not_lt, Option.any_eq_true, decide_eq_true_eq,
      not_exists] at consistent
    refine ⟨consistent.1, consistent.2, ?_⟩
    cases extra with
    | none =>
      cases leading with
      | nil => exact .bare rfl (.inl rfl)
      | cons => exact .fixed (by simp) rfl
    | some item =>
      cases leading with
      | nil =>
        dsimp only
        split_ifs with closed least
        · exact .bare rfl (.inr closed)
        · exact .optional rfl rfl closed least
        · exact .unlisted rfl rfl closed least
      | cons => exact .extended (by simp) rfl

end Schema

namespace Extra

variable {σ τ : Type}

def map (f : σ → τ) : Extra σ → Extra τ
  | forbidden => .forbidden
  | unspecified => .unspecified
  | schema s => .schema (f s)

def toList : Extra σ → List σ
  | schema s => [s]
  | _ => []

end Extra

namespace Conversion

/-- A schema inside another one, its body, and the name of the rule that stands for it. -/
structure Inner where
  schema : Schema
  body : Sequence
  name : String

def Inner.piece (inner : Inner) : Fragment := .rule inner.name

theorem part_array_iff {resolve : List Char → Option Schema} {leading : List Inner} {extra : Extra Inner}
    {count : Except SchemaFault CountBounds} {part : Schema} :
    Schema.Part resolve (.array (leading.map Inner.schema) (extra.map Inner.schema) count) part ↔
      ∃ i ∈ leading ++ extra.toList, i.schema = part := by
  constructor
  · generalize given : extra.map Inner.schema = further
    intro among
    cases among with
    | leading member =>
      obtain ⟨i, lead, rfl⟩ := List.mem_map.mp member
      exact ⟨i, List.mem_append_left _ lead, rfl⟩
    | item =>
      cases extra with
      | schema inner =>
        cases given
        exact ⟨inner, List.mem_append_right _ (List.mem_singleton_self inner), rfl⟩
      | _ => cases given
  · rintro ⟨i, member, rfl⟩
    rcases List.mem_append.mp member with lead | item
    · exact .leading (List.mem_map_of_mem lead)
    · cases extra with
      | schema inner =>
        obtain rfl := List.mem_singleton.mp item
        exact .item
      | _ => cases item

theorem part_object_iff {resolve : List Char → Option Schema} {properties : List (String × Bool × Inner)}
    {extra : Extra Inner} {part : Schema} :
    Schema.Part resolve (.object (properties.map fun p => (p.1, p.2.1, p.2.2.schema)) (extra.map Inner.schema)) part ↔
      ∃ i ∈ properties.map (·.2.2) ++ extra.toList, i.schema = part := by
  constructor
  · generalize given : extra.map Inner.schema = further
    intro among
    cases among with
    | property member =>
      obtain ⟨p, listed, same⟩ := List.mem_map.mp member
      cases same
      exact ⟨p.2.2, List.mem_append_left _ (List.mem_map_of_mem listed), rfl⟩
    | member =>
      cases extra with
      | schema inner =>
        cases given
        exact ⟨inner, List.mem_append_right _ (List.mem_singleton_self inner), rfl⟩
      | _ => cases given
  · rintro ⟨i, member, rfl⟩
    rcases List.mem_append.mp member with listed | further
    · obtain ⟨p, among, rfl⟩ := List.mem_map.mp listed
      exact .property (List.mem_map_of_mem (f := fun p => (p.1, p.2.1, p.2.2.schema)) among)
    · cases extra with
      | schema inner =>
        obtain rfl := List.mem_singleton.mp further
        exact .member
      | _ => cases further

def extraPiece (settings : SchemaSettings) : Extra Inner → Option Fragment
  | .forbidden => none
  | .unspecified => if settings.strict then none else some (.rule "basic_any")
  | .schema inner => some inner.piece

def memberOf (layout : Layout) (property : String × Bool × Inner) : Schema.Member :=
  ⟨layout.pair (.ofText (Json.quote property.1)) property.2.2.piece, property.2.1⟩

def extraPair (layout : Layout) (value : Fragment) : Sequence := layout.pair (.rule "basic_string") value

def morePairs (layout : Layout) (extra : Option Fragment) : Option Fragment :=
  extra.map fun value => Fragment.many (layout.another (extraPair layout value))

namespace State

def reference? (s : State) (target : String) : Option String :=
  if target == "#" then some "root" else s.references.lookup target

/-- A body that is a rule name needs no rule of its own. -/
def Names (s : State) (body : Sequence) (name : String) : Prop :=
  body = [.rule name] ∨ ⟨name, [body]⟩ ∈ s.rules.toList

/-- For each listed member what may follow it, with the rules that say so. -/
inductive Tails (s : State) (layout : Layout) (last : Fragment) : List Sequence → List Fragment → Prop where
  | none : Tails s layout last [] []
  | last {pair : Sequence} : Tails s layout last [pair] [last]
  | next {pair next : Sequence} {rest : List Sequence} {tail : Fragment} {later : List Fragment} {name : String}
    (after : Tails s layout last (next :: rest) (tail :: later))
    (rule : ⟨name, [[tail], layout.between ++ next ++ [tail]]⟩ ∈ s.rules.toList) :
    Tails s layout last (pair :: next :: rest) (.rule name :: tail :: later)

/-- The ways to write an object: some member is required, nothing can be a member, no member is listed, or any
listed member may be the first. -/
inductive ObjectForm (s : State) (settings : SchemaSettings) (layout : Layout) (members : List Schema.Member)
    (extra : Option Fragment) : Sequence → Prop where
  | anchored (required : members.any Schema.Member.required = true) : ObjectForm s settings layout members extra
      (layout.objectOf (Schema.membersUntil layout members ++ (morePairs layout extra).toList))
  | bare (unlisted : members = []) (forbidden : extra = none) :
    ObjectForm s settings layout members extra layout.emptyObject
  | unlisted {value : Fragment} (unlisted : members = []) (allowed : extra = some value) :
    ObjectForm s settings layout members extra (settings.orEmpty
      (layout.objectOf (extraPair layout value ++ (morePairs layout extra).toList)) layout.emptyObject)
  | chained {tails : List Fragment} (listed : members ≠ []) (optional : members.any Schema.Member.required = false)
    (follow : s.Tails layout ((morePairs layout extra).getD .empty) (members.map Schema.Member.pair) tails) :
    ObjectForm s settings layout members extra (settings.orEmpty
      (layout.objectOf [Schema.membersFrom (members.map Schema.Member.pair) tails (extra.map (extraPair layout))
        ((morePairs layout extra).getD .empty)]) layout.emptyObject)

end State

section

variable (settings : SchemaSettings) (s : State)

/-- A body writes a schema inside `depth` arrays and objects, given the rules and references of a state. -/
inductive Renders : Nat → Schema → Sequence → Prop where
  | anything {depth : Nat} : Renders depth .anything [.rule "basic_any"]
  | annotated {depth : Nat} {ignored : List String} {schema : Schema} {body : Sequence}
    (inner : Renders depth schema body) : Renders depth (.annotated ignored schema) body
  | reference {depth : Nat} {target name : String} (known : s.reference? target = some name) :
    Renders depth (.reference target) [.rule name]
  | constant {depth : Nat} {value : Json} : Renders depth (.constant value) [valueText value]
  | enumeration {depth : Nat} {values : List Json} :
    Renders depth (.enumeration values) [.group (values.map fun value => [valueText value])]
  | union {depth : Nat} {members : List Inner} (each : ∀ m ∈ members, Renders depth m.schema m.body)
    (named : ∀ m ∈ members, s.Names m.body m.name) :
    Renders depth (.union (members.map Inner.schema)) [.group (members.map fun m => [m.piece])]
  | types {depth : Nat} {alternatives : List (Schema × Sequence)} (each : ∀ a ∈ alternatives, Renders depth a.1 a.2) :
    Renders depth (.types (alternatives.map Prod.fst)) [.group (alternatives.map Prod.snd)]
  | basic {depth : Nat} {type : BasicType} : Renders depth (.basic type) [.rule (basicRule type)]
  | text {depth : Nat} {count : CountBounds} : Renders depth (.text (.ok count)) (stringText count)
  | array {depth : Nat} {leading : List Inner} {extra : Extra Inner} {count : CountBounds} {body : Sequence}
    (each : ∀ i ∈ leading ++ extra.toList, Renders (depth + 1) i.schema i.body)
    (named : ∀ i ∈ leading ++ extra.toList, s.Names i.body i.name)
    (written : Schema.arrayText settings (settings.layout depth) (leading.map Inner.piece) (extraPiece settings extra)
      count = .ok body) :
    Renders depth (.array (leading.map Inner.schema) (extra.map Inner.schema) (.ok count)) body
  | object {depth : Nat} {properties : List (String × Bool × Inner)} {extra : Extra Inner} {body : Sequence}
    (each : ∀ i ∈ properties.map (·.2.2) ++ extra.toList, Renders (depth + 1) i.schema i.body)
    (named : ∀ i ∈ properties.map (·.2.2) ++ extra.toList, s.Names i.body i.name)
    (written : s.ObjectForm settings (settings.layout depth) (properties.map (memberOf (settings.layout depth)))
      (extraPiece settings extra) body) :
    Renders depth (.object (properties.map fun p => (p.1, p.2.1, p.2.2.schema)) (extra.map Inner.schema)) body

end

end Conversion

end GuidedDecoding
