import Mathlib
import GuidedDecoding.Json.Pointer

namespace GuidedDecoding.Json

/-- No object in a value has a key twice. -/
inductive Distinct : Json → Prop where
  | null : Distinct .null
  | bool {b : Bool} : Distinct (.bool b)
  | number {n : JsonNumber} : Distinct (.number n)
  | string {text : String} : Distinct (.string text)
  | array {items : List Json} (each : ∀ item ∈ items, Distinct item) : Distinct (.array items)
  | object {members : List (String × Json)} (keys : (members.map Prod.fst).Nodup) (each : ∀ m ∈ members, Distinct m.2) :
    Distinct (.object members)

section

variable {key : String} {value : Json} {members : List (String × Json)}

theorem mem_insert {m : String × Json} (member : m ∈ insert key value members) : m = (key, value) ∨ m ∈ members := by
  induction members with
  | nil => exact .inl (List.mem_singleton.mp member)
  | cons first rest ih =>
    rw [insert] at member
    split_ifs at member with same
    · subst same
      rcases List.mem_cons.mp member with rfl | other
      · exact .inl rfl
      · exact .inr (List.mem_cons_of_mem _ other)
    · rcases List.mem_cons.mp member with rfl | later
      · exact .inr List.mem_cons_self
      · exact (ih later).imp_right (List.mem_cons_of_mem _)

theorem nodup_keys_insert (keys : (members.map Prod.fst).Nodup) : ((insert key value members).map Prod.fst).Nodup := by
  induction members with
  | nil => exact List.nodup_singleton key
  | cons first rest ih =>
    rw [List.map_cons, List.nodup_cons] at keys
    rw [insert]
    split_ifs with same
    · exact List.nodup_cons.mpr keys
    · refine List.nodup_cons.mpr ⟨fun again => ?_, ih keys.2⟩
      obtain ⟨m, member, named⟩ := List.mem_map.mp again
      rcases mem_insert member with rfl | before
      · exact same named.symm
      · exact keys.1 (List.mem_map.mpr ⟨m, before, named⟩)

end

mutual

theorem distinct_ofTree? : ∀ (depth : Nat) (tree : JsonTree) {value : Json}, ofTree? depth tree = some value →
    value.Distinct
  | depth, .null, value, read => by
    rw [ofTree?] at read
    cases read
    exact .null
  | depth, .bool b, value, read => by
    rw [ofTree?] at read
    cases read
    exact .bool
  | depth, .number text, value, read => by
    rw [ofTree?] at read
    obtain ⟨n, _, rfl⟩ := Option.map_eq_some_iff.mp read
    exact .number
  | depth, .string parts, value, read => by
    rw [ofTree?] at read
    obtain ⟨text, _, rfl⟩ := Option.map_eq_some_iff.mp read
    exact .string
  | depth, .array items, value, read => by
    rw [ofTree?] at read
    split_ifs at read
    obtain ⟨values, known, rfl⟩ := Option.map_eq_some_iff.mp read
    exact .array (distinct_itemsOf? (depth - 1) items known)
  | depth, .object members, value, read => by
    rw [ofTree?] at read
    split_ifs at read
    obtain ⟨values, known, rfl⟩ := Option.map_eq_some_iff.mp read
    have start : (Json.object []).Distinct := .object List.nodup_nil (List.forall_mem_nil _)
    exact distinct_membersOf? (depth - 1) members start known

theorem distinct_itemsOf? : ∀ (depth : Nat) (items : List JsonTree) {values : List Json},
    itemsOf? depth items = some values → ∀ value ∈ values, value.Distinct
  | depth, [], values, read => by
    rw [itemsOf?] at read
    cases read
    exact List.forall_mem_nil _
  | depth, item :: rest, values, read => by
    rw [itemsOf?] at read
    obtain ⟨value, known, read⟩ := Option.bind_eq_some_iff.mp read
    obtain ⟨others, later, read⟩ := Option.bind_eq_some_iff.mp read
    cases read
    exact List.forall_mem_cons.mpr ⟨distinct_ofTree? depth item known, distinct_itemsOf? depth rest later⟩

theorem distinct_membersOf? : ∀ (depth : Nat) (members : List (List StringPart × JsonTree))
    {done values : List (String × Json)}, (Json.object done).Distinct → membersOf? depth done members = some values →
    (Json.object values).Distinct
  | depth, [], done, values, distinct, read => by
    rw [membersOf?] at read
    cases read
    exact distinct
  | depth, (key, tree) :: rest, done, values, distinct, read => by
    rw [membersOf?] at read
    obtain ⟨name, _, read⟩ := Option.bind_eq_some_iff.mp read
    obtain ⟨value, known, read⟩ := Option.bind_eq_some_iff.mp read
    cases distinct with
    | object keys each =>
      refine distinct_membersOf? depth rest (.object (nodup_keys_insert keys) fun m member => ?_) read
      rcases mem_insert member with rfl | before
      · exact distinct_ofTree? depth tree known
      · exact each m before

end

theorem distinct_of_read? {text : String} {value : Json} (read : read? text = some value) : value.Distinct := by
  obtain ⟨tree, _, read⟩ := Option.bind_eq_some_iff.mp read
  exact distinct_ofTree? maxDepth tree read

theorem Distinct.child {value child : Json} (distinct : value.Distinct) {key : List Char}
    (found : child? key value = some child) : child.Distinct := by
  cases distinct with
  | array each =>
    obtain ⟨index, _, found⟩ := Option.bind_eq_some_iff.mp found
    exact each child (List.mem_of_getElem? found)
  | object _ each =>
    obtain ⟨m, first, rfl⟩ := Option.map_eq_some_iff.mp found
    exact each m (List.mem_of_find?_eq_some first)
  | _ => cases found

theorem pointer?_induction {motive : Json → Prop}
    (step : ∀ {value child : Json} {key : List Char}, child? key value = some child → motive value → motive child)
    {value inner : Json} {pointer : List Char} (found : value.pointer? pointer = some inner) (start : motive value) :
    motive inner := by
  unfold pointer? at found
  split at found
  · cases found
    exact start
  · generalize splitKeys _ = keys at found
    induction keys generalizing value with
    | nil =>
      cases found
      exact start
    | cons key keys ih =>
      rw [List.foldlM_cons] at found
      obtain ⟨child, first, rest⟩ := Option.bind_eq_some_iff.mp found
      exact ih (step first start) rest
  · cases found

theorem Distinct.pointer {value inner : Json} (distinct : value.Distinct) {pointer : List Char}
    (found : value.pointer? pointer = some inner) : inner.Distinct :=
  pointer?_induction (fun first known => known.child first) found distinct

mutual

def same : Json → Json → Bool
  | .null, .null => true
  | .bool a, .bool b => a == b
  | .number a, .number b => a == b
  | .string a, .string b => a == b
  | .array a, .array b => sameItems a b
  | .object a, .object b => sameMembers a b
  | _, _ => false

def sameItems : List Json → List Json → Bool
  | [], [] => true
  | a :: one, b :: other => same a b && sameItems one other
  | _, _ => false

def sameMembers : List (String × Json) → List (String × Json) → Bool
  | [], [] => true
  | (key, a) :: one, (name, b) :: other => key == name && (same a b && sameMembers one other)
  | _, _ => false

end

mutual

theorem same_iff : ∀ one other : Json, same one other = true ↔ one = other
  | .null, other => by cases other <;> simp [same]
  | .bool a, other => by cases other <;> simp [same]
  | .number a, other => by cases other <;> simp [same]
  | .string a, other => by cases other <;> simp [same]
  | .array a, other => by cases other <;> simp [same, sameItems_iff]
  | .object a, other => by cases other <;> simp [same, sameMembers_iff]

theorem sameItems_iff : ∀ one other : List Json, sameItems one other = true ↔ one = other
  | [], other => by cases other <;> simp [sameItems]
  | a :: one, other => by cases other <;> simp [sameItems, same_iff, sameItems_iff]

theorem sameMembers_iff : ∀ one other : List (String × Json), sameMembers one other = true ↔ one = other
  | [], other => by cases other <;> simp [sameMembers]
  | (key, a) :: one, [] => by simp [sameMembers]
  | (key, a) :: one, (name, b) :: other => by simp [sameMembers, same_iff, sameMembers_iff, and_assoc]

end

instance : DecidableEq Json := fun one other => decidable_of_iff _ (same_iff one other)

end GuidedDecoding.Json
