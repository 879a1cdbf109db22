import Mathlib
import GuidedDecoding.Proofs.Schema.Document

namespace GuidedDecoding

open Fragment (Sequence)

namespace Conversion

/-- The body for a schema, with all references expanded that have not been yet. How to go on behind `nesting`
expansions inside one another is up to `deeper`. -/
def unrolled (settings : SchemaSettings) (resolve : List Char → Option Schema)
    (deeper : String → Nat → Schema → Conversion Sequence) : Nat → String → Nat → Schema → Conversion Sequence
  | 0 => deeper
  | nesting + 1 => body settings fun rule target depth =>
    referenceText resolve (fun schema name => unrolled settings resolve deeper nesting name depth schema) rule target

def State.expansions (s : State) : List String := s.references.map Prod.fst

/-- No reference is expanded twice, only the targets are, and no more than `count` of them are not. -/
structure State.Leaves (targets : List String) (count : Nat) (s : State) : Prop where
  once : s.expansions.Nodup
  known : s.expansions ⊆ targets
  left : targets.dedup.length ≤ s.expansions.length + count

variable {targets : List String} {count : Nat} {s : State} {α β : Type}

theorem State.Leaves.mono {more : Nat} (leaves : s.Leaves targets count) (most : count ≤ more) : s.Leaves targets more :=
  ⟨leaves.once, leaves.known, leaves.left.trans (Nat.add_le_add_left most _)⟩

theorem State.Leaves.of_eq {s' : State} (leaves : s.Leaves targets count) (same : s'.references = s.references) :
    s'.Leaves targets count := by
  have expansions : s'.expansions = s.expansions := congrArg (List.map Prod.fst) same
  exact ⟨expansions ▸ leaves.once, expansions ▸ leaves.known, expansions ▸ leaves.left⟩

/-- As long as a target has not been expanded some are left, and expanding it leaves one less. -/
theorem State.Leaves.expand (leaves : s.Leaves targets count) {target : String} (among : target ∈ targets)
    (new : target ∉ s.expansions) : ∃ less, count = less + 1 ∧ ∀ s' : State, s'.expansions = target :: s.expansions →
      s'.Leaves targets less := by
  have once : (target :: s.expansions).Nodup := List.nodup_cons.mpr ⟨new, leaves.once⟩
  have known : target :: s.expansions ⊆ targets := List.cons_subset.mpr ⟨among, leaves.known⟩
  have room : (target :: s.expansions).length ≤ targets.dedup.length :=
    (once.subperm fun other member => List.mem_dedup.mpr (known member)).length_le
  have left := leaves.left
  rw [List.length_cons] at room
  refine ⟨count - 1, by omega, fun s' same => ⟨same ▸ once, same ▸ known, ?_⟩⟩
  rw [same, List.length_cons]
  omega

def Keeps (conversion : Conversion α) : Prop := ∀ s, (conversion.run.run s).2.references = s.references

theorem run_bind_eq (conversion : Conversion α) (next : α → Conversion β) (s : State) :
    (conversion >>= next).run.run s =
      match conversion.run.run s with
      | (.ok a, middle) => (next a).run.run middle
      | (.error fault, middle) => (.error fault, middle) := by
  rw [ExceptT.run_bind, StateT.run_bind]
  rcases conversion.run.run s with ⟨_ | _, _⟩ <;> rfl

theorem run_get (next : State → Conversion α) (s : State) : (get >>= next).run.run s = (next s).run.run s := rfl

theorem run_modify (change : State → State) (next : Unit → Conversion α) (s : State) :
    (modify change >>= next).run.run s = (next ()).run.run (change s) := rfl

theorem run_freshName (base : String) (next : String → Conversion α) (s : State) :
    (freshName base >>= next).run.run s =
      (next (Names.fresh s.taken base)).run.run { s with taken := s.taken.insert (Names.fresh s.taken base) } := rfl

theorem Keeps.bind {conversion : Conversion α} {next : α → Conversion β} (first : Keeps conversion)
    (second : ∀ a, Keeps (next a)) : Keeps (conversion >>= next) := by
  intro s
  rw [run_bind_eq]
  have kept := first s
  split
  next a middle ran =>
    rw [ran] at kept
    rw [second a middle]
    exact kept
  next fault middle ran =>
    rw [ran] at kept
    exact kept

theorem keeps_pure (a : α) : Keeps (pure a) := fun _ => rfl

theorem keeps_fail (rule : String) (fault : SchemaFault) : Keeps (fail rule fault : Conversion α) := fun _ => rfl

theorem keeps_orFail (rule : String) (result : Except SchemaFault α) : Keeps (orFail rule result) := by
  cases result <;> exact fun _ => rfl

theorem keeps_report (event : Event) : Keeps (report event) := fun _ => rfl

theorem keeps_reports (keywords : List String) (rule : String) :
    Keeps (keywords.forM fun keyword => report (.ignoredKeyword keyword rule)) := by
  induction keywords with
  | nil => exact keeps_pure _
  | cons keyword keywords ih => exact (keeps_report _).bind fun _ => ih

theorem keeps_takeBounds (rule : String) (bounds : Except SchemaFault CountBounds) : Keeps (takeBounds rule bounds) := by
  refine (keeps_orFail rule bounds).bind fun taken => ?_
  dsimp only
  split
  · exact (keeps_report _).bind fun _ => keeps_pure _
  · exact keeps_pure _

theorem keeps_nameRule (base : String) (alternatives : List Sequence) : Keeps (nameRule base alternatives) := fun _ => rfl

theorem keeps_asRule (base : String) (body : Sequence) : Keeps (asRule base body) := by
  unfold asRule
  split
  · exact keeps_pure _
  · exact keeps_nameRule _ _

theorem keeps_tails (layout : Layout) (base : String) (last : Fragment) (place : Nat) (pairs : List Sequence) :
    Keeps (tails layout base last place pairs) := by
  induction pairs generalizing place with
  | nil => exact keeps_pure _
  | cons pair pairs ih =>
    cases pairs with
    | nil => exact keeps_pure _
    | cons next rest => exact (ih (place + 1)).bind fun _ => (keeps_nameRule _ _).bind fun _ => keeps_pure _

theorem keeps_objectText (settings : SchemaSettings) (layout : Layout) (base : String) (members : List Schema.Member)
    (extra : Option Fragment) : Keeps (objectText settings layout base members extra) := by
  unfold objectText
  dsimp only
  split_ifs
  · exact keeps_pure _
  · split
    · exact keeps_pure _
    · exact keeps_pure _
    · exact (keeps_tails _ _ _ _ _).bind fun _ => keeps_pure _

/-- From all states with no more than so many targets left, two conversions come to the same and leave no more. -/
def Alike (targets : List String) (count : Nat) (conversion other : Conversion α) : Prop :=
  ∀ s : State, s.Leaves targets count →
    conversion.run.run s = other.run.run s ∧ (conversion.run.run s).2.Leaves targets count

theorem Keeps.alike {conversion : Conversion α} (keeps : Keeps conversion) : Alike targets count conversion conversion :=
  fun s leaves => ⟨rfl, leaves.of_eq (keeps s)⟩

theorem Alike.bind {conversion other : Conversion α} {next further : α → Conversion β}
    (first : Alike targets count conversion other) (second : ∀ a, Alike targets count (next a) (further a)) :
    Alike targets count (conversion >>= next) (other >>= further) := by
  intro s leaves
  obtain ⟨same, left⟩ := first s leaves
  rw [run_bind_eq, run_bind_eq, ← same]
  split
  next a middle ran =>
    rw [ran] at left
    exact second a middle left
  next fault middle ran =>
    rw [ran] at left
    exact ⟨rfl, left⟩

theorem lookup_eq_none_iff_expansions {target : String} : s.references.lookup target = none ↔ target ∉ s.expansions := by
  rw [List.lookup_eq_none_iff, State.expansions, List.mem_map]
  constructor
  · rintro apart ⟨entry, member, rfl⟩
    simpa using apart entry member
  · intro apart entry member
    exact bne_iff_ne.mpr fun same => apart ⟨entry, member, same.symm⟩

theorem run_referenceText_of_expanded (resolve : List Char → Option Schema)
    (expand other : Schema → String → Conversion Sequence) (rule : String) {target : String} (met : target ∈ s.expansions) :
    (referenceText resolve expand rule target).run.run s = (referenceText resolve other rule target).run.run s := by
  have known : s.references.lookup target ≠ none := fun none => lookup_eq_none_iff_expansions.mp none met
  unfold referenceText
  split_ifs
  · rfl
  · rw [run_get, run_get]
    cases given : s.references.lookup target with
    | none => exact absurd given known
    | some name => rfl

theorem alike_referenceText {resolve : List Char → Option Schema} {expand other : Schema → String → Conversion Sequence}
    (rule : String) {target : String} (among : target ∈ targets)
    (alike : ∀ less, count = less + 1 → ∀ pointer schema, target.toList = '#' :: pointer → resolve pointer = some schema →
      ∀ name, Alike targets less (expand schema name) (other schema name)) :
    Alike targets count (referenceText resolve expand rule target) (referenceText resolve other rule target) := by
  intro s leaves
  unfold referenceText
  split_ifs with self
  · exact (keeps_pure _).alike s leaves
  · rw [run_get, run_get]
    cases given : s.references.lookup target with
    | some name => exact (keeps_pure _).alike s leaves
    | none =>
      obtain ⟨less, rfl, opened⟩ := leaves.expand among (lookup_eq_none_iff_expansions.mp given)
      dsimp only
      split
      next pointer inside =>
        cases found : resolve pointer with
        | none => exact (keeps_fail _ _).alike s leaves
        | some schema =>
          dsimp only
          simp only [run_freshName, run_modify]
          generalize Names.fresh s.taken _ = name
          have written : Alike targets less
              (expand schema name >>= fun body => addRule name [body] >>= fun _ => pure [Fragment.rule name])
              (other schema name >>= fun body => addRule name [body] >>= fun _ => pure [Fragment.rule name]) :=
            (alike less rfl pointer schema inside found name).bind fun body =>
              Keeps.alike (Keeps.bind (fun _ => rfl) fun _ => keeps_pure _)
          obtain ⟨same, left⟩ := written { s with taken := s.taken.insert name, references := (target, name) :: s.references }
            (opened _ rfl)
          exact ⟨same, left.mono (Nat.le_succ less)⟩
      next => exact (keeps_fail _ _).alike s leaves

def Course.TreatsAlike (course : Course) (targets : List String) (count : Nat)
    (reference other : String → String → Nat → Conversion Sequence) : Prop :=
  ∀ rule target depth, course.met depth (.reference target) →
    Alike targets count (reference rule target depth) (other rule target depth)

section

variable {course : Course} {reference other : String → String → Nat → Conversion Sequence}

mutual

theorem alike_body (alike : course.TreatsAlike targets count reference other) :
    ∀ (schema : Schema) {depth : Nat}, course.met depth schema → ∀ rule : String,
    Alike targets count (body course.settings reference rule depth schema) (body course.settings other rule depth schema)
  | .anything, _, _, _ => by
    rw [body, body]
    exact (keeps_pure _).alike
  | .unsupported fault, _, _, rule => by
    rw [body, body]
    exact (keeps_fail rule fault).alike
  | .annotated ignored schema, _, met, rule => by
    rw [body, body]
    exact (keeps_reports ignored rule).alike.bind fun _ => alike_body alike schema (course.inherited met .annotated) rule
  | .reference target, depth, met, rule => by
    rw [body, body]
    exact alike rule target depth met
  | .constant value, _, _, _ => by
    rw [body, body]
    exact (keeps_pure _).alike
  | .enumeration values, _, _, _ => by
    rw [body, body]
    exact (keeps_pure _).alike
  | .union members, _, met, rule => by
    rw [body, body]
    exact (alike_numbered alike members (fun _ member => course.inherited met (.union member)) rule "_case_" 0).bind
      fun _ => (keeps_pure _).alike
  | .types alternatives, _, met, rule => by
    rw [body, body]
    exact (alike_bodies alike alternatives (fun _ member => course.inherited met (.types member)) rule).bind
      fun _ => (keeps_pure _).alike
  | .basic type, _, _, _ => by
    rw [body, body]
    exact (keeps_pure _).alike
  | .text length, _, _, rule => by
    rw [body, body]
    exact (keeps_takeBounds rule length).alike.bind fun _ => (keeps_pure _).alike
  | .array leading extra bounds, depth, met, rule => by
    rw [body, body]
    refine (alike_numbered alike leading (fun _ member => course.inherited met (.leading member)) rule "_item_" 0).bind fun _ => ?_
    refine (alike_extraRule alike extra (fun _ same => course.inherited met (same ▸ .item)) (rule ++ "_items")).bind fun _ => ?_
    exact (keeps_takeBounds rule bounds).alike.bind fun _ => (keeps_orFail rule _).alike
  | .object properties extra, depth, met, rule => by
    rw [body, body]
    have among (p : String × Bool × Schema) (member : p ∈ properties) : course.met (depth + 1) p.2.2 :=
      course.inherited met (@Schema.Part.property _ _ _ p.1 p.2.1 _ member)
    refine (alike_extraRule alike extra (fun _ same => course.inherited met (same ▸ .member)) (rule ++ "_addl")).bind fun _ => ?_
    refine (alike_listed alike properties among (course.settings.layout depth) rule 0).bind fun _ => ?_
    exact (keeps_objectText _ _ _ _ _).alike

theorem alike_numbered (alike : course.TreatsAlike targets count reference other) :
    ∀ (schemas : List Schema) {depth : Nat}, (∀ schema ∈ schemas, course.met depth schema) →
    ∀ (rule suffix : String) (place : Nat), Alike targets count (numbered course.settings reference rule suffix depth place schemas)
      (numbered course.settings other rule suffix depth place schemas)
  | [], _, _, _, _, _ => by
    rw [numbered, numbered]
    exact (keeps_pure _).alike
  | schema :: rest, _, met, rule, suffix, place => by
    rw [numbered, numbered]
    refine (alike_body alike schema (met schema (by simp)) _).bind fun body => (keeps_asRule _ body).alike.bind fun _ => ?_
    exact (alike_numbered alike rest (fun schema member => met schema (by simp [member])) rule suffix (place + 1)).bind
      fun _ => (keeps_pure _).alike

theorem alike_bodies (alike : course.TreatsAlike targets count reference other) :
    ∀ (schemas : List Schema) {depth : Nat}, (∀ schema ∈ schemas, course.met depth schema) →
    ∀ rule : String, Alike targets count (bodies course.settings reference rule depth schemas)
      (bodies course.settings other rule depth schemas)
  | [], _, _, _ => by
    rw [bodies, bodies]
    exact (keeps_pure _).alike
  | schema :: rest, _, met, rule => by
    rw [bodies, bodies]
    refine (alike_body alike schema (met schema (by simp)) rule).bind fun _ => ?_
    exact (alike_bodies alike rest (fun schema member => met schema (by simp [member])) rule).bind fun _ => (keeps_pure _).alike

theorem alike_extraRule (alike : course.TreatsAlike targets count reference other) :
    ∀ (extra : Extra Schema) {depth : Nat}, (∀ schema, extra = .schema schema → course.met depth schema) →
    ∀ rule : String, Alike targets count (extraRule course.settings reference rule depth extra)
      (extraRule course.settings other rule depth extra)
  | .forbidden, _, _, _ => by
    rw [extraRule, extraRule]
    exact (keeps_pure _).alike
  | .unspecified, _, _, _ => by
    rw [extraRule, extraRule]
    exact (keeps_pure _).alike
  | .schema schema, _, met, rule => by
    rw [extraRule, extraRule]
    exact (alike_body alike schema (met schema rfl) rule).bind fun body => (keeps_asRule rule body).alike.bind fun _ => (keeps_pure _).alike

theorem alike_listed (alike : course.TreatsAlike targets count reference other) :
    ∀ (properties : List (String × Bool × Schema)) {depth : Nat},
    (∀ p ∈ properties, course.met depth p.2.2) → ∀ (layout : Layout) (rule : String) (place : Nat),
    Alike targets count (listed course.settings reference layout rule depth place properties)
      (listed course.settings other layout rule depth place properties)
  | [], _, _, _, _, _ => by
    rw [listed, listed]
    exact (keeps_pure _).alike
  | (key, required, schema) :: rest, _, met, layout, rule, place => by
    rw [listed, listed]
    refine (alike_body alike schema (met (key, required, schema) (by simp)) _).bind fun body => (keeps_asRule _ body).alike.bind fun _ => ?_
    exact (alike_listed alike rest (fun p member => met p (by simp [member])) layout rule (place + 1)).bind
      fun _ => (keeps_pure _).alike

end

end

/-- If no more targets are left than expansions may nest, no expansion is stopped by that: it does not matter what
would be done about deeper ones. -/
theorem alike_unrolled {course : Course} (known : ∀ depth target, course.met depth (.reference target) → target ∈ targets)
    (deeper : String → Nat → Schema → Conversion Sequence) {nesting more : Nat} (enough : count ≤ nesting)
    (also : count ≤ more) (rule : String) {depth : Nat} {schema : Schema} (met : course.met depth schema) :
    Alike targets count (unrolled course.settings course.resolve deeper (more + 1) rule depth schema)
      (expanded course.settings course.resolve nesting rule depth schema) := by
  induction count generalizing nesting more rule depth schema with
  | zero =>
    -- nothing is left to be expanded, so it does not matter either that no more than nothing may nest
    cases nesting <;> exact alike_body
      (fun rule target depth met => alike_referenceText rule (known depth target met) (by simp)) schema met rule
  | succ count ih =>
    obtain ⟨nesting, rfl⟩ : ∃ n, nesting = n + 1 := ⟨nesting - 1, by omega⟩
    obtain ⟨more, rfl⟩ : ∃ n, more = n + 1 := ⟨more - 1, by omega⟩
    refine alike_body (fun rule target depth met => alike_referenceText rule (known depth target met) ?_) schema met rule
    intro less same pointer schema inside found name
    obtain rfl : count = less := by simpa using same
    exact ih (by omega) (by omega) name (course.inherited met (.reference inside found))

section

variable (settings : SchemaSettings) (json : Json)

/-- The conversion of a JSON schema comes to an end. Nothing depends on what would be done behind more expansions inside
one another than there are different references: each is expanded at most once, whether the conversion succeeds or not.
And the search for a name ends with the first one that is not taken. -/
structure Ends : Prop where
  bounded : ∀ (deeper : String → Nat → Schema → Conversion Sequence) (nesting : Nat),
    json.references.dedup.length < nesting →
      (unrolled settings (Schema.resolver json) deeper nesting "root" 0 (Schema.ofJson json) >>=
        fun root => addRule "root" [root]).run.run {} = (Conversion.ofJson settings json).run.run {}
  once : ((Conversion.ofJson settings json).run.run {}).2.expansions.Nodup
  known : ((Conversion.ofJson settings json).run.run {}).2.expansions ⊆ json.references
  again : ∀ (expand other : Schema → String → Conversion Sequence) (rule target : String) (s : State),
    target ∈ s.expansions → (referenceText (Schema.resolver json) expand rule target).run.run s =
      (referenceText (Schema.resolver json) other rule target).run.run s
  named : ∀ (taken : Std.TreeSet String) (base : String), ∃ n ≤ taken.size,
    Names.fresh taken base = Names.candidate base n ∧ Names.candidate base n ∉ taken ∧
      ∀ m < n, Names.candidate base m ∈ taken

/-- All JSON values are converted in finitely many steps or refused, however their references lead to each other. -/
theorem ofJson_ends : Ends settings json := by
  have start : State.Leaves json.references json.references.dedup.length {} :=
    ⟨List.nodup_nil, List.nil_subset _, by simp⟩
  have known (depth : Nat) (target : String) (met : (documentCourse settings json).met depth (.reference target)) :
      target ∈ json.references := Schema.mem_references_of_uses met rfl
  have alike (deeper : String → Nat → Schema → Conversion Sequence) {more : Nat} (enough : json.references.dedup.length ≤ more) :
      Alike json.references json.references.dedup.length
        (unrolled settings (Schema.resolver json) deeper (more + 1) "root" 0 (Schema.ofJson json) >>=
          fun root => addRule "root" [root])
        (Conversion.ofJson settings json) :=
    (alike_unrolled known deeper (List.dedup_sublist _).length_le enough "root" .refl).bind
      fun root => Keeps.alike fun _ => rfl
  obtain ⟨same, left⟩ := alike (fun _ _ _ => fail "root" .nothing) le_rfl {} start
  rw [same] at left
  refine ⟨fun deeper nesting enough => ?_, left.once, left.known,
    fun expand other rule target s met => run_referenceText_of_expanded _ expand other rule met, Names.fresh_eq_first⟩
  obtain ⟨more, rfl⟩ : ∃ more, nesting = more + 1 := ⟨nesting - 1, by omega⟩
  exact (alike deeper (by omega) {} start).1

end

end Conversion

end GuidedDecoding
