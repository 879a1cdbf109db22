import Mathlib
import GuidedDecoding.Proofs.Grammar.Resolution

namespace GuidedDecoding

theorem getElem?_of_mapM {ε α β : Type} {f : α → Except ε β} {items : List α} {results : List β}
    (h : items.mapM f = .ok results) {k : Nat} {a : α} (found : items[k]? = some a) :
    ∃ b, results[k]? = some b ∧ f a = .ok b := by
  induction items generalizing results k with
  | nil => simp at found
  | cons item rest ih =>
    rw [List.mapM_cons] at h
    obtain ⟨b, first, h⟩ := of_bind_eq_ok h
    obtain ⟨others, later, h⟩ := of_bind_eq_ok h
    cases h
    cases k with
    | zero =>
      cases found
      exact ⟨b, rfl, first⟩
    | succ k => exact ih later found

theorem exists_mapM {ε α β : Type} {f : α → Except ε β} {items : List α}
    (each : ∀ a ∈ items, ∃ b, f a = .ok b) : ∃ results, items.mapM f = .ok results := by
  induction items with
  | nil => exact ⟨[], rfl⟩
  | cons item rest ih =>
    obtain ⟨b, first⟩ := each item (by simp)
    obtain ⟨others, later⟩ := ih fun a member => each a (by simp [member])
    exact ⟨b :: others, by rw [List.mapM_cons, first, later]; rfl⟩

theorem mapM_eq_ok {ε α β : Type} {f : α → Except ε β} {g : α → β} {items : List α}
    (each : ∀ a ∈ items, f a = .ok (g a)) : items.mapM f = .ok (items.map g) := by
  induction items with
  | nil => rfl
  | cons item rest ih =>
    rw [List.mapM_cons, each item (by simp), ih fun a member => each a (by simp [member])]
    rfl

namespace Expr

variable {ref ref' ε : Type} {target : ref → Except ε ref'}

theorem exists_resolve {known : ref → Prop} (finds : ∀ r, known r → ∃ r', target r = .ok r') {e : Expr ref}
    (refers : e.Every (Refers known)) : ∃ e', e.resolve target = .ok e' := by
  have all {items : List (Expr ref)} (each : ∀ e ∈ items, ∃ e', e.resolve target = .ok e') :
      ∃ results, resolveAll target items = .ok results := by
    induction items with
    | nil => exact ⟨[], rfl⟩
    | cons e rest ih =>
      obtain ⟨first, head⟩ := each e (by simp)
      obtain ⟨others, tail⟩ := ih fun m member => each m (by simp [member])
      exact ⟨first :: others, by rw [resolveAll, head, tail]; rfl⟩
  induction e using structural with
  | empty => exact ⟨.empty, by rw [resolve]⟩
  | literal bytes =>
    cases bytes with
    | nil => exact ⟨.empty, by rw [resolve]⟩
    | cons b bytes => exact ⟨.literal (b :: bytes), by rw [resolve]; simp⟩
  | charClass negated ranges => exact ⟨.charClass negated ranges, by rw [resolve]⟩
  | rule r =>
    obtain ⟨r', found⟩ := finds r refers.here
    exact ⟨.rule r', by rw [resolve, found]; rfl⟩
  | sequence items ih =>
    obtain ⟨results, found⟩ := all fun e member => ih e member (refers.inside e member)
    exact ⟨.sequence results, by rw [resolve, found]; rfl⟩
  | choice alternatives ih =>
    obtain ⟨results, found⟩ := all fun e member => ih e member (refers.inside e member)
    exact ⟨.choice results, by rw [resolve, found]; rfl⟩
  | repetition body min max ih =>
    obtain ⟨result, found⟩ := ih refers.body
    exact ⟨.repetition result min max, by rw [resolve, found]; rfl⟩

end Expr

namespace Grammar

theorem getElem?_of_numberFrom {index result : NameIndex} {next : RuleId} {names : List String}
    (numbered : numberFrom index next names = .ok result) {name : String} {r : RuleId} :
    result[name]? = some r ↔ index[name]? = some r ∨ ∃ k, names[k]? = some name ∧ r = next + k := by
  induction names generalizing index next with
  | nil =>
    cases numbered
    simp
  | cons first rest ih =>
    rw [numberFrom] at numbered
    split at numbered
    next => cases numbered
    next new =>
      have missing : index[first]? = none :=
        Std.TreeMap.getElem?_eq_none (mt Std.TreeMap.mem_iff_contains.mp new)
      rw [ih numbered, Std.TreeMap.getElem?_insert]
      constructor
      · intro h
        rcases h with here | ⟨k, found, rfl⟩
        · split at here
          next same =>
            cases here
            obtain rfl := Std.LawfulEqOrd.compare_eq_iff_eq.mp same
            exact .inr ⟨0, rfl, rfl⟩
          next => exact .inl here
        · exact .inr ⟨k + 1, found, by rw [Nat.add_assoc, Nat.add_comm 1]⟩
      · intro h
        rcases h with before | ⟨k, found, rfl⟩
        · left
          split
          next same =>
            obtain rfl := Std.LawfulEqOrd.compare_eq_iff_eq.mp same
            rw [missing] at before
            cases before
          next => exact before
        · cases k with
          | zero =>
            cases found
            left
            simp
          | succ k => exact .inr ⟨k, found, by rw [Nat.add_assoc, Nat.add_comm 1]⟩

theorem exists_numberFrom {index : NameIndex} (next : RuleId) {names : List String} (distinct : names.Nodup)
    (fresh : ∀ name ∈ names, name ∉ index) : ∃ result, numberFrom index next names = .ok result := by
  induction names generalizing index next with
  | nil => exact ⟨index, rfl⟩
  | cons first rest ih =>
    obtain ⟨away, distinct⟩ := List.nodup_cons.mp distinct
    have new : ¬index.contains first = true := fun contained =>
      fresh first (by simp) (Std.TreeMap.mem_iff_contains.mpr contained)
    rw [numberFrom, if_neg new]
    apply ih _ distinct
    intro name member inserted
    rcases Std.TreeMap.mem_insert.mp inserted with same | before
    · obtain rfl := Std.LawfulEqOrd.compare_eq_iff_eq.mp same
      exact away member
    · exact fresh name (by simp [member]) before

def ReferencesDefined (definitions : List Definition) : Prop :=
  ∀ d ∈ definitions, d.body.Every (Expr.Refers (· ∈ definitions.map Definition.name))

/-- The number of a name is the place of its definition. -/
def Indexes (index : NameIndex) (definitions : List Definition) : Prop :=
  ∀ (name : String) (r : RuleId), index[name]? = some r ↔ ∃ d, definitions[r]? = some d ∧ d.name = name

/-- Definitions, and the rules that they become. -/
structure Resolves (index : NameIndex) (definitions : List Definition) (rules : List Rule) : Prop where
  indexes : Indexes index definitions
  length : rules.length = definitions.length
  rule : ∀ (r : RuleId) (d : Definition), definitions[r]? = some d →
    ∃ rule, rules[r]? = some rule ∧ rule.name = d.name ∧
      d.body.resolve (resolveName index d.name) = .ok rule.body

theorem resolveName_eq_ok {index : NameIndex} {user reference : String} {r : RuleId} :
    resolveName index user reference = .ok r ↔ index[reference]? = some r := by
  rw [resolveName]
  split
  next found => simp [found]
  next missing => simp [missing]

theorem resolves_of_resolve {definitions : List Definition} {mainRule : String} {rules : List Rule}
    {main : RuleId} (resolved : resolve definitions mainRule = .ok (rules, main)) :
    ∃ index, Resolves index definitions rules ∧ index[mainRule]? = some main := by
  obtain ⟨index, numbered, resolved⟩ := of_bind_eq_ok resolved
  have indexes : Indexes index definitions := by
    intro name r
    rw [getElem?_of_numberFrom numbered]
    simp
  split at resolved
  next main found =>
    obtain ⟨rules, mapped, resolved⟩ := of_bind_eq_ok resolved
    cases resolved
    refine ⟨index, ⟨indexes, (forall₂_of_mapM mapped).length_eq.symm, fun r d here => ?_⟩, found⟩
    obtain ⟨rule, located, made⟩ := getElem?_of_mapM mapped here
    obtain ⟨body, resolved, made⟩ := of_bind_eq_ok made
    cases made
    exact ⟨_, located, rfl, resolved⟩
  next => cases resolved

theorem exists_indexes {definitions : List Definition} (distinct : (definitions.map Definition.name).Nodup) :
    ∃ index, numberFrom ∅ 0 (definitions.map Definition.name) = .ok index ∧ Indexes index definitions := by
  have fresh : ∀ name ∈ definitions.map Definition.name, name ∉ (∅ : NameIndex) := by simp
  obtain ⟨index, numbered⟩ := exists_numberFrom 0 distinct fresh
  refine ⟨index, numbered, fun name r => ?_⟩
  rw [getElem?_of_numberFrom numbered]
  simp

/-- Definitions of distinct names that refer to defined names only can be resolved. -/
theorem exists_resolves {definitions : List Definition} (distinct : (definitions.map Definition.name).Nodup)
    {mainRule : String} (main : mainRule ∈ definitions.map Definition.name)
    (defined : ReferencesDefined definitions) :
    ∃ index rules main, resolve definitions mainRule = .ok (rules, main) ∧
      Resolves index definitions rules := by
  obtain ⟨index, numbered, indexes⟩ := exists_indexes distinct
  have finds (user name : String) (member : name ∈ definitions.map Definition.name) :
      ∃ r, resolveName index user name = .ok r := by
    obtain ⟨d, among, rfl⟩ := List.mem_map.mp member
    obtain ⟨r, found⟩ := List.mem_iff_getElem?.mp among
    exact ⟨r, resolveName_eq_ok.mpr ((indexes d.name r).mpr ⟨d, found, rfl⟩)⟩
  have each : ∀ d ∈ definitions, ∃ rule, resolveDefinition index d = .ok rule := by
    intro d member
    obtain ⟨body, resolved⟩ := Expr.exists_resolve (finds d.name) (defined d member)
    exact ⟨⟨d.name, body⟩, by rw [resolveDefinition, resolved]; rfl⟩
  obtain ⟨rules, mapped⟩ := exists_mapM each
  obtain ⟨r, found⟩ := finds "" mainRule main
  rw [resolveName_eq_ok] at found
  have resolved : resolve definitions mainRule = .ok (rules, r) := by
    simp only [resolve, numbered, bind, Except.bind, found, mapped]
    rfl
  obtain ⟨index, resolves, _⟩ := resolves_of_resolve resolved
  exact ⟨index, rules, r, resolved, resolves⟩

section

variable {index : NameIndex} {definitions : List Definition} {rules : List Rule}
  (resolves : Resolves index definitions rules)
include resolves

theorem Resolves.body {r : RuleId} {d : Definition} (found : definitions[r]? = some d) :
    ∃ body, ruleBody? (bodies rules.toArray) r = some body ∧
      d.body.resolve (resolveName index d.name) = .ok body := by
  obtain ⟨rule, located, _, resolved⟩ := resolves.rule r d found
  exact ⟨rule.body, by rw [ruleBody?_bodies, located]; rfl, resolved⟩

theorem Resolves.origin {r : RuleId} {rule : Rule} (located : rules[r]? = some rule) :
    ∃ d, definitions[r]? = some d ∧ rule.name = d.name ∧
      d.body.resolve (resolveName index d.name) = .ok rule.body := by
  have inside : r < definitions.length := by
    rw [← resolves.length]
    exact (List.getElem?_eq_some_iff.mp located).1
  have here := List.getElem?_eq_getElem inside
  obtain ⟨other, same, named, body⟩ := resolves.rule r _ here
  obtain rfl := Option.some.inj (same.symm.trans located)
  exact ⟨_, here, named, body⟩

theorem Resolves.exists_definition {r : RuleId} {body : Expr RuleId}
    (found : ruleBody? (bodies rules.toArray) r = some body) :
    ∃ d, definitions[r]? = some d ∧ d.body.resolve (resolveName index d.name) = .ok body := by
  rw [ruleBody?_bodies] at found
  obtain ⟨rule, located, rfl⟩ := Option.map_eq_some_iff.mp found
  obtain ⟨d, here, _, resolved⟩ := resolves.origin located
  exact ⟨d, here, resolved⟩

theorem Resolves.names : rules.map Rule.name = definitions.map Definition.name := by
  apply List.ext_getElem?
  intro r
  rw [List.getElem?_map, List.getElem?_map]
  cases located : rules[r]? with
  | none =>
    have outside := List.getElem?_eq_none_iff.mp located
    rw [resolves.length] at outside
    rw [List.getElem?_eq_none outside]
    rfl
  | some rule =>
    obtain ⟨d, here, named, _⟩ := resolves.origin located
    rw [here]
    exact congrArg some named

theorem Resolves.number {r : RuleId} {d : Definition} (found : definitions[r]? = some d) :
    index[d.name]? = some r := (resolves.indexes d.name r).mpr ⟨d, found, rfl⟩

theorem Resolves.nodup : (definitions.map Definition.name).Nodup := by
  rw [List.Nodup, List.pairwise_iff_getElem]
  intro i j hi hj lt same
  rw [List.length_map] at hi hj
  rw [List.getElem_map, List.getElem_map] at same
  have one := resolves.number (List.getElem?_eq_getElem hi)
  have other := resolves.number (List.getElem?_eq_getElem hj)
  rw [same, other] at one
  exact Nat.ne_of_lt lt (Option.some.inj one).symm

end

end Grammar

end GuidedDecoding
