import Mathlib
import GuidedDecoding.Proofs.Grammar.NormalText
import GuidedDecoding.Proofs.Grammar.Texts

namespace GuidedDecoding

namespace Grammar

theorem ruleName?_eq_getElem? (grammar : Grammar) (r : RuleId) :
    grammar.ruleName? r = (grammar.rules.toList.map Rule.name)[r]? := by
  rw [ruleName?, List.getElem?_map, Array.getElem?_toList]

theorem ruleName?_eq_some {grammar : Grammar} {r : RuleId} {name : String} :
    grammar.ruleName? r = some name ↔ ∃ inside : r < grammar.rules.size, grammar.rules[r].name = name := by
  rw [ruleName?, Option.map_eq_some_iff]
  constructor
  · intro h
    obtain ⟨rule, found, named⟩ := h
    obtain ⟨inside, rfl⟩ := Array.getElem?_eq_some_iff.mp found
    exact ⟨inside, named⟩
  · intro h
    obtain ⟨inside, named⟩ := h
    exact ⟨_, Array.getElem?_eq_getElem inside, named⟩

theorem ruleId?_eq_some {grammar : Grammar} (distinct : (grammar.rules.toList.map Rule.name).Nodup) {name : String}
    {r : RuleId} : grammar.ruleId? name = some r ↔ grammar.ruleName? r = some name := by
  rw [ruleId?, Array.findIdx?_eq_some_iff_getElem, ruleName?_eq_some]
  constructor
  · intro found
    obtain ⟨inside, named, _⟩ := found
    exact ⟨inside, eq_of_beq named⟩
  · intro found
    obtain ⟨inside, rfl⟩ := found
    refine ⟨inside, beq_self_eq_true _, fun j early same => ?_⟩
    -- An earlier rule with this name would be a second one.
    have here : j < grammar.rules.size := Nat.lt_trans early inside
    have names : grammar.ruleName? j = grammar.ruleName? r := by
      rw [ruleName?_eq_some.mpr ⟨here, eq_of_beq same⟩, ruleName?_eq_some.mpr ⟨inside, rfl⟩]
    rw [ruleName?_eq_getElem?, ruleName?_eq_getElem?] at names
    have length : j < (grammar.rules.toList.map Rule.name).length := by rwa [List.length_map]
    exact Nat.ne_of_lt early ((List.getElem?_inj length distinct).mp names)

theorem exists_index_ruleId? {grammar : Grammar} (distinct : (grammar.rules.toList.map Rule.name).Nodup) :
    ∃ index, numberFrom ∅ 0 (grammar.rules.toList.map Rule.name) = .ok index ∧
      ∀ name : String, index[name]? = grammar.ruleId? name := by
  have fresh : ∀ name ∈ grammar.rules.toList.map Rule.name, name ∉ (∅ : NameIndex) := by simp
  obtain ⟨index, numbered⟩ := exists_numberFrom 0 distinct fresh
  refine ⟨index, numbered, fun name => Option.ext fun r => ?_⟩
  rw [getElem?_of_numberFrom numbered, ruleId?_eq_some distinct, ruleName?_eq_getElem?]
  simp

section

variable {rules : List Rule}

theorem Presentable.table (presentable : Presentable rules) (normalize : Bool) :
    Presentable (table normalize rules).toList := by
  cases normalize with
  | false => exact presentable
  | true => exact NormalForm.presentable_ofRules presentable

theorem exists_names_table (below : ∀ rule ∈ rules, rule.body.Below rules.length) (normalize : Bool) :
    ∃ helpers, (table normalize rules).toList.map Rule.name = rules.map Rule.name ++ helpers ∧
      (normalize = false → helpers = []) := by
  cases normalize with
  | false => exact ⟨[], (List.append_nil _).symm, fun _ => rfl⟩
  | true =>
    obtain ⟨helpers, names⟩ := NormalForm.exists_names_ofRules below
    exact ⟨helpers, names, Bool.noConfusion⟩

end

/-- The rules of a compiled grammar refer to each other only and have distinct names, by which they are found. The
rules of the text come first, in their order, under their names and with the meanings of their definitions. -/
theorem table_of_compile {text : String} {settings : GrammarSettings} {grammar : Grammar}
    (compiled : compile text settings = .ok grammar) :
    grammar.main < grammar.rules.size ∧
      (∀ rule ∈ grammar.rules, rule.body.Every (Expr.Refers (· < grammar.rules.size))) ∧
      (grammar.rules.toList.map Rule.name).Nodup ∧
      (∀ r < grammar.rules.size, ∃ name, grammar.ruleName? r = some name ∧ grammar.ruleId? name = some r) ∧
      (∀ name, (∀ r, grammar.ruleName? r ≠ some name) → grammar.ruleId? name = none) ∧
      (∃ index, numberFrom ∅ 0 (grammar.rules.toList.map Rule.name) = .ok index ∧
        ∀ name : String, index[name]? = grammar.ruleId? name) ∧
      ∃ definitions helpers, Definition.read text.toList = .ok definitions ∧
        grammar.rules.toList.map Rule.name = definitions.map Definition.name ++ helpers ∧
        (settings.normalize = false → helpers = []) ∧
        grammar.ruleName? grammar.main = some settings.mainRule ∧
        ∀ r d, definitions[r]? = some d →
          ruleLanguage (bodies grammar.rules) r = encoded (Definition.texts definitions d.name) := by
  have formed := wellFormed_of_compile compiled
  obtain ⟨rules, main, resolved, _, rfl⟩ := exists_resolvedText compiled
  obtain ⟨presentable, _⟩ := presentable_of_resolvedText resolved
  obtain ⟨_, below⟩ := below_of_resolvedText resolved
  obtain ⟨definitions, read, resolved⟩ := of_bind_eq_ok resolved
  have read := of_mapError_eq_ok read
  obtain ⟨index, resolves, found⟩ := resolves_of_resolve resolved
  obtain ⟨helpers, names, plain⟩ := exists_names_table below settings.normalize
  have distinct := (presentable.table settings.normalize).distinct
  rw [resolves.names] at names
  refine ⟨formed.main, fun rule member => (formed.below rule member).refers, distinct, fun r inside => ?_,
    fun name unknown => ?_, exists_index_ruleId? distinct, definitions, helpers, read, names, plain, ?_, fun r d here => ?_⟩
  · have name := ruleName?_eq_some.mpr ⟨inside, rfl⟩
    exact ⟨_, name, (ruleId?_eq_some distinct).mpr name⟩
  · rw [Option.eq_none_iff_forall_ne_some]
    exact fun r found => unknown r ((ruleId?_eq_some distinct).mp found)
  · obtain ⟨d, here, named⟩ := (resolves.indexes _ _).mp found
    have early : main < (definitions.map Definition.name).length := by
      rw [List.length_map]
      exact (List.getElem?_eq_some_iff.mp here).1
    rw [ruleName?_eq_getElem?, names, List.getElem?_append_left early, List.getElem?_map, here, ← named]
    rfl
  · have early : r < rules.length := by
      rw [resolves.length]
      exact (List.getElem?_eq_some_iff.mp here).1
    change ruleLanguage (bodies (table settings.normalize rules)) r = _
    rw [ruleLanguage_table settings.normalize below early]
    exact resolves.language_eq (Definition.written_of_read read) (resolves.number here)

def clashing : String :=
  "root ::= (\"a\" | root_1)\x7b1,2\x7d\nroot_1 ::= \"f\" (\"g\" | root_1_1) | \"k\" root\nroot_1_1 ::= [h-j]*"

theorem table_of_compile_clashing :
    ∃ grammar : Grammar, compile clashing ⟨"root", true⟩ = .ok grammar ∧
      grammar.rules.toList.map Rule.name = ["root", "root_1", "root_1_1", "root_2", "root_3", "root_1_2"] ∧
      grammar.main < grammar.rules.size ∧
      (∀ rule ∈ grammar.rules, rule.body.Every (Expr.Refers (· < grammar.rules.size))) ∧
      (grammar.rules.toList.map Rule.name).Nodup ∧
      (∀ r < grammar.rules.size, ∃ name, grammar.ruleName? r = some name ∧ grammar.ruleId? name = some r) ∧
      (∀ name, (∀ r, grammar.ruleName? r ≠ some name) → grammar.ruleId? name = none) ∧
      (∃ index, numberFrom ∅ 0 (grammar.rules.toList.map Rule.name) = .ok index ∧
        ∀ name : String, index[name]? = grammar.ruleId? name) ∧
      ∃ definitions helpers, Definition.read clashing.toList = .ok definitions ∧
        grammar.rules.toList.map Rule.name = definitions.map Definition.name ++ helpers ∧
        (true = false → helpers = []) ∧ grammar.ruleName? grammar.main = some "root" ∧
        ∀ r d, definitions[r]? = some d →
          ruleLanguage (bodies grammar.rules) r = encoded (Definition.texts definitions d.name) := by
  have named : (fun grammar : Grammar => grammar.rules.toList.map Rule.name) <$> compile clashing ⟨"root", true⟩ =
      .ok ["root", "root_1", "root_1_1", "root_2", "root_3", "root_1_2"] := by decide +kernel
  obtain ⟨grammar, compiled, names⟩ := of_map_eq_ok named
  exact ⟨grammar, compiled, names, table_of_compile compiled⟩

end Grammar

end GuidedDecoding
