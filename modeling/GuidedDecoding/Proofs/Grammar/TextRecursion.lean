import Mathlib
import GuidedDecoding.Proofs.Grammar.Compilation
import GuidedDecoding.Proofs.Grammar.LeftRecursion
import GuidedDecoding.Proofs.Grammar.Names

namespace GuidedDecoding

/-- Expressions that may match the empty string. -/
inductive Vanishes (definitions : List Definition) : Expr String → Prop where
  | empty : Vanishes definitions .empty
  | literal : Vanishes definitions (.literal [])
  | rule {d : Definition} (defined : d ∈ definitions) (body : Vanishes definitions d.body) :
    Vanishes definitions (.rule d.name)
  | sequence {items : List (Expr String)} (each : ∀ e ∈ items, Vanishes definitions e) :
    Vanishes definitions (.sequence items)
  | choice {alternatives : List (Expr String)} {e : Expr String} (among : e ∈ alternatives)
    (one : Vanishes definitions e) : Vanishes definitions (.choice alternatives)
  | absent {body : Expr String} {max : Option Nat} : Vanishes definitions (.repetition body 0 max)
  | repetition {body : Expr String} {min : Nat} {max : Option Nat} (copy : Vanishes definitions body) :
    Vanishes definitions (.repetition body min max)

/-- A reference to the name stands in the expression, and everything before it may match the empty
string. The body of a repetition counts unless there are no copies of it. -/
inductive Leading (definitions : List Definition) : Expr String → String → Prop where
  | rule {name : String} : Leading definitions (.rule name) name
  | sequence {before after : List (Expr String)} {e : Expr String} {name : String}
    (skipped : ∀ b ∈ before, Vanishes definitions b) (inside : Leading definitions e name) :
    Leading definitions (.sequence (before ++ e :: after)) name
  | choice {alternatives : List (Expr String)} {e : Expr String} {name : String} (among : e ∈ alternatives)
    (inside : Leading definitions e name) : Leading definitions (.choice alternatives) name
  | repetition {body : Expr String} {min : Nat} {max : Option Nat} {name : String}
    (copied : min ≠ 0 ∨ max ≠ some 0) (inside : Leading definitions body name) :
    Leading definitions (.repetition body min max) name

def CallsFirst (definitions : List Definition) (name other : String) : Prop :=
  ∃ d ∈ definitions, d.name = name ∧ Leading definitions d.body other

/-- The rule of this name reaches itself without consuming a byte. -/
def ReachesItself (definitions : List Definition) (name : String) : Prop :=
  Relation.TransGen (CallsFirst definitions) name name

namespace Leading

variable {definitions : List Definition} {name : String}

theorem known {known : String → Prop} {e : Expr String} (leading : Leading definitions e name)
    (refers : e.Every (Expr.Refers known)) : known name := by
  induction leading with
  | rule => exact refers.here
  | sequence skipped inside ih => exact ih (refers.inside _ (by simp [Expr.members]))
  | choice among inside ih => exact ih (refers.inside _ among)
  | repetition copied inside ih => exact ih refers.body

theorem sequence_cons_iff {e : Expr String} {rest : List (Expr String)} :
    Leading definitions (.sequence (e :: rest)) name ↔
      Leading definitions e name ∨ Vanishes definitions e ∧ Leading definitions (.sequence rest) name := by
  constructor
  · intro leading
    generalize same : e :: rest = items at leading
    obtain _ | ⟨skipped, inside⟩ := leading
    rename_i before after m
    cases before with
    | nil =>
      cases same
      exact .inl inside
    | cons b before =>
      cases same
      exact .inr ⟨skipped e (by simp), .sequence (fun b member => skipped b (by simp [member])) inside⟩
  · intro h
    rcases h with inside | ⟨skip, later⟩
    · exact @Leading.sequence definitions [] rest e name (by simp) inside
    · obtain _ | ⟨skipped, inside⟩ := later
      exact @Leading.sequence definitions (e :: _) _ _ name (List.forall_mem_cons.mpr ⟨skip, skipped⟩) inside

theorem choice_cons_iff {e : Expr String} {rest : List (Expr String)} :
    Leading definitions (.choice (e :: rest)) name ↔
      Leading definitions e name ∨ Leading definitions (.choice rest) name := by
  constructor
  · intro leading
    cases leading with
    | choice among inside =>
      rcases List.mem_cons.mp among with rfl | among
      · exact .inl inside
      · exact .inr (.choice among inside)
  · intro h
    rcases h with inside | later
    · exact .choice List.mem_cons_self inside
    · cases later with
      | choice among inside => exact .choice (List.mem_cons_of_mem _ among) inside

end Leading

section

variable {definitions : List Definition} {index : Grammar.NameIndex} {rules : List Rule} {user : String}
  {e : Expr String} {e' : Expr RuleId} (resolves : Grammar.Resolves index definitions rules)

theorem Vanishes.of_nullable {held : RuleId → Bool}
    (sound : ∀ name r, index[name]? = some r → held r = true → Vanishes definitions (.rule name))
    (resolved : e.resolve (Grammar.resolveName index user) = .ok e') (nullable : e'.nullable held = true) :
    Vanishes definitions e := by
  induction e using Expr.structural generalizing e' with
  | empty => exact .empty
  | literal bytes =>
    cases bytes with
    | nil => exact .literal
    | cons b bytes =>
      cases resolved
      simp [Expr.nullable] at nullable
  | charClass negated ranges =>
    cases resolved
    simp [Expr.nullable] at nullable
  | rule name =>
    rw [Expr.resolve] at resolved
    obtain ⟨r, found, rfl⟩ := of_map_eq_ok resolved
    rw [Expr.nullable] at nullable
    exact sound name r (Grammar.resolveName_eq_ok.mp found) nullable
  | sequence items ih =>
    rw [Expr.resolve] at resolved
    obtain ⟨results, found, rfl⟩ := of_map_eq_ok resolved
    rw [Expr.nullable, Expr.nullableAll_iff] at nullable
    refine .sequence fun e member => ?_
    obtain ⟨e', among, resolved⟩ := (exists_partner (Expr.forall₂_of_resolveAll found)).1 e member
    exact ih e member resolved (nullable e' among)
  | choice alternatives ih =>
    rw [Expr.resolve] at resolved
    obtain ⟨results, found, rfl⟩ := of_map_eq_ok resolved
    rw [Expr.nullable, Expr.nullableAny_iff] at nullable
    obtain ⟨e', among, nullable⟩ := nullable
    obtain ⟨e, member, resolved⟩ := (exists_partner (Expr.forall₂_of_resolveAll found)).2 e' among
    exact .choice member (ih e member resolved nullable)
  | repetition body min max ih =>
    rw [Expr.resolve] at resolved
    obtain ⟨result, found, rfl⟩ := of_map_eq_ok resolved
    rw [Expr.nullable, Bool.or_eq_true, beq_iff_eq] at nullable
    rcases nullable with rfl | nullable
    · exact .absent
    · exact .repetition (ih found nullable)

include resolves

theorem Vanishes.nullable (vanishes : Vanishes definitions e)
    (resolved : e.resolve (Grammar.resolveName index user) = .ok e') :
    e'.nullable (nullableRules (Grammar.bodies rules.toArray)).contains = true := by
  induction vanishes generalizing user e' with
  | empty | literal =>
    cases resolved
    rfl
  | @rule d defined body ih =>
    rw [Expr.resolve] at resolved
    obtain ⟨r, found, rfl⟩ := of_map_eq_ok resolved
    obtain ⟨k, here⟩ := List.mem_iff_getElem?.mp defined
    have number := (resolves.indexes d.name k).mpr ⟨d, here, rfl⟩
    obtain rfl := Option.some.inj (number.symm.trans (Grammar.resolveName_eq_ok.mp found))
    obtain ⟨body', located, resolved⟩ := resolves.body here
    rw [Expr.nullable, ← Std.TreeSet.mem_iff_contains]
    exact mem_nullableRules located (ih resolved)
  | sequence each ih =>
    rw [Expr.resolve] at resolved
    obtain ⟨results, found, rfl⟩ := of_map_eq_ok resolved
    rw [Expr.nullable, Expr.nullableAll_iff]
    intro e' among
    obtain ⟨e, member, resolved⟩ := (exists_partner (Expr.forall₂_of_resolveAll found)).2 e' among
    exact ih e member resolved
  | choice among one ih =>
    rw [Expr.resolve] at resolved
    obtain ⟨results, found, rfl⟩ := of_map_eq_ok resolved
    rw [Expr.nullable, Expr.nullableAny_iff]
    obtain ⟨e', member, resolved⟩ := (exists_partner (Expr.forall₂_of_resolveAll found)).1 _ among
    exact ⟨e', member, ih resolved⟩
  | absent =>
    rw [Expr.resolve] at resolved
    obtain ⟨result, found, rfl⟩ := of_map_eq_ok resolved
    rfl
  | repetition copy ih =>
    rw [Expr.resolve] at resolved
    obtain ⟨result, found, rfl⟩ := of_map_eq_ok resolved
    rw [Expr.nullable, ih found, Bool.or_true]

theorem vanishes_iff (resolved : e.resolve (Grammar.resolveName index user) = .ok e') :
    Vanishes definitions e ↔ e'.nullable (nullableRules (Grammar.bodies rules.toArray)).contains = true := by
  refine ⟨fun vanishes => vanishes.nullable resolves resolved,
    Vanishes.of_nullable (fun name r found held => ?_) resolved⟩
  refine of_mem_saturate (fun r => ∀ name, index[name]? = some r → Vanishes definitions (.rule name))
    (by simp) (fun known r sound follows name found => ?_) (Std.TreeSet.mem_iff_contains.mpr held) name found
  rw [Option.any_eq_true] at follows
  obtain ⟨body, located, empty⟩ := follows
  obtain ⟨d, here, resolved⟩ := resolves.exists_definition located
  obtain ⟨other, same, rfl⟩ := (resolves.indexes name r).mp found
  obtain rfl := Option.some.inj (here.symm.trans same)
  exact .rule (List.mem_of_getElem? here)
    (.of_nullable (fun name r found held => sound r held name found) resolved empty)

theorem mem_leftCalls_iff (resolved : e.resolve (Grammar.resolveName index user) = .ok e') {c : RuleId} :
    c ∈ e'.leftCalls (nullableRules (Grammar.bodies rules.toArray)).contains ↔
      ∃ name, index[name]? = some c ∧ Leading definitions e name := by
  induction e using Expr.structural generalizing e' with
  | empty =>
    cases resolved
    refine iff_of_false List.not_mem_nil fun h => ?_
    obtain ⟨_, _, leading⟩ := h
    cases leading
  | literal bytes =>
    refine iff_of_false ?_ fun h => ?_
    · cases bytes <;> cases resolved <;> exact List.not_mem_nil
    · obtain ⟨_, _, leading⟩ := h
      cases leading
  | charClass negated ranges =>
    cases resolved
    refine iff_of_false List.not_mem_nil fun h => ?_
    obtain ⟨_, _, leading⟩ := h
    cases leading
  | rule name =>
    rw [Expr.resolve] at resolved
    obtain ⟨r, found, rfl⟩ := of_map_eq_ok resolved
    have found := Grammar.resolveName_eq_ok.mp found
    rw [Expr.leftCalls, List.mem_singleton]
    constructor
    · intro same
      exact ⟨name, same ▸ found, .rule⟩
    · intro h
      obtain ⟨_, number, leading⟩ := h
      cases leading
      exact Option.some.inj (number.symm.trans found)
  | sequence items ih =>
    rw [Expr.resolve] at resolved
    obtain ⟨results, found, rfl⟩ := of_map_eq_ok resolved
    rw [Expr.leftCalls]
    have pairs := Expr.forall₂_of_resolveAll found
    clear resolved found
    induction pairs with
    | nil =>
      refine iff_of_false List.not_mem_nil fun h => ?_
      obtain ⟨_, _, leading⟩ := h
      generalize same : ([] : List (Expr String)) = items at leading
      obtain _ | ⟨_, _⟩ := leading
      simp at same
    | cons head _ tail =>
      have heads : _ ↔ _ := ih _ (by simp) head
      have tails : _ ↔ _ := tail fun m member => ih m (by simp [member])
      simp only [Expr.leftCallsAll, List.mem_append, Leading.sequence_cons_iff, and_or_left, exists_or,
        heads, vanishes_iff resolves head]
      apply or_congr_right
      split
      next skipped => simp [skipped, tails]
      next kept => simp [kept]
  | choice alternatives ih =>
    rw [Expr.resolve] at resolved
    obtain ⟨results, found, rfl⟩ := of_map_eq_ok resolved
    rw [Expr.leftCalls]
    have pairs := Expr.forall₂_of_resolveAll found
    clear resolved found
    induction pairs with
    | nil =>
      refine iff_of_false List.not_mem_nil fun h => ?_
      obtain ⟨_, _, leading⟩ := h
      cases leading with
      | choice among => exact absurd among List.not_mem_nil
    | cons head _ tail =>
      have heads : _ ↔ _ := ih _ (by simp) head
      have tails : _ ↔ _ := tail fun m member => ih m (by simp [member])
      simp only [Expr.leftCallsAny, List.mem_append, Leading.choice_cons_iff, and_or_left, exists_or,
        heads, tails]
  | repetition body min max ih =>
    rw [Expr.resolve] at resolved
    obtain ⟨result, found, rfl⟩ := of_map_eq_ok resolved
    have inner : _ ↔ _ := ih found
    rw [Expr.leftCalls]
    split
    next absent =>
      rw [Bool.and_eq_true, beq_iff_eq, beq_iff_eq] at absent
      refine iff_of_false List.not_mem_nil fun h => ?_
      obtain ⟨_, _, leading⟩ := h
      cases leading with
      | repetition copied => exact copied.elim (· absent.1) (· absent.2)
    next copied =>
      rw [Bool.and_eq_true, beq_iff_eq, beq_iff_eq, not_and_or] at copied
      rw [inner]
      constructor
      · intro h
        obtain ⟨name, number, inside⟩ := h
        exact ⟨name, number, .repetition copied inside⟩
      · intro h
        obtain ⟨name, number, leading⟩ := h
        cases leading with
        | repetition _ inside => exact ⟨name, number, inside⟩

theorem leftCall_iff {r c : RuleId} : LeftCall (Grammar.bodies rules.toArray) r c ↔
    ∃ d other, definitions[r]? = some d ∧ index[other]? = some c ∧ Leading definitions d.body other := by
  constructor
  · intro h
    obtain ⟨body, located, called⟩ := h
    obtain ⟨d, here, resolved⟩ := resolves.exists_definition located
    obtain ⟨other, number, leading⟩ := (mem_leftCalls_iff resolves resolved).mp called
    exact ⟨d, other, here, number, leading⟩
  · intro h
    obtain ⟨d, other, here, number, leading⟩ := h
    obtain ⟨body, located, resolved⟩ := resolves.body here
    exact ⟨body, located, (mem_leftCalls_iff resolves resolved).mpr ⟨other, number, leading⟩⟩

/-- A rule of a text reaches itself exactly if left calls lead from its number back to it. -/
theorem leftRecursive_iff (defined : Grammar.ReferencesDefined definitions) {r : RuleId} {d : Definition}
    (found : definitions[r]? = some d) :
    LeftRecursive (Grammar.bodies rules.toArray) r ↔ ReachesItself definitions d.name := by
  have numbered {k : RuleId} {d : Definition} (found : definitions[k]? = some d) : index[d.name]? = some k :=
    (resolves.indexes d.name k).mpr ⟨d, found, rfl⟩
  let name (r : RuleId) : String := definitions[r]?.elim "" Definition.name
  let number (name : String) : RuleId := index[name]?.getD 0
  have forth (a b : RuleId) (call : LeftCall (Grammar.bodies rules.toArray) a b) :
      CallsFirst definitions (name a) (name b) := by
    obtain ⟨d, other, here, called, leading⟩ := (leftCall_iff resolves).mp call
    obtain ⟨callee, there, rfl⟩ := (resolves.indexes other b).mp called
    refine ⟨d, List.mem_of_getElem? here, ?_, ?_⟩
    · simp only [name, here, Option.elim_some]
    · simpa only [name, there, Option.elim_some] using leading
  have back (a b : String) (calls : CallsFirst definitions a b) :
      LeftCall (Grammar.bodies rules.toArray) (number a) (number b) := by
    obtain ⟨d, member, rfl, leading⟩ := calls
    obtain ⟨callee, among, rfl⟩ := List.mem_map.mp (leading.known (defined d member))
    obtain ⟨k, here⟩ := List.mem_iff_getElem?.mp member
    obtain ⟨l, there⟩ := List.mem_iff_getElem?.mp among
    refine (leftCall_iff resolves).mpr ⟨d, callee.name, ?_, ?_, leading⟩
    · simpa only [number, numbered here, Option.getD_some] using here
    · simp only [number, numbered there, Option.getD_some]
  have named : name r = d.name := by simp only [name, found, Option.elim_some]
  have placed : number d.name = r := by simp only [number, numbered found, Option.getD_some]
  constructor
  · intro recursive
    have path := Relation.TransGen.lift name forth r r recursive
    rw [Function.onFun, named] at path
    exact path
  · intro recursive
    have path := Relation.TransGen.lift number back d.name d.name recursive
    rw [Function.onFun, placed] at path
    exact path

end

namespace Grammar

section

variable {rules : List Rule} {main : RuleId} {normalize : Bool}
  (below : ∀ rule ∈ rules, rule.body.Below rules.length)
include below

theorem of_checked_eq_error {fault : GrammarError} (refused : checked normalize rules main = .error fault) :
    ∃ r rule, rules[r]? = some rule ∧ LeftRecursive (bodies rules.toArray) r ∧
      fault = .leftRecursion rule.name := by
  rw [checked] at refused
  split at refused
  next r reported =>
    cases refused
    have recursive : LeftRecursive (bodies rules.toArray) r := by
      cases normalize with
      | true => exact NormalForm.leftRecursive_of_ofRules below reported
      | false => exact (leftRecursive_of_some reported).1
    have inside : r < rules.length := by
      have known := recursive.lt
      rwa [size_bodies, List.size_toArray] at known
    refine ⟨r, rules[r], List.getElem?_eq_getElem inside, recursive, ?_⟩
    cases normalize with
    | true =>
      obtain ⟨new, found, name⟩ := NormalForm.name_ofRules below (List.getElem?_eq_getElem inside)
      rw [table, if_pos rfl, List.getElem?_toArray, found, Option.elim_some, name]
    | false =>
      rw [table, if_neg Bool.false_ne_true, List.getElem?_toArray, List.getElem?_eq_getElem inside,
        Option.elim_some]
  next => cases refused

theorem not_leftRecursive_of_checked {grammar : Grammar} (passed : checked normalize rules main = .ok grammar)
    (r : RuleId) : ¬LeftRecursive (bodies rules.toArray) r := by
  obtain ⟨free, _⟩ := checked_eq_ok.mp passed
  have plain : leftRecursiveRule? (bodies rules.toArray) rules.length = none := by
    cases normalize with
    | true => exact (NormalForm.leftRecursiveRule?_ofRules below).mp free
    | false => exact free
  exact leftRecursiveRule?_eq_none_iff.mp plain r

end

theorem exists_ofText {text : List Char} {definitions : List Definition} (read : Definition.read text = .ok definitions)
    (distinct : (definitions.map Definition.name).Nodup) {mainRule : String}
    (main : mainRule ∈ definitions.map Definition.name) (defined : ReferencesDefined definitions)
    (free : ∀ d ∈ definitions, ¬ReachesItself definitions d.name) (normalize : Bool) :
    ∃ grammar, ofText text ⟨mainRule, normalize⟩ = .ok grammar := by
  obtain ⟨index, rules, first, resolved, resolves⟩ := exists_resolves distinct main defined
  have front : resolvedText text mainRule = .ok (rules, first) := by
    rw [resolvedText, read]
    exact resolved
  have compiled : ofText text ⟨mainRule, normalize⟩ = checked normalize rules first := by
    rw [ofText_eq, front]
    rfl
  rw [compiled]
  cases result : checked normalize rules first with
  | ok grammar => exact ⟨grammar, rfl⟩
  | error fault =>
    obtain ⟨r, rule, located, recursive, _⟩ := of_checked_eq_error (below_of_resolvedText front).2 result
    obtain ⟨d, here, _⟩ := resolves.origin located
    exact absurd ((leftRecursive_iff resolves defined here).mp recursive) (free d (List.mem_of_getElem? here))

/-- A text whose rules have distinct names and refer to each other only is refused as left recursive
exactly if one of them reaches itself without consuming a byte, and the rule that is named does so. -/
theorem leftRecursion_iff {text : String} {definitions : List Definition}
    (read : Definition.read text.toList = .ok definitions)
    (distinct : (definitions.map Definition.name).Nodup) {mainRule : String}
    (main : mainRule ∈ definitions.map Definition.name) (defined : ReferencesDefined definitions)
    (normalize : Bool) :
    ((∃ name, compile text ⟨mainRule, normalize⟩ = .error (.leftRecursion name)) ↔
        ∃ d ∈ definitions, ReachesItself definitions d.name) ∧
      ∀ name, compile text ⟨mainRule, normalize⟩ = .error (.leftRecursion name) →
        name ∈ definitions.map Definition.name ∧ ReachesItself definitions name := by
  obtain ⟨index, rules, first, resolved, resolves⟩ := exists_resolves distinct main defined
  have front : resolvedText text.toList mainRule = .ok (rules, first) := by
    rw [resolvedText, read]
    exact resolved
  have below := (below_of_resolvedText front).2
  have compiled : compile text ⟨mainRule, normalize⟩ = checked normalize rules first := by
    rw [compile, ofText_eq, front]
    rfl
  have reported {fault : GrammarError} (refused : checked normalize rules first = .error fault) :
      ∃ d ∈ definitions, ReachesItself definitions d.name ∧ fault = .leftRecursion d.name := by
    obtain ⟨r, rule, located, recursive, rfl⟩ := of_checked_eq_error below refused
    have inside : r < definitions.length := by
      rw [← resolves.length]
      exact (List.getElem?_eq_some_iff.mp located).1
    have here := List.getElem?_eq_getElem inside
    obtain ⟨other, same, name, _⟩ := resolves.rule r _ here
    obtain rfl := Option.some.inj (same.symm.trans located)
    exact ⟨_, List.getElem_mem inside, (leftRecursive_iff resolves defined here).mp recursive, by rw [name]⟩
  rw [compiled]
  refine ⟨⟨fun h => ?_, fun h => ?_⟩, fun name refused => ?_⟩
  · obtain ⟨name, refused⟩ := h
    obtain ⟨d, member, recursive, _⟩ := reported refused
    exact ⟨d, member, recursive⟩
  · obtain ⟨d, member, recursive⟩ := h
    cases result : checked normalize rules first with
    | error fault =>
      obtain ⟨other, _, _, rfl⟩ := reported result
      exact ⟨other.name, rfl⟩
    | ok grammar =>
      obtain ⟨r, here⟩ := List.mem_iff_getElem?.mp member
      exact absurd ((leftRecursive_iff resolves defined here).mpr recursive)
        (not_leftRecursive_of_checked below result r)
  · obtain ⟨d, member, recursive, same⟩ := reported refused
    cases same
    exact ⟨List.mem_map_of_mem member, recursive⟩

def hidden : List Definition :=
  [⟨"root", .sequence [.repetition (.literal [120]) 0 (some 1), .rule "rest"]⟩,
    ⟨"rest", .choice [.sequence [.rule "root", .literal [121]], .literal [122]]⟩]

theorem reachesItself_hidden : ReachesItself hidden "root" := by
  have first : Leading hidden (.sequence [.repetition (.literal [120]) 0 (some 1), .rule "rest"]) "rest" :=
    Leading.sequence_cons_iff.mpr (.inr ⟨.absent, Leading.sequence_cons_iff.mpr (.inl .rule)⟩)
  have second : Leading hidden (.choice [.sequence [.rule "root", .literal [121]], .literal [122]]) "root" :=
    .choice List.mem_cons_self (Leading.sequence_cons_iff.mpr (.inl .rule))
  have there : CallsFirst hidden "root" "rest" := ⟨_, List.mem_cons_self, rfl, first⟩
  have back : CallsFirst hidden "rest" "root" := ⟨_, List.mem_cons_of_mem _ List.mem_cons_self, rfl, second⟩
  exact .tail (.single there) back

theorem leftRecursion_hidden :
    Definition.read "root ::= \"x\"? rest\nrest ::= root \"y\" | \"z\"".toList = .ok hidden ∧
      ∃ name, compile "root ::= \"x\"? rest\nrest ::= root \"y\" | \"z\"" ⟨"root", true⟩ =
        .error (.leftRecursion name) := by
  have read : Definition.read "root ::= \"x\"? rest\nrest ::= root \"y\" | \"z\"".toList = .ok hidden := by
    cbv
  have root : "root" ∈ hidden.map Definition.name := by decide
  have rest : "rest" ∈ hidden.map Definition.name := by decide
  have defined : ReferencesDefined hidden := by
    have literal (bytes : List UInt8) :
        (Expr.literal bytes).Every (Expr.Refers (· ∈ hidden.map Definition.name)) :=
      .intro trivial (by simp [Expr.members])
    have reference {name : String} (known : name ∈ hidden.map Definition.name) :
        (Expr.rule name).Every (Expr.Refers (· ∈ hidden.map Definition.name)) :=
      .intro known (by simp [Expr.members])
    refine List.forall_mem_cons.mpr ⟨.intro trivial ?_, List.forall_mem_cons.mpr ⟨.intro trivial ?_, by simp⟩⟩
    · refine List.forall_mem_cons.mpr ⟨.intro trivial ?_, List.forall_mem_cons.mpr ⟨reference rest, by simp⟩⟩
      simpa [Expr.members] using literal [120]
    · refine List.forall_mem_cons.mpr ⟨.intro trivial ?_, List.forall_mem_cons.mpr ⟨literal [122], by simp⟩⟩
      exact List.forall_mem_cons.mpr ⟨reference root, List.forall_mem_cons.mpr ⟨literal [121], by simp⟩⟩
  have refused := (leftRecursion_iff read (by decide) root defined true).1
  exact ⟨read, refused.mpr ⟨_, List.mem_cons_self, reachesItself_hidden⟩⟩

end Grammar

end GuidedDecoding
