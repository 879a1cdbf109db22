import Mathlib
import GuidedDecoding.Proofs.Grammar.Printing
import GuidedDecoding.Proofs.Grammar.LeftRecursion

namespace GuidedDecoding

open Fragment (enclosed AllLegible)

namespace Expr

variable {ref : Type}

mutual

def flatAlternatives : Expr ref → List (Expr ref)
  | empty => [empty]
  | literal [] => [empty]
  | literal bytes => [literal bytes]
  | charClass negated ranges => [charClass negated ranges]
  | rule r => [rule r]
  | sequence [] => [empty]
  | sequence items => [single sequence (flatItems items)]
  | choice alternatives => flatChoice alternatives
  | repetition body min max => [repetition (single choice (flatAlternatives body)) min max]

def flatItems : List (Expr ref) → List (Expr ref)
  | [] => []
  | e :: rest => single choice (flatAlternatives e) :: flatItems rest

def flatChoice : List (Expr ref) → List (Expr ref)
  | [] => []
  | e :: rest => flatAlternatives e ++ flatChoice rest

end

def flattened (e : Expr ref) : Expr ref := single choice (flatAlternatives e)

/-- The expression with names that is read from a printed one. -/
def printed (name : ref → String) (e : Expr ref) : Expr String :=
  single choice (Fragment.exprAlternatives (e.toAlternatives name))

theorem flatAlternatives_sequence {items : List (Expr ref)} (inhabited : items ≠ []) :
    flatAlternatives (sequence items) = [single sequence (flatItems items)] := by
  cases items with
  | nil => exact absurd rfl inhabited
  | cons e rest => rw [flatAlternatives]; simp

section

variable {ref' ε : Type} {target : ref' → Except ε ref}

theorem resolveAll_cons {e : Expr ref'} {e' : Expr ref} {es : List (Expr ref')} {es' : List (Expr ref)}
    (first : e.resolve target = .ok e') (rest : resolveAll target es = .ok es') :
    resolveAll target (e :: es) = .ok (e' :: es') := by
  rw [resolveAll, first, rest]
  rfl

theorem resolveAll_append {one other : List (Expr ref')} {one' other' : List (Expr ref)}
    (first : resolveAll target one = .ok one') (rest : resolveAll target other = .ok other') :
    resolveAll target (one ++ other) = .ok (one' ++ other') := by
  induction one generalizing one' with
  | nil =>
    cases first
    exact rest
  | cons e one ih =>
    rw [resolveAll] at first
    obtain ⟨e', head, first⟩ := of_bind_eq_ok first
    obtain ⟨es', tail, first⟩ := of_bind_eq_ok first
    cases first
    exact resolveAll_cons head (ih tail)

theorem resolve_single {many : List (Expr ref') → Expr ref'} {many' : List (Expr ref) → Expr ref}
    {es : List (Expr ref')} {es' : List (Expr ref)} (all : (many es).resolve target = .ok (many' es'))
    (each : resolveAll target es = .ok es') : (single many es).resolve target = .ok (single many' es') := by
  have pairs := forall₂_of_resolveAll each
  cases pairs with
  | nil => exact all
  | cons first rest =>
    cases rest with
    | nil => exact first
    | cons => exact all

theorem resolve_sequence {es : List (Expr ref')} {es' : List (Expr ref)} (each : resolveAll target es = .ok es') :
    (single sequence es).resolve target = .ok (single sequence es') :=
  resolve_single (by rw [resolve, each]; rfl) each

theorem resolve_choice {es : List (Expr ref')} {es' : List (Expr ref)} (each : resolveAll target es = .ok es') :
    (single choice es).resolve target = .ok (single choice es') :=
  resolve_single (by rw [resolve, each]; rfl) each

end

section

variable {ε : Type} {known : ref → Prop} {name : ref → String} {target : String → Except ε ref}

theorem resolve_toSequence {items : List (Expr ref)}
    (each : ∀ e ∈ items, (e.printed name).resolve target = .ok (flattened e)) :
    resolveAll target (Fragment.exprSequence (toSequence name items)) = .ok (flatItems items) := by
  induction items with
  | nil => rfl
  | cons e rest ih =>
    have first := each e (by simp)
    rw [printed, ← Fragment.expr_enclosed] at first
    exact resolveAll_cons first (ih fun m member => each m (by simp [member]))

theorem exprAlternatives_append (one other : List Fragment.Sequence) :
    Fragment.exprAlternatives (one ++ other) = Fragment.exprAlternatives one ++ Fragment.exprAlternatives other := by
  induction one with
  | nil => rfl
  | cons pieces rest ih =>
    rw [List.cons_append, Fragment.exprAlternatives, ih, Fragment.exprAlternatives, List.cons_append]

theorem resolve_toChoice {alternatives : List (Expr ref)}
    (each : ∀ e ∈ alternatives,
      resolveAll target (Fragment.exprAlternatives (e.toAlternatives name)) = .ok (flatAlternatives e)) :
    resolveAll target (Fragment.exprAlternatives (toChoice name alternatives)) = .ok (flatChoice alternatives) := by
  induction alternatives with
  | nil => rfl
  | cons e rest ih =>
    rw [toChoice, exprAlternatives_append]
    exact resolveAll_append (each e (by simp)) (ih fun m member => each m (by simp [member]))

theorem resolve_toAlternatives (finds : ∀ r, known r → target (name r) = .ok r) {e : Expr ref}
    (writable : e.AllWritable known) :
    resolveAll target (Fragment.exprAlternatives (e.toAlternatives name)) = .ok (flatAlternatives e) := by
  have piece {f : Fragment} {e : Expr ref} (resolved : f.expr.resolve target = .ok e) :
      resolveAll target (Fragment.exprAlternatives [[f]]) = .ok [e] := resolveAll_cons resolved rfl
  induction e using structural with
  | empty =>
    rw [toAlternatives]
    exact piece rfl
  | literal bytes =>
    rw [toAlternatives]
    cases bytes <;> exact piece rfl
  | charClass negated ranges =>
    obtain ⟨inhabited, bounded⟩ := writable.here
    rw [toAlternatives]
    refine piece ?_
    rw [Fragment.expr, Fragment.classExpr_eq (read_classText negated inhabited bounded), resolve]
  | rule r =>
    rw [toAlternatives]
    refine piece ?_
    rw [Fragment.expr, resolve, finds r writable.here]
    rfl
  | sequence items ih =>
    cases items with
    | nil =>
      rw [toAlternatives]
      exact piece rfl
    | cons e rest =>
      rw [toAlternatives_sequence (by simp), flatAlternatives_sequence (by simp)]
      refine resolveAll_cons (resolve_sequence (resolve_toSequence fun m member => ?_)) rfl
      exact resolve_choice (ih m member (writable.inside m member))
  | choice alternatives ih =>
    rw [toAlternatives, flatAlternatives]
    exact resolve_toChoice fun m member => ih m member (writable.inside m member)
  | repetition body min max ih =>
    have inner := resolve_choice (ih writable.body)
    rw [toAlternatives, flatAlternatives]
    refine piece ?_
    rw [Fragment.expr, Fragment.expr_enclosed, resolve, inner]
    rfl

theorem resolve_printed (finds : ∀ r, known r → target (name r) = .ok r) {e : Expr ref}
    (writable : e.AllWritable known) : (e.printed name).resolve target = .ok (flattened e) :=
  resolve_choice (resolve_toAlternatives finds writable)

end

section

variable {byte : Language UInt8} {rules : RuleId → Meaning}

theorem meaning_single_sequence (es : List (Expr RuleId)) :
    (single sequence es).meaning byte rules = meaningAll byte rules es := by
  unfold single
  split
  next e => rw [meaningAll_single]
  next => rw [meaning]

theorem meaning_single_choice (es : List (Expr RuleId)) :
    (single choice es).meaning byte rules = meaningAny byte rules es := by
  unfold single
  split
  next e => rw [meaningAny, meaningAny, add_zero]
  next => rw [meaning]

theorem meaning_flatItems {items : List (Expr RuleId)}
    (each : ∀ e ∈ items, meaningAny byte rules (flatAlternatives e) = e.meaning byte rules) :
    meaningAll byte rules (flatItems items) = meaningAll byte rules items := by
  induction items with
  | nil => rfl
  | cons e rest ih =>
    rw [flatItems, meaningAll, meaning_single_choice, each e (by simp), ih fun m member => each m (by simp [member]),
      meaningAll]

theorem meaning_flatChoice {alternatives : List (Expr RuleId)}
    (each : ∀ e ∈ alternatives, meaningAny byte rules (flatAlternatives e) = e.meaning byte rules) :
    meaningAny byte rules (flatChoice alternatives) = meaningAny byte rules alternatives := by
  induction alternatives with
  | nil => rfl
  | cons e rest ih =>
    rw [flatChoice, meaningAny_append, each e (by simp), ih fun m member => each m (by simp [member]), meaningAny]

theorem meaning_flatAlternatives (e : Expr RuleId) :
    meaningAny byte rules (flatAlternatives e) = e.meaning byte rules := by
  have alone (e : Expr RuleId) : meaningAny byte rules [e] = e.meaning byte rules := by
    rw [meaningAny, meaningAny, add_zero]
  induction e using structural with
  | empty | charClass | rule => rw [flatAlternatives, alone]
  | literal bytes =>
    cases bytes with
    | nil => rw [flatAlternatives, alone, meaning_literal_nil, meaning]
    | cons b bytes => rw [flatAlternatives, alone]; simp
  | sequence items ih =>
    cases items with
    | nil => rw [flatAlternatives, alone, meaning, meaning, meaningAll]
    | cons e rest => rw [flatAlternatives_sequence (by simp), alone, meaning_single_sequence, meaning_flatItems ih, meaning]
  | choice alternatives ih => rw [flatAlternatives, meaning_flatChoice ih, meaning]
  | repetition body min max ih => rw [flatAlternatives, alone, meaning, meaning_single_choice, ih, meaning]

theorem meaning_flattened (e : Expr RuleId) : (flattened e).meaning byte rules = e.meaning byte rules := by
  rw [flattened, meaning_single_choice, meaning_flatAlternatives]

end

end Expr

section

variable {bodies others : Array (Expr RuleId)}

/-- Each rule has a counterpart that means the same, whatever the rules mean. -/
def MeansWithin (bodies others : Array (Expr RuleId)) : Prop :=
  ∀ r body, ruleBody? bodies r = some body → ∃ other, ruleBody? others r = some other ∧
    ∀ byte rules, body.meaning byte rules = other.meaning byte rules

theorem MeansWithin.ruleMeaning_le (within : MeansWithin bodies others) (byte : Language UInt8)
    (goal : RuleId → Language UInt8) : ruleMeaning bodies byte goal ≤ ruleMeaning others byte goal := by
  apply GuidedDecoding.ruleMeaning_le
  intro r body found
  obtain ⟨other, counterpart, same⟩ := within r body found
  rw [ruleMeaning_eq counterpart]
  exact (same byte _).le

theorem MeansWithin.ruleMeaning_eq (within : MeansWithin bodies others) (around : MeansWithin others bodies)
    (byte : Language UInt8) (goal : RuleId → Language UInt8) :
    ruleMeaning bodies byte goal = ruleMeaning others byte goal :=
  le_antisymm (within.ruleMeaning_le byte goal) (around.ruleMeaning_le byte goal)

theorem leftRecursiveRule?_congr (same : ∀ goal, ruleMeaning bodies 0 goal = ruleMeaning others 0 goal)
    {preferred preferred' : Nat} :
    leftRecursiveRule? bodies preferred = none ↔ leftRecursiveRule? others preferred' = none := by
  rw [leftRecursiveRule?_eq_none_iff, leftRecursiveRule?_eq_none_iff]
  refine forall_congr' fun r => not_congr ?_
  rw [LeftRecursive, LeftRecursive, transGen_leftCall_iff, transGen_leftCall_iff, same]

end

namespace Rule

def flattened (rule : Rule) : Rule := { rule with body := rule.body.flattened }

def printed (name : RuleId → String) (rule : Rule) : Definition := ⟨rule.name, rule.body.printed name⟩

def toFragments (name : RuleId → String) (rule : Rule) : FragmentRule := ⟨rule.name, rule.body.toAlternatives name⟩

end Rule

namespace Grammar

def nameIn (rules : List Rule) (r : RuleId) : String := (rules[r]?.map Rule.name).getD "<unknown>"

theorem text_eq (grammar : Grammar) :
    grammar.text = grammar.rules.toList.flatMap (Rule.text (nameIn grammar.rules.toList)) := by
  have names : (fun r => (grammar.ruleName? r).getD "<unknown>") = nameIn grammar.rules.toList := by
    funext r
    rw [ruleName?, nameIn, Array.getElem?_toList]
  rw [text, names]

/-- Rules that can be printed: their names are distinct names, and they refer to each other only. -/
structure Presentable (rules : List Rule) : Prop where
  distinct : (rules.map Rule.name).Nodup
  isName : ∀ rule ∈ rules, Token.IsName rule.name
  writable : ∀ rule ∈ rules, rule.body.AllWritable (· < rules.length)

namespace Presentable

variable {rules : List Rule} (presentable : Presentable rules)
include presentable

theorem isName_nameIn {r : RuleId} (inside : r < rules.length) : Token.IsName (nameIn rules r) := by
  rw [nameIn, List.getElem?_eq_getElem inside]
  exact presentable.isName _ (List.getElem_mem inside)

theorem text_eq : rules.flatMap (Rule.text (nameIn rules)) =
    (rules.map (Rule.toFragments (nameIn rules))).flatMap (FragmentRule.spaced []) := by
  rw [List.flatMap_map]
  refine List.flatMap_congr fun rule member => ?_
  rw [← FragmentRule.text_eq_spaced, FragmentRule.text, Rule.text, (Expr.text_eq (presentable.writable rule member)).1]
  rfl

theorem legible_iff {rule : Rule} (member : rule ∈ rules) :
    (rule.toFragments (nameIn rules)).Legible ↔ rule.body.Every (Expr.Bare (nameIn rules)) := by
  have writable := presentable.writable rule member
  rw [← Expr.allLegible_iff writable]
  constructor
  · exact fun h sequence member => ⟨h.inhabited sequence member, h.legible sequence member⟩
  · exact fun h => ⟨Expr.toAlternatives_ne_nil writable, fun sequence member => (h sequence member).1,
      fun sequence member => (h sequence member).2⟩

theorem read_iff (inhabited : rules ≠ []) {definitions : List Definition} :
    Definition.read (rules.flatMap (Rule.text (nameIn rules))) = .ok definitions ↔
      (∀ rule ∈ rules, rule.body.Every (Expr.Bare (nameIn rules))) ∧
        rules.map (Rule.printed (nameIn rules)) = definitions := by
  have spelled : ∀ fragments ∈ rules.map (Rule.toFragments (nameIn rules)), fragments.Spelled := by
    intro fragments member
    obtain ⟨rule, among, rfl⟩ := List.mem_map.mp member
    exact ⟨presentable.isName rule among, Expr.spelled_toAlternatives (presentable.writable rule among)
      fun r inside => presentable.isName_nameIn inside⟩
  have read := @Definition.read_rules [] [] (by simp) (by simp) _ (by simpa using inhabited) spelled definitions
  rw [List.nil_append] at read
  rw [presentable.text_eq, read, List.forall_mem_map, List.map_map]
  exact and_congr (forall₂_congr fun rule member => presentable.legible_iff member) Iff.rfl

theorem resolve_printed {main : RuleId} (inside : main < rules.length) :
    resolve (rules.map (Rule.printed (nameIn rules))) (nameIn rules main) = .ok (rules.map Rule.flattened, main) := by
  have names : (rules.map (Rule.printed (nameIn rules))).map Definition.name = rules.map Rule.name := by
    rw [List.map_map]
    rfl
  obtain ⟨index, numbered, indexes⟩ := exists_indexes (names ▸ presentable.distinct)
  have number (r : RuleId) (inside : r < rules.length) : index[nameIn rules r]? = some r := by
    rw [indexes]
    refine ⟨(rules[r]).printed (nameIn rules), ?_, ?_⟩
    · rw [List.getElem?_map, List.getElem?_eq_getElem inside]
      rfl
    · rw [nameIn, List.getElem?_eq_getElem inside]
      rfl
  have each : ∀ rule ∈ rules, resolveDefinition index (rule.printed (nameIn rules)) = .ok rule.flattened := by
    intro rule member
    have finds : ∀ r < rules.length, resolveName index rule.name (nameIn rules r) = .ok r := fun r inside =>
      resolveName_eq_ok.mpr (number r inside)
    have resolved := Expr.resolve_printed finds (presentable.writable rule member)
    rw [resolveDefinition, Rule.printed, resolved]
    rfl
  have all : (rules.map (Rule.printed (nameIn rules))).mapM (resolveDefinition index) =
      .ok (rules.map Rule.flattened) := by
    rw [List.mapM_map]
    exact mapM_eq_ok each
  simp only [resolve, numbered, bind, Except.bind, number main inside, all]
  rfl

/-- Compilation of printed rules goes on with the rules that they are printed for. -/
theorem ofText_printed (bare : ∀ rule ∈ rules, rule.body.Every (Expr.Bare (nameIn rules))) {main : RuleId}
    (inside : main < rules.length) {settings : GrammarSettings} (named : nameIn rules main = settings.mainRule) :
    ofText (rules.flatMap (Rule.text (nameIn rules))) settings =
      checked settings.normalize (rules.map Rule.flattened) main := by
  have inhabited : rules ≠ [] := List.ne_nil_of_length_pos (Nat.zero_lt_of_lt inside)
  have read := (presentable.read_iff inhabited).mpr ⟨bare, rfl⟩
  rw [ofText_eq, resolvedText, read, ← named]
  change (resolve _ _ >>= _) = _
  rw [presentable.resolve_printed inside]
  rfl

end Presentable

theorem exists_read_of_ofText {text : List Char} {settings : GrammarSettings} {grammar : Grammar}
    (compiled : ofText text settings = .ok grammar) : ∃ definitions, Definition.read text = .ok definitions := by
  obtain ⟨definitions, read, _⟩ := of_bind_eq_ok compiled
  exact ⟨definitions, of_mapError_eq_ok read⟩

end Grammar

namespace Expr

variable {ref ref' ε : Type}

def Compact : Expr ref → Prop
  | sequence items => 2 ≤ items.length
  | choice alternatives => 2 ≤ alternatives.length
  | _ => True

theorem writable_of_resolve {target : String → Except ε ref'} {known : ref' → Prop}
    (maps : ∀ name r, target name = .ok r → known r) (e : Expr String) (e' : Expr ref')
    (resolved : e.resolve target = .ok e') (standard : e.Standard) : e'.Writable known ∧ e'.Compact := by
  cases e with
  | empty => exact absurd standard id
  | literal bytes =>
    cases bytes with
    | nil =>
      cases resolved
      exact ⟨trivial, trivial⟩
    | cons b bytes =>
      cases resolved
      exact ⟨standard, trivial⟩
  | charClass negated ranges =>
    cases resolved
    exact ⟨standard, trivial⟩
  | rule name =>
    rw [resolve] at resolved
    obtain ⟨r, found, rfl⟩ := of_map_eq_ok resolved
    exact ⟨maps name r found, trivial⟩
  | sequence items =>
    rw [resolve] at resolved
    obtain ⟨items', found, rfl⟩ := of_map_eq_ok resolved
    have several : 2 ≤ items'.length := (forall₂_of_resolveAll found).length_eq ▸ standard
    exact ⟨trivial, several⟩
  | choice alternatives =>
    rw [resolve] at resolved
    obtain ⟨alternatives', found, rfl⟩ := of_map_eq_ok resolved
    have several : 2 ≤ alternatives'.length := (forall₂_of_resolveAll found).length_eq ▸ standard
    exact ⟨List.ne_nil_of_length_pos (Nat.lt_of_succ_lt several), several⟩
  | repetition body min max =>
    rw [resolve] at resolved
    obtain ⟨body', _, rfl⟩ := of_map_eq_ok resolved
    exact ⟨standard, trivial⟩

variable {known : ref → Prop} {name : ref → String}

def Doubled : Expr ref → Prop
  | repetition (repetition _ _ _) _ _ => True
  | _ => False

theorem isRepeated_enclosed {e : Expr ref} (writable : e.AllWritable known) (compact : e.Compact) :
    (enclosed (e.toAlternatives name)).isRepeated = false ↔ ∀ body min max, e ≠ repetition body min max := by
  cases e with
  | sequence items =>
    have several : 2 ≤ (toSequence name items).length := by rwa [length_toSequence]
    have inhabited : items ≠ [] := List.ne_nil_of_length_pos (Nat.lt_of_succ_lt compact)
    rw [toAlternatives_sequence inhabited, Fragment.enclosed_eq_group fun piece same => by simp_all]
    simp [Fragment.isRepeated]
  | choice alternatives =>
    have several : 2 ≤ (toChoice name alternatives).length := Nat.le_trans compact (length_le_toChoice writable.inside)
    rw [toAlternatives, Fragment.enclosed_eq_group_of_length several]
    simp [Fragment.isRepeated]
  | _ => simp [toAlternatives, enclosed, Fragment.isRepeated, Fragment.empty]

theorem bare_iff_not_doubled {e : Expr ref} (writable : e.AllWritable known) (compact : e.Every Compact) :
    e.Every (Bare name) ↔ e.Every (¬·.Doubled) := by
  refine (writable.and compact).congr fun e both => ?_
  have writable : e.AllWritable known := both.imp fun _ h => h.1
  have compact : e.Every Compact := both.imp fun _ h => h.2
  cases e with
  | repetition body min max =>
    rw [Bare, isRepeated_enclosed writable.body compact.body.here]
    cases body <;> simp [Doubled]
  | _ => simp [Bare, Doubled]

end Expr

namespace Grammar

theorem presentable_of_resolvedText {text : List Char} {mainRule : String} {rules : List Rule} {main : RuleId}
    (resolved : resolvedText text mainRule = .ok (rules, main)) :
    Presentable rules ∧ (∀ rule ∈ rules, rule.body.Every Expr.Compact) ∧ nameIn rules main = mainRule := by
  obtain ⟨definitions, read, resolved⟩ := of_bind_eq_ok resolved
  have standard := Definition.standard_of_read (of_mapError_eq_ok read)
  obtain ⟨index, resolves, found⟩ := resolves_of_resolve resolved
  have each : ∀ rule ∈ rules, Token.IsName rule.name ∧
      rule.body.Every fun e => e.Writable (· < rules.length) ∧ e.Compact := by
    intro rule member
    obtain ⟨r, located⟩ := List.mem_iff_getElem?.mp member
    obtain ⟨d, here, named, body⟩ := resolves.origin located
    have own := standard d (List.mem_of_getElem? here)
    refine ⟨named ▸ own.name, own.body.resolve (Expr.writable_of_resolve fun name r found => ?_) body⟩
    obtain ⟨d, located, _⟩ := (resolves.indexes name r).mp (resolveName_eq_ok.mp found)
    rw [resolves.length]
    exact (List.getElem?_eq_some_iff.mp located).1
  refine ⟨⟨resolves.names ▸ resolves.nodup, fun rule member => (each rule member).1,
    fun rule member => (each rule member).2.imp fun _ h => h.1⟩,
    fun rule member => (each rule member).2.imp fun _ h => h.2, ?_⟩
  obtain ⟨d, located, named⟩ := (resolves.indexes mainRule main).mp found
  obtain ⟨rule, here, same, _⟩ := resolves.rule main d located
  rw [nameIn, here, ← named]
  exact same

/-- What the rules that a grammar is compiled from are like. -/
structure Origin (settings : GrammarSettings) (rules : List Rule) (main : RuleId) : Prop where
  presentable : Presentable rules
  compact : ∀ rule ∈ rules, rule.body.Every Expr.Compact
  below : ∀ rule ∈ rules, rule.body.Below rules.length
  inside : main < rules.length
  named : nameIn rules main = settings.mainRule
  free : leftRecursiveRule? (bodies (table settings.normalize rules)) rules.length = none

theorem exists_origin {text : String} {settings : GrammarSettings} {grammar : Grammar}
    (compiled : compile text settings = .ok grammar) :
    ∃ (rules : List Rule) (main : RuleId), grammar = ⟨table settings.normalize rules, main, settings.normalize⟩ ∧
      Origin settings rules main := by
  obtain ⟨rules, main, resolved, free, same⟩ := exists_resolvedText compiled
  obtain ⟨presentable, compact, named⟩ := presentable_of_resolvedText resolved
  obtain ⟨inside, below⟩ := below_of_resolvedText resolved
  exact ⟨rules, main, same, presentable, compact, below, inside, named, free⟩

end Grammar

end GuidedDecoding
