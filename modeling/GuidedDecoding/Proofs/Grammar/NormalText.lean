import Mathlib
import GuidedDecoding.Proofs.Grammar.NormalForm
import GuidedDecoding.Proofs.Grammar.Reprinting
import GuidedDecoding.Proofs.Schema.Names

namespace GuidedDecoding

namespace NormalForm

open GuidedDecoding.Expr

theorem freshName_eq_search (names : Std.TreeSet String) (owner : String) (counter tries : Nat) :
    (freshName names owner counter tries).2 = Names.search names owner (counter + 1) tries := by
  induction tries generalizing counter with
  | zero => rfl
  | succ tries ih =>
    rw [freshName, Names.search, Names.candidate]
    split_ifs
    · exact ih (counter + 1)
    · rfl

theorem freshName_notMem (names : Std.TreeSet String) (owner : String) (counter : Nat) :
    (freshName names owner counter names.size).2 ∉ names := by
  obtain ⟨n, _, _, found, new, _⟩ := Names.search_eq_first (Names.exists_candidate names owner (counter + 1))
  rw [freshName_eq_search, found]
  exact new

theorem isName_freshName {owner : String} (isName : Token.IsName owner) (names : Std.TreeSet String)
    (counter tries : Nat) : Token.IsName (freshName names owner counter tries).2 := by
  rw [freshName_eq_search]
  exact Token.isName_search isName _ _ _

inductive Simple : Expr RuleId → Prop where
  | charClass (negated : Bool) (ranges : List CodeRange) : Simple (.charClass negated ranges)
  | rule (r : RuleId) : Simple (.rule r)

inductive Item : Expr RuleId → Prop where
  | literal {bytes : List UInt8} (some : bytes ≠ []) : Item (.literal bytes)
  | charClass (negated : Bool) (ranges : List CodeRange) : Item (.charClass negated ranges)
  | rule (r : RuleId) : Item (.rule r)
  | repetition {unit : Expr RuleId} (simple : Simple unit) : Item (.repetition unit 0 none)

theorem Item.append {a b : List UInt8} (one : Item (.literal a)) : Item (.literal (a ++ b)) := by
  obtain ⟨some⟩ := one
  exact .literal (List.append_ne_nil_of_left_ne_nil some b)

theorem simple_of_unit? {unit : Expr RuleId} (alone : unit? [unit] = some unit) : Simple unit := by
  cases unit with
  | charClass negated ranges => exact .charClass negated ranges
  | rule r => exact .rule r
  | _ => cases alone

/-- The names of added rules differ from each other and from those that were taken before. -/
structure Named (taken : List String) (state : State) : Prop where
  distinct : (state.helpers.map Rule.name ++ taken).Nodup
  known : ∀ name ∈ state.helpers.map Rule.name ++ taken, name ∈ state.names
  isName : ∀ rule ∈ state.helpers, Token.IsName rule.name

namespace Named

variable {taken : List String}

theorem start (distinct : taken.Nodup) (next : RuleId) : Named taken ⟨.ofList taken, next, [], 0⟩ where
  distinct := distinct
  known _ member := Std.TreeSet.mem_ofList.mpr (List.contains_iff_mem.mpr member)
  isName := by simp

theorem count {state : State} (counter : Nat) (named : Named taken state) :
    Named taken { state with counter := counter } := ⟨named.distinct, named.known, named.isName⟩

theorem add {owner : String} {state : State} (alternatives : List (List (Expr RuleId))) (isName : Token.IsName owner)
    (named : Named taken state) : Named taken (addRule owner alternatives state).2 := by
  let name := (freshName state.names owner state.counter state.names.size).2
  have new : name ∉ state.names := freshName_notMem state.names owner state.counter
  refine ⟨List.nodup_cons.mpr ⟨fun member => new (named.known name member), named.distinct⟩, ?_, ?_⟩
  · intro other member
    rcases List.mem_cons.mp member with rfl | member
    · exact Std.TreeSet.mem_insert_self
    · exact Std.TreeSet.mem_insert.mpr (.inr (named.known other member))
  · exact List.forall_mem_cons.mpr ⟨isName_freshName isName _ _ _, named.isName⟩

end Named

theorem writable_mono {n m : Nat} (le : n ≤ m) {e : Expr RuleId} (writable : e.AllWritable (· < n)) :
    e.AllWritable (· < m) := by
  apply writable.imp
  intro e here
  cases e with
  | rule r => exact Nat.lt_of_lt_of_le here le
  | _ => exact here

theorem writable_append {n : Nat} {a b : List UInt8} (one : (Expr.literal a).AllWritable (· < n))
    (two : (Expr.literal b).AllWritable (· < n)) : (Expr.literal (a ++ b)).AllWritable (· < n) := by
  obtain ⟨s, rfl⟩ := one.here
  obtain ⟨t, rfl⟩ := two.here
  exact .leaf ⟨s ++ t, Utf8.encode_append s t⟩ rfl

theorem quantifiable_star : Quantifiable 0 none := by decide

def printing (taken : List String) : Discipline where
  item n e := Item e ∧ e.AllWritable (· < n)
  inhabited := True
  owner := Token.IsName
  kept := Named taken
  mono le here := ⟨here.1, writable_mono le here.2⟩
  join one two := ⟨one.1.append, writable_append one.2 two.2⟩
  call inside := ⟨.rule _, .leaf inside rfl⟩
  loop here alone := ⟨.repetition (simple_of_unit? alone), .repetition quantifiable_star here.2⟩
  count counter := Named.count counter
  add alternatives := Named.add alternatives

section

variable {taken : List String} {n : Nat}

theorem fed_of_writable {e : Expr RuleId} (writable : e.AllWritable (· < n)) : (printing taken).Fed n e := by
  apply writable.imp
  intro e here
  cases e with
  | literal bytes => exact fun some => ⟨.literal some, .leaf here rfl⟩
  | charClass negated ranges => exact ⟨.charClass negated ranges, .leaf here rfl⟩
  | rule r => exact ⟨.rule r, .leaf here rfl⟩
  | choice alternatives => exact fun _ => here
  | _ => trivial

theorem Item.bare {name : RuleId → String} {e : Expr RuleId} (item : Item e) : e.Every (Bare name) := by
  cases item with
  | repetition simple => cases simple <;> exact .repetition rfl (.leaf trivial rfl)
  | _ => exact .leaf trivial rfl

variable {body : Expr RuleId} (normal : (printing taken).Normal n body)
include normal

theorem writable_of_normal : body.AllWritable (· < n) := by
  obtain ⟨alternatives, rfl, choice⟩ := normal
  refine .intro (List.map_eq_nil_iff.not.mpr (choice.some trivial)) fun e member => ?_
  obtain ⟨items, among, rfl⟩ := List.mem_map.mp member
  exact .intro trivial fun e member => ((choice.each items among).each e member).2

theorem bare_of_normal (name : RuleId → String) : body.Every (Bare name) := by
  obtain ⟨alternatives, rfl, choice⟩ := normal
  refine .intro trivial fun e member => ?_
  obtain ⟨items, among, rfl⟩ := List.mem_map.mp member
  exact .intro trivial fun e member => ((choice.each items among).each e member).1.bare

end

section

variable {rules : List Rule} (presentable : Grammar.Presentable rules)
include presentable

theorem feeds_printing :
    ∀ rule ∈ rules, (printing (rules.map Rule.name)).owner rule.name ∧
      (printing (rules.map Rule.name)).Fed rules.length rule.body :=
  fun rule member => ⟨presentable.isName rule member, fed_of_writable (presentable.writable rule member)⟩

theorem normal_ofRules_printing :
    ∀ rule ∈ ofRules rules, (printing (rules.map Rule.name)).Normal (ofRules rules).length rule.body :=
  (Discipline.normal_ofRules (feeds_printing presentable) (Named.start presentable.distinct _)).2

theorem presentable_ofRules : Grammar.Presentable (ofRules rules) := by
  obtain ⟨sound, names, _⟩ :=
    Discipline.sound_outcome (feeds_printing presentable) (Named.start presentable.distinct _)
  have named : Named (rules.map Rule.name) (outcome rules).2 := sound.kept
  refine ⟨?_, fun rule member => ?_, fun rule member =>
    writable_of_normal (normal_ofRules_printing presentable rule member)⟩
  · rw [ofRules_eq, List.map_append, names, List.map_reverse]
    exact (List.perm_append_comm.trans ((List.reverse_perm _).append_right _)).nodup_iff.mpr named.distinct
  · rw [ofRules_eq] at member
    rcases List.mem_append.mp member with member | member
    · obtain ⟨old, among, same⟩ := List.mem_map.mp (names ▸ List.mem_map_of_mem member)
      exact same ▸ presentable.isName old among
    · exact named.isName rule (List.mem_reverse.mp member)

end

/-- What a sequence is read as that stands in a choice. -/
def compact : List (Expr RuleId) → Expr RuleId
  | [] => .empty
  | items => .single .sequence items

theorem flatAlternatives_item {e : Expr RuleId} (item : Item e) : flatAlternatives e = [e] := by
  cases item with
  | literal some => rw [flatAlternatives]; exact some
  | charClass negated ranges => rw [flatAlternatives]
  | rule r => rw [flatAlternatives]
  | repetition simple => cases simple <;> rw [flatAlternatives, flatAlternatives, single]

theorem flatItems_items {es : List (Expr RuleId)} (each : ∀ e ∈ es, Item e) : flatItems es = es := by
  induction es with
  | nil => rfl
  | cons e rest ih =>
    rw [flatItems, flatAlternatives_item (each e (by simp)), single, ih fun m member => each m (by simp [member])]

theorem flatAlternatives_sequence_items {es : List (Expr RuleId)} (each : ∀ e ∈ es, Item e) :
    flatAlternatives (.sequence es) = [compact es] := by
  cases es with
  | nil => rw [flatAlternatives, compact]
  | cons e rest => rw [flatAlternatives_sequence (by simp), flatItems_items each, compact]; simp

theorem flatChoice_sequences {alternatives : List (List (Expr RuleId))}
    (each : ∀ es ∈ alternatives, ∀ e ∈ es, Item e) :
    flatChoice (alternatives.map .sequence) = alternatives.map compact := by
  induction alternatives with
  | nil => rfl
  | cons es rest ih =>
    rw [List.map_cons, flatChoice, flatAlternatives_sequence_items (each es (by simp)),
      ih fun m member => each m (by simp [member])]
    rfl

theorem merge_merged {items : List (Expr RuleId)} (merged : Merged items) : merge items = items := by
  induction items with
  | nil => rfl
  | cons item rest ih =>
    change prepend item (merge rest) = _
    rw [ih merged.tail]
    unfold prepend
    split
    next a b rest => exact absurd trivial ((List.isChain_cons_cons.mp merged).1 trivial)
    next => rfl

section

variable (owner : String)

theorem items_item {e : Expr RuleId} (item : Item e) : items owner e = pure [e] := by
  cases item with
  | @literal bytes some =>
    cases bytes with
    | nil => exact absurd rfl some
    | cons b bytes => rw [items]; exact some
  | charClass negated ranges => rw [items]
  | rule r => rw [items]
  | repetition simple => cases simple <;> rw [items, items, pure_bind] <;> rfl

theorem itemsAll_items {es : List (Expr RuleId)} (each : ∀ e ∈ es, Item e) : itemsAll owner es = pure es := by
  induction es with
  | nil => rw [itemsAll]
  | cons e rest ih =>
    rw [itemsAll, items_item owner (each e (by simp)), ih fun m member => each m (by simp [member])]
    rfl

theorem items_compact {es : List (Expr RuleId)} (each : ∀ e ∈ es, Item e) :
    items owner (compact es) = pure es := by
  cases es with
  | nil => rw [compact, items]
  | cons e rest =>
    cases rest with
    | nil => exact items_item owner (each e (by simp))
    | cons other rest =>
      change items owner (.sequence _) = _
      rw [items, itemsAll_items owner each]

theorem compact_ne_choice {es : List (Expr RuleId)} (each : ∀ e ∈ es, Item e) (parts : List (Expr RuleId)) :
    compact es ≠ .choice parts := by
  intro same
  cases es with
  | nil => cases same
  | cons e rest =>
    cases rest with
    | nil =>
      have item : Item (.choice parts) := each _ (List.mem_singleton.mpr same.symm)
      cases item
    | cons other rest => cases same

variable {taken : List String} {n : Nat}

theorem alternatives_compact {parts : List (List (Expr RuleId))}
    (each : ∀ es ∈ parts, (printing taken).Sequence n es) : alternatives owner (parts.map compact) = pure parts := by
  induction parts with
  | nil => rw [List.map_nil, alternatives]
  | cons es rest ih =>
    have here := each es (by simp)
    have all : ∀ e ∈ es, Item e := fun e member => (here.each e member).1
    rw [List.map_cons, alternatives_cons owner (compact_ne_choice all), items_compact owner all, pure_bind,
      ih fun m member => each m (by simp [member]), pure_bind, merge_merged here.merged]

/-- The printed body is rewritten to itself, without any rule added to it. -/
theorem alternatives_flattened {parts : List (List (Expr RuleId))} (choice : (printing taken).Choice n parts) :
    alternatives owner [flattened (toBody parts)] = pure parts := by
  have flat : flattened (toBody parts) = .single .choice (parts.map compact) := by
    rw [flattened, toBody, flatAlternatives,
      flatChoice_sequences fun es among e member => ((choice.each es among).each e member).1]
  have again := alternatives_compact owner choice.each
  rw [flat]
  cases parts with
  | nil => exact absurd rfl (choice.some trivial)
  | cons es rest =>
    cases rest with
    | nil => exact again
    | cons other rest =>
      change alternatives owner [.choice ((es :: other :: rest).map compact)] = _
      rw [alternatives, again, alternatives]
      simp

end

theorem rewriteRule_of_alternatives {rule result : Rule} {parts : List (List (Expr RuleId))}
    (same : alternatives rule.name [rule.body] = pure parts) (body : result.body = toBody parts)
    (name : rule.name = result.name) {state : State} (reset : state.counter = 0) :
    rewriteRule rule state = (result, state) := by
  obtain ⟨names, next, helpers, counter⟩ := state
  obtain rfl : counter = 0 := reset
  rw [rewriteRule, same, pure_bind, ← body, name]
  rfl

theorem mapM_rewriteRule_of_each {source : Rule → Rule} {rules : List Rule}
    (each : ∀ rule ∈ rules, ∀ state : State, state.counter = 0 → rewriteRule (source rule) state = (rule, state))
    {state : State} (reset : state.counter = 0) : (rules.map source).mapM rewriteRule state = (rules, state) := by
  induction rules with
  | nil => rfl
  | cons rule rest ih =>
    have first := each rule (by simp) state reset
    have later := ih fun m member => each m (by simp [member])
    -- Neither the rule nor the rest of them adds anything, so the state is the same all along.
    have run {α β : Type} (x : Rewriting α) (f : α → Rewriting β) (state : State) :
        (x >>= f) state = f (x state).1 (x state).2 := rfl
    rw [List.map_cons, List.mapM_cons, run, first, run, later]
    rfl

theorem ofRules_map {source : Rule → Rule} {rules : List Rule}
    (each : ∀ rule ∈ rules, ∀ state : State, state.counter = 0 → rewriteRule (source rule) state = (rule, state)) :
    ofRules (rules.map source) = rules := by
  rw [ofRules_eq, outcome, mapM_rewriteRule_of_each each rfl]
  simp

theorem ofRules_flattened {taken : List String} {n : Nat} {rules : List Rule}
    (normal : ∀ rule ∈ rules, (printing taken).Normal n rule.body) : ofRules (rules.map Rule.flattened) = rules := by
  refine ofRules_map fun rule member state reset => ?_
  obtain ⟨parts, same, choice⟩ := normal rule member
  have spelled : alternatives rule.flattened.name [rule.flattened.body] = pure parts := by
    rw [Rule.flattened, same]
    exact alternatives_flattened _ choice
  exact rewriteRule_of_alternatives spelled same rfl reset

end NormalForm

namespace Grammar

theorem nameIn_ofRules {rules : List Rule} (below : ∀ rule ∈ rules, rule.body.Below rules.length) {r : RuleId}
    (inside : r < rules.length) : nameIn (NormalForm.ofRules rules) r = nameIn rules r := by
  have here := List.getElem?_eq_getElem inside
  obtain ⟨new, found, same⟩ := NormalForm.name_ofRules below here
  rw [nameIn, nameIn, found, here, Option.map_some, Option.map_some, same]

/-- A grammar in normal form comes back when it is compiled from its own text. -/
theorem compile_text_normal {text mainRule : String} {grammar : Grammar}
    (compiled : compile text ⟨mainRule, true⟩ = .ok grammar) :
    compile (String.ofList grammar.text) ⟨mainRule, true⟩ = .ok grammar := by
  obtain ⟨rules, main, rfl, origin⟩ := exists_origin compiled
  have normal := NormalForm.normal_ofRules_printing origin.presentable
  have presentable := NormalForm.presentable_ofRules origin.presentable
  have bare : ∀ rule ∈ NormalForm.ofRules rules, rule.body.Every (Expr.Bare _) := fun rule member =>
    NormalForm.bare_of_normal (normal rule member) (nameIn (NormalForm.ofRules rules))
  have named : nameIn (NormalForm.ofRules rules) main = mainRule :=
    (nameIn_ofRules origin.below origin.inside).trans origin.named
  have inside : main < (NormalForm.ofRules rules).length :=
    Nat.lt_of_lt_of_le origin.inside (NormalForm.below_ofRules origin.below).1
  have printed : ofText ((NormalForm.ofRules rules).flatMap _) ⟨mainRule, true⟩ = _ :=
    presentable.ofText_printed bare inside named
  have same : table true ((NormalForm.ofRules rules).map Rule.flattened) = table true rules :=
    congrArg List.toArray (NormalForm.ofRules_flattened normal)
  -- The rules are the same, but the first of them are no longer preferred in the search for a left-recursive one.
  have free : leftRecursiveRule? (bodies (table true rules)) ((NormalForm.ofRules rules).map Rule.flattened).length =
      none := leftRecursiveRule?_eq_none_iff.mpr (leftRecursiveRule?_eq_none_iff.mp origin.free)
  rw [compile, String.toList_ofList, text_eq]
  change ofText ((NormalForm.ofRules rules).flatMap (Rule.text (nameIn (NormalForm.ofRules rules)))) _ = _
  rw [printed]
  change checked true ((NormalForm.ofRules rules).map Rule.flattened) main = .ok ⟨table true rules, main, true⟩
  rw [checked, same, free]

theorem compile_text_normal_helpers :
    ∃ grammar : Grammar,
      compile "root ::= \"a\" (\"b\" | [c-e])\x7b1,2\x7d \"\" | root_1*\nroot_1 ::= \"f\"" ⟨"root", true⟩ =
          .ok grammar ∧
        compile (String.ofList grammar.text) ⟨"root", true⟩ = .ok grammar := by
  have succeeds : (compile "root ::= \"a\" (\"b\" | [c-e])\x7b1,2\x7d \"\" | root_1*\nroot_1 ::= \"f\""
      ⟨"root", true⟩).isOk = true := by decide +kernel
  obtain ⟨grammar, compiled⟩ := exists_of_isOk succeeds
  exact ⟨grammar, compiled, compile_text_normal compiled⟩

end Grammar

end GuidedDecoding
