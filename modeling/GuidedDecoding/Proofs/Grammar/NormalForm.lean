import Mathlib
import GuidedDecoding.Proofs.Grammar.Resolution

namespace GuidedDecoding.NormalForm

open GuidedDecoding.Expr

/-- A property of rules, the last one first, and of the numbers they have after `base` others. -/
def Numbered (base : Nat) (P : RuleId → Rule → Prop) : List Rule → Prop
  | [] => True
  | last :: earlier => P (base + earlier.length) last ∧ Numbered base P earlier

theorem numbered_iff {base : Nat} {P : RuleId → Rule → Prop} {added : List Rule} :
    Numbered base P added ↔ ∀ k rule, added.reverse[k]? = some rule → P (base + k) rule := by
  induction added with
  | nil => simp [Numbered]
  | cons rule earlier ih =>
    rw [Numbered, ih, List.reverse_cons]
    constructor
    · intro h k other found
      obtain ⟨last, before⟩ := h
      by_cases inside : k < earlier.reverse.length
      · rw [List.getElem?_append_left inside] at found
        exact before k other found
      · have size := (List.getElem?_eq_some_iff.mp found).1
        rw [List.length_append, List.length_singleton] at size
        obtain rfl : k = earlier.reverse.length :=
          Nat.le_antisymm (Nat.le_of_lt_succ size) (Nat.le_of_not_lt inside)
        rw [List.getElem?_concat_length, Option.some.injEq] at found
        rwa [← found, List.length_reverse]
    · intro all
      refine ⟨all _ rule ?_, fun k other found => all k other ?_⟩
      · rw [← List.length_reverse, List.getElem?_concat_length]
      · rwa [List.getElem?_append_left (List.getElem?_eq_some_iff.mp found).1]

theorem Numbered.imp {base : Nat} {P Q : RuleId → Rule → Prop} (h : ∀ r rule, P r rule → Q r rule)
    {added : List Rule} (numbered : Numbered base P added) : Numbered base Q added :=
  numbered_iff.mpr fun k rule found => h _ _ (numbered_iff.mp numbered k rule found)

def IsLiteral : Expr RuleId → Prop
  | .literal _ => True
  | _ => False

def Merged (items : List (Expr RuleId)) : Prop := items.IsChain fun one next => IsLiteral one → ¬IsLiteral next

theorem Merged.prepend {items : List (Expr RuleId)} (merged : Merged items) (item : Expr RuleId) :
    Merged (prepend item items) := by
  cases items with
  | nil => cases item <;> exact .singleton _
  | cons next rest =>
    cases item with
    | literal a =>
      cases next with
      | literal b =>
        cases rest with
        | nil => exact .singleton _
        | cons last rest => exact List.isChain_cons_cons.mpr (List.isChain_cons_cons.mp merged)
      | _ => exact List.isChain_cons_cons.mpr ⟨fun _ => id, merged⟩
    | _ => exact List.isChain_cons_cons.mpr ⟨False.elim, merged⟩

theorem merged_merge (items : List (Expr RuleId)) : Merged (merge items) := by
  induction items with
  | nil => exact .nil
  | cons item rest ih => exact Merged.prepend ih item

theorem Merged.append_rule {items : List (Expr RuleId)} (merged : Merged items) (r : RuleId) :
    Merged (items ++ [.rule r]) :=
  List.isChain_append.mpr ⟨merged, .singleton _, fun _ _ next member _ literal => by
    obtain rfl := Option.some.inj member
    exact literal⟩

theorem unit?_eq_some {items : List (Expr RuleId)} {unit : Expr RuleId} (found : unit? items = some unit) :
    items = [unit] := by
  unfold unit? at found
  split at found <;> cases found <;> rfl

theorem alternatives_cons (owner : String) {part : Expr RuleId} (other : ∀ parts, part ≠ .choice parts)
    (rest : List (Expr RuleId)) :
    alternatives owner (part :: rest) = (do
      let first ← items owner part
      let others ← alternatives owner rest
      return merge first :: others) := by
  cases part with
  | choice parts => exact absurd rfl (other parts)
  | _ => rfl

/-- What is to hold of items where there are so many rules, and what is to be kept of the state. The steps of the
rewriting conform to it. -/
structure Discipline where
  item : Nat → Expr RuleId → Prop
  inhabited : Prop
  owner : String → Prop
  kept : State → Prop
  mono : ∀ {n m : Nat} {e : Expr RuleId}, n ≤ m → item n e → item m e
  join : ∀ {n : Nat} {a b : List UInt8}, item n (.literal a) → item n (.literal b) → item n (.literal (a ++ b))
  call : ∀ {n : Nat} {r : RuleId}, r < n → item n (.rule r)
  loop : ∀ {n : Nat} {e : Expr RuleId}, item n e → unit? [e] = some e → item n (.repetition e 0 none)
  count : ∀ {state : State} (counter : Nat), kept state → kept { state with counter := counter }
  add : ∀ {name : String} {state : State} (alternatives : List (List (Expr RuleId))), owner name → kept state →
    kept (addRule name alternatives state).2

namespace Discipline

variable (d : Discipline)

def Items (n : Nat) (items : List (Expr RuleId)) : Prop := ∀ e ∈ items, d.item n e

structure Sequence (n : Nat) (items : List (Expr RuleId)) : Prop where
  each : d.Items n items
  merged : Merged items

structure Choice (n : Nat) (alternatives : List (List (Expr RuleId))) : Prop where
  some : d.inhabited → alternatives ≠ []
  each : ∀ items ∈ alternatives, d.Sequence n items

def Normal (n : Nat) (body : Expr RuleId) : Prop := ∃ alternatives, body = toBody alternatives ∧ d.Choice n alternatives

def Feeds (n : Nat) : Expr RuleId → Prop
  | .literal bytes => bytes ≠ [] → d.item n (.literal bytes)
  | .charClass negated ranges => d.item n (.charClass negated ranges)
  | .rule r => d.item n (.rule r)
  | .choice alternatives => d.inhabited → alternatives ≠ []
  | .empty | .sequence _ | .repetition _ _ _ => True

abbrev Fed (n : Nat) (e : Expr RuleId) : Prop := e.Every (d.Feeds n)

/-- Added rules follow the `base` rules there were, and refer to rules that are there already. -/
structure Sound (base : Nat) (state : State) : Prop where
  next : state.next = base + state.helpers.length
  helpers : Numbered base (fun r rule => d.Normal r rule.body) state.helpers
  kept : d.kept state

/-- Where at least `n` rules are there, the rewriting keeps all of them and has a result as told. -/
def Yields {α : Type} (base n : Nat) (rewriting : Rewriting α) (result : Nat → α → Prop) : Prop :=
  ∀ state : State, d.Sound base state → n ≤ state.next →
    d.Sound base (rewriting state).2 ∧ state.next ≤ (rewriting state).2.next ∧
      result (rewriting state).2.next (rewriting state).1

variable {d}

namespace Yields

variable {α β : Type} {base n : Nat} {P : Nat → α → Prop} {Q : Nat → β → Prop}

theorem pure {a : α} (h : ∀ m, n ≤ m → P m a) : d.Yields base n (pure a) P :=
  fun state sound le => ⟨sound, Nat.le_refl _, h state.next le⟩

theorem bind {rewriting : Rewriting α} {next : α → Rewriting β} (first : d.Yields base n rewriting P)
    (second : ∀ a m, n ≤ m → P m a → d.Yields base m (next a) Q) : d.Yields base n (rewriting >>= next) Q := by
  intro state sound le
  obtain ⟨middle, grown, held⟩ := first state sound le
  obtain ⟨last, further, held⟩ := second _ _ (Nat.le_trans le grown) held _ middle (Nat.le_refl _)
  exact ⟨last, Nat.le_trans grown further, held⟩

theorem weaken {m : Nat} {rewriting : Rewriting α} (yields : d.Yields base n rewriting P) (le : n ≤ m) :
    d.Yields base m rewriting P := fun state sound held => yields state sound (Nat.le_trans le held)

end Yields

namespace Items

variable {n : Nat}

theorem nil : d.Items n [] := by simp [Items]

theorem single {e : Expr RuleId} (here : d.item n e) : d.Items n [e] := by simpa [Items] using here

theorem append {items more : List (Expr RuleId)} (one : d.Items n items) (two : d.Items n more) :
    d.Items n (items ++ more) := by
  intro e member
  exact (List.mem_append.mp member).elim (one e) (two e)

theorem mono {m : Nat} (le : n ≤ m) {items : List (Expr RuleId)} (here : d.Items n items) :
    d.Items m items := fun e member => d.mono le (here e member)

theorem prepend {item : Expr RuleId} {items : List (Expr RuleId)} (first : d.item n item)
    (rest : d.Items n items) : d.Items n (prepend item items) := by
  unfold NormalForm.prepend
  split
  next a b rest =>
    obtain ⟨next, rest⟩ := List.forall_mem_cons.mp rest
    exact List.forall_mem_cons.mpr ⟨d.join first next, rest⟩
  next => exact List.forall_mem_cons.mpr ⟨first, rest⟩

theorem merge {items : List (Expr RuleId)} (here : d.Items n items) : d.Items n (merge items) := by
  induction items with
  | nil => exact nil
  | cons item rest ih =>
    obtain ⟨first, rest⟩ := List.forall_mem_cons.mp here
    exact prepend first (ih rest)

theorem sequence {items : List (Expr RuleId)} (here : d.Items n items) : d.Sequence n (NormalForm.merge items) :=
  ⟨here.merge, merged_merge items⟩

end Items

theorem Sequence.mono {n m : Nat} (le : n ≤ m) {items : List (Expr RuleId)} (here : d.Sequence n items) :
    d.Sequence m items := ⟨here.each.mono le, here.merged⟩

theorem Choice.mono {n m : Nat} (le : n ≤ m) {alternatives : List (List (Expr RuleId))}
    (here : d.Choice n alternatives) : d.Choice m alternatives :=
  ⟨here.some, fun items member => (here.each items member).mono le⟩

theorem Choice.append {n : Nat} {alternatives more : List (List (Expr RuleId))}
    (one : d.Choice n alternatives) (two : ∀ items ∈ more, d.Sequence n items) :
    d.Choice n (alternatives ++ more) :=
  ⟨fun must => by simp [one.some must], fun items member => (List.mem_append.mp member).elim (one.each items) (two items)⟩

theorem Fed.mono {n m : Nat} (le : n ≤ m) {e : Expr RuleId} (fed : d.Fed n e) : d.Fed m e := by
  apply fed.imp
  intro e here
  cases e with
  | literal bytes => exact fun some => d.mono le (here some)
  | charClass negated ranges => exact d.mono le here
  | rule r => exact d.mono le here
  | _ => exact here

section

variable {base n : Nat} {owner : String}

theorem alternatives_yields {parts : List (Expr RuleId)}
    (each : ∀ e ∈ parts, d.Yields base n (items owner e) d.Items)
    (inner : ∀ e ∈ parts, ∀ inside, e = .choice inside →
      d.Yields base n (alternatives owner inside) d.Choice) :
    d.Yields base n (alternatives owner parts) fun m result =>
      (parts ≠ [] → d.inhabited → result ≠ []) ∧ ∀ items ∈ result, d.Sequence m items := by
  induction parts with
  | nil => exact .pure fun m le => ⟨by simp, by simp⟩
  | cons part rest ih =>
    have others := ih (fun e member => each e (by simp [member])) fun e member => inner e (by simp [member])
    by_cases choice : ∃ inside, part = .choice inside
    · obtain ⟨inside, rfl⟩ := choice
      rw [alternatives]
      apply Yields.bind (inner _ (by simp) inside rfl)
      intro first m le held
      apply Yields.bind (others.weaken le)
      intro others k further h
      obtain ⟨_, later⟩ := h
      apply Yields.pure
      intro l last
      have all := (held.mono (Nat.le_trans further last)).append fun items member => (later items member).mono last
      exact ⟨fun _ => all.some, all.each⟩
    · rw [alternatives_cons owner fun inside same => choice ⟨inside, same⟩]
      apply Yields.bind (each part (by simp))
      intro first m le held
      apply Yields.bind (others.weaken le)
      intro others k further h
      obtain ⟨_, later⟩ := h
      apply Yields.pure
      intro l last
      refine ⟨by simp, fun items member => ?_⟩
      rcases List.mem_cons.mp member with rfl | member
      · exact (held.mono (Nat.le_trans further last)).sequence
      · exact (later items member).mono last

theorem itemsAll_yields {parts : List (Expr RuleId)}
    (each : ∀ e ∈ parts, d.Yields base n (items owner e) d.Items) :
    d.Yields base n (itemsAll owner parts) d.Items := by
  induction parts with
  | nil => exact .pure fun m le => .nil
  | cons part rest ih =>
    have others := ih fun e member => each e (by simp [member])
    rw [itemsAll]
    apply Yields.bind (each part (by simp))
    intro first m le held
    exact .bind (others.weaken le) fun others k further later =>
      .pure fun l last => (held.mono (Nat.le_trans further last)).append (later.mono last)

variable (owns : d.owner owner)
include owns

theorem addRule_yields {alternatives : List (List (Expr RuleId))} (choice : d.Choice n alternatives) :
    d.Yields base n (addRule owner alternatives) fun m e => ∃ r < m, e = .rule r := by
  intro state sound le
  refine ⟨⟨?_, ?_, d.add alternatives owns sound.kept⟩, Nat.le_succ _, state.next, Nat.lt_succ_self _, rfl⟩
  · simp only [addRule, List.length_cons]
    rw [sound.next, Nat.add_assoc]
  · refine ⟨?_, sound.helpers⟩
    rw [← sound.next]
    exact ⟨alternatives, rfl, choice.mono le⟩

theorem optionalCopies_yields {items tail : List (Expr RuleId)} (sequence : d.Sequence n items)
    (last : d.Items n tail) (merged : Merged (items ++ tail)) (count : Nat) :
    d.Yields base n (optionalCopies owner items tail count) d.Items := by
  induction count generalizing n tail with
  | zero => exact .pure fun m le => last.mono le
  | succ count ih =>
    have alternatives : d.Choice n [items ++ tail, []] := by
      refine ⟨fun _ => by simp, fun part member => ?_⟩
      rcases List.mem_pair.mp member with rfl | rfl
      · exact ⟨sequence.each.append last, merged⟩
      · exact ⟨.nil, .nil⟩
    apply Yields.bind (addRule_yields owns alternatives)
    rintro _ m le ⟨r, inside, rfl⟩
    exact ih (sequence.mono le) (.single (d.call inside)) (sequence.merged.append_rule r)

theorem repeated_yields {items : List (Expr RuleId)} (sequence : d.Sequence n items) (min : Nat)
    (max : Option Nat) : d.Yields base n (repeated owner items min max) d.Items := by
  have required {m : Nat} (le : n ≤ m) : d.Items m (List.replicate min items).flatten := by
    intro e member
    obtain ⟨copy, among, inside⟩ := List.mem_flatten.mp member
    rw [List.eq_of_mem_replicate among] at inside
    exact sequence.each.mono le e inside
  unfold repeated
  split
  next => exact .pure fun m le => .nil
  next filled =>
    cases max with
    | none =>
      have last {unit : Expr RuleId} {m : Nat} (le : n ≤ m) (one : d.item m unit) (alone : unit? [unit] = some unit) :
          d.Yields base m (Pure.pure ((List.replicate min items).flatten ++ [.repetition unit 0 none])) d.Items :=
        .pure fun k further =>
          (required (Nat.le_trans le further)).append (.single (d.loop (d.mono further one) alone))
      dsimp only
      split
      next unit found =>
        obtain rfl := unit?_eq_some found
        have one : d.Yields base n (Pure.pure unit) fun m e => d.item m e ∧ unit? [e] = some e :=
          .pure fun m le => ⟨d.mono le (sequence.each unit (by simp)), found⟩
        exact .bind one fun unit m le one => last le one.1 one.2
      next =>
        refine .bind (addRule_yields owns ⟨fun _ => by simp, by simpa using sequence⟩) ?_
        rintro _ m le ⟨r, inside, rfl⟩
        exact last le (d.call inside) rfl
    | some max =>
      apply Yields.bind (optionalCopies_yields owns sequence .nil (by simpa using sequence.merged) _)
      intro copies m le optional
      exact .pure fun k further => (required (Nat.le_trans le further)).append (optional.mono further)

theorem items_yields {e : Expr RuleId} (fed : d.Fed n e) :
    d.Yields base n (items owner e) d.Items ∧
      ∀ inside, e = .choice inside → d.Yields base n (alternatives owner inside) d.Choice := by
  have leaf {e : Expr RuleId} (here : d.item n e) : d.Yields base n (pure [e] : Rewriting _) d.Items :=
    .pure fun m le => .single (d.mono le here)
  induction e using structural with
  | empty => exact ⟨.pure fun m le => .nil, by simp⟩
  | literal bytes =>
    cases bytes with
    | nil => exact ⟨.pure fun m le => .nil, by simp⟩
    | cons b bytes => exact ⟨leaf (fed.here (by simp)), by simp⟩
  | charClass negated ranges => exact ⟨leaf fed.here, by simp⟩
  | rule r => exact ⟨leaf fed.here, by simp⟩
  | sequence parts ih =>
    refine ⟨?_, by simp⟩
    rw [items]
    exact itemsAll_yields fun e member => (ih e member (fed.inside e member)).1
  | choice parts ih =>
    have parts_yield : d.Yields base n (alternatives owner parts) d.Choice := by
      have all := alternatives_yields
        (fun e member => (ih e member (fed.inside e member)).1)
        fun e member => (ih e member (fed.inside e member)).2
      intro state sound le
      obtain ⟨after, grown, inhabited, held⟩ := all state sound le
      exact ⟨after, grown, fun must => inhabited (fed.here must) must, held⟩
    refine ⟨?_, fun inside same => ?_⟩
    · rw [items]
      apply Yields.bind parts_yield
      intro result m le held
      split
      next only => exact .pure fun k further => (held.each only (by simp)).each.mono further
      next =>
        refine .bind (addRule_yields owns held) ?_
        rintro _ k further ⟨r, inside, rfl⟩
        exact .pure fun l last => .single (d.mono last (d.call inside))
    · cases same
      exact parts_yield
  | repetition body min max ih =>
    refine ⟨?_, by simp⟩
    rw [items]
    apply Yields.bind (ih fed.body).1
    intro unit m le held
    exact repeated_yields owns held.sequence min max

end

theorem rewriteRule_yields {base : Nat} {rule : Rule} (owns : d.owner rule.name) (fed : d.Fed base rule.body) :
    d.Yields base base (rewriteRule rule) fun m result => result.name = rule.name ∧ d.Normal m result.body := by
  have reset : d.Yields base base
      (modify fun state => { state with counter := 0 } : Rewriting PUnit) fun _ _ => True :=
    fun state sound le => ⟨⟨sound.next, sound.helpers, d.count 0 sound.kept⟩, Nat.le_refl _, trivial⟩
  apply Yields.bind reset
  intro _ n le _
  have parts : d.Yields base n (alternatives rule.name [rule.body]) fun m result =>
      ([rule.body] ≠ [] → d.inhabited → result ≠ []) ∧ ∀ items ∈ result, d.Sequence m items := by
    have body : d.Yields base n (items rule.name rule.body) d.Items ∧ _ := items_yields owns (fed.mono le)
    refine alternatives_yields (fun e member => ?_) fun e member => ?_
    · obtain rfl := List.mem_singleton.mp member
      exact body.1
    · obtain rfl := List.mem_singleton.mp member
      exact body.2
  apply Yields.bind parts
  intro result m further held
  apply Yields.pure
  intro k last
  have choice : d.Choice m result := ⟨held.1 (by simp), held.2⟩
  exact ⟨rfl, result, rfl, choice.mono last⟩

theorem Normal.mono {n m : Nat} (le : n ≤ m) {body : Expr RuleId} (normal : d.Normal n body) : d.Normal m body := by
  obtain ⟨alternatives, same, choice⟩ := normal
  exact ⟨alternatives, same, choice.mono le⟩

theorem mapM_rewriteRule_yields {base : Nat} {rules : List Rule}
    (each : ∀ rule ∈ rules, d.owner rule.name ∧ d.Fed base rule.body) :
    d.Yields base base (rules.mapM rewriteRule) fun m results =>
      results.map Rule.name = rules.map Rule.name ∧ ∀ rule ∈ results, d.Normal m rule.body := by
  induction rules with
  | nil => exact .pure fun m le => ⟨rfl, by simp⟩
  | cons rule rest ih =>
    obtain ⟨⟨owns, fed⟩, others⟩ := List.forall_mem_cons.mp each
    rw [List.mapM_cons]
    apply Yields.bind (rewriteRule_yields owns fed)
    intro rewritten m le h
    obtain ⟨name, held⟩ := h
    apply Yields.bind ((ih others).weaken le)
    intro results k further h
    obtain ⟨names, normal⟩ := h
    apply Yields.pure
    intro l last
    refine ⟨by simp [name, names], List.forall_mem_cons.mpr ⟨?_, fun rule member => ?_⟩⟩
    · exact held.mono (Nat.le_trans further last)
    · exact (normal rule member).mono last

end Discipline

def outcome (rules : List Rule) : List Rule × State :=
  (rules.mapM rewriteRule) ⟨.ofList (rules.map Rule.name), rules.length, [], 0⟩

theorem ofRules_eq (rules : List Rule) :
    ofRules rules = (outcome rules).1 ++ (outcome rules).2.helpers.reverse := rfl

namespace Discipline

variable {d : Discipline} {rules : List Rule} (each : ∀ rule ∈ rules, d.owner rule.name ∧ d.Fed rules.length rule.body)
  (start : d.kept ⟨.ofList (rules.map Rule.name), rules.length, [], 0⟩)
include each start

theorem sound_outcome : d.Sound rules.length (outcome rules).2 ∧
    (outcome rules).1.map Rule.name = rules.map Rule.name ∧
      ∀ rule ∈ (outcome rules).1, d.Normal (outcome rules).2.next rule.body := by
  have first : d.Sound rules.length ⟨.ofList (rules.map Rule.name), rules.length, [], 0⟩ := ⟨rfl, trivial, start⟩
  obtain ⟨sound, _, held⟩ := mapM_rewriteRule_yields each _ first (Nat.le_refl _)
  exact ⟨sound, held⟩

/-- All rules have bodies in normal form, and there are no fewer of them. -/
theorem normal_ofRules : rules.length ≤ (ofRules rules).length ∧
    ∀ rule ∈ ofRules rules, d.Normal (ofRules rules).length rule.body := by
  obtain ⟨sound, names, rewritten⟩ := sound_outcome each start
  have length : (outcome rules).1.length = rules.length := by simpa using congrArg List.length names
  have size : (ofRules rules).length = (outcome rules).2.next := by
    rw [ofRules_eq, List.length_append, List.length_reverse, length, sound.next]
  rw [size]
  refine ⟨sound.next.symm ▸ Nat.le_add_right _ _, fun rule member => ?_⟩
  rw [ofRules_eq] at member
  rcases List.mem_append.mp member with member | member
  · exact rewritten rule member
  · obtain ⟨k, found⟩ := List.mem_iff_getElem?.mp member
    have early := (List.getElem?_eq_some_iff.mp found).1
    rw [List.length_reverse] at early
    rw [sound.next]
    exact (numbered_iff.mp sound.helpers k rule found).mono (Nat.add_le_add_left early.le _)

end Discipline

def referring : Discipline where
  item n e := e.Below n
  inhabited := True
  owner _ := True
  kept _ := True
  mono le below := below.mono le
  join _ _ := .leaf trivial rfl
  call inside := .leaf inside rfl
  loop below _ := .repetition trivial below
  count _ _ := trivial
  add _ _ _ := trivial

theorem fed_of_below {n : Nat} {e : Expr RuleId} (below : e.Below n) : referring.Fed n e := by
  apply below.imp
  intro e resolved
  cases e with
  | literal bytes => exact fun _ => .leaf trivial rfl
  | charClass negated ranges => exact .leaf trivial rfl
  | rule r => exact .leaf resolved rfl
  | choice alternatives => exact fun _ => resolved
  | _ => trivial

theorem below_of_normal {n : Nat} {body : Expr RuleId} (normal : referring.Normal n body) : body.Below n := by
  obtain ⟨alternatives, rfl, choice⟩ := normal
  refine .intro (List.map_eq_nil_iff.not.mpr (choice.some trivial)) fun e member => ?_
  obtain ⟨items, among, rfl⟩ := List.mem_map.mp member
  exact .intro trivial (choice.each items among).each

section

variable {rules : List Rule} (below : ∀ rule ∈ rules, rule.body.Below rules.length)
include below

theorem sound_referring : referring.Sound rules.length (outcome rules).2 ∧
    (outcome rules).1.map Rule.name = rules.map Rule.name ∧
      ∀ rule ∈ (outcome rules).1, referring.Normal (outcome rules).2.next rule.body :=
  Discipline.sound_outcome (fun rule member => ⟨trivial, fed_of_below (below rule member)⟩) trivial

theorem below_helpers : Numbered rules.length (fun r rule => rule.body.Below r) (outcome rules).2.helpers :=
  (sound_referring below).1.helpers.imp fun _ _ => below_of_normal

theorem length_outcome : (outcome rules).1.length = rules.length := by
  simpa using congrArg List.length (sound_referring below).2.1

theorem exists_names_ofRules : ∃ helpers, (ofRules rules).map Rule.name = rules.map Rule.name ++ helpers := by
  rw [ofRules_eq, List.map_append, (sound_referring below).2.1]
  exact ⟨_, rfl⟩

theorem name_ofRules {r : RuleId} {old : Rule} (found : rules[r]? = some old) :
    ∃ new, (ofRules rules)[r]? = some new ∧ new.name = old.name := by
  obtain ⟨helpers, names⟩ := exists_names_ofRules below
  have inside : r < (rules.map Rule.name).length := by
    rw [List.length_map]
    exact (List.getElem?_eq_some_iff.mp found).1
  have here := congrArg (fun names => names[r]?) names
  rw [List.getElem?_append_left inside, List.getElem?_map, List.getElem?_map, found] at here
  exact Option.map_eq_some_iff.mp here

theorem below_ofRules : rules.length ≤ (ofRules rules).length ∧
    ∀ rule ∈ ofRules rules, rule.body.Below (ofRules rules).length := by
  have fed : ∀ rule ∈ rules, referring.owner rule.name ∧ referring.Fed rules.length rule.body :=
    fun rule member => ⟨trivial, fed_of_below (below rule member)⟩
  obtain ⟨grown, normal⟩ := Discipline.normal_ofRules fed trivial
  exact ⟨grown, fun rule member => below_of_normal (normal rule member)⟩

end

end GuidedDecoding.NormalForm
