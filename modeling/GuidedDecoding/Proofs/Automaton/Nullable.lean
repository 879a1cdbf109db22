import Mathlib
import GuidedDecoding.Proofs.Automaton.Acceptance
import GuidedDecoding.Proofs.Grammar.LeftRecursion

namespace GuidedDecoding

def emptyRules (bodies : Array (Expr RuleId)) (known : RuleId → Bool) (r : RuleId) : Bool :=
  (ruleBody? bodies r).any (·.nullable known)

theorem emptyRules_eq_true {bodies : Array (Expr RuleId)} {known : RuleId → Bool} {r : RuleId} :
    emptyRules bodies known r = true ↔ ∃ body, ruleBody? bodies r = some body ∧ body.nullable known = true :=
  Option.any_eq_true _ _

theorem Expr.nullable_mono {known more : RuleId → Bool} (le : known ≤ more) (e : Expr RuleId)
    (empty : e.nullable known = true) : e.nullable more = true := by
  have matching (held : RuleId → Bool) (r : RuleId) :
      held r = true ↔ [] ∈ ({w | held r = true} : Language UInt8) := Iff.rfl
  rw [nullable_iff (matching known)] at empty
  rw [nullable_iff (matching more)]
  exact language_mono (fun r _ held => le r held) e empty

theorem monotone_emptyRules (bodies : Array (Expr RuleId)) : Monotone (emptyRules bodies) := by
  intro known more le r empty
  obtain ⟨body, found, empty⟩ := emptyRules_eq_true.mp empty
  exact emptyRules_eq_true.mpr ⟨body, found, body.nullable_mono le empty⟩

namespace Automaton

variable {bodies : Array (Expr RuleId)} {main : RuleId} {known : RuleId → Bool}

/-- A transition that needs no input. -/
inductive Skip (a : Automaton) (known : RuleId → Bool) (v : Node) : Node → Prop where
  | silent {next : Node} (edge : .silent next ∈ a.transitionsAt v) : Skip a known v next
  | call {r : RuleId} {next : Node} (edge : .call r next ∈ a.transitionsAt v) (empty : known r = true) :
    Skip a known v next

theorem mem_skips {r : RuleId} {v next : Node} :
    next ∈ (ofBodies bodies main).skips known r v ↔ Skip (ofBodies bodies main) known v next := by
  unfold skips
  split
  next ended =>
    obtain ⟨inside, rfl⟩ := completed?_eq_some.mp ended
    refine iff_of_false List.not_mem_nil fun skip => ?_
    cases skip with
    | silent edge => exact not_mem_transitionsAt_exit inside _ edge
    | call edge => exact not_mem_transitionsAt_exit inside _ edge
  next =>
    rw [List.mem_filterMap]
    constructor
    · intro ⟨t, edge, onward⟩
      cases t with
      | byte range target => cases onward
      | silent target =>
        obtain rfl := Option.some.inj onward
        exact .silent edge
      | call c target =>
        dsimp only at onward
        split at onward
        next empty =>
          obtain rfl := Option.some.inj onward
          exact .call edge empty
        next => cases onward
    · intro skip
      cases skip with
      | silent edge => exact ⟨_, edge, rfl⟩
      | call edge empty => exact ⟨_, edge, if_pos empty⟩

theorem closed_skips {r : RuleId} (v : Node) (_ : v < (ofBodies bodies main).nodeCount) (next : Node)
    (step : next ∈ (ofBodies bodies main).skips known r v) : next < (ofBodies bodies main).nodeCount := by
  cases mem_skips.mp step with
  | silent edge => exact next_lt_nodeCount edge
  | call edge => exact next_lt_nodeCount edge

theorem size_le_nodeCount {a : Automaton} (found : Std.TreeSet Node) (inside : ∀ v ∈ found, v < a.nodeCount) :
    found.size ≤ a.nodeCount :=
  size_le_of_code id inside fun _ _ _ _ => id

theorem start_inside {r : RuleId} (inside : r < bodies.size) :
    ∀ v ∈ [start r], v < (ofBodies bodies main).nodeCount :=
  List.forall_mem_singleton.mpr (start_lt_nodeCount inside)

theorem mem_explore_skips {r : RuleId} (inside : r < bodies.size) (v : Node) :
    v ∈ ((Worklist.start [start r]).explore ((ofBodies bodies main).skips known r) (ofBodies bodies main).nodeCount).1 ↔
      Leads ((ofBodies bodies main).skips known r) (start r) v := by
  refine (Worklist.mem_explore (· < (ofBodies bodies main).nodeCount) closed_skips size_le_nodeCount
    (start_inside inside) v).trans ?_
  simp only [List.mem_singleton, exists_eq_left]

theorem skipped_iff_leads {r : RuleId} (inside : r < bodies.size) :
    (ofBodies bodies main).skipped known r = true ↔
      Leads ((ofBodies bodies main).skips known r) (start r) (2 * r + 1) := by
  rw [skipped, List.any_eq_true]
  simp only [mem_explore_skips inside, beq_iff_eq, completed?_eq_some]
  constructor
  · rintro ⟨v, leads, -, rfl⟩
    exact leads
  · exact fun leads => ⟨2 * r + 1, leads, inside, rfl⟩

theorem emptyRules_of_leads {r : RuleId} (inside : r < bodies.size)
    (leads : Leads ((ofBodies bodies main).skips known r) (start r) (2 * r + 1)) :
    emptyRules bodies known r = true := by
  -- The first part of a label tells whether the end of the rule is reached from the node.
  obtain ⟨label, ends, edges⟩ := exists_labels bodies main (silence known)
    (fun r => (emptyRules bodies known r = true, Set.univ)) (fun _ => (True, ∅)) fun r body found => by
      refine ⟨fun ⟨empty, _⟩ => ?_, fun c _ => trivial⟩
      rw [Expr.nullable_plan] at empty
      exact emptyRules_eq_true.mpr ⟨body, found, empty⟩
  have reaches (v : Node) (onward : Leads ((ofBodies bodies main).skips known r) v (2 * r + 1)) : (label v).1 := by
    induction onward using Relation.ReflTransGen.head_induction_on with
    | refl =>
      rw [(ends r inside).2]
      trivial
    | head step _ ih =>
      cases mem_skips.mp step with
      | silent edge => exact (edges _ _ edge).1 ih
      | call edge empty => exact (edges _ _ edge).1 ⟨empty, ih⟩
  have entry := reaches _ leads
  rwa [start, (ends r inside).1] at entry

theorem leads_of_draw {r : RuleId} {plan : Plan} {first last : Node} {draft : Draft}
    (drawn : ∀ edge ∈ (plan.draw first last draft).edges,
      edge.2 ∈ (ofBodies bodies main).transitionsAt edge.1)
    (empty : plan.nullable known = true) :
    Leads ((ofBodies bodies main).skips known r) first last := by
  induction plan generalizing first last draft with
  | nothing | byte => cases empty
  | silent => exact .single (mem_skips.mpr (.silent (drawn _ List.mem_cons_self)))
  | call c => exact .single (mem_skips.mpr (.call (drawn _ List.mem_cons_self) empty))
  | join one other ihOne ihOther =>
    rw [Plan.nullable, Bool.and_eq_true] at empty
    have within := Draft.Within.draw other draft.size last (one.draw first draft.size draft.grow)
    exact (ihOne (fun edge member => drawn edge (within.edges member)) empty.1).trans (ihOther drawn empty.2)
  | beside one other ihOne ihOther =>
    have within := Draft.Within.draw other first last (one.draw first last draft)
    rw [Plan.nullable, Bool.or_eq_true] at empty
    rcases empty with empty | empty
    · exact ihOne (fun edge member => drawn edge (within.edges member)) empty
    · exact ihOther drawn empty
  | loop body ih =>
    have within := Draft.Within.draw body draft.size draft.size (draft.grow.edge first (.silent draft.size))
    have enter : .silent draft.size ∈ (ofBodies bodies main).transitionsAt first :=
      drawn (first, _) (List.mem_cons_of_mem _ (within.edges List.mem_cons_self))
    have leave : .silent last ∈ (ofBodies bodies main).transitionsAt draft.size :=
      drawn (draft.size, _) List.mem_cons_self
    exact .tail (.single (mem_skips.mpr (.silent enter))) (mem_skips.mpr (.silent leave))

theorem skipped_ofBodies (bodies : Array (Expr RuleId)) (main : RuleId) :
    (ofBodies bodies main).skipped = emptyRules bodies := by
  funext known r
  by_cases inside : r < bodies.size
  · refine Bool.eq_iff_iff.mpr ((skipped_iff_leads inside).trans ⟨emptyRules_of_leads inside, fun empty => ?_⟩)
    obtain ⟨body, found, empty⟩ := emptyRules_eq_true.mp empty
    obtain ⟨before, -, drawn⟩ := exists_drawn main found
    exact leads_of_draw drawn (by rwa [Expr.nullable_plan])
  · have outside : ruleBody? bodies r = none := by
      rw [ruleBody?, Array.getElem?_eq_none (Nat.le_of_not_lt inside)]
    rw [emptyRules, outside, Option.any_none, skipped, List.any_eq_false]
    intro v _ ended
    exact inside (completed?_eq_some.mp (beq_iff_eq.mp ended)).1

variable (bodies) (main)

theorem isLeast_nullable :
    IsLeast {held | emptyRules bodies held = held} (ofBodies bodies main).nullable.contains := by
  rw [nullable, skipped_ofBodies]
  refine isLeast_sweeps (monotone_emptyRules bodies) fun held r empty => List.mem_range.mpr ?_
  obtain ⟨body, found, _⟩ := emptyRules_eq_true.mp empty
  exact (Array.getElem?_eq_some_iff.mp found).1

variable {bodies}

theorem mem_nullable_iff {r : RuleId} : r ∈ (ofBodies bodies main).nullable ↔ [] ∈ ruleLanguage bodies r := by
  classical
  obtain ⟨fixed, least⟩ := isLeast_nullable bodies main
  rw [← Std.TreeSet.contains_iff_mem]
  constructor
  · intro member
    have solved : emptyRules bodies (fun c => decide ([] ∈ ruleLanguage bodies c)) =
        fun c => decide ([] ∈ ruleLanguage bodies c) := by
      funext c
      rw [Bool.eq_iff_iff, emptyRules_eq_true, decide_eq_true_iff]
      cases found : ruleBody? bodies c with
      | none => simp [ruleLanguage_outside found, Language.notMem_zero]
      | some body =>
        rw [ruleLanguage_eq found, ← Expr.nullable_iff (fun _ => decide_eq_true_iff) body]
        simp
    exact decide_eq_true_iff.mp (least solved r member)
  · intro derived
    have allowed : ruleLanguage bodies ≤
        fun c => {w | w = [] → (ofBodies bodies main).nullable.contains c = true} := by
      refine ruleLanguage_le fun c body found w derived none => ?_
      subst none
      have matching (c : RuleId) : (ofBodies bodies main).nullable.contains c = true ↔
          [] ∈ ({w | w = [] → (ofBodies bodies main).nullable.contains c = true} : Language UInt8) :=
        ⟨fun held _ => held, fun held => held rfl⟩
      rw [← congrFun fixed c, emptyRules_eq_true]
      exact ⟨body, found, (Expr.nullable_iff matching body).mpr derived⟩
    exact allowed r derived rfl

/-- The rules that the graph shows to match the empty string are those that the search for left recursion takes to
be nullable. -/
theorem mem_nullable_iff_mem_nullableRules {r : RuleId} :
    r ∈ (ofBodies bodies main).nullable ↔ r ∈ nullableRules bodies :=
  (mem_nullable_iff main).trans mem_nullableRules_iff.symm

variable (bodies)

/-- The rounds over the graph find the rules that derive the empty string, which is the least solution of what the
bodies ask. At the latest there is nothing more to find after one round for each rule, and no walk of a
round can go on forever, in whatever order it visits the nodes. -/
theorem nullable_ofBodies :
    (∀ r, r ∈ (ofBodies bodies main).nullable ↔ [] ∈ ruleLanguage bodies r) ∧
    IsLeast {held | emptyRules bodies held = held} (ofBodies bodies main).nullable.contains ∧
    (∃ rounds ≤ bodies.size,
      (sweep (ofBodies bodies main).skipped (List.range bodies.size))^[rounds] ∅ = (ofBodies bodies main).nullable ∧
      sweep (ofBodies bodies main).skipped (List.range bodies.size) (ofBodies bodies main).nullable =
        (ofBodies bodies main).nullable) ∧
    ∀ known, ∀ r < bodies.size,
      Acc (fun later earlier => Worklist.Visit ((ofBodies bodies main).skips known r) earlier later)
        (.start [start r]) ∧
      ((Worklist.start [start r]).explore ((ofBodies bodies main).skips known r)
        (ofBodies bodies main).nodeCount).2.waiting = [] := by
  refine ⟨fun r => mem_nullable_iff main, isLeast_nullable bodies main, ?_, fun known r inside => ⟨?_, ?_⟩⟩
  · obtain ⟨rounds, few, reached⟩ :
        ∃ rounds ≤ (missing (List.range bodies.size) ∅).length,
          (sweep (ofBodies bodies main).skipped (List.range bodies.size))^[rounds] ∅ =
            (ofBodies bodies main).nullable := exists_iterate_sweep
    have most := List.length_filter_le (!(∅ : Std.TreeSet RuleId).contains ·) (List.range bodies.size)
    rw [List.length_range] at most
    exact ⟨rounds, Nat.le_trans few most, reached, sweep_sweeps.1⟩
  · exact Worklist.acc_visit (· < (ofBodies bodies main).nodeCount) closed_skips size_le_nodeCount
      (fun v member => start_inside inside v ((Worklist.mem_seen_start v).mp member))
      fun v member => start_inside inside v ((Worklist.mem_waiting_start v).mp member)
  · exact Worklist.waiting_explore (· < (ofBodies bodies main).nodeCount) closed_skips size_le_nodeCount
      (start_inside inside)

/-- All of the first three rules are left recursive, and each of them is found one round after the one behind it. -/
example : (ofBodies #[.choice [.literal [97], .rule 1], .sequence [.repetition (.rule 0) 0 none, .rule 2],
    .choice [.sequence [.rule 2, .rule 0], .empty], .sequence [.rule 1, .literal [98]]] 0).nullable.toList = [0, 1, 2] := by
  cbv

end Automaton
end GuidedDecoding
