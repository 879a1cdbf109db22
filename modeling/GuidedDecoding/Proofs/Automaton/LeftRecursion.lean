import Mathlib
import GuidedDecoding.Proofs.Automaton.Nullable

namespace GuidedDecoding.Automaton

variable {bodies : Array (Expr RuleId)} {main : RuleId} {known : RuleId → Bool}

theorem mem_callsAt {r c : RuleId} {v : Node} :
    c ∈ (ofBodies bodies main).callsAt r v ↔ ∃ next, .call c next ∈ (ofBodies bodies main).transitionsAt v := by
  unfold callsAt
  split
  next ended =>
    obtain ⟨inside, rfl⟩ := completed?_eq_some.mp ended
    refine iff_of_false List.not_mem_nil fun called => ?_
    obtain ⟨next, edge⟩ := called
    exact not_mem_transitionsAt_exit inside _ edge
  next =>
    rw [List.mem_filterMap]
    constructor
    · intro called
      obtain ⟨t, edge, callee⟩ := called
      cases t with
      | byte range next => cases callee
      | silent next => cases callee
      | call d next =>
        obtain rfl := Option.some.inj callee
        exact ⟨next, edge⟩
    · intro called
      obtain ⟨next, edge⟩ := called
      exact ⟨_, edge, rfl⟩

theorem leftCall_of_leads {r c : RuleId} {v : Node} (inside : r < bodies.size)
    (leads : Leads ((ofBodies bodies main).skips known r) (start r) v)
    (called : c ∈ (ofBodies bodies main).callsAt r v) :
    ∃ body, ruleBody? bodies r = some body ∧ c ∈ body.leftCalls known := by
  -- The second part of a label holds the rules that may be called from the node on without input.
  obtain ⟨label, ends, edges⟩ := exists_labels bodies main (silence known)
    (fun r => (True, {c | ∃ body, ruleBody? bodies r = some body ∧ c ∈ body.leftCalls known}))
    (fun _ => (True, ∅)) fun r body found => by
      refine ⟨fun _ => trivial, fun c called => ?_⟩
      rcases called with called | ⟨_, called⟩
      · exact ⟨body, found, (Expr.mem_leftCalls_plan known body c).mp called⟩
      · exact called.elim
  obtain ⟨next, edge⟩ := mem_callsAt.mp called
  have foreseen (w : Node) (onward : Leads ((ofBodies bodies main).skips known r) w v) : c ∈ (label w).2 := by
    induction onward using Relation.ReflTransGen.head_induction_on with
    | refl => exact (edges _ _ edge).2 (.inl rfl)
    | head step _ ih =>
      cases mem_skips.mp step with
      | silent edge => exact (edges _ _ edge).2 ih
      | call edge empty => exact (edges _ _ edge).2 (.inr ⟨empty, ih⟩)
  have entry := foreseen _ leads
  rwa [start, (ends r inside).1] at entry

theorem exists_call_of_draw {r c : RuleId} {plan : Plan} {first last : Node} {draft : Draft}
    (drawn : ∀ edge ∈ (plan.draw first last draft).edges, edge.2 ∈ (ofBodies bodies main).transitionsAt edge.1)
    (called : c ∈ plan.leftCalls known) :
    ∃ v, Leads ((ofBodies bodies main).skips known r) first v ∧ c ∈ (ofBodies bodies main).callsAt r v := by
  induction plan generalizing first last draft with
  | nothing | silent | byte => cases called
  | call d =>
    obtain rfl := List.mem_singleton.mp called
    exact ⟨first, .refl, mem_callsAt.mpr ⟨last, drawn _ List.mem_cons_self⟩⟩
  | join one other ihOne ihOther =>
    have within := Draft.Within.draw other draft.size last (one.draw first draft.size draft.grow)
    have drawnOne := fun edge member => drawn edge (within.edges member)
    rw [Plan.leftCalls, List.mem_append] at called
    rcases called with called | called
    · exact ihOne drawnOne called
    · split at called
      next empty =>
        obtain ⟨v, leads, called⟩ := ihOther drawn called
        exact ⟨v, (leads_of_draw drawnOne empty).trans leads, called⟩
      next => cases called
  | beside one other ihOne ihOther =>
    have within := Draft.Within.draw other first last (one.draw first last draft)
    rw [Plan.leftCalls, List.mem_append] at called
    rcases called with called | called
    · exact ihOne (fun edge member => drawn edge (within.edges member)) called
    · exact ihOther drawn called
  | loop body ih =>
    have within := Draft.Within.draw body draft.size draft.size (draft.grow.edge first (.silent draft.size))
    have enter : .silent draft.size ∈ (ofBodies bodies main).transitionsAt first :=
      drawn (first, _) (List.mem_cons_of_mem _ (within.edges List.mem_cons_self))
    obtain ⟨v, leads, called⟩ := ih (fun edge member => drawn edge (List.mem_cons_of_mem _ member)) called
    exact ⟨v, .head (mem_skips.mpr (.silent enter)) leads, called⟩

theorem mem_leftCalls_ofBodies {r : RuleId} (inside : r < bodies.size) (c : RuleId) :
    c ∈ (ofBodies bodies main).leftCalls known r ↔
      ∃ body, ruleBody? bodies r = some body ∧ c ∈ body.leftCalls known := by
  simp only [leftCalls, List.mem_flatMap, mem_explore_skips inside]
  constructor
  · intro met
    obtain ⟨v, leads, called⟩ := met
    exact leftCall_of_leads inside leads called
  · intro met
    obtain ⟨body, found, called⟩ := met
    obtain ⟨before, -, drawn⟩ := exists_drawn main found
    exact exists_call_of_draw drawn ((Expr.mem_leftCalls_plan known body c).mpr called)

variable (bodies) (main)

theorem leftCallTable_ofBodies : (ofBodies bodies main).leftCallTable = LeftRecursion.callTable bodies := by
  have nullable : (ofBodies bodies main).nullable.contains = (nullableRules bodies).contains := by
    funext r
    rw [Bool.eq_iff_iff, Std.TreeSet.contains_iff_mem, Std.TreeSet.contains_iff_mem,
      mem_nullable_iff_mem_nullableRules]
  have size : (ofBodies bodies main).leftCallTable.size = bodies.size := by
    rw [leftCallTable, Array.size_map, Array.size_range]
    rfl
  refine Array.ext (by rw [size, LeftRecursion.size_callTable]) fun r inside _ => ?_
  rw [size] at inside
  simp only [leftCallTable, LeftRecursion.callTable, Array.getElem_map, Array.getElem_range, nullable]
  apply Std.TreeSet.Equiv.toList_eq
  apply Std.TreeSet.Equiv.of_forall_mem_iff
  intro c
  have found : ruleBody? bodies r = some bodies[r] := Array.getElem?_eq_getElem inside
  simp only [Std.TreeSet.mem_ofList, List.contains_iff_mem, mem_leftCalls_ofBodies inside, found,
    Option.some.injEq, exists_eq_left']

/-- The graph and the bodies tell of the same left recursive rule. -/
theorem recursiveRule?_ofBodies (preferred : Nat) :
    (ofBodies bodies main).recursiveRule? preferred = leftRecursiveRule? bodies preferred := by
  rw [recursiveRule?, leftRecursiveRule?, leftCallTable_ofBodies]

example : (ofBodies #[.sequence [.literal [97], .rule 1],
    .sequence [.repetition (.literal [98]) 0 none, .rule 1]] 0).recursiveRule? 2 = some 1 := by
  cbv

end GuidedDecoding.Automaton
