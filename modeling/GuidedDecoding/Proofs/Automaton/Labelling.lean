import Mathlib
import GuidedDecoding.Automaton.Basic
import GuidedDecoding.Proofs.Automaton.Plan

namespace GuidedDecoding

def Transition.next : Transition → Node
  | byte _ next => next
  | call _ next => next
  | silent next => next

/-- How labels are read: through single edges, and through whole plans. -/
structure NodeReading (L : Type) [Preorder L] where
  byte : ByteRange → L → L
  call : RuleId → L → L
  plan : Plan → L → L
  silent_le : ∀ after, after ≤ plan .silent after
  byte_le : ∀ range after, byte range after ≤ plan (.byte range) after
  call_le : ∀ rule after, call rule after ≤ plan (.call rule) after
  join_le : ∀ first second after, plan first (plan second after) ≤ plan (.join first second) after
  one_le : ∀ one other after, plan one after ≤ plan (.beside one other) after
  other_le : ∀ one other after, plan other after ≤ plan (.beside one other) after
  leave_le : ∀ body after, after ≤ plan (.loop body) after
  again_le : ∀ body after, plan body (plan (.loop body) after) ≤ plan (.loop body) after

namespace NodeReading

variable {L : Type} [Preorder L] (reading : NodeReading L)

def through (label : Node → L) : Transition → L
  | .byte range next => reading.byte range (label next)
  | .call rule next => reading.call rule (label next)
  | .silent next => label next

theorem through_congr {label other : Node → L} (transition : Transition)
    (same : other transition.next = label transition.next) :
    reading.through other transition = reading.through label transition := by
  cases transition <;> simp_all [through, Transition.next]

end NodeReading

/-- What plans are worth, where plans that follow one another are multiplied. -/
structure PlanValue (L : Type) [Monoid L] [Preorder L] where
  value : Plan → L
  silent_le : 1 ≤ value .silent
  join_le : ∀ first second, value first * value second ≤ value (.join first second)
  one_le : ∀ one other, value one ≤ value (.beside one other)
  other_le : ∀ one other, value other ≤ value (.beside one other)
  leave_le : ∀ body, 1 ≤ value (.loop body)
  again_le : ∀ body, value body * value (.loop body) ≤ value (.loop body)

def PlanValue.reading {L : Type} [Monoid L] [Preorder L] [MulRightMono L] (worth : PlanValue L) :
    NodeReading L where
  byte range after := worth.value (.byte range) * after
  call r after := worth.value (.call r) * after
  plan plan after := worth.value plan * after
  silent_le after := by
    have le := mul_le_mul_left worth.silent_le after
    rwa [one_mul] at le
  byte_le range after := le_refl _
  call_le r after := le_refl _
  join_le first second after := by
    rw [← mul_assoc]
    exact mul_le_mul_left (worth.join_le first second) after
  one_le one other after := mul_le_mul_left (worth.one_le one other) after
  other_le one other after := mul_le_mul_left (worth.other_le one other) after
  leave_le body after := by
    have le := mul_le_mul_left (worth.leave_le body) after
    rwa [one_mul] at le
  again_le body after := by
    rw [← mul_assoc]
    exact mul_le_mul_left (worth.again_le body) after

/-- The edges of a graph stay among its nodes, and no edge asks more than the label it leaves. -/
structure Labels {L : Type} [Preorder L] (reading : NodeReading L) (label : Node → L) (draft : Draft) :
    Prop where
  closed : ∀ edge ∈ draft.edges, edge.1 < draft.size ∧ edge.2.next < draft.size
  sound : ∀ edge ∈ draft.edges, reading.through label edge.2 ≤ label edge.1

namespace Labels

variable {L : Type} [Preorder L] {reading : NodeReading L} {label : Node → L} {draft : Draft}

def Grown (reading : NodeReading L) (label : Node → L) (draft grown : Draft) : Prop :=
  ∃ more : Node → L, draft.size ≤ grown.size ∧ (∀ v < draft.size, more v = label v) ∧
    Labels reading more grown

theorem edge (labels : Labels reading label draft) {start : Node} {transition : Transition}
    (inside : start < draft.size) (target : transition.next < draft.size)
    (fits : reading.through label transition ≤ label start) :
    Labels reading label (draft.edge start transition) where
  closed := by
    intro edge member
    rcases List.mem_cons.mp member with rfl | member
    · exact ⟨inside, target⟩
    · exact labels.closed edge member
  sound := by
    intro edge member
    rcases List.mem_cons.mp member with rfl | member
    · exact fits
    · exact labels.sound edge member

theorem grow (labels : Labels reading label draft) (new : L) :
    ∃ wider : Node → L, wider draft.size = new ∧ (∀ v < draft.size, wider v = label v) ∧
      Labels reading wider draft.grow := by
  have old (v : Node) (h : v < draft.size) : Function.update label draft.size new v = label v :=
    Function.update_of_ne (Nat.ne_of_lt h) _ _
  refine ⟨Function.update label draft.size new, Function.update_self .., old, ?_, ?_⟩
  · intro edge member
    obtain ⟨inside, target⟩ := labels.closed edge member
    exact ⟨Nat.lt_succ_of_lt inside, Nat.lt_succ_of_lt target⟩
  · intro edge member
    obtain ⟨inside, target⟩ := labels.closed edge member
    rw [reading.through_congr edge.2 (old _ target), old _ inside]
    exact labels.sound edge member

theorem Grown.of_labels (labels : Labels reading label draft) : Grown reading label draft draft :=
  ⟨label, Nat.le_refl _, fun _ _ => rfl, labels⟩

theorem Grown.of_edge {start : Node} {transition : Transition}
    (labels : Labels reading label (draft.edge start transition)) :
    Grown reading label draft (draft.edge start transition) :=
  ⟨label, Nat.le_refl _, fun _ _ => rfl, labels⟩

theorem Grown.trans {wider : Node → L} {next last : Draft} (size : draft.size ≤ next.size)
    (same : ∀ v < draft.size, wider v = label v) (grown : Grown reading wider next last) :
    Grown reading label draft last := by
  obtain ⟨more, further, kept, labels⟩ := grown
  refine ⟨more, Nat.le_trans size further, fun v inside => ?_, labels⟩
  rw [kept v (Nat.lt_of_lt_of_le inside size), same v inside]

/-- A fragment can be labelled from the labels of its ends. -/
theorem draw (plan : Plan) (labels : Labels reading label draft) {start stop : Node}
    (inside : start < draft.size) (target : stop < draft.size)
    (fits : reading.plan plan (label stop) ≤ label start) :
    Grown reading label draft (plan.draw start stop draft) := by
  induction plan generalizing label draft start stop with
  | nothing => exact .of_labels labels
  | silent =>
    exact .of_edge (labels.edge inside target (le_trans (reading.silent_le _) fits))
  | byte range =>
    exact .of_edge (labels.edge inside target (le_trans (reading.byte_le _ _) fits))
  | call rule =>
    exact .of_edge (labels.edge inside target (le_trans (reading.call_le _ _) fits))
  | join first second ihFirst ihSecond =>
    -- The new node is labelled with what the second plan asks.
    obtain ⟨wider, new, old, grown⟩ := labels.grow (reading.plan second (label stop))
    have first : reading.plan first (wider draft.size) ≤ wider start := by
      rw [new, old start inside]
      exact le_trans (reading.join_le _ _ _) fits
    obtain ⟨half, size, same, labels⟩ :=
      ihFirst grown (Nat.lt_succ_of_lt inside) (Nat.lt_succ_self _) first
    have second : reading.plan second (half stop) ≤ half draft.size := by
      rw [same _ (Nat.lt_succ_self _), same _ (Nat.lt_succ_of_lt target), new, old stop target]
    refine .trans (Nat.le_trans (Nat.le_succ _) size) (fun v h => ?_)
      (ihSecond labels size (Nat.lt_of_lt_of_le (Nat.lt_succ_of_lt target) size) second)
    rw [same v (Nat.lt_succ_of_lt h), old v h]
  | beside one other ihOne ihOther =>
    obtain ⟨half, size, same, labels⟩ :=
      ihOne labels inside target (le_trans (reading.one_le _ _ _) fits)
    refine .trans size same (ihOther labels (Nat.lt_of_lt_of_le inside size)
      (Nat.lt_of_lt_of_le target size) ?_)
    rw [same start inside, same stop target]
    exact le_trans (reading.other_le _ _ _) fits
  | loop body ih =>
    -- The node of the loop is labelled with what the loop itself asks.
    obtain ⟨wider, new, old, grown⟩ := labels.grow (reading.plan (.loop body) (label stop))
    have entered : Labels reading wider (draft.grow.edge start (.silent draft.size)) := by
      apply grown.edge (Nat.lt_succ_of_lt inside) (Nat.lt_succ_self _)
      change wider draft.size ≤ wider start
      rw [new, old start inside]
      exact fits
    have again : reading.plan body (wider draft.size) ≤ wider draft.size := by
      rw [new]
      exact reading.again_le _ _
    obtain ⟨half, size, same, labels⟩ :=
      ih entered (Nat.lt_succ_self _) (Nat.lt_succ_self _) again
    have left : Labels reading half ((body.draw draft.size draft.size
        (draft.grow.edge start (.silent draft.size))).edge draft.size (.silent stop)) := by
      apply labels.edge size (Nat.lt_of_lt_of_le (Nat.lt_succ_of_lt target) size)
      change half stop ≤ half draft.size
      rw [same _ (Nat.lt_succ_self _), same _ (Nat.lt_succ_of_lt target), new, old stop target]
      exact reading.leave_le _ _
    refine .trans (Nat.le_trans (Nat.le_succ _) size) (fun v h => ?_) (.of_labels left)
    rw [same v (Nat.lt_succ_of_lt h), old v h]

end Labels
end GuidedDecoding
