import Mathlib
import GuidedDecoding.Automaton.Basic
import GuidedDecoding.Proofs.Automaton.Labelling

namespace GuidedDecoding

theorem exit_lt {r n : Nat} (h : r < n) : 2 * r + 1 < 2 * n := by omega

theorem start_ne_exit {r c : Nat} : 2 * r ≠ 2 * c + 1 := by omega

theorem half_exit (r : Nat) : (2 * r + 1) % 2 = 1 ∧ (2 * r + 1) / 2 = r := by omega

theorem exit_half {v : Nat} (odd : v % 2 = 1) : v = 2 * (v / 2) + 1 := by omega

theorem entry_or_exit {v n : Nat} (h : v < 2 * n) : v / 2 < n ∧ (v = 2 * (v / 2) ∨ v = 2 * (v / 2) + 1) := by
  omega

structure Draft.Within (draft grown : Draft) : Prop where
  size : draft.size ≤ grown.size
  edges : draft.edges ⊆ grown.edges

namespace Draft.Within

theorem refl (draft : Draft) : draft.Within draft := ⟨Nat.le_refl _, fun _ => id⟩

theorem trans {first second third : Draft} (one : first.Within second) (two : second.Within third) :
    first.Within third :=
  ⟨Nat.le_trans one.size two.size, fun _ member => two.edges (one.edges member)⟩

theorem edge (draft : Draft) (start : Node) (transition : Transition) :
    draft.Within (draft.edge start transition) :=
  ⟨Nat.le_refl _, fun _ => List.mem_cons_of_mem _⟩

theorem grow (draft : Draft) : draft.Within draft.grow := ⟨Nat.le_succ _, fun _ => id⟩

theorem draw (plan : Plan) (start stop : Node) (draft : Draft) :
    draft.Within (plan.draw start stop draft) := by
  induction plan generalizing start stop draft with
  | nothing => exact refl draft
  | silent => exact edge draft _ _
  | byte range => exact edge draft _ _
  | call rule => exact edge draft _ _
  | join first second ihFirst ihSecond =>
    exact (grow draft).trans ((ihFirst _ _ _).trans (ihSecond _ _ _))
  | beside one other ihOne ihOther => exact (ihOne _ _ _).trans (ihOther _ _ _)
  | loop body ih =>
    exact (grow draft).trans ((edge _ _ _).trans ((ih _ _ _).trans (edge _ _ _)))

end Draft.Within

namespace Draft

def drawRules (rules : List (Expr RuleId × RuleId)) (draft : Draft) : Draft :=
  rules.foldl (fun draft (body, r) => addExpr body (2 * r) (2 * r + 1) draft) draft

theorem drawRules_cons (body : Expr RuleId) (r : RuleId) (rest : List (Expr RuleId × RuleId))
    (draft : Draft) :
    drawRules ((body, r) :: rest) draft =
      drawRules rest (body.plan.draw (2 * r) (2 * r + 1) draft) := by
  rw [Expr.draw_plan]
  rfl

theorem within_drawRules (rules : List (Expr RuleId × RuleId)) (draft : Draft) :
    draft.Within (drawRules rules draft) := by
  induction rules generalizing draft with
  | nil => exact .refl draft
  | cons rule rest ih =>
    rw [drawRules_cons]
    exact (Within.draw _ _ _ draft).trans (ih _)

theorem exists_drawn {rules : List (Expr RuleId × RuleId)} {body : Expr RuleId} {r : RuleId}
    (member : (body, r) ∈ rules) (draft : Draft) :
    ∃ before : Draft, draft.size ≤ before.size ∧
      (body.plan.draw (2 * r) (2 * r + 1) before).Within (drawRules rules draft) := by
  induction rules generalizing draft with
  | nil => simp at member
  | cons rule rest ih =>
    rw [drawRules_cons]
    rcases List.mem_cons.mp member with rfl | member
    · exact ⟨draft, Nat.le_refl _, within_drawRules rest _⟩
    · obtain ⟨before, size, within⟩ := ih member (rule.1.plan.draw (2 * rule.2) (2 * rule.2 + 1) draft)
      exact ⟨before, Nat.le_trans (Within.draw _ _ _ draft).size size, within⟩

theorem labels_drawRules {L : Type} [Preorder L] {reading : NodeReading L} {label : Node → L}
    {draft : Draft} (labels : Labels reading label draft) (rules : List (Expr RuleId × RuleId))
    (inside : ∀ rule ∈ rules, 2 * rule.2 + 1 < draft.size)
    (fits : ∀ rule ∈ rules, reading.plan rule.1.plan (label (2 * rule.2 + 1)) ≤ label (2 * rule.2)) :
    Labels.Grown reading label draft (drawRules rules draft) := by
  induction rules generalizing label draft with
  | nil => exact .of_labels labels
  | cons rule rest ih =>
    obtain ⟨body, r⟩ := rule
    have exit := inside (body, r) (by simp)
    obtain ⟨half, size, same, labels⟩ := labels.draw body.plan (Nat.lt_of_succ_lt exit) exit
      (fits (body, r) (by simp))
    rw [drawRules_cons]
    refine .trans size same (ih labels (fun rule member => ?_) (fun rule member => ?_))
    · exact Nat.lt_of_lt_of_le (inside rule (by simp [member])) size
    · have exit := inside rule (by simp [member])
      rw [same _ exit, same _ (Nat.lt_of_succ_lt exit)]
      exact fits rule (by simp [member])

theorem source_of_draw {plan : Plan} {start stop : Node} {draft : Draft} {edge : Node × Transition}
    (drawn : edge ∈ (plan.draw start stop draft).edges) :
    edge ∈ draft.edges ∨ edge.1 = start ∨ draft.size ≤ edge.1 := by
  induction plan generalizing start stop draft with
  | nothing => exact .inl drawn
  | silent | byte | call =>
    rcases List.mem_cons.mp drawn with rfl | old
    · exact .inr (.inl rfl)
    · exact .inl old
  | join first second ihFirst ihSecond =>
    have grown : draft.grow.size ≤ (first.draw start draft.size draft.grow).size := (Within.draw first _ _ _).size
    rcases ihSecond drawn with early | new | new
    · rcases ihFirst early with old | entry | new
      · exact .inl old
      · exact .inr (.inl entry)
      · exact .inr (.inr (Nat.le_of_succ_le new))
    · exact .inr (.inr new.ge)
    · exact .inr (.inr (Nat.le_of_succ_le (Nat.le_trans grown new)))
  | beside one other ihOne ihOther =>
    rcases ihOther drawn with early | entry | new
    · exact ihOne early
    · exact .inr (.inl entry)
    · exact .inr (.inr (Nat.le_trans (Within.draw one _ _ _).size new))
  | loop body ih =>
    rcases List.mem_cons.mp drawn with rfl | inside
    · exact .inr (.inr (Nat.le_refl _))
    · rcases ih inside with early | new | new
      · rcases List.mem_cons.mp early with rfl | old
        · exact .inr (.inl rfl)
        · exact .inl old
      · exact .inr (.inr new.ge)
      · exact .inr (.inr (Nat.le_of_succ_le new))

theorem source_of_drawRules {rules : List (Expr RuleId × RuleId)} {draft : Draft} {edge : Node × Transition}
    (drawn : edge ∈ (drawRules rules draft).edges) :
    edge ∈ draft.edges ∨ (∃ r, edge.1 = 2 * r) ∨ draft.size ≤ edge.1 := by
  induction rules generalizing draft with
  | nil => exact .inl drawn
  | cons rule rest ih =>
    rw [drawRules_cons] at drawn
    rcases ih drawn with early | entry | new
    · exact (source_of_draw early).imp_right (.imp_left fun entry => ⟨rule.2, entry⟩)
    · exact .inr (.inl entry)
    · exact .inr (.inr (Nat.le_trans (Within.draw rule.1.plan _ _ draft).size new))

theorem ofBodies_eq (bodies : List (Expr RuleId)) :
    ofBodies bodies = drawRules bodies.zipIdx ⟨2 * bodies.length, []⟩ := rfl

theorem exists_labels {L : Type} [Preorder L] (reading : NodeReading L) (bodies : List (Expr RuleId))
    (entry exit : RuleId → L)
    (fits : ∀ r body, bodies[r]? = some body → reading.plan body.plan (exit r) ≤ entry r) :
    ∃ label, (∀ r < bodies.length, label (2 * r) = entry r ∧ label (2 * r + 1) = exit r) ∧
      Labels reading label (ofBodies bodies) := by
  let label (v : Node) : L := if v % 2 = 0 then entry (v / 2) else exit (v / 2)
  have first (r : Nat) : label (2 * r) = entry r := by simp [label]
  have last (r : Nat) : label (2 * r + 1) = exit r := by simp [label, half_exit]
  have bare : Labels reading label ⟨2 * bodies.length, []⟩ := ⟨by simp, by simp⟩
  have within (rule : Expr RuleId × RuleId) (member : rule ∈ bodies.zipIdx) :
      bodies[rule.2]? = some rule.1 := List.mem_zipIdx_iff_getElem?.mp member
  obtain ⟨more, size, same, labels⟩ := labels_drawRules bare bodies.zipIdx
    (fun rule member => exit_lt (List.getElem?_eq_some_iff.mp (within rule member)).1)
    (fun rule member => by
      rw [first, last]
      exact fits _ _ (within rule member))
  refine ⟨more, fun r h => ⟨?_, ?_⟩, labels⟩
  · rw [same (2 * r) (Nat.lt_of_succ_lt (exit_lt h)), first]
  · rw [same (2 * r + 1) (exit_lt h), last]

theorem edge_inside {bodies : List (Expr RuleId)} {edge : Node × Transition}
    (member : edge ∈ (ofBodies bodies).edges) :
    edge.1 < (ofBodies bodies).size ∧ edge.2.next < (ofBodies bodies).size := by
  let blank : NodeReading Unit := {
    byte := fun _ _ => ()
    call := fun _ _ => ()
    plan := fun _ _ => ()
    silent_le := by simp
    byte_le := by simp
    call_le := by simp
    join_le := by simp
    one_le := by simp
    other_le := by simp
    leave_le := by simp
    again_le := by simp }
  obtain ⟨label, _, labels⟩ := exists_labels blank bodies (fun _ => ()) (fun _ => ()) (by simp)
  exact labels.closed edge member

theorem mem_foldl_modify (edges : List (Node × Transition)) (table : Array (List Transition)) (v : Node)
    (t : Transition) :
    t ∈ (edges.foldl (fun table (edge : Node × Transition) => table.modify edge.1 (edge.2 :: ·))
        table)[v]?.getD [] ↔
      t ∈ table[v]?.getD [] ∨ v < table.size ∧ (v, t) ∈ edges := by
  induction edges generalizing table with
  | nil => simp
  | cons edge rest ih =>
    rw [List.foldl_cons, ih, Array.getElem?_modify, Array.size_modify]
    by_cases same : edge.1 = v
    · subst same
      by_cases inside : edge.1 < table.size
      · simp [inside, Prod.ext_iff]
        tauto
      · simp [inside]
    · have other : (v, t) ≠ edge := fun h => same (by rw [← h])
      simp [same, other]

theorem mem_table (draft : Draft) (v : Node) (t : Transition) :
    t ∈ draft.table[v]?.getD [] ↔ v < draft.size ∧ (v, t) ∈ draft.edges := by
  rw [table, mem_foldl_modify, Array.size_replicate, Array.getElem?_replicate]
  split <;> simp

theorem size_table (draft : Draft) : draft.table.size = draft.size := by
  have kept (edges : List (Node × Transition)) (table : Array (List Transition)) :
      (edges.foldl (fun table (edge : Node × Transition) => table.modify edge.1 (edge.2 :: ·))
        table).size = table.size := by
    induction edges generalizing table with
    | nil => rfl
    | cons edge rest ih => rw [List.foldl_cons, ih, Array.size_modify]
  exact (kept _ _).trans Array.size_replicate

end Draft

namespace Automaton

variable (bodies : Array (Expr RuleId)) (main : RuleId)

theorem nodeCount_ofBodies :
    (ofBodies bodies main).nodeCount = (Draft.ofBodies bodies.toList).size := Draft.size_table _

variable {bodies} {main}

theorem mem_transitionsAt {v : Node} {t : Transition} :
    t ∈ (ofBodies bodies main).transitionsAt v ↔ (v, t) ∈ (Draft.ofBodies bodies.toList).edges := by
  refine (Draft.mem_table _ v t).trans ⟨And.right, fun member => ⟨?_, member⟩⟩
  exact (Draft.edge_inside member).1

theorem next_lt_nodeCount {v : Node} {t : Transition}
    (member : t ∈ (ofBodies bodies main).transitionsAt v) :
    t.next < (ofBodies bodies main).nodeCount := by
  rw [nodeCount_ofBodies]
  exact (Draft.edge_inside (mem_transitionsAt.mp member)).2

theorem not_mem_transitionsAt_exit {r : RuleId} (known : r < bodies.size) (t : Transition) :
    t ∉ (ofBodies bodies main).transitionsAt (2 * r + 1) := by
  intro edge
  have drawn := mem_transitionsAt.mp edge
  rw [Draft.ofBodies_eq] at drawn
  rcases Draft.source_of_drawRules drawn with old | ⟨c, entry⟩ | new
  · cases old
  · exact start_ne_exit entry.symm
  · exact Nat.not_le_of_lt (exit_lt known) new

variable (bodies) (main)

theorem exists_labels {L : Type} [Preorder L] (reading : NodeReading L) (entry exit : RuleId → L)
    (fits : ∀ r body, ruleBody? bodies r = some body → reading.plan body.plan (exit r) ≤ entry r) :
    ∃ label : Node → L,
      (∀ r < bodies.size, label (2 * r) = entry r ∧ label (2 * r + 1) = exit r) ∧
      ∀ v, ∀ t ∈ (ofBodies bodies main).transitionsAt v, reading.through label t ≤ label v := by
  obtain ⟨label, ends, labels⟩ := Draft.exists_labels reading bodies.toList entry exit
    fun r body found => fits r body (by rwa [ruleBody?, ← Array.getElem?_toList])
  exact ⟨label, ends, fun v t member => labels.sound _ (mem_transitionsAt.mp member)⟩

variable {bodies}

theorem exists_drawn {r : RuleId} {body : Expr RuleId} (found : ruleBody? bodies r = some body) :
    ∃ before : Draft, 2 * bodies.size ≤ before.size ∧
      ∀ edge ∈ (body.plan.draw (2 * r) (2 * r + 1) before).edges,
        edge.2 ∈ (ofBodies bodies main).transitionsAt edge.1 := by
  have among : (body, r) ∈ bodies.toList.zipIdx := by
    rw [List.mk_mem_zipIdx_iff_getElem?, Array.getElem?_toList]
    exact found
  obtain ⟨before, size, within⟩ :=
    Draft.exists_drawn among ⟨2 * bodies.toList.length, []⟩
  refine ⟨before, size, fun edge member => mem_transitionsAt.mpr ?_⟩
  rw [Draft.ofBodies_eq]
  exact within.edges member

end Automaton
end GuidedDecoding
