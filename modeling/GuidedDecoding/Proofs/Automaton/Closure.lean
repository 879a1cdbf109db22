import Mathlib
import GuidedDecoding.Proofs.Automaton.Reach

namespace GuidedDecoding

namespace Position

section Sorting

abbrev NotAfter (p q : Position) : Prop := (compare p q).isLE = true

instance : IsTrans Position NotAfter := ⟨fun _ _ _ => Std.TransCmp.isLE_trans⟩

instance : Std.Total NotAfter := ⟨fun p q => by
  cases order : compare p q with
  | lt | eq => exact .inl (by rw [NotAfter, order]; rfl)
  | gt => exact .inr (by rw [NotAfter, Std.OrientedCmp.lt_of_gt order]; rfl)⟩

theorem insert_eq (p : Position) (positions : List Position) :
    insert p positions = positions.orderedInsert NotAfter p := by
  induction positions with
  | nil => rfl
  | cons q rest ih => rw [insert, List.orderedInsert, ih]

theorem perm_foldl_insert (positions sorted : List Position) :
    (positions.foldl (fun sorted p => insert p sorted) sorted).Perm (positions ++ sorted) := by
  induction positions generalizing sorted with
  | nil => exact .refl _
  | cons p rest ih =>
    rw [List.foldl_cons, insert_eq, List.cons_append]
    have inserted := (List.perm_orderedInsert NotAfter p sorted).append_left rest
    exact (ih _).trans (inserted.trans List.perm_middle)

theorem pairwise_foldl_insert (positions : List Position) {sorted : List Position} (order : sorted.Pairwise NotAfter) :
    (positions.foldl (fun sorted p => insert p sorted) sorted).Pairwise NotAfter := by
  induction positions generalizing sorted with
  | nil => exact order
  | cons p rest ih =>
    rw [List.foldl_cons, insert_eq]
    exact ih (order.orderedInsert p sorted)

theorem perm_ascending (positions : List Position) : (ascending positions).Perm positions := by
  have sorted := perm_foldl_insert positions []
  rwa [List.append_nil] at sorted

end Sorting

def Ascending (positions : List Position) : Prop := positions.Pairwise fun p q => compare p q = .lt

theorem ascending_of_nodup {positions : List Position} (once : positions.Nodup) : Ascending (ascending positions) := by
  have distinct : (ascending positions).Nodup := (perm_ascending positions).nodup_iff.mpr once
  have order : (ascending positions).Pairwise NotAfter := pairwise_foldl_insert positions .nil
  refine (order.and distinct).imp fun {p q} h => ?_
  obtain ⟨notAfter, other⟩ := h
  exact (Ordering.isLE_iff_eq_lt_or_eq_eq.mp notAfter).resolve_right fun same =>
    other (Std.LawfulEqOrd.eq_of_compare same)

theorem Ascending.eq_of_mem_iff {positions others : List Position} (one : Ascending positions)
    (other : Ascending others) (same : ∀ p, p ∈ positions ↔ p ∈ others) : positions = others := by
  have : Std.Irrefl fun p q : Position => compare p q = .lt := ⟨fun p => by simp⟩
  have : Std.Antisymm fun p q : Position => compare p q = .lt :=
    ⟨fun p q less more => absurd more (Std.OrientedCmp.not_lt_of_lt less)⟩
  exact List.Pairwise.eq_of_mem_iff one other same

end Position

namespace Automaton

theorem ascending_closureWith (a : Automaton) (work : Worklist Position) (seeds : List Position) :
    Position.Ascending (a.closureWith work seeds).1.positions :=
  Position.ascending_of_nodup ((nodup_search a work seeds).filter _)

theorem closure_nil (a : Automaton) : a.closure [] = .empty := by
  have nothing : (a.search .empty []).1 = [] := by
    rw [search]
    cases positionBound (a.nodeBound []) (a.depthBound []) <;> rfl
  rw [closure, closureWith, nothing]
  rfl

section

variable {bodies : Array (Expr RuleId)} {main : RuleId} {rank : RuleId → Nat} (ranked : LeftRanked bodies rank)
include ranked

section

variable {tails : Std.TreeSet Node} (fewer : ∀ v ∈ tails, v ∈ (ofBodies bodies main).tails)
  (work : Worklist Position) (seeds : List Position)
include fewer

theorem mem_positions_closureWith (p : Position) :
    p ∈ (((ofBodies bodies main).withTails tails).closureWith work seeds).1.positions ↔
      (∃ q ∈ seeds, Leads ((ofBodies bodies main).withTails tails).moves q p) ∧
        ((ofBodies bodies main).withTails tails).bytesAt p ≠ [] := by
  rw [closureWith, (Position.perm_ascending _).mem_iff, List.mem_filter, mem_search_withTails ranked fewer,
    Bool.not_eq_true', List.isEmpty_eq_false_iff]

theorem accepting_closureWith :
    (((ofBodies bodies main).withTails tails).closureWith work seeds).1.accepting = true ↔
      ∃ p, (∃ q ∈ seeds, Leads ((ofBodies bodies main).withTails tails).moves q p) ∧
        ((ofBodies bodies main).withTails tails).completesMain p = true := by
  rw [closureWith, List.any_eq_true]
  simp only [mem_search_withTails ranked fewer]

end

theorem mem_positions_closure {seeds : List Position} (p : Position) :
    p ∈ ((ofBodies bodies main).closure seeds).positions ↔
      (∃ q ∈ seeds, Leads (ofBodies bodies main).moves q p) ∧ (ofBodies bodies main).bytesAt p ≠ [] :=
  mem_positions_closureWith ranked (fun _ => id) .empty seeds p

theorem accepting_closure {seeds : List Position} : ((ofBodies bodies main).closure seeds).accepting = true ↔
    ∃ p, (∃ q ∈ seeds, Leads (ofBodies bodies main).moves q p) ∧ (ofBodies bodies main).completesMain p = true :=
  accepting_closureWith ranked (fun _ => id) .empty seeds

theorem closureWith_eq {set : PositionSet} {work : Worklist Position} {seeds : List Position}
    (ascending : Position.Ascending set.positions)
    (positions : ∀ p, p ∈ set.positions ↔
      (∃ q ∈ seeds, Leads (ofBodies bodies main).moves q p) ∧ (ofBodies bodies main).bytesAt p ≠ [])
    (accepting : set.accepting = true ↔ ∃ p, (∃ q ∈ seeds, Leads (ofBodies bodies main).moves q p) ∧
      (ofBodies bodies main).completesMain p = true) :
    ((ofBodies bodies main).closureWith work seeds).1 = set := by
  have tails : ∀ v ∈ (ofBodies bodies main).tails, v ∈ (ofBodies bodies main).tails := fun _ => id
  refine congrArg₂ PositionSet.mk ?_ (Bool.eq_iff_iff.mpr ?_)
  · refine (ascending_closureWith _ work seeds).eq_of_mem_iff ascending fun p => ?_
    rw [positions]
    exact mem_positions_closureWith ranked tails work seeds p
  · rw [accepting]
    exact accepting_closureWith ranked tails work seeds

end

/-- A step that reads nothing: along a silent edge, into a rule, or out of one. A call notes the node after
it unless that is a tail. -/
inductive SilentStep (a : Automaton) : Position → Position → Prop where
  | silent {v next : Node} {returns : List Node} (edge : .silent next ∈ a.transitionsAt v) :
    SilentStep a ⟨v, returns⟩ ⟨next, returns⟩
  | call {v next : Node} {returns : List Node} {r : RuleId} (edge : .call r next ∈ a.transitionsAt v)
    (known : r < a.ruleCount) :
    SilentStep a ⟨v, returns⟩ ⟨start r, if next ∈ a.tails then returns else next :: returns⟩
  | back {v next : Node} {returns : List Node} (ended : (a.completed? v).isSome) :
    SilentStep a ⟨v, next :: returns⟩ ⟨next, returns⟩

/-- A position that silent steps lead to from one of some seeds. -/
def Reachable (a : Automaton) (seeds : List Position) (p : Position) : Prop :=
  ∃ seed ∈ seeds, Relation.ReflTransGen (SilentStep a) seed p

/-- What a position set should be to be the closure of some seeds. -/
structure IsClosure (a : Automaton) (seeds : List Position) (set : PositionSet) : Prop where
  ascending : Position.Ascending set.positions
  positions : ∀ p, p ∈ set.positions ↔
    Reachable a seeds p ∧ ∃ range next, .byte range next ∈ a.transitionsAt p.node
  accepting : set.accepting = true ↔ ∃ v, (a.completed? v).isSome ∧ Reachable a seeds ⟨v, []⟩

section

variable {bodies : Array (Expr RuleId)} {main : RuleId} {p q : Position}

/-- The ends of rules need no case of their own, since no edge leaves them. -/
theorem completed?_eq_none_of_edge {v : Node} {t : Transition} (edge : t ∈ (ofBodies bodies main).transitionsAt v) :
    (ofBodies bodies main).completed? v = none := by
  by_contra ended
  obtain ⟨r, ended⟩ := Option.ne_none_iff_exists'.mp ended
  obtain ⟨known, rfl⟩ := completed?_eq_some.mp ended
  exact not_mem_transitionsAt_exit known t edge

theorem silentStep_iff : SilentStep (ofBodies bodies main) p q ↔ Move (ofBodies bodies main) p q := by
  constructor
  · intro step
    cases step with
    | silent edge => exact .silent (completed?_eq_none_of_edge edge) edge
    | @call v next returns r edge known =>
      by_cases tail : next ∈ (ofBodies bodies main).tails
      · rw [if_pos tail]
        exact .tailCall (completed?_eq_none_of_edge edge) edge known tail
      · rw [if_neg tail]
        exact .call (completed?_eq_none_of_edge edge) edge known tail
    | back ended => exact .back ended
  · intro move
    cases move with
    | back ended => exact .back ended
    | silent _ edge => exact .silent edge
    | @call v next returns r _ edge known kept =>
      have step : SilentStep (ofBodies bodies main) ⟨v, returns⟩ _ := .call edge known
      rwa [if_neg kept] at step
    | @tailCall v next returns r _ edge known tail =>
      have step : SilentStep (ofBodies bodies main) ⟨v, returns⟩ _ := .call edge known
      rwa [if_pos tail] at step

theorem reachable_iff {seeds : List Position} :
    Reachable (ofBodies bodies main) seeds p ↔ ∃ q ∈ seeds, Leads (ofBodies bodies main).moves q p := by
  have steps : SilentStep (ofBodies bodies main) = fun p q => q ∈ (ofBodies bodies main).moves p :=
    funext₂ fun p q => propext (silentStep_iff.trans mem_moves.symm)
  rw [Reachable, steps]
  rfl

theorem bytesAt_ne_nil_iff : (ofBodies bodies main).bytesAt p ≠ [] ↔
    ∃ range next, .byte range next ∈ (ofBodies bodies main).transitionsAt p.node := by
  constructor
  · intro reads
    obtain ⟨⟨range, next⟩, member⟩ := List.exists_mem_of_ne_nil _ reads
    exact ⟨range, next, (mem_bytesAt.mp member).2⟩
  · intro h
    obtain ⟨range, next, edge⟩ := h
    exact List.ne_nil_of_mem (mem_bytesAt.mpr ⟨completed?_eq_none_of_edge edge, edge⟩)

end

/-- Without left recursion a closure lists the positions that read a byte and that can be reached from the
seeds without one, strictly ascending, and accepts if the end of a rule can be reached that no rule called.
Neither the order and number of the seeds nor the worklist matters. -/
theorem isClosure_closureWith (bodies : Array (Expr RuleId)) (main : RuleId) (preferred : Nat)
    (recursionFree : leftRecursiveRule? bodies preferred = none) (work : Worklist Position) (seeds : List Position) :
    IsClosure (ofBodies bodies main) seeds ((ofBodies bodies main).closureWith work seeds).1 ∧
      ∀ other others, (∀ p, p ∈ others ↔ p ∈ seeds) →
        ((ofBodies bodies main).closureWith other others).1 = ((ofBodies bodies main).closureWith work seeds).1 := by
  obtain ⟨rank, ranked⟩ := exists_leftRanked recursionFree
  have tails : ∀ v ∈ (ofBodies bodies main).tails, v ∈ (ofBodies bodies main).tails := fun _ => id
  have positions := mem_positions_closureWith ranked tails work seeds
  have accepting := accepting_closureWith ranked tails work seeds
  refine ⟨⟨ascending_closureWith _ work seeds, fun p => ?_, ?_⟩, fun other others same => ?_⟩
  · rw [reachable_iff, ← bytesAt_ne_nil_iff]
    exact positions p
  · refine accepting.trans ?_
    simp only [reachable_iff, completesMain_iff]
    constructor
    · intro h
      obtain ⟨⟨v, returns⟩, reached, ended, rfl⟩ := h
      exact ⟨v, ended, reached⟩
    · intro h
      obtain ⟨v, ended, reached⟩ := h
      exact ⟨⟨v, []⟩, reached, ended, rfl⟩
  · refine closureWith_eq ranked (ascending_closureWith _ work seeds) (fun p => ?_) ?_
    · simp only [same]
      exact positions p
    · simp only [same]
      exact accepting

def twoOptional : Array (Expr RuleId) :=
  #[.sequence [.rule 1, .rule 1, .literal [97]], .repetition (.choice [.empty, .literal [98]]) 0 none]

theorem isClosure_closureWith_twoOptional :
    leftRecursiveRule? twoOptional 0 = none ∧
      IsClosure (ofBodies twoOptional 0) [⟨0, []⟩, ⟨2, [1]⟩] ((ofBodies twoOptional 0).closureWith
        (.start [⟨1, [3]⟩]) [⟨0, []⟩, ⟨2, [1]⟩]).1 ∧
      ((ofBodies twoOptional 0).closureWith .empty [⟨2, [1]⟩, ⟨0, []⟩, ⟨0, []⟩]).1 =
        ((ofBodies twoOptional 0).closureWith (.start [⟨1, [3]⟩]) [⟨0, []⟩, ⟨2, [1]⟩]).1 := by
  have recursionFree : leftRecursiveRule? twoOptional 0 = none := by cbv
  obtain ⟨closure, unique⟩ := isClosure_closureWith twoOptional 0 0 recursionFree (.start [⟨1, [3]⟩])
    [⟨0, []⟩, ⟨2, [1]⟩]
  exact ⟨recursionFree, closure, unique .empty [⟨2, [1]⟩, ⟨0, []⟩, ⟨0, []⟩] (by simp [or_comm])⟩

example : (ofBodies twoOptional 0).closure [⟨0, []⟩] = ⟨[⟨5, []⟩, ⟨6, [4]⟩, ⟨6, [5]⟩], false⟩ := by cbv

end Automaton

end GuidedDecoding
