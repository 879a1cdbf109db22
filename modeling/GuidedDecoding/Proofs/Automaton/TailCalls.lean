import Mathlib
import GuidedDecoding.Proofs.Automaton.Waiting
import GuidedDecoding.Proofs.Automaton.Worklist

namespace GuidedDecoding.Automaton

/-- The automaton in which every call notes where to return. -/
def alwaysReturning (a : Automaton) : Automaton := a.withTails ∅

def noted (a : Automaton) (returns : List Node) : List Node := returns.filter fun v => v ∉ a.tails

def withoutTails (a : Automaton) (p : Position) : Position := ⟨p.node, a.noted p.returns⟩

/-- The positions without the tails among their returns, in ascending order. -/
def dropTails (a : Automaton) (set : PositionSet) : PositionSet where
  positions := (Std.TreeSet.ofList (set.positions.map a.withoutTails)).toList
  accepting := set.accepting

/-- A node from which silent transitions lead to the end of the rule, and nothing leads elsewhere. -/
inductive Completing (a : Automaton) : Node → Prop where
  | ended {v : Node} (ended : (a.completed? v).isSome) : Completing a v
  | silent {v : Node} (some : ∃ t, t ∈ a.transitionsAt v)
    (only : ∀ t ∈ a.transitionsAt v, ∃ next, t = .silent next)
    (next : ∀ next, .silent next ∈ a.transitionsAt v → Completing a next) : Completing a v

section

variable {a : Automaton} {v next : Node} {returns : List Node} {p q o : Position}

theorem noted_tail (tail : next ∈ a.tails) : a.noted (next :: returns) = a.noted returns :=
  List.filter_cons_of_neg (by simpa using tail)

theorem noted_kept (kept : next ∉ a.tails) : a.noted (next :: returns) = next :: a.noted returns :=
  List.filter_cons_of_pos (by simpa using kept)

theorem noted_eq_cons {rest : List Node} (same : a.noted returns = next :: rest) :
    ∃ dropped kept, returns = dropped ++ next :: kept ∧ (∀ v ∈ dropped, v ∈ a.tails) ∧
      next ∉ a.tails ∧ a.noted kept = rest := by
  obtain ⟨dropped, kept, split, tails, unknown, left⟩ := List.filter_eq_cons_iff.mp same
  exact ⟨dropped, kept, split, fun v member => by simpa using tails v member, by simpa using unknown, left⟩

theorem Completing.of_edge {t : Transition} (completing : Completing a v) (inside : a.completed? v = none)
    (edge : t ∈ a.transitionsAt v) : ∃ next, t = .silent next ∧ Completing a next := by
  cases completing with
  | ended ended => simp [inside] at ended
  | silent _ only follows =>
    obtain ⟨next, rfl⟩ := only t edge
    exact ⟨next, rfl, follows next edge⟩

theorem Completing.bytesAt (completing : Completing a p.node) : a.bytesAt p = [] := by
  apply List.eq_nil_iff_forall_not_mem.mpr
  intro reading edge
  obtain ⟨inside, edge⟩ := mem_bytesAt.mp edge
  obtain ⟨_, same, _⟩ := completing.of_edge inside edge
  cases same

theorem Completing.exists_leads (completing : Completing a v) (returns : List Node) :
    ∃ w, (a.completed? w).isSome ∧ Leads a.alwaysReturning.moves ⟨v, returns⟩ ⟨w, returns⟩ := by
  induction completing with
  | @ended v ended => exact ⟨v, ended, .refl⟩
  | @silent v some only next ih =>
    cases inside : a.completed? v with
    | some r => exact ⟨v, by rw [inside]; rfl, .refl⟩
    | none =>
      obtain ⟨t, edge⟩ := some
      obtain ⟨target, rfl⟩ := only t edge
      obtain ⟨w, ended, leads⟩ := ih target edge
      exact ⟨w, ended, .head (mem_moves.mpr (.silent inside edge)) leads⟩

theorem exists_leads_back (completing : ∀ v ∈ a.tails, Completing a v) (ended : (a.completed? v).isSome)
    {dropped : List Node} (tails : ∀ v ∈ dropped, v ∈ a.tails) (returns : List Node) :
    ∃ w, (a.completed? w).isSome ∧ Leads a.alwaysReturning.moves ⟨v, dropped ++ returns⟩ ⟨w, returns⟩ := by
  induction dropped generalizing v with
  | nil => exact ⟨v, ended, .refl⟩
  | cons next dropped ih =>
    obtain ⟨u, completed, through⟩ :=
      (completing next (tails next List.mem_cons_self)).exists_leads (dropped ++ returns)
    obtain ⟨w, last, leads⟩ := ih completed fun v member => tails v (List.mem_cons_of_mem _ member)
    have back : Move a.alwaysReturning ⟨v, next :: (dropped ++ returns)⟩ ⟨next, dropped ++ returns⟩ :=
      .back ended
    exact ⟨w, last, .head (mem_moves.mpr back) (through.trans leads)⟩

theorem Move.alwaysReturning {r : RuleId} (inside : a.completed? v = none)
    (edge : .call r next ∈ a.transitionsAt v) (known : r < a.ruleCount) (returns : List Node) :
    Move a.alwaysReturning ⟨v, returns⟩ ⟨start r, next :: returns⟩ :=
  .call inside edge known (by simp [Automaton.alwaysReturning, withTails])

theorem exists_alwaysReturning (completing : ∀ v ∈ a.tails, Completing a v)
    (leads : Leads a.moves (a.withoutTails p) o) :
    ∃ q, Leads a.alwaysReturning.moves p q ∧ a.withoutTails q = o := by
  induction leads with
  | refl => exact ⟨p, .refl, rfl⟩
  | tail _ step ih =>
    obtain ⟨⟨v, returns⟩, leads, rfl⟩ := ih
    have move := mem_moves.mp step
    rw [withoutTails] at move
    generalize same : a.noted returns = left at move
    cases move with
    | @back v next rest ended =>
      -- The tails in front of the return are passed first.
      obtain ⟨dropped, kept, rfl, tails, _, rfl⟩ := noted_eq_cons same
      obtain ⟨w, last, through⟩ := exists_leads_back completing ended tails (next :: kept)
      have back : Move a.alwaysReturning ⟨w, next :: kept⟩ ⟨next, kept⟩ := .back last
      exact ⟨⟨next, kept⟩, leads.trans (through.tail (mem_moves.mpr back)), rfl⟩
    | @silent v next rest inside edge =>
      have silent : Move a.alwaysReturning ⟨v, returns⟩ ⟨next, returns⟩ := .silent inside edge
      exact ⟨⟨next, returns⟩, leads.tail (mem_moves.mpr silent), by rw [withoutTails, same]⟩
    | @call v next rest r inside edge known kept =>
      refine ⟨_, leads.tail (mem_moves.mpr (.alwaysReturning inside edge known returns)), ?_⟩
      rw [withoutTails, noted_kept kept, same]
    | @tailCall v next rest r inside edge known tail =>
      refine ⟨_, leads.tail (mem_moves.mpr (.alwaysReturning inside edge known returns)), ?_⟩
      rw [withoutTails, noted_tail tail, same]

/-- A position of the automaton, and one with all returns noted. Where one completes a rule, the other
may have completed it already. -/
structure Beside (a : Automaton) (p o : Position) : Prop where
  returns : o.returns = a.noted p.returns
  node : o.node = p.node ∨ Completing a p.node ∧ (a.completed? o.node).isSome

theorem Beside.move (completing : ∀ v ∈ a.tails, Completing a v) (beside : Beside a p o)
    (move : Move a.alwaysReturning p q) : ∃ t, Leads a.moves o t ∧ Beside a q t := by
  obtain ⟨node, returns⟩ := o
  obtain ⟨same, place⟩ := beside
  dsimp only at same place
  obtain rfl := same
  cases move with
  | @back v next rest ended =>
    have ended : (a.completed? node).isSome := by
      rcases place with rfl | ⟨_, done⟩
      · exact ended
      · exact done
    -- To a tail the other position does not return: it stays until the caller is completed as well.
    by_cases tail : next ∈ a.tails
    · exact ⟨_, .refl, noted_tail tail, .inr ⟨completing next tail, ended⟩⟩
    · have back : Move a ⟨node, next :: a.noted rest⟩ ⟨next, a.noted rest⟩ := .back ended
      refine ⟨⟨next, a.noted rest⟩, .single ?_, rfl, .inl rfl⟩
      rw [noted_kept tail]
      exact mem_moves.mpr back
  | @silent v next rest inside edge =>
    rcases place with rfl | ⟨completing, ended⟩
    · exact ⟨⟨next, a.noted rest⟩, .single (mem_moves.mpr (.silent inside edge)), rfl, .inl rfl⟩
    · obtain ⟨_, same, completing⟩ := completing.of_edge inside edge
      cases same
      exact ⟨_, .refl, rfl, .inr ⟨completing, ended⟩⟩
  | @call v next rest r inside edge known _ =>
    rcases place with rfl | ⟨completing, _⟩
    · by_cases tail : next ∈ a.tails
      · exact ⟨_, .single (mem_moves.mpr (.tailCall inside edge known tail)), (noted_tail tail).symm, .inl rfl⟩
      · exact ⟨_, .single (mem_moves.mpr (.call inside edge known tail)), (noted_kept tail).symm, .inl rfl⟩
    · obtain ⟨_, same, _⟩ := completing.of_edge inside edge
      cases same
  | tailCall _ _ _ tail => exact absurd tail Std.TreeSet.not_mem_emptyc

theorem exists_beside (completing : ∀ v ∈ a.tails, Completing a v)
    (leads : Leads a.alwaysReturning.moves p q) :
    ∃ o, Leads a.moves (a.withoutTails p) o ∧ Beside a q o := by
  induction leads with
  | refl => exact ⟨a.withoutTails p, .refl, rfl, .inl rfl⟩
  | tail _ step ih =>
    obtain ⟨o, leads, beside⟩ := ih
    obtain ⟨t, further, beside⟩ := beside.move completing (mem_moves.mp step)
    exact ⟨t, leads.trans further, beside⟩

theorem leads_reading_iff (completing : ∀ v ∈ a.tails, Completing a v) :
    Leads a.moves (a.withoutTails p) o ∧ a.bytesAt o ≠ [] ↔
      ∃ q, (Leads a.alwaysReturning.moves p q ∧ a.bytesAt q ≠ []) ∧ a.withoutTails q = o := by
  constructor
  · intro h
    obtain ⟨leads, ready⟩ := h
    obtain ⟨q, along, rfl⟩ := exists_alwaysReturning completing leads
    exact ⟨q, ⟨along, ready⟩, rfl⟩
  · intro h
    obtain ⟨q, ⟨leads, ready⟩, rfl⟩ := h
    obtain ⟨⟨node, returns⟩, leads, same, place⟩ := exists_beside completing leads
    dsimp only at same place
    rcases place with rfl | ⟨done, _⟩
    · rw [same] at leads
      exact ⟨leads, ready⟩
    · exact absurd done.bytesAt ready

theorem leads_completesMain_iff (completing : ∀ v ∈ a.tails, Completing a v) :
    (∃ o, Leads a.moves (a.withoutTails p) o ∧ a.completesMain o = true) ↔
      ∃ q, Leads a.alwaysReturning.moves p q ∧ a.completesMain q = true := by
  simp only [completesMain_iff]
  constructor
  · intro h
    obtain ⟨_, leads, ended, empty⟩ := h
    obtain ⟨⟨v, returns⟩, along, rfl⟩ := exists_alwaysReturning completing leads
    have tails : ∀ v ∈ returns, v ∈ a.tails := by
      simpa using List.filter_eq_nil_iff.mp empty
    obtain ⟨w, last, through⟩ := exists_leads_back completing ended tails []
    rw [List.append_nil] at through
    exact ⟨⟨w, []⟩, along.trans through, last, rfl⟩
  · intro h
    obtain ⟨⟨v, returns⟩, leads, ended, rfl⟩ := h
    obtain ⟨o, leads, same, place⟩ := exists_beside completing leads
    refine ⟨o, leads, ?_, same⟩
    rcases place with same | ⟨_, done⟩
    · rwa [same]
    · exact done

theorem mem_dropTails {set : PositionSet} :
    o ∈ (a.dropTails set).positions ↔ ∃ p ∈ set.positions, a.withoutTails p = o := by
  rw [dropTails, Std.TreeSet.mem_toList, Std.TreeSet.mem_ofList, List.contains_iff_mem, List.mem_map]

theorem mem_consume_dropTails {set : PositionSet} {b : UInt8} :
    o ∈ a.consume (a.dropTails set) b ↔ ∃ p ∈ a.alwaysReturning.consume set b, a.withoutTails p = o := by
  simp only [mem_consume, mem_dropTails]
  constructor
  · intro h
    obtain ⟨_, ⟨p, member, rfl⟩, range, next, edge, taken, rfl⟩ := h
    exact ⟨⟨next, p.returns⟩, ⟨p, member, range, next, edge, taken, rfl⟩, rfl⟩
  · intro h
    obtain ⟨_, ⟨p, member, range, next, edge, taken, rfl⟩, rfl⟩ := h
    exact ⟨_, ⟨p, member, rfl⟩, range, next, edge, taken, rfl⟩

end

section

variable {bodies : Array (Expr RuleId)} {main : RuleId}

theorem completing_tails :
    ∀ v ∈ (ofBodies bodies main).tails, Completing (ofBodies bodies main) v := by
  intro v tail
  refine of_mem_tails (Completing (ofBodies bodies main)) (fun r known => ?_) (fun v some out => ?_) tail
  · exact .ended (isSome_completed?_exit known)
  · refine .silent some (fun t edge => ?_) fun next edge => ?_
    · obtain ⟨next, same, _⟩ := out t edge
      exact ⟨next, same⟩
    · obtain ⟨_, same, completing⟩ := out _ edge
      cases same
      exact completing

theorem empty_subset_tails {a : Automaton} : ∀ v ∈ (∅ : Std.TreeSet Node), v ∈ a.tails :=
  fun _ member => absurd member Std.TreeSet.not_mem_emptyc

variable {rank : RuleId → Nat} (ranked : LeftRanked bodies rank)
include ranked

section

variable {seeds short : List Position}
  (same : ∀ o, o ∈ short ↔ ∃ p ∈ seeds, (ofBodies bodies main).withoutTails p = o)
include same

theorem mem_positions_withoutTails (o : Position) :
    o ∈ ((ofBodies bodies main).closure short).positions ↔
      ∃ p ∈ ((ofBodies bodies main).alwaysReturning.closure seeds).positions,
        (ofBodies bodies main).withoutTails p = o := by
  constructor
  · intro member
    obtain ⟨⟨_, among, leads⟩, ready⟩ := (mem_positions_closure ranked o).mp member
    obtain ⟨p, given, rfl⟩ := (same _).mp among
    obtain ⟨q, ⟨along, ready⟩, rfl⟩ := (leads_reading_iff completing_tails).mp ⟨leads, ready⟩
    have member := (mem_positions_closureWith ranked empty_subset_tails .empty seeds q).mpr
      ⟨⟨p, given, along⟩, ready⟩
    exact ⟨q, member, rfl⟩
  · intro h
    obtain ⟨q, member, rfl⟩ := h
    obtain ⟨⟨p, given, along⟩, ready⟩ :=
      (mem_positions_closureWith ranked empty_subset_tails .empty seeds q).mp member
    obtain ⟨leads, ready⟩ := (leads_reading_iff completing_tails).mpr ⟨q, ⟨along, ready⟩, rfl⟩
    exact (mem_positions_closure ranked _).mpr
      ⟨⟨_, (same _).mpr ⟨p, given, rfl⟩, leads⟩, ready⟩

theorem accepting_withoutTails : ((ofBodies bodies main).closure short).accepting =
    ((ofBodies bodies main).alwaysReturning.closure seeds).accepting := by
  rw [Bool.eq_iff_iff]
  constructor
  · intro accepting
    obtain ⟨o, ⟨_, among, leads⟩, completes⟩ := (accepting_closure ranked).mp accepting
    obtain ⟨p, given, rfl⟩ := (same _).mp among
    obtain ⟨q, along, completes⟩ := (leads_completesMain_iff completing_tails).mp ⟨o, leads, completes⟩
    exact (accepting_closureWith ranked empty_subset_tails .empty seeds).mpr ⟨q, ⟨p, given, along⟩, completes⟩
  · intro accepting
    obtain ⟨q, ⟨p, given, along⟩, completes⟩ :=
      (accepting_closureWith ranked empty_subset_tails .empty seeds).mp accepting
    obtain ⟨o, leads, completes⟩ := (leads_completesMain_iff completing_tails).mpr ⟨q, along, completes⟩
    exact (accepting_closure ranked).mpr
      ⟨o, ⟨_, (same _).mpr ⟨p, given, rfl⟩, leads⟩, completes⟩

theorem closure_dropTails : (ofBodies bodies main).closure short =
    (ofBodies bodies main).dropTails ((ofBodies bodies main).alwaysReturning.closure seeds) := by
  refine congrArg₂ PositionSet.mk ?_ (accepting_withoutTails ranked same)
  refine (ascending_closureWith _ .empty short).eq_of_mem_iff Std.TreeSet.ordered_toList fun o => ?_
  exact (mem_positions_withoutTails ranked same o).trans mem_dropTails.symm

end

theorem initial_dropTails : (ofBodies bodies main).initial =
    (ofBodies bodies main).dropTails (ofBodies bodies main).alwaysReturning.initial := by
  have same : (ofBodies bodies main).alwaysReturning.start? (ofBodies bodies main).alwaysReturning.main =
      (ofBodies bodies main).start? (ofBodies bodies main).main := rfl
  rw [initial, initial, same]
  cases found : (ofBodies bodies main).start? (ofBodies bodies main).main with
  | none => rfl
  | some node =>
    obtain ⟨known, rfl⟩ := start?_eq_some.mp found
    refine closure_dropTails ranked fun o => ?_
    simp [withoutTails, noted, eq_comm]

theorem foldl_dropTails {set : PositionSet} (w : List UInt8) :
    w.foldl (ofBodies bodies main).step ((ofBodies bodies main).dropTails set) =
      (ofBodies bodies main).dropTails (w.foldl (ofBodies bodies main).alwaysReturning.step set) := by
  induction w generalizing set with
  | nil => rfl
  | cons b w ih =>
    have step : (ofBodies bodies main).step ((ofBodies bodies main).dropTails set) b =
        (ofBodies bodies main).dropTails ((ofBodies bodies main).alwaysReturning.step set b) :=
      closure_dropTails ranked fun _ => mem_consume_dropTails
    rw [List.foldl_cons, List.foldl_cons, step]
    exact ih

end

/-- Without left recursion, tail calls change nothing but the returns that are noted: whatever is
consumed, the positions are those of the automaton in which every call notes where to return, without
the tails among their returns, and the one matches if the other does. -/
theorem positions_eq_dropTails (bodies : Array (Expr RuleId)) (main : RuleId) (preferred : Nat)
    (recursionFree : leftRecursiveRule? bodies preferred = none) (w : List UInt8) :
    w.foldl (ofBodies bodies main).step (ofBodies bodies main).initial =
      (ofBodies bodies main).dropTails (w.foldl (ofBodies bodies main).alwaysReturning.step
        (ofBodies bodies main).alwaysReturning.initial) := by
  obtain ⟨rank, ranked⟩ := exists_leftRanked recursionFree
  rw [initial_dropTails ranked]
  exact foldl_dropTails ranked w

def brackets : Array (Expr RuleId) :=
  #[.choice [.empty, .sequence [.literal [40], .rule 0, .literal [41], .rule 0]],
    .sequence [.literal [91], .rule 0, .empty]]

theorem positions_eq_dropTails_brackets :
    leftRecursiveRule? brackets 0 = none ∧
      [91, 40, 41, 40].foldl (ofBodies brackets 1).step (ofBodies brackets 1).initial =
        (ofBodies brackets 1).dropTails ([91, 40, 41, 40].foldl (ofBodies brackets 1).alwaysReturning.step
          (ofBodies brackets 1).alwaysReturning.initial) := by
  have recursionFree : leftRecursiveRule? brackets 0 = none := by cbv
  exact ⟨recursionFree, positions_eq_dropTails brackets 1 0 recursionFree _⟩

end GuidedDecoding.Automaton
