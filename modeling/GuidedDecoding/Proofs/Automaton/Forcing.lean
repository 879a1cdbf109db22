import Mathlib
import GuidedDecoding.Matcher.JumpForward
import GuidedDecoding.Proofs.Automaton.Liveness

namespace GuidedDecoding

/-- The byte strings with a property of which none is longer. -/
def Longest (P : List UInt8 → Prop) (f : List UInt8) : Prop := P f ∧ ∀ g, P g → g.length ≤ f.length

namespace Plan

def ranges : Plan → List ByteRange
  | nothing | silent | call _ => []
  | byte range => [range]
  | join first second => first.ranges ++ second.ranges
  | beside one other => one.ranges ++ other.ranges
  | loop body => body.ranges

theorem ranges_path (sequence : List ByteRange) : (path sequence).ranges = sequence := by
  induction sequence with
  | nil => rfl
  | cons range rest ih =>
    cases rest with
    | nil => rfl
    | cons next rest => rw [path_cons_cons, ranges, ih, ranges, List.singleton_append]

theorem ranges_paths (sequences : List (List ByteRange)) : (paths sequences).ranges = sequences.flatten := by
  induction sequences with
  | nil => rfl
  | cons sequence rest ih =>
    change (path sequence).ranges ++ (paths rest).ranges = _
    rw [ranges_path, ih, List.flatten_cons]

theorem ranges_copies {body after : Plan} (within : after.ranges ⊆ body.ranges) (count : Nat) :
    (copies body count after).ranges ⊆ body.ranges := by
  induction count with
  | zero => exact within
  | succ count ih =>
    rw [copies_succ, ranges]
    exact List.append_subset.mpr ⟨List.Subset.refl _, ih⟩

theorem ranges_optional (body : Plan) (count : Nat) : (optional body count).ranges ⊆ body.ranges := by
  induction count with
  | zero => exact List.nil_subset _
  | succ count ih =>
    rw [optional, ranges, ranges, ranges, List.nil_append]
    exact List.append_subset.mpr ⟨List.Subset.refl _, ih⟩

theorem ranges_repeated (body : Plan) (min : Nat) (max : Option Nat) :
    (repeated body min max).ranges ⊆ body.ranges := by
  cases max with
  | none =>
    have loop : (loop body).ranges ⊆ body.ranges := List.Subset.refl _
    exact ranges_copies loop min
  | some max => exact ranges_copies (ranges_optional body _) min

theorem mem_ranges_of_draw {plan : Plan} {start stop v next : Node} {draft : Draft} {range : ByteRange}
    (drawn : (v, .byte range next) ∈ (plan.draw start stop draft).edges) :
    (v, .byte range next) ∈ draft.edges ∨ range ∈ plan.ranges := by
  induction plan generalizing start stop draft with
  | nothing => exact .inl drawn
  | silent => exact .inl (by simpa [draw, Draft.edge] using drawn)
  | byte other =>
    rcases List.mem_cons.mp drawn with same | old
    · cases same
      exact .inr (List.mem_singleton_self range)
    · exact .inl old
  | call r => exact .inl (by simpa [draw, Draft.edge] using drawn)
  | join first second ihFirst ihSecond =>
    rcases ihSecond drawn with early | late
    · exact (ihFirst early).imp_right (List.mem_append_left _)
    · exact .inr (List.mem_append_right _ late)
  | beside one other ihOne ihOther =>
    rcases ihOther drawn with early | late
    · exact (ihOne early).imp_right (List.mem_append_left _)
    · exact .inr (List.mem_append_right _ late)
  | loop body ih =>
    have inside : (v, .byte range next) ∈ (body.draw draft.size draft.size
        (draft.grow.edge start (.silent draft.size))).edges := by
      simpa [draw, Draft.addLoop, Draft.edge] using drawn
    exact (ih inside).imp_left fun old => by simpa [Draft.edge, Draft.grow] using old

end Plan

theorem Expr.proper_of_mem_plan {e : Expr RuleId} {range : ByteRange} (member : range ∈ e.plan.ranges) :
    range.lo ≤ range.hi := by
  induction e using structural with
  | empty => cases member
  | literal bytes =>
    cases bytes with
    | nil => cases member
    | cons b bytes =>
      rw [plan, Plan.ranges_path] at member
      · obtain ⟨b, _, rfl⟩ := List.mem_map.mp member
        exact UInt8.le_refl b
      · simp
  | charClass negated ranges =>
    rw [plan, Plan.ranges_paths] at member
    obtain ⟨sequence, lowered, inside⟩ := List.mem_flatten.mp member
    exact CodeRange.lowered_proper ranges negated lowered inside
  | rule r => cases member
  | sequence items ih =>
    rw [plan] at member
    induction items with
    | nil => cases member
    | cons item rest tail =>
      have others := tail fun e among => ih e (by simp [among])
      cases rest with
      | nil => exact ih item (by simp) member
      | cons next rest => exact (List.mem_append.mp member).elim (ih item (by simp)) others
  | choice alternatives ih =>
    rw [plan] at member
    induction alternatives with
    | nil => cases member
    | cons e rest tail =>
      exact (List.mem_append.mp member).elim (ih e (by simp)) (tail fun e among => ih e (by simp [among]))
  | repetition body min max ih => exact ih (Plan.ranges_repeated body.plan min max member)

theorem Draft.proper_of_drawRules {rules : List (Expr RuleId × RuleId)} {draft : Draft} {v next : Node}
    {range : ByteRange} (drawn : (v, .byte range next) ∈ (drawRules rules draft).edges) :
    (v, .byte range next) ∈ draft.edges ∨ range.lo ≤ range.hi := by
  induction rules generalizing draft with
  | nil => exact .inl drawn
  | cons rule rest ih =>
    rw [drawRules_cons] at drawn
    rcases ih drawn with early | proper
    · exact (Plan.mem_ranges_of_draw early).imp_right Expr.proper_of_mem_plan
    · exact .inr proper

namespace Automaton

theorem forcedByte?_eq_some {a : Automaton} {set : PositionSet} {b : UInt8} :
    a.forcedByte? set = some b ↔ (∃ p ∈ set.positions, a.bytesAt p ≠ []) ∧
      ∀ p ∈ set.positions, ∀ edge ∈ a.bytesAt p, edge.1 = ⟨b, b⟩ := by
  have ranges : (∀ r ∈ set.positions.flatMap fun p => (a.bytesAt p).map Prod.fst, r = ⟨b, b⟩) ↔
      ∀ p ∈ set.positions, ∀ edge ∈ a.bytesAt p, edge.1 = ⟨b, b⟩ := by
    simp only [List.forall_mem_flatMap, List.forall_mem_map]
  have some : set.positions.flatMap (fun p => (a.bytesAt p).map Prod.fst) ≠ [] ↔
      ∃ p ∈ set.positions, a.bytesAt p ≠ [] := by
    simp
  rw [← ranges, ← some, forcedByte?]
  split
  next nothing => simp [nothing]
  next range others found =>
    rw [found, Option.ite_none_right_eq_some, Option.some.injEq, List.forall_mem_cons]
    constructor
    · intro h
      obtain ⟨⟨one, same⟩, rfl⟩ := h
      have here : range = ⟨range.lo, range.lo⟩ := by
        obtain ⟨lo, hi⟩ := range
        obtain rfl : lo = hi := one
        rfl
      exact ⟨by simp, here, fun r member => (same r member).trans here⟩
    · intro h
      obtain ⟨_, rfl, same⟩ := h
      exact ⟨⟨rfl, same⟩, rfl⟩

theorem length_forcedBytes (a : Automaton) (count : Nat) (set : PositionSet) :
    (a.forcedBytes count set).length ≤ count := by
  induction count generalizing set with
  | zero => exact Nat.le_refl 0
  | succ count ih =>
    rw [forcedBytes]
    split
    next => exact Nat.zero_le _
    next =>
      split
      next => exact Nat.zero_le _
      next => exact Nat.succ_le_succ (ih _)

/-- Only the last of the forced bytes may lead to a set that is dead, since each byte is forced by a position. -/
theorem isDead_before_forced {a : Automaton} {count : Nat} {set : PositionSet} {w rest : List UInt8} {b : UInt8}
    (forced : w ++ b :: rest = a.forcedBytes count set) : (w.foldl a.step set).isDead = false := by
  induction count generalizing set w with
  | zero => exact absurd forced (by simp [forcedBytes])
  | succ count ih =>
    rw [forcedBytes] at forced
    split at forced
    next => exact absurd forced (by simp)
    next =>
      split at forced
      next => exact absurd forced (by simp)
      next c next =>
        cases w with
        | nil =>
          obtain ⟨⟨p, among, _⟩, _⟩ := forcedByte?_eq_some.mp next
          exact Automaton.isDead_eq_false.mpr (.inr ⟨p, among⟩)
        | cons d w =>
          obtain ⟨rfl, others⟩ := List.cons_eq_cons.mp forced
          rw [List.foldl_cons]
          exact ih others

theorem eq_of_forcedByte? {a : Automaton} {set : PositionSet} {b c : UInt8} {w : List UInt8}
    (forced : a.forcedByte? set = some b) (matched : Matches a set (c :: w)) : c = b := by
  obtain ⟨q, consumed, _⟩ := matched
  obtain ⟨p, among, range, next, edge, taken, _⟩ := mem_consume.mp consumed
  obtain rfl : range = ⟨b, b⟩ := (forcedByte?_eq_some.mp forced).2 p among _ edge
  exact (ByteRange.contains_single b c).mp taken

section

variable {bodies : Array (Expr RuleId)} {main : RuleId}

theorem proper_of_mem_bytesAt {p : Position} {range : ByteRange} {next : Node}
    (edge : (range, next) ∈ (ofBodies bodies main).bytesAt p) : range.lo ≤ range.hi := by
  have drawn := mem_transitionsAt.mp (mem_bytesAt.mp edge).2
  rw [Draft.ofBodies_eq] at drawn
  exact (Draft.proper_of_drawRules drawn).resolve_left List.not_mem_nil

variable {rank : RuleId → Nat} (ranked : LeftRanked bodies rank)
include ranked

theorem forcedBytes_prefix {set : PositionSet} (count : Nat) {v : List UInt8}
    (matched : Matches (ofBodies bodies main) set v) :
    (ofBodies bodies main).forcedBytes count set <+: v := by
  induction count generalizing set v with
  | zero => exact List.nil_prefix
  | succ count ih =>
    rw [forcedBytes]
    split
    next => exact List.nil_prefix
    next going =>
      split
      next => exact List.nil_prefix
      next b forced =>
        cases v with
        | nil => exact absurd matched going
        | cons c w =>
          obtain rfl := eq_of_forcedByte? forced matched
          have rest := ih ((matches_step ranked c w).mpr matched)
          exact List.cons_prefix_cons.mpr ⟨rfl, rest⟩

variable (productive : Productive bodies)
include productive

omit ranked in
theorem exists_matches_cons {set : PositionSet} (inside : InsideSet (ofBodies bodies main) set) {p : Position}
    (among : p ∈ set.positions) {range : ByteRange} {next : Node}
    (edge : (range, next) ∈ (ofBodies bodies main).bytesAt p) {b : UInt8} (taken : range.contains b = true) :
    ∃ w, Matches (ofBodies bodies main) set (b :: w) := by
  have consumed : ⟨next, p.returns⟩ ∈ (ofBodies bodies main).consume set b :=
    mem_consume.mpr ⟨p, among, range, next, edge, taken, rfl⟩
  obtain ⟨w, accepts⟩ := productive.exists_accepts (inside.consume b _ consumed)
  exact ⟨w, _, consumed, accepts⟩

omit ranked in
theorem forced_of_begun {set : PositionSet} (inside : InsideSet (ofBodies bodies main) set)
    (alive : ∃ v, Matches (ofBodies bodies main) set v) {b : UInt8} {g : List UInt8}
    (begun : ∀ v, Matches (ofBodies bodies main) set v → b :: g <+: v) :
    set.accepting = false ∧ (ofBodies bodies main).forcedByte? set = some b := by
  have first {c : UInt8} {w : List UInt8} (matched : Matches (ofBodies bodies main) set (c :: w)) : c = b :=
    (List.cons_prefix_cons.mp (begun _ matched)).1.symm
  constructor
  · apply Bool.eq_false_iff.mpr
    intro accepting
    exact absurd (begun [] accepting) (by simp)
  · obtain ⟨v, matched⟩ := alive
    obtain ⟨rest, rfl⟩ := begun v matched
    obtain ⟨q, consumed, _⟩ := matched
    obtain ⟨p, among, _, _, edge, _, _⟩ := mem_consume.mp consumed
    refine forcedByte?_eq_some.mpr ⟨⟨p, among, List.ne_nil_of_mem edge⟩, ?_⟩
    intro p among labelled edge
    obtain ⟨⟨lo, hi⟩, next⟩ := labelled
    -- Whatever is matched begins with the one byte, so both ends of the range are that byte.
    have proper := proper_of_mem_bytesAt edge
    have low : (ByteRange.mk lo hi).contains lo = true := by simpa [ByteRange.contains] using proper
    have high : (ByteRange.mk lo hi).contains hi = true := by simpa [ByteRange.contains] using proper
    obtain ⟨_, matched⟩ := exists_matches_cons productive inside among edge low
    obtain rfl := first matched
    obtain ⟨_, matched⟩ := exists_matches_cons productive inside among edge high
    obtain rfl := first matched
    rfl

theorem prefix_forcedBytes {set : PositionSet} (inside : InsideSet (ofBodies bodies main) set)
    (alive : ∃ v, Matches (ofBodies bodies main) set v) {g : List UInt8}
    (begun : ∀ v, Matches (ofBodies bodies main) set v → g <+: v) (count : Nat) :
    g.take count <+: (ofBodies bodies main).forcedBytes count set := by
  induction count generalizing set g with
  | zero => exact List.nil_prefix
  | succ count ih =>
    cases g with
    | nil => exact List.nil_prefix
    | cons b g =>
      obtain ⟨going, forced⟩ := forced_of_begun productive inside alive begun
      -- What is matched after the first byte begins with the rest of what everything begins with.
      have onward (v : List UInt8) : Matches (ofBodies bodies main) ((ofBodies bodies main).step set b) v ↔
          Matches (ofBodies bodies main) set (b :: v) := matches_step ranked b v
      obtain ⟨v, matched⟩ := alive
      obtain ⟨rest, rfl⟩ := begun v matched
      have later := ih (inside.step ranked b) ⟨_, (onward _).mpr matched⟩ fun v matched =>
        (List.cons_prefix_cons.mp (begun _ ((onward v).mp matched))).2
      rw [forcedBytes, going, if_neg Bool.false_ne_true, forced]
      exact List.cons_prefix_cons.mpr ⟨rfl, later⟩

end

end Automaton

/-- A byte string that all of some byte strings begin with, none of which ends before it does. -/
def Forces (texts : Set (List UInt8)) (f : List UInt8) : Prop :=
  (∀ v ∈ texts, f <+: v) ∧ ∀ p, p <+: f → p ≠ f → p ∉ texts

theorem forces_iff {texts : Set (List UInt8)} {f : List UInt8} : Forces texts f ↔ ∀ v ∈ texts, f <+: v := by
  refine ⟨And.left, fun begun => ⟨begun, fun p early other member => ?_⟩⟩
  exact other (early.eq_of_length_le (begun p member).length_le)

namespace Automaton

variable {bodies : Array (Expr RuleId)} {main : RuleId} {rank : RuleId → Nat} (ranked : LeftRanked bodies rank)
  (productive : Productive bodies) {set : PositionSet} (inside : InsideSet (ofBodies bodies main) set)
  (alive : ∃ v, Matches (ofBodies bodies main) set v)
include ranked productive inside alive

/-- The forced bytes are the beginning of the longest byte string that is forced. -/
theorem take_of_longest {f : List UInt8} (longest : Longest (Forces {v | Matches (ofBodies bodies main) set v}) f)
    (count : Nat) : f.take count = (ofBodies bodies main).forcedBytes count set := by
  obtain ⟨forces, most⟩ := longest
  have early := prefix_forcedBytes ranked productive inside alive forces.1 count
  have forced : ∀ v, Matches (ofBodies bodies main) set v → _ := fun v => forcedBytes_prefix ranked count
  obtain ⟨v, matched⟩ := alive
  have within : (ofBodies bodies main).forcedBytes count set <+: f :=
    List.prefix_of_prefix_length_le (forced v matched) (forces.1 v matched) (most _ (forces_iff.mpr forced))
  have late := List.prefix_take_iff.mpr ⟨within, length_forcedBytes _ count set⟩
  exact early.eq_of_length_le late.length_le

theorem exists_longest : ∃ f, Longest (Forces {v | Matches (ofBodies bodies main) set v}) f := by
  obtain ⟨v, matched⟩ := id alive
  refine ⟨(ofBodies bodies main).forcedBytes v.length set,
    forces_iff.mpr fun u matched => forcedBytes_prefix ranked _ matched, fun g forces => ?_⟩
  have early := prefix_forcedBytes ranked productive inside alive forces.1 v.length
  rw [List.take_of_length_le (forces.1 v matched).length_le] at early
  exact early.length_le

end Automaton
end GuidedDecoding
