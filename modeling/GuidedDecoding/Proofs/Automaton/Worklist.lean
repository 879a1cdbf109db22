import Mathlib
import GuidedDecoding.Proofs.Automaton.Closure

namespace GuidedDecoding.Automaton

def collect (a : Automaton) (seen : Std.TreeSet Position) : PositionSet :=
  { positions := seen.toList.filter fun p => !(a.bytesAt p).isEmpty
    accepting := seen.toList.any a.completesMain }

/-- What is to be said of the worklist that begins with `seeds`, for rules that add at most `deeper`
returns to those of the deepest seed. -/
structure WorklistEnds (a : Automaton) (seeds : List Position) (deeper : Nat) : Prop where
  ends : Acc (fun later earlier => Worklist.Visit a.moves earlier later) (.start seeds)
  shallow : ∀ work, Relation.ReflTransGen (Worklist.Visit a.moves) (.start seeds) work →
    ∀ depth, (∀ seed ∈ seeds, seed.returns.length ≤ depth) →
      ∀ p ∈ work.seen, p.returns.length ≤ depth + deeper
  complete : (∀ seed ∈ seeds, Inside a seed) →
    ∀ work, Relation.ReflTransGen (Worklist.Visit a.moves) (.start seeds) work →
      work.waiting = [] → a.collect work.seen = a.closure seeds

section

variable {bodies : Array (Expr RuleId)} {main : RuleId} {rank : RuleId → Nat}
  (ranked : LeftRanked bodies rank) (seeds : List Position)
include ranked

theorem acc_closure : Acc
    (fun later earlier => Worklist.Visit (ofBodies bodies main).moves earlier later) (.start seeds) := by
  obtain ⟨label, silent⟩ := exists_silent main ranked
  have closed (p : Position) (bounded : Bounded bodies main rank label seeds p) (q : Position)
      (step : q ∈ (ofBodies bodies main).moves p) : Bounded bodies main rank label seeds q :=
    bounded.move silent (fun _ => id) step
  have follows : Worklist.Follows (ofBodies bodies main).moves seeds (.start seeds) := Worklist.follows_start
  have reached (p : Position) (member : p ∈ (Worklist.start seeds).seen) :
      Bounded bodies main rank label seeds p := by
    obtain ⟨q, given, leads⟩ := follows.reached p member
    exact leads.of_mem closed (bounded_seed label ranked given)
  exact Worklist.acc_visit _ closed (fun _ => size_le_of_bounded) reached
    fun p member => reached p (follows.waiting p member)

theorem length_le_of_leads {depth : Nat} {p q : Position} (short : p.returns.length ≤ depth)
    (leads : Leads (ofBodies bodies main).moves p q) : q.returns.length ≤ depth + bodies.size := by
  obtain ⟨label, silent⟩ := exists_silent main ranked
  have start : Fits bodies.size (depth + bodies.size) rank label (p.node :: p.returns) :=
    fits_of_length label ranked.bound _ _ (Nat.add_le_add_right short _)
  have fits : Fits bodies.size (depth + bodies.size) rank label (q.node :: q.returns) :=
    leads.of_mem (P := fun p => Fits _ _ rank label (p.node :: p.returns))
      (fun _ fits _ step => silent.fits_move (fun _ => id) (mem_moves.mp step) fits) start
  exact fits.1

theorem collect_eq_closure {seen : Std.TreeSet Position}
    (reached : ∀ p, p ∈ seen ↔ ∃ seed ∈ seeds, Leads (ofBodies bodies main).moves seed p) :
    (ofBodies bodies main).collect seen = (ofBodies bodies main).closure seeds := by
  refine (closureWith_eq ranked ?_ (fun p => ?_) ?_).symm
  · exact Std.TreeSet.ordered_toList.filter _
  · rw [collect, List.mem_filter, Std.TreeSet.mem_toList, reached, Bool.not_eq_true', List.isEmpty_eq_false_iff]
  · rw [collect, List.any_eq_true]
    simp only [Std.TreeSet.mem_toList, reached]

end

/-- Without left recursion the worklist of a closure ends, whatever its seeds are, and calls nest no
deeper than the number of rules on top of the deepest seed. -/
theorem worklistEnds (bodies : Array (Expr RuleId)) (main : RuleId) (preferred : Nat)
    (recursionFree : leftRecursiveRule? bodies preferred = none) (seeds : List Position) :
    WorklistEnds (ofBodies bodies main) seeds bodies.size := by
  obtain ⟨rank, ranked⟩ := exists_leftRanked recursionFree
  refine ⟨acc_closure ranked seeds, fun work run depth short p member => ?_, fun _ work run finished => ?_⟩
  · obtain ⟨seed, given, leads⟩ := (Worklist.Follows.run run).reached p member
    exact length_le_of_leads ranked (short seed given) leads
  · exact collect_eq_closure ranked seeds ((Worklist.Follows.run run).mem_seen finished)

theorem worklistEnds_twoOptional :
    leftRecursiveRule? twoOptional 0 = none ∧
      WorklistEnds (ofBodies twoOptional 0) [⟨0, []⟩, ⟨2, [4, 1, 3]⟩] twoOptional.size := by
  have recursionFree : leftRecursiveRule? twoOptional 0 = none := by cbv
  exact ⟨recursionFree, worklistEnds twoOptional 0 0 recursionFree _⟩

end GuidedDecoding.Automaton
