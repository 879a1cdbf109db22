import GuidedDecoding.Automaton.Transition
import GuidedDecoding.Search.Worklist

namespace GuidedDecoding

/-- A node, and the return nodes of the rules it is nested in, the innermost first. -/
structure Position where
  node : Node
  returns : List Node
  deriving Repr, DecidableEq, Inhabited

/-- What can be matched next: the positions that can consume a byte, in ascending order, and whether
the main rule is matched already. -/
structure PositionSet where
  positions : List Position
  accepting : Bool
  deriving Repr, DecidableEq, Inhabited

namespace Position

/-- Order by node, then by the return nodes from the outermost on. -/
instance : Ord Position :=
  ⟨compareLex (compareOn Position.node) (compareOn fun p => p.returns.reverse)⟩

instance : Std.TransOrd Position :=
  inferInstanceAs (Std.TransCmp
    (compareLex (compareOn Position.node) (compareOn fun p => p.returns.reverse)))

instance : Std.LawfulEqOrd Position where
  eq_of_compare {p q} same := by
    obtain ⟨node, returns⟩ := compareLex_eq_eq.mp same
    have node := Std.LawfulEqOrd.eq_of_compare node
    have returns := List.reverse_inj.mp (Std.LawfulEqOrd.eq_of_compare returns)
    cases p
    cases q
    simp_all

def insert (p : Position) : List Position → List Position
  | [] => [p]
  | q :: rest => if (compare p q).isLE then p :: q :: rest else q :: insert p rest

def ascending (positions : List Position) : List Position :=
  positions.foldl (fun sorted p => insert p sorted) []

end Position

namespace PositionSet

def empty : PositionSet := ⟨[], false⟩

def isDead (set : PositionSet) : Bool := set.positions.isEmpty && !set.accepting

end PositionSet
end GuidedDecoding
