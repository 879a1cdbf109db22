import Std.Data.TreeSet

namespace GuidedDecoding

structure CodeRange where
  lo : Nat
  hi : Nat
  deriving Repr, DecidableEq, Inhabited

namespace CodeRange

def maxCodePoint : Nat := 0x10FFFF

def Mem (r : CodeRange) (n : Nat) : Prop := r.lo ≤ n ∧ n ≤ r.hi

instance : Membership Nat CodeRange := ⟨Mem⟩

instance (r : CodeRange) (n : Nat) : Decidable (n ∈ r) :=
  inferInstanceAs (Decidable (r.lo ≤ n ∧ n ≤ r.hi))

def clamp (r : CodeRange) : CodeRange := ⟨min r.lo r.hi, min (max r.lo r.hi) maxCodePoint⟩

instance : Ord CodeRange := ⟨compareLex (compareOn lo) (compareOn hi)⟩

instance : Std.TransOrd CodeRange :=
  inferInstanceAs (Std.TransCmp (compareLex (compareOn lo) (compareOn hi)))

instance : Std.LawfulEqOrd CodeRange where
  eq_of_compare {r s} same := by
    obtain ⟨lo, hi⟩ := compareLex_eq_eq.mp same
    have lo := Std.LawfulEqOrd.eq_of_compare lo
    have hi := Std.LawfulEqOrd.eq_of_compare hi
    cases r
    cases s
    simp_all

def ascending (ranges : List CodeRange) : List CodeRange := (Std.TreeSet.ofList ranges).toList

def joinFrom (current : CodeRange) : List CodeRange → List CodeRange
  | [] => [current]
  | r :: rest =>
    if r.lo ≤ current.hi + 1 then joinFrom ⟨current.lo, max current.hi r.hi⟩ rest
    else current :: joinFrom r rest

def join : List CodeRange → List CodeRange
  | [] => []
  | r :: rest => joinFrom r rest

/-- The code points from `next` on that no member of a canonical list holds. -/
def gapsFrom (next : Nat) : List CodeRange → List CodeRange
  | [] => if next ≤ maxCodePoint then [⟨next, maxCodePoint⟩] else []
  | r :: rest =>
    if next < r.lo then ⟨next, r.lo - 1⟩ :: gapsFrom (r.hi + 1) rest
    else gapsFrom (r.hi + 1) rest

/-- The canonical list of the code points inside the ranges, or outside them if `negated`.
Bounds in the wrong order are swapped. -/
def canonical (ranges : List CodeRange) (negated : Bool) : List CodeRange :=
  let inside := join (ascending ((ranges.map clamp).filter (·.lo ≤ maxCodePoint)))
  if negated then gapsFrom 0 inside else inside

end CodeRange
end GuidedDecoding
