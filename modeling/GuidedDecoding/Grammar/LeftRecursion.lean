import GuidedDecoding.Grammar.Nullable

namespace GuidedDecoding

namespace Expr

mutual

def leftCalls (nullable? : RuleId → Bool) : Expr RuleId → List RuleId
  | rule r => [r]
  | sequence items => leftCallsAll nullable? items
  | choice alternatives => leftCallsAny nullable? alternatives
  | repetition body min max =>
    if min == 0 && max == some 0 then [] else leftCalls nullable? body
  | empty | literal _ | charClass _ _ => []

def leftCallsAll (nullable? : RuleId → Bool) : List (Expr RuleId) → List RuleId
  | [] => []
  | e :: rest =>
    leftCalls nullable? e ++ if e.nullable nullable? then leftCallsAll nullable? rest else []

def leftCallsAny (nullable? : RuleId → Bool) : List (Expr RuleId) → List RuleId
  | [] => []
  | e :: rest => leftCalls nullable? e ++ leftCallsAny nullable? rest

end

end Expr

namespace LeftRecursion

def callTable (bodies : Array (Expr RuleId)) : Array (List RuleId) :=
  let nullable := nullableRules bodies
  bodies.map fun body => (Std.TreeSet.ofList (body.leftCalls nullable.contains)).toList

/-- A rule on the path of the search, with the calls that are still to be followed. -/
abbrev Frame := RuleId × List RuleId

theorem size_erase_lt {fresh : Std.TreeSet RuleId} {r : RuleId} (h : r ∈ fresh) :
    (fresh.erase r).size < fresh.size := by
  have size := Std.TreeSet.size_erase (t := fresh) (k := r)
  have inhabited : fresh.isEmpty = false := Std.TreeSet.isEmpty_eq_false_iff_exists_mem.mpr ⟨r, h⟩
  rw [Std.TreeSet.isEmpty_eq_size_eq_zero, beq_eq_false_iff_ne] at inhabited
  rw [if_pos (Std.TreeSet.mem_iff_contains.mp h)] at size
  omega

def width (calls : Array (List RuleId)) : Nat := (calls.toList.map List.length).foldl max 0

theorem length_le_width (calls : Array (List RuleId)) (r : RuleId) :
    (calls[r]?.getD []).length ≤ width calls := by
  have grows (ns : List Nat) (n : Nat) : n ≤ ns.foldl max n ∧ ∀ m ∈ ns, m ≤ ns.foldl max n := by
    induction ns generalizing n with
    | nil => simp
    | cons k ns ih =>
      have := ih (max n k)
      simp only [List.foldl_cons, List.mem_cons, forall_eq_or_imp]
      exact ⟨by omega, by omega, this.2⟩
  cases found : calls[r]? with
  | none => simp
  | some callees =>
    have member := Array.mem_toList_iff.mpr (Array.mem_of_getElem? found)
    exact (grows _ 0).2 _ (List.mem_map_of_mem member)

/-- Follows the calls depth first. The path has its innermost rule first; `fresh` holds the rules
not visited yet. A call to a visited rule that is not on the path leads nowhere new, and a call to
a rule on the path closes a cycle, which is the part of the path from that rule on. -/
def search (calls : Array (List RuleId)) (fresh : Std.TreeSet RuleId) (path : List Frame) :
    Except (List RuleId) (Std.TreeSet RuleId) :=
  match path with
  | [] => .ok fresh
  | (_, []) :: rest => search calls fresh rest
  | (r, callee :: callees) :: rest =>
    if h : callee ∈ fresh then
      have := size_erase_lt h
      search calls (fresh.erase callee) ((callee, calls[callee]?.getD []) :: (r, callees) :: rest)
    else
      let trail := r :: rest.map Prod.fst
      if callee ∈ trail then .error (callee :: trail.takeWhile (· != callee))
      else search calls fresh ((r, callees) :: rest)
termination_by fresh.size * (width calls + 2) + (path.length + (path.flatMap Prod.snd).length)
decreasing_by
  · simp only [List.length_cons, List.flatMap_cons, List.length_append]
    omega
  · have bound := length_le_width calls callee
    have product := Nat.mul_le_mul_right (width calls + 2) (Nat.succ_le_of_lt this)
    rw [Nat.succ_mul] at product
    simp only [List.length_cons, List.flatMap_cons, List.length_append]
    omega
  · simp only [List.length_cons, List.flatMap_cons, List.length_append]
    omega

def searchAll (calls : Array (List RuleId)) (fresh : Std.TreeSet RuleId) :
    List RuleId → Except (List RuleId) (Std.TreeSet RuleId)
  | [] => .ok fresh
  | r :: rest =>
    if r ∈ fresh then do
      let fresh ← search calls (fresh.erase r) [(r, calls[r]?.getD [])]
      searchAll calls fresh rest
    else searchAll calls fresh rest

/-- A rule on the first cycle of calls that the search meets: the least one below `preferred` if the
cycle has one, otherwise the least one. -/
def report? (calls : Array (List RuleId)) (preferred : Nat) : Option RuleId :=
  let rules := List.range calls.size
  match searchAll calls (.ofList rules) rules with
  | .ok _ => none
  | .error cycle =>
    match (cycle.filter (· < preferred)).min? with
    | some r => some r
    | none => cycle.min?

end LeftRecursion

def leftRecursiveRule? (bodies : Array (Expr RuleId)) (preferred : Nat) : Option RuleId :=
  LeftRecursion.report? (LeftRecursion.callTable bodies) preferred

end GuidedDecoding
