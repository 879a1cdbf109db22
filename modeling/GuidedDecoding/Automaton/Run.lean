import GuidedDecoding.Automaton.Basic
import GuidedDecoding.Automaton.Position

namespace GuidedDecoding.Automaton

/-- The positions one move away without a byte. A completed rule only returns, and a call notes
where to return unless that node is a tail. A call to a rule outside the table leads nowhere. -/
def moves (a : Automaton) (p : Position) : List Position :=
  match a.completed? p.node with
  | some _ =>
    match p.returns with
    | [] => []
    | node :: returns => [⟨node, returns⟩]
  | none => (a.transitionsAt p.node).filterMap fun
    | .byte _ _ => none
    | .silent next => some ⟨next, p.returns⟩
    | .call r next => (a.start? r).map fun node =>
      ⟨node, if a.tails.contains next then p.returns else next :: p.returns⟩

def bytesAt (a : Automaton) (p : Position) : List (ByteRange × Node) :=
  match a.completed? p.node with
  | some _ => []
  | none => (a.transitionsAt p.node).filterMap fun
    | .byte range next => some (range, next)
    | _ => none

def completesMain (a : Automaton) (p : Position) : Bool :=
  (a.completed? p.node).isSome && p.returns.isEmpty

/-- How deep returns can nest after some positions: without left recursion no rule is entered twice
before a byte is consumed. -/
def depthBound (a : Automaton) (seeds : List Position) : Nat :=
  (seeds.map fun p => p.returns.length).foldl max 0 + a.ruleCount

def nodeBound (a : Automaton) (seeds : List Position) : Nat :=
  (seeds.flatMap fun p => p.node :: p.returns).foldl max a.nodeCount + 1

def positionBound (nodes depth : Nat) : Nat := 1 <<< ((nodes.log2 + 1) * (depth + 1))

/-- Visits all positions that some positions lead to without a byte. Whatever the worklist was used for
before is forgotten. -/
def search (a : Automaton) (work : Worklist Position) (seeds : List Position) :
    List Position × Worklist Position :=
  (work.clear.add seeds).explore a.moves (positionBound (a.nodeBound seeds) (a.depthBound seeds))

def closureWith (a : Automaton) (work : Worklist Position) (seeds : List Position) :
    PositionSet × Worklist Position :=
  let found := a.search work seeds
  ({ positions := Position.ascending (found.1.filter fun p => !(a.bytesAt p).isEmpty)
     accepting := found.1.any a.completesMain }, found.2)

def closure (a : Automaton) (seeds : List Position) : PositionSet := (a.closureWith .empty seeds).1

def initial (a : Automaton) : PositionSet :=
  match a.start? a.main with
  | some node => a.closure [⟨node, []⟩]
  | none => .empty

def consume (a : Automaton) (set : PositionSet) (b : UInt8) : List Position :=
  set.positions.flatMap fun p => (a.bytesAt p).filterMap fun (range, next) =>
    if range.contains b then some ⟨next, p.returns⟩ else none

def step (a : Automaton) (set : PositionSet) (b : UInt8) : PositionSet :=
  a.closure (a.consume set b)

def stepBytes? (a : Automaton) (set : PositionSet) : List UInt8 → Option PositionSet
  | [] => some set
  | b :: bytes =>
    let next := a.step set b
    if next.isDead then none else stepBytes? a next bytes

def liveSteps (a : Automaton) (set : PositionSet) : List UInt8 → List PositionSet
  | [] => []
  | b :: bytes =>
    let next := a.step set b
    if next.isDead then [] else next :: liveSteps a next bytes

def steps (a : Automaton) (set : PositionSet) : List UInt8 → List PositionSet
  | [] => []
  | b :: bytes =>
    let next := a.step set b
    next :: steps a next bytes

def firstBytes (a : Automaton) (set : PositionSet) : Std.TreeSet UInt8 :=
  .ofList (set.positions.flatMap fun p => (a.bytesAt p).flatMap fun (range, _) => range.bytes)

def forcedByte? (a : Automaton) (set : PositionSet) : Option UInt8 :=
  match set.positions.flatMap fun p => (a.bytesAt p).map Prod.fst with
  | [] => none
  | range :: ranges => if range.lo = range.hi ∧ ∀ r ∈ ranges, r = range then some range.lo else none

end GuidedDecoding.Automaton
