import GuidedDecoding.Grammar.Expr
import GuidedDecoding.Text.ByteRange

namespace GuidedDecoding

/-- Rule `r` starts at node `2 * r` and ends at node `2 * r + 1`; the other nodes follow. -/
abbrev Node := Nat

inductive Transition where
  | byte (range : ByteRange) (next : Node)
  | call (rule : RuleId) (next : Node)
  | silent (next : Node)
  deriving Repr, DecidableEq, Inhabited

/-- A graph being drawn: how many nodes it has, and its edges, the last one first. -/
structure Draft where
  size : Nat
  edges : List (Node × Transition)
  deriving Repr

namespace Draft

def edge (draft : Draft) (start : Node) (transition : Transition) : Draft :=
  { draft with edges := (start, transition) :: draft.edges }

def grow (draft : Draft) : Draft := { draft with size := draft.size + 1 }

def addPath : List ByteRange → Node → Node → Draft → Draft
  | [], _, _, draft => draft
  | [range], start, stop, draft => draft.edge start (.byte range stop)
  | range :: rest, start, stop, draft =>
    addPath rest draft.size stop (draft.grow.edge start (.byte range draft.size))

def addPaths (sequences : List (List ByteRange)) (start stop : Node) (draft : Draft) : Draft :=
  sequences.foldl (fun draft ranges => addPath ranges start stop draft) draft

abbrev Fragment := Node → Node → Draft → Draft

def addCopies (body : Fragment) : Nat → Node → Draft → Node × Draft
  | 0, start, draft => (start, draft)
  | count + 1, start, draft => addCopies body count draft.size (body start draft.size draft.grow)

def addLoop (body : Fragment) (start stop : Node) (draft : Draft) : Draft :=
  let loop := draft.size
  let draft := body loop loop (draft.grow.edge start (.silent loop))
  draft.edge loop (.silent stop)

/-- Up to `count` copies, with a way out before each of them and after the last. -/
def addOptional (body : Fragment) : Nat → Fragment
  | 0, start, stop, draft => draft.edge start (.silent stop)
  | count + 1, start, stop, draft =>
    let draft := draft.edge start (.silent stop)
    addOptional body count draft.size stop (body start draft.size draft.grow)

mutual

def addExpr : Expr RuleId → Fragment
  | .empty, start, stop, draft => draft.edge start (.silent stop)
  | .literal [], start, stop, draft => draft.edge start (.silent stop)
  | .literal bytes, start, stop, draft => addPath (bytes.map fun b => ⟨b, b⟩) start stop draft
  | .charClass negated ranges, start, stop, draft =>
    addPaths ((CodeRange.canonical ranges negated).flatMap CodeRange.toUtf8) start stop draft
  | .rule r, start, stop, draft => draft.edge start (.call r stop)
  | .sequence items, start, stop, draft => addSequence items start stop draft
  | .choice alternatives, start, stop, draft => addChoice alternatives start stop draft
  | .repetition body min max, start, stop, draft =>
    let (middle, draft) := addCopies (addExpr body) min start draft
    match max with
    | none => addLoop (addExpr body) middle stop draft
    | some max => addOptional (addExpr body) (max - min) middle stop draft

def addSequence : List (Expr RuleId) → Fragment
  | [], start, stop, draft => draft.edge start (.silent stop)
  | [item], start, stop, draft => addExpr item start stop draft
  | item :: rest, start, stop, draft =>
    addSequence rest draft.size stop (addExpr item start draft.size draft.grow)

def addChoice : List (Expr RuleId) → Fragment
  | [], _, _, draft => draft
  | e :: rest, start, stop, draft => addChoice rest start stop (addExpr e start stop draft)

end

def ofBodies (bodies : List (Expr RuleId)) : Draft :=
  bodies.zipIdx.foldl (fun draft (body, r) => addExpr body (2 * r) (2 * r + 1) draft)
    ⟨2 * bodies.length, []⟩

def table (draft : Draft) : Array (List Transition) :=
  draft.edges.foldl (fun table (start, transition) => table.modify start (transition :: ·))
    (.replicate draft.size [])

end Draft
end GuidedDecoding
