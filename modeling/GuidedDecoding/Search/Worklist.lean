import Std.Data.TreeSet

namespace GuidedDecoding

/-- What has been seen, and what of it still waits to be visited, the last one first. -/
structure Worklist (α : Type) [Ord α] where
  seen : Std.TreeSet α
  waiting : List α

namespace Worklist

variable {α : Type} [Ord α]

def empty : Worklist α := ⟨∅, []⟩

def clear (_ : Worklist α) : Worklist α := empty

def see (work : Worklist α) (a : α) : Worklist α :=
  if work.seen.contains a then work else ⟨work.seen.insert a, a :: work.waiting⟩

def add (work : Worklist α) (things : List α) : Worklist α := things.foldl see work

def start (things : List α) : Worklist α := add ⟨∅, []⟩ things

/-- One of the waiting things is visited. It may be any of them, the one that came last as well as the
one that came first. -/
inductive Visit (next : α → List α) : Worklist α → Worklist α → Prop where
  | pick {seen : Std.TreeSet α} {before after : List α} {a : α} :
    Visit next ⟨seen, before ++ a :: after⟩ (add ⟨seen, before ++ after⟩ (next a))

/-- Always visits the thing that came last, until nothing waits or there were `bound` visits, and lists
what it visited. -/
def explore (next : α → List α) : Nat → Worklist α → List α × Worklist α
  | bound + 1, ⟨seen, a :: waiting⟩ =>
    let rest := explore next bound (add ⟨seen, waiting⟩ (next a))
    (a :: rest.1, rest.2)
  | _, work => ([], work)

end Worklist
end GuidedDecoding
