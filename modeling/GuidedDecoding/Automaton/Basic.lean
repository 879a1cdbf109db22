import GuidedDecoding.Automaton.Transition
import GuidedDecoding.Grammar.Basic
import GuidedDecoding.Search.Worklist
import GuidedDecoding.Text.Bracketed

namespace GuidedDecoding

structure Automaton where
  bodies : Array (Expr RuleId)
  main : RuleId
  transitions : Array (List Transition)
  tails : Std.TreeSet Node

namespace Automaton

def nodeCount (a : Automaton) : Nat := a.transitions.size

def ruleCount (a : Automaton) : Nat := a.bodies.size

def transitionsAt (a : Automaton) (node : Node) : List Transition := a.transitions[node]?.getD []

def completedIn (ruleCount : Nat) (node : Node) : Option RuleId :=
  if node % 2 = 1 ∧ node / 2 < ruleCount then some (node / 2) else none

def completed? (a : Automaton) (node : Node) : Option RuleId := completedIn a.ruleCount node

def start (r : RuleId) : Node := 2 * r

def start? (a : Automaton) (r : RuleId) : Option Node :=
  if r < a.ruleCount then some (start r) else none

/-- The nodes from which only silent transitions lead, and only to nodes of the same kind or to the
end of the rule. A call that returns to such a node needs no return node. -/
def tailNodes (ruleCount : Nat) (transitions : Array (List Transition)) : Std.TreeSet Node :=
  let (ends, others) :=
    (List.range transitions.size).partition fun node => (completedIn ruleCount node).isSome
  let follows (known : Node → Bool) (node : Node) : Bool :=
    match transitions[node]?.getD [] with
    | [] => false
    | out => out.all fun
      | .silent next => known next
      | _ => false
  saturate follows (.ofList ends) others

def ofBodies (bodies : Array (Expr RuleId)) (main : RuleId) : Automaton :=
  let transitions := (Draft.ofBodies bodies.toList).table
  ⟨bodies, main, transitions, tailNodes bodies.size transitions⟩

/-- The nodes that follow a node of a rule without input, where `known` tells which calls may be skipped. Nothing
follows the end of the rule. -/
def skips (a : Automaton) (known : RuleId → Bool) (r : RuleId) (node : Node) : List Node :=
  if a.completed? node = some r then []
  else
    (a.transitionsAt node).filterMap fun
      | .byte _ _ => none
      | .silent next => some next
      | .call callee next => if known callee then some next else none

def skipped (a : Automaton) (known : RuleId → Bool) (r : RuleId) : Bool :=
  ((Worklist.start [start r]).explore (a.skips known r) a.nodeCount).1.any (a.completed? · == some r)

def nullable (a : Automaton) : Std.TreeSet RuleId := sweeps a.skipped (List.range a.ruleCount) ∅

def callsAt (a : Automaton) (r : RuleId) (node : Node) : List RuleId :=
  if a.completed? node = some r then []
  else
    (a.transitionsAt node).filterMap fun
      | .call callee _ => some callee
      | _ => none

def leftCalls (a : Automaton) (known : RuleId → Bool) (r : RuleId) : List RuleId :=
  ((Worklist.start [start r]).explore (a.skips known r) a.nodeCount).1.flatMap (a.callsAt r)

def leftCallTable (a : Automaton) : Array (List RuleId) :=
  let nullable := a.nullable
  (Array.range a.ruleCount).map fun r => (Std.TreeSet.ofList (a.leftCalls nullable.contains r)).toList

/-- A rule that calls itself before any input, one below `preferred` if there is one on the same cycle. -/
def recursiveRule? (a : Automaton) (preferred : Nat) : Option RuleId :=
  LeftRecursion.report? a.leftCallTable preferred

def members (bound : Nat) (set : Std.TreeSet Nat) : List Nat :=
  (List.range bound).filter set.contains

def summary (a : Automaton) : String :=
  "Automaton \x7b node_count: " ++ toString a.nodeCount ++
    ", rule_starts: " ++ bracketed ((List.range a.ruleCount).map start) ++
    ", main_rule: RuleId(" ++ toString a.main ++ ")" ++
    ", nullable_rules: " ++ bracketed (members a.ruleCount a.nullable) ++
    ", tail_nodes: " ++ bracketed (members a.nodeCount a.tails) ++ " \x7d"

end Automaton

def Grammar.automaton (grammar : Grammar) : Automaton :=
  .ofBodies (Grammar.bodies grammar.rules) grammar.main

end GuidedDecoding
