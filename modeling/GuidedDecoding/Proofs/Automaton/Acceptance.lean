import Mathlib
import GuidedDecoding.Proofs.Automaton.Closure

namespace GuidedDecoding.Automaton

/-- A position from which a byte string leads to the end of the main rule. -/
inductive Accepts (a : Automaton) : Position → List UInt8 → Prop where
  | done {p : Position} (completes : a.completesMain p = true) : Accepts a p []
  | move {p q : Position} {w : List UInt8} (move : Move a p q) (rest : Accepts a q w) : Accepts a p w
  | byte {p : Position} {range : ByteRange} {next : Node} {b : UInt8} {w : List UInt8}
    (edge : (range, next) ∈ a.bytesAt p) (taken : range.contains b = true)
    (rest : Accepts a ⟨next, p.returns⟩ w) : Accepts a p (b :: w)

def Returns (a : Automaton) : List Node → List UInt8 → Prop
  | [], w => w = []
  | next :: returns, w => Accepts a ⟨next, returns⟩ w

def AcceptsHere (a : Automaton) (p : Position) : List UInt8 → Prop
  | [] => a.completesMain p = true
  | b :: w => ∃ range next, (range, next) ∈ a.bytesAt p ∧ range.contains b = true ∧
    Accepts a ⟨next, p.returns⟩ w

section

variable {a : Automaton}

theorem Move.of_completed {v : Node} {returns : List Node} {q : Position}
    (ended : (a.completed? v).isSome) (move : Move a ⟨v, returns⟩ q) : returns = q.node :: q.returns := by
  cases move with
  | back => rfl
  | silent inside => simp [inside] at ended
  | call inside => simp [inside] at ended
  | tailCall inside => simp [inside] at ended

theorem accepts_exit {v : Node} (ended : (a.completed? v).isSome) {returns : List Node} {w : List UInt8} :
    Accepts a ⟨v, returns⟩ w ↔ Returns a returns w := by
  constructor
  · intro accepts
    cases accepts with
    | done completes =>
      obtain ⟨_, none⟩ := completesMain_iff.mp completes
      dsimp only at none
      rw [none]
      rfl
    | move move rest =>
      rw [move.of_completed ended]
      exact rest
    | byte edge => simp [(mem_bytesAt.mp edge).1] at ended
  · intro accepts
    cases returns with
    | nil =>
      cases accepts
      exact .done (completesMain_iff.mpr ⟨ended, rfl⟩)
    | cons next returns => exact .move (.back ended) accepts

theorem Accepts.of_leads {p q : Position} {w : List UInt8} (leads : Leads a.moves p q)
    (accepts : Accepts a q w) : Accepts a p w := by
  induction leads with
  | refl => exact accepts
  | tail _ step ih => exact ih (.move (mem_moves.mp step) accepts)

theorem Accepts.exists_leads {p : Position} {w : List UInt8} (accepts : Accepts a p w) :
    ∃ q, Leads a.moves p q ∧ AcceptsHere a q w := by
  induction accepts with
  | done completes => exact ⟨_, .refl, completes⟩
  | move move rest ih =>
    obtain ⟨q, leads, here⟩ := ih
    exact ⟨q, .head (mem_moves.mpr move) leads, here⟩
  | byte edge taken rest ih => exact ⟨_, .refl, _, _, edge, taken, rest⟩

end

section

variable {bodies : Array (Expr RuleId)} {main : RuleId}

theorem isSome_completed?_exit {r : RuleId} (known : r < bodies.size) :
    ((ofBodies bodies main).completed? (2 * r + 1)).isSome := by
  rw [completed?_eq_some.mpr ⟨known, rfl⟩]
  rfl

/-- What holds at a tail holds of what is left after its rule, if it holds at the end of a rule and goes
on by a move wherever no byte is read. -/
theorem rest_of_tail {Holds : Position → List UInt8 → Prop} {Rest : List Node → List UInt8 → Prop}
    (exit : ∀ {v : Node} {returns : List Node} {w : List UInt8},
      ((ofBodies bodies main).completed? v).isSome → Holds ⟨v, returns⟩ w → Rest returns w)
    (onward : ∀ {v : Node} {returns : List Node} {w : List UInt8},
      (ofBodies bodies main).completed? v = none → (ofBodies bodies main).bytesAt ⟨v, returns⟩ = [] →
        Holds ⟨v, returns⟩ w → ∃ q, Move (ofBodies bodies main) ⟨v, returns⟩ q ∧ Holds q w)
    {v : Node} (tail : v ∈ (ofBodies bodies main).tails) {returns : List Node} {w : List UInt8}
    (holds : Holds ⟨v, returns⟩ w) : Rest returns w := by
  refine of_mem_tails (fun v => ∀ returns w, Holds ⟨v, returns⟩ w → Rest returns w) ?_ ?_ tail returns w holds
  · intro r known returns w holds
    exact exit (isSome_completed?_exit known) holds
  · intro v _ out returns w holds
    have unread : (ofBodies bodies main).bytesAt ⟨v, returns⟩ = [] := by
      apply List.eq_nil_iff_forall_not_mem.mpr
      intro reading edge
      obtain ⟨_, same, _⟩ := out _ (mem_bytesAt.mp edge).2
      cases same
    cases ended : (ofBodies bodies main).completed? v with
    | some r => exact exit (by rw [ended]; rfl) holds
    | none =>
      obtain ⟨q, move, rest⟩ := onward ended unread holds
      cases move with
      | back done => simp [ended] at done
      | silent _ edge =>
        obtain ⟨next, same, left⟩ := out _ edge
        cases same
        exact left _ _ rest
      | call _ edge =>
        obtain ⟨next, same, _⟩ := out _ edge
        cases same
      | tailCall _ edge =>
        obtain ⟨next, same, _⟩ := out _ edge
        cases same

theorem Accepts.returns_of_tail {v : Node} (tail : v ∈ (ofBodies bodies main).tails)
    {returns : List Node} {w : List UInt8} (accepts : Accepts (ofBodies bodies main) ⟨v, returns⟩ w) :
    Returns (ofBodies bodies main) returns w := by
  refine rest_of_tail (fun ended => (accepts_exit ended).mp) (fun inside unread accepts => ?_) tail accepts
  cases accepts with
  | done completes => simp [completesMain_iff, inside] at completes
  | move move rest => exact ⟨_, move, rest⟩
  | byte edge => simp [unread] at edge

def stacked {L : Type} [Monoid L] (label : Node → L) (nodes : List Node) : L := (nodes.map label).prod

theorem stacked_cons {L : Type} [Monoid L] (label : Node → L) (v : Node) (nodes : List Node) :
    stacked label (v :: nodes) = label v * stacked label nodes := List.prod_cons

theorem stacked_singleton {L : Type} [Monoid L] (label : Node → L) (v : Node) :
    stacked label [v] = label v := List.prod_singleton

/-- Labels of the nodes of an automaton that are products of what plans are worth. -/
structure Valued {L : Type} [Monoid L] [Preorder L] [MulRightMono L] (bodies : Array (Expr RuleId))
    (main : RuleId) (worth : PlanValue L) (label : Node → L) : Prop where
  ends : ∀ r < bodies.size, label (2 * r) = worth.value (.call r) ∧ label (2 * r + 1) = 1
  edges : ∀ v, ∀ t ∈ (ofBodies bodies main).transitionsAt v, worth.reading.through label t ≤ label v

section

variable {L : Type} [Monoid L] [Preorder L] [MulRightMono L] {worth : PlanValue L} {label : Node → L}

theorem exists_valued (bodies : Array (Expr RuleId)) (main : RuleId) (worth : PlanValue L)
    (fits : ∀ r body, ruleBody? bodies r = some body → worth.value body.plan ≤ worth.value (.call r)) :
    ∃ label, Valued bodies main worth label := by
  obtain ⟨label, ends, edges⟩ := exists_labels bodies main worth.reading
    (fun r => worth.value (.call r)) (fun _ => 1) fun r body found => by
      change worth.value body.plan * 1 ≤ _
      rw [mul_one]
      exact fits r body found
  exact ⟨label, ends, edges⟩

namespace Valued

variable (valued : Valued bodies main worth label)
include valued

theorem exit {v : Node} (ended : ((ofBodies bodies main).completed? v).isSome) : label v = 1 := by
  obtain ⟨r, ended⟩ := Option.isSome_iff_exists.mp ended
  obtain ⟨known, rfl⟩ := completed?_eq_some.mp ended
  exact (valued.ends r known).2

theorem one_le_tail {v : Node} (tail : v ∈ (ofBodies bodies main).tails) : 1 ≤ label v := by
  refine of_mem_tails (fun v => 1 ≤ label v) (fun r known => (valued.ends r known).2.ge) ?_ tail
  intro v h out
  obtain ⟨t, member⟩ := h
  obtain ⟨next, rfl, empty⟩ := out t member
  exact le_trans empty (valued.edges v _ member)

theorem stacked_le [MulLeftMono L] {p q : Position} (move : Move (ofBodies bodies main) p q) :
    stacked label (q.node :: q.returns) ≤ stacked label (p.node :: p.returns) := by
  cases move with
  | @back v next returns ended => rw [stacked_cons label v, valued.exit ended, one_mul]
  | @silent v next returns _ edge =>
    rw [stacked_cons, stacked_cons]
    exact mul_le_mul_left (valued.edges v _ edge) _
  | @call v next returns r _ edge known _ =>
    rw [stacked_cons, stacked_cons, stacked_cons, ← mul_assoc, start, (valued.ends r known).1]
    exact mul_le_mul_left (valued.edges v _ edge) _
  | @tailCall v next returns r _ edge known tail =>
    rw [stacked_cons, stacked_cons, start, (valued.ends r known).1]
    have longer : worth.value (.call r) ≤ worth.value (.call r) * label next :=
      le_mul_of_one_le_right' (valued.one_le_tail tail)
    exact mul_le_mul_left (le_trans longer (valued.edges v _ edge)) _

end Valued

end

/-- What may be consumed from a node to the end of its rule. -/
def spelling (rules : RuleId → Language UInt8) : PlanValue (Language UInt8) where
  value plan := plan.language rules
  silent_le := le_refl _
  join_le _ _ := le_refl _
  one_le _ _ := le_add_of_nonneg_right bot_le
  other_le _ _ := le_add_of_nonneg_left bot_le
  leave_le _ := one_le_kstar
  again_le _ := mul_kstar_le_kstar

theorem Accepts.mem_stacked {label : Node → Language UInt8}
    (valued : Valued bodies main (spelling (ruleLanguage bodies)) label) {p : Position} {w : List UInt8}
    (accepts : Accepts (ofBodies bodies main) p w) : w ∈ stacked label (p.node :: p.returns) := by
  induction accepts with
  | done completes =>
    obtain ⟨ended, none⟩ := completesMain_iff.mp completes
    rw [none, stacked_singleton, valued.exit ended]
    rfl
  | move move rest ih => exact valued.stacked_le move ih
  | @byte p range next b w edge taken rest ih =>
    have le := valued.edges p.node _ (mem_bytesAt.mp edge).2
    rw [stacked_cons] at ih ⊢
    apply mul_le_mul_left le _
    change b :: w ∈ (Plan.byte range).language (ruleLanguage bodies) * label next * _
    have first : [b] ∈ (Plan.byte range).language (ruleLanguage bodies) := ⟨b, taken, rfl⟩
    rw [mul_assoc]
    exact Language.append_mem_mul first ih

theorem completed?_start {r : RuleId} : (ofBodies bodies main).completed? (start r) = none := by
  apply Option.eq_none_iff_forall_ne_some.mpr
  intro c ended
  exact start_ne_exit (completed?_eq_some.mp ended).2

/-- What holds of positions and byte strings holds of those before them as well. `Rest` tells what is
left where a rule is matched. -/
structure Backward (a : Automaton) (Holds : Position → List UInt8 → Prop)
    (Rest : List Node → List UInt8 → Prop) : Prop where
  move : ∀ {p q : Position} {w : List UInt8}, Move a p q → Holds q w → Holds p w
  byte : ∀ {p : Position} {range : ByteRange} {next : Node} {b : UInt8} {w : List UInt8},
    (range, next) ∈ a.bytesAt p → range.contains b = true → Holds ⟨next, p.returns⟩ w → Holds p (b :: w)
  exit : ∀ {v : Node} {returns : List Node} {w : List UInt8},
    (a.completed? v).isSome → Rest returns w → Holds ⟨v, returns⟩ w
  tail : ∀ {v : Node} {returns : List Node} {w : List UInt8},
    v ∈ a.tails → Holds ⟨v, returns⟩ w → Rest returns w
  push : ∀ {next : Node} {returns : List Node} {w : List UInt8},
    Holds ⟨next, returns⟩ w → Rest (next :: returns) w

def passed (a : Automaton) (Holds : Position → List UInt8 → Prop) (Rest : List Node → List UInt8 → Prop)
    (r : RuleId) : Language UInt8 :=
  {u | r < a.ruleCount ∧ ∀ returns v, Rest returns v → Holds ⟨start r, returns⟩ (u ++ v)}

def entered (a : Automaton) : RuleId → Language UInt8 := passed a (Accepts a) (Returns a)

theorem backward_accepts : Backward (ofBodies bodies main) (Accepts (ofBodies bodies main))
    (Returns (ofBodies bodies main)) where
  move := .move
  byte := .byte
  exit ended := (accepts_exit ended).mpr
  tail tail accepts := accepts.returns_of_tail tail
  push := id

theorem completed?_eq_none {v : Node} (past : 2 * bodies.size ≤ v) :
    (ofBodies bodies main).completed? v = none := by
  apply Option.eq_none_iff_forall_ne_some.mpr
  intro r ended
  obtain ⟨known, rfl⟩ := completed?_eq_some.mp ended
  have known : r < bodies.size := known
  exact absurd past (Nat.not_le_of_lt (exit_lt known))

theorem of_mem_kstar {language : Language UInt8} {Holds : List UInt8 → Prop}
    (once : ∀ u ∈ language, ∀ v, Holds v → Holds (u ++ v)) {u v : List UInt8}
    (spelt : u ∈ KStar.kstar language) (after : Holds v) : Holds (u ++ v) := by
  obtain ⟨parts, rfl, each⟩ := Language.mem_kstar.mp spelt
  clear spelt
  induction parts with
  | nil => exact after
  | cons part parts ih =>
    rw [List.flatten_cons, List.append_assoc]
    exact once part (each part (by simp)) _ (ih fun other member => each other (by simp [member]))

namespace Backward

variable {Holds : Position → List UInt8 → Prop} {Rest : List Node → List UInt8 → Prop}
  (backward : Backward (ofBodies bodies main) Holds Rest)
include backward

theorem draw {plan : Plan} {first last : Node} {draft : Draft}
    (drawn : ∀ edge ∈ (plan.draw first last draft).edges,
      edge.2 ∈ (ofBodies bodies main).transitionsAt edge.1)
    (size : 2 * bodies.size ≤ draft.size) (inside : (ofBodies bodies main).completed? first = none)
    {returns : List Node} {u v : List UInt8}
    (spelt : u ∈ plan.language (passed (ofBodies bodies main) Holds Rest))
    (after : Holds ⟨last, returns⟩ v) :
    Holds ⟨first, returns⟩ (u ++ v) := by
  induction plan generalizing first last draft u v with
  | nothing => exact absurd spelt (Language.notMem_zero u)
  | silent =>
    cases spelt
    exact backward.move (.silent inside (drawn (first, _) (List.mem_cons_self))) after
  | byte range =>
    obtain ⟨b, taken, rfl⟩ := spelt
    exact backward.byte (mem_bytesAt.mpr ⟨inside, drawn (first, _) (List.mem_cons_self)⟩) taken after
  | call r =>
    obtain ⟨known, matched⟩ := spelt
    have edge := drawn (first, .call r last) (List.mem_cons_self)
    by_cases tail : last ∈ (ofBodies bodies main).tails
    · exact backward.move (.tailCall inside edge known tail) (matched _ _ (backward.tail tail after))
    · exact backward.move (.call inside edge known tail) (matched (last :: returns) _ (backward.push after))
  | join one two ihOne ihTwo =>
    obtain ⟨x, left, y, right, rfl⟩ := Language.mem_mul.mp spelt
    have within : (one.draw first draft.size draft.grow).Within
        ((one.join two).draw first last draft) := Draft.Within.draw two _ _ _
    have past : 2 * bodies.size ≤ (one.draw first draft.size draft.grow).size :=
      Nat.le_trans (Nat.le_succ_of_le size) (Draft.Within.draw one _ _ draft.grow).size
    have rest : Holds ⟨draft.size, returns⟩ (y ++ v) :=
      ihTwo drawn past (completed?_eq_none size) right after
    rw [List.append_assoc]
    exact ihOne (fun edge member => drawn edge (within.edges member)) (Nat.le_succ_of_le size) inside
      left rest
  | beside one other ihOne ihOther =>
    rcases (Language.mem_add _ _ u).mp spelt with spelt | spelt
    · have within : (one.draw first last draft).Within ((one.beside other).draw first last draft) :=
        Draft.Within.draw other _ _ _
      exact ihOne (fun edge member => drawn edge (within.edges member)) size inside spelt after
    · have past : 2 * bodies.size ≤ (one.draw first last draft).size :=
        Nat.le_trans size (Draft.Within.draw one _ _ draft).size
      exact ihOther drawn past inside spelt after
  | loop body ih =>
    have opened : (ofBodies bodies main).completed? draft.size = none := completed?_eq_none size
    have enter : .silent draft.size ∈ (ofBodies bodies main).transitionsAt first := by
      have within := Draft.Within.draw body draft.size draft.size
        (draft.grow.edge first (.silent draft.size))
      exact drawn (first, _) (List.mem_cons_of_mem _ (within.edges List.mem_cons_self))
    have leave : .silent last ∈ (ofBodies bodies main).transitionsAt draft.size :=
      drawn (draft.size, _) List.mem_cons_self
    apply backward.move (.silent inside enter)
    refine of_mem_kstar (fun x copy y rest => ?_) spelt (backward.move (.silent opened leave) after)
    exact ih (fun edge member => drawn edge (List.mem_cons_of_mem _ member)) (Nat.le_succ_of_le size)
      opened copy rest

theorem passed_of_body {r : RuleId} {body : Expr RuleId} (found : ruleBody? bodies r = some body) :
    body.language (passed (ofBodies bodies main) Holds Rest) ≤
      passed (ofBodies bodies main) Holds Rest r := by
  intro u spelt
  have known : r < bodies.size := (Array.getElem?_eq_some_iff.mp found).1
  obtain ⟨before, size, drawn⟩ := exists_drawn main found
  refine ⟨known, ?_⟩
  intro returns v after
  have exit : Holds ⟨2 * r + 1, returns⟩ v :=
    backward.exit (isSome_completed?_exit known) after
  exact backward.draw drawn size completed?_start (by rwa [Expr.language_plan]) exit

theorem ruleLanguage_le : ruleLanguage bodies ≤ passed (ofBodies bodies main) Holds Rest :=
  GuidedDecoding.ruleLanguage_le fun _ _ found => backward.passed_of_body found

end Backward

/-- From the start of a fragment everything is accepted that its plan spells, followed by what is
accepted from its end. -/
theorem accepts_draw {plan : Plan} {first last : Node} {draft : Draft}
    (drawn : ∀ edge ∈ (plan.draw first last draft).edges,
      edge.2 ∈ (ofBodies bodies main).transitionsAt edge.1)
    (size : 2 * bodies.size ≤ draft.size) (inside : (ofBodies bodies main).completed? first = none)
    {returns : List Node} {u v : List UInt8}
    (spelt : u ∈ plan.language (entered (ofBodies bodies main)))
    (after : Accepts (ofBodies bodies main) ⟨last, returns⟩ v) :
    Accepts (ofBodies bodies main) ⟨first, returns⟩ (u ++ v) :=
  backward_accepts.draw drawn size inside spelt after

theorem ruleLanguage_le_entered (bodies : Array (Expr RuleId)) (main : RuleId) :
    ruleLanguage bodies ≤ entered (ofBodies bodies main) := backward_accepts.ruleLanguage_le

/-- The first node of a rule accepts exactly what the rule matches. -/
theorem accepts_start (main : RuleId) {r : RuleId} (known : r < bodies.size) (w : List UInt8) :
    Accepts (ofBodies bodies main) ⟨start r, []⟩ w ↔ w ∈ ruleLanguage bodies r := by
  constructor
  · intro accepts
    obtain ⟨label, valued⟩ :=
      exists_valued bodies main (spelling (ruleLanguage bodies)) fun r body found => by
        change body.plan.language _ ≤ ruleLanguage bodies r
        rw [Expr.language_plan, ruleLanguage_eq found]
    have spelt := accepts.mem_stacked valued
    rw [stacked_singleton, start, (valued.ends r known).1] at spelt
    exact spelt
  · intro spelt
    have accepts := (ruleLanguage_le_entered bodies main r spelt).2 [] [] rfl
    rwa [List.append_nil] at accepts

theorem isDead_eq_false {set : PositionSet} :
    set.isDead = false ↔ set.accepting = true ∨ ∃ p, p ∈ set.positions := by
  rw [PositionSet.isDead, Bool.and_eq_false_iff, List.isEmpty_eq_false_iff_exists_mem]
  cases set.accepting <;> simp

/-- What a position set matches from here on. -/
def Matches (a : Automaton) (set : PositionSet) : List UInt8 → Prop
  | [] => set.accepting = true
  | b :: w => ∃ p ∈ a.consume set b, Accepts a p w

theorem mem_consume {a : Automaton} {set : PositionSet} {b : UInt8} {q : Position} :
    q ∈ a.consume set b ↔ ∃ p ∈ set.positions, ∃ range next, (range, next) ∈ a.bytesAt p ∧
      range.contains b = true ∧ ⟨next, p.returns⟩ = q := by
  simp only [consume, List.mem_flatMap, List.mem_filterMap, Prod.exists]
  apply exists_congr
  intro p
  apply and_congr_right
  intro _
  apply exists₂_congr
  intro range next
  apply and_congr_right
  intro _
  split <;> simp_all

theorem inside_start {r : RuleId} (known : r < bodies.size) :
    ∀ p ∈ [(⟨start r, []⟩ : Position)], Inside (ofBodies bodies main) p := by
  intro p member v node
  obtain rfl := List.mem_singleton.mp member
  obtain rfl := List.mem_singleton.mp node
  exact start_lt_nodeCount known

def InsideSet (a : Automaton) (set : PositionSet) : Prop := ∀ p ∈ set.positions, Inside a p

theorem InsideSet.consume {set : PositionSet} (inside : InsideSet (ofBodies bodies main) set) (b : UInt8) :
    ∀ p ∈ (ofBodies bodies main).consume set b, Inside (ofBodies bodies main) p := by
  intro q member
  obtain ⟨p, among, range, next, edge, _, rfl⟩ := mem_consume.mp member
  intro v node
  rcases List.mem_cons.mp node with rfl | node
  · exact next_lt_nodeCount (mem_bytesAt.mp edge).2
  · exact inside p among v (List.mem_cons_of_mem _ node)

section

variable {rank : RuleId → Nat} (ranked : LeftRanked bodies rank)
include ranked

section

variable {tails : Std.TreeSet Node} (fewer : ∀ v ∈ tails, v ∈ (ofBodies bodies main).tails)
include fewer

theorem insideSet_withTails {seeds : List Position}
    (inside : ∀ p ∈ seeds, Inside (ofBodies bodies main) p) :
    InsideSet (ofBodies bodies main) (((ofBodies bodies main).withTails tails).closure seeds) := by
  intro p member
  obtain ⟨⟨q, among, leads⟩, _⟩ := (mem_positions_closureWith ranked fewer .empty seeds p).mp member
  exact Leads.of_mem (fun _ inside _ move => inside.move (mem_moves.mp move)) (inside q among) leads

theorem insideSet_initial_withTails :
    InsideSet (ofBodies bodies main) ((ofBodies bodies main).withTails tails).initial := by
  rw [initial]
  split
  next node found =>
    obtain ⟨known, rfl⟩ := start?_eq_some.mp found
    exact insideSet_withTails ranked fewer (inside_start known)
  next => exact fun p member => absurd member List.not_mem_nil

end

theorem insideSet_closure {seeds : List Position}
    (inside : ∀ p ∈ seeds, Inside (ofBodies bodies main) p) :
    InsideSet (ofBodies bodies main) ((ofBodies bodies main).closure seeds) :=
  insideSet_withTails ranked (fun _ => id) inside

theorem matches_closure {seeds : List Position} (w : List UInt8) :
    Matches (ofBodies bodies main) ((ofBodies bodies main).closure seeds) w ↔
      ∃ p ∈ seeds, Accepts (ofBodies bodies main) p w := by
  constructor
  · intro matched
    cases w with
    | nil =>
      obtain ⟨p, ⟨q, among, leads⟩, completes⟩ := (accepting_closure ranked).mp matched
      exact ⟨q, among, .of_leads leads (.done completes)⟩
    | cons b w =>
      obtain ⟨q, consumed, rest⟩ := matched
      obtain ⟨p, member, range, next, edge, taken, rfl⟩ := mem_consume.mp consumed
      obtain ⟨⟨q, among, leads⟩, _⟩ := (mem_positions_closure ranked p).mp member
      exact ⟨q, among, .of_leads leads (.byte edge taken rest)⟩
  · intro h
    obtain ⟨q, among, accepts⟩ := h
    obtain ⟨p, leads, here⟩ := accepts.exists_leads
    cases w with
    | nil => exact (accepting_closure ranked).mpr ⟨p, ⟨q, among, leads⟩, here⟩
    | cons b w =>
      obtain ⟨range, next, edge, taken, rest⟩ := here
      have member := (mem_positions_closure ranked p).mpr
        ⟨⟨q, among, leads⟩, List.ne_nil_of_mem edge⟩
      exact ⟨_, mem_consume.mpr ⟨p, member, range, next, edge, taken, rfl⟩, rest⟩

theorem insideSet_initial : InsideSet (ofBodies bodies main) (ofBodies bodies main).initial :=
  insideSet_initial_withTails ranked (fun _ => id)

theorem InsideSet.step {set : PositionSet} (inside : InsideSet (ofBodies bodies main) set) (b : UInt8) :
    InsideSet (ofBodies bodies main) ((ofBodies bodies main).step set b) :=
  insideSet_closure ranked (inside.consume b)

theorem InsideSet.foldl {set : PositionSet} (inside : InsideSet (ofBodies bodies main) set)
    (w : List UInt8) :
    InsideSet (ofBodies bodies main) (w.foldl (ofBodies bodies main).step set) := by
  induction w generalizing set with
  | nil => exact inside
  | cons b w ih => exact ih (inside.step ranked b)

theorem matches_step {set : PositionSet} (b : UInt8) (w : List UInt8) :
    Matches (ofBodies bodies main) ((ofBodies bodies main).step set b) w ↔
      Matches (ofBodies bodies main) set (b :: w) :=
  matches_closure ranked w

theorem matches_foldl {set : PositionSet} (w v : List UInt8) :
    Matches (ofBodies bodies main) (w.foldl (ofBodies bodies main).step set) v ↔
      Matches (ofBodies bodies main) set (w ++ v) := by
  induction w generalizing set with
  | nil => rfl
  | cons b w ih =>
    rw [List.foldl_cons, ih, matches_step ranked]
    rfl

theorem matches_initial (w : List UInt8) :
    Matches (ofBodies bodies main) (ofBodies bodies main).initial w ↔ w ∈ ruleLanguage bodies main := by
  rw [initial]
  by_cases known : main < bodies.size
  · have found : (ofBodies bodies main).start? (ofBodies bodies main).main = some (start main) :=
      start?_eq_some.mpr ⟨known, rfl⟩
    rw [found, matches_closure ranked, ← accepts_start main known]
    simp
  · have missing : (ofBodies bodies main).start? (ofBodies bodies main).main = none := by
      rw [start?]
      exact if_neg known
    rw [missing, ruleLanguage_outside (Array.getElem?_eq_none (Nat.le_of_not_lt known))]
    cases w <;> simp [Matches, PositionSet.empty, consume]

theorem matches_after (w v : List UInt8) :
    Matches (ofBodies bodies main) (w.foldl (ofBodies bodies main).step (ofBodies bodies main).initial) v ↔
      w ++ v ∈ ruleLanguage bodies main := by
  rw [matches_foldl ranked, matches_initial ranked]

theorem accepting_after (w : List UInt8) :
    (w.foldl (ofBodies bodies main).step (ofBodies bodies main).initial).accepting = true ↔
      w ∈ ruleLanguage bodies main := by
  have after : Matches (ofBodies bodies main) _ [] ↔ _ := matches_after ranked w []
  rwa [List.append_nil] at after

end

/-- An automaton without left recursion accepts exactly what the main rule matches. -/
theorem accepting_iff_mem_ruleLanguage (bodies : Array (Expr RuleId)) (main : RuleId) (preferred : Nat)
    (recursionFree : leftRecursiveRule? bodies preferred = none) (w : List UInt8) :
    (w.foldl (ofBodies bodies main).step (ofBodies bodies main).initial).accepting = true ↔
      w ∈ ruleLanguage bodies main := by
  obtain ⟨rank, ranked⟩ := exists_leftRanked recursionFree
  exact accepting_after ranked w

def enclosing : Expr RuleId := .sequence [.literal [97], .choice [.empty, .rule 0], .literal [98]]

theorem accepting_iff_enclosing :
    leftRecursiveRule? #[enclosing] 0 = none ∧
      (([97, 97, 98, 98].foldl (ofBodies #[enclosing] 0).step (ofBodies #[enclosing] 0).initial).accepting = true ↔
        [97, 97, 98, 98] ∈ ruleLanguage #[enclosing] 0) := by
  have recursionFree : leftRecursiveRule? #[enclosing] 0 = none := by cbv
  exact ⟨recursionFree, accepting_iff_mem_ruleLanguage _ _ _ recursionFree _⟩

end

end GuidedDecoding.Automaton
