import Mathlib
import GuidedDecoding.Proofs.Automaton.Acceptance
import GuidedDecoding.Proofs.Grammar.Meaning

namespace GuidedDecoding

namespace Meaning

instance : MulLeftMono Meaning := ⟨fun m _ _ le => mul_mono (le_refl m) le⟩

instance : MulRightMono Meaning := ⟨fun m _ _ le => mul_mono le (le_refl m)⟩

end Meaning

namespace Automaton

/-- A position from which a byte string leads to one where another byte can be read. -/
inductive Waits (a : Automaton) : Position → List UInt8 → Prop where
  | here {p : Position} (ready : a.bytesAt p ≠ []) : Waits a p []
  | move {p q : Position} {w : List UInt8} (move : Move a p q) (rest : Waits a q w) : Waits a p w
  | byte {p : Position} {range : ByteRange} {next : Node} {b : UInt8} {w : List UInt8}
    (edge : (range, next) ∈ a.bytesAt p) (taken : range.contains b = true)
    (rest : Waits a ⟨next, p.returns⟩ w) : Waits a p (b :: w)

def WaitsAfter (a : Automaton) : List Node → List UInt8 → Prop
  | [], _ => False
  | next :: returns, w => Waits a ⟨next, returns⟩ w

def WaitsHere (a : Automaton) (p : Position) : List UInt8 → Prop
  | [] => a.bytesAt p ≠ []
  | b :: w => ∃ range next, (range, next) ∈ a.bytesAt p ∧ range.contains b = true ∧
    Waits a ⟨next, p.returns⟩ w

section

variable {a : Automaton} {p q : Position} {w : List UInt8}

theorem bytesAt_completed {p : Position} (ended : (a.completed? p.node).isSome) : a.bytesAt p = [] := by
  obtain ⟨r, ended⟩ := Option.isSome_iff_exists.mp ended
  rw [bytesAt, ended]

theorem waits_exit {v : Node} (ended : (a.completed? v).isSome) {returns : List Node} :
    Waits a ⟨v, returns⟩ w ↔ WaitsAfter a returns w := by
  have silent : a.bytesAt ⟨v, returns⟩ = [] := bytesAt_completed ended
  constructor
  · intro waits
    cases waits with
    | here ready => exact absurd silent ready
    | move move rest =>
      rw [move.of_completed ended]
      exact rest
    | byte edge => simp [silent] at edge
  · intro waits
    cases returns with
    | nil => exact waits.elim
    | cons next returns => exact .move (.back ended) waits

theorem waits_iff : Waits a p w ↔ ∃ q, Leads a.moves p q ∧ WaitsHere a q w := by
  constructor
  · intro waits
    induction waits with
    | here ready => exact ⟨_, .refl, ready⟩
    | move move _ ih =>
      obtain ⟨q, leads, here⟩ := ih
      exact ⟨q, .head (mem_moves.mpr move) leads, here⟩
    | byte edge taken rest => exact ⟨_, .refl, _, _, edge, taken, rest⟩
  · intro h
    obtain ⟨q, leads, here⟩ := h
    have waits : Waits a q w := by
      cases w with
      | nil => exact .here here
      | cons b w =>
        obtain ⟨range, next, edge, taken, rest⟩ := here
        exact .byte edge taken rest
    clear here
    induction leads with
    | refl => exact waits
    | tail _ step ih => exact ih (.move (mem_moves.mp step) waits)

end

section

variable {bodies : Array (Expr RuleId)} {main : RuleId}

theorem Waits.after_tail {v : Node} (tail : v ∈ (ofBodies bodies main).tails) {returns : List Node}
    {w : List UInt8} (waits : Waits (ofBodies bodies main) ⟨v, returns⟩ w) :
    WaitsAfter (ofBodies bodies main) returns w := by
  refine rest_of_tail (fun ended => (waits_exit ended).mp) (fun _ unread waits => ?_) tail waits
  cases waits with
  | here ready => exact absurd unread ready
  | move move rest => exact ⟨_, move, rest⟩
  | byte edge => simp [unread] at edge

theorem backward_waits : Backward (ofBodies bodies main) (Waits (ofBodies bodies main))
    (WaitsAfter (ofBodies bodies main)) where
  move := .move
  byte := .byte
  exit ended := (waits_exit ended).mpr
  tail tail waits := waits.after_tail tail
  push := id

def waiting (a : Automaton) (r : RuleId) : Meaning :=
  ⟨passed a (Waits a) (WaitsAfter a) r,
    {u | r < a.ruleCount ∧ ∀ returns, Waits a ⟨start r, returns⟩ u}⟩

theorem waits_draw {plan : Plan} {first last : Node} {draft : Draft}
    (drawn : ∀ edge ∈ (plan.draw first last draft).edges,
      edge.2 ∈ (ofBodies bodies main).transitionsAt edge.1)
    (size : 2 * bodies.size ≤ draft.size) (inside : (ofBodies bodies main).completed? first = none)
    {returns : List Node} {u : List UInt8}
    (within : u ∈ (plan.meaning 1 (waiting (ofBodies bodies main))).inside) :
    Waits (ofBodies bodies main) ⟨first, returns⟩ u := by
  induction plan generalizing first last draft u with
  | nothing | silent => exact absurd within (Language.notMem_zero u)
  | byte range =>
    cases within
    have edge := mem_bytesAt (p := ⟨first, returns⟩) |>.mpr ⟨inside, drawn (first, _) List.mem_cons_self⟩
    exact .here (List.ne_nil_of_mem edge)
  | call r =>
    obtain ⟨known, waits⟩ := within
    have edge := drawn (first, .call r last) List.mem_cons_self
    by_cases tail : last ∈ (ofBodies bodies main).tails
    · exact .move (.tailCall inside edge known tail) (waits returns)
    · exact .move (.call inside edge known tail) (waits (last :: returns))
  | join one two ihOne ihTwo =>
    have early : (one.draw first draft.size draft.grow).Within
        ((one.join two).draw first last draft) := Draft.Within.draw two _ _ _
    have drawnOne : ∀ edge ∈ (one.draw first draft.size draft.grow).edges,
        edge.2 ∈ (ofBodies bodies main).transitionsAt edge.1 :=
      fun edge member => drawn edge (early.edges member)
    rcases (Language.mem_add _ _ u).mp within with within | within
    · exact ihOne drawnOne (Nat.le_succ_of_le size) inside within
    · obtain ⟨x, spelt, y, later, rfl⟩ := Language.mem_mul.mp within
      have past : 2 * bodies.size ≤ (one.draw first draft.size draft.grow).size :=
        Nat.le_trans (Nat.le_succ_of_le size) (Draft.Within.draw one _ _ draft.grow).size
      have rest : Waits (ofBodies bodies main) ⟨draft.size, returns⟩ y :=
        ihTwo drawn past (completed?_eq_none size) later
      rw [Plan.whole_meaning] at spelt
      exact backward_waits.draw drawnOne (Nat.le_succ_of_le size) inside spelt rest
  | beside one other ihOne ihOther =>
    rcases (Language.mem_add _ _ u).mp within with within | within
    · have early : (one.draw first last draft).Within ((one.beside other).draw first last draft) :=
        Draft.Within.draw other _ _ _
      exact ihOne (fun edge member => drawn edge (early.edges member)) size inside within
    · have past : 2 * bodies.size ≤ (one.draw first last draft).size :=
        Nat.le_trans size (Draft.Within.draw one _ _ draft).size
      exact ihOther drawn past inside within
  | loop body ih =>
    have opened : (ofBodies bodies main).completed? draft.size = none := completed?_eq_none size
    have enter : .silent draft.size ∈ (ofBodies bodies main).transitionsAt first := by
      have early := Draft.Within.draw body draft.size draft.size
        (draft.grow.edge first (.silent draft.size))
      exact drawn (first, _) (List.mem_cons_of_mem _ (early.edges List.mem_cons_self))
    have drawnBody := fun edge member => drawn edge (List.mem_cons_of_mem _ member)
    obtain ⟨x, spelt, y, later, rfl⟩ := Language.mem_mul.mp within
    have rest : Waits (ofBodies bodies main) ⟨draft.size, returns⟩ y :=
      ih drawnBody (Nat.le_succ_of_le size) opened later
    apply Waits.move (.silent inside enter)
    refine of_mem_kstar (fun u copy v rest => ?_) spelt rest
    rw [Plan.whole_meaning] at copy
    exact backward_waits.draw drawnBody (Nat.le_succ_of_le size) opened copy rest

theorem ruleMeaning_le_waiting (bodies : Array (Expr RuleId)) (main : RuleId) :
    ruleMeaning bodies 1 0 ≤ waiting (ofBodies bodies main) := by
  apply ruleMeaning_le
  intro r body found
  have calls : (fun c => (waiting (ofBodies bodies main) c).call ((0 : RuleId → Language UInt8) c)) =
      waiting (ofBodies bodies main) := funext fun c => Meaning.call_zero _
  rw [calls]
  refine Meaning.le_iff.mpr ⟨?_, fun u within => ?_⟩
  · rw [Expr.whole_meaning]
    exact backward_waits.passed_of_body found
  · obtain ⟨before, size, drawn⟩ := exists_drawn main found
    refine ⟨(Array.getElem?_eq_some_iff.mp found).1, fun returns => ?_⟩
    have within : u ∈ (body.meaning 1 (waiting (ofBodies bodies main))).inside := within
    rw [← Expr.meaning_plan] at within
    exact waits_draw drawn size completed?_start within

def describing (byte : Language UInt8) (rules : RuleId → Meaning) : PlanValue Meaning where
  value plan := plan.meaning byte rules
  silent_le := le_refl _
  join_le _ _ := le_refl _
  one_le _ _ := Meaning.le_add_left _ _
  other_le _ _ := Meaning.le_add_right _ _
  leave_le _ := Meaning.one_le_star _
  again_le _ := Meaning.mul_star_le _

theorem Waits.mem_stacked {rules : RuleId → Meaning} {label : Node → Meaning}
    (valued : Valued bodies main (describing 1 rules) label) {p : Position} {w : List UInt8}
    (waits : Waits (ofBodies bodies main) p w) : w ∈ (stacked label (p.node :: p.returns)).inside := by
  have reading {p : Position} {range : ByteRange} {next : Node}
      (edge : (range, next) ∈ (ofBodies bodies main).bytesAt p) :
      (⟨(Plan.byte range).language 0, 1⟩ * (label next * stacked label p.returns) : Meaning) ≤
        stacked label (p.node :: p.returns) := by
    rw [stacked_cons, ← mul_assoc]
    exact mul_le_mul_left (valued.edges p.node _ (mem_bytesAt.mp edge).2) _
  induction waits with
  | @here p ready =>
    obtain ⟨⟨range, next⟩, edge⟩ := List.exists_mem_of_ne_nil _ ready
    apply (reading edge).2
    exact .inl Language.nil_mem_one
  | move move rest ih => exact (valued.stacked_le move).2 ih
  | @byte p range next b w edge taken rest ih =>
    apply (reading edge).2
    rw [stacked_cons] at ih
    have first : [b] ∈ (Plan.byte range).language 0 := ⟨b, taken, rfl⟩
    exact .inr (Language.append_mem_mul first ih)

theorem waits_start (main : RuleId) {r : RuleId} (known : r < bodies.size) (w : List UInt8) :
    Waits (ofBodies bodies main) ⟨start r, []⟩ w ↔ w ∈ (ruleMeaning bodies 1 0 r).inside := by
  constructor
  · intro waits
    obtain ⟨label, valued⟩ :=
      exists_valued bodies main (describing 1 (ruleMeaning bodies 1 0)) fun r body found => by
        have calls : callMeaning bodies 1 0 = ruleMeaning bodies 1 0 := funext fun c => Meaning.call_zero _
        change body.plan.meaning 1 _ ≤ ruleMeaning bodies 1 0 r
        rw [Expr.meaning_plan, ruleMeaning_eq found, calls]
    have within := waits.mem_stacked valued
    rw [stacked_singleton, start, (valued.ends r known).1] at within
    exact within
  · intro within
    exact ((ruleMeaning_le_waiting bodies main r).2 within).2 []

section

variable {rank : RuleId → Nat} (ranked : LeftRanked bodies rank)
include ranked

theorem exists_position_foldl {seeds : List Position} (w : List UInt8) :
    (∃ p, p ∈ (w.foldl (ofBodies bodies main).step ((ofBodies bodies main).closure seeds)).positions) ↔
      ∃ p ∈ seeds, Waits (ofBodies bodies main) p w := by
  induction w generalizing seeds with
  | nil =>
    simp only [List.foldl_nil, mem_positions_closure ranked]
    constructor
    · intro h
      obtain ⟨q, ⟨p, among, leads⟩, ready⟩ := h
      exact ⟨p, among, waits_iff.mpr ⟨q, leads, ready⟩⟩
    · intro h
      obtain ⟨p, among, waits⟩ := h
      obtain ⟨q, leads, ready⟩ := waits_iff.mp waits
      exact ⟨q, ⟨p, among, leads⟩, ready⟩
  | cons b w ih =>
    rw [List.foldl_cons, step, ih]
    constructor
    · intro h
      obtain ⟨_, consumed, waits⟩ := h
      obtain ⟨q, member, range, next, edge, taken, rfl⟩ := mem_consume.mp consumed
      obtain ⟨⟨p, among, leads⟩, _⟩ := (mem_positions_closure ranked q).mp member
      exact ⟨p, among, waits_iff.mpr ⟨q, leads, range, next, edge, taken, waits⟩⟩
    · intro h
      obtain ⟨p, among, waits⟩ := h
      obtain ⟨q, leads, range, next, edge, taken, rest⟩ := waits_iff.mp waits
      have member := (mem_positions_closure ranked q).mpr
        ⟨⟨p, among, leads⟩, List.ne_nil_of_mem edge⟩
      exact ⟨_, mem_consume.mpr ⟨q, member, range, next, edge, taken, rfl⟩, rest⟩

theorem exists_position_after (known : main < bodies.size) (w : List UInt8) :
    (∃ p, p ∈ (w.foldl (ofBodies bodies main).step (ofBodies bodies main).initial).positions) ↔
      w ∈ (ruleMeaning bodies 1 0 main).inside := by
  have found : (ofBodies bodies main).start? (ofBodies bodies main).main = some (start main) :=
    start?_eq_some.mpr ⟨known, rfl⟩
  rw [initial, found, ← waits_start main known]
  dsimp only
  rw [exists_position_foldl ranked]
  simp

end

theorem isDead_foldl {a : Automaton} {set : PositionSet} (dead : set.isDead = true) (w : List UInt8) :
    (w.foldl a.step set).isDead = true := by
  induction w generalizing set with
  | nil => exact dead
  | cons b w ih =>
    rw [PositionSet.isDead, Bool.and_eq_true, List.isEmpty_iff] at dead
    apply ih
    rw [step, consume, dead.1, List.flatMap_nil, closure_nil]
    rfl

theorem isSome_stepBytes?_iff_isDead {a : Automaton} {set : PositionSet} (w : List UInt8) :
    (a.stepBytes? set w).isSome = true ↔ w = [] ∨ (w.foldl a.step set).isDead = false := by
  induction w generalizing set with
  | nil => simp [stepBytes?]
  | cons b w ih =>
    rw [stepBytes?, List.foldl_cons]
    by_cases dead : (a.step set b).isDead = true
    · rw [if_pos dead, isDead_foldl dead w]
      simp
    · rw [if_neg dead, ih]
      cases w with
      | nil => simpa using dead
      | cons c w => simp

/-- An automaton goes on exactly as long as what was consumed is matched or leads to another byte. -/
theorem isSome_stepBytes?_iff_meaning {rank : RuleId → Nat} (ranked : LeftRanked bodies rank)
    (known : main < bodies.size) (w : List UInt8) :
    ((ofBodies bodies main).stepBytes? (ofBodies bodies main).initial w).isSome = true ↔
      w = [] ∨ w ∈ (ruleMeaning bodies 1 0 main).whole ∨ w ∈ (ruleMeaning bodies 1 0 main).inside := by
  rw [isSome_stepBytes?_iff_isDead, isDead_eq_false, accepting_after ranked,
    exists_position_after ranked known]
  rfl

end

end Automaton

end GuidedDecoding
