import Mathlib
import GuidedDecoding.Proofs.Matcher.Ideal
import GuidedDecoding.Proofs.Vocabulary.Regular

namespace GuidedDecoding

/-- Calls about the present and what follows it. The others ask for earlier states, of which there is one
for each token. -/
def Call.Forward : Call → Prop
  | .perform (.rollback _) | .historyLength => False
  | _ => True

/-- A token that stands for a piece of the text. -/
def Constraint.Regular (c : Constraint) (id : Nat) : Prop :=
  c.stopTokens.contains id = false ∧ ∃ e, c.vocabulary.entries[id]? = some e ∧ e.special = false

def Vocabulary.decodedText (v : Vocabulary) (ids : List Nat) : List UInt8 :=
  ids.flatMap fun id => (v.decoded? id).getD []

theorem Vocabulary.decodedText_cons (v : Vocabulary) (id : Nat) (ids : List Nat) :
    v.decodedText (id :: ids) = (v.decoded? id).getD [] ++ v.decodedText ids := List.flatMap_cons

theorem Vocabulary.isEmpty_decodedText {v : Vocabulary} {ids : List Nat}
    (speaks : ∀ id ∈ ids, (v.decoded? id).getD [] ≠ []) : (v.decodedText ids).isEmpty = ids.isEmpty := by
  cases ids with
  | nil => rfl
  | cons id ids => simp [decodedText_cons, speaks id (by simp)]

theorem Automaton.stepBytes?_append (a : Automaton) (set : PositionSet) (one other : List UInt8) :
    a.stepBytes? set (one ++ other) = (a.stepBytes? set one).bind (a.stepBytes? · other) := by
  induction one generalizing set with
  | nil => rfl
  | cons b bytes ih =>
    rw [List.cons_append, stepBytes?, stepBytes?]
    split
    next => rfl
    next => exact ih _

namespace Matcher

def acceptTokens? (m : Matcher) : List Nat → Option Matcher
  | [] => some m
  | id :: ids => (m.acceptToken? id).1.bind fun next => next.acceptTokens? ids

/-- What decides all answers but those about earlier states. -/
structure View where
  constraint : Constraint
  positions : PositionSet
  stopped : Bool
  dropsSpace : Bool

def view (m : Matcher) : View := ⟨m.constraint, m.current.positions, m.current.stopped, m.dropsSpace⟩

def spoken (m : Matcher) (text : List UInt8) : List UInt8 :=
  if m.dropsSpace then withoutSpace text else text

variable {m n next : Matcher}

theorem withoutSpace_append {one : List UInt8} (some : one ≠ []) (other : List UInt8) :
    withoutSpace (one ++ other) = withoutSpace one ++ other := by
  cases one with
  | nil => exact absurd rfl some
  | cons b bytes =>
    by_cases space : b = 0x20
    · subst space
      rfl
    · have whole (rest : List UInt8) : withoutSpace (b :: rest) = b :: rest := by
        unfold withoutSpace
        split
        next same => exact absurd (List.cons.inj same).1 space
        next => rfl
      rw [List.cons_append, whole, whole, List.cons_append]

theorem spoken_append {one : List UInt8} (some : one ≠ []) (other : List UInt8) :
    m.spoken (one ++ other) = m.spoken one ++ other := by
  unfold spoken
  split
  next => exact withoutSpace_append some other
  next => rfl

theorem spoken_nil (m : Matcher) : m.spoken [] = [] := by
  unfold spoken
  split <;> rfl

theorem view_proceed (m : Matcher) (set : PositionSet) (stopped : Bool) :
    (m.proceed set stopped).view = ⟨m.constraint, set, stopped, false⟩ := rfl

theorem view_advance? (m : Matcher) (bytes : List UInt8) :
    (m.advance? bytes).map view =
      (m.constraint.automaton.stepBytes? m.current.positions bytes).map fun set =>
        ⟨m.constraint, set, m.current.stopped, false⟩ := by
  rw [advance?, Option.map_map]
  rfl

theorem acceptToken?_regular (going : m.current.stopped = false) {id : Nat}
    (regular : m.constraint.Regular id) :
    (m.acceptToken? id).1 = m.advance? (m.spoken ((m.constraint.vocabulary.decoded? id).getD [])) := by
  obtain ⟨running, e, found, plain⟩ := regular
  simp only [acceptToken?, going, running, found, plain, Vocabulary.decoded?, Option.map_some,
    Option.getD_some, Bool.false_eq_true, if_false, spoken]

theorem view_acceptTokens? (going : m.current.stopped = false) {ids : List Nat}
    (regular : ∀ id ∈ ids, m.constraint.Regular id)
    (speaks : ∀ id ∈ ids, (m.constraint.vocabulary.decoded? id).getD [] ≠ []) :
    (m.acceptTokens? ids).map view =
      (m.constraint.automaton.stepBytes? m.current.positions
        (m.spoken (m.constraint.vocabulary.decodedText ids))).map fun set =>
          ⟨m.constraint, set, false, m.dropsSpace && ids.isEmpty⟩ := by
  induction ids generalizing m with
  | nil =>
    change some m.view = _
    rw [Vocabulary.decodedText, List.flatMap_nil, spoken_nil, view, going]
    simp [Automaton.stepBytes?]
  | cons id ids ih =>
    have first := speaks id (by simp)
    rw [acceptTokens?, acceptToken?_regular going (regular id (by simp)), Vocabulary.decodedText_cons,
      spoken_append first, Automaton.stepBytes?_append, advance?]
    cases stepped : m.constraint.automaton.stepBytes? m.current.positions
        (m.spoken ((m.constraint.vocabulary.decoded? id).getD [])) with
    | none => rfl
    | some set =>
      have rest := @ih (m.proceed set m.current.stopped) going (fun id member => regular id (by simp [member]))
        fun id member => speaks id (by simp [member])
      change _ = (m.constraint.automaton.stepBytes? set (m.constraint.vocabulary.decodedText ids)).map
        fun set => View.mk m.constraint set false false at rest
      simpa using rest

theorem view_accept?_congr (same : m.view = n.view) (input : Input) :
    (m.accept? input).map view = (n.accept? input).map view := by
  obtain ⟨constraint, positions, stopped, drops⟩ := View.mk.inj same
  have advance (bytes : List UInt8) : (m.advance? bytes).map view = (n.advance? bytes).map view := by
    rw [view_advance?, view_advance?, constraint, positions, stopped]
  cases input with
  | bytes bytes =>
    change (m.acceptBytes? bytes).map view = (n.acceptBytes? bytes).map view
    rw [acceptBytes?, acceptBytes?, stopped]
    split
    next => rfl
    next => exact advance bytes
  | token id =>
    change (m.acceptToken? id).1.map view = (n.acceptToken? id).1.map view
    rw [acceptToken?, acceptToken?, constraint, positions, stopped, drops]
    split
    next => rfl
    next =>
      split
      next =>
        split
        next =>
          rw [Option.map_some, Option.map_some, view_proceed, view_proceed, constraint]
        next => rfl
      next =>
        split
        next => rfl
        next =>
          split
          next => rfl
          next => exact advance _

/-- Matchers with the same view whose kept masks are right. -/
structure Alike (m n : Matcher) : Prop where
  view : m.view = n.view
  left : m.Exact
  right : n.Exact

namespace Alike

variable (alike : m.Alike n)
include alike

theorem key : m.key = n.key := by
  obtain ⟨_, positions, _, drops⟩ := View.mk.inj alike.view
  rw [Matcher.key, Matcher.key, positions, drops]

theorem accept (input : Input) :
    ((m.accept? input).getD m).view = ((n.accept? input).getD n).view := by
  have same := view_accept?_congr alike.view input
  cases one : m.accept? input with
  | none =>
    cases other : n.accept? input with
    | none => exact alike.view
    | some next => simp [one, other] at same
  | some next =>
    cases other : n.accept? input with
    | none => simp [one, other] at same
    | some next' => simpa [one, other] using same

end Alike

theorem view_mask (m : Matcher) : (m.after (.perform .mask)).view = m.view := by
  change ((m.mask.toOption.map fun made => made.2.1).getD m).view = m.view
  cases made : m.mask with
  | error e => rfl
  | ok result =>
    have masked := (masked_of_mask made).2
    change result.2.1.view = m.view
    rw [view, view, dropsSpace, dropsSpace, masked.constraint, masked.current]

theorem Exact.after (exact : m.Exact) (call : Call) : (m.after call).Exact := by
  obtain ⟨constraint, cache | ⟨mask, events, made⟩⟩ := m.after_kept call
  · exact exact.congr constraint fun entry member => cache ▸ member
  · exact exact.masked (masked_of_mask made).2

theorem Exact.acceptTokens {ids : List Nat} (exact : m.Exact) (accepted : m.acceptTokens? ids = some n) :
    n.Exact := by
  induction ids generalizing m with
  | nil =>
    cases accepted
    exact exact
  | cons id ids ih =>
    obtain ⟨next, first, rest⟩ := Option.bind_eq_some_iff.mp accepted
    have reached : m.after (.perform (.accept (.token id))) = next := by
      change (m.acceptToken? id).1.getD m = next
      rw [first]
      rfl
    exact ih (reached ▸ exact.after _) rest

namespace Alike

variable (alike : m.Alike n)
include alike

theorem after {call : Call} (forward : call.Forward) : (m.after call).Alike (n.after call) := by
  refine ⟨?_, alike.left.after call, alike.right.after call⟩
  cases call with
  | perform operation =>
    cases operation with
    | accept input => exact alike.accept input
    | rollback count => exact forward.elim
    | reset =>
      obtain ⟨constraint, _, _, _⟩ := View.mk.inj alike.view
      change View.mk m.constraint _ _ (_ && m.constraint.vocabulary.leadingSpace) =
        View.mk n.constraint _ _ (_ && n.constraint.vocabulary.leadingSpace)
      rw [← constraint]
      change View.mk _ (startOf m.constraint.automaton).positions _ _ =
        View.mk _ (startOf n.constraint.automaton).positions _ _
      rw [constraint]
      rfl
    | mask => rw [view_mask, view_mask, alike.view]
    | jumpForward => exact alike.view
  | canEnd | hasEnded | historyLength => exact alike.view

theorem answer {call : Call} (forward : call.Forward) : m.answer call = n.answer call := by
  obtain ⟨constraint, positions, stopped, _⟩ := View.mk.inj alike.view
  cases call with
  | perform operation =>
    cases operation with
    | accept input =>
      have same := congrArg Option.isSome (view_accept?_congr alike.view input)
      rw [Option.isSome_map, Option.isSome_map] at same
      exact congrArg Answer.accepted same
    | rollback count => exact forward.elim
    | reset => rfl
    | mask =>
      change Answer.mask _ = Answer.mask _
      rw [alike.left.mask, alike.right.mask, bare_mask, bare_mask, stopped,
        computeMask_congr constraint alike.key]
    | jumpForward =>
      change Answer.forced m.jumpForward = Answer.forced n.jumpForward
      rw [jumpForward, jumpForward, constraint, positions, stopped]
  | canEnd =>
    change Answer.ended m.canEnd = Answer.ended n.canEnd
    rw [canEnd, canEnd, positions, stopped]
  | hasEnded =>
    change Answer.ended m.hasEnded = Answer.ended n.hasEnded
    rw [hasEnded, hasEnded, constraint, positions, stopped]
  | historyLength => exact forward.elim

theorem answers {calls : List Call} (forward : ∀ call ∈ calls, call.Forward) :
    m.answers calls = n.answers calls := by
  induction calls generalizing m n with
  | nil => rfl
  | cons call calls ih =>
    have here := forward call (by simp)
    rw [Matcher.answers, Matcher.answers, alike.answer here,
      ih (alike.after here) fun c member => forward c (by simp [member])]

end Alike

/-- Two rows of regular tokens with the same text are both accepted or both refused. If they are accepted,
everything that can be asked or done from there on has the same answers, unless it is about earlier
states. -/
theorem answers_retokenized {grammar : Grammar} {tokens : List (List UInt8)} {encoding : TokenEncoding}
    {leadingSpace : Bool} {vocabulary : Vocabulary}
    (built : (Vocabulary.ofTokens tokens encoding leadingSpace).1 = .ok vocabulary)
    {settings : MatcherSettings} {start : Matcher}
    (created : create grammar vocabulary settings = .ok start) {earlier : List Call}
    (going : (start.run earlier).current.stopped = false) {one other : List Nat}
    (regular : ∀ id ∈ one ++ other, start.constraint.Regular id)
    (same : vocabulary.decodedText one = vocabulary.decodedText other) :
    let m := start.run earlier
    ((m.acceptTokens? one).isSome = true ↔ (m.acceptTokens? other).isSome = true) ∧
      ∀ n k, m.acceptTokens? one = some n → m.acceptTokens? other = some k →
        ∀ calls, (∀ call ∈ calls, call.Forward) → n.answers calls = k.answers calls := by
  intro m
  have exact : m.Exact := ((tracks_created created).run earlier).exact
  have constraint : m.constraint = start.constraint := constraint_run start earlier
  have known : m.constraint.vocabulary = vocabulary := by
    rw [constraint, (fresh_of_create created).vocabulary]
  have speaks {ids : List Nat} (among : ∀ id ∈ ids, id ∈ one ++ other) :
      ∀ id ∈ ids, (m.constraint.vocabulary.decoded? id).getD [] ≠ [] := by
    intro id member
    obtain ⟨_, e, found, plain⟩ := regular id (among id member)
    rw [← constraint, known] at found
    rw [known, Vocabulary.decoded?, found]
    exact Vocabulary.decoded_ne_nil built found plain
  have viewed {ids : List Nat} (among : ∀ id ∈ ids, id ∈ one ++ other) :=
    view_acceptTokens? going (fun id (member : id ∈ ids) => constraint ▸ regular id (among id member))
      (speaks among)
  have left : ∀ id ∈ one, id ∈ one ++ other := fun id member => by simp [member]
  have right : ∀ id ∈ other, id ∈ one ++ other := fun id member => by simp [member]
  have none : one.isEmpty = other.isEmpty := by
    rw [← Vocabulary.isEmpty_decodedText (speaks left), ← Vocabulary.isEmpty_decodedText (speaks right),
      known, same]
  have view : (m.acceptTokens? one).map view = (m.acceptTokens? other).map view := by
    rw [viewed left, viewed right, known, same, none]
  refine ⟨?_, fun n k first second calls forward => ?_⟩
  · have some := congrArg Option.isSome view
    rw [Option.isSome_map, Option.isSome_map] at some
    rw [some]
  · rw [first, second] at view
    have alike : n.Alike k :=
      ⟨Option.some.inj view, exact.acceptTokens first, exact.acceptTokens second⟩
    exact alike.answers forward

theorem answers_retokenized_spaced :
    ∃ vocabulary start,
      (Vocabulary.ofTokens [[32], [98], [32, 98], [97], [60, 47, 115, 62]] .raw true).1 = .ok vocabulary ∧
      create Grammar.letters vocabulary { stopTokens := some [4], maxRollback := 2 } = .ok start ∧
      let m := start.run [.perform (.accept (.token 2)), .perform .reset, .perform .mask]
      m.current.stopped = false ∧ (∀ id ∈ [0, 1, 3] ++ [2, 3], start.constraint.Regular id) ∧
        vocabulary.decodedText [0, 1, 3] = vocabulary.decodedText [2, 3] ∧
        (m.acceptTokens? [0, 1, 3]).isSome = true ∧
        ((m.acceptTokens? [0, 1, 3]).isSome = true ↔ (m.acceptTokens? [2, 3]).isSome = true) ∧
        ∀ n k, m.acceptTokens? [0, 1, 3] = some n → m.acceptTokens? [2, 3] = some k →
          ∀ calls, (∀ call ∈ calls, call.Forward) → n.answers calls = k.answers calls := by
  obtain ⟨vocabulary, start, built, created, going, regular, same, accepted⟩ : ∃ vocabulary start,
      (Vocabulary.ofTokens [[32], [98], [32, 98], [97], [60, 47, 115, 62]] .raw true).1 = .ok vocabulary ∧
      create Grammar.letters vocabulary { stopTokens := some [4], maxRollback := 2 } = .ok start ∧
      let m := start.run [.perform (.accept (.token 2)), .perform .reset, .perform .mask]
      m.current.stopped = false ∧ (∀ id ∈ [0, 1, 3] ++ [2, 3], start.constraint.Regular id) ∧
        vocabulary.decodedText [0, 1, 3] = vocabulary.decodedText [2, 3] ∧
        (m.acceptTokens? [0, 1, 3]).isSome = true := by
    refine ⟨_, _, rfl, rfl, by with_unfolding_all decide, fun id member => ?_, rfl, by with_unfolding_all decide⟩
    have each : id = 0 ∨ id = 1 ∨ id = 3 ∨ id = 2 ∨ id = 3 := by simpa using member
    rcases each with rfl | rfl | rfl | rfl | rfl <;> exact ⟨rfl, _, rfl, rfl⟩
  exact ⟨vocabulary, start, built, created, going, regular, same, accepted,
    answers_retokenized built created going regular same⟩

end Matcher
end GuidedDecoding
