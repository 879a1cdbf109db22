import Mathlib
import GuidedDecoding.Proofs.Matcher.JumpForward
import GuidedDecoding.Proofs.Matcher.Mask

namespace GuidedDecoding

namespace Automaton

def Reading (a : Automaton) (set : PositionSet) : Prop := ∀ p ∈ set.positions, a.bytesAt p ≠ []

theorem reading_closure (a : Automaton) (seeds : List Position) : a.Reading (a.closure seeds) := by
  intro p member
  rw [closure, closureWith, (Position.perm_ascending _).mem_iff, List.mem_filter, Bool.not_eq_true',
    List.isEmpty_eq_false_iff] at member
  exact member.2

theorem reading_initial (a : Automaton) : a.Reading a.initial := by
  rw [initial]
  split
  next => exact reading_closure a _
  next => exact fun p member => absurd member List.not_mem_nil

theorem Reading.foldl {a : Automaton} {set : PositionSet} (reading : a.Reading set) (w : List UInt8) :
    a.Reading (w.foldl a.step set) := by
  induction w generalizing set with
  | nil => exact reading
  | cons b w ih => exact ih (reading_closure a _)

variable {bodies : Array (Expr RuleId)} {main : RuleId} {set : PositionSet}

theorem exists_consume_iff (reading : (ofBodies bodies main).Reading set) :
    (∃ b, (ofBodies bodies main).consume set b ≠ []) ↔ ∃ p, p ∈ set.positions := by
  constructor
  · intro ⟨b, consumed⟩
    obtain ⟨q, member⟩ := List.exists_mem_of_ne_nil _ consumed
    obtain ⟨p, among, _⟩ := mem_consume.mp member
    exact ⟨p, among⟩
  · intro ⟨p, among⟩
    obtain ⟨⟨range, next⟩, edge⟩ := List.exists_mem_of_ne_nil _ (reading p among)
    have taken : range.contains range.lo = true := by
      simpa [ByteRange.contains] using proper_of_mem_bytesAt edge
    exact ⟨range.lo, List.ne_nil_of_mem (mem_consume.mpr ⟨p, among, range, next, edge, taken, rfl⟩)⟩

end Automaton

theorem Matcher.isSome_stepBytes?_of_accept? {m after : Matcher} {inputs : List Input}
    (now : m.current = m.constraint.progress inputs) {input : Input} (accepted : m.accept? input = some after) :
    (m.constraint.automaton.stepBytes? m.current.positions
      (m.constraint.inputText inputs.isEmpty input)).isSome = true := by
  have going := (accepted_of_accept? now accepted).going
  cases input with
  | bytes bytes =>
    have taken : (m.acceptBytes? bytes).isSome = true := Option.isSome_of_eq_some accepted
    rwa [acceptBytes?, going, if_neg Bool.false_ne_true, advance?, Option.isSome_map] at taken
  | token id =>
    have allowed := (isSome_acceptToken? going id).mp (Option.isSome_of_eq_some accepted)
    unfold Constraint.Allows at allowed
    split at allowed
    next stop =>
      rw [Constraint.inputText, if_pos stop]
      rfl
    next regular =>
      obtain ⟨entry, found, _, stepped⟩ := allowed
      rwa [inputText_token now (Bool.eq_false_iff.mpr regular) found]

/-- Whatever was done with a matcher, the positions after an accepted input are not dead, which means that the text may
end there or that there is a byte to go on with. There is one exception: a grammar whose positions are dead
before anything is consumed has no texts, and yet accepts inputs, but only those without bytes. -/
theorem Session.alive_of_accepted {text : String} {grammarSettings : GrammarSettings} {grammar : Grammar}
    (compiled : Grammar.compile text grammarSettings = .ok grammar) {vocabulary : Vocabulary}
    {settings : MatcherSettings} {start : Matcher}
    (created : Matcher.create grammar vocabulary settings = .ok start) (operations : List Operation)
    {input : Input} {after : Matcher}
    (accepted : (Session.run ⟨start, []⟩ operations).matcher.accept? input = some after) :
    let session := Session.run ⟨start, []⟩ operations
    let reached := after.current.positions
    (reached.isDead = false ↔ reached.accepting = true ∨ ∃ b, grammar.automaton.consume reached b ≠ []) ∧
      (reached.isDead = true ↔ grammar.automaton.initial.isDead = true) ∧
      (grammar.automaton.initial.isDead = true →
        start.constraint.inputText session.inputs.isEmpty input = [] ∧ grammar.language = 0) := by
  intro session reached
  obtain ⟨rank, ranked⟩ := (Grammar.wellFormed_of_compile compiled).exists_leftRanked
  have fresh := Matcher.fresh_of_create created
  have sound : session.Sound start.constraint := fresh.sound.run operations
  have now : session.matcher.current = session.matcher.constraint.progress session.inputs :=
    sound.constraint.symm ▸ sound.current
  have before : session.matcher.current.positions =
      (start.constraint.text session.inputs).foldl grammar.automaton.step grammar.automaton.initial :=
    fresh.automaton ▸ sound.positions
  have arrived : reached =
      (start.constraint.text (input :: session.inputs)).foldl grammar.automaton.step grammar.automaton.initial :=
    fresh.automaton ▸ (sound.accept accepted).positions
  refine ⟨?_, ⟨fun dead => ?_, fun dead => ?_⟩, fun dead => ⟨?_, ?_⟩⟩
  · have reading : grammar.automaton.Reading reached :=
      arrived ▸ (Automaton.reading_initial grammar.automaton).foldl _
    exact Automaton.isDead_eq_false.trans (or_congr_right (Automaton.exists_consume_iff reading).symm)
  · -- A matcher that is alive at the start is alive before the input, and then behind it as well.
    by_contra lives
    rw [Bool.not_eq_true] at lives
    have alive : session.matcher.Alive :=
      fresh.sound.persists_run (Matcher.Alive.persists (fresh.automaton ▸ lives)) (fresh.alive lives) operations
    have onward := (Matcher.accepted_of_accept? now accepted).alive alive.current
    exact Bool.false_ne_true (onward.symm.trans dead)
  · rw [arrived]
    exact Automaton.isDead_foldl dead _
  · have stepped := Matcher.isSome_stepBytes?_of_accept? now accepted
    rw [sound.constraint, Automaton.isSome_stepBytes?_iff_isDead, before, fresh.automaton] at stepped
    refine stepped.resolve_right fun lives => ?_
    exact Bool.false_ne_true (lives.symm.trans (Automaton.isDead_foldl (Automaton.isDead_foldl dead _) _))
  · ext w
    refine iff_of_false (fun spelt => ?_) (Language.notMem_zero w)
    have matched := Automaton.isDead_eq_false.mpr (.inl ((Automaton.accepting_after ranked w).mpr spelt))
    exact Bool.false_ne_true (matched.symm.trans (Automaton.isDead_foldl dead w))

theorem Session.alive_of_accepted_letters :
    Grammar.compile "root ::= [a-c] | \"b\" root" {} = .ok Grammar.letters ∧
      ∃ vocabulary start after,
        Matcher.create Grammar.letters vocabulary { stopTokens := some [2], maxRollback := 2 } = .ok start ∧
        let session := Session.run ⟨start, []⟩ [.accept (.bytes [98]), .accept (.token 1), .rollback 1, .mask]
        let reached := after.current.positions
        session.matcher.accept? (.token 0) = some after ∧
        (reached.isDead = false ↔ reached.accepting = true ∨ ∃ b, Grammar.letters.automaton.consume reached b ≠ []) ∧
        (reached.isDead = true ↔ Grammar.letters.automaton.initial.isDead = true) ∧
        (Grammar.letters.automaton.initial.isDead = true →
          start.constraint.inputText session.inputs.isEmpty (.token 0) = [] ∧ Grammar.letters.language = 0) := by
  obtain ⟨vocabulary, start, _, created, taken⟩ : ∃ vocabulary start,
      (Vocabulary.ofTokens [[98], [97], [60, 47, 115, 62]] .raw true).1 = .ok vocabulary ∧
      Matcher.create Grammar.letters vocabulary { stopTokens := some [2], maxRollback := 2 } = .ok start ∧
      let session := Session.run ⟨start, []⟩ [.accept (.bytes [98]), .accept (.token 1), .rollback 1, .mask]
      (session.matcher.accept? (.token 0)).isSome = true := ⟨_, _, rfl, rfl, by with_unfolding_all decide⟩
  obtain ⟨after, accepted⟩ := Option.isSome_iff_exists.mp taken
  exact ⟨Grammar.compile_letters, vocabulary, start, after, created, accepted,
    Session.alive_of_accepted Grammar.compile_letters created _ accepted⟩

def Grammar.lifeless : Grammar := ⟨#[⟨"root", .choice [.sequence [.charClass true [⟨0, 0x10ffff⟩]]]⟩], 0, true⟩

theorem Grammar.compile_lifeless : compile "root ::= [^\\x00-\\U0010ffff]" {} = .ok lifeless := by cbv

/-- Nothing can be done with the grammar, but the lone space that is dropped is accepted, although its bit is not set in
the mask. -/
theorem Session.accepts_lifeless :
    ∃ vocabulary start after,
      (Vocabulary.ofTokens [[32], [97]] .raw true).1 = .ok vocabulary ∧
      Grammar.compile "root ::= [^\\x00-\\U0010ffff]" {} = .ok Grammar.lifeless ∧
      Matcher.create Grammar.lifeless vocabulary {} = .ok start ∧
      start.accept? (.token 0) = some after ∧ after.current.positions.isDead = true ∧
      (start.accept? (.bytes [])).isSome = true ∧ TokenMask.bit start.computeMask.1.words.toList 0 = false := by
  obtain ⟨vocabulary, start, built, created, taken, dead, others⟩ : ∃ vocabulary start,
      (Vocabulary.ofTokens [[32], [97]] .raw true).1 = .ok vocabulary ∧
      Matcher.create Grammar.lifeless vocabulary {} = .ok start ∧
      (start.accept? (.token 0)).isSome = true ∧
      (∀ after ∈ start.accept? (.token 0), after.current.positions.isDead = true) ∧
      (start.accept? (.bytes [])).isSome = true ∧ TokenMask.bit start.computeMask.1.words.toList 0 = false :=
    ⟨_, _, rfl, rfl, by with_unfolding_all decide, by with_unfolding_all decide, by with_unfolding_all decide⟩
  obtain ⟨after, accepted⟩ := Option.isSome_iff_exists.mp taken
  exact ⟨vocabulary, start, after, built, Grammar.compile_lifeless, created, accepted, dead after accepted, others⟩

end GuidedDecoding
