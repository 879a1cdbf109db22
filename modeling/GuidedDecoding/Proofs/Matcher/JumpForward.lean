import Mathlib
import GuidedDecoding.Proofs.Automaton.Forcing
import GuidedDecoding.Proofs.Automaton.Waiting
import GuidedDecoding.Proofs.Matcher.Session
import GuidedDecoding.Proofs.Text.Utf8

namespace GuidedDecoding

theorem Utf8.longest_decodePrefix (bytes : List UInt8) :
    Longest (fun g => g <+: bytes ∧ ∃ chars, encode chars = g) (encode (decodePrefix bytes).1) := by
  refine ⟨⟨⟨_, encode_decodePrefix bytes⟩, _, rfl⟩, fun g text => ?_⟩
  obtain ⟨begun, chars, rfl⟩ := text
  exact length_le_decodePrefix begun

namespace Automaton

variable {bodies : Array (Expr RuleId)} {main : RuleId} {rank : RuleId → Nat} (ranked : LeftRanked bodies rank)
  (productive : Productive bodies) (known : main < bodies.size)
include ranked productive known

theorem initial_alive : (ofBodies bodies main).initial.isDead = false := by
  obtain ⟨w, spelt⟩ := productive.rules main known
  exact ((matches_initial ranked w).mpr spelt).isDead_eq_false

/-- Of all that completes what was consumed the forced bytes are the beginning of the longest common part. -/
theorem forcedBytes_after {w : List UInt8}
    (alive : (w.foldl (ofBodies bodies main).step (ofBodies bodies main).initial).isDead = false) :
    (∃ f, Longest (Forces {v | w ++ v ∈ ruleLanguage bodies main}) f) ∧
      ∀ f, Longest (Forces {v | w ++ v ∈ ruleLanguage bodies main}) f → ∀ count,
        f.take count = (ofBodies bodies main).forcedBytes count
          (w.foldl (ofBodies bodies main).step (ofBodies bodies main).initial) := by
  have ends : {v | w ++ v ∈ ruleLanguage bodies main} =
      {v | Matches (ofBodies bodies main) (w.foldl (ofBodies bodies main).step (ofBodies bodies main).initial) v} :=
    Set.ext fun v => (matches_after ranked w v).symm
  have inside : InsideSet (ofBodies bodies main)
      (w.foldl (ofBodies bodies main).step (ofBodies bodies main).initial) := (insideSet_initial ranked).foldl ranked w
  have going := (isSome_stepBytes?_iff_isDead w).mpr (.inr alive)
  obtain ⟨v, spelt⟩ := (isSome_stepBytes?_initial ranked productive known w).mp going
  have completed : ∃ v, Matches (ofBodies bodies main) _ v := ⟨v, ends.subset spelt⟩
  rw [ends]
  exact ⟨exists_longest ranked productive inside completed, fun f longest =>
    take_of_longest ranked productive inside completed longest⟩

end Automaton

/-- Whatever was done with a matcher, unless it has accepted a stop token: all texts of the grammar that begin with what
it consumed have a longest part in common behind it, and of the first 4096 bytes of this part the forced text is the
longest beginning that is text. -/
theorem Session.jumpForward_longest {text : String} {grammarSettings : GrammarSettings} {grammar : Grammar}
    (compiled : Grammar.compile text grammarSettings = .ok grammar)
    (rules : ∀ r < grammar.rules.size, ∃ w, w ∈ ruleLanguage (Grammar.bodies grammar.rules) r)
    (classes : ∀ rule ∈ grammar.rules, rule.body.Every Expr.ClassInhabited) {vocabulary : Vocabulary}
    {settings : MatcherSettings} {start : Matcher}
    (created : Matcher.create grammar vocabulary settings = .ok start) (operations : List Operation)
    (going : (Session.run ⟨start, []⟩ operations).matcher.current.stopped = false) :
    let session := Session.run ⟨start, []⟩ operations
    let consumed := start.constraint.text session.inputs
    (∃ f, Longest (Forces {v | consumed ++ v ∈ grammar.language}) f) ∧
      ∀ f, Longest (Forces {v | consumed ++ v ∈ grammar.language}) f →
        Longest (fun g => g <+: f.take 4096 ∧ ∃ chars, Utf8.encode chars = g)
          (Utf8.encode session.matcher.jumpForward) := by
  intro session consumed
  have formed := Grammar.wellFormed_of_compile compiled
  obtain ⟨rank, ranked⟩ := formed.exists_leftRanked
  have productive := formed.productive rules classes
  have known : grammar.main < (Grammar.bodies grammar.rules).size := Grammar.size_bodies grammar.rules ▸ formed.main
  have initial : grammar.automaton.initial.isDead = false := Automaton.initial_alive ranked productive known
  have fresh := Matcher.fresh_of_create created
  have sound : session.Sound start.constraint := fresh.sound.run operations
  have alive : session.matcher.Alive :=
    fresh.sound.persists_run (Matcher.Alive.persists (fresh.automaton.symm ▸ initial)) (fresh.alive initial) operations
  have automaton : session.matcher.constraint.automaton = grammar.automaton := sound.constraint ▸ fresh.automaton
  have positions : session.matcher.current.positions =
      consumed.foldl grammar.automaton.step grammar.automaton.initial := fresh.automaton ▸ sound.positions
  obtain ⟨found, forced⟩ := Automaton.forcedBytes_after ranked productive known (positions ▸ alive.current)
  refine ⟨found, fun f longest => ?_⟩
  rw [forced f longest 4096, Matcher.jumpForward, going, if_neg Bool.false_ne_true, automaton, positions]
  exact Utf8.longest_decodePrefix _

def Grammar.greeting : Grammar :=
  ⟨#[⟨"root", .choice [.sequence [.literal [115, 97, 121, 32], .charClass false [⟨233, 235⟩], .rule 1]]⟩,
    ⟨"end", .choice [.sequence [.literal [33]], .sequence [.literal [46], .rule 1]]⟩], 0, true⟩

theorem Grammar.compile_greeting :
    compile "root ::= \"say \" [é-ë] end\nend ::= \"!\" | \".\" end" {} = .ok greeting := by cbv

set_option maxRecDepth 2000 in
theorem Grammar.exists_mem_ruleLanguage_greeting :
    ∀ r < greeting.rules.size, ∃ w, w ∈ ruleLanguage (bodies greeting.rules) r := by
  obtain ⟨rank, ranked⟩ := (wellFormed_of_compile compile_greeting).exists_leftRanked
  intro r known
  have each : r = 0 ∨ r = 1 := by
    change r < 2 at known
    omega
  rcases each with rfl | rfl
  · exact ⟨[115, 97, 121, 32, 195, 169, 33], (Automaton.accepting_after ranked _).mp (by with_unfolding_all decide)⟩
  · exact ⟨[33], (Automaton.accepting_after ranked _).mp (by with_unfolding_all decide)⟩

theorem Grammar.classInhabited_greeting :
    ∀ rule ∈ greeting.rules, rule.body.Every Expr.ClassInhabited := by
  have letter : (Expr.charClass false [⟨233, 235⟩] : Expr RuleId).Every Expr.ClassInhabited :=
    .leaf ⟨'é', by simp [CodeRange.CoversSwapped]⟩ rfl
  have literal (bytes : List UInt8) : (Expr.literal bytes : Expr RuleId).Every Expr.ClassInhabited :=
    .leaf trivial rfl
  have call : (Expr.rule 1).Every Expr.ClassInhabited := .leaf trivial rfl
  have several {items : List (Expr RuleId)} (each : ∀ e ∈ items, e.Every Expr.ClassInhabited) :
      (Expr.sequence items).Every Expr.ClassInhabited := .intro trivial each
  intro rule member
  simp only [greeting, List.mem_toArray, List.mem_cons, List.not_mem_nil, or_false] at member
  rcases member with rfl | rfl
  · exact .intro trivial (by simpa [Expr.members] using several (by simp [literal, letter, call]))
  · exact .intro trivial (by simpa [Expr.members] using ⟨several (by simp [literal]), several (by simp [literal, call])⟩)

theorem Session.jumpForward_longest_greeting :
    Grammar.compile "root ::= \"say \" [é-ë] end\nend ::= \"!\" | \".\" end" {} = .ok Grammar.greeting ∧
      (∀ r < Grammar.greeting.rules.size, ∃ w, w ∈ ruleLanguage (Grammar.bodies Grammar.greeting.rules) r) ∧
      (∀ rule ∈ Grammar.greeting.rules, rule.body.Every Expr.ClassInhabited) ∧
      ∃ vocabulary start,
        Matcher.create Grammar.greeting vocabulary { stopTokens := some [2], maxRollback := 2 } = .ok start ∧
        let session := Session.run ⟨start, []⟩ [.accept (.bytes [115]), .accept (.bytes [98]), .accept (.token 1),
          .mask, .accept (.bytes [121, 32]), .rollback 1]
        let consumed := start.constraint.text session.inputs
        session.matcher.current.stopped = false ∧ consumed = [115, 97] ∧ session.matcher.jumpForward = ['y', ' '] ∧
        (∃ f, Longest (Forces {v | consumed ++ v ∈ Grammar.greeting.language}) f) ∧
        ∀ f, Longest (Forces {v | consumed ++ v ∈ Grammar.greeting.language}) f →
          Longest (fun g => g <+: f.take 4096 ∧ ∃ chars, Utf8.encode chars = g)
            (Utf8.encode session.matcher.jumpForward) := by
  obtain ⟨vocabulary, start, _, created, going, consumed, forced⟩ : ∃ vocabulary start,
      (Vocabulary.ofTokens [[32], [97], [60, 47, 115, 62]] .raw true).1 = .ok vocabulary ∧
      Matcher.create Grammar.greeting vocabulary { stopTokens := some [2], maxRollback := 2 } = .ok start ∧
      let session := Session.run ⟨start, []⟩ [.accept (.bytes [115]), .accept (.bytes [98]), .accept (.token 1),
        .mask, .accept (.bytes [121, 32]), .rollback 1]
      session.matcher.current.stopped = false ∧ start.constraint.text session.inputs = [115, 97] ∧
        session.matcher.jumpForward = ['y', ' '] := ⟨_, _, rfl, rfl, by with_unfolding_all decide⟩
  exact ⟨Grammar.compile_greeting, Grammar.exists_mem_ruleLanguage_greeting, Grammar.classInhabited_greeting,
    vocabulary, start, created, going, consumed, forced,
    Session.jumpForward_longest Grammar.compile_greeting Grammar.exists_mem_ruleLanguage_greeting
      Grammar.classInhabited_greeting created _ going⟩

theorem Matcher.isSome_acceptBytes? {m : Matcher} (going : m.current.stopped = false) (w : List UInt8) :
    (m.acceptBytes? w).isSome = true ↔
      w = [] ∨ (w.foldl m.constraint.automaton.step m.current.positions).isDead = false := by
  rw [acceptBytes?, going, if_neg Bool.false_ne_true, advance?, Option.isSome_map]
  exact Automaton.isSome_stepBytes?_iff_isDead w

theorem Matcher.jumpForward_prefix (m : Matcher) :
    Utf8.encode m.jumpForward <+: m.constraint.automaton.forcedBytes maxJumpForward m.current.positions := by
  rw [jumpForward]
  split
  next => exact List.nil_prefix
  next => exact ⟨_, Utf8.encode_decodePrefix _⟩

theorem Matcher.isDead_before_jumpForward {m : Matcher} {w : List UInt8} (begun : w <+: Utf8.encode m.jumpForward)
    (shorter : w ≠ Utf8.encode m.jumpForward) :
    (w.foldl m.constraint.automaton.step m.current.positions).isDead = false := by
  obtain ⟨others, same⟩ := begun
  obtain ⟨left, all⟩ := m.jumpForward_prefix
  cases others with
  | nil => exact absurd (by simpa using same) shorter
  | cons b others =>
    rw [← same, List.append_assoc] at all
    exact Automaton.isDead_before_forced all

/-- Whatever was done with a matcher, unless it has accepted a stop token: all shorter beginnings of the forced text are
accepted, and the text itself is accepted unless its last byte leads to a dead end. That never happens if there is a
text of the grammar that begins with what was consumed. -/
theorem Session.accepts_jumpForward {text : String} {grammarSettings : GrammarSettings} {grammar : Grammar}
    (compiled : Grammar.compile text grammarSettings = .ok grammar) {vocabulary : Vocabulary}
    {settings : MatcherSettings} {start : Matcher}
    (created : Matcher.create grammar vocabulary settings = .ok start) (operations : List Operation)
    (going : (Session.run ⟨start, []⟩ operations).matcher.current.stopped = false) :
    let session := Session.run ⟨start, []⟩ operations
    let consumed := start.constraint.text session.inputs
    let forced := Utf8.encode session.matcher.jumpForward
    ((session.matcher.acceptBytes? forced).isSome = true ↔
        forced = [] ∨ (forced.foldl grammar.automaton.step session.matcher.current.positions).isDead = false) ∧
      (∀ w, w <+: forced → w ≠ forced → (session.matcher.acceptBytes? w).isSome = true) ∧
      ((∃ v, consumed ++ v ∈ grammar.language) → (session.matcher.acceptBytes? forced).isSome = true) := by
  intro session consumed forced
  obtain ⟨rank, ranked⟩ := (Grammar.wellFormed_of_compile compiled).exists_leftRanked
  have fresh := Matcher.fresh_of_create created
  have sound : session.Sound start.constraint := fresh.sound.run operations
  have automaton : session.matcher.constraint.automaton = grammar.automaton := sound.constraint ▸ fresh.automaton
  have positions : session.matcher.current.positions =
      consumed.foldl grammar.automaton.step grammar.automaton.initial := fresh.automaton ▸ sound.positions
  refine ⟨automaton ▸ Matcher.isSome_acceptBytes? going forced, fun w begun shorter => ?_, fun completed => ?_⟩
  · exact (Matcher.isSome_acceptBytes? going w).mpr (.inr (Matcher.isDead_before_jumpForward begun shorter))
  · obtain ⟨v, spelt⟩ := completed
    have matched : Automaton.Matches grammar.automaton session.matcher.current.positions v :=
      positions ▸ (Automaton.matches_after ranked consumed v).mpr spelt
    have begun : forced <+: v := by
      apply session.matcher.jumpForward_prefix.trans
      rw [automaton]
      exact Automaton.forcedBytes_prefix ranked maxJumpForward matched
    obtain ⟨u, rfl⟩ := begun
    have onward := ((Automaton.matches_foldl ranked forced u).mpr matched).isDead_eq_false
    exact (Matcher.isSome_acceptBytes? going forced).mpr (.inr (automaton ▸ onward))

theorem Session.accepts_jumpForward_greeting :
    Grammar.compile "root ::= \"say \" [é-ë] end\nend ::= \"!\" | \".\" end" {} = .ok Grammar.greeting ∧
      ∃ vocabulary start,
        Matcher.create Grammar.greeting vocabulary { stopTokens := some [2], maxRollback := 2 } = .ok start ∧
        let session := Session.run ⟨start, []⟩ [.accept (.bytes [115]), .accept (.token 1), .mask]
        let consumed := start.constraint.text session.inputs
        let forced := Utf8.encode session.matcher.jumpForward
        session.matcher.current.stopped = false ∧ session.matcher.jumpForward = ['y', ' '] ∧
        ((session.matcher.acceptBytes? forced).isSome = true ↔ forced = [] ∨
          (forced.foldl Grammar.greeting.automaton.step session.matcher.current.positions).isDead = false) ∧
        (∀ w, w <+: forced → w ≠ forced → (session.matcher.acceptBytes? w).isSome = true) ∧
        ((∃ v, consumed ++ v ∈ Grammar.greeting.language) → (session.matcher.acceptBytes? forced).isSome = true) := by
  obtain ⟨vocabulary, start, _, created, going, forced⟩ : ∃ vocabulary start,
      (Vocabulary.ofTokens [[32], [97], [60, 47, 115, 62]] .raw true).1 = .ok vocabulary ∧
      Matcher.create Grammar.greeting vocabulary { stopTokens := some [2], maxRollback := 2 } = .ok start ∧
      let session := Session.run ⟨start, []⟩ [.accept (.bytes [115]), .accept (.token 1), .mask]
      session.matcher.current.stopped = false ∧ session.matcher.jumpForward = ['y', ' '] :=
    ⟨_, _, rfl, rfl, by with_unfolding_all decide⟩
  exact ⟨Grammar.compile_greeting, vocabulary, start, created, going, forced,
    Session.accepts_jumpForward Grammar.compile_greeting created _ going⟩

def Grammar.deadEnd : Grammar :=
  ⟨#[⟨"root", .choice [.sequence [.literal [97], .charClass true [⟨0, 0x10ffff⟩]]]⟩], 0, true⟩

theorem Grammar.compile_deadEnd : compile "root ::= \"a\" [^\\x00-\\U0010ffff]" {} = .ok deadEnd := by cbv

/-- The letter is the only byte that can come next, but nothing can come after it. -/
theorem Session.refuses_jumpForward :
    ∃ vocabulary start,
      (Vocabulary.ofTokens [[97]] .raw false).1 = .ok vocabulary ∧
      Grammar.compile "root ::= \"a\" [^\\x00-\\U0010ffff]" {} = .ok Grammar.deadEnd ∧
      Matcher.create Grammar.deadEnd vocabulary {} = .ok start ∧ start.current.stopped = false ∧
      start.jumpForward = ['a'] ∧ start.acceptBytes? (Utf8.encode start.jumpForward) = none :=
  ⟨_, _, rfl, Grammar.compile_deadEnd, rfl, by with_unfolding_all decide⟩

end GuidedDecoding
