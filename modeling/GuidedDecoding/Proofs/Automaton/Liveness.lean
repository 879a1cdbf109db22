import Mathlib
import GuidedDecoding.Proofs.Automaton.Acceptance
import GuidedDecoding.Proofs.Grammar.Compilation

namespace GuidedDecoding

namespace Plan

variable {rules : RuleId → Language UInt8}

def Unblocked (rules : RuleId → Language UInt8) : Plan → Prop
  | nothing | silent | byte _ | call _ => True
  | join first second =>
    Unblocked rules first ∧ Unblocked rules second ∧ ∃ w, w ∈ second.language rules
  | beside one other => Unblocked rules one ∧ Unblocked rules other
  | loop body => Unblocked rules body

theorem unblocked_path {ranges : List ByteRange} (proper : ∀ r ∈ ranges, r.lo ≤ r.hi) :
    (path ranges).Unblocked rules := by
  induction ranges with
  | nil => trivial
  | cons range rest ih =>
    cases rest with
    | nil => trivial
    | cons next rest =>
      have proper : ∀ r ∈ next :: rest, r.lo ≤ r.hi := fun r member => proper r (by simp [member])
      exact ⟨trivial, ih proper, exists_mem_path (by simp) proper⟩

theorem unblocked_paths {sequences : List (List ByteRange)}
    (proper : ∀ ranges ∈ sequences, ∀ r ∈ ranges, r.lo ≤ r.hi) :
    (paths sequences).Unblocked rules := by
  induction sequences with
  | nil => trivial
  | cons ranges rest ih =>
    have others := ih fun ranges member => proper ranges (by simp [member])
    exact ⟨unblocked_path (proper ranges (by simp)), others⟩

theorem nil_mem_optional (body : Plan) (count : Nat) : [] ∈ (optional body count).language rules := by
  apply (mem_language_optional body count []).mpr
  exact ⟨0, Nat.zero_le count, by rw [pow_zero]; exact Language.nil_mem_one⟩

theorem unblocked_optional {body : Plan} (unblocked : body.Unblocked rules) (count : Nat) :
    (optional body count).Unblocked rules := by
  induction count with
  | zero => trivial
  | succ count ih =>
    exact ⟨trivial, unblocked, ih, [], nil_mem_optional body count⟩

theorem unblocked_copies {body after : Plan} (unblocked : body.Unblocked rules)
    (last : after.Unblocked rules) (inhabited : ∃ w, w ∈ body.language rules)
    (skipped : [] ∈ after.language rules) (count : Nat) :
    (copies body count after).Unblocked rules := by
  induction count with
  | zero => exact last
  | succ count ih =>
    rw [copies_succ]
    refine ⟨unblocked, ih, ?_⟩
    obtain ⟨w, inside⟩ := inhabited
    obtain ⟨u, inside⟩ := Expr.exists_mem_pow inside count
    rw [language_copies]
    exact ⟨u ++ [], Language.append_mem_mul inside skipped⟩

theorem unblocked_repeated {body : Plan} (unblocked : body.Unblocked rules)
    (inhabited : ∃ w, w ∈ body.language rules) (min : Nat) (max : Option Nat) :
    (repeated body min max).Unblocked rules := by
  cases max with
  | none =>
    have last : (loop body).Unblocked rules := unblocked
    have skipped : [] ∈ (loop body).language rules :=
      (mem_language_loop body []).mpr ⟨0, by rw [pow_zero]; exact Language.nil_mem_one⟩
    exact unblocked_copies unblocked last inhabited skipped min
  | some max =>
    have last : (optional body (max - min)).Unblocked rules := unblocked_optional unblocked _
    exact unblocked_copies unblocked last inhabited (nil_mem_optional body _) min

end Plan

theorem Expr.unblocked_plan {rules : RuleId → Language UInt8} {e : Expr RuleId}
    (productive : e.Every (Productive rules)) : e.plan.Unblocked rules := by
  induction e using structural with
  | empty => trivial
  | literal bytes =>
    cases bytes with
    | nil => trivial
    | cons b bytes =>
      apply Plan.unblocked_path
      intro r member
      obtain ⟨b, _, rfl⟩ := List.mem_map.mp member
      exact UInt8.le_refl b
  | charClass negated ranges =>
    exact Plan.unblocked_paths fun sequence lowered r => CodeRange.lowered_proper ranges negated lowered
  | rule target => trivial
  | sequence items ih =>
    have inside := productive.inside
    rw [members] at inside
    clear productive
    rw [plan]
    induction items with
    | nil => trivial
    | cons item rest tail =>
      have head := ih item (by simp) (inside item (by simp))
      have others : ∀ m ∈ rest, m.Every (Productive rules) := fun m member => inside m (by simp [member])
      have tail := tail (fun m member => ih m (by simp [member])) others
      cases rest with
      | nil => exact head
      | cons next rest =>
        refine ⟨head, tail, ?_⟩
        have inhabited := exists_mem_language (e := .sequence (next :: rest)) (.intro ⟨trivial, trivial⟩ others)
        rwa [← language_plan, plan] at inhabited
  | choice alternatives ih =>
    have inside := productive.inside
    rw [members] at inside
    clear productive
    rw [plan]
    induction alternatives with
    | nil => trivial
    | cons e rest tail =>
      have head := ih e (by simp) (inside e (by simp))
      have others : ∀ m ∈ rest, m.Every (Productive rules) := fun m member => inside m (by simp [member])
      exact ⟨head, tail (fun m member => ih m (by simp [member])) others⟩
  | repetition body min max ih =>
    have inside := productive.body
    have inhabited := exists_mem_language inside
    rw [← language_plan] at inhabited
    exact Plan.unblocked_repeated (ih inside) inhabited min max

theorem Draft.exists_fragment {rules : List (Expr RuleId × RuleId)} {v : Node} (draft : Draft)
    (fresh : draft.size ≤ v) (inside : v < (drawRules rules draft).size) :
    ∃ rule ∈ rules, ∃ before : Draft, draft.size ≤ before.size ∧
      (rule.1.plan.draw (2 * rule.2) (2 * rule.2 + 1) before).Within (drawRules rules draft) ∧
      before.size ≤ v ∧ v < (rule.1.plan.draw (2 * rule.2) (2 * rule.2 + 1) before).size := by
  induction rules generalizing draft with
  | nil => exact absurd inside (Nat.not_lt_of_le fresh)
  | cons rule rest ih =>
    rw [drawRules_cons] at inside ⊢
    by_cases first : v < (rule.1.plan.draw (2 * rule.2) (2 * rule.2 + 1) draft).size
    · exact ⟨rule, by simp, draft, Nat.le_refl _, within_drawRules rest _, fresh, first⟩
    · obtain ⟨other, member, before, size, within, range⟩ := ih _ (Nat.le_of_not_lt first) inside
      have grown := (Within.draw rule.1.plan (2 * rule.2) (2 * rule.2 + 1) draft).size
      exact ⟨other, by simp [member], before, Nat.le_trans grown size, within, range⟩

namespace Automaton

def Live (a : Automaton) (v : Node) : Prop :=
  ∃ u, ∀ returns x, Returns a returns x → Accepts a ⟨v, returns⟩ (u ++ x)

section

variable {bodies : Array (Expr RuleId)} {main : RuleId}

theorem live_exit {r : RuleId} (known : r < bodies.size) : Live (ofBodies bodies main) (2 * r + 1) :=
  ⟨[], fun _ _ after => (accepts_exit (isSome_completed?_exit known)).mpr after⟩

theorem live_start {r : RuleId} {w : List UInt8} (spelt : w ∈ ruleLanguage bodies r) :
    Live (ofBodies bodies main) (2 * r) :=
  ⟨w, (ruleLanguage_le_entered bodies main r spelt).2⟩

theorem live_first {plan : Plan} {first last : Node} {draft : Draft}
    (drawn : ∀ edge ∈ (plan.draw first last draft).edges,
      edge.2 ∈ (ofBodies bodies main).transitionsAt edge.1)
    (size : 2 * bodies.size ≤ draft.size) (inside : (ofBodies bodies main).completed? first = none)
    (inhabited : ∃ w, w ∈ plan.language (entered (ofBodies bodies main)))
    (live : Live (ofBodies bodies main) last) : Live (ofBodies bodies main) first := by
  obtain ⟨w, spelt⟩ := inhabited
  obtain ⟨u, onward⟩ := live
  refine ⟨w ++ u, ?_⟩
  intro returns x after
  rw [List.append_assoc]
  exact accepts_draw drawn size inside spelt (onward returns x after)

theorem live_draw {plan : Plan} {first last : Node} {draft : Draft}
    (drawn : ∀ edge ∈ (plan.draw first last draft).edges,
      edge.2 ∈ (ofBodies bodies main).transitionsAt edge.1)
    (size : 2 * bodies.size ≤ draft.size)
    (unblocked : plan.Unblocked (entered (ofBodies bodies main)))
    (live : Live (ofBodies bodies main) last) {v : Node} (fresh : draft.size ≤ v)
    (inside : v < (plan.draw first last draft).size) : Live (ofBodies bodies main) v := by
  induction plan generalizing first last draft with
  | nothing | silent | byte | call => exact absurd inside (Nat.not_lt_of_le fresh)
  | join one two ihOne ihTwo =>
    obtain ⟨unblockedOne, unblockedTwo, inhabited⟩ := unblocked
    have within : (one.draw first draft.size draft.grow).Within
        ((one.join two).draw first last draft) := Draft.Within.draw two _ _ _
    have wide : 2 * bodies.size ≤ (one.draw first draft.size draft.grow).size :=
      Nat.le_trans (Nat.le_succ_of_le size) (Draft.Within.draw one _ _ draft.grow).size
    have middle : Live (ofBodies bodies main) draft.size :=
      live_first drawn wide (completed?_eq_none size) inhabited live
    by_cases early : v < (one.draw first draft.size draft.grow).size
    · by_cases new : v = draft.size
      · rwa [new]
      · have later : draft.grow.size ≤ v := Nat.lt_of_le_of_ne fresh (Ne.symm new)
        exact ihOne (fun edge member => drawn edge (within.edges member)) (Nat.le_succ_of_le size)
          unblockedOne middle later early
    · exact ihTwo drawn wide unblockedTwo live (Nat.le_of_not_lt early) inside
  | beside one other ihOne ihOther =>
    obtain ⟨unblockedOne, unblockedOther⟩ := unblocked
    have within : (one.draw first last draft).Within ((one.beside other).draw first last draft) :=
      Draft.Within.draw other _ _ _
    have wide : 2 * bodies.size ≤ (one.draw first last draft).size :=
      Nat.le_trans size (Draft.Within.draw one _ _ draft).size
    by_cases early : v < (one.draw first last draft).size
    · exact ihOne (fun edge member => drawn edge (within.edges member)) size unblockedOne live fresh early
    · exact ihOther drawn wide unblockedOther live (Nat.le_of_not_lt early) inside
  | loop body ih =>
    have leave : .silent last ∈ (ofBodies bodies main).transitionsAt draft.size :=
      drawn (draft.size, _) List.mem_cons_self
    have node : Live (ofBodies bodies main) draft.size := by
      obtain ⟨u, onward⟩ := live
      refine ⟨u, ?_⟩
      intro returns x after
      exact .move (.silent (completed?_eq_none size) leave) (onward returns x after)
    by_cases new : v = draft.size
    · rwa [new]
    · have later : draft.grow.size ≤ v := Nat.lt_of_le_of_ne fresh (Ne.symm new)
      exact ih (fun edge member => drawn edge (List.mem_cons_of_mem _ member)) (Nat.le_succ_of_le size)
        unblocked node later inside

/-- What an automaton without dead ends is made from. -/
structure Productive (bodies : Array (Expr RuleId)) : Prop where
  rules : ∀ r < bodies.size, ∃ w, w ∈ ruleLanguage bodies r
  parts : ∀ body ∈ bodies, body.Every fun e => e.Resolved (· < bodies.size) ∧ e.ClassInhabited

theorem Productive.live (productive : Productive bodies) {v : Node}
    (inside : v < (ofBodies bodies main).nodeCount) : Live (ofBodies bodies main) v := by
  rw [nodeCount_ofBodies, Draft.ofBodies_eq] at inside
  by_cases fresh : 2 * bodies.toList.length ≤ v
  · obtain ⟨⟨body, r⟩, member, before, size, within, least, most⟩ :=
      Draft.exists_fragment ⟨2 * bodies.toList.length, []⟩ fresh inside
    have found := List.mk_mem_zipIdx_iff_getElem?.mp member
    have known : r < bodies.size := (List.getElem?_eq_some_iff.mp found).1
    have parts := productive.parts body (Array.mem_toList_iff.mp (List.mem_of_getElem? found))
    have matching : body.Every (Expr.Productive (entered (ofBodies bodies main))) := by
      apply parts.imp
      intro e h
      obtain ⟨resolved, inhabited⟩ := h
      refine ⟨?_, inhabited⟩
      cases e with
      | rule c =>
        obtain ⟨w, spelt⟩ := productive.rules c resolved
        exact ⟨w, ruleLanguage_le_entered bodies main c spelt⟩
      | choice alternatives => exact resolved
      | _ => trivial
    exact live_draw (fun edge drawn => mem_transitionsAt.mpr (within.edges drawn)) size
      (Expr.unblocked_plan matching) (live_exit known) least most
  · obtain ⟨known, start | exit⟩ := entry_or_exit (Nat.lt_of_not_le fresh)
    · obtain ⟨w, spelt⟩ := productive.rules _ known
      rw [start]
      exact live_start spelt
    · rw [exit]
      exact live_exit known

theorem Productive.exists_accepts (productive : Productive bodies) {p : Position}
    (inside : Inside (ofBodies bodies main) p) : ∃ w, Accepts (ofBodies bodies main) p w := by
  obtain ⟨v, returns⟩ := p
  unfold Inside at inside
  dsimp only at inside
  induction returns generalizing v with
  | nil =>
    obtain ⟨u, onward⟩ : Live (ofBodies bodies main) v := productive.live (inside v (by simp))
    exact ⟨_, onward [] [] rfl⟩
  | cons next returns ih =>
    obtain ⟨u, onward⟩ : Live (ofBodies bodies main) v := productive.live (inside v (by simp))
    obtain ⟨x, after⟩ := ih next fun v member => inside v (List.mem_cons_of_mem _ member)
    exact ⟨_, onward (next :: returns) x after⟩

theorem Matches.isDead_eq_false {a : Automaton} {set : PositionSet} {w : List UInt8}
    (matched : Matches a set w) : set.isDead = false := by
  rw [Automaton.isDead_eq_false]
  cases w with
  | nil => exact .inl matched
  | cons b w =>
    obtain ⟨q, consumed, _⟩ := matched
    obtain ⟨p, member, _⟩ := mem_consume.mp consumed
    exact .inr ⟨p, member⟩

section

variable {rank : RuleId → Nat} (ranked : LeftRanked bodies rank) (productive : Productive bodies)
include ranked productive

theorem isDead_closure {seeds : List Position} (inside : ∀ p ∈ seeds, Inside (ofBodies bodies main) p) :
    ((ofBodies bodies main).closure seeds).isDead = false ↔
      ∃ w, Matches (ofBodies bodies main) ((ofBodies bodies main).closure seeds) w := by
  constructor
  · intro alive
    rcases isDead_eq_false.mp alive with accepting | ⟨p, member⟩
    · exact ⟨[], accepting⟩
    · obtain ⟨w, accepts⟩ := productive.exists_accepts (insideSet_closure ranked inside p member)
      obtain ⟨⟨q, among, leads⟩, _⟩ := (mem_positions_closure ranked p).mp member
      exact ⟨w, (matches_closure ranked w).mpr ⟨q, among, .of_leads leads accepts⟩⟩
  · intro h
    obtain ⟨w, matched⟩ := h
    exact matched.isDead_eq_false

theorem isSome_stepBytes?_iff {set : PositionSet} (inside : InsideSet (ofBodies bodies main) set)
    (alive : ∃ w, Matches (ofBodies bodies main) set w) (w : List UInt8) :
    ((ofBodies bodies main).stepBytes? set w).isSome = true ↔
      ∃ v, Matches (ofBodies bodies main) set (w ++ v) := by
  induction w generalizing set with
  | nil =>
    rw [stepBytes?]
    exact iff_of_true rfl alive
  | cons b w ih =>
    rw [stepBytes?]
    by_cases dead : ((ofBodies bodies main).step set b).isDead = true
    · rw [if_pos dead]
      apply iff_of_false Bool.false_ne_true
      intro h
      obtain ⟨v, matched⟩ := h
      have matched := (matches_step ranked b (w ++ v)).mpr matched
      rw [matched.isDead_eq_false] at dead
      cases dead
    · rw [if_neg dead]
      have lives := (isDead_closure ranked productive (inside.consume b)).mp (Bool.eq_false_iff.mpr dead)
      rw [ih (inside.step ranked b) lives]
      exact exists_congr fun v => matches_step ranked b (w ++ v)

theorem isSome_stepBytes?_initial (known : main < bodies.size) (w : List UInt8) :
    ((ofBodies bodies main).stepBytes? (ofBodies bodies main).initial w).isSome = true ↔
      ∃ v, w ++ v ∈ ruleLanguage bodies main := by
  obtain ⟨u, spelt⟩ := productive.rules main known
  rw [isSome_stepBytes?_iff ranked productive (insideSet_initial ranked)
    ⟨u, (matches_initial ranked u).mpr spelt⟩]
  exact exists_congr fun v => matches_initial ranked (w ++ v)

end

end

end Automaton

theorem Grammar.WellFormed.productive {grammar : Grammar} (formed : grammar.WellFormed)
    (rules : ∀ r < grammar.rules.size, ∃ w, w ∈ ruleLanguage (Grammar.bodies grammar.rules) r)
    (classes : ∀ rule ∈ grammar.rules, rule.body.Every Expr.ClassInhabited) :
    Automaton.Productive (Grammar.bodies grammar.rules) := by
  have size := Grammar.size_bodies grammar.rules
  refine ⟨fun r known => rules r (size ▸ known), ?_⟩
  intro body member
  obtain ⟨rule, among, rfl⟩ := Array.mem_map.mp member
  rw [size]
  exact (formed.below rule among).and (classes rule among)

/-- In a compiled grammar whose rules and classes all match something, bytes lead on from the initial
positions as long as they begin a text of the grammar. -/
theorem Grammar.isSome_stepBytes?_iff_prefix {text : String} {settings : GrammarSettings}
    {grammar : Grammar} (compiled : Grammar.compile text settings = .ok grammar)
    (rules : ∀ r < grammar.rules.size, ∃ w, w ∈ ruleLanguage (Grammar.bodies grammar.rules) r)
    (classes : ∀ rule ∈ grammar.rules, rule.body.Every Expr.ClassInhabited) (w : List UInt8) :
    (grammar.automaton.stepBytes? grammar.automaton.initial w).isSome = true ↔
      ∃ v, w ++ v ∈ grammar.language := by
  have formed := Grammar.wellFormed_of_compile compiled
  obtain ⟨rank, ranked⟩ := formed.exists_leftRanked
  have size := Grammar.size_bodies grammar.rules
  exact Automaton.isSome_stepBytes?_initial ranked (formed.productive rules classes) (size.symm ▸ formed.main) w

theorem Grammar.mem_ruleLanguage_letters : [97] ∈ ruleLanguage (Grammar.bodies letters.rules) 0 := by
  have found : ruleBody? (Grammar.bodies letters.rules) 0 =
      some (.choice [.sequence [.charClass false [⟨97, 99⟩]], .sequence [.literal [98], .rule 0]]) := by
    simp [ruleBody?, bodies, letters]
  have letter : [97] ∈ Expr.language (ruleLanguage (Grammar.bodies letters.rules))
      (.charClass false [⟨97, 99⟩]) := by
    exact (Expr.mem_language_charClass _ _ _).mpr ⟨'a', by simp [CodeRange.CoversSwapped], by decide⟩
  rw [ruleLanguage_eq found, Expr.language]
  refine (Expr.mem_languageAny _ _).mpr ⟨_, List.mem_cons_self, ?_⟩
  rw [Expr.language, Expr.languageAll, Expr.languageAll, mul_one]
  exact letter

theorem Grammar.isSome_stepBytes?_letters :
    Grammar.compile "root ::= [a-c] | \"b\" root" {} = .ok letters ∧
      ((letters.automaton.stepBytes? letters.automaton.initial [98, 98]).isSome = true ↔
        ∃ v, [98, 98] ++ v ∈ letters.language) := by
  refine ⟨compile_letters, isSome_stepBytes?_iff_prefix compile_letters (fun r known => ?_) (fun rule member => ?_) _⟩
  · obtain rfl : r = 0 := Nat.lt_one_iff.mp known
    exact ⟨_, mem_ruleLanguage_letters⟩
  · have letter : (Expr.charClass false [⟨97, 99⟩] : Expr RuleId).Every Expr.ClassInhabited :=
      .intro ⟨'a', by simp [CodeRange.CoversSwapped]⟩ (by simp [Expr.members])
    have literal : (Expr.literal [98] : Expr RuleId).Every Expr.ClassInhabited :=
      .intro trivial (by simp [Expr.members])
    have root : (Expr.rule 0).Every Expr.ClassInhabited := .intro trivial (by simp [Expr.members])
    obtain rfl := List.mem_singleton.mp (List.mem_toArray.mp member)
    refine .intro trivial (List.forall_mem_cons.mpr ⟨?_, List.forall_mem_cons.mpr ⟨?_, by simp⟩⟩)
    · exact .intro trivial (by simpa [Expr.members] using letter)
    · exact .intro trivial (by simpa [Expr.members] using ⟨literal, root⟩)

end GuidedDecoding
