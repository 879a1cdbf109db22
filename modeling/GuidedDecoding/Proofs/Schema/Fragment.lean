import Mathlib
import GuidedDecoding.Proofs.Grammar.Gaps
import GuidedDecoding.Schema.Fragment

namespace GuidedDecoding

namespace Fragment

@[elab_as_elim]
theorem structural {motive : Fragment → Prop}
    (literal : ∀ bytes, motive (.literal bytes))
    (charClass : ∀ inside, motive (.charClass inside))
    (rule : ∀ name, motive (.rule name))
    (repeated : ∀ body min max, motive body → motive (.repeated body min max))
    (group : ∀ alternatives, (∀ sequence ∈ alternatives, ∀ f ∈ sequence, motive f) → motive (.group alternatives))
    (f : Fragment) : motive f :=
  @Fragment.rec motive (fun alternatives => ∀ sequence ∈ alternatives, ∀ f ∈ sequence, motive f)
    (fun sequence => ∀ f ∈ sequence, motive f)
    literal charClass rule (fun body min max => repeated body min max) group (by simp)
    (fun sequence alternatives head tail => by simpa using ⟨head, tail⟩) (by simp)
    (fun f sequence head tail => by simpa using ⟨head, tail⟩) f

mutual

/-- The text with a margin inside all parentheses. -/
def spaced (margin : List Char) : Fragment → List Char
  | literal bytes => Printer.literal bytes
  | charClass inside => '[' :: inside.toList ++ [']']
  | rule name => name.toList
  | repeated body min max => body.spaced margin ++ Printer.quantifier min max
  | group alternatives =>
    Printer.parenthesized (margin ++ Printer.choice (spacedAlternatives margin alternatives) ++ margin)

def spacedSequence (margin : List Char) : List Fragment → List (List Char)
  | [] => []
  | piece :: rest => piece.spaced margin :: spacedSequence margin rest

def spacedAlternatives (margin : List Char) : List (List Fragment) → List (List Char)
  | [] => []
  | pieces :: rest => Printer.sequence (spacedSequence margin pieces) :: spacedAlternatives margin rest

end

mutual

theorem text_eq_spaced : ∀ f : Fragment, f.text = f.spaced []
  | literal _ => by rw [text, spaced]
  | charClass _ => by rw [text, spaced]
  | rule _ => by rw [text, spaced]
  | repeated body _ _ => by rw [text, spaced, text_eq_spaced body]
  | group alternatives => by
    rw [text, spaced, alternativeTexts_eq_spaced alternatives, List.nil_append, List.append_nil]

theorem sequenceTexts_eq_spaced : ∀ pieces : List Fragment, sequenceTexts pieces = spacedSequence [] pieces
  | [] => by rw [sequenceTexts, spacedSequence]
  | piece :: rest => by rw [sequenceTexts, spacedSequence, text_eq_spaced piece, sequenceTexts_eq_spaced rest]

theorem alternativeTexts_eq_spaced :
    ∀ alternatives : List (List Fragment), alternativeTexts alternatives = spacedAlternatives [] alternatives
  | [] => by rw [alternativeTexts, spacedAlternatives]
  | pieces :: rest => by
    rw [alternativeTexts, spacedAlternatives, sequenceTexts_eq_spaced pieces, alternativeTexts_eq_spaced rest]

end

/-- The class that is written with these characters in brackets. -/
def classExpr (inside : String) : Expr String :=
  match (Token.read '[' (inside.toList ++ [']'])).1 with
  | .charClass negated ranges => .charClass negated ranges
  | _ => .empty

mutual

def expr : Fragment → Expr String
  | literal bytes => .literal bytes
  | charClass inside => classExpr inside
  | rule name => .rule name
  | repeated body min max => .repetition body.expr min max
  | group alternatives => .single .choice (exprAlternatives alternatives)

def exprSequence : List Fragment → List (Expr String)
  | [] => []
  | piece :: rest => piece.expr :: exprSequence rest

def exprAlternatives : List (List Fragment) → List (Expr String)
  | [] => []
  | pieces :: rest => .single .sequence (exprSequence pieces) :: exprAlternatives rest

end

def isRepeated : Fragment → Bool
  | repeated _ _ _ => true
  | _ => false

/-- Literals are texts, names are names, and the characters between brackets are those of a class. -/
inductive Spelled : Fragment → Prop where
  | literal (content : List Char) : Spelled (ofText content)
  | charClass {inside : String} {negated : Bool} {ranges : List CodeRange}
    (read : ∀ rest, Token.read '[' (inside.toList ++ ']' :: rest) = (.charClass negated ranges, rest)) :
    Spelled (charClass inside)
  | rule {name : String} (isName : Token.IsName name) : Spelled (rule name)
  | repeated {body : Fragment} (min : Nat) (max : Option Nat) (spelled : Spelled body) :
    Spelled (repeated body min max)
  | group {alternatives : List (List Fragment)}
    (spelled : ∀ sequence ∈ alternatives, ∀ f ∈ sequence, Spelled f) : Spelled (group alternatives)

/-- There is something in all parentheses, and every quantifier stands where it can. -/
inductive Legible : Fragment → Prop where
  | literal (bytes : List UInt8) : Legible (literal bytes)
  | charClass (inside : String) : Legible (charClass inside)
  | rule (name : String) : Legible (rule name)
  | repeated {body : Fragment} {min : Nat} {max : Option Nat} (legible : Legible body)
    (bare : body.isRepeated = false) (bounds : Quantifiable min max) : Legible (repeated body min max)
  | group {alternatives : List (List Fragment)} (some : alternatives ≠ [])
    (inhabited : ∀ sequence ∈ alternatives, sequence ≠ [])
    (legible : ∀ sequence ∈ alternatives, ∀ f ∈ sequence, Legible f) : Legible (group alternatives)

@[simp] theorem spelled_ofText (content : List Char) : (ofText content).Spelled := .literal content

@[simp] theorem spelled_rule {name : String} : (rule name).Spelled ↔ Token.IsName name := by
  constructor
  · intro spelled
    cases spelled with
    | rule isName => exact isName
  · exact .rule

@[simp] theorem spelled_repeated {body : Fragment} {min : Nat} {max : Option Nat} :
    (repeated body min max).Spelled ↔ body.Spelled := by
  constructor
  · intro spelled
    cases spelled with
    | repeated _ _ spelled => exact spelled
  · exact .repeated min max

@[simp] theorem spelled_optional {body : Fragment} : (optional body).Spelled ↔ body.Spelled := spelled_repeated

@[simp] theorem spelled_many {body : Fragment} : (many body).Spelled ↔ body.Spelled := spelled_repeated

@[simp] theorem spelled_group {alternatives : List (List Fragment)} :
    (group alternatives).Spelled ↔ ∀ sequence ∈ alternatives, ∀ f ∈ sequence, f.Spelled := by
  constructor
  · intro spelled
    cases spelled with
    | group spelled => exact spelled
  · exact .group

@[simp] theorem legible_ofText (content : List Char) : (ofText content).Legible := .literal _

@[simp] theorem legible_charClass (inside : String) : (charClass inside).Legible := .charClass inside

@[simp] theorem legible_rule (name : String) : (rule name).Legible := .rule name

@[simp] theorem legible_repeated {body : Fragment} {min : Nat} {max : Option Nat} :
    (repeated body min max).Legible ↔ body.Legible ∧ body.isRepeated = false ∧ Quantifiable min max := by
  constructor
  · intro legible
    cases legible with
    | repeated legible bare bounds => exact ⟨legible, bare, bounds⟩
  · exact fun h => .repeated h.1 h.2.1 h.2.2

@[simp] theorem legible_group {alternatives : List (List Fragment)} :
    (group alternatives).Legible ↔
      alternatives ≠ [] ∧ ∀ sequence ∈ alternatives, sequence ≠ [] ∧ ∀ f ∈ sequence, f.Legible := by
  constructor
  · intro legible
    cases legible with
    | group some inhabited legible => exact ⟨some, fun a member => ⟨inhabited a member, legible a member⟩⟩
  · exact fun h => .group h.1 (fun a member => (h.2 a member).1) fun a member => (h.2 a member).2

theorem classExpr_eq {inside : String} {negated : Bool} {ranges : List CodeRange}
    (read : ∀ rest, Token.read '[' (inside.toList ++ ']' :: rest) = (.charClass negated ranges, rest)) :
    classExpr inside = .charClass negated ranges := by
  rw [classExpr, read []]

theorem exists_begins {f : Fragment} (spelled : f.Spelled) (margin : List Char) :
    ∃ c text, f.spaced margin = c :: text ∧ Token.Begins c := by
  induction spelled with
  | literal content => exact ⟨_, _, rfl, by decide⟩
  | charClass => exact ⟨_, _, rfl, by decide⟩
  | rule isName =>
    obtain ⟨c, part, written, start, _⟩ := isName
    exact ⟨c, part, written, Token.begins_of_isNameStart start⟩
  | repeated min max _ ih =>
    obtain ⟨c, text, written, begins⟩ := ih
    exact ⟨c, text ++ Printer.quantifier min max, by rw [spaced, written]; rfl, begins⟩
  | group => exact ⟨_, _, rfl, by decide⟩

end Fragment

namespace Body

def taking (body : Body) (f : Fragment) : Body :=
  { body with level := body.level.push f.expr, bare := !f.isRepeated }

theorem taking_all (body : Body) (pieces : List Fragment) :
    ∃ bare, pieces.foldl taking body =
      ⟨body.name, { body.level with items := (Fragment.exprSequence pieces).reverse ++ body.level.items },
        body.outer, bare⟩ := by
  induction pieces generalizing body with
  | nil => exact ⟨body.bare, rfl⟩
  | cons f pieces ih =>
    obtain ⟨bare, same⟩ := ih (body.taking f)
    refine ⟨bare, ?_⟩
    rw [List.foldl_cons, same, Fragment.exprSequence, List.reverse_cons, List.append_assoc]
    rfl

end Body

namespace Fragment

theorem exprSequence_eq_nil {pieces : List Fragment} : exprSequence pieces = [] ↔ pieces = [] := by
  cases pieces <;> simp [exprSequence]

def ReadsAsMeant (margin : List Char) (definitions : List Definition) (f : Fragment) : Prop :=
  ∀ (done : List Definition) (body : Body) (rest : List Char), Token.Ends rest →
    (Definition.Reads definitions done body (f.spaced margin ++ rest) ↔
      f.Legible ∧ Definition.Reads definitions done (body.taking f) rest)

theorem sequence_cons_cons (margin : List Char) (f g : Fragment) (pieces : List Fragment) :
    Printer.sequence (spacedSequence margin (f :: g :: pieces)) =
      f.spaced margin ++ ' ' :: Printer.sequence (spacedSequence margin (g :: pieces)) := by
  simp only [spacedSequence, Printer.sequence, List.intercalate_cons_cons, List.append_assoc, List.singleton_append]

theorem ends_of_sequence (margin : List Char) {f : Fragment} (spelled : f.Spelled) (pieces : List Fragment)
    (rest : List Char) :
    Token.Ends (' ' :: (Printer.sequence (spacedSequence margin (f :: pieces)) ++ rest)) := by
  obtain ⟨c, text, written, begins⟩ := exists_begins spelled margin
  obtain ⟨more, begun⟩ : ∃ more, Printer.sequence (spacedSequence margin (f :: pieces)) = c :: more := by
    cases pieces with
    | nil =>
      rw [spacedSequence, spacedSequence, Printer.sequence, List.intercalate_singleton, written]
      exact ⟨text, rfl⟩
    | cons g pieces =>
      rw [sequence_cons_cons, written]
      exact ⟨_, rfl⟩
  rw [begun]
  exact Token.ends_of_space (by decide) (Token.next_of_begins begins (more ++ rest))

section

variable {margin : List Char} {definitions : List Definition} {rest : List Char}

theorem reads_sequence (done : List Definition) {pieces : List Fragment} (spelled : ∀ f ∈ pieces, f.Spelled)
    (each : ∀ f ∈ pieces, f.ReadsAsMeant margin definitions) (ends : Token.Ends rest) (body : Body) :
    Definition.Reads definitions done body (Printer.sequence (spacedSequence margin pieces) ++ rest) ↔
      (∀ f ∈ pieces, f.Legible) ∧ Definition.Reads definitions done (pieces.foldl Body.taking body) rest := by
  induction pieces generalizing body with
  | nil => simp [spacedSequence, Printer.sequence, List.intercalate]
  | cons f pieces ih =>
    have first := each f (by simp)
    have others := ih (fun m member => spelled m (by simp [member])) fun m member => each m (by simp [member])
    cases pieces with
    | nil =>
      simp only [spacedSequence, Printer.sequence, List.intercalate_singleton, first done body rest ends,
        List.foldl_cons, List.foldl_nil, List.mem_singleton, forall_eq]
    | cons g pieces =>
      have gap := ends_of_sequence margin (spelled g (by simp)) pieces rest
      rw [sequence_cons_cons, List.append_assoc, List.cons_append, first done body _ gap, Definition.reads_space, others]
      simp only [List.forall_mem_cons, List.foldl_cons, and_assoc]

theorem choice_cons_cons (margin : List Char) (one other : List Fragment) (alternatives : List (List Fragment)) :
    Printer.choice (spacedAlternatives margin (one :: other :: alternatives)) =
      Printer.sequence (spacedSequence margin one) ++
        ' ' :: '|' :: ' ' :: Printer.choice (spacedAlternatives margin (other :: alternatives)) := by
  simp only [spacedAlternatives, Printer.choice, List.intercalate_cons_cons, List.append_assoc, List.cons_append,
    List.nil_append]

/-- Alternatives are read up to what closes them, which needs something behind the last bar. -/
theorem reads_choice (done : List Definition) {alternatives : List (List Fragment)}
    (spelled : ∀ sequence ∈ alternatives, ∀ f ∈ sequence, f.Spelled)
    (each : ∀ sequence ∈ alternatives, ∀ f ∈ sequence, f.ReadsAsMeant margin definitions)
    (ends : Token.Ends rest) (body : Body) (fresh : body.level.items = []) (closed : Expr String → Prop)
    (closer : ∀ level bare, Definition.Reads definitions done ⟨body.name, level, body.outer, bare⟩ rest ↔
      level.items ≠ [] ∧ closed level.close) :
    Definition.Reads definitions done body (Printer.choice (spacedAlternatives margin alternatives) ++ rest) ↔
      (alternatives ≠ [] ∧ ∀ sequence ∈ alternatives, sequence ≠ [] ∧ ∀ f ∈ sequence, f.Legible) ∧
        closed (.single .choice (body.level.alternatives.reverse ++ exprAlternatives alternatives)) := by
  induction alternatives generalizing body with
  | nil =>
    have nothing := closer body.level body.bare
    simp [spacedAlternatives, Printer.choice, List.intercalate, nothing, fresh]
  | cons one alternatives ih =>
    obtain ⟨bare, taken⟩ := body.taking_all one
    rw [fresh, List.append_nil] at taken
    have readable {rest : List Char} (ends : Token.Ends rest) :=
      reads_sequence done (spelled one (by simp)) (each one (by simp)) ends body
    rw [taken] at readable
    have some : (exprSequence one).reverse ≠ [] ↔ one ≠ [] := by
      rw [ne_eq, List.reverse_eq_nil_iff, exprSequence_eq_nil]
    cases alternatives with
    | nil =>
      rw [spacedAlternatives, spacedAlternatives, Printer.choice, List.intercalate_singleton, readable ends, closer,
        some, Level.close, Level.sequence, List.reverse_reverse, List.reverse_cons, exprAlternatives,
        exprAlternatives, List.forall_mem_singleton]
      simp only [ne_eq, List.cons_ne_nil, not_false_eq_true, true_and, and_left_comm, and_assoc]
    | cons other alternatives =>
      have bar : Token.Ends (' ' :: '|' :: ' ' :: (Printer.choice
          (spacedAlternatives margin (other :: alternatives)) ++ rest)) :=
        Token.ends_of_space (by decide) (Token.next_of_begins (by decide) _)
      rw [choice_cons_cons, List.append_assoc]
      simp only [List.cons_append]
      let level : Level := ⟨body.level.alternatives, (exprSequence one).reverse, body.level.lacking⟩
      have others := ih (fun a member => spelled a (by simp [member])) (fun a member => each a (by simp [member]))
        (Body.nextAlternative ⟨body.name, level, body.outer, bare⟩) rfl closer
      have expression : level.nextAlternative.alternatives.reverse ++ exprAlternatives (other :: alternatives) =
          body.level.alternatives.reverse ++ exprAlternatives (one :: other :: alternatives) := by
        rw [Level.nextAlternative, Level.sequence, List.reverse_cons, List.reverse_reverse, List.append_assoc]
        rfl
      rw [readable bar, Definition.reads_space, Definition.reads_bar, Definition.reads_space, some, ← expression,
        List.forall_mem_cons]
      refine (and_congr_right fun _ => and_congr_right fun _ => others).trans ?_
      simp only [ne_eq, List.cons_ne_nil, not_false_eq_true, true_and, and_left_comm, and_assoc]
      rfl

end

theorem Spelled.reads {margin : List Char} (blank : ∀ c ∈ margin, Token.isBlank c = true)
    {definitions : List Definition} {f : Fragment} (spelled : f.Spelled) : f.ReadsAsMeant margin definitions := by
  induction spelled with
  | literal content =>
    intro done body rest ends
    rw [ofText, spaced, Definition.reads_literal]
    exact (and_iff_right (.literal _)).symm
  | @charClass inside negated ranges read =>
    intro done body rest ends
    rw [spaced, List.append_assoc, List.singleton_append, Definition.reads_charClass (read rest), Body.taking,
      expr, classExpr_eq read]
    exact (and_iff_right (.charClass _)).symm
  | rule isName =>
    intro done body rest ends
    rw [spaced, Definition.reads_name isName ends]
    exact (and_iff_right (.rule _)).symm
  | @repeated inner min max spelled ih =>
    intro done body rest ends
    have quantifier : Token.Ends (Printer.quantifier min max ++ rest) := by
      obtain ⟨c, text, written, here⟩ := Token.exists_quantifierAt (Spelling.spells_quantifier min max) rest
      rw [written]
      exact Token.ends_of_begins here.begins here.part text
    rw [spaced, List.append_assoc, ih done body _ quantifier,
      Definition.reads_quantifier (Spelling.spells_quantifier min max), ← and_assoc]
    simp only [legible_repeated, Body.taking, Bool.not_eq_true']
    rfl
  | @group alternatives spelled ih =>
    intro done body rest ends
    have closing : Token.Ends (margin ++ ')' :: rest) :=
      Token.ends_of_gap (.blanks blank) (fun _ => Token.isNamePart_head (by decide) rest)
        (Token.next_of_begins (by decide) rest)
    have written : (Fragment.group alternatives).spaced margin ++ rest =
        '(' :: (margin ++ (Printer.choice (spacedAlternatives margin alternatives) ++ (margin ++ ')' :: rest))) := by
      simp [spaced, Printer.parenthesized]
    have closer (level : Level) (bare : Bool) : Definition.Reads definitions done
        ⟨body.name, level, body.opened.outer, bare⟩ (margin ++ ')' :: rest) ↔
          level.items ≠ [] ∧ Definition.Reads definitions done (body.push level.close) rest := by
      rw [Definition.reads_blanks blank, Definition.reads_closing rfl]
      rfl
    have choice := reads_choice done spelled ih closing body.opened rfl
      (fun e => Definition.Reads definitions done (body.push e) rest) closer
    rw [written, Definition.reads_opening, Definition.reads_blanks blank, choice, legible_group]
    rfl

end Fragment

namespace FragmentRule

def spaced (margin : List Char) (rule : FragmentRule) : List Char :=
  Printer.definition rule.name (Printer.choice (Fragment.spacedAlternatives margin rule.alternatives))

theorem text_eq_spaced (rule : FragmentRule) : rule.text = rule.spaced [] := by
  rw [text, spaced, Fragment.alternativeTexts_eq_spaced]

def definition (rule : FragmentRule) : Definition :=
  ⟨rule.name, .single .choice (Fragment.exprAlternatives rule.alternatives)⟩

structure Spelled (rule : FragmentRule) : Prop where
  name : Token.IsName rule.name
  body : ∀ sequence ∈ rule.alternatives, ∀ f ∈ sequence, f.Spelled

structure Legible (rule : FragmentRule) : Prop where
  some : rule.alternatives ≠ []
  inhabited : ∀ sequence ∈ rule.alternatives, sequence ≠ []
  legible : ∀ sequence ∈ rule.alternatives, ∀ f ∈ sequence, f.Legible

end FragmentRule

namespace Definition

theorem ends_of_rules (margin : List Char) {rules : List FragmentRule} (spelled : ∀ r ∈ rules, r.Spelled) :
    Token.Ends ('\n' :: rules.flatMap (FragmentRule.spaced margin)) := by
  apply Token.ends_of_space (by decide)
  cases rules with
  | nil => simp [Token.scanFrom]
  | cons rule rules =>
    obtain ⟨c, part, written, start, _⟩ := (spelled rule (by simp)).name
    rw [List.flatMap_cons, FragmentRule.spaced, Printer.definition, written]
    exact Token.next_of_begins (Token.begins_of_isNameStart start) _

theorem spaced_append (margin : List Char) (rule : FragmentRule) (text : List Char) :
    rule.spaced margin ++ text = rule.name.toList ++ ' ' :: ':' :: ':' :: '=' :: ' ' ::
      (Printer.choice (Fragment.spacedAlternatives margin rule.alternatives) ++ '\n' :: text) := by
  simp [FragmentRule.spaced, Printer.definition]

section

variable {margin : List Char} (blank : ∀ c ∈ margin, Token.isBlank c = true) {definitions : List Definition}
include blank

theorem reads_rule (done : List Definition) {rule : FragmentRule} (spelled : rule.Spelled) {rest : List Char}
    (ends : Token.Ends rest) (closed : Expr String → Prop)
    (closer : ∀ level bare, Reads definitions done ⟨rule.name, level, [], bare⟩ rest ↔
      level.items ≠ [] ∧ closed level.close) :
    Reads definitions done (.start rule.name)
        (Printer.choice (Fragment.spacedAlternatives margin rule.alternatives) ++ rest) ↔
      rule.Legible ∧ closed rule.definition.body := by
  have each : ∀ a ∈ rule.alternatives, ∀ f ∈ a, f.ReadsAsMeant margin definitions :=
    fun a among f member => (spelled.body a among f member).reads blank
  rw [Fragment.reads_choice done spelled.body each ends (.start rule.name) rfl closed closer]
  apply and_congr_left
  intro _
  constructor
  · exact fun h => ⟨h.1, fun a member => (h.2 a member).1, fun a member => (h.2 a member).2⟩
  · exact fun h => ⟨h.some, fun a member => ⟨h.inhabited a member, h.legible a member⟩⟩

theorem reads_rules (done : List Definition) (rule : FragmentRule) {rules : List FragmentRule}
    (spelled : ∀ r ∈ rule :: rules, r.Spelled) :
    Reads definitions done (.start rule.name)
        (Printer.choice (Fragment.spacedAlternatives margin rule.alternatives) ++
          '\n' :: rules.flatMap (FragmentRule.spaced margin)) ↔
      (∀ r ∈ rule :: rules, r.Legible) ∧
        done.reverse ++ (rule :: rules).map FragmentRule.definition = definitions := by
  have first := spelled rule (by simp)
  have others : ∀ r ∈ rules, r.Spelled := fun r member => spelled r (by simp [member])
  have ends := ends_of_rules margin others
  induction rules generalizing done rule with
  | nil =>
    rw [List.flatMap_nil] at ends ⊢
    rw [reads_rule blank done first ends (fun e => (⟨rule.name, e⟩ :: done).reverse = definitions)
      fun level bare => reads_end rfl (.gap Token.gap_lineEnd), List.forall_mem_singleton, List.reverse_cons]
    rfl
  | cons next rules ih =>
    have following := others next (by simp)
    have left : ∀ r ∈ rules, r.Spelled := fun r member => others r (by simp [member])
    rw [List.flatMap_cons, spaced_append] at ends ⊢
    refine (reads_rule blank done first ends
      (fun e => Reads definitions (⟨rule.name, e⟩ :: done) (.start next.name)
        (Printer.choice (Fragment.spacedAlternatives margin next.alternatives) ++
          '\n' :: rules.flatMap (FragmentRule.spaced margin)))
      fun level bare => (reads_next rfl Token.gap_lineEnd following.name Token.gap_space _).trans
        (and_congr_right fun _ => reads_space _)).trans ?_
    have later := ih (rule.definition :: done) next others following left (ends_of_rules margin left)
    refine (and_congr_right fun _ => later).trans ?_
    rw [← and_assoc, ← List.forall_mem_cons, List.reverse_cons, List.append_assoc, List.singleton_append]
    rfl

end

/-- The text of rules is read as their definitions, unless something in it cannot be read. -/
theorem read_rules {gap margin : List Char}
    (lead : ∀ c ∈ gap, (Token.isBlank c || Token.isLineEnd c) = true)
    (blank : ∀ c ∈ margin, Token.isBlank c = true) {rules : List FragmentRule} (inhabited : rules ≠ [])
    (spelled : ∀ r ∈ rules, r.Spelled) {definitions : List Definition} :
    Definition.read (gap ++ rules.flatMap (FragmentRule.spaced margin)) = .ok definitions ↔
      (∀ r ∈ rules, r.Legible) ∧ rules.map FragmentRule.definition = definitions := by
  obtain ⟨rule, rules, rfl⟩ := List.exists_cons_of_ne_nil inhabited
  have head := @read_iff_reads definitions gap [' '] (.spaces lead) rule.name (spelled rule (by simp)).name
    Token.gap_space
  rw [List.flatMap_cons, spaced_append]
  refine (head _).trans ?_
  rw [reads_space, reads_rules blank [] rule spelled, List.reverse_nil, List.nil_append]
  refine and_iff_right_of_imp fun h => ?_
  rw [← h.2]
  simp

theorem read_texts {rules : List FragmentRule} (inhabited : rules ≠ []) (spelled : ∀ r ∈ rules, r.Spelled)
    {definitions : List Definition} : Definition.read (rules.flatMap FragmentRule.text) = .ok definitions ↔
      (∀ r ∈ rules, r.Legible) ∧ rules.map FragmentRule.definition = definitions := by
  have texts : FragmentRule.text = FragmentRule.spaced [] := funext FragmentRule.text_eq_spaced
  rw [texts]
  exact read_rules (List.forall_mem_nil _) (List.forall_mem_nil _) inhabited spelled

end Definition

end GuidedDecoding
