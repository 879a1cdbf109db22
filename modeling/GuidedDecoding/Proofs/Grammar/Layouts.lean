import Mathlib
import GuidedDecoding.Proofs.Grammar.Dialect
import GuidedDecoding.Proofs.Grammar.Gaps

namespace GuidedDecoding

open Spelling
open Token (Gap Ending IsName)

/-- What a piece of a body says: an item in one piece, the items of an alternative, or alternatives. -/
inductive Phrase where
  | atom (e : Expr String)
  | items (es : List (Expr String))
  | alternatives (es : List (Expr String))

/-- The texts of a phrase. Whatever consists of several parts is in parentheses where it is part of something else, and
whatever is repeated is in one piece. -/
inductive Renders : Phrase → List Char → Prop where
  | literal {quote : Char} {content inside : List Char} (known : quote = '"' ∨ quote = '\'')
    (spelled : SpellsLiteral quote content inside) :
    Renders (.atom (.literal (Utf8.encode content))) (quote :: (inside ++ [quote]))
  | charClass (negated : Bool) {ranges : List CodeRange} {inside : List Char} (inhabited : ranges ≠ [])
    (spelled : SpellsRanges ranges inside) :
    Renders (.atom (.charClass negated ranges)) ('[' :: ((if negated then ['^'] else []) ++ inside ++ [']']))
  | rule {name : String} (isName : IsName name) : Renders (.atom (.rule name)) name.toList
  | group {es : List (Expr String)} {left text right : List Char} (lead : Gap left)
    (inside : Renders (.alternatives es) text) (trail : Gap right) :
    Renders (.atom (.single .choice es)) ('(' :: (left ++ (text ++ (right ++ [')']))))
  | item {e : Expr String} {text : List Char} (atom : Renders (.atom e) text) : Renders (.items [e]) text
  | repetition {e : Expr String} {text margin sign : List Char} {min : Nat} {max : Option Nat}
    (atom : Renders (.atom e) text) (blank : ∀ c ∈ margin, Token.isBlank c = true)
    (spelled : SpellsQuantifier min max sign) : Renders (.items [.repetition e min max]) (text ++ (margin ++ sign))
  | sequence {some others : List (Expr String)} {text gap more : List Char} (first : Renders (.items some) text)
    (between : Gap gap) (apart : gap ≠ []) (rest : Renders (.items others) more) :
    Renders (.items (some ++ others)) (text ++ (gap ++ more))
  | alternative {es : List (Expr String)} {text : List Char} (items : Renders (.items es) text) :
    Renders (.alternatives [.single .sequence es]) text
  | choice {some others : List (Expr String)} {text left right more : List Char}
    (first : Renders (.alternatives some) text) (before : Gap left) (behind : Gap right)
    (rest : Renders (.alternatives others) more) :
    Renders (.alternatives (some ++ others)) (text ++ (left ++ '|' :: (right ++ more)))

inductive RendersRule : Definition → List Char → Prop where
  | intro {name : String} {es : List (Expr String)} {before behind text : List Char} (isName : IsName name)
    (between : Gap before) (lead : Gap behind) (body : Renders (.alternatives es) text) :
    RendersRule ⟨name, .single .choice es⟩ (name.toList ++ (before ++ ':' :: ':' :: '=' :: (behind ++ text)))

inductive RendersRules : List Definition → List Char → Prop where
  | nil {ending : List Char} (here : Ending ending) : RendersRules [] ending
  | last {d : Definition} {text ending : List Char} (rule : RendersRule d text) (here : Ending ending) :
    RendersRules [d] (text ++ ending)
  | cons {d next : Definition} {ds : List Definition} {text gap more : List Char} (rule : RendersRule d text)
    (between : Gap gap) (apart : gap ≠ []) (rest : RendersRules (next :: ds) more) :
    RendersRules (d :: next :: ds) (text ++ (gap ++ more))

/-- The texts that say what the definitions are. -/
def Rendered (definitions : List Definition) (text : List Char) : Prop :=
  ∃ lead rules, Gap lead ∧ RendersRules definitions rules ∧ text = lead ++ rules

namespace Renders

theorem exists_free {phrase : Phrase} {text : List Char} (renders : Renders phrase text) :
    ∃ c more, text = c :: more ∧ Token.Free c := by
  induction renders with
  | literal known =>
    rcases known with rfl | rfl <;> exact ⟨_, _, rfl, by decide⟩
  | charClass | group => exact ⟨_, _, rfl, by decide⟩
  | rule isName =>
    obtain ⟨c, part, written, start, _⟩ := isName
    exact ⟨c, part, written, Token.free_of_isNameStart start⟩
  | item _ ih | alternative _ ih => exact ih
  | repetition _ _ _ ih | sequence _ _ _ _ ih | choice _ _ _ _ ih =>
    obtain ⟨c, more, written, free⟩ := ih
    exact ⟨c, more ++ _, by rw [written]; rfl, free⟩

end Renders

namespace Expr

def Counted : Expr String → Prop
  | repetition _ min max => Quantifiable min max
  | _ => True

abbrev AllCounted (e : Expr String) : Prop := e.Every Counted

theorem allCounted_repetition {e : Expr String} {min : Nat} {max : Option Nat} :
    (Expr.repetition e min max).AllCounted ↔ Quantifiable min max ∧ e.AllCounted :=
  every_iff.trans (and_congr_right' List.forall_mem_singleton)

theorem allCounted_single (many : List (Expr String) → Expr String) {es : List (Expr String)}
    (members : (many es).members = es) (here : (many es).Counted) :
    (Expr.single many es).AllCounted ↔ ∀ e ∈ es, e.AllCounted := by
  have several : (many es).AllCounted ↔ ∀ e ∈ es, e.AllCounted := by
    rw [AllCounted, every_iff, and_iff_right here, members]
  match es with
  | [e] => exact List.forall_mem_singleton.symm
  | [] | _ :: _ :: _ => exact several

theorem allCounted_of_allStandard {e : Expr String} (standard : e.AllStandard) : e.AllCounted := by
  refine standard.imp fun e here => ?_
  cases e with
  | repetition body min max => exact here
  | _ => trivial

end Expr

namespace Phrase

def Counted : Phrase → Prop
  | atom e => e.AllCounted
  | items es | alternatives es => ∀ e ∈ es, e.AllCounted

section

variable {e : Expr String} {es some others : List (Expr String)}

theorem counted_group : (atom (.single .choice es)).Counted ↔ (alternatives es).Counted :=
  Expr.allCounted_single .choice rfl trivial

theorem counted_item : (items [e]).Counted ↔ (atom e).Counted := List.forall_mem_singleton

theorem counted_repetition {min : Nat} {max : Option Nat} :
    (items [.repetition e min max]).Counted ↔ Quantifiable min max ∧ (atom e).Counted :=
  counted_item.trans Expr.allCounted_repetition

theorem counted_sequence : (items (some ++ others)).Counted ↔ (items some).Counted ∧ (items others).Counted :=
  List.forall_mem_append

theorem counted_alternative : (alternatives [.single .sequence es]).Counted ↔ (items es).Counted :=
  List.forall_mem_singleton.trans (Expr.allCounted_single .sequence rfl trivial)

theorem counted_choice :
    (alternatives (some ++ others)).Counted ↔ (alternatives some).Counted ∧ (alternatives others).Counted :=
  List.forall_mem_append

end

open Definition (Reads)

/-- The text is read as what the phrase says, behind which reading goes on, if all repetitions can be read. -/
def Readable (definitions : List Definition) : Phrase → List Char → Prop
  | atom e, text => ∀ done body rest, Token.Ends rest →
      (Reads definitions done body (text ++ rest) ↔ (atom e).Counted ∧ Reads definitions done (body.push e) rest)
  | items es, text => es ≠ [] ∧ ∃ bare, ∀ done (body : Body) rest, Token.Ends rest →
      (Reads definitions done body (text ++ rest) ↔ (items es).Counted ∧ Reads definitions done
        { body with level := { body.level with items := es.reverse ++ body.level.items }, bare := bare } rest)
  -- The last alternative is still open behind the text: what closes it is part of the rest.
  | alternatives es, text => ∀ body : Body, body.level.items = [] → ∃ level bare, level.items ≠ [] ∧
      (level.sequence :: level.alternatives).reverse = body.level.alternatives.reverse ++ es ∧
      ∀ done rest, Token.Ends rest → (Reads definitions done body (text ++ rest) ↔
        (alternatives es).Counted ∧ Reads definitions done { body with level := level, bare := bare } rest)

end Phrase

namespace Definition

section

variable {definitions : List Definition}

theorem ends_of_renders {phrase : Phrase} {text : List Char} (renders : Renders phrase text) {gap : List Char}
    (here : Gap gap) (apart : gap ≠ []) (rest : List Char) : Token.Ends (gap ++ (text ++ rest)) := by
  obtain ⟨c, more, rfl, free⟩ := renders.exists_free
  exact Token.ends_of_gap here (fun none => absurd none apart) (Token.next_of_begins free.toBegins (more ++ rest))

theorem reads_gap_renders {phrase : Phrase} {text : List Char} (renders : Renders phrase text) {gap : List Char}
    (here : Gap gap) {done : List Definition} {body : Body} {rest : List Char} :
    Reads definitions done body (gap ++ (text ++ rest)) ↔ Reads definitions done body (text ++ rest) := by
  obtain ⟨c, more, rfl, free⟩ := renders.exists_free
  exact reads_gap here free (more ++ rest)

theorem close_eq {level : Level} {es : List (Expr String)}
    (finished : (level.sequence :: level.alternatives).reverse = es) : level.close = .single .choice es := by
  rw [Level.close, finished]

theorem free_closing : Token.Free ')' := by decide

theorem free_bar : Token.Free '|' := by decide

section

variable {es some others : List (Expr String)} {text more left right : List Char}

theorem readable_group (lead : Gap left) (inside : Renders (.alternatives es) text) (trail : Gap right)
    (readable : (Phrase.alternatives es).Readable definitions text) :
    (Phrase.atom (.single .choice es)).Readable definitions ('(' :: (left ++ (text ++ (right ++ [')'])))) := by
  intro done body rest ends
  obtain ⟨level, bare, some, finished, read⟩ := readable body.opened rfl
  have closing : Token.Ends (right ++ ')' :: rest) :=
    Token.ends_of_gap trail (fun _ => Token.isNamePart_head (by decide) rest)
      (Token.next_of_begins free_closing.toBegins rest)
  have written : '(' :: (left ++ (text ++ (right ++ [')']))) ++ rest =
      '(' :: (left ++ (text ++ (right ++ ')' :: rest))) := by simp
  have closed : level.close = .single .choice es := close_eq finished
  rw [written, reads_opening, reads_gap_renders inside lead, read done _ closing, reads_gap trail free_closing,
    reads_closing rfl, and_iff_right some, closed, Phrase.counted_group]
  rfl

theorem readable_repetition {e : Expr String} {margin sign : List Char} {min : Nat} {max : Option Nat}
    (blank : ∀ c ∈ margin, Token.isBlank c = true) (spelled : SpellsQuantifier min max sign)
    (readable : (Phrase.atom e).Readable definitions text) :
    (Phrase.items [.repetition e min max]).Readable definitions (text ++ (margin ++ sign)) := by
  refine ⟨by simp, false, fun done body rest ends => ?_⟩
  have quantifier : Token.Ends (margin ++ (sign ++ rest)) := by
    obtain ⟨c, more, written, here⟩ := Token.exists_quantifierAt spelled rest
    rw [written]
    exact Token.ends_of_gap (.blanks blank) (fun _ => Token.isNamePart_head here.part more)
      (Token.next_of_begins here.begins more)
  have bare : (body.push e).bare = true := rfl
  rw [List.append_assoc, List.append_assoc, readable done body _ quantifier, reads_blanks blank,
    reads_quantifier spelled, and_iff_right bare, Phrase.counted_repetition, and_assoc]
  exact and_left_comm

theorem readable_sequence {gap : List Char} (between : Gap gap) (apart : gap ≠ []) (rest : Renders (.items others) more)
    (first : (Phrase.items some).Readable definitions text) (second : (Phrase.items others).Readable definitions more) :
    (Phrase.items (some ++ others)).Readable definitions (text ++ (gap ++ more)) := by
  obtain ⟨inhabited, _, readFirst⟩ := first
  obtain ⟨_, bare, readSecond⟩ := second
  refine ⟨List.append_ne_nil_of_left_ne_nil inhabited _, bare, fun done body behind ends => ?_⟩
  rw [List.append_assoc, List.append_assoc, readFirst done body _ (ends_of_renders rest between apart behind),
    reads_gap_renders rest between, readSecond done _ behind ends, Phrase.counted_sequence, and_assoc,
    List.reverse_append, List.append_assoc]

theorem readable_alternative (readable : (Phrase.items es).Readable definitions text) :
    (Phrase.alternatives [.single .sequence es]).Readable definitions text := by
  obtain ⟨inhabited, bare, readable⟩ := readable
  intro body fresh
  refine ⟨{ body.level with items := es.reverse ++ body.level.items }, bare, ?_, ?_, fun done rest ends => ?_⟩
  · simpa [fresh] using inhabited
  · simp [Level.sequence, fresh]
  · rw [readable done body rest ends, Phrase.counted_alternative]

theorem readable_choice (before : Gap left) (behind : Gap right) (rest : Renders (.alternatives others) more)
    (first : (Phrase.alternatives some).Readable definitions text)
    (second : (Phrase.alternatives others).Readable definitions more) :
    (Phrase.alternatives (some ++ others)).Readable definitions (text ++ (left ++ '|' :: (right ++ more))) := by
  intro body fresh
  obtain ⟨level, bare, some, finished, readFirst⟩ := first body fresh
  obtain ⟨last, bare', inhabited, complete, readSecond⟩ :=
    second (Body.nextAlternative { body with level := level, bare := bare }) rfl
  refine ⟨last, bare', inhabited, ?_, fun done after ends => ?_⟩
  · rw [complete]
    change (level.sequence :: level.alternatives).reverse ++ others = _
    rw [finished, List.append_assoc]
  · have bar : Token.Ends (left ++ '|' :: (right ++ (more ++ after))) :=
      Token.ends_of_gap before (fun _ => Token.isNamePart_head (by decide) _) (Token.next_of_begins free_bar.toBegins _)
    have written : text ++ (left ++ '|' :: (right ++ more)) ++ after =
        text ++ (left ++ '|' :: (right ++ (more ++ after))) := by simp
    rw [written, readFirst done _ bar, reads_gap before free_bar, reads_bar, and_iff_right some,
      reads_gap_renders rest behind, readSecond done _ ends, Phrase.counted_choice, and_assoc]
    rfl

end

theorem readable_of_renders {phrase : Phrase} {text : List Char} (renders : Renders phrase text) :
    phrase.Readable definitions text := by
  induction renders with
  | literal known spelled =>
    intro done body rest ends
    rw [List.cons_append, List.append_assoc, List.singleton_append, reads_spelledLiteral known spelled]
    exact (and_iff_right (.leaf trivial rfl)).symm
  | charClass negated inhabited spelled =>
    intro done body rest ends
    have found := Token.read_spelledClass negated inhabited spelled rest
    rw [List.cons_append, List.append_assoc, List.singleton_append, ← List.cons_append, reads_charClass found]
    exact (and_iff_right (.leaf trivial rfl)).symm
  | rule isName =>
    intro done body rest ends
    rw [reads_name isName ends]
    exact (and_iff_right (.leaf trivial rfl)).symm
  | group lead inside trail ih => exact readable_group lead inside trail ih
  | item _ ih =>
    refine ⟨by simp, true, fun done body rest ends => ?_⟩
    rw [ih done body rest ends, Phrase.counted_item]
    rfl
  | repetition _ blank spelled ih => exact readable_repetition blank spelled ih
  | sequence _ between apart rest first second => exact readable_sequence between apart rest first second
  | alternative _ ih => exact readable_alternative ih
  | choice _ before behind rest first second => exact readable_choice before behind rest first second

end

section

variable {name : String} {es : List (Expr String)} {before behind text rest : List Char}

theorem rule_append : name.toList ++ (before ++ ':' :: ':' :: '=' :: (behind ++ text)) ++ rest =
    name.toList ++ (before ++ ':' :: ':' :: '=' :: (behind ++ (text ++ rest))) := by simp

theorem reads_body (definitions : List Definition) (lead : Gap behind) (body : Renders (.alternatives es) text) :
    ∃ level bare, level.items ≠ [] ∧ level.close = .single .choice es ∧ ∀ done rest, Token.Ends rest →
      (Reads definitions done (.start name) (behind ++ (text ++ rest)) ↔
        (Expr.single .choice es).AllCounted ∧ Reads definitions done ⟨name, level, [], bare⟩ rest) := by
  have readable : (Phrase.alternatives es).Readable definitions text := readable_of_renders body
  obtain ⟨level, bare, some, finished, read⟩ := readable (.start name) rfl
  refine ⟨level, bare, some, close_eq finished, fun done rest ends => ?_⟩
  rw [reads_gap_renders body lead, read done rest ends, ← Phrase.counted_group]
  rfl

end

/-- Behind the head of the first definition, the definitions are read whatever was read before. -/
theorem exists_reads {written : List Definition} {text : List Char} (renders : RendersRules written text)
    (inhabited : written ≠ []) :
    ∃ name before inner, IsName name ∧ Gap before ∧ text = name.toList ++ (before ++ ':' :: ':' :: '=' :: inner) ∧
      ∀ definitions done, Reads definitions done (.start name) inner ↔
        (∀ d ∈ written, d.body.AllCounted) ∧ done.reverse ++ written = definitions := by
  induction renders with
  | nil => exact absurd rfl inhabited
  | last rule here =>
    obtain ⟨isName, between, lead, body⟩ := rule
    refine ⟨_, _, _, isName, between, rule_append, fun definitions done => ?_⟩
    obtain ⟨level, bare, some, closed, read⟩ := reads_body definitions lead body
    rw [read done _ (Token.ends_of_ending here), reads_end rfl here, closed, and_iff_right some, List.reverse_cons,
      List.forall_mem_singleton]
  | @cons _ next ds _ gap more rule between apart _ ih =>
    obtain @⟨name, es, _, _, _, isName, before, lead, body⟩ := rule
    obtain ⟨following, front, inner, isName', before', rfl, others⟩ := ih (by simp)
    refine ⟨_, _, _, isName, before, rule_append, fun definitions done => ?_⟩
    obtain ⟨level, bare, some, closed, read⟩ := reads_body definitions lead body
    have ends : Token.Ends (gap ++ (following.toList ++ (front ++ ':' :: ':' :: '=' :: inner))) := by
      obtain ⟨c, part, spelled, start, _⟩ := isName'
      rw [spelled]
      exact Token.ends_of_gap between (fun none => absurd none apart)
        (Token.next_of_begins (Token.begins_of_isNameStart start) _)
    -- The definition at hand is one of those that were read before the others.
    have all : (∀ d ∈ ⟨name, .single .choice es⟩ :: next :: ds, d.body.AllCounted) ↔
        (Expr.single .choice es).AllCounted ∧ ∀ d ∈ next :: ds, d.body.AllCounted := List.forall_mem_cons
    rw [read done _ ends, reads_next rfl between isName' before', closed, and_iff_right some, others,
      List.reverse_cons, List.append_assoc, List.singleton_append, all, and_assoc]

theorem read_gap_ending {lead ending : List Char} (gap : Gap lead) (here : Ending ending)
    (definitions : List Definition) : Definition.read (lead ++ ending) ≠ .ok definitions := by
  obtain ⟨attached, skipped⟩ := Token.exists_scanFrom_gap gap true ending
  rw [ne_eq, read_eq_ok, skipped, Token.scanFrom_ending here]
  rintro ⟨inhabited, read⟩
  exact inhabited (Except.ok.inj read).symm

/-- A text that says what the definitions are is read as nothing else, and it is refused if there are none or if the
bounds of a repetition cannot be written. -/
theorem read_eq_ok_iff_of_rendered {written definitions : List Definition} {text : List Char}
    (rendered : Rendered written text) : Definition.read text = .ok definitions ↔
      written ≠ [] ∧ (∀ d ∈ written, d.body.AllCounted) ∧ written = definitions := by
  obtain ⟨lead, rules, gap, renders, rfl⟩ := rendered
  by_cases inhabited : written = []
  · subst inhabited
    cases renders with
    | nil here => exact iff_of_false (read_gap_ending gap here definitions) fun found => found.1 rfl
  · obtain ⟨name, before, inner, isName, between, rfl, reads⟩ := exists_reads renders inhabited
    rw [read_iff_reads gap isName between inner, reads, List.reverse_nil, List.nil_append, and_iff_right inhabited]
    refine and_iff_right_of_imp ?_
    rintro ⟨_, rfl⟩
    exact inhabited

end Definition

namespace Renders

section

variable {es : List (Expr String)}

theorem exists_items (inhabited : es ≠ []) (each : ∀ e ∈ es, ∃ text, Renders (.atom e) text) :
    ∃ text, Renders (.items es) text := by
  induction es with
  | nil => exact absurd rfl inhabited
  | cons e rest ih =>
    obtain ⟨text, first⟩ := each e (by simp)
    cases rest with
    | nil => exact ⟨text, .item first⟩
    | cons other rest =>
      obtain ⟨more, others⟩ := ih (by simp) fun m member => each m (by simp [member])
      exact ⟨_, .sequence (.item first) Token.gap_space (by simp) others⟩

theorem exists_alternatives (inhabited : es ≠ []) (each : ∀ e ∈ es, ∃ text, Renders (.atom e) text) :
    ∃ text, Renders (.alternatives es) text := by
  induction es with
  | nil => exact absurd rfl inhabited
  | cons e rest ih =>
    obtain ⟨text, first⟩ := each e (by simp)
    have first : Renders (.alternatives [e]) text := .alternative (.item first)
    cases rest with
    | nil => exact ⟨text, first⟩
    | cons other rest =>
      obtain ⟨more, others⟩ := ih (by simp) fun m member => each m (by simp [member])
      exact ⟨_, .choice first Token.gap_space Token.gap_space others⟩

end

theorem single_of_length {many : List (Expr String) → Expr String} {es : List (Expr String)} (several : 2 ≤ es.length) :
    Expr.single many es = many es := by
  match es with
  | _ :: _ :: _ => rfl

theorem exists_atom {e : Expr String} (standard : e.AllStandard) : ∃ text, Renders (.atom e) text := by
  induction e using Expr.structural with
  | empty => exact absurd standard.here id
  | literal bytes =>
    obtain ⟨text, rfl⟩ := standard.here
    exact ⟨_, .literal (.inl rfl) (Escape.spells_bytes text)⟩
  | charClass negated ranges =>
    obtain ⟨inhabited, bounded⟩ := standard.here
    exact ⟨_, .charClass negated inhabited (Escape.spells_ranges bounded)⟩
  | rule name => exact ⟨_, .rule standard.here⟩
  | sequence items ih =>
    have several : 2 ≤ items.length := standard.here
    obtain ⟨text, inside⟩ := exists_items (List.ne_nil_of_length_pos (Nat.lt_of_succ_lt several))
      fun e member => ih e member (standard.inside e member)
    have grouped := Renders.group .nil (.alternative inside) .nil
    rw [single_of_length several] at grouped
    exact ⟨_, grouped⟩
  | choice alternatives ih =>
    have several : 2 ≤ alternatives.length := standard.here
    obtain ⟨text, inside⟩ := exists_alternatives (List.ne_nil_of_length_pos (Nat.lt_of_succ_lt several))
      fun e member => ih e member (standard.inside e member)
    have grouped := Renders.group .nil inside .nil
    rw [single_of_length several] at grouped
    exact ⟨_, grouped⟩
  | repetition body min max ih =>
    obtain ⟨text, inside⟩ := ih standard.body
    have blank : ∀ c ∈ [], Token.isBlank c = true := by simp
    exact ⟨_, .group .nil (.alternative (.repetition inside blank (spells_quantifier min max))) .nil⟩

end Renders

namespace Definition

theorem exists_rendered {definitions : List Definition} (standard : ∀ d ∈ definitions, d.Standard) :
    ∃ text, Rendered definitions text := by
  have rule {d : Definition} (standard : d.Standard) : ∃ text, RendersRule d text := by
    obtain ⟨text, body⟩ := Renders.exists_atom standard.body
    exact ⟨_, .intro standard.name .nil .nil (.alternative (.item body))⟩
  have rules : ∃ text, RendersRules definitions text := by
    induction definitions with
    | nil => exact ⟨_, .nil (.gap .nil)⟩
    | cons d rest ih =>
      obtain ⟨first, here⟩ := rule (standard d (by simp))
      cases rest with
      | nil => exact ⟨_, .last here (.gap .nil)⟩
      | cons next rest =>
        obtain ⟨more, others⟩ := ih fun d member => standard d (by simp [member])
        exact ⟨_, .cons here Token.gap_lineEnd (by simp) others⟩
  obtain ⟨text, renders⟩ := rules
  exact ⟨text, [], text, .nil, renders, rfl⟩

/-- Definitions can be laid out as text, and in whatever way this is done, they are read back. Where there are none, or a
repetition has bounds that cannot be written, every layout is refused. -/
theorem read_rendered {definitions : List Definition} :
    (definitions ≠ [] → (∀ d ∈ definitions, d.Standard) →
      (∃ text, Rendered definitions text) ∧
        ∀ text, Rendered definitions text → Definition.read text = .ok definitions) ∧
    ∀ text, Rendered definitions text → definitions = [] ∨ (∃ d ∈ definitions, ¬d.body.AllCounted) →
      ∃ fault, Definition.read text = .error fault := by
  refine ⟨fun inhabited standard => ⟨exists_rendered standard, fun text rendered => ?_⟩, fun text rendered lacking => ?_⟩
  · have counted : ∀ d ∈ definitions, d.body.AllCounted := fun d member =>
      Expr.allCounted_of_allStandard (standard d member).body
    exact (read_eq_ok_iff_of_rendered rendered).mpr ⟨inhabited, counted, rfl⟩
  · cases result : Definition.read text with
    | error fault => exact ⟨fault, rfl⟩
    | ok found =>
      obtain ⟨inhabited, counted, _⟩ := (read_eq_ok_iff_of_rendered rendered).mp result
      rcases lacking with none | ⟨d, member, uncounted⟩
      · exact absurd none inhabited
      · exact absurd (counted d member) uncounted

def commented : List Definition :=
  [⟨"root", .choice [.literal [97], .repetition (.rule "b") 2 (some 3)]⟩, ⟨"b", .literal [98]⟩]

def unbounded : List Definition := [⟨"root", .repetition (.literal [97]) 65537 none⟩]

theorem rendered_unbounded : Rendered unbounded "root ::= \"a\"\x7b65537,\x7d".toList := by
  have blank : ∀ c ∈ [], Token.isBlank c = true := by simp
  have ordinary : 'a' ∉ inLiteral '"' := by decide
  have body : Renders (.alternatives [.repetition (.literal [97]) 65537 none])
      ['"', 'a', '"', '\x7b', '6', '5', '5', '3', '7', ',', '\x7d'] :=
    .alternative (.repetition (.literal (.inl rfl) (.cons (.plain ordinary) .nil)) blank (.atLeast 65537))
  have rules : RendersRules unbounded "root ::= \"a\"\x7b65537,\x7d".toList :=
    .last (.intro (by decide) Token.gap_space Token.gap_space body) (.gap .nil)
  exact ⟨[], _, .nil, rules, rfl⟩

theorem uncounted_unbounded : ∃ d ∈ unbounded, ¬d.body.AllCounted := by
  refine ⟨⟨"root", .repetition (.literal [97]) 65537 none⟩, List.mem_singleton_self _, fun counted => ?_⟩
  exact absurd (Expr.allCounted_repetition.mp counted).1 (by decide)

theorem read_rendered_commented :
    Rendered commented "root ::= 'a' # first\n | b\x7b2,3\x7d\nb ::= \"\\x62\"".toList ∧
      Definition.read "root ::= 'a' # first\n | b\x7b2,3\x7d\nb ::= \"\\x62\"".toList = .ok commented ∧
      ∃ fault, Definition.read "root ::= \"a\"\x7b65537,\x7d".toList = .error fault := by
  have b : IsName "b" := by decide
  have bounds : Quantifiable 2 (some 3) := by decide
  have blank : ∀ c ∈ [], Token.isBlank c = true := by simp
  have comment : Gap [' ', '#', ' ', 'f', 'i', 'r', 's', 't', '\n', ' '] :=
    .space rfl (@Gap.comment [' ', 'f', 'i', 'r', 's', 't'] _ (by simp [Token.isLineEnd]) (.inl ⟨_, rfl⟩)
      (.space rfl Token.gap_space))
  have quoted {quote : Char} (known : quote = '"' ∨ quote = '\'') (c : Char) {inside : List Char}
      (spelled : Spells (inLiteral quote) c.toNat inside) :
      Renders (.alternatives [.literal (Utf8.encode [c])]) (quote :: (inside ++ [] ++ [quote])) :=
    .alternative (.item (.literal known (.cons spelled .nil)))
  have first : Renders (.alternatives [.literal [97]]) ['\'', 'a', '\''] :=
    quoted (.inr rfl) 'a' (.plain (by decide))
  have second : Renders (.alternatives [.repetition (.rule "b") 2 (some 3)]) ['b', '\x7b', '2', ',', '3', '\x7d'] :=
    .alternative (.repetition (.rule b) blank (.between 2 3))
  have third : Renders (.alternatives [.literal [98]]) ['"', '\\', 'x', '6', '2', '"'] :=
    quoted (.inl rfl) 'b' (.escaped (@Escapes.digits 'x' 2 98 ['6', '2'] (by decide) (by decide) rfl))
  have rules : RendersRules commented "root ::= 'a' # first\n | b\x7b2,3\x7d\nb ::= \"\\x62\"".toList :=
    .cons (.intro (by decide) Token.gap_space Token.gap_space (.choice first comment Token.gap_space second))
      Token.gap_lineEnd (by simp) (.last (.intro b Token.gap_space Token.gap_space third) (.gap .nil))
  have counted : (Expr.repetition (.rule "b") 2 (some 3)).AllStandard := .repetition bounds (.leaf b rfl)
  have root : (Expr.choice [.literal [97], .repetition (.rule "b") 2 (some 3)]).AllStandard :=
    .intro (le_refl 2) (by simpa [Expr.members] using ⟨.leaf ⟨['a'], rfl⟩ rfl, counted⟩)
  have standard : ∀ d ∈ commented, d.Standard := by
    simpa [commented] using ⟨⟨by decide, root⟩, ⟨b, .leaf ⟨['b'], rfl⟩ rfl⟩⟩
  have rendered : Rendered commented _ := ⟨[], _, .nil, rules, rfl⟩
  exact ⟨rendered, (read_rendered.1 (by simp [commented]) standard).2 _ rendered,
    read_rendered.2 _ rendered_unbounded (.inr uncounted_unbounded)⟩

theorem unread_unbounded :
    (Rendered unbounded "root ::= \"a\"\x7b65537,\x7d".toList ∧
      Definition.read "root ::= \"a\"\x7b65537,\x7d".toList ≠ .ok unbounded) ∧
    Rendered [] [] ∧ Definition.read [] ≠ .ok [] := by
  obtain ⟨d, member, uncounted⟩ := uncounted_unbounded
  have none : Rendered [] [] := ⟨[], [], .nil, .nil (.gap .nil), rfl⟩
  refine ⟨⟨rendered_unbounded, fun read => ?_⟩, none, fun read => ?_⟩
  · exact uncounted (((read_eq_ok_iff_of_rendered rendered_unbounded).mp read).2.1 d member)
  · exact ((read_eq_ok_iff_of_rendered none).mp read).1 rfl

end Definition

end GuidedDecoding
