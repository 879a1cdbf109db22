import Mathlib
import GuidedDecoding.Proofs.Grammar.Extension

namespace GuidedDecoding

namespace Token

theorem comment?_eq_none {words rest : List Char} (plain : ∀ c ∈ words, isLineEnd c = false)
    (next : rest.head? ≠ some '\n') : comment? (words ++ '\r' :: rest) = none := by
  have all : ∀ c ∈ words, (!isLineEnd c) = true := fun c member => by rw [plain c member]; rfl
  rw [comment?, dropWhile_stop all (by simp; decide)]
  split
  next same =>
    cases same
    exact absurd rfl next
  next => rfl
  next other => exact absurd rfl (other rest)

theorem line_cases {words : List Char} (line : '\n' ∉ words) :
    (∀ c ∈ words, isLineEnd c = false) ∨
      ∃ plain rest, (∀ c ∈ plain, isLineEnd c = false) ∧ plain ++ '\r' :: rest = words := by
  induction words with
  | nil => exact .inl (by simp)
  | cons c words ih =>
    rw [List.mem_cons, not_or] at line
    cases lineEnd : isLineEnd c with
    | true =>
      rw [isLineEnd, Bool.or_eq_true, beq_iff_eq, beq_iff_eq] at lineEnd
      obtain rfl := lineEnd.resolve_left (Ne.symm line.1)
      exact .inr ⟨[], words, by simp, rfl⟩
    | false =>
      rcases ih line.2 with plain | ⟨plain, rest, each, rfl⟩
      · exact .inl (List.forall_mem_cons.mpr ⟨lineEnd, plain⟩)
      · exact .inr ⟨c :: plain, rest, List.forall_mem_cons.mpr ⟨lineEnd, each⟩, rfl⟩

theorem carriage_not_mem {words : List Char} (plain : ∀ c ∈ words, isLineEnd c = false) : '\r' ∉ words :=
  fun member => absurd (plain _ member) (by decide)

/-- The comment in front of a line end is left out, unless there is a carriage return in it that does not belong to
the line end. -/
theorem scanFrom_line (attached : Bool) {words : List Char} (line : '\n' ∉ words) (text : List Char) :
    scanFrom attached ('#' :: (words ++ '\n' :: text)) =
      if '\r' ∈ words.dropLast then [⟨.stray, '#' :: (words ++ '\n' :: text), [], attached⟩] else scanFrom false text := by
  rcases line_cases line with plain | ⟨plain, rest, each, rfl⟩
  · have skipped : scanFrom attached ('#' :: (words ++ '\n' :: text)) = scanFrom false ('\n' :: text) :=
      scanFrom_comment attached plain (.inr (.inl ⟨text, rfl⟩))
    rw [if_neg fun member => carriage_not_mem plain (List.mem_of_mem_dropLast member), skipped,
      scanFrom_lineEnd (by decide)]
  · rw [List.append_assoc, List.cons_append]
    cases rest with
    | nil =>
      have skipped : scanFrom attached ('#' :: (plain ++ '\r' :: '\n' :: text)) = scanFrom false ('\r' :: '\n' :: text) :=
        scanFrom_comment attached each (.inr (.inr ⟨text, rfl⟩))
      rw [List.dropLast_concat, if_neg (carriage_not_mem each), List.nil_append, skipped,
        scanFrom_lineEnd (by decide), scanFrom_lineEnd (by decide)]
    | cons d rest =>
      have inside : d ≠ '\n' := fun same => line (by simp [same])
      rw [if_pos (by simp), scanFrom_hash, comment?_eq_none each (by simpa using inside)]

theorem scanFrom_lastLine (attached : Bool) {words : List Char} (line : '\n' ∉ words) :
    scanFrom attached ('#' :: words) = if '\r' ∈ words then [⟨.stray, '#' :: words, [], attached⟩] else [] := by
  rcases line_cases line with plain | ⟨plain, rest, each, rfl⟩
  · have ends := scanFrom_comment attached plain (.inl rfl)
    rw [List.append_nil] at ends
    rw [if_neg (carriage_not_mem plain), ends, scanFrom]
  · have inside : rest.head? ≠ some '\n' := fun first => line (by simp [List.mem_of_mem_head? first])
    rw [if_pos (by simp), scanFrom_hash, comment?_eq_none each inside]

end Token

theorem Body.sound_of_step {body after : Body} {token : Token} (stepped : body.step token = .ok after) :
    token.lexeme.Sound := by
  cases lexeme : token.lexeme with
  | brokenAtom | brokenQuantifier | stray =>
    rw [Body.step, lexeme] at stepped
    cases stepped
  | _ => trivial

theorem Body.step_alike {body after : Body} {token other : Token} (alike : token.Alike other)
    (stepped : body.step token = .ok after) : body.step other = .ok after := by
  obtain @⟨lexeme⟩ := alike
  revert stepped
  unfold step
  cases lexeme with
  | closing | quantifier =>
    dsimp only
    split
    · exact id
    · exact nofun
  | bar =>
    dsimp only
    split
    · exact nofun
    · exact id
  | brokenQuantifier | defines | semicolon | stray => exact nofun
  | _ => exact id

theorem Body.finish_alike {body : Body} {rest : List Char} {definition : Definition}
    (finished : body.finish rest = .ok definition) (other : List Char) : body.finish other = .ok definition := by
  revert finished
  unfold finish
  split
  · exact nofun
  · exact id
  · exact nofun

theorem Body.step_stray {body : Body} {rest : List Char} {definition : Definition}
    (finished : body.finish rest = .ok definition) (start after : List Char) (attached : Bool) :
    body.step ⟨.stray, start, after, attached⟩ = .error ⟨.expectedRule, start⟩ := by
  rw [step, misplaced, finish_alike finished]

namespace Definition

theorem sound_of_tokensFrom {done : List Definition} {reading : Option Body} {tokens : List Token}
    {definitions : List Definition} (read : ofTokensFrom done reading tokens = .ok definitions) :
    ∀ token ∈ tokens, token.lexeme.Sound := by
  fun_induction ofTokensFrom done reading tokens with
  | case1 | case2 => simp
  | case4 | case5 | case6 | case8 | case10 | case11 | case13 => cases read
  | case3 done token text start after attached rest named ih =>
    have first : token.lexeme.Sound := by rw [named]; trivial
    exact List.forall_mem_cons.mpr ⟨first, List.forall_mem_cons.mpr ⟨trivial, ih read⟩⟩
  | case7 done body token text start after attached rest named definition finished ih =>
    have first : token.lexeme.Sound := by rw [named]; trivial
    exact List.forall_mem_cons.mpr ⟨first, List.forall_mem_cons.mpr ⟨trivial, ih read⟩⟩
  | case9 done body token rest ends definition finished _ ih =>
    have first : token.lexeme.Sound := by rw [ends]; trivial
    exact List.forall_mem_cons.mpr ⟨first, ih read⟩
  | case12 done body token rest after stepped _ _ ih =>
    exact List.forall_mem_cons.mpr ⟨Body.sound_of_step stepped, ih read⟩

section

variable {done : List Definition} {body : Body} {definition : Definition} {rest : List Char}
  (finished : body.finish rest = .ok definition)
include finished

theorem ofTokensFrom_head {name : String} {start after start' after' : List Char} {attached attached' : Bool}
    {tokens : List Token} :
    ofTokensFrom done (some body) (⟨.name name, start, after, attached⟩ :: ⟨.defines, start', after', attached'⟩ :: tokens) =
      ofTokensFrom (definition :: done) (some (.start name)) tokens := by
  conv_lhs => unfold ofTokensFrom
  simp only [Body.finish_alike finished]

theorem ofTokensFrom_semicolon {attached : Bool} (tight : attached = true) {start after : List Char}
    {tokens : List Token} :
    ofTokensFrom done (some body) (⟨.semicolon, start, after, attached⟩ :: tokens) =
      ofTokensFrom (definition :: done) none tokens := by
  conv_lhs => unfold ofTokensFrom
  simp only [Body.finish_alike finished, if_pos tight]

end

/-- Definitions are read alike from tokens that are alike. If something follows that is no token, it is found to be out
of place. -/
theorem ofTokensFrom_alike {done : List Definition} {reading : Option Body} {tokens others : List Token}
    {definitions : List Definition} (read : ofTokensFrom done reading tokens = .ok definitions)
    (alike : List.Forall₂ Token.Alike tokens others) :
    ofTokensFrom done reading others = .ok definitions ∧
      ∀ start after attached, ofTokensFrom done reading (others ++ [⟨.stray, start, after, attached⟩]) =
        .error ⟨.expectedRule, start⟩ := by
  fun_induction ofTokensFrom done reading tokens generalizing others with
  | case1 done =>
    cases alike
    exact ⟨by rw [ofTokensFrom]; exact read, fun _ _ _ => by simp [ofTokensFrom]⟩
  | case2 done body =>
    cases alike
    refine ⟨by rw [ofTokensFrom]; exact read, fun start after attached => ?_⟩
    cases finished : body.finish [] with
    | error fault =>
      rw [finished] at read
      cases read
    | ok last =>
      rw [List.nil_append, ofTokensFrom_inner (by simp) (by simp), Body.step_stray finished]
  | case4 | case5 | case6 | case8 | case10 | case11 | case13 => cases read
  | case3 done token text start after attached rest named ih =>
    obtain _ | ⟨@⟨lexeme⟩, _ | ⟨⟨⟩, alike⟩⟩ := alike
    obtain rfl : lexeme = .name text := named
    obtain ⟨same, strays⟩ := ih read alike
    exact ⟨by rw [ofTokensFrom_first]; exact same, fun start after attached => by
      rw [List.cons_append, List.cons_append, ofTokensFrom_first]
      exact strays start after attached⟩
  | case7 done body token text start after attached rest named definition finished ih =>
    obtain _ | ⟨@⟨lexeme⟩, _ | ⟨⟨⟩, alike⟩⟩ := alike
    obtain rfl : lexeme = .name text := named
    obtain ⟨same, strays⟩ := ih read alike
    exact ⟨by rw [ofTokensFrom_head finished]; exact same, fun start after attached => by
      rw [List.cons_append, List.cons_append, ofTokensFrom_head finished]
      exact strays start after attached⟩
  | case9 done body token rest ends definition finished tight ih =>
    obtain _ | ⟨@⟨lexeme⟩, alike⟩ := alike
    obtain rfl : lexeme = .semicolon := ends
    obtain ⟨same, strays⟩ := ih read alike
    exact ⟨by rw [ofTokensFrom_semicolon finished tight]; exact same, fun start after attached => by
      rw [List.cons_append, ofTokensFrom_semicolon finished tight]
      exact strays start after attached⟩
  | case12 done body token rest after stepped head ends ih =>
    obtain _ | @⟨_, token', _, others, first, alike⟩ := alike
    have stepped := Body.step_alike first stepped
    have loose (more : List Token) (bare : ∀ t ∈ more.head?, t.lexeme ≠ .defines) (name : String)
        (named : token'.lexeme = .name name) : ∀ t ∈ (others ++ more).head?, t.lexeme ≠ .defines := by
      cases alike with
      | nil => exact bare
      | cons next _ =>
        intro t member defines
        obtain rfl := Option.some.inj member
        obtain @⟨lexeme⟩ := first
        obtain @⟨lexeme'⟩ := next
        obtain rfl : lexeme' = .defines := defines
        exact head _ _ _ _ _ named rfl
    have other : token'.lexeme ≠ .semicolon := by
      obtain @⟨lexeme⟩ := first
      exact ends
    obtain ⟨same, strays⟩ := ih read alike
    have bare := loose [] (by simp)
    rw [List.append_nil] at bare
    exact ⟨by rw [ofTokensFrom_inner other bare, stepped]; exact same, fun start after attached => by
      rw [List.cons_append, ofTokensFrom_inner other (loose _ (by simp)), stepped]
      exact strays start after attached⟩

theorem ofTokensFrom_scanFrom (done : List Definition) (attached attached' : Bool) (text : List Char) :
    ofTokensFrom done none (Token.scanFrom attached text) = ofTokensFrom done none (Token.scanFrom attached' text) := by
  have first (lexeme : Lexeme) (start after : List Char) (attached : Bool) (tokens : List Token) :
      ofTokensFrom done none (⟨lexeme, start, after, attached⟩ :: tokens) =
        ofTokensFrom done none (⟨lexeme, start, after, attached'⟩ :: tokens) := by
    unfold ofTokensFrom
    cases lexeme <;> rfl
  fun_induction Token.scanFrom attached text with
  | case1 => rw [Token.scanFrom]
  | case2 attached c rest blank ih => rw [ih, Token.scanFrom, if_pos blank]
  | case3 attached c rest blank lineEnd => rw [Token.scanFrom, if_neg blank, if_pos lineEnd]
  | case4 attached rest after found => rw [Token.scanFrom_hash, found]
  | case5 attached rest none => rw [Token.scanFrom_hash, none, first]
  | case6 attached c rest blank lineEnd comment lexeme after found =>
    have visible : Token.Visible c := ⟨Bool.eq_false_iff.mpr blank, Bool.eq_false_iff.mpr lineEnd, comment⟩
    rw [Token.scanFrom_visible visible, found, first]

theorem read_eq_error {text : List Char} {fault : SyntaxFault}
    (failed : ofTokensFrom [] none (Token.scanFrom true text) = .error fault) : read text = .error fault := by
  rw [read, Token.scan, failed]

section

variable {text : List Char} {definitions : List Definition} (accepted : read text = .ok definitions)
include accepted

/-- Lines behind a text in which nothing stands change nothing, and what is no token is found in them. -/
theorem read_extends {more longer : List Char} (extended : Extends more text longer) :
    (Token.scanFrom false more = [] → read longer = .ok definitions) ∧
      ∀ start after attached, Token.scanFrom false more = [⟨.stray, start, after, attached⟩] →
        read longer = .error ⟨.expectedRule, start⟩ := by
  obtain ⟨inhabited, result⟩ := read_eq_ok.mp accepted
  obtain ⟨tokens, alike, scanned⟩ := Token.exists_scanFrom_extends extended true (sound_of_tokensFrom result)
  obtain ⟨same, strays⟩ := ofTokensFrom_alike result alike
  constructor
  · intro nothing
    rw [nothing, List.append_nil] at scanned
    exact read_eq_ok.mpr ⟨inhabited, scanned ▸ same⟩
  · intro start after attached found
    rw [found] at scanned
    exact read_eq_error (scanned ▸ strays start after attached)

/-- A line of comment in front of a text or behind it changes nothing, and the last line of a text need not be ended.
The text is refused where the comment begins if there is a carriage return in the comment, unless the line ends
with it and a line feed. -/
theorem read_comment_line {words : List Char} (line : '\n' ∉ words) :
    read ('#' :: (words ++ '\n' :: text)) =
        (if '\r' ∈ words.dropLast then .error ⟨.expectedRule, '#' :: (words ++ '\n' :: text)⟩ else .ok definitions) ∧
      ∀ lineEnd, lineEnd = ['\n'] ∨ lineEnd = [] ∧ ['\n'] <:+ text →
        read (text ++ lineEnd ++ '#' :: (words ++ ['\n'])) =
            (if '\r' ∈ words.dropLast then .error ⟨.expectedRule, '#' :: (words ++ ['\n'])⟩ else .ok definitions) ∧
          read (text ++ lineEnd ++ '#' :: words) =
            (if '\r' ∈ words then .error ⟨.expectedRule, '#' :: words⟩ else .ok definitions) := by
  obtain ⟨inhabited, result⟩ := read_eq_ok.mp accepted
  constructor
  · have scanned := Token.scanFrom_line true line text
    split_ifs at scanned ⊢ with carriage
    · refine read_eq_error ?_
      rw [scanned]
      rfl
    · refine read_eq_ok.mpr ⟨inhabited, ?_⟩
      rw [scanned, ofTokensFrom_scanFrom [] false true]
      exact result
  · intro lineEnd own
    have extended (more : List Char) : Extends more text (text ++ lineEnd ++ more) := by
      rcases own with rfl | ⟨rfl, before, rfl⟩
      · rw [List.append_assoc]
        exact .append text more
      · rw [List.append_nil, List.append_assoc]
        exact .append_line before more
    constructor
    · obtain ⟨same, strays⟩ := read_extends accepted (extended ('#' :: (words ++ ['\n'])))
      have scanned := Token.scanFrom_line false line []
      split_ifs at scanned ⊢ with carriage
      · exact strays _ _ _ scanned
      · exact same (by rw [scanned, Token.scanFrom])
    · obtain ⟨same, strays⟩ := read_extends accepted (extended ('#' :: words))
      have scanned := Token.scanFrom_lastLine false line
      split_ifs at scanned ⊢ with carriage
      · exact strays _ _ _ scanned
      · exact same scanned

end

def hashes : List Definition :=
  [⟨"root", .choice [.sequence [.literal [97, 35], .rule "b"], .charClass false [⟨35, 35⟩]]⟩, ⟨"b", .literal [99]⟩]

theorem read_comment_line_hashes :
    let text := "root ::= \"a#\" b # one\r\n | [#]\nb ::= 'c';".toList ++ ['\n']
    let words := " (\"\t#\r".toList
    read text = .ok hashes ∧ '\n' ∉ words ∧
      read ('#' :: (words ++ '\n' :: text)) = .ok hashes ∧ read (text ++ [] ++ '#' :: (words ++ ['\n'])) = .ok hashes ∧
      read (text ++ [] ++ '#' :: words) = .error ⟨.expectedRule, '#' :: words⟩ := by
  have accepted : read ("root ::= \"a#\" b # one\r\n | [#]\nb ::= 'c';".toList ++ ['\n']) = .ok hashes := by cbv
  have line : '\n' ∉ " (\"\t#\r".toList := by decide
  obtain ⟨before, behind⟩ := read_comment_line accepted line
  obtain ⟨ended, last⟩ := behind [] (.inr ⟨rfl, List.suffix_append _ _⟩)
  rw [if_neg (by decide)] at before ended
  rw [if_pos (by decide)] at last
  exact ⟨accepted, line, before, ended, last⟩

/-- The comment goes on behind the carriage return, but the text is refused. -/
theorem refused_comment_line :
    read "root ::= \"a\"".toList = .ok [⟨"root", .literal [97]⟩] ∧ '\n' ∉ "x\ry".toList ∧
      read ('#' :: ("x\ry".toList ++ '\n' :: "root ::= \"a\"".toList)) =
        .error ⟨.expectedRule, "#x\ry\nroot ::= \"a\"".toList⟩ ∧
      read ("root ::= \"a\"".toList ++ ['\n'] ++ '#' :: ("x\ry".toList ++ ['\n'])) =
        .error ⟨.expectedRule, "#x\ry\n".toList⟩ := by
  refine ⟨by cbv, by decide, by cbv, by cbv⟩

end Definition

end GuidedDecoding
