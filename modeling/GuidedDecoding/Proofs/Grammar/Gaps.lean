import Mathlib
import GuidedDecoding.Proofs.Grammar.Reading

namespace GuidedDecoding

namespace Token

inductive Gap : List Char → Prop where
  | nil : Gap []
  | space {c : Char} {gap : List Char} (space : (isBlank c || isLineEnd c) = true) (rest : Gap gap) : Gap (c :: gap)
  | comment {words gap : List Char} (plain : ∀ c ∈ words, isLineEnd c = false)
    (line : ['\n'] <+: gap ∨ ['\r', '\n'] <+: gap) (rest : Gap gap) : Gap ('#' :: (words ++ gap))

/-- What may stand behind the last token: a gap, and perhaps a comment that ends with the text. -/
inductive Ending : List Char → Prop where
  | gap {gap : List Char} (here : Gap gap) : Ending gap
  | comment {gap words : List Char} (before : Gap gap) (plain : ∀ c ∈ words, isLineEnd c = false) :
    Ending (gap ++ '#' :: words)

theorem Gap.spaces {gap : List Char} (each : ∀ c ∈ gap, (isBlank c || isLineEnd c) = true) : Gap gap := by
  induction gap with
  | nil => exact .nil
  | cons c gap ih => exact .space (each c (by simp)) (ih fun d member => each d (by simp [member]))

theorem Gap.blanks {gap : List Char} (each : ∀ c ∈ gap, isBlank c = true) : Gap gap :=
  .spaces fun c member => by rw [each c member, Bool.true_or]

theorem gap_space : Gap [' '] := .space (by decide) .nil

theorem gap_lineEnd : Gap ['\n'] := .space (by decide) .nil

theorem comment?_eq_some {words rest : List Char} (plain : ∀ c ∈ words, isLineEnd c = false)
    (line : rest = [] ∨ ['\n'] <+: rest ∨ ['\r', '\n'] <+: rest) : comment? (words ++ rest) = some rest := by
  have all : ∀ c ∈ words, (!isLineEnd c) = true := fun c member => by rw [plain c member]; rfl
  have stop : ∀ c ∈ rest.head?, (!isLineEnd c) = false := by
    rcases line with rfl | ⟨more, rfl⟩ | ⟨more, rfl⟩ <;> simp <;> decide
  rw [comment?, dropWhile_stop all stop]
  rcases line with rfl | ⟨more, rfl⟩ | ⟨more, rfl⟩ <;> rfl

theorem scanFrom_hash (attached : Bool) (text : List Char) :
    scanFrom attached ('#' :: text) =
      match comment? text with
      | some after => scanFrom false after
      | none => [⟨.stray, '#' :: text, [], attached⟩] := by
  rw [scanFrom, if_neg (by decide), if_neg (by decide), if_pos rfl]
  split
  next found => simp only [found]
  next none => simp only [none]

theorem scanFrom_comment (attached : Bool) {words rest : List Char} (plain : ∀ c ∈ words, isLineEnd c = false)
    (line : rest = [] ∨ ['\n'] <+: rest ∨ ['\r', '\n'] <+: rest) :
    scanFrom attached ('#' :: (words ++ rest)) = scanFrom false rest := by
  rw [scanFrom_hash, comment?_eq_some plain line]

theorem exists_scanFrom_gap {gap : List Char} (here : Gap gap) (attached : Bool) (text : List Char) :
    ∃ attached', scanFrom attached (gap ++ text) = scanFrom attached' text := by
  induction here generalizing attached with
  | nil => exact ⟨attached, rfl⟩
  | @space c gap space _ ih =>
    rw [List.cons_append, scanFrom]
    by_cases blank : isBlank c = true
    · rw [if_pos blank]
      exact ih attached
    · have lineEnd : isLineEnd c = true := by simpa [blank] using space
      rw [if_neg blank, if_pos lineEnd]
      exact ih false
  | comment plain line _ ih =>
    have further : ['\n'] <+: _ ++ text ∨ ['\r', '\n'] <+: _ ++ text :=
      line.imp (·.trans (List.prefix_append _ _)) (·.trans (List.prefix_append _ _))
    rw [List.cons_append, List.append_assoc, scanFrom_comment attached plain (.inr further)]
    exact ih false

theorem scanFrom_ending {ending : List Char} (here : Ending ending) (attached : Bool) :
    scanFrom attached ending = [] := by
  cases here with
  | gap here =>
    obtain ⟨attached', skipped⟩ := exists_scanFrom_gap here attached []
    rw [← List.append_nil ending, skipped, scanFrom]
  | @comment gap words before plain =>
    obtain ⟨attached', skipped⟩ := exists_scanFrom_gap before attached ('#' :: words)
    rw [skipped, ← List.append_nil words, scanFrom_comment attached' plain (.inl rfl), scanFrom]

theorem isNamePart_of_gap {gap rest : List Char} (here : Gap gap)
    (stop : gap = [] → ∀ c ∈ rest.head?, isNamePart c = false) : ∀ c ∈ (gap ++ rest).head?, isNamePart c = false := by
  cases here with
  | nil => exact stop rfl
  | space space _ =>
    intro c member
    obtain rfl := Option.some.inj member
    simp only [isBlank, isLineEnd, Bool.or_eq_true, beq_iff_eq] at space
    rcases space with (rfl | rfl) | (rfl | rfl) <;> decide
  | comment =>
    intro c member
    obtain rfl := Option.some.inj member
    decide

theorem isNamePart_head {c : Char} (part : isNamePart c = false) (rest : List Char) :
    ∀ d ∈ (c :: rest).head?, isNamePart d = false := by
  intro d member
  obtain rfl := Option.some.inj member
  exact part

theorem ends_of_gap {gap : List Char} (here : Gap gap) {rest : List Char}
    (stop : gap = [] → ∀ c ∈ rest.head?, isNamePart c = false)
    (next : ∀ attached, ∀ token ∈ (scanFrom attached rest).head?, token.lexeme ≠ .defines) : Ends (gap ++ rest) where
  part := isNamePart_of_gap here stop
  next attached := by
    obtain ⟨attached', skipped⟩ := exists_scanFrom_gap here attached rest
    rw [skipped]
    exact next attached'

theorem ends_of_space {c : Char} (space : (isBlank c || isLineEnd c) = true) {rest : List Char}
    (next : ∀ attached, ∀ token ∈ (scanFrom attached rest).head?, token.lexeme ≠ .defines) : Ends (c :: rest) :=
  ends_of_gap (.space space .nil) (by simp) next

theorem ends_of_ending {ending : List Char} (here : Ending ending) : Ends ending where
  part := by
    cases here with
    | gap here =>
      rw [← List.append_nil ending]
      exact isNamePart_of_gap here (by simp)
    | @comment gap words before _ => exact isNamePart_of_gap before fun _ => isNamePart_head (by decide) words
  next attached := by simp [scanFrom_ending here]

theorem exists_scanFrom_head {name : String} (isName : IsName name) {gap : List Char} (here : Gap gap) (attached : Bool)
    (text : List Char) : ∃ start after start' after' attached',
      scanFrom attached (name.toList ++ (gap ++ ':' :: ':' :: '=' :: text)) =
        ⟨.name name, start, after, attached⟩ :: ⟨.defines, start', after', attached'⟩ :: scanFrom true text := by
  obtain ⟨c, part, spelled, start, all⟩ := isName
  have named : String.ofList (c :: part) = name := by rw [← spelled, String.ofList_toList]
  have stop : ∀ d ∈ (gap ++ ':' :: ':' :: '=' :: text).head?, isNamePart d = false :=
    isNamePart_of_gap here fun _ => isNamePart_head (by decide) _
  obtain ⟨attached', skipped⟩ := exists_scanFrom_gap here true (':' :: ':' :: '=' :: text)
  have defines : read ':' (':' :: '=' :: text) = (.defines, text) := by
    have sign : sign? ':' = none := rfl
    have start : isNameStart ':' = false := by decide
    unfold read
    simp [sign, start]
  rw [spelled, List.cons_append, scanFrom_visible (begins_of_isNameStart start).toVisible, read_name start all stop,
    skipped, scanFrom_visible (by decide), defines, named]
  exact ⟨_, _, _, _, _, rfl⟩

end Token

def Lexeme.Attached : Lexeme → Prop
  | quantifier _ _ | brokenQuantifier _ | semicolon => True
  | _ => False

namespace Token

/-- A character whose token may be anywhere in a body. -/
structure Free (c : Char) : Prop extends Begins c where
  loose : c ∉ ['*', '+', '?', '\x7b', ';']

instance (c : Char) : Decidable (Free c) :=
  decidable_of_iff (Begins c ∧ c ∉ ['*', '+', '?', '\x7b', ';']) ⟨fun h => ⟨h.1, h.2⟩, fun h => ⟨h.toBegins, h.loose⟩⟩

theorem free_of_isNameStart {c : Char} (start : isNameStart c = true) : Free c where
  toBegins := begins_of_isNameStart start
  loose listed := by
    simp only [List.mem_cons, List.not_mem_nil, or_false] at listed
    rcases listed with rfl | rfl | rfl | rfl | rfl <;> revert start <;> decide

theorem not_attached_of_free {c : Char} (free : Free c) (text : List Char) : ¬(read c text).1.Attached := by
  have loose := free.loose
  simp only [List.mem_cons, List.not_mem_nil, or_false, not_or] at loose
  unfold read
  split
  next sign found =>
    unfold sign? at found
    split at found <;> cases found <;> first | exact id | simp at loose
  next =>
    split_ifs with quote bracket brace
    · split <;> exact id
    · split <;> (unfold classBody; split <;> exact id)
    · exact absurd brace loose.2.2.2.1
    · exact id
    · split <;> exact id

end Token

namespace Definition

theorem ofTokensFrom_first (done : List Definition) (name : String) (start after start' after' : List Char)
    (attached attached' : Bool) (tokens : List Token) :
    ofTokensFrom done none (⟨.name name, start, after, attached⟩ :: ⟨.defines, start', after', attached'⟩ :: tokens) =
      ofTokensFrom done (some (.start name)) tokens := by
  conv_lhs => unfold ofTokensFrom

theorem ofTokensFrom_attached (done : List Definition) (body : Body) {lexeme : Lexeme} (free : ¬lexeme.Attached)
    (start after : List Char) (attached attached' : Bool) (tokens : List Token) :
    ofTokensFrom done (some body) (⟨lexeme, start, after, attached⟩ :: tokens) =
      ofTokensFrom done (some body) (⟨lexeme, start, after, attached'⟩ :: tokens) := by
  cases lexeme with
  | quantifier | brokenQuantifier | semicolon => exact absurd trivial free
  | name text =>
    cases tokens with
    | nil => rfl
    | cons token tokens =>
      obtain ⟨lexeme, _, _, _⟩ := token
      cases lexeme <;> rfl
  | _ => rfl

theorem read_eq_ok {text : List Char} {definitions : List Definition} :
    read text = .ok definitions ↔
      definitions ≠ [] ∧ ofTokensFrom [] none (Token.scanFrom true text) = .ok definitions := by
  rw [read, Token.scan]
  split
  next nothing => simp +contextual [nothing, eq_comm]
  next some =>
    refine (and_iff_right_of_imp ?_).symm
    rintro result rfl
    exact some result

section

variable {definitions done : List Definition} {body : Body}

theorem reads_gap {gap : List Char} (here : Token.Gap gap) {c : Char} (free : Token.Free c) (text : List Char) :
    Reads definitions done body (gap ++ c :: text) ↔ Reads definitions done body (c :: text) := by
  obtain ⟨attached, skipped⟩ := Token.exists_scanFrom_gap here true (c :: text)
  rw [Reads, skipped, Reads, Token.scanFrom_visible free.toVisible, Token.scanFrom_visible free.toVisible,
    ofTokensFrom_attached done body (Token.not_attached_of_free free text) _ _ attached true]

theorem reads_next (complete : body.outer = []) {gap before : List Char} (here : Token.Gap gap)
    {name : String} (isName : Token.IsName name) (between : Token.Gap before) (text : List Char) :
    Reads definitions done body (gap ++ (name.toList ++ (before ++ ':' :: ':' :: '=' :: text))) ↔
      body.level.items ≠ [] ∧
        Reads definitions (⟨body.name, body.level.close⟩ :: done) (.start name) text := by
  obtain ⟨attached, skipped⟩ := Token.exists_scanFrom_gap here true
    (name.toList ++ (before ++ ':' :: ':' :: '=' :: text))
  obtain ⟨_, _, _, _, _, scanned⟩ := Token.exists_scanFrom_head isName between attached text
  rw [Reads, skipped, scanned]
  conv_lhs => unfold ofTokensFrom
  cases items : body.level.items <;> simp [Body.finish, items, complete, Reads]

/-- The text of a grammar begins with the head of a definition. -/
theorem read_iff_reads {gap before : List Char} (lead : Token.Gap gap) {name : String} (isName : Token.IsName name)
    (between : Token.Gap before) (text : List Char) :
    Definition.read (gap ++ (name.toList ++ (before ++ ':' :: ':' :: '=' :: text))) = .ok definitions ↔
      definitions ≠ [] ∧ Reads definitions [] (.start name) text := by
  obtain ⟨attached, skipped⟩ := Token.exists_scanFrom_gap lead true
    (name.toList ++ (before ++ ':' :: ':' :: '=' :: text))
  obtain ⟨_, _, _, _, _, scanned⟩ := Token.exists_scanFrom_head isName between attached text
  rw [read_eq_ok, skipped, scanned, ofTokensFrom_first, Reads]

theorem reads_end (complete : body.outer = []) {ending : List Char} (here : Token.Ending ending) :
    Reads definitions done body ending ↔
      body.level.items ≠ [] ∧ (⟨body.name, body.level.close⟩ :: done).reverse = definitions := by
  rw [Reads, Token.scanFrom_ending here, ofTokensFrom]
  cases items : body.level.items <;> simp [Body.finish, items, complete, bind, Except.bind, pure, Except.pure]

end

end Definition

end GuidedDecoding
