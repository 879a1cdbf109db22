import Mathlib
import GuidedDecoding.Proofs.Grammar.Dialect

namespace GuidedDecoding

def Within {α : Type} (whole : List Char) (left : α → List Char) : Except SyntaxFault α → Prop
  | .ok result => left result <:+ whole
  | .error fault => fault.rest <:+ whole

namespace Within

variable {α : Type} {whole : List Char} {left : α → List Char} {read : Except SyntaxFault α}
  (within : Within whole left read)
include within

theorem rest {result : α} (found : read = .ok result) : left result <:+ whole := by
  rwa [found] at within

theorem fault {fault : SyntaxFault} (found : read = .error fault) : fault.rest <:+ whole := by
  rwa [found] at within

end Within

def Lexeme.Within (whole : List Char) : Lexeme → Prop
  | brokenAtom fault | brokenQuantifier fault => fault.rest <:+ whole
  | _ => True

theorem Hex.read?_suffix {width n m : Nat} {text rest : List Char} (read : read? width n text = some (m, rest)) :
    rest <:+ text := by
  fun_induction read? width n text with
  | case1 =>
    cases read
    exact List.suffix_rfl
  | case2 => cases read
  | case3 width n c text d value ih => exact (ih read).trans (List.suffix_cons c text)
  | case4 => cases read

namespace Token

theorem suffix_of_cons {c : Char} {rest whole : List Char} (here : c :: rest <:+ whole) : rest <:+ whole :=
  (List.suffix_cons c rest).trans here

section

variable {whole text : List Char} (here : text <:+ whole)
include here

theorem within_escape : Within whole Prod.snd (escape text) := by
  unfold escape
  split
  next => exact here
  next c rest =>
    have later := suffix_of_cons here
    split
    next => exact later
    next =>
      split
      next digits => exact (Hex.read?_suffix digits).trans later
      next => exact later
    next => exact here

/-- A literal without an end is at fault where it begins, and not where the text ends. -/
theorem within_literalBody {quote : Char} {start : List Char} (begun : start <:+ whole) :
    Within whole Prod.snd (literalBody quote start text) := by
  fun_induction literalBody quote start text with
  | case1 | case2 => exact begun
  | case3 => exact suffix_of_cons here
  | case4 rest fault failed => exact (within_escape (suffix_of_cons here)).fault failed
  | case5 rest n after found _ _ fault failed _ _ ih =>
    exact (ih ((within_escape (suffix_of_cons here)).rest found)).fault failed
  | case6 rest n after found _ _ body behind read _ _ ih =>
    have left := (ih ((within_escape (suffix_of_cons here)).rest found)).rest read
    exact left
  | case7 => exact here
  | case8 c rest _ _ _ fault failed ih => exact (ih (suffix_of_cons here)).fault failed
  | case9 c rest _ _ _ body after read ih =>
    have left := (ih (suffix_of_cons here)).rest read
    exact left

theorem within_classBound : Within whole Prod.snd (classBound text) := by
  unfold classBound
  split
  next => exact here
  next c rest =>
    have later := suffix_of_cons here
    split_ifs
    · exact here
    · exact within_escape later
    · exact later

theorem within_classRange : Within whole Prod.snd (classRange text) := by
  have first := within_classBound here
  unfold classRange
  split
  next failed => exact first.fault failed
  next lo rest found =>
    have left := first.rest found
    split
    next after =>
      have second := within_classBound (suffix_of_cons left)
      split_ifs
      · exact left
      · split
        next failed => exact second.fault failed
        next found =>
          split_ifs
          · exact left
          · exact second.rest found
    next => exact left

theorem within_classRanges : Within whole Prod.snd (classRanges text) := by
  fun_induction classRanges text with
  | case1 rest => exact suffix_of_cons here
  | case2 text _ fault failed => exact (within_classRange here).fault failed
  | case3 text _ range after found _ fault failed ih => exact (ih ((within_classRange here).rest found)).fault failed
  | case4 text _ range after found _ ranges rest read ih =>
    have left := (ih ((within_classRange here).rest found)).rest read
    exact left

theorem within_classBody (negated : Bool) {start : List Char} (begun : start <:+ whole) :
    (classBody negated start text).1.Within whole ∧ (classBody negated start text).2 <:+ whole := by
  have ranges := within_classRanges here
  unfold classBody
  split
  next failed => exact ⟨ranges.fault failed, List.nil_suffix⟩
  next => exact ⟨begun, List.nil_suffix⟩
  next read => exact ⟨trivial, ranges.rest read⟩

theorem number?_suffix {n : Nat} {rest : List Char} (read : number? text = some (n, rest)) : rest <:+ whole := by
  simp only [number?] at read
  split at read
  next => cases read
  next =>
    cases read
    exact (List.drop_suffix _ text).trans here

theorem dropWhile_suffix (p : Char → Bool) : text.dropWhile p <:+ whole := (List.dropWhile_suffix p).trans here

theorem upperBound_suffix (min : Nat) : (upperBound min text).2 <:+ whole := by
  unfold upperBound
  split
  next rest comma =>
    have behind : rest <:+ whole := suffix_of_cons (comma ▸ dropWhile_suffix here isBlank)
    have blank := dropWhile_suffix behind isBlank
    dsimp only
    split
    next read => exact number?_suffix blank read
    next => exact blank
  next => exact here

theorem within_rangeBody {start : List Char} (begun : start <:+ whole) :
    Within whole (fun range => range.2.2) (rangeBody start text) := by
  have blank := dropWhile_suffix here isBlank
  unfold rangeBody
  dsimp only
  split
  next => exact blank
  next min rest read =>
    have bound := dropWhile_suffix (upperBound_suffix (number?_suffix blank read) min) isBlank
    split
    next rest brace =>
      rw [brace] at bound
      split_ifs
      · exact begun
      · exact begun
      · exact suffix_of_cons bound
    next => exact bound

theorem comment?_suffix {rest : List Char} (found : comment? text = some rest) : rest <:+ whole := by
  have left := dropWhile_suffix here (!isLineEnd ·)
  unfold comment? at found
  split at found
  next same =>
    cases found
    rwa [same] at left
  next => cases found
  next =>
    cases found
    exact left

end

theorem within_sign? {whole : List Char} {c : Char} {lexeme : Lexeme} (sign : sign? c = some lexeme) :
    lexeme.Within whole := by
  unfold sign? at sign
  split at sign <;> cases sign <;> trivial

theorem within_read {whole : List Char} {c : Char} {text : List Char} (here : c :: text <:+ whole) :
    (read c text).1.Within whole ∧ (read c text).2 <:+ whole := by
  have later := suffix_of_cons here
  unfold read
  split
  next sign => exact ⟨within_sign? sign, later⟩
  next =>
    split_ifs with quote bracket brace start
    · have body : Within whole Prod.snd (literalBody c (c :: text) text) := within_literalBody later here
      split
      next failed => exact ⟨body.fault failed, List.nil_suffix⟩
      next read => exact ⟨trivial, body.rest read⟩
    · split
      next rest => exact within_classBody (suffix_of_cons later) true here
      next => exact within_classBody later false here
    · have body := within_rangeBody later here
      split
      next failed => exact ⟨body.fault failed, List.nil_suffix⟩
      next read => exact ⟨trivial, body.rest read⟩
    · exact ⟨trivial, dropWhile_suffix later _⟩
    · split
      next => exact ⟨trivial, (List.suffix_append [':', '='] _).trans later⟩
      next => exact ⟨trivial, List.nil_suffix⟩

/-- What a token says of places in a text is true of it. -/
structure Placed (whole : List Char) (token : Token) : Prop where
  start : token.start <:+ whole
  after : token.after <:+ whole
  fault : token.lexeme.Within whole

theorem placed_scanFrom {whole text : List Char} (here : text <:+ whole) (attached : Bool) :
    ∀ token ∈ scanFrom attached text, token.Placed whole := by
  fun_induction scanFrom attached text with
  | case1 => simp
  | case2 attached c rest blank ih => exact ih (suffix_of_cons here)
  | case3 attached c rest _ lineEnd ih => exact ih (suffix_of_cons here)
  | case4 attached rest after found _ _ _ ih => exact ih (comment?_suffix (suffix_of_cons here) found)
  | case5 attached rest => exact List.forall_mem_singleton.mpr ⟨here, List.nil_suffix, trivial⟩
  | case6 attached c rest _ _ _ lexeme after found _ ih =>
    obtain ⟨fault, left⟩ := within_read here
    rw [found] at fault left
    exact List.forall_mem_cons.mpr ⟨⟨here, left, fault⟩, ih left⟩

/-- Tokens that lie one behind the other in a text, each of which takes something of it. -/
inductive Laid : List Char → List Token → Prop where
  | nil {text : List Char} : Laid text []
  | cons {text : List Char} {token : Token} {tokens : List Token} (start : token.start <:+ text)
    (after : token.after <:+ token.start) (shorter : token.after.length < token.start.length)
    (rest : Laid token.after tokens) : Laid text (token :: tokens)

namespace Laid

variable {text : List Char} {tokens : List Token} (laid : Laid text tokens)
include laid

theorem extend {whole : List Char} (here : text <:+ whole) : Laid whole tokens := by
  cases laid with
  | nil => exact .nil
  | cons start after shorter rest => exact .cons (start.trans here) after shorter rest

theorem length_le : tokens.length ≤ text.length := by
  induction laid with
  | nil => exact Nat.zero_le _
  | cons start after shorter _ ih => exact Nat.lt_of_le_of_lt ih (Nat.lt_of_lt_of_le shorter start.length_le)

end Laid

theorem laid_scanFrom (attached : Bool) (text : List Char) : Laid text (scanFrom attached text) := by
  fun_induction scanFrom attached text with
  | case1 => exact .nil
  | case2 attached c rest blank ih => exact ih.extend (List.suffix_cons c rest)
  | case3 attached c rest _ lineEnd ih => exact ih.extend (List.suffix_cons c rest)
  | case4 attached rest after found _ _ _ ih => exact ih.extend (comment?_suffix (List.suffix_cons '#' rest) found)
  | case5 attached rest => exact .cons List.suffix_rfl List.nil_suffix (Nat.succ_pos _) .nil
  | case6 attached c rest _ _ _ lexeme after found shorter ih =>
    have left := (within_read (List.suffix_refl (c :: rest))).2
    rw [found] at left
    exact .cons List.suffix_rfl left (Nat.lt_succ_of_le shorter) ih

end Token

namespace Body

variable {body : Body} {fault : SyntaxFault}

theorem rest_of_finish {rest : List Char} (failed : body.finish rest = .error fault) : fault.rest = rest := by
  unfold finish at failed
  split at failed <;> cases failed <;> rfl

theorem rest_misplaced (body : Body) (token : Token) : (body.misplaced token).rest = token.start := by
  unfold misplaced
  split
  next => rfl
  next failed => exact rest_of_finish failed

theorem rest_of_step {whole : List Char} {token : Token} (placed : token.Placed whole)
    (failed : body.step token = .error fault) : fault.rest <:+ whole := by
  have misplaced : (body.misplaced token).rest <:+ whole := rest_misplaced body token ▸ placed.start
  have broken := placed.fault
  unfold step at failed
  split at failed
  case h_4 found =>
    cases failed
    rwa [found] at broken
  case h_6 | h_7 =>
    split at failed <;> cases failed
    exact misplaced
  case h_8 =>
    split_ifs at failed
    cases failed
    exact misplaced
  case h_9 found =>
    cases failed
    rw [found] at broken
    split_ifs
    · exact broken
    · exact misplaced
  case h_10 | h_11 | h_12 =>
    cases failed
    exact misplaced
  all_goals cases failed

end Body

namespace Definition

theorem rest_of_tokensFrom {whole : List Char} {done : List Definition} {reading : Option Body} {tokens : List Token}
    {fault : SyntaxFault} (failed : ofTokensFrom done reading tokens = .error fault)
    (placed : ∀ token ∈ tokens, token.Placed whole) : fault.rest <:+ whole := by
  fun_induction ofTokensFrom done reading tokens with
  | case1 => cases failed
  | case2 done body =>
    cases finished : body.finish [] with
    | ok last =>
      rw [finished] at failed
      cases failed
    | error other =>
      rw [finished] at failed
      cases failed
      exact Body.rest_of_finish finished ▸ List.nil_suffix
  | case3 done token text _ _ _ rest _ ih => exact ih failed fun t member => placed t (by simp [member])
  | case4 done token text next =>
    cases failed
    exact (placed next (by simp)).start
  | case5 =>
    cases failed
    exact List.nil_suffix
  | case6 done token =>
    cases failed
    exact (placed token (by simp)).start
  | case7 done body token text _ _ _ rest _ definition _ ih => exact ih failed fun t member => placed t (by simp [member])
  | case8 done body token text _ _ _ rest _ other finished =>
    cases failed
    have here := placed token (by simp)
    -- If nothing has been read of an expression yet, it is missing behind the name.
    rw [Body.rest_of_finish finished]
    split_ifs
    · exact here.after
    · exact here.start
  | case9 done body token rest _ definition _ _ ih => exact ih failed fun t member => placed t (by simp [member])
  | case10 done body token =>
    cases failed
    exact (placed token (by simp)).start
  | case11 done body token rest _ other finished =>
    cases failed
    exact Body.rest_of_finish finished ▸ (placed token (by simp)).start
  | case12 done body token rest after _ _ _ ih => exact ih failed fun t member => placed t (by simp [member])
  | case13 done body token rest other stepped =>
    cases failed
    exact Body.rest_of_step (placed token (by simp)) stepped

theorem read_cases (text : List Char) :
    (∃ fault, read text = .error fault ∧ fault.rest <:+ text) ∨
      ∃ definitions, read text = .ok definitions ∧ definitions ≠ [] := by
  have placed := Token.placed_scanFrom (List.suffix_refl text) true
  unfold read
  split
  next => exact .inl ⟨_, rfl, List.nil_suffix⟩
  next inhabited =>
    cases result : ofTokensFrom [] none (Token.scan text) with
    | error fault => exact .inl ⟨fault, rfl, rest_of_tokensFrom result placed⟩
    | ok definitions => exact .inr ⟨definitions, rfl, fun none => inhabited (none ▸ result)⟩

end Definition

end GuidedDecoding
