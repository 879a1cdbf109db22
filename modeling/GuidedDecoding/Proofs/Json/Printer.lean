import Mathlib
import GuidedDecoding.Json.Printer
import GuidedDecoding.Proofs.Json.Syntax

open scoped Computability

namespace GuidedDecoding

namespace JsonSyntax

theorem mem_digits {c : Char} {rest : List Char} (all : ∀ d ∈ c :: rest, '0' ≤ d ∧ d ≤ '9') : c :: rest ∈ digits :=
  ⟨[c], ⟨c, all c (by simp), rfl⟩, rest, mem_kstar_oneOf.mpr fun d member => all d (by simp [member]), rfl⟩

theorem cons_mem_whole {c : Char} {rest : List Char} (first : '1' ≤ c ∧ c ≤ '9')
    (others : ∀ d ∈ rest, '0' ≤ d ∧ d ≤ '9') : c :: rest ∈ whole :=
  .inr ⟨[c], ⟨c, first, rfl⟩, rest, mem_kstar_oneOf.mpr others, rfl⟩

theorem whole_le_digits : whole ≤ digits := by
  apply add_le
  · exact Set.singleton_subset_iff.mpr (mem_digits (by simp))
  · intro text member
    obtain ⟨_, ⟨c, first, rfl⟩, rest, others, rfl⟩ := member
    exact ⟨[c], ⟨c, ⟨le_trans (by decide) first.1, first.2⟩, rfl⟩, rest, others, rfl⟩

theorem exists_toDigits {n : Nat} (positive : 0 < n) :
    ∃ c rest, Nat.toDigits 10 n = c :: rest ∧ ('1' ≤ c ∧ c ≤ '9') ∧ ∀ d ∈ rest, '0' ≤ d ∧ d ≤ '9' := by
  induction n using Nat.strong_induction_on with
  | _ n ih =>
    rw [Nat.toDigits_eq_if (by decide)]
    split_ifs with small
    · refine ⟨Nat.digitChar n, [], rfl, ?_, by simp⟩
      interval_cases n <;> decide
    · obtain ⟨c, rest, written, first, others⟩ := ih (n / 10) (by omega) (by omega)
      refine ⟨c, rest ++ [Nat.digitChar (n % 10)], by rw [written]; rfl, first, fun d member => ?_⟩
      rcases List.mem_append.mp member with member | member
      · exact others d member
      · obtain rfl := List.mem_singleton.mp member
        have last : n % 10 < 10 := Nat.mod_lt n (by decide)
        interval_cases n % 10 <;> decide

theorem toDigits_mem_whole (n : Nat) : Nat.toDigits 10 n ∈ whole := by
  rcases Nat.eq_zero_or_pos n with rfl | positive
  · exact .inl rfl
  · obtain ⟨c, rest, written, first, others⟩ := exists_toDigits positive
    rw [written]
    exact cons_mem_whole first others

def magnitude : Language Char := whole * (1 + fraction) * (1 + exponent)

theorem mem_magnitude {front middle last : List Char} (first : front ∈ whole) (second : middle ∈ 1 + fraction)
    (third : last ∈ 1 + exponent) : front ++ middle ++ last ∈ magnitude :=
  Language.append_mem_mul (Language.append_mem_mul first second) third

theorem number_eq : number = (1 + {['-']}) * magnitude := by
  rw [number, integer, magnitude, mul_assoc, mul_assoc, mul_assoc]

end JsonSyntax

namespace Decimal

open JsonSyntax (whole fraction magnitude)

theorem trim_positive {fuel : Nat} {d : Decimal} (positive : 0 < d.digits) : 0 < (trim fuel d).digits := by
  induction fuel generalizing d with
  | zero => exact positive
  | succ fuel ih =>
    rw [trim]
    split_ifs with zero
    · exact ih (by dsimp only; omega)
    · exact positive

theorem Rounding.pos_of_holds {r : Rounding} (low : 0 < r.lo) {unit : Nat × Nat} (some : 0 < unit.2) {n : Nat}
    (holds : r.holds unit n = true) : 0 < n := by
  have least : 0 < r.lo * unit.2 := Nat.mul_pos low some
  rcases Nat.eq_zero_or_pos n with rfl | positive
  · unfold Rounding.holds at holds
    simp at holds
    omega
  · exact positive

theorem unscale_pos {num den : Nat} (positive : 0 < den) (e : Int) : 0 < (unscale num den e).2 := by
  cases e with
  | ofNat e => exact Nat.mul_pos positive (Nat.pow_pos (by decide))
  | negSucc e => exact positive

theorem unscale_binary_pos {num den : Nat} (positive : 0 < den) (e : Int) :
    0 < (Binary64.unscale num den e).2 := by
  cases e with
  | ofNat e =>
    change 0 < den <<< e
    rw [Nat.shiftLeft_eq]
    exact Nat.mul_pos positive (Nat.pow_pos (by decide))
  | negSucc e => exact positive

theorem positive_of_candidates {r : Rounding} (low : 0 < r.lo) {unit : Nat × Nat} (some : 0 < unit.2) {a b : Nat}
    {exponent : Int} {finer : Option Decimal} {d : Decimal}
    (found : (if r.holds unit a then Option.some ⟨a, exponent⟩
      else if r.holds unit b then Option.some ⟨b, exponent⟩ else finer) = Option.some d) :
    0 < d.digits ∨ finer = Option.some d := by
  split_ifs at found with one other
  · cases found
    exact .inl (Rounding.pos_of_holds low some one)
  · cases found
    exact .inl (Rounding.pos_of_holds low some other)
  · exact .inr found

theorem search_positive {x : Binary64} {r : Rounding} (low : 0 < r.lo) {fuel : Nat} {exponent : Int} {d : Decimal}
    (found : search x r fuel exponent = some d) : 0 < d.digits := by
  induction fuel generalizing exponent with
  | zero => cases found
  | succ fuel ih =>
    have some : 0 < (Binary64.unscale (unscale 4 1 (-exponent)).1 (unscale 4 1 (-exponent)).2 x.exponent).2 :=
      unscale_binary_pos (unscale_pos Nat.one_pos _) _
    rw [search] at found
    exact (positive_of_candidates low some found).elim id ih

theorem Rounding.of_lo_pos {x : Binary64} (some : x.mantissa ≠ 0) : 0 < (Rounding.of x).lo := by
  unfold Rounding.of
  dsimp only
  split_ifs <;> omega

theorem shortest_proper (x : Binary64) : 0 < (shortest x).digits ∨ shortest x = ⟨0, 0⟩ := by
  rw [shortest]
  split_ifs with zero
  · exact .inr rfl
  · dsimp only
    cases found : search x (.of x) 18 (leadingExponent x.fraction.1 x.fraction.2) with
    | none => exact .inr rfl
    | some d => exact .inl (trim_positive (search_positive (Rounding.of_lo_pos zero) found))

theorem zeros_digit (count : Nat) : ∀ c ∈ zeros count, '0' ≤ c ∧ c ≤ '9' := by
  intro c member
  rw [List.eq_of_mem_replicate member]
  decide

theorem point_mem_fraction {part : List Char} (some : part ≠ []) (all : ∀ d ∈ part, '0' ≤ d ∧ d ≤ '9') :
    '.' :: part ∈ 1 + fraction := by
  obtain ⟨c, rest, rfl⟩ := List.exists_cons_of_ne_nil some
  exact .inr ⟨['.'], rfl, c :: rest, JsonSyntax.mem_digits all, rfl⟩

theorem mark_mem_exponent {sign : Char} (known : sign ∈ ['+', '-']) (n : Nat) :
    ['e', sign] ++ Nat.toDigits 10 n ∈ 1 + JsonSyntax.exponent :=
  .inr ⟨['e', sign], ⟨['e'], ⟨'e', by simp, rfl⟩, [sign], .inr ⟨sign, known, rfl⟩, rfl⟩, _,
    JsonSyntax.whole_le_digits (JsonSyntax.toDigits_mem_whole n), rfl⟩

section

variable {c : Char} {rest : List Char} (first : '1' ≤ c ∧ c ≤ '9') (others : ∀ d ∈ rest, '0' ≤ d ∧ d ≤ '9')
include first others

theorem whole_mem_magnitude (count : Nat) : c :: rest ++ zeros count ++ ['.', '0'] ∈ magnitude := by
  have all : ∀ d ∈ rest ++ zeros count, '0' ≤ d ∧ d ≤ '9' := fun d member =>
    (List.mem_append.mp member).elim (others d) (zeros_digit count d)
  have written := JsonSyntax.mem_magnitude (JsonSyntax.cons_mem_whole first all)
    (point_mem_fraction (by simp) (by simp : ∀ d ∈ ['0'], '0' ≤ d ∧ d ≤ '9')) (.inl rfl)
  rwa [List.append_nil] at written

theorem split_mem_magnitude {place : Nat} (inside : place < rest.length) :
    (c :: rest).take (place + 1) ++ '.' :: (c :: rest).drop (place + 1) ∈ magnitude := by
  have some : rest.drop place ≠ [] := by simpa using inside
  have front : ∀ d ∈ rest.take place, '0' ≤ d ∧ d ≤ '9' := fun d member => others d (List.mem_of_mem_take member)
  have part : ∀ d ∈ rest.drop place, '0' ≤ d ∧ d ≤ '9' := fun d member => others d (List.mem_of_mem_drop member)
  have written := JsonSyntax.mem_magnitude (JsonSyntax.cons_mem_whole first front) (point_mem_fraction some part) (.inl rfl)
  rwa [List.append_nil] at written

theorem small_mem_magnitude (count : Nat) : '0' :: '.' :: zeros count ++ c :: rest ∈ magnitude := by
  have digit : '0' ≤ c ∧ c ≤ '9' := ⟨le_trans (by decide) first.1, first.2⟩
  have all : ∀ d ∈ zeros count ++ c :: rest, '0' ≤ d ∧ d ≤ '9' := by
    intro d member
    rcases List.mem_append.mp member with member | member
    · exact zeros_digit count d member
    · rcases List.mem_cons.mp member with rfl | member
      · exact digit
      · exact others d member
  have written := JsonSyntax.mem_magnitude (.inl rfl) (point_mem_fraction (by simp) all) (.inl rfl)
  rwa [List.append_nil] at written

theorem marked_mem_magnitude {sign : Char} (known : sign ∈ ['+', '-']) (n : Nat) :
    (match c :: rest with
      | first :: second :: rest => first :: '.' :: second :: rest
      | short => short) ++ ['e', sign] ++ Nat.toDigits 10 n ∈ magnitude := by
  rw [List.append_assoc]
  cases rest with
  | nil => exact JsonSyntax.mem_magnitude (JsonSyntax.cons_mem_whole first others) (.inl rfl) (mark_mem_exponent known n)
  | cons d rest =>
    exact JsonSyntax.mem_magnitude (JsonSyntax.cons_mem_whole first (by simp : ∀ d ∈ [], '0' ≤ d ∧ d ≤ '9'))
      (point_mem_fraction (by simp) others) (mark_mem_exponent known n)

end

theorem render_mem_magnitude {d : Decimal} (proper : 0 < d.digits ∨ d = ⟨0, 0⟩) :
    render JsonNumber.layout d ∈ magnitude := by
  rcases proper with positive | rfl
  · obtain ⟨c, rest, written, first, others⟩ := JsonSyntax.exists_toDigits positive
    rw [render]
    simp only [written, JsonNumber.layout, List.splitAt_eq, List.length_cons]
    split_ifs with positional shifted placed sign
    · exact whole_mem_magnitude first others _
    · exact split_mem_magnitude first others (by omega)
    · exact small_mem_magnitude first others _
    · exact marked_mem_magnitude first others (by simp) _
    · exact marked_mem_magnitude first others (by simp) _
  · have written := JsonSyntax.mem_magnitude (.inl rfl)
      (point_mem_fraction (by simp) (by simp : ∀ d ∈ ['0'], '0' ≤ d ∧ d ≤ '9')) (.inl rfl)
    exact written

end Decimal

theorem JsonNumber.text_mem_number (n : JsonNumber) : n.text ∈ JsonSyntax.number := by
  rw [JsonSyntax.number_eq]
  have integral (n : Nat) : Nat.toDigits 10 n ∈ JsonSyntax.magnitude := by
    have written := JsonSyntax.mem_magnitude (JsonSyntax.toDigits_mem_whole n) (.inl rfl) (.inl rfl)
    rwa [List.append_nil, List.append_nil] at written
  cases n with
  | integer n =>
    rw [text]
    cases n with
    | ofNat n =>
      have written : (toString (Int.ofNat n)).toList = [] ++ Nat.toDigits 10 n := by
        change (Nat.repr n).toList = _
        simp
      rw [written]
      exact Language.append_mem_mul (.inl rfl) (integral n)
    | negSucc n =>
      have written : (toString (Int.negSucc n)).toList = ['-'] ++ Nat.toDigits 10 (n + 1) := by
        change ("-" ++ Nat.repr (n + 1)).toList = _
        simp
      rw [written]
      exact Language.append_mem_mul (.inr rfl) (integral (n + 1))
  | float negative magnitude =>
    rw [text]
    refine Language.append_mem_mul ?_ (Decimal.render_mem_magnitude (Decimal.shortest_proper magnitude))
    cases negative with
    | false => exact .inl rfl
    | true => exact .inr rfl

namespace Json

open JsonSyntax (Derives Part comma character hexDigit)

theorem hexDigits_mem (width n : Nat) : Hex.digits width n ∈ hexDigit ^ width := by
  induction width generalizing n with
  | zero => exact rfl
  | succ width ih =>
    rw [Hex.digits, pow_succ]
    refine Language.append_mem_mul (ih _) (JsonSyntax.singleton_mem_oneOf.mpr ?_)
    have last : n % 16 < 16 := Nat.mod_lt n (by decide)
    interval_cases n % 16 <;> decide

theorem escapeChar_mem (c : Char) : escapeChar c ∈ character := by
  have short {d : Char} (known : d ∈ ['"', '\\', '/', 'b', 'f', 'n', 'r', 't']) : ['\\', d] ∈ character :=
    .inr ⟨['\\'], rfl, [d], .inl ⟨d, known, rfl⟩, rfl⟩
  unfold escapeChar
  split_ifs with mark backslash _ _ _ _ _ control
  any_goals exact short (by decide)
  · exact .inr ⟨['\\'], rfl, _, .inr ⟨['u'], rfl, _, hexDigits_mem 4 c.toNat, rfl⟩, rfl⟩
  · exact .inl ⟨c, ⟨Nat.le_of_not_lt control, mark, backslash⟩, rfl⟩

theorem quote_mem_string (text : String) : quote text ∈ JsonSyntax.string := by
  have inside : text.toList.flatMap escapeChar ∈ character∗ := by
    rw [Language.mem_kstar]
    refine ⟨text.toList.map escapeChar, List.flatMap_def, fun part member => ?_⟩
    obtain ⟨c, _, rfl⟩ := List.mem_map.mp member
    exact escapeChar_mem c
  exact ⟨_, ⟨['"'], rfl, _, inside, rfl⟩, ['"'], rfl, rfl⟩

section

variable (blank : Char → Prop)

theorem comma_mem : [','] ∈ comma blank :=
  JsonSyntax.surrounded_mem ',' (List.forall_mem_nil _) (List.forall_mem_nil _)

theorem colon_mem : [':'] ∈ JsonSyntax.colon blank :=
  JsonSyntax.surrounded_mem ':' (List.forall_mem_nil _) (List.forall_mem_nil _)

variable {blank}

theorem derives_list_cons {of : Part} {text rest : List Char} (one : Derives blank of text)
    (others : Derives blank (.list of) rest) : Derives blank (.list of) (text ++ ',' :: rest) :=
  JsonSyntax.cons_le_list of (Language.append_mem_mul one (Language.append_mem_mul (comma_mem blank) others))

theorem derives_contents {α : Type} {of : Part} {write : List α → List Char} (nothing : write [] = [])
    {parts : List α} (list : parts ≠ [] → Derives blank (.list of) (write parts)) :
    Derives blank (.contents of) (write parts) := by
  cases parts with
  | nil =>
    rw [nothing]
    exact .nothing (Language.nil_mem_kstar _)
  | cons part parts =>
    have inside := Derives.contents (Language.nil_mem_kstar _) (list (by simp)) (Language.nil_mem_kstar _)
    rwa [List.nil_append, List.append_nil] at inside

theorem derives_member (key : String) {value : List Char} (derives : Derives blank .value value) :
    Derives blank .member (quote key ++ ':' :: value) := by
  have member := Derives.member (quote_mem_string key) (colon_mem blank) derives
  rwa [List.append_assoc] at member

variable (blank)

mutual

/-- What is written for a value is a JSON text of it. -/
theorem derives_text : ∀ value : Json, Derives blank .value value.text
  | null => .scalar (.inr (by rw [text]; rfl))
  | bool true => .scalar (.inl (.inr (.inl (by rw [text]; rfl))))
  | bool false => .scalar (.inl (.inr (.inr (by rw [text]; rfl))))
  | number n => .scalar (.inl (.inl (.inr (by rw [text]; exact n.text_mem_number))))
  | string s => .scalar (.inl (.inl (.inl (by rw [text]; exact quote_mem_string s))))
  | array items => .ofArray (by
    rw [text]
    exact .array (derives_contents rfl (derives_itemsText items)))
  | object members => .ofObject (by
    rw [text]
    exact .object (derives_contents rfl (derives_membersText members)))

theorem derives_itemsText : ∀ items : List Json, items ≠ [] → Derives blank (.list .value) (itemsText items)
  | [], inhabited => absurd rfl inhabited
  | [item], _ => by
    rw [itemsText]
    exact .first (derives_text item)
  | item :: next :: rest, _ => by
    rw [itemsText]
    · exact derives_list_cons (derives_text item) (derives_itemsText (next :: rest) (by simp))
    · simp

theorem derives_membersText :
    ∀ members : List (String × Json), members ≠ [] → Derives blank (.list .member) (membersText members)
  | [], inhabited => absurd rfl inhabited
  | [(key, value)], _ => by
    rw [membersText]
    exact .first (derives_member key (derives_text value))
  | (key, value) :: next :: rest, _ => by
    rw [membersText]
    · exact derives_list_cons (derives_member key (derives_text value)) (derives_membersText (next :: rest) (by simp))
    · simp

end

end

end Json

end GuidedDecoding
