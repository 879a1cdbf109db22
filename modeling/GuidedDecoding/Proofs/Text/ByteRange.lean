import Mathlib
import GuidedDecoding.Proofs.Text.CodeRange
import GuidedDecoding.Text.ByteRange

namespace GuidedDecoding

namespace Utf8Zone

/-- The number `n` in base 64: a leading number, and `trail` digits after it. -/
def digits : Nat → Nat → List Nat
  | 0, n => [n]
  | trail + 1, n => n / 64 ^ (trail + 1) :: digits trail (n % 64 ^ (trail + 1))

abbrev Matches : List (Nat × Nat) → List Nat → Prop :=
  List.Forall₂ fun range n => range.1 ≤ n ∧ n ≤ range.2

def MatchesSome (sequences : List (List (Nat × Nat))) (numbers : List Nat) : Prop :=
  ∃ sequence ∈ sequences, Matches sequence numbers

theorem matchesSome_append (s t : List (List (Nat × Nat))) (numbers : List Nat) :
    MatchesSome (s ++ t) numbers ↔ MatchesSome s numbers ∨ MatchesSome t numbers := by
  simp [MatchesSome, or_and_right, exists_or]

@[simp] theorem matchesSome_nil (numbers : List Nat) : MatchesSome [] numbers ↔ False := by
  simp [MatchesSome]

theorem matchesSome_map_cons (range : Nat × Nat) (sequences : List (List (Nat × Nat))) (n : Nat)
    (numbers : List Nat) :
    MatchesSome (sequences.map (range :: ·)) (n :: numbers) ↔
      (range.1 ≤ n ∧ n ≤ range.2) ∧ MatchesSome sequences numbers := by
  constructor
  · intro h
    obtain ⟨_, member, inside⟩ := h
    obtain ⟨sequence, origin, rfl⟩ := List.mem_map.mp member
    obtain ⟨first, rest⟩ := List.forall₂_cons.mp inside
    exact ⟨first, sequence, origin, rest⟩
  · intro h
    obtain ⟨first, sequence, member, rest⟩ := h
    exact ⟨_, List.mem_map_of_mem member, .cons first rest⟩

theorem matchesSome_cons_nil (range : Nat × Nat) (sequences : List (List (Nat × Nat))) :
    ¬MatchesSome (sequences.map (range :: ·)) [] := by
  simp [MatchesSome]

theorem width_eq (trail : Nat) : 1 <<< (6 * (trail + 1)) = 64 ^ (trail + 1) := by
  rw [Nat.one_shiftLeft, Nat.pow_mul]

theorem width_pos (trail : Nat) : 0 < 64 ^ trail := Nat.pow_pos (by decide)

theorem le_iff_div_mod (width a b : Nat) :
    a ≤ b ↔ a / width < b / width ∨ a / width = b / width ∧ a % width ≤ b % width := by
  have left := Nat.div_add_mod a width
  have right := Nat.div_add_mod b width
  constructor
  · intro h
    rcases Nat.lt_or_eq_of_le (Nat.div_le_div_right (c := width) h) with less | same
    · exact .inl less
    · rw [same] at left
      exact .inr ⟨same, by omega⟩
  · intro h
    rcases h with less | ⟨same, rest⟩
    · exact Nat.le_of_lt (Nat.lt_of_div_lt_div less)
    · rw [same] at left
      omega

theorem matches_complete (trail : Nat) (numbers : List Nat) :
    Matches (List.replicate (trail + 1) (0, 63)) numbers ↔
      ∃ n < 64 ^ (trail + 1), digits trail n = numbers := by
  induction trail generalizing numbers with
  | zero =>
    constructor
    · intro h
      cases h with
      | @cons _ n _ rest inside tail =>
        cases tail
        exact ⟨n, by simp only [Nat.zero_add, Nat.pow_one]; omega, rfl⟩
    · intro h
      obtain ⟨n, bound, rfl⟩ := h
      exact .cons ⟨Nat.zero_le n, by simp only [Nat.zero_add, Nat.pow_one] at bound; omega⟩ .nil
  | succ trail ih =>
    have positive := width_pos (trail + 1)
    constructor
    · intro h
      rw [List.replicate_succ] at h
      cases h with
      | @cons _ d _ rest inside tail =>
        obtain ⟨n, bound, rfl⟩ := (ih rest).mp tail
        have low : n / 64 ^ (trail + 1) = 0 := Nat.div_eq_of_lt bound
        refine ⟨64 ^ (trail + 1) * d + n, ?_, ?_⟩
        · calc 64 ^ (trail + 1) * d + n < 64 ^ (trail + 1) * d + 64 ^ (trail + 1) := by omega
            _ = 64 ^ (trail + 1) * (d + 1) := by rw [Nat.mul_succ]
            _ ≤ 64 ^ (trail + 1) * 64 := Nat.mul_le_mul_left _ (by omega)
            _ = 64 ^ (trail + 1 + 1) := by rw [← Nat.pow_succ]
        · rw [digits, Nat.mul_add_div positive, Nat.mul_add_mod, Nat.mod_eq_of_lt bound, low,
            Nat.add_zero]
    · intro h
      obtain ⟨n, bound, rfl⟩ := h
      rw [List.replicate_succ, digits]
      rw [Nat.pow_succ, Nat.mul_comm] at bound
      have lead : n / 64 ^ (trail + 1) < 64 := Nat.div_lt_of_lt_mul (by rwa [Nat.mul_comm] at bound)
      refine .cons ⟨Nat.zero_le _, by omega⟩ ((ih _).mpr ⟨_, Nat.mod_lt n positive, rfl⟩)

theorem between_iff (width lo hi d m : Nat) (bound : m < width) :
    (lo ≤ width * d + m ∧ width * d + m ≤ hi) ↔
      (lo / width < d ∨ lo / width = d ∧ lo % width ≤ m) ∧
        (d < hi / width ∨ d = hi / width ∧ m ≤ hi % width) := by
  have positive : 0 < width := Nat.zero_lt_of_lt bound
  have lead : (width * d + m) / width = d := by
    rw [Nat.mul_add_div positive, Nat.div_eq_of_lt bound, Nat.add_zero]
  have rest : (width * d + m) % width = m := by rw [Nat.mul_add_mod, Nat.mod_eq_of_lt bound]
  rw [le_iff_div_mod width lo, le_iff_div_mod width _ hi, lead, rest]

theorem spelled_iff (trail lo hi : Nat) (numbers : List Nat) :
    (∃ n, (lo ≤ n ∧ n ≤ hi) ∧ digits (trail + 1) n = numbers) ↔
      ∃ d m, m < 64 ^ (trail + 1) ∧
        ((lo / 64 ^ (trail + 1) < d ∨ lo / 64 ^ (trail + 1) = d ∧ lo % 64 ^ (trail + 1) ≤ m) ∧
          (d < hi / 64 ^ (trail + 1) ∨ d = hi / 64 ^ (trail + 1) ∧ m ≤ hi % 64 ^ (trail + 1))) ∧
        d :: digits trail m = numbers := by
  have positive := width_pos (trail + 1)
  constructor
  · intro h
    obtain ⟨n, inside, rfl⟩ := h
    have bound := Nat.mod_lt n positive
    refine ⟨n / 64 ^ (trail + 1), n % 64 ^ (trail + 1), bound, ?_, rfl⟩
    rwa [← between_iff _ lo hi _ _ bound, Nat.div_add_mod]
  · intro h
    obtain ⟨d, m, bound, inside, rfl⟩ := h
    refine ⟨_, (between_iff _ lo hi d m bound).mpr inside, ?_⟩
    rw [digits, Nat.mul_add_div positive, Nat.div_eq_of_lt bound, Nat.add_zero, Nat.mul_add_mod,
      Nat.mod_eq_of_lt bound]

theorem matches_within {trail : Nat}
    (exact : ∀ lo hi, lo ≤ hi → ∀ numbers, MatchesSome (blocks trail lo hi) numbers ↔
      ∃ n, (lo ≤ n ∧ n ≤ hi) ∧ digits trail n = numbers)
    {start stop : Nat} (ordered : start ≤ stop) (digit d : Nat) (rest : List Nat) :
    MatchesSome ((blocks trail start stop).map ((digit, digit) :: ·)) (d :: rest) ↔
      d = digit ∧ ∃ m, (start ≤ m ∧ m ≤ stop) ∧ digits trail m = rest := by
  rw [matchesSome_map_cons, exact start stop ordered rest]
  constructor
  · intro h
    obtain ⟨inside, spelled⟩ := h
    exact ⟨by omega, spelled⟩
  · intro h
    obtain ⟨rfl, spelled⟩ := h
    exact ⟨⟨Nat.le_refl d, Nat.le_refl d⟩, spelled⟩

theorem matches_middle (trail lower upper d : Nat) (rest : List Nat) :
    MatchesSome (if lower < upper then
        [(lower, upper - 1) :: List.replicate (trail + 1) (0, 63)] else []) (d :: rest) ↔
      (lower ≤ d ∧ d < upper) ∧ ∃ m < 64 ^ (trail + 1), digits trail m = rest := by
  split
  next room =>
    simp only [MatchesSome, List.mem_singleton, exists_eq_left, List.forall₂_cons, matches_complete]
    constructor
    · intro h
      obtain ⟨inside, spelled⟩ := h
      exact ⟨by omega, spelled⟩
    · intro h
      obtain ⟨inside, spelled⟩ := h
      exact ⟨by omega, spelled⟩
  next none =>
    rw [matchesSome_nil, false_iff]
    intro h
    obtain ⟨inside, _⟩ := h
    omega

theorem matchesSome_unless (c : Prop) [Decidable c] (sequences : List (List (Nat × Nat)))
    (numbers : List Nat) :
    MatchesSome (if c then [] else sequences) numbers ↔ ¬c ∧ MatchesSome sequences numbers := by
  split <;> simp_all

theorem matches_blocks (trail lo hi : Nat) (ordered : lo ≤ hi) (numbers : List Nat) :
    MatchesSome (blocks trail lo hi) numbers ↔ ∃ n, (lo ≤ n ∧ n ≤ hi) ∧ digits trail n = numbers := by
  induction trail generalizing lo hi numbers with
  | zero =>
    simp only [blocks, MatchesSome, List.mem_singleton, exists_eq_left, digits]
    constructor
    · intro h
      cases h with
      | @cons _ n _ rest inside tail => cases tail; exact ⟨n, inside, rfl⟩
    · intro h
      obtain ⟨n, inside, rfl⟩ := h
      exact .cons inside .nil
  | succ trail ih =>
    have positive := width_pos (trail + 1)
    have start := Nat.mod_lt lo positive
    have stop := Nat.mod_lt hi positive
    have heads : lo / 64 ^ (trail + 1) ≤ hi / 64 ^ (trail + 1) := Nat.div_le_div_right ordered
    have within := (le_iff_div_mod (64 ^ (trail + 1)) lo hi).mp ordered
    have middle := matches_middle trail
    rw [spelled_iff, blocks, width_eq]
    generalize 64 ^ (trail + 1) = width at *
    generalize lo / width = head at *
    generalize hi / width = last at *
    generalize lo % width = low at *
    generalize hi % width = high at *
    dsimp only
    cases numbers with
    | nil =>
      simp only [reduceCtorEq, and_false, exists_false, iff_false]
      split
      next same => exact matchesSome_cons_nil _ _
      next apart =>
        rw [matchesSome_append, matchesSome_append, matchesSome_unless, matchesSome_unless]
        intro h
        rcases h with (⟨_, impossible⟩ | impossible) | ⟨_, impossible⟩
        · exact matchesSome_cons_nil _ _ impossible
        · split at impossible <;> simp [MatchesSome] at impossible
        · exact matchesSome_cons_nil _ _ impossible
    | cons d rest =>
      simp only [List.cons.injEq]
      split
      next same =>
        rw [matches_within ih (by omega)]
        constructor
        · intro h
          obtain ⟨rfl, m, inside, spelled⟩ := h
          exact ⟨d, m, by omega, by omega, rfl, spelled⟩
        · intro h
          obtain ⟨_, m, bound, inside, rfl, spelled⟩ := h
          exact ⟨by omega, m, by omega, spelled⟩
      next apart =>
        rw [matchesSome_append, matchesSome_append, matchesSome_unless, matchesSome_unless,
          matches_within ih (by omega), matches_within ih (by omega), middle]
        constructor
        · intro h
          rcases h with (⟨_, rfl, m, inside, spelled⟩ | ⟨between, m, inside, spelled⟩) |
            ⟨_, rfl, m, inside, spelled⟩
          · exact ⟨d, m, by omega, by omega, rfl, spelled⟩
          · refine ⟨d, m, inside, ?_, rfl, spelled⟩
            split at between <;> split at between <;> omega
          · exact ⟨d, m, by omega, by omega, rfl, spelled⟩
        · intro h
          obtain ⟨e, m, bound, inside, rfl, spelled⟩ := h
          by_cases lowest : low ≠ 0 ∧ e = head
          · exact .inl (.inl ⟨lowest.1, lowest.2, m, by omega, spelled⟩)
          · by_cases highest : high ≠ width - 1 ∧ e = last
            · exact .inr ⟨highest.1, highest.2, m, by omega, spelled⟩
            · refine .inl (.inr ⟨?_, m, bound, spelled⟩)
              split <;> split <;> omega

theorem blocks_shape (trail lo hi : Nat) (ordered : lo ≤ hi) {sequence : List (Nat × Nat)}
    (member : sequence ∈ blocks trail lo hi) :
    ∃ lead rest, sequence = lead :: rest ∧ (lead.1 ≤ lead.2 ∧ lead.2 ≤ hi / 64 ^ trail) ∧
      ∀ r ∈ rest, r.1 ≤ r.2 ∧ r.2 < 64 := by
  induction trail generalizing lo hi sequence with
  | zero =>
    obtain rfl := List.mem_singleton.mp member
    exact ⟨(lo, hi), [], rfl, ⟨ordered, by simp⟩, by simp⟩
  | succ trail ih =>
    have positive := width_pos (trail + 1)
    have start := Nat.mod_lt lo positive
    have stop := Nat.mod_lt hi positive
    have within := (le_iff_div_mod (64 ^ (trail + 1)) lo hi).mp ordered
    -- A block with one leading digit has that digit in front of a smaller block.
    have nested (digit low high : Nat) (inside : low ≤ high) (bound : high < 64 ^ (trail + 1))
        (top : digit ≤ hi / 64 ^ (trail + 1))
        (member : sequence ∈ (blocks trail low high).map ((digit, digit) :: ·)) :
        ∃ lead rest, sequence = lead :: rest ∧
          (lead.1 ≤ lead.2 ∧ lead.2 ≤ hi / 64 ^ (trail + 1)) ∧ ∀ r ∈ rest, r.1 ≤ r.2 ∧ r.2 < 64 := by
      obtain ⟨sequence, inner, rfl⟩ := List.mem_map.mp member
      obtain ⟨lead, rest, rfl, leading, digits⟩ := ih low high inside inner
      rw [Nat.pow_succ] at bound
      have small : high / 64 ^ trail < 64 := Nat.div_lt_of_lt_mul bound
      refine ⟨_, _, rfl, ⟨Nat.le_refl digit, top⟩, ?_⟩
      intro r member
      rcases List.mem_cons.mp member with rfl | member
      · exact ⟨leading.1, by omega⟩
      · exact digits r member
    rw [blocks, width_eq] at member
    generalize 64 ^ (trail + 1) = width at *
    generalize lo / width = head at *
    generalize hi / width = last at *
    generalize lo % width = low at *
    generalize hi % width = high at *
    dsimp only at member
    split at member
    next same => exact nested head low high (by omega) stop (by omega) member
    next apart =>
      rw [List.mem_append, List.mem_append, List.mem_ite_nil_left, List.mem_ite_nil_right,
        List.mem_ite_nil_left, List.mem_singleton] at member
      rcases member with (⟨partly, member⟩ | ⟨room, rfl⟩) | ⟨partly, member⟩
      · exact nested head low (width - 1) (by omega) (by omega) (by omega) member
      · refine ⟨_, _, rfl, ⟨?_, ?_⟩, ?_⟩
        · dsimp only
          omega
        · dsimp only
          split <;> omega
        · intro r member
          rw [List.eq_of_mem_replicate member]
          decide
      · exact nested last 0 high (by omega) stop (by omega) member

def markNumbers (zone : Utf8Zone) : List Nat → List UInt8
  | [] => []
  | lead :: rest => UInt8.ofNat (zone.marker + lead) :: rest.map fun d => UInt8.ofNat (0x80 + d)

theorem contains_marked (base lo hi : Nat) (bound : base + hi < 256) (ordered : lo ≤ hi) (b : UInt8) :
    (ByteRange.mk (UInt8.ofNat (base + lo)) (UInt8.ofNat (base + hi))).contains b = true ↔
      ∃ n, (lo ≤ n ∧ n ≤ hi) ∧ UInt8.ofNat (base + n) = b := by
  have value (n : Nat) (small : base + n < 256) : (UInt8.ofNat (base + n)).toNat = base + n :=
    UInt8.toNat_ofNat_of_lt' small
  simp only [ByteRange.contains, Bool.and_eq_true, decide_eq_true_eq, UInt8.le_iff_toNat_le]
  rw [value lo (by omega), value hi bound]
  constructor
  · intro inside
    refine ⟨b.toNat - base, by omega, ?_⟩
    rw [show base + (b.toNat - base) = b.toNat by omega, UInt8.ofNat_toNat]
  · intro h
    obtain ⟨n, inside, rfl⟩ := h
    rw [value n (by omega)]
    omega

theorem matchAll_trail (ranges : List (Nat × Nat)) (digits : ∀ r ∈ ranges, r.1 ≤ r.2 ∧ r.2 < 64)
    (bytes : List UInt8) :
    ByteRange.matchAll (ranges.map fun (lo, hi) =>
        ⟨UInt8.ofNat (0x80 + lo), UInt8.ofNat (0x80 + hi)⟩) bytes = true ↔
      ∃ numbers, Matches ranges numbers ∧ numbers.map (fun d => UInt8.ofNat (0x80 + d)) = bytes := by
  induction ranges generalizing bytes with
  | nil => cases bytes <;> simp [ByteRange.matchAll]
  | cons r ranges ih =>
    have first := digits r List.mem_cons_self
    cases bytes with
    | nil => simp [ByteRange.matchAll, List.forall₂_cons_left_iff]
    | cons b bytes =>
      rw [List.map_cons, ByteRange.matchAll, Bool.and_eq_true,
        contains_marked 0x80 r.1 r.2 (by omega) first.1,
        ih (fun s member => digits s (List.mem_cons_of_mem r member))]
      constructor
      · intro h
        obtain ⟨⟨n, inside, rfl⟩, numbers, rest, rfl⟩ := h
        exact ⟨n :: numbers, .cons inside rest, rfl⟩
      · intro h
        obtain ⟨_, inside, same⟩ := h
        cases inside with
        | cons inside rest =>
          obtain ⟨rfl, rfl⟩ := List.cons.inj same
          exact ⟨⟨_, inside, rfl⟩, _, rest, rfl⟩

theorem matchAll_mark (zone : Utf8Zone) (lead : Nat × Nat) (ranges : List (Nat × Nat))
    (bound : zone.marker + lead.2 < 256) (ordered : lead.1 ≤ lead.2)
    (digits : ∀ r ∈ ranges, r.1 ≤ r.2 ∧ r.2 < 64) (bytes : List UInt8) :
    ByteRange.matchAll (zone.mark (lead :: ranges)) bytes = true ↔
      ∃ numbers, Matches (lead :: ranges) numbers ∧ zone.markNumbers numbers = bytes := by
  cases bytes with
  | nil => simp [mark, ByteRange.matchAll, List.forall₂_cons_left_iff, markNumbers]
  | cons b bytes =>
    rw [mark, ByteRange.matchAll, Bool.and_eq_true, contains_marked _ _ _ bound ordered,
      matchAll_trail ranges digits]
    constructor
    · intro h
      obtain ⟨⟨n, inside, rfl⟩, numbers, rest, rfl⟩ := h
      exact ⟨n :: numbers, .cons inside rest, rfl⟩
    · intro h
      obtain ⟨_, inside, same⟩ := h
      cases inside with
      | cons inside rest =>
        obtain ⟨rfl, rfl⟩ := List.cons.inj same
        exact ⟨⟨_, inside, rfl⟩, _, rest, rfl⟩

def encode (zone : Utf8Zone) (n : Nat) : List UInt8 := zone.markNumbers (digits zone.trail n)

theorem marker_bound {zone : Utf8Zone} (member : zone ∈ all) :
    zone.marker + zone.last / 64 ^ zone.trail < 256 := by
  revert zone
  decide

theorem lower_matches {zone : Utf8Zone} (member : zone ∈ all) (range : CodeRange)
    (bytes : List UInt8) :
    (∃ sequence ∈ zone.lower range, ByteRange.matchAll sequence bytes = true) ↔
      ∃ n, (range.lo ≤ n ∧ n ≤ range.hi) ∧ (zone.first ≤ n ∧ n ≤ zone.last) ∧ zone.encode n = bytes := by
  unfold lower
  dsimp only
  split
  next room =>
    have bound := marker_bound member
    have heads : min range.hi zone.last / 64 ^ zone.trail ≤ zone.last / 64 ^ zone.trail :=
      Nat.div_le_div_right (Nat.min_le_right _ _)
    constructor
    · intro h
      obtain ⟨_, lowered, matched⟩ := h
      obtain ⟨sequence, block, rfl⟩ := List.mem_map.mp lowered
      obtain ⟨lead, rest, rfl, leading, digits⟩ := blocks_shape _ _ _ room block
      obtain ⟨numbers, inside, rfl⟩ :=
        (matchAll_mark zone lead rest (by omega) leading.1 digits bytes).mp matched
      obtain ⟨n, between, rfl⟩ := (matches_blocks _ _ _ room numbers).mp ⟨_, block, inside⟩
      exact ⟨n, by omega, by omega, rfl⟩
    · intro h
      obtain ⟨n, inside, zoned, rfl⟩ := h
      obtain ⟨sequence, block, matched⟩ :=
        (matches_blocks zone.trail _ _ room (digits zone.trail n)).mpr ⟨n, by omega, rfl⟩
      obtain ⟨lead, rest, rfl, leading, digits⟩ := blocks_shape _ _ _ room block
      refine ⟨_, List.mem_map_of_mem block, ?_⟩
      exact (matchAll_mark zone lead rest (by omega) leading.1 digits _).mpr ⟨_, matched, rfl⟩
  next none =>
    constructor
    · intro h
      obtain ⟨_, member, _⟩ := h
      simp at member
    · intro h
      obtain ⟨n, inside, zoned, _⟩ := h
      omega

theorem ofNat_le_ofNat {m n : Nat} (ordered : m ≤ n) (bound : n < 256) : UInt8.ofNat m ≤ UInt8.ofNat n := by
  rw [UInt8.le_iff_toNat_le, UInt8.toNat_ofNat_of_lt' (Nat.lt_of_le_of_lt ordered bound),
    UInt8.toNat_ofNat_of_lt' bound]
  exact ordered

theorem lower_proper {zone : Utf8Zone} (member : zone ∈ all) (range : CodeRange)
    {sequence : List ByteRange} (lowered : sequence ∈ zone.lower range) {r : ByteRange}
    (inside : r ∈ sequence) : r.lo ≤ r.hi := by
  unfold lower at lowered
  dsimp only at lowered
  split at lowered
  next room =>
    have bound := marker_bound member
    have heads : min range.hi zone.last / 64 ^ zone.trail ≤ zone.last / 64 ^ zone.trail :=
      Nat.div_le_div_right (Nat.min_le_right _ _)
    obtain ⟨_, block, rfl⟩ := List.mem_map.mp lowered
    obtain ⟨lead, rest, rfl, leading, digits⟩ := blocks_shape _ _ _ room block
    rcases List.mem_cons.mp inside with rfl | inside
    · exact ofNat_le_ofNat (by omega) (by omega)
    · obtain ⟨s, trailing, rfl⟩ := List.mem_map.mp inside
      have := digits s trailing
      exact ofNat_le_ofNat (by omega) (by omega)
  next none => simp at lowered

theorem encode_eq {zone : Utf8Zone} (member : zone ∈ all) (c : Char)
    (zoned : zone.first ≤ c.toNat ∧ c.toNat ≤ zone.last) :
    zone.encode c.toNat = String.utf8EncodeChar c := by
  have value : c.val.toNat = c.toNat := rfl
  simp only [all, List.mem_cons, List.not_mem_nil, or_false] at member
  unfold String.utf8EncodeChar
  rw [value]
  generalize c.toNat = n at *
  rcases member with rfl | rfl | rfl | rfl | rfl
  all_goals simp only [encode, digits, markNumbers, Nat.reduceAdd, Nat.reducePow, List.map_cons,
    List.map_nil] at zoned ⊢
  · rw [if_pos (by omega), Nat.zero_add]
  · rw [if_neg (by omega), if_pos (by omega)]
    simp only [List.cons.injEq, and_true]
    exact ⟨congrArg UInt8.ofNat (by omega), congrArg UInt8.ofNat (by omega)⟩
  · rw [if_neg (by omega), if_neg (by omega), if_pos (by omega)]
    simp only [List.cons.injEq, and_true]
    exact ⟨congrArg UInt8.ofNat (by omega), congrArg UInt8.ofNat (by omega),
      congrArg UInt8.ofNat (by omega)⟩
  · rw [if_neg (by omega), if_neg (by omega), if_pos (by omega)]
    simp only [List.cons.injEq, and_true]
    exact ⟨congrArg UInt8.ofNat (by omega), congrArg UInt8.ofNat (by omega),
      congrArg UInt8.ofNat (by omega)⟩
  · rw [if_neg (by omega), if_neg (by omega), if_neg (by omega)]
    simp only [List.cons.injEq, and_true]
    exact ⟨congrArg UInt8.ofNat (by omega), congrArg UInt8.ofNat (by omega),
      congrArg UInt8.ofNat (by omega), congrArg UInt8.ofNat (by omega)⟩

theorem exists_zone (c : Char) : ∃ zone ∈ all, zone.first ≤ c.toNat ∧ c.toNat ≤ zone.last := by
  have valid : c.toNat < 0xD800 ∨ 0xDFFF < c.toNat ∧ c.toNat < 0x110000 := c.valid
  simp only [all, List.mem_cons, List.not_mem_nil, or_false, exists_eq_or_imp, exists_eq_left]
  omega

theorem exists_char {zone : Utf8Zone} (member : zone ∈ all) {n : Nat}
    (zoned : zone.first ≤ n ∧ n ≤ zone.last) : ∃ c : Char, c.toNat = n := by
  have valid : n.isValidChar := by
    simp only [all, List.mem_cons, List.not_mem_nil, or_false] at member
    unfold Nat.isValidChar
    rcases member with rfl | rfl | rfl | rfl | rfl <;> dsimp only at zoned <;> omega
  exact ⟨Char.ofNatAux n valid, rfl⟩

end Utf8Zone

namespace CodeRange

theorem toUtf8_matches (range : CodeRange) (bytes : List UInt8) :
    (∃ sequence ∈ range.toUtf8, ByteRange.matchAll sequence bytes = true) ↔
      ∃ c : Char, c.toNat ∈ range ∧ String.utf8EncodeChar c = bytes := by
  have zones : (∃ sequence ∈ range.toUtf8, ByteRange.matchAll sequence bytes = true) ↔
      ∃ zone ∈ Utf8Zone.all, ∃ sequence ∈ zone.lower range,
        ByteRange.matchAll sequence bytes = true := by
    simp only [toUtf8, List.mem_flatMap]
    constructor
    · intro h
      obtain ⟨sequence, ⟨zone, member, lowered⟩, matched⟩ := h
      exact ⟨zone, member, sequence, lowered, matched⟩
    · intro h
      obtain ⟨zone, member, sequence, lowered, matched⟩ := h
      exact ⟨sequence, ⟨zone, member, lowered⟩, matched⟩
  rw [zones]
  constructor
  · intro h
    obtain ⟨zone, member, matched⟩ := h
    obtain ⟨n, inside, zoned, rfl⟩ := (Utf8Zone.lower_matches member range bytes).mp matched
    obtain ⟨c, rfl⟩ := Utf8Zone.exists_char member zoned
    exact ⟨c, inside, (Utf8Zone.encode_eq member c zoned).symm⟩
  · intro h
    obtain ⟨c, inside, rfl⟩ := h
    obtain ⟨zone, member, zoned⟩ := Utf8Zone.exists_zone c
    refine ⟨zone, member, (Utf8Zone.lower_matches member range _).mpr ⟨c.toNat, inside, zoned, ?_⟩⟩
    exact Utf8Zone.encode_eq member c zoned

theorem toUtf8_proper (range : CodeRange) {sequence : List ByteRange}
    (lowered : sequence ∈ range.toUtf8) {r : ByteRange} (inside : r ∈ sequence) : r.lo ≤ r.hi := by
  obtain ⟨zone, member, lowered⟩ := List.mem_flatMap.mp lowered
  exact Utf8Zone.lower_proper member range lowered inside

/-- The lowered canonical list matches the encodings of the characters that the ranges hold, or of
those that they do not hold. -/
theorem lowered_matches (ranges : List CodeRange) (negated : Bool) (bytes : List UInt8) :
    (∃ sequence ∈ (canonical ranges negated).flatMap toUtf8, ByteRange.matchAll sequence bytes = true) ↔
      ∃ c : Char, (CoversSwapped ranges c.toNat ↔ negated = false) ∧
        String.utf8EncodeChar c = bytes := by
  have point (c : Char) : c.toNat ≤ maxCodePoint := by
    have valid : c.toNat < 0xD800 ∨ 0xDFFF < c.toNat ∧ c.toNat < 0x110000 := c.valid
    unfold maxCodePoint
    omega
  simp only [List.mem_flatMap, ← covers_canonical ranges negated _ (point _)]
  constructor
  · intro h
    obtain ⟨sequence, ⟨range, member, lowered⟩, matched⟩ := h
    obtain ⟨c, inside, rfl⟩ := (toUtf8_matches range bytes).mp ⟨sequence, lowered, matched⟩
    exact ⟨c, ⟨range, member, inside⟩, rfl⟩
  · intro h
    obtain ⟨c, ⟨range, member, inside⟩, rfl⟩ := h
    obtain ⟨sequence, lowered, matched⟩ := (toUtf8_matches range _).mpr ⟨c, inside, rfl⟩
    exact ⟨sequence, ⟨range, member, lowered⟩, matched⟩

theorem nil_not_mem_lowered (ranges : List CodeRange) (negated : Bool) :
    [] ∉ (canonical ranges negated).flatMap toUtf8 := by
  intro member
  obtain ⟨c, _, none⟩ := (lowered_matches ranges negated []).mp ⟨[], member, rfl⟩
  have size := String.length_utf8EncodeChar c
  rw [none, List.length_nil] at size
  exact absurd c.utf8Size_pos (by omega)

theorem lowered_proper (ranges : List CodeRange) (negated : Bool) {sequence : List ByteRange}
    (lowered : sequence ∈ (canonical ranges negated).flatMap toUtf8) {r : ByteRange}
    (inside : r ∈ sequence) : r.lo ≤ r.hi := by
  obtain ⟨range, _, lowered⟩ := List.mem_flatMap.mp lowered
  exact toUtf8_proper range lowered inside

end CodeRange

namespace ByteRange

theorem mem_bytes {r : ByteRange} {b : UInt8} : b ∈ r.bytes ↔ r.contains b = true := by
  simp only [bytes, contains, List.mem_map, List.mem_range'_1, Bool.and_eq_true, decide_eq_true_eq,
    UInt8.le_iff_toNat_le]
  constructor
  · rintro ⟨n, bounds, rfl⟩
    have small : n < 256 := Nat.lt_of_lt_of_le bounds.2 (by have := r.hi.toNat_lt; omega)
    rw [UInt8.toNat_ofNat', Nat.mod_eq_of_lt small]
    omega
  · intro bounds
    exact ⟨b.toNat, by omega, UInt8.ofNat_toNat⟩

theorem contains_single (b c : UInt8) : (ByteRange.mk b b).contains c = true ↔ c = b := by
  simp only [contains, Bool.and_eq_true, decide_eq_true_eq]
  constructor
  · intro h
    obtain ⟨low, high⟩ := h
    exact UInt8.le_antisymm high low
  · intro h
    obtain rfl := h
    exact ⟨UInt8.le_refl c, UInt8.le_refl c⟩

theorem matchAll_literal (literal bytes : List UInt8) :
    matchAll (literal.map fun b => ⟨b, b⟩) bytes = true ↔ bytes = literal := by
  induction literal generalizing bytes with
  | nil => cases bytes <;> simp [matchAll]
  | cons b literal ih =>
    cases bytes with
    | nil => simp [matchAll]
    | cons c bytes =>
      rw [List.map_cons, matchAll, Bool.and_eq_true, contains_single, ih, List.cons.injEq]

end ByteRange
end GuidedDecoding
