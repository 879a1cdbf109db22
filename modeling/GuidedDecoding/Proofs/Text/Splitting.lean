import Mathlib
import GuidedDecoding.Text.Splitting
import GuidedDecoding.Proofs.Text.Sequences

namespace GuidedDecoding

theorem checkedAdd_eq {a b : UInt32} (fits : a.toNat + b.toNat < UInt32.size) :
    ∃ sum, checkedAdd a b = some sum ∧ sum.toNat = a.toNat + b.toNat := by
  refine ⟨a + b, if_pos fits, ?_⟩
  rw [UInt32.toNat_add, Nat.mod_eq_of_lt fits]

theorem checkedSub_eq {a b : UInt32} (ordered : b.toNat ≤ a.toNat) :
    ∃ difference, checkedSub a b = some difference ∧ difference.toNat = a.toNat - b.toNat := by
  have le : b ≤ a := UInt32.le_iff_toNat_le.mpr ordered
  exact ⟨a - b, if_pos le, UInt32.toNat_sub_of_le a b le⟩

section Mask

variable {mask : UInt32} {bits : Nat}

theorem and_mask (low : mask.toNat = 2 ^ bits - 1) (word : UInt32) :
    (word &&& mask).toNat = word.toNat % 2 ^ bits := by
  rw [UInt32.toNat_and, low, Nat.and_two_pow_sub_one_eq_mod]

theorem and_not_mask (low : mask.toNat = 2 ^ bits - 1) (word : UInt32) :
    (word &&& ~~~mask).toNat = 2 ^ bits * (word.toNat / 2 ^ bits) := by
  have size : word.toNat < 2 ^ 32 := word.toNat_lt
  have clear (i : Nat) : (~~~mask).toNat.testBit i = (decide (i < 32) && !decide (i < bits)) := by
    have others : (~~~mask).toNat = 2 ^ 32 - (mask.toNat + 1) := by
      rw [UInt32.toNat_not, Nat.sub_sub, Nat.add_comm 1]
      rfl
    rw [others, Nat.testBit_two_pow_sub_succ mask.toNat_lt, low, Nat.testBit_two_pow_sub_one]
  apply Nat.eq_of_testBit_eq
  intro i
  rw [UInt32.toNat_and, Nat.testBit_and, clear, Nat.testBit_two_pow_mul, Nat.testBit_div_two_pow]
  by_cases inside : i < bits
  · simp [inside]
  · have outside := Nat.le_of_not_lt inside
    rw [Nat.sub_add_cancel outside]
    by_cases short : i < 32
    · simp [inside, outside, short]
    · have none : word.toNat.testBit i = false :=
        Nat.testBit_lt_two_pow (Nat.lt_of_lt_of_le size (Nat.pow_le_pow_right (by decide) (by omega)))
      rw [none, Bool.false_and, Bool.and_false]

theorem or_mask (low : mask.toNat = 2 ^ bits - 1) (word : UInt32) :
    (word ||| mask).toNat = 2 ^ bits * (word.toNat / 2 ^ bits) + (2 ^ bits - 1) := by
  have below : 2 ^ bits - 1 < 2 ^ bits := Nat.sub_lt (Nat.two_pow_pos bits) Nat.one_pos
  apply Nat.eq_of_testBit_eq
  intro i
  rw [UInt32.toNat_or, low, Nat.testBit_or, Nat.testBit_two_pow_mul_add _ below,
    Nat.testBit_two_pow_sub_one, Nat.testBit_div_two_pow]
  by_cases inside : i < bits
  · simp [inside]
  · simp [inside, Nat.sub_add_cancel (Nat.le_of_not_lt inside)]

end Mask

namespace Stretch

def range (stretch : Stretch) : CodeRange := ⟨stretch.start.toNat, stretch.stop.toNat⟩

structure Cut (stretch : Stretch) (last next : UInt32) : Prop where
  meet : last.toNat + 1 = next.toNat
  after : stretch.start.toNat < next.toNat
  before : next.toNat ≤ stretch.stop.toNat

/-- A cut at the border of a block that the stretch enters or leaves in its middle. -/
structure BlockCut (stretch : Stretch) (size : Nat) (last next : UInt32) : Prop
    extends stretch.Cut last next where
  border : 64 ^ size ∣ next.toNat
  near : next.toNat < stretch.start.toNat + 64 ^ size ∨ stretch.stop.toNat + 1 < next.toNat + 64 ^ size

def Uncut (stretch : Stretch) (size : Nat) : Prop :=
  stretch.start.toNat / 64 ^ size = stretch.stop.toNat / 64 ^ size ∨
    64 ^ size ∣ stretch.start.toNat ∧ 64 ^ size ∣ stretch.stop.toNat + 1

theorem cutBehind?_spec (stretch : Stretch) (borders : List UInt32) :
    (stretch.cutBehind? borders = some none ∧
      ∀ last ∈ borders, ¬(stretch.start.toNat ≤ last.toNat ∧ last.toNat < stretch.stop.toNat)) ∨
    ∃ last ∈ borders, ∃ next, stretch.Cut last next ∧
      stretch.cutBehind? borders = some (some [⟨stretch.start, last⟩, ⟨next, stretch.stop⟩]) := by
  induction borders with
  | nil => exact .inl ⟨rfl, by simp⟩
  | cons border borders ih =>
    unfold cutBehind?
    simp only [UInt32.le_iff_toNat_le, UInt32.lt_iff_toNat_lt]
    by_cases inside : stretch.start.toNat ≤ border.toNat ∧ border.toNat < stretch.stop.toNat
    · have top : stretch.stop.toNat < UInt32.size := stretch.stop.toNat_lt
      obtain ⟨next, sum, value⟩ := checkedAdd_eq (a := border) (b := 1) (by
        change border.toNat + 1 < UInt32.size
        omega)
      change next.toNat = border.toNat + 1 at value
      refine .inr ⟨border, List.mem_cons_self, next, ⟨by omega, by omega, by omega⟩, ?_⟩
      rw [if_pos inside, sum, Option.map_some]
    · rw [if_neg inside]
      rcases ih with ⟨none, outside⟩ | ⟨last, member, cut⟩
      · refine .inl ⟨none, ?_⟩
        intro last member
        rcases List.mem_cons.mp member with rfl | member
        · exact inside
        · exact outside last member
      · exact .inr ⟨last, List.mem_cons_of_mem _ member, cut⟩

theorem exists_mask {size : Nat} (small : size ≤ 5) :
    ∃ mask, checkedSub (1 <<< UInt32.ofNat (6 * size)) 1 = some mask ∧ mask.toNat = 2 ^ (6 * size) - 1 := by
  interval_cases size <;> exact ⟨_, rfl, rfl⟩

theorem same_block_iff {mask : UInt32} {bits : Nat} (low : mask.toNat = 2 ^ bits - 1) (a b : UInt32) :
    a &&& ~~~mask = b &&& ~~~mask ↔ a.toNat / 2 ^ bits = b.toNat / 2 ^ bits := by
  rw [← UInt32.toNat_inj, and_not_mask low, and_not_mask low,
    Nat.mul_right_inj (Nat.two_pow_pos bits).ne']

theorem cut_start (stretch : Stretch) {mask : UInt32} {size : Nat} (low : mask.toNat = 2 ^ (6 * size) - 1)
    (apart : stretch.start.toNat / 64 ^ size < stretch.stop.toNat / 64 ^ size)
    (partly : stretch.start.toNat % 64 ^ size ≠ 0) :
    ∃ next, checkedAdd (stretch.start ||| mask) 1 = some next ∧
      stretch.BlockCut size (stretch.start ||| mask) next := by
  have width : 2 ^ (6 * size) = 64 ^ size := Nat.pow_mul 2 6 size
  have last := or_mask low stretch.start
  have positive := Utf8Zone.width_pos size
  have start := Nat.div_add_mod stretch.start.toNat (64 ^ size)
  have stop := Nat.div_add_mod stretch.stop.toNat (64 ^ size)
  have later : 64 ^ size * (stretch.start.toNat / 64 ^ size + 1) ≤
      64 ^ size * (stretch.stop.toNat / 64 ^ size) := Nat.mul_le_mul_left _ apart
  have top : stretch.stop.toNat < UInt32.size := stretch.stop.toNat_lt
  have rest := Nat.mod_lt stretch.start.toNat positive
  rw [width] at last
  rw [Nat.mul_succ] at later
  obtain ⟨next, sum, value⟩ := checkedAdd_eq (a := stretch.start ||| mask) (b := 1) (by
    change _ + 1 < UInt32.size
    omega)
  change next.toNat = _ + 1 at value
  have border : next.toNat = 64 ^ size * (stretch.start.toNat / 64 ^ size + 1) := by
    rw [Nat.mul_succ]
    omega
  refine ⟨next, sum, ⟨by omega, by omega, by omega⟩, ?_, .inl (by omega)⟩
  rw [border]
  exact Nat.dvd_mul_right _ _

theorem cut_stop (stretch : Stretch) {mask : UInt32} {size : Nat} (low : mask.toNat = 2 ^ (6 * size) - 1)
    (apart : stretch.start.toNat / 64 ^ size < stretch.stop.toNat / 64 ^ size)
    (whole : stretch.start.toNat % 64 ^ size = 0)
    (partly : stretch.stop.toNat % 64 ^ size ≠ 64 ^ size - 1) :
    ∃ last, checkedSub (stretch.stop &&& ~~~mask) 1 = some last ∧
      stretch.BlockCut size last (stretch.stop &&& ~~~mask) := by
  have width : 2 ^ (6 * size) = 64 ^ size := Nat.pow_mul 2 6 size
  have next := and_not_mask low stretch.stop
  have positive := Utf8Zone.width_pos size
  have start := Nat.div_add_mod stretch.start.toNat (64 ^ size)
  have stop := Nat.div_add_mod stretch.stop.toNat (64 ^ size)
  have later : 64 ^ size * (stretch.start.toNat / 64 ^ size + 1) ≤
      64 ^ size * (stretch.stop.toNat / 64 ^ size) := Nat.mul_le_mul_left _ apart
  have rest := Nat.mod_lt stretch.stop.toNat positive
  rw [width] at next
  rw [Nat.mul_succ] at later
  obtain ⟨last, difference, value⟩ := checkedSub_eq (a := stretch.stop &&& ~~~mask) (b := 1) (by
    change 1 ≤ _
    omega)
  change last.toNat = _ - 1 at value
  refine ⟨last, difference, ⟨by omega, by omega, by omega⟩, ?_, .inr (by omega)⟩
  rw [next]
  exact Nat.dvd_mul_right _ _

theorem cutBlock?_spec (stretch : Stretch) (ordered : stretch.start.toNat ≤ stretch.stop.toNat)
    (sizes : List Nat) (small : ∀ size ∈ sizes, size ≤ 5) :
    (stretch.cutBlock? (sizes.map fun size => UInt32.ofNat (6 * size)) = some none ∧
      ∀ size ∈ sizes, stretch.Uncut size) ∨
    ∃ size ∈ sizes, ∃ last next, stretch.BlockCut size last next ∧
      stretch.cutBlock? (sizes.map fun size => UInt32.ofNat (6 * size)) =
        some (some [⟨stretch.start, last⟩, ⟨next, stretch.stop⟩]) := by
  induction sizes with
  | nil => exact .inl ⟨rfl, by simp⟩
  | cons size sizes ih =>
    obtain ⟨mask, shifted, low⟩ := exists_mask (small size List.mem_cons_self)
    have width : 2 ^ (6 * size) = 64 ^ size := Nat.pow_mul 2 6 size
    have others := ih fun other member => small other (List.mem_cons_of_mem size member)
    -- A block that is not cut leaves the matter to the larger ones.
    have further (uncut : stretch.Uncut size) :
        (stretch.cutBlock? (sizes.map fun size => UInt32.ofNat (6 * size)) = some none ∧
          ∀ other ∈ size :: sizes, stretch.Uncut other) ∨
        ∃ other ∈ size :: sizes, ∃ last next, stretch.BlockCut other last next ∧
          stretch.cutBlock? (sizes.map fun size => UInt32.ofNat (6 * size)) =
            some (some [⟨stretch.start, last⟩, ⟨next, stretch.stop⟩]) := by
      rcases others with ⟨none, rest⟩ | ⟨other, member, cut⟩
      · exact .inl ⟨none, List.forall_mem_cons.mpr ⟨uncut, rest⟩⟩
      · exact .inr ⟨other, List.mem_cons_of_mem size member, cut⟩
    have zero (word : UInt32) : word &&& mask = 0 ↔ word.toNat % 64 ^ size = 0 := by
      rw [← UInt32.toNat_inj, and_mask low, width]
      rfl
    have ones (word : UInt32) : word &&& mask = mask ↔ word.toNat % 64 ^ size = 64 ^ size - 1 := by
      rw [← UInt32.toNat_inj, and_mask low, low, width]
    rw [List.map_cons, cutBlock?, shifted]
    simp only [same_block_iff low, width, ne_eq, zero, ones]
    by_cases same : stretch.start.toNat / 64 ^ size = stretch.stop.toNat / 64 ^ size
    · rw [if_pos same]
      exact further (.inl same)
    · have apart : stretch.start.toNat / 64 ^ size < stretch.stop.toNat / 64 ^ size :=
        Nat.lt_of_le_of_ne (Nat.div_le_div_right ordered) same
      rw [if_neg same]
      by_cases entry : stretch.start.toNat % 64 ^ size = 0
      · rw [if_neg (not_not_intro entry)]
        by_cases exit : stretch.stop.toNat % 64 ^ size = 64 ^ size - 1
        · rw [if_neg (not_not_intro exit)]
          refine further (.inr ⟨Nat.dvd_of_mod_eq_zero entry, ?_⟩)
          have stop := Nat.div_add_mod stretch.stop.toNat (64 ^ size)
          have positive := Utf8Zone.width_pos size
          have full : stretch.stop.toNat + 1 = 64 ^ size * (stretch.stop.toNat / 64 ^ size + 1) := by
            rw [Nat.mul_succ]
            omega
          rw [full]
          exact Nat.dvd_mul_right _ _
        · obtain ⟨last, difference, cut⟩ := stretch.cut_stop low apart entry exit
          refine .inr ⟨size, List.mem_cons_self, last, _, cut, ?_⟩
          rw [if_pos exit, difference, Option.map_some]
      · obtain ⟨next, sum, cut⟩ := stretch.cut_start low apart entry
        refine .inr ⟨size, List.mem_cons_self, _, next, cut, ?_⟩
        rw [if_pos entry, sum, Option.map_some]

/-- What is left to cut of a stretch. It falls with every round, also for a stretch without code points. -/
def weight (stretch : Stretch) : Nat := 2 * (stretch.stop.toNat - stretch.start.toNat) + 1

def weights (parts : Parts) : Nat := (parts.map weight).sum

@[simp] theorem weights_nil : weights [] = 0 := rfl

@[simp] theorem weights_cons (part : Stretch) (parts : Parts) :
    weights (part :: parts) = part.weight + weights parts := by
  rw [weights, List.map_cons, List.sum_cons, weights]

@[simp] theorem weights_append (parts others : Parts) :
    weights (parts ++ others) = weights parts + weights others := by
  rw [weights, List.map_append, List.sum_append, weights, weights]

def lowered (parts : Parts) : List (List ByteRange) := parts.flatMap fun part => part.range.toUtf8

@[simp] theorem lowered_nil : lowered [] = [] := rfl

@[simp] theorem lowered_cons (part : Stretch) (parts : Parts) :
    lowered (part :: parts) = part.range.toUtf8 ++ lowered parts := List.flatMap_cons

@[simp] theorem lowered_append (parts others : Parts) :
    lowered (parts ++ others) = lowered parts ++ lowered others := List.flatMap_append

def Bounded (parts : Parts) : Prop := ∀ part ∈ parts, part.stop.toNat ≤ CodeRange.maxCodePoint

/-- The round keeps the sequences of the stretch, and its parts are lighter together. -/
structure Splits (stretch : Stretch) (round : Round) : Prop where
  bounded : Bounded round.parts
  kept : stretch.range.toUtf8 = round.sequences ++ lowered round.parts
  lighter : weights round.parts < stretch.weight

variable {stretch : Stretch}

theorem splits_done {sequences : List (List ByteRange)} (done : stretch.range.toUtf8 = sequences) :
    stretch.Splits ⟨[], sequences⟩ := by
  refine ⟨?_, ?_, ?_⟩
  · intro part member
    cases member
  · rw [done, lowered_nil, List.append_nil]
  · rw [weights_nil, weight]
    exact Nat.succ_pos _

theorem Cut.splits {last next : UInt32} (cut : stretch.Cut last next)
    (bounded : stretch.stop.toNat ≤ CodeRange.maxCodePoint)
    (kept : stretch.range.toUtf8 =
      CodeRange.toUtf8 ⟨stretch.start.toNat, last.toNat⟩ ++
        CodeRange.toUtf8 ⟨next.toNat, stretch.stop.toNat⟩) :
    stretch.Splits ⟨[⟨stretch.start, last⟩, ⟨next, stretch.stop⟩], []⟩ := by
  obtain ⟨meet, after, before⟩ := cut
  refine ⟨?_, ?_, ?_⟩
  · intro part member
    simp only [List.mem_cons, List.not_mem_nil, or_false] at member
    rcases member with rfl | rfl <;> dsimp only <;> omega
  · rw [kept, lowered_cons, lowered_cons, lowered_nil, List.append_nil, List.nil_append]
    rfl
  · simp only [weights_cons, weights_nil, weight]
    omega

/-- A stretch that is cut neither at the surrogates nor where encodings get longer. -/
structure Level (stretch : Stretch) : Prop where
  ordered : stretch.start.toNat ≤ stretch.stop.toNat
  bounded : stretch.stop.toNat ≤ CodeRange.maxCodePoint
  characters : ¬(stretch.start.toNat < 0xE000 ∧ 0xD7FF < stretch.stop.toNat)
  lengths : ∀ last ∈ ([0x7F, 0x7FF, 0xFFFF] : List UInt32),
    ¬(stretch.start.toNat ≤ last.toNat ∧ last.toNat < stretch.stop.toNat)

theorem Level.exists_zone (level : stretch.Level) :
    ∃ zone ∈ Utf8Zone.all, zone.first ≤ stretch.start.toNat ∧ stretch.stop.toNat ≤ zone.last := by
  obtain ⟨ordered, bounded, characters, lengths⟩ := level
  simp only [List.forall_mem_cons, UInt32.reduceToNat] at lengths
  simp only [CodeRange.maxCodePoint] at bounded
  simp only [Utf8Zone.all, List.mem_cons, List.not_mem_nil, or_false, exists_eq_or_imp,
    exists_eq_left]
  omega

theorem toUtf8_surrogates {lo hi : Nat} (start : lo ≤ 0xE000) (stop : 0xD7FF ≤ hi) :
    CodeRange.toUtf8 ⟨lo, hi⟩ = CodeRange.toUtf8 ⟨lo, 0xD7FF⟩ ++ CodeRange.toUtf8 ⟨0xE000, hi⟩ :=
  CodeRange.toUtf8_between (Utf8Zone.all.take 3) (Utf8Zone.all.drop 3) rfl (by decide) (by decide)
    (by decide) start stop

theorem surrogates_splits (bounded : stretch.stop.toNat ≤ CodeRange.maxCodePoint)
    (start : stretch.start.toNat < 0xE000) (stop : 0xD7FF < stretch.stop.toNat) {last next : UInt32}
    (gap : last.toNat = 0xD7FF) (border : next.toNat = 0xE000) {before behind : Parts}
    (first : before = if 0xD7FF < stretch.start.toNat then [] else [⟨stretch.start, last⟩])
    (second : behind = if 0xDFFF < stretch.stop.toNat then [⟨next, stretch.stop⟩] else []) :
    stretch.Splits ⟨before ++ behind, []⟩ := by
  have below : CodeRange.toUtf8 ⟨stretch.start.toNat, 0xD7FF⟩ = lowered before := by
    rw [first]
    split
    next inside => exact CodeRange.toUtf8_none inside
    next => rw [lowered_cons, lowered_nil, List.append_nil, range, gap]
  have above : CodeRange.toUtf8 ⟨0xE000, stretch.stop.toNat⟩ = lowered behind := by
    rw [second]
    split
    next => rw [lowered_cons, lowered_nil, List.append_nil, range, border]
    next inside => exact CodeRange.toUtf8_none (by omega)
  refine ⟨?_, ?_, ?_⟩
  · intro part member
    rw [List.mem_append, first, second, List.mem_ite_nil_left, List.mem_ite_nil_right,
      List.mem_singleton, List.mem_singleton] at member
    rcases member with ⟨_, rfl⟩ | ⟨_, rfl⟩
    · dsimp only
      omega
    · exact bounded
  · rw [range, toUtf8_surrogates start.le stop.le, below, above, lowered_append, List.nil_append]
  · rw [weights_append, first, second]
    split <;> split <;> simp only [weights_cons, weights_nil, weight] <;> omega

theorem behind_splits (bounded : stretch.stop.toNat ≤ CodeRange.maxCodePoint) {last next : UInt32}
    (member : last ∈ ([0x7F, 0x7FF, 0xFFFF] : List UInt32)) (cut : stretch.Cut last next) :
    stretch.Splits ⟨[⟨stretch.start, last⟩, ⟨next, stretch.stop⟩], []⟩ := by
  apply cut.splits bounded
  obtain ⟨meet, after, before⟩ := cut
  have border (count : Nat) (lower : ∀ zone ∈ Utf8Zone.all.take count, zone.last ≤ last.toNat)
      (upper : ∀ zone ∈ Utf8Zone.all.drop count, last.toNat + 1 ≤ zone.first) :
      stretch.range.toUtf8 = CodeRange.toUtf8 ⟨stretch.start.toNat, last.toNat⟩ ++
        CodeRange.toUtf8 ⟨next.toNat, stretch.stop.toNat⟩ := by
    rw [← meet] at after before ⊢
    exact CodeRange.toUtf8_between _ _ (List.take_append_drop count _).symm (Nat.lt_succ_self _) lower
      upper after.le (by omega)
  simp only [List.mem_cons, List.not_mem_nil, or_false] at member
  rcases member with rfl | rfl | rfl
  · exact border 1 (by decide) (by decide)
  · exact border 2 (by decide) (by decide)
  · exact border 4 (by decide) (by decide)

theorem Level.ascii_splits (level : stretch.Level) (ascii : stretch.stop.toNat ≤ 0x7F) :
    stretch.Splits ⟨[], [[⟨stretch.start.toUInt8, stretch.stop.toUInt8⟩]]⟩ := by
  have byte (word : UInt32) : UInt8.ofNat (0 + word.toNat) = word.toUInt8 := by
    rw [← UInt8.toNat_inj, Nat.zero_add]
    simp
  have zone : (⟨0, 0x7F, 0, 0⟩ : Utf8Zone) ∈ Utf8Zone.all := by decide
  apply splits_done
  rw [range, CodeRange.toUtf8_zone zone (Nat.zero_le _) ascii level.ordered]
  simp only [Utf8Zone.blocks, List.map_cons, List.map_nil, Utf8Zone.mark, byte]

theorem Level.block_splits (level : stretch.Level) {size : Nat} {last next : UInt32}
    (wide : 0x7F < stretch.stop.toNat) (proper : 0 < size) (cut : stretch.BlockCut size last next) :
    stretch.Splits ⟨[⟨stretch.start, last⟩, ⟨next, stretch.stop⟩], []⟩ := by
  apply cut.toCut.splits level.bounded
  obtain ⟨⟨meet, after, before⟩, border, near⟩ := cut
  obtain ⟨zone, member, first, final⟩ := level.exists_zone
  have small : zone.last < 64 ^ (zone.trail + 1) := (Utf8Zone.last_small member).resolve_left (by omega)
  have fits : 64 ^ size ≤ next.toNat := Nat.le_of_dvd (by omega) border
  have shallow : size ≤ zone.trail := by
    by_contra deep
    have wider : 64 ^ (zone.trail + 1) ≤ 64 ^ size := Nat.pow_le_pow_right (by decide) (by omega)
    omega
  have before_next : last.toNat = next.toNat - 1 := by omega
  rw [before_next]
  exact CodeRange.toUtf8_cut member first final ⟨proper, shallow⟩ border after before near

theorem Utf8Zone.trail_le {zone : Utf8Zone} (member : zone ∈ Utf8Zone.all) : zone.trail ≤ 3 := by
  revert zone
  decide

theorem length_encode (zone : Utf8Zone) (n : Nat) : (zone.encode n).length = zone.trail + 1 := by
  have digits (trail n : Nat) : (Utf8Zone.digits trail n).length = trail + 1 := by
    induction trail generalizing n with
    | zero => rfl
    | succ trail ih => rw [Utf8Zone.digits, List.length_cons, ih]
  have marked (numbers : List Nat) : (zone.markNumbers numbers).length = numbers.length := by
    cases numbers <;> simp [Utf8Zone.markNumbers]
  rw [Utf8Zone.encode, marked, digits]

theorem Level.uncut_splits (level : stretch.Level)
    (uncut : ∀ size ∈ [1, 2, 3], stretch.Uncut size) :
    ∃ sequences, stretch.sequences? = some sequences ∧ stretch.Splits ⟨[], sequences⟩ := by
  obtain ⟨zone, member, first, final⟩ := level.exists_zone
  have ordered := level.ordered
  have trail : zone.trail ≤ 3 := Utf8Zone.trail_le member
  obtain ⟨lo, low⟩ := Utf8Zone.exists_char member (n := stretch.start.toNat) (by omega)
  obtain ⟨hi, high⟩ := Utf8Zone.exists_char member (n := stretch.stop.toNat) (by omega)
  have lengths : (String.utf8EncodeChar lo).length = (String.utf8EncodeChar hi).length := by
    rw [← Utf8Zone.encode_eq member lo (by omega), ← Utf8Zone.encode_eq member hi (by omega),
      length_encode, length_encode]
  have valid (c : Char) : c.toNat.isValidChar := c.valid
  refine ⟨[List.zipWith ByteRange.mk (String.utf8EncodeChar lo) (String.utf8EncodeChar hi)], ?_,
    splits_done ?_⟩
  · rw [sequences?, ← low, ← high, if_pos ⟨valid lo, valid hi⟩, Char.ofNat_toNat, Char.ofNat_toNat]
    dsimp only
    rw [if_pos lengths]
  · rw [range, ← low, ← high]
    rw [← low] at first ordered
    rw [← high] at final ordered
    apply CodeRange.toUtf8_uncut member first final ordered
    intro size proper small
    have cut := uncut size (by simp; omega)
    rwa [Uncut, ← low, ← high] at cut

/-- Every round comes to an end without a failure. -/
theorem round?_splits (bounded : stretch.stop.toNat ≤ CodeRange.maxCodePoint) :
    ∃ round, stretch.round? = some round ∧ stretch.Splits round := by
  by_cases surrogates : stretch.start < 0xE000 ∧ 0xD7FF < stretch.stop
  · rw [round?, if_pos surrogates]
    rw [UInt32.lt_iff_toNat_lt, UInt32.lt_iff_toNat_lt] at surrogates
    have splits := @surrogates_splits _ bounded surrogates.1 surrogates.2 0xD7FF 0xE000 rfl rfl _ _ rfl rfl
    simp only [UInt32.lt_iff_toNat_lt]
    by_cases first : 0xD7FF < stretch.start.toNat
    · rw [if_pos first] at splits
      refine ⟨_, if_pos first, splits⟩
    · rw [if_neg first] at splits
      exact ⟨_, if_neg first, splits⟩
  rw [round?, if_neg surrogates]
  by_cases empty : stretch.stop < stretch.start
  · rw [if_pos empty]
    rw [UInt32.lt_iff_toNat_lt] at empty
    exact ⟨_, rfl, splits_done (CodeRange.toUtf8_none empty)⟩
  rw [if_neg empty]
  rcases stretch.cutBehind?_spec [0x7F, 0x7FF, 0xFFFF] with ⟨none, lengths⟩ | ⟨last, member, next, cut, cuts⟩
  · rw [none]
    dsimp only
    rw [UInt32.lt_iff_toNat_lt] at empty
    rw [UInt32.lt_iff_toNat_lt, UInt32.lt_iff_toNat_lt] at surrogates
    have level : stretch.Level := ⟨Nat.le_of_not_lt empty, bounded, surrogates, lengths⟩
    by_cases ascii : stretch.stop ≤ 0x7F
    · rw [if_pos ascii]
      exact ⟨_, rfl, level.ascii_splits (UInt32.le_iff_toNat_le.mp ascii)⟩
    · rw [if_neg ascii]
      have wide : 0x7F < stretch.stop.toNat :=
        Nat.lt_of_not_le fun low => ascii (UInt32.le_iff_toNat_le.mpr low)
      have sizes : ([1, 2, 3].map fun size => UInt32.ofNat (6 * size)) = [6, 12, 18] := by decide
      have blocks := stretch.cutBlock?_spec level.ordered [1, 2, 3] (by decide)
      rw [sizes] at blocks
      rcases blocks with ⟨none, uncut⟩ | ⟨size, member, last, next, cut, cuts⟩
      · obtain ⟨sequences, found, splits⟩ := level.uncut_splits uncut
        rw [none]
        exact ⟨_, by rw [found, Option.map_some], splits⟩
      · have proper : 0 < size := by
          simp only [List.mem_cons, List.not_mem_nil, or_false] at member
          omega
        rw [cuts]
        exact ⟨_, rfl, level.block_splits wide proper cut⟩
  · rw [cuts]
    exact ⟨_, rfl, behind_splits bounded member cut⟩

end Stretch

namespace Splitting

open Stretch (lowered Bounded)

theorem exists_run (waiting : List Stretch) (found : List (List ByteRange)) (bounded : Bounded waiting) :
    ∃ rounds, run? rounds ⟨waiting, found⟩ = some ⟨[], found ++ lowered waiting⟩ := by
  induction size : Stretch.weights waiting using Nat.strongRecOn generalizing waiting found with
  | ind size ih =>
    cases waiting with
    | nil => exact ⟨0, by rw [run?, Stretch.lowered_nil, List.append_nil]⟩
    | cons stretch rest =>
      have ⟨here, others⟩ := List.forall_mem_cons.mp bounded
      obtain ⟨round, ends, splits⟩ := Stretch.round?_splits here
      have lighter := splits.lighter
      have step : step? ⟨stretch :: rest, found⟩ =
          some ⟨round.parts ++ rest, found ++ round.sequences⟩ := by
        simp only [step?, ends, Option.map_some]
      rw [Stretch.weights_cons] at size
      obtain ⟨rounds, run⟩ := ih _ (by rw [Stretch.weights_append]; omega) (round.parts ++ rest)
        (found ++ round.sequences) (List.forall_mem_append.mpr ⟨splits.bounded, others⟩) rfl
      refine ⟨rounds + 1, ?_⟩
      rw [run?, step, Option.bind_some, run, Stretch.lowered_append, Stretch.lowered_cons,
        splits.kept, List.append_assoc, List.append_assoc]

theorem toNat_min (a b : UInt32) : (min a b).toNat = min a.toNat b.toNat := by
  rw [Std.min_eq_if, Nat.min_def]
  by_cases ordered : a ≤ b
  · rw [if_pos ordered, if_pos (UInt32.le_iff_toNat_le.mp ordered)]
  · rw [if_neg ordered, if_neg (mt UInt32.le_iff_toNat_le.mpr ordered)]

theorem toUtf8_cut_off (lo hi : Nat) :
    CodeRange.toUtf8 ⟨lo, min hi CodeRange.maxCodePoint⟩ = CodeRange.toUtf8 ⟨lo, hi⟩ := by
  apply List.flatMap_congr
  intro zone member
  have last : zone.last ≤ CodeRange.maxCodePoint := by
    revert zone
    decide
  simp only [Utf8Zone.lower, Nat.min_assoc, Nat.min_eq_right last]

theorem exists_run_start (first last : UInt32) :
    ∃ rounds, run? rounds (.start first last) =
      some ⟨[], CodeRange.toUtf8 ⟨first.toNat, last.toNat⟩⟩ := by
  have maximum : (0x10FFFF : UInt32).toNat = CodeRange.maxCodePoint := rfl
  have stop : (min last 0x10FFFF).toNat = min last.toNat CodeRange.maxCodePoint := by
    rw [toNat_min, maximum]
  have bounded : Bounded [⟨first, min last 0x10FFFF⟩] := by
    intro stretch member
    obtain rfl := List.mem_singleton.mp member
    dsimp only
    rw [stop]
    exact Nat.min_le_right _ _
  obtain ⟨rounds, run⟩ := exists_run _ [] bounded
  refine ⟨rounds, ?_⟩
  rw [start, run, List.nil_append, Stretch.lowered_cons, Stretch.lowered_nil, List.append_nil,
    Stretch.range, stop, toUtf8_cut_off]

end Splitting

namespace CodeRange

/-- The splitting of any two words ends without a failure. The sequences of a canonical list match the
encodings of the characters that the ranges hold, or of those that they do not hold, and every such
encoding matches one of them. -/
theorem split_exactly (ranges : List CodeRange) (negated : Bool) :
    (∀ first last : UInt32, ∃ rounds, Splitting.run? rounds (.start first last) =
      some ⟨[], toUtf8 ⟨first.toNat, last.toNat⟩⟩) ∧
    (∀ range ∈ canonical ranges negated, ∃ first last : UInt32,
      range = ⟨first.toNat, last.toNat⟩) ∧
    (∀ bytes, (∃ sequence ∈ (canonical ranges negated).flatMap toUtf8,
        ByteRange.matchAll sequence bytes = true) ↔
      ∃ c : Char, (CoversSwapped ranges c.toNat ↔ negated = false) ∧ String.utf8EncodeChar c = bytes) ∧
    ∀ c : Char, (CoversSwapped ranges c.toNat ↔ negated = false) →
      ((canonical ranges negated).flatMap toUtf8).countP
        (ByteRange.matchAll · (String.utf8EncodeChar c)) = 1 := by
  refine ⟨Splitting.exists_run_start, ?_, lowered_matches ranges negated, ?_⟩
  · intro range member
    obtain ⟨ordered, bound⟩ := (canonical_separated ranges negated).bounded member
    have fits : maxCodePoint < UInt32.size := by decide
    refine ⟨.ofNat range.lo, .ofNat range.hi, ?_⟩
    rw [UInt32.toNat_ofNat_of_lt' (by omega), UInt32.toNat_ofNat_of_lt' (by omega)]
  · intro c covered
    exact countP_apart (lowered_apart ranges negated)
      ((lowered_matches ranges negated _).mpr ⟨c, covered, rfl⟩)

end CodeRange
end GuidedDecoding
