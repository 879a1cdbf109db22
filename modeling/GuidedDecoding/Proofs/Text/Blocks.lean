import Mathlib
import GuidedDecoding.Proofs.Text.ByteRange

namespace GuidedDecoding.Utf8Zone

def entered (trail digit start : Nat) : List (List (Nat × Nat)) :=
  if start = 0 then [] else (blocks trail start (64 ^ (trail + 1) - 1)).map ((digit, digit) :: ·)

def left (trail digit stop : Nat) : List (List (Nat × Nat)) :=
  if stop = 64 ^ (trail + 1) - 1 then [] else (blocks trail 0 stop).map ((digit, digit) :: ·)

def whole (trail lower upper : Nat) : List (List (Nat × Nat)) :=
  if lower < upper then [(lower, upper - 1) :: List.replicate (trail + 1) (0, 63)] else []

@[simp] theorem whole_none (trail lower : Nat) : whole trail lower lower = [] := by simp [whole]

theorem exists_lead (trail n : Nat) : ∃ lead rest, rest < 64 ^ trail ∧ 64 ^ trail * lead + rest = n :=
  ⟨n / 64 ^ trail, n % 64 ^ trail, Nat.mod_lt n (width_pos trail), Nat.div_add_mod n (64 ^ trail)⟩

theorem lead_le {width lead last low high : Nat} (ordered : width * lead + low ≤ width * last + high)
    (bound : high < width) : lead ≤ last := by
  have less : width * lead < width * (last + 1) := by
    rw [Nat.mul_succ]
    omega
  exact Nat.le_of_lt_succ (Nat.lt_of_mul_lt_mul_left less)

theorem blocks_within (trail digit : Nat) {start stop : Nat} (low : start < 64 ^ (trail + 1))
    (high : stop < 64 ^ (trail + 1)) :
    blocks (trail + 1) (64 ^ (trail + 1) * digit + start) (64 ^ (trail + 1) * digit + stop) =
      (blocks trail start stop).map ((digit, digit) :: ·) := by
  have positive := width_pos (trail + 1)
  rw [blocks, width_eq]
  simp only [Nat.mul_add_div positive, Nat.mul_add_mod, Nat.div_eq_of_lt low, Nat.div_eq_of_lt high,
    Nat.mod_eq_of_lt low, Nat.mod_eq_of_lt high, Nat.add_zero, if_true]

theorem blocks_across (trail : Nat) {first last start stop : Nat} (apart : first < last)
    (low : start < 64 ^ (trail + 1)) (high : stop < 64 ^ (trail + 1)) :
    blocks (trail + 1) (64 ^ (trail + 1) * first + start) (64 ^ (trail + 1) * last + stop) =
      entered trail first start ++
        (whole trail (if start = 0 then first else first + 1)
          (if stop = 64 ^ (trail + 1) - 1 then last + 1 else last) ++ left trail last stop) := by
  have positive := width_pos (trail + 1)
  rw [blocks, width_eq]
  simp only [Nat.mul_add_div positive, Nat.mul_add_mod, Nat.div_eq_of_lt low, Nat.div_eq_of_lt high,
    Nat.mod_eq_of_lt low, Nat.mod_eq_of_lt high, Nat.add_zero, if_neg (Nat.ne_of_lt apart)]
  rw [List.append_assoc]
  rfl

theorem blocks_complete (trail : Nat) :
    blocks trail 0 (64 ^ (trail + 1) - 1) = [List.replicate (trail + 1) (0, 63)] := by
  cases trail with
  | zero => rfl
  | succ trail =>
    have positive := width_pos (trail + 1)
    have last : 64 ^ (trail + 1 + 1) - 1 = 64 ^ (trail + 1) * 63 + (64 ^ (trail + 1) - 1) := by
      rw [Nat.pow_succ 64 (trail + 1)]
      omega
    have short : 64 ^ (trail + 1) - 1 < 64 ^ (trail + 1) := by omega
    have ends : 0 < 63 := by decide
    have across := blocks_across trail ends positive short
    rw [Nat.mul_zero, Nat.add_zero] at across
    rw [last, across, entered, left, whole, if_pos rfl, if_pos rfl, if_pos rfl, if_pos rfl,
      if_pos (by decide), List.replicate_succ]
    rfl

theorem blocks_to_border (trail : Nat) {first last start : Nat} (apart : first < last)
    (low : start < 64 ^ (trail + 1)) :
    blocks (trail + 1) (64 ^ (trail + 1) * first + start) (64 ^ (trail + 1) * last - 1) =
      entered trail first start ++ whole trail (if start = 0 then first else first + 1) last := by
  have positive := width_pos (trail + 1)
  have stop : 64 ^ (trail + 1) * last - 1 =
      64 ^ (trail + 1) * (last - 1) + (64 ^ (trail + 1) - 1) := by
    obtain ⟨before, rfl⟩ : ∃ before, last = before + 1 := ⟨last - 1, by omega⟩
    rw [Nat.mul_succ, Nat.add_sub_cancel]
    omega
  rw [stop]
  by_cases same : first = last - 1
  · rw [← same, blocks_within trail first low (by omega)]
    by_cases none : start = 0
    · rw [none, blocks_complete, entered, whole, if_pos rfl, if_pos rfl, if_pos apart, ← same]
      rfl
    · obtain rfl : last = first + 1 := by omega
      rw [entered, if_neg none, if_neg none, whole_none, List.append_nil]
  · rw [blocks_across trail (by omega) low (by omega), left, if_pos rfl, if_pos rfl, List.append_nil,
      Nat.sub_add_cancel (by omega)]

theorem blocks_from_border (trail : Nat) {first last stop : Nat} (ordered : first ≤ last)
    (high : stop < 64 ^ (trail + 1)) :
    blocks (trail + 1) (64 ^ (trail + 1) * first) (64 ^ (trail + 1) * last + stop) =
      whole trail first (if stop = 64 ^ (trail + 1) - 1 then last + 1 else last) ++
        left trail last stop := by
  have positive := width_pos (trail + 1)
  rcases Nat.lt_or_eq_of_le ordered with apart | rfl
  · have across := blocks_across trail apart positive high
    rwa [Nat.add_zero, entered, if_pos rfl, if_pos rfl, List.nil_append] at across
  · have within := blocks_within trail first positive high
    simp only [Nat.add_zero] at within
    rw [within]
    by_cases all : stop = 64 ^ (trail + 1) - 1
    · rw [all, blocks_complete, left, whole, if_pos rfl, if_pos rfl, if_pos (Nat.lt_succ_self first)]
      rfl
    · rw [left, if_neg all, if_neg all, whole_none, List.nil_append]

theorem blocks_cut_lead (trail : Nat) {first last digit start stop : Nat}
    (low : start < 64 ^ (trail + 1)) (high : stop < 64 ^ (trail + 1))
    (after : 64 ^ (trail + 1) * first + start < 64 ^ (trail + 1) * digit)
    (before : 64 ^ (trail + 1) * digit ≤ 64 ^ (trail + 1) * last + stop)
    (near : 64 ^ (trail + 1) * digit < 64 ^ (trail + 1) * first + start + 64 ^ (trail + 1) ∨
      64 ^ (trail + 1) * last + stop + 1 < 64 ^ (trail + 1) * digit + 64 ^ (trail + 1)) :
    blocks (trail + 1) (64 ^ (trail + 1) * first + start) (64 ^ (trail + 1) * last + stop) =
      blocks (trail + 1) (64 ^ (trail + 1) * first + start) (64 ^ (trail + 1) * digit - 1) ++
        blocks (trail + 1) (64 ^ (trail + 1) * digit) (64 ^ (trail + 1) * last + stop) := by
  have later : first < digit :=
    Nat.lt_of_mul_lt_mul_left (Nat.lt_of_le_of_lt (Nat.le_add_right _ start) after)
  have earlier : digit ≤ last := lead_le (Nat.le_trans (Nat.le_of_eq (Nat.add_zero _)) before) high
  rw [blocks_across trail (Nat.lt_of_lt_of_le later earlier) low high,
    blocks_to_border trail later low, blocks_from_border trail earlier high]
  rcases near with near | near
  · have close : 64 ^ (trail + 1) * digit + 0 ≤ 64 ^ (trail + 1) * (first + 1) + start := by
      rw [Nat.mul_succ]
      omega
    obtain rfl : digit = first + 1 := Nat.le_antisymm (lead_le close low) later
    rw [Nat.mul_succ] at near
    have partly : start ≠ 0 := by omega
    rw [if_neg partly, whole_none, List.append_nil]
  · have close : 64 ^ (trail + 1) * last + (stop + 1) ≤
        64 ^ (trail + 1) * digit + (64 ^ (trail + 1) - 1) := by omega
    obtain rfl : digit = last := Nat.le_antisymm earlier (lead_le close (by omega))
    have partly : stop ≠ 64 ^ (trail + 1) - 1 := by omega
    rw [if_neg partly, whole_none, List.nil_append, List.append_assoc]

theorem blocks_cut_within (trail digit : Nat) {start stop next : Nat} (after : start < next)
    (before : next ≤ stop) (high : stop < 64 ^ (trail + 1))
    (inner : blocks trail start stop = blocks trail start (next - 1) ++ blocks trail next stop) :
    blocks (trail + 1) (64 ^ (trail + 1) * digit + start) (64 ^ (trail + 1) * digit + stop) =
      blocks (trail + 1) (64 ^ (trail + 1) * digit + start) (64 ^ (trail + 1) * digit + (next - 1)) ++
        blocks (trail + 1) (64 ^ (trail + 1) * digit + next) (64 ^ (trail + 1) * digit + stop) := by
  rw [blocks_within trail digit (by omega) high, blocks_within trail digit (by omega) (by omega),
    blocks_within trail digit (by omega) high, inner, List.map_append]

theorem blocks_cut_entered (trail : Nat) {first last start stop next : Nat} (apart : first < last)
    (partly : start ≠ 0) (after : start < next) (bound : next < 64 ^ (trail + 1))
    (high : stop < 64 ^ (trail + 1))
    (inner : blocks trail start (64 ^ (trail + 1) - 1) =
      blocks trail start (next - 1) ++ blocks trail next (64 ^ (trail + 1) - 1)) :
    blocks (trail + 1) (64 ^ (trail + 1) * first + start) (64 ^ (trail + 1) * last + stop) =
      blocks (trail + 1) (64 ^ (trail + 1) * first + start) (64 ^ (trail + 1) * first + (next - 1)) ++
        blocks (trail + 1) (64 ^ (trail + 1) * first + next) (64 ^ (trail + 1) * last + stop) := by
  have rest : next ≠ 0 := by omega
  rw [blocks_across trail apart (by omega) high, blocks_within trail first (by omega) (by omega),
    blocks_across trail apart bound high, entered, entered, if_neg partly, if_neg partly, if_neg rest,
    if_neg rest, inner, List.map_append, List.append_assoc]

theorem blocks_cut_left (trail : Nat) {first last start stop next : Nat} (apart : first < last)
    (low : start < 64 ^ (trail + 1)) (partly : stop < 64 ^ (trail + 1) - 1) (after : 0 < next)
    (before : next ≤ stop)
    (inner : blocks trail 0 stop = blocks trail 0 (next - 1) ++ blocks trail next stop) :
    blocks (trail + 1) (64 ^ (trail + 1) * first + start) (64 ^ (trail + 1) * last + stop) =
      blocks (trail + 1) (64 ^ (trail + 1) * first + start) (64 ^ (trail + 1) * last + (next - 1)) ++
        blocks (trail + 1) (64 ^ (trail + 1) * last + next) (64 ^ (trail + 1) * last + stop) := by
  have here : stop ≠ 64 ^ (trail + 1) - 1 := by omega
  have earlier : next - 1 ≠ 64 ^ (trail + 1) - 1 := by omega
  rw [blocks_across trail apart low (by omega), blocks_across trail apart low (by omega),
    blocks_within trail last (by omega) (by omega), left, left, if_neg here, if_neg here,
    if_neg earlier, if_neg earlier, inner, List.map_append, List.append_assoc, List.append_assoc]

/-- A cut at the border of a block of any size, when the block before the border is entered in its
middle or the block behind it is left in its middle. -/
theorem blocks_cut {trail size lo hi next : Nat} (inside : 0 < size ∧ size ≤ trail)
    (border : 64 ^ size ∣ next) (after : lo < next) (before : next ≤ hi)
    (near : next < lo + 64 ^ size ∨ hi + 1 < next + 64 ^ size) :
    blocks trail lo hi = blocks trail lo (next - 1) ++ blocks trail next hi := by
  induction trail generalizing lo hi next with
  | zero => omega
  | succ trail ih =>
    have smaller : 64 ^ size ∣ 64 ^ (trail + 1) := Nat.pow_dvd_pow 64 inside.2
    have fits : 64 ^ size ≤ 64 ^ (trail + 1) := Nat.le_of_dvd (width_pos (trail + 1)) smaller
    obtain ⟨first, start, low, rfl⟩ := exists_lead (trail + 1) lo
    obtain ⟨last, stop, high, rfl⟩ := exists_lead (trail + 1) hi
    obtain ⟨digit, rest, bound, rfl⟩ := exists_lead (trail + 1) next
    have aligned : 64 ^ size ∣ rest := (Nat.dvd_add_right (Dvd.dvd.mul_right smaller digit)).mp border
    by_cases leading : rest = 0
    · obtain rfl := leading
      exact blocks_cut_lead trail low high after before (near.imp (by omega) (by omega))
    · have later : first ≤ digit := lead_le after.le bound
      have earlier : digit ≤ last := lead_le before high
      have block : 64 ^ size ≤ rest := Nat.le_of_dvd (by omega) aligned
      have room : rest + 64 ^ size ≤ 64 ^ (trail + 1) := by
        have gap := Nat.le_of_dvd (by omega) (Nat.dvd_sub smaller aligned)
        omega
      have shallow : size ≤ trail := by
        by_contra deep
        obtain rfl : size = trail + 1 := by omega
        omega
      rw [Nat.add_sub_assoc (by omega : 1 ≤ rest)]
      rcases near with near | near
      · have close : 64 ^ (trail + 1) * digit + (rest - 64 ^ size) ≤ 64 ^ (trail + 1) * first + start := by
          omega
        obtain rfl : digit = first := Nat.le_antisymm (lead_le close low) later
        rcases Nat.lt_or_eq_of_le earlier with apart | rfl
        · apply blocks_cut_entered trail apart (by omega) (by omega) bound high
          exact ih ⟨inside.1, shallow⟩ aligned (by omega) (by omega) (.inl (by omega))
        · apply blocks_cut_within trail digit (by omega) (by omega) high
          exact ih ⟨inside.1, shallow⟩ aligned (by omega) (by omega) (.inl (by omega))
      · have close : 64 ^ (trail + 1) * last + stop ≤ 64 ^ (trail + 1) * digit + (rest + 64 ^ size - 2) := by
          omega
        obtain rfl : digit = last := Nat.le_antisymm earlier (lead_le close (by omega))
        rcases Nat.lt_or_eq_of_le later with apart | rfl
        · apply blocks_cut_left trail apart low (by omega) (by omega) (by omega)
          exact ih ⟨inside.1, shallow⟩ aligned (by omega) (by omega) (.inr (by omega))
        · apply blocks_cut_within trail first (by omega) (by omega) high
          exact ih ⟨inside.1, shallow⟩ aligned (by omega) (by omega) (.inr (by omega))

theorem digits_lead (trail lead : Nat) {rest : Nat} (bound : rest < 64 ^ (trail + 1)) :
    digits (trail + 1) (64 ^ (trail + 1) * lead + rest) = lead :: digits trail rest := by
  rw [digits, Nat.mul_add_div (width_pos (trail + 1)), Nat.div_eq_of_lt bound, Nat.add_zero,
    Nat.mul_add_mod, Nat.mod_eq_of_lt bound]

theorem digits_zero (trail : Nat) : digits trail 0 = List.replicate (trail + 1) 0 := by
  induction trail with
  | zero => rfl
  | succ trail ih => rw [digits, Nat.zero_div, Nat.zero_mod, ih, ← List.replicate_succ]

theorem digits_last (trail : Nat) : digits trail (64 ^ (trail + 1) - 1) = List.replicate (trail + 1) 63 := by
  induction trail with
  | zero => rfl
  | succ trail ih =>
    have positive := width_pos (trail + 1)
    have last : 64 ^ (trail + 1 + 1) - 1 = 64 ^ (trail + 1) * 63 + (64 ^ (trail + 1) - 1) := by
      rw [Nat.pow_succ 64 (trail + 1)]
      omega
    rw [last, digits_lead trail 63 (by omega), ih, ← List.replicate_succ]

/-- Nothing is cut when no block is entered or left in its middle by a range that crosses its border. -/
theorem blocks_uncut {trail lo hi : Nat}
    (uncut : ∀ size, 0 < size → size ≤ trail →
      lo / 64 ^ size = hi / 64 ^ size ∨ 64 ^ size ∣ lo ∧ 64 ^ size ∣ hi + 1) (ordered : lo ≤ hi) :
    blocks trail lo hi = [List.zip (digits trail lo) (digits trail hi)] := by
  induction trail generalizing lo hi with
  | zero => rfl
  | succ trail ih =>
    have positive := width_pos (trail + 1)
    obtain ⟨first, start, low, rfl⟩ := exists_lead (trail + 1) lo
    obtain ⟨last, stop, high, rfl⟩ := exists_lead (trail + 1) hi
    rw [digits_lead trail first low, digits_lead trail last high]
    rcases Nat.lt_or_eq_of_le (lead_le ordered high) with apart | rfl
    · rcases uncut (trail + 1) (Nat.succ_pos trail) (Nat.le_refl _) with same | ⟨entry, exit⟩
      · rw [Nat.mul_add_div positive, Nat.mul_add_div positive, Nat.div_eq_of_lt low,
          Nat.div_eq_of_lt high] at same
        omega
      · have none : start = 0 :=
          Nat.eq_zero_of_dvd_of_lt ((Nat.dvd_add_right (Nat.dvd_mul_right _ first)).mp entry) low
        have all : stop = 64 ^ (trail + 1) - 1 := by
          have full := Nat.le_of_dvd (Nat.succ_pos stop)
            ((Nat.dvd_add_right (Nat.dvd_mul_right _ last)).mp exit)
          omega
        rw [none, all, Nat.add_zero (64 ^ (trail + 1) * first), blocks_from_border trail apart.le (by omega),
          left, if_pos rfl, if_pos rfl, whole, if_pos (by omega), digits_zero, digits_last, List.zip_cons_cons,
          List.zip_replicate, Nat.min_self, Nat.add_sub_cancel, List.append_nil]
    · rw [blocks_within trail first low high, ih _ (by omega), List.map_singleton, List.zip_cons_cons]
      intro size proper small
      obtain ⟨blocks, wide⟩ : 64 ^ size ∣ 64 ^ (trail + 1) := Nat.pow_dvd_pow 64 (by omega)
      have smaller : 64 ^ size ∣ 64 ^ (trail + 1) * first :=
        Dvd.dvd.mul_right (Nat.pow_dvd_pow 64 (by omega)) first
      rcases uncut size proper (by omega) with same | ⟨entry, exit⟩
      · rw [wide, Nat.mul_assoc, Nat.mul_add_div (width_pos size), Nat.mul_add_div (width_pos size)]
          at same
        exact .inl (by omega)
      · exact .inr ⟨(Nat.dvd_add_right smaller).mp entry, (Nat.dvd_add_right smaller).mp exit⟩

def Apart (s t : List (Nat × Nat)) : Prop := ∀ numbers, Matches s numbers → ¬Matches t numbers

theorem apart_of_lead {s t : List (Nat × Nat)} {low mid next high : Nat} (order : mid < next) :
    Apart ((low, mid) :: s) ((next, high) :: t) := by
  intro numbers first second
  cases first with
  | cons here _ =>
    cases second with
    | cons there _ => omega

theorem Apart.cons {s t : List (Nat × Nat)} (apart : Apart s t) (range : Nat × Nat) :
    Apart (range :: s) (range :: t) := by
  intro numbers first second
  cases first with
  | cons _ first =>
    cases second with
    | cons _ second => exact apart _ first second

theorem whole_apart (trail lower upper : Nat) : (whole trail lower upper).Pairwise Apart := by
  unfold whole
  split
  · exact List.pairwise_singleton _ _
  · exact .nil

theorem blocks_apart (trail : Nat) {lo hi : Nat} (ordered : lo ≤ hi) :
    (blocks trail lo hi).Pairwise Apart := by
  induction trail generalizing lo hi with
  | zero => exact List.pairwise_singleton _ _
  | succ trail ih =>
    have within (digit : Nat) {start stop : Nat} (ordered : start ≤ stop) :
        ((blocks trail start stop).map ((digit, digit) :: ·)).Pairwise Apart :=
      List.pairwise_map.mpr ((ih ordered).imp fun apart => apart.cons (digit, digit))
    obtain ⟨first, start, low, rfl⟩ := exists_lead (trail + 1) lo
    obtain ⟨last, stop, high, rfl⟩ := exists_lead (trail + 1) hi
    rcases Nat.lt_or_eq_of_le (lead_le ordered high) with apart | rfl
    · rw [blocks_across trail apart low high, entered, left, List.pairwise_append,
        List.pairwise_append]
      refine ⟨?_, ⟨whole_apart trail _ _, ?_, ?_⟩, ?_⟩
      · split
        · exact .nil
        · exact within first (by omega)
      · split
        · exact .nil
        · exact within last (Nat.zero_le stop)
      · intro s middle t final
        rw [whole, List.mem_ite_nil_right, List.mem_singleton] at middle
        rw [List.mem_ite_nil_left, List.mem_map] at final
        obtain ⟨room, rfl⟩ := middle
        obtain ⟨partly, t, _, rfl⟩ := final
        rw [if_neg partly]
        exact apart_of_lead (by omega)
      · intro s initial t rest
        rw [List.mem_ite_nil_left, List.mem_map] at initial
        obtain ⟨partly, s, _, rfl⟩ := initial
        rw [if_neg partly, List.mem_append, whole, List.mem_ite_nil_right, List.mem_singleton,
          List.mem_ite_nil_left, List.mem_map] at rest
        rcases rest with ⟨_, rfl⟩ | ⟨_, t, _, rfl⟩
        · exact apart_of_lead (Nat.lt_succ_self first)
        · exact apart_of_lead apart
    · rw [blocks_within trail first low high]
      exact within first (by omega)

end GuidedDecoding.Utf8Zone
