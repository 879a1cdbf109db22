import Mathlib
import GuidedDecoding.Text.CodeRange

namespace GuidedDecoding.CodeRange

def Covers (ranges : List CodeRange) (n : Nat) : Prop := ∃ r ∈ ranges, n ∈ r

/-- Whether one of the ranges holds the code point when bounds in the wrong order are swapped. -/
def CoversSwapped (ranges : List CodeRange) (n : Nat) : Prop :=
  ∃ r ∈ ranges, min r.lo r.hi ≤ n ∧ n ≤ max r.lo r.hi

theorem mem_iff (r : CodeRange) (n : Nat) : n ∈ r ↔ r.lo ≤ n ∧ n ≤ r.hi := Iff.rfl

@[simp] theorem covers_nil (n : Nat) : Covers [] n ↔ False := by simp [Covers]

@[simp] theorem covers_cons (r : CodeRange) (ranges : List CodeRange) (n : Nat) :
    Covers (r :: ranges) n ↔ (r.lo ≤ n ∧ n ≤ r.hi) ∨ Covers ranges n := by
  simp [Covers, mem_iff]

/-- The members are not empty, and between two neighbours at least one code point is missing. The
first one begins at `next` or later. -/
def SeparatedFrom (next : Nat) : List CodeRange → Prop
  | [] => True
  | r :: rest => next ≤ r.lo ∧ r.lo ≤ r.hi ∧ r.hi ≤ maxCodePoint ∧ SeparatedFrom (r.hi + 2) rest

theorem SeparatedFrom.weaken {next earlier : Nat} {ranges : List CodeRange} (h : earlier ≤ next)
    (separated : SeparatedFrom next ranges) : SeparatedFrom earlier ranges := by
  cases ranges with
  | nil => trivial
  | cons r rest => exact ⟨Nat.le_trans h separated.1, separated.2⟩

theorem SeparatedFrom.le_of_covers {next n : Nat} {ranges : List CodeRange}
    (separated : SeparatedFrom next ranges) (covered : Covers ranges n) : next ≤ n := by
  induction ranges generalizing next with
  | nil => simp at covered
  | cons r rest ih =>
    obtain ⟨first, ordered, _, others⟩ := separated
    rcases (covers_cons r rest n).mp covered with inside | covered
    · omega
    · have := ih others covered
      omega

theorem compare_lt_lo {r s : CodeRange} (h : compare r s = .lt) : r.lo ≤ s.lo := by
  change (compareOn lo r s).then (compareOn hi r s) = .lt at h
  rw [Ordering.then_eq_lt] at h
  rcases h with h | ⟨h, _⟩
  · exact Nat.le_of_lt (Nat.compare_eq_lt.mp h)
  · exact Nat.le_of_eq (Nat.compare_eq_eq.mp h)

theorem mem_ascending (ranges : List CodeRange) (r : CodeRange) : r ∈ ascending ranges ↔ r ∈ ranges := by
  rw [ascending, Std.TreeSet.mem_toList, Std.TreeSet.mem_ofList, List.contains_iff_mem]

theorem ascending_sorted (ranges : List CodeRange) :
    (ascending ranges).Pairwise fun r s => r.lo ≤ s.lo :=
  (Std.TreeSet.ordered_toList (t := Std.TreeSet.ofList ranges)).imp compare_lt_lo

theorem covers_joinFrom (current : CodeRange) (ranges : List CodeRange)
    (sorted : (current :: ranges).Pairwise fun r s => r.lo ≤ s.lo) (n : Nat) :
    Covers (joinFrom current ranges) n ↔ Covers (current :: ranges) n := by
  induction ranges generalizing current with
  | nil => rfl
  | cons r rest ih =>
    obtain ⟨first, others⟩ := List.pairwise_cons.mp sorted
    have ordered := first r List.mem_cons_self
    unfold joinFrom
    split
    next touching =>
      have joined : (⟨current.lo, max current.hi r.hi⟩ :: rest).Pairwise fun r s => r.lo ≤ s.lo :=
        List.pairwise_cons.mpr
          ⟨fun s member => first s (List.mem_cons_of_mem r member), (List.pairwise_cons.mp others).2⟩
      rw [ih _ joined]
      simp only [covers_cons]
      constructor
      · intro h
        rcases h with inside | covered
        · by_cases low : n ≤ current.hi
          · exact .inl ⟨inside.1, low⟩
          · exact .inr (.inl (by omega))
        · exact .inr (.inr covered)
      · intro h
        rcases h with inside | inside | covered
        · exact .inl (by omega)
        · exact .inl (by omega)
        · exact .inr covered
    next apart => rw [covers_cons, ih r others, covers_cons current]

theorem joinFrom_separated (current : CodeRange) (ranges : List CodeRange) (next : Nat)
    (start : next ≤ current.lo)
    (sorted : (current :: ranges).Pairwise fun r s => r.lo ≤ s.lo)
    (proper : ∀ r ∈ current :: ranges, r.lo ≤ r.hi ∧ r.hi ≤ maxCodePoint) :
    SeparatedFrom next (joinFrom current ranges) := by
  induction ranges generalizing current next with
  | nil => exact ⟨start, (proper current (by simp)).1, (proper current (by simp)).2, trivial⟩
  | cons r rest ih =>
    obtain ⟨first, others⟩ := List.pairwise_cons.mp sorted
    have here := proper current (by simp)
    have after := proper r (by simp)
    unfold joinFrom
    split
    next touching =>
      apply ih ⟨current.lo, max current.hi r.hi⟩ next start
      · exact List.pairwise_cons.mpr
          ⟨fun s member => first s (List.mem_cons_of_mem r member), (List.pairwise_cons.mp others).2⟩
      · intro s member
        rcases List.mem_cons.mp member with rfl | member
        · exact ⟨by dsimp only; omega, by dsimp only; omega⟩
        · exact proper s (by simp [member])
    next apart =>
      refine ⟨start, here.1, here.2, ih r _ (by omega) others ?_⟩
      intro s member
      exact proper s (List.mem_cons_of_mem current member)

theorem covers_gapsFrom (next : Nat) (ranges : List CodeRange)
    (separated : SeparatedFrom next ranges) (n : Nat) :
    Covers (gapsFrom next ranges) n ↔ next ≤ n ∧ n ≤ maxCodePoint ∧ ¬Covers ranges n := by
  induction ranges generalizing next with
  | nil =>
    unfold gapsFrom
    split
    next room => simp
    next full =>
      simp only [covers_nil, false_iff]
      omega
  | cons r rest ih =>
    obtain ⟨start, ordered, bound, others⟩ := separated
    have later := fun covered : Covers rest n => others.le_of_covers covered
    have tail := ih (r.hi + 1) (others.weaken (by omega))
    unfold gapsFrom
    split
    next before =>
      simp only [covers_cons, tail]
      constructor
      · intro h
        rcases h with inside | ⟨above, below, outside⟩
        · refine ⟨inside.1, by omega, ?_⟩
          intro h
          rcases h with covered | covered
          · omega
          · have := later covered
            omega
        · exact ⟨by omega, below, fun both => both.elim (by omega) outside⟩
      · intro h
        obtain ⟨above, below, outside⟩ := h
        have beside : ¬(r.lo ≤ n ∧ n ≤ r.hi) := fun inside => outside (.inl inside)
        by_cases low : n < r.lo
        · exact .inl (by omega)
        · exact .inr ⟨by omega, below, fun covered => outside (.inr covered)⟩
    next touching =>
      rw [tail, covers_cons]
      constructor
      · intro h
        obtain ⟨above, below, outside⟩ := h
        exact ⟨by omega, below, fun both => both.elim (by omega) outside⟩
      · intro h
        obtain ⟨above, below, outside⟩ := h
        have beside : ¬(r.lo ≤ n ∧ n ≤ r.hi) := fun inside => outside (.inl inside)
        exact ⟨by omega, below, fun covered => outside (.inr covered)⟩

theorem gapsFrom_separated (next : Nat) (ranges : List CodeRange)
    (separated : SeparatedFrom next ranges) : SeparatedFrom next (gapsFrom next ranges) := by
  induction ranges generalizing next with
  | nil =>
    unfold gapsFrom
    split
    next room => exact ⟨Nat.le_refl next, room, Nat.le_refl _, trivial⟩
    next full => trivial
  | cons r rest ih =>
    obtain ⟨start, ordered, bound, others⟩ := separated
    have tail := ih (r.hi + 1) (others.weaken (by omega))
    unfold gapsFrom
    split
    next before => exact ⟨Nat.le_refl next, by dsimp only; omega, by dsimp only; omega,
      tail.weaken (by dsimp only; omega)⟩
    next touching => exact tail.weaken (by omega)

theorem SeparatedFrom.le_of_mem {next : Nat} {ranges : List CodeRange}
    (separated : SeparatedFrom next ranges) {r : CodeRange} (member : r ∈ ranges) : next ≤ r.lo := by
  induction ranges generalizing next with
  | nil => cases member
  | cons s rest ih =>
    obtain ⟨start, ordered, _, others⟩ := separated
    rcases List.mem_cons.mp member with rfl | member
    · exact start
    · have := ih others member
      omega

theorem SeparatedFrom.bounded {next : Nat} {ranges : List CodeRange}
    (separated : SeparatedFrom next ranges) {r : CodeRange} (member : r ∈ ranges) :
    r.lo ≤ r.hi ∧ r.hi ≤ maxCodePoint := by
  induction ranges generalizing next with
  | nil => cases member
  | cons s rest ih =>
    obtain ⟨_, ordered, bound, others⟩ := separated
    rcases List.mem_cons.mp member with rfl | member
    · exact ⟨ordered, bound⟩
    · exact ih others member

theorem SeparatedFrom.apart {next : Nat} {ranges : List CodeRange}
    (separated : SeparatedFrom next ranges) : ranges.Pairwise fun r s => r.hi + 1 < s.lo := by
  induction ranges generalizing next with
  | nil => exact .nil
  | cons r rest ih =>
    obtain ⟨_, _, _, others⟩ := separated
    refine .cons ?_ (ih others)
    intro s member
    have := others.le_of_mem member
    omega

theorem SeparatedFrom.ascending {next : Nat} {ranges : List CodeRange}
    (separated : SeparatedFrom next ranges) : ranges.Pairwise fun r s => r.hi < s.lo :=
  separated.apart.imp Nat.lt_of_succ_lt

def prepared (ranges : List CodeRange) : List CodeRange :=
  ascending ((ranges.map clamp).filter (·.lo ≤ maxCodePoint))

theorem mem_prepared (ranges : List CodeRange) (r : CodeRange) :
    r ∈ prepared ranges ↔ r.lo ≤ maxCodePoint ∧ ∃ s ∈ ranges, s.clamp = r := by
  rw [prepared, mem_ascending, List.mem_filter, List.mem_map, decide_eq_true_iff, and_comm]

theorem prepared_sorted (ranges : List CodeRange) :
    (prepared ranges).Pairwise fun r s => r.lo ≤ s.lo := ascending_sorted _

theorem prepared_proper (ranges : List CodeRange) (r : CodeRange) (member : r ∈ prepared ranges) :
    r.lo ≤ r.hi ∧ r.hi ≤ maxCodePoint := by
  obtain ⟨low, s, _, rfl⟩ := (mem_prepared ranges r).mp member
  simp only [clamp] at low ⊢
  omega

theorem covers_prepared (ranges : List CodeRange) (n : Nat) (point : n ≤ maxCodePoint) :
    Covers (prepared ranges) n ↔ CoversSwapped ranges n := by
  constructor
  · intro h
    obtain ⟨r, kept, inside⟩ := h
    obtain ⟨_, s, member, rfl⟩ := (mem_prepared ranges r).mp kept
    simp only [mem_iff, clamp] at inside
    exact ⟨s, member, by omega, by omega⟩
  · intro h
    obtain ⟨s, member, low, high⟩ := h
    refine ⟨s.clamp, (mem_prepared ranges _).mpr ⟨?_, s, member, rfl⟩, ?_⟩
    · simp only [clamp]
      omega
    · simp only [mem_iff, clamp]
      omega

theorem join_separated {ranges : List CodeRange} (sorted : ranges.Pairwise fun r s => r.lo ≤ s.lo)
    (proper : ∀ r ∈ ranges, r.lo ≤ r.hi ∧ r.hi ≤ maxCodePoint) : SeparatedFrom 0 (join ranges) := by
  cases ranges with
  | nil => trivial
  | cons r rest => exact joinFrom_separated r rest 0 (Nat.zero_le _) sorted proper

theorem covers_join {ranges : List CodeRange} (sorted : ranges.Pairwise fun r s => r.lo ≤ s.lo) (n : Nat) :
    Covers (join ranges) n ↔ Covers ranges n := by
  cases ranges with
  | nil => rfl
  | cons r rest => exact covers_joinFrom r rest sorted n

theorem canonical_separated (ranges : List CodeRange) (negated : Bool) :
    SeparatedFrom 0 (canonical ranges negated) := by
  have inside := join_separated (prepared_sorted ranges) (prepared_proper ranges)
  cases negated with
  | false => exact inside
  | true => exact gapsFrom_separated 0 _ inside

/-- The canonical list of the code points inside the ranges, or of those outside. -/
theorem covers_canonical (ranges : List CodeRange) (negated : Bool) (n : Nat)
    (point : n ≤ maxCodePoint) :
    Covers (canonical ranges negated) n ↔ (CoversSwapped ranges n ↔ negated = false) := by
  have inside := (covers_join (prepared_sorted ranges) n).trans (covers_prepared ranges n point)
  cases negated with
  | false => simpa [canonical, prepared] using inside
  | true =>
    have outside := covers_gapsFrom 0 _
      (join_separated (prepared_sorted ranges) (prepared_proper ranges)) n
    simp only [canonical, ite_true]
    change Covers (gapsFrom 0 (join (prepared ranges))) n ↔ _
    rw [outside, inside]
    simp [point]

end GuidedDecoding.CodeRange
