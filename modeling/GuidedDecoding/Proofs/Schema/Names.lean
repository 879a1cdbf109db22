import Mathlib
import GuidedDecoding.Proofs.Grammar.Reading
import GuidedDecoding.Schema.Names

namespace GuidedDecoding

namespace Names

theorem candidate_injective (base : String) : Function.Injective (candidate base) := by
  have longer (n : Nat) : base ≠ base ++ "_" ++ toString n := fun same => by
    have length := congrArg String.length same
    simp only [String.length_append] at length
    have one : "_".length = 1 := rfl
    omega
  intro m n same
  cases m with
  | zero =>
    cases n with
    | zero => rfl
    | succ n => exact absurd same (longer (n + 1))
  | succ m =>
    cases n with
    | zero => exact absurd same.symm (longer (m + 1))
    | succ n =>
      have shown : Nat.repr (m + 1) = Nat.repr (n + 1) := String.append_right_inj _ |>.mp same
      exact Nat.repr_inj.mp shown

theorem search_eq_first {taken : Std.TreeSet String} {base : String} {n tries : Nat}
    (enough : ∃ m, n ≤ m ∧ m ≤ n + tries ∧ candidate base m ∉ taken) :
    ∃ m, n ≤ m ∧ m ≤ n + tries ∧ search taken base n tries = candidate base m ∧ candidate base m ∉ taken ∧
      ∀ k, n ≤ k → k < m → candidate base k ∈ taken := by
  induction tries generalizing n with
  | zero =>
    obtain ⟨m, least, most, free⟩ := enough
    obtain rfl : m = n := by omega
    exact ⟨m, le_rfl, le_rfl, rfl, free, fun k from_m below => absurd below (Nat.not_lt.mpr from_m)⟩
  | succ tries ih =>
    rw [search]
    split_ifs with known
    · have here : candidate base n ∈ taken := Std.TreeSet.mem_iff_contains.mpr known
      obtain ⟨m, least, most, free⟩ := enough
      have differs : m ≠ n := by
        rintro rfl
        exact free here
      obtain ⟨first, above, within, found, new, before⟩ := ih (n := n + 1) ⟨m, by omega, by omega, free⟩
      refine ⟨first, by omega, by omega, found, new, fun k from_n below => ?_⟩
      rcases Nat.eq_or_lt_of_le from_n with rfl | later
      · exact here
      · exact before k later below
    · exact ⟨n, le_rfl, by omega, rfl, fun member => known (Std.TreeSet.mem_iff_contains.mp member),
        fun k from_n below => absurd below (Nat.not_lt.mpr from_n)⟩

theorem exists_candidate (taken : Std.TreeSet String) (base : String) (start : Nat) :
    ∃ n, start ≤ n ∧ n ≤ start + taken.size ∧ candidate base n ∉ taken := by
  by_contra none
  simp only [not_exists, not_and, not_not] at none
  let candidates := (List.range' start (taken.size + 1)).map (candidate base)
  have distinct : candidates.Nodup := List.Nodup.map (candidate_injective base) List.nodup_range'
  have within : candidates ⊆ taken.toList := by
    intro name member
    obtain ⟨m, inside, rfl⟩ := List.mem_map.mp member
    obtain ⟨least, most⟩ := List.mem_range'_1.mp inside
    exact Std.TreeSet.mem_toList.mpr (none m least (by omega))
  have length := (distinct.subperm within).length_le
  rw [List.length_map, List.length_range', Std.TreeSet.length_toList] at length
  omega

theorem fresh_notMem (taken : Std.TreeSet String) (base : String) : fresh taken base ∉ taken := by
  obtain ⟨n, _, _, found, new, _⟩ := search_eq_first (exists_candidate taken base 0)
  rw [fresh, found]
  exact new

/-- A fresh name is the first candidate that is not taken. -/
theorem fresh_eq_first (taken : Std.TreeSet String) (base : String) :
    ∃ n ≤ taken.size, fresh taken base = candidate base n ∧ candidate base n ∉ taken ∧
      ∀ m < n, candidate base m ∈ taken := by
  obtain ⟨n, _, most, found, new, before⟩ := search_eq_first (exists_candidate taken base 0)
  exact ⟨n, by simpa using most, found, new, fun m below => before m (Nat.zero_le m) below⟩

end Names

namespace Token

theorem IsName.append {name more : String} (isName : IsName name)
    (part : ∀ c ∈ more.toList, isNamePart c = true) : IsName (name ++ more) := by
  obtain ⟨c, rest, written, start, parts⟩ := isName
  refine ⟨c, rest ++ more.toList, by rw [String.toList_append, written, List.cons_append], start, fun d member => ?_⟩
  exact (List.mem_append.mp member).elim (parts d) (part d)

theorem IsName.number {name : String} (isName : IsName name) (n : Nat) : IsName (name ++ toString n) := by
  apply isName.append
  intro c member
  have digit : c ∈ Nat.toDigits 10 n := by
    change c ∈ (Nat.repr n).toList at member
    simpa using member
  have decimal : c.isDigit = true := Nat.isDigit_of_mem_toDigits (by decide) (by decide) digit
  simp [isNamePart, Char.isAlphanum, decimal]

theorem isName_sanitized (text : List Char) : IsName ("defs_" ++ Names.sanitize text) := by
  have isName : IsName "defs_" := by decide
  apply isName.append
  intro c member
  rw [Names.sanitize, String.toList_ofList] at member
  obtain ⟨d, _, rfl⟩ := List.mem_map.mp member
  split_ifs with plain
  · simp [isNamePart, plain]
  · decide

theorem isName_candidate {base : String} (isName : IsName base) (n : Nat) : IsName (Names.candidate base n) := by
  cases n with
  | zero => exact isName
  | succ n => exact (isName.append (by simp [isNamePart])).number (n + 1)

theorem isName_search {base : String} (isName : IsName base) (taken : Std.TreeSet String) (n tries : Nat) :
    IsName (Names.search taken base n tries) := by
  induction tries generalizing n with
  | zero => exact isName_candidate isName n
  | succ tries ih =>
    rw [Names.search]
    split_ifs
    · exact ih (n + 1)
    · exact isName_candidate isName n

theorem isName_fresh {base : String} (isName : IsName base) (taken : Std.TreeSet String) :
    IsName (Names.fresh taken base) := isName_search isName taken 0 taken.size

end Token

end GuidedDecoding
