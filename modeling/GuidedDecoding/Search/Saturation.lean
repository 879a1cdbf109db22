import Std.Data.TreeSet

namespace GuidedDecoding

theorem length_partition_lt {α : Type} {p : α → Bool} {candidates fresh rest : List α} {a : α}
    (h : candidates.partition p = (a :: fresh, rest)) : rest.length < candidates.length := by
  rw [List.partition_eq_filter_filter, Prod.mk.injEq] at h
  obtain ⟨first, rfl⟩ := h
  have member : a ∈ candidates.filter p := first ▸ List.mem_cons_self
  rw [List.length_filter_lt_length_iff_exists]
  exact ⟨a, (List.mem_filter.mp member).1, by simp [(List.mem_filter.mp member).2]⟩

/-- Adds to `known` the candidates that follow from what is known, until no other does. Each round
but the last takes a candidate away. -/
def saturate {α : Type} [Ord α] (follows : (α → Bool) → α → Bool)
    (known : Std.TreeSet α) (candidates : List α) : Std.TreeSet α :=
  match h : candidates.partition (follows known.contains) with
  | ([], _) => known
  | (a :: fresh, rest) =>
    have := length_partition_lt h
    saturate follows (known.insertMany (a :: fresh)) rest
termination_by candidates.length

section

variable {α : Type} [Ord α] (follows : (α → Bool) → α → Bool)

def learn (known : Std.TreeSet α) (a : α) : Std.TreeSet α :=
  if !known.contains a && follows known.contains a then known.insert a else known

def sweep (candidates : List α) (known : Std.TreeSet α) : Std.TreeSet α := candidates.foldl (learn follows) known

def missing (candidates : List α) (known : Std.TreeSet α) : List α := candidates.filter (!known.contains ·)

variable [Std.TransOrd α] {follows}

theorem subset_sweep (candidates : List α) {known : Std.TreeSet α} {a : α} (member : a ∈ known) :
    a ∈ sweep follows candidates known := by
  induction candidates generalizing known with
  | nil => exact member
  | cons b rest ih =>
    apply ih
    unfold learn
    split
    · exact Std.TreeSet.mem_insert.mpr (.inr member)
    · exact member

theorem length_missing_sweep_lt {candidates : List α} {known : Std.TreeSet α}
    (found : candidates.any fun a => (sweep follows candidates known).contains a && !known.contains a) :
    (missing candidates (sweep follows candidates known)).length < (missing candidates known).length := by
  obtain ⟨a, candidate, new⟩ := List.any_eq_true.mp found
  rw [Bool.and_eq_true] at new
  have fewer : missing candidates (sweep follows candidates known) =
      (missing candidates known).filter (!(sweep follows candidates known).contains ·) := by
    rw [missing, missing, List.filter_filter]
    refine List.filter_congr fun b _ => ?_
    cases old : known.contains b with
    | false => simp
    | true =>
      have kept : b ∈ sweep follows candidates known :=
        subset_sweep candidates (Std.TreeSet.contains_iff_mem.mp old)
      simp [Std.TreeSet.contains_iff_mem.mpr kept]
  rw [fewer, List.length_filter_lt_length_iff_exists]
  exact ⟨a, List.mem_filter.mpr ⟨candidate, new.2⟩, by simp [new.1]⟩

variable (follows)

def sweeps (candidates : List α) (known : Std.TreeSet α) : Std.TreeSet α :=
  let after := sweep follows candidates known
  if found : candidates.any fun a => after.contains a && !known.contains a then
    have := length_missing_sweep_lt found
    sweeps candidates after
  else known
termination_by (missing candidates known).length

end

end GuidedDecoding
