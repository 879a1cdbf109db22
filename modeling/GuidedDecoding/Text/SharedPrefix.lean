namespace GuidedDecoding

def sharedPrefixLength {α : Type} [BEq α] : List α → List α → Nat
  | a :: as, b :: bs => if a == b then sharedPrefixLength as bs + 1 else 0
  | _, _ => 0

variable {α : Type} [BEq α]

theorem sharedPrefixLength_le (as bs : List α) : sharedPrefixLength as bs ≤ as.length := by
  induction as generalizing bs with
  | nil => exact Nat.le_refl 0
  | cons a as ih =>
    cases bs with
    | nil => exact Nat.zero_le _
    | cons b bs =>
      rw [sharedPrefixLength]
      split
      next => exact Nat.succ_le_succ (ih bs)
      next => exact Nat.zero_le _

theorem take_sharedPrefixLength [LawfulBEq α] (as bs : List α) :
    bs.take (sharedPrefixLength as bs) = as.take (sharedPrefixLength as bs) := by
  induction as generalizing bs with
  | nil => rfl
  | cons a as ih =>
    cases bs with
    | nil => rfl
    | cons b bs =>
      rw [sharedPrefixLength]
      split
      next same => rw [List.take_succ_cons, List.take_succ_cons, ih, eq_of_beq same]
      next => rfl

end GuidedDecoding
