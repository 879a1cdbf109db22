import Mathlib
import GuidedDecoding.Search.Saturation
import GuidedDecoding.Search.Worklist

namespace GuidedDecoding

section Saturation

variable {α : Type} [Ord α] [Std.TransOrd α] [Std.LawfulEqOrd α]
  {follows : (α → Bool) → α → Bool} {known : Std.TreeSet α} {candidates : List α}

theorem mem_insertMany_list (set : Std.TreeSet α) (added : List α) (a : α) :
    a ∈ set.insertMany added ↔ a ∈ set ∨ a ∈ added := by
  classical
  rw [Std.TreeSet.mem_insertMany_list, List.contains_iff_mem]

/-- Whatever holds of the known things, and of all that follows from things of which it holds, holds
of the saturated set. -/
theorem of_mem_saturate (P : α → Prop) (start : ∀ a ∈ known, P a)
    (next : ∀ (held : α → Bool) (a : α), (∀ b, held b = true → P b) → follows held a = true → P a)
    {a : α} (member : a ∈ saturate follows known candidates) : P a := by
  fun_induction saturate follows known candidates with
  | case1 known candidates _ split => exact start a member
  | case2 known candidates b fresh rest split shorter ih =>
    apply ih _ member
    intro c held
    rcases (mem_insertMany_list known (b :: fresh) c).mp held with old | new
    · exact start c old
    · rw [List.partition_eq_filter_filter, Prod.mk.injEq] at split
      rw [← split.1, List.mem_filter] at new
      exact next known.contains c start new.2

theorem subset_saturate {a : α} (member : a ∈ known) : a ∈ saturate follows known candidates := by
  fun_induction saturate follows known candidates with
  | case1 => exact member
  | case2 known candidates b fresh rest split shorter ih =>
    exact ih ((mem_insertMany_list known (b :: fresh) a).mpr (.inl member))

theorem mem_saturate_of_follows {a : α} (candidate : a ∈ candidates)
    (h : follows (saturate follows known candidates).contains a = true) :
    a ∈ saturate follows known candidates := by
  fun_induction saturate follows known candidates with
  | case1 known candidates rest split =>
    rw [List.partition_eq_filter_filter, Prod.mk.injEq, List.filter_eq_nil_iff] at split
    exact absurd h (split.1 a candidate)
  | case2 known candidates b fresh rest split shorter ih =>
    rw [List.partition_eq_filter_filter, Prod.mk.injEq] at split
    by_cases new : follows known.contains a = true
    · have added : a ∈ b :: fresh := by rw [← split.1]; exact List.mem_filter.mpr ⟨candidate, new⟩
      exact subset_saturate ((mem_insertMany_list known (b :: fresh) a).mpr (.inr added))
    · have left : a ∈ rest := by rw [← split.2]; exact List.mem_filter.mpr ⟨candidate, by simpa using new⟩
      exact ih left h

theorem mem_learn {a b : α} :
    b ∈ learn follows known a ↔ b ∈ known ∨ b = a ∧ follows known.contains a = true := by
  unfold learn
  split
  next new =>
    rw [Bool.and_eq_true] at new
    rw [Std.TreeSet.mem_insert, Std.LawfulEqOrd.compare_eq_iff_eq, or_comm, eq_comm, and_iff_left new.2]
  next old =>
    refine (or_iff_left_of_imp fun ⟨same, follow⟩ => ?_).symm
    subst same
    rw [follow, Bool.and_true, Bool.not_eq_true', Bool.not_eq_false] at old
    exact Std.TreeSet.contains_iff_mem.mp old

theorem sweep_settled
    (settled : ∀ a ∈ candidates, a ∈ sweep follows candidates known → a ∈ known) :
    sweep follows candidates known = known ∧ ∀ a ∈ candidates, follows known.contains a = true → a ∈ known := by
  induction candidates with
  | nil => exact ⟨rfl, fun a candidate => absurd candidate List.not_mem_nil⟩
  | cons b rest ih =>
    have closed (follow : follows known.contains b = true) : b ∈ known :=
      settled b List.mem_cons_self (subset_sweep rest (mem_learn.mpr (.inr ⟨rfl, follow⟩)))
    have same : learn follows known b = known := by
      refine if_neg fun new => ?_
      rw [Bool.and_eq_true, Bool.not_eq_true', ← Bool.not_eq_true, Std.TreeSet.contains_iff_mem] at new
      exact new.1 (closed new.2)
    have step : sweep follows (b :: rest) known = sweep follows rest known := congrArg (sweep follows rest) same
    rw [step] at settled ⊢
    obtain ⟨kept, further⟩ := ih fun a candidate => settled a (List.mem_cons_of_mem b candidate)
    refine ⟨kept, fun a candidate follow => ?_⟩
    rcases List.mem_cons.mp candidate with rfl | candidate
    · exact closed follow
    · exact further a candidate follow

section

variable (P : α → Prop)
  (next : ∀ (held : α → Bool) (a : α), (∀ b, held b = true → P b) → follows held a = true → P a)
include next

theorem of_mem_sweep (start : ∀ a ∈ known, P a) {a : α} (member : a ∈ sweep follows candidates known) : P a := by
  induction candidates generalizing known with
  | nil => exact start a member
  | cons b rest ih =>
    refine ih (fun c found => ?_) member
    rcases mem_learn.mp found with old | ⟨rfl, follow⟩
    · exact start c old
    · exact next known.contains c start follow

theorem of_mem_sweeps (start : ∀ a ∈ known, P a) {a : α} (member : a ∈ sweeps follows candidates known) : P a := by
  fun_induction sweeps follows candidates known with
  | case1 known after found shorter ih => exact ih (fun b => of_mem_sweep P next start) member
  | case2 known after found => exact start a member

end

omit [Std.LawfulEqOrd α] in
theorem exists_iterate_sweep :
    ∃ rounds ≤ (missing candidates known).length,
      (sweep follows candidates)^[rounds] known = sweeps follows candidates known := by
  fun_induction sweeps follows candidates known with
  | case1 known after found shorter ih =>
    obtain ⟨rounds, few, reached⟩ := ih
    exact ⟨rounds + 1, Nat.succ_le_of_lt (Nat.lt_of_le_of_lt few shorter), reached⟩
  | case2 known after found => exact ⟨0, Nat.zero_le _, rfl⟩

theorem sweep_sweeps :
    sweep follows candidates (sweeps follows candidates known) = sweeps follows candidates known ∧
      ∀ a ∈ candidates, follows (sweeps follows candidates known).contains a = true →
        a ∈ sweeps follows candidates known := by
  fun_induction sweeps follows candidates known with
  | case1 known after found shorter ih => exact ih
  | case2 known after found =>
    refine sweep_settled fun a candidate member => ?_
    by_contra new
    refine found (List.any_eq_true.mpr ⟨a, candidate, ?_⟩)
    rw [Bool.and_eq_true, Bool.not_eq_true', ← Bool.not_eq_true, Std.TreeSet.contains_iff_mem]
    exact ⟨Std.TreeSet.contains_iff_mem.mpr member, new⟩

/-- Rounds that begin with nothing find the least fixpoint, if the more is known the more follows. -/
theorem isLeast_sweeps (monotone : Monotone follows)
    (among : ∀ held a, follows held a = true → a ∈ candidates) :
    IsLeast {held | follows held = held} (sweeps follows candidates ∅).contains := by
  have closed (a : α) (follow : follows (sweeps follows candidates ∅).contains a = true) :
      a ∈ sweeps follows candidates ∅ := sweep_sweeps.2 a (among _ a follow) follow
  constructor
  · funext a
    refine Bool.eq_iff_iff.mpr ⟨fun follow => Std.TreeSet.contains_iff_mem.mpr (closed a follow), fun member => ?_⟩
    refine of_mem_sweeps (fun a => follows (sweeps follows candidates ∅).contains a = true)
      (fun held b sound follow => ?_) (by simp) (Std.TreeSet.contains_iff_mem.mp member)
    exact monotone (fun c held => Std.TreeSet.contains_iff_mem.mpr (closed c (sound c held))) b follow
  · intro held fixed a member
    refine of_mem_sweeps (fun a => held a = true) (fun less b sound follow => ?_) (by simp)
      (Std.TreeSet.contains_iff_mem.mp member)
    rw [← show follows held = held from fixed]
    exact monotone sound b follow

end Saturation

def Leads {α : Type} (next : α → List α) : α → α → Prop := Relation.ReflTransGen fun a b => b ∈ next a

theorem Leads.of_mem {α : Type} {next : α → List α} {P : α → Prop} {a b : α}
    (closed : ∀ a, P a → ∀ b ∈ next a, P b) (start : P a) (leads : Leads next a b) : P b := by
  induction leads with
  | refl => exact start
  | tail _ step ih => exact closed _ ih _ step

section

variable {α : Type} [Ord α] [Std.TransOrd α] [Std.LawfulEqOrd α]

theorem size_le_of_code {found : Std.TreeSet α} {bound : Nat} (code : α → Nat)
    (below : ∀ a ∈ found, code a < bound)
    (distinct : ∀ a ∈ found, ∀ b ∈ found, code a = code b → a = b) : found.size ≤ bound := by
  have nodup : (found.toList.map code).Nodup := by
    apply List.Nodup.map_on
    · intro a left b right
      exact distinct a (Std.TreeSet.mem_toList.mp left) b (Std.TreeSet.mem_toList.mp right)
    · apply found.distinct_toList.imp
      intro a b different same
      exact different (Std.LawfulEqOrd.compare_eq_iff_eq.mpr same)
  have inside : found.toList.map code ⊆ List.range bound := by
    intro n member
    obtain ⟨a, inside, rfl⟩ := List.mem_map.mp member
    exact List.mem_range.mpr (below a (Std.TreeSet.mem_toList.mp inside))
  have short := (nodup.subperm inside).length_le
  rwa [List.length_map, List.length_range, Std.TreeSet.length_toList] at short

end

namespace Worklist

variable {α : Type} [Ord α] {next : α → List α} {things : List α}

/-- What holds of a worklist that began with some things. -/
structure Follows (next : α → List α) (things : List α) (work : Worklist α) : Prop where
  reached : ∀ a ∈ work.seen, ∃ b ∈ things, Leads next b a
  started : ∀ a ∈ things, a ∈ work.seen
  waiting : ∀ a ∈ work.waiting, a ∈ work.seen
  visited : ∀ a ∈ work.seen, a ∈ work.waiting ∨ ∀ b ∈ next a, b ∈ work.seen

theorem Follows.mem_seen {work : Worklist α} (follows : Follows next things work)
    (finished : work.waiting = []) (a : α) : a ∈ work.seen ↔ ∃ b ∈ things, Leads next b a := by
  refine ⟨follows.reached a, fun h => ?_⟩
  obtain ⟨b, given, leads⟩ := h
  refine Leads.of_mem (fun c member => ?_) (follows.started b given) leads
  exact (follows.visited c member).resolve_left (by simp [finished])

variable [Std.TransOrd α] [Std.LawfulEqOrd α]

section Adding

omit [Std.TransOrd α] [Std.LawfulEqOrd α] in
theorem see_of_mem {work : Worklist α} {a : α} (old : a ∈ work.seen) : work.see a = work :=
  if_pos (Std.TreeSet.contains_iff_mem.mpr old)

omit [Std.TransOrd α] [Std.LawfulEqOrd α] in
theorem see_of_not_mem {work : Worklist α} {a : α} (new : a ∉ work.seen) :
    work.see a = ⟨work.seen.insert a, a :: work.waiting⟩ :=
  if_neg (by rwa [Std.TreeSet.contains_iff_mem])

theorem mem_seen_see (work : Worklist α) (a b : α) : b ∈ (work.see a).seen ↔ b ∈ work.seen ∨ b = a := by
  by_cases old : a ∈ work.seen
  · rw [see_of_mem old]
    exact (or_iff_left_of_imp fun same => same ▸ old).symm
  · rw [see_of_not_mem old, Std.TreeSet.mem_insert, Std.LawfulEqOrd.compare_eq_iff_eq, or_comm, eq_comm]

theorem mem_seen_add (work : Worklist α) (things : List α) (a : α) :
    a ∈ (work.add things).seen ↔ a ∈ work.seen ∨ a ∈ things := by
  induction things generalizing work with
  | nil => simp [add]
  | cons b rest ih =>
    change a ∈ ((work.see b).add rest).seen ↔ _
    rw [ih, mem_seen_see, List.mem_cons, or_assoc]

theorem mem_waiting_add (work : Worklist α) (things : List α) (a : α) :
    a ∈ (work.add things).waiting ↔ a ∈ work.waiting ∨ a ∈ things ∧ a ∉ work.seen := by
  induction things generalizing work with
  | nil => simp [add]
  | cons b rest ih =>
    change a ∈ ((work.see b).add rest).waiting ↔ _
    rw [ih, mem_seen_see]
    by_cases old : b ∈ work.seen
    · rw [see_of_mem old]
      grind
    · rw [see_of_not_mem old]
      grind

omit [Std.LawfulEqOrd α] in
theorem exists_size_add (work : Worklist α) (things : List α) :
    ∃ fresh, (work.add things).seen.size = work.seen.size + fresh ∧
      (work.add things).waiting.length = work.waiting.length + fresh := by
  induction things generalizing work with
  | nil => exact ⟨0, rfl, rfl⟩
  | cons b rest ih =>
    obtain ⟨fresh, seen, waiting⟩ := ih (work.see b)
    change ∃ fresh, ((work.see b).add rest).seen.size = _ ∧ ((work.see b).add rest).waiting.length = _
    by_cases old : b ∈ work.seen
    · rw [see_of_mem old] at seen waiting ⊢
      exact ⟨fresh, seen, waiting⟩
    · have size := Std.TreeSet.size_insert (t := work.seen) (k := b)
      rw [if_neg (by rwa [Std.TreeSet.contains_iff_mem])] at size
      rw [see_of_not_mem old, size] at seen
      rw [see_of_not_mem old, List.length_cons] at waiting
      rw [see_of_not_mem old]
      exact ⟨fresh + 1, by omega, by omega⟩

end Adding

/-- Every visit takes one thing off the list and puts only things on it that were never seen. -/
theorem acc_visit {bound : Nat} (P : α → Prop) (closed : ∀ a, P a → ∀ b ∈ next a, P b)
    (bounded : ∀ found : Std.TreeSet α, (∀ a ∈ found, P a) → found.size ≤ bound)
    {work : Worklist α} (seen : ∀ a ∈ work.seen, P a) (waiting : ∀ a ∈ work.waiting, P a) :
    Acc (fun later earlier => Visit next earlier later) work := by
  induction measure : 2 * (bound - work.seen.size) + work.waiting.length using Nat.strong_induction_on
    generalizing work with
  | _ measured ih =>
    constructor
    intro later visit
    cases visit with
    | @pick old before after a =>
      have onward : ∀ b ∈ next a, P b := closed a (waiting a (by simp))
      have held : ∀ b ∈ (add ⟨old, before ++ after⟩ (next a)).seen, P b := by
        intro b member
        exact ((mem_seen_add _ (next a) b).mp member).elim (seen b) (onward b)
      have listed : ∀ b ∈ (add ⟨old, before ++ after⟩ (next a)).waiting, P b := by
        intro b member
        rcases (mem_waiting_add _ (next a) b).mp member with member | ⟨fresh, _⟩
        · apply waiting b
          rcases List.mem_append.mp member with member | member
          · exact List.mem_append_left _ member
          · exact List.mem_append_right _ (List.mem_cons_of_mem a member)
        · exact onward b fresh
      obtain ⟨fresh, size, length⟩ := exists_size_add ⟨old, before ++ after⟩ (next a)
      have room := bounded _ held
      refine ih _ ?_ held listed rfl
      simp only [List.length_append, List.length_cons] at measure size length ⊢
      omega

theorem mem_seen_start (a : α) : a ∈ (start things).seen ↔ a ∈ things :=
  (mem_seen_add ⟨∅, []⟩ things a).trans (or_iff_right Std.TreeSet.not_mem_emptyc)

theorem mem_waiting_start (a : α) : a ∈ (start things).waiting ↔ a ∈ things :=
  (mem_waiting_add ⟨∅, []⟩ things a).trans (by simp)

theorem follows_start : Follows next things (start things) where
  reached a member := ⟨a, (mem_seen_start a).mp member, .refl⟩
  started a := (mem_seen_start a).mpr
  waiting a member := (mem_seen_start a).mpr ((mem_waiting_start a).mp member)
  visited a member := .inl ((mem_waiting_start a).mpr ((mem_seen_start a).mp member))

theorem Follows.visit {work later : Worklist α} (follows : Follows next things work)
    (visit : Visit next work later) : Follows next things later := by
  cases visit with
  | @pick seen before after a =>
    have known (b : α) : b ∈ (add ⟨seen, before ++ after⟩ (next a)).seen ↔ b ∈ seen ∨ b ∈ next a :=
      mem_seen_add _ (next a) b
    have listed (b : α) : b ∈ (add ⟨seen, before ++ after⟩ (next a)).waiting ↔
        b ∈ before ++ after ∨ b ∈ next a ∧ b ∉ seen := mem_waiting_add _ (next a) b
    have picked : a ∈ seen := follows.waiting a (by simp)
    refine ⟨fun b member => ?_, fun b given => ?_, fun b member => ?_, fun b member => ?_⟩
    · rcases (known b).mp member with old | new
      · exact follows.reached b old
      · obtain ⟨c, given, leads⟩ := follows.reached a picked
        exact ⟨c, given, leads.tail new⟩
    · exact (known b).mpr (.inl (follows.started b given))
    · apply (known b).mpr
      rcases (listed b).mp member with member | ⟨fresh, _⟩
      · refine .inl (follows.waiting b ?_)
        simp only [List.mem_append, List.mem_cons] at member ⊢
        tauto
      · exact .inr fresh
    · -- A thing that no longer waits is the one just visited, or was visited before.
      by_cases old : b ∈ seen
      · rcases follows.visited b old with waiting | done
        · by_cases same : b = a
          · exact .inr fun c step => (known c).mpr (.inr (same ▸ step))
          · refine .inl ((listed b).mpr (.inl ?_))
            simp only [List.mem_append, List.mem_cons] at waiting ⊢
            tauto
        · exact .inr fun c step => (known c).mpr (.inl (done c step))
      · have new := ((known b).mp member).resolve_left old
        exact .inl ((listed b).mpr (.inr ⟨new, old⟩))

theorem Follows.run {work : Worklist α} (run : Relation.ReflTransGen (Visit next) (start things) work) :
    Follows next things work := by
  induction run with
  | refl => exact follows_start
  | tail _ visit ih => exact ih.visit visit

section Exploring

/-- What was visited and what waits are listed once each, and nothing else was seen. -/
structure Lists (visited : List α) (work : Worklist α) : Prop where
  once : (visited ++ work.waiting).Nodup
  all : ∀ a, a ∈ visited ++ work.waiting ↔ a ∈ work.seen

theorem Lists.see {visited : List α} {work : Worklist α} (lists : Lists visited work) (a : α) :
    Lists visited (work.see a) := by
  by_cases old : a ∈ work.seen
  · rwa [see_of_mem old]
  · rw [see_of_not_mem old]
    have order : (visited ++ a :: work.waiting).Perm (a :: (visited ++ work.waiting)) := List.perm_middle
    refine ⟨order.nodup_iff.mpr (List.nodup_cons.mpr ⟨fun member => old ((lists.all a).mp member), lists.once⟩),
      fun b => ?_⟩
    rw [order.mem_iff, List.mem_cons, lists.all, Std.TreeSet.mem_insert, Std.LawfulEqOrd.compare_eq_iff_eq, eq_comm]

theorem Lists.add {visited : List α} {work : Worklist α} (lists : Lists visited work) (things : List α) :
    Lists visited (work.add things) := by
  induction things generalizing work with
  | nil => exact lists
  | cons a rest ih => exact ih (lists.see a)

theorem lists_start (things : List α) : Lists [] (start things) :=
  Lists.add ⟨List.nodup_nil, by simp⟩ things

theorem Lists.explore {visited : List α} {work : Worklist α} (lists : Lists visited work) (next : α → List α)
    (bound : Nat) :
    Lists (visited ++ (work.explore next bound).1) (work.explore next bound).2 := by
  induction bound generalizing visited work with
  | zero => simpa [Worklist.explore] using lists
  | succ bound ih =>
    obtain ⟨seen, waiting⟩ := work
    cases waiting with
    | nil => simpa [Worklist.explore] using lists
    | cons a waiting =>
      have moved : Lists (visited ++ [a]) ⟨seen, waiting⟩ := by
        obtain ⟨once, all⟩ := lists
        exact ⟨by simpa using once, by simpa using all⟩
      simpa [Worklist.explore] using ih (moved.add (next a))

omit [Std.TransOrd α] [Std.LawfulEqOrd α] in
theorem explore_run (next : α → List α) (bound : Nat) (work : Worklist α) :
    Relation.ReflTransGen (Visit next) work (work.explore next bound).2 := by
  induction bound generalizing work with
  | zero => exact .refl
  | succ bound ih =>
    obtain ⟨seen, waiting⟩ := work
    cases waiting with
    | nil => exact .refl
    | cons a waiting => exact .head (@Visit.pick α _ next seen [] waiting a) (ih _)

omit [Std.TransOrd α] [Std.LawfulEqOrd α] in
theorem length_explore (next : α → List α) (bound : Nat) (work : Worklist α) :
    (work.explore next bound).2.waiting = [] ∨ (work.explore next bound).1.length = bound := by
  induction bound generalizing work with
  | zero => exact .inr rfl
  | succ bound ih =>
    obtain ⟨seen, waiting⟩ := work
    cases waiting with
    | nil => exact .inl rfl
    | cons a waiting => exact (ih _).imp_right (congrArg (· + 1))

variable {bound : Nat} (P : α → Prop) (closed : ∀ a, P a → ∀ b ∈ next a, P b)
  (bounded : ∀ found : Std.TreeSet α, (∀ a ∈ found, P a) → found.size ≤ bound) (given : ∀ a ∈ things, P a)
include P closed bounded given

theorem waiting_explore : ((start things).explore next bound).2.waiting = [] := by
  have follows := Follows.run (explore_run next bound (start things))
  have lists := (lists_start things).explore next bound
  rw [List.nil_append] at lists
  have held : ∀ a ∈ ((start things).explore next bound).2.seen, P a := by
    intro a member
    obtain ⟨b, first, leads⟩ := follows.reached a member
    exact leads.of_mem closed (given b first)
  have room := bounded _ held
  have size : (((start things).explore next bound).1 ++ ((start things).explore next bound).2.waiting).length =
      ((start things).explore next bound).2.seen.size := by
    rw [← Std.TreeSet.length_toList]
    refine ((List.perm_ext_iff_of_nodup lists.once ?_).mpr fun a => ?_).length_eq
    · apply Std.TreeSet.distinct_toList.imp
      intro a b different same
      exact different (Std.LawfulEqOrd.compare_eq_iff_eq.mpr same)
    · rw [lists.all, Std.TreeSet.mem_toList]
  rcases length_explore next bound (start things) with finished | full
  · exact finished
  · rw [List.length_append] at size
    exact List.eq_nil_of_length_eq_zero (by omega)

theorem mem_explore (a : α) : a ∈ ((start things).explore next bound).1 ↔ ∃ b ∈ things, Leads next b a := by
  have finished := waiting_explore P closed bounded given
  have all := ((lists_start things).explore next bound).all a
  rw [List.nil_append, finished, List.append_nil] at all
  rw [all, (Follows.run (explore_run next bound (start things))).mem_seen finished]

omit P closed bounded given in
theorem nodup_explore (next : α → List α) (bound : Nat) : ((start things).explore next bound).1.Nodup :=
  List.Nodup.of_append_left ((lists_start things).explore next bound).once

end Exploring

end Worklist

end GuidedDecoding
