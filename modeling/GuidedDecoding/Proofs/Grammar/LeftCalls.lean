import Mathlib
import GuidedDecoding.Grammar.LeftRecursion
import GuidedDecoding.Proofs.Search

namespace GuidedDecoding

namespace LeftRecursion

variable {calls : Array (List RuleId)} {count : Nat}

/-- The rules of a list, the last one first, call on their left only rules that come before them. -/
def Finished (calls : Array (List RuleId)) (count : Nat) : List RuleId → Prop
  | [] => True
  | r :: earlier =>
    (∀ c ∈ calls[r]?.getD [], c < count → c ∈ earlier) ∧ Finished calls count earlier

/-- A rule on the path waits for the rule called last and for the calls to be followed; its other
calls went to finished rules. -/
def Waits (calls : Array (List RuleId)) (count : Nat) (done : List RuleId) :
    List RuleId → List Frame → Prop
  | _, [] => True
  | called, (r, callees) :: rest =>
    (∀ c ∈ calls[r]?.getD [], c < count → c ∈ done ∨ c ∈ called ∨ c ∈ callees) ∧
      Waits calls count done [r] rest

/-- What holds of the search when the rules `done` are finished, the last one first. -/
structure SearchState (calls : Array (List RuleId)) (count : Nat) (fresh : Std.TreeSet RuleId)
    (path : List Frame) (done : List RuleId) : Prop where
  finished : Finished calls count done
  waits : Waits calls count done [] path
  placed : ∀ c < count, c ∈ fresh ∨ c ∈ path.map Prod.fst ++ done
  known : ∀ c ∈ fresh, c < count
  taken : ∀ c ∈ path.map Prod.fst ++ done, c < count ∧ c ∉ fresh
  distinct : (path.map Prod.fst ++ done).Nodup

theorem Waits.mono {done more called : List RuleId} {path : List Frame} (grown : done ⊆ more)
    (waits : Waits calls count done called path) : Waits calls count more called path := by
  induction path generalizing called with
  | nil => trivial
  | cons frame rest ih =>
    refine ⟨fun c member inside => ?_, ih waits.2⟩
    exact (waits.1 c member inside).imp_left (fun finished => grown finished)

theorem Waits.finish {done : List RuleId} {r : RuleId} {path : List Frame}
    (waits : Waits calls count done [r] path) : Waits calls count (r :: done) [] path := by
  cases path with
  | nil => trivial
  | cons frame rest =>
    refine ⟨fun c member inside => ?_, waits.2.mono (List.subset_cons_self r done)⟩
    rcases waits.1 c member inside with finished | called | open_
    · exact .inl (List.mem_cons_of_mem r finished)
    · exact .inl (List.mem_singleton.mp called ▸ List.mem_cons_self)
    · exact .inr (.inr open_)

theorem SearchState.finish {fresh : Std.TreeSet RuleId} {r : RuleId} {rest : List Frame}
    {done : List RuleId} (state : SearchState calls count fresh ((r, []) :: rest) done) :
    SearchState calls count fresh rest (r :: done) := by
  have moved : (rest.map Prod.fst ++ r :: done).Perm (((r, []) :: rest).map Prod.fst ++ done) :=
    List.perm_middle
  refine ⟨⟨fun c member inside => ?_, state.finished⟩, state.waits.2.finish, ?_, state.known, ?_, ?_⟩
  · rcases state.waits.1 c member inside with finished | called | left
    · exact finished
    · simp at called
    · simp at left
  · intro c inside
    rw [moved.mem_iff]
    exact state.placed c inside
  · intro c member
    rw [moved.mem_iff] at member
    exact state.taken c member
  · exact moved.nodup_iff.mpr state.distinct

theorem placed_erase {fresh : Std.TreeSet RuleId} {r : RuleId} {seen : List RuleId}
    (placed : ∀ c < count, c ∈ fresh ∨ c ∈ seen) (known : ∀ c ∈ fresh, c < count)
    (taken : ∀ c ∈ seen, c < count ∧ c ∉ fresh) (new : r ∈ fresh) :
    (∀ c < count, c ∈ fresh.erase r ∨ c ∈ r :: seen) ∧ (∀ c ∈ fresh.erase r, c < count) ∧
      ∀ c ∈ r :: seen, c < count ∧ c ∉ fresh.erase r := by
  simp only [Std.TreeSet.mem_erase]
  refine ⟨?_, fun c member => known c member.2, ?_⟩
  · intro c inside
    by_cases same : c = r
    · exact .inr (by simp [same])
    · rcases placed c inside with unseen | seen
      · exact .inl ⟨fun equal => same (Std.LawfulEqOrd.compare_eq_iff_eq.mp equal).symm, unseen⟩
      · exact .inr (List.mem_cons_of_mem r seen)
  · intro c member
    rcases List.mem_cons.mp member with rfl | member
    · exact ⟨known c new, by simp⟩
    · exact ⟨(taken c member).1, fun erased => (taken c member).2 erased.2⟩

theorem SearchState.enter {fresh : Std.TreeSet RuleId} {r callee : RuleId} {callees : List RuleId}
    {rest : List Frame} {done : List RuleId}
    (state : SearchState calls count fresh ((r, callee :: callees) :: rest) done)
    (new : callee ∈ fresh) :
    SearchState calls count (fresh.erase callee)
      ((callee, calls[callee]?.getD []) :: (r, callees) :: rest) done := by
  have untouched : callee ∉ ((r, callee :: callees) :: rest).map Prod.fst ++ done :=
    fun member => (state.taken callee member).2 new
  obtain ⟨placed, known, taken⟩ := placed_erase state.placed state.known state.taken new
  refine ⟨state.finished, ⟨fun c member _ => .inr (.inr member), ?_, state.waits.2⟩, placed, known,
    taken, List.nodup_cons.mpr ⟨untouched, state.distinct⟩⟩
  intro c member inside
  rcases state.waits.1 c member inside with finished | called | left
  · exact .inl finished
  · simp at called
  · rcases List.mem_cons.mp left with rfl | left
    · exact .inr (.inl List.mem_cons_self)
    · exact .inr (.inr left)

theorem SearchState.skip {fresh : Std.TreeSet RuleId} {r callee : RuleId} {callees : List RuleId}
    {rest : List Frame} {done : List RuleId}
    (state : SearchState calls count fresh ((r, callee :: callees) :: rest) done)
    (old : callee ∉ fresh) (away : callee ∉ r :: rest.map Prod.fst) :
    SearchState calls count fresh ((r, callees) :: rest) done := by
  refine ⟨state.finished, ⟨fun c member inside => ?_, state.waits.2⟩, state.placed,
    state.known, state.taken, state.distinct⟩
  rcases state.waits.1 c member inside with finished | called | left
  · exact .inl finished
  · simp at called
  · rcases List.mem_cons.mp left with rfl | left
    · rcases state.placed c inside with unseen | seen
      · exact absurd unseen old
      · exact .inl ((List.mem_append.mp seen).resolve_left away)
    · exact .inr (.inr left)

theorem SearchState.run {fresh after : Std.TreeSet RuleId} {path : List Frame} {done : List RuleId}
    (state : SearchState calls count fresh path done) (h : search calls fresh path = .ok after) :
    (∃ done, SearchState calls count after [] done) ∧ ∀ c ∈ after, c ∈ fresh := by
  fun_induction search calls fresh path generalizing done with
  | case1 fresh =>
    cases h
    exact ⟨⟨done, state⟩, fun c member => member⟩
  | case2 fresh r rest ih => exact ih state.finish h
  | case3 fresh r callee callees rest new smaller ih =>
    obtain ⟨finished, kept⟩ := ih (state.enter new) h
    exact ⟨finished, fun c member => (Std.TreeSet.mem_erase.mp (kept c member)).2⟩
  | case4 fresh r callee callees rest old =>
    rename_i trail within
    have within : callee ∈ r :: rest.map Prod.fst := by simpa +zetaDelta using within
    dsimp only at h
    rw [if_pos within] at h
    cases h
  | case5 fresh r callee callees rest old =>
    rename_i trail away ih
    have away : callee ∉ r :: rest.map Prod.fst := by simpa +zetaDelta using away
    dsimp only at h
    rw [if_neg away] at h
    exact ih (state.skip old away) h

theorem SearchState.start {fresh : Std.TreeSet RuleId} {r : RuleId} {done : List RuleId}
    (state : SearchState calls count fresh [] done) (new : r ∈ fresh) :
    SearchState calls count (fresh.erase r) [(r, calls[r]?.getD [])] done := by
  have untouched : r ∉ done := fun member => (state.taken r member).2 new
  obtain ⟨placed, known, taken⟩ := placed_erase state.placed state.known state.taken new
  exact ⟨state.finished, ⟨fun c member _ => .inr (.inr member), trivial⟩, placed, known, taken,
    List.nodup_cons.mpr ⟨untouched, state.distinct⟩⟩

theorem SearchState.runAll {fresh after : Std.TreeSet RuleId} {rules done : List RuleId}
    (state : SearchState calls count fresh [] done) (h : searchAll calls fresh rules = .ok after) :
    (∃ done, SearchState calls count after [] done) ∧ (∀ c ∈ after, c ∈ fresh) ∧
      ∀ r ∈ rules, r ∉ after := by
  induction rules generalizing fresh done with
  | nil =>
    cases h
    exact ⟨⟨done, state⟩, fun c member => member, by simp⟩
  | cons r rest ih =>
    rw [searchAll] at h
    split at h
    next new =>
      cases found : search calls (fresh.erase r) [(r, calls[r]?.getD [])] with
      | error cycle =>
        rw [found] at h
        cases h
      | ok between =>
        rw [found] at h
        obtain ⟨⟨finished, state⟩, kept⟩ := (state.start new).run found
        obtain ⟨all, fewer, gone⟩ := ih state h
        refine ⟨all, fun c member => (Std.TreeSet.mem_erase.mp (kept c (fewer c member))).2, ?_⟩
        intro c member
        rcases List.mem_cons.mp member with rfl | member
        · intro left
          exact absurd (kept c (fewer c left)) (by simp [Std.TreeSet.mem_erase])
        · exact gone c member
    next old =>
      obtain ⟨all, fewer, gone⟩ := ih state h
      refine ⟨all, fewer, ?_⟩
      intro c member
      rcases List.mem_cons.mp member with rfl | member
      · exact fun left => old (fewer c left)
      · exact gone c member

/-- Each rule on the path is called by the one outside of it, and what is left to be followed are calls
of the rules on the path. -/
structure Traced (calls : Array (List RuleId)) (path : List Frame) : Prop where
  left : ∀ frame ∈ path, ∀ c ∈ frame.2, c ∈ calls[frame.1]?.getD []
  chain : (path.map Prod.fst).IsChain fun c r => c ∈ calls[r]?.getD []

def Circle (calls : Array (List RuleId)) (cycle : List RuleId) : Prop :=
  ∃ c rest, cycle = c :: rest ∧ (c :: rest ++ [c]).IsChain fun c r => c ∈ calls[r]?.getD []

theorem circle_of_trail {r callee : RuleId} {rest : List RuleId} (called : callee ∈ calls[r]?.getD [])
    (chain : (r :: rest).IsChain fun c r => c ∈ calls[r]?.getD []) (within : callee ∈ r :: rest) :
    Circle calls (callee :: (r :: rest).takeWhile (· != callee)) := by
  refine ⟨callee, _, rfl, ?_⟩
  have parts := List.takeWhile_append_dropWhile (p := (· != callee)) (l := r :: rest)
  have found : (r :: rest).dropWhile (· != callee) ≠ [] := by
    intro none
    have all := List.dropWhile_eq_nil_iff.mp none callee within
    simp at all
  obtain ⟨c, later, left⟩ := List.exists_cons_of_ne_nil found
  have same : c = callee := by
    have head := List.head?_dropWhile_not (· != callee) (r :: rest)
    rw [left] at head
    simpa using head
  rw [left, same] at parts
  have joined : (callee :: r :: rest).IsChain fun c r => c ∈ calls[r]?.getD [] :=
    List.isChain_cons_cons.mpr ⟨called, chain⟩
  apply joined.prefix
  refine ⟨later, ?_⟩
  conv_rhs => rw [← parts]
  simp

theorem search_circle {fresh : Std.TreeSet RuleId} {path : List Frame} {cycle : List RuleId}
    (traced : Traced calls path) (h : search calls fresh path = .error cycle) : Circle calls cycle := by
  fun_induction search calls fresh path with
  | case1 => cases h
  | case2 fresh r rest ih =>
    exact ih ⟨fun frame member => traced.left frame (List.mem_cons_of_mem _ member), traced.chain.tail⟩ h
  | case3 fresh r callee callees rest new smaller ih =>
    apply ih _ h
    have called := traced.left _ List.mem_cons_self callee List.mem_cons_self
    refine ⟨fun frame member => ?_, List.isChain_cons_cons.mpr ⟨called, traced.chain⟩⟩
    rcases List.mem_cons.mp member with rfl | member
    · exact fun c follows => follows
    · rcases List.mem_cons.mp member with rfl | member
      · exact fun c follows => traced.left _ List.mem_cons_self c (List.mem_cons_of_mem _ follows)
      · exact traced.left frame (List.mem_cons_of_mem _ member)
  | case4 fresh r callee callees rest old =>
    rename_i trail within
    have within : callee ∈ r :: rest.map Prod.fst := by simpa +zetaDelta using within
    dsimp only at h
    rw [if_pos within] at h
    cases h
    exact circle_of_trail (traced.left _ List.mem_cons_self callee List.mem_cons_self) traced.chain within
  | case5 fresh r callee callees rest old =>
    rename_i trail away ih
    have away : callee ∉ r :: rest.map Prod.fst := by simpa +zetaDelta using away
    dsimp only at h
    rw [if_neg away] at h
    refine ih ⟨fun frame member => ?_, traced.chain⟩ h
    rcases List.mem_cons.mp member with rfl | member
    · exact fun c follows => traced.left _ List.mem_cons_self c (List.mem_cons_of_mem _ follows)
    · exact traced.left frame (List.mem_cons_of_mem _ member)

theorem searchAll_circle {fresh : Std.TreeSet RuleId} {rules cycle : List RuleId}
    (h : searchAll calls fresh rules = .error cycle) : Circle calls cycle := by
  induction rules generalizing fresh with
  | nil => cases h
  | cons r rest ih =>
    rw [searchAll] at h
    split at h
    next new =>
      cases found : search calls (fresh.erase r) [(r, calls[r]?.getD [])] with
      | error other =>
        rw [found] at h
        cases h
        refine search_circle ⟨fun frame member => ?_, List.isChain_singleton r⟩ found
        obtain rfl := List.mem_singleton.mp member
        exact fun c follows => follows
      | ok between =>
        rw [found] at h
        exact ih h
    next old => exact ih h

theorem Finished.exists_rank {done : List RuleId} (finished : Finished calls count done)
    (distinct : done.Nodup) :
    ∃ rank : RuleId → Nat, ∀ r ∈ done, rank r < done.length ∧
      ∀ c ∈ calls[r]?.getD [], c < count → c ∈ done ∧ rank c < rank r := by
  induction done with
  | nil => exact ⟨fun _ => 0, by simp⟩
  | cons r earlier ih =>
    obtain ⟨new, distinct⟩ := List.nodup_cons.mp distinct
    obtain ⟨rank, ranked⟩ := ih finished.2 distinct
    have other {s : RuleId} (member : s ∈ earlier) : s ≠ r := fun same => new (same ▸ member)
    refine ⟨fun s => if s = r then earlier.length else rank s, ?_⟩
    intro s member
    rcases List.mem_cons.mp member with rfl | member
    · refine ⟨by simp, fun c called inside => ?_⟩
      have before := finished.1 c called inside
      refine ⟨List.mem_cons_of_mem s before, ?_⟩
      dsimp only
      rw [if_pos rfl, if_neg (other before)]
      exact (ranked c before).1
    · refine ⟨?_, fun c called inside => ?_⟩
      · dsimp only
        rw [if_neg (other member), List.length_cons]
        exact Nat.lt_succ_of_lt (ranked s member).1
      · obtain ⟨before, lower⟩ := (ranked s member).2 c called inside
        refine ⟨List.mem_cons_of_mem r before, ?_⟩
        dsimp only
        rw [if_neg (other member), if_neg (other before)]
        exact lower

@[simp] theorem size_callTable (bodies : Array (Expr RuleId)) : (callTable bodies).size = bodies.size := by
  rw [callTable, Array.size_map]

theorem mem_callTable {bodies : Array (Expr RuleId)} {r : RuleId} {body : Expr RuleId}
    (found : ruleBody? bodies r = some body) (c : RuleId) :
    c ∈ (callTable bodies)[r]?.getD [] ↔ c ∈ body.leftCalls (nullableRules bodies).contains := by
  rw [ruleBody?] at found
  rw [callTable, Array.getElem?_map, found, Option.map_some, Option.getD_some, Std.TreeSet.mem_toList,
    Std.TreeSet.mem_ofList, List.contains_iff_mem]

end LeftRecursion

/-- Left calls go to rules of lower rank, and no rank reaches the number of rules. -/
structure LeftRanked (bodies : Array (Expr RuleId)) (rank : RuleId → Nat) : Prop where
  bound : ∀ r < bodies.size, rank r < bodies.size
  descends : ∀ r body, ruleBody? bodies r = some body →
    ∀ c ∈ body.leftCalls (nullableRules bodies).contains, c < bodies.size → rank c < rank r

open LeftRecursion in
theorem exists_leftRanked {bodies : Array (Expr RuleId)} {preferred : Nat}
    (h : leftRecursiveRule? bodies preferred = none) : ∃ rank, LeftRanked bodies rank := by
  unfold leftRecursiveRule? report? at h
  rw [size_callTable] at h
  dsimp only at h
  cases result : searchAll (callTable bodies) (.ofList (List.range bodies.size))
      (List.range bodies.size) with
  | error cycle =>
    rw [result] at h
    dsimp only at h
    split at h
    · cases h
    · obtain ⟨c, rest, cycle, _⟩ := searchAll_circle result
      rw [List.min?_eq_none_iff.mp h] at cycle
      cases cycle
  | ok after =>
    have fresh (c : RuleId) :
        c ∈ Std.TreeSet.ofList (List.range bodies.size) ↔ c < bodies.size := by
      rw [Std.TreeSet.mem_ofList, List.contains_iff_mem, List.mem_range]
    have start : SearchState (callTable bodies) bodies.size
        (.ofList (List.range bodies.size)) [] [] :=
      ⟨trivial, trivial, fun c inside => .inl ((fresh c).mpr inside), fun c => (fresh c).mp,
        by simp, by simp⟩
    obtain ⟨⟨done, state⟩, _, gone⟩ := start.runAll result
    have all (r : RuleId) (inside : r < bodies.size) : r ∈ done :=
      (state.placed r inside).resolve_left (gone r (List.mem_range.mpr inside))
    have short : done.length ≤ bodies.size := by
      have inside : done ⊆ List.range bodies.size := fun r member =>
        List.mem_range.mpr (state.taken r member).1
      have size := (List.Nodup.subperm state.distinct inside).length_le
      rwa [List.length_range] at size
    obtain ⟨rank, ranked⟩ := state.finished.exists_rank state.distinct
    refine ⟨rank, fun r inside => ?_, fun r body found c called inside => ?_⟩
    · exact Nat.lt_of_lt_of_le (ranked r (all r inside)).1 short
    · have member := all r (Array.getElem?_eq_some_iff.mp found).1
      exact ((ranked r member).2 c ((mem_callTable found c).mpr called) inside).2

theorem mem_nullableRules {bodies : Array (Expr RuleId)} {r : RuleId} {body : Expr RuleId}
    (found : ruleBody? bodies r = some body)
    (h : body.nullable (nullableRules bodies).contains = true) : r ∈ nullableRules bodies := by
  apply mem_saturate_of_follows
  · exact List.mem_range.mpr (Array.getElem?_eq_some_iff.mp found).1
  · rw [found]
    exact h

end GuidedDecoding
