import Mathlib
import GuidedDecoding.Automaton.Run
import GuidedDecoding.Proofs.Automaton.Graph
import GuidedDecoding.Proofs.Grammar.LeftCalls
import GuidedDecoding.Proofs.Search

namespace GuidedDecoding.Automaton

/-- A move that consumes nothing. -/
inductive Move (a : Automaton) : Position → Position → Prop where
  | back {v next : Node} {returns : List Node} (ended : (a.completed? v).isSome) :
    Move a ⟨v, next :: returns⟩ ⟨next, returns⟩
  | silent {v next : Node} {returns : List Node} (inside : a.completed? v = none)
    (edge : .silent next ∈ a.transitionsAt v) : Move a ⟨v, returns⟩ ⟨next, returns⟩
  | call {v next : Node} {returns : List Node} {r : RuleId} (inside : a.completed? v = none)
    (edge : .call r next ∈ a.transitionsAt v) (known : r < a.ruleCount) (kept : next ∉ a.tails) :
    Move a ⟨v, returns⟩ ⟨start r, next :: returns⟩
  | tailCall {v next : Node} {returns : List Node} {r : RuleId} (inside : a.completed? v = none)
    (edge : .call r next ∈ a.transitionsAt v) (known : r < a.ruleCount) (tail : next ∈ a.tails) :
    Move a ⟨v, returns⟩ ⟨start r, returns⟩

def withTails (a : Automaton) (tails : Std.TreeSet Node) : Automaton := { a with tails := tails }

theorem start?_eq_some {a : Automaton} {r : RuleId} {node : Node} :
    a.start? r = some node ↔ r < a.ruleCount ∧ start r = node := by
  rw [start?]
  split <;> simp_all

theorem mem_moves {a : Automaton} {p q : Position} : q ∈ a.moves p ↔ Move a p q := by
  obtain ⟨v, returns⟩ := p
  rw [moves]
  cases ended : a.completed? v with
  | some r =>
    dsimp only
    cases returns with
    | nil =>
      simp only [List.not_mem_nil, false_iff]
      intro move
      cases move <;> simp_all
    | cons next returns =>
      simp only [List.mem_singleton]
      constructor
      · intro h
        obtain rfl := h
        exact .back (by rw [ended]; rfl)
      · intro move
        cases move <;> simp_all
  | none =>
    simp only [List.mem_filterMap]
    constructor
    · intro h
      obtain ⟨t, edge, moved⟩ := h
      cases t with
      | byte range next => simp at moved
      | silent next =>
        cases moved
        exact .silent ended edge
      | call r next =>
        obtain ⟨node, found, rfl⟩ := Option.map_eq_some_iff.mp moved
        obtain ⟨known, rfl⟩ := start?_eq_some.mp found
        by_cases tail : next ∈ a.tails
        · rw [if_pos (Std.TreeSet.contains_iff_mem.mpr tail)]
          exact .tailCall ended edge known tail
        · rw [if_neg (by rwa [Std.TreeSet.contains_iff_mem])]
          exact .call ended edge known tail
    · intro move
      cases move with
      | back done => simp [ended] at done
      | silent _ edge => exact ⟨_, edge, rfl⟩
      | call _ edge known kept =>
        refine ⟨_, edge, Option.map_eq_some_iff.mpr ⟨_, start?_eq_some.mpr ⟨known, rfl⟩, ?_⟩⟩
        rw [if_neg (by rwa [Std.TreeSet.contains_iff_mem])]
      | tailCall _ edge known tail =>
        refine ⟨_, edge, Option.map_eq_some_iff.mpr ⟨_, start?_eq_some.mpr ⟨known, rfl⟩, ?_⟩⟩
        rw [if_pos (Std.TreeSet.contains_iff_mem.mpr tail)]

theorem mem_bytesAt {a : Automaton} {p : Position} {range : ByteRange} {next : Node} :
    (range, next) ∈ a.bytesAt p ↔
      a.completed? p.node = none ∧ .byte range next ∈ a.transitionsAt p.node := by
  rw [bytesAt]
  cases ended : a.completed? p.node with
  | some r => simp
  | none =>
    simp only [List.mem_filterMap, true_and]
    constructor
    · intro h
      obtain ⟨t, edge, found⟩ := h
      cases t <;> simp_all
    · intro edge
      exact ⟨_, edge, rfl⟩

theorem completesMain_iff {a : Automaton} {p : Position} :
    a.completesMain p = true ↔ (a.completed? p.node).isSome = true ∧ p.returns = [] := by
  rw [completesMain, Bool.and_eq_true, List.isEmpty_iff]

theorem completed?_eq_some {a : Automaton} {v : Node} {r : RuleId} :
    a.completed? v = some r ↔ r < a.ruleCount ∧ v = 2 * r + 1 := by
  rw [completed?, completedIn]
  constructor
  · intro found
    split at found
    next ended =>
      cases found
      exact ⟨ended.2, exit_half ended.1⟩
    next => cases found
  · intro h
    obtain ⟨known, rfl⟩ := h
    obtain ⟨odd, half⟩ := half_exit r
    rw [half, if_pos ⟨odd, known⟩]

section

variable {bodies : Array (Expr RuleId)} {main : RuleId}

theorem of_mem_tails (P : Node → Prop) (exit : ∀ r < bodies.size, P (2 * r + 1))
    (silent : ∀ v, (∃ t, t ∈ (ofBodies bodies main).transitionsAt v) →
      (∀ t ∈ (ofBodies bodies main).transitionsAt v, ∃ next, t = .silent next ∧ P next) → P v)
    {v : Node} (tail : v ∈ (ofBodies bodies main).tails) : P v := by
  change v ∈ tailNodes bodies.size (Draft.ofBodies bodies.toList).table at tail
  rw [tailNodes] at tail
  dsimp only at tail
  refine of_mem_saturate P (fun v ended => ?_) (fun known v all follows => ?_) tail
  · rw [Std.TreeSet.mem_ofList, List.contains_iff_mem, List.partition_eq_filter_filter,
      List.mem_filter] at ended
    obtain ⟨r, ended⟩ := Option.isSome_iff_exists.mp ended.2
    obtain ⟨inside, rfl⟩ := (completed?_eq_some (a := ofBodies bodies main)).mp ended
    exact exit r inside
  · have out : (ofBodies bodies main).transitionsAt v =
        (Draft.ofBodies bodies.toList).table[v]?.getD [] := rfl
    apply silent
    · cases found : (Draft.ofBodies bodies.toList).table[v]?.getD [] with
      | nil =>
        rw [found] at follows
        cases follows
      | cons t rest =>
        rw [out, found]
        exact ⟨t, List.mem_cons_self⟩
    · intro t member
      rw [out] at member
      split at follows
      next => cases follows
      next =>
        have kept := List.all_eq_true.mp follows t member
        cases t with
        | silent next => exact ⟨next, rfl, all next kept⟩
        | byte range next => cases kept
        | call r next => cases kept

abbrev Silence := Prop × Set RuleId

def silence (known : RuleId → Bool) : NodeReading Silence where
  byte _ _ := (False, ∅)
  call r after := (known r = true ∧ after.1, {c | c = r ∨ known r = true ∧ c ∈ after.2})
  plan plan after :=
    (plan.nullable known = true ∧ after.1,
      {c | c ∈ plan.leftCalls known ∨ plan.nullable known = true ∧ c ∈ after.2})
  silent_le after := ⟨fun ends => ⟨rfl, ends⟩, fun c called => .inr ⟨rfl, called⟩⟩
  byte_le range after := ⟨False.elim, fun c called => called.elim⟩
  call_le r after := by
    refine ⟨id, fun c called => called.imp (fun same => ?_) id⟩
    exact List.mem_singleton.mpr same
  join_le first second after := by
    simp only [Plan.nullable, Plan.leftCalls, Bool.and_eq_true, List.mem_append]
    refine ⟨fun ⟨one, two, ends⟩ => ⟨⟨one, two⟩, ends⟩, fun c called => ?_⟩
    rcases called with called | ⟨one, called | ⟨two, called⟩⟩
    · exact .inl (.inl called)
    · exact .inl (.inr (by rwa [if_pos one]))
    · exact .inr ⟨⟨one, two⟩, called⟩
  one_le one other after := by
    simp only [Plan.nullable, Plan.leftCalls, Bool.or_eq_true, List.mem_append]
    exact ⟨fun ⟨empty, ends⟩ => ⟨.inl empty, ends⟩,
      fun c called => called.imp .inl fun ⟨empty, called⟩ => ⟨.inl empty, called⟩⟩
  other_le one other after := by
    simp only [Plan.nullable, Plan.leftCalls, Bool.or_eq_true, List.mem_append]
    exact ⟨fun ⟨empty, ends⟩ => ⟨.inr empty, ends⟩,
      fun c called => called.imp .inr fun ⟨empty, called⟩ => ⟨.inr empty, called⟩⟩
  leave_le body after := ⟨fun ends => ⟨rfl, ends⟩, fun c called => .inr ⟨rfl, called⟩⟩
  again_le body after := by
    refine ⟨fun ⟨_, ends⟩ => ends, fun c called => ?_⟩
    rcases called with called | ⟨_, called⟩
    · exact .inl called
    · exact called

/-- Labels that bound what the automaton does between two bytes. -/
structure Silent (bodies : Array (Expr RuleId)) (main : RuleId) (rank : RuleId → Nat)
    (label : Node → Silence) : Prop where
  ends : ∀ r < bodies.size, (label (2 * r + 1)).1
  entry : ∀ r < bodies.size, (label (2 * r)).1 → r ∈ nullableRules bodies
  descends : ∀ r < bodies.size, ∀ c ∈ (label (2 * r)).2, c < bodies.size → rank c < rank r
  edge : ∀ v, ∀ t ∈ (ofBodies bodies main).transitionsAt v,
    (silence (nullableRules bodies).contains).through label t ≤ label v

theorem exists_silent (main : RuleId) {rank : RuleId → Nat} (ranked : LeftRanked bodies rank) :
    ∃ label, Silent bodies main rank label := by
  let known := (nullableRules bodies).contains
  let calls (r : RuleId) : Set RuleId :=
    {c | ∃ body, ruleBody? bodies r = some body ∧ c ∈ body.leftCalls known}
  obtain ⟨label, ends, edge⟩ := exists_labels bodies main (silence known)
    (fun r => (r ∈ nullableRules bodies, calls r)) (fun _ => (True, ∅)) (by
      intro r body found
      refine ⟨fun ⟨empty, _⟩ => ?_, fun c called => ?_⟩
      · rw [Expr.nullable_plan] at empty
        exact mem_nullableRules found empty
      · rcases called with called | ⟨_, called⟩
        · exact ⟨body, found, (Expr.mem_leftCalls_plan known body c).mp called⟩
        · exact called.elim)
  refine ⟨label, fun r inside => ?_, fun r inside => ?_, fun r inside c called => ?_, edge⟩
  · rw [(ends r inside).2]
    trivial
  · rw [(ends r inside).1]
    exact id
  · rw [(ends r inside).1] at called
    obtain ⟨body, found, called⟩ := called
    exact ranked.descends r body found c called

/-- A position, written as its node and its returns, leaves room for the calls to come: from each
node that may be returned to before the next byte, no more calls nest than `depth` allows. -/
def Fits (n depth : Nat) (rank : RuleId → Nat) (label : Node → Silence) : List Node → Prop
  | [] => True
  | v :: returns => returns.length ≤ depth ∧
    (∀ c ∈ (label v).2, c < n → returns.length + rank c + 1 ≤ depth) ∧
    ((label v).1 → Fits n depth rank label returns)

namespace Silent

variable {rank : RuleId → Nat} {label : Node → Silence} (silent : Silent bodies main rank label)
include silent

theorem tail {v : Node} (tail : v ∈ (ofBodies bodies main).tails) : (label v).1 := by
  refine of_mem_tails (fun v => (label v).1) silent.ends (fun v ⟨t, member⟩ out => ?_) tail
  obtain ⟨next, rfl, ends⟩ := out t member
  exact (silent.edge v _ member).1 ends

theorem fits_move {tails : Std.TreeSet Node}
    (fewer : ∀ v ∈ tails, v ∈ (ofBodies bodies main).tails) {depth : Nat} {p q : Position}
    (move : Move ((ofBodies bodies main).withTails tails) p q)
    (fits : Fits bodies.size depth rank label (p.node :: p.returns)) :
    Fits bodies.size depth rank label (q.node :: q.returns) := by
  obtain ⟨room, calls, back⟩ := fits
  cases move with
  | @back v next returns ended =>
    obtain ⟨r, ended⟩ := Option.isSome_iff_exists.mp ended
    obtain ⟨known, rfl⟩ := completed?_eq_some.mp ended
    exact back (silent.ends r known)
  | @silent v next returns inside edge =>
    have le := silent.edge v _ edge
    exact ⟨room, fun c called => calls c (le.2 called), fun ends => back (le.1 ends)⟩
  | @call v next returns r inside edge known kept =>
    have le := silent.edge v _ edge
    have deeper := calls r (le.2 (.inl rfl)) known
    refine ⟨Nat.le_trans (Nat.succ_le_succ (Nat.le_add_right _ _)) deeper, fun c called h => ?_,
      fun empty => ?_⟩
    · have lower := silent.descends r known c called h
      dsimp only [List.length_cons] at deeper ⊢
      omega
    · have empty := Std.TreeSet.contains_iff_mem.mpr (silent.entry r known empty)
      exact ⟨room, fun c called => calls c (le.2 (.inr ⟨empty, called⟩)),
        fun ends => back (le.1 ⟨empty, ends⟩)⟩
  | @tailCall v next returns r inside edge known tail =>
    have le := silent.edge v _ edge
    have deeper := calls r (le.2 (.inl rfl)) known
    refine ⟨room, fun c called h => ?_, fun empty => ?_⟩
    · have lower := silent.descends r known c called h
      dsimp only at deeper ⊢
      omega
    · have empty := Std.TreeSet.contains_iff_mem.mpr (silent.entry r known empty)
      exact back (le.1 ⟨empty, silent.tail (fewer _ tail)⟩)

end Silent

theorem fits_of_length {n depth : Nat} {rank : RuleId → Nat} (label : Node → Silence)
    (bound : ∀ r < n, rank r < n) (v : Node) (returns : List Node)
    (short : returns.length + n ≤ depth) : Fits n depth rank label (v :: returns) := by
  induction returns generalizing v with
  | nil =>
    refine ⟨by simp, fun c _ known => ?_, fun _ => trivial⟩
    have := bound c known
    simp at short ⊢
    omega
  | cons next returns ih =>
    refine ⟨by omega, fun c _ known => ?_, fun _ => ih next ?_⟩
    · have := bound c known
      omega
    · rw [List.length_cons] at short
      omega

def Under (bound : Nat) (p : Position) : Prop := ∀ v ∈ p.node :: p.returns, v < bound

theorem start_lt_nodeCount {r : RuleId} (known : r < bodies.size) :
    start r < (ofBodies bodies main).nodeCount := by
  have ends := (Draft.within_drawRules bodies.toList.zipIdx ⟨2 * bodies.toList.length, []⟩).size
  rw [nodeCount_ofBodies]
  exact Nat.lt_of_lt_of_le (Nat.mul_lt_mul_of_pos_left known Nat.two_pos) ends

theorem Under.move {tails : Std.TreeSet Node} {bound : Nat}
    (wide : (ofBodies bodies main).nodeCount ≤ bound) {p q : Position} (under : Under bound p)
    (move : Move ((ofBodies bodies main).withTails tails) p q) : Under bound q := by
  have entered {r : RuleId} (known : r < (ofBodies bodies main).ruleCount) : start r < bound :=
    Nat.lt_of_lt_of_le (start_lt_nodeCount known) wide
  have target {v : Node} {t : Transition} (edge : t ∈ (ofBodies bodies main).transitionsAt v) :
      t.next < bound := Nat.lt_of_lt_of_le (next_lt_nodeCount edge) wide
  cases move with
  | back => exact fun v member => under v (List.mem_cons_of_mem _ member)
  | silent _ edge =>
    intro v member
    rcases List.mem_cons.mp member with rfl | member
    · exact target edge
    · exact under v (List.mem_cons_of_mem _ member)
  | call _ edge known _ =>
    intro v member
    rcases List.mem_cons.mp member with rfl | member
    · exact entered known
    · rcases List.mem_cons.mp member with rfl | member
      · exact target edge
      · exact under v (List.mem_cons_of_mem _ member)
  | tailCall _ edge known _ =>
    intro v member
    rcases List.mem_cons.mp member with rfl | member
    · exact entered known
    · exact under v (List.mem_cons_of_mem _ member)

def Inside (a : Automaton) (p : Position) : Prop := ∀ v ∈ p.node :: p.returns, v < a.nodeCount

theorem Inside.move {tails : Std.TreeSet Node} {p q : Position}
    (inside : Inside (ofBodies bodies main) p)
    (move : Move ((ofBodies bodies main).withTails tails) p q) : Inside (ofBodies bodies main) q :=
  Under.move (Nat.le_refl _) inside move

def code (base : Nat) (p : Position) : Nat := Nat.ofDigits base ((p.node :: p.returns).map (· + 1))

theorem code_lt {base depth : Nat} {p : Position} (large : 1 < base)
    (inside : ∀ v ∈ p.node :: p.returns, v + 1 < base) (short : p.returns.length ≤ depth) :
    code base p < base ^ (depth + 1) := by
  refine Nat.lt_of_lt_of_le (Nat.ofDigits_lt_base_pow_length large ?_) ?_
  · intro digit member
    obtain ⟨v, among, rfl⟩ := List.mem_map.mp member
    exact inside v among
  · apply Nat.pow_le_pow_right (Nat.lt_of_succ_lt large)
    rw [List.length_map, List.length_cons]
    exact Nat.succ_le_succ short

theorem code_injective {base : Nat} {p q : Position} (large : 1 < base)
    (left : ∀ v ∈ p.node :: p.returns, v + 1 < base) (right : ∀ v ∈ q.node :: q.returns, v + 1 < base)
    (same : code base p = code base q) : p = q := by
  have digits (p : Position) (inside : ∀ v ∈ p.node :: p.returns, v + 1 < base) :
      Nat.digits base (code base p) = (p.node :: p.returns).map (· + 1) := by
    refine Nat.digits_ofDigits base large _ (fun digit member => ?_) fun h => ?_
    · obtain ⟨v, among, rfl⟩ := List.mem_map.mp member
      exact inside v among
    · rw [List.getLast_map]
      exact Nat.succ_ne_zero _
  have nodes : (p.node :: p.returns).map (· + 1) = (q.node :: q.returns).map (· + 1) := by
    rw [← digits p left, ← digits q right, same]
  have nodes := List.map_injective_iff.mpr (fun _ _ => Nat.succ.inj) nodes
  cases p
  cases q
  simpa using nodes

theorem size_le_pow {base depth : Nat} (large : 1 < base) {found : Std.TreeSet Position}
    (held : ∀ p ∈ found, (∀ v ∈ p.node :: p.returns, v + 1 < base) ∧ p.returns.length ≤ depth) :
    found.size ≤ base ^ (depth + 1) := by
  refine size_le_of_code (code base) (fun p member => ?_) (fun p left q right => ?_)
  · exact code_lt large (held p member).1 (held p member).2
  · exact code_injective large (held p left).1 (held q right).1

theorem size_le_positionBound {nodes depth : Nat} {found : Std.TreeSet Position}
    (held : ∀ p ∈ found, Under nodes p ∧ p.returns.length ≤ depth) : found.size ≤ positionBound nodes depth := by
  have large : 1 < 2 ^ (nodes.log2 + 1) := Nat.one_lt_two_pow (Nat.succ_ne_zero _)
  rw [positionBound, Nat.one_shiftLeft, Nat.pow_mul]
  refine size_le_pow large fun p member => ⟨fun v under => ?_, (held p member).2⟩
  exact Nat.lt_of_le_of_lt ((held p member).1 v under) Nat.lt_log2_self

theorem le_foldl_max (lengths : List Nat) (least : Nat) :
    least ≤ lengths.foldl max least ∧ ∀ n ∈ lengths, n ≤ lengths.foldl max least := by
  induction lengths generalizing least with
  | nil => simp
  | cons n rest ih =>
    obtain ⟨start, others⟩ := ih (max least n)
    simp only [List.foldl_cons, List.mem_cons, forall_eq_or_imp]
    exact ⟨by omega, by omega, others⟩

theorem length_le_depthBound (a : Automaton) {seeds : List Position} {p : Position}
    (member : p ∈ seeds) : p.returns.length + a.ruleCount ≤ a.depthBound seeds := by
  have among := List.mem_map_of_mem (f := fun p : Position => p.returns.length) member
  exact Nat.add_le_add_right ((le_foldl_max _ 0).2 _ among) _

theorem nodeCount_le_nodeBound (a : Automaton) (seeds : List Position) : a.nodeCount ≤ a.nodeBound seeds :=
  Nat.le_succ_of_le (le_foldl_max _ _).1

theorem under_nodeBound (a : Automaton) {seeds : List Position} {p : Position} (member : p ∈ seeds) :
    Under (a.nodeBound seeds) p := by
  intro v inside
  exact Nat.lt_succ_of_le ((le_foldl_max _ _).2 v (List.mem_flatMap.mpr ⟨p, member, inside⟩))

/-- What the moves keep of the positions that some seeds lead to: their nodes and the calls that are to
come stay below the bounds of the search. -/
structure Bounded (bodies : Array (Expr RuleId)) (main : RuleId) (rank : RuleId → Nat) (label : Node → Silence)
    (seeds : List Position) (p : Position) : Prop where
  under : Under ((ofBodies bodies main).nodeBound seeds) p
  fits : Fits bodies.size ((ofBodies bodies main).depthBound seeds) rank label (p.node :: p.returns)

section

variable {rank : RuleId → Nat} {label : Node → Silence} {seeds : List Position}

theorem bounded_seed (label : Node → Silence) (ranked : LeftRanked bodies rank) {p : Position} (member : p ∈ seeds) :
    Bounded bodies main rank label seeds p :=
  ⟨under_nodeBound _ member,
    fits_of_length label ranked.bound _ _ (length_le_depthBound (ofBodies bodies main) member)⟩

theorem Bounded.move (silent : Silent bodies main rank label) {tails : Std.TreeSet Node}
    (fewer : ∀ v ∈ tails, v ∈ (ofBodies bodies main).tails) {p q : Position}
    (bounded : Bounded bodies main rank label seeds p)
    (step : q ∈ ((ofBodies bodies main).withTails tails).moves p) : Bounded bodies main rank label seeds q :=
  ⟨bounded.under.move (nodeCount_le_nodeBound _ seeds) (mem_moves.mp step),
    silent.fits_move fewer (mem_moves.mp step) bounded.fits⟩

theorem size_le_of_bounded {found : Std.TreeSet Position}
    (bounded : ∀ p ∈ found, Bounded bodies main rank label seeds p) :
    found.size ≤ positionBound ((ofBodies bodies main).nodeBound seeds) ((ofBodies bodies main).depthBound seeds) :=
  size_le_positionBound fun p member => ⟨(bounded p member).under, (bounded p member).fits.1⟩

/-- Without left recursion exactly the positions that the moves lead to are visited. -/
theorem mem_search_withTails (ranked : LeftRanked bodies rank) {tails : Std.TreeSet Node}
    (fewer : ∀ v ∈ tails, v ∈ (ofBodies bodies main).tails) (work : Worklist Position) (seeds : List Position)
    (p : Position) :
    p ∈ (((ofBodies bodies main).withTails tails).search work seeds).1 ↔
      ∃ q ∈ seeds, Leads ((ofBodies bodies main).withTails tails).moves q p := by
  obtain ⟨label, silent⟩ := exists_silent main ranked
  exact Worklist.mem_explore (Bounded bodies main rank label seeds) (fun _ bounded _ => bounded.move silent fewer)
    (fun _ => size_le_of_bounded) (fun _ => bounded_seed label ranked) p

end

theorem nodup_search (a : Automaton) (work : Worklist Position) (seeds : List Position) :
    (a.search work seeds).1.Nodup := Worklist.nodup_explore a.moves _

end

end GuidedDecoding.Automaton
