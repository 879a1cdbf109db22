import Mathlib
import GuidedDecoding.Proofs.Schema.Legibility
import GuidedDecoding.Proofs.Schema.Names
import GuidedDecoding.Proofs.Schema.RuleNames

namespace GuidedDecoding

open Fragment (Sequence AllReadable Refers)

namespace Conversion

theorem run_bind {α β : Type} {conversion : Conversion α} {next : α → Conversion β} {s s' : State} {b : β}
    (run : (conversion >>= next).run.run s = (.ok b, s')) :
    ∃ a middle, conversion.run.run s = (.ok a, middle) ∧ (next a).run.run middle = (.ok b, s') := by
  rw [ExceptT.run_bind, StateT.run_bind] at run
  rcases ran : conversion.run.run s with ⟨_ | a, middle⟩
  · rw [ran] at run
    cases run
  · rw [ran] at run
    exact ⟨a, middle, rfl, run⟩

theorem lookup_cons_eq_some {α β : Type} [BEq α] [LawfulBEq α] {a b : α} {value other : β} {known : List (α × β)} :
    List.lookup a ((b, value) :: known) = some other ↔ a = b ∧ value = other ∨ a ≠ b ∧ known.lookup a = some other := by
  rw [List.lookup_cons]
  by_cases same : a = b
  · simp [same]
  · simp [same, beq_false_of_ne same]

namespace State

structure Within (s final : State) : Prop where
  rules : ∀ rule ∈ s.rules.toList, rule ∈ final.rules.toList
  references : ∀ target name, s.references.lookup target = some name → final.references.lookup target = some name

/-- What is added has new names, and no two rules the same one. -/
structure Grows (s s' : State) : Prop where
  taken : ∀ name ∈ s.taken, name ∈ s'.taken
  rules : ∃ added, s'.rules.toList = s.rules.toList ++ added ∧ (added.map FragmentRule.name).Nodup ∧
    ∀ rule ∈ added, Token.IsName rule.name ∧ rule.name ∉ s.taken ∧ rule.name ∈ s'.taken
  known : ∀ target name, s.references.lookup target = some name → s'.references.lookup target = some name
  references : ∀ target name, s'.references.lookup target = some name →
    s.references.lookup target = some name ∨ Token.IsName name

variable {s s' s'' final : State}

theorem Within.trans (first : s.Within s') (second : s'.Within s'') : s.Within s'' :=
  ⟨fun rule member => second.rules rule (first.rules rule member),
    fun target name known => second.references target name (first.references target name known)⟩

theorem Grows.within (grows : s.Grows s') : s.Within s' where
  rules rule member := by
    obtain ⟨added, same, _⟩ := grows.rules
    rw [same]
    exact List.mem_append_left added member
  references := grows.known

theorem Grows.still (taken : s'.taken = s.taken) (rules : s'.rules = s.rules) (references : s'.references = s.references) :
    s.Grows s' where
  taken name member := by rwa [taken]
  rules := ⟨[], by rw [rules, List.append_nil], by simp, by simp⟩
  known target name known := by rwa [references]
  references target name known := .inl (by rwa [references] at known)

theorem Grows.trans (first : s.Grows s') (second : s'.Grows s'') : s.Grows s'' where
  taken name member := second.taken name (first.taken name member)
  rules := by
    obtain ⟨added, same, distinct, names⟩ := first.rules
    obtain ⟨further, also, apart, newer⟩ := second.rules
    refine ⟨added ++ further, by rw [also, same, List.append_assoc], ?_, ?_⟩
    · rw [List.map_append, List.nodup_append]
      refine ⟨distinct, apart, fun name before other after same => ?_⟩
      obtain ⟨rule, old, rfl⟩ := List.mem_map.mp before
      obtain ⟨rule', new, rfl⟩ := List.mem_map.mp after
      exact (newer rule' new).2.1 (same ▸ (names rule old).2.2)
    · intro rule member
      rcases List.mem_append.mp member with old | new
      · exact ⟨(names rule old).1, (names rule old).2.1, second.taken _ (names rule old).2.2⟩
      · exact ⟨(newer rule new).1, fun known => (newer rule new).2.1 (first.taken _ known), (newer rule new).2.2⟩
  known target name known := second.known target name (first.known target name known)
  references target name known :=
    (second.references target name known).elim (first.references target name) .inr

theorem Grows.reserve (s : State) (name : String) : s.Grows { s with taken := s.taken.insert name } where
  taken _ member := Std.TreeSet.mem_insert.mpr (.inr member)
  rules := ⟨[], by simp, by simp, by simp⟩
  known _ _ := id
  references _ _ := .inl

theorem Grows.refer {target name : String} (unknown : s.references.lookup target = none) (isName : Token.IsName name) :
    s.Grows { s with references := (target, name) :: s.references } where
  taken _ := id
  rules := ⟨[], by simp, by simp, by simp⟩
  known other found known := lookup_cons_eq_some.mpr (.inr ⟨by rintro rfl; simp [unknown] at known, known⟩)
  references other found known := by
    rcases lookup_cons_eq_some.mp known with ⟨_, rfl⟩ | ⟨_, known⟩
    · exact .inr isName
    · exact .inl known

theorem Grows.push (reserved : s.Grows s') (bare : s'.rules = s.rules) (grows : s'.Grows s'') {name : String}
    (isName : Token.IsName name) (new : name ∉ s.taken) (now : name ∈ s'.taken) (alternatives : List Sequence) :
    s.Grows { s'' with rules := s''.rules.push ⟨name, alternatives⟩ } where
  taken other member := grows.taken other (reserved.taken other member)
  rules := by
    obtain ⟨added, same, distinct, names⟩ := grows.rules
    refine ⟨added ++ [⟨name, alternatives⟩], by rw [Array.toList_push, same, bare, List.append_assoc], ?_, ?_⟩
    · rw [List.map_append, List.nodup_append]
      refine ⟨distinct, List.nodup_singleton _, fun one before other after => ?_⟩
      obtain ⟨rule, member, rfl⟩ := List.mem_map.mp before
      obtain rfl := List.mem_singleton.mp after
      exact fun same => (names rule member).2.1 (same ▸ now)
    · intro rule member
      rcases List.mem_append.mp member with old | last
      · obtain ⟨isName, unknown, known⟩ := names rule old
        exact ⟨isName, fun before => unknown (reserved.taken _ before), known⟩
      · obtain rfl := List.mem_singleton.mp last
        exact ⟨isName, new, grows.taken name now⟩
  known target other known := grows.known target other (reserved.known target other known)
  references target other known := (grows.references target other known).elim (reserved.references target other) .inr

end State

/-- What conversions depend on: the settings, where references lead, and which schemas are met inside how many arrays
and objects. -/
structure Course where
  settings : SchemaSettings
  resolve : List Char → Option Schema
  met : Nat → Schema → Prop
  inherited : ∀ {depth schema part}, met depth schema → Schema.Part resolve schema part → met (depth + schema.levels) part
  fits : ∀ {depth schema}, met depth schema → schema.Fits

namespace Course

variable (course : Course)

theorem fits_of_uses {depth : Nat} {schema part : Schema} (met : course.met depth schema)
    (uses : schema.Uses course.resolve part) : part.Fits := by
  have known : ∃ inside, course.met inside part := by
    induction uses with
    | refl => exact ⟨depth, met⟩
    | tail _ part ih =>
      obtain ⟨inside, met⟩ := ih
      exact ⟨_, course.inherited met part⟩
  obtain ⟨_, met⟩ := known
  exact course.fits met

def Accounts (s : State) (rule : FragmentRule) : Prop :=
  (rule.Readable ∧ ∀ name ∈ rule.ruleNames, s.Knows name) ∨
    ∃ depth schema body, course.met depth schema ∧ Renders course.settings s depth schema body ∧ rule.alternatives = [body]

def Completes (s : State) (target name : String) : Prop :=
  ∃ pointer schema depth body, target.toList = '#' :: pointer ∧ course.resolve pointer = some schema ∧
    course.met depth (.reference target) ∧ Renders course.settings s depth schema body ∧ ⟨name, [body]⟩ ∈ s.rules.toList

/-- What one state has more than another is as it should be in the end. -/
structure Adds (final s s' : State) : Prop where
  rules : ∀ rule ∈ s'.rules.toList, rule ∈ s.rules.toList ∨ course.Accounts final rule
  references : ∀ target name, s'.references.lookup target = some name →
    s.references.lookup target = some name ∨ course.Completes final target name

variable {course}

theorem Adds.still {final s s' : State} (rules : s'.rules = s.rules) (references : s'.references = s.references) :
    course.Adds final s s' :=
  ⟨fun rule member => .inl (by rwa [rules] at member), fun target name known => .inl (by rwa [references] at known)⟩

theorem Adds.trans {final s s' s'' : State} (first : course.Adds final s s') (second : course.Adds final s' s'') :
    course.Adds final s s'' :=
  ⟨fun rule member => (second.rules rule member).elim (first.rules rule) .inr,
    fun target name known => (second.references target name known).elim (first.references target name) .inr⟩

theorem Adds.refer {final s : State} {taken : Std.TreeSet String} {target name : String}
    (completes : course.Completes final target name) :
    course.Adds final s { s with taken := taken, references := (target, name) :: s.references } where
  rules _ := .inl
  references other found known := by
    rcases lookup_cons_eq_some.mp known with ⟨rfl, rfl⟩ | ⟨_, before⟩
    · exact .inr completes
    · exact .inl before

theorem Adds.push {final s s' : State} (adds : course.Adds final s s') {rule : FragmentRule}
    (accounts : course.Accounts final rule) : course.Adds final s { s' with rules := s'.rules.push rule } where
  rules other member := by
    rw [Array.toList_push] at member
    rcases List.mem_append.mp member with old | last
    · exact adds.rules other old
    · rw [List.mem_singleton.mp last]
      exact .inr accounts
  references := adds.references

variable (course) {α β : Type}

/-- A conversion that has a result lets the state grow. If what is presumed of the state in the end holds, then
what was added is as it should be, and the result is what it is meant to be. -/
def Builds (presumed : State → Prop) (conversion : Conversion α) (outcome : State → α → Prop) : Prop :=
  ∀ s a s', conversion.run.run s = (.ok a, s') → s.Grows s' ∧
    ∀ final, s'.Within final → final.Named → presumed final → course.Adds final s s' ∧ outcome final a

variable {course} {presumed : State → Prop}

theorem Builds.pure {a : α} {outcome : State → α → Prop}
    (holds : ∀ final, final.Named → presumed final → outcome final a) :
    course.Builds presumed (pure a) outcome := by
  intro s b s' run
  cases run
  exact ⟨.still rfl rfl rfl, fun final _ named given => ⟨.still rfl rfl, holds final named given⟩⟩

theorem Builds.presuming {stronger : State → Prop} {conversion : Conversion α} {outcome : State → α → Prop}
    (builds : course.Builds presumed conversion outcome) (weaker : ∀ final, stronger final → presumed final) :
    course.Builds stronger conversion outcome := by
  intro s a s' run
  obtain ⟨grows, holds⟩ := builds s a s' run
  exact ⟨grows, fun final within named given => holds final within named (weaker final given)⟩

theorem Builds.imp {conversion : Conversion α} {outcome result : State → α → Prop}
    (builds : course.Builds presumed conversion outcome)
    (imp : ∀ final a, presumed final → outcome final a → result final a) :
    course.Builds presumed conversion result := by
  intro s a s' run
  obtain ⟨grows, holds⟩ := builds s a s' run
  refine ⟨grows, fun final within named given => ?_⟩
  obtain ⟨added, held⟩ := holds final within named given
  exact ⟨added, imp final a given held⟩

theorem Builds.bind {conversion : Conversion α} {next : α → Conversion β} {outcome : State → α → Prop}
    {result : State → β → Prop} (first : course.Builds presumed conversion outcome)
    (second : ∀ a, course.Builds (fun final => presumed final ∧ outcome final a) (next a) result) :
    course.Builds presumed (conversion >>= next) result := by
  intro s b s' run
  obtain ⟨a, middle, ran, rest⟩ := run_bind run
  obtain ⟨grows, holds⟩ := first s a middle ran
  obtain ⟨further, last⟩ := second a middle b s' rest
  refine ⟨grows.trans further, fun final within named given => ?_⟩
  obtain ⟨added, held⟩ := holds final (further.within.trans within) named given
  obtain ⟨more, result⟩ := last final within named ⟨given, held⟩
  exact ⟨added.trans more, result⟩

theorem builds_fail {outcome : State → α → Prop} (rule : String) (fault : SchemaFault) :
    course.Builds presumed (fail rule fault) outcome := by
  intro s a s' run
  cases run

theorem builds_orFail (rule : String) (result : Except SchemaFault α) :
    course.Builds presumed (orFail rule result) fun _ a => result = .ok a := by
  cases result with
  | error fault => exact builds_fail rule fault
  | ok a => exact .pure fun _ _ _ => rfl

theorem builds_report (event : Event) : course.Builds presumed (report event) fun _ _ => True := by
  intro s a s' run
  cases run
  exact ⟨.still rfl rfl rfl, fun final _ _ _ => ⟨.still rfl rfl, trivial⟩⟩

theorem builds_reports (keywords : List String) (rule : String) :
    course.Builds presumed (keywords.forM fun keyword => report (.ignoredKeyword keyword rule)) fun _ _ => True := by
  induction keywords generalizing presumed with
  | nil => exact .pure fun _ _ _ => trivial
  | cons keyword keywords ih => exact (builds_report _).bind fun _ => ih

theorem builds_takeBounds (rule : String) (count : Except SchemaFault CountBounds) :
    course.Builds presumed (takeBounds rule count) fun _ taken => count = .ok taken := by
  refine (builds_orFail rule count).bind fun taken => ?_
  dsimp only
  split
  · exact (builds_report _).bind fun _ => .pure fun _ _ given => given.1.2
  · exact .pure fun _ _ given => given.2

theorem builds_nameRule {base : String} (isName : Token.IsName base) {alternatives : List Sequence}
    (accounts : ∀ final name, final.Named → presumed final → Token.IsName name →
      course.Accounts final ⟨name, alternatives⟩) :
    course.Builds presumed (nameRule base alternatives) fun final f =>
      ∃ name, f = .rule name ∧ ⟨name, alternatives⟩ ∈ final.rules.toList := by
  intro s f s' run
  cases run
  have isName := Token.isName_fresh isName s.taken
  have new := Names.fresh_notMem s.taken base
  have reserved := State.Grows.reserve s (Names.fresh s.taken base)
  have now := Std.TreeSet.mem_insert_self (t := s.taken) (k := Names.fresh s.taken base)
  refine ⟨reserved.push rfl (.still rfl rfl rfl) isName new now alternatives, fun final within named given => ?_⟩
  have adds : course.Adds final s { s with taken := s.taken.insert (Names.fresh s.taken base) } := .still rfl rfl
  exact ⟨adds.push (accounts final _ named given isName), _, rfl, within.rules _ (by simp)⟩

theorem builds_asRule {base : String} (isName : Token.IsName base) {depth : Nat} {schema : Schema}
    (met : course.met depth schema) {body : Sequence}
    (renders : ∀ final, presumed final → Renders course.settings final depth schema body) :
    course.Builds presumed (asRule base body) fun final f => ∃ name, f = .rule name ∧ final.Names body name := by
  unfold asRule
  split
  next name => exact .pure fun _ _ _ => ⟨name, rfl, .inl rfl⟩
  next =>
    intro s f s' run
    have named := builds_nameRule isName fun final _ _ given _ =>
      .inr ⟨depth, schema, body, met, renders final given, rfl⟩
    obtain ⟨grows, holds⟩ := named s f s' run
    refine ⟨grows, fun final within names given => ?_⟩
    obtain ⟨added, name, same, member⟩ := holds final within names given
    exact ⟨added, name, same, .inr member⟩

theorem readable_tailRule {layout : Layout} (laid : layout.Readable) {name : String} (isName : Token.IsName name)
    {tail : Fragment} (readable : tail.Readable) {next : Sequence} (pair : AllReadable next) :
    FragmentRule.Readable ⟨name, [[tail], layout.between ++ next ++ [tail]]⟩ := by
  have both : ∀ f ∈ layout.between ++ next, f.Readable := List.forall_mem_append.mpr ⟨laid.between, pair.2⟩
  have last : ∀ f ∈ [tail], f.Readable := List.forall_mem_singleton.mpr readable
  refine FragmentRule.readable_of_all isName (by simp) (List.forall_mem_cons.mpr ⟨⟨by simp, last⟩, ?_⟩)
  exact List.forall_mem_singleton.mpr ⟨by simp, List.forall_mem_append.mpr ⟨both, last⟩⟩

theorem forall_ruleNames_tailRule {known : String → Prop} {layout : Layout} (nameless : layout.Nameless) {tail : Fragment}
    (follow : ∀ name ∈ tail.ruleNames, known name) {next : Sequence} (pair : Refers known next) (own : String) :
    ∀ name ∈ FragmentRule.ruleNames ⟨own, [[tail], layout.between ++ next ++ [tail]]⟩, known name := by
  rw [FragmentRule.ruleNames, Fragment.forall_alternativeRuleNames]
  simpa [nameless.between known, pair] using follow

theorem builds_tails {layout : Layout} (laid : layout.Readable) (nameless : layout.Nameless) {base : String}
    (isName : Token.IsName base) {last : Fragment} (place : Nat) {pairs : List Sequence}
    (final : ∀ s : State, s.Named → presumed s → last.Readable ∧ ∀ name ∈ last.ruleNames, s.Knows name)
    (each : ∀ s : State, s.Named → presumed s → ∀ pair ∈ pairs, AllReadable pair ∧ Refers s.Knows pair) :
    course.Builds presumed (tails layout base last place pairs) fun s tails => s.Tails layout last pairs tails := by
  induction pairs generalizing place with
  | nil => exact .pure fun _ _ _ => .none
  | cons pair pairs ih =>
    cases pairs with
    | nil => exact .pure fun _ _ _ => .last
    | cons next rest =>
      rw [tails]
      have inside := ih (place + 1) fun s named given pair member => each s named given pair (by simp [member])
      refine inside.bind fun later => ?_
      have suffixed : Token.IsName (base ++ "_part_" ++ toString place) :=
        (isName.append (by simp [Token.isNamePart])).number place
      refine (builds_nameRule suffixed fun s name named given isName => .inl ?_).bind fun own =>
        .pure fun s _ given => ?_
      · obtain ⟨given, follow⟩ := given
        have tail : (later.headD last).Readable ∧ ∀ name ∈ (later.headD last).ruleNames, s.Knows name := by
          obtain ⟨readable, knows⟩ := final s named given
          cases later with
          | nil => exact ⟨readable, knows⟩
          | cons tail later => exact ⟨follow.readable named readable tail (by simp), follow.refers knows tail (by simp)⟩
        obtain ⟨pair, knows⟩ := each s named given next (by simp)
        exact ⟨readable_tailRule laid isName tail.1 pair, forall_ruleNames_tailRule nameless tail.2 knows name⟩
      · obtain ⟨⟨_, follow⟩, name, rfl, rule⟩ := given
        cases follow with
        | last => exact .next .last rule
        | next after inner => exact .next (.next after inner) rule

theorem builds_objectText {layout : Layout} (laid : layout.Readable) (nameless : layout.Nameless) {base : String}
    (isName : Token.IsName base) {members : List Schema.Member} {extra : Option Fragment}
    (each : ∀ s : State, s.Named → presumed s → ∀ m ∈ members, AllReadable m.pair ∧ Refers s.Knows m.pair)
    (extras : ∀ s : State, s.Named → presumed s → ∀ f ∈ extra, f.Readable ∧ ∀ name ∈ f.ruleNames, s.Knows name) :
    course.Builds presumed (objectText course.settings layout base members extra) fun s body =>
      s.ObjectForm course.settings layout members extra body := by
  have more : (extra.map (layout.pair (.rule "basic_string"))).map (fun pair => Fragment.many (layout.another pair)) =
      morePairs layout extra := by
    rw [Option.map_map]
    rfl
  unfold objectText
  dsimp only
  rw [more]
  split_ifs with required
  · exact .pure fun _ _ _ => .anchored required
  · cases members with
    | nil =>
      cases extra with
      | none => exact .pure fun _ _ _ => .bare rfl rfl
      | some value => exact .pure fun _ _ _ => .unlisted rfl rfl
    | cons m members =>
      refine (builds_tails laid nameless isName 0 (fun s named given => ?_)
        fun s named given => List.forall_mem_map.mpr (each s named given)).bind fun tails => ?_
      · have extras := extras s named given
        exact ⟨readable_lastPairs laid fun f allowed => (extras f allowed).1,
          refers_lastPairs nameless (State.knows_common (by decide)) fun f allowed => (extras f allowed).2⟩
      exact .pure fun _ _ given => .chained (by simp) (by simpa using required) given.2

theorem grows_expansion {s s' : State} {target : String} (unknown : s.references.lookup target = none)
    (self : ¬(target == "#") = true) {pointer : List Char} (inside : target.toList = '#' :: pointer) {schema : Schema}
    (found : course.resolve pointer = some schema) {depth : Nat} (met : course.met depth (.reference target)) {base : String}
    (isName : Token.IsName base) {expand : String → Conversion Sequence}
    (expands : ∀ name, Token.IsName name →
      course.Builds (fun _ => True) (expand name) fun s body => Renders course.settings s depth schema body)
    {body : Sequence}
    (run : (do
      let name ← freshName base
      modify fun s => { s with references := (target, name) :: s.references }
      addRule name [← expand name]
      return [Fragment.rule name] : Conversion Sequence).run.run s = (.ok body, s')) :
    s.Grows s' ∧ ∀ final, s'.Within final → final.Named →
      course.Adds final s s' ∧ Renders course.settings final depth (.reference target) body := by
  obtain ⟨name, _, named, run⟩ := run_bind run
  cases named
  obtain ⟨_, opened, changed, run⟩ := run_bind run
  cases changed
  obtain ⟨written, complete, ran, run⟩ := run_bind run
  cases run
  have isName := Token.isName_fresh isName s.taken
  have new := Names.fresh_notMem s.taken base
  generalize Names.fresh s.taken base = name at isName new ran
  obtain ⟨grows, holds⟩ := expands name isName _ written complete ran
  have reserved := (State.Grows.reserve s name).trans (.refer unknown isName)
  have now := Std.TreeSet.mem_insert_self (t := s.taken) (k := name)
  refine ⟨reserved.push rfl grows isName new now [written], fun final within named => ?_⟩
  have rule : ⟨name, [written]⟩ ∈ final.rules.toList := within.rules _ (by simp)
  have before : complete.Within final :=
    ⟨fun rule member => within.rules rule (by simp [member]), within.references⟩
  obtain ⟨added, renders⟩ := holds final before named trivial
  have completes : course.Completes final target name := ⟨pointer, schema, depth, written, inside, found, met, renders, rule⟩
  have accounts : course.Accounts final ⟨name, [written]⟩ := .inr ⟨depth, schema, written, course.inherited met (.reference inside found), renders, rfl⟩
  have opens : course.Adds final s { s with taken := s.taken.insert name, references := (target, name) :: s.references } :=
    .refer completes
  refine ⟨(opens.trans added).push accounts, .reference ?_⟩
  rw [State.reference?, if_neg self]
  exact before.references target name (grows.known target name (lookup_cons_eq_some.mpr (.inl ⟨rfl, rfl⟩)))

theorem builds_referenceText {expand : Schema → String → Conversion Sequence} {depth : Nat}
    (expands : ∀ schema name, course.met depth schema → Token.IsName name →
      course.Builds (fun _ => True) (expand schema name) fun s body => Renders course.settings s depth schema body)
    (rule : String) {target : String} (met : course.met depth (.reference target)) :
    course.Builds (fun _ => True) (referenceText course.resolve expand rule target) fun s body =>
      Renders course.settings s depth (.reference target) body := by
  unfold referenceText
  split_ifs with self
  · exact .pure fun _ _ _ => .reference (by rw [State.reference?, if_pos self])
  · intro s body s' run
    obtain ⟨_, _, got, run⟩ := run_bind run
    cases got
    split at run
    next name known =>
      cases run
      refine ⟨.still rfl rfl rfl, fun final within _ _ => ⟨.still rfl rfl, .reference ?_⟩⟩
      rw [State.reference?, if_neg self]
      exact within.references target name known
    next unknown =>
      split at run
      next pointer inside =>
        cases found : course.resolve pointer with
        | none =>
          rw [found] at run
          cases run
        | some schema =>
          rw [found] at run
          have known : course.met depth schema := course.inherited met (.reference inside found)
          obtain ⟨grows, holds⟩ := grows_expansion unknown self inside found met (Token.isName_sanitized _)
            (fun name isName => expands schema name known isName) run
          exact ⟨grows, fun final within named _ => holds final within named⟩
      next => cases run

def Refers (course : Course) (reference : String → String → Nat → Conversion Sequence) : Prop :=
  ∀ rule target depth, course.met depth (.reference target) → course.Builds (fun _ => True) (reference rule target depth)
    fun s body => Renders course.settings s depth (.reference target) body

/-- A schema inside another one has its body, and a rule stands for it. -/
def Stands (course : Course) (s : State) (depth : Nat) (inner : Inner) : Prop :=
  Renders course.settings s depth inner.schema inner.body ∧ s.Names inner.body inner.name

theorem Stands.isName {s : State} {depth : Nat} {inner : Inner} (stands : course.Stands s depth inner)
    (named : s.Named) (met : course.met depth inner.schema) : Token.IsName inner.name :=
  stands.2.isName named (stands.1.readable course.resolve named fun _ uses => course.fits_of_uses met uses).spelled

theorem Stands.knows {s : State} {depth : Nat} {inner : Inner} (stands : course.Stands s depth inner) :
    s.Knows inner.name :=
  stands.2.knows stands.1.refers

variable {reference : String → String → Nat → Conversion Sequence}

mutual

theorem builds_body (refers : course.Refers reference) :
    ∀ (schema : Schema) {depth : Nat}, course.met depth schema → ∀ {rule : String}, Token.IsName rule →
    ∀ {presumed : State → Prop},
    course.Builds presumed (body course.settings reference rule depth schema) fun s body =>
      Renders course.settings s depth schema body
  | .anything, _, _, _, _, _ => by
    rw [body]
    exact .pure fun _ _ _ => .anything
  | .unsupported fault, _, _, rule, _, _ => by
    rw [body]
    exact builds_fail rule fault
  | .annotated ignored schema, depth, met, rule, isName, _ => by
    rw [body]
    exact (builds_reports ignored rule).bind fun _ =>
      (builds_body refers schema (course.inherited met .annotated) isName).imp fun _ _ _ => .annotated
  | .reference target, depth, met, rule, isName, _ => by
    rw [body]
    exact (refers rule target depth met).presuming fun _ _ => trivial
  | .constant value, _, _, _, _, _ => by
    rw [body]
    exact .pure fun _ _ _ => .constant
  | .enumeration values, _, _, _, _, _ => by
    rw [body]
    exact .pure fun _ _ _ => .enumeration
  | .union members, depth, met, rule, isName, _ => by
    rw [body]
    have suffixed : Token.IsName (rule ++ "_case_") := isName.append (by simp [Token.isNamePart])
    refine (builds_numbered refers members (fun _ member => course.inherited met (.union member)) suffixed 0).bind
      fun fragments => .pure fun s _ given => ?_
    obtain ⟨_, inners, rfl, rfl, stands⟩ := given
    rw [List.map_map]
    exact .union (fun m member => (stands m member).1) fun m member => (stands m member).2
  | .types alternatives, depth, met, rule, isName, _ => by
    rw [body]
    refine (builds_bodies refers alternatives (fun _ member => course.inherited met (.types member)) isName).bind
      fun bodies => .pure fun s _ given => ?_
    obtain ⟨_, pairs, rfl, rfl, each⟩ := given
    exact .types each
  | .basic type, _, _, _, _, _ => by
    rw [body]
    exact .pure fun _ _ _ => .basic
  | .text length, _, _, rule, _, _ => by
    rw [body]
    refine (builds_takeBounds rule length).bind fun count => .pure fun _ _ given => ?_
    rw [given.2]
    exact .text
  | .array leading extra count, depth, met, rule, isName, _ => by
    rw [body]
    have item : Token.IsName (rule ++ "_item_") := isName.append (by simp [Token.isNamePart])
    have items : Token.IsName (rule ++ "_items") := isName.append (by simp [Token.isNamePart])
    refine (builds_numbered refers leading (fun _ member => course.inherited met (.leading member)) item 0).bind
      fun fragments => ?_
    refine (builds_extraRule refers extra (fun _ same => course.inherited met (same ▸ .item)) items).bind
      fun further => ?_
    refine (builds_takeBounds rule count).bind fun bounds => (builds_orFail rule _).imp fun s array given written => ?_
    obtain ⟨⟨⟨_, inners, rfl, rfl, stands⟩, inner, rfl, rfl, others⟩, rfl⟩ := given
    have each := List.forall_mem_append.mpr ⟨stands, others⟩
    exact .array (fun i member => (each i member).1) (fun i member => (each i member).2) written
  | .object properties extra, depth, met, rule, isName, _ => by
    rw [body]
    have addl : Token.IsName (rule ++ "_addl") := isName.append (by simp [Token.isNamePart])
    have among (p : String × Bool × Schema) (member : p ∈ properties) : course.met (depth + 1) p.2.2 :=
      course.inherited met (@Schema.Part.property _ _ _ p.1 p.2.1 _ member)
    have further (schema : Schema) (same : extra = .schema schema) : course.met (depth + 1) schema :=
      course.inherited met (same ▸ .member)
    refine (builds_extraRule refers extra further addl).bind fun piece => ?_
    refine (builds_listed refers properties among _ isName 0).bind fun members => ?_
    have laid := course.settings.readable_layout depth
    have nameless := course.settings.nameless_layout depth
    refine (builds_objectText laid nameless isName ?_ ?_).imp fun s object given written => ?_
    · intro s named given m member
      obtain ⟨_, inners, same, rfl, stands⟩ := given
      obtain ⟨p, inside, rfl⟩ := List.mem_map.mp member
      have met := among (p.1, p.2.1, p.2.2.schema) (same ▸ List.mem_map_of_mem (f := fun p => (p.1, p.2.1, p.2.2.schema)) inside)
      exact ⟨Layout.readable_pair laid (Fragment.readable_ofText _) (Fragment.readable_rule ((stands p inside).isName named met)),
        Layout.refers_pair nameless (by simp) (by simpa [Inner.piece] using (stands p inside).knows)⟩
    · intro s named given f allowed
      obtain ⟨⟨_, inner, same, rfl, stands⟩, _⟩ := given
      refine ⟨readable_extraPiece course.settings (fun i member => (stands i member).isName named ?_) f allowed,
        refers_extraPiece (fun i member => (stands i member).knows) f allowed⟩
      cases inner with
      | schema inner =>
        obtain rfl := List.mem_singleton.mp member
        exact further _ same.symm
      | _ => cases member
    · obtain ⟨⟨_, inner, rfl, rfl, others⟩, inners, rfl, rfl, stands⟩ := given
      have each := List.forall_mem_append.mpr ⟨List.forall_mem_map.mpr stands, others⟩
      exact .object (fun i member => (each i member).1) (fun i member => (each i member).2) written

theorem builds_numbered (refers : course.Refers reference) :
    ∀ (schemas : List Schema) {depth : Nat}, (∀ schema ∈ schemas, course.met depth schema) → ∀ {rule suffix : String},
    Token.IsName (rule ++ suffix) → ∀ place {presumed : State → Prop},
    course.Builds presumed (numbered course.settings reference rule suffix depth place schemas) fun s fragments =>
      ∃ inners : List Inner, inners.map Inner.schema = schemas ∧ inners.map Inner.piece = fragments ∧
        ∀ i ∈ inners, course.Stands s depth i
  | [], _, _, _, _, _, _, _ => by
    rw [numbered]
    exact .pure fun _ _ _ => ⟨[], rfl, rfl, by simp⟩
  | schema :: rest, depth, met, rule, suffix, isName, place, _ => by
    rw [numbered]
    have named := isName.number place
    have first := met schema (by simp)
    refine (builds_body refers schema first named).bind fun body => ?_
    refine (builds_asRule named first fun _ given => given.2).bind fun f => ?_
    refine (builds_numbered refers rest (fun schema member => met schema (by simp [member])) isName (place + 1)).bind
      fun fragments => .pure fun s _ given => ?_
    obtain ⟨⟨⟨_, renders⟩, name, rfl, named⟩, inners, rfl, rfl, stands⟩ := given
    exact ⟨⟨schema, body, name⟩ :: inners, rfl, rfl, List.forall_mem_cons.mpr ⟨⟨renders, named⟩, stands⟩⟩

theorem builds_bodies (refers : course.Refers reference) :
    ∀ (schemas : List Schema) {depth : Nat}, (∀ schema ∈ schemas, course.met depth schema) → ∀ {rule : String},
    Token.IsName rule → ∀ {presumed : State → Prop},
    course.Builds presumed (bodies course.settings reference rule depth schemas) fun s bodies =>
      ∃ pairs : List (Schema × Sequence), pairs.map Prod.fst = schemas ∧ pairs.map Prod.snd = bodies ∧
        ∀ pair ∈ pairs, Renders course.settings s depth pair.1 pair.2
  | [], _, _, _, _, _ => by
    rw [bodies]
    exact .pure fun _ _ _ => ⟨[], rfl, rfl, by simp⟩
  | schema :: rest, depth, met, rule, isName, _ => by
    rw [bodies]
    refine (builds_body refers schema (met schema (by simp)) isName).bind fun body => ?_
    refine (builds_bodies refers rest (fun schema member => met schema (by simp [member])) isName).bind
      fun bodies => .pure fun s _ given => ?_
    obtain ⟨⟨_, renders⟩, pairs, rfl, rfl, each⟩ := given
    exact ⟨(schema, body) :: pairs, rfl, rfl, List.forall_mem_cons.mpr ⟨renders, each⟩⟩

theorem builds_extraRule (refers : course.Refers reference) :
    ∀ (extra : Extra Schema) {depth : Nat}, (∀ schema, extra = .schema schema → course.met depth schema) →
    ∀ {rule : String}, Token.IsName rule → ∀ {presumed : State → Prop},
    course.Builds presumed (extraRule course.settings reference rule depth extra) fun s result =>
      ∃ inner : Extra Inner, inner.map Inner.schema = extra ∧ extraPiece course.settings inner = result ∧
        ∀ i ∈ inner.toList, course.Stands s depth i
  | .forbidden, _, _, _, _, _ => by
    rw [extraRule]
    exact .pure fun _ _ _ => ⟨.forbidden, rfl, rfl, by simp [Extra.toList]⟩
  | .unspecified, _, _, _, _, _ => by
    rw [extraRule]
    exact .pure fun _ _ _ => ⟨.unspecified, rfl, rfl, by simp [Extra.toList]⟩
  | .schema schema, depth, met, rule, isName, _ => by
    rw [extraRule]
    have known := met schema rfl
    refine (builds_body refers schema known isName).bind fun body => ?_
    refine (builds_asRule isName known fun _ given => given.2).bind fun f => .pure fun s _ given => ?_
    obtain ⟨⟨_, renders⟩, name, rfl, named⟩ := given
    exact ⟨.schema ⟨schema, body, name⟩, rfl, rfl, List.forall_mem_singleton.mpr ⟨renders, named⟩⟩

theorem builds_listed (refers : course.Refers reference) :
    ∀ (properties : List (String × Bool × Schema)) {depth : Nat}, (∀ p ∈ properties, course.met depth p.2.2) →
    ∀ (layout : Layout) {rule : String}, Token.IsName rule → ∀ place {presumed : State → Prop},
    course.Builds presumed (listed course.settings reference layout rule depth place properties) fun s members =>
      ∃ inners : List (String × Bool × Inner), inners.map (fun p => (p.1, p.2.1, p.2.2.schema)) = properties ∧
        inners.map (memberOf layout) = members ∧ ∀ p ∈ inners, course.Stands s depth p.2.2
  | [], _, _, _, _, _, _, _ => by
    rw [listed]
    exact .pure fun _ _ _ => ⟨[], rfl, rfl, by simp⟩
  | (key, required, schema) :: rest, depth, met, layout, rule, isName, place, _ => by
    rw [listed]
    have named : Token.IsName (rule ++ "_prop_" ++ toString place) :=
      (isName.append (by simp [Token.isNamePart])).number place
    have first := met (key, required, schema) (by simp)
    refine (builds_body refers schema first named).bind fun body => ?_
    refine (builds_asRule named first fun _ given => given.2).bind fun f => ?_
    refine (builds_listed refers rest (fun p member => met p (by simp [member])) layout isName (place + 1)).bind
      fun members => .pure fun s _ given => ?_
    obtain ⟨⟨⟨_, renders⟩, name, rfl, named⟩, inners, rfl, rfl, stands⟩ := given
    exact ⟨(key, required, ⟨schema, body, name⟩) :: inners, rfl, rfl, List.forall_mem_cons.mpr ⟨⟨renders, named⟩, stands⟩⟩

end

theorem builds_expanded (nesting : Nat) {rule : String} (isName : Token.IsName rule) {depth : Nat} {schema : Schema}
    (met : course.met depth schema) :
    course.Builds (fun _ => True) (expanded course.settings course.resolve nesting rule depth schema) fun s body =>
      Renders course.settings s depth schema body := by
  induction nesting generalizing rule depth schema with
  | zero =>
    have refers : course.Refers fun rule target _ =>
        referenceText course.resolve (fun _ name => fail name (.danglingReference target)) rule target :=
      fun rule target depth met => builds_referenceText (fun _ name _ _ => builds_fail name _) rule met
    exact builds_body refers schema met isName
  | succ nesting ih =>
    have refers : course.Refers fun rule target depth => referenceText course.resolve
        (fun schema name => expanded course.settings course.resolve nesting name depth schema) rule target :=
      fun rule target depth met => builds_referenceText (fun _ _ met isName => ih isName met) rule met
    exact builds_body refers schema met isName

end Course

end Conversion

end GuidedDecoding
