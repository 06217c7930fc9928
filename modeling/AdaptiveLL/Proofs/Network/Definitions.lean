import AdaptiveLL.Proofs.Network.Ebnf
import AdaptiveLL.Proofs.Network.Fragments
import Mathlib.Data.List.Induction
/-!
The stages in which a network is built from rules. All rules are declared first; then each gets its
body, which becomes a fragment that is joined to the start and the stop of the rule; the entries of
the modes come last. From one stage to the next, states that have their edges stay as they are.
-/
namespace AdaptiveLL

/-- Every reference is to one of so many rules, and each suffix of a left-recursive rule has a
level. -/
def Element.Formed (count : Nat) : Element → Prop
  | .ref rule _ => rule < count
  | .sequence es | .alternatives es | .optional _ es | .star _ es | .plus _ es =>
      ∀ e ∈ es, e.Formed count
  | .leftRecursive primaries levels suffixes =>
      (∀ e ∈ primaries, e.Formed count) ∧ (∀ e ∈ suffixes, e.Formed count) ∧
        levels.length = suffixes.length
  | _ => True

/-- The state is no stop, and will get no more edges. -/
def StatePlan.Settled (s : StatePlan) : Prop :=
  s.kind ≠ .ruleStop ∧ (s.transitions = [] → s.kind.takesEdge = false)

namespace Builder

variable {b b₀ b₁ b' b'' : Builder} {f : Fragment} {fs : List Fragment} {body : Element}
  {links : List (Nat × Nat)} {new : List StatePlan} {marks : List Nat} {rule other : Nat}

/-! ### What stays settled -/

/-- Settled states stay as they are. -/
def Settles (b b' : Builder) : Prop :=
  ∀ (q : Nat) (s : StatePlan), b.states[q]? = some s → s.Settled → b'.states[q]? = some s

theorem Settles.refl (b : Builder) : Settles b b :=
  fun _ _ here _ => here

theorem Settles.trans (first : Settles b b') (second : Settles b' b'') : Settles b b'' :=
  fun q s here settled => second q s (first q s here settled) settled

theorem Fresh.settles (h : Fresh b₀ b fs) : Settles b₀ b :=
  fun q _ here _ => (h.old q (Array.getElem?_eq_some_iff.1 here).1).trans here

/-- Links leave states that were not settled. -/
theorem Joins.settles (h : Joins b b' links new marks) (opens : ∀ l ∈ links, b.IsOpen l.1) :
    Settles b b' := by
  intro q s here settled
  refine (h.unlinked (Array.getElem?_eq_some_iff.1 here).1 ?_).trans here
  rintro l mem rfl
  obtain ⟨s', here', bare, takes⟩ := opens l mem
  obtain rfl := Option.some.inj (here.symm.trans here')
  simp [settled.2 bare] at takes

/-- What comes later has the same rules, each state with its rule and its kind, and settled states
as they are. -/
structure Follows (b b' : Builder) : Prop where
  settles : Settles b b'
  keeps : Keeps b b'
  ruleStarts : b'.ruleStarts = b.ruleStarts

theorem Follows.refl (b : Builder) : Follows b b :=
  ⟨.refl b, fun _ s here => ⟨s, here, rfl, rfl⟩, rfl⟩

theorem Follows.trans (first : Follows b b') (second : Follows b' b'') : Follows b b'' where
  settles := first.settles.trans second.settles
  keeps q s here := by
    obtain ⟨s', here', rule', kind'⟩ := first.keeps q s here
    obtain ⟨s'', here'', rule'', kind''⟩ := second.keeps q s' here'
    exact ⟨s'', here'', rule''.trans rule', kind''.trans kind'⟩
  ruleStarts := second.ruleStarts.trans first.ruleStarts

theorem Fresh.follows (h : Fresh b₀ b fs) : Follows b₀ b where
  settles := h.settles
  keeps q s here := ⟨s, (h.old q (Array.getElem?_eq_some_iff.1 here).1).trans here, rfl, rfl⟩
  ruleStarts := h.ruleStarts

theorem Joins.follows (h : Joins b b' links new marks) (opens : ∀ l ∈ links, b.IsOpen l.1) :
    Follows b b' where
  settles := h.settles opens
  keeps _ _ here := ⟨_, h.get here, rfl, rfl⟩
  ruleStarts := h.ruleStarts

/-! ### Declarations -/

/-- The rules have been declared, and nothing else has been built. -/
structure Declares (b : Builder) (rules : List RuleDecl) : Prop where
  size : b.states.size = 2 * rules.length
  count : b.ruleStarts.size = rules.length
  rule : ∀ (rule : Nat) (d : RuleDecl), rules[rule]? = some d →
    b.ruleStarts[rule]? = some (2 * rule + 1) ∧
      b.states[2 * rule]? = some { rule, kind := .ruleStop } ∧
      b.states[2 * rule + 1]? = some { rule, kind := .ruleStart (2 * rule) d.leftRecursive }
  decisions : b.decisions = #[]
  modes : b.modes = #[]

theorem Declares.declare {rules : List RuleDecl} (h : b.Declares rules) (d : RuleDecl) :
    (b.declare d.leftRecursive d.tokenType).2.Declares (rules ++ [d]) := by
  have size := h.size
  have count := h.count
  constructor
  case size => simp [Builder.declare, Builder.newState, size]; omega
  case count => simp [Builder.declare, Builder.newState, count]
  case rule =>
    intro rule d' here
    simp only [Builder.declare, Builder.newState, Array.getElem?_push, Array.size_push, size, count]
    rcases Nat.lt_trichotomy rule rules.length with lt | rfl | gt
    · rw [List.getElem?_append_left lt] at here
      have old := h.rule rule d' here
      rw [if_neg (by omega), if_neg (by omega), if_neg (by omega), if_neg (by omega),
        if_neg (by omega)]
      exact old
    · obtain rfl : d = d' := by simpa using here
      simp
    · rw [List.getElem?_eq_none (by simp; omega)] at here
      cases here
  case decisions => exact h.decisions
  case modes => exact h.modes

/-- The rule is declared and has no body yet. -/
def Awaits (b : Builder) (rule : Nat) : Prop :=
  b.ruleStarts[rule]? = some (2 * rule + 1) ∧ ∃ s leftRecursive,
    b.states[2 * rule + 1]? = some s ∧ s.kind = .ruleStart (2 * rule) leftRecursive ∧
      s.transitions = []

theorem Declares.awaits {rules : List RuleDecl} (h : b.Declares rules) (lt : rule < rules.length) :
    b.Awaits rule := by
  obtain ⟨starts, -, start⟩ := h.rule rule _ (List.getElem?_eq_getElem lt)
  exact ⟨starts, _, _, start, rfl, rfl⟩

/-! ### Definitions -/

section Define

variable (built : { b with currentRule := rule }.element body = (f, b₁)) (awaits : b.Awaits rule)
include built

theorem fresh_of_built : Fresh { b with currentRule := rule } b₁ [f] := by
  simpa [built] using element_fresh { b with currentRule := rule } body

include awaits

/-- The fragment of a body is joined to the start and the stop of its rule. -/
theorem define_joins :
    Joins b₁ (b.define rule body) [(2 * rule + 1, f.entry), (f.exit, 2 * rule)] [] [] := by
  obtain ⟨start, s, leftRecursive, here, kind, -⟩ := awaits
  have fresh := fresh_of_built built
  have lt := (Array.getElem?_eq_some_iff.1 here).1
  have here₁ : b₁.states[2 * rule + 1]? = some s := (fresh.old _ lt).trans here
  simp only [define, start, built, here₁, Option.map_some, kind]
  have into := (Joins.refl b₁).addPlain (Array.getElem?_eq_some_iff.1 here₁).1 f.entry
  exact into.addPlain (fresh.lt f (.head _)) (2 * rule)

theorem define_opens :
    (∀ l ∈ [(2 * rule + 1, f.entry), (f.exit, 2 * rule)], b₁.IsOpen l.1) ∧
      ([(2 * rule + 1, f.entry), (f.exit, 2 * rule)].map Prod.fst).Nodup := by
  have fresh := fresh_of_built built
  obtain ⟨-, s, leftRecursive, here, kind, bare⟩ := awaits
  have start : b.IsOpen (2 * rule + 1) := ⟨s, here, bare, by simp [kind, StateKind.takesEdge]⟩
  have above : b.states.size ≤ f.exit := (fresh.exits f (.head _)).1
  refine ⟨?_, ?_⟩
  · simpa using ⟨fresh.isOpen start, (fresh.exits f (.head _)).2⟩
  · have := start.lt
    simp only [List.map_cons, List.map_nil, List.nodup_cons, List.mem_singleton, List.not_mem_nil,
      not_false_eq_true, List.nodup_nil, and_true]
    omega

theorem define_follows : Follows b₁ (b.define rule body) :=
  (define_joins built awaits).follows (define_opens built awaits).1

end Define

theorem Awaits.follows (awaits : b.Awaits rule) (body : Element) :
    Follows b (b.define rule body) := by
  rcases built : { b with currentRule := rule }.element body with ⟨f, b₁⟩
  have fresh : Follows b b₁ := by
    obtain ⟨settles, keeps, ruleStarts⟩ := (fresh_of_built built).follows
    exact ⟨settles, keeps, ruleStarts⟩
  exact fresh.trans (define_follows built awaits)

/-- Other rules still have no body. -/
theorem Awaits.define (awaits : b.Awaits rule) (h : b.Awaits other) (apart : other ≠ rule)
    (body : Element) : (b.define rule body).Awaits other := by
  rcases built : { b with currentRule := rule }.element body with ⟨f, b₁⟩
  have fresh := fresh_of_built built
  obtain ⟨start, s, leftRecursive, here, kind, bare⟩ := h
  have lt := (Array.getElem?_eq_some_iff.1 here).1
  have above : b.states.size ≤ f.exit := (fresh.exits f (.head _)).1
  refine ⟨(awaits.follows body).ruleStarts.symm ▸ start, s, leftRecursive, ?_, kind, bare⟩
  refine ((define_joins built awaits).unlinked (Nat.lt_of_lt_of_le lt fresh.size) ?_).trans
    ((fresh.old _ lt).trans here)
  simp only [List.forall_mem_cons, List.not_mem_nil, false_implies, implies_true, and_true]
  omega

/-- Each definition with what has been built before it. -/
def stages (b : Builder) : List (Nat × Element) → List (Builder × Nat × Element)
  | [] => []
  | (rule, body) :: ds => (b, rule, body) :: (b.define rule body).stages ds

theorem exists_stage (b : Builder) {ds : List (Nat × Element)} {d : Nat × Element} (mem : d ∈ ds) :
    ∃ b₀, (b₀, d) ∈ b.stages ds := by
  induction ds generalizing b with
  | nil => cases mem
  | cons d' ds ih =>
      rcases List.mem_cons.1 mem with rfl | mem
      · exact ⟨b, .head _⟩
      · obtain ⟨b₀, mem⟩ := ih (b.define d'.1 d'.2) mem
        exact ⟨b₀, .tail _ mem⟩

theorem mem_of_mem_stages {ds : List (Nat × Element)} {d : Nat × Element}
    (mem : (b₀, d) ∈ b.stages ds) : d ∈ ds := by
  induction ds generalizing b with
  | nil => cases mem
  | cons d' ds ih =>
      rcases List.mem_cons.1 mem with same | mem
      · cases same
        exact .head _
      · exact .tail _ (ih mem)

theorem foldl_define_follows {ds : List (Nat × Element)} (awaits : ∀ d ∈ ds, b.Awaits d.1)
    (once : (ds.map Prod.fst).Nodup) : Follows b (ds.foldl (fun b d => b.define d.1 d.2) b) := by
  induction ds generalizing b with
  | nil => exact .refl b
  | cons d ds ih =>
      obtain ⟨first, others⟩ := List.forall_mem_cons.1 awaits
      rw [List.map_cons, List.nodup_cons] at once
      refine (first.follows d.2).trans (ih (fun d' mem => ?_) once.2)
      exact first.define (others d' mem) (fun same => once.1 (same ▸ List.mem_map_of_mem mem)) d.2

/-- Each definition finds its rule without a body. -/
theorem of_mem_stages {ds : List (Nat × Element)} (awaits : ∀ d ∈ ds, b.Awaits d.1)
    (once : (ds.map Prod.fst).Nodup) (mem : (b₀, rule, body) ∈ b.stages ds) :
    b₀.Awaits rule ∧ Follows b b₀ ∧
      Follows (b₀.define rule body) (ds.foldl (fun b d => b.define d.1 d.2) b) := by
  induction ds generalizing b with
  | nil => cases mem
  | cons d ds ih =>
      obtain ⟨first, others⟩ := List.forall_mem_cons.1 awaits
      rw [List.map_cons, List.nodup_cons] at once
      have awaits' : ∀ d' ∈ ds, (b.define d.1 d.2).Awaits d'.1 := fun d' mem =>
        first.define (others d' mem) (fun same => once.1 (same ▸ List.mem_map_of_mem mem)) d.2
      rcases List.mem_cons.1 mem with same | mem
      · cases same
        exact ⟨first, .refl _, foldl_define_follows awaits' once.2⟩
      · obtain ⟨awaits, before, later⟩ := ih awaits' once.2 mem
        exact ⟨awaits, (first.follows d.2).trans before, later⟩

/-! ### Modes -/

theorem Joins.addPlains (h : Joins b b' links new marks) (i : Nat) (targets : List Nat) :
    Joins b (targets.foldl (fun b'' target => b''.addPlain (b.states.size + i) target) b') links
      (new.modify i fun s => { s with transitions := s.transitions ++ targets.map .plain })
      marks := by
  induction targets generalizing b' new with
  | nil =>
      have unchanged : (fun s : StatePlan =>
          { s with transitions := s.transitions ++ ([] : List Nat).map .plain }) = id := by
        funext s
        simp
      rw [unchanged, List.modify_id]
      exact h
  | cons target targets ih =>
      have others := ih (h.addTransition i (.plain target))
      simpa [Builder.addPlain, List.modify_modify_eq, Function.comp_def] using others

/-- The entry of a mode is put behind all states. -/
theorem addMode_joins (b : Builder) (rules : List Nat) : ∃ b', Joins b b' []
      [b.plan .tokensStart ((rules.filterMap (b.ruleStarts[·]?)).map .plain) false]
      [b.states.size] ∧
    b.addMode rules = { b' with modes := b.modes.push b.states.size } := by
  rcases starts : b.newState .tokensStart with ⟨start, b₁⟩
  obtain ⟨rfl, started⟩ := (Joins.refl b).newState 0 rfl starts
  have numbered := started.addDecision b.states.size
  have led := numbered.addPlains 0 (rules.filterMap (b.ruleStarts[·]?))
  refine ⟨_, by simpa [plan] using led, ?_⟩
  rw [← led.modes]
  cases starts
  rfl

theorem addMode_follows (b : Builder) (rules : List Nat) : Follows b (b.addMode rules) := by
  obtain ⟨b', joins, eq⟩ := b.addMode_joins rules
  obtain ⟨settles, keeps, ruleStarts⟩ := joins.follows nofun
  rw [eq]
  exact ⟨settles, keeps, ruleStarts⟩

theorem define_modes (b : Builder) (rule : Nat) (body : Element) :
    (b.define rule body).modes = b.modes := by
  have same := (element_fresh { b with currentRule := rule } body).modes
  unfold define
  split
  · rfl
  · dsimp only
    split <;> exact same

theorem foldl_define_modes (b : Builder) (ds : List (Nat × Element)) :
    (ds.foldl (fun b d => b.define d.1 d.2) b).modes = b.modes := by
  induction ds generalizing b with
  | nil => rfl
  | cons d ds ih => exact (ih _).trans (b.define_modes d.1 d.2)

/-- The state is the entry of a mode, and leads to the starts of the rules. -/
def Enters (b : Builder) (start : Nat) (rules : List Nat) : Prop :=
  ∃ p, b.states[start]? = some p ∧ p.kind = .tokensStart ∧
    p.transitions = (rules.filterMap (b.ruleStarts[·]?)).map .plain

theorem Enters.follows {start : Nat} {rules : List Nat} (h : b.Enters start rules)
    (follows : Follows b b') : b'.Enters start rules := by
  obtain ⟨p, here, kind, leads⟩ := h
  refine ⟨p, follows.settles _ _ here ⟨by simp [kind], fun _ => ?_⟩, kind, ?_⟩
  · rw [kind]
    rfl
  · rw [leads, follows.ruleStarts]

theorem addMode_enters (b : Builder) (rules : List Nat) :
    (b.addMode rules).Enters b.states.size rules := by
  obtain ⟨b', joins, eq⟩ := b.addMode_joins rules
  rw [eq]
  exact ⟨_, joins.new 0, rfl, by rw [← joins.ruleStarts]; rfl⟩

theorem addMode_modes (b : Builder) (rules : List Nat) :
    (b.addMode rules).modes = b.modes.push b.states.size := by
  obtain ⟨b', -, eq⟩ := b.addMode_joins rules
  rw [eq]

/-- Each mode has an entry. -/
theorem foldl_addMode_enters (bare : b.modes = #[]) (modes : List (List Nat)) :
    (modes.foldl addMode b).modes.size = modes.length ∧
      ∀ (i : Nat) (rules : List Nat), modes[i]? = some rules → ∃ start,
        (modes.foldl addMode b).modes[i]? = some start ∧
          (modes.foldl addMode b).Enters start rules := by
  induction modes using List.reverseRecOn with
  | nil => simp [bare]
  | append_singleton modes last ih =>
      obtain ⟨size, entries⟩ := ih
      rw [List.foldl_append, List.foldl_cons, List.foldl_nil, addMode_modes]
      refine ⟨by simp [size], fun i rules here => ?_⟩
      rw [Array.getElem?_push, size]
      split
      case isTrue last =>
          subst last
          obtain rfl := Option.some.inj (List.getElem?_concat_length.symm.trans here)
          exact ⟨_, rfl, addMode_enters _ _⟩
      case isFalse other =>
          have lt := (List.getElem?_eq_some_iff.1 here).1
          rw [List.length_append, List.length_singleton] at lt
          rw [List.getElem?_append_left (by omega)] at here
          obtain ⟨start, mode, enters⟩ := entries i rules here
          exact ⟨start, mode, enters.follows (addMode_follows _ _)⟩

end Builder

namespace RuleSet

variable {g : RuleSet}

/-- The rules without their bodies. -/
def declared (g : RuleSet) : Builder :=
  g.rules.foldl (fun b r => (b.declare r.leftRecursive r.tokenType).2)
    { kind := g.kind, maxToken := g.maxToken }

/-- The bodies, each with the rule that it defines. -/
def definitions (g : RuleSet) : List (Nat × Element) :=
  g.rules.zipIdx.filterMap fun (r, i) => r.body.map fun body => (r.defines.getD i, body)

/-- Each rule is defined once, and the bodies refer to declared rules. -/
structure Complete (g : RuleSet) : Prop where
  once : (g.definitions.map Prod.fst).Perm (List.range g.rules.length)
  formed : ∀ d ∈ g.definitions, d.2.Formed g.rules.length

/-- The rules with their bodies. -/
def defined (g : RuleSet) : Builder :=
  g.definitions.foldl (fun b d => b.define d.1 d.2) g.declared

theorem builder_eq (g : RuleSet) : g.builder = g.modes.foldl Builder.addMode g.defined := by
  unfold builder
  refine congrArg (g.modes.foldl Builder.addMode) ?_
  rw [defined, definitions, List.foldl_filterMap]
  refine congrArg (g.rules.zipIdx.foldl · g.declared) ?_
  funext b ⟨r, i⟩
  cases body : r.body <;> simp [body]

theorem declares (g : RuleSet) : g.declared.Declares g.rules := by
  unfold declared
  induction g.rules using List.reverseRecOn with
  | nil => constructor <;> simp
  | append_singleton rules _ ih =>
      rw [List.foldl_append]
      exact ih.declare _

/-- The entry of each mode leads to the starts of its rules. -/
theorem exists_mode {i : Nat} {rules : List Nat} (here : g.modes[i]? = some rules) :
    ∃ start, g.builder.modes[i]? = some start ∧ g.builder.Enters start rules := by
  have bare : g.defined.modes = #[] :=
    (Builder.foldl_define_modes g.declared g.definitions).trans g.declares.modes
  rw [builder_eq]
  exact (Builder.foldl_addMode_enters bare g.modes).2 i rules here

namespace Complete

variable (h : g.Complete) {b₀ b₁ : Builder} {rule : Nat} {body : Element} {f : Fragment}
include h

theorem nodup : (g.definitions.map Prod.fst).Nodup :=
  h.once.nodup_iff.2 List.nodup_range

theorem lt_of_mem {d : Nat × Element} (mem : d ∈ g.definitions) : d.1 < g.rules.length :=
  List.mem_range.1 (h.once.subset (List.mem_map_of_mem mem))

theorem awaits : ∀ d ∈ g.definitions, g.declared.Awaits d.1 :=
  fun _ mem => g.declares.awaits (h.lt_of_mem mem)

/-- Every rule gets its body. -/
theorem exists_definition (lt : rule < g.rules.length) : ∃ body, (rule, body) ∈ g.definitions := by
  obtain ⟨⟨rule, body⟩, mem, rfl⟩ := List.mem_map.1 (h.once.symm.subset (List.mem_range.2 lt))
  exact ⟨body, mem⟩

/-- The modes follow the definitions, and these the declarations. -/
theorem follows : g.declared.Follows g.defined ∧ g.defined.Follows g.builder := by
  refine ⟨Builder.foldl_define_follows h.awaits h.nodup, ?_⟩
  rw [builder_eq]
  exact g.modes.foldlRecOn _ (.refl _) fun b follows rules _ =>
    follows.trans (b.addMode_follows rules)

/-- The start and the stop of each rule are where they were declared. -/
theorem declared {d : RuleDecl} (here : g.rules[rule]? = some d) :
    g.builder.ruleStarts[rule]? = some (2 * rule + 1) ∧
      (∃ s, g.builder.states[2 * rule]? = some s ∧ s.rule = rule ∧ s.kind = .ruleStop) ∧
      ∃ s, g.builder.states[2 * rule + 1]? = some s ∧ s.rule = rule ∧
        s.kind = .ruleStart (2 * rule) d.leftRecursive := by
  obtain ⟨first, stop, start⟩ := g.declares.rule rule d here
  have all := h.follows.1.trans h.follows.2
  exact ⟨all.ruleStarts ▸ first, all.keeps _ _ stop, all.keeps _ _ start⟩

theorem size_ruleStarts : g.builder.ruleStarts.size = g.rules.length := by
  rw [(h.follows.1.trans h.follows.2).ruleStarts, g.declares.count]

/-- The fragment of a body stands between the start and the stop of its rule when all is built. -/
theorem of_stage (mem : (b₀, rule, body) ∈ g.declared.stages g.definitions)
    (built : { b₀ with currentRule := rule }.element body = (f, b₁)) :
    b₁.Follows g.builder ∧
      (∃ s leftRecursive, g.builder.states[2 * rule + 1]? = some s ∧
        s.kind = .ruleStart (2 * rule) leftRecursive ∧ s.transitions = [.plain f.entry]) ∧
      ∃ s, g.builder.states[f.exit]? = some s ∧ s.kind.takesEdge = true ∧
        s.transitions = [.plain (2 * rule)] := by
  obtain ⟨awaits, -, later⟩ := Builder.of_mem_stages h.awaits h.nodup mem
  have fresh := Builder.fresh_of_built built
  have joins := Builder.define_joins built awaits
  obtain ⟨opens, once⟩ := Builder.define_opens built awaits
  have last := later.trans h.follows.2
  refine ⟨(Builder.define_follows built awaits).trans last, ?_, ?_⟩
  · obtain ⟨-, s, leftRecursive, here, kind, bare⟩ := awaits
    have here₁ : b₁.states[2 * rule + 1]? = some s :=
      (fresh.old _ (Array.getElem?_eq_some_iff.1 here).1).trans here
    have linked := joins.linked (.head _) once here₁ bare
    exact ⟨_, leftRecursive, last.settles _ _ linked ⟨by simp [kind], by simp⟩, kind, rfl⟩
  · obtain ⟨s, here, bare, takes⟩ := opens (f.exit, 2 * rule) (.tail _ (.head _))
    have linked := joins.linked (.tail _ (.head _)) once here bare
    refine ⟨_, last.settles _ _ linked ⟨fun stop => ?_, by simp⟩, takes, rfl⟩
    have stop : s.kind = .ruleStop := stop
    simp [stop, StateKind.takesEdge] at takes

end Complete

end RuleSet

end AdaptiveLL
