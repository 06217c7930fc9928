import AdaptiveLL.Proofs.Network.Definitions
/-!
The shapes of states. Which edges a state has, and which states are beside it, depends on what it is
for; whatever combinators a network is built by, each of its states has the shape that its kind asks
for. An end of a loop leads to the stop of a rule only if it is the exit of the body of the rule.
-/
namespace AdaptiveLL

/-- The edges are plain. -/
def StatePlan.IsPlain (s : StatePlan) : Prop :=
  ∃ targets : List Nat, s.transitions = targets.map .plain

namespace Builder

variable {b b₀ b' : Builder} {fs rest : List Fragment} {links : List (Nat × Nat)}
  {new : List StatePlan} {marks : List Nat} {q : Nat} {s : StatePlan} {kind : StateKind}
  {Exit : Nat → Nat → Prop}

/-- A state is of a kind. -/
def IsKind (b : Builder) (q : Nat) (kind : StateKind) : Prop :=
  ∃ s, b.states[q]? = some s ∧ s.kind = kind

/-- A state of the kind has an edge to `q`. -/
def LoopsTo (b : Builder) (kind : StateKind) (back q : Nat) : Prop :=
  ∃ s, b.states[back]? = some s ∧ s.kind = kind ∧ ∃ t ∈ s.transitions, t.target = q

theorem IsKind.unique {kind' : StateKind} (is : b.IsKind q kind) (is' : b.IsKind q kind') :
    kind = kind' := by
  obtain ⟨s, here, rfl⟩ := is
  obtain ⟨s', here', rfl⟩ := is'
  rw [Option.some.inj (here.symm.trans here')]

/-- The edges that the state has, and the states beside it, are those that its kind asks for. -/
def IsShaped (b : Builder) (q : Nat) (s : StatePlan) : Prop :=
  match s.kind with
  | .basic =>
      s.transitions.length ≤ 1 ∧ ∀ target rule level follow,
        .call target rule level follow ∈ s.transitions → b.ruleStarts[rule]? = some target
  | .ruleStart .. => s.transitions.length ≤ 1 ∧ s.IsPlain
  | .ruleStop => s.transitions = []
  | .blockStart shape stop =>
      q = stop + 1 ∧ b.IsKind stop .blockEnd ∧ s.IsPlain ∧
        (1 < s.transitions.length → q ∈ b.decisions) ∧
        (shape = .plus → b.IsKind (q + 1) .plusLoopBack)
  | .blockEnd =>
      (s.transitions.length ≤ 1 ∧ s.IsPlain) ∧
        ∃ shape, b.IsKind (q + 1) (.blockStart shape q)
  | .plusLoopBack =>
      ∃ stop, q = stop + 2 ∧ b.IsKind (stop + 1) (.blockStart .plus stop) ∧
        b.IsKind (stop + 3) (.loopEnd q) ∧ q ∈ b.decisions ∧
        s.transitions = (branches (!s.nonGreedy) (stop + 1) (stop + 3)).map .plain
  | .starLoopBack => b.IsKind (q + 1) .starLoopEntry ∧ s.transitions = [.plain (q + 1)]
  | .starLoopEntry =>
      ∃ stop, q = stop + 3 ∧ b.IsKind (stop + 1) (.blockStart .star stop) ∧
        b.IsKind (stop + 2) .starLoopBack ∧ b.IsKind (stop + 4) (.loopEnd (stop + 2)) ∧
        q ∈ b.decisions ∧
        s.transitions = (branches (!s.nonGreedy) (stop + 1) (stop + 4)).map .plain
  | .loopEnd back =>
      (s.transitions.length ≤ 1 ∧ s.IsPlain) ∧
        (b.IsKind back .starLoopBack ∨ b.IsKind back .plusLoopBack)
  | .tokensStart =>
      q ∈ b.decisions ∧ s.IsPlain ∧ ∀ t ∈ s.transitions, t.target ∈ b.ruleStarts

/-- All states have their shapes. The ends of loops that lead to the stop of a rule are among the
given exits of bodies. -/
structure IsShapely (b : Builder) (Exit : Nat → Nat → Prop) : Prop where
  shaped : ∀ (q : Nat) (s : StatePlan), b.states[q]? = some s → b.IsShaped q s
  decisions : ∀ q ∈ b.decisions, q < b.states.size
  modes : ∀ q ∈ b.modes, q < b.states.size
  exits : ∀ (q target back : Nat) (s : StatePlan), b.states[q]? = some s →
    s.kind = .loopEnd back → .plain target ∈ s.transitions → b.IsKind target .ruleStop →
      Exit q target

theorem Joins.isKind (h : Joins b b' links new marks) (is : b.IsKind q kind) :
    b'.IsKind q kind := by
  obtain ⟨s, here, rfl⟩ := is
  exact ⟨_, h.get here, rfl⟩

theorem Joins.isKind_new (h : Joins b b' links new marks) {i : Nat} (here : new[i]? = some s) :
    b'.IsKind (b.states.size + i) s.kind :=
  ⟨s, (h.new i).trans here, rfl⟩

theorem Joins.mem_decisions (h : Joins b b' links new marks) :
    q ∈ b'.decisions ↔ q ∈ b.decisions ∨ q ∈ marks := by
  rw [← Array.mem_toList_iff, h.decisions, List.mem_append, Array.mem_toList_iff]

theorem Joins.isShaped (h : Joins b b' links new marks) (shaped : b.IsShaped q s) :
    b'.IsShaped q s := by
  have kinds {q : Nat} {kind : StateKind} : b.IsKind q kind → b'.IsKind q kind := h.isKind
  have decisions {q : Nat} : q ∈ b.decisions → q ∈ b'.decisions := fun mem =>
    h.mem_decisions.2 (.inl mem)
  unfold IsShaped at shaped ⊢
  rw [h.ruleStarts]
  split <;> grind

/-- Only decisions have several edges, all of them plain, until there are returns. -/
theorem IsShaped.several (shaped : b.IsShaped q s) (going : s.kind ≠ .ruleStop)
    (many : 1 < s.transitions.length) :
    s.kind.isDecision = true ∧ q ∈ b.decisions ∧ s.IsPlain := by
  cases kind : s.kind with
  | ruleStop => exact absurd kind going
  | basic | ruleStart =>
      simp only [IsShaped, kind] at shaped
      exact absurd many (Nat.not_lt.2 shaped.1)
  | blockEnd | loopEnd =>
      simp only [IsShaped, kind] at shaped
      exact absurd many (Nat.not_lt.2 shaped.1.1)
  | starLoopBack =>
      simp only [IsShaped, kind] at shaped
      simp [shaped.2] at many
  | blockStart =>
      simp only [IsShaped, kind] at shaped
      exact ⟨rfl, shaped.2.2.2.1 many, shaped.2.2.1⟩
  | plusLoopBack =>
      simp only [IsShaped, kind] at shaped
      obtain ⟨stop, -, -, -, mem, edges⟩ := shaped
      exact ⟨rfl, mem, _, edges⟩
  | starLoopEntry =>
      simp only [IsShaped, kind] at shaped
      obtain ⟨stop, -, -, -, -, mem, edges⟩ := shaped
      exact ⟨rfl, mem, _, edges⟩
  | tokensStart =>
      simp only [IsShaped, kind] at shaped
      exact ⟨rfl, shaped.1, shaped.2.1⟩

/-- An open state has its shape whatever single edge it gets. -/
theorem IsShaped.linked (shaped : b.IsShaped q s) (takes : s.kind.takesEdge = true) (target : Nat) :
    b.IsShaped q { s with transitions := [.plain target] } := by
  have plain : StatePlan.IsPlain { s with transitions := [.plain target] } := ⟨[target], rfl⟩
  cases kind : s.kind with
  | basic =>
      simp only [IsShaped, kind] at shaped ⊢
      exact ⟨Nat.le_refl 1, by simp [Transition.plain]⟩
  | ruleStart =>
      simp only [IsShaped, kind] at shaped ⊢
      exact ⟨Nat.le_refl 1, plain⟩
  | blockEnd | loopEnd =>
      simp only [IsShaped, kind] at shaped ⊢
      exact ⟨⟨Nat.le_refl 1, plain⟩, shaped.2⟩
  | ruleStop | blockStart | plusLoopBack | starLoopBack | starLoopEntry | tokensStart =>
      simp [kind, StateKind.takesEdge] at takes

/-- Shapes are kept if the new states have theirs, and if no end of a loop is linked to the stop of
a rule but the exits of bodies. -/
theorem IsShapely.joins (h : b.IsShapely Exit) (joins : Joins b b' links new marks)
    (opens : ∀ l ∈ links, b.IsOpen l.1) (once : (links.map Prod.fst).Nodup)
    (each : ∀ i s, new[i]? = some s → b'.IsShaped (b.states.size + i) s)
    (listed : ∀ q ∈ marks, q < b'.states.size)
    (goes : ∀ l ∈ links, b'.IsGoing l.2 ∨ Exit l.1 l.2)
    (inner : ∀ s ∈ new, s.kind ≠ .ruleStop)
    (bare : ∀ s ∈ new, ∀ back, s.kind = .loopEnd back → s.transitions = []) :
    b'.IsShapely Exit := by
  -- A state is new, or is an old one that is either linked or left as it is.
  have cases (q : Nat) (s : StatePlan) (here : b'.states[q]? = some s) :
      (∃ i, q = b.states.size + i ∧ new[i]? = some s) ∨
        b.states[q]? = some s ∨ ∃ s₀ target, b.states[q]? = some s₀ ∧ (q, target) ∈ links ∧
          s₀.kind.takesEdge = true ∧ s = { s₀ with transitions := [.plain target] } := by
    rcases Nat.lt_or_ge q b.states.size with lt | ge
    · by_cases apart : ∀ l ∈ links, l.1 ≠ q
      · exact .inr (.inl ((joins.unlinked lt apart).symm.trans here))
      · simp only [not_forall, not_not] at apart
        obtain ⟨⟨_, target⟩, mem, rfl⟩ := apart
        obtain ⟨s₀, here₀, bare, takes⟩ := opens _ mem
        have linked := joins.linked mem once here₀ bare
        exact .inr (.inr ⟨s₀, target, here₀, mem, takes, Option.some.inj (here.symm.trans linked)⟩)
    · obtain ⟨i, rfl⟩ := Nat.exists_eq_add_of_le ge
      exact .inl ⟨i, rfl, (joins.new i).symm.trans here⟩
  constructor
  case shaped =>
    intro q s here
    rcases cases q s here with ⟨i, rfl, new⟩ | old | ⟨s₀, target, old, mem, takes, rfl⟩
    · exact each i s new
    · exact joins.isShaped (h.shaped q s old)
    · exact (joins.isShaped (h.shaped q s₀ old)).linked takes target
  case decisions =>
    intro q mem
    rcases joins.mem_decisions.1 mem with mem | mem
    · rw [joins.size]
      exact Nat.lt_of_lt_of_le (h.decisions q mem) (Nat.le_add_right _ _)
    · exact listed q mem
  case modes =>
    intro q mem
    rw [joins.size]
    exact Nat.lt_of_lt_of_le (h.modes q (joins.modes ▸ mem)) (Nat.le_add_right _ _)
  case exits =>
    intro q target back s here kind mem stop
    rcases cases q s here with ⟨i, rfl, new⟩ | old | ⟨s₀, target', old, linked, takes, rfl⟩
    · rw [bare s (List.mem_of_getElem? new) back kind] at mem
      cases mem
    · obtain ⟨s', here', stop⟩ := stop
      rcases cases target s' here' with ⟨i, rfl, new⟩ | old' | ⟨s₀, target', -, -, takes, rfl⟩
      · exact absurd stop (inner s' (List.mem_of_getElem? new))
      · exact h.exits q target back s old kind mem ⟨s', old', stop⟩
      · have stop : s₀.kind = .ruleStop := stop
        simp [stop, StateKind.takesEdge] at takes
    · obtain rfl : target = target' := by simpa [Transition.plain] using mem
      rcases goes _ linked with ⟨s', here', going⟩ | exit
      · obtain ⟨s'', here'', stop⟩ := stop
        obtain rfl := Option.some.inj (here'.symm.trans here'')
        exact absurd stop going
      · exact exit

/-! ### Combinators -/

theorem plan_isPlain (kind : StateKind) (targets : List Nat) (nonGreedy : Bool) :
    (b.plan kind (targets.map .plain) nonGreedy).IsPlain :=
  ⟨targets, rfl⟩

/-- A fragment of two basic states. -/
theorem IsShapely.pair (h : b.IsShapely Exit) {t : Transition}
    (joins : Joins b b' [] [b.plan .basic [t] false, b.plan .basic [] false] [])
    (calls : ∀ target rule level follow, t = .call target rule level follow →
      b.ruleStarts[rule]? = some target) : b'.IsShapely Exit := by
  refine h.joins joins (by simp) (by simp) (fun i s here => ?_) (by simp) (by simp) (by simp [plan])
    (by simp [plan])
  rcases i with _ | _ | i
  · cases here
    refine ⟨Nat.le_refl 1, fun target rule level follow mem => ?_⟩
    rw [joins.ruleStarts]
    exact calls target rule level follow (List.mem_singleton.1 mem).symm
  · cases here
    exact ⟨Nat.zero_le 1, by simp [plan]⟩
  · cases here

/-- An edge that calls no rule keeps the shapes. -/
theorem edge_shapely (h : b.IsShapely Exit) (t : Transition)
    (silent : ∀ target rule level follow, t ≠ .call target rule level follow) :
    (b.edge t).2.IsShapely Exit := by
  refine h.pair (b.edge_joins t).2 ?_
  cases t with
  | call target rule level follow => exact absurd rfl (silent target rule level follow)
  | _ => simp [Transition.retarget]

section Blocks

variable (h : Fresh b₀ b (fs ++ rest)) (shapely : b.IsShapely Exit)
include h shapely

/-- Fragments are joined to the end of a block. -/
theorem IsShapely.closed {stop : Nat}
    (joins : Joins b b' (fs.map fun f => (f.exit, stop)) new marks) (going : b'.IsGoing stop)
    (each : ∀ i s, new[i]? = some s → b'.IsShaped (b.states.size + i) s)
    (listed : ∀ q ∈ marks, q < b'.states.size) (inner : ∀ s ∈ new, s.kind ≠ .ruleStop)
    (bare : ∀ s ∈ new, ∀ back, s.kind = .loopEnd back → s.transitions = []) :
    b'.IsShapely Exit := by
  refine shapely.joins joins ?_ ?_ each listed ?_ inner bare
  · exact List.forall_mem_map.2 fun f mem => (h.exits f (List.mem_append_left _ mem)).2
  · rw [List.map_map]
    exact (List.nodup_append.1 (List.map_append ▸ h.apart)).1
  · exact List.forall_mem_map.2 fun _ _ => .inl going

theorem alternatives_shapely : (b.alternatives fs).2.IsShapely Exit := by
  by_cases one : fs.length = 1
  · obtain ⟨f, rfl⟩ := List.length_eq_one_iff.1 one
    exact shapely
  · obtain ⟨-, joins⟩ := alternatives_joins one (exits_lt h)
    have ends := joins.isKind_new (i := 0) rfl
    have starts := joins.isKind_new (i := 1) rfl
    refine shapely.closed h joins (joins.isGoing_new (i := 0) rfl (by simp [plan]))
      (fun i s here => ?_) ?_ (by simp [plan]) (by simp [plan])
    · rcases i with _ | _ | i
      · cases here
        exact ⟨⟨Nat.zero_le 1, [], rfl⟩, .choice, starts⟩
      · cases here
        refine ⟨rfl, ends, plan_isPlain .., fun several => joins.mem_decisions.2 (.inr ?_), by simp⟩
        simpa [plan] using several
      · cases here
    · rw [joins.size]
      split <;> simp

theorem optional_shapely (greedy : Bool) : (b.optional greedy fs).2.IsShapely Exit := by
  obtain ⟨-, joins⟩ := optional_joins greedy (exits_lt h)
  have ends := joins.isKind_new (i := 0) rfl
  have starts := joins.isKind_new (i := 1) rfl
  refine shapely.closed h joins (joins.isGoing_new (i := 0) rfl (by simp [plan]))
    (fun i s here => ?_) (by simp [joins.size]) (by simp [plan]) (by simp [plan])
  rcases i with _ | _ | i
  · cases here
    exact ⟨⟨Nat.zero_le 1, [], rfl⟩, .choice, starts⟩
  · cases here
    exact ⟨rfl, ends, plan_isPlain .., fun _ => joins.mem_decisions.2 (.inr (.head _)), by simp⟩
  · cases here

theorem star_shapely (greedy : Bool) : (b.star greedy fs).2.IsShapely Exit := by
  obtain ⟨-, joins⟩ := star_joins greedy (exits_lt h)
  have ends := joins.isKind_new (i := 0) rfl
  have starts := joins.isKind_new (i := 1) rfl
  have loops := joins.isKind_new (i := 2) rfl
  have enters := joins.isKind_new (i := 3) rfl
  have leaves := joins.isKind_new (i := 4) rfl
  refine shapely.closed h joins (joins.isGoing_new (i := 0) rfl (by simp [plan]))
    (fun i s here => ?_) ?_ (by simp [plan]) (by simp [plan])
  · rcases i with _ | _ | _ | _ | _ | i
    · cases here
      exact ⟨⟨Nat.le_refl 1, plan_isPlain _ [_] _⟩, .star, starts⟩
    · cases here
      refine ⟨rfl, ends, plan_isPlain .., fun several => joins.mem_decisions.2 (.inr ?_), by simp⟩
      simpa [plan] using several
    · cases here
      exact ⟨enters, rfl⟩
    · cases here
      refine ⟨_, rfl, starts, loops, leaves, joins.mem_decisions.2 (.inr (by simp)), ?_⟩
      simp [plan]
    · cases here
      exact ⟨⟨Nat.zero_le 1, [], rfl⟩, .inl loops⟩
    · cases here
  · rw [joins.size]
    split <;> simp

theorem plus_shapely (greedy : Bool) : (b.plus greedy fs).2.IsShapely Exit := by
  obtain ⟨-, joins⟩ := plus_joins greedy (exits_lt h)
  have ends := joins.isKind_new (i := 0) rfl
  have starts := joins.isKind_new (i := 1) rfl
  have loops := joins.isKind_new (i := 2) rfl
  have leaves := joins.isKind_new (i := 3) rfl
  refine shapely.closed h joins (joins.isGoing_new (i := 0) rfl (by simp [plan]))
    (fun i s here => ?_) ?_ (by simp [plan]) (by simp [plan])
  · rcases i with _ | _ | _ | _ | i
    · cases here
      exact ⟨⟨Nat.le_refl 1, plan_isPlain _ [_] _⟩, .plus, starts⟩
    · cases here
      refine ⟨rfl, ends, plan_isPlain .., fun several => joins.mem_decisions.2 (.inr ?_),
        fun _ => loops⟩
      simpa [plan] using several
    · cases here
      refine ⟨_, rfl, starts, leaves, joins.mem_decisions.2 (.inr (by simp)), ?_⟩
      simp [plan]
    · cases here
      exact ⟨⟨Nat.zero_le 1, [], rfl⟩, .inr loops⟩
    · cases here
  · rw [joins.size]
    split <;> simp

omit h shapely in
/-- A link of a row leads to the entry of one of its parts. -/
theorem mem_chainLinks {exit : Nat} {l : Nat × Nat} (mem : l ∈ chainLinks exit fs) :
    ∃ f ∈ fs, f.entry = l.2 := by
  induction fs generalizing exit with
  | nil => cases mem
  | cons f fs ih =>
      rcases List.mem_cons.1 mem with rfl | mem
      · exact ⟨f, .head _, rfl⟩
      · obtain ⟨g, listed, same⟩ := ih mem
        exact ⟨g, .tail _ listed, same⟩

theorem sequence_shapely : (b.sequence fs).2.IsShapely Exit := by
  cases fs with
  | nil => exact shapely.pair b.empty_joins.2 (by simp [Transition.plain])
  | cons f fs =>
      have lt := exits_lt h
      obtain ⟨-, joins⟩ := chain_joins (.refl b) f.exit fs
        ⟨lt _ (.head _), fun g mem => lt g (.tail _ mem)⟩
      obtain ⟨opens, once⟩ := chainLinks_open h rfl
      rw [List.nil_append] at joins
      refine shapely.joins joins opens once (by simp) (by simp) (fun l mem => .inl ?_) (by simp)
        (by simp)
      obtain ⟨g, listed, same⟩ := mem_chainLinks mem
      rw [← same]
      exact joins.isGoing (h.entries g (List.mem_append_left _ (.tail _ listed)))

end Blocks

theorem guard_shapely {suffixes : List (Int × Fragment)}
    (h : Fresh b₀ b (suffixes.map Prod.snd ++ rest)) (shapely : b.IsShapely Exit) :
    (b.guard suffixes).2.IsShapely Exit := by
  induction suffixes generalizing b rest with
  | nil => exact shapely
  | cons pair others ih =>
      obtain ⟨level, suffix⟩ := pair
      rcases checks : b.edge (.precedence 0 level) with ⟨check, b₁⟩
      rcases joins : b₁.sequence [check, suffix] with ⟨first, b₂⟩
      simp only [guard, checks, joins]
      have checked := h.append (b.edge_fresh (.precedence 0 level))
      have shapely₁ := edge_shapely shapely (.precedence 0 level) (by simp)
      rw [checks] at checked shapely₁
      have both : Fresh b₀ b₁ ([check, suffix] ++ (others.map Prod.snd ++ rest)) :=
        checked.subperm (List.perm_append_singleton check _).symm.subperm
      have joined := sequence_fresh both
      have shapely₂ := sequence_shapely both shapely₁
      rw [joins] at joined shapely₂
      exact ih (joined.subperm List.perm_middle.subperm) shapely₂

theorem leftRecursive_shapely {suffixes : List (Int × Fragment)}
    (h : Fresh b₀ b (fs ++ (suffixes.map Prod.snd ++ rest))) (shapely : b.IsShapely Exit) :
    (b.leftRecursive fs suffixes).2.IsShapely Exit := by
  rcases bases : b.alternatives fs with ⟨primary, b₁⟩
  rcases guards : b₁.guard suffixes with ⟨guarded, b₂⟩
  rcases loops : b₂.star true guarded with ⟨loop, b₃⟩
  simp only [leftRecursive, bases, guards, loops]
  have fresh₁ := alternatives_fresh h
  have shapely₁ := alternatives_shapely h shapely
  rw [bases] at fresh₁ shapely₁
  have pending : Fresh b₀ b₁ (suffixes.map Prod.snd ++ (primary :: rest)) :=
    fresh₁.subperm List.perm_middle.subperm
  have fresh₂ := guard_fresh pending
  have shapely₂ := guard_shapely pending shapely₁
  rw [guards] at fresh₂ shapely₂
  have fresh₃ := star_fresh fresh₂ true
  have shapely₃ := star_shapely fresh₂ shapely₂ true
  rw [loops] at fresh₃ shapely₃
  have both : Fresh b₀ b₃ ([primary, loop] ++ rest) :=
    fresh₃.subperm (List.Perm.swap ..).subperm
  exact sequence_shapely both shapely₃

theorem atoms_shapely (shapely : b.IsShapely Exit) (cs : List Char) :
    (b.atoms cs).2.IsShapely Exit := by
  induction cs generalizing b with
  | nil => exact shapely
  | cons c cs ih => exact ih (edge_shapely shapely (.atom 0 c.toNat) (by simp))

theorem command_shapely (shapely : b.IsShapely Exit) (a : LexerAction) :
    (b.command a).2.IsShapely Exit := by
  unfold command
  split
  case h_1 => exact edge_shapely shapely _ (by simp)
  case h_2 =>
    have more : IsShapely { b with actions := b.actions.push a } Exit :=
      ⟨shapely.shaped, shapely.decisions, shapely.modes, shapely.exits⟩
    exact edge_shapely more _ (by simp)

mutual

/-- Building an element keeps the shapes. -/
theorem element_shapely {b : Builder} (shapely : b.IsShapely Exit) (e : Element)
    (formed : e.Formed b.ruleStarts.size) : (b.element e).2.IsShapely Exit := by
  cases e with
  | token | range | set | notSet | wildcard | predicate | precedence | action =>
      rw [element]
      exact edge_shapely shapely _ (by simp)
  | literal text =>
      rw [element]
      exact sequence_shapely (b.atoms_fresh text.toList).only (atoms_shapely shapely _)
  | empty =>
      rw [element]
      exact shapely.pair b.empty_joins.2 (by simp [Transition.plain])
  | ref rule precedence =>
      rw [element]
      rw [Element.Formed] at formed
      refine shapely.pair (b.ref_joins rule precedence).2 fun target rule' level follow same => ?_
      cases same
      simp [formed]
  | command a =>
      rw [element]
      exact command_shapely shapely a
  | sequence es =>
      rw [element]
      rw [Element.Formed] at formed
      exact sequence_shapely (b.elements_fresh es).only (elements_shapely shapely es formed)
  | alternatives es =>
      rw [element]
      rw [Element.Formed] at formed
      exact alternatives_shapely (b.elements_fresh es).only (elements_shapely shapely es formed)
  | optional greedy es =>
      rw [element]
      rw [Element.Formed] at formed
      exact optional_shapely (b.elements_fresh es).only (elements_shapely shapely es formed) greedy
  | star greedy es =>
      rw [element]
      rw [Element.Formed] at formed
      exact star_shapely (b.elements_fresh es).only (elements_shapely shapely es formed) greedy
  | plus greedy es =>
      rw [element]
      rw [Element.Formed] at formed
      exact plus_shapely (b.elements_fresh es).only (elements_shapely shapely es formed) greedy
  | leftRecursive primaries levels suffixes =>
      rw [element]
      rw [Element.Formed] at formed
      have based := b.elements_fresh primaries
      have built := based.append (elements_fresh (b.elements primaries).2 suffixes)
      have first := elements_shapely shapely primaries formed.1
      have second := elements_shapely first suffixes (based.ruleStarts ▸ formed.2.1)
      have pending : Fresh b ((b.elements primaries).2.elements suffixes).2
          ((b.elements primaries).1 ++
            ((levels.zip ((b.elements primaries).2.elements suffixes).1).map Prod.snd ++ [])) := by
        refine built.subperm ?_
        rw [List.append_nil]
        exact (List.subperm_append_left _).2 (map_snd_zip_sublist levels _).subperm
      exact leftRecursive_shapely pending second

/-- Elements are built one after the other, each in a shapely network. -/
theorem elements_shapely {b : Builder} (shapely : b.IsShapely Exit) (es : List Element)
    (formed : ∀ e ∈ es, e.Formed b.ruleStarts.size) : (b.elements es).2.IsShapely Exit := by
  cases es with
  | nil =>
      rw [elements]
      exact shapely
  | cons e rest =>
      rw [elements]
      refine elements_shapely (element_shapely shapely e (formed e (.head _))) rest fun e' mem => ?_
      rw [(b.element_fresh e).ruleStarts]
      exact formed e' (.tail _ mem)

end

/-! ### Stages -/

/-- A definition keeps the shapes. The exit of the body is linked to the stop of the rule. -/
theorem define_shapely (shapely : b.IsShapely Exit) {rule : Nat} {body : Element} {f : Fragment}
    {b₁ : Builder} (awaits : b.Awaits rule) (formed : body.Formed b.ruleStarts.size)
    (built : { b with currentRule := rule }.element body = (f, b₁))
    (exit : Exit f.exit (2 * rule)) :
    (b.define rule body).IsShapely Exit := by
  have start : IsShapely { b with currentRule := rule } Exit :=
    ⟨shapely.shaped, shapely.decisions, shapely.modes, shapely.exits⟩
  have made := element_shapely start body formed
  rw [built] at made
  have joins := define_joins built awaits
  obtain ⟨opens, once⟩ := define_opens built awaits
  refine made.joins joins opens once (by simp) (by simp) ?_ (by simp) (by simp)
  simp only [List.forall_mem_cons, List.not_mem_nil, false_implies, implies_true, and_true]
  exact ⟨.inl (joins.isGoing ((fresh_of_built built).entries f (.head _))), .inr exit⟩

/-- Definitions, one after the other, if the exit of each body leads to the stop of its rule. -/
theorem foldl_define_shapely {ds : List (Nat × Element)} (shapely : b.IsShapely Exit)
    (awaits : ∀ d ∈ ds, b.Awaits d.1) (once : (ds.map Prod.fst).Nodup)
    (formed : ∀ d ∈ ds, d.2.Formed b.ruleStarts.size)
    (exits : ∀ b₀ rule body, (b₀, rule, body) ∈ b.stages ds →
      Exit ({ b₀ with currentRule := rule }.element body).1.exit (2 * rule)) :
    (ds.foldl (fun b d => b.define d.1 d.2) b).IsShapely Exit := by
  induction ds generalizing b with
  | nil => exact shapely
  | cons d ds ih =>
      obtain ⟨first, others⟩ := List.forall_mem_cons.1 awaits
      rw [List.map_cons, List.nodup_cons] at once
      refine ih ?_ (fun d' mem => ?_) once.2 (fun d' mem => ?_) fun b₀ rule body mem => ?_
      · exact define_shapely shapely first (formed d (.head _)) rfl (exits b d.1 d.2 (.head _))
      · refine first.define (others d' mem) (fun same => ?_) d.2
        exact once.1 (same ▸ List.mem_map_of_mem mem)
      · rw [(first.follows d.2).ruleStarts]
        exact formed d' (.tail _ mem)
      · exact exits b₀ rule body (.tail _ mem)

/-- Rules that are only declared have no edges yet. -/
theorem Declares.shapely {rules : List RuleDecl} (h : b.Declares rules) : b.IsShapely Exit := by
  have cases (q : Nat) (s : StatePlan) (here : b.states[q]? = some s) :
      s.transitions = [] ∧ (s.kind = .ruleStop ∨ ∃ stop leftRecursive,
        s.kind = .ruleStart stop leftRecursive) := by
    have lt := (Array.getElem?_eq_some_iff.1 here).1
    rw [h.size] at lt
    obtain ⟨-, stop, start⟩ := h.rule (q / 2) _ (List.getElem?_eq_getElem (by omega))
    rcases Nat.mod_two_eq_zero_or_one q with even | odd
    · rw [show 2 * (q / 2) = q by omega, here] at stop
      cases stop
      exact ⟨rfl, .inl rfl⟩
    · rw [show 2 * (q / 2) + 1 = q by omega, here] at start
      cases start
      exact ⟨rfl, .inr ⟨_, _, rfl⟩⟩
  constructor
  case shaped =>
    intro q s here
    obtain ⟨bare, stop | ⟨stop, leftRecursive, start⟩⟩ := cases q s here
    · simp only [IsShaped, stop, bare]
    · simp only [IsShaped, start, bare]
      exact ⟨Nat.zero_le 1, [], bare⟩
  case decisions => simp [h.decisions]
  case modes => simp [h.modes]
  case exits =>
    intro q target back s here kind
    obtain ⟨-, stop | ⟨stop, leftRecursive, start⟩⟩ := cases q s here <;> simp_all

theorem addMode_shapely (shapely : b.IsShapely Exit) (rules : List Nat) :
    (b.addMode rules).IsShapely Exit := by
  obtain ⟨b', joins, eq⟩ := b.addMode_joins rules
  have size := joins.size
  have made : b'.IsShapely Exit := by
    refine shapely.joins joins (by simp) (by simp) (fun i s here => ?_) (by simp [size]) (by simp)
      (by simp [plan]) (by simp [plan])
    rcases i with _ | i
    · cases here
      refine ⟨joins.mem_decisions.2 (.inr (.head _)), plan_isPlain .., ?_⟩
      simp only [plan, List.forall_mem_map, List.mem_filterMap]
      rintro target ⟨rule, -, start⟩
      rw [joins.ruleStarts]
      exact Array.mem_of_getElem? start
    · cases here
  rw [eq]
  refine ⟨made.shaped, made.decisions, fun q mem => ?_, made.exits⟩
  rcases Array.mem_push.1 mem with mem | rfl
  · exact made.modes q (joins.modes ▸ mem)
  · simp [size]

end Builder

namespace RuleSet

/-- The state is the exit of a body that is linked to the stop of its rule. -/
def IsExit (g : RuleSet) (q stop : Nat) : Prop :=
  ∃ b₀ rule body, (b₀, rule, body) ∈ g.declared.stages g.definitions ∧ stop = 2 * rule ∧
    q = ({ b₀ with currentRule := rule }.element body).1.exit

/-- When all is built, all states have their shapes. -/
theorem Complete.shapely {g : RuleSet} (h : g.Complete) : g.builder.IsShapely g.IsExit := by
  rw [builder_eq]
  have defined : g.defined.IsShapely g.IsExit :=
    Builder.foldl_define_shapely g.declares.shapely h.awaits h.nodup
      (fun d mem => g.declares.count ▸ h.formed d mem)
      fun b₀ rule body mem => ⟨b₀, rule, body, mem, rfl, rfl⟩
  exact List.foldlRecOn (motive := (Builder.IsShapely · g.IsExit)) g.modes _ defined
    fun _ shapely rules _ => Builder.addMode_shapely shapely rules

end RuleSet

end AdaptiveLL
