import AdaptiveLL.Network.Ebnf
import Mathlib.Data.List.Basic
/-!
What each combinator does to a network under construction, all at once: it joins the exits of the
fragments that it is given to other states, by one plain edge each, and it adds states that have
all their edges. The states are listed for each combinator.
-/
namespace AdaptiveLL

/-- A state with the plain edges that links add to it. -/
def StatePlan.joined (s : StatePlan) (links : List (Nat × Nat)) (q : Nat) : StatePlan :=
  { s with transitions := s.transitions ++ (links.filter (·.1 == q)).map fun l => .plain l.2 }

namespace StatePlan

@[simp]
theorem joined_nil (s : StatePlan) (q : Nat) : s.joined [] q = s := by
  simp [joined]

theorem joined_append (s : StatePlan) (links more : List (Nat × Nat)) (q : Nat) :
    s.joined (links ++ more) q = (s.joined links q).joined more q := by
  simp [joined]

end StatePlan

namespace Builder

/-- The old states are linked, the new ones are put behind them, and the marked states become
decisions. -/
structure Joins (b b' : Builder) (links : List (Nat × Nat)) (new : List StatePlan)
    (marks : List Nat) : Prop where
  size : b'.states.size = b.states.size + new.length
  old : ∀ q < b.states.size, b'.states[q]? = b.states[q]?.map (·.joined links q)
  new : ∀ i, b'.states[b.states.size + i]? = new[i]?
  decisions : b'.decisions.toList = b.decisions.toList ++ marks
  kind : b'.kind = b.kind
  currentRule : b'.currentRule = b.currentRule
  ruleStarts : b'.ruleStarts = b.ruleStarts
  modes : b'.modes = b.modes

namespace Joins

variable {b b' : Builder} {links : List (Nat × Nat)} {new : List StatePlan} {marks : List Nat}
  {q target : Nat}

theorem refl (b : Builder) : Joins b b [] [] [] where
  size := rfl
  old q lt := by simp
  new i := by simp
  decisions := by simp
  kind := rfl
  currentRule := rfl
  ruleStarts := rfl
  modes := rfl

/-- A state is put behind the new ones. -/
theorem newState {b'' : Builder} (h : Joins b b' links new marks) (i : Nat) (count : new.length = i)
    {kind : StateKind} (makes : b'.newState kind = (q, b'')) : q = b.states.size + i ∧
      Joins b b'' links (new ++ [{ rule := b.currentRule, kind }]) marks := by
  cases makes
  refine ⟨count ▸ h.size, ?_⟩
  constructor
  case size => simp [h.size, Nat.add_assoc]
  case old =>
    intro q lt
    have other : q ≠ b'.states.size := by rw [h.size]; omega
    simp only [Array.getElem?_push, if_neg other, h.old q lt]
  case new =>
    intro j
    simp only [Array.getElem?_push, h.size, Nat.add_left_cancel_iff, h.new, h.currentRule,
      List.getElem?_append]
    split
    case isTrue last => simp [last]
    case isFalse other =>
        split
        case isTrue => rfl
        case isFalse beyond =>
            rw [List.getElem?_eq_none (by omega), List.getElem?_eq_none (by simp; omega)]
  case decisions => exact h.decisions
  case kind => exact h.kind
  case currentRule => exact h.currentRule
  case ruleStarts => exact h.ruleStarts
  case modes => exact h.modes

/-- A new state is changed. -/
theorem modify (h : Joins b b' links new marks) (i : Nat) (f : StatePlan → StatePlan) :
    Joins b { b' with states := b'.states.modify (b.states.size + i) f } links (new.modify i f)
      marks where
  size := by simp [h.size]
  old q' lt := by
    rw [Array.getElem?_modify, if_neg (by omega), h.old q' lt]
  new j := by
    simp only [Array.getElem?_modify, List.getElem?_modify, h.new, Nat.add_left_cancel_iff]
    split <;> simp
  decisions := h.decisions
  kind := h.kind
  currentRule := h.currentRule
  ruleStarts := h.ruleStarts
  modes := h.modes

theorem addTransition (h : Joins b b' links new marks) (i : Nat) (t : Transition) :
    Joins b (b'.addTransition (b.states.size + i) t) links
      (new.modify i fun s => { s with transitions := s.transitions ++ [t] }) marks :=
  h.modify i _

theorem setNonGreedy (h : Joins b b' links new marks) (i : Nat) (nonGreedy : Bool) :
    Joins b (b'.setNonGreedy (b.states.size + i) nonGreedy) links
      (new.modify i fun s => { s with nonGreedy }) marks :=
  h.modify i _

/-- An old state is linked. -/
theorem addPlain (h : Joins b b' links new marks) (lt : q < b.states.size) (target : Nat) :
    Joins b (b'.addPlain q target) (links ++ [(q, target)]) new marks where
  size := by simp [Builder.addPlain, Builder.addTransition, h.size]
  old q' lt' := by
    simp only [Builder.addPlain, Builder.addTransition, Array.getElem?_modify, h.old q' lt',
      StatePlan.joined_append]
    by_cases same : q = q'
    · simp [same, StatePlan.joined, Function.comp_def]
    · simp [same, StatePlan.joined]
  new i := by
    have other : q ≠ b.states.size + i := by omega
    simp only [Builder.addPlain, Builder.addTransition, Array.getElem?_modify, if_neg other, h.new]
  decisions := h.decisions
  kind := h.kind
  currentRule := h.currentRule
  ruleStarts := h.ruleStarts
  modes := h.modes

theorem addDecision (h : Joins b b' links new marks) (q : Nat) :
    Joins b (b'.addDecision q) links new (marks ++ [q]) where
  size := h.size
  old := h.old
  new := h.new
  decisions := by simp [Builder.addDecision, h.decisions]
  kind := h.kind
  currentRule := h.currentRule
  ruleStarts := h.ruleStarts
  modes := h.modes

/-- A block leads from a new state into fragments and from each of them to its end. -/
theorem block (h : Joins b b' links new marks) (i stop : Nat) {alts : List Fragment}
    (old : ∀ f ∈ alts, f.exit < b.states.size) :
    Joins b (b'.block (b.states.size + i) stop alts) (links ++ alts.map fun f => (f.exit, stop))
      (new.modify i fun s =>
        { s with transitions := s.transitions ++ (alts.map Fragment.entry).map .plain }) marks := by
  induction alts generalizing b' links new with
  | nil =>
      have unchanged : new.modify i (fun s : StatePlan =>
          { s with transitions := s.transitions ++ ([].map Fragment.entry).map .plain }) = new := by
        refine List.ext_getElem? fun j => ?_
        rw [List.getElem?_modify]
        split <;> simp
      rw [unchanged, List.map_nil, List.append_nil]
      exact h
  | cons f rest ih =>
      have into := h.addTransition i (.plain f.entry)
      have out := into.addPlain (old f (.head _)) stop
      have others := ih out fun g mem => old g (.tail _ mem)
      simpa [Builder.block, Builder.addPlain, List.modify_modify_eq, Function.comp_def] using others

end Joins

/-- A state that is built for the current rule. -/
def plan (b : Builder) (kind : StateKind) (transitions : List Transition) (nonGreedy : Bool) :
    StatePlan where
  rule := b.currentRule
  kind
  nonGreedy
  transitions

variable {b : Builder} {alts : List Fragment}

variable {b₁ : Builder} {start stop : Nat}

theorem openBlock_joins {shape : BlockShape} {decides : Bool}
    (opens : b.openBlock shape decides = (start, stop, b₁)) :
    start = b.states.size + 1 ∧ stop = b.states.size ∧
      Joins b b₁ [] [b.plan .blockEnd [] false, b.plan (.blockStart shape b.states.size) [] false]
        (if decides then [b.states.size + 1] else []) := by
  rcases ends : b.newState .blockEnd with ⟨last, b₂⟩
  obtain ⟨rfl, ended⟩ := (Joins.refl b).newState 0 rfl ends
  rcases starts : b₂.newState (.blockStart shape b.states.size) with ⟨first, b₃⟩
  obtain ⟨rfl, started⟩ := ended.newState 1 rfl starts
  simp only [openBlock, ends, starts, Nat.add_zero] at opens
  cases decides with
  | false =>
      cases opens
      exact ⟨rfl, rfl, started⟩
  | true =>
      cases opens
      exact ⟨rfl, rfl, started.addDecision _⟩

/-- A choice among no fragments or several. -/
theorem alternatives_joins (several : alts.length ≠ 1) (old : ∀ f ∈ alts, f.exit < b.states.size) :
    (b.alternatives alts).1 = ⟨b.states.size + 1, b.states.size⟩ ∧
      Joins b (b.alternatives alts).2 (alts.map fun f => (f.exit, b.states.size))
        [b.plan .blockEnd [] false,
          b.plan (.blockStart .choice b.states.size) ((alts.map Fragment.entry).map .plain) false]
        (if 1 < alts.length then [b.states.size + 1] else []) := by
  unfold alternatives
  split
  case h_1 => simp at several
  case h_2 =>
      rcases opens : b.openBlock .choice (1 < alts.length) with ⟨start, stop, b₁⟩
      obtain ⟨rfl, rfl, opened⟩ := openBlock_joins opens
      have blocked := opened.block 1 b.states.size old
      exact ⟨rfl, by simpa [plan] using blocked⟩

theorem optional_joins (greedy : Bool) (old : ∀ f ∈ alts, f.exit < b.states.size) :
    (b.optional greedy alts).1 = ⟨b.states.size + 1, b.states.size⟩ ∧
      Joins b (b.optional greedy alts).2 (alts.map fun f => (f.exit, b.states.size))
        [b.plan .blockEnd [] false,
          b.plan (.blockStart .choice b.states.size)
            ((if greedy then alts.map Fragment.entry ++ [b.states.size]
              else b.states.size :: alts.map Fragment.entry).map .plain) (!greedy)]
        [b.states.size + 1] := by
  rcases opens : b.openBlock .choice true with ⟨start, stop, b₁⟩
  obtain ⟨rfl, rfl, opened⟩ := openBlock_joins opens
  have blocked := opened.block 1 b.states.size old
  have bypassed := blocked.modify 1 (fun s => { s with
    nonGreedy := !greedy
    transitions := if greedy then s.transitions ++ [.plain b.states.size]
      else .plain b.states.size :: s.transitions })
  simp only [optional, opens]
  cases greedy <;> exact ⟨trivial, by simpa [plan] using bypassed⟩

/-- The targets of a loop decision, in the order of its greediness. -/
def branches (greedy : Bool) (again leave : Nat) : List Nat :=
  if greedy then [again, leave] else [leave, again]

theorem mem_branches {greedy : Bool} {again leave q : Nat} :
    q ∈ branches greedy again leave ↔ q = again ∨ q = leave := by
  cases greedy <;> simp [branches, or_comm]

theorem Joins.addBranches {b' : Builder} {links : List (Nat × Nat)} {new : List StatePlan}
    {marks : List Nat} (h : Joins b b' links new marks) (i : Nat) (greedy : Bool)
    (again leave : Nat) : Joins b (b'.addBranches (b.states.size + i) greedy again leave) links
      (new.modify i fun s =>
        { s with transitions := s.transitions ++ (branches greedy again leave).map .plain })
      marks := by
  have both (x y : Nat) := (h.addTransition i (.plain x)).addTransition i (.plain y)
  cases greedy with
  | true =>
      simpa [Builder.addBranches, branches, Builder.addPlain, List.modify_modify_eq,
        Function.comp_def] using both again leave
  | false =>
      simpa [Builder.addBranches, branches, Builder.addPlain, List.modify_modify_eq,
        Function.comp_def] using both leave again

theorem star_joins (greedy : Bool) (old : ∀ f ∈ alts, f.exit < b.states.size) :
    (b.star greedy alts).1 = ⟨b.states.size + 3, b.states.size + 4⟩ ∧
      Joins b (b.star greedy alts).2 (alts.map fun f => (f.exit, b.states.size))
        [b.plan .blockEnd [.plain (b.states.size + 2)] false,
          b.plan (.blockStart .star b.states.size) ((alts.map Fragment.entry).map .plain) false,
          b.plan .starLoopBack [.plain (b.states.size + 3)] false,
          b.plan .starLoopEntry
            ((branches greedy (b.states.size + 1) (b.states.size + 4)).map .plain) (!greedy),
          b.plan (.loopEnd (b.states.size + 2)) [] false]
        ((if 1 < alts.length then [b.states.size + 1] else []) ++ [b.states.size + 3]) := by
  rcases opens : b.openBlock .star (1 < alts.length) with ⟨start, stop, b₁⟩
  obtain ⟨rfl, rfl, opened⟩ := openBlock_joins opens
  have blocked := opened.block 1 b.states.size old
  rcases loops : (b₁.block (b.states.size + 1) b.states.size alts).newState .starLoopBack
    with ⟨back, b₂⟩
  obtain ⟨rfl, looped⟩ := blocked.newState 2 rfl loops
  rcases enters : b₂.newState .starLoopEntry with ⟨entry, b₃⟩
  obtain ⟨rfl, entered⟩ := looped.newState 3 rfl enters
  have numbered := (entered.setNonGreedy 3 !greedy).addDecision (b.states.size + 3)
  rcases exits : ((b₃.setNonGreedy (b.states.size + 3) !greedy).addDecision
    (b.states.size + 3)).newState (.loopEnd (b.states.size + 2)) with ⟨exit, b₄⟩
  obtain ⟨rfl, exited⟩ := numbered.newState 4 rfl exits
  have branched := exited.addBranches 3 greedy (b.states.size + 1) (b.states.size + 4)
  have back := branched.addTransition 0 (.plain (b.states.size + 2))
  have again := back.addTransition 2 (.plain (b.states.size + 3))
  simp only [star, opens, loops, enters, exits]
  exact ⟨trivial, by simpa [plan, addPlain] using again⟩

theorem plus_joins (greedy : Bool) (old : ∀ f ∈ alts, f.exit < b.states.size) :
    (b.plus greedy alts).1 = ⟨b.states.size + 1, b.states.size + 3⟩ ∧
      Joins b (b.plus greedy alts).2 (alts.map fun f => (f.exit, b.states.size))
        [b.plan .blockEnd [.plain (b.states.size + 2)] false,
          b.plan (.blockStart .plus b.states.size) ((alts.map Fragment.entry).map .plain) false,
          b.plan .plusLoopBack
            ((branches greedy (b.states.size + 1) (b.states.size + 3)).map .plain) (!greedy),
          b.plan (.loopEnd (b.states.size + 2)) [] false]
        ((if 1 < alts.length then [b.states.size + 1] else []) ++ [b.states.size + 2]) := by
  rcases opens : b.openBlock .plus (1 < alts.length) with ⟨start, stop, b₁⟩
  obtain ⟨rfl, rfl, opened⟩ := openBlock_joins opens
  have blocked := opened.block 1 b.states.size old
  rcases loops : (b₁.block (b.states.size + 1) b.states.size alts).newState .plusLoopBack
    with ⟨back, b₂⟩
  obtain ⟨rfl, looped⟩ := blocked.newState 2 rfl loops
  have numbered := (looped.setNonGreedy 2 !greedy).addDecision (b.states.size + 2)
  rcases exits : ((b₂.setNonGreedy (b.states.size + 2) !greedy).addDecision
    (b.states.size + 2)).newState (.loopEnd (b.states.size + 2)) with ⟨exit, b₃⟩
  obtain ⟨rfl, exited⟩ := numbered.newState 3 rfl exits
  have back := exited.addTransition 0 (.plain (b.states.size + 2))
  have branched := back.addBranches 2 greedy (b.states.size + 1) (b.states.size + 3)
  simp only [plus, opens, loops, exits]
  exact ⟨trivial, by simpa [plan, addPlain] using branched⟩

/-- Two states that are joined by an edge. -/
theorem joined_joins (b : Builder) (t : Nat → Transition) {entry exit : Nat} {b₁ b₂ : Builder}
    (first : b.newState .basic = (entry, b₁)) (second : b₁.newState .basic = (exit, b₂)) :
    entry = b.states.size ∧ exit = b.states.size + 1 ∧
      Joins b (b₂.addTransition entry (t exit)) []
        [b.plan .basic [t (b.states.size + 1)] false, b.plan .basic [] false] [] := by
  obtain ⟨rfl, entered⟩ := (Joins.refl b).newState 0 rfl first
  obtain ⟨rfl, exited⟩ := entered.newState 1 rfl second
  exact ⟨rfl, rfl, exited.addTransition 0 _⟩

theorem edge_joins (b : Builder) (t : Transition) :
    (b.edge t).1 = ⟨b.states.size, b.states.size + 1⟩ ∧ Joins b (b.edge t).2 []
      [b.plan .basic [t.retarget (b.states.size + 1)] false, b.plan .basic [] false] [] := by
  obtain ⟨entry, exit, joined⟩ := b.joined_joins (t.retarget ·) rfl rfl
  exact ⟨by rw [edge]; exact congrArg₂ _ entry exit, joined⟩

theorem empty_joins (b : Builder) :
    b.empty.1 = ⟨b.states.size, b.states.size + 1⟩ ∧ Joins b b.empty.2 []
      [b.plan .basic [.plain (b.states.size + 1)] false, b.plan .basic [] false] [] := by
  obtain ⟨entry, exit, joined⟩ := b.joined_joins .plain rfl rfl
  exact ⟨by rw [empty]; exact congrArg₂ _ entry exit, joined⟩

theorem ref_joins (b : Builder) (rule : Nat) (precedence : Int) :
    (b.ref rule precedence).1 = ⟨b.states.size, b.states.size + 1⟩ ∧
      Joins b (b.ref rule precedence).2 []
        [b.plan .basic [.call (b.ruleStarts[rule]?.getD noState) rule precedence
          (b.states.size + 1)] false, b.plan .basic [] false] [] := by
  obtain ⟨entry, exit, joined⟩ :=
    b.joined_joins (.call (b.ruleStarts[rule]?.getD noState) rule precedence) rfl rfl
  exact ⟨by rw [ref]; exact congrArg₂ _ entry exit, joined⟩

/-- The exits of a row of fragments with the entries that they are joined to. -/
def chainLinks (exit : Nat) : List Fragment → List (Nat × Nat)
  | [] => []
  | f :: rest => (exit, f.entry) :: chainLinks f.exit rest

theorem chain_joins {b' : Builder} {links : List (Nat × Nat)} {new : List StatePlan}
    {marks : List Nat} (h : Joins b b' links new marks) (exit : Nat) (fs : List Fragment)
    (old : exit < b.states.size ∧ ∀ f ∈ fs, f.exit < b.states.size) :
    (b'.chain exit fs).1 = (exit :: fs.map Fragment.exit).getLast (by simp) ∧
      Joins b (b'.chain exit fs).2 (links ++ chainLinks exit fs) new marks := by
  induction fs generalizing b' links exit with
  | nil => exact ⟨rfl, by simpa [chain, chainLinks] using h⟩
  | cons f rest ih =>
      have linked := h.addPlain old.1 f.entry
      obtain ⟨last, joined⟩ := ih linked f.exit (List.forall_mem_cons.1 old.2)
      exact ⟨by simpa [chain] using last, by simpa [chain, chainLinks] using joined⟩

end Builder

end AdaptiveLL
