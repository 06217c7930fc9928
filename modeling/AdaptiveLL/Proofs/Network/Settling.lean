import AdaptiveLL.Proofs.Network.Pushdown
import AdaptiveLL.Proofs.Network.WellFormed
/-!
Moves stay among the states of the network, and there are bounds on what a network without silent
cycles can do. From a place there are finitely many
silent moves, so that finitely many places are reached over a word, and one number bounds the
length of every sequence of silent moves from any of them.
-/
namespace AdaptiveLL.Network

variable {n : Network} {low high x : Symbol} {w : List Symbol} {p p' : Place}

/-- The state and the follow states are states of the network. -/
def InRange (n : Network) (p : Place) : Prop :=
  p.1 < n.states.size ∧ ∀ q ∈ p.2, q < n.states.size

theorem InRange.crossed {q : Nat} {frames : List Nat} {s : State} {t : Transition}
    (wf : n.WellFormed) (h : n.InRange (q, frames)) (here : n.states[q]? = some s)
    (mem : t ∈ s.transitions) (cross : t.silently? frames = some p) : n.InRange p := by
  cases t with
  | call target rule precedence follow =>
      obtain rfl := Option.some.inj cross
      exact ⟨wf.target_lt here mem, List.forall_mem_cons.2 ⟨wf.follow_lt here mem, h.2⟩⟩
  | epsilon | predicate | precedence | action =>
      obtain rfl := Option.some.inj cross
      exact ⟨wf.target_lt here mem, h.2⟩
  | atom | range | set | notSet | wildcard => cases cross

theorem InRange.silent (wf : n.WellFormed) (h : n.InRange p) (move : n.Silent p p') :
    n.InRange p' := by
  cases move with
  | edge here _ mem cross => exact h.crossed wf here mem cross
  | back here stop => exact ⟨h.2 _ (.head _), fun q mem => h.2 q (.tail _ mem)⟩

theorem InRange.reads (wf : n.WellFormed) (h : n.InRange p) (move : n.Reads low high x p p') :
    n.InRange p' := by
  cases move with
  | edge here _ mem _ => exact ⟨wf.target_lt here mem, h.2⟩

theorem InRange.run (wf : n.WellFormed) (h : n.InRange p) (run : n.Run low high p w p') :
    n.InRange p' := by
  induction run with
  | refl => exact h
  | silent first _ ih => exact ih (h.silent wf first)
  | read first _ ih => exact ih (h.reads wf first)

theorem InRange.path (wf : n.WellFormed) (h : n.InRange p)
    (path : Relation.ReflTransGen n.Silent p p') : n.InRange p' :=
  h.run wf (run_nil.2 path : n.Run 0 0 p [] p')

/-- A thread is kept at this place: it can read there, or it has finished. -/
def Keeps (n : Network) (p : Place) : Prop :=
  ∃ s, n.states[p.1]? = some s ∧
    ((s.isRuleStop = true ∧ p.2 = []) ∨ (s.isRuleStop = false ∧ s.isEpsilonOnly = false))

/-- Where a symbol can be read, a thread is kept. -/
theorem Reads.keeps (move : n.Reads low high x p p') : n.Keeps p := by
  cases move with
  | @edge q frames s t here inside mem reads =>
      refine ⟨s, here, ?_⟩
      cases stop : s.isRuleStop with
      | true => exact .inl ⟨rfl, inside stop⟩
      | false => exact .inr ⟨rfl, Transition.isEpsilonOnly_of_reads mem reads⟩

/-- Where silent moves lead to. -/
def silentSteps (n : Network) (p : Place) : List Place :=
  match n.states[p.1]? with
  | none => []
  | some s =>
      if s.isRuleStop then
        match p.2 with
        | [] => []
        | resume :: frames => [(resume, frames)]
      else s.transitions.filterMap (·.silently? p.2)

theorem Silent.mem_silentSteps (h : n.Silent p p') : p' ∈ n.silentSteps p := by
  cases h with
  | edge here inside mem cross =>
      simp only [silentSteps, here, inside, Bool.false_eq_true, if_false]
      exact List.mem_filterMap.2 ⟨_, mem, cross⟩
  | back here stop => simp [silentSteps, here, stop]

/-- Where the edges of a state lead to that read a symbol. -/
def readSteps (n : Network) (p : Place) : List Place :=
  match n.states[p.1]? with
  | none => []
  | some s => s.transitions.map fun t => (t.target, p.2)

theorem Reads.mem_readSteps (h : n.Reads low high x p p') : p' ∈ n.readSteps p := by
  cases h with
  | edge here _ mem _ =>
      simp only [readSteps, here]
      exact List.mem_map.2 ⟨_, mem, rfl⟩

/-- Every sequence of silent moves from the place has at most so many of them. -/
def SettlesWithin (n : Network) : Nat → Place → Prop
  | 0, p => ∀ p', ¬ n.Silent p p'
  | depth + 1, p => ∀ p', n.Silent p p' → SettlesWithin n depth p'

theorem SettlesWithin.mono {d e : Nat} (h : n.SettlesWithin d p) (le : d ≤ e) :
    n.SettlesWithin e p := by
  induction e generalizing d p with
  | zero => exact Nat.le_zero.1 le ▸ h
  | succ e ih =>
      intro p' move
      cases d with
      | zero => exact absurd move (h p')
      | succ d => exact ih (h p' move) (Nat.le_of_succ_le_succ le)

/-- One bound holds for finitely many places. -/
theorem exists_settlesWithin_of_finite {places : Set Place} (finite : places.Finite)
    (each : ∀ p ∈ places, ∃ d, n.SettlesWithin d p) :
    ∃ d, ∀ p ∈ places, n.SettlesWithin d p := by
  induction places, finite using Set.Finite.induction_on with
  | empty => exact ⟨0, fun p hp => hp.elim⟩
  | @insert p places _ _ ih =>
      obtain ⟨d, hd⟩ := ih fun p' hp' => each p' (.inr hp')
      obtain ⟨e, he⟩ := each p (.inl rfl)
      refine ⟨max d e, ?_⟩
      rintro p' (rfl | hp')
      · exact he.mono (le_max_right d e)
      · exact (hd p' hp').mono (le_max_left d e)

theorem exists_settlesWithin (acyclic : n.NoSilentCycle) (p : Place) :
    ∃ d, n.SettlesWithin d p := by
  induction acc_silent_of_noSilentCycle acyclic p with
  | intro p _ ih =>
      obtain ⟨d, hd⟩ := exists_settlesWithin_of_finite
        ((n.silentSteps p).toFinset.finite_toSet.subset fun p' (move : n.Silent p p') =>
          List.mem_toFinset.2 move.mem_silentSteps) ih
      exact ⟨d + 1, hd⟩

theorem finite_silent (acyclic : n.NoSilentCycle) (p : Place) :
    {p' | Relation.ReflTransGen n.Silent p p'}.Finite := by
  induction acc_silent_of_noSilentCycle acyclic p with
  | intro p _ ih =>
      have next : {p' | n.Silent p p'}.Finite :=
        (n.silentSteps p).toFinset.finite_toSet.subset fun p' (move : n.Silent p p') =>
          List.mem_toFinset.2 move.mem_silentSteps
      refine ((Set.finite_singleton p).union (next.biUnion ih)).subset fun p'' path => ?_
      rcases Relation.ReflTransGen.cases_head path with rfl | ⟨p', move, rest⟩
      · exact .inl rfl
      · exact .inr (Set.mem_biUnion (show p' ∈ {p' | n.Silent p p'} from move) rest)

/-- Finitely many places are reached over a word. -/
theorem finite_run (acyclic : n.NoSilentCycle) (low high : Symbol) (p : Place) (w : List Symbol) :
    {p' | n.Run low high p w p'}.Finite := by
  induction w using List.reverseRecOn with
  | nil => simpa only [run_nil] using finite_silent acyclic p
  | append_singleton w x ih =>
      have next (p' : Place) : {p'' | n.Run low high p' [x] p''}.Finite := by
        refine ((finite_silent acyclic p').biUnion fun p₁ _ =>
          (n.readSteps p₁).toFinset.finite_toSet.biUnion fun p₂ _ =>
            finite_silent acyclic p₂).subset fun p'' run => ?_
        obtain ⟨p₁, p₂, before, read, after⟩ := run_singleton.1 run
        exact Set.mem_biUnion before
          (Set.mem_biUnion (List.mem_toFinset.2 read.mem_readSteps) after)
      refine (ih.biUnion fun p' _ => next p').subset fun p'' run => ?_
      obtain ⟨p', before, after⟩ := run_append.1 run
      exact Set.mem_biUnion (show p' ∈ {p' | n.Run low high p w p'} from before) after

/-- One number bounds the silent moves from all places that are reached from a finite set
of places over the prefixes of a word. -/
theorem exists_settlesWithin_of_run (acyclic : n.NoSilentCycle) (low high : Symbol)
    {starts : Set Place} (finite : starts.Finite) (w : List Symbol) :
    ∃ d, ∀ p ∈ starts, ∀ v, v <+: w → ∀ p', n.Run low high p v p' → n.SettlesWithin d p' := by
  have reached : (⋃ p ∈ starts, ⋃ v ∈ {v | v ∈ w.inits}, {p' | n.Run low high p v p'}).Finite :=
    finite.biUnion fun p _ => (List.finite_toSet w.inits).biUnion fun v _ =>
      finite_run acyclic low high p v
  obtain ⟨d, hd⟩ := exists_settlesWithin_of_finite reached fun p _ => exists_settlesWithin acyclic p
  refine ⟨d, fun p hp v hv p' run => hd p' ?_⟩
  exact Set.mem_biUnion hp (Set.mem_biUnion ((List.mem_inits v w).2 hv) run)

end AdaptiveLL.Network
