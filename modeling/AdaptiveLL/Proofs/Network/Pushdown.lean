import AdaptiveLL.Network.Basic
import Mathlib.Data.Set.Finite.Lattice
import Mathlib.Logic.Relation
import Mathlib.Order.Interval.Finset.Nat
import Mathlib.Order.Preorder.Finite
import Mathlib.Order.WellFounded
/-!
Networks as pushdown automata. A place of the automaton is a state together with the follow
states of the calls that are open there. A move either reads a symbol or is silent; silent
moves cross edges that read nothing, open a call, or go back to the caller.

A network without silent cycles can make only finitely many silent moves in a row, although
its stacks may grow (`acc_silent_of_noSilentCycle`).
-/
namespace AdaptiveLL

/-- A state with the follow states of the open calls, innermost first. -/
abbrev Place := Nat × List Nat

/-- Where an edge leads that is crossed without reading. A call opens a frame. -/
def Transition.silently? (t : Transition) (frames : List Nat) : Option Place :=
  match t with
  | .call target _ _ follow => some (target, follow :: frames)
  | t => if t.isEpsilon then some (t.target, frames) else none

namespace Transition

theorem silently?_eq_map (t : Transition) (frames : List Nat) :
    t.silently? frames = (t.silently? []).map fun p => (p.1, p.2 ++ frames) := by
  cases t <;> rfl

theorem silently?_append {t : Transition} {frames : List Nat} {p : Place}
    (h : t.silently? frames = some p) (below : List Nat) :
    t.silently? (frames ++ below) = some (p.1, p.2 ++ below) := by
  rw [silently?_eq_map, Option.map_eq_some_iff] at h ⊢
  obtain ⟨p₀, h, rfl⟩ := h
  exact ⟨p₀, h, by simp⟩

/-- A state with an edge that reads something is no state with silent edges only. -/
theorem isEpsilonOnly_of_reads {s : State} {t : Transition} {x low high : Symbol}
    (mem : t ∈ s.transitions) (reads : t.reads x low high = true) : s.isEpsilonOnly = false := by
  have silent : t.isEpsilon = false := by cases t <;> simp_all [Transition.reads, isEpsilon]
  simp only [State.isEpsilonOnly, Bool.and_eq_false_iff, List.all_eq_false]
  exact .inr ⟨t, mem, by simp [silent]⟩

end Transition

namespace Network

variable (n : Network)

/-- One move that reads nothing. The end of a rule goes back to the innermost open call; with
no call open it has no move. -/
inductive Silent : Place → Place → Prop where
  | edge {q : Nat} {frames : List Nat} {s : State} {t : Transition} {p : Place}
      (here : n.states[q]? = some s) (inside : s.isRuleStop = false)
      (mem : t ∈ s.transitions) (cross : t.silently? frames = some p) :
      Silent (q, frames) p
  | back {q resume : Nat} {frames : List Nat} {s : State}
      (here : n.states[q]? = some s) (stop : s.isRuleStop = true) :
      Silent (q, resume :: frames) (resume, frames)

/-- One move that reads a symbol. Wildcards and negated sets range from `low` to `high`. The end
of a rule that has a caller goes back to it and reads nothing. -/
inductive Reads (low high : Symbol) (x : Symbol) : Place → Place → Prop where
  | edge {q : Nat} {frames : List Nat} {s : State} {t : Transition}
      (here : n.states[q]? = some s) (inside : s.isRuleStop = true → frames = [])
      (mem : t ∈ s.transitions) (reads : t.reads x low high = true) :
      Reads low high x (q, frames) (t.target, frames)

/-- Moves that read the symbols of a list, one after the other. -/
inductive Run (low high : Symbol) : Place → List Symbol → Place → Prop where
  | refl (p : Place) : Run low high p [] p
  | silent {p p' p'' : Place} {w : List Symbol} (first : n.Silent p p')
      (rest : Run low high p' w p'') : Run low high p w p''
  | read {p p' p'' : Place} {x : Symbol} {w : List Symbol} (first : n.Reads low high x p p')
      (rest : Run low high p' w p'') : Run low high p (x :: w) p''

/-- No state is reached again from itself by silent moves, be it deeper in calls. -/
def NoSilentCycle : Prop :=
  ∀ (q : Nat) (frames : List Nat), ¬ Relation.TransGen n.Silent (q, []) (q, frames)

variable {n}

section Runs

variable {low high x : Symbol} {v w : List Symbol} {p p' p'' : Place}

theorem run_nil : n.Run low high p [] p' ↔ Relation.ReflTransGen n.Silent p p' := by
  constructor
  · intro run
    generalize empty : ([] : List Symbol) = w at run
    induction run with
    | refl => exact .refl
    | silent first _ ih => exact .head first (ih empty)
    | read => cases empty
  · intro path
    induction path using Relation.ReflTransGen.head_induction_on with
    | refl => exact .refl _
    | head first _ ih => exact .silent first ih

theorem run_append :
    n.Run low high p (v ++ w) p'' ↔ ∃ p', n.Run low high p v p' ∧ n.Run low high p' w p'' := by
  constructor
  · intro run
    generalize both : v ++ w = u at run
    induction run generalizing v with
    | refl p =>
        obtain ⟨rfl, rfl⟩ := List.append_eq_nil_iff.1 both
        exact ⟨p, .refl p, .refl p⟩
    | silent first _ ih =>
        obtain ⟨p', before, after⟩ := ih both
        exact ⟨p', .silent first before, after⟩
    | @read p₀ _ _ x u first rest ih =>
        cases v with
        | nil =>
            obtain rfl : w = x :: u := both
            exact ⟨p₀, .refl p₀, .read first rest⟩
        | cons y v =>
            obtain ⟨rfl, behind⟩ := List.cons.inj both
            obtain ⟨p', before, after⟩ := ih behind
            exact ⟨p', .read first before, after⟩
  · rintro ⟨p', before, after⟩
    induction before with
    | refl => exact after
    | silent first _ ih => exact .silent first (ih after)
    | read first _ ih => exact .read first (ih after)

theorem run_singleton : n.Run low high p [x] p'' ↔ ∃ p₁ p₂, Relation.ReflTransGen n.Silent p p₁ ∧
    n.Reads low high x p₁ p₂ ∧ Relation.ReflTransGen n.Silent p₂ p'' := by
  constructor
  · intro run
    generalize one : [x] = w at run
    induction run with
    | refl => cases one
    | silent first _ ih =>
        obtain ⟨p₁, p₂, before, read, after⟩ := ih one
        exact ⟨p₁, p₂, .head first before, read, after⟩
    | read first rest _ =>
        obtain ⟨rfl, rfl⟩ := List.cons.inj one
        exact ⟨_, _, .refl, first, run_nil.1 rest⟩
  · rintro ⟨p₁, p₂, before, read, after⟩
    exact run_append.2 ⟨p₁, run_nil.2 before, .read read (run_nil.2 after)⟩

end Runs

theorem Silent.of_inside {p p' : Place} {s : State} (h : n.Silent p p')
    (here : n.states[p.1]? = some s) (inside : s.isRuleStop = false) :
    ∃ t ∈ s.transitions, t.silently? p.2 = some p' := by
  cases h with
  | edge here' _ mem cross =>
      obtain rfl := Option.some.inj (here.symm.trans here')
      exact ⟨_, mem, cross⟩
  | back here' stop =>
      obtain rfl := Option.some.inj (here.symm.trans here')
      cases inside.symm.trans stop

theorem Silent.of_stop {p p' : Place} {s : State} (h : n.Silent p p')
    (here : n.states[p.1]? = some s) (stop : s.isRuleStop = true) : p.2 = p'.1 :: p'.2 := by
  cases h with
  | edge here' inside =>
      obtain rfl := Option.some.inj (here.symm.trans here')
      cases stop.symm.trans inside
  | back => rfl

theorem Silent.lt_size {p p' : Place} (h : n.Silent p p') : p.1 < n.states.size := by
  cases h with
  | edge here => exact (Array.getElem?_eq_some_iff.1 here).1
  | back here => exact (Array.getElem?_eq_some_iff.1 here).1


/-- A move does not depend on the frames below those that it uses. -/
theorem Silent.append {p p' : Place} (h : n.Silent p p') (below : List Nat) :
    n.Silent (p.1, p.2 ++ below) (p'.1, p'.2 ++ below) := by
  cases h with
  | edge here inside mem cross => exact .edge here inside mem (Transition.silently?_append cross below)
  | back here stop => exact .back here stop

/-- A move that leaves the frames below as they are can be made without them. -/
theorem Silent.strip {q q' : Nat} {frames below frames' : List Nat}
    (h : n.Silent (q, frames ++ below) (q', frames')) (high : below.length ≤ frames'.length) :
    ∃ above, frames' = above ++ below ∧ n.Silent (q, frames) (q', above) := by
  generalize hp : ((q, frames ++ below) : Place) = p at h
  generalize hp' : ((q', frames') : Place) = p' at h
  cases h with
  | @edge _ frames₀ s t _ here inside mem cross =>
      obtain ⟨rfl, rfl⟩ := Prod.mk.inj hp
      subst hp'
      by_cases hc : ∃ target rule precedence follow, t = .call target rule precedence follow
      · obtain ⟨target, rule, precedence, follow, rfl⟩ := hc
        simp only [Transition.silently?, Option.some.injEq, Prod.mk.injEq] at cross
        obtain ⟨rfl, rfl⟩ := cross
        exact ⟨follow :: frames, rfl, .edge here inside mem rfl⟩
      · have cross' : t.isEpsilon = true ∧ (t.target, frames ++ below) = (q', frames') := by
          cases t <;> simp_all [Transition.silently?]
        obtain ⟨eps, eq⟩ := cross'
        obtain ⟨rfl, rfl⟩ := Prod.mk.inj eq
        refine ⟨frames, rfl, .edge here inside mem ?_⟩
        cases t <;> simp_all [Transition.silently?]
  | @back _ resume rest s here stop =>
      obtain ⟨rfl, hf⟩ := Prod.mk.inj hp
      obtain ⟨rfl, rfl⟩ := Prod.mk.inj hp'
      cases frames with
      | nil =>
          have : below.length = frames'.length + 1 := by rw [← List.length_cons, ← hf]; rfl
          omega
      | cons f above =>
          obtain ⟨rfl, rfl⟩ := List.cons.inj hf
          exact ⟨above, rfl, .back here stop⟩

/-- From every point of a sequence on, its stacks are lowest somewhere. -/
private theorem exists_lowest (f : Nat → Place) (i : Nat) :
    ∃ j, i ≤ j ∧ ∀ k, j ≤ k → (f j).2.length ≤ (f k).2.length := by
  obtain ⟨h, ⟨j, hij, rfl⟩, least⟩ :=
    WellFounded.has_min (r := (· < · : Nat → Nat → Prop)) Nat.lt_wfRel.wf
      {h | ∃ j, i ≤ j ∧ (f j).2.length = h} ⟨_, i, le_refl i, rfl⟩
  exact ⟨j, hij, fun k hjk => not_lt.1 (least _ ⟨k, hij.trans hjk, rfl⟩)⟩

/-- Above a point where the stack is lowest, the frames of that point stay untouched. -/
private theorem run_above {f : Nat → Place} (moves : ∀ i, n.Silent (f i) (f (i + 1))) {i : Nat}
    (lowest : ∀ k, i ≤ k → (f i).2.length ≤ (f k).2.length) (k : Nat) :
    ∃ above, (f (i + k)).2 = above ++ (f i).2 ∧
      Relation.ReflTransGen n.Silent ((f i).1, []) ((f (i + k)).1, above) := by
  induction k with
  | zero => exact ⟨[], rfl, .refl⟩
  | succ k ih =>
      obtain ⟨above, eq, run⟩ := ih
      have move : n.Silent ((f (i + k)).1, above ++ (f i).2) ((f (i + k + 1)).1, (f (i + k + 1)).2) := by
        rw [← eq]; exact moves (i + k)
      obtain ⟨above', eq', move'⟩ := move.strip (lowest _ (by omega))
      exact ⟨above', eq', run.tail move'⟩

/-- Without silent cycles every sequence of silent moves ends. If one went on for ever, two of
the points where its stack is lowest would share a state, and the moves between them would be a
cycle. -/
theorem acc_silent_of_noSilentCycle (acyclic : n.NoSilentCycle) (p : Place) :
    Acc (fun p' p => n.Silent p p') p := by
  by_contra hp
  obtain ⟨f, -, moves⟩ := not_acc_iff_exists_descending_chain.1 hp
  let lowest : Set Nat := {i | ∀ k, i ≤ k → (f i).2.length ≤ (f k).2.length}
  have infinite : lowest.Infinite := Set.infinite_of_not_bddAbove fun ⟨bound, hbound⟩ => by
    obtain ⟨j, hj, low⟩ := exists_lowest f (bound + 1)
    have := hbound low
    omega
  have inRange : Set.MapsTo (fun i => (f i).1) lowest (Set.Iio n.states.size) :=
    fun i _ => (moves i).lt_size
  obtain ⟨i, hi, j, -, hne, hstate⟩ :=
    Set.Infinite.exists_lt_map_eq_of_mapsTo infinite inRange (Set.finite_Iio _)
  obtain ⟨k, rfl⟩ : ∃ k, j = i + (k + 1) := ⟨j - i - 1, by omega⟩
  obtain ⟨above, eq, run⟩ := run_above moves hi k
  have last : n.Silent ((f (i + k)).1, above ++ (f i).2) ((f (i + k + 1)).1, (f (i + k + 1)).2) := by
    rw [← eq]; exact moves (i + k)
  obtain ⟨above', -, last'⟩ := last.strip (hi _ (by omega))
  refine acyclic (f i).1 above' (Relation.TransGen.tail' run ?_)
  have hstate : (f i).1 = (f (i + k + 1)).1 := hstate
  rw [hstate]
  exact last'

/-- The weight of frames, given the ranks of the states. -/
def load (rank : Nat → Nat) (frames : List Nat) : Nat :=
  frames.foldr (fun q sum => rank q + sum) 0

/-- The weight of a place: the rank of its state, and its frames. -/
def weight (rank : Nat → Nat) (p : Place) : Nat :=
  rank p.1 + load rank p.2

theorem load_append (rank : Nat → Nat) (frames below : List Nat) :
    load rank (frames ++ below) = load rank frames + load rank below := by
  induction frames with
  | nil => exact (Nat.zero_add _).symm
  | cons q frames ih =>
      simp only [load, List.cons_append, List.foldr_cons] at ih ⊢
      omega

/-- The weight falls with every silent move. -/
def Descends (n : Network) (rank : Nat → Nat) : Prop :=
  ∀ x ∈ n.states.zipIdx, (x.1.isRuleStop = true → 0 < rank x.2) ∧
    (x.1.isRuleStop = false → ∀ t ∈ x.1.transitions, ∀ p ∈ t.silently? [], weight rank p < rank x.2)

instance (n : Network) (rank : Nat → Nat) : Decidable (n.Descends rank) :=
  inferInstanceAs (Decidable (∀ x ∈ n.states.zipIdx, (_ → _) ∧
    (_ → ∀ t ∈ x.1.transitions, ∀ p ∈ t.silently? [], weight rank p < rank x.2)))

/-- A network has no silent cycle if its states can be ranked so that the weight falls. -/
theorem noSilentCycle_of_descends {rank : Nat → Nat} (descends : n.Descends rank) :
    n.NoSilentCycle := by
  have falls {p p' : Place} (move : n.Silent p p') : weight rank p' < weight rank p := by
    cases move with
    | @edge q frames s t p' here inside mem cross =>
        rw [Transition.silently?_eq_map, Option.map_eq_some_iff] at cross
        obtain ⟨p₀, cross, rfl⟩ := cross
        have step := (descends (s, q) (Array.mem_zipIdx_iff_getElem?.2 here)).2 inside t mem p₀ cross
        simp only [weight, load_append] at step ⊢
        omega
    | @back q resume frames s here stop =>
        have : 0 < rank q := (descends (s, q) (Array.mem_zipIdx_iff_getElem?.2 here)).1 stop
        change rank resume + load rank frames < rank q + (rank resume + load rank frames)
        omega
  intro q frames cycle
  have fallsAll : ∀ p, Relation.TransGen n.Silent (q, []) p → weight rank p < rank q := by
    intro p path
    induction path with
    | single move => exact falls move
    | tail _ move ih => exact (falls move).trans ih
  have := fallsAll (q, frames) cycle
  simp only [weight] at this
  omega

end Network

end AdaptiveLL
