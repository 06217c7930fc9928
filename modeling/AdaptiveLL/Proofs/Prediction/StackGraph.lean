import AdaptiveLL.Prediction.StackGraph
import Mathlib.Data.List.Basic
/-!
What the nodes of a stack graph stand for. Where no stacks have been merged, a node stands for
one list of return states; different nodes stand for different lists, and pushing a frame keeps
what the older nodes stand for.
-/
namespace AdaptiveLL.StackGraph

variable {g g' g'' : StackGraph} {id id' parent resume : Nat} {frames frames' : List Nat}

@[simp] theorem node_zero (g : StackGraph) : g.node 0 = .empty := rfl

/-- The node stands for this one stack, innermost frame first. -/
inductive Holds (g : StackGraph) : Nat → List Nat → Prop where
  | empty : Holds g 0 []
  | frame {id parent resume : Nat} {frames : List Nat} (node : g.node id = .frame parent resume)
      (isState : resume ≠ noState) (below : Holds g parent frames) :
      Holds g id (resume :: frames)

/-- No two nodes are equal. -/
def Distinct (g : StackGraph) : Prop :=
  ∀ id id' : Nat, g.node id = g.node id' → g.node id ≠ .empty → id = id'

/-- Nodes may be new, but the old ones are what they were. -/
structure Extends (g g' : StackGraph) : Prop where
  keeps : ∀ {id : Nat}, g.node id ≠ .empty → g'.node id = g.node id
  distinct : g.Distinct → g'.Distinct

namespace Extends

theorem refl (g : StackGraph) : g.Extends g :=
  ⟨fun _ => rfl, id⟩

theorem trans (h : g.Extends g') (h' : g'.Extends g'') : g.Extends g'' := by
  refine ⟨fun {id} present => ?_, fun d => h'.distinct (h.distinct d)⟩
  have kept := h.keeps present
  exact (h'.keeps (kept ▸ present)).trans kept

theorem holds (h : g.Extends g') (stack : g.Holds id frames) : g'.Holds id frames := by
  induction stack with
  | empty => exact .empty
  | frame node isState _ ih =>
      have present : g.node _ ≠ .empty := fun empty => by cases node.symm.trans empty
      exact .frame ((h.keeps present).trans node) isState ih

end Extends

theorem holds_zero : g.Holds 0 frames ↔ frames = [] := by
  constructor
  · intro h
    cases h with
    | empty => rfl
    | frame node => cases node
  · rintro rfl
    exact .empty

/-- A node stands for one stack only. -/
theorem Holds.unique (h : g.Holds id frames) (h' : g.Holds id frames') : frames = frames' := by
  induction h generalizing frames' with
  | empty => exact (holds_zero.1 h').symm
  | frame node _ _ ih =>
      cases h' with
      | empty => cases node
      | frame node' _ below' =>
          obtain ⟨rfl, rfl⟩ := StackNode.frame.inj (node.symm.trans node')
          rw [ih below']

/-- A stack has one node only. -/
theorem Holds.injective (distinct : g.Distinct) (h : g.Holds id frames)
    (h' : g.Holds id' frames) : id = id' := by
  induction h generalizing id' with
  | empty =>
      generalize none : ([] : List Nat) = frames at h'
      cases h' with
      | empty => rfl
      | frame => cases none
  | frame node _ _ ih =>
      generalize some : (_ :: _ : List Nat) = frames at h'
      cases h' with
      | empty => cases some
      | frame node' _ below' =>
          obtain ⟨rfl, rfl⟩ := List.cons.inj some
          obtain rfl := ih below'
          exact distinct _ _ (node.trans node'.symm) fun empty => by cases node.symm.trans empty

theorem Holds.eq_zero (h : g.Holds id []) : id = 0 := by
  cases h
  rfl

/-- The node of a frame: it has one way on, and no empty stack. -/
theorem Holds.node_cons (h : g.Holds id (resume :: frames)) :
    id ≠ 0 ∧ resume ≠ noState ∧ ∃ parent, g.node id = .frame parent resume ∧
      g.Holds parent frames := by
  cases h with
  | frame node isState below =>
      refine ⟨?_, isState, _, node, below⟩
      rintro rfl
      cases node

theorem node_push (nodes : Array StackNode) (new : StackNode) (id : Nat) :
    node ⟨nodes.push new⟩ id = if id = nodes.size + 1 then new else node ⟨nodes⟩ id := by
  cases id with
  | zero => rfl
  | succ k =>
      simp only [node, Array.getElem?_push, Nat.add_right_cancel_iff]
      split <;> rfl

/-- Interning a node keeps the others and answers a number of it. -/
theorem intern_spec {new : StackNode} (present : new ≠ .empty) :
    (g.intern new).2.node (g.intern new).1 = new ∧ g.Extends (g.intern new).2 := by
  unfold intern
  rw [if_neg present]
  split
  case h_1 k found =>
      obtain ⟨hk, eq, -⟩ := Array.findIdx?_eq_some_iff_getElem.1 found
      refine ⟨?_, .refl g⟩
      simpa [node, hk] using eq
  case h_2 missing =>
      have fresh (id : Nat) : g.node id ≠ new := by
        cases id with
        | zero => exact present.symm
        | succ k =>
            intro eq
            cases hk : g.nodes[k]? with
            | none => exact present (by rw [← eq, node, hk]; rfl)
            | some found =>
                have := Array.findIdx?_eq_none_iff.1 missing found (Array.mem_of_getElem? hk)
                simp_all [node]
      refine ⟨by rw [node_push, if_pos rfl], fun {id} old => ?_, fun distinct id id' eq old => ?_⟩
      · rw [node_push, if_neg]
        rintro rfl
        exact old (by simp [node])
      · simp only [node_push] at eq old
        split at eq <;> split at eq
        case isTrue.isTrue h h' => exact h.trans h'.symm
        case isTrue.isFalse => exact absurd eq.symm (fresh id')
        case isFalse.isTrue => exact absurd eq (fresh id)
        case isFalse.isFalse hne _ =>
            rw [if_neg hne] at old
            exact distinct _ _ eq old

/-- Pushing forgets nothing, whatever is pushed. -/
theorem extends_push (g : StackGraph) (parent resume : Nat) :
    g.Extends (g.push parent resume).2 := by
  unfold push
  split
  · exact .refl g
  · exact (intern_spec StackNode.noConfusion).2

theorem push_spec (isState : resume ≠ noState) (stack : g.Holds parent frames) :
    (g.push parent resume).2.Holds (g.push parent resume).1 (resume :: frames) ∧
      g.Extends (g.push parent resume).2 := by
  have noCollapse : ¬ (resume = noState ∧ parent = 0) := fun h => isState h.1
  have frame : StackNode.frame parent resume ≠ .empty := StackNode.noConfusion
  obtain ⟨node, grown⟩ := intern_spec (g := g) frame
  rw [push, if_neg noCollapse]
  exact ⟨.frame node isState (grown.holds stack), grown⟩

/-- Frames are put on the stack one on top of the other. -/
theorem holds_ofReturns (g : StackGraph) {returns : List Nat} (states : ∀ r ∈ returns, r ≠ noState) :
    (g.ofReturns returns).2.Holds (g.ofReturns returns).1 returns.reverse := by
  suffices ∀ (top : Nat) (g : StackGraph) (frames : List Nat), g.Holds top frames →
      let made := returns.foldl (fun made resume => made.2.push made.1 resume) (top, g)
      made.2.Holds made.1 (returns.reverse ++ frames) by
    simpa [ofReturns] using this 0 g [] (holds_zero.2 rfl)
  induction returns with
  | nil => exact fun _ _ _ stack => stack
  | cons resume returns ih =>
      intro top g frames stack
      obtain ⟨isState, states⟩ := List.forall_mem_cons.1 states
      obtain ⟨pushed, -⟩ := push_spec isState stack
      rw [List.reverse_cons, List.append_assoc]
      exact ih states _ _ _ pushed

end AdaptiveLL.StackGraph
