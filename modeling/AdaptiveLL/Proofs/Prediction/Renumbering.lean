import AdaptiveLL.Proofs.Prediction.Merge
import Mathlib.Data.List.Forall2
import Mathlib.Logic.Relator
/-!
The numbers of stacks do not matter. Two graphs may number their nodes differently, since they
have come to need them in another order, or since one of them holds nodes that the other never
needed. Nodes that are built alike stand for the same stacks; what is done with a node can be
done with the one that is built alike, and leads to nodes that are built alike again.
-/
namespace AdaptiveLL

open Relator (BiUnique)

namespace StackNode

@[simp] theorem isBranch_ofEntries (es : List (Nat × Nat)) :
    (ofEntries es).isBranch = decide (1 < es.length) := by
  match es with
  | [] => rfl
  | [(parent, resume)] =>
      rw [ofEntries]
      split <;> rfl
  | _ :: _ :: _ => simp [ofEntries, isBranch]

theorem ofEntries_eq_empty {es : List (Nat × Nat)} :
    ofEntries es = empty ↔ es = [] ∨ es = [(0, noState)] := by
  match es with
  | [] => simp [ofEntries]
  | [(parent, resume)] => simp [ofEntries, and_comm]
  | _ :: _ :: _ => simp [ofEntries]

end StackNode

namespace StackGraph

variable {g g' h h' : StackGraph} {id id' id'' a a' b b' : Nat} {es es' : List (Nat × Nat)}

/-- Two ways on that return to the same state, with parents that `R` relates. -/
def Way (R : Nat → Nat → Prop) (e e' : Nat × Nat) : Prop :=
  R e.1 e'.1 ∧ e.2 = e'.2

def Ways (R : Nat → Nat → Prop) : List (Nat × Nat) → List (Nat × Nat) → Prop :=
  List.Forall₂ (Way R)

theorem Ways.imp {R R' : Nat → Nat → Prop} (ways : Ways R es es') (weaker : ∀ a a', R a a' → R' a a') :
    Ways R' es es' :=
  List.Forall₂.imp (fun _ _ ⟨parents, resumes⟩ => ⟨weaker _ _ parents, resumes⟩) ways

/-- Two nodes that are built alike, whatever the numbers. -/
inductive Alike (g g' : StackGraph) : Nat → Nat → Prop
  | empty : Alike g g' 0 0
  | node {id id' : Nat} (some : g.node id ≠ .empty) (some' : g'.node id' ≠ .empty)
      (resumes : (g.node id).entries.map Prod.snd = (g'.node id').entries.map Prod.snd)
      (parents : ∀ (i : Nat) (e e' : Nat × Nat), (g.node id).entries[i]? = .some e →
        (g'.node id').entries[i]? = .some e' → Alike g g' e.1 e'.1) : Alike g g' id id'

namespace Alike

theorem ways (same : g.Alike g' id id') :
    Ways (g.Alike g') (g.node id).entries (g'.node id').entries := by
  cases same with
  | empty => exact .cons ⟨.empty, rfl⟩ .nil
  | node some some' resumes parents =>
      have length : (g.node id).entries.length = (g'.node id').entries.length := by
        simpa using congrArg List.length resumes
      refine List.forall₂_iff_get.2 ⟨length, fun i lt lt' => ?_⟩
      have here := List.getElem?_eq_getElem lt
      have here' := List.getElem?_eq_getElem lt'
      have resume := congrArg (·[i]?) resumes
      simp only [List.getElem?_map, here, here', Option.map_some, Option.some.injEq] at resume
      exact ⟨parents i _ _ here here', resume⟩

theorem of_ways (some : g.node id ≠ .empty) (some' : g'.node id' ≠ .empty)
    (ways : Ways (g.Alike g') (g.node id).entries (g'.node id').entries) : g.Alike g' id id' := by
  refine .node some some' ?_ fun i e e' here here' => ?_
  · rw [← List.forall₂_eq_eq_eq]
    exact List.rel_map (fun _ _ way => way.2) ways
  · obtain ⟨lt, rfl⟩ := List.getElem?_eq_some_iff.1 here
    obtain ⟨lt', rfl⟩ := List.getElem?_eq_some_iff.1 here'
    exact ((List.forall₂_iff_get.1 ways).2 i lt lt').1

theorem present (same : g.Alike g' id id') : g.Present id ∧ g'.Present id' := by
  cases same with
  | empty => exact ⟨present_zero, present_zero⟩
  | node some some' => exact ⟨.inr some, .inr some'⟩

theorem symm (same : g.Alike g' id id') : g'.Alike g id' id := by
  induction same with
  | empty => exact .empty
  | node some some' resumes _ ih =>
      exact .node some' some resumes.symm fun i e e' here here' => ih i e' e here' here

theorem mono (same : g.Alike g' id id') (grown : g.Extends h) (grown' : g'.Extends h') :
    h.Alike h' id id' := by
  induction same with
  | empty => exact .empty
  | node some some' resumes _ ih =>
      have kept := grown.keeps some
      have kept' := grown'.keeps some'
      refine .node (kept ▸ some) (kept' ▸ some') (by rwa [kept, kept']) ?_
      rw [kept, kept']
      exact ih

/-- In a tidy graph, one node only is built like a given one. -/
theorem unique (tidy : g'.Tidy) (same : g.Alike g' id id') (same' : g.Alike g' id id'') :
    id' = id'' := by
  induction same generalizing id'' with
  | empty =>
      cases same' with
      | empty => rfl
      | node some => exact absurd rfl some
  | @node id id' some some' resumes parents ih =>
      have ways := (Alike.node some some' resumes parents).ways
      have equal : (g'.node id').entries = (g'.node id'').entries := by
        obtain ⟨length, each⟩ := List.forall₂_iff_get.1 ways
        obtain ⟨length', each'⟩ := List.forall₂_iff_get.1 same'.ways
        refine List.ext_getElem (length.symm.trans length') fun i lt lt' => ?_
        have inside : i < (g.node id).entries.length := length ▸ lt
        have here := List.getElem?_eq_getElem inside
        have parents := ih i _ _ here (List.getElem?_eq_getElem lt) (each' i inside lt').1
        exact Prod.ext parents ((each i inside lt).2.symm.trans (each' i inside lt').2)
      refine tidy.distinct _ _ ?_ some'
      rw [tidy.built id', equal, ← tidy.built id'']

theorem biUnique (tidy : g.Tidy) (tidy' : g'.Tidy) : BiUnique (g.Alike g') :=
  ⟨fun _ _ _ same same' => same.symm.unique tidy same'.symm, fun _ _ _ => unique tidy'⟩

/-- Nodes with ways on that are alike are built alike. -/
theorem of_is (ways : Ways (g.Alike g') es es') (is : g.Is (StackNode.ofEntries es) id)
    (is' : g'.Is (StackNode.ofEntries es') id') : g.Alike g' id id' := by
  obtain ⟨present, node⟩ := is
  obtain ⟨present', node'⟩ := is'
  by_cases empty : StackNode.ofEntries es = .empty
  · have empty' : StackNode.ofEntries es' = .empty := by
      rcases StackNode.ofEntries_eq_empty.1 empty with rfl | rfl
      · cases ways
        rfl
      · obtain ⟨⟨parent, resume⟩, rest, ⟨same, resumes⟩, none, rfl⟩ := List.forall₂_cons_left_iff.1 ways
        obtain rfl : rest = [] := List.forall₂_nil_left_iff.1 none
        obtain rfl : noState = resume := resumes
        replace same : g.Alike g' 0 parent := same
        cases same with
        | empty => rfl
        | node some => exact absurd rfl some
    rw [present.empty (node.trans empty), present'.empty (node'.trans empty')]
    exact .empty
  · have some : es ≠ [] := fun none => empty (none ▸ rfl)
    have some' : es' ≠ [] := by
      rintro rfl
      exact some (List.forall₂_nil_right_iff.1 ways)
    have empty' : StackNode.ofEntries es' ≠ .empty := by
      intro none
      rcases StackNode.ofEntries_eq_empty.1 none with rfl | rfl
      · exact some' rfl
      · obtain ⟨⟨parent, resume⟩, rest, ⟨same, resumes⟩, none, rfl⟩ := List.forall₂_cons_right_iff.1 ways
        obtain rfl : rest = [] := List.forall₂_nil_right_iff.1 none
        obtain rfl : resume = noState := resumes
        replace same : g.Alike g' parent 0 := same
        cases same with
        | empty => exact empty rfl
        | node _ some => exact absurd rfl some
    refine .of_ways (node ▸ empty) (node' ▸ empty') ?_
    rwa [node, node', StackNode.entries_ofEntries some, StackNode.entries_ofEntries some']

theorem only_way {e : Nat × Nat} (same : g.Alike g' id id') (on : (g.node id).entries = [e]) :
    ∃ e', (g'.node id').entries = [e'] ∧ g.Alike g' e.1 e'.1 ∧ e.2 = e'.2 := by
  have ways := same.ways
  rw [on] at ways
  obtain ⟨e', rest, way, none, on'⟩ := List.forall₂_cons_left_iff.1 ways
  obtain rfl : rest = [] := List.forall₂_nil_left_iff.1 none
  exact ⟨e', on', way⟩

theorem eq_zero_iff (same : g.Alike g' id id') : id = 0 ↔ id' = 0 := by
  cases same with
  | empty => simp
  | node some some' =>
      refine ⟨?_, ?_⟩ <;> rintro rfl
      · exact absurd rfl some
      · exact absurd rfl some'

theorem isBranch (tidy : g.Tidy) (tidy' : g'.Tidy) (same : g.Alike g' id id') :
    (g'.node id').isBranch = (g.node id).isBranch := by
  rw [tidy.built id, tidy'.built id', StackNode.isBranch_ofEntries, StackNode.isBranch_ofEntries,
    same.ways.length_eq]

theorem hasEmptyStack (same : g.Alike g' id id') :
    (g'.node id').hasEmptyStack = (g.node id).hasEmptyStack := by
  have resumes : (g'.node id').entries.map Prod.snd = (g.node id).entries.map Prod.snd := by
    refine List.forall₂_eq_eq_eq ▸ ?_
    exact List.rel_map (fun _ _ ⟨_, resumes⟩ => resumes.symm) same.ways.flip
  rw [StackNode.hasEmptyStack, StackNode.hasEmptyStack, ← List.getLast?_map, resumes,
    List.getLast?_map]

theorem stacksWithin (tidy : g.Tidy) (tidy' : g'.Tidy) (same : g.Alike g' id id')
    {depth depth' : Nat} (deep : id < depth) (deep' : id' < depth') :
    g'.stacksWithin depth' id' = g.stacksWithin depth id := by
  induction depth generalizing id id' depth' with
  | zero => omega
  | succ depth ih =>
      obtain ⟨depth', rfl⟩ : ∃ k, depth' = k + 1 := ⟨depth' - 1, by omega⟩
      rw [StackGraph.stacksWithin, StackGraph.stacksWithin]
      cases same with
      | empty => simp [StackNode.entries]
      | node some some' resumes parents =>
          have same : g.Alike g' id id' := .node some some' resumes parents
          have lt (e) (mem : e ∈ (g.node id).entries) : e.1 < depth :=
            Nat.lt_of_lt_of_le (tidy.older id some e mem).1 (Nat.le_of_lt_succ deep)
          have lt' (e) (mem : e ∈ (g'.node id').entries) : e.1 < depth' :=
            Nat.lt_of_lt_of_le (tidy'.older id' some' e mem).1 (Nat.le_of_lt_succ deep')
          have ways := same.ways
          generalize (g.node id).entries = es at ways lt ⊢
          generalize (g'.node id').entries = es' at ways lt' ⊢
          induction ways with
          | nil => rfl
          | cons head _ rest =>
              obtain ⟨parents, resumes⟩ := head
              simp only [List.flatMap_cons]
              rw [resumes,
                ih parents (lt _ (.head _)) (lt' _ (.head _)),
                rest (fun e mem => lt e (.tail _ mem)) fun e mem => lt' e (.tail _ mem)]

/-- Nodes that are built alike stand for the same stacks. -/
theorem describe (tidy : g.Tidy) (tidy' : g'.Tidy) (same : g.Alike g' id id') :
    g'.describe id' = g.describe id := by
  rw [StackGraph.describe, StackGraph.describe, StackGraph.stackList, StackGraph.stackList,
    same.stacksWithin tidy tidy' (Nat.lt_succ_self _) (Nat.lt_succ_self _)]

end Alike

end StackGraph

namespace Stacks

open StackGraph (Ways)

variable {s s' t t' : Stacks} {wildcard : Bool} {a a' b b' : Nat} {as as' bs bs' : List (Nat × Nat)}

/-- Graphs that are tidy, with memos of merges of the same stacks. -/
structure Alike (s s' : Stacks) : Prop where
  sound : s.Sound false
  sound' : s'.Sound false
  memo : List.Forall₂ (fun m m' => s.graph.Alike s'.graph m.1.1 m'.1.1 ∧
    s.graph.Alike s'.graph m.1.2 m'.1.2 ∧ s.graph.Alike s'.graph m.2 m'.2) s.memo s'.memo

/-- Two results that come of doing the same to stacks that are alike; `P` relates the answers,
given which nodes are built alike now. -/
structure Together {α : Type} (P : (Nat → Nat → Prop) → α → α → Prop) (s s' : Stacks)
    (result result' : α × Stacks) : Prop where
  grown : s.graph.Extends result.2.graph
  grown' : s'.graph.Extends result'.2.graph
  alike : result.2.Alike result'.2
  answer : P (result.2.graph.Alike result'.2.graph) result.1 result'.1

namespace Alike

variable (alike : s.Alike s')

include alike

theorem biUnique : BiUnique (s.graph.Alike s'.graph) :=
  StackGraph.Alike.biUnique alike.sound.tidy alike.sound'.tidy

theorem eq_iff (left : s.graph.Alike s'.graph a a') (right : s.graph.Alike s'.graph b b') :
    a = b ↔ a' = b' :=
  Relator.rel_eq alike.biUnique left right

theorem stay {α : Type} {P : (Nat → Nat → Prop) → α → α → Prop} {x x' : α}
    (answer : P (s.graph.Alike s'.graph) x x') : Together P s s' (x, s) (x', s') :=
  ⟨.refl _, .refl _, alike, answer⟩

/-- The graphs may grow. -/
theorem grow {graph graph' : StackGraph} (grown : s.graph.Extends graph)
    (grown' : s'.graph.Extends graph') (tidy : graph.Tidy) (tidy' : graph'.Tidy) :
    Alike { s with graph } { s' with graph := graph' } where
  sound := alike.sound.grow grown tidy
  sound' := alike.sound'.grow grown' tidy'
  memo := alike.memo.imp fun _ _ ⟨left, right, result⟩ =>
    ⟨left.mono grown grown', right.mono grown grown', result.mono grown grown'⟩

theorem ofEntries (ways : Ways (s.graph.Alike s'.graph) as as') :
    Together (fun R => R) s s' (s.ofEntries as) (s'.ofEntries as') := by
  have known : ∀ e ∈ as, s.graph.Present e.1 := by
    intro e mem
    obtain ⟨i, lt, rfl⟩ := List.getElem_of_mem mem
    exact ((List.forall₂_iff_get.1 ways).2 i lt (ways.length_eq ▸ lt)).1.present.1
  have known' : ∀ e ∈ as', s'.graph.Present e.1 := by
    intro e mem
    obtain ⟨i, lt, rfl⟩ := List.getElem_of_mem mem
    exact ((List.forall₂_iff_get.1 ways).2 i (ways.length_eq ▸ lt) lt).1.present.2
  obtain ⟨grown, sound, is⟩ := alike.sound.ofEntries known
  obtain ⟨grown', sound', is'⟩ := alike.sound'.ofEntries known'
  exact ⟨grown, grown', alike.grow grown grown' sound.tidy sound'.tidy,
    .of_is (ways.imp fun _ _ same => same.mono grown grown') is is'⟩

theorem push (same : s.graph.Alike s'.graph a a') (resume : Nat) :
    Together (fun R => R) s s' (s.push a resume) (s'.push a' resume) := by
  have ways : Ways (s.graph.Alike s'.graph) [(a, resume)] [(a', resume)] := .cons ⟨same, rfl⟩ .nil
  exact alike.ofEntries ways

theorem lookup (left : s.graph.Alike s'.graph a a') (right : s.graph.Alike s'.graph b b') :
    Option.Rel (s.graph.Alike s'.graph) (s.memo.lookup (a, b)) (s'.memo.lookup (a', b')) := by
  have memo := alike.memo
  generalize s.memo = entries, s'.memo = entries' at memo
  induction memo with
  | nil => exact .none
  | @cons m m' ms ms' head _ ih =>
      obtain ⟨⟨c, d⟩, result⟩ := m
      obtain ⟨⟨c', d'⟩, result'⟩ := m'
      obtain ⟨first, second, known⟩ := head
      have keys : ((a, b) == (c, d)) = ((a', b') == (c', d')) := by
        rw [Bool.eq_iff_iff, beq_iff_eq, beq_iff_eq, Prod.mk.injEq, Prod.mk.injEq]
        exact and_congr (alike.eq_iff left first) (alike.eq_iff right second)
      rw [List.lookup_cons, List.lookup_cons, keys]
      cases (a', b') == (c', d')
      · exact ih
      · exact .some known

theorem merged? (left : s.graph.Alike s'.graph a a') (right : s.graph.Alike s'.graph b b') :
    Option.Rel (s.graph.Alike s'.graph) (s.merged? a b) (s'.merged? a' b') := by
  have known := alike.lookup left right
  have known' := alike.lookup right left
  rw [Stacks.merged?, Stacks.merged?]
  generalize s.memo.lookup (a, b) = found, s'.memo.lookup (a', b') = found' at known
  cases known with
  | some known => exact .some known
  | none => exact known'

end Alike

namespace Together

variable {α β : Type} {P : (Nat → Nat → Prop) → α → α → Prop} {Q : (Nat → Nat → Prop) → β → β → Prop}
  {result result' : α × Stacks}

/-- What was alike stays so. -/
theorem same (h : Together P s s' result result') (same : s.graph.Alike s'.graph a a') :
    result.2.graph.Alike result'.2.graph a a' :=
  same.mono h.grown h.grown'

theorem trans {later later' : β × Stacks} (h : Together P s s' result result')
    (h' : Together Q result.2 result'.2 later later') : Together Q s s' later later' :=
  ⟨h.grown.trans h'.grown, h.grown'.trans h'.grown', h'.alike, h'.answer⟩

theorem answers {later : β} {later' : β} (h : Together P s s' result result')
    (answer : Q (result.2.graph.Alike result'.2.graph) later later') :
    Together Q s s' (later, result.2) (later', result'.2) :=
  ⟨h.grown, h.grown', h.alike, answer⟩

theorem remember {result result' : Nat × Stacks} (h : Together (fun R => R) s s' result result')
    (left : s.graph.Alike s'.graph a a') (right : s.graph.Alike s'.graph b b') :
    Together (fun R => R) s s' (Stacks.remember a b result) (Stacks.remember a' b' result') where
  grown := h.grown
  grown' := h.grown'
  answer := h.answer
  alike.sound.tidy := h.alike.sound.tidy
  alike.sound.memo entry mem := by
    rcases List.mem_cons.1 mem with rfl | old
    · exact ⟨(h.same left).present.1, (h.same right).present.1, h.answer.present.1, nofun⟩
    · exact h.alike.sound.memo entry old
  alike.sound'.tidy := h.alike.sound'.tidy
  alike.sound'.memo entry mem := by
    rcases List.mem_cons.1 mem with rfl | old
    · exact ⟨(h.same left).present.2, (h.same right).present.2, h.answer.present.2, nofun⟩
    · exact h.alike.sound'.memo entry old
  alike.memo := .cons ⟨h.same left, h.same right, h.answer⟩ h.alike.memo

end Together

/-- Two merges that do the same to what is alike, on the parents of these ways on. -/
def MergesAlike (merge merge' : Nat → Nat → Stacks → Nat × Stacks) (as as' bs bs' : List (Nat × Nat)) :
    Prop :=
  ∀ ea ∈ as, ∀ ea' ∈ as', ∀ eb ∈ bs, ∀ eb' ∈ bs', ∀ t t' : Stacks, t.Alike t' →
    t.graph.Alike t'.graph ea.1 ea'.1 → t.graph.Alike t'.graph eb.1 eb'.1 →
    Together (fun R => R) t t' (merge ea.1 eb.1 t) (merge' ea'.1 eb'.1 t')

namespace MergesAlike

variable {merge merge' : Nat → Nat → Stacks → Nat × Stacks} {e e' : Nat × Nat}

theorem tail_left (h : MergesAlike merge merge' (e :: as) (e' :: as') bs bs') :
    MergesAlike merge merge' as as' bs bs' :=
  fun ea ma ea' ma' => h ea (.tail _ ma) ea' (.tail _ ma')

theorem tail_right (h : MergesAlike merge merge' as as' (e :: bs) (e' :: bs')) :
    MergesAlike merge merge' as as' bs bs' :=
  fun ea ma ea' ma' eb mb eb' mb' => h ea ma ea' ma' eb (.tail _ mb) eb' (.tail _ mb')

theorem head {d d' : Nat × Nat} (h : MergesAlike merge merge' (e :: as) (e' :: as') (d :: bs) (d' :: bs'))
    (alike : t.Alike t') (left : t.graph.Alike t'.graph e.1 e'.1)
    (right : t.graph.Alike t'.graph d.1 d'.1) :
    Together (fun R => R) t t' (merge e.1 d.1 t) (merge' e'.1 d'.1 t') :=
  h e (.head _) e' (.head _) d (.head _) d' (.head _) t t' alike left right

end MergesAlike

/-- Putting lists together, if merging their parents does the same to what is alike. -/
theorem mergeEntries_together {merge merge' : Nat → Nat → Stacks → Nat × Stacks}
    (alike : s.Alike s') (left : Ways (s.graph.Alike s'.graph) as as')
    (right : Ways (s.graph.Alike s'.graph) bs bs') (merges : MergesAlike merge merge' as as' bs bs') :
    Together Ways s s' (mergeEntries merge as bs s) (mergeEntries merge' as' bs' s') := by
  induction as, bs, s using mergeEntries.induct merge generalizing as' bs' s' with
  | case1 bs s =>
      obtain rfl : as' = [] := List.forall₂_nil_left_iff.1 left
      rw [mergeEntries, mergeEntries]
      exact alike.stay right
  | case2 as s some =>
      obtain rfl : bs' = [] := List.forall₂_nil_left_iff.1 right
      have some' : as' = [] → False := fun none => by
        subst none
        exact some (List.forall₂_nil_right_iff.1 left)
      rw [mergeEntries.eq_2 _ _ _ some, mergeEntries.eq_2 _ _ _ some']
      exact alike.stay left
  | case3 pa as pb resume bs s parent s₁ head rest s₂ tail ih =>
      obtain ⟨⟨pa', ra'⟩, as', ⟨ha, ra⟩, onA, rfl⟩ := List.forall₂_cons_left_iff.1 left
      obtain ⟨⟨pb', rb'⟩, bs', ⟨hb, rb⟩, onB, rfl⟩ := List.forall₂_cons_left_iff.1 right
      obtain rfl : resume = ra' := ra
      obtain rfl : resume = rb' := rb
      rw [dite_eq_ite] at head
      rw [mergeEntries, mergeEntries, if_pos rfl, if_pos rfl, head]
      have merged : Together (fun R => R) s s' (parent, s₁)
          (if pa' = pb' then (pa', s') else merge' pa' pb' s') := by
        rw [← head]
        by_cases same : pa = pb
        · rw [if_pos same, if_pos ((alike.eq_iff ha hb).1 same)]
          exact alike.stay ha
        · rw [if_neg same, if_neg fun same' => same ((alike.eq_iff ha hb).2 same')]
          exact merges.head alike ha hb
      have later := ih merged.alike (Ways.imp onA fun _ _ => merged.same)
        (Ways.imp onB fun _ _ => merged.same) merges.tail_left.tail_right
      exact merged.trans (later.answers (.cons ⟨later.same merged.answer, rfl⟩ later.answer))
  | case4 pa ra as pb rb bs s ne lt rest s₁ tail ih =>
      obtain ⟨⟨pa', ra'⟩, as', ⟨ha, here⟩, onA, rfl⟩ := List.forall₂_cons_left_iff.1 left
      obtain ⟨⟨pb', rb'⟩, bs', ⟨hb, here'⟩, -, rfl⟩ := List.forall₂_cons_left_iff.1 right
      obtain rfl : ra = ra' := here
      obtain rfl : rb = rb' := here'
      rw [mergeEntries, mergeEntries, if_neg ne, if_neg ne, if_pos lt, if_pos lt]
      have later := ih alike onA right merges.tail_left
      exact later.answers (.cons ⟨later.same ha, rfl⟩ later.answer)
  | case5 pa ra as pb rb bs s ne ge rest s₁ tail ih =>
      obtain ⟨⟨pa', ra'⟩, as', ⟨ha, here⟩, -, rfl⟩ := List.forall₂_cons_left_iff.1 left
      obtain ⟨⟨pb', rb'⟩, bs', ⟨hb, here'⟩, onB, rfl⟩ := List.forall₂_cons_left_iff.1 right
      obtain rfl : ra = ra' := here
      obtain rfl : rb = rb' := here'
      rw [mergeEntries, mergeEntries, if_neg ne, if_neg ne, if_neg ge, if_neg ge]
      have later := ih alike left onB merges.tail_right
      exact later.answers (.cons ⟨later.same hb, rfl⟩ later.answer)

/-- Merging with the empty stack. -/
theorem mergeRoot?_together (alike : s.Alike s') (left : s.graph.Alike s'.graph a a')
    (right : s.graph.Alike s'.graph b b') :
    Option.Rel (Together (fun R => R) s s') (s.mergeRoot? wildcard a b)
      (s'.mergeRoot? wildcard a' b') := by
  have some : (a ≠ 0 ∧ b ≠ 0) = (a' ≠ 0 ∧ b' ≠ 0) :=
    propext (and_congr left.eq_zero_iff.not right.eq_zero_iff.not)
  simp only [mergeRoot?, some]
  split
  case isTrue => exact .none
  case isFalse empty =>
      split
      case isTrue => exact .some (alike.stay .empty)
      case isFalse =>
          have other : s.graph.Alike s'.graph (max a b) (max a' b') := by
            have zero := left.eq_zero_iff
            have zero' := right.eq_zero_iff
            by_cases none : a = 0
            · rw [none, zero.1 none, Nat.zero_max, Nat.zero_max]
              exact right
            · have none' : b = 0 := by
                by_contra some'
                exact empty ⟨fun h => none (zero.2 h), fun h => some' (zero'.2 h)⟩
              rw [none', zero'.1 none', Nat.max_zero, Nat.max_zero]
              exact left
          refine .some (alike.ofEntries ?_)
          exact List.rel_append other.ways (.cons ⟨.empty, rfl⟩ .nil)

/-- Merging two nodes with one way on each. -/
theorem mergeFrames_together {merge merge' : Nat → Nat → Stacks → Nat × Stacks}
    {pa pa' pb pb' ra rb : Nat} (alike : s.Alike s') (left : s.graph.Alike s'.graph a a')
    (right : s.graph.Alike s'.graph b b') (ha : s.graph.Alike s'.graph pa pa')
    (hb : s.graph.Alike s'.graph pb pb')
    (merges : Together (fun R => R) s s' (merge pa pb s) (merge' pa' pb' s')) :
    Together (fun R => R) s s' (mergeFrames merge a b (pa, ra) (pb, rb) s)
      (mergeFrames merge' a' b' (pa', ra) (pb', rb) s') := by
  rw [mergeFrames, mergeFrames]
  simp only
  split
  case isTrue =>
      have eq_iff := merges.alike.eq_iff merges.answer (merges.same ha)
      have eq_iff' := merges.alike.eq_iff merges.answer (merges.same hb)
      simp only [eq_iff, eq_iff']
      split
      · exact merges.answers (merges.same left)
      split
      · exact merges.answers (merges.same right)
      · exact (merges.trans (merges.alike.push merges.answer ra)).remember left right
  case isFalse =>
      refine (alike.ofEntries ?_).remember left right
      split
      · exact .cons ⟨ha, rfl⟩ (.cons ⟨hb, rfl⟩ .nil)
      · exact .cons ⟨hb, rfl⟩ (.cons ⟨ha, rfl⟩ .nil)

/-- Nodes that are no branches have one way on each. -/
theorem mergeFrames_of_unbranched {merge merge' : Nat → Nat → Stacks → Nat × Stacks}
    (alike : s.Alike s') (left : s.graph.Alike s'.graph a a') (right : s.graph.Alike s'.graph b b')
    (single : (s.graph.node a).isBranch = false) (single' : (s.graph.node b).isBranch = false)
    (merges : MergesAlike merge merge' (s.graph.node a).entries (s'.graph.node a').entries
      (s.graph.node b).entries (s'.graph.node b').entries) :
    ∃ ea eb ea' eb', (s.graph.node a).entries = [ea] ∧ (s.graph.node b).entries = [eb] ∧
      (s'.graph.node a').entries = [ea'] ∧ (s'.graph.node b').entries = [eb'] ∧
      Together (fun R => R) s s' (mergeFrames merge a b ea eb s) (mergeFrames merge' a' b' ea' eb' s') := by
  obtain ⟨ea, onA⟩ := StackNode.entries_of_unbranched single
  obtain ⟨eb, onB⟩ := StackNode.entries_of_unbranched single'
  obtain ⟨⟨pa', ra'⟩, onA', ha, resume⟩ := left.only_way onA
  obtain ⟨⟨pb', rb'⟩, onB', hb, resume'⟩ := right.only_way onB
  obtain rfl : ea.2 = ra' := resume
  obtain rfl : eb.2 = rb' := resume'
  rw [onA, onA', onB, onB'] at merges
  exact ⟨ea, eb, _, _, onA, onB, onA', onB', mergeFrames_together alike left right ha hb (merges.head alike ha hb)⟩

theorem mergeWithin_together {depth depth' : Nat} (alike : s.Alike s')
    (left : s.graph.Alike s'.graph a a') (right : s.graph.Alike s'.graph b b')
    (deep : a + b < depth) (deep' : a' + b' < depth') :
    Together (fun R => R) s s' (mergeWithin wildcard depth a b s)
      (mergeWithin wildcard depth' a' b' s') := by
  induction depth generalizing a a' b b' s s' depth' with
  | zero => exact absurd deep (Nat.not_lt_zero _)
  | succ depth ih =>
      -- The two depths bound different numbers of nodes; all that counts is that both suffice.
      obtain ⟨depth', rfl⟩ : ∃ k, depth' = k + 1 := ⟨depth' - 1, by omega⟩
      have tidy := alike.sound.tidy
      have tidy' := alike.sound'.tidy
      have parents (different : a ≠ b) : MergesAlike (mergeWithin wildcard depth)
          (mergeWithin wildcard depth') (s.graph.node a).entries (s'.graph.node a').entries
          (s.graph.node b).entries (s'.graph.node b').entries := by
        intro ea ma ea' ma' eb mb eb' mb' t t' alike' ha hb
        have le := tidy.entry_le left.present.1 ma
        have le' := tidy.entry_le right.present.1 mb
        have less := tidy'.entry_le left.present.2 ma'
        have less' := tidy'.entry_le right.present.2 mb'
        have different' : a' ≠ b' := fun same => different ((alike.eq_iff left right).2 same)
        exact ih alike' ha hb (by omega) (by omega)
      simp only [mergeWithin, alike.eq_iff left right, left.isBranch tidy tidy',
        right.isBranch tidy tidy']
      split
      case isTrue => exact alike.stay left
      case isFalse different =>
          have parents := parents fun same => different ((alike.eq_iff left right).1 same)
          have known := alike.merged? left right
          have absorbs : (a == 0 || b == 0) = (a' == 0 || b' == 0) := by
            rw [Bool.eq_iff_iff]
            simp only [Bool.or_eq_true, beq_iff_eq, left.eq_zero_iff, right.eq_zero_iff]
          rw [absorbs]
          split
          case isTrue =>
              split
              case isTrue => exact alike.stay .empty
              case isFalse =>
                  generalize s.merged? a b = found, s'.merged? a' b' = found' at known
                  cases known with
                  | some known => exact alike.stay known
                  | none =>
                      have merged := mergeEntries_together alike left.ways right.ways parents
                      exact (merged.trans (merged.alike.ofEntries merged.answer)).remember left right
          case isFalse unbranched =>
              simp only [Bool.or_eq_true, not_or, Bool.not_eq_true] at unbranched
              generalize s.merged? a b = found, s'.merged? a' b' = found' at known
              cases known with
              | some known => exact alike.stay known
              | none =>
                  have rooted : Option.Rel (Together (fun R => R) s s') (s.mergeRoot? wildcard a b)
                      (s'.mergeRoot? wildcard a' b') := mergeRoot?_together alike left right
                  generalize s.mergeRoot? wildcard a b = root, s'.mergeRoot? wildcard a' b' = root' at rooted
                  cases rooted with
                  | some rooted => exact rooted.remember left right
                  | none =>
                      obtain ⟨ea, eb, ea', eb', onA, onB, onA', onB', merged⟩ :=
                        mergeFrames_of_unbranched alike left right unbranched.1 unbranched.2 parents
                      simp only [onA, onB, onA', onB']
                      exact merged

/-- The union of two sets of stacks. -/
theorem Alike.merge (alike : s.Alike s') (wildcard : Bool) (left : s.graph.Alike s'.graph a a')
    (right : s.graph.Alike s'.graph b b') :
    Together (fun R => R) s s' (s.merge wildcard a b) (s'.merge wildcard a' b') :=
  mergeWithin_together alike left right (Nat.lt_succ_self _) (Nat.lt_succ_self _)

/-- A stack of return states, put on the empty stack one by one. -/
theorem Alike.ofReturns (alike : s.Alike s') (returns : List Nat) :
    let made := s.graph.ofReturns returns
    let made' := s'.graph.ofReturns returns
    Together (fun R => R) s s' (made.1, { s with graph := made.2 })
      (made'.1, { s' with graph := made'.2 }) := by
  suffices ∀ (top top' : Nat) (s s' : Stacks), s.Alike s' → s.graph.Alike s'.graph top top' →
      let push := fun (made : Nat × StackGraph) resume => made.2.push made.1 resume
      let made := returns.foldl push (top, s.graph)
      let made' := returns.foldl push (top', s'.graph)
      Together (fun R => R) s s' (made.1, { s with graph := made.2 })
        (made'.1, { s' with graph := made'.2 }) from this 0 0 s s' alike .empty
  induction returns with
  | nil => exact fun _ _ s s' alike same => alike.stay same
  | cons resume returns ih =>
      intro top top' s s' alike same
      have pushed := alike.push same resume
      exact pushed.trans (ih _ _ _ _ pushed.alike pushed.answer)

end Stacks

end AdaptiveLL
