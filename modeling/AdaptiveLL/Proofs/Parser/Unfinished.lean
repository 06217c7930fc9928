import AdaptiveLL.Proofs.Parser.Frames
import AdaptiveLL.Proofs.Tree.Layout
/-!
Layouts of trees that are being built. The new nodes of such a tree are complete or the contexts of
the active calls. A context begins with its first token, which is the next one of the input as long
as the call has none; and the leaves of the contexts, from the outermost inwards, are all new leaves.
-/
namespace AdaptiveLL

open AdaptiveLL.Layout (Covers)

namespace Network

/-- Only edges for this one type read the end of the input. -/
def EndsPlainly (n : Network) : Prop :=
  ∀ s ∈ n.states, ∀ t ∈ s.transitions, ∀ accept ∈ t.accepts? n.maxToken,
    accept Symbol.eof = true → t = .atom t.target Symbol.eof

instance (n : Network) : Decidable n.EndsPlainly :=
  inferInstanceAs (Decidable (∀ s ∈ n.states, ∀ t ∈ s.transitions, ∀ accept ∈ t.accepts? n.maxToken,
    accept Symbol.eof = true → t = .atom t.target Symbol.eof))

/-- The end of the input may be overlooked when the rule is left. -/
def Overlooks (n : Network) (rule : Nat) : Prop :=
  n.isLeftRecursiveRule rule = true ∨ ¬ n.EndsPlainly

end Network

/-- A call of the rule that has these leaves is noted to stop with the last one, unless that is the
end of the input and has been overlooked. A left-recursive rule always overlooks it. -/
structure StopsBehind (n : Network) (rule : Nat) (stop : Option Token) (leaves : List Leaf) :
    Prop where
  last : ∀ l ∈ leaves.getLast?, stop = some l.token ∨ l.token.isEof = true ∧ n.Overlooks rule
  early : n.isLeftRecursiveRule rule = true → ∀ l ∈ leaves.getLast?, l.token.isEof = true →
    ∀ t ∈ stop, t.index ≠ l.token.index

theorem StopsBehind.of_append {n : Network} {rule : Nat} {stop : Option Token}
    {before leaves : List Leaf} (h : StopsBehind n rule stop (before ++ leaves)) :
    StopsBehind n rule stop leaves := by
  have still {l : Leaf} (last : l ∈ leaves.getLast?) : l ∈ (before ++ leaves).getLast? := by
    rw [List.getLast?_append, last]
    rfl
  refine ⟨fun l last => h.last l (still last), fun recursive l last => ?_⟩
  exact h.early recursive l (still last)

variable {n : Network} {v v' : View} {e e' : Layout} {c new : NodeId} {cs attached : List NodeId}
  {ls all : List Leaf} {f g : Frame} {fs rest : List Frame} {next next' stop : Option Token}
  {first : Nat}

/-- The node is complete, with these leaves, and what is noted of it is about them. -/
inductive Lies (n : Network) (v : View) (e : Layout) (c : NodeId) : List Leaf → Prop
  | leaf {l : Leaf} (here : v.face c = some (.leaf l)) (index : l.token.index ≠ none) :
      Lies n v e c [l]
  | rule {rule : Nat} {cs : List NodeId} {ls : List Leaf} {x : Notes}
      (here : v.face c = some (.rule rule cs)) (noted : v.notes c = some x)
      (children : e.Covers cs ls) (start : ∀ l ∈ ls.head?, x.start = some l.token)
      (stops : StopsBehind n rule x.stop ls) : Lies n v e c ls

theorem Lies.face (h : Lies n v e c ls) : v.face c ≠ none := by
  cases h with
  | leaf here | rule here => simp [here]

theorem Lies.congr (h : Lies n v e c ls) (same : v.Agrees v' c) (more : e.Extends e') :
    Lies n v' e' c ls := by
  cases h with
  | leaf here index => exact .leaf (same.1.trans here) index
  | rule here noted children start stops =>
      exact .rule (same.1.trans here) (same.2.trans noted) (children.mono more) start stops

/-- The layout is one of the tree. -/
def Layout.Holds (n : Network) (v : View) (e : Layout) : Prop :=
  ∀ c ls, e c = some ls → Lies n v e c ls

namespace Layout.Holds

theorem unknown (h : e.Holds n v) (missing : v.face c = none) : e c = none := by
  cases known : e c with
  | none => rfl
  | some ls => exact absurd missing (h c ls known).face

theorem congr (h : e.Holds n v) (same : ∀ c, e c ≠ none → v.Agrees v' c) : e.Holds n v' :=
  fun c ls known => (h c ls known).congr (same c (by simp [known])) fun _ _ => id

/-- A node is attached to one that is not complete. -/
theorem attach {parent : NodeId} (h : e.Holds n v) (unknown : e parent = none) (child : NodeId) :
    e.Holds n (v.attach parent child) :=
  h.congr fun _ known => View.agrees_attach child (ne_of_unknown unknown known)

/-- One more node is complete. -/
theorem learn (h : e.Holds n v) (unknown : e c = none) (lies : Lies n v e c ls) :
    Layout.Holds n v (Function.update e c (some ls)) := by
  have more := extends_update ls unknown
  intro d part known
  by_cases same : d = c
  · subst same
    rw [Function.update_self] at known
    cases known
    exact lies.congr ⟨rfl, rfl⟩ more
  · rw [Function.update_of_ne same] at known
    exact (h d part known).congr ⟨rfl, rfl⟩ more

end Layout.Holds

theorem Frame.nodup_contexts_cons : ((f :: fs).map Frame.context).Nodup ↔
    (∀ g ∈ fs, g.context ≠ f.context) ∧ (fs.map Frame.context).Nodup := by
  simp

/-- Where the context hangs in that of the caller. One of a left-recursive rule is attached when its
rule ends. -/
def Frame.hanging (n : Network) (f : Frame) : List NodeId :=
  if n.isLeftRecursiveRule f.rule = true ∨ f.parent = none then [] else [f.context]

/-- The contexts of the active calls, and the leaves of their complete children. `next` comes behind
these leaves; `attached` is what else stands under the innermost context. -/
inductive Unfinished (n : Network) (v : View) (e : Layout) :
    Option Token → List NodeId → List Frame → List Leaf → Prop
  | nil {next : Option Token} : Unfinished n v e next [] [] []
  | frame {next : Option Token} {f : Frame} {rest : List Frame} {cs attached : List NodeId}
      {before ls : List Leaf} {x : Notes}
      (here : v.face f.context = some (.rule f.rule (cs ++ attached)))
      (noted : v.notes f.context = some x) (unknown : e f.context = none)
      (children : e.Covers cs ls) (start : x.start = (ls.head?.map Leaf.token).or next)
      (outer : Unfinished n v e x.start (f.hanging n) rest before) :
      Unfinished n v e next attached (f :: rest) (before ++ ls)

namespace Unfinished

theorem congr (h : Unfinished n v e next attached fs all)
    (same : ∀ f ∈ fs, v.Agrees v' f.context) (more : e.Extends e')
    (unknown : ∀ f ∈ fs, e' f.context = none) : Unfinished n v' e' next attached fs all := by
  induction h with
  | nil => exact .nil
  | frame here noted _ children start _ ih =>
      obtain ⟨same, others⟩ := List.forall_mem_cons.1 same
      obtain ⟨unknown, inside⟩ := List.forall_mem_cons.1 unknown
      refine .frame (same.1.trans here) (same.2.trans noted) unknown (children.mono more) start ?_
      exact ih others inside

theorem face (h : Unfinished n v e next attached fs all) : ∀ f ∈ fs, v.face f.context ≠ none := by
  induction h with
  | nil => simp
  | frame here _ _ _ _ _ ih => exact List.forall_mem_cons.2 ⟨by simp [here], ih⟩

theorem unknown (h : Unfinished n v e next attached fs all) : ∀ f ∈ fs, e f.context = none := by
  induction h with
  | nil => simp
  | frame _ _ unknown _ _ _ ih => exact List.forall_mem_cons.2 ⟨unknown, ih⟩

/-- A node is attached to the innermost context. -/
theorem attach (h : Unfinished n v e next [] (f :: rest) all)
    (apart : ∀ g ∈ rest, g.context ≠ f.context) (child : NodeId) :
    Unfinished n (v.attach f.context child) e next [child] (f :: rest) all := by
  cases h with
  | frame here noted unknown children start outer =>
      refine .frame ?_ noted unknown children start ?_
      · rw [View.face_attach, Function.update_self, here, List.append_nil]
        rfl
      · exact outer.congr (fun g mem => View.agrees_attach child (apart g mem)) (fun _ _ => id)
          outer.unknown

/-- What hangs in the innermost context is complete. -/
theorem absorb (h : Unfinished n v e next [c] (f :: rest) all) (known : e c = some ls)
    (first : next = (ls.head?.map Leaf.token).or next') :
    Unfinished n v e next' [] (f :: rest) (all ++ ls) := by
  cases h with
  | @frame _ _ _ cs _ before ls' x here noted unknown children start outer =>
      rw [List.append_assoc]
      refine .frame (by rwa [List.append_nil]) noted unknown (children.concat known) ?_ outer
      rw [start, first, List.head?_append]
      cases ls'.head? <;> rfl

end Unfinished

/-- A tree that is being built: its nodes from `first` on are complete or the contexts of the active
calls, `all` are their leaves, and `next` comes behind them. -/
structure Laid (n : Network) (v : View) (first : Nat) (e : Layout) (next : Option Token)
    (fs : List Frame) (all : List Leaf) : Prop where
  holds : e.Holds n v
  nodes : ∀ c, e c ≠ none ∨ c ∈ fs.map Frame.context ↔ first ≤ c ∧ v.face c ≠ none
  distinct : (fs.map Frame.context).Nodup
  unfinished : Unfinished n v e next [] fs all

namespace Laid

theorem apart (h : Laid n v first e next (f :: rest) all) : ∀ g ∈ rest, g.context ≠ f.context :=
  (Frame.nodup_contexts_cons.1 h.distinct).1

theorem ne_of_fresh (h : Laid n v first e next fs all) (fresh : v.face new = none) :
    ∀ f ∈ fs, f.context ≠ new := by
  rintro f mem rfl
  exact h.unfinished.face f mem fresh

/-- A leaf is read. -/
theorem read (l : Leaf) (next' : Option Token) (h : Laid n v first e (some l.token) (f :: rest) all)
    (beyond : first ≤ new) (fresh : v.face new = none) (index : l.token.index ≠ none) : ∃ e',
      Laid n ((v.put new (.leaf l)).attach f.context new) first e' next' (f :: rest) (all ++ [l]) := by
  have unknown := h.holds.unknown fresh
  have others := h.ne_of_fresh fresh
  have free := h.unfinished.unknown
  let v' := (v.put new (.leaf l)).attach f.context new
  have holds : e.Holds n (v.put new (.leaf l)) :=
    h.holds.congr fun c known => View.agrees_put _ (Layout.ne_of_unknown unknown known)
  have here : v'.face new = some (.leaf l) := by
    have other := (others f (.head _)).symm
    simp [v', Function.update_of_ne other]
  have put : Unfinished n (v.put new (.leaf l)) e (some l.token) [] (f :: rest) all :=
    h.unfinished.congr (fun g mem => View.agrees_put _ (others g mem)) (fun _ _ => id) free
  have attached := put.attach h.apart new
  have more := Layout.extends_update [l] unknown
  have learnt := (holds.attach (free f (.head _)) new).learn unknown (.leaf here index)
  refine ⟨Function.update e new (some [l]), learnt, fun c => ?_, h.distinct, ?_⟩
  · have kept : v'.face c = none ↔ (v.put new (.leaf l)).face c = none :=
      View.face_attach_eq_none _ _ _
    by_cases same : c = new
    · subst same
      refine iff_of_true (by simp) ⟨beyond, ?_⟩
      rw [here]
      exact Option.some_ne_none _
    · rw [View.face_put, Function.update_of_ne same] at kept
      rw [Function.update_of_ne same, h.nodes c, ne_eq, ne_eq, ← kept]
  · refine (attached.congr (fun _ _ => ⟨rfl, rfl⟩) more fun g mem => ?_).absorb
      (Function.update_self _ _ _) rfl
    rw [Function.update_of_ne (others g mem), free g mem]

/-- A rule is called. -/
theorem call (v' : View) (h : Laid n v first e next fs all) (beyond : first ≤ g.context)
    (fresh : v.face g.context = none)
    (linked : n.isLeftRecursiveRule g.rule = false → g.parent = fs.head?.map Frame.context)
    (same : ∀ c, c ≠ g.context → v.Agrees v' c) (here : v'.face g.context = some (.rule g.rule []))
    (noted : v'.notes g.context = some ⟨next, none⟩) :
    Laid n (if n.isLeftRecursiveRule g.rule then v' else v'.hang g.parent g.context) first e next
      (g :: fs) all := by
  have unknown := h.holds.unknown fresh
  have others := h.ne_of_fresh fresh
  have outer : Unfinished n v' e next [] fs all :=
    h.unfinished.congr (fun f mem => same _ (others f mem)) (fun _ _ => id) h.unfinished.unknown
  have distinct := Frame.nodup_contexts_cons.2 ⟨others, h.distinct⟩
  have start : next = (([] : List Leaf).head?.map Leaf.token).or next := rfl
  have nodes (c : NodeId) : e c ≠ none ∨ c ∈ (g :: fs).map Frame.context ↔
      first ≤ c ∧ v'.face c ≠ none := by
    by_cases top : c = g.context
    · simp [top, here, beyond]
    · rw [(same c top).1, ← h.nodes c, List.map_cons, List.mem_cons, or_iff_right top]
  have holds : e.Holds n v' :=
    h.holds.congr fun c known => same c (Layout.ne_of_unknown unknown known)
  -- The new context hangs in that of the caller at once, unless its rule is left-recursive.
  by_cases plain : n.isLeftRecursiveRule g.rule = true ∨ g.parent = none
  · have unattached : g.hanging n = [] := if_pos plain
    have view : (if n.isLeftRecursiveRule g.rule then v' else v'.hang g.parent g.context) = v' := by
      rcases plain with recursive | orphan
      · rw [if_pos recursive]
      · rw [orphan]
        exact ite_self _
    rw [← unattached] at outer
    rw [view, ← List.append_nil all]
    exact ⟨holds, nodes, distinct, .frame here noted unknown .nil start outer⟩
  · have hangs : g.hanging n = [g.context] := if_neg plain
    obtain ⟨ordinary, called⟩ := not_or.1 plain
    have parent := linked (Bool.eq_false_iff.2 ordinary)
    cases fs with
    | nil => exact absurd parent called
    | cons f rest =>
        have linked : g.parent = some f.context := parent
        have other := others f (.head _)
        rw [if_neg ordinary, linked, View.hang, ← List.append_nil all]
        have hung := holds.attach (h.unfinished.unknown f (.head _)) g.context
        refine ⟨hung, fun c => ?_, distinct, .frame ?_ noted unknown .nil start ?_⟩
        · rw [nodes c, ne_eq, ne_eq, View.face_attach_eq_none]
        · rwa [View.face_attach, Function.update_of_ne other.symm]
        · rw [hangs]
          exact outer.attach h.apart g.context

/-- The innermost context is complete. -/
theorem close (h : Laid n v first e next (f :: rest) all) (stops : StopsBehind n f.rule stop all) :
    ∃ e' x ls before, v.notes f.context = some x ∧ all = before ++ ls ∧
      x.start = (ls.head?.map Leaf.token).or next ∧ e' f.context = some ls ∧
      e'.Holds n (v.stop f.context stop) ∧
      (∀ c, e' c ≠ none ∨ c ∈ rest.map Frame.context ↔ first ≤ c ∧ v.face c ≠ none) ∧
      Unfinished n (v.stop f.context stop) e' x.start (f.hanging n) rest before := by
  have apart := h.apart
  have nodes := h.nodes
  have holds := h.holds
  cases h.unfinished with
  | @frame _ _ _ cs _ before ls x here noted unknown children start outer =>
      rw [List.append_nil] at here
      let v' := v.stop f.context stop
      have more := Layout.extends_update ls unknown
      have held : e.Holds n v' :=
        holds.congr fun c known => View.agrees_stop _ (Layout.ne_of_unknown unknown known)
      have noted' : v'.notes f.context = some { x with stop } := by
        rw [View.notes_stop, Function.update_self, noted]
        rfl
      have lies : Lies n v' e f.context ls := by
        refine .rule here noted' children (fun l first => ?_) stops.of_append
        rw [start, first]
        rfl
      refine ⟨Function.update e f.context (some ls), x, ls, before, noted, rfl, start,
        Function.update_self _ _ _, held.learn unknown lies, fun c => ?_, ?_⟩
      · rw [← nodes c]
        by_cases top : c = f.context
        · simp [top]
        · rw [Function.update_of_ne top, List.map_cons, List.mem_cons, or_iff_right top]
      · refine outer.congr (fun g mem => View.agrees_stop _ (apart g mem)) more fun g mem => ?_
        rw [Function.update_of_ne (apart g mem), outer.unknown g mem]

/-- An ordinary rule is left. -/
theorem leave {ground : Option NodeId} (h : Laid n v first e next (f :: rest) all)
    (stops : StopsBehind n f.rule stop all)
    (parent : f.parent = (rest.head?.map Frame.context).or ground)
    (ordinary : n.isLeftRecursiveRule f.rule = false) :
    ∃ e' all', Laid n (v.stop f.context stop) first e' next rest all' ∧ (rest ≠ [] → all' = all) := by
  obtain ⟨e', x, ls, before, -, rfl, start, known, holds, nodes, outer⟩ := h.close stops
  have distinct := (Frame.nodup_contexts_cons.1 h.distinct).2
  cases rest with
  | nil => exact ⟨e', [], ⟨holds, nodes, distinct, .nil⟩, by simp⟩
  | cons g rest =>
      have hangs : f.hanging n = [f.context] := if_neg (by simp [ordinary, parent])
      rw [hangs] at outer
      exact ⟨e', _, ⟨holds, nodes, distinct, outer.absorb known start⟩, fun _ => rfl⟩

/-- A left-recursive rule is left, and its context attached. -/
theorem unwrap {ground : Option NodeId} (h : Laid n v first e next (f :: rest) all)
    (stops : StopsBehind n f.rule stop all)
    (parent : f.parent = (rest.head?.map Frame.context).or ground) (older : ∀ c ∈ ground, c < first)
    (recursive : n.isLeftRecursiveRule f.rule = true) :
    ∃ e' all', Laid n ((v.stop f.context stop).hang f.parent f.context) first e' next rest all' ∧
      (rest ≠ [] → all' = all) := by
  obtain ⟨e', x, ls, before, -, rfl, start, known, holds, nodes, outer⟩ := h.close stops
  have distinct := (Frame.nodup_contexts_cons.1 h.distinct).2
  have nodes' (above c : NodeId) : e' c ≠ none ∨ c ∈ rest.map Frame.context ↔
      first ≤ c ∧ ((v.stop f.context stop).attach above f.context).face c ≠ none := by
    rw [nodes c, ne_eq, ne_eq, View.face_attach_eq_none]
    rfl
  rw [parent]
  cases rest with
  | nil =>
      -- The tree so far is attached to an older node, which is not part of the layout.
      cases ground with
      | none => exact ⟨e', [], ⟨holds, nodes, distinct, .nil⟩, by simp⟩
      | some above =>
          have outside : e' above = none := by
            by_contra known
            exact Nat.not_le.2 (older above rfl) ((nodes above).1 (.inl known)).1
          exact ⟨e', [], ⟨holds.attach outside f.context, nodes' above, distinct, .nil⟩, by simp⟩
  | cons g rest =>
      have hangs : f.hanging n = [] := if_pos (.inl recursive)
      rw [hangs] at outer
      have apart := (Frame.nodup_contexts_cons.1 distinct).1
      have hung := holds.attach (outer.unknown g (.head _)) f.context
      have attached := (outer.attach apart f.context).absorb known start
      exact ⟨e', _, ⟨hung, nodes' g.context, distinct, attached⟩, fun _ => rfl⟩

/-- The innermost context, of a left-recursive rule, becomes the first child of a new one. -/
theorem wrap (h : Laid n v first e next (f :: rest) all) (stops : StopsBehind n f.rule stop all)
    (recursive : n.isLeftRecursiveRule f.rule = true) (beyond : first ≤ new)
    (fresh : v.face new = none)
    (same : ∀ c, c ≠ new → (v.stop f.context stop).Agrees v' c)
    (here : v'.face new = some (.rule f.rule [f.context]))
    (noted : v'.notes new = some ⟨(v.notes f.context).bind Notes.start, none⟩) :
    ∃ e', Laid n v' first e' next ({ f with context := new } :: rest) all := by
  have others := h.ne_of_fresh fresh
  obtain ⟨e', x, ls, before, known?, rfl, start, known, holds, nodes, outer⟩ := h.close stops
  have unknown : e' new = none := holds.unknown fresh
  have hangs : f.hanging n = [] := if_pos (.inl recursive)
  have hangs' : ({ f with context := new } : Frame).hanging n = [] := if_pos (.inl recursive)
  have distinct := (Frame.nodup_contexts_cons.1 h.distinct).2
  rw [hangs] at outer
  rw [known?, Option.bind_some] at noted
  refine ⟨e', ?_, fun c => ?_, ?_, ?_⟩
  · exact holds.congr fun c known => same c (Layout.ne_of_unknown unknown known)
  · by_cases top : c = new
    · simp [top, here, beyond]
    · have seen : v'.face c = v.face c := (same c top).1
      rw [seen, ← nodes c, List.map_cons, List.mem_cons, or_iff_right top]
  · exact Frame.nodup_contexts_cons.2 ⟨fun g mem => others g (.tail _ mem), distinct⟩
  · have here : v'.face new = some (.rule f.rule ([f.context] ++ [])) := here
    refine .frame here noted unknown ?_ start ?_
    · simpa using Covers.cons known .nil
    · rw [hangs']
      exact outer.congr (fun g mem => same _ (others g (.tail _ mem))) (fun _ _ => id) outer.unknown

end Laid

/-- The innermost context is in the tree. -/
theorem Laid.le_size {t : ParseTree} (h : Laid n t.view first e next (f :: rest) all) :
    first ≤ t.size := by
  have known := (h.nodes f.context).1 (.inr (.head _))
  by_contra beyond
  exact known.2 (ParseTree.face?_eq_none (Nat.le_trans (Nat.le_of_not_le beyond) known.1))

open AdaptiveLL.ParseTree (Grown)

/-- A layout knows the leaves of what is complete. They are tokens of the input. -/
theorem Layout.Holds.grown {t : ParseTree} {ids : List NodeId} {below : List Leaf}
    (h : e.Holds n t.view) (grown : Grown t c cs ids below) (covers : e.Covers cs ls) :
    ls = below ∧ ∀ l ∈ ls, l.token.index ≠ none := by
  induction grown generalizing ls with
  | nil =>
      cases covers
      simp
  | @leaf _ c l _ _ _ here _ ih =>
      cases covers with
      | @cons _ _ part others known rest =>
          obtain ⟨rfl, indexed⟩ := ih rest
          have leaf : t.view.face c = some (.leaf l) := by
            rw [show t.view.face c = _ from ParseTree.face?_of_node here, Leaf.face_node]
          cases h c part known with
          | leaf here' index =>
              rw [leaf] at here'
              cases here'
              exact ⟨rfl, List.forall_mem_cons.2 ⟨index, indexed⟩⟩
          | rule here' =>
              rw [leaf] at here'
              cases here'
  | @rule _ c node _ _ _ _ _ here _ _ _ ih ih' =>
      cases covers with
      | @cons _ _ part others known rest =>
          obtain ⟨rfl, indexed⟩ := ih' rest
          have rule : t.view.face c = some (.rule node.rule node.children.toList) :=
            ParseTree.face?_of_node here
          cases h c part known with
          | leaf here' =>
              rw [rule] at here'
              cases here'
          | rule here' _ children =>
              rw [rule] at here'
              cases here'
              obtain ⟨rfl, inside⟩ := ih children
              exact ⟨rfl, List.forall_mem_append.2 ⟨inside, indexed⟩⟩

/-- When no call is left, the notes of every new rule node are about the leaves below it. -/
theorem Laid.spans {t : ParseTree} {root : NodeId} {leaves : List Leaf} {node : RuleNode}
    (h : Laid n t.view first e next [] all) (whole : t.Whole first root leaves) (new : first ≤ c)
    (here : t.node? c = some (.rule node)) : ∃ ls, t.leaves? c = some ls ∧
      (∀ l ∈ ls, l.token.index ≠ none) ∧ (∀ l ∈ ls.head?, node.start = some l.token) ∧
      StopsBehind n node.rule node.stop ls := by
  have face : t.view.face c = some (.rule node.rule node.children.toList) :=
    ParseTree.face?_of_node here
  have noted : t.view.notes c = some node.notes := ParseTree.notes?_eq_some.2 ⟨node, here, rfl⟩
  obtain ⟨inner, below, within, nodup⟩ := whole.part new here
  have known := ((h.nodes c).2 ⟨new, by simp [face]⟩).resolve_right (by simp)
  obtain ⟨ls, known⟩ := Option.ne_none_iff_exists'.1 known
  cases h.holds c ls known with
  | leaf here' =>
      rw [face] at here'
      cases here'
  | rule here' noted' children start stops =>
      rw [face] at here'
      cases here'
      rw [noted] at noted'
      cases noted'
      obtain ⟨rfl, indexed⟩ := h.holds.grown within children
      exact ⟨ls, within.leaves?_eq here nodup, indexed, start, stops⟩

end AdaptiveLL
