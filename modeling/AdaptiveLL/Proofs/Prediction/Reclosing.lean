import AdaptiveLL.Proofs.Prediction.Closing
import AdaptiveLL.Proofs.Prediction.Guard.Operands
/-!
Closures of closed sets. A closure keeps only threads that read something next, or that have
finished, and it keeps them apart; closing over them once more adds nothing
(`Prediction.startConfigs_reclosed`). That there is a closure at all rests on two bounds: between two
marks there are few silent moves, and few threads get a mark, for only finitely many guards come of
the edges of a network.
-/
namespace AdaptiveLL

open Step (Ensures)

/-- What the edge asks for. -/
def Transition.guard? : Transition → Option Guard
  | predicate _ rule index contextual => some (.predicate rule index contextual)
  | precedence _ level => some (.precedence level)
  | _ => none

theorem Transition.isAtom_of_guard? {t : Transition} {g : Guard} (asks : t.guard? = some g) :
    g.IsAtom := by
  cases t with
  | predicate | precedence => cases asks; trivial
  | epsilon | call | action | atom | range | set | notSet | wildcard => cases asks

namespace Network

variable {n : Network} {q : Nat} {s : State} {t : Transition} {p : Place} {g : Guard}

/-- The guards of all edges. -/
def guards (n : Network) : List Guard :=
  n.states.toList.flatMap fun s => s.transitions.filterMap Transition.guard?

theorem mem_guards (here : n.states[q]? = some s) (mem : t ∈ s.transitions) (asks : t.guard? = some g) :
    g ∈ n.guards :=
  List.mem_flatMap.2 ⟨s, Array.mem_toList_iff.2 (Array.mem_of_getElem? here),
    List.mem_filterMap.2 ⟨t, mem, asks⟩⟩

theorem isAtom_of_mem_guards (mem : g ∈ n.guards) : g.IsAtom := by
  obtain ⟨s, -, mem⟩ := List.mem_flatMap.1 mem
  obtain ⟨t, -, asks⟩ := List.mem_filterMap.1 mem
  exact t.isAtom_of_guard? asks

/-- Where threads come to that leave a rule with unknown callers. -/
def landings (n : Network) : List Place :=
  n.states.toList.flatMap fun s =>
    if s.isRuleStop then s.transitions.filterMap (·.silently? []) else []

theorem mem_landings (here : n.states[q]? = some s) (stop : s.isRuleStop = true)
    (mem : t ∈ s.transitions) (cross : t.silently? [] = some p) : p ∈ n.landings := by
  refine List.mem_flatMap.2 ⟨s, Array.mem_toList_iff.2 (Array.mem_of_getElem? here), ?_⟩
  rw [if_pos stop]
  exact List.mem_filterMap.2 ⟨t, mem, cross⟩

end Network

namespace Configuration

variable {n : Network} {full : Bool}

/-- The thread reads something next, or it has finished. -/
structure Stays (n : Network) (full : Bool) (s : State) (c : Configuration) : Prop where
  here : n.states[c.state]? = some s
  ends : s.isRuleStop = true → c.stack = 0
  reads : s.isEpsilonOnly = false ∨ full = true ∧ s.isRuleStop = true

end Configuration

namespace ConfigurationSet

variable {n : Network} {full : Bool} {set : ConfigurationSet} {c : Configuration} {s : Stacks}

/-- The threads of the set stay where they are, each in its own place. -/
structure Closed (n : Network) (full : Bool) (set : ConfigurationSet) : Prop where
  fullContext : set.fullContext = full
  unordered : set.ordered = false
  apart : (set.toList.map Configuration.slot).Nodup
  stays : ∀ c ∈ set.toList, ∃ s, c.Stays n full s

/-- A thread that finds no other one in its place is put behind the others. -/
theorem insert_new (unordered : set.ordered = false) (new : ∀ c' ∈ set.toList, c'.slot ≠ c.slot) :
    (set.insert c s).2 = s ∧ (set.insert c s).1.items = set.items.push c ∧
      (set.insert c s).1.ordered = false ∧ (set.insert c s).1.fullContext = set.fullContext := by
  have missing : set.items.findIdx? c.sameKey = none := by
    refine Array.findIdx?_eq_none_iff.2 fun c' mem => ?_
    rw [Bool.eq_false_iff]
    exact fun same => new c' (Array.mem_toList_iff.2 mem) ((Configuration.sameKey_iff _ _).1 same).symm
  simp [insert, add, unordered, missing]

/-- A thread that finds another one in its place is merged with that. -/
theorem insert_known (unordered : set.ordered = false) {old : Configuration} (mem : old ∈ set.toList)
    (same : old.slot = c.slot) : ∃ k old, set.items[k]? = some old ∧ old.slot = c.slot ∧
      let merged := s.merge (!set.fullContext) old.stack c.stack
      (set.insert c s).2 = merged.2 ∧
        (set.insert c s).1.items = set.items.modify k (absorb merged.1 c) ∧
        (set.insert c s).1.ordered = false ∧ (set.insert c s).1.fullContext = set.fullContext := by
  cases found : set.items.findIdx? c.sameKey with
  | none =>
      have other := Array.findIdx?_eq_none_iff.1 found old (Array.mem_toList_iff.1 mem)
      rw [(Configuration.sameKey_iff _ _).2 same.symm] at other
      cases other
  | some k =>
      obtain ⟨inside, matching, -⟩ := Array.findIdx?_eq_some_iff_getElem.1 found
      have get : set.items[k]? = some set.items[k] := Array.getElem?_eq_getElem inside
      refine ⟨k, set.items[k], get, ((Configuration.sameKey_iff _ _).1 matching).symm, ?_⟩
      simp [insert, add, unordered, found, get]

/-- A thread that stays can be added. -/
theorem Closed.insert (closed : set.Closed n full) (sound : s.Sound (!full))
    (present : ∀ c ∈ set.toList, s.graph.Present c.stack) (known : s.graph.Present c.stack)
    {here : State} (stays : c.Stays n full here) :
    s.graph.Extends (set.insert c s).2.graph ∧ (set.insert c s).2.Sound (!full) ∧
      (set.insert c s).1.Closed n full ∧
      ∀ c' ∈ (set.insert c s).1.toList, (set.insert c s).2.graph.Present c'.stack := by
  by_cases exists_old : ∃ old ∈ set.toList, old.slot = c.slot
  · obtain ⟨_, mem, same⟩ := exists_old
    obtain ⟨k, old, get, same, arena, items, unordered, fullContext⟩ :=
      insert_known (s := s) closed.unordered mem same
    rw [closed.fullContext] at arena items
    have mem : old ∈ set.toList := Array.mem_toList_iff.2 (Array.mem_of_getElem? get)
    have merged := s.merge_merged sound (present old mem) known
    obtain ⟨state, -⟩ := Prod.mk.inj same
    obtain ⟨here', stays'⟩ := closed.stays old mem
    obtain rfl := Option.some.inj ((state ▸ stays'.here).symm.trans stays.here)
    -- Threads that have finished have nothing to merge.
    have ended (stop : here'.isRuleStop = true) : (s.merge (!full) old.stack c.stack).1 = 0 := by
      rw [stays'.ends stop, stays.ends stop, Stacks.merge_self]
    have members {P : Configuration → Prop} (others : ∀ c' ∈ set.toList, P c')
        (this : P (absorb (s.merge (!full) old.stack c.stack).1 c old)) :
        ∀ c' ∈ (set.insert c s).1.toList, P c' := by
      intro c' within
      rw [toList, items, Array.mem_toList_iff] at within
      rcases mem_modify within with old' | ⟨old', get', rfl⟩
      · exact others c' (Array.mem_toList_iff.2 old')
      · obtain rfl := Option.some.inj (get.symm.trans get')
        exact this
    rw [arena]
    refine ⟨merged.grown, merged.sound, ⟨fullContext.trans closed.fullContext, unordered, ?_, ?_⟩, ?_⟩
    · have slots : (set.insert c s).1.toList.map Configuration.slot = set.toList.map Configuration.slot := by
        rw [toList, items]
        exact map_modify fun _ => rfl
      rw [slots]
      exact closed.apart
    · refine members closed.stays ⟨here', ⟨stays'.here, ended, stays'.reads⟩⟩
    · exact members (fun c' within => (present c' within).mono merged.grown) merged.present
  · have new : ∀ c' ∈ set.toList, c'.slot ≠ c.slot := fun c' mem same => exists_old ⟨c', mem, same⟩
    obtain ⟨arena, items, unordered, fullContext⟩ := insert_new (s := s) closed.unordered new
    have list : (set.insert c s).1.toList = set.toList ++ [c] := by
      rw [toList, items, Array.toList_push, toList]
    rw [arena]
    refine ⟨.refl _, sound, ⟨fullContext.trans closed.fullContext, unordered, ?_, ?_⟩, ?_⟩
    · rw [list, List.map_append, List.map_singleton]
      refine List.nodup_append.2 ⟨closed.apart, List.nodup_singleton _, ?_⟩
      intro slot mem slot' mem' same
      obtain ⟨c', within, rfl⟩ := List.mem_map.1 mem
      exact new c' within (same.trans (List.mem_singleton.1 mem'))
    · rw [list]
      exact List.forall_mem_append.2 ⟨closed.stays, List.forall_mem_singleton.2 ⟨_, stays⟩⟩
    · rw [list]
      exact List.forall_mem_append.2 ⟨present, List.forall_mem_singleton.2 known⟩

end ConfigurationSet

/-! ### Marks -/

/-- The configuration is one thread of the alternative at the place, with one of the guards. -/
structure Configuration.Roams (alt : Nat) (guards : Finset Guard) (g : StackGraph) (p : Place)
    (c : Configuration) : Prop where
  alt : c.alt = alt
  state : c.state = p.1
  stack : g.Holds c.stack p.2
  guard : c.guard ∈ guards
  actions : c.actions = none
  patient : c.passedNonGreedy = false

namespace Configuration.Roams

variable {alt : Nat} {guards : Finset Guard} {g g' : StackGraph} {p : Place} {c c' : Configuration}

theorem mono (h : c.Roams alt guards g p) (grown : g.Extends g') : c.Roams alt guards g' p :=
  { h with stack := grown.holds h.stack }

/-- Threads at one place are the same if they have the same guard and flag. -/
theorem same (distinct : g.Distinct) (h : c.Roams alt guards g p) (h' : c'.Roams alt guards g p)
    (guard : c.guard = c'.guard) (flag : c.suppressed = c'.suppressed) : c.same c' = true := by
  simp [Configuration.same, h.alt, h'.alt, h.state, h'.state, h.stack.injective distinct h'.stack, guard,
    flag, h.actions, h'.actions, h.patient, h'.patient]

end Configuration.Roams

namespace Closure

variable {n : Network} {alt D fuel : Nat} {guards : Finset Guard} {g g' : StackGraph} {acc acc' : Closure}
  {p p' : Place} {c : Configuration}

/-- A thread at the place with the guard and the flag has a mark. -/
def IsMarked (g : StackGraph) (acc : Closure) (key : Place × Guard × Bool) : Prop :=
  ∃ c ∈ acc.busy, c.state = key.1.1 ∧ g.Holds c.stack key.1.2 ∧ c.guard = key.2.1 ∧ c.suppressed = key.2.2

theorem IsMarked.mono {key : Place × Guard × Bool} (h : acc.IsMarked g key) (grown : g.Extends g')
    (more : acc.busy ⊆ acc'.busy) : acc'.IsMarked g' key := by
  obtain ⟨c, mem, state, stack, rest⟩ := h
  exact ⟨c, more mem, state, grown.holds stack, rest⟩

open Classical in
/-- The threads that leave a rule, by place, guard and flag, as far as they may still be marked. -/
noncomputable def unmet (n : Network) (guards : Finset Guard) (g : StackGraph) (acc : Closure) :
    Finset (Place × Guard × Bool) :=
  (n.landings.toFinset ×ˢ guards ×ˢ Finset.univ).filter fun key => ¬ acc.IsMarked g key

open Classical in
theorem unmet_subset (grown : g.Extends g') (more : acc.busy ⊆ acc'.busy) :
    acc'.unmet n guards g' ⊆ acc.unmet n guards g :=
  Finset.monotone_filter_right _ fun _ _ new old => new (old.mono grown more)

open Classical in
theorem card_unmet_le (n : Network) (guards : Finset Guard) (g : StackGraph) (acc : Closure) :
    (acc.unmet n guards g).card ≤ n.landings.toFinset.card * (guards.card * 2) := by
  refine (Finset.card_filter_le _ _).trans ?_
  simp

open Classical in
theorem card_unmet_lt (landing : p ∈ n.landings) (roams : c.Roams alt guards g p)
    (new : ¬ acc.IsMarked g (p, c.guard, c.suppressed)) (marked : acc'.busy = c :: acc.busy) :
    (acc'.unmet n guards g).card < (acc.unmet n guards g).card := by
  apply Finset.card_lt_card
  refine ⟨unmet_subset (.refl g) fun c' mem => marked ▸ .tail _ mem, fun sub => ?_⟩
  have before : (p, c.guard, c.suppressed) ∈ acc.unmet n guards g := by
    refine Finset.mem_filter.2 ⟨Finset.mem_product.2 ⟨List.mem_toFinset.2 landing, ?_⟩, new⟩
    exact Finset.mem_product.2 ⟨roams.guard, Finset.mem_univ _⟩
  exact (Finset.mem_filter.1 (sub before)).2 ⟨c, marked ▸ .head _, roams.state, roams.stack, rfl, rfl⟩

end Closure

/-! ### What a closure collects -/

variable {σ τ : Type}

namespace Prediction

/-- The network of a prediction and its guards, and how far there is to go between two marks. -/
structure Bounds (n : Network) (guards : Finset Guard) (D : Nat) (q : Problem τ) : Prop where
  wellFormed : n.WellFormed
  small : n.states.size ≤ noState
  network : q.grammar.network = n
  decision : q.decisionState < n.states.size
  guards : ∀ g ∈ guards, ∀ a ∈ n.guards, g.and a ∈ guards
  settles : ∀ p ∈ n.landings, n.SettlesWithin D p

/-- The threads of the set are closed, and their stacks are there. -/
structure Gathers (n : Network) (full : Bool) (sim : Simulation σ τ) (configs : ConfigurationSet) :
    Prop where
  sound : sim.tables.arena.Sound (!full)
  closed : configs.Closed n full
  present : ∀ c ∈ configs.toList, sim.tables.graph.Present c.stack

/-- Besides, the marks are on threads of the alternative. -/
structure Collects (n : Network) (full : Bool) (alt : Nat) (guards : Finset Guard)
    (sim : Simulation σ τ) (acc : Closure) : Prop extends Gathers n full sim acc.configs where
  marks : ∀ c ∈ acc.busy, ∃ p, c.Roams alt guards sim.tables.graph p

/-- One closure under construction, and a later one. -/
structure Furthers (n : Network) (full : Bool) (alt : Nat) (guards : Finset Guard)
    (sim : Simulation σ τ) (acc : Closure) (sim' : Simulation σ τ) (acc' : Closure) : Prop where
  grown : sim.tables.graph.Extends sim'.tables.graph
  collects : Collects n full alt guards sim' acc'
  busy : acc.busy ⊆ acc'.busy

/-- The computation goes on with the closure, and does not fail. -/
def Proceeds (n : Network) (full : Bool) (alt : Nat) (guards : Finset Guard) (sim : Simulation σ τ)
    (acc : Closure) (x : Prediction σ τ Closure) : Prop :=
  Ensures x sim (fun acc' sim' => Furthers n full alt guards sim acc sim' acc') fun _ _ => False

variable {n : Network} {full : Bool} {alt D fuel : Nat} {guards : Finset Guard} {q : Problem τ}
  {sim sim' sim'' : Simulation σ τ} {acc acc' acc'' : Closure} {c : Configuration} {p : Place}
  {s : State} {t : Transition}

namespace Furthers

theorem refl (collects : Collects n full alt guards sim acc) : Furthers n full alt guards sim acc sim acc :=
  ⟨.refl _, collects, List.Subset.refl _⟩

theorem trans (h : Furthers n full alt guards sim acc sim' acc')
    (h' : Furthers n full alt guards sim' acc' sim'' acc'') : Furthers n full alt guards sim acc sim'' acc'' :=
  ⟨h.grown.trans h'.grown, h'.collects, List.Subset.trans h.busy h'.busy⟩

/-- No more marks are left later. -/
theorem enough (h : Furthers n full alt guards sim acc sim' acc')
    (before : n.Suffices D fuel (acc.unmet n guards sim.tables.graph).card p) :
    n.Suffices D fuel (acc'.unmet n guards sim'.tables.graph).card p :=
  before.mono (Finset.card_le_card (Closure.unmet_subset h.grown h.busy))

end Furthers

namespace Collects

/-- The stacks grow. -/
theorem grow (h : Collects n full alt guards sim acc) (grown : sim.tables.graph.Extends sim'.tables.graph)
    (sound : sim'.tables.arena.Sound (!full)) : Furthers n full alt guards sim acc sim' acc where
  grown := grown
  collects := {
    sound
    closed := h.closed
    present := fun c mem => (h.present c mem).mono grown
    marks := fun c mem => (h.marks c mem).imp fun _ roams => roams.mono grown }
  busy := List.Subset.refl _

theorem of_tables (h : Collects n full alt guards sim acc) (same : sim'.tables = sim.tables) :
    Furthers n full alt guards sim acc sim' acc := by
  apply h.grow
  · rw [same]
    exact .refl _
  · rw [same]
    exact h.sound

/-- A thread that leaves a rule is marked. -/
theorem mark (h : Collects n full alt guards sim acc) (roams : c.Roams alt guards sim.tables.graph p) :
    Furthers n full alt guards sim acc sim
      { configs := { acc.configs with dipsOutside := true }, busy := c :: acc.busy } where
  grown := .refl _
  collects := {
    sound := h.sound
    closed := ⟨h.closed.fullContext, h.closed.unordered, h.closed.apart, h.closed.stays⟩
    present := h.present
    marks := List.forall_mem_cons.2 ⟨⟨p, roams⟩, h.marks⟩ }
  busy := List.subset_cons_self c acc.busy

end Collects

namespace Proceeds

variable {x : Prediction σ τ Closure} {f : Closure → Prediction σ τ Closure}

theorem pure (collects : Collects n full alt guards sim acc) :
    Proceeds n full alt guards sim acc (Pure.pure acc) :=
  .of_ok rfl (.refl collects)

theorem after (h : Proceeds n full alt guards sim' acc' x)
    (furthers : Furthers n full alt guards sim acc sim' acc') :
    Ensures x sim' (fun acc'' sim'' => Furthers n full alt guards sim acc sim'' acc'') fun _ _ => False :=
  Ensures.imp h (fun _ _ later => furthers.trans later) fun _ _ => id

theorem bind (h : Proceeds n full alt guards sim acc x)
    (rest : ∀ acc' sim', Furthers n full alt guards sim acc sim' acc' →
      Proceeds n full alt guards sim' acc' (f acc')) :
    Proceeds n full alt guards sim acc (x >>= f) :=
  Ensures.bind (Ensures.imp h (fun acc' sim' furthers => (rest acc' sim' furthers).after furthers)
    fun _ _ => id)

theorem ite {b : Prop} [Decidable b] {y : Prediction σ τ Closure}
    (yes : b → Proceeds n full alt guards sim acc x) (no : ¬ b → Proceeds n full alt guards sim acc y) :
    Proceeds n full alt guards sim acc (if b then x else y) :=
  Ensures.ite yes no

theorem foldlM {α : Type} {f : Closure → α → Prediction σ τ Closure} {as : List α}
    (collects : Collects n full alt guards sim acc)
    (step : ∀ a ∈ as, ∀ acc' sim', Furthers n full alt guards sim acc sim' acc' →
      Proceeds n full alt guards sim' acc' (f acc' a)) :
    Proceeds n full alt guards sim acc (as.foldlM f acc) := by
  refine Ensures.foldlM (P := fun acc' sim' => Furthers n full alt guards sim acc sim' acc') ?_ (.refl collects)
  exact fun a mem acc' sim' furthers => (step a mem acc' sim' furthers).after furthers

end Proceeds

/-- A thread that stays is kept. -/
theorem addTo_proceeds (collects : Collects n full alt guards sim acc)
    (known : sim.tables.graph.Present c.stack) (stays : c.Stays n full s) :
    Proceeds n full alt guards sim acc (do Pure.pure { acc with configs := ← addTo acc.configs c }) := by
  obtain ⟨grown, sound, closed, present⟩ := collects.closed.insert collects.sound collects.present known stays
  refine .of_ok rfl ⟨grown, ⟨⟨sound, closed, present⟩, fun c mem => ?_⟩, List.Subset.refl _⟩
  exact (collects.marks c mem).imp fun _ roams => roams.mono grown

/-- To ask for one predicate or one level of precedence changes no table. -/
theorem holds_ensures {g : Guard} (atom : g.IsAtom) (sim : Simulation σ τ) :
    Ensures (holds q g) sim (fun _ sim' => sim'.tables = sim.tables) fun _ _ => False := by
  cases g with
  | predicate rule index contextual => exact .of_ok rfl rfl
  | precedence level => exact .of_ok rfl rfl
  | always | all | any => exact atom.elim

variable [TokenSource σ]

/-- A guard is put to those of the thread, or it is found to hold. -/
theorem crossGuard_ensures {g : Guard} (atom : g.IsAtom) (collect : Bool) (target : Nat) :
    Ensures (crossGuard q full collect c target g) sim
      (fun crossed sim' => sim'.tables = sim.tables ∧ ∀ moved ∈ crossed,
        moved = { c with state := target } ∨ moved = { c with state := target, guard := c.guard.and g })
      fun _ _ => False := by
  unfold crossGuard
  extract_lets moved
  refine .ite (fun _ => .of_ok rfl ⟨rfl, by simp [moved]⟩) fun _ => ?_
  refine .ite (fun _ => ?_) fun _ => .of_ok rfl ⟨rfl, by simp [moved]⟩
  refine .bind (.of_ok rfl (.bind (.of_ok rfl (.bind ((holds_ensures atom _).imp ?_ fun _ _ => id)))))
  intro answer sim' same
  refine .bind (.of_ok rfl (.of_ok rfl ⟨same, ?_⟩))
  cases answer <;> simp [moved]

/-- What comes of an edge: nothing, or a thread where the edge leads to. -/
structure Crossed (n : Network) (full : Bool) (alt : Nat) (guards : Finset Guard) (sim : Simulation σ τ)
    (acc : Closure) (t : Transition) (p : Place) (crossed : Option Configuration)
    (sim' : Simulation σ τ) : Prop where
  furthers : Furthers n full alt guards sim acc sim' acc
  leads : ∀ moved ∈ crossed, t.isEpsilon = true ∧ ∃ p', t.silently? p.2 = some p' ∧
    moved.Roams alt guards sim'.tables.graph p'

/-- Edges are crossed as silent moves are. -/
theorem cross_ensures (bounds : Bounds n guards D q) (collects : Collects n full alt guards sim acc)
    (roams : c.Roams alt guards sim.tables.graph p) (here : n.states[p.1]? = some s)
    (mem : t ∈ s.transitions) (collect inRule : Bool) :
    Ensures (cross q { fullContext := full, crossEof := false } collect inRule c t) sim
      (Crossed n full alt guards sim acc t p) fun _ _ => False := by
  have moved (target : Nat) {sim' : Simulation σ τ} (same : sim'.tables = sim.tables) :
      { c with state := target }.Roams alt guards sim'.tables.graph (target, p.2) := by
    rw [same]
    exact { roams with state := rfl }
  have plain (target : Nat) (silent : t.isEpsilon = true) (leads : t.silently? p.2 = some (target, p.2)) :
      Ensures (Pure.pure (some { c with state := target }) : Prediction σ τ (Option Configuration)) sim
        (Crossed n full alt guards sim acc t p) fun _ _ => False := by
    refine .of_ok rfl ⟨.refl collects, ?_⟩
    rintro _ ⟨⟩
    exact ⟨silent, _, leads, moved target rfl⟩
  have guarded {target : Nat} {g : Guard} (asks : t.guard? = some g) (collect : Bool)
      (silent : t.isEpsilon = true) (leads : t.silently? p.2 = some (target, p.2)) :
      Ensures (crossGuard q full collect c target g) sim
        (Crossed n full alt guards sim acc t p) fun _ _ => False := by
    refine (crossGuard_ensures (t.isAtom_of_guard? asks) collect target).imp ?_ fun _ _ => id
    rintro crossed sim' ⟨same, outcome⟩
    refine ⟨collects.of_tables same, fun next found => ⟨silent, _, leads, ?_⟩⟩
    rcases outcome next found with rfl | rfl
    · exact moved target same
    · exact { moved target same with
        guard := bounds.guards _ roams.guard _ (Network.mem_guards here mem asks) }
  cases t with
  | call target rule precedence follow =>
      have isState : follow < noState :=
        Nat.lt_of_lt_of_le (bounds.wellFormed.follow_lt here mem) bounds.small
      obtain ⟨pushed, -⟩ := StackGraph.push_spec (Nat.ne_of_lt isState) roams.stack
      obtain ⟨grown, keeps, -⟩ := collects.sound.keeps.push (Stacks.mergeRule_merges _)
        roams.stack.present isState
      refine .of_ok rfl ⟨collects.grow grown ⟨keeps.tidy, keeps.memo⟩, ?_⟩
      rintro _ ⟨⟩
      exact ⟨rfl, _, rfl, { roams with state := rfl, stack := pushed }⟩
  | epsilon target => exact plain target rfl rfl
  | action target => exact plain target rfl rfl
  | predicate target rule index contextual => exact guarded rfl _ rfl rfl
  | precedence target level => exact guarded rfl _ rfl rfl
  | atom | range | set | notSet | wildcard => exact .of_ok rfl ⟨.refl collects, by simp⟩

/-- A search to which so much fuel is given does not fail. -/
def Succeeds (n : Network) (full : Bool) (alt : Nat) (guards : Finset Guard) (D fuel : Nat)
    (onward : Bool → Int → Configuration → Closure → Prediction σ τ Closure) : Prop :=
  ∀ (collect : Bool) (depth : Int) (sim : Simulation σ τ) (acc : Closure) (c : Configuration) (p : Place),
    Collects n full alt guards sim acc → c.Roams alt guards sim.tables.graph p → n.InRange p →
    n.Suffices D fuel (acc.unmet n guards sim.tables.graph).card p →
    Proceeds n full alt guards sim acc (onward collect depth c acc)

variable {onward : Bool → Int → Configuration → Closure → Prediction σ τ Closure}

theorem followEdge_proceeds (bounds : Bounds n guards D q)
    (succeeds : Succeeds n full alt guards D fuel onward) (collects : Collects n full alt guards sim acc)
    (roams : c.Roams alt guards sim.tables.graph p) (inRange : n.InRange p)
    (enough : n.Suffices D (fuel + 1) (acc.unmet n guards sim.tables.graph).card p)
    (here : n.states[p.1]? = some s) (outside : s.isRuleStop = true → p.2 = [])
    (mem : t ∈ s.transitions) (rule : Nat) (collect : Bool) (depth : Int) :
    Proceeds n full alt guards sim acc
      (followEdge q { fullContext := full, crossEof := false } rule onward collect depth c s acc t) := by
  unfold followEdge
  refine Ensures.bind ((cross_ensures bounds collects roams here mem _ _).imp ?_ fun _ _ => id)
  rintro crossed sim' ⟨furthers, outcome⟩
  cases crossed with
  | none => exact (Proceeds.pure furthers.collects).after furthers
  | some moved =>
      obtain ⟨silent, p', leads, roams'⟩ := outcome moved rfl
      have inRange' : n.InRange p' := inRange.crossed bounds.wellFormed here mem leads
      cases stop : s.isRuleStop with
      | false =>
          simp only [Bool.false_eq_true, if_false, if_pos silent]
          have move : n.Silent p p' := .edge here stop mem leads
          exact (succeeds _ _ _ _ _ p' furthers.collects roams' inRange'
            ((furthers.enough enough).silent move)).after furthers
      | true =>
          simp only [if_true]
          rw [outside stop] at leads
          have landing := Network.mem_landings here stop mem leads
          set target : Configuration := { moved with
            suppressed := moved.suppressed || leavesOperatorRule q rule t
            outerDepth := moved.outerDepth + 1 }
          have lands : target.Roams alt guards sim'.tables.graph p' := { roams' with }
          refine .ite (fun _ => (Proceeds.pure furthers.collects).after furthers) fun new => ?_
          have unmarked : ¬ acc.IsMarked sim'.tables.graph (p', target.guard, target.suppressed) := by
            rintro ⟨c', marked, state, stack, guard, flag⟩
            obtain ⟨p'', there⟩ := furthers.collects.marks c' marked
            have roams'' : c'.Roams alt guards sim'.tables.graph p' :=
              { there with state := state, stack := stack }
            apply new
            exact List.any_eq_true.2 ⟨c', marked, lands.same furthers.collects.sound.tidy.distinct roams''
              guard.symm flag.symm⟩
          have marks := furthers.trans (furthers.collects.mark lands)
          let marked : Closure :=
            { configs := { acc.configs with dipsOutside := true }, busy := target :: acc.busy }
          have fewer : (marked.unmet n guards sim'.tables.graph).card <
              (acc.unmet n guards sim'.tables.graph).card :=
            Closure.card_unmet_lt landing lands unmarked rfl
          exact (succeeds _ _ _ _ _ p' marks.collects lands inRange'
            ((furthers.enough enough).mark (bounds.settles p' landing) fewer)).after marks

theorem expand_proceeds (bounds : Bounds n guards D q)
    (succeeds : Succeeds n full alt guards D fuel onward) (collects : Collects n full alt guards sim acc)
    (roams : c.Roams alt guards sim.tables.graph p) (inRange : n.InRange p)
    (enough : n.Suffices D (fuel + 1) (acc.unmet n guards sim.tables.graph).card p)
    (here : n.states[p.1]? = some s) (outside : s.isRuleStop = true → p.2 = [])
    (collect : Bool) (depth : Int) :
    Proceeds n full alt guards sim acc
      (expand q { fullContext := full, crossEof := false } onward collect depth c acc) := by
  have state : n.states[c.state]? = some s := roams.state ▸ here
  obtain ⟨rule, expands⟩ :
      ∃ rule, expand (σ := σ) q { fullContext := full, crossEof := false } onward collect depth c acc = _ :=
    expand_eq bounds.network bounds.decision state collect depth
  rw [expands]
  refine Proceeds.bind (.ite (fun _ => .pure collects) fun reads => ?_) fun acc₁ sim₁ furthers => ?_
  · refine addTo_proceeds collects roams.stack.present ⟨state, fun stop => ?_, .inl (by simpa using reads)⟩
    exact StackGraph.Holds.eq_zero (outside stop ▸ roams.stack)
  · refine .foldlM furthers.collects fun t mem acc₂ sim₂ furthers' => ?_
    have later := furthers.trans furthers'
    exact followEdge_proceeds bounds succeeds later.collects (roams.mono later.grown) inRange
      (later.enough enough) here outside mem rule collect depth

/-- With enough fuel, closing over a thread does not fail. -/
theorem close_succeeds (bounds : Bounds n guards D q) (fuel : Nat) :
    Succeeds n full alt guards D fuel
      (close (σ := σ) q { fullContext := full, crossEof := false } fuel) := by
  induction fuel with
  | zero => exact fun _ _ _ _ _ _ _ _ _ enough => absurd enough.pos (Nat.lt_irrefl 0)
  | succ fuel ih =>
      intro collect depth sim acc c p collects roams inRange enough
      obtain ⟨s, here⟩ : ∃ s, n.states[p.1]? = some s := ⟨_, Array.getElem?_eq_getElem inRange.1⟩
      have expands (outside : s.isRuleStop = true → p.2 = []) :=
        expand_proceeds bounds ih collects roams inRange enough here outside collect depth
      rw [close, ofQuestion_state bounds.network (roams.state ▸ here), pure_bind]
      extract_lets onward
      refine Proceeds.ite (fun inside => expands fun stop => by simp [stop] at inside) fun stop => ?_
      have stop : s.isRuleStop = true := by simpa using stop
      obtain ⟨number, frames⟩ := p
      cases frames with
      | nil =>
          have empty : c.stack = 0 := roams.stack.eq_zero
          rw [if_pos empty]
          refine Proceeds.ite (fun exact => ?_) fun _ => expands fun _ => rfl
          exact addTo_proceeds collects roams.stack.present
            ⟨roams.state ▸ here, fun _ => empty, .inr ⟨exact, stop⟩⟩
      | cons resume frames =>
          obtain ⟨called, isState, parent, node, below⟩ := roams.stack.node_cons
          have back : n.Silent (number, resume :: frames) (resume, frames) := .back here stop
          rw [if_neg called]
          refine Ensures.bind (.of_ok (Step.run_get sim) ?_)
          have onlyWay : (sim.tables.graph.node c.stack).entries = [(parent, resume)] := by
            rw [node, StackNode.entries]
          simp only [onlyWay, List.foldlM_cons, List.foldlM_nil, bind_pure, if_neg isState]
          exact ih _ _ _ _ _ (resume, frames) collects
            { roams with state := rfl, stack := below, actions := rfl, patient := rfl }
            (inRange.silent bounds.wellFormed back) (enough.silent back)

/-- The start of a prediction does not fail, and is closed. -/
theorem startConfigs_gathers (bounds : Bounds n guards D q) (start : n.states[q.decisionState]? = some s)
    (unguarded : .always ∈ guards) (settled : ∀ t ∈ s.transitions, n.SettlesWithin D (t.target, []))
    (enough : n.landings.toFinset.card * (guards.card * 2) * (D + 1) + D < q.fuel)
    (sound : sim.tables.arena.Sound (!full)) :
    Ensures (startConfigs q full 0) sim (fun configs sim' => Gathers n full sim' configs)
      fun _ _ => False := by
  rw [startConfigs, ofQuestion_state bounds.network start, pure_bind]
  extract_lets mode
  have none : Gathers n full sim { fullContext := full } :=
    ⟨sound, ⟨rfl, rfl, by simp [ConfigurationSet.toList], by simp [ConfigurationSet.toList]⟩,
      by simp [ConfigurationSet.toList]⟩
  refine Ensures.foldlM (P := fun configs sim' => Gathers n full sim' configs) ?_ none
  rintro ⟨t, i⟩ mem configs sim' gathers
  have edge : t ∈ s.transitions := List.mem_of_getElem? (List.mem_zipIdx_iff_getElem?.1 mem)
  have collects : Collects n full (i + 1) guards sim' { configs } := ⟨gathers, by simp⟩
  have roams : Configuration.Roams (i + 1) guards sim'.tables.graph (t.target, [])
      { state := t.target, alt := i + 1, stack := 0 } := ⟨rfl, rfl, .empty, unguarded, rfl, rfl⟩
  have lasts : n.Suffices D q.fuel (Closure.unmet n guards sim'.tables.graph { configs }).card
      (t.target, []) :=
    Network.Suffices.mono ⟨D, settled t edge, enough⟩ (Closure.card_unmet_le _ _ _ _)
  refine .bind ((close_succeeds bounds q.fuel true 0 sim' { configs } _ (t.target, []) collects roams
    ⟨bounds.wellFormed.target_lt start edge, by simp⟩ lasts).imp ?_ fun _ _ => id)
  exact fun acc sim'' furthers => .of_ok rfl furthers.collects.toGathers

/-! ### Closing once more -/

/-- The closure of the threads of a set, one after the other. -/
def reclose (q : Problem τ) (full : Bool) (configs : ConfigurationSet) :
    Prediction σ τ ConfigurationSet :=
  configs.toList.foldlM
    (fun again c => do
      return (← close q { fullContext := full, crossEof := false } q.fuel true 0 c { configs := again }).configs)
    { fullContext := full }

/-- An edge that reads is not crossed. -/
theorem followEdge_reading (reads : t.isEpsilon = false) (rule : Nat) (collect : Bool) (depth : Int) :
    followEdge (σ := σ) q { fullContext := full, crossEof := false } rule onward collect depth c s acc t =
      pure acc := by
  cases t with
  | atom | range | set | notSet | wildcard => simp [followEdge, cross]
  | epsilon | call | predicate | precedence | action => cases reads

/-- A thread that stays is kept, and leads nowhere. -/
theorem close_stays (wf : n.WellFormed) (hq : q.grammar.network = n) (decision : q.decisionState < n.states.size)
    (stays : c.Stays n full s) (collect : Bool) (depth : Int) :
    close (σ := σ) q { fullContext := full, crossEof := false } (fuel + 1) collect depth c acc =
      (do pure { acc with configs := ← addTo acc.configs c }) := by
  have expands (reads : s.isEpsilonOnly = false) :
      expand q { fullContext := full, crossEof := false }
        (close (σ := σ) q { fullContext := full, crossEof := false } fuel) collect depth c acc =
      (do pure { acc with configs := ← addTo acc.configs c }) := by
    obtain ⟨rule, expands⟩ : ∃ rule, expand q { fullContext := full, crossEof := false }
        (close (σ := σ) q { fullContext := full, crossEof := false } fuel) collect depth c acc = _ :=
      expand_eq hq decision stays.here collect depth
    rw [expands, if_neg (by simp [reads])]
    have few := wf.reads_alone stays.here reads
    match edges : s.transitions with
    | [] => simp
    | [t] =>
        have reading : t.isEpsilon = false := by simpa [State.isEpsilonOnly, edges] using reads
        simp [followEdge_reading reading]
    | _ :: _ :: _ => simp [edges] at few
  rw [close, ofQuestion_state hq stays.here, pure_bind]
  extract_lets onward
  cases stop : s.isRuleStop with
  | false => exact expands (stays.reads.resolve_right fun ended => by simp [stop] at ended)
  | true =>
      simp only [Bool.not_true, Bool.false_eq_true, if_false, if_pos (stays.ends stop)]
      split
      case isTrue => rfl
      case isFalse unknown => exact expands (stays.reads.resolve_right fun ended => unknown ended.1)

/-- Threads that stay, each in its own place, are put one behind the other. -/
theorem reclose_from (wf : n.WellFormed) (hq : q.grammar.network = n)
    (decision : q.decisionState < n.states.size) (some : 0 < q.fuel) {threads : List Configuration}
    (stays : ∀ c ∈ threads, ∃ s, c.Stays n full s) (again : ConfigurationSet)
    (unordered : again.ordered = false)
    (apart : ((again.toList ++ threads).map Configuration.slot).Nodup) (sim : Simulation σ τ) :
    ∃ result, (threads.foldlM (fun again c => do
        return (← close q { fullContext := full, crossEof := false } q.fuel true 0 c
          { configs := again }).configs) again).run sim = (.ok result, sim) ∧
      result.toList = again.toList ++ threads := by
  induction threads generalizing again with
  | nil => exact ⟨again, rfl, (List.append_nil _).symm⟩
  | cons c threads ih =>
      obtain ⟨fuel, enough⟩ := Nat.exists_eq_add_one_of_ne_zero (Nat.ne_of_gt some)
      obtain ⟨⟨s, stays⟩, others⟩ := List.forall_mem_cons.1 stays
      rw [List.append_cons] at apart ⊢
      have new : ∀ c' ∈ again.toList, c'.slot ≠ c.slot := by
        intro c' mem same
        rw [List.map_append, List.map_append] at apart
        exact (List.nodup_append.1 (List.nodup_append.1 apart).1).2.2 _ (List.mem_map_of_mem mem) _
          (.head _) same
      obtain ⟨arena, items, unordered', -⟩ := ConfigurationSet.insert_new
        (s := sim.tables.arena) unordered new
      have list : (again.insert c sim.tables.arena).1.toList = again.toList ++ [c] := by
        rw [ConfigurationSet.toList, items, Array.toList_push, ConfigurationSet.toList]
      have added : (addTo again c).run sim = (.ok (again.insert c sim.tables.arena).1, sim) := by
        change (Except.ok _, { sim with tables := { sim.tables with
          arena := (again.insert c sim.tables.arena).2 } }) = _
        rw [arena]
        rfl
      rw [← list] at apart ⊢
      obtain ⟨result, run, answer⟩ := ih others _ unordered' apart
      refine ⟨result, ?_, answer⟩
      rw [List.foldlM_cons, Step.run_bind_ok ?_]
      · exact run
      · rw [enough, close_stays wf hq decision stays]
        simp only [bind_assoc, pure_bind]
        rw [Step.run_bind_ok added]
        rfl

theorem reclose_closed (wf : n.WellFormed) (hq : q.grammar.network = n)
    (decision : q.decisionState < n.states.size) (some : 0 < q.fuel) {configs : ConfigurationSet}
    (closed : configs.Closed n full) (sim : Simulation σ τ) :
    ∃ again, (reclose q full configs).run sim = (.ok again, sim) ∧ again.toList = configs.toList :=
  reclose_from wf hq decision some closed.stays { fullContext := full } rfl closed.apart sim

end Prediction

/-- In an assembled network without silent cycles, whatever its edges ask for, the start of a prediction
is closed: when its threads are closed over one after the other, the same threads come of it, in the
same order. From some bound on, the fuel does not matter. -/
theorem Prediction.startConfigs_reclosed {kind : GrammarKind} {plan : Blueprint} {n : Network}
    (built : Network.assemble kind plan = .ok n) (acyclic : n.NoSilentCycle)
    (small : n.states.size ≤ noState) {decision : Nat} {s : State}
    (here : n.states[decision]? = some s) (full : Bool) :
    ∃ bound, ∀ {σ τ : Type} [TokenSource σ] (q : Problem τ) (sim : Simulation σ τ),
      q.grammar.network = n → q.decisionState = decision → bound ≤ q.fuel →
      sim.tables.graph.Tidy → sim.tables.arena.memo = [] →
      ∃ configs sim', (startConfigs q full 0).run sim = (.ok configs, sim') ∧
        ∀ sim'' : Simulation σ τ, ∃ again, (reclose q full configs).run sim'' = (.ok again, sim'') ∧
          again.toList = configs.toList := by
  have wf := Network.wellFormed_of_assemble built
  have finite : { g | Guard.IsConjunction n.guards g }.Finite :=
    Guard.finite_conjunctions n.guards
  have places := (n.landings ++ s.transitions.map fun t : Transition => (t.target, [])).finite_toSet
  obtain ⟨D, settles⟩ := Network.exists_settlesWithin_of_finite places
    fun p _ => Network.exists_settlesWithin acyclic p
  obtain ⟨landed, settled⟩ := List.forall_mem_append.1 settles
  refine ⟨n.landings.toFinset.card * (finite.toFinset.card * 2) * (D + 1) + D + 1, ?_⟩
  intro σ τ _ q sim hq hd enough tidy fresh
  have start : n.states[q.decisionState]? = some s := hd ▸ here
  have inRange : q.decisionState < n.states.size := (Array.getElem?_eq_some_iff.1 start).1
  have bounds : Bounds n finite.toFinset D q := by
    refine ⟨wf, small, hq, inRange, fun g mem a asks => ?_, landed⟩
    rw [Set.Finite.mem_toFinset] at mem ⊢
    exact Guard.IsConjunction.and (fun _ => Network.isAtom_of_mem_guards) mem asks
  have sound : sim.tables.arena.Sound (!full) := ⟨tidy, fun entry mem => by simp [fresh] at mem⟩
  obtain ⟨configs, sim', run, gathers⟩ := (startConfigs_gathers bounds start
    ((Set.Finite.mem_toFinset _).2 (.inl rfl))
    (fun t mem => settled _ (List.mem_map_of_mem mem)) enough sound).exists_ok
  exact ⟨configs, sim', run, reclose_closed wf hq inRange (by omega) gathers.closed⟩

/-- `e : A ({2 >= p}? {…}? B e[3] | )`, called by another rule. -/
def operand : Blueprint where
  maxToken := 2
  states := [
    { rule := 0, kind := .ruleStart 1 false, transitions := [.plain 2] },
    { rule := 0, kind := .ruleStop },
    { rule := 0, kind := .basic, transitions := [.call 3 1 0 1] },
    { rule := 1, kind := .ruleStart 4 true, transitions := [.plain 5] },
    { rule := 1, kind := .ruleStop },
    { rule := 1, kind := .basic, transitions := [.atom 6 1] },
    { rule := 1, kind := .blockStart .choice 12, transitions := [.plain 7, .plain 11] },
    { rule := 1, kind := .basic, transitions := [.precedence 8 2] },
    { rule := 1, kind := .basic, transitions := [.predicate 9 1 0 false] },
    { rule := 1, kind := .basic, transitions := [.atom 10 2] },
    { rule := 1, kind := .basic, transitions := [.call 3 1 3 12] },
    { rule := 1, kind := .basic, transitions := [.plain 12] },
    { rule := 1, kind := .blockEnd, transitions := [.plain 4] }]
  rules := [⟨0, none⟩, ⟨3, none⟩]
  modes := []
  decisions := [6]

/-- The network of `operand`. -/
def operandNetwork : Network where
  kind := .parser
  maxToken := 2
  states := #[
    { rule := 0, kind := .ruleStart 1 false, transitions := [.plain 2] },
    { rule := 0, kind := .ruleStop },
    { rule := 0, kind := .basic, transitions := [.call 3 1 0 1] },
    { rule := 1, kind := .ruleStart 4 true, transitions := [.plain 5] },
    { rule := 1, kind := .ruleStop, transitions := [.epsilon 1 (some 1), .epsilon 12 none] },
    { rule := 1, kind := .basic, transitions := [.atom 6 1] },
    { rule := 1, kind := .blockStart .choice 12, transitions := [.plain 7, .plain 11], decision := some 0 },
    { rule := 1, kind := .basic, transitions := [.precedence 8 2] },
    { rule := 1, kind := .basic, transitions := [.predicate 9 1 0 false] },
    { rule := 1, kind := .basic, transitions := [.atom 10 2] },
    { rule := 1, kind := .basic, transitions := [.call 3 1 3 12] },
    { rule := 1, kind := .basic, transitions := [.plain 12] },
    { rule := 1, kind := .blockEnd, transitions := [.plain 4], partner := some 6 }]
  decisions := #[6]
  ruleStarts := #[0, 3]
  ruleStops := #[1, 4]
  ruleTokens := #[]
  modes := #[]
  actions := #[]

/-- The choice behind the first operand. -/
def operandProblem (fuel : Nat) : Problem Unit where
  grammar := { network := operandNetwork, names := {} }
  mode := .ll
  fuel
  decision := 0
  decisionState := 6
  byPrecedence := false
  start := 0
  situation := {
    node := none, invoking := [], precedence := 0, state := 6, ask := fun _ host => (true, host) }

/-- A simulation that has not begun. -/
def operandSimulation : Simulation TokenList Unit :=
  .ofInput operandNetwork (.ofNetwork operandNetwork) { source := { tokens := #[] } } ()

open Prediction in
/-- Without the full context. The second alternative ends the rule, and goes on behind both calls. -/
theorem startConfigs_reclosed_operand : ∃ fuel configs sim,
    (startConfigs (operandProblem fuel) false 0).run operandSimulation = (.ok configs, sim) ∧
      ∀ sim' : Simulation TokenList Unit, ∃ again,
        (reclose (operandProblem fuel) false configs).run sim' = (.ok again, sim') ∧
          again.toList = configs.toList := by
  have built : Network.assemble .parser operand = .ok operandNetwork := by decide +kernel
  have descends : operandNetwork.Descends ([4, 1, 3, 1, 1, 0, 4, 2, 1, 0, 4, 3, 2].getD · 0) := by decide
  have here : operandNetwork.states[6]? = some operandNetwork.states[6] := rfl
  obtain ⟨bound, closes⟩ := startConfigs_reclosed built (Network.noSilentCycle_of_descends descends)
    (by decide) here false
  exact ⟨bound, closes (operandProblem bound) operandSimulation rfl rfl (Nat.le_refl bound) .empty rfl⟩

example : ((Prediction.startConfigs (operandProblem 20) false 0).run operandSimulation).1.toOption.map
    (·.toList.map fun c => (c.state, c.alt, c.guard)) =
      some [(9, 1, .all [.predicate 1 0 false, .precedence 2]), (1, 2, .always)] := by
  decide +kernel

end AdaptiveLL
