import AdaptiveLL.Network.Assembly
import Mathlib.Data.List.Forall2
/-!
What assembling a network guarantees. Every number in the network refers to a state that it
has, calls enter their rules at the start, and a state chooses among several edges only if
none of them reads.
-/
namespace AdaptiveLL

namespace Except

variable {ε α β : Type}

theorem bind_eq_ok {x : Except ε α} {f : α → Except ε β} {b : β} :
    (x >>= f) = .ok b ↔ ∃ a, x = .ok a ∧ f a = .ok b := by
  cases x with
  | error e => simp [bind, Except.bind]
  | ok a => simp [bind, Except.bind]

theorem forM_eq_ok {f : α → Except ε Unit} {l : List α} :
    l.forM f = .ok () ↔ ∀ a ∈ l, f a = .ok () := by
  induction l with
  | nil => simp [List.forM, pure, Except.pure]
  | cons a l ih =>
      rw [List.forM, bind_eq_ok, List.forall_mem_cons, ih]
      constructor
      · rintro ⟨⟨⟩, first, rest⟩
        exact ⟨first, rest⟩
      · rintro ⟨first, rest⟩
        exact ⟨⟨⟩, first, rest⟩

/-- What a function yields on the members of a list, if it fails on none. -/
theorem mapM_eq_ok {f : α → Except ε β} {l : List α} {bs : List β} (h : l.mapM f = .ok bs) :
    List.Forall₂ (fun a b => f a = .ok b) l bs := by
  induction l generalizing bs with
  | nil =>
      simp only [List.mapM_nil, pure, Except.pure, Except.ok.injEq] at h
      exact h ▸ .nil
  | cons a l ih =>
      simp only [List.mapM_cons, bind_eq_ok] at h
      obtain ⟨b, hb, bs', hbs, h⟩ := h
      simp only [pure, Except.pure, Except.ok.injEq] at h
      exact h ▸ .cons hb (ih hbs)

end Except

namespace Network

/-- The facts about an assembled network on which recognizers rely. -/
structure WellFormed (n : Network) : Prop where
  target_lt : ∀ {q : Nat} {s : State} {t : Transition}, n.states[q]? = some s →
    t ∈ s.transitions → t.target < n.states.size
  follow_lt : ∀ {q target rule follow : Nat} {precedence : Int} {s : State},
    n.states[q]? = some s → .call target rule precedence follow ∈ s.transitions →
      follow < n.states.size
  call_start : ∀ {q target rule follow : Nat} {precedence : Int} {s : State},
    n.states[q]? = some s → .call target rule precedence follow ∈ s.transitions →
      n.ruleStarts[rule]? = some target
  reads_alone : ∀ {q : Nat} {s : State}, n.states[q]? = some s → s.isEpsilonOnly = false →
    s.transitions.length ≤ 1
  start_lt : ∀ {rule q : Nat}, n.ruleStarts[rule]? = some q → q < n.states.size
  mode_lt : ∀ {mode q : Nat}, n.modes[mode]? = some q → q < n.states.size
  stops_size : n.ruleStops.size = n.ruleStarts.size
  stop_rule : ∀ {rule q : Nat}, n.ruleStops[rule]? = some q →
    ∃ s, n.states[q]? = some s ∧ s.isRuleStop = true ∧ s.rule = rule

end Network

namespace Assembly

theorem checkState_eq_ok {count q : Nat} : checkState count q = .ok () ↔ q < count := by
  unfold checkState
  split <;> simp_all

theorem checkTransition_target {count : Nat} {t : Transition}
    (h : checkTransition count t = .ok ()) : t.target < count := by
  obtain ⟨⟨⟩, ht, -⟩ := Except.bind_eq_ok.1 h
  exact checkState_eq_ok.1 ht

theorem checkTransition_follow {count target rule follow : Nat} {precedence : Int}
    (h : checkTransition count (.call target rule precedence follow) = .ok ()) :
    follow < count := by
  obtain ⟨⟨⟩, -, hf⟩ := Except.bind_eq_ok.1 h
  exact checkState_eq_ok.1 hf

theorem stopOf_eq_ok {states : Array State} {rule start stop : Nat}
    (h : stopOf states rule start = .ok stop) :
    ∃ s, states[stop]? = some s ∧ s.isRuleStop = true ∧ s.rule = rule := by
  unfold stopOf at h
  split at h
  case h_2 => cases h
  case h_1 stop' _ _ =>
      split at h
      case h_1 => cases h
      case h_2 s hs =>
          split at h
          case isFalse => cases h
          case isTrue hstop =>
              obtain rfl := Except.ok.inj h
              simp only [Bool.and_eq_true, beq_iff_eq] at hstop
              exact ⟨s, hs, hstop⟩

/-- A return edge leads to the follow state of a call that enters its rule at the start. -/
theorem returnEdge_call {states : Array State} {starts stops : Array Nat}
    {number target rule follow : Nat} {precedence : Int} {edge : Option (Nat × Transition)}
    (h : returnEdge states starts stops number (.call target rule precedence follow) = .ok edge) :
    starts[rule]? = some target ∧ ∃ stop outermost, edge = some (stop, .epsilon follow outermost) := by
  simp only [returnEdge] at h
  split at h
  case h_2 => cases h
  case h_1 start stop hstart hstop =>
      split at h
      case isTrue => cases h
      case isFalse same =>
          simp only [ne_eq, not_not] at same
          exact ⟨same ▸ hstart, stop, _, (Except.ok.inj h).symm⟩

theorem returnEdge_isCall {states : Array State} {starts stops : Array Nat} {number : Nat}
    {t : Transition} {edge : Nat × Transition}
    (h : returnEdge states starts stops number t = .ok (some edge)) :
    ∃ target rule precedence follow, t = .call target rule precedence follow := by
  cases t <;> simp_all [returnEdge]

theorem exists_of_forall₂_left {α β : Type} {R : α → β → Prop} {as : List α} {bs : List β}
    (h : List.Forall₂ R as bs) {a : α} (ha : a ∈ as) : ∃ b ∈ bs, R a b := by
  obtain ⟨i, hi, rfl⟩ := List.mem_iff_getElem.1 ha
  have hi' : i < bs.length := h.length_eq ▸ hi
  exact ⟨bs[i], List.getElem_mem hi', (List.forall₂_iff_get.1 h).2 i hi hi'⟩

theorem exists_of_forall₂_right {α β : Type} {R : α → β → Prop} {as : List α} {bs : List β}
    (h : List.Forall₂ R as bs) {b : β} (hb : b ∈ bs) : ∃ a ∈ as, R a b := by
  obtain ⟨i, hi, rfl⟩ := List.mem_iff_getElem.1 hb
  have hi' : i < as.length := h.length_eq ▸ hi
  exact ⟨as[i], List.getElem_mem hi', (List.forall₂_iff_get.1 h).2 i hi' hi⟩

/-- If the return edges can be listed, every call enters its rule at the start. -/
theorem returnEdges_call {states : Array State} {starts stops : Array Nat}
    {edges : List (Nat × Transition)} (h : returnEdges states starts stops = .ok edges)
    {q target rule follow : Nat} {precedence : Int} {s : State} (hq : states[q]? = some s)
    (mem : .call target rule precedence follow ∈ s.transitions) :
    starts[rule]? = some target := by
  obtain ⟨found, hfound, -⟩ := Except.bind_eq_ok.1 h
  have hmem : (s, q) ∈ states.toList.zipIdx :=
    List.mem_zipIdx_iff_getElem?.2 (by simpa using hq)
  obtain ⟨row, -, hrow⟩ := exists_of_forall₂_left (Except.mapM_eq_ok hfound) hmem
  obtain ⟨edge, -, hedge⟩ := exists_of_forall₂_left (Except.mapM_eq_ok hrow) mem
  exact (returnEdge_call hedge).1

/-- The return edges lead to the follow states of calls. -/
theorem returnEdges_follow {states : Array State} {starts stops : Array Nat}
    {edges : List (Nat × Transition)} (h : returnEdges states starts stops = .ok edges)
    {e : Nat × Transition} (he : e ∈ edges) :
    ∃ (q : Nat) (s : State) (target rule : Nat) (precedence : Int) (follow : Nat)
      (outermost : Option Nat), states[q]? = some s ∧
      .call target rule precedence follow ∈ s.transitions ∧ e.2 = .epsilon follow outermost := by
  obtain ⟨found, hfound, h⟩ := Except.bind_eq_ok.1 h
  obtain rfl := Except.ok.inj h
  obtain ⟨_, he, rfl⟩ := List.mem_filterMap.1 he
  obtain ⟨row, hrow, he⟩ := List.mem_flatten.1 he
  obtain ⟨⟨s, q⟩, hmem, hrow⟩ := exists_of_forall₂_right (Except.mapM_eq_ok hfound) hrow
  obtain ⟨t, ht, hedge⟩ := exists_of_forall₂_right (Except.mapM_eq_ok hrow) he
  obtain ⟨target, rule, precedence, follow, rfl⟩ := returnEdge_isCall hedge
  obtain ⟨-, stop, outermost, heq⟩ := returnEdge_call hedge
  refine ⟨q, s, target, rule, precedence, follow, outermost, ?_, ht, ?_⟩
  · simpa using List.mem_zipIdx_iff_getElem?.1 hmem
  · cases heq
    rfl

/-- The states stay what they are, but for derived parts and for plain edges to states of the
network. -/
def Grown (old new : Array State) : Prop :=
  new.size = old.size ∧ ∀ {q : Nat} {s : State}, new[q]? = some s → ∃ s₀, old[q]? = some s₀ ∧
    s.rule = s₀.rule ∧ s.kind = s₀.kind ∧
    ∀ t ∈ s.transitions, t ∈ s₀.transitions ∨ ∃ follow outermost,
      t = .epsilon follow outermost ∧ follow < old.size

namespace Grown

theorem refl (states : Array State) : Grown states states :=
  ⟨rfl, fun h => ⟨_, h, rfl, rfl, fun _ ht => .inl ht⟩⟩

variable {old new : Array State}

/-- The new form of an old state. -/
theorem get (h : Grown old new) {q : Nat} {s₀ : State} (hq : old[q]? = some s₀) :
    ∃ s, new[q]? = some s ∧ s.rule = s₀.rule ∧ s.kind = s₀.kind := by
  have hlt : q < new.size := h.1 ▸ (Array.getElem?_eq_some_iff.1 hq).1
  obtain ⟨s₁, h₁, rule, kind, -⟩ := h.2 (Array.getElem?_eq_getElem hlt)
  obtain rfl : s₁ = s₀ := Option.some.inj (h₁.symm.trans hq)
  exact ⟨_, Array.getElem?_eq_getElem hlt, rule, kind⟩

/-- Changing one state keeps the states what they are, if the change does. -/
theorem modify (h : Grown old new) (i : Nat) (f : State → State)
    (rule : ∀ s, (f s).rule = s.rule) (kind : ∀ s, (f s).kind = s.kind)
    (edges : ∀ s, ∀ t ∈ (f s).transitions, t ∈ s.transitions ∨ ∃ follow outermost,
      t = .epsilon follow outermost ∧ follow < old.size) :
    Grown old (new.modify i f) := by
  refine ⟨by simpa using h.1, fun {q s} hq => ?_⟩
  rw [Array.getElem?_modify] at hq
  split at hq
  · obtain ⟨s₁, h₁, rfl⟩ := Option.map_eq_some_iff.1 hq
    obtain ⟨s₀, h₀, hr, hk, ht⟩ := h.2 h₁
    refine ⟨s₀, h₀, (rule s₁).trans hr, (kind s₁).trans hk, fun t hmem => ?_⟩
    rcases edges s₁ t hmem with hmem | hnew
    · exact ht t hmem
    · exact .inr hnew
  · exact h.2 hq

theorem foldl {α : Type} (f : Array State → α → Array State) (xs : List α)
    (step : ∀ new x, x ∈ xs → Grown old new → Grown old (f new x)) (h : Grown old new) :
    Grown old (xs.foldl f new) := by
  induction xs generalizing new with
  | nil => exact h
  | cons x xs ih =>
      exact ih (fun new y hy => step new y (.tail _ hy)) (step new x (.head _) h)

theorem map (h : Grown old new) (f : State → State)
    (rule : ∀ s, (f s).rule = s.rule) (kind : ∀ s, (f s).kind = s.kind)
    (edges : ∀ s, (f s).transitions = s.transitions) : Grown old (new.map f) := by
  refine ⟨by simpa using h.1, fun {q s} hq => ?_⟩
  rw [Array.getElem?_map] at hq
  obtain ⟨s₁, h₁, rfl⟩ := Option.map_eq_some_iff.1 hq
  obtain ⟨s₀, h₀, hr, hk, ht⟩ := h.2 h₁
  exact ⟨s₀, h₀, (rule s₁).trans hr, (kind s₁).trans hk, fun t hmem => ht t (edges s₁ ▸ hmem)⟩

theorem setPartners (h : Grown old new) (links : List (Nat × Nat)) :
    Grown old (setPartners new links) :=
  h.foldl _ _ fun _ _ _ h => h.modify _ _ (fun _ => rfl) (fun _ => rfl) fun _ _ ht => .inl ht

end Grown

/-- A state that passes the check has one edge at most, if it has one that reads. -/
theorem defect?_eq_none {states : Array State} {s : State} (h : defect? states s = none)
    (reads : s.isEpsilonOnly = false) : s.transitions.length ≤ 1 := by
  by_contra several
  have several := Nat.lt_of_not_le several
  simp [defect?, reads, several] at h

theorem verify_eq_ok {states : Array State} (h : verify states = .ok ()) {q : Nat} {s : State}
    (hq : states[q]? = some s) : defect? states s = none := by
  have hmem : (s, q) ∈ states.toList.zipIdx :=
    List.mem_zipIdx_iff_getElem?.2 (by simpa using hq)
  have := Except.forM_eq_ok.1 h _ hmem
  simp only at this
  split at this
  case h_1 => cases this
  case h_2 hnone => exact hnone

end Assembly

theorem Network.kind_of_assemble {kind : GrammarKind} {plan : Blueprint} {n : Network}
    (h : Network.assemble kind plan = .ok n) : n.kind = kind := by
  simp only [Network.assemble, Except.bind_eq_ok] at h
  obtain ⟨_, _, _, _, _, _, _, _, _, _, _, _, _, _, h⟩ := h
  exact congrArg Network.kind (Except.ok.inj h).symm

open Assembly in
/-- An assembled network is well formed. -/
theorem Network.wellFormed_of_assemble {kind : GrammarKind} {plan : Blueprint} {n : Network}
    (h : Network.assemble kind plan = .ok n) : n.WellFormed := by
  unfold Network.assemble at h
  extract_lets written count starts at h
  obtain ⟨⟨⟩, edges, h⟩ := Except.bind_eq_ok.1 h
  obtain ⟨⟨⟩, numbers, h⟩ := Except.bind_eq_ok.1 h
  obtain ⟨stops, hstops, h⟩ := Except.bind_eq_ok.1 h
  obtain ⟨returns, hreturns, h⟩ := Except.bind_eq_ok.1 h
  extract_lets returned paired decided final at h
  obtain ⟨⟨⟩, -, h⟩ := Except.bind_eq_ok.1 h
  obtain ⟨⟨⟩, -, h⟩ := Except.bind_eq_ok.1 h
  obtain ⟨⟨⟩, verified, h⟩ := Except.bind_eq_ok.1 h
  have edge_ok {q : Nat} {s : State} {t : Transition} (hq : written[q]? = some s)
      (ht : t ∈ s.transitions) : checkTransition count t = .ok () := by
    have hs := Except.forM_eq_ok.1 edges s (Array.mem_toList_iff.2 (Array.mem_of_getElem? hq))
    exact Except.forM_eq_ok.1 hs t ht
  have number_lt {q : Nat} (hq : q ∈ starts.toList ++ plan.modes ++ plan.decisions) : q < count :=
    checkState_eq_ok.1 (Except.forM_eq_ok.1 numbers q hq)
  have grown : Grown written final := by
    have hreturned : Grown written returned := (Grown.refl written).foldl _ _ fun new e he h => by
      obtain ⟨q, s, target, rule, precedence, follow, outermost, hq, mem, heq⟩ :=
        returnEdges_follow hreturns he
      refine h.modify _ _ (fun _ => rfl) (fun _ => rfl) fun s t ht => ?_
      rcases List.mem_append.1 ht with ht | ht
      · exact .inl ht
      · obtain rfl := (List.mem_singleton.1 ht).trans heq
        exact .inr ⟨follow, outermost, rfl, checkTransition_follow (edge_ok hq mem)⟩
    have hdecided : Grown written decided := (hreturned.setPartners _).foldl _ _ fun _ _ _ h =>
      h.modify _ _ (fun _ => rfl) (fun _ => rfl) fun _ _ ht => .inl ht
    exact hdecided.map _ (fun _ => rfl) (fun _ => rfl) fun _ => rfl
  obtain rfl := Except.ok.inj h
  have size : final.size = count := grown.1
  constructor
  case target_lt =>
    intro q s t hq ht
    obtain ⟨s₀, h₀, -, -, old⟩ := grown.2 hq
    rcases old t ht with ht | ⟨follow, outermost, rfl, lt⟩
    · exact size ▸ checkTransition_target (edge_ok h₀ ht)
    · exact size ▸ lt
  case follow_lt =>
    intro q target rule follow precedence s hq ht
    obtain ⟨s₀, h₀, -, -, old⟩ := grown.2 hq
    rcases old _ ht with ht | ⟨_, _, heq, -⟩
    · exact size ▸ checkTransition_follow (edge_ok h₀ ht)
    · cases heq
  case call_start =>
    intro q target rule follow precedence s hq ht
    obtain ⟨s₀, h₀, -, -, old⟩ := grown.2 hq
    rcases old _ ht with ht | ⟨_, _, heq, -⟩
    · exact returnEdges_call hreturns h₀ ht
    · cases heq
  case reads_alone =>
    intro q s hq
    exact defect?_eq_none (verify_eq_ok verified hq)
  case start_lt =>
    intro rule q hq
    refine size ▸ number_lt ?_
    have := Array.mem_toList_iff.2 (Array.mem_of_getElem? hq)
    simp only [List.mem_append, this, true_or]
  case mode_lt =>
    intro mode q hq
    refine size ▸ number_lt ?_
    have : q ∈ plan.modes := by simpa using Array.mem_of_getElem? hq
    simp only [List.mem_append, this, true_or, or_true]
  case stops_size =>
    simpa using (Except.mapM_eq_ok hstops).length_eq.symm
  case stop_rule =>
    intro rule q hq
    obtain ⟨lt, rfl⟩ := List.getElem?_eq_some_iff.1 (by simpa using hq : stops[rule]? = some q)
    have each := Except.mapM_eq_ok hstops
    have stop := (List.forall₂_iff_get.1 each).2 rule (each.length_eq ▸ lt) lt
    simp only [List.get_eq_getElem, List.getElem_zipIdx, Nat.zero_add] at stop
    obtain ⟨s₀, h₀, isStop, hrule⟩ := stopOf_eq_ok stop
    obtain ⟨s, hs, hr, hk⟩ := grown.get h₀
    exact ⟨s, hs, by rwa [State.isRuleStop, hk], hr.trans hrule⟩

end AdaptiveLL
