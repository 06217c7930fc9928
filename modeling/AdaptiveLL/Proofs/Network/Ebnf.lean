import AdaptiveLL.Network.Ebnf
import Mathlib.Data.List.Basic
/-!
What building a network from rules keeps. The states of a rule are built under its number, an
edge leads to a state of the same rule, and only the exits of the fragments that are not yet
joined to anything lead nowhere.
-/
namespace AdaptiveLL

namespace Builder

variable {b b₀ b' b'' : Builder} {Loose : Prop} {Open more : List Nat} {rule q target : Nat}

/-- A state of a rule; the entry of a mode belongs to none. -/
def Has (b : Builder) (rule q : Nat) : Prop :=
  ∃ s, b.states[q]? = some s ∧ s.rule = rule ∧ s.kind ≠ .tokensStart

/-- An edge of a state stays in its rule, and a call comes back to it. Edges that are not plain
leave basic states. -/
def Leads (b : Builder) (s : StatePlan) (t : Transition) : Prop :=
  match t with
  | .epsilon target _ => s.kind ≠ .tokensStart → b.Has s.rule target
  | .call _ _ _ follow => s.kind = .basic ∧ b.Has s.rule follow
  | t => s.kind = .basic ∧ b.Has s.rule t.target

/-- States may be added and changed, but keep their rule and their kind. -/
def Keeps (b b' : Builder) : Prop :=
  ∀ (q : Nat) (s : StatePlan), b.states[q]? = some s →
    ∃ s', b'.states[q]? = some s' ∧ s'.rule = s.rule ∧ s'.kind = s.kind

/-- The network grows within the current rule. -/
structure Extends (b b' : Builder) : Prop where
  sameKind : b'.kind = b.kind
  sameRule : b'.currentRule = b.currentRule
  starts : b'.ruleStarts = b.ruleStarts
  states : Keeps b b'

/-- A network under construction is tidy if the states without edges are open, unless it is
`Loose`. -/
structure Tidy (b : Builder) (Loose : Prop) (Open : List Nat) : Prop where
  leads : ∀ {q : Nat} {s : StatePlan} {t : Transition}, b.states[q]? = some s →
    t ∈ s.transitions → b.Leads s t
  going : ∀ {q : Nat} {s : StatePlan}, b.states[q]? = some s → s.transitions = [] →
    s.kind = .ruleStop ∨ s.kind = .tokensStart ∨ Loose ∨ q ∈ Open
  starts : ∀ {rule q : Nat}, b.ruleStarts[rule]? = some q → ∃ s stop leftRecursive,
    b.states[q]? = some s ∧ s.rule = rule ∧ s.kind = .ruleStart stop leftRecursive ∧ b.Has rule stop
  rules : ∀ {q : Nat} {s : StatePlan}, b.states[q]? = some s → s.kind ≠ .tokensStart →
    s.rule < b.ruleStarts.size

namespace Keeps

theorem has (h : Keeps b b') (here : b.Has rule q) : b'.Has rule q := by
  obtain ⟨s, here, rfl, inner⟩ := here
  obtain ⟨s', here', same, kind⟩ := h _ _ here
  exact ⟨s', here', same, kind ▸ inner⟩

theorem leads (h : Keeps b b') {s s' : StatePlan} (rule : s'.rule = s.rule)
    (kind : s'.kind = s.kind) {t : Transition} (leads : b.Leads s t) : b'.Leads s' t := by
  unfold Leads at leads ⊢
  rw [rule, kind]
  split at leads
  · exact fun inner => h.has (leads inner)
  · exact ⟨leads.1, h.has leads.2⟩
  · exact ⟨leads.1, h.has leads.2⟩

end Keeps

namespace Extends

theorem refl (b : Builder) : Extends b b := ⟨rfl, rfl, rfl, fun _ _ here => ⟨_, here, rfl, rfl⟩⟩

theorem trans (first : Extends b b') (second : Extends b' b'') : Extends b b'' where
  sameKind := second.sameKind.trans first.sameKind
  sameRule := second.sameRule.trans first.sameRule
  starts := second.starts.trans first.starts
  states _ _ here := by
    obtain ⟨s', here', rule', kind'⟩ := first.states _ _ here
    obtain ⟨s'', here'', rule'', kind''⟩ := second.states _ _ here'
    exact ⟨s'', here'', rule''.trans rule', kind''.trans kind'⟩

theorem has (h : Extends b b') (here : b.Has rule q) : b'.Has rule q :=
  Keeps.has h.states here

theorem newState (b : Builder) (kind : StateKind) : Extends b (b.newState kind).2 where
  sameKind := rfl
  sameRule := rfl
  starts := rfl
  states q s here := by
    refine ⟨s, ?_, rfl, rfl⟩
    have lt := (Array.getElem?_eq_some_iff.1 here).1
    rw [Builder.newState, Array.getElem?_push_lt lt]
    exact (Array.getElem?_eq_getElem lt).symm.trans here

/-- A change of one state that keeps its rule and its kind. -/
theorem modify (b : Builder) (q : Nat) (f : StatePlan → StatePlan) (rule : ∀ s, (f s).rule = s.rule)
    (kind : ∀ s, (f s).kind = s.kind) : Extends b { b with states := b.states.modify q f } where
  sameKind := rfl
  sameRule := rfl
  starts := rfl
  states q' s here := by
    by_cases same : q = q'
    · exact ⟨f s, by simp [Array.getElem?_modify, same, here], rule s, kind s⟩
    · exact ⟨s, by simp [Array.getElem?_modify, same, here], rfl, rfl⟩

theorem addTransition (b : Builder) (source : Nat) (t : Transition) :
    Extends b (b.addTransition source t) :=
  .modify b source _ (fun _ => rfl) fun _ => rfl

theorem addPlain (b : Builder) (source target : Nat) : Extends b (b.addPlain source target) :=
  .addTransition b source _

theorem setNonGreedy (b : Builder) (q : Nat) (nonGreedy : Bool) :
    Extends b (b.setNonGreedy q nonGreedy) :=
  .modify b q _ (fun _ => rfl) fun _ => rfl

theorem addDecision (b : Builder) (q : Nat) : Extends b (b.addDecision q) := 
  ⟨rfl, rfl, rfl, fun _ _ here => ⟨_, here, rfl, rfl⟩⟩

end Extends

namespace Tidy

theorem mono (h : b.Tidy Loose Open) (sub : Open ⊆ more) : b.Tidy Loose more :=
  { h with going := fun here empty => (h.going here empty).imp_right (.imp_right (.imp_right (sub ·))) }

/-- In a loose network any state may be without edges. -/
theorem loosen (h : b.Tidy Loose Open) (loose : Loose) : b.Tidy Loose more :=
  { h with going := fun _ _ => .inr (.inr (.inl loose)) }

theorem has_start (h : b.Tidy Loose Open) (start : b.ruleStarts[rule]? = some q) : b.Has rule q := by
  obtain ⟨s, stop, leftRecursive, here, same, kind, -⟩ := h.starts start
  exact ⟨s, here, same, by simp [kind]⟩

/-- A tidy network stays tidy if nothing but other parts of it change. -/
theorem of_states (h : b.Tidy Loose Open) (states : b'.states = b.states)
    (starts : b'.ruleStarts = b.ruleStarts) : b'.Tidy Loose Open where
  leads here mem := by
    have := h.leads (states ▸ here) mem
    unfold Leads Has at this ⊢
    rwa [states]
  going here := h.going (states ▸ here)
  starts start := by
    have := h.starts (starts ▸ start)
    unfold Has at this ⊢
    rwa [states]
  rules here := starts ▸ h.rules (states ▸ here)

/-- A new state is open, unless it is the stop of a rule or the entry of a mode. -/
theorem newState (h : b.Tidy Loose Open) (kind : StateKind)
    (known : kind ≠ .tokensStart → b.currentRule < b.ruleStarts.size)
    (new : kind = .ruleStop ∨ kind = .tokensStart ∨ Loose ∨ b.states.size ∈ more) (sub : Open ⊆ more) :
    (b.newState kind).2.Tidy Loose more := by
  have ext := Extends.newState b kind
  have cases {q : Nat} {s : StatePlan} (here : (b.newState kind).2.states[q]? = some s) :
      b.states[q]? = some s ∨ q = b.states.size ∧ s = { rule := b.currentRule, kind } := by
    rw [Builder.newState, Array.getElem?_push] at here
    split at here
    · exact .inr ⟨by assumption, (Option.some.inj here).symm⟩
    · exact .inl here
  constructor
  case leads =>
    intro q s t here mem
    rcases cases here with here | ⟨-, rfl⟩
    · exact ext.states.leads rfl rfl (h.leads here mem)
    · simp at mem
  case going =>
    intro q s here empty
    rcases cases here with here | ⟨rfl, rfl⟩
    · exact (h.going here empty).imp_right (.imp_right (.imp_right (sub ·)))
    · exact new
  case starts =>
    intro rule q start
    obtain ⟨s, stop, leftRecursive, here, same, kind, has⟩ := h.starts start
    obtain ⟨s', here', same', kind'⟩ := ext.states _ _ here
    exact ⟨s', stop, leftRecursive, here', same'.trans same, kind'.trans kind, ext.has has⟩
  case rules =>
    intro q s here inner
    rcases cases here with here | ⟨-, rfl⟩
    · exact h.rules here inner
    · exact known inner

/-- A state is changed. If it gets edges, it need no longer be open. -/
theorem modify (h : b.Tidy Loose Open) {f : StatePlan → StatePlan}
    (rule : ∀ s, (f s).rule = s.rule) (kind : ∀ s, (f s).kind = s.kind)
    (leads : ∀ s, b.states[q]? = some s → ∀ t ∈ (f s).transitions, b.Leads s t)
    (edges : ∀ s, b.states[q]? = some s → (f s).transitions = [] →
      s.kind = .ruleStop ∨ s.kind = .tokensStart ∨ Loose ∨ q ∈ more)
    (sub : ∀ q' ∈ Open, q' ≠ q → q' ∈ more) :
    Tidy { b with states := b.states.modify q f } Loose more := by
  have ext := Extends.modify b q f rule kind
  have cases {q' : Nat} {s : StatePlan} (here : (b.states.modify q f)[q']? = some s) :
      q' = q ∧ (∃ s₀, b.states[q]? = some s₀ ∧ s = f s₀) ∨ q' ≠ q ∧ b.states[q']? = some s := by
    rw [Array.getElem?_modify] at here
    split at here
    case isTrue same =>
        subst same
        obtain ⟨s₀, here₀, rfl⟩ := Option.map_eq_some_iff.1 here
        exact .inl ⟨rfl, s₀, here₀, rfl⟩
    case isFalse other => exact .inr ⟨Ne.symm other, here⟩
  constructor
  case leads =>
    intro q' s t here mem
    rcases cases here with ⟨rfl, s₀, here₀, rfl⟩ | ⟨-, here⟩
    · exact ext.states.leads (rule s₀) (kind s₀) (leads s₀ here₀ t mem)
    · exact ext.states.leads rfl rfl (h.leads here mem)
  case going =>
    intro q' s here empty
    rcases cases here with ⟨rfl, s₀, here₀, rfl⟩ | ⟨other, here⟩
    · rw [kind]
      exact edges s₀ here₀ empty
    · exact (h.going here empty).imp_right (.imp_right (.imp_right (sub q' · other)))
  case starts =>
    intro rule q start
    obtain ⟨s, stop, leftRecursive, here, same, kind, has⟩ := h.starts start
    obtain ⟨s', here', same', kind'⟩ := ext.states _ _ here
    exact ⟨s', stop, leftRecursive, here', same'.trans same, kind'.trans kind, ext.has has⟩
  case rules =>
    intro q' s here inner
    rcases cases here with ⟨-, s₀, here₀, rfl⟩ | ⟨-, here⟩
    · exact (rule s₀) ▸ h.rules here₀ (kind s₀ ▸ inner)
    · exact h.rules here inner

theorem addTransition (h : b.Tidy Loose (q :: Open)) {t : Transition}
    (leads : ∀ s, b.states[q]? = some s → b.Leads s t) : (b.addTransition q t).Tidy Loose Open := by
  refine h.modify (fun _ => rfl) (fun _ => rfl) (fun s here t' mem => ?_) (by simp)
    fun q' mem other => (List.mem_cons.1 mem).resolve_left other
  rcases List.mem_append.1 mem with mem | mem
  · exact h.leads here mem
  · exact List.mem_singleton.1 mem ▸ leads s here

/-- An edge between two states of a rule closes the one that it leaves. -/
theorem addPlain (h : b.Tidy Loose (q :: Open)) (source : b.Has rule q) (stays : b.Has rule target) :
    (b.addPlain q target).Tidy Loose Open := by
  refine h.addTransition fun s here _ => ?_
  obtain ⟨s', here', rfl, -⟩ := source
  rw [here] at here'
  cases here'
  exact stays

theorem setNonGreedy (h : b.Tidy Loose Open) (q : Nat) (nonGreedy : Bool) :
    (b.setNonGreedy q nonGreedy).Tidy Loose Open :=
  h.modify (fun _ => rfl) (fun _ => rfl) (fun _ here _ mem => h.leads here mem)
    (fun _ here empty => h.going here empty) fun _ mem _ => mem

theorem addDecision (h : b.Tidy Loose Open) (q : Nat) : (b.addDecision q).Tidy Loose Open :=
  h.of_states rfl rfl

end Tidy

/-- Fragments that have been built for the current rule, and are not yet joined to anything. -/
structure Pending (b : Builder) (Loose : Prop) (rule : Nat) (fs : List Fragment) (Open : List Nat) : Prop where
  tidy : b.Tidy Loose (fs.map Fragment.exit ++ Open)
  current : b.currentRule = rule
  known : rule < b.ruleStarts.size
  inside : ∀ f ∈ fs, b.Has rule f.entry ∧ b.Has rule f.exit

/-- The network has been extended, and is left with the fragments. -/
structure Makes (Loose : Prop) (b b' : Builder) (rule : Nat) (fs : List Fragment) (Open : List Nat) : Prop
    extends Extends b b', Pending b' Loose rule fs Open

variable {f : Fragment} {fs gs : List Fragment}

theorem Makes.trans (first : Makes Loose b b' rule fs Open) (second : Makes Loose b' b'' rule gs more) :
    Makes Loose b b'' rule gs more :=
  ⟨first.toExtends.trans second.toExtends, second.toPending⟩

/-- A fragment stays as it is while others are built. -/
theorem Makes.cons (first : Makes Loose b b' rule [f] more)
    (others : Makes Loose b' b'' rule fs (f.exit :: Open)) : Makes Loose b b'' rule (f :: fs) Open where
  toExtends := first.toExtends.trans others.toExtends
  tidy := others.tidy.mono (by simp)
  current := others.current
  known := others.known
  inside :=
    List.forall_mem_cons.2 ⟨(first.inside f (.head _)).imp others.has others.has, others.inside⟩

namespace Pending

theorem makes (h : b.Pending Loose rule fs Open) : Makes Loose b b rule fs Open := ⟨.refl b, h⟩

theorem mono (h : b.Pending Loose rule fs Open) (sub : Open ⊆ more) : b.Pending Loose rule fs more :=
  { h with
    tidy := h.tidy.mono (List.append_subset.2
      ⟨List.subset_append_left _ _, List.subset_append_of_subset_right _ sub⟩) }

theorem loosen (h : b.Pending Loose rule fs Open) (loose : Loose) : b.Pending Loose rule fs more :=
  { h with tidy := h.tidy.loosen loose }

/-- The exit of a fragment is listed with the other open states. -/
theorem rest (h : b.Pending Loose rule (f :: fs) Open) : b.Pending Loose rule fs (f.exit :: Open) where
  tidy := h.tidy.mono (by simp)
  current := h.current
  known := h.known
  inside g mem := h.inside g (.tail _ mem)

/-- The exits of all fragments are listed with the other open states. -/
theorem set_aside (h : b.Pending Loose rule fs Open) :
    b.Pending Loose rule [] (fs.map Fragment.exit ++ Open) where
  tidy := h.tidy
  current := h.current
  known := h.known
  inside := by simp

/-- Fragments that have been set aside are taken up again. -/
theorem take_up {l m : List Fragment} (h : b.Pending Loose rule l (m.map Fragment.exit ++ Open))
    (inside : ∀ g ∈ m, b.Has rule g.entry ∧ b.Has rule g.exit) : b.Pending Loose rule (l ++ m) Open where
  tidy := by simpa using h.tidy
  current := h.current
  known := h.known
  inside := List.forall_mem_append.2 ⟨h.inside, inside⟩

/-- Suffixes are given their levels. In a loose network some may be left over. -/
theorem zip {l m : List Fragment} (h : b.Pending Loose rule (l ++ m) Open) (levels : List Int)
    (enough : Loose ∨ l.length ≤ levels.length) :
    b.Pending Loose rule ((levels.zip l).map Prod.snd ++ m) Open := by
  have sub : (levels.zip l).map Prod.snd ⊆ l := by
    intro f mem
    obtain ⟨⟨level, f⟩, zipped, rfl⟩ := List.mem_map.1 mem
    exact (List.of_mem_zip zipped).2
  refine ⟨?_, h.current, h.known, fun f mem => h.inside f ?_⟩
  · rcases enough with loose | enough
    · exact h.tidy.loosen loose
    · rw [List.map_snd_zip enough]
      exact h.tidy
  · exact List.mem_append.2 ((List.mem_append.1 mem).imp_left (sub ·))

theorem extend {c : Builder} {m : List Nat} (h : b.Pending Loose rule fs Open) (ext : Extends b c)
    (tidy : c.Tidy Loose (fs.map Fragment.exit ++ m)) : Makes Loose b c rule fs m where
  toExtends := ext
  tidy := tidy
  current := ext.sameRule.trans h.current
  known := ext.starts ▸ h.known
  inside f mem := (h.inside f mem).imp ext.has ext.has

theorem newState (h : b.Pending Loose rule fs Open) {kind : StateKind}
    (new : b.newState kind = (q, b')) (inner : kind ≠ .tokensStart) :
    Makes Loose b b' rule fs (q :: Open) ∧ b'.Has rule q := by
  cases new
  have tidy := (h.mono (List.subset_cons_self b.states.size Open)).tidy
  have known : b.currentRule < b.ruleStarts.size := h.current ▸ h.known
  refine ⟨h.extend (.newState b kind) (tidy.newState kind (fun _ => known) ?_ (List.Subset.refl _)), ?_⟩
  · exact .inr (.inr (.inr (List.mem_append_right _ (.head _))))
  · exact ⟨{ rule := b.currentRule, kind }, by simp, h.current, inner⟩

/-- An edge closes the state that it leaves. -/
theorem addTransition (h : b.Pending Loose rule fs (q :: Open)) {t : Transition}
    (leads : ∀ s, b.states[q]? = some s → b.Leads s t) :
    Makes Loose b (b.addTransition q t) rule fs Open :=
  h.extend (.addTransition b q t) ((h.tidy.mono (by simp)).addTransition leads)

theorem addPlain (h : b.Pending Loose rule fs (q :: Open)) (source : b.Has rule q)
    (stays : b.Has rule target) : Makes Loose b (b.addPlain q target) rule fs Open :=
  h.extend (.addPlain b q target) ((h.tidy.mono (by simp)).addPlain source stays)

theorem setNonGreedy (h : b.Pending Loose rule fs Open) (q : Nat) (nonGreedy : Bool) :
    Makes Loose b (b.setNonGreedy q nonGreedy) rule fs Open :=
  h.extend (.setNonGreedy b q nonGreedy) (h.tidy.setNonGreedy q nonGreedy)

theorem addDecision (h : b.Pending Loose rule fs Open) (q : Nat) :
    Makes Loose b (b.addDecision q) rule fs Open :=
  h.extend (.addDecision b q) (h.tidy.addDecision q)

/-- The first and the last state of a piece make a fragment. -/
theorem fragment (h : b.Pending Loose rule [] (q :: Open)) {entry : Nat} (first : b.Has rule entry)
    (last : b.Has rule q) : b.Pending Loose rule [⟨entry, q⟩] Open where
  tidy := h.tidy
  current := h.current
  known := h.known
  inside := by simpa using ⟨first, last⟩

/-- Two new states joined by an edge. -/
theorem joined (h : b.Pending Loose rule [] Open) {t : Transition} {entry exit : Nat} {b₁ b₂ : Builder}
    (first : b.newState .basic = (entry, b₁)) (second : b₁.newState .basic = (exit, b₂))
    (leads : ∀ s, s.rule = rule → s.kind = .basic → b₂.Has rule exit → b₂.Leads s t) :
    Makes Loose b (b₂.addTransition entry t) rule [⟨entry, exit⟩] Open := by
  obtain ⟨makes₁, has₁⟩ := h.newState first (by simp)
  obtain ⟨makes₂, has₂⟩ := makes₁.toPending.newState second (by simp)
  have pending : b₂.Pending Loose rule [] (entry :: exit :: Open) :=
    makes₂.toPending.mono (List.Perm.swap entry exit Open).subset
  have here : b₂.states[entry]? = some { rule := b.currentRule, kind := .basic } := by
    cases first
    cases second
    rw [Array.getElem?_push_lt (by simp), Array.getElem_push_eq]
  have closed := pending.addTransition (t := t) fun s here' => by
    rw [here] at here'
    cases here'
    exact leads _ h.current rfl has₂
  have makes := (makes₁.trans makes₂).trans closed
  exact ⟨makes.toExtends, makes.toPending.fragment (closed.has (makes₂.has has₁)) (closed.has has₂)⟩

end Pending

section Parts

variable {t : Transition} (h : b.Pending Loose rule [] Open)
include h

theorem edge_makes (inner : ∀ target rule precedence follow, t ≠ .call target rule precedence follow) :
    Makes Loose b (b.edge t).2 rule [(b.edge t).1] Open := by
  refine h.joined rfl rfl fun s same basic has => ?_
  subst same
  cases t with
  | epsilon => exact fun _ => has
  | call target rule precedence follow => exact absurd rfl (inner target rule precedence follow)
  | _ => exact ⟨basic, has⟩

theorem empty_makes : Makes Loose b b.empty.2 rule [b.empty.1] Open :=
  h.joined rfl rfl fun _ same _ has _ => same ▸ has

theorem ref_makes (called : Nat) (precedence : Int) :
    Makes Loose b (b.ref called precedence).2 rule [(b.ref called precedence).1] Open :=
  h.joined rfl rfl fun _ same basic has => ⟨basic, same ▸ has⟩

theorem command_makes (a : LexerAction) :
    Makes Loose b (b.command a).2 rule [(b.command a).1] Open := by
  unfold command
  split
  · exact edge_makes h (by simp)
  · have added := h.extend (c := { b with actions := b.actions.push a })
      ⟨rfl, rfl, rfl, fun _ _ here => ⟨_, here, rfl, rfl⟩⟩ (h.tidy.of_states rfl rfl)
    exact added.trans (edge_makes added.toPending (by simp))

end Parts

/-- Fragments one after the other. -/
theorem chain_makes (h : b.Pending Loose rule (f :: fs) Open) :
    Makes Loose b (b.chain f.exit fs).2 rule [⟨f.entry, (b.chain f.exit fs).1⟩] Open := by
  induction fs generalizing b f with
  | nil => exact h.makes
  | cons g rest ih =>
      obtain ⟨entry, exit⟩ := h.inside f (.head _)
      obtain ⟨next, -⟩ := h.inside g (.tail _ (.head _))
      have joined := h.rest.addPlain exit next
      have chained := joined.trans (ih joined.toPending)
      refine ⟨chained.toExtends, chained.tidy, chained.current, chained.known, ?_⟩
      simpa using ⟨chained.has entry, (chained.inside _ (.head _)).2⟩

theorem sequence_makes (h : b.Pending Loose rule fs Open) :
    Makes Loose b (b.sequence fs).2 rule [(b.sequence fs).1] Open := by
  cases fs with
  | nil => exact empty_makes h
  | cons first rest => exact chain_makes h

/-- A block leads into its fragments and out of them. -/
theorem block_makes {start stop : Nat} (h : b.Pending Loose rule fs Open) (first : b.Has rule start)
    (last : b.Has rule stop) : Makes Loose b (b.block start stop fs) rule [] Open := by
  induction fs generalizing b with
  | nil => exact h.makes
  | cons f rest ih =>
      obtain ⟨entry, exit⟩ := h.inside f (.head _)
      have into := (h.rest.mono (List.subset_cons_self start _)).addPlain first entry
      have out := into.toPending.addPlain (into.has exit) (into.has last)
      have both := into.trans out
      exact both.trans (ih out.toPending (both.has first) (both.has last))

/-- The start of a block is closed by its fragments. -/
theorem block_closes {start stop : Nat} (h : b.Pending Loose rule fs (start :: Open))
    (some : Loose ∨ fs ≠ []) (first : b.Has rule start) (last : b.Has rule stop) :
    Makes Loose b (b.block start stop fs) rule [] Open := by
  cases fs with
  | nil => exact (h.loosen (some.resolve_right (· rfl))).makes
  | cons f rest =>
      obtain ⟨entry, exit⟩ := h.inside f (.head _)
      have into := (h.rest.mono (List.Perm.swap start f.exit Open).subset).addPlain first entry
      have out := into.toPending.addPlain (into.has exit) (into.has last)
      have both := into.trans out
      exact both.trans (block_makes out.toPending (both.has first) (both.has last))

/-- A block has two new states, which are open for more edges. -/
theorem openBlock_makes {shape : BlockShape} {decides : Bool} {start stop : Nat}
    (h : b.Pending Loose rule fs Open) (opens : b.openBlock shape decides = (start, stop, b')) :
    Makes Loose b b' rule fs (start :: stop :: Open) ∧ b'.Has rule start ∧ b'.Has rule stop := by
  rcases ends : b.newState .blockEnd with ⟨last, b₁⟩
  rcases starts : b₁.newState (.blockStart shape last) with ⟨first, b₂⟩
  simp only [openBlock, ends, starts] at opens
  obtain ⟨ended, has_stop⟩ := h.newState ends (by simp)
  obtain ⟨started, has_start⟩ := ended.toPending.newState starts (by simp)
  have both := ended.trans started
  cases decides with
  | false =>
      cases opens
      exact ⟨both, has_start, started.has has_stop⟩
  | true =>
      cases opens
      have numbered := started.toPending.addDecision start
      exact ⟨both.trans numbered, numbered.has has_start, numbered.has (started.has has_stop)⟩

/-- Alternatives are joined side by side, between two new states. -/
theorem alternatives_makes (h : b.Pending Loose rule fs Open) (some : Loose ∨ fs ≠ []) :
    Makes Loose b (b.alternatives fs).2 rule [(b.alternatives fs).1] Open := by
  unfold alternatives
  split
  · exact h.makes
  · rcases opens : b.openBlock .choice (1 < fs.length) with ⟨start, stop, b₁⟩
    obtain ⟨opened, first, last⟩ := openBlock_makes h opens
    have blocked := block_closes opened.toPending some first last
    have all := opened.trans blocked
    exact ⟨all.toExtends, all.toPending.fragment (blocked.has first) (blocked.has last)⟩

theorem optional_makes (h : b.Pending Loose rule fs Open) (greedy : Bool) :
    Makes Loose b (b.optional greedy fs).2 rule [(b.optional greedy fs).1] Open := by
  rcases opens : b.openBlock .choice true with ⟨start, stop, b₁⟩
  obtain ⟨opened, first, last⟩ := openBlock_makes h opens
  have blocked := block_makes opened.toPending first last
  -- The way around the block is put before or behind the edges into it.
  let f (s : StatePlan) : StatePlan := { s with
    nonGreedy := !greedy
    transitions := if greedy then s.transitions ++ [.plain stop] else .plain stop :: s.transitions }
  have bypassed := blocked.extend (m := stop :: Open)
    (.modify _ start f (fun _ => rfl) fun _ => rfl)
    (blocked.tidy.modify (fun _ => rfl) (fun _ => rfl) ?_ ?_ ?_)
  case refine_1 =>
    intro s here t mem
    obtain ⟨s', here', same, -⟩ := blocked.has first
    rw [here] at here'
    cases here'
    have either : t ∈ s.transitions ∨ t = .plain stop := by
      cases greedy <;> simp_all [f, or_comm]
    rcases either with mem | rfl
    · exact blocked.tidy.leads here mem
    · exact fun _ => same ▸ blocked.has last
  case refine_2 =>
    intro s _ empty
    cases greedy <;> simp [f] at empty
  case refine_3 =>
    intro q mem other
    exact (List.mem_cons.1 mem).resolve_left other
  simp only [optional, opens]
  have all := (opened.trans blocked).trans bypassed
  refine ⟨all.toExtends, all.toPending.fragment ?_ ?_⟩
  · exact bypassed.has (blocked.has first)
  · exact bypassed.has (blocked.has last)

/-- A loop decision leads to both of its branches. -/
theorem branches_makes {again leave : Nat} (h : b.Pending Loose rule fs (q :: Open)) (greedy : Bool)
    (source : b.Has rule q) (first : b.Has rule again) (last : b.Has rule leave) :
    Makes Loose b (b.addBranches q greedy again leave) rule fs Open := by
  have both {x y : Nat} (first : b.Has rule x) (second : b.Has rule y) :
      Makes Loose b ((b.addPlain q x).addPlain q y) rule fs Open := by
    have one := h.addPlain source first
    have two := (one.mono (List.subset_cons_self q Open)).addPlain (one.has source) (one.has second)
    exact one.trans two
  cases greedy with
  | true => exact both first last
  | false => exact both last first

/-- A loop goes back to its entry behind each pass. -/
theorem star_makes (h : b.Pending Loose rule fs Open) (greedy : Bool) (some : Loose ∨ fs ≠ []) :
    Makes Loose b (b.star greedy fs).2 rule [(b.star greedy fs).1] Open := by
  rcases opens : b.openBlock .star (1 < fs.length) with ⟨start, stop, b₁⟩
  rcases loops : (b₁.block start stop fs).newState .starLoopBack with ⟨loopBack, b₂⟩
  rcases enters : b₂.newState .starLoopEntry with ⟨entry, b₃⟩
  rcases exits : ((b₃.setNonGreedy entry !greedy).addDecision entry).newState (.loopEnd loopBack)
    with ⟨exit, b₄⟩
  simp only [star, opens, loops, enters, exits]
  obtain ⟨opened, first, last⟩ := openBlock_makes h opens
  have blocked := block_closes opened.toPending some first last
  obtain ⟨looped, has_loopBack⟩ := blocked.toPending.newState loops (by simp)
  obtain ⟨entered, has_entry⟩ := looped.toPending.newState enters (by simp)
  have greed := entered.toPending.setNonGreedy entry !greedy
  have numbered := greed.toPending.addDecision entry
  obtain ⟨exited, has_exit⟩ := numbered.toPending.newState exits (by simp)
  have built := ((opened.trans blocked).trans (looped.trans entered)).trans
    ((greed.trans numbered).trans exited)
  have later : Extends b₃ b₄ := ((greed.trans numbered).trans exited).toExtends
  have from_block : Extends (b₁.block start stop fs) b₄ := (looped.trans entered).toExtends.trans later
  have from_loop : Extends b₂ b₄ := entered.toExtends.trans later
  have pending : b₄.Pending Loose rule [] (entry :: stop :: loopBack :: exit :: Open) :=
    exited.toPending.mono (by grind)
  have branched := branches_makes pending greedy (later.has has_entry)
    (from_block.has (blocked.has first)) has_exit
  have back := branched.toPending.addPlain (branched.has (from_block.has (blocked.has last)))
    (branched.has (from_loop.has has_loopBack))
  have around := branched.trans back
  have again := back.toPending.addPlain (around.has (from_loop.has has_loopBack))
    (around.has (later.has has_entry))
  have all := around.trans again
  refine ⟨built.toExtends.trans all.toExtends, all.toPending.fragment ?_ ?_⟩
  · exact all.has (later.has has_entry)
  · exact all.has has_exit

theorem plus_makes (h : b.Pending Loose rule fs Open) (greedy : Bool) (some : Loose ∨ fs ≠ []) :
    Makes Loose b (b.plus greedy fs).2 rule [(b.plus greedy fs).1] Open := by
  rcases opens : b.openBlock .plus (1 < fs.length) with ⟨start, stop, b₁⟩
  rcases loops : (b₁.block start stop fs).newState .plusLoopBack with ⟨loopBack, b₂⟩
  rcases exits : ((b₂.setNonGreedy loopBack !greedy).addDecision loopBack).newState
    (.loopEnd loopBack) with ⟨exit, b₃⟩
  simp only [plus, opens, loops, exits]
  obtain ⟨opened, first, last⟩ := openBlock_makes h opens
  have blocked := block_closes opened.toPending some first last
  obtain ⟨looped, has_loopBack⟩ := blocked.toPending.newState loops (by simp)
  have greed := looped.toPending.setNonGreedy loopBack !greedy
  have numbered := greed.toPending.addDecision loopBack
  obtain ⟨exited, has_exit⟩ := numbered.toPending.newState exits (by simp)
  have built := ((opened.trans blocked).trans looped).trans ((greed.trans numbered).trans exited)
  have later : Extends b₂ b₃ := ((greed.trans numbered).trans exited).toExtends
  have from_block : Extends (b₁.block start stop fs) b₃ := looped.toExtends.trans later
  have pending : b₃.Pending Loose rule [] (stop :: loopBack :: exit :: Open) :=
    exited.toPending.mono (by grind)
  have back := pending.addPlain (from_block.has (blocked.has last)) (later.has has_loopBack)
  have branched := branches_makes back.toPending greedy (back.has (later.has has_loopBack))
    (back.has (from_block.has (blocked.has first))) (back.has has_exit)
  have all := back.trans branched
  refine ⟨built.toExtends.trans all.toExtends, all.toPending.fragment ?_ ?_⟩
  · exact all.has (from_block.has (blocked.has first))
  · exact all.has has_exit

/-- Guards are put in front of suffixes. -/
theorem guard_makes {suffixes : List (Int × Fragment)}
    (h : b.Pending Loose rule (suffixes.map Prod.snd) Open) :
    Makes Loose b (b.guard suffixes).2 rule (b.guard suffixes).1 Open := by
  induction suffixes generalizing b Open with
  | nil => exact h.makes
  | cons pair rest ih =>
      obtain ⟨level, suffix⟩ := pair
      rcases checks : b.edge (.precedence 0 level) with ⟨check, b₁⟩
      rcases joins : b₁.sequence [check, suffix] with ⟨first, b₂⟩
      simp only [guard, checks, joins]
      have inside {b' : Builder} (ext : Extends b b') {g : Fragment}
          (mem : g ∈ suffix :: rest.map Prod.snd) : b'.Has rule g.entry ∧ b'.Has rule g.exit :=
        (h.inside g mem).imp ext.has ext.has
      -- What is pending is set aside while the guard is built and joined to its suffix.
      have checked := edge_makes h.set_aside (t := .precedence 0 level) (by simp)
      rw [checks] at checked
      have both : b₁.Pending Loose rule [check, suffix] ((rest.map Prod.snd).map Fragment.exit ++ Open) :=
        checked.toPending.take_up (m := [suffix]) fun g mem =>
          inside checked.toExtends (List.mem_singleton.1 mem ▸ .head _)
      have joined := sequence_makes both
      rw [joins] at joined
      have made := checked.toExtends.trans joined.toExtends
      have others : b₂.Pending Loose rule (rest.map Prod.snd) (first.exit :: Open) :=
        (joined.toPending.set_aside.mono (by grind)).take_up (l := []) fun g mem =>
          inside made (.tail _ mem)
      exact (checked.trans joined).cons (ih others)

/-- The suffixes of a left-recursive rule stand in a loop behind the primaries. -/
theorem leftRecursive_makes {suffixes : List (Int × Fragment)}
    (h : b.Pending Loose rule (suffixes.map Prod.snd ++ fs) Open) (primaries : Loose ∨ fs ≠ [])
    (operators : Loose ∨ suffixes ≠ []) :
    Makes Loose b (b.leftRecursive fs suffixes).2 rule [(b.leftRecursive fs suffixes).1] Open := by
  rcases bases : b.alternatives fs with ⟨primary, b₁⟩
  rcases guards : b₁.guard suffixes with ⟨guarded, b₂⟩
  rcases loops : b₂.star true guarded with ⟨loop, b₃⟩
  simp only [leftRecursive, bases, guards, loops]
  have first : b.Pending Loose rule fs ((suffixes.map Prod.snd).map Fragment.exit ++ Open) :=
    { h with
      tidy := h.tidy.mono (by grind)
      inside := fun f mem => h.inside f (List.mem_append_right _ mem) }
  have based := alternatives_makes first primaries
  rw [bases] at based
  have pending : b₁.Pending Loose rule (suffixes.map Prod.snd) (primary.exit :: Open) :=
    (based.toPending.set_aside.mono (by grind)).take_up (l := []) fun g mem =>
      (h.inside g (List.mem_append_left _ mem)).imp based.has based.has
  have guarding := guard_makes pending
  rw [guards] at guarding
  have some : Loose ∨ guarded ≠ [] := operators.imp_right fun operators => by
    obtain ⟨⟨level, suffix⟩, rest, rfl⟩ := List.exists_cons_of_ne_nil operators
    cases guards
    simp
  have looped := star_makes guarding.toPending true some
  rw [loops] at looped
  have both := based.cons (guarding.trans looped)
  exact both.trans (sequence_makes both.toPending)

/-- The atoms of a text. -/
theorem atoms_makes (cs : List Char) (h : b.Pending Loose rule [] Open) :
    Makes Loose b (b.atoms cs).2 rule (b.atoms cs).1 Open := by
  induction cs generalizing b Open with
  | nil => exact h.makes
  | cons c rest ih =>
      have first := edge_makes h (t := .atom 0 c.toNat) (by simp)
      exact first.cons (ih first.toPending.set_aside)

end Builder

/-- Every list of alternatives in the element has some, and each suffix of a left-recursive rule
has a level. -/
def Element.Filled : Element → Prop
  | .sequence es | .optional _ es => ∀ e ∈ es, e.Filled
  | .alternatives es | .star _ es | .plus _ es => es ≠ [] ∧ ∀ e ∈ es, e.Filled
  | .leftRecursive primaries levels suffixes =>
      (primaries ≠ [] ∧ ∀ e ∈ primaries, e.Filled) ∧ (suffixes ≠ [] ∧ ∀ e ∈ suffixes, e.Filled) ∧
        levels.length = suffixes.length
  | _ => True

namespace Builder

variable {b : Builder} {Loose : Prop} {Open : List Nat} {rule : Nat}

theorem elements_eq_nil {es : List Element} : (b.elements es).1 = [] ↔ es = [] := by
  cases es <;> simp [elements]

theorem length_elements (es : List Element) : (b.elements es).1.length = es.length := by
  induction es generalizing b with
  | nil => simp [elements]
  | cons e rest ih => simp [elements, ih]

mutual

/-- An element becomes a fragment. -/
theorem element_makes {b : Builder} {Open : List Nat} (e : Element) (filled : Loose ∨ e.Filled)
    (h : b.Pending Loose rule [] Open) : Makes Loose b (b.element e).2 rule [(b.element e).1] Open := by
  cases e with
  | token | range | set | notSet | wildcard | predicate | precedence | action =>
      rw [element]
      exact edge_makes h (by simp)
  | literal text =>
      rw [element]
      have parts := atoms_makes text.toList h
      exact parts.trans (sequence_makes parts.toPending)
  | empty =>
      rw [element]
      exact empty_makes h
  | ref called precedence =>
      rw [element]
      exact ref_makes h called precedence
  | command a =>
      rw [element]
      exact command_makes h a
  | sequence es =>
      rw [Element.Filled] at filled
      rw [element]
      have parts := elements_makes es filled h
      exact parts.trans (sequence_makes parts.toPending)
  | alternatives es =>
      rw [Element.Filled] at filled
      rw [element]
      have parts := elements_makes es (filled.imp_right And.right) h
      exact parts.trans (alternatives_makes parts.toPending
        (filled.imp_right fun filled => mt elements_eq_nil.1 filled.1))
  | optional greedy es =>
      rw [Element.Filled] at filled
      rw [element]
      have parts := elements_makes es filled h
      exact parts.trans (optional_makes parts.toPending greedy)
  | star greedy es =>
      rw [Element.Filled] at filled
      rw [element]
      have parts := elements_makes es (filled.imp_right And.right) h
      exact parts.trans (star_makes parts.toPending greedy
        (filled.imp_right fun filled => mt elements_eq_nil.1 filled.1))
  | plus greedy es =>
      rw [Element.Filled] at filled
      rw [element]
      have parts := elements_makes es (filled.imp_right And.right) h
      exact parts.trans (plus_makes parts.toPending greedy
        (filled.imp_right fun filled => mt elements_eq_nil.1 filled.1))
  | leftRecursive primaries levels suffixes =>
      rw [Element.Filled] at filled
      rw [element]
      have bases := elements_makes primaries (filled.imp_right (·.1.2)) h
      have parts := elements_makes suffixes (filled.imp_right (·.2.1.2)) bases.toPending.set_aside
      have pending := parts.toPending.take_up fun f mem => (bases.inside f mem).imp parts.has parts.has
      have zipped := pending.zip levels (filled.imp_right fun filled => by
        rw [length_elements]
        exact Nat.le_of_eq filled.2.2.symm)
      have joined := leftRecursive_makes zipped
        (filled.imp_right fun filled => mt elements_eq_nil.1 filled.1.1)
        (filled.imp_right fun ⟨_, ⟨given, _⟩, same⟩ empty => by
          have none : levels.length = 0 ∨ suffixes.length = 0 := by
            simpa [length_elements, Nat.min_eq_zero_iff] using congrArg List.length empty
          exact given (List.length_eq_zero_iff.1 (none.elim same.symm.trans id)))
      exact ⟨(bases.toExtends.trans parts.toExtends).trans joined.toExtends, joined.toPending⟩

/-- Elements become fragments. -/
theorem elements_makes {b : Builder} {Open : List Nat} (es : List Element)
    (filled : Loose ∨ ∀ e ∈ es, e.Filled) (h : b.Pending Loose rule [] Open) :
    Makes Loose b (b.elements es).2 rule (b.elements es).1 Open := by
  cases es with
  | nil =>
      rw [elements]
      exact h.makes
  | cons e rest =>
      rw [elements]
      have first := element_makes e (filled.imp_right (· e (.head _))) h
      exact first.cons (elements_makes rest (filled.imp_right fun filled e mem => filled e (.tail _ mem))
        first.toPending.set_aside)

end

/-- A rule that is declared has a start, which is open, and a stop. -/
theorem declare_tidy (h : b.Tidy Loose Open) (leftRecursive : Bool) (tokenType : Symbol) :
    (b.declare leftRecursive tokenType).2.Tidy Loose ((b.states.size + 1) :: Open) := by
  let stop : StatePlan := { rule := b.ruleStarts.size, kind := .ruleStop }
  let start : StatePlan :=
    { rule := b.ruleStarts.size, kind := .ruleStart b.states.size leftRecursive }
  have states : (b.declare leftRecursive tokenType).2.states = (b.states.push stop).push start := rfl
  have starts : (b.declare leftRecursive tokenType).2.ruleStarts
      = b.ruleStarts.push (b.states.size + 1) := by
    simp [declare, Builder.newState]
  have cases {q : Nat} {s : StatePlan} (here : ((b.states.push stop).push start)[q]? = some s) :
      b.states[q]? = some s ∨ q = b.states.size ∧ s = stop ∨ q = b.states.size + 1 ∧ s = start := by
    simp only [Array.getElem?_push, Array.size_push] at here
    split at here
    · exact .inr (.inr ⟨by assumption, (Option.some.inj here).symm⟩)
    · split at here
      · exact .inr (.inl ⟨by assumption, (Option.some.inj here).symm⟩)
      · exact .inl here
  have keeps : Keeps b (b.declare leftRecursive tokenType).2 := fun q s here => by
    have lt := (Array.getElem?_eq_some_iff.1 here).1
    refine ⟨s, ?_, rfl, rfl⟩
    rw [states, Array.getElem?_push, Array.getElem?_push, Array.size_push, if_neg (by omega),
      if_neg (by omega)]
    exact here
  constructor
  case leads =>
    intro q s t here mem
    rcases cases (states ▸ here) with here | ⟨-, rfl⟩ | ⟨-, rfl⟩
    · exact keeps.leads rfl rfl (h.leads here mem)
    · cases mem
    · cases mem
  case going =>
    intro q s here empty
    rcases cases (states ▸ here) with here | ⟨-, rfl⟩ | ⟨rfl, -⟩
    · exact (h.going here empty).imp_right (.imp_right (.imp_right (.tail _)))
    · exact .inl rfl
    · exact .inr (.inr (.inr (.head _)))
  case starts =>
    intro rule q here
    rw [starts, Array.getElem?_push] at here
    split at here
    case isTrue same =>
        cases here
        refine ⟨start, b.states.size, leftRecursive, ?_, same.symm, rfl, stop, ?_, same.symm, ?_⟩
        · rw [states, Array.getElem?_push, Array.size_push, if_pos rfl]
        · rw [states, Array.getElem?_push_lt (by simp), Array.getElem_push_eq]
        · simp [stop]
    case isFalse =>
        obtain ⟨s, stop, leftRecursive, here, same, kind, has⟩ := h.starts here
        obtain ⟨s', here', same', kind'⟩ := keeps _ _ here
        exact ⟨s', stop, leftRecursive, here', same'.trans same, kind'.trans kind, keeps.has has⟩
  case rules =>
    intro q s here inner
    rw [starts, Array.size_push]
    rcases cases (states ▸ here) with here | ⟨-, rfl⟩ | ⟨-, rfl⟩
    · exact Nat.lt_succ_of_lt (h.rules here inner)
    · exact Nat.lt_succ_self _
    · exact Nat.lt_succ_self _

/-- A rule gets a body. -/
theorem define_tidy (h : b.Tidy Loose Open) (rule : Nat) {body : Element}
    (filled : Loose ∨ body.Filled) :
    (b.define rule body).Tidy Loose Open ∧ (b.define rule body).ruleStarts = b.ruleStarts ∧
      (b.define rule body).kind = b.kind := by
  unfold define
  cases start : b.ruleStarts[rule]? with
  | none => exact ⟨h, rfl, rfl⟩
  | some q =>
      obtain ⟨s, stop, leftRecursive, here, same, kind, has_stop⟩ := h.starts start
      have known := (Array.getElem?_eq_some_iff.1 start).1
      have pending : Pending { b with currentRule := rule } Loose rule [] Open :=
        ⟨h.of_states rfl rfl, rfl, known, by simp⟩
      have made := element_makes body filled pending
      rcases built : { b with currentRule := rule }.element body with ⟨f, b₁⟩
      rw [built] at made
      obtain ⟨s', here', same', kind'⟩ := made.states _ _ here
      obtain ⟨entry, exit⟩ := made.inside f (.head _)
      have has_start : b₁.Has rule q := ⟨s', here', same'.trans same, by simp [kind', kind]⟩
      have stops : b₁.states[q]?.map StatePlan.kind = some (.ruleStart stop leftRecursive) := by
        rw [here', Option.map_some, kind', kind]
      simp only [built, stops]
      have into := (made.rest.mono (List.subset_cons_self q _)).addPlain has_start entry
      have out := into.toPending.addPlain (into.has exit) (into.has (made.has has_stop))
      exact ⟨out.tidy, (out.starts.trans into.starts).trans made.starts,
        (out.sameKind.trans into.sameKind).trans made.sameKind⟩

/-- The entry of a mode belongs to no rule, and may lead anywhere. -/
theorem addPlains_tidy (h : b.Tidy Loose Open) {q : Nat} {s : StatePlan} (here : b.states[q]? = some s)
    (entry : s.kind = .tokensStart) (targets : List Nat) :
    (targets.foldl (fun b target => b.addPlain q target) b).Tidy Loose Open ∧
      Extends b (targets.foldl (fun b target => b.addPlain q target) b) := by
  induction targets generalizing b s with
  | nil => exact ⟨h, .refl b⟩
  | cons target rest ih =>
      have led : (b.addPlain q target).Tidy Loose Open :=
        (h.mono (List.subset_cons_self q _)).addTransition fun s' here' inner => by
          rw [here] at here'
          cases here'
          exact absurd entry inner
      have ext := Extends.addPlain b q target
      obtain ⟨s', here', -, kind⟩ := ext.states _ _ here
      exact (ih led here' (kind.trans entry)).imp id ext.trans

/-- A mode has its own start state, and leaves the rules alone. -/
theorem addMode_tidy (h : b.Tidy Loose Open) (rules : List Nat) :
    (b.addMode rules).Tidy Loose Open ∧ (b.addMode rules).ruleStarts = b.ruleStarts ∧
      (b.addMode rules).kind = b.kind := by
  have entered : (b.newState .tokensStart).2.Tidy Loose Open :=
    h.newState .tokensStart (fun inner => absurd rfl inner) (.inr (.inl rfl)) (List.Subset.refl _)
  have numbered := entered.addDecision b.states.size
  have here : ((b.newState .tokensStart).2.addDecision b.states.size).states[b.states.size]?
      = some { rule := b.currentRule, kind := .tokensStart } := by
    simp [Builder.newState, addDecision]
  obtain ⟨led, ext⟩ := addPlains_tidy numbered here rfl
    (rules.filterMap (((b.newState .tokensStart).2.addDecision b.states.size).ruleStarts[·]?))
  exact ⟨led.of_states rfl rfl, ext.starts, ext.sameKind⟩

end Builder

/-- The rules of a grammar have no empty list of alternatives. -/
def RuleSet.Filled (g : RuleSet) : Prop :=
  ∀ r ∈ g.rules, ∀ body, r.body = some body → body.Filled

/-- The network under construction is tidy but for the starts of rules without a body. -/
theorem RuleSet.builder_tidy {Loose : Prop} {g : RuleSet} (filled : Loose ∨ g.Filled) :
    g.builder.Tidy Loose g.builder.ruleStarts.toList ∧ g.builder.kind = g.kind := by
  let Inv (b : Builder) : Prop := b.Tidy Loose b.ruleStarts.toList ∧ b.kind = g.kind
  have keep {b b' : Builder} (inv : Inv b)
      (h : b'.Tidy Loose b.ruleStarts.toList ∧ b'.ruleStarts = b.ruleStarts ∧ b'.kind = b.kind) :
      Inv b' :=
    ⟨h.2.1.symm ▸ h.1, h.2.2.trans inv.2⟩
  have new : Inv { kind := g.kind, maxToken := g.maxToken } := by
    refine ⟨?_, rfl⟩
    constructor <;> simp
  unfold builder
  extract_lets empty declared defined
  have all_declared : Inv declared := by
    refine List.foldlRecOn g.rules _ new fun b h r _ => ⟨?_, h.2⟩
    refine (Builder.declare_tidy h.1 r.leftRecursive r.tokenType).mono ?_
    simp [Builder.declare, Builder.newState]
  have all_defined : Inv defined := by
    refine List.foldlRecOn g.rules.zipIdx _ all_declared fun b h ⟨r, i⟩ mem => ?_
    dsimp only
    split
    case h_1 e body =>
        exact keep h (b.define_tidy h.1 _
          (filled.imp_right (· r (List.fst_mem_of_mem_zipIdx mem) e body)))
    case h_2 => exact h
  exact List.foldlRecOn g.modes _ all_defined fun b h rules _ => keep h (b.addMode_tidy h.1 rules)

end AdaptiveLL
