import AdaptiveLL.Proofs.Network.Combinators
import Mathlib.Data.List.Nodup
import Mathlib.Data.List.Perm.Subperm
/-!
Fragments that are built and not yet joined to anything. Building an element leaves the states
that are there as they are; the exits of its fragments are open, each gets one edge when its
fragment is joined to something, and no two fragments share an exit.
-/
namespace AdaptiveLL

/-- States of these kinds get their one edge when they are joined to something. -/
def StateKind.takesEdge : StateKind → Bool
  | .basic | .ruleStart .. | .blockEnd | .loopEnd _ => true
  | _ => false

namespace Builder

variable {b b₀ b₁ b₂ b' : Builder} {f : Fragment} {fs gs rest : List Fragment}
  {links : List (Nat × Nat)} {new : List StatePlan} {marks : List Nat} {q : Nat}

/-- The state has no edge yet, and takes one. -/
def IsOpen (b : Builder) (q : Nat) : Prop :=
  ∃ s, b.states[q]? = some s ∧ s.transitions = [] ∧ s.kind.takesEdge = true

theorem IsOpen.lt (h : b.IsOpen q) : q < b.states.size := by
  obtain ⟨s, here, -⟩ := h
  exact (Array.getElem?_eq_some_iff.1 here).1

/-- The state is no stop of a rule. -/
def IsGoing (b : Builder) (q : Nat) : Prop :=
  ∃ s, b.states[q]? = some s ∧ s.kind ≠ .ruleStop

/-- The fragments were built on top of what was there. -/
structure Fresh (b₀ b : Builder) (fs : List Fragment) : Prop where
  size : b₀.states.size ≤ b.states.size
  old : ∀ q < b₀.states.size, b.states[q]? = b₀.states[q]?
  exits : ∀ f ∈ fs, b₀.states.size ≤ f.exit ∧ b.IsOpen f.exit
  apart : (fs.map Fragment.exit).Nodup
  entries : ∀ f ∈ fs, b.IsGoing f.entry
  kind : b.kind = b₀.kind
  currentRule : b.currentRule = b₀.currentRule
  ruleStarts : b.ruleStarts = b₀.ruleStarts
  modes : b.modes = b₀.modes

namespace Joins

/-- States keep their rule and their kind. -/
theorem get (h : Joins b b' links new marks) {s : StatePlan} (here : b.states[q]? = some s) :
    b'.states[q]? = some (s.joined links q) := by
  rw [h.old q (Array.getElem?_eq_some_iff.1 here).1, here, Option.map_some]

theorem isGoing (h : Joins b b' links new marks) (going : b.IsGoing q) : b'.IsGoing q := by
  obtain ⟨s, here, kind⟩ := going
  exact ⟨_, h.get here, kind⟩

/-- A state that no link leaves stays as it is. -/
theorem unlinked (h : Joins b b' links new marks) (lt : q < b.states.size)
    (apart : ∀ l ∈ links, l.1 ≠ q) : b'.states[q]? = b.states[q]? := by
  have none : links.filter (·.1 == q) = [] := by simpa [List.filter_eq_nil_iff] using apart
  rw [h.old q lt]
  cases b.states[q]? <;> simp [StatePlan.joined, none]

/-- A link from an open state becomes its edge. -/
theorem linked (h : Joins b b' links new marks) {source target : Nat}
    (mem : (source, target) ∈ links) (once : (links.map Prod.fst).Nodup) {s : StatePlan}
    (here : b.states[source]? = some s) (bare : s.transitions = []) :
    b'.states[source]? = some { s with transitions := [.plain target] } := by
  have lt := (Array.getElem?_eq_some_iff.1 here).1
  have one : links.filter (·.1 == source) = [(source, target)] := by
    refine List.perm_singleton.1 ((List.perm_ext_iff_of_nodup ?_ (List.nodup_singleton _)).2 ?_)
    · exact (List.Nodup.of_map _ once).filter _
    · rintro ⟨x, y⟩
      simp only [List.mem_filter, beq_iff_eq, List.mem_singleton, Prod.mk.injEq]
      refine ⟨fun ⟨mem', same⟩ => ⟨same, ?_⟩, fun ⟨same, same'⟩ => ⟨same ▸ same' ▸ mem, same⟩⟩
      subst same
      exact congrArg Prod.snd (List.inj_on_of_nodup_map once mem' mem rfl)
  simp [h.old source lt, here, StatePlan.joined, one, bare]

end Joins

namespace Fresh

theorem refl (b : Builder) : Fresh b b [] where
  size := Nat.le_refl _
  old _ _ := rfl
  exits := by simp
  apart := by simp
  entries := by simp
  kind := rfl
  currentRule := rfl
  ruleStarts := rfl
  modes := rfl

theorem subperm (h : Fresh b₀ b fs) (sub : gs.Subperm fs) : Fresh b₀ b gs :=
  { h with
    exits := fun f mem => h.exits f (sub.subset mem)
    apart := by
      obtain ⟨l, perm, sub⟩ := sub
      exact (perm.map _).nodup_iff.1 ((sub.map _).nodup h.apart)
    entries := fun f mem => h.entries f (sub.subset mem) }

theorem only (h : Fresh b₀ b fs) : Fresh b₀ b (fs ++ []) := by
  rwa [List.append_nil]

theorem isOpen (h : Fresh b₀ b fs) (here : b₀.IsOpen q) : b.IsOpen q := by
  have lt := here.lt
  obtain ⟨s, here, empty, takes⟩ := here
  exact ⟨s, (h.old q lt).trans here, empty, takes⟩

theorem isGoing (h : Fresh b₀ b fs) (going : b₀.IsGoing q) : b.IsGoing q := by
  obtain ⟨s, here, kind⟩ := going
  exact ⟨s, (h.old q (Array.getElem?_eq_some_iff.1 here).1).trans here, kind⟩

/-- Fragments that were there are joined by those that are built next. -/
theorem append (first : Fresh b₀ b₁ fs) (second : Fresh b₁ b₂ gs) : Fresh b₀ b₂ (fs ++ gs) where
  size := Nat.le_trans first.size second.size
  old q lt := (second.old q (Nat.lt_of_lt_of_le lt first.size)).trans (first.old q lt)
  exits f mem := by
    rcases List.mem_append.1 mem with mem | mem
    · exact (first.exits f mem).imp_right second.isOpen
    · exact (second.exits f mem).imp_left (Nat.le_trans first.size)
  apart := by
    rw [List.map_append, List.nodup_append]
    refine ⟨first.apart, second.apart, ?_⟩
    rintro q here q' there rfl
    obtain ⟨f, mem, rfl⟩ := List.mem_map.1 here
    obtain ⟨g, mem', same⟩ := List.mem_map.1 there
    exact absurd (second.exits g mem').1 (Nat.not_le.2 (same ▸ (first.exits f mem).2.lt))
  entries f mem := by
    rcases List.mem_append.1 mem with mem | mem
    · exact second.isGoing (first.entries f mem)
    · exact second.entries f mem
  kind := second.kind.trans first.kind
  currentRule := second.currentRule.trans first.currentRule
  ruleStarts := second.ruleStarts.trans first.ruleStarts
  modes := second.modes.trans first.modes

theorem lt (h : Fresh b₀ b fs) : ∀ f ∈ fs, f.exit < b.states.size :=
  fun f mem => (h.exits f mem).2.lt

/-- Fragments are joined to one, whose exit is new or one of theirs that is not linked. -/
theorem joins (h : Fresh b₀ b (fs ++ rest)) (joins : Joins b b' links new marks)
    (entry : b'.IsGoing f.entry) (sources : ∀ l ∈ links, l.1 ∈ fs.map Fragment.exit)
    (exit : b.states.size ≤ f.exit ∧ b'.IsOpen f.exit ∨
      f.exit ∈ fs.map Fragment.exit ∧ ∀ l ∈ links, l.1 ≠ f.exit) : Fresh b₀ b' (f :: rest) := by
  have parts := List.nodup_append.1 (List.map_append ▸ h.apart)
  have stays {q : Nat} (here : b.IsOpen q) (apart : ∀ l ∈ links, l.1 ≠ q) : b'.IsOpen q := by
    have lt := here.lt
    obtain ⟨s, here, empty, takes⟩ := here
    exact ⟨s, (joins.unlinked lt apart).trans here, empty, takes⟩
  constructor
  case size => rw [joins.size]; exact Nat.le_trans h.size (Nat.le_add_right _ _)
  case old =>
    intro q lt
    refine (joins.unlinked (Nat.lt_of_lt_of_le lt h.size) fun l mem same => ?_).trans (h.old q lt)
    obtain ⟨g, mem', same'⟩ := List.mem_map.1 (sources l mem)
    have := (h.exits g (List.mem_append_left _ mem')).1
    omega
  case exits =>
    refine List.forall_mem_cons.2 ⟨?_, fun g mem => ?_⟩
    · rcases exit with ⟨le, opens⟩ | ⟨mem, apart⟩
      · exact ⟨Nat.le_trans h.size le, opens⟩
      · obtain ⟨g, mem, same⟩ := List.mem_map.1 mem
        have here := h.exits g (List.mem_append_left _ mem)
        rw [same] at here
        exact here.imp_right fun here => stays here apart
    · refine (h.exits g (List.mem_append_right _ mem)).imp_right fun here => stays here ?_
      intro l mem' same
      exact parts.2.2 _ (sources l mem') _ (List.mem_map_of_mem mem) same
  case apart =>
    rw [List.map_cons, List.nodup_cons]
    refine ⟨fun mem => ?_, parts.2.1⟩
    rcases exit with ⟨le, -⟩ | ⟨mem', -⟩
    · obtain ⟨g, mem, same⟩ := List.mem_map.1 mem
      have := h.lt g (List.mem_append_right _ mem)
      omega
    · exact parts.2.2 _ mem' _ mem rfl
  case entries =>
    refine List.forall_mem_cons.2 ⟨entry, fun g mem => ?_⟩
    exact joins.isGoing (h.entries g (List.mem_append_right _ mem))
  case kind => exact joins.kind.trans h.kind
  case currentRule => exact joins.currentRule.trans h.currentRule
  case ruleStarts => exact joins.ruleStarts.trans h.ruleStarts
  case modes => exact joins.modes.trans h.modes

end Fresh

theorem Joins.isOpen (h : Joins b b' links new marks) {i : Nat} {s : StatePlan}
    (here : new[i]? = some s) (bare : s.transitions = []) (takes : s.kind.takesEdge = true) :
    b'.IsOpen (b.states.size + i) :=
  ⟨s, (h.new i).trans here, bare, takes⟩

theorem Joins.isGoing_new (h : Joins b b' links new marks) {i : Nat} {s : StatePlan}
    (here : new[i]? = some s) (kind : s.kind ≠ .ruleStop) : b'.IsGoing (b.states.size + i) :=
  ⟨s, (h.new i).trans here, kind⟩

/-! ### Combinators -/

section Parts

/-- A fragment of two new states, where nothing is linked. -/
theorem Joins.fresh {entry exit : StatePlan} (h : Joins b b' [] [entry, exit] [])
    (fragment : f = ⟨b.states.size, b.states.size + 1⟩) (going : entry.kind ≠ .ruleStop)
    (bare : exit.transitions = []) (takes : exit.kind.takesEdge = true) : Fresh b b' [f] := by
  subst fragment
  have none : Fresh b b ([] ++ []) := .refl b
  exact none.joins h (h.isGoing_new (i := 0) rfl going) (by simp)
    (.inl ⟨Nat.le_add_right _ _, h.isOpen rfl bare takes⟩)

theorem edge_fresh (b : Builder) (t : Transition) : Fresh b (b.edge t).2 [(b.edge t).1] := by
  obtain ⟨fragment, joins⟩ := b.edge_joins t
  exact joins.fresh fragment nofun rfl rfl

theorem empty_fresh (b : Builder) : Fresh b b.empty.2 [b.empty.1] := by
  obtain ⟨fragment, joins⟩ := b.empty_joins
  exact joins.fresh fragment nofun rfl rfl

theorem ref_fresh (b : Builder) (rule : Nat) (precedence : Int) :
    Fresh b (b.ref rule precedence).2 [(b.ref rule precedence).1] := by
  obtain ⟨fragment, joins⟩ := b.ref_joins rule precedence
  exact joins.fresh fragment nofun rfl rfl

theorem command_fresh (b : Builder) (a : LexerAction) :
    Fresh b (b.command a).2 [(b.command a).1] := by
  unfold command
  split
  · exact b.edge_fresh _
  · obtain ⟨size, old, exits, apart, entries, kind, currentRule, ruleStarts, modes⟩ :=
      edge_fresh { b with actions := b.actions.push a }
        (.action 0 b.currentRule (some b.actions.size) false)
    exact ⟨size, old, exits, apart, entries, kind, currentRule, ruleStarts, modes⟩

variable (h : Fresh b₀ b (fs ++ rest))
include h

theorem exits_lt : ∀ f ∈ fs, f.exit < b.states.size :=
  fun f mem => h.lt f (List.mem_append_left _ mem)

/-- A choice of any kind: all fragments are joined to its end. -/
theorem Fresh.closed {stop i j : Nat} {s s' : StatePlan}
    (joins : Joins b b' (fs.map fun f => (f.exit, stop)) new marks)
    (fragment : f = ⟨b.states.size + j, b.states.size + i⟩) (there : new[j]? = some s')
    (going : s'.kind ≠ .ruleStop) (here : new[i]? = some s) (bare : s.transitions = [])
    (takes : s.kind.takesEdge = true) : Fresh b₀ b' (f :: rest) := by
  subst fragment
  refine h.joins joins (joins.isGoing_new there going) (fun l mem => ?_)
    (.inl ⟨Nat.le_add_right _ _, joins.isOpen here bare takes⟩)
  obtain ⟨g, here, rfl⟩ := List.mem_map.1 mem
  exact List.mem_map_of_mem here

theorem alternatives_fresh : Fresh b₀ (b.alternatives fs).2 ((b.alternatives fs).1 :: rest) := by
  by_cases one : fs.length = 1
  · obtain ⟨f, rfl⟩ := List.length_eq_one_iff.1 one
    exact h
  · obtain ⟨fragment, joins⟩ := alternatives_joins one (exits_lt h)
    exact h.closed joins (i := 0) fragment rfl nofun rfl rfl rfl

theorem optional_fresh (greedy : Bool) :
    Fresh b₀ (b.optional greedy fs).2 ((b.optional greedy fs).1 :: rest) := by
  obtain ⟨fragment, joins⟩ := optional_joins greedy (exits_lt h)
  exact h.closed joins (i := 0) fragment rfl nofun rfl rfl rfl

theorem star_fresh (greedy : Bool) :
    Fresh b₀ (b.star greedy fs).2 ((b.star greedy fs).1 :: rest) := by
  obtain ⟨fragment, joins⟩ := star_joins greedy (exits_lt h)
  exact h.closed joins fragment rfl nofun rfl rfl rfl

theorem plus_fresh (greedy : Bool) :
    Fresh b₀ (b.plus greedy fs).2 ((b.plus greedy fs).1 :: rest) := by
  obtain ⟨fragment, joins⟩ := plus_joins greedy (exits_lt h)
  exact h.closed joins fragment rfl nofun rfl rfl rfl

omit h in
/-- All exits in a row but the last one are joined to something. -/
theorem map_fst_chainLinks (exit : Nat) (fs : List Fragment) :
    (chainLinks exit fs).map Prod.fst = (exit :: fs.map Fragment.exit).dropLast := by
  induction fs generalizing exit with
  | nil => rfl
  | cons f rest ih => simp [chainLinks, ih f.exit]

theorem isOpen_exit {q : Nat} (mem : q ∈ fs.map Fragment.exit) : b.IsOpen q := by
  obtain ⟨f, among, rfl⟩ := List.mem_map.1 mem
  exact (h.exits f (List.mem_append_left _ among)).2

/-- The exits that are joined in a row are open, and no two are the same. -/
theorem chainLinks_open {f : Fragment} {gs : List Fragment} (eq : fs = f :: gs) :
    (∀ l ∈ chainLinks f.exit gs, b.IsOpen l.1) ∧ ((chainLinks f.exit gs).map Prod.fst).Nodup := by
  subst eq
  have apart : ((f :: gs).map Fragment.exit).Nodup :=
    (List.nodup_append.1 (List.map_append ▸ h.apart)).1
  refine ⟨fun l mem => isOpen_exit h (List.dropLast_subset _ ?_), ?_⟩
  · rw [List.map_cons, ← map_fst_chainLinks]
    exact List.mem_map_of_mem mem
  · rw [map_fst_chainLinks]
    exact apart.sublist (List.dropLast_sublist _)

theorem sequence_fresh : Fresh b₀ (b.sequence fs).2 ((b.sequence fs).1 :: rest) := by
  cases fs with
  | nil =>
      have made := Fresh.append h b.empty_fresh
      exact made.subperm (List.perm_append_singleton _ _).symm.subperm
  | cons first fs =>
      obtain ⟨last, joins⟩ := chain_joins (.refl b) first.exit fs
        ⟨exits_lt h _ (.head _), fun f mem => exits_lt h f (.tail _ mem)⟩
      have apart : ((first :: fs).map Fragment.exit).Nodup :=
        ((List.nodup_append.1 (List.map_append ▸ h.apart)).1)
      have sources {l : Nat × Nat} (mem : l ∈ [] ++ chainLinks first.exit fs) :
          l.1 ∈ (first.exit :: fs.map Fragment.exit).dropLast := by
        rw [← map_fst_chainLinks]
        exact List.mem_map_of_mem mem
      refine h.joins joins ?_ (fun l mem => List.dropLast_subset _ (sources mem)) (.inr ?_)
      · exact joins.isGoing (h.entries first (.head _))
      simp only [sequence, last]
      refine ⟨List.getLast_mem (l := first.exit :: fs.map Fragment.exit) (by simp), ?_⟩
      intro l mem same
      have parts := List.dropLast_append_getLast (l := first.exit :: fs.map Fragment.exit) (by simp)
      rw [List.map_cons, ← parts, List.nodup_append] at apart
      exact apart.2.2 _ (sources mem) _ (.head _) same

end Parts

/-- Each suffix is given its guard. -/
theorem guard_fresh {suffixes : List (Int × Fragment)}
    (h : Fresh b₀ b (suffixes.map Prod.snd ++ rest)) :
    Fresh b₀ (b.guard suffixes).2 ((b.guard suffixes).1 ++ rest) := by
  induction suffixes generalizing b rest with
  | nil => exact h
  | cons pair others ih =>
      obtain ⟨level, suffix⟩ := pair
      rcases checks : b.edge (.precedence 0 level) with ⟨check, b₁⟩
      rcases joins : b₁.sequence [check, suffix] with ⟨first, b₂⟩
      simp only [guard, checks, joins]
      have checked := h.append (b.edge_fresh (.precedence 0 level))
      rw [checks] at checked
      have both : Fresh b₀ b₁ ([check, suffix] ++ (others.map Prod.snd ++ rest)) :=
        checked.subperm (List.perm_append_singleton check _).symm.subperm
      have joined := sequence_fresh both
      rw [joins] at joined
      have behind : Fresh b₀ b₂ (others.map Prod.snd ++ (first :: rest)) :=
        joined.subperm List.perm_middle.subperm
      exact (ih behind).subperm List.perm_middle.symm.subperm

theorem leftRecursive_fresh {suffixes : List (Int × Fragment)}
    (h : Fresh b₀ b (fs ++ (suffixes.map Prod.snd ++ rest))) :
    Fresh b₀ (b.leftRecursive fs suffixes).2 ((b.leftRecursive fs suffixes).1 :: rest) := by
  rcases bases : b.alternatives fs with ⟨primary, b₁⟩
  rcases guards : b₁.guard suffixes with ⟨guarded, b₂⟩
  rcases loops : b₂.star true guarded with ⟨loop, b₃⟩
  simp only [leftRecursive, bases, guards, loops]
  have based := alternatives_fresh h
  rw [bases] at based
  have pending : Fresh b₀ b₁ (suffixes.map Prod.snd ++ (primary :: rest)) :=
    based.subperm List.perm_middle.subperm
  have guarding := guard_fresh pending
  rw [guards] at guarding
  have looped := star_fresh guarding true
  rw [loops] at looped
  have both : Fresh b₀ b₃ ([primary, loop] ++ rest) :=
    looped.subperm (List.Perm.swap ..).subperm
  exact sequence_fresh both

theorem atoms_fresh (b : Builder) (cs : List Char) : Fresh b (b.atoms cs).2 (b.atoms cs).1 := by
  induction cs generalizing b with
  | nil => exact .refl b
  | cons c cs ih => exact (b.edge_fresh (.atom 0 c.toNat)).append (ih _)

/-- Levels that are missing leave suffixes out. -/
theorem map_snd_zip_sublist (levels : List Int) (fs : List Fragment) :
    ((levels.zip fs).map Prod.snd).Sublist fs := by
  induction levels generalizing fs with
  | nil => simp
  | cons level levels ih =>
      cases fs with
      | nil => simp
      | cons f fs => exact (ih fs).cons_cons f

mutual

/-- An element becomes a fragment on top of what was there. -/
theorem element_fresh (b : Builder) (e : Element) : Fresh b (b.element e).2 [(b.element e).1] := by
  cases e with
  | token | range | set | notSet | wildcard | predicate | precedence | action =>
      rw [element]
      exact b.edge_fresh _
  | literal text =>
      rw [element]
      exact sequence_fresh (b.atoms_fresh text.toList).only
  | empty =>
      rw [element]
      exact b.empty_fresh
  | ref rule precedence =>
      rw [element]
      exact b.ref_fresh rule precedence
  | command a =>
      rw [element]
      exact b.command_fresh a
  | sequence es =>
      rw [element]
      exact sequence_fresh (b.elements_fresh es).only
  | alternatives es =>
      rw [element]
      exact alternatives_fresh (b.elements_fresh es).only
  | optional greedy es =>
      rw [element]
      exact optional_fresh (b.elements_fresh es).only greedy
  | star greedy es =>
      rw [element]
      exact star_fresh (b.elements_fresh es).only greedy
  | plus greedy es =>
      rw [element]
      exact plus_fresh (b.elements_fresh es).only greedy
  | leftRecursive primaries levels suffixes =>
      rw [element]
      have both := (b.elements_fresh primaries).append (elements_fresh _ suffixes)
      refine leftRecursive_fresh (both.subperm ?_)
      rw [List.append_nil]
      refine ((List.subperm_append_left _).2 (List.Sublist.subperm ?_))
      exact map_snd_zip_sublist levels _

/-- Elements become fragments, one beside the other. -/
theorem elements_fresh (b : Builder) (es : List Element) :
    Fresh b (b.elements es).2 (b.elements es).1 := by
  cases es with
  | nil =>
      rw [elements]
      exact .refl b
  | cons e rest =>
      rw [elements]
      exact (b.element_fresh e).append (elements_fresh _ rest)

end

end Builder

end AdaptiveLL
