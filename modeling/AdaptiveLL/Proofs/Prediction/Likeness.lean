import AdaptiveLL.Prediction.Choice
import AdaptiveLL.Proofs.Prediction.Alternatives
import AdaptiveLL.Proofs.Prediction.Renumbering
import Mathlib.Data.List.Sort
/-!
Threads, sets and tables that differ in nothing but the numbers of their stacks. What prediction
asks of them comes out the same: it only ever compares stacks with each other.
-/
namespace AdaptiveLL

open Relator (BiUnique)

variable {R R' : Nat → Nat → Prop}

section Lists

variable {α : Type} {S : α → α → Prop} {xs xs' : List α}

theorem forall₂_getElem? (each : List.Forall₂ S xs xs') (k : Nat) :
    Option.Rel S xs[k]? xs'[k]? := by
  induction each generalizing k with
  | nil => exact .none
  | cons head _ ih =>
      cases k with
      | zero => exact .some head
      | succ k => exact ih k

theorem forall₂_modify (each : List.Forall₂ S xs xs') {f f' : α → α}
    (step : ∀ x x', S x x' → S (f x) (f' x')) (k : Nat) :
    List.Forall₂ S (xs.modify k f) (xs'.modify k f') := by
  induction each generalizing k with
  | nil => cases k <;> exact .nil
  | cons head tail ih =>
      cases k with
      | zero => exact .cons (step _ _ head) tail
      | succ k => exact .cons head (ih k)

end Lists

/-- Threads that are the same up to their stacks, which `R` relates. -/
def Configuration.Like (R : Nat → Nat → Prop) (c c' : Configuration) : Prop :=
  ∃ stack, R c.stack stack ∧ c' = { c with stack }

namespace Configuration.Like

variable {c c' d d' : Configuration}

theorem imp (like : c.Like R c') (weaker : ∀ a b, R a b → R' a b) : c.Like R' c' := by
  obtain ⟨stack, same, rfl⟩ := like
  exact ⟨stack, weaker _ _ same, rfl⟩

theorem sameKey (like : c.Like R c') (like' : d.Like R d') : c'.sameKey d' = c.sameKey d := by
  obtain ⟨stack, -, rfl⟩ := like
  obtain ⟨stack', -, rfl⟩ := like'
  rfl

theorem same (unique : BiUnique R) (like : c.Like R c') (like' : d.Like R d') :
    c'.same d' = c.same d := by
  obtain ⟨stack, left, rfl⟩ := like
  obtain ⟨stack', right, rfl⟩ := like'
  have numbers : (stack == stack') = (c.stack == d.stack) := by
    rw [Bool.eq_iff_iff, beq_iff_eq, beq_iff_eq]
    exact (Relator.rel_eq unique left right).symm
  simp only [Configuration.same, numbers]

end Configuration.Like

/-- Lists of threads that are the same one by one. -/
abbrev Threads.Like (R : Nat → Nat → Prop) : List Configuration → List Configuration → Prop :=
  List.Forall₂ (Configuration.Like R)

namespace Threads.Like

variable {cs cs' : List Configuration} {α : Type}

theorem imp (like : Threads.Like R cs cs') (weaker : ∀ a b, R a b → R' a b) :
    Threads.Like R' cs cs' :=
  List.Forall₂.imp (fun _ _ same => same.imp weaker) like

/-- What does not look at stacks is the same of both lists. -/
theorem map_eq (like : Threads.Like R cs cs') (f : Configuration → α)
    (blind : ∀ c stack, f { c with stack } = f c) : cs'.map f = cs.map f := by
  induction like with
  | nil => rfl
  | cons head _ ih =>
      obtain ⟨stack, -, rfl⟩ := head
      rw [List.map_cons, List.map_cons, blind, ih]

theorem filter (like : Threads.Like R cs cs') (p : Configuration → Bool)
    (blind : ∀ c stack, p { c with stack } = p c) :
    Threads.Like R (cs.filter p) (cs'.filter p) := by
  refine List.rel_filter ?_ like
  rintro c _ ⟨stack, -, rfl⟩
  exact iff_of_eq (congrArg (· = true) (blind c stack).symm)

theorem any_same (unique : BiUnique R) (like : Threads.Like R cs cs') {c c' : Configuration}
    (like' : c.Like R c') : cs'.any c'.same = cs.any c.same := by
  induction like with
  | nil => rfl
  | cons head _ ih => rw [List.any_cons, List.any_cons, like'.same unique head, ih]

end Threads.Like

namespace ConfigurationSet

/-- Sets of threads that are the same up to the stacks. -/
def Like (R : Nat → Nat → Prop) (a a' : ConfigurationSet) : Prop :=
  ∃ threads, Threads.Like R a.toList threads ∧ a' = { a with items := threads.toArray }

namespace Like

variable {a a' b b' : ConfigurationSet}

theorem toList (like : a.Like R a') : Threads.Like R a.toList a'.toList := by
  obtain ⟨threads, like, rfl⟩ := like
  exact like

theorem imp (like : a.Like R a') (weaker : ∀ i j, R i j → R' i j) : a.Like R' a' := by
  obtain ⟨threads, like, rfl⟩ := like
  exact ⟨threads, like.imp weaker, rfl⟩

/-- Sets without threads. -/
theorem empty (fullContext : Bool) :
    ({ fullContext } : ConfigurationSet).Like R { fullContext } :=
  ⟨[], .nil, rfl⟩

theorem fullContext (like : a.Like R a') : a'.fullContext = a.fullContext := by
  obtain ⟨threads, -, rfl⟩ := like
  rfl

theorem hasGuards (like : a.Like R a') : a'.hasGuards = a.hasGuards := by
  obtain ⟨threads, -, rfl⟩ := like
  rfl

theorem size (like : a.Like R a') : a'.size = a.size :=
  like.toList.length_eq.symm

theorem isEmpty (like : a.Like R a') : a'.isEmpty = a.isEmpty := by
  have size := like.size
  rw [Bool.eq_iff_iff, ConfigurationSet.isEmpty, ConfigurationSet.isEmpty, Array.isEmpty_iff_size_eq_zero,
    Array.isEmpty_iff_size_eq_zero]
  exact Eq.congr_left size

theorem alts (like : a.Like R a') : a'.alts = a.alts := by
  rw [ConfigurationSet.alts, ConfigurationSet.alts, like.toList.map_eq _ fun _ _ => rfl]

theorem agreedAlt (like : a.Like R a') : a'.agreedAlt = a.agreedAlt := by
  rw [ConfigurationSet.agreedAlt, ConfigurationSet.agreedAlt, like.toList.map_eq _ fun _ _ => rfl]

theorem anyInRuleStop (like : a.Like R a') (n : Network) :
    a'.anyInRuleStop n = a.anyInRuleStop n := by
  have each := like.toList
  rw [ConfigurationSet.anyInRuleStop, ConfigurationSet.anyInRuleStop]
  generalize a.toList = cs, a'.toList = cs' at each
  induction each with
  | nil => rfl
  | cons head _ ih =>
      obtain ⟨stack, -, rfl⟩ := head
      rw [List.anyM_cons, List.anyM_cons, ih]

theorem allInRuleStop (like : a.Like R a') (n : Network) :
    a'.allInRuleStop n = a.allInRuleStop n := by
  have each := like.toList
  rw [ConfigurationSet.allInRuleStop, ConfigurationSet.allInRuleStop]
  generalize a.toList = cs, a'.toList = cs' at each
  induction each with
  | nil => rfl
  | cons head _ ih =>
      obtain ⟨stack, -, rfl⟩ := head
      rw [List.allM_cons, List.allM_cons, ih]

theorem stateAlts (like : a.Like R a') : a'.stateAlts = a.stateAlts := by
  have each := like.toList
  rw [ConfigurationSet.stateAlts, ConfigurationSet.stateAlts, groupBy, groupBy]
  refine congrArg (List.map _) ?_
  generalize a.toList = cs, a'.toList = cs' at each
  generalize ([] : List ((Nat × Nat) × AltSet)) = groups
  induction each generalizing groups with
  | nil => rfl
  | cons head _ ih =>
      obtain ⟨stack, -, rfl⟩ := head
      exact ih _

theorem guardOf (like : a.Like R a') (alt : Nat) :
    Prediction.guardOf a' alt = Prediction.guardOf a alt := by
  have guards := (like.toList.filter (·.alt == alt) fun _ _ => rfl).map_eq Configuration.guard
    fun _ _ => rfl
  rw [Prediction.guardOf, Prediction.guardOf, guards]

theorem same (unique : BiUnique R) (like : a.Like R a') (like' : b.Like R b') :
    a'.same b' = a.same b := by
  have pairs (p : Configuration × Configuration → Bool)
      (agree : ∀ c c' d d', c.Like R c' → d.Like R d' → p (c', d') = p (c, d)) :
      (a'.toList.zip b'.toList).all p = (a.toList.zip b.toList).all p := by
    have left := like.toList
    have right := like'.toList
    generalize a.toList = cs, a'.toList = cs' at left
    generalize b.toList = ds, b'.toList = ds' at right
    induction left generalizing ds ds' with
    | nil => rfl
    | cons head _ ih =>
        cases right with
        | nil => rfl
        | cons head' rest =>
            rw [List.zip_cons_cons, List.zip_cons_cons, List.all_cons, List.all_cons, ih _ _ rest]
            rw [agree _ _ _ _ head head']
  have size := like.size
  have size' := like'.size
  obtain ⟨cs, -, rfl⟩ := like
  obtain ⟨ds, -, rfl⟩ := like'
  rw [ConfigurationSet.same, ConfigurationSet.same, size, size',
    pairs _ fun _ _ _ _ left right => left.same unique right]

end Like

/-- The order of keys. -/
theorem keyLt_iff {k l : Nat × Nat} : keyLt k l = true ↔ k.1 < l.1 ∨ k.1 = l.1 ∧ k.2 < l.2 := by
  simp [keyLt]

/-- Groups in the order of their keys. -/
abbrev Ascending (groups : List ((Nat × Nat) × AltSet)) : Prop :=
  groups.Pairwise fun g h => keyLt g.1 h.1 = true

/-- What adding an alternative to the group with a key makes of the groups. -/
theorem mem_group {groups : List ((Nat × Nat) × AltSet)} (ascending : Ascending groups)
    {key k : Nat × Nat} {alt : Nat} {alts : AltSet} :
    (k, alts) ∈ group keyLt key alt groups ↔ k ≠ key ∧ (k, alts) ∈ groups ∨
      k = key ∧ ((∃ old, (key, old) ∈ groups ∧ alts = AltSet.insert alt old) ∨
        (∀ old, (key, old) ∉ groups) ∧ alts = [alt]) := by
  induction groups with
  | nil => simp [group, and_comm]
  | cons head rest ih =>
      obtain ⟨first, alts₀⟩ := head
      obtain ⟨before, ascending⟩ := List.pairwise_cons.1 ascending
      have ih := ih ascending
      have other (old) (mem : (first, old) ∈ rest) : False := by
        have := keyLt_iff.1 (before _ mem)
        grind
      rw [group]
      split
      case isTrue same =>
          subst same
          simp only [List.mem_cons, Prod.mk.injEq]
          grind
      split
      case isFalse.isTrue ne lt =>
          have absent (old) (mem : (key, old) ∈ rest) : False := by
            have := keyLt_iff.1 (before _ mem)
            have := keyLt_iff.1 lt
            grind
          simp only [List.mem_cons, Prod.mk.injEq]
          grind
      case isFalse.isFalse ne _ =>
          simp only [List.mem_cons, Prod.mk.injEq, ih]
          grind

theorem group_ascending {groups : List ((Nat × Nat) × AltSet)} (ascending : Ascending groups)
    (key : Nat × Nat) (alt : Nat) : Ascending (group keyLt key alt groups) := by
  induction groups with
  | nil => simp [group]
  | cons head rest ih =>
      obtain ⟨first, alts₀⟩ := head
      obtain ⟨before, later⟩ := List.pairwise_cons.1 ascending
      rw [group]
      split
      · exact List.pairwise_cons.2 ⟨before, later⟩
      split
      case isTrue lt =>
          refine List.pairwise_cons.2 ⟨fun g mem => ?_, ascending⟩
          rcases List.mem_cons.1 mem with rfl | mem
          · exact lt
          · have := keyLt_iff.1 (before _ mem)
            have := keyLt_iff.1 lt
            exact keyLt_iff.2 (by grind)
      case isFalse ne notBefore =>
          refine List.pairwise_cons.2 ⟨fun g mem => ?_, ih later⟩
          obtain ⟨k, alts⟩ := g
          rcases (mem_group later).1 mem with ⟨-, mem⟩ | ⟨rfl, -⟩
          · exact before _ mem
          · refine keyLt_iff.2 ?_
            have := mt keyLt_iff.2 notBefore
            have := mt Prod.ext_iff.2 ne
            simp only
            grind

/-- Groups with the same alternatives, at keys that `K` relates. -/
structure SameGroups (K : Nat × Nat → Nat × Nat → Prop) (groups groups' : List ((Nat × Nat) × AltSet)) :
    Prop where
  ascending : Ascending groups
  ascending' : Ascending groups'
  key : ∀ g ∈ groups, ∃ k', K g.1 k'
  key' : ∀ g ∈ groups', ∃ k, K k g.1
  members : ∀ k k', K k k' → ∀ alts, (k, alts) ∈ groups ↔ (k', alts) ∈ groups'

theorem SameGroups.group {K : Nat × Nat → Nat × Nat → Prop} (unique : BiUnique K)
    {groups groups' : List ((Nat × Nat) × AltSet)} (h : SameGroups K groups groups') {key key' : Nat × Nat}
    (same : K key key') (alt : Nat) :
    SameGroups K (group keyLt key alt groups) (group keyLt key' alt groups') where
  ascending := group_ascending h.ascending key alt
  ascending' := group_ascending h.ascending' key' alt
  key g mem := by
    obtain ⟨k, alts⟩ := g
    rcases (mem_group h.ascending).1 mem with ⟨-, mem⟩ | ⟨rfl, -⟩
    · exact h.key _ mem
    · exact ⟨key', same⟩
  key' g mem := by
    obtain ⟨k, alts⟩ := g
    rcases (mem_group h.ascending').1 mem with ⟨-, mem⟩ | ⟨rfl, -⟩
    · exact h.key' _ mem
    · exact ⟨key, same⟩
  members k k' related alts := by
    have keys : k = key ↔ k' = key' := Relator.rel_eq unique related same
    rw [mem_group h.ascending, mem_group h.ascending', h.members k k' related, ne_eq, ne_eq, keys]
    simp only [h.members key key' same]

/-- The groups of alternatives with the same state and stacks are the same ones, though maybe in
another order. -/
theorem Like.mem_altSubsets {a a' : ConfigurationSet} (unique : BiUnique R) (like : a.Like R a')
    {alts : AltSet} : alts ∈ a'.altSubsets ↔ alts ∈ a.altSubsets := by
  let K : Nat × Nat → Nat × Nat → Prop := fun k k' => k.1 = k'.1 ∧ R k.2 k'.2
  have unique' : BiUnique K :=
    ⟨fun k l m h h' => Prod.ext (h.1.trans h'.1.symm) (unique.1 h.2 h'.2),
      fun k l m h h' => Prod.ext (h.1.symm.trans h'.1) (unique.2 h.2 h'.2)⟩
  have groups : SameGroups K (a.groupBy fun c => (c.state, c.stack))
      (a'.groupBy fun c => (c.state, c.stack)) := by
    suffices ∀ groups groups', SameGroups K groups groups' → SameGroups K
        (a.toList.foldl (fun acc c => group keyLt (c.state, c.stack) c.alt acc) groups)
        (a'.toList.foldl (fun acc c => group keyLt (c.state, c.stack) c.alt acc) groups') from
      this [] [] ⟨.nil, .nil, by simp, by simp, by simp⟩
    have each := like.toList
    generalize a.toList = cs, a'.toList = cs' at each
    induction each with
    | nil => exact fun _ _ => id
    | @cons c _ _ _ head _ ih =>
        obtain ⟨stack, same, rfl⟩ := head
        have keys : K (c.state, c.stack) (c.state, stack) := ⟨rfl, same⟩
        exact fun groups groups' h => ih _ _ (h.group unique' keys c.alt)
  simp only [altSubsets, List.mem_map, Prod.exists, exists_eq_right]
  constructor
  · rintro ⟨s, k, mem⟩
    obtain ⟨⟨s', k'⟩, same⟩ := groups.key' _ mem
    exact ⟨s', k', (groups.members _ _ same alts).2 mem⟩
  · rintro ⟨s, k, mem⟩
    obtain ⟨⟨s', k'⟩, same⟩ := groups.key _ mem
    exact ⟨s', k', (groups.members _ _ same alts).1 mem⟩

end ConfigurationSet

theorem AltSet.insert_ascending {alts : AltSet} (ascending : alts.Pairwise (· < ·)) (alt : Nat) :
    (AltSet.insert alt alts).Pairwise (· < ·) := by
  induction alts with
  | nil => simp [AltSet.insert]
  | cons a rest ih =>
      obtain ⟨before, later⟩ := List.pairwise_cons.1 ascending
      rw [AltSet.insert]
      split
      case isTrue lt =>
          refine List.pairwise_cons.2 ⟨fun b mem => ?_, ascending⟩
          rcases List.mem_cons.1 mem with rfl | mem
          · exact lt
          · exact Nat.lt_trans lt (before b mem)
      split
      · exact ascending
      case isFalse ge ne =>
          refine List.pairwise_cons.2 ⟨fun b mem => ?_, ih later⟩
          rcases AltSet.mem_insert.1 mem with rfl | mem
          · omega
          · exact before b mem

theorem AltSet.ofList_ascending (alts : List Nat) : (AltSet.ofList alts).Pairwise (· < ·) := by
  suffices ∀ acc : AltSet, acc.Pairwise (· < ·) →
      (alts.foldl (fun acc a => AltSet.insert a acc) acc).Pairwise (· < ·) from this [] .nil
  induction alts with
  | nil => exact fun _ => id
  | cons a rest ih => exact fun acc ascending => ih _ (insert_ascending ascending a)

namespace Conflict

variable {subsets subsets' : List AltSet} (same : ∀ alts, alts ∈ subsets' ↔ alts ∈ subsets)

include same

/-! What is asked of the subsets does not depend on their order. -/

theorem any_congr (p : AltSet → Bool) : subsets'.any p = subsets.any p := by
  rw [Bool.eq_iff_iff, List.any_eq_true, List.any_eq_true]
  simp only [same]

theorem alts_congr : alts subsets' = alts subsets := by
  rw [alts, alts]
  refine (AltSet.ofList_ascending _).eq_of_mem_iff (AltSet.ofList_ascending _) fun a => ?_
  simp only [AltSet.mem_ofList, List.mem_flatten, same]

omit same in
theorem agree_iff {α : Type} [BEq α] [LawfulBEq α] {xs : List α} {first : α} {rest : List α}
    (eq : xs = first :: rest) :
    rest.all (· == first) = true ↔ ∀ x ∈ xs, ∀ y ∈ xs, x = y := by
  subst eq
  simp only [List.all_eq_true, beq_iff_eq]
  constructor
  · intro all x hx y hy
    have each (z) (mem : z ∈ first :: rest) : z = first := by
      rcases List.mem_cons.1 mem with rfl | mem
      · rfl
      · exact all z mem
    rw [each x hx, each y hy]
  · exact fun all x hx => all x (.tail _ hx) first (.head _)

omit same in
theorem allEqual_iff : allEqual subsets = true ↔ ∀ x ∈ subsets, ∀ y ∈ subsets, x = y := by
  cases subsets with
  | nil => simp [allEqual]
  | cons first rest => exact agree_iff rfl

theorem allEqual_congr : allEqual subsets' = allEqual subsets := by
  rw [Bool.eq_iff_iff, allEqual_iff, allEqual_iff]
  simp only [same]

omit same in
/-- The alternative that is the least one of every subset. -/
theorem viableAlt_eq (alt : Nat) (some : alt ≠ noAlt) : viableAlt subsets = alt ↔
    (∃ x ∈ subsets, x.head? = .some alt) ∧
      ∀ x ∈ subsets, ∀ a, x.head? = .some a → a = alt := by
  have mem (a) : a ∈ subsets.filterMap List.head? ↔ ∃ x ∈ subsets, x.head? = .some a :=
    List.mem_filterMap
  rw [viableAlt]
  split
  case h_1 none =>
      simp only [none, List.not_mem_nil, false_iff, not_exists, not_and] at mem
      constructor
      · exact fun eq => absurd eq.symm some
      · rintro ⟨⟨x, hx, eq⟩, -⟩
        exact absurd eq (mem alt x hx)
  case h_2 first rest found =>
      have agree := agree_iff found
      rw [found] at mem agree
      have here := (mem first).1 (.head _)
      split
      case isTrue all =>
          have all := agree.1 all
          constructor
          · rintro rfl
            exact ⟨here, fun x hx a eq => all a ((mem a).2 ⟨x, hx, eq⟩) _ (.head _)⟩
          · rintro ⟨-, only⟩
            obtain ⟨x, hx, eq⟩ := here
            exact only x hx first eq
      case isFalse differ =>
          constructor
          · exact fun eq => absurd eq.symm some
          · rintro ⟨-, only⟩
            refine absurd (agree.2 fun a ha b hb => ?_) differ
            obtain ⟨x, hx, eq⟩ := (mem a).1 ha
            obtain ⟨y, hy, eq'⟩ := (mem b).1 hb
            rw [only x hx a eq, only y hy b eq']

theorem viableAlt_congr : viableAlt subsets' = viableAlt subsets := by
  have agree (alt) (some : alt ≠ noAlt) : viableAlt subsets' = alt ↔ viableAlt subsets = alt := by
    rw [viableAlt_eq alt some, viableAlt_eq alt some]
    simp only [same]
  by_cases some : viableAlt subsets = noAlt
  · rw [some]
    by_contra some'
    exact some' (((agree _ some').1 rfl) ▸ some)
  · exact (agree _ some).2 rfl

end Conflict

namespace ConfigurationSet.Like

open Stacks (Together)

variable {a a' : ConfigurationSet} {c c' : Configuration} {s s' : Stacks}

theorem findIdx? {cs cs' : List Configuration} (each : Threads.Like R cs cs')
    {p p' : Configuration → Bool} (agree : ∀ d d', Configuration.Like R d d' → p' d' = p d) :
    cs'.findIdx? p' = cs.findIdx? p := by
  induction each with
  | nil => rfl
  | cons head _ ih => rw [List.findIdx?_cons, List.findIdx?_cons, agree _ _ head, ih]

/-- Adding a thread to sets that are alike leaves them alike. -/
theorem insert (alike : s.Alike s') (like : a.Like (s.graph.Alike s'.graph) a')
    (thread : c.Like (s.graph.Alike s'.graph) c') :
    Together ConfigurationSet.Like s s' (a.insert c s) (a'.insert c' s') := by
  obtain ⟨cs', each, rfl⟩ := like
  obtain ⟨⟨cs⟩, fullContext, ordered, uniqueAlt, conflicting, hasGuards, dipsOutside⟩ := a
  replace each : Threads.Like (s.graph.Alike s'.graph) cs cs' := each
  have known : cs'.findIdx? (if ordered then Configuration.same c' else Configuration.sameKey c')
      = cs.findIdx? (if ordered then Configuration.same c else Configuration.sameKey c) := by
    refine findIdx? each fun d d' like => ?_
    split
    · exact thread.same alike.biUnique like
    · exact thread.sameKey like
  have existing (k : Nat) : (cs[k]?.getD c).Like (s.graph.Alike s'.graph) (cs'[k]?.getD c') := by
    have here := forall₂_getElem? each k
    generalize cs[k]? = found, (cs' : List Configuration)[k]? = found' at here
    cases here with
    | some here => exact here
    | none => exact thread
  unfold ConfigurationSet.insert add
  simp only [List.findIdx?_toArray, known]
  generalize cs.findIdx? _ = found
  obtain ⟨stack, same, rfl⟩ := thread
  cases found with
  | none =>
      refine alike.stay (P := Like) ?_
      refine ⟨cs' ++ [{ c with stack }], ?_, by simp⟩
      simp only [List.push_toArray]
      exact List.rel_append each (.cons ⟨stack, same, rfl⟩ .nil)
  | some k =>
      cases ordered with
      | true =>
          refine alike.stay (P := Like) ?_
          exact ⟨cs', each, rfl⟩
      | false =>
          obtain ⟨old, same', eq⟩ := existing k
          have merged := alike.merge (!fullContext) same' same
          simp only [Bool.false_eq_true, if_false, List.getElem?_toArray]
          rw [eq]
          refine merged.answers (Q := Like) ?_
          let merged' := (s'.merge (!fullContext) old stack).1
          refine ⟨cs'.modify k (absorb merged' { c with stack }), ?_, by simp [merged']⟩
          have kept : Threads.Like _ cs cs' := Threads.Like.imp each fun _ _ => merged.same
          simp only [List.modify_toArray]
          refine forall₂_modify kept ?_ k
          rintro d _ ⟨_, -, rfl⟩
          exact ⟨_, merged.answer, rfl⟩

/-- So does leaving out the guards. -/
theorem stripped (alike : s.Alike s') (like : a.Like (s.graph.Alike s'.graph) a') :
    let made := Conflict.stripped a s.graph
    let made' := Conflict.stripped a' s'.graph
    Together Like s s' (made.1, { s with graph := made.2 }) (made'.1, { s' with graph := made'.2 }) := by
  let bare := fun (acc : ConfigurationSet × Stacks) (c : Configuration) =>
    acc.1.insert { c with guard := .always } acc.2
  have all : ∀ (acc acc' : ConfigurationSet) (t t' : Stacks), t.Alike t' →
      Threads.Like (t.graph.Alike t'.graph) a.toList a'.toList →
      acc.Like (t.graph.Alike t'.graph) acc' →
      Together Like t t' (a.toList.foldl bare (acc, t)) (a'.toList.foldl bare (acc', t')) := by
    generalize a.toList = cs, a'.toList = cs'
    induction cs generalizing cs' with
    | nil =>
        intro acc acc' t t' alike each like
        obtain rfl := List.forall₂_nil_left_iff.1 each
        exact alike.stay (P := Like) like
    | cons c cs ih =>
        intro acc acc' t t' alike each like
        obtain ⟨c', cs', ⟨stack, same, rfl⟩, rest, rfl⟩ := List.forall₂_cons_left_iff.1 each
        have thread : Configuration.Like (t.graph.Alike t'.graph) { c with guard := .always }
            { c with stack, guard := .always } := ⟨stack, same, rfl⟩
        have added := like.insert alike thread
        have kept := Threads.Like.imp rest fun _ _ => added.same
        exact added.trans (ih cs' _ _ _ _ added.alike kept added.answer)
  have fresh : Stacks.Alike { graph := s.graph } { graph := s'.graph } :=
    ⟨alike.sound.forgets false, alike.sound'.forgets false, .nil⟩
  have made := all { fullContext := a.fullContext } { fullContext := a.fullContext } _ _ fresh
    like.toList (.empty _)
  simp only [Conflict.stripped, like.fullContext]
  exact ⟨made.grown, made.grown', alike.grow made.grown made.grown' made.alike.sound.tidy
    made.alike.sound'.tidy, made.answer⟩

/-- Whether prediction without context stops is the same question of sets that are alike. -/
theorem stops (alike : s.Alike s') (like : a.Like (s.graph.Alike s'.graph) a') (mode : PredictionMode)
    (n : Network) :
    (∃ fault, Conflict.stops mode n a s.graph = .error fault ∧
      Conflict.stops mode n a' s'.graph = .error fault) ∨
    ∃ stop graph graph', Conflict.stops mode n a s.graph = .ok (stop, graph) ∧
      Conflict.stops mode n a' s'.graph = .ok (stop, graph') ∧
      Together (fun _ => Eq) s s' (stop, { s with graph }) (stop, { s' with graph := graph' }) := by
  have verdict {b b' : ConfigurationSet} {t t' : Stacks} (alike : t.Alike t')
      (like : b.Like (t.graph.Alike t'.graph) b') :
      (Conflict.hasConflict b'.altSubsets && !Conflict.hasOwnState b')
        = (Conflict.hasConflict b.altSubsets && !Conflict.hasOwnState b) := by
    have subsets := Conflict.any_congr (fun _ => like.mem_altSubsets alike.biUnique) (1 < ·.length)
    simp only [Conflict.hasConflict, subsets, Conflict.hasOwnState, like.stateAlts]
  unfold Conflict.stops
  rw [like.allInRuleStop, like.hasGuards]
  cases a.allInRuleStop n with
  | error fault => exact .inl ⟨fault, rfl, rfl⟩
  | ok all =>
      right
      cases all with
      | true => exact ⟨true, s.graph, s'.graph, rfl, rfl, alike.stay (P := fun _ => Eq) rfl⟩
      | false =>
          by_cases strips : (mode == .sll && a.hasGuards) = true
          · have made := like.stripped alike
            simp only [strips, if_true]
            refine ⟨_, _, _, rfl, ?_, made.answers (Q := fun _ => Eq) rfl⟩
            exact congrArg (fun stop => Except.ok (stop, _)) (verdict made.alike made.answer)
          · simp only [strips]
            refine ⟨_, _, _, rfl, ?_, alike.stay (P := fun _ => Eq) rfl⟩
            exact congrArg (fun stop => Except.ok (stop, _)) (verdict alike like)

end ConfigurationSet.Like

end AdaptiveLL
