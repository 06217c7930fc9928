import AdaptiveLL.Proofs.Prediction.Blend
import AdaptiveLL.Proofs.Prediction.Guard.Algebra
import AdaptiveLL.Proofs.Prediction.Population
/-!
Configuration sets as keyed unions. Whatever threads are added to a set, and in whatever order, the set
holds one thread for each state, alternative and guard that occurs, with all that those threads have
together; what only a lexer records is that of the first one of them. A lexer set holds the threads
themselves, each of them once (`ConfigurationSet.addAll_keyed`).
-/
namespace AdaptiveLL

open StackGraph

section Firsts

variable {α β : Type} {r : α → α → Bool} {key : α → β}

/-- A last element is kept unless it is like one that has been kept. -/
theorem eraseDupsBy_concat (r : α → α → Bool) (as : List α) (b : α) :
    (as ++ [b]).eraseDupsBy r =
      if (as.eraseDupsBy r).any (r b) then as.eraseDupsBy r else as.eraseDupsBy r ++ [b] := by
  suffices ∀ acc : List α, List.eraseDupsBy.loop r (as ++ [b]) acc =
      if (List.eraseDupsBy.loop r as acc).any (r b) then List.eraseDupsBy.loop r as acc
      else List.eraseDupsBy.loop r as acc ++ [b] from this []
  induction as with
  | nil =>
      intro acc
      simp only [List.nil_append, List.eraseDupsBy.loop, List.any_reverse]
      cases acc.any (r b) <;> simp
  | cons a as ih =>
      intro acc
      have turn (rest : List α) : List.eraseDupsBy.loop r (a :: rest) acc =
          List.eraseDupsBy.loop r rest (if acc.any (r a) then acc else a :: acc) := by
        rw [List.eraseDupsBy.loop]
        cases acc.any (r a) <;> rfl
      rw [List.cons_append, turn, turn]
      exact ih _

variable (alike : ∀ a b, r a b = true ↔ key a = key b)

include alike

theorem any_alike {as : List α} {b : α} : as.any (r b) = true ↔ key b ∈ as.map key := by
  rw [List.any_eq_true, List.mem_map]
  exact exists_congr fun a => and_congr_right fun _ => (alike b a).trans eq_comm

/-- Every key is that of a first element. -/
theorem mem_map_eraseDupsBy (as : List α) (k : β) : k ∈ (as.eraseDupsBy r).map key ↔ k ∈ as.map key := by
  induction as using List.reverseRecOn with
  | nil => rfl
  | append_singleton as b ih =>
      rw [eraseDupsBy_concat, List.map_append, List.mem_append, ← ih]
      split
      case isTrue old =>
          rw [any_alike alike] at old
          refine (or_iff_left_of_imp fun same => ?_).symm
          rwa [List.mem_singleton.1 same]
      case isFalse => rw [List.map_append, List.mem_append]

theorem nodup_map_eraseDupsBy (as : List α) : ((as.eraseDupsBy r).map key).Nodup := by
  induction as using List.reverseRecOn with
  | nil => exact .nil
  | append_singleton as b ih =>
      rw [eraseDupsBy_concat]
      split
      case isTrue => exact ih
      case isFalse new =>
          rw [any_alike alike] at new
          rw [List.map_append, List.map_singleton]
          exact List.nodup_append.2 ⟨ih, List.nodup_singleton _, fun k mem k' last same =>
            new (List.mem_singleton.1 last ▸ same ▸ mem)⟩

end Firsts

namespace Configuration

/-- What only a lexer records. -/
def record (c : Configuration) : Option ActionList × Bool :=
  (c.actions, c.passedNonGreedy)

/-- The thread without what only a lexer records. -/
def unrecorded (c : Configuration) : Configuration :=
  { c with actions := none, passedNonGreedy := false }

end Configuration

/-- The first thread of each slot. -/
def firsts (cs : List Configuration) : List Configuration :=
  cs.eraseDupsBy Configuration.sameKey

/-- What a set has of the threads of one slot. -/
structure Held where
  slot : Nat × Nat × Guard
  stackSet : Set (List Nat)
  outerDepth : Nat
  suppressed : Bool

def Configuration.held (g : StackGraph) (c : Configuration) : Held where
  slot := c.slot
  stackSet := g.stackSet c.stack
  outerDepth := c.outerDepth
  suppressed := c.suppressed

namespace Held

variable {wildcard : Bool} {g g' : StackGraph} {cs cs' : List Configuration} {c : Configuration}
  {slot : Nat × Nat × Guard}

/-- The sets of stacks of the threads of a slot. -/
def stackSets (g : StackGraph) (cs : List Configuration) (slot : Nat × Nat × Guard) : Set (Set (List Nat)) :=
  { A | ∃ c ∈ cs, c.slot = slot ∧ g.stackSet c.stack = A }

/-- What the threads of one slot have together. -/
def union (wildcard : Bool) (g : StackGraph) (cs : List Configuration) (slot : Nat × Nat × Guard) : Held where
  slot := slot
  stackSet := gather wildcard (stackSets g cs slot)
  outerDepth := ((cs.filter (·.slot == slot)).map Configuration.outerDepth).foldl max 0
  suppressed := (cs.filter (·.slot == slot)).any Configuration.suppressed

theorem stackSets_congr (same : ∀ c, c ∈ cs ↔ c ∈ cs') (known : ∀ c ∈ cs, g.Present c.stack) (tidy : g.Tidy)
    (grown : g.Extends g') : stackSets g' cs' slot = stackSets g cs slot := by
  ext A
  refine exists_congr fun c => ?_
  rw [← same c]
  refine and_congr_right fun mem => ?_
  rw [(known c mem).stackSet_eq tidy grown]

/-- The order of the threads does not matter, and neither do new nodes. -/
theorem union_perm (perm : cs'.Perm cs) (known : ∀ c ∈ cs, g.Present c.stack) (tidy : g.Tidy)
    (grown : g.Extends g') : union wildcard g' cs' slot = union wildcard g cs slot := by
  have those := perm.filter (·.slot == slot)
  unfold union
  rw [stackSets_congr (fun c => perm.mem_iff.symm) known tidy grown, (those.map _).foldl_eq 0, those.any_eq]

/-- A thread of another slot does not matter. -/
theorem union_concat_of_ne (other : c.slot ≠ slot) :
    union wildcard g (cs ++ [c]) slot = union wildcard g cs slot := by
  have those : (cs ++ [c]).filter (·.slot == slot) = cs.filter (·.slot == slot) := by
    rw [List.filter_append, List.filter_cons_of_neg (by simpa using other), List.filter_nil, List.append_nil]
  have sets : stackSets g (cs ++ [c]) slot = stackSets g cs slot := by
    ext A
    refine exists_congr fun c' => ⟨fun ⟨mem, here, eq⟩ => ⟨?_, here, eq⟩, fun ⟨mem, rest⟩ => ⟨?_, rest⟩⟩
    · refine (List.mem_append.1 mem).resolve_right fun last => other ?_
      rwa [← List.mem_singleton.1 last]
    · exact List.mem_append_left _ mem
  unfold union
  rw [those, sets]

/-- One more thread of the slot. -/
theorem union_concat (c : Configuration) : union wildcard g (cs ++ [c]) c.slot =
    { slot := c.slot
      stackSet := blend wildcard (union wildcard g cs c.slot).stackSet (g.stackSet c.stack)
      outerDepth := max (union wildcard g cs c.slot).outerDepth c.outerDepth
      suppressed := (union wildcard g cs c.slot).suppressed || c.suppressed } := by
  have those : (cs ++ [c]).filter (·.slot == c.slot) = cs.filter (·.slot == c.slot) ++ [c] := by
    rw [List.filter_append, List.filter_cons_of_pos (by simp), List.filter_nil]
  have sets : stackSets g (cs ++ [c]) c.slot = insert (g.stackSet c.stack) (stackSets g cs c.slot) := by
    ext A
    simp only [stackSets, Set.mem_ofPred_eq, List.mem_append, List.mem_singleton, Set.mem_insert_iff]
    constructor
    · rintro ⟨c', mem | rfl, here, rfl⟩
      · exact .inr ⟨c', mem, here, rfl⟩
      · exact .inl rfl
    · rintro (rfl | ⟨c', mem, here, rfl⟩)
      · exact ⟨c, .inr rfl, rfl, rfl⟩
      · exact ⟨c', .inl mem, here, rfl⟩
  have finite : ∀ A ∈ stackSets g cs c.slot, A.Finite := by
    rintro _ ⟨c', -, -, rfl⟩
    exact finite_stackSet g c'.stack
  unfold union
  simp only [those, sets, blend_gather finite, List.map_append, List.map_singleton, List.foldl_append,
    List.foldl_cons, List.foldl_nil, List.any_append, List.any_cons, List.any_nil, Bool.or_false]

/-- No thread has the slot. -/
theorem union_of_notMem (none : slot ∉ cs.map Configuration.slot) :
    union wildcard g cs slot = { slot, stackSet := ∅, outerDepth := 0, suppressed := false } := by
  have those : cs.filter (·.slot == slot) = [] := by
    refine List.filter_eq_nil_iff.2 fun c mem here => none ?_
    exact List.mem_map.2 ⟨c, mem, beq_iff_eq.1 here⟩
  have sets : stackSets g cs slot = ∅ := by
    refine Set.eq_empty_of_forall_notMem ?_
    rintro _ ⟨c, mem, here, -⟩
    exact none (List.mem_map.2 ⟨c, mem, here⟩)
  unfold union
  rw [those, sets, gather_empty]
  rfl

end Held

namespace ConfigurationSet

variable {set : ConfigurationSet} {s : Stacks} {c c' : Configuration} {cs : List Configuration}

/-- Add threads one after the other. The first answer says of each of them whether the set grew. -/
def addAll (set : ConfigurationSet) (cs : List Configuration) (s : Stacks) :
    List Bool × ConfigurationSet × Stacks :=
  cs.foldl (fun (grew, set, s) c => (grew ++ [(set.add c s).1], (set.add c s).2)) ([], set, s)

theorem addAll_concat (set : ConfigurationSet) (cs : List Configuration) (c : Configuration) (s : Stacks) :
    set.addAll (cs ++ [c]) s =
      ((set.addAll cs s).1 ++ [((set.addAll cs s).2.1.add c (set.addAll cs s).2.2).1],
        ((set.addAll cs s).2.1.add c (set.addAll cs s).2.2).2) := by
  rw [addAll, List.foldl_append, ← addAll]
  rfl

/-- What is known of the set as soon as a thread comes, whether or not it is new. -/
def noting (set : ConfigurationSet) (c : Configuration) : ConfigurationSet :=
  { set with
    hasGuards := set.hasGuards || !c.guard.isAlways
    dipsOutside := set.dipsOutside || 0 < c.outerDepth }

/-- Which threads count as the same. -/
def alike (set : ConfigurationSet) : Configuration → Configuration → Bool :=
  if set.ordered then Configuration.same else Configuration.sameKey

/-- Adding a thread appends it, or changes one that counts as the same. -/
theorem add_cases (set : ConfigurationSet) (c : Configuration) (s : Stacks) :
    (∀ c' ∈ set.toList, set.alike c c' = false) ∧
      set.add c s = (true, { set.noting c with items := set.items.push c }, s) ∨
    ∃ k old, set.items[k]? = some old ∧ set.alike c old = true ∧
      set.add c s = if set.ordered then (false, set.noting c, s) else
        let made := s.merge (!set.fullContext) old.stack c.stack
        (false, { set.noting c with items := set.items.modify k (absorb made.1 c) }, made.2) := by
  have known : (if set.ordered then Configuration.same c else Configuration.sameKey c) = set.alike c := by
    unfold alike
    split <;> rfl
  unfold add
  simp only [known]
  cases found : set.items.findIdx? (set.alike c) with
  | none =>
      refine .inl ⟨fun c' mem => ?_, rfl⟩
      exact Array.findIdx?_eq_none_iff.1 found c' (Array.mem_toList_iff.1 mem)
  | some k =>
      obtain ⟨inside, matching, -⟩ := Array.findIdx?_eq_some_iff_getElem.1 found
      refine .inr ⟨k, set.items[k], Array.getElem?_eq_getElem inside, matching, ?_⟩
      simp only [Array.getElem?_eq_getElem inside, Option.getD_some]
      rfl

theorem hasGuards_addAll (set : ConfigurationSet) (cs : List Configuration) (s : Stacks) :
    (set.addAll cs s).2.1.hasGuards = (set.hasGuards || cs.any (!·.guard.isAlways)) := by
  have step (set : ConfigurationSet) (c : Configuration) (s : Stacks) :
      (set.add c s).2.1.hasGuards = (set.hasGuards || !c.guard.isAlways) := by
    rcases set.add_cases c s with ⟨-, eq⟩ | ⟨k, old, -, -, eq⟩
    · rw [eq]
      rfl
    · rw [eq]
      split <;> rfl
  induction cs using List.reverseRecOn with
  | nil => rw [List.any_nil, Bool.or_false]; rfl
  | append_singleton cs c ih => simp [addAll_concat, step, ih, Bool.or_assoc]

/-! ### Lexer sets -/

/-- A lexer set keeps each thread once, in the order in which they came. -/
theorem toList_addAll_ordered (cs : List Configuration) (s : Stacks) :
    (addAll { ordered := true } cs s).2.1.toList = cs.eraseDupsBy Configuration.same := by
  suffices (addAll { ordered := true } cs s).2.1.ordered = true ∧
      (addAll { ordered := true } cs s).2.1.toList = cs.eraseDupsBy Configuration.same from this.2
  induction cs using List.reverseRecOn with
  | nil => exact ⟨rfl, rfl⟩
  | append_singleton cs c ih =>
      obtain ⟨ordered, listed⟩ := ih
      have same : (addAll { ordered := true } cs s).2.1.alike = Configuration.same := if_pos ordered
      rw [addAll_concat, eraseDupsBy_concat, ← listed]
      rcases add_cases (addAll { ordered := true } cs s).2.1 c (addAll { ordered := true } cs s).2.2 with
        ⟨new, eq⟩ | ⟨k, old, get, here, eq⟩
      · rw [same] at new
        rw [eq, if_neg (by simpa using new)]
        exact ⟨ordered, by simp [toList]⟩
      · have mem : old ∈ (addAll { ordered := true } cs s).2.1.toList :=
          Array.mem_toList_iff.2 (Array.mem_of_getElem? get)
        rw [same] at here
        rw [eq, if_pos ordered, if_pos (List.any_eq_true.2 ⟨old, mem, here⟩)]
        exact ⟨ordered, rfl⟩

/-! ### Parser sets -/

/-- A change at one place, where all threads have slots of their own. -/
theorem mem_modify_slot {items : Array Configuration} {k : Nat} {f : Configuration → Configuration}
    {old : Configuration} (apart : (items.toList.map Configuration.slot).Nodup) (get : items[k]? = some old)
    (mem : c ∈ (items.modify k f).toList) : c ∈ items.toList ∧ c.slot ≠ old.slot ∨ c = f old := by
  obtain ⟨i, get'⟩ := Array.mem_iff_getElem?.1 (Array.mem_toList_iff.1 mem)
  rw [Array.getElem?_modify] at get'
  split at get'
  case isTrue here =>
      subst here
      rw [get] at get'
      exact .inr (Option.some.inj get').symm
  case isFalse elsewhere =>
      refine .inl ⟨Array.mem_toList_iff.2 (Array.mem_of_getElem? get'), fun same => elsewhere ?_⟩
      have inside := (Array.getElem?_eq_some_iff.1 get).1
      apply (List.getElem?_inj (by simpa using inside) apart).1
      rw [List.getElem?_map, List.getElem?_map, Array.getElem?_toList, Array.getElem?_toList, get, get',
        Option.map_some, Option.map_some, same]

/-- The set holds what threads have together that came with stacks of `g₀`. -/
structure Gathered (wildcard : Bool) (g₀ : StackGraph) (cs : List Configuration) (set : ConfigurationSet)
    (s : Stacks) : Prop where
  grown : g₀.Extends s.graph
  blended : s.Blended wildcard
  fullContext : set.fullContext = !wildcard
  unordered : set.ordered = false
  present : ∀ c ∈ set.toList, s.graph.Present c.stack
  first : set.toList.map (fun c => (c.slot, c.record)) = (firsts cs).map fun c => (c.slot, c.record)
  union : ∀ c ∈ set.toList, c.held s.graph = .union wildcard g₀ cs c.slot

namespace Gathered

variable {wildcard : Bool} {g₀ : StackGraph}

theorem slots (h : Gathered wildcard g₀ cs set s) :
    set.toList.map Configuration.slot = (firsts cs).map Configuration.slot := by
  have fst := congrArg (List.map Prod.fst) h.first
  rwa [List.map_map, List.map_map] at fst

theorem mem_slots (h : Gathered wildcard g₀ cs set s) (slot : Nat × Nat × Guard) :
    slot ∈ set.toList.map Configuration.slot ↔ slot ∈ cs.map Configuration.slot := by
  rw [h.slots]
  exact mem_map_eraseDupsBy Configuration.sameKey_iff cs slot

theorem nodup_slots (h : Gathered wildcard g₀ cs set s) : (set.toList.map Configuration.slot).Nodup := by
  rw [h.slots]
  exact nodup_map_eraseDupsBy Configuration.sameKey_iff cs

/-- A thread whose slot has not come before is new. -/
theorem firsts_concat (c : Configuration) (cs : List Configuration) : firsts (cs ++ [c]) =
    if c.slot ∈ cs.map Configuration.slot then firsts cs else firsts cs ++ [c] := by
  rw [firsts, eraseDupsBy_concat]
  refine if_congr ?_ rfl rfl
  rw [any_alike Configuration.sameKey_iff, mem_map_eraseDupsBy Configuration.sameKey_iff]

/-- One more thread. -/
theorem add (h : Gathered wildcard g₀ cs set s) (tidy : g₀.Tidy) (known : g₀.Present c.stack) :
    (set.add c s).1 = (!cs.any c.sameKey) ∧
      Gathered wildcard g₀ (cs ++ [c]) (set.add c s).2.1 (set.add c s).2.2 := by
  have alike : set.alike = Configuration.sameKey := if_neg (by rw [h.unordered]; exact nofun)
  have came : cs.any c.sameKey = true ↔ c.slot ∈ set.toList.map Configuration.slot := by
    rw [h.mem_slots, any_alike Configuration.sameKey_iff]
  rcases set.add_cases c s with ⟨new, eq⟩ | ⟨k, old, get, here, eq⟩
  · -- The slot is new, so nothing has been known of it.
    have missing : c.slot ∉ set.toList.map Configuration.slot := by
      rintro mem
      obtain ⟨c', mem, same⟩ := List.mem_map.1 mem
      have apart := new c' mem
      rw [alike, (Configuration.sameKey_iff _ _).2 same.symm] at apart
      cases apart
    have fresh := missing
    rw [h.mem_slots] at fresh
    have listed : ({ set.noting c with items := set.items.push c } : ConfigurationSet).toList =
        set.toList ++ [c] := Array.toList_push
    rw [eq]
    refine ⟨by simpa using came.not.2 missing, h.grown, h.blended, h.fullContext, h.unordered, ?_, ?_, ?_⟩
    · rw [listed]
      exact List.forall_mem_append.2 ⟨h.present, List.forall_mem_singleton.2 (known.mono h.grown)⟩
    · rw [listed, firsts_concat, if_neg fresh, List.map_append, List.map_append, h.first]
    · rw [listed]
      refine List.forall_mem_append.2 ⟨fun c' mem => ?_, List.forall_mem_singleton.2 ?_⟩
      · rw [h.union c' mem, Held.union_concat_of_ne]
        exact fun same => missing (List.mem_map.2 ⟨c', mem, same.symm⟩)
      · rw [Held.union_concat, Held.union_of_notMem fresh]
        simp only [empty_blend, Nat.zero_max, Bool.false_or, Configuration.held, known.stackSet_eq tidy h.grown]
  · -- The slot is taken. Only its thread changes, and merging blends the new stacks into it.
    have mem : old ∈ set.toList := Array.mem_toList_iff.2 (Array.mem_of_getElem? get)
    rw [alike, Configuration.sameKey_iff] at here
    have before : c.slot ∈ set.toList.map Configuration.slot := List.mem_map.2 ⟨old, mem, here.symm⟩
    have earlier := before
    rw [h.mem_slots] at earlier
    have present := known.mono h.grown
    have merged := h.blended.merge (h.present old mem) present
    rw [h.fullContext, Bool.not_not, if_neg (by rw [h.unordered]; exact nofun)] at eq
    simp only at merged eq
    generalize s.merge wildcard old.stack c.stack = made at merged eq
    obtain ⟨grown, blended, presentMade, joined⟩ := merged
    rw [eq]
    have members (c' : Configuration) (mem' : c' ∈ (set.items.modify k (absorb made.1 c)).toList) :=
      mem_modify_slot h.nodup_slots get mem'
    refine ⟨by simpa using came.2 before, h.grown.trans grown, blended, h.fullContext, h.unordered, ?_, ?_, ?_⟩
    · intro c' mem'
      rcases members c' mem' with ⟨old', -⟩ | rfl
      · exact (h.present c' old').mono grown
      · exact presentMade
    · rw [firsts_concat, if_pos earlier, ← h.first]
      exact map_modify fun _ => rfl
    · intro c' mem'
      rcases members c' mem' with ⟨old', apart⟩ | rfl
      · rw [Held.union_concat_of_ne (here ▸ apart.symm), ← h.union c' old', Configuration.held, Configuration.held,
          (h.present c' old').stackSet_eq h.blended.tidy grown]
      · have slot : (absorb made.1 c old).slot = c.slot := here.symm
        have had := h.union old mem
        rw [← here] at had
        rw [slot, Held.union_concat, ← had, Configuration.held, slot]
        simp only [Configuration.held, absorb, joined, known.stackSet_eq tidy h.grown]

end Gathered

/-- Threads that are added to an empty parser set, with stacks whose merges blend. -/
theorem addAll_gathered {wildcard : Bool} (blended : s.Blended wildcard)
    (known : ∀ c ∈ cs, s.graph.Present c.stack) :
    let run := addAll { fullContext := !wildcard } cs s
    run.1 = cs.mapIdx (fun i c => !(cs.take i).any c.sameKey) ∧
      Gathered wildcard s.graph cs run.2.1 run.2.2 := by
  induction cs using List.reverseRecOn with
  | nil =>
      exact ⟨rfl, .refl _, blended, rfl, rfl, fun c mem => by simp [addAll, toList] at mem, rfl,
        fun c mem => by simp [addAll, toList] at mem⟩
  | append_singleton cs c ih =>
      obtain ⟨earlier, last⟩ := List.forall_mem_append.1 known
      obtain ⟨grew, gathered⟩ := ih earlier
      obtain ⟨new, gathered⟩ := gathered.add blended.tidy (last c (.head _))
      rw [addAll_concat]
      refine ⟨?_, gathered⟩
      have before : cs.mapIdx (fun i c' => !((cs ++ [c]).take i).any c'.sameKey) =
          cs.mapIdx fun i c' => !(cs.take i).any c'.sameKey := by
        refine List.mapIdx_eq_mapIdx_iff.2 fun i inside => ?_
        rw [List.take_append_of_le_length (Nat.le_of_lt inside)]
      rw [List.mapIdx_concat, before, List.take_left, ← grew, ← new]

/-- Threads that are added to an empty parser set in an arena, with memo number `k`. -/
def inArena (m : Arena) (wildcard : Bool) (k : Nat) (cs : List Configuration) :
    List Bool × ConfigurationSet × Stacks :=
  addAll { fullContext := !wildcard } cs (m.withMemo k)

/-- What a parser set is to the threads that were added to it. -/
structure KeyedUnion (wildcard : Bool) (m : Arena) (k : Nat) (cs : List Configuration) : Prop where
  /-- It holds one thread for each slot, in the order of the first ones, with what those of the slot
  have together. -/
  union : (inArena m wildcard k cs).2.1.toList.map (·.held (inArena m wildcard k cs).2.2.graph) =
    (firsts cs).map fun c => .union wildcard m.graph cs c.slot
  /-- If no stack of a thread goes on from another one of it, the stacks that are there are the least
  ones; without the wildcard they all are. -/
  joined : ∀ c ∈ (inArena m wildcard k cs).2.1.toList,
    (wildcard = true → ∀ d ∈ cs, d.slot = c.slot → PrefixFree (m.graph.stackSet d.stack)) →
    (inArena m wildcard k cs).2.2.graph.stackSet c.stack =
      if wildcard then least (⋃₀ Held.stackSets m.graph cs c.slot) else ⋃₀ Held.stackSets m.graph cs c.slot
  /-- What a lexer records is that of the first thread of the slot. -/
  record : (inArena m wildcard k cs).2.1.toList.map Configuration.record =
    (firsts cs).map Configuration.record
  guarded : (inArena m wildcard k cs).2.1.hasGuards = true ↔ ∃ c ∈ cs, c.guard ≠ .always
  /-- Guards that come of predicates and levels have some of them, unless they are certain. -/
  asked : (∀ c ∈ cs, c.guard.Composed) →
    ((inArena m wildcard k cs).2.1.hasGuards = true ↔ ∃ c ∈ cs, c.guard.atoms ≠ [])
  /-- The set grows with the first thread of each slot. -/
  grew : (inArena m wildcard k cs).1 = cs.mapIdx fun i c => !(cs.take i).any c.sameKey
  /-- In any other order, the same threads come out but for what a lexer records. In an arena that has
  grown further the stacks have the same numbers, too. -/
  perm : ∀ {m' k' cs'}, m'.Filled wildcard k' → m.graph.Extends m'.graph → cs'.Perm cs →
    let run := inArena m wildcard k cs
    let run' := inArena m' wildcard k' cs'
    (run'.2.1.toList.map (·.held run'.2.2.graph)).Perm (run.2.1.toList.map (·.held run.2.2.graph)) ∧
      (run.2.2.graph.Extends m'.graph →
        (run'.2.1.toList.map Configuration.unrecorded).Perm (run.2.1.toList.map Configuration.unrecorded))

namespace Gathered

variable {wildcard : Bool} {g₀ g : StackGraph} {set' : ConfigurationSet} {s' : Stacks}
  {cs' : List Configuration}

theorem map_held (h : Gathered wildcard g₀ cs set s) :
    set.toList.map (·.held s.graph) = (set.toList.map Configuration.slot).map (.union wildcard g₀ cs) := by
  rw [List.map_map]
  exact List.map_congr_left h.union

/-- Sets with the same threads, but for their order, hold the same. -/
theorem held_perm (h : Gathered wildcard g₀ cs set s) (h' : Gathered wildcard g cs' set' s')
    (tidy : g₀.Tidy) (known : ∀ c ∈ cs, g₀.Present c.stack) (grown : g₀.Extends g) (perm : cs'.Perm cs) :
    (set'.toList.map (·.held s'.graph)).Perm (set.toList.map (·.held s.graph)) := by
  have slots : (set'.toList.map Configuration.slot).Perm (set.toList.map Configuration.slot) := by
    refine (List.perm_ext_iff_of_nodup h'.nodup_slots h.nodup_slots).2 fun slot => ?_
    rw [h'.mem_slots, h.mem_slots, (perm.map Configuration.slot).mem_iff]
  have same : Held.union wildcard g cs' = .union wildcard g₀ cs :=
    funext fun slot => Held.union_perm perm known tidy grown
  rw [h.map_held, h'.map_held, same]
  exact slots.map _

/-- Threads of which sets have the same are one, but for what a lexer records. -/
theorem unrecorded_eq (blended : s.Blended wildcard) (left : s.graph.Present c.stack)
    (right : s.graph.Present c'.stack) (same : c.held s.graph = c'.held s.graph) :
    c.unrecorded = c'.unrecorded := by
  obtain ⟨slot, joined, outerDepth, suppressed⟩ := Held.mk.inj same
  obtain ⟨state, rest⟩ := Prod.mk.inj slot
  obtain ⟨alt, guard⟩ := Prod.mk.inj rest
  have stack := eq_of_stackSet blended.tidy blended.ordered left right joined
  rw [Configuration.unrecorded, Configuration.unrecorded, state, alt, guard, stack, outerDepth, suppressed]

/-- In an arena that has grown further, sets that hold the same have the same threads. -/
theorem unrecorded_perm (h : Gathered wildcard g₀ cs set s) (h' : Gathered wildcard g cs' set' s')
    (grown : s.graph.Extends s'.graph)
    (perm : (set'.toList.map (·.held s'.graph)).Perm (set.toList.map (·.held s.graph))) :
    (set'.toList.map Configuration.unrecorded).Perm (set.toList.map Configuration.unrecorded) := by
  -- Nodes are compared in the arena that has grown further, where equal sets of stacks are one node.
  have later : set.toList.map (·.held s.graph) = set.toList.map (·.held s'.graph) := by
    refine List.map_congr_left fun c mem => ?_
    rw [Configuration.held, Configuration.held, (h.present c mem).stackSet_eq h.blended.tidy grown]
  have present (c : Configuration) (mem : c ∈ set.toList) := (h.present c mem).mono grown
  rw [later] at perm
  have nodup (list : List Configuration) (slots : (list.map Configuration.slot).Nodup) :
      (list.map Configuration.unrecorded).Nodup := by
    refine .of_map Configuration.slot ?_
    rwa [List.map_map]
  refine (List.perm_ext_iff_of_nodup (nodup _ h'.nodup_slots) (nodup _ h.nodup_slots)).2 fun d => ?_
  have transfer {list list' : List Configuration} (left : ∀ c ∈ list, s'.graph.Present c.stack)
      (right : ∀ c ∈ list', s'.graph.Present c.stack)
      (sub : list.map (·.held s'.graph) ⊆ list'.map (·.held s'.graph))
      (mem : d ∈ list.map Configuration.unrecorded) : d ∈ list'.map Configuration.unrecorded := by
    obtain ⟨c, inside, rfl⟩ := List.mem_map.1 mem
    obtain ⟨c', inside', same⟩ := List.mem_map.1 (sub (List.mem_map.2 ⟨c, inside, rfl⟩))
    refine List.mem_map.2 ⟨c', inside', ?_⟩
    exact unrecorded_eq h'.blended (right c' inside') (left c inside) same
  exact ⟨transfer h'.present present perm.subset, transfer present h'.present perm.symm.subset⟩

end Gathered

/-- The stacks of a slot, if no stack of a thread goes on from another one of it. -/
theorem stackSet_union {wildcard : Bool} {g : StackGraph} {slot : Nat × Nat × Guard}
    (free : wildcard = true → ∀ d ∈ cs, d.slot = slot → PrefixFree (g.stackSet d.stack)) :
    (Held.union wildcard g cs slot).stackSet =
      if wildcard then least (⋃₀ Held.stackSets g cs slot) else ⋃₀ Held.stackSets g cs slot := by
  cases wildcard with
  | false => exact gather_false _
  | true =>
      refine gather_of_prefixFree ?_
      rintro _ ⟨d, mem, here, rfl⟩
      exact free rfl d mem here

theorem hasGuards_iff (m : Arena) (wildcard : Bool) (k : Nat) (cs : List Configuration) :
    (inArena m wildcard k cs).2.1.hasGuards = true ↔ ∃ c ∈ cs, c.guard ≠ .always := by
  rw [inArena, hasGuards_addAll, Bool.false_or, List.any_eq_true]
  simp only [Bool.not_eq_true', ← Bool.not_eq_true, Guard.isAlways_iff, ne_eq]

/-- A parser set is the keyed union of the threads that are added to it, and a lexer set keeps each
thread once. -/
theorem addAll_keyed :
    (∀ {wildcard : Bool} {m : Arena} {k : Nat} {cs : List Configuration}, m.Filled wildcard k →
      (∀ c ∈ cs, m.graph.Present c.stack) → KeyedUnion wildcard m k cs) ∧
    ∀ (cs : List Configuration) (s : Stacks),
      (addAll { ordered := true } cs s).2.1.toList = cs.eraseDupsBy Configuration.same := by
  refine ⟨fun {wildcard m k cs} filled known => ?_, toList_addAll_ordered⟩
  have blended := filled.blended
  obtain ⟨grew, gathered⟩ := addAll_gathered blended known
  have guarded := hasGuards_iff m wildcard k cs
  refine {
    union := ?_
    joined := fun c mem free => ?_
    record := ?_
    guarded
    asked := fun composed => guarded.trans (exists_congr fun c => and_congr_right fun mem => ?_)
    grew
    perm := fun {m' k' cs'} filled' grown perm => ?_ }
  · have held := gathered.map_held
    rwa [gathered.slots, List.map_map] at held
  · exact (congrArg Held.stackSet (gathered.union c mem)).trans (stackSet_union free)
  · have snd := congrArg (List.map Prod.snd) gathered.first
    rwa [List.map_map, List.map_map] at snd
  · refine not_congr ⟨fun certain => ?_, fun bare => (composed c mem).canonical.eq_always bare⟩
    rw [certain]
    rfl
  · have known' (c : Configuration) (mem : c ∈ cs') : m'.graph.Present c.stack :=
      (known c (perm.mem_iff.1 mem)).mono grown
    have gathered' := (addAll_gathered filled'.blended known').2
    have held := gathered.held_perm gathered' blended.tidy known grown perm
    refine ⟨held, fun further => gathered.unrecorded_perm gathered' ?_ held⟩
    exact further.trans gathered'.grown

/-- An arena with the stacks of two calls and with the empty stack beside one of them. -/
def mixedArena : Arena :=
  ((((Arena.push {} 0 5).2.push 0 6).2).merge false 0 1 0).2

theorem filled_mixedArena : mixedArena.Filled true 1 := by
  have first : Arena.Use false 0 {} (Arena.push {} 0 5).2 := .push present_zero (by decide)
  have second : Arena.Use false 0 (Arena.push {} 0 5).2 ((Arena.push {} 0 5).2.push 0 6).2 :=
    .push present_zero (by decide)
  have third : Arena.Use false 0 ((Arena.push {} 0 5).2.push 0 6).2 mixedArena :=
    .merge (.inr (by decide +kernel)) present_zero
  exact ((Relation.ReflTransGen.single ⟨false, 0, nofun, first⟩).tail ⟨false, 0, nofun, second⟩).tail
    ⟨false, 0, nofun, third⟩

/-- Two threads of one slot, and another one under a guard. -/
def mixedThreads : List Configuration :=
  [{ state := 1, alt := 1, stack := 3, passedNonGreedy := true },
    { state := 2, alt := 1, stack := 0, guard := .precedence 2 },
    { state := 1, alt := 1, stack := 2, outerDepth := 1 }]

theorem present_mixedThreads : ∀ c ∈ mixedThreads, mixedArena.graph.Present c.stack := by
  have call : mixedArena.graph.Present 2 := .inr (by decide +kernel)
  have beside : mixedArena.graph.Present 3 := .inr (by decide +kernel)
  exact List.forall_mem_cons.2 ⟨beside, List.forall_mem_cons.2 ⟨present_zero, List.forall_mem_singleton.2 call⟩⟩

theorem addAll_keyed_mixedThreads :
    KeyedUnion true mixedArena 1 mixedThreads ∧
      (inArena mixedArena true 1 mixedThreads).2.1.toList =
        [{ state := 1, alt := 1, stack := 4, outerDepth := 1, passedNonGreedy := true },
          { state := 2, alt := 1, stack := 0, guard := .precedence 2 }] ∧
      (inArena mixedArena true 1 mixedThreads).2.2.graph.describe 4 = ["[5 $]", "[6 $]", "[$]"] :=
  ⟨addAll_keyed.1 filled_mixedArena present_mixedThreads, by decide +kernel, by decide +kernel⟩

/-- With the wildcard it is not always the least stacks that are left, another order does not always
give equal threads, and a guard need not ask anything. -/
theorem not_addAll_plain :
    (¬ ∀ (m : Arena) (k : Nat) (cs : List Configuration), m.Filled true k →
      (∀ c ∈ cs, m.graph.Present c.stack) → ∀ c ∈ (inArena m true k cs).2.1.toList,
        (inArena m true k cs).2.2.graph.stackSet c.stack = least (⋃₀ Held.stackSets m.graph cs c.slot)) ∧
    (¬ ∀ (m : Arena) (k : Nat) (cs cs' : List Configuration), m.Filled true k →
      (∀ c ∈ cs, m.graph.Present c.stack) → cs'.Perm cs → ∀ c ∈ (inArena m true k cs).2.1.toList,
        ∃ c' ∈ (inArena m true k cs').2.1.toList, c.same c' = true) ∧
    ¬ ∀ (m : Arena) (k : Nat) (cs : List Configuration), m.Filled true k →
      (∀ c ∈ cs, m.graph.Present c.stack) →
        ((inArena m true k cs).2.1.hasGuards = true ↔ ∃ c ∈ cs, c.guard.atoms ≠ []) := by
  refine ⟨fun all => ?_, fun all => ?_, fun all => ?_⟩
  · have same := all mixedArena 1 mixedThreads filled_mixedArena present_mixedThreads
      { state := 1, alt := 1, stack := 4, outerDepth := 1, passedNonGreedy := true } (by decide +kernel)
    have shown : [5] ∈ (inArena mixedArena true 1 mixedThreads).2.2.graph.stackList 4 := by decide +kernel
    have kept : [5] ∈ least (⋃₀ Held.stackSets mixedArena.graph mixedThreads (1, 1, .always)) := same ▸ shown
    have empty : [] ∈ mixedArena.graph.stackList 3 := by decide +kernel
    have absorbed := kept.2 [] ⟨_, ⟨_, .head _, rfl, rfl⟩, empty⟩ List.nil_prefix
    cases absorbed
  · have first := all {} 0 [{ state := 1, alt := 1 }, { state := 1, alt := 1, passedNonGreedy := true }]
      [{ state := 1, alt := 1, passedNonGreedy := true }, { state := 1, alt := 1 }] .refl
      (by simp [present_zero]) (.swap _ _ _)
    exact absurd first (by decide +kernel)
  · have noted := all {} 0 [{ state := 1, alt := 1, guard := .all [] }] .refl (by simp [present_zero])
    obtain ⟨c, mem, asked⟩ := noted.1 (by decide +kernel)
    rw [List.mem_singleton.1 mem] at asked
    exact asked rfl

end ConfigurationSet

end AdaptiveLL
