import AdaptiveLL.Proofs.Prediction.Union
/-!
One memo for two stages. A prediction first merges stacks with the empty stack as a wildcard, and
then, with the full context, without; both stages use one memo. Merges of the first stage answer as
without a memo. Those of the second one do so exactly if every result that the first stage left
behind is the whole union of its operands, for what the memo remembers is not computed again.
-/
namespace AdaptiveLL.Arena

open StackGraph Relation

variable {m m₁ m₂ m' : Arena} {wildcard : Bool} {k a b id : Nat}

/-- The arena without anything remembered. -/
def forget (m : Arena) : Arena :=
  { m with memos := fun _ => [] }

/-- A merge with memo number `k` answers what it answers again with an empty one. -/
def Transparent (wildcard : Bool) (k : Nat) (m : Arena) : Prop :=
  ∀ a b, m.graph.Present a → m.graph.Present b →
    ((m.merge wildcard k a b).2.forget.merge wildcard k a b).1 = (m.merge wildcard k a b).1

/-- Arenas after any uses, with any memos and either way to treat the empty stack. -/
def Reached : Arena → Prop :=
  ReflTransGen (fun m m' => ∃ wildcard k, Use wildcard k m m') {}

/-- Every merge keeps to the relation that holds of all nodes. -/
theorem mergeRule_true (wildcard : Bool) : Stacks.MergeRule wildcard fun _ _ _ _ => True := by
  constructor <;> intros <;> trivial

theorem Reached.tidy_ordered (reached : m.Reached) : m.graph.Tidy ∧ m.graph.Ordered := by
  suffices (∀ k, (m.withMemo k).Keeps fun _ _ _ _ => True) ∧ m.graph.Ordered from
    ⟨(this.1 0).tidy, this.2⟩
  induction reached with
  | refl => exact ⟨fun _ => ⟨.empty, fun _ mem => by cases mem⟩, .empty⟩
  | tail _ use ih =>
      obtain ⟨wildcard, k, use⟩ := use
      obtain ⟨keeps, ordered⟩ := ih
      have does := use.does (mergeRule_true wildcard) (keeps k)
      exact ⟨does.all (mergeRule_true wildcard) keeps, does.ordered ordered⟩

theorem forget_keeps {R : StackGraph → Nat → Nat → Nat → Prop} (tidy : m.graph.Tidy) (k : Nat) :
    (m.forget.withMemo k).Keeps R :=
  ⟨tidy, fun _ mem => by cases mem⟩

/-- A stage keeps what one of its steps keeps. -/
theorem stage_keeps {R : StackGraph → Nat → Nat → Nat → Prop} (rule : Stacks.MergeRule wildcard R)
    (keeps : (m.withMemo k).Keeps R) (stage : ReflTransGen (Use wildcard k) m m') :
    (m'.withMemo k).Keeps R ∧ (m.graph.Ordered → m'.graph.Ordered) := by
  induction stage with
  | refl => exact ⟨keeps, fun ordered => ordered⟩
  | tail _ use ih =>
      obtain ⟨keeps, sorted⟩ := ih
      have does := use.does rule keeps
      exact ⟨does.keeps, fun ordered => does.ordered (sorted ordered)⟩

/-- Where the memo holds merges with the wildcard, such merges are transparent. -/
theorem transparent_of_merges
    (keeps : (m.withMemo k).Keeps fun g a b id => true = true → g.Merges a b id) :
    m.Transparent true k := by
  intro a b left right
  have sound : (m.withMemo k).Sound true := ⟨keeps.tidy, keeps.memo⟩
  have grown := ((m.withMemo k).merge_merged sound left right).sound.tidy
  have sound' : ((m.merge true k a b).2.forget.withMemo k).Sound true :=
    ⟨grown, fun _ mem => by cases mem⟩
  exact (m.withMemo k).merge_again sound left right (.refl _) sound'

/-- Merging without anything remembered is the union. -/
theorem forget_merge (tidy : m.graph.Tidy) (ordered : m.graph.Ordered) (left : m.graph.Present a)
    (right : m.graph.Present b) (present : m.graph.Present id) :
    (m.forget.merge false k a b).1 = id ↔
      m.graph.stackSet id = m.graph.stackSet a ∪ m.graph.stackSet b := by
  have keeps := forget_keeps (R := Joins false) tidy k
  obtain ⟨does, made, joins⟩ := merge_does (mergeRule_join false) keeps left right
  have joined := joins (does.ordered ordered) nofun
  rw [left.stackSet_eq tidy does.grown, right.stackSet_eq tidy does.grown] at joined
  constructor
  · intro same
    rw [← present.stackSet_eq tidy does.grown, ← same, joined]
    rfl
  · intro union
    apply eq_of_stackSet (g := (m.forget.merge false k a b).2.graph) does.keeps.tidy
      (does.ordered ordered) made (present.mono does.grown)
    rw [joined, present.stackSet_eq tidy does.grown, union]
    rfl

/-- Where the memo holds unions, merges without the wildcard are transparent. -/
theorem transparent_of_unions (keeps : (m.withMemo k).Keeps (Joins false))
    (ordered : m.graph.Ordered) : m.Transparent false k := by
  intro a b left right
  obtain ⟨does, present, joins⟩ := merge_does (mergeRule_join false) keeps left right
  have sorted := does.ordered ordered
  apply (forget_merge does.keeps.tidy sorted (left.mono does.grown) (right.mono does.grown) present).2
  exact joins sorted nofun

/-- What the memo remembers is not computed again. -/
theorem merge_remembered {s : Stacks} (different : a ≠ b) (known : s.merged? a b = some id) :
    s.merge false a b = (id, s) := by
  rw [Stacks.merge, Stacks.mergeWithin, if_neg different]
  simp only [known, Bool.false_and, Bool.false_eq_true, if_false]
  split <;> rfl

/-- If merges are transparent after a stage with the wildcard, all that it remembers are unions. -/
theorem union_of_transparent
    (merges : (m.withMemo k).Keeps fun g a b id => true = true → g.Merges a b id)
    (ordered : m.graph.Ordered) (transparent : m.Transparent false k) {entry : (Nat × Nat) × Nat}
    (mem : entry ∈ m.memos k) :
    m.graph.stackSet entry.2 = m.graph.stackSet entry.1.1 ∪ m.graph.stackSet entry.1.2 := by
  obtain ⟨⟨a, b⟩, id⟩ := entry
  obtain ⟨left, right, present, merged⟩ : m.graph.Present a ∧ m.graph.Present b ∧
    m.graph.Present id ∧ (true = true → m.graph.Merges a b id) := merges.memo _ mem
  have distinct := merges.tidy.distinct
  by_cases same : a = b
  · subst same
    obtain rfl : a = id := (Merges.same a).unique distinct (merged rfl)
    exact (Set.union_self _).symm
  · -- Another entry for the two nodes would be the same merge.
    have known : (m.withMemo k).merged? a b = some id := by
      cases found : (m.memos k).lookup (a, b) with
      | none =>
          have missing := List.lookup_eq_none_iff.1 found _ mem
          simp at missing
      | some id' =>
          have merged' := (merges.memo _ (mem_of_lookup found)).2.2.2
          obtain rfl : id = id' := (merged rfl).unique distinct (merged' rfl)
          rw [Stacks.merged?, withMemo, found]
          rfl
    have made := merge_remembered same known
    have answer : (m.merge false k a b).1 = id := congrArg Prod.fst made
    have graph : (m.merge false k a b).2.graph = m.graph := congrArg (·.2.graph) made
    have again := transparent a b left right
    rw [answer] at again
    have exact := forget_merge (m := (m.merge false k a b).2) (k := k) (graph ▸ merges.tidy) (graph ▸ ordered)
      (graph ▸ left) (graph ▸ right) (graph ▸ present)
    rw [graph] at exact
    exact exact.1 again

/-- After a stage with the wildcard, a stage without it is transparent exactly if all that is
remembered are unions. -/
theorem Reached.transparent_iff (reached : m.Reached) (fresh : m.memos k = [])
    (first : ReflTransGen (Use true k) m m₁) :
    (∀ m', ReflTransGen (Use true k) m m' → m'.Transparent true k) ∧
    ((∀ m₂, ReflTransGen (Use false k) m₁ m₂ → m₂.Transparent false k) ↔
      ∀ entry ∈ m₁.memos k, m₁.graph.stackSet entry.2 =
        m₁.graph.stackSet entry.1.1 ∪ m₁.graph.stackSet entry.1.2) ∧
    (∀ m₂, ReflTransGen (Use false k) m₁.forget m₂ → m₂.Transparent false k) := by
  obtain ⟨tidy, ordered⟩ := reached.tidy_ordered
  have start {R : StackGraph → Nat → Nat → Nat → Prop} : (m.withMemo k).Keeps R := by
    refine ⟨tidy, fun entry mem => ?_⟩
    rw [withMemo, fresh] at mem
    cases mem
  obtain ⟨merges, sorted⟩ := stage_keeps (Stacks.mergeRule_merges true) start first
  have ordered₁ := sorted ordered
  refine ⟨fun m' stage => ?_, ⟨fun transparent entry mem => ?_, fun unions m₂ second => ?_⟩,
    fun m₂ second => ?_⟩
  · exact transparent_of_merges (stage_keeps (Stacks.mergeRule_merges true) start stage).1
  · exact union_of_transparent merges ordered₁ (transparent m₁ .refl) mem
  · have keeps : (m₁.withMemo k).Keeps (Joins false) := by
      refine ⟨merges.tidy, fun entry mem => ?_⟩
      obtain ⟨left, right, present, -⟩ := merges.memo entry mem
      exact ⟨left, right, present, fun _ _ => unions entry mem⟩
    obtain ⟨keeps₂, sorted₂⟩ := stage_keeps (mergeRule_join false) keeps second
    exact transparent_of_unions keeps₂ (sorted₂ ordered₁)
  · have keeps := forget_keeps (R := Joins false) merges.tidy k
    obtain ⟨keeps₂, sorted₂⟩ := stage_keeps (mergeRule_join false) keeps second
    exact transparent_of_unions keeps₂ (sorted₂ ordered₁)

/-- One stack, merged with the empty one as a wildcard: what is left behind is no union. -/
theorem Reached.transparent_iff_wildcard :
    let m := (push {} 0 5).2
    let m₁ := (m.merge true 0 1 0).2
    (m.Reached ∧ m.memos 0 = [] ∧ ReflTransGen (Use true 0) m m₁) ∧
      ((∀ m₂, ReflTransGen (Use false 0) m₁ m₂ → m₂.Transparent false 0) ↔
        ∀ entry ∈ m₁.memos 0, m₁.graph.stackSet entry.2 =
          m₁.graph.stackSet entry.1.1 ∪ m₁.graph.stackSet entry.1.2) := by
  intro m m₁
  have pushed : Use true 0 {} m := .push present_zero (by decide)
  have reached : m.Reached := .single ⟨true, 0, pushed⟩
  have first : ReflTransGen (Use true 0) m m₁ :=
    .single (.merge (.inr (by decide +kernel)) present_zero)
  exact ⟨⟨reached, rfl, first⟩, (Reached.transparent_iff reached rfl first).2.1⟩

/-- The second stage is not always transparent: the empty stack that absorbed another one is
answered again where it should be kept beside it. -/
theorem not_transparent_stages : ¬ ∀ (m m₁ m₂ : Arena) (k : Nat), m.Reached → m.memos k = [] →
    ReflTransGen (Use true k) m m₁ → ReflTransGen (Use false k) m₁ m₂ → m₂.Transparent false k := by
  intro transparent
  let m := (push {} 0 5).2
  let m₁ := (m.merge true 0 1 0).2
  have pushed : Use true 0 {} m := .push present_zero (by decide)
  have some : m.graph.Present 1 := .inr (by decide +kernel)
  have first : Use true 0 m m₁ := .merge some present_zero
  have same := transparent m m₁ m₁ 0 (.single ⟨true, 0, pushed⟩) rfl (.single first) .refl 1 0
    (.inr (by decide +kernel)) present_zero
  exact absurd same (by decide +kernel)

end AdaptiveLL.Arena
