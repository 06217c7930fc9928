import AdaptiveLL.Proofs.Network.Definitions
import AdaptiveLL.Proofs.Network.Ebnf
import AdaptiveLL.Proofs.Network.Spelling
/-!
The languages of elements, and the fragments that spell them. The language of an element depends
on those of the rules it refers to. Whatever the finished network is, as long as it has the states
of the network under construction as they are once they have their edges, the fragment of an
element spells the language of the element.
-/
namespace AdaptiveLL

open scoped Computability

open Network (letters)

/-- Symbols one after the other. -/
theorem prod_letters (xs : List Symbol) : (xs.map fun x => letters (· = x)).prod = {xs} := by
  induction xs with
  | nil => rfl
  | cons x xs ih =>
      rw [List.map_cons, List.prod_cons, ih]
      ext w
      constructor
      · rintro ⟨_, ⟨_, rfl, rfl⟩, _, rfl, rfl⟩
        rfl
      · rintro rfl
        exact Language.append_mem_mul (a := [x]) ⟨x, rfl, rfl⟩ rfl

namespace Element

mutual

/-- The words of an element, given those of the rules. Guards and actions read nothing. Wildcards
and negated sets range from `low` to `high`. -/
def language (low high : Symbol) (L : Nat → Language Symbol) : Element → Language Symbol
  | .token type => letters (· = type)
  | .range least last => letters fun x => least ≤ x ∧ x ≤ last
  | .set labels => letters fun x => labels.contains x = true
  | .notSet labels => letters fun x => (low ≤ x ∧ x ≤ high) ∧ labels.contains x = false
  | .wildcard => letters fun x => low ≤ x ∧ x ≤ high
  | .literal text => {text.toList.map fun c => (c.toNat : Symbol)}
  | .empty | .predicate .. | .precedence _ | .action _ | .command _ => 1
  | .ref rule _ => L rule
  | .sequence es => row low high L es
  | .alternatives es => oneOf low high L es
  | .optional _ es => 1 + oneOf low high L es
  | .star _ es => (oneOf low high L es)∗
  | .plus _ es => oneOf low high L es * (oneOf low high L es)∗
  | .leftRecursive primaries _ suffixes => oneOf low high L primaries * (oneOf low high L suffixes)∗

/-- A word of each element, one after the other. -/
def row (low high : Symbol) (L : Nat → Language Symbol) : List Element → Language Symbol
  | [] => 1
  | e :: rest => e.language low high L * row low high L rest

/-- A word of one of the elements. -/
def oneOf (low high : Symbol) (L : Nat → Language Symbol) : List Element → Language Symbol
  | [] => 0
  | e :: rest => e.language low high L + oneOf low high L rest

end

variable (low high : Symbol) (L : Nat → Language Symbol) (es : List Element)

theorem language_sequence :
    (sequence es).language low high L = (es.map fun e => e.language low high L).prod := by
  show row low high L es = _
  induction es with
  | nil => rfl
  | cons e es ih =>
      rw [List.map_cons, List.prod_cons, ← ih]
      rfl

theorem language_alternatives :
    (alternatives es).language low high L = (es.map fun e => e.language low high L).sum := by
  show oneOf low high L es = _
  induction es with
  | nil => rfl
  | cons e es ih =>
      rw [List.map_cons, List.sum_cons, ← ih]
      rfl

theorem language_optional (greedy : Bool) : (optional greedy es).language low high L =
    1 + (es.map fun e => e.language low high L).sum := by
  rw [← language_alternatives]
  rfl

theorem language_star (greedy : Bool) : (star greedy es).language low high L =
    (es.map fun e => e.language low high L).sum∗ := by
  rw [← language_alternatives]
  rfl

theorem language_plus (greedy : Bool) : (plus greedy es).language low high L =
    (es.map fun e => e.language low high L).sum * (es.map fun e => e.language low high L).sum∗ := by
  rw [← language_alternatives]
  rfl

theorem language_leftRecursive (levels : List Int) (suffixes : List Element) :
    (leftRecursive es levels suffixes).language low high L =
      (es.map fun e => e.language low high L).sum *
        (suffixes.map fun e => e.language low high L).sum∗ := by
  rw [← language_alternatives, ← language_alternatives]
  rfl

end Element

namespace Transition

theorem target_retarget (q : Nat) (t : Transition) : (t.retarget q).target = q := by
  cases t <;> rfl

theorem reads_retarget (q : Nat) (t : Transition) (x low high : Symbol) :
    (t.retarget q).reads x low high = t.reads x low high := by
  cases t <;> rfl

theorem isEpsilon_retarget (q : Nat) (t : Transition) : (t.retarget q).isEpsilon = t.isEpsilon := by
  cases t <;> rfl

end Transition

namespace Builder

variable {b b₀ b' : Builder} {n : Network} {low high : Symbol} {fs rest : List Fragment}
  {links : List (Nat × Nat)} {new : List StatePlan} {marks : List Nat}
  {Xs : List ((Nat → Language Symbol) → Language Symbol)}

/-- The finished network has the settled states as they are. -/
def SettledIn (b : Builder) (n : Network) : Prop :=
  ∀ (q : Nat) (s : StatePlan), b.states[q]? = some s → s.Settled → n.LeavesBy q s.transitions

namespace SettledIn

theorem before (h : b'.SettledIn n) (settles : Settles b b') : b.SettledIn n :=
  fun q s here settled => h q s (settles q s here settled) settled

theorem added (h : b'.SettledIn n) (joins : Joins b b' links new marks) {i : Nat} {s : StatePlan}
    (here : new[i]? = some s) (settled : s.Settled) :
    n.LeavesBy (b.states.size + i) s.transitions :=
  h _ s ((joins.new i).trans here) settled

theorem linked (h : b'.SettledIn n) (joins : Joins b b' links new marks) {source target : Nat}
    (opens : b.IsOpen source) (mem : (source, target) ∈ links) (once : (links.map Prod.fst).Nodup) :
    n.LeavesBy source [.plain target] := by
  obtain ⟨s, here, bare, takes⟩ := opens
  refine h _ _ (joins.linked mem once here bare) ⟨fun stop => ?_, by simp⟩
  have stop : s.kind = .ruleStop := stop
  simp [stop, StateKind.takesEdge] at takes

end SettledIn

theorem settled_plan {kind : StateKind} {t : Transition} {ts : List Transition} {nonGreedy : Bool}
    (kinds : kind ≠ .ruleStop) : (b.plan kind (t :: ts) nonGreedy).Settled :=
  ⟨kinds, by simp [plan]⟩

/-- The edge of a fragment of two states. -/
theorem leaves_of_joins {t : Transition} {exit : StatePlan}
    (joins : Joins b b' [] [b.plan .basic [t] false, exit] []) (settled : b'.SettledIn n) :
    n.LeavesBy b.states.size [t] :=
  settled.added joins (i := 0) rfl (settled_plan nofun)

theorem edge_reads {t : Transition} (settled : (b.edge t).2.SettledIn n)
    (reading : t.isEpsilon = false) :
    n.Spells low high (b.edge t).1 fun _ => letters fun x => t.reads x low high = true := by
  obtain ⟨fragment, joins⟩ := b.edge_joins t
  have spells : n.Spells low high _ _ := .reads (leaves_of_joins joins settled)
    (by rwa [Transition.isEpsilon_retarget])
  rw [fragment]
  simpa only [Transition.target_retarget, Transition.reads_retarget] using spells

theorem edge_silent {t : Transition} (settled : (b.edge t).2.SettledIn n)
    (cross : ∀ q, (t.retarget q).silently? [] = some (q, [])) :
    n.Spells low high (b.edge t).1 fun _ => 1 := by
  obtain ⟨fragment, joins⟩ := b.edge_joins t
  rw [fragment]
  exact .silent (leaves_of_joins joins settled) (cross _)

theorem empty_spells (settled : b.empty.2.SettledIn n) :
    n.Spells low high b.empty.1 fun _ => 1 := by
  obtain ⟨fragment, joins⟩ := b.empty_joins
  rw [fragment]
  exact .silent (leaves_of_joins joins settled) rfl

theorem ref_spells {rule start : Nat} {precedence : Int}
    (settled : (b.ref rule precedence).2.SettledIn n) (silent : n.StopsSilent)
    (known : n.WellFormed) (here : b.ruleStarts[rule]? = some start) (same : n.ruleStarts = b.ruleStarts) :
    n.Spells low high (b.ref rule precedence).1 fun L => L rule := by
  obtain ⟨fragment, joins⟩ := b.ref_joins rule precedence
  rw [here, Option.getD_some] at joins
  rw [fragment]
  exact .call silent known (same ▸ here) (leaves_of_joins joins settled)

theorem command_spells {a : LexerAction} (settled : (b.command a).2.SettledIn n) :
    n.Spells low high (b.command a).1 fun _ => 1 := by
  unfold command at settled ⊢
  split
  case h_1 found =>
    simp only [found] at settled
    exact edge_silent settled fun _ => rfl
  case h_2 new =>
    simp only [new] at settled
    exact edge_silent settled fun _ => rfl

/-! ### What stays settled -/

section Settling

variable (h : Fresh b₀ b (fs ++ rest))
include h

theorem closed_settles {stop : Nat}
    (joins : Joins b b' (fs.map fun f => (f.exit, stop)) new marks) : Settles b b' :=
  joins.settles <| List.forall_mem_map.2 fun f mem =>
    (h.exits f (List.mem_append_left _ mem)).2

theorem alternatives_settles : Settles b (b.alternatives fs).2 := by
  by_cases one : fs.length = 1
  · obtain ⟨f, rfl⟩ := List.length_eq_one_iff.1 one
    exact fun _ _ here _ => here
  · exact closed_settles h (alternatives_joins one (exits_lt h)).2

theorem optional_settles (greedy : Bool) : Settles b (b.optional greedy fs).2 :=
  closed_settles h (optional_joins greedy (exits_lt h)).2

theorem star_settles (greedy : Bool) : Settles b (b.star greedy fs).2 :=
  closed_settles h (star_joins greedy (exits_lt h)).2

theorem plus_settles (greedy : Bool) : Settles b (b.plus greedy fs).2 :=
  closed_settles h (plus_joins greedy (exits_lt h)).2

theorem sequence_settles : Settles b (b.sequence fs).2 := by
  cases fs with
  | nil => exact b.empty_fresh.settles
  | cons f fs =>
      have lt := exits_lt h
      obtain ⟨-, joins⟩ := chain_joins (.refl b) f.exit fs
        ⟨lt _ (.head _), fun g mem => lt g (.tail _ mem)⟩
      exact joins.settles (by simpa using (chainLinks_open h rfl).1)

omit h in
theorem guard_settles {suffixes : List (Int × Fragment)}
    (h : Fresh b₀ b (suffixes.map Prod.snd ++ rest)) : Settles b (b.guard suffixes).2 := by
  induction suffixes generalizing b rest with
  | nil => exact fun _ _ here _ => here
  | cons pair others ih =>
      obtain ⟨level, suffix⟩ := pair
      rcases checks : b.edge (.precedence 0 level) with ⟨check, b₁⟩
      rcases joins : b₁.sequence [check, suffix] with ⟨first, b₂⟩
      simp only [guard, checks, joins]
      have checked := b.edge_fresh (.precedence 0 level)
      rw [checks] at checked
      have both : Fresh b₀ b₁ ([check, suffix] ++ (others.map Prod.snd ++ rest)) :=
        (h.append checked).subperm (List.perm_append_singleton check _).symm.subperm
      have joined := sequence_fresh both
      have settles := sequence_settles both
      rw [joins] at joined settles
      exact (checked.settles.trans settles).trans (ih (joined.subperm List.perm_middle.subperm))

omit h in
theorem leftRecursive_settles {suffixes : List (Int × Fragment)}
    (h : Fresh b₀ b (fs ++ (suffixes.map Prod.snd ++ rest))) :
    Settles b (b.leftRecursive fs suffixes).2 := by
  rcases bases : b.alternatives fs with ⟨primary, b₁⟩
  rcases guards : b₁.guard suffixes with ⟨guarded, b₂⟩
  rcases loops : b₂.star true guarded with ⟨loop, b₃⟩
  simp only [leftRecursive, bases, guards, loops]
  have fresh₁ := alternatives_fresh h
  have settles₁ := alternatives_settles h
  rw [bases] at fresh₁ settles₁
  have pending : Fresh b₀ b₁ (suffixes.map Prod.snd ++ (primary :: rest)) :=
    fresh₁.subperm List.perm_middle.subperm
  have fresh₂ := guard_fresh pending
  have settles₂ := guard_settles pending
  rw [guards] at fresh₂ settles₂
  have fresh₃ := star_fresh fresh₂ true
  have settles₃ := star_settles fresh₂ true
  rw [loops] at fresh₃ settles₃
  have both : Fresh b₀ b₃ ([primary, loop] ++ rest) :=
    fresh₃.subperm (List.Perm.swap ..).subperm
  exact ((settles₁.trans settles₂).trans settles₃).trans (sequence_settles both)

end Settling

/-! ### Blocks and loops -/

section Blocks

variable (h : Fresh b₀ b (fs ++ rest)) (each : List.Forall₂ (n.Spells low high) fs Xs)
include h each

/-- Fragments that are joined to the end of a block lead to it. -/
theorem closed_spells {stop : Nat} (joins : Joins b b' (fs.map fun f => (f.exit, stop)) new marks)
    (settled : b'.SettledIn n) :
    List.Forall₂ (fun q X => n.Spells low high ⟨q, stop⟩ X) (fs.map Fragment.entry) Xs := by
  have once : ((fs.map fun f => (f.exit, stop)).map Prod.fst).Nodup := by
    rw [List.map_map]
    exact (List.nodup_append.1 (List.map_append ▸ h.apart)).1
  have leaves : ∀ f ∈ fs, n.LeavesBy f.exit [.plain stop] := fun f mem =>
    settled.linked joins (h.exits f (List.mem_append_left _ mem)).2
      (List.mem_map_of_mem (f := fun f => (f.exit, stop)) mem) once
  rw [List.forall₂_map_left_iff]
  refine ((List.forall₂_and_left _ _).2 ⟨leaves, each⟩).imp ?_
  exact fun f X ⟨link, spells⟩ => spells.linked link

/-- A block whose start leads to its fragments. -/
theorem block_spells {stop i : Nat} {shape : BlockShape} {nonGreedy : Bool}
    (joins : Joins b b' (fs.map fun f => (f.exit, stop)) new marks) (settled : b'.SettledIn n)
    (here : new[i]? = some
      (b.plan (.blockStart shape stop) ((fs.map Fragment.entry).map .plain) nonGreedy)) :
    n.Spells low high ⟨b.states.size + i, stop⟩ fun L => (Xs.map (· L)).sum :=
  .choice (settled.added joins here ⟨nofun, fun _ => rfl⟩) (closed_spells h each joins settled)

theorem alternatives_spells (settled : (b.alternatives fs).2.SettledIn n) :
    n.Spells low high (b.alternatives fs).1 fun L => (Xs.map (· L)).sum := by
  by_cases one : fs.length = 1
  · obtain ⟨f, rfl⟩ := List.length_eq_one_iff.1 one
    obtain ⟨X, Xs, spells, none, rfl⟩ := List.forall₂_cons_left_iff.1 each
    obtain rfl := List.forall₂_nil_left_iff.1 none
    change n.Spells low high f _
    simpa only [List.map_cons, List.map_nil, List.sum_cons, List.sum_nil, add_zero] using spells
  · obtain ⟨fragment, joins⟩ := alternatives_joins one (exits_lt h)
    rw [fragment]
    exact block_spells h each joins settled (i := 1) rfl

theorem optional_spells {greedy : Bool} (settled : (b.optional greedy fs).2.SettledIn n) :
    n.Spells low high (b.optional greedy fs).1 fun L => 1 + (Xs.map (· L)).sum := by
  obtain ⟨fragment, joins⟩ := optional_joins greedy (exits_lt h)
  rw [fragment]
  have closed := closed_spells h each joins settled
  have leaves := settled.added joins (i := 1) rfl ⟨nofun, fun _ => rfl⟩
  have bypass : n.Spells low high ⟨b.states.size, b.states.size⟩ fun _ => 1 := .refl _
  cases greedy with
  | true =>
      have spells := Network.Spells.choice leaves (List.rel_append closed (.cons bypass .nil))
      simpa only [List.map_append, List.map_cons, List.map_nil, List.sum_append, List.sum_cons,
        List.sum_nil, zero_add, add_comm] using spells
  | false =>
      have spells := Network.Spells.choice leaves (.cons bypass closed)
      simpa only [List.map_cons, List.sum_cons] using spells

theorem star_spells {greedy : Bool} (settled : (b.star greedy fs).2.SettledIn n) :
    n.Spells low high (b.star greedy fs).1 fun L => ((Xs.map (· L)).sum)∗ := by
  obtain ⟨fragment, joins⟩ := star_joins greedy (exits_lt h)
  rw [fragment]
  have block := block_spells h each joins settled (i := 1) rfl
  have ends := settled.added joins (i := 0) rfl (settled_plan nofun)
  have loops := settled.added joins (i := 2) rfl (settled_plan nofun)
  have decides := settled.added joins (i := 3) rfl ⟨nofun, fun _ => rfl⟩
  exact block.star ends loops decides fun _ => mem_branches

theorem plus_spells {greedy : Bool} (settled : (b.plus greedy fs).2.SettledIn n) :
    n.Spells low high (b.plus greedy fs).1
      fun L => (Xs.map (· L)).sum * ((Xs.map (· L)).sum)∗ := by
  obtain ⟨fragment, joins⟩ := plus_joins greedy (exits_lt h)
  rw [fragment]
  have block := block_spells h each joins settled (i := 1) rfl
  have ends := settled.added joins (i := 0) rfl (settled_plan nofun)
  have decides := settled.added joins (i := 2) rfl ⟨nofun, fun _ => rfl⟩
  exact block.plus ends decides fun _ => mem_branches

end Blocks

/-! ### Rows -/

/-- Fragments that are joined in a row. -/
theorem chain_spells {entry exit : Nat} {X : (Nat → Language Symbol) → Language Symbol}
    (first : n.Spells low high ⟨entry, exit⟩ X)
    (links : ∀ l ∈ chainLinks exit fs, n.LeavesBy l.1 [.plain l.2])
    (each : List.Forall₂ (n.Spells low high) fs Xs) :
    n.Spells low high ⟨entry, (exit :: fs.map Fragment.exit).getLast (by simp)⟩
      fun L => X L * (Xs.map (· L)).prod := by
  induction each generalizing exit X with
  | nil =>
      simp only [List.map_nil, List.prod_nil, mul_one]
      exact first
  | @cons f Y fs Xs second _ ih =>
      have both := first.append second (links _ (.head _))
      have all := ih both fun l mem => links l (.tail _ mem)
      simpa only [List.map_cons, List.prod_cons, mul_assoc, List.getLast_cons_cons] using all

/-- Fragments in a row are joined by plain edges, each exit to the next entry. -/
theorem sequence_links {f : Fragment} (h : Fresh b₀ b (f :: fs ++ rest))
    (settled : (b.sequence (f :: fs)).2.SettledIn n) :
    (b.sequence (f :: fs)).1 = ⟨f.entry, (f.exit :: fs.map Fragment.exit).getLast (by simp)⟩ ∧
      ∀ l ∈ chainLinks f.exit fs, n.LeavesBy l.1 [.plain l.2] := by
  have lt := exits_lt h
  obtain ⟨last, joins⟩ := chain_joins (.refl b) f.exit fs
    ⟨lt _ (.head _), fun g mem => lt g (.tail _ mem)⟩
  obtain ⟨opens, once⟩ := chainLinks_open h rfl
  refine ⟨by simp only [sequence, last], fun l mem => ?_⟩
  exact SettledIn.linked settled joins (opens l mem) (by simpa using mem) (by simpa using once)

theorem sequence_spells (h : Fresh b₀ b (fs ++ rest))
    (each : List.Forall₂ (n.Spells low high) fs Xs) (settled : (b.sequence fs).2.SettledIn n) :
    n.Spells low high (b.sequence fs).1 fun L => (Xs.map (· L)).prod := by
  cases each with
  | nil =>
      simp only [List.map_nil, List.prod_nil]
      exact empty_spells settled
  | @cons f X fs Xs first each =>
      obtain ⟨fragment, links⟩ := sequence_links h settled
      have all := chain_spells first links each
      rw [fragment]
      simpa only [List.map_cons, List.prod_cons] using all

/-- Guards spell nothing. -/
theorem guard_spells {suffixes : List (Int × Fragment)}
    (h : Fresh b₀ b (suffixes.map Prod.snd ++ rest))
    (each : List.Forall₂ (n.Spells low high) (suffixes.map Prod.snd) Xs)
    (settled : (b.guard suffixes).2.SettledIn n) :
    List.Forall₂ (n.Spells low high) (b.guard suffixes).1 Xs := by
  induction suffixes generalizing b rest Xs with
  | nil => exact each
  | cons pair others ih =>
      obtain ⟨level, suffix⟩ := pair
      obtain ⟨X, Xs, spells, others_spell, rfl⟩ := List.forall₂_cons_left_iff.1 each
      rcases checks : b.edge (.precedence 0 level) with ⟨check, b₁⟩
      rcases joins : b₁.sequence [check, suffix] with ⟨first, b₂⟩
      simp only [guard, checks, joins] at settled ⊢
      have checked := h.append (b.edge_fresh (.precedence 0 level))
      rw [checks] at checked
      have both : Fresh b₀ b₁ ([check, suffix] ++ (others.map Prod.snd ++ rest)) :=
        checked.subperm (List.perm_append_singleton check _).symm.subperm
      have joined := sequence_fresh both
      rw [joins] at joined
      have behind : Fresh b₀ b₂ (others.map Prod.snd ++ (first :: rest)) :=
        joined.subperm List.perm_middle.subperm
      have settled₂ : (b₁.sequence [check, suffix]).2.SettledIn n :=
        joins ▸ settled.before (guard_settles behind)
      have settled₁ : (b.edge (.precedence 0 level)).2.SettledIn n :=
        checks ▸ settled₂.before (sequence_settles both)
      have checking : n.Spells low high check fun _ => 1 := by
        simpa [checks] using edge_silent settled₁ fun _ => rfl
      have guarded := sequence_spells both (.cons checking (.cons spells .nil)) settled₂
      simp only [joins, List.map_cons, List.map_nil, List.prod_cons, List.prod_nil, one_mul,
        mul_one] at guarded
      exact .cons guarded (ih behind others_spell settled)

theorem leftRecursive_spells {suffixes : List (Int × Fragment)}
    {Ys : List ((Nat → Language Symbol) → Language Symbol)}
    (h : Fresh b₀ b (fs ++ (suffixes.map Prod.snd ++ rest)))
    (bases : List.Forall₂ (n.Spells low high) fs Xs)
    (operators : List.Forall₂ (n.Spells low high) (suffixes.map Prod.snd) Ys)
    (settled : (b.leftRecursive fs suffixes).2.SettledIn n) :
    n.Spells low high (b.leftRecursive fs suffixes).1
      fun L => (Xs.map (· L)).sum * ((Ys.map (· L)).sum)∗ := by
  rcases based : b.alternatives fs with ⟨primary, b₁⟩
  rcases guards : b₁.guard suffixes with ⟨guarded, b₂⟩
  rcases loops : b₂.star true guarded with ⟨loop, b₃⟩
  simp only [leftRecursive, based, guards, loops] at settled ⊢
  have fresh₁ := alternatives_fresh h
  rw [based] at fresh₁
  have pending : Fresh b₀ b₁ (suffixes.map Prod.snd ++ (primary :: rest)) :=
    fresh₁.subperm List.perm_middle.subperm
  have fresh₂ := guard_fresh pending
  rw [guards] at fresh₂
  have fresh₃ := star_fresh fresh₂ true
  rw [loops] at fresh₃
  have both : Fresh b₀ b₃ ([primary, loop] ++ rest) :=
    fresh₃.subperm (List.Perm.swap ..).subperm
  have settled₃ : (b₂.star true guarded).2.SettledIn n :=
    loops ▸ settled.before (sequence_settles both)
  have settled₂ : (b₁.guard suffixes).2.SettledIn n :=
    guards ▸ settled₃.before (star_settles fresh₂ true)
  have settled₁ : (b.alternatives fs).2.SettledIn n :=
    based ▸ settled₂.before (guard_settles pending)
  have first := alternatives_spells h bases settled₁
  have inner := guard_spells pending operators settled₂
  rw [guards] at inner
  have second := star_spells fresh₂ inner settled₃
  rw [based] at first
  rw [loops] at second
  have all := sequence_spells both (.cons first (.cons second .nil)) settled
  simpa only [List.map_cons, List.map_nil, List.prod_cons, List.prod_nil, mul_one] using all

theorem atoms_spells (b : Builder) (cs : List Char) (settled : (b.atoms cs).2.SettledIn n) :
    List.Forall₂ (n.Spells low high) (b.atoms cs).1
      (cs.map fun c => fun _ => letters (· = (c.toNat : Symbol))) := by
  induction cs generalizing b with
  | nil => exact .nil
  | cons c cs ih =>
      have first : n.Spells low high (b.edge (.atom 0 c.toNat)).1 _ := edge_reads
        (settled.before (atoms_fresh (b.edge (.atom 0 c.toNat)).2 cs).settles) rfl
      simp only [Transition.reads, beq_iff_eq, eq_comm (a := (c.toNat : Symbol))] at first
      exact .cons first (ih _ settled)

/-! ### Elements -/

/-- An element that is read by one edge. -/
theorem reading_spells {e : Element} {t : Transition} (made : b.element e = b.edge t)
    (settled : (b.element e).2.SettledIn n) (reading : t.isEpsilon = false)
    (reads : ∀ L, e.language low high L = letters fun x => t.reads x low high = true) :
    n.Spells low high (b.element e).1 fun L => e.language low high L := by
  rw [made] at settled ⊢
  simpa only [reads] using edge_reads settled reading

theorem literal_spells {text : String} (settled : (b.element (.literal text)).2.SettledIn n) :
    n.Spells low high (b.element (.literal text)).1
      fun L => (Element.literal text).language low high L := by
  rw [element] at settled ⊢
  have fresh := (b.atoms_fresh text.toList).only
  have parts : List.Forall₂ (n.Spells low high) _ _ :=
    b.atoms_spells text.toList (settled.before (sequence_settles fresh))
  simpa only [Element.language, ← prod_letters, List.map_map, Function.comp_def]
    using sequence_spells fresh parts settled

/-- Where the elements are built, their fragments spell them. -/
def SpellsEach (b : Builder) (n : Network) (low high : Symbol) (es : List Element) : Prop :=
  (b.elements es).2.SettledIn n → List.Forall₂ (n.Spells low high) (b.elements es).1
    (es.map fun e L => e.language low high L)

namespace SpellsEach

variable {es : List Element} (parts : b.SpellsEach n low high es)

include parts

theorem sequence (settled : (b.element (.sequence es)).2.SettledIn n) :
    n.Spells low high (b.element (.sequence es)).1
      fun L => (Element.sequence es).language low high L := by
  rw [element] at settled ⊢
  have fresh := (b.elements_fresh es).only
  have parts := parts (settled.before (sequence_settles fresh))
  simpa only [Element.language_sequence, List.map_map, Function.comp_def]
    using sequence_spells fresh parts settled

theorem alternatives (settled : (b.element (.alternatives es)).2.SettledIn n) :
    n.Spells low high (b.element (.alternatives es)).1
      fun L => (Element.alternatives es).language low high L := by
  rw [element] at settled ⊢
  have fresh := (b.elements_fresh es).only
  have parts := parts (settled.before (alternatives_settles fresh))
  simpa only [Element.language_alternatives, List.map_map, Function.comp_def]
    using alternatives_spells fresh parts settled

theorem optional {greedy : Bool} (settled : (b.element (.optional greedy es)).2.SettledIn n) :
    n.Spells low high (b.element (.optional greedy es)).1
      fun L => (Element.optional greedy es).language low high L := by
  rw [element] at settled ⊢
  have fresh := (b.elements_fresh es).only
  have parts := parts (settled.before (optional_settles fresh greedy))
  simpa only [Element.language_optional, List.map_map, Function.comp_def]
    using optional_spells fresh parts settled

theorem star {greedy : Bool} (settled : (b.element (.star greedy es)).2.SettledIn n) :
    n.Spells low high (b.element (.star greedy es)).1
      fun L => (Element.star greedy es).language low high L := by
  rw [element] at settled ⊢
  have fresh := (b.elements_fresh es).only
  have parts := parts (settled.before (star_settles fresh greedy))
  simpa only [Element.language_star, List.map_map, Function.comp_def]
    using star_spells fresh parts settled

theorem plus {greedy : Bool} (settled : (b.element (.plus greedy es)).2.SettledIn n) :
    n.Spells low high (b.element (.plus greedy es)).1
      fun L => (Element.plus greedy es).language low high L := by
  rw [element] at settled ⊢
  have fresh := (b.elements_fresh es).only
  have parts := parts (settled.before (plus_settles fresh greedy))
  simpa only [Element.language_plus, List.map_map, Function.comp_def]
    using plus_spells fresh parts settled

/-- Primaries and suffixes are built one after the other. -/
theorem leftRecursive {suffixes : List Element} {levels : List Int}
    (operators : (b.elements es).2.SpellsEach n low high suffixes)
    (enough : levels.length = suffixes.length)
    (settled : (b.element (.leftRecursive es levels suffixes)).2.SettledIn n) :
    n.Spells low high (b.element (.leftRecursive es levels suffixes)).1
      fun L => (Element.leftRecursive es levels suffixes).language low high L := by
  rw [element] at settled ⊢
  have based := b.elements_fresh es
  have built := elements_fresh (b.elements es).2 suffixes
  have zipped : (levels.zip ((b.elements es).2.elements suffixes).1).map Prod.snd
      = ((b.elements es).2.elements suffixes).1 :=
    List.map_snd_zip (by rw [length_elements]; exact enough.ge)
  have fresh : Fresh b ((b.elements es).2.elements suffixes).2 ((b.elements es).1
      ++ ((levels.zip ((b.elements es).2.elements suffixes).1).map Prod.snd ++ [])) := by
    rw [zipped, List.append_nil]
    exact based.append built
  have settled₂ := settled.before (leftRecursive_settles fresh)
  have bases := parts (settled₂.before built.settles)
  have operators := operators settled₂
  rw [← zipped] at operators
  simpa only [Element.language_leftRecursive, List.map_map, Function.comp_def]
    using leftRecursive_spells fresh bases operators settled

end SpellsEach

mutual

/-- The fragment of an element spells the language of the element. -/
theorem element_spells (silent : n.StopsSilent) (known : n.WellFormed) (b : Builder) (e : Element)
    (formed : e.Formed b.ruleStarts.size) (same : n.ruleStarts = b.ruleStarts)
    (settled : (b.element e).2.SettledIn n) :
    n.Spells low high (b.element e).1 fun L => e.language low high L := by
  cases e with
  | token type =>
      refine reading_spells (by rw [element]) settled rfl fun L => ?_
      simp only [Element.language, Transition.reads, beq_iff_eq, eq_comm (a := type)]
  | range least last =>
      refine reading_spells (by rw [element]) settled rfl fun L => ?_
      simp only [Element.language, Transition.reads, Bool.and_eq_true, decide_eq_true_eq]
  | set labels =>
      refine reading_spells (by rw [element]) settled rfl fun L => ?_
      simp only [Element.language, Transition.reads]
  | notSet labels =>
      refine reading_spells (by rw [element]) settled rfl fun L => ?_
      simp only [Element.language, Transition.reads, Bool.and_eq_true, decide_eq_true_eq,
        Bool.not_eq_true']
  | wildcard =>
      refine reading_spells (by rw [element]) settled rfl fun L => ?_
      simp only [Element.language, Transition.reads, Bool.and_eq_true, decide_eq_true_eq]
  | literal text => exact literal_spells settled
  | empty =>
      rw [element] at settled ⊢
      exact empty_spells settled
  | ref rule precedence =>
      rw [element] at settled ⊢
      rw [Element.Formed] at formed
      exact ref_spells settled silent known (Array.getElem?_eq_getElem formed) same
  | predicate | precedence | action =>
      rw [element] at settled ⊢
      exact edge_silent settled fun _ => rfl
  | command a =>
      rw [element] at settled ⊢
      exact command_spells settled
  | sequence es =>
      rw [Element.Formed] at formed
      exact SpellsEach.sequence (elements_spells silent known b es formed same) settled
  | alternatives es =>
      rw [Element.Formed] at formed
      exact SpellsEach.alternatives (elements_spells silent known b es formed same) settled
  | optional greedy es =>
      rw [Element.Formed] at formed
      exact SpellsEach.optional (elements_spells silent known b es formed same) settled
  | star greedy es =>
      rw [Element.Formed] at formed
      exact SpellsEach.star (elements_spells silent known b es formed same) settled
  | plus greedy es =>
      rw [Element.Formed] at formed
      exact SpellsEach.plus (elements_spells silent known b es formed same) settled
  | leftRecursive primaries levels suffixes =>
      rw [Element.Formed] at formed
      have kept := (b.elements_fresh primaries).ruleStarts
      refine SpellsEach.leftRecursive (elements_spells silent known b primaries formed.1 same) ?_
        formed.2.2 settled
      exact elements_spells silent known _ suffixes (kept ▸ formed.2.1) (same.trans kept.symm)

/-- The fragments of elements spell the languages of the elements. -/
theorem elements_spells (silent : n.StopsSilent) (known : n.WellFormed) (b : Builder)
    (es : List Element) (formed : ∀ e ∈ es, e.Formed b.ruleStarts.size)
    (same : n.ruleStarts = b.ruleStarts) : b.SpellsEach n low high es := by
  intro settled
  cases es with
  | nil =>
      rw [elements]
      exact .nil
  | cons e rest =>
      rw [elements] at settled ⊢
      have built := b.element_fresh e
      have first := element_spells silent known b e (formed e (.head _)) same
        (settled.before (elements_fresh _ rest).settles)
      refine .cons first (elements_spells silent known (b.element e).2 rest (fun e' mem => ?_)
        (same.trans built.ruleStarts.symm) settled)
      rw [built.ruleStarts]
      exact formed e' (.tail _ mem)

end

end Builder

end AdaptiveLL
