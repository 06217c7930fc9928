import AdaptiveLL.Proofs.Network.Solution
/-!
Delimited texts: a rule with one text, then a non-greedy loop of wildcards, then another text, as
for comments. Its states form two rows, which read the texts, and a ring between them, which reads
the wildcards and prefers to be left.
-/
namespace AdaptiveLL

/-- The symbols that a text is read as. -/
def Symbol.ofText (text : String) : List Symbol :=
  text.toList.map fun c => (c.toNat : Symbol)

theorem Symbol.ofText_ne_nil {text : String} (some : text ≠ "") : Symbol.ofText text ≠ [] := by
  simpa [Symbol.ofText] using some

/-- A text, then as little as possible of anything, then another text. -/
def Element.delimited (opening closing : String) : Element :=
  .sequence [.literal opening, .star false [.wildcard], .literal closing]

namespace Network

variable {n : Network} {q q' stop : Nat} {ts ts' : List Transition} {w : List Symbol} {x : Symbol}

theorem LeavesBy.unique (h : n.LeavesBy q ts) (h' : n.LeavesBy q ts') : ts = ts' := by
  obtain ⟨s, here, -, rfl⟩ := h
  obtain ⟨s', here', -, rfl⟩ := h'
  rw [Option.some.inj (here.symm.trans here')]

/-- From a state on, the characters are read one after the other, and `stop` is behind the last
one. -/
inductive Row (n : Network) (stop : Nat) : Nat → List Symbol → Prop where
  | nil : Row n stop stop []
  | cons {q p q' : Nat} {x : Symbol} {w : List Symbol} (reads : n.LeavesBy q [.atom p x])
      (char : 0 ≤ x) (goes : n.LeavesBy p [.plain q']) (rest : Row n stop q' w) :
      Row n stop q (x :: w)

/-- The rule begins with the row of the opening text. Then the loop is decided on: it is left for
the row of the closing text, which ends at the stop of the rule, or gone through once more. -/
structure Delimited (n : Network) (rule : Nat) (opening closing : List Symbol) where
  nonempty : opening ≠ [] ∧ closing ≠ []
  first : Nat
  loop : Nat
  leave : Nat
  again : Nat
  any : Nat
  behind : Nat
  blockEnd : Nat
  back : Nat
  last : Nat
  begins : n.LeavesBy (2 * rule + 1) [.plain first]
  opens : n.Row loop first opening
  decides : n.LeavesBy loop [.plain leave, .plain again]
  nonGreedy : ∃ s, n.states[loop]? = some s ∧ s.isDecision = true ∧ s.nonGreedy = true
  repeats : n.LeavesBy again [.plain any]
  reads : n.LeavesBy any [.wildcard behind]
  ends : n.LeavesBy behind [.plain blockEnd]
  returns : n.LeavesBy blockEnd [.plain back]
  loops : n.LeavesBy back [.plain loop]
  leaves : n.LeavesBy leave [.plain last]
  closes : n.Row (2 * rule) last closing
  stops : ∃ s, n.states[2 * rule]? = some s ∧ s.isRuleStop = true ∧ s.rule = rule ∧
    ∀ t ∈ s.transitions, t.isEpsilon = true

end Network

namespace Builder

variable {b b₀ : Builder} {n : Network} {stop : Nat} {text : String} {rest : List Fragment}

theorem atoms_leaves (cs : List Char) (settled : (b.atoms cs).2.SettledIn n) :
    List.Forall₂ (fun f x => n.LeavesBy f.entry [.atom f.exit x] ∧ 0 ≤ x) (b.atoms cs).1
      (cs.map fun c => (c.toNat : Symbol)) := by
  induction cs generalizing b with
  | nil => exact .nil
  | cons c cs ih =>
      obtain ⟨fragment, joins⟩ := b.edge_joins (.atom 0 c.toNat)
      have first : n.LeavesBy (b.edge (.atom 0 c.toNat)).1.entry
          [.atom (b.edge (.atom 0 c.toNat)).1.exit c.toNat] := by
        rw [fragment]
        exact leaves_of_joins joins (settled.before (atoms_fresh _ cs).settles)
      exact .cons ⟨first, Int.natCast_nonneg _⟩ (ih settled)

/-- Fragments of one edge in a row. -/
theorem row_of_links {f : Fragment} {fs : List Fragment} {w : List Symbol}
    (each : List.Forall₂ (fun f x => n.LeavesBy f.entry [.atom f.exit x] ∧ 0 ≤ x) (f :: fs) w)
    (links : ∀ l ∈ chainLinks f.exit fs, n.LeavesBy l.1 [.plain l.2])
    (behind : n.LeavesBy ((f.exit :: fs.map Fragment.exit).getLast (by simp)) [.plain stop]) :
    n.Row stop f.entry w := by
  induction fs generalizing f w with
  | nil =>
      obtain ⟨x, w, first, none, rfl⟩ := List.forall₂_cons_left_iff.1 each
      obtain rfl := List.forall₂_nil_left_iff.1 none
      exact .cons first.1 first.2 behind .nil
  | cons g fs ih =>
      obtain ⟨x, w, first, others, rfl⟩ := List.forall₂_cons_left_iff.1 each
      refine .cons first.1 first.2 (links _ (.head _))
        (ih others (fun l mem => links l (.tail _ mem)) ?_)
      simpa using behind

/-- A text is a row of its symbols. -/
theorem literal_row (some : text ≠ "") (settled : (b.element (.literal text)).2.SettledIn n)
    (behind : n.LeavesBy (b.element (.literal text)).1.exit [.plain stop]) :
    n.Row stop (b.element (.literal text)).1.entry (Symbol.ofText text) := by
  rw [element] at settled behind ⊢
  have fresh := (b.atoms_fresh text.toList).only
  have leaves := atoms_leaves text.toList (settled.before (sequence_settles fresh))
  rcases made : b.atoms text.toList with ⟨fs, b'⟩
  rw [made] at fresh leaves
  simp only [made] at settled behind ⊢
  cases fs with
  | nil =>
      exact absurd (List.forall₂_nil_left_iff.1 leaves) (Symbol.ofText_ne_nil some)
  | cons f fs =>
      obtain ⟨fragment, links⟩ := sequence_links fresh settled
      rw [fragment] at behind ⊢
      exact row_of_links (f := f) leaves links behind

/-- The ring of a non-greedy loop of wildcards. -/
structure Wildcards (b b' : Builder) (n : Network) (f : Fragment) : Prop where
  fragment : f = ⟨b.states.size + 5, b.states.size + 6⟩
  planned : b'.states[b.states.size + 5]? = some (b.plan .starLoopEntry
    [.plain (b.states.size + 6), .plain (b.states.size + 3)] true)
  repeats : n.LeavesBy (b.states.size + 3) [.plain b.states.size]
  reads : n.LeavesBy b.states.size [.wildcard (b.states.size + 1)]
  ends : n.LeavesBy (b.states.size + 1) [.plain (b.states.size + 2)]
  returns : n.LeavesBy (b.states.size + 2) [.plain (b.states.size + 4)]
  loops : n.LeavesBy (b.states.size + 4) [.plain (b.states.size + 5)]

theorem wildcards (settled : (b.element (.star false [.wildcard])).2.SettledIn n) :
    Wildcards b (b.element (.star false [.wildcard])).2 n
      (b.element (.star false [.wildcard])).1 := by
  simp only [element, elements] at settled ⊢
  obtain ⟨body, edge⟩ := b.edge_joins (.wildcard 0)
  have size : (b.edge (.wildcard 0)).2.states.size = b.states.size + 2 := edge.size
  have rule : (b.edge (.wildcard 0)).2.currentRule = b.currentRule := edge.currentRule
  have fresh := (b.edge_fresh (.wildcard 0)).only
  obtain ⟨fragment, star⟩ := star_joins false (exits_lt fresh)
  have reads := leaves_of_joins edge (settled.before (star_settles fresh false))
  have blockEnd := settled.added star (i := 0) rfl (settled_plan nofun)
  have blockStart := settled.added star (i := 1) rfl ⟨nofun, fun _ => rfl⟩
  have loopBack := settled.added star (i := 2) rfl (settled_plan nofun)
  have entry := star.new 3
  have link := settled.linked star (fresh.exits _ (.head _)).2 (.head _) (by simp)
  simp only [body, size, plan, rule, branches] at *
  exact ⟨fragment, entry, blockStart, reads, link, blockEnd, loopBack⟩

/-- The texts and the loop between them are built one after the other, and then put in a row. -/
theorem delimited_parts (b : Builder) (opening closing : String) : ∃ f₁ f₂ f₃ b₁ b₂ b₃,
    b.element (.literal opening) = (f₁, b₁) ∧ b₁.element (.star false [.wildcard]) = (f₂, b₂) ∧
    b₂.element (.literal closing) = (f₃, b₃) ∧
    b₁.Settles b₂ ∧ b₂.Settles b₃ ∧ b₃.Settles (b.element (.delimited opening closing)).2 ∧
    ∀ n, (b.element (.delimited opening closing)).2.SettledIn n →
      (b.element (.delimited opening closing)).1 = ⟨f₁.entry, f₃.exit⟩ ∧
      n.LeavesBy f₁.exit [.plain f₂.entry] ∧ n.LeavesBy f₂.exit [.plain f₃.entry] := by
  rcases opens : b.element (.literal opening) with ⟨f₁, b₁⟩
  rcases loops : b₁.element (.star false [.wildcard]) with ⟨f₂, b₂⟩
  rcases closes : b₂.element (.literal closing) with ⟨f₃, b₃⟩
  have made : b.elements [.literal opening, .star false [.wildcard], .literal closing] =
      ([f₁, f₂, f₃], b₃) := by
    simp only [elements, opens, loops, closes]
  have whole : b.element (.delimited opening closing) = b₃.sequence [f₁, f₂, f₃] := by
    rw [Element.delimited, element, made]
  have fresh : Fresh b b₃ [f₁, f₂, f₃] := by
    have fresh := b.elements_fresh [.literal opening, .star false [.wildcard], .literal closing]
    rwa [made] at fresh
  have settles₂ : b₁.Settles b₂ := by
    simpa only [loops] using (b₁.element_fresh (.star false [.wildcard])).settles
  have settles₃ : b₂.Settles b₃ := by
    simpa only [closes] using (b₂.element_fresh (.literal closing)).settles
  rw [whole]
  refine ⟨f₁, f₂, f₃, b₁, b₂, b₃, rfl, loops, closes, settles₂, settles₃,
    sequence_settles fresh.only, fun n settled => ?_⟩
  obtain ⟨fragment, links⟩ := sequence_links fresh.only settled
  exact ⟨fragment, links _ (.head _), links _ (.tail _ (.head _))⟩

end Builder

namespace RuleSet.Complete

variable {g : RuleSet} {n : Network} {rule : Nat} {opening closing : String}
  (h : g.Complete) (built : g.build = .ok n)
include h built

/-- The states are of the kinds for which they were built, and as greedy. -/
theorem kind_of_planned {q : Nat} {p : StatePlan} (planned : g.builder.states[q]? = some p) :
    ∃ s, n.states[q]? = some s ∧ s.kind = p.kind ∧ s.nonGreedy = p.nonGreedy := by
  obtain ⟨-, holds, -⟩ := holds_of_build built
  obtain ⟨-, -, size, state⟩ := h.state_of_build built
  have lt : q < n.states.size := size ▸ (Array.getElem?_eq_some_iff.1 planned).1
  have here := Array.getElem?_eq_getElem lt
  obtain ⟨p', planned', kind, -⟩ := state q _ here
  obtain rfl := Option.some.inj (planned.symm.trans planned')
  exact ⟨_, here, kind, holds.nonGreedy here ((getElem?_blueprint _ q).trans planned)⟩

/-- The stop of a rule is only left without reading. -/
theorem exists_stop (lt : rule < g.rules.length) :
    ∃ s, n.states[2 * rule]? = some s ∧ s.isRuleStop = true ∧ s.rule = rule ∧
      ∀ t ∈ s.transitions, t.isEpsilon = true := by
  obtain ⟨-, stops, -, state⟩ := h.state_of_build built
  obtain ⟨s, here, isStop, same⟩ := (holds_of_build built).1.stop_rule (stops rule lt)
  obtain ⟨p, -, kind, -, silent⟩ := state _ s here
  exact ⟨s, here, isStop, same, silent (kind ▸ beq_iff_eq.1 isStop)⟩

/-- The entry of a mode leads to the starts of its rules. -/
theorem exists_entry {mode : Nat} {rules : List Nat} (here : g.modes[mode]? = some rules)
    (known : ∀ rule ∈ rules, rule < g.rules.length) : ∃ start, n.modes[mode]? = some start ∧
      n.LeavesBy start (rules.map fun rule => .plain (2 * rule + 1)) := by
  obtain ⟨start, mode, p, planned, kind, leads⟩ := g.exists_mode here
  refine ⟨start, by simpa [(holds_of_build built).2.1.modes, Builder.blueprint] using mode, ?_⟩
  have leaves := h.settledIn built start p planned ⟨by simp [kind], fun _ => by rw [kind]; rfl⟩
  have starts : rules.filterMap (g.builder.ruleStarts[·]?) = rules.map (2 * · + 1) := by
    rw [← List.filterMap_eq_map']
    refine List.filterMap_congr fun rule mem => ?_
    exact (h.declared (List.getElem?_eq_getElem (known rule mem))).1
  rw [leads, starts, List.map_map] at leaves
  exact leaves

/-- The network has the two rows and the ring of a rule for delimited texts. -/
theorem exists_delimited (some : opening ≠ "" ∧ closing ≠ "")
    (mem : (rule, .delimited opening closing) ∈ g.definitions) :
    Nonempty (n.Delimited rule (Symbol.ofText opening) (Symbol.ofText closing)) := by
  have settledIn := h.settledIn built
  obtain ⟨b, -, settles, begins, stops⟩ := h.exists_fragment built mem
  obtain ⟨f₁, f₂, f₃, b₁, b₂, b₃, opens, loops, closes, settles₂, settles₃, settles₄, linked⟩ :=
    b.delimited_parts opening closing
  obtain ⟨fragment, enters, leaves⟩ := linked n (settledIn.before settles)
  rw [fragment] at begins stops
  have later₃ : b₃.Settles g.builder := settles₄.trans settles
  have later₂ : b₂.Settles g.builder := settles₃.trans later₃
  have later₁ : b₁.Settles g.builder := settles₂.trans later₂
  have row₁ := Builder.literal_row (b := b) some.1 (by rw [opens]; exact settledIn.before later₁)
    (by rw [opens]; exact enters)
  have row₃ := Builder.literal_row (b := b₂) some.2
    (by rw [closes]; exact settledIn.before later₃) (by rw [closes]; exact stops)
  have ring := Builder.wildcards (b := b₁) (by rw [loops]; exact settledIn.before later₂)
  rw [opens] at row₁
  rw [closes] at row₃
  rw [loops] at ring
  obtain ⟨rfl, planned, repeats, reads, ends, returns, back⟩ := ring
  have entry := later₂ _ _ planned ⟨nofun, nofun⟩
  obtain ⟨s, here, kind, nonGreedy⟩ := h.kind_of_planned built entry
  exact ⟨{
    nonempty := ⟨Symbol.ofText_ne_nil some.1, Symbol.ofText_ne_nil some.2⟩
    first := f₁.entry
    loop := b₁.states.size + 5
    leave := b₁.states.size + 6
    again := b₁.states.size + 3
    any := b₁.states.size
    behind := b₁.states.size + 1
    blockEnd := b₁.states.size + 2
    back := b₁.states.size + 4
    last := f₃.entry
    begins, repeats, reads, ends, returns, leaves
    opens := row₁
    decides := settledIn _ _ entry ⟨nofun, nofun⟩
    nonGreedy := ⟨s, here, by simp [State.isDecision, kind, StateKind.isDecision, Builder.plan],
      nonGreedy⟩
    loops := back
    closes := row₃
    stops := h.exists_stop built (h.lt_of_mem mem) }⟩

end RuleSet.Complete

end AdaptiveLL
