import AdaptiveLL.Proofs.Json.Record
/-!
The written form of blueprints can be read. Each part of a blueprint whose numbers have the size
that is stored is kept: its form is exact, and read back it is the part.
-/
namespace AdaptiveLL

open Json (Value listUnlessEmpty)
open Json.Value

namespace IntervalSet

def Fits (s : IntervalSet) : Prop :=
  ∀ i ∈ s.intervals, IsSymbol i.start ∧ IsSymbol i.stop

instance (s : IntervalSet) : Decidable s.Fits :=
  inferInstanceAs (Decidable (∀ i ∈ s.intervals, IsSymbol i.start ∧ IsSymbol i.stop))

theorem keeps {s : IntervalSet} (fits : s.Fits) : Keeps toJson ofJson? s := by
  have interval : ∀ i ∈ s.intervals,
      Keeps (fun i : Interval => .list [.int i.start, .int i.stop]) readInterval? i := by
    intro i mem
    obtain ⟨start, stop⟩ := fits i mem
    refine ⟨?_, ?_⟩
    · simpa only [IsExact, AreExact, and_true] using
        ⟨(keeps_symbol start).exact, (keeps_symbol stop).exact⟩
    · simp [readInterval?, (keeps_symbol start).reads, (keeps_symbol stop).reads]
  have all := keeps_list interval
  exact ⟨all.exact, by rw [toJson, ofJson?, all.reads, Option.map_some]⟩

end IntervalSet

namespace Transition

def Fits : Transition → Prop
  | epsilon target outermost => IsWord target ∧ ∀ rule ∈ outermost, IsWord rule
  | atom target label => IsWord target ∧ IsSymbol label
  | range target low high => IsWord target ∧ IsSymbol low ∧ IsSymbol high
  | set target labels | notSet target labels => IsWord target ∧ labels.Fits
  | wildcard target => IsWord target
  | call target rule level follow => IsWord target ∧ IsWord rule ∧ IsSymbol level ∧ IsWord follow
  | predicate target rule index _ => IsWord target ∧ IsWord rule ∧ IsWord index
  | precedence target level => IsWord target ∧ IsSymbol level
  | action target rule index _ => IsWord target ∧ IsWord rule ∧ ∀ i ∈ index, IsWord i

instance : (t : Transition) → Decidable t.Fits
  | epsilon target outermost =>
      inferInstanceAs (Decidable (IsWord target ∧ ∀ rule ∈ outermost, IsWord rule))
  | atom target label => inferInstanceAs (Decidable (IsWord target ∧ IsSymbol label))
  | range target low high =>
      inferInstanceAs (Decidable (IsWord target ∧ IsSymbol low ∧ IsSymbol high))
  | set target labels | notSet target labels =>
      inferInstanceAs (Decidable (IsWord target ∧ labels.Fits))
  | wildcard target => inferInstanceAs (Decidable (IsWord target))
  | call target rule level follow =>
      inferInstanceAs (Decidable (IsWord target ∧ IsWord rule ∧ IsSymbol level ∧ IsWord follow))
  | predicate target rule index _ =>
      inferInstanceAs (Decidable (IsWord target ∧ IsWord rule ∧ IsWord index))
  | precedence target level => inferInstanceAs (Decidable (IsWord target ∧ IsSymbol level))
  | action target rule index _ =>
      inferInstanceAs (Decidable (IsWord target ∧ IsWord rule ∧ ∀ i ∈ index, IsWord i))

theorem keeps {t : Transition} (fits : t.Fits) : Keeps toJson ofJson? t := by
  cases t with
  | epsilon target outermost =>
      obtain ⟨target, outer⟩ := fits
      have target := keeps_word target
      cases outermost with
      | none =>
          refine keeps_tagged [_] rfl ?_ (by simp) ?_
          · simp [MembersExact, target.exact]
          · simp [ofTagged?, fields?_object, List.lookup_cons, target.reads]
      | some rule =>
          have rule := keeps_word (outer rule rfl)
          refine keeps_tagged [_, _] rfl ?_ (by simp) ?_
          · simp [MembersExact, target.exact, rule.exact]
          · simp [ofTagged?, fields?_object, List.lookup_cons, target.reads,
              rule.orNull (by simp [ofNat])]
  | atom target label =>
      have target := keeps_word fits.1
      have label := keeps_symbol fits.2
      refine keeps_tagged _ rfl ?_ (by simp) ?_
      · simp [MembersExact, target.exact, label.exact]
      · simp [ofTagged?, fields?_object, List.lookup_cons, target.reads, label.reads]
  | range target low high =>
      have target := keeps_word fits.1
      have low := keeps_symbol fits.2.1
      have high := keeps_symbol fits.2.2
      refine keeps_tagged _ rfl ?_ (by simp) ?_
      · simp [MembersExact, target.exact, low.exact, high.exact]
      · simp [ofTagged?, fields?_object, List.lookup_cons, target.reads, low.reads, high.reads]
  | set target labels | notSet target labels =>
      have target := keeps_word fits.1
      have labels := IntervalSet.keeps fits.2
      refine keeps_tagged _ rfl ?_ (by simp) ?_
      · simp [MembersExact, target.exact, labels.exact]
      · simp [ofTagged?, fields?_object, List.lookup_cons, target.reads, labels.reads]
  | wildcard target =>
      have target := keeps_word fits
      refine keeps_tagged _ rfl ?_ (by simp) ?_
      · simp [MembersExact, target.exact]
      · simp [ofTagged?, fields?_object, target.reads]
  | call target rule level follow =>
      have target := keeps_word fits.1
      have rule := keeps_word fits.2.1
      have level := keeps_symbol fits.2.2.1
      have follow := keeps_word fits.2.2.2
      refine keeps_tagged _ rfl ?_ (by simp) ?_
      · simp [MembersExact, target.exact, rule.exact, level.exact, follow.exact]
      · simp [ofTagged?, fields?_object, List.lookup_cons, target.reads, rule.reads,
          level.reads, follow.reads]
  | predicate target rule index contextual =>
      have target := keeps_word fits.1
      have rule := keeps_word fits.2.1
      have index := keeps_word fits.2.2
      refine keeps_tagged _ rfl ?_ (by simp) ?_
      · simp [MembersExact, target.exact, rule.exact, index.exact, (keeps_bool contextual).exact]
      · simp [ofTagged?, fields?_object, List.lookup_cons, target.reads, rule.reads,
          index.reads, (keeps_bool contextual).reads]
  | precedence target level =>
      have target := keeps_word fits.1
      have level := keeps_symbol fits.2
      refine keeps_tagged _ rfl ?_ (by simp) ?_
      · simp [MembersExact, target.exact, level.exact]
      · simp [ofTagged?, fields?_object, List.lookup_cons, target.reads, level.reads]
  | action target rule index contextual =>
      have target := keeps_word fits.1
      have rule := keeps_word fits.2.1
      have index := keeps_option (fun i mem => keeps_word (fits.2.2 i mem)) (by simp [ofNat])
      refine keeps_tagged _ rfl ?_ (by simp) ?_
      · simp [MembersExact, target.exact, rule.exact, index.exact, (keeps_bool contextual).exact]
      · simp [ofTagged?, fields?_object, List.lookup_cons, target.reads, rule.reads,
          index.reads, (keeps_bool contextual).reads]

end Transition

namespace LexerAction

/-- The commands of a network are not pinned. -/
def Fits : LexerAction → Prop
  | channel c => IsWord c
  | custom rule index => IsWord rule ∧ IsWord index
  | mode m | pushMode m => IsWord m
  | type t => IsSymbol t
  | pinned _ _ => False
  | more | popMode | skip => True

instance : (a : LexerAction) → Decidable a.Fits
  | channel n | mode n | pushMode n => inferInstanceAs (Decidable (IsWord n))
  | custom rule index => inferInstanceAs (Decidable (IsWord rule ∧ IsWord index))
  | type t => inferInstanceAs (Decidable (IsSymbol t))
  | pinned _ _ => inferInstanceAs (Decidable False)
  | more | popMode | skip => inferInstanceAs (Decidable True)

theorem keeps {a : LexerAction} (fits : a.Fits) : Keeps toJson ofJson? a := by
  cases a with
  | channel n | mode n | pushMode n =>
      have number := keeps_word fits
      refine keeps_tagged _ rfl ?_ (by simp) ?_
      · simp [MembersExact, number.exact]
      · simp [ofTagged?, fields?_object, number.reads]
  | custom rule index =>
      have rule := keeps_word fits.1
      have index := keeps_word fits.2
      refine keeps_tagged _ rfl ?_ (by simp) ?_
      · simp [MembersExact, rule.exact, index.exact]
      · simp [ofTagged?, fields?_object, List.lookup_cons, rule.reads, index.reads]
  | type t =>
      have type := keeps_symbol fits
      refine keeps_tagged _ rfl ?_ (by simp) ?_
      · simp [MembersExact, type.exact]
      · simp [ofTagged?, fields?_object, type.reads]
  | more | popMode | skip =>
      refine keeps_tagged _ rfl (by simp [MembersExact]) (by simp) ?_
      simp [ofTagged?, fields?_object]
  | pinned => exact fits.elim

end LexerAction

namespace StateKind

def Fits : StateKind → Prop
  | ruleStart stop _ | blockStart _ stop => IsWord stop
  | loopEnd loopBack => IsWord loopBack
  | basic | ruleStop | blockEnd | plusLoopBack | starLoopBack | starLoopEntry | tokensStart => True

instance : (k : StateKind) → Decidable k.Fits
  | ruleStart stop _ | blockStart _ stop => inferInstanceAs (Decidable (IsWord stop))
  | loopEnd loopBack => inferInstanceAs (Decidable (IsWord loopBack))
  | basic | ruleStop | blockEnd | plusLoopBack | starLoopBack | starLoopEntry | tokensStart =>
      inferInstanceAs (Decidable True)

theorem keeps {k : StateKind} (fits : k.Fits) : Keeps toJson ofJson? k := by
  cases k with
  | ruleStart stop leftRecursive =>
      have stop := keeps_word fits
      refine keeps_tagged _ rfl ?_ (by simp) ?_
      · simp [MembersExact, stop.exact, (keeps_bool leftRecursive).exact]
      · simp [ofTagged?, name, fields?_object, List.lookup_cons, stop.reads,
          (keeps_bool leftRecursive).reads]
  | blockStart shape stop =>
      have stop := keeps_word fits
      refine keeps_tagged _ rfl ?_ (by simp) ?_
      · simp [MembersExact, stop.exact]
      · cases shape <;> simp [ofTagged?, name, fields?_object, stop.reads]
  | loopEnd loopBack =>
      have loopBack := keeps_word fits
      refine keeps_tagged _ rfl ?_ (by simp) ?_
      · simp [MembersExact, loopBack.exact]
      · simp [ofTagged?, name, fields?_object, loopBack.reads]
  | basic | ruleStop | blockEnd | plusLoopBack | starLoopBack | starLoopEntry | tokensStart =>
      refine keeps_tagged _ rfl (by simp [MembersExact]) (by simp) ?_
      simp [ofTagged?, name, fields?_object]

end StateKind

namespace StatePlan

structure Fits (s : StatePlan) : Prop where
  rule : IsWord s.rule
  kind : s.kind.Fits
  transitions : ∀ t ∈ s.transitions, t.Fits

instance (s : StatePlan) : Decidable s.Fits :=
  decidable_of_iff (IsWord s.rule ∧ s.kind.Fits ∧ ∀ t ∈ s.transitions, t.Fits)
    ⟨fun ⟨rule, kind, ts⟩ => ⟨rule, kind, ts⟩, fun h => ⟨h.rule, h.kind, h.transitions⟩⟩

theorem keeps {s : StatePlan} (fits : s.Fits) : Keeps toJson ofJson? s := by
  have rule := keeps_word fits.rule
  have kind := StateKind.keeps fits.kind
  have transitions := keeps_list fun t mem => Transition.keeps (fits.transitions t mem)
  refine ⟨?_, ?_⟩
  · have behind := membersExact_listUnlessEmpty "transitions" transitions
    cases greedy : s.nonGreedy <;>
      simp [toJson, greedy, isExact_object, MembersExact, rule.exact, kind.exact, behind,
        (keeps_bool _).exact]
  · have read := orElse?_listUnlessEmpty "transitions" transitions
    have ordered : (((if s.nonGreedy then [("non_greedy", Value.bool true)] else [])).map
        Prod.fst).Sublist ["non_greedy"] := by
      cases s.nonGreedy <;> simp
    rw [toJson, ofJson?, fields?_ordered _ (by decide)]
    · obtain ⟨number, k, greedy, ts⟩ := s
      cases greedy <;> simp [List.lookup_cons, rule.reads, kind.reads, (keeps_bool _).reads, read]
    · rw [List.map_append, List.map_append]
      exact .append (.append (.refl _) ordered) (keys_listUnlessEmpty _ _)

end StatePlan

namespace RulePlan

structure Fits (r : RulePlan) : Prop where
  start : IsWord r.start
  tokenType : ∀ t ∈ r.tokenType, IsSymbol t

instance (r : RulePlan) : Decidable r.Fits :=
  decidable_of_iff (IsWord r.start ∧ ∀ t ∈ r.tokenType, IsSymbol t)
    ⟨fun ⟨start, type⟩ => ⟨start, type⟩, fun h => ⟨h.start, h.tokenType⟩⟩

theorem keeps {r : RulePlan} (fits : r.Fits) : Keeps toJson ofJson? r := by
  have start := keeps_word fits.start
  obtain ⟨number, tokenType⟩ := r
  cases tokenType with
  | none =>
      refine ⟨by simp [toJson, isExact_object, MembersExact, start.exact], ?_⟩
      simp [toJson, ofJson?, fields?_object, List.lookup_cons, start.reads]
  | some t =>
      have type := keeps_symbol (fits.tokenType t rfl)
      refine ⟨by simp [toJson, isExact_object, MembersExact, start.exact, type.exact], ?_⟩
      simp [toJson, ofJson?, fields?_object, List.lookup_cons, start.reads, type.orNull (by simp)]

end RulePlan

namespace Blueprint

structure Fits (b : Blueprint) : Prop where
  maxToken : IsSymbol b.maxToken
  states : ∀ s ∈ b.states, s.Fits
  rules : ∀ r ∈ b.rules, r.Fits
  modes : ∀ start ∈ b.modes, IsWord start
  decisions : ∀ state ∈ b.decisions, IsWord state
  actions : ∀ a ∈ b.actions, a.Fits

instance (b : Blueprint) : Decidable b.Fits :=
  decidable_of_iff (IsSymbol b.maxToken ∧ (∀ s ∈ b.states, s.Fits) ∧ (∀ r ∈ b.rules, r.Fits) ∧
      (∀ start ∈ b.modes, IsWord start) ∧ (∀ state ∈ b.decisions, IsWord state) ∧
      ∀ a ∈ b.actions, a.Fits)
    ⟨fun ⟨maxToken, states, rules, modes, decisions, actions⟩ =>
        ⟨maxToken, states, rules, modes, decisions, actions⟩,
      fun h => ⟨h.maxToken, h.states, h.rules, h.modes, h.decisions, h.actions⟩⟩

theorem keeps {b : Blueprint} (fits : b.Fits) : Keeps toJson ofJson? b := by
  have maxToken := keeps_symbol fits.maxToken
  have states := keeps_list fun s mem => StatePlan.keeps (fits.states s mem)
  have rules := keeps_list fun r mem => RulePlan.keeps (fits.rules r mem)
  have modes := keeps_list fun start mem => keeps_word (fits.modes start mem)
  have decisions := keeps_list fun state mem => keeps_word (fits.decisions state mem)
  have actions := keeps_list fun a mem => LexerAction.keeps (fits.actions a mem)
  refine ⟨?_, ?_⟩
  · simp [toJson, isExact_object, MembersExact, maxToken.exact, states.exact, rules.exact,
      decisions.exact, membersExact_listUnlessEmpty "modes" modes,
      membersExact_listUnlessEmpty "lexer_actions" actions]
  · rw [toJson, ofJson?, fields?_ordered _ (by decide)]
    · simp [List.lookup_cons, List.lookup_append, maxToken.reads, states.reads, rules.reads,
        decisions.reads, orElse?_listUnlessEmpty "modes" modes,
        orElse?_listUnlessEmpty "lexer_actions" actions]
    · rw [List.map_append, List.map_append, List.map_append]
      exact .append (.append (.append (.refl _) (keys_listUnlessEmpty _ _)) (.refl _))
        (keys_listUnlessEmpty _ _)

end Blueprint

end AdaptiveLL
