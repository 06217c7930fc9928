import AdaptiveLL.Proofs.Stream.Prefetch
/-!
What is still to come from a token stream: the tokens of its channel from the cursor up to the
end of the input, no matter how many of them have been pulled.
-/
namespace AdaptiveLL

/-- The tokens with their places. -/
def Token.placed (tokens : Array Token) : List Token :=
  tokens.toList.mapIdx fun i t => { t with index := some i }

/-- The type of the next one of the tokens, or of the end of the input. -/
def Token.nextType (ts : List Token) : Symbol :=
  (ts.head?.map Token.type).getD Symbol.eof

namespace TokenStream

variable {σ : Type} [TokenSource σ] {s s' s'' : TokenStream σ} {passed ts : List Token} {t : Token}

/-- Of two streams that come of pulling from one, one is ahead of the other. -/
theorem Ahead.total (h : Ahead s s') (h' : Ahead s s'') : Ahead s' s'' ∨ Ahead s'' s' := by
  induction h with
  | refl => exact .inl h'
  | pull more rest ih =>
      cases h' with
      | refl => exact .inr (.pull more rest)
      | pull _ rest' => exact ih rest'

/-- The tokens of the channel that are still to come. -/
def Upcoming (s : TokenStream σ) (ts : List Token) : Prop :=
  ∃ last, Ahead s last ∧ last.ended = true ∧ last.between s.index (last.tokens.size - 1) = ts

namespace Upcoming

/-- What is passed was to come. -/
theorem passes (h : s.Upcoming ts) (sound : s.Sound) (passes : s.Passes s' passed) :
    ∃ rest, ts = passed ++ rest ∧ s'.Upcoming rest := by
  obtain ⟨last, ahead, ended, rfl⟩ := h
  have reaches : Ahead { s' with position := s.position, marks := s.marks } last := by
    rcases ahead.total passes.ahead with beyond | before
    · rw [beyond.eq_of_ended ended]
      exact .refl last
    · exact before
  have reaches := reaches.moved s'.position s'.marks
  have sound' := passes.sound sound
  have inside : s'.index ≤ last.tokens.size - 1 := by
    rw [TokenStream.index]
    cases here : s'.position with
    | none => exact Nat.zero_le _
    | some i =>
        have lt := sound'.inside here
        have le := reaches.pulled.size_le
        exact Nat.le_sub_one_of_lt (Nat.lt_of_lt_of_le lt le)
  obtain ⟨le, between⟩ := passes.moves sound
  refine ⟨last.between s'.index (last.tokens.size - 1), ?_, _, reaches, ended, rfl⟩
  have same := reaches.pulled.toLeads.between (i := s.index) sound'.index_le
  rw [← between_append last le inside, ← between]
  exact congrArg (· ++ _) same

/-- The token under the cursor is the next one to come, or the end of the input. -/
theorem current (h : s.Upcoming ts) (sound : s.Sound)
    (get : s.start.tokens[s.start.index]? = some t) :
    if t.isEof then ts = [] else ∃ rest, ts = t :: rest := by
  obtain ⟨_, rfl, last, ahead, ended, rfl⟩ := h.passes sound (start_passes s)
  have sound' := (start_passes s).sound sound
  have placed := ahead.pulled.placed sound'.toPlaced
  have here := ahead.pulled.get get
  have inside := (Array.getElem?_eq_some_iff.1 here).1
  split
  case isTrue eof =>
      have at_end := (placed.last here eof).2
      rw [show last.tokens.size - 1 = s.start.index by omega, between_self]
  case isFalse more =>
      have more : t.isEof = false := Bool.eq_false_iff.2 more
      obtain ⟨u, at_end, eof⟩ := placed.ended ended
      have other : s.start.index ≠ last.tokens.size - 1 := by
        intro same
        rw [← same, here] at at_end
        obtain rfl := Option.some.inj at_end
        cases more.symm.trans eof
      obtain ⟨v, get', accepted⟩ := sound'.stands (start_position s)
      obtain rfl : t = v := Option.some.inj (get.symm.trans get')
      rw [← ahead.pulled.accepts] at accepted
      refine ⟨last.between (s.start.index + 1) (last.tokens.size - 1), ?_⟩
      rw [← between_append last (Nat.le_succ s.start.index) (by omega),
        between_one here accepted more]
      rfl

theorem lookahead_one (h : s.Upcoming ts) (sound : s.Sound) :
    s.lookahead 1 = (Token.nextType ts, s.start) := by
  obtain ⟨t, get⟩ := sound.toPlaced.current
  have current := h.current sound get
  rw [TokenStream.lookahead_one get]
  split at current
  case isTrue eof =>
      rw [current, beq_iff_eq.1 eof]
      rfl
  case isFalse =>
      obtain ⟨rest, rfl⟩ := current
      rfl

/-- No token to come has the type of the end of the input. -/
theorem nextType_eq_eof (h : s.Upcoming ts) (sound : s.Sound) (eof : Token.nextType ts = Symbol.eof) :
    ts = [] := by
  obtain ⟨t, get⟩ := sound.toPlaced.current
  have current := h.current sound get
  split at current
  case isTrue => exact current
  case isFalse more =>
      obtain ⟨rest, rfl⟩ := current
      exact absurd (beq_iff_eq.2 eof) more

/-- Consuming the next token leaves the others to come. -/
theorem consume (h : s.Upcoming (t :: ts)) (sound : s.Sound) :
    Passes s s.consume [t] ∧ s.consume.Upcoming ts := by
  obtain ⟨u, get⟩ := sound.toPlaced.current
  have current := h.current sound get
  split at current
  case isTrue => cases current
  case isFalse more =>
      obtain ⟨rest, eq⟩ := current
      obtain ⟨rfl, rfl⟩ := List.cons.inj eq
      have passes := consume_passes get (Bool.eq_false_iff.2 more)
      obtain ⟨rest, eq, upcoming⟩ := h.passes sound passes
      obtain ⟨-, rfl⟩ := List.cons.inj eq
      exact ⟨passes, upcoming⟩

/-- From a list of tokens, those of the channel are to come. -/
theorem ofList {tokens : Array Token} (words : ∀ t ∈ tokens, t.isEof = false) :
    ({ source := { tokens } } : TokenStream TokenList).Upcoming
      ((Token.placed tokens).filter (·.channel == Token.defaultChannel)) := by
  let pulled (k : Nat) : TokenStream TokenList :=
    { source := { tokens, place := k }, tokens := ((Token.placed tokens).take k).toArray }
  let finish : Token := { (pulled tokens.size).source.endToken with index := some tokens.size }
  let last : TokenStream TokenList :=
    { source := (TokenList.next (pulled tokens.size).source).2
      tokens := (Token.placed tokens ++ [finish]).toArray, ended := true }
  have length : (Token.placed tokens).length = tokens.size := by simp [Token.placed]
  have step (k : Nat) (lt : k < tokens.size) : (pulled k).pull = pulled (k + 1) := by
    have next : TokenList.next (pulled k).source = (tokens[k], (pulled (k + 1)).source) := by
      simp [TokenList.next, pulled, lt, words tokens[k] (Array.getElem_mem lt)]
    have taken : (Token.placed tokens).take (k + 1)
        = (Token.placed tokens).take k ++ [{ tokens[k] with index := some k }] := by
      rw [List.take_succ_eq_append_getElem (by omega)]
      simp [Token.placed]
    have size : (pulled k).tokens.size = k := by simp [pulled, length]; omega
    change ({ pulled k with
      source := (TokenList.next (pulled k).source).2
      tokens := (pulled k).tokens.push
        { (TokenList.next (pulled k).source).1 with index := some (pulled k).tokens.size }
      ended := (TokenList.next (pulled k).source).1.isEof } : TokenStream TokenList) = _
    rw [next, size]
    simp [pulled, taken, words tokens[k] (Array.getElem_mem lt)]
  have final : (pulled tokens.size).pull = last := by
    have next : TokenList.next (pulled tokens.size).source
        = ((pulled tokens.size).source.endToken, last.source) := by
      simp [TokenList.next, pulled, last]
    have size : (pulled tokens.size).tokens.size = tokens.size := by simp [pulled, length]
    change ({ pulled tokens.size with
      source := (TokenList.next (pulled tokens.size).source).2
      tokens := (pulled tokens.size).tokens.push
        { (TokenList.next (pulled tokens.size).source).1 with
          index := some (pulled tokens.size).tokens.size }
      ended := (TokenList.next (pulled tokens.size).source).1.isEof } : TokenStream TokenList) = _
    rw [next, size]
    simp [pulled, last, finish, ← length]
    rfl
  have onward (m : Nat) : ∀ k, k + m = tokens.size → Ahead (pulled k) (pulled tokens.size) := by
    induction m with
    | zero =>
        intro k eq
        rw [← eq]
        exact .refl _
    | succ m ih =>
        intro k eq
        refine .pull rfl ?_
        rw [step k (by omega)]
        exact ih (k + 1) (by omega)
  have ahead : Ahead (pulled 0) last := by
    refine (onward tokens.size 0 (Nat.zero_add _)).trans (.pull rfl ?_)
    rw [final]
    exact .refl _
  refine ⟨last, ahead, rfl, ?_⟩
  simp [between, last, index]

end Upcoming

end TokenStream

end AdaptiveLL
