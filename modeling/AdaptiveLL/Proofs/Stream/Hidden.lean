import AdaptiveLL.Proofs.Stream.Cursor
/-!
The hidden tokens around a place. The query to the right pulls what it needs, so that it answers as
if every token had been pulled before. The query to the left pulls nothing: it answers so about the
places that have been pulled, and has no tokens for the others (`hidden_queries`).
-/
namespace AdaptiveLL

namespace TokenStream

/-- What can be asked of a stream of tokens and done with it, the queries about the whole input and
about hidden tokens among it. -/
inductive Access where
  | call (c : Call)
  | fill
  | text
  | acceptedCount
  | hiddenRight (place : Nat) (only : Option Nat)
  | hiddenLeft (place : Nat) (only : Option Nat)
  deriving DecidableEq, Repr

variable {σ : Type} [TokenSource σ]

/-- The stream after an access to it. -/
def access (s : TokenStream σ) : Access → TokenStream σ
  | .call c => (s.call c).2
  | .fill => s.fill
  | .text => s.text.2
  | .acceptedCount => s.acceptedCount.2
  | .hiddenRight i only => (s.hiddenRight i only).2
  | .hiddenLeft i only => (s.hiddenLeft i only).2

end TokenStream

namespace Token

/-- The hidden tokens from place `i` on, up to the next token where a cursor may stand. -/
def hiddenFrom (all : List Token) (channel : Nat) (only : Option Nat) (i : Nat) : List Token :=
  ((all.drop i).takeWhile (!Cursor.accepts channel ·)).filter (TokenStream.onChannel only)

/-- The hidden tokens before place `i`, back to the last token of the channel. -/
def hiddenBefore (all : List Token) (channel : Nat) (only : Option Nat) (i : Nat) : List Token :=
  (((all.take i).reverse.takeWhile (·.channel ≠ channel)).filter
    (TokenStream.onChannel only)).reverse

variable {all : List Token} {channel i : Nat} {only : Option Nat} {t : Token}

theorem hiddenFrom_of_le (beyond : all.length ≤ i) : hiddenFrom all channel only i = [] := by
  rw [hiddenFrom, List.drop_eq_nil_of_le beyond]
  rfl

/-- Tokens are hidden up to the next one of the channel. -/
theorem hiddenFrom_step (here : all[i]? = some t) :
    hiddenFrom all channel only i =
      if Cursor.accepts channel t then []
      else if TokenStream.onChannel only t then t :: hiddenFrom all channel only (i + 1)
      else hiddenFrom all channel only (i + 1) := by
  obtain ⟨inside, rfl⟩ := List.getElem?_eq_some_iff.1 here
  rw [hiddenFrom, List.drop_eq_getElem_cons inside, List.takeWhile_cons]
  cases Cursor.accepts channel all[i] with
  | true => rfl
  | false => exact List.filter_cons

end Token

namespace TokenStream

variable {σ : Type} [TokenSource σ] {s : TokenStream σ} {all : List Token} {i : Nat}
  {only : Option Nat}

/-! ### No access takes a token back -/

theorem fillWithin_pulled (fuel : Nat) (s : TokenStream σ) : Pulled s (s.fillWithin fuel) := by
  induction fuel generalizing s with
  | zero => exact .refl s
  | succ fuel ih =>
      rw [fillWithin]
      split
      case isTrue => exact .refl s
      case isFalse more => exact (Pulled.pull (Bool.eq_false_iff.2 more)).trans (ih s.pull)

theorem fill_leads (s : TokenStream σ) : Leads s s.fill :=
  (start_passes s).toLeads.trans (fillWithin_pulled s.start.bound s.start).toLeads

/-- A query for hidden tokens pulls tokens at most. -/
theorem hiddenFrom_pulled (only : Option Nat) (fuel i : Nat) (s : TokenStream σ) :
    Pulled s (hiddenFrom only fuel i s).2 := by
  induction fuel generalizing s i with
  | zero => exact .refl s
  | succ fuel ih =>
      rw [hiddenFrom]
      split
      case h_1 => exact .refl s
      case h_2 =>
          split
          case isTrue => exact .refl s
          case isFalse => exact (sync_spec (i + 1) s).1.trans (ih (i + 1) _)

theorem hiddenRight_leads (i : Nat) (only : Option Nat) (s : TokenStream σ) :
    Leads s (s.hiddenRight i only).2 :=
  (start_passes s).toLeads.trans
    ((sync_spec (i + 1) s.start).1.trans (hiddenFrom_pulled only _ (i + 1) _)).toLeads

theorem hiddenLeft_snd (i : Nat) (only : Option Nat) (s : TokenStream σ) :
    (s.hiddenLeft i only).2 = s.start := by
  unfold hiddenLeft
  simp only
  split <;> rfl

theorem call_leads (c : Call) (s : TokenStream σ) : Leads s (s.call c).2 := by
  cases c with
  | lookahead k => exact (lookahead_passes k s).toLeads
  | lookahead? k => exact (lookahead?_passes k s).toLeads
  | consume => exact consume_leads s
  | seek i => exact seek_leads i s
  | mark => exact (passes_of_marks s _).toLeads
  | release => exact (passes_of_marks s _).toLeads
  | textRange start stop => exact (textRange_passes start stop s).toLeads

theorem access_leads (s : TokenStream σ) (x : Access) : Leads s (s.access x) := by
  cases x with
  | call c => exact call_leads c s
  | fill => exact fill_leads s
  | text => exact (fill_leads s).trans (textRange_passes 0 _ s.fill).toLeads
  | acceptedCount => exact fill_leads s
  | hiddenRight i only => exact hiddenRight_leads i only s
  | hiddenLeft i only =>
      rw [access, hiddenLeft_snd]
      exact (start_passes s).toLeads

theorem accesses_leads (s : TokenStream σ) (accesses : List Access) :
    Leads s (accesses.foldl access s) := by
  induction accesses generalizing s with
  | nil => exact .refl s
  | cons x rest ih => exact (access_leads s x).trans (ih (s.access x))

/-! ### The answers are those about all the tokens of the input -/

namespace PartOf

/-- The bound of a stream reaches to the end of the input. -/
theorem length_le_bound (h : s.PartOf all) : all.length ≤ s.bound := by
  rw [bound]
  rcases Nat.lt_or_eq_of_le h.size_le with lt | same
  · have near := h.near (i := 0) lt
    rw [TokenSource.after, Function.iterate_zero_apply] at near
    omega
  · omega

/-- With enough fuel all tokens are pulled. -/
theorem size_fillWithin {fuel : Nat} (h : s.PartOf all) (complete : Token.Complete all)
    (enough : all.length ≤ s.tokens.size + fuel) :
    (s.fillWithin fuel).tokens.size = all.length := by
  induction fuel generalizing s with
  | zero => exact Nat.le_antisymm h.size_le enough
  | succ fuel ih =>
      rw [fillWithin]
      split
      case isTrue ended => exact h.ended.1 ended
      case isFalse more =>
          refine ih (h.pull complete (Bool.eq_false_iff.2 more)) ?_
          rw [size_pull]
          omega

/-- A filled stream holds all the tokens. -/
theorem size_fill (h : s.PartOf all) (complete : Token.Complete all) :
    s.fill.tokens.size = all.length := by
  have part := h.leads complete (start_passes s).toLeads
  have near := part.length_le_bound
  exact part.size_fillWithin complete (by omega)

/-- What has been asked for is there, or is not in the input. -/
theorem reached (h : s.PartOf all) (complete : Token.Complete all) (i : Nat) :
    i < (s.sync i).2.tokens.size ∨ all.length ≤ i := by
  have found := h.sync complete i
  rw [← (sync_spec i s).2.1, found, decide_eq_true_eq]
  exact Nat.lt_or_ge i all.length

/-- The search pulls each place before it looks at it. -/
theorem hiddenFrom {fuel : Nat} (h : s.PartOf all) (complete : Token.Complete all)
    (here : i < s.tokens.size ∨ all.length ≤ i) (enough : all.length ≤ i + fuel) :
    (TokenStream.hiddenFrom only fuel i s).1 = Token.hiddenFrom all s.channel only i := by
  induction fuel generalizing s i with
  | zero => exact (Token.hiddenFrom_of_le enough).symm
  | succ fuel ih =>
      rw [TokenStream.hiddenFrom]
      rcases here with inside | beyond
      · have get := Array.getElem?_eq_getElem inside
        have pulled := (sync_spec (i + 1) s).1
        have rest := ih (h.leads complete pulled.toLeads) (h.reached complete (i + 1)) (by omega)
        rw [pulled.channel] at rest
        have same : s.accepts s.tokens[i] = Cursor.accepts s.channel s.tokens[i] := rfl
        rw [get, Token.hiddenFrom_step (h.get get), ← rest, ← same]
        change (if s.accepts s.tokens[i] then ([], s) else _ : List Token × TokenStream σ).1 = _
        cases s.accepts s.tokens[i] with
        | true => rfl
        | false => rfl
      · rw [Array.getElem?_eq_none (Nat.le_trans h.size_le beyond)]
        exact (Token.hiddenFrom_of_le beyond).symm

/-- The query to the right sees all tokens of the source. -/
theorem hiddenRight (h : s.PartOf all) (complete : Token.Complete all) :
    (s.hiddenRight i only).1 = Token.hiddenFrom all s.channel only (i + 1) := by
  have pulled := (sync_spec (i + 1) s.start).1
  have leads := (start_passes s).toLeads.trans pulled.toLeads
  have part := h.leads complete leads
  have near := part.length_le_bound
  have reached := (h.leads complete (start_passes s).toLeads).reached complete (i + 1)
  rw [← leads.channel]
  exact part.hiddenFrom complete reached (Nat.le_add_left_of_le near)

/-- The query to the left sees the tokens that were pulled before. -/
theorem hiddenLeft (h : s.PartOf all) (complete : Token.Complete all) :
    (s.hiddenLeft i only).1 =
      if i ≤ s.start.tokens.size then Token.hiddenBefore all s.channel only i else [] := by
  have started := (start_passes s).toLeads
  have part := h.leads complete started
  rw [TokenStream.hiddenLeft, ← started.channel]
  generalize s.start = s₀ at *
  simp only
  split
  case isTrue beyond => rw [if_neg (Nat.not_le_of_lt beyond)]
  case isFalse inside =>
      have inside := Nat.not_lt.1 inside
      have before : (s₀.tokens.extract 0 i).toList = all.take i := by
        rw [Array.toList_extract, List.extract_eq_take_drop, List.drop_zero, Nat.sub_zero,
          part.toList, List.take_take, Nat.min_eq_left inside]
      rw [if_pos inside, before]
      rfl

end PartOf

/-- Whatever was done with a stream before: the hidden tokens to the right are those that a filled
stream over the source has, and so are the ones to the left of a place up to which the tokens have
been pulled. To the left of a place beyond there are none. -/
theorem hidden_queries {source : σ} {tokens : Array Token} {last : Token}
    (h : TokenSource.Yields source tokens last) (channel : Nat) (accesses : List Access)
    (i : Nat) (only : Option Nat) :
    let fresh : TokenStream σ := { source, channel }
    let used := accesses.foldl access fresh
    (used.hiddenRight i only).1 = (fresh.fill.hiddenRight i only).1 ∧
    (used.hiddenLeft i only).1 =
      if i ≤ used.start.tokens.size then (fresh.fill.hiddenLeft i only).1 else [] := by
  intro fresh used
  have complete := complete_of_yields h
  have part : fresh.PartOf (Token.placed (tokens.push last)) := (Shows.ofSource h channel).part
  have leads := accesses_leads fresh accesses
  have filled := part.leads complete (fill_leads fresh)
  have usedPart := part.leads complete leads
  have started := (usedPart.leads complete (start_passes used).toLeads).size_le
  have all : fresh.fill.start.tokens.size = (Token.placed (tokens.push last)).length := by
    have le := (filled.leads complete (start_passes fresh.fill).toLeads).size_le
    have ge := (start_passes fresh.fill).size_le
    have size := part.size_fill complete
    exact Nat.le_antisymm le (size ▸ ge)
  constructor
  · rw [usedPart.hiddenRight complete, filled.hiddenRight complete, leads.channel,
      (fill_leads fresh).channel]
  · rw [usedPart.hiddenLeft complete, filled.hiddenLeft complete, leads.channel,
      (fill_leads fresh).channel, all]
    split
    case isTrue inside => rw [if_pos (Nat.le_trans inside started)]
    case isFalse => rfl

theorem hidden_queries_twoWords :
    TokenSource.Yields ({ tokens := TokenList.twoWords } : TokenList)
      TokenList.twoWords TokenList.endOfTwoWords ∧
    let fresh : TokenStream TokenList := { source := { tokens := TokenList.twoWords } }
    let used := [Access.call (.lookahead 2)].foldl access fresh
    (used.hiddenRight 0 none).1 = (fresh.fill.hiddenRight 0 none).1 ∧
      (used.hiddenLeft 2 (some 1)).1 = (fresh.fill.hiddenLeft 2 (some 1)).1 ∧
      (used.hiddenLeft 2 (some 1)).1.map Token.text = [" "] := by
  have yields : TokenSource.Yields ({ tokens := TokenList.twoWords } : TokenList)
      TokenList.twoWords TokenList.endOfTwoWords := TokenList.yields (by decide) "<list>"
  exact ⟨yields, (hidden_queries yields 0 [.call (.lookahead 2)] 0 none).1,
    (hidden_queries yields 0 [.call (.lookahead 2)] 2 (some 1)).2.trans (if_pos (by decide +kernel)),
    by decide +kernel⟩

/-- The blank before the second word is not found on a stream that has not come to it. -/
theorem hiddenLeft_twoWords :
    let fresh : TokenStream TokenList := { source := { tokens := TokenList.twoWords } }
    (fresh.hiddenLeft 2 none).1 = [] ∧
      (fresh.fill.hiddenLeft 2 none).1.map Token.text = [" "] := by
  decide +kernel

end TokenStream

end AdaptiveLL
