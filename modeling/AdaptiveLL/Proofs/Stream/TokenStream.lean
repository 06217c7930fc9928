import AdaptiveLL.Proofs.Stream.TokenSource
import AdaptiveLL.Stream.TokenStream
/-!
What token streams do to their tokens. Tokens that have been pulled stay where they are, and
the cursor stands on a token of the channel or on the end of the input. Looking around leaves
the cursor where it is; consuming passes the token under the cursor and the hidden tokens
behind it. Looking back shows the last of the tokens that have been passed.
-/
namespace AdaptiveLL

namespace TokenStream

variable {σ : Type} {s s' s'' : TokenStream σ} {i j : Nat} {t : Token}

/-- Tokens carry their places, the end of the input is the last of them, and the cursor is
at one of them. -/
structure Placed (s : TokenStream σ) : Prop where
  place : ∀ {i : Nat} {t : Token}, s.tokens[i]? = some t → t.index = some i
  last : ∀ {i : Nat} {t : Token}, s.tokens[i]? = some t → t.isEof = true →
    s.ended = true ∧ i + 1 = s.tokens.size
  ended : s.ended = true → ∃ t, s.tokens[s.tokens.size - 1]? = some t ∧ t.isEof = true
  inside : ∀ {i : Nat}, s.position = some i → i < s.tokens.size

variable [TokenSource σ]

/-- Besides, the cursor stands on a token that it may stand on, and the source does not hide
tokens beyond its horizon. -/
structure Sound (s : TokenStream σ) : Prop extends Placed s where
  prompt : s.ended = false → TokenSource.Prompt s.channel s.source
  stands : ∀ {i : Nat}, s.position = some i → ∃ t, s.tokens[i]? = some t ∧ s.accepts t = true

omit [TokenSource σ] in
theorem Placed.nonempty (h : s.Placed) (ended : s.ended = true) : 0 < s.tokens.size := by
  obtain ⟨t, last, -⟩ := h.ended ended
  have := (Array.getElem?_eq_some_iff.1 last).1
  omega

omit [TokenSource σ] in
/-- A stream that nothing has been pulled from. -/
theorem Placed.ofSource (source : σ) (channel : Nat) :
    Placed ({ source, channel } : TokenStream σ) where
  place h := by simp at h
  last h := by simp at h
  ended h := by simp at h
  inside h := by simp at h

theorem Sound.ofSource {source : σ} {channel : Nat} (h : TokenSource.Prompt channel source) :
    Sound ({ source, channel } : TokenStream σ) where
  toPlaced := .ofSource source channel
  prompt _ := h
  stands h := by simp at h

/-- Tokens have been pulled, and nothing else was done. -/
inductive Ahead : TokenStream σ → TokenStream σ → Prop
  | refl (s : TokenStream σ) : Ahead s s
  | pull {s s' : TokenStream σ} (more : s.ended = false) (rest : Ahead s.pull s') : Ahead s s'

namespace Ahead

theorem trans (first : Ahead s s') (second : Ahead s' s'') : Ahead s s'' := by
  induction first with
  | refl => exact second
  | pull more _ ih => exact .pull more (ih second)

/-- The cursor and the marks do not matter. -/
theorem moved (h : Ahead s s') (position : Option Nat) (marks : Nat) :
    Ahead { s with position, marks } { s' with position, marks } := by
  induction h with
  | refl => exact .refl _
  | pull more _ ih => exact .pull more ih

end Ahead

/-- What stays true while a stream is used: tokens are pulled, and stay where they are. -/
structure Leads (s s' : TokenStream σ) : Prop where
  get : ∀ {i : Nat} {t : Token}, s.tokens[i]? = some t → s'.tokens[i]? = some t
  channel : s'.channel = s.channel
  placed : s.Placed → s'.Placed
  sound : s.Sound → s'.Sound
  ahead : Ahead s { s' with position := s.position, marks := s.marks }

namespace Leads

theorem refl (s : TokenStream σ) : Leads s s := ⟨id, rfl, id, id, .refl s⟩

theorem trans (first : Leads s s') (second : Leads s' s'') : Leads s s'' where
  get h := second.get (first.get h)
  channel := second.channel.trans first.channel
  placed h := second.placed (first.placed h)
  sound h := second.sound (first.sound h)
  ahead := first.ahead.trans (second.ahead.moved s.position s.marks)

theorem size_le (h : Leads s s') : s.tokens.size ≤ s'.tokens.size := by
  rcases Nat.eq_zero_or_pos s.tokens.size with none | some
  · omega
  · have := h.get (Array.getElem?_eq_getElem (Nat.sub_lt some Nat.one_pos))
    have := (Array.getElem?_eq_some_iff.1 this).1
    omega

theorem accepts (h : Leads s s') (t : Token) : s'.accepts t = s.accepts t := by
  rw [TokenStream.accepts, TokenStream.accepts, h.channel]

end Leads

/-- Pulling leaves the cursor and the marks alone. -/
structure Pulled (s s' : TokenStream σ) : Prop extends Leads s s' where
  position : s'.position = s.position
  marks : s'.marks = s.marks

namespace Pulled

theorem refl (s : TokenStream σ) : Pulled s s := ⟨.refl s, rfl, rfl⟩

theorem trans (first : Pulled s s') (second : Pulled s' s'') : Pulled s s'' where
  toLeads := first.toLeads.trans second.toLeads
  position := second.position.trans first.position
  marks := second.marks.trans first.marks

theorem index (h : Pulled s s') : s'.index = s.index := by
  rw [TokenStream.index, TokenStream.index, h.position]

end Pulled

theorem tokens_pull_of_lt (h : i < s.tokens.size) : s.pull.tokens[i]? = s.tokens[i]? := by
  simp only [pull, Array.getElem?_push, Nat.ne_of_lt h, if_false]

theorem tokens_pull_size :
    s.pull.tokens[s.tokens.size]? =
      some { (TokenSource.next s.source).1 with index := some s.tokens.size } := by
  simp [pull]

@[simp] theorem size_pull (s : TokenStream σ) : s.pull.tokens.size = s.tokens.size + 1 := by
  simp [pull]

/-- A token is there already, or it is the one that has just been pulled, at the end. -/
theorem tokens_pull_cases (h : s.pull.tokens[i]? = some t) :
    s.tokens[i]? = some t ∨ i = s.tokens.size ∧
      t = { (TokenSource.next s.source).1 with index := some s.tokens.size } := by
  rcases Nat.lt_trichotomy i s.tokens.size with lt | rfl | gt
  · exact .inl (tokens_pull_of_lt lt ▸ h)
  · exact .inr ⟨rfl, Option.some.inj (h.symm.trans tokens_pull_size)⟩
  · have := (Array.getElem?_eq_some_iff.1 h).1
    rw [size_pull] at this
    omega

/-- The cursor stands where it stood. -/
theorem Placed.pull (h : s.Placed) (more : s.ended = false) : s.pull.Placed where
  place get := by
    rcases tokens_pull_cases get with old | ⟨rfl, rfl⟩
    · exact h.place old
    · rfl
  last get eof := by
    rcases tokens_pull_cases get with old | ⟨rfl, rfl⟩
    · simp [(h.last old eof).1] at more
    · exact ⟨eof, (size_pull s).symm⟩
  ended eof := ⟨{ (TokenSource.next s.source).1 with index := some s.tokens.size },
    by rw [size_pull]; exact tokens_pull_size, eof⟩
  inside here := by
    have := h.inside here
    rw [size_pull]
    omega

theorem Pulled.pull {s : TokenStream σ} (more : s.ended = false) : Pulled s s.pull where
  get h := by rwa [tokens_pull_of_lt (Array.getElem?_eq_some_iff.1 h).1]
  channel := rfl
  position := rfl
  marks := rfl
  ahead := .pull more (.refl _)
  placed h := h.pull more
  sound h := {
    toPlaced := h.toPlaced.pull more
    prompt := fun _ => (h.prompt more).next
    stands := fun here => by
      obtain ⟨t, get, accepted⟩ := h.stands here
      exact ⟨t, (tokens_pull_of_lt (h.inside here)).trans get, accepted⟩ }

theorem fetch_succ (n : Nat) (more : s.ended = false) :
    s.fetch (n + 1) = ((s.pull.fetch n).1 + 1, (s.pull.fetch n).2) := by
  rw [fetch, more]
  rfl

/-- Fewer tokens than were asked for are pulled only at the end of the source. -/
theorem fetch_spec (n : Nat) (s : TokenStream σ) :
    Pulled s (s.fetch n).2 ∧ (s.fetch n).2.tokens.size = s.tokens.size + (s.fetch n).1 ∧
      ((s.fetch n).1 < n → (s.fetch n).2.ended = true) := by
  induction n generalizing s with
  | zero => exact ⟨.refl s, rfl, fun h => absurd h (Nat.not_lt_zero _)⟩
  | succ n ih =>
      cases ended : s.ended with
      | true =>
          rw [fetch, ended, if_pos rfl]
          exact ⟨.refl s, rfl, fun _ => ended⟩
      | false =>
          rw [fetch_succ n ended]
          obtain ⟨pulled, size, all⟩ := ih s.pull
          refine ⟨(Pulled.pull ended).trans pulled, ?_, fun few => all (Nat.lt_of_succ_lt_succ few)⟩
          rw [size, size_pull]
          omega

/-- Asking for a place pulls what is needed; if the place is not reached, the input has
ended. -/
theorem sync_spec (i : Nat) (s : TokenStream σ) :
    Pulled s (s.sync i).2 ∧ ((s.sync i).1 = true ↔ i < (s.sync i).2.tokens.size) ∧
      ((s.sync i).1 = false → (s.sync i).2.ended = true) := by
  unfold sync
  split
  case isTrue h => exact ⟨.refl s, by simp [h], by simp⟩
  case isFalse h =>
      obtain ⟨pulled, size, ended⟩ := fetch_spec (i - s.tokens.size + 1) s
      refine ⟨pulled, ?_, fun few => ended (by simpa using few)⟩
      simp only [decide_eq_true_eq, size]
      omega

theorem sync_of_lt (h : i < s.tokens.size) : s.sync i = (true, s) := if_pos h

/-- The next place: it is pulled at most once. -/
theorem sync_next (h : s.Placed) (here : s.tokens[i]? = some t) (more : t.isEof = false) :
    (s.sync (i + 1)).1 = true ∧
      ((s.sync (i + 1)).2 = s ∧ i + 1 < s.tokens.size ∨
        (s.sync (i + 1)).2 = s.pull ∧ i + 1 = s.tokens.size ∧ s.ended = false) := by
  have lt := (Array.getElem?_eq_some_iff.1 here).1
  rcases Nat.lt_or_eq_of_le (Nat.succ_le_of_lt lt) with old | new
  · exact ⟨by rw [sync_of_lt old], .inl ⟨by rw [sync_of_lt old], old⟩⟩
  · have running : s.ended = false := by
      cases ended : s.ended with
      | false => rfl
      | true =>
          obtain ⟨last, get, eof⟩ := h.ended ended
          have same : s.tokens.size - 1 = i := by omega
          rw [same, here] at get
          rw [Option.some.inj get, eof] at more
          cases more
    have one : i + 1 - s.tokens.size + 1 = 1 := by omega
    have pulled : s.sync (i + 1) = (true, s.pull) := by
      rw [sync, if_neg (by omega), one]
      simp [fetch, running]
    exact ⟨by rw [pulled], .inr ⟨by rw [pulled], new, running⟩⟩

/-- Whether the cursor may stand at a place, seen beyond the tokens pulled so far. -/
def shows (s : TokenStream σ) (i : Nat) : Bool :=
  match s.tokens[i]? with
  | some t => s.accepts t
  | none => s.accepts (TokenSource.nth s.source (i - s.tokens.size))

theorem shows_of_get (h : s.tokens[i]? = some t) : s.shows i = s.accepts t := by
  rw [shows, h]

/-- Pulling a token does not change where the cursor may stand. -/
theorem shows_pull (s : TokenStream σ) (i : Nat) : s.pull.shows i = s.shows i := by
  rcases Nat.lt_trichotomy i s.tokens.size with lt | rfl | gt
  · rw [shows, shows, tokens_pull_of_lt lt, Array.getElem?_eq_getElem lt]
    rfl
  · rw [shows_of_get tokens_pull_size, shows, Array.getElem?_eq_none (Nat.le_refl _), Nat.sub_self]
    rfl
  · rw [shows, shows, Array.getElem?_eq_none (Nat.le_of_lt gt), Array.getElem?_eq_none (by rw [size_pull]; omega)]
    have shift : i - s.tokens.size = i - s.pull.tokens.size + 1 := by rw [size_pull]; omega
    rw [shift, ← TokenSource.nth_next]
    rfl

/-- The first place from `i` on that shows a token is found within the bound. -/
theorem Sound.exists_shows (h : s.Sound) (inside : i < s.tokens.size) :
    ∃ j, i ≤ j ∧ j < i + s.bound ∧ s.shows j = true := by
  cases ended : s.ended with
  | true =>
      obtain ⟨t, get, eof⟩ := h.ended ended
      refine ⟨s.tokens.size - 1, by omega, by rw [bound]; omega, ?_⟩
      rw [shows_of_get get, accepts, eof, Bool.or_true]
  | false =>
      obtain ⟨k, le, shown⟩ := h.prompt ended 0
      refine ⟨s.tokens.size + k, by omega, ?_, ?_⟩
      · have le : k ≤ TokenSource.horizon s.source := le
        rw [bound]
        omega
      · rw [shows, Array.getElem?_eq_none (by omega), Nat.add_sub_cancel_left]
        simpa [accepts] using shown

theorem skipFrom_accepted {fuel : Nat} (here : s.tokens[i]? = some t) (accepted : s.accepts t = true) :
    s.skipFrom (fuel + 1) i = (i, s) := by
  rw [skipFrom, here]
  exact if_pos accepted

/-- A hidden token is stepped over, and at most one more is pulled. -/
theorem skipFrom_hidden {n : Nat} (h : s.Placed) (here : s.tokens[i]? = some t)
    (hidden : s.accepts t = false) :
    ∃ next, s.sync (i + 1) = (true, next) ∧ Pulled s next ∧ i + 1 < next.tokens.size ∧
      (∀ j, next.shows j = s.shows j) ∧
      s.skipFrom (n + 1) i = next.skipFrom n (i + 1) := by
  have more : t.isEof = false := (Bool.or_eq_false_iff.1 hidden).2
  obtain ⟨found, next⟩ := sync_next h here more
  obtain ⟨pulled, reached, -⟩ := sync_spec (i + 1) s
  have eq : s.sync (i + 1) = (true, (s.sync (i + 1)).2) := Prod.ext found rfl
  refine ⟨_, eq, pulled, reached.1 found, fun j => ?_, ?_⟩
  · rcases next with ⟨same, -⟩ | ⟨same, -⟩
    · rw [same]
    · rw [same, shows_pull]
  · rw [skipFrom, here]
    simp only [hidden, Bool.false_eq_true, if_false]
    rw [eq]

theorem skipFrom_pulled (fuel i : Nat) (s : TokenStream σ) : Pulled s (s.skipFrom fuel i).2 := by
  induction fuel generalizing s i with
  | zero => exact .refl s
  | succ fuel ih =>
      rw [skipFrom]
      split
      case h_1 => exact .refl s
      case h_2 t _ =>
          split
          case isTrue => exact .refl s
          case isFalse =>
              have pulled := (sync_spec (i + 1) s).1
              split <;> rename_i eq <;> rw [eq] at pulled
              · exact pulled.trans (ih _ _)
              · exact pulled

/-- Skipping stays among the tokens. -/
theorem skipFrom_inside (fuel : Nat) (h : s.Placed) (inside : i < s.tokens.size) :
    i ≤ (s.skipFrom fuel i).1 ∧ (s.skipFrom fuel i).1 < (s.skipFrom fuel i).2.tokens.size := by
  induction fuel generalizing s i with
  | zero => exact ⟨Nat.le_refl i, inside⟩
  | succ fuel ih =>
      have here := Array.getElem?_eq_getElem inside
      cases accepted : s.accepts s.tokens[i] with
      | true =>
          rw [skipFrom_accepted here accepted]
          exact ⟨Nat.le_refl i, inside⟩
      | false =>
          obtain ⟨next, -, pulled, reached, -, same⟩ := skipFrom_hidden h here accepted
          obtain ⟨le, lt⟩ := ih (pulled.placed h) reached
          rw [same]
          exact ⟨Nat.le_of_succ_le le, lt⟩

/-- With fuel enough, skipping ends at the first token that the cursor may stand on. -/
theorem skipFrom_shows {fuel : Nat} (h : s.Placed) (inside : i < s.tokens.size)
    (le : i ≤ j) (lt : j < i + fuel) (shown : s.shows j = true) :
    (∃ t, (s.skipFrom fuel i).2.tokens[(s.skipFrom fuel i).1]? = some t ∧ s.accepts t = true) ∧
      ∀ m t, i ≤ m → m < (s.skipFrom fuel i).1 →
        (s.skipFrom fuel i).2.tokens[m]? = some t → s.accepts t = false := by
  induction fuel generalizing s i with
  | zero => omega
  | succ fuel ih =>
      have here := Array.getElem?_eq_getElem inside
      cases accepted : s.accepts s.tokens[i] with
      | true =>
          rw [skipFrom_accepted here accepted]
          exact ⟨⟨_, here, accepted⟩, fun m t low high => absurd low (Nat.not_le_of_lt high)⟩
      | false =>
          have other : i ≠ j := by
            rintro rfl
            rw [shows_of_get here, accepted] at shown
            cases shown
          obtain ⟨next, -, pulled, reached, shows, same⟩ := skipFrom_hidden h here accepted
          have placed := pulled.placed h
          obtain ⟨stands, skipped⟩ := ih placed reached (by omega) (by omega)
            ((shows j).trans shown)
          simp only [pulled.accepts] at stands skipped
          rw [same]
          refine ⟨stands, fun m t low high get => ?_⟩
          rcases Nat.lt_or_eq_of_le low with low | rfl
          · exact skipped m t low high get
          · have kept := (skipFrom_pulled fuel (i + 1) next).get (pulled.get here)
            rwa [← Option.some.inj (kept.symm.trans get)]

/-- The tokens of the channel from place `i` up to but not including place `j`. -/
def between (s : TokenStream σ) (i j : Nat) : List Token :=
  ((s.tokens.toList.take j).drop i).filter (·.channel == s.channel)

omit [TokenSource σ] in
theorem between_self (s : TokenStream σ) (i : Nat) : s.between i i = [] := by
  simp [between]

omit [TokenSource σ] in
/-- Two ranges that meet, one after the other. -/
theorem between_append (s : TokenStream σ) {i j k : Nat} (first : i ≤ j) (second : j ≤ k) :
    s.between i j ++ s.between j k = s.between i k := by
  have split : s.tokens.toList.take k =
      s.tokens.toList.take j ++ (s.tokens.toList.take k).drop j := by
    conv_lhs => rw [← List.take_append_drop j (s.tokens.toList.take k)]
    rw [List.take_take, Nat.min_eq_left second]
  rw [between, between, between, ← List.filter_append]
  conv_rhs => rw [split, List.drop_append]
  rcases Nat.le_total i s.tokens.size with inside | outside
  · rw [List.length_take, Array.length_toList]
    rcases Nat.le_total j s.tokens.size with le | le
    · rw [Nat.min_eq_left le, Nat.sub_eq_zero_of_le first, List.drop_zero]
    · have : (s.tokens.toList.take k).drop j = [] := by simp; omega
      rw [this, List.drop_nil]
  · have : (s.tokens.toList.take k).drop j = [] := by simp; omega
    rw [this, List.drop_nil]

/-- More tokens behind it do not change a stretch. -/
theorem Leads.between (h : Leads s s') {i j : Nat} (inside : j ≤ s.tokens.size) :
    s'.between i j = s.between i j := by
  have same : s'.tokens.toList.take j = s.tokens.toList.take j := by
    refine List.ext_getElem? fun m => ?_
    rw [List.getElem?_take, List.getElem?_take]
    split
    case isFalse => rfl
    case isTrue lt =>
        rw [Array.getElem?_toList, Array.getElem?_toList]
        have here := Array.getElem?_eq_getElem (Nat.lt_of_lt_of_le lt inside)
        rw [here, h.get here]
  rw [TokenStream.between, TokenStream.between, same, h.channel]

omit [TokenSource σ] in
/-- Tokens of other channels are not between two places. -/
theorem between_eq_nil {i j : Nat}
    (hidden : ∀ m t, i ≤ m → m < j → s.tokens[m]? = some t → s.accepts t = false) :
    s.between i j = [] := by
  refine List.filter_eq_nil_iff.2 fun t mem => ?_
  obtain ⟨m, lt, rfl⟩ := List.mem_iff_getElem.1 mem
  rw [List.length_drop, List.length_take, Array.length_toList] at lt
  rw [List.getElem_drop, List.getElem_take, Array.getElem_toList]
  have := hidden (i + m) _ (by omega) (by omega) (Array.getElem?_eq_getElem (by omega))
  simp only [accepts, Bool.or_eq_false_iff] at this
  simp [this.1]

/-- Using a stream moves its cursor on over the tokens `passed`. -/
structure Passes (s s' : TokenStream σ) (passed : List Token) : Prop extends Leads s s' where
  moves : s.Sound → s.index ≤ s'.index ∧ s'.between s.index s'.index = passed

omit [TokenSource σ] in
theorem Placed.index_le (h : s.Placed) : s.index ≤ s.tokens.size := by
  rw [index]
  cases here : s.position with
  | none => exact Nat.zero_le _
  | some i => exact Nat.le_of_lt (h.inside here)

namespace Passes

variable {first second : List Token}

theorem refl (s : TokenStream σ) : Passes s s [] where
  toLeads := .refl s
  moves _ := ⟨Nat.le_refl _, between_self s _⟩

theorem trans (h : Passes s s' first) (h' : Passes s' s'' second) :
    Passes s s'' (first ++ second) where
  toLeads := h.toLeads.trans h'.toLeads
  moves sound := by
    obtain ⟨le, passed⟩ := h.moves sound
    have sound' := h.sound sound
    obtain ⟨le', passed'⟩ := h'.moves sound'
    refine ⟨Nat.le_trans le le', ?_⟩
    rw [← between_append s'' le le', passed', h'.between sound'.index_le, passed]

theorem congr (h : Passes s s' first) (same : s.Sound → first = second) :
    Passes s s' second where
  toLeads := h.toLeads
  moves sound := same sound ▸ h.moves sound

end Passes

theorem Pulled.passes (h : Pulled s s') : Passes s s' [] where
  toLeads := h.toLeads
  moves _ := ⟨Nat.le_of_eq h.index.symm, by rw [h.index, between_self]⟩

/-- What `nextOnChannel` finds. -/
theorem nextOnChannel_spec (i : Nat) (s : TokenStream σ) :
    Pulled s (s.nextOnChannel i).2 ∧
      (s.Placed → (s.nextOnChannel i).1 < (s.nextOnChannel i).2.tokens.size) ∧
      (s.Sound → (∃ t, (s.nextOnChannel i).2.tokens[(s.nextOnChannel i).1]? = some t ∧
          s.accepts t = true) ∧
        ∀ m t, i ≤ m → m < (s.nextOnChannel i).1 →
          (s.nextOnChannel i).2.tokens[m]? = some t → s.accepts t = false) := by
  obtain ⟨pulled, reached, ended⟩ := sync_spec i s
  obtain ⟨ok, next, eq⟩ : ∃ ok next, s.sync i = (ok, next) := ⟨_, _, rfl⟩
  rw [eq] at pulled reached ended
  simp only [nextOnChannel, eq]
  split
  case isTrue beyond =>
      have last : ok = false :=
        Bool.eq_false_iff.2 fun h => absurd (reached.1 h) (Nat.not_lt_of_le beyond)
      refine ⟨pulled, fun placed => ?_, fun sound => ⟨?_, fun m t low high => ?_⟩⟩
      · exact Nat.sub_lt ((pulled.placed placed).nonempty (ended last)) Nat.one_pos
      · obtain ⟨t, get, eof⟩ := (pulled.sound sound).ended (ended last)
        exact ⟨t, get, by rw [accepts, eof, Bool.or_true]⟩
      · have le : m < next.tokens.size - 1 := high
        omega
  case isFalse inside =>
      have inside := Nat.lt_of_not_le inside
      refine ⟨pulled.trans (skipFrom_pulled _ _ _), fun placed => ?_, fun sound => ?_⟩
      · exact (skipFrom_inside _ (pulled.placed placed) inside).2
      · have sound := pulled.sound sound
        obtain ⟨j, le, lt, shown⟩ := sound.exists_shows inside
        simpa only [pulled.accepts] using skipFrom_shows sound.toPlaced inside le lt shown

/-- The search goes forward, unless it starts behind the end of the input. -/
theorem le_nextOnChannel (h : s.Placed) (reached : (s.sync i).1 = true) :
    i ≤ (s.nextOnChannel i).1 := by
  obtain ⟨pulled, inside, -⟩ := sync_spec i s
  have found : s.nextOnChannel i = (s.sync i).2.skipFrom (s.sync i).2.bound i :=
    if_neg (Nat.not_le_of_lt (inside.1 reached))
  rw [found]
  exact (skipFrom_inside _ (pulled.placed h) (inside.1 reached)).1

/-- What is stepped over on the way is hidden. -/
theorem between_nextOnChannel (h : s.Sound) (i : Nat) :
    (s.nextOnChannel i).2.between i (s.nextOnChannel i).1 = [] := by
  obtain ⟨pulled, -, stands⟩ := nextOnChannel_spec i s
  refine between_eq_nil fun m t low high get => ?_
  rw [pulled.accepts]
  exact (stands h).2 m t low high get

/-- The stream with its cursor on the first token from place `i` on. -/
def onward (s : TokenStream σ) (i : Nat) : TokenStream σ :=
  { (s.nextOnChannel i).2 with position := some (s.nextOnChannel i).1 }

/-- Going on to the next token of the channel pulls tokens and moves the cursor. -/
theorem onward_leads (i : Nat) (s : TokenStream σ) : Leads s (s.onward i) := by
  obtain ⟨pulled, inside, stands⟩ := nextOnChannel_spec i s
  refine ⟨pulled.get, pulled.channel, fun placed => ?_, fun sound => ?_, pulled.ahead⟩
  · exact { pulled.placed placed with inside := fun here => Option.some.inj here ▸ inside placed }
  · refine { pulled.sound sound with
      inside := fun here => Option.some.inj here ▸ inside sound.toPlaced
      stands := fun {j} here => ?_ }
    obtain rfl : (s.nextOnChannel i).1 = j := Option.some.inj here
    obtain ⟨t, get, accepted⟩ := (stands sound).1
    exact ⟨t, get, (pulled.accepts t).trans accepted⟩

/-- Going on passes the tokens of the channel from the cursor to the place where the search begins.
-/
theorem onward_passes (h : Leads s s') (reached : s.Placed → (s'.sync i).1 = true)
    (le : s.Sound → s.index ≤ i ∧ i ≤ s'.tokens.size) (passed : List Token)
    (between : s.Sound → s'.between s.index i = passed) : Passes s (s'.onward i) passed where
  toLeads := h.trans (onward_leads i s')
  moves sound := by
    obtain ⟨low, high⟩ := le sound
    have forward := le_nextOnChannel (h.placed sound.toPlaced) (reached sound.toPlaced)
    refine ⟨Nat.le_trans low forward, ?_⟩
    have pulled := (nextOnChannel_spec i s').1
    have hidden := between_nextOnChannel (h.sound sound) i
    change (s'.nextOnChannel i).2.between s.index (s'.nextOnChannel i).1 = passed
    rw [← between_append _ low forward, pulled.between high, between sound, hidden, List.append_nil]

theorem start_of_position (h : s.position = some i) : s.start = s := by
  rw [start, h]

theorem start_of_none (h : s.position = none) : s.start = (s.sync 0).2.onward 0 := by
  rw [start, h]
  rfl

theorem start_position (s : TokenStream σ) : s.start.position = some s.start.index := by
  cases h : s.position with
  | some i => rw [start_of_position h, index, h, Option.getD_some]
  | none => rw [start_of_none h]; rfl

@[simp] theorem start_start (s : TokenStream σ) : s.start.start = s.start :=
  start_of_position (start_position s)

/-- There is a first token, be it the end of the input. -/
theorem sync_zero (h : s.Placed) : (s.sync 0).1 = true := by
  obtain ⟨pulled, reached, ended⟩ := sync_spec 0 s
  cases ok : (s.sync 0).1 with
  | true => rfl
  | false =>
      have := (pulled.placed h).nonempty (ended ok)
      rw [← reached, ok] at this
      cases this

/-- To begin is to pass nothing. -/
theorem start_passes (s : TokenStream σ) : Passes s s.start [] := by
  cases h : s.position with
  | some i => rw [start_of_position h]; exact .refl s
  | none =>
      have pulled := (sync_spec 0 s).1
      have index : s.index = 0 := by rw [index, h, Option.getD_none]
      rw [start_of_none h]
      refine onward_passes pulled.toLeads (fun placed => sync_zero (pulled.placed placed)) ?_ _ ?_
      · exact fun _ => ⟨Nat.le_of_eq index, Nat.zero_le _⟩
      · exact fun _ => by rw [index, between_self]

/-- The token under the cursor. -/
theorem Placed.current (h : s.Placed) :
    ∃ t, s.start.tokens[s.start.index]? = some t :=
  ⟨_, Array.getElem?_eq_getElem (((start_passes s).placed h).inside (start_position s))⟩

theorem forward_pulled (k i : Nat) (s : TokenStream σ) : Pulled s (s.forward k i).2 := by
  induction k generalizing s i with
  | zero => exact .refl s
  | succ k ih =>
      rw [forward]
      have pulled := (sync_spec (i + 1) s).1
      split <;> rename_i next eq <;> rw [eq] at pulled
      · exact (pulled.trans (nextOnChannel_spec (i + 1) next).1).trans (ih _ _)
      · exact pulled.trans (ih _ _)

theorem previousOnChannel_pulled (i : Nat) (s : TokenStream σ) :
    Pulled s (s.previousOnChannel i).2 :=
  (sync_spec i s).1

theorem backward_pulled (k i : Nat) (s : TokenStream σ) : Pulled s (s.backward k i).2 := by
  induction k, i, s using backward.induct with
  | case1 i s => exact .refl s
  | case2 k s => exact .refl s
  | case3 k i s j next eq ih =>
      have pulled := previousOnChannel_pulled i s
      rw [eq] at pulled
      rw [backward, eq]
      exact pulled.trans ih
  | case4 k i s next eq =>
      have pulled := previousOnChannel_pulled i s
      rw [eq] at pulled
      rw [backward, eq]
      exact pulled

/-- Looking around leaves the cursor where it is. -/
theorem lookahead?_pulled (k : Int) (s : TokenStream σ) : Pulled s.start (s.lookahead? k).2 := by
  unfold lookahead?
  extract_lets here position
  split
  · exact .refl here
  split
  · split
    · exact .refl here
    · have pulled := backward_pulled k.natAbs position here
      split <;> rename_i eq <;> rw [eq] at pulled <;> exact pulled
  · exact forward_pulled (k.natAbs - 1) position here

theorem lookahead?_passes (k : Int) (s : TokenStream σ) : Passes s (s.lookahead? k).2 [] :=
  (start_passes s).trans (lookahead?_pulled k s).passes

theorem lookahead?_one (s : TokenStream σ) :
    s.lookahead? 1 = (s.start.tokens[s.start.index]?, s.start) := by
  rw [lookahead?, if_neg (by decide), if_neg (by decide)]
  rfl

theorem lookahead_passes (k : Int) (s : TokenStream σ) : Passes s (s.lookahead k).2 [] :=
  lookahead?_passes k s

theorem lookahead_fst (k : Int) (s : TokenStream σ) :
    (s.lookahead k).1 = ((s.lookahead? k).1.map Token.type).getD Symbol.invalid := rfl

theorem lookahead_one (h : s.start.tokens[s.start.index]? = some t) :
    s.lookahead 1 = (t.type, s.start) := by
  simp [lookahead, lookahead?_one, h]

theorem start_lookahead_one (h : s.start.tokens[s.start.index]? = some t) :
    s.start.lookahead 1 = (t.type, s.start) := by
  simpa using lookahead_one (s := s.start) (t := t) (by rwa [start_start])

@[simp] theorem consume_start (s : TokenStream σ) : s.start.consume = s.consume := by
  simp only [consume, start_start]

theorem consume_leads (s : TokenStream σ) : Leads s s.consume := by
  unfold consume
  extract_lets here position
  have looked := ((start_passes s).trans (lookahead_passes 1 here)).toLeads
  obtain ⟨symbol, seen, eq⟩ : ∃ symbol seen, here.lookahead 1 = (symbol, seen) := ⟨_, _, rfl⟩
  rw [eq] at looked ⊢
  have pulled := (sync_spec (position + 1) seen).1
  simp only
  split
  case isTrue => exact looked
  case isFalse =>
      split <;> rename_i next eq <;> rw [eq] at pulled
      · exact looked.trans (pulled.toLeads.trans (onward_leads (position + 1) next))
      · exact looked.trans pulled.toLeads

theorem consume_eof (h : s.start.tokens[s.start.index]? = some t) (eof : t.isEof = true) :
    s.consume = s.start := by
  have type : t.type = Symbol.eof := by simpa [Token.isEof] using eof
  simp [consume, start_lookahead_one h, type]

/-- The cursor goes on behind the token that it is at. -/
theorem consume_next (placed : s.Placed) (h : s.start.tokens[s.start.index]? = some t)
    (more : t.isEof = false) :
    (s.start.sync (s.start.index + 1)).1 = true ∧
      s.consume = (s.start.sync (s.start.index + 1)).2.onward (s.start.index + 1) := by
  have type : t.type ≠ Symbol.eof := by simpa [Token.isEof] using more
  obtain ⟨found, -⟩ := sync_next ((start_passes s).placed placed) h more
  refine ⟨found, ?_⟩
  unfold consume
  simp only [start_lookahead_one h, type, if_false]
  have next : s.start.sync (s.start.index + 1) = (true, (s.start.sync (s.start.index + 1)).2) :=
    Prod.ext found rfl
  rw [show s.start.position.getD 0 = s.start.index from rfl, next]
  rfl

omit [TokenSource σ] in
theorem between_one (get : s.tokens[i]? = some t) (accepted : s.accepts t = true)
    (more : t.isEof = false) : s.between i (i + 1) = [t] := by
  have shown : (t.channel == s.channel) = true := by simpa [accepts, more] using accepted
  obtain ⟨inside, rfl⟩ := Array.getElem?_eq_some_iff.1 get
  rw [between, List.drop_take, Nat.add_sub_cancel_left, List.drop_eq_getElem_cons (by simpa)]
  simpa using shown

/-- Consuming passes the token under the cursor. -/
theorem consume_passes (h : s.start.tokens[s.start.index]? = some t) (more : t.isEof = false) :
    Passes s s.consume [t] where
  toLeads := consume_leads s
  moves sound := by
    have started := start_passes s
    have sound' := started.sound sound
    obtain ⟨found, same⟩ := consume_next sound.toPlaced h more
    obtain ⟨pulled, reached, -⟩ := sync_spec (s.start.index + 1) s.start
    have inside := reached.1 found
    obtain ⟨u, get, accepted⟩ := sound'.stands (start_position s)
    obtain rfl : t = u := Option.some.inj (h.symm.trans get)
    have all := started.trans <| onward_passes (i := s.start.index + 1) pulled.toLeads
      (fun _ => by rw [sync_of_lt inside]) (fun _ => ⟨Nat.le_succ _, Nat.le_of_lt inside⟩) [t]
      (fun _ => between_one (pulled.get h) (by rwa [pulled.accepts]) more)
    rw [same]
    exact all.moves sound

theorem seek_eq_onward (i : Nat) (s : TokenStream σ) : s.seek i = s.start.onward i := rfl

theorem seek_leads (i : Nat) (s : TokenStream σ) : Leads s (s.seek i) :=
  (start_passes s).toLeads.trans (onward_leads i s.start)

/-- Going back to where the stream was used from. -/
theorem seek_back (h : Leads s s') : Passes s (s'.seek s.index) [] := by
  have led := h.trans (start_passes s').toLeads
  rw [seek_eq_onward]
  refine onward_passes led (fun placed => ?_) (fun sound => ?_) _ (fun _ => between_self _ _)
  · cases here : s.position with
    | none =>
        rw [index, here, Option.getD_none]
        exact sync_zero (led.placed placed)
    | some i =>
        rw [index, here, Option.getD_some,
          sync_of_lt (Nat.lt_of_lt_of_le (placed.inside here) led.size_le)]
  · exact ⟨Nat.le_refl _, Nat.le_trans sound.index_le led.size_le⟩

/-- Marks do not matter. -/
theorem passes_of_marks (s : TokenStream σ) (marks : Nat) : Passes s { s with marks } [] where
  get := id
  channel := rfl
  ahead := .refl s
  placed h := ⟨h.place, h.last, h.ended, h.inside⟩
  sound h := ⟨⟨h.place, h.last, h.ended, h.inside⟩, h.prompt, h.stands⟩
  moves _ := ⟨Nat.le_refl _, between_self s _⟩

theorem textRange_passes (i j : Nat) (s : TokenStream σ) : Passes s (s.textRange i j).2 [] := by
  have started := start_passes s
  unfold textRange
  extract_lets here
  split
  · exact started
  · exact started.trans (sync_spec (j - 1) here).1.passes

/-- Where the cursor stands, it stays until a token is passed. -/
theorem Passes.stays (h : Passes s s' []) (sound : s.Sound) (here : s.position = some i) :
    s'.start.index = i := by
  have all := h.trans (start_passes s')
  have sound' := all.sound sound
  obtain ⟨le, none⟩ := all.moves sound
  rw [index, here, Option.getD_some] at le none
  refine Nat.le_antisymm (Nat.le_of_not_lt fun lt => ?_) le
  obtain ⟨t, get, accepted⟩ := sound.stands here
  have get' := all.get get
  have inside := sound'.inside (start_position s')
  cases eof : t.isEof with
  | true =>
      have := (sound'.last get' eof).2
      omega
  | false =>
      have one := between_one get' (by rwa [all.accepts]) eof
      rw [← between_append _ (Nat.le_succ i) (Nat.succ_le_of_lt lt), one] at none
      simp at none

/-- A place is the next one behind `i` where the cursor may stand. -/
def NextShown (s : TokenStream σ) (i j : Nat) (t : Token) : Prop :=
  i < j ∧ s.tokens[j]? = some t ∧ s.accepts t = true ∧
    ∀ m x, i < m → m < j → s.tokens[m]? = some x → s.accepts x = false

namespace NextShown

variable {j j' : Nat} {t' : Token}

omit [TokenSource σ] in
theorem unique (h : s.NextShown i j t) (h' : s.NextShown i j' t') : t = t' := by
  obtain ⟨lt, get, accepted, hidden⟩ := h
  obtain ⟨lt', get', accepted', hidden'⟩ := h'
  rcases Nat.lt_trichotomy j j' with before | rfl | behind
  · exact absurd accepted (by simp [hidden' j t lt before get])
  · exact Option.some.inj (get.symm.trans get')
  · exact absurd accepted' (by simp [hidden j' t' lt' behind get'])

theorem leads (h : Leads s s') (sound : s.NextShown i j t) : s'.NextShown i j t := by
  obtain ⟨lt, get, accepted, hidden⟩ := sound
  refine ⟨lt, h.get get, by rwa [h.accepts], fun m x low high there => ?_⟩
  have inside : m < s.tokens.size := Nat.lt_trans high (Array.getElem?_eq_some_iff.1 get).1
  have old := h.get (Array.getElem?_eq_getElem inside)
  rw [h.accepts]
  exact hidden m x low high (by rw [Array.getElem?_eq_getElem inside, ← old, there])

/-- The search for the next place finds it. -/
theorem nextOnChannel (sound : s.Sound) (reached : (s.sync (i + 1)).1 = true) :
    ∃ t, (s.nextOnChannel (i + 1)).2.NextShown i (s.nextOnChannel (i + 1)).1 t := by
  obtain ⟨pulled, -, stands⟩ := nextOnChannel_spec (i + 1) s
  obtain ⟨⟨t, get, accepted⟩, hidden⟩ := stands sound
  refine ⟨t, Nat.lt_of_succ_le (le_nextOnChannel sound.toPlaced reached), get, ?_, ?_⟩
  · rwa [pulled.accepts]
  · intro m x low high there
    rw [pulled.accepts]
    exact hidden m x low high there

omit [TokenSource σ] in
theorem onward_iff (position : Option Nat) :
    ({ s with position }).NextShown i j t ↔ s.NextShown i j t := Iff.rfl

end NextShown

/-- The next place behind the token under the cursor is where the cursor goes, and where the
lookahead looks. -/
theorem consume_lookahead (sound : s.Sound) (get : s.start.tokens[s.start.index]? = some t)
    (more : t.isEof = false) :
    ∃ j t', (s.consume.NextShown s.start.index j t' ∧ (s.consume.lookahead? 1).1 = some t') ∧
      (s.lookahead? 2).2.NextShown s.start.index j t' ∧ (s.lookahead? 2).1 = some t' := by
  obtain ⟨found, same⟩ := consume_next sound.toPlaced get more
  obtain ⟨pulled, reached, -⟩ := sync_spec (s.start.index + 1) s.start
  obtain ⟨next, eq⟩ : ∃ next, s.start.sync (s.start.index + 1) = (true, next) :=
    ⟨_, Prod.ext found rfl⟩
  have two : s.lookahead? 2 = ((next.nextOnChannel (s.start.index + 1)).2.tokens[
      (next.nextOnChannel (s.start.index + 1)).1]?, (next.nextOnChannel (s.start.index + 1)).2) := by
    rw [lookahead?, if_neg (by decide), if_neg (by decide)]
    simp only [start_position, Option.getD_some, Int.reduceAbs, Nat.add_one_sub_one, forward, eq]
  rw [eq] at pulled reached same
  obtain ⟨t', shown⟩ := NextShown.nextOnChannel
    (pulled.sound ((start_passes s).sound sound)) (by rw [sync_of_lt (reached.1 rfl)])
  refine ⟨(next.nextOnChannel (s.start.index + 1)).1, t', ⟨?_, ?_⟩, ?_, ?_⟩
  · rw [same, onward, NextShown.onward_iff]
    exact shown
  · rw [lookahead?_one, same, start_of_position rfl]
    exact shown.2.1
  · rw [two]
    exact shown
  · rw [two]
    exact shown.2.1

theorem fetch_ended (n : Nat) (ended : s.ended = true) : s.fetch n = (0, s) := by
  cases n <;> simp [fetch, ended]

/-- The end of the input is followed by itself. -/
theorem lookahead_two_eof (sound : s.Sound) (get : s.start.tokens[s.start.index]? = some t)
    (eof : t.isEof = true) : (s.lookahead? 2).1 = some t := by
  obtain ⟨ended, last⟩ := ((start_passes s).sound sound).last get eof
  have stuck : s.start.sync (s.start.index + 1) = (false, s.start) := by
    simp [sync, last, fetch_ended _ ended]
  rw [lookahead?, if_neg (by decide), if_neg (by decide)]
  simp only [start_position, Option.getD_some, Int.reduceAbs, Nat.add_one_sub_one, forward, stuck]
  exact get

/-- The second token of the lookahead is the one under the cursor once the first has been
consumed. -/
theorem consume_lookahead_two (sound : s.Sound) (later : Passes (s.lookahead? 2).2 s' []) :
    (s'.consume.lookahead? 1).1 = (s.lookahead? 2).1 := by
  have looked := lookahead?_pulled 2 s
  have sound₂ := (lookahead?_passes 2 s).sound sound
  obtain ⟨t, get⟩ := sound.toPlaced.current
  have stays := later.stays sound₂ (looked.position.trans (start_position s))
  have get' : s'.start.tokens[s'.start.index]? = some t := by
    rw [stays]
    exact (later.trans (start_passes s')).get (looked.get get)
  cases eof : t.isEof with
  | true =>
      rw [lookahead_two_eof sound get eof, consume_eof get' eof, lookahead?_one, start_start, get']
  | false =>
      obtain ⟨_, two, -, shown, eq⟩ := consume_lookahead sound get eof
      obtain ⟨_, next, ⟨shown', eq'⟩, -⟩ := consume_lookahead (later.sound sound₂) get' eof
      have leads : (s.lookahead? 2).2.Leads s'.consume := later.toLeads.trans (consume_leads s')
      rw [eq, eq', NextShown.unique shown' (stays ▸ shown.leads leads)]

section Begun

variable {passed : List Token}

/-- The stream has been read from. -/
structure Begun (s : TokenStream σ) : Prop where
  sound : s.Sound
  position : ∃ i, s.position = some i

theorem Sound.begun_start (h : s.Sound) : s.start.Begun :=
  ⟨s.start_passes.sound h, _, s.start_position⟩

theorem Begun.pulled (h : s.Begun) (pulled : Pulled s s') : s'.Begun where
  sound := pulled.sound h.sound
  position := by
    rw [pulled.position]
    exact h.position

theorem Sound.begun_lookahead? (h : s.Sound) (k : Int) : (s.lookahead? k).2.Begun :=
  h.begun_start.pulled (s.lookahead?_pulled k)

theorem Sound.begun_textRange (h : s.Sound) (i j : Nat) : (s.textRange i j).2.Begun := by
  unfold textRange
  extract_lets here
  split
  · exact h.begun_start
  · exact h.begun_start.pulled (sync_spec (j - 1) here).1

theorem Begun.start_eq (h : s.Begun) : s.start = s := by
  obtain ⟨i, here⟩ := h.position
  exact start_of_position here

/-- Where nothing is passed, the token under the cursor stays the same. -/
theorem Begun.current_eq (h : s.Begun) (passes : s.Passes s' []) :
    (s'.lookahead? 1).1 = (s.lookahead? 1).1 := by
  obtain ⟨i, here⟩ := h.position
  have stays : s'.start.index = s.start.index := by
    rw [h.start_eq, passes.stays h.sound here, index, here, Option.getD_some]
  obtain ⟨t, get⟩ := h.sound.toPlaced.current
  rw [lookahead?_one, lookahead?_one, stays, get]
  refine (passes.trans s'.start_passes).get ?_
  rwa [h.start_eq] at get ⊢

/-- The tokens of the channel before the cursor. -/
def before (s : TokenStream σ) : List Token :=
  s.between 0 s.index

theorem Passes.before (h : s.Passes s' passed) (sound : s.Sound) :
    s'.before = s.before ++ passed := by
  obtain ⟨le, rfl⟩ := h.moves sound
  rw [TokenStream.before, TokenStream.before, ← between_append s' (Nat.zero_le _) le,
    h.between sound.index_le]

omit [TokenSource σ] in
/-- One more place: its token, if it is on the channel. -/
theorem getLast?_between (get : s.tokens[i]? = some t) (more : t.isEof = false) :
    (s.between 0 (i + 1)).getLast? =
      if s.accepts t then some t else (s.between 0 i).getLast? := by
  rw [← between_append s (Nat.zero_le i) (Nat.le_succ i)]
  split
  case isTrue accepted => rw [between_one get accepted more, List.getLast?_concat]
  case isFalse hidden =>
      have none : s.between i (i + 1) = [] := by
        refine between_eq_nil fun m u le lt there => ?_
        obtain rfl : m = i := by omega
        rw [get] at there
        cases there
        exact Bool.eq_false_iff.2 hidden
      rw [none, List.append_nil]

omit [TokenSource σ] in
/-- The end of the input is the last token. -/
theorem Placed.isEof_eq_false (h : s.Placed) (get : s.tokens[i]? = some t)
    (inside : i + 1 < s.tokens.size) : t.isEof = false := by
  apply Bool.eq_false_iff.2
  intro eof
  have last := (h.last get eof).2
  omega

/-- What has been passed is not under the cursor. -/
theorem Begun.index_ne_of_before (h : s.Begun) {next : Token} (mem : t ∈ s.before)
    (current : (s.lookahead? 1).1 = some next) : t.index ≠ next.index := by
  obtain ⟨place, here⟩ := h.position
  rw [lookahead?_one, h.start_eq] at current
  rw [before, between, List.drop_zero] at mem
  obtain ⟨i, lt, get⟩ := List.mem_iff_getElem.1 (List.mem_of_mem_filter mem)
  have lt : i < s.index := by
    rw [List.length_take] at lt
    omega
  have passed : s.tokens[i]? = some t := by
    rw [List.getElem_take] at get
    rw [← get, Array.getElem_toList, Array.getElem?_eq_getElem]
  rw [h.sound.place passed, h.sound.place current]
  simp [Nat.ne_of_lt lt]

omit [TokenSource σ] in
/-- The last place up to `i` where the cursor may stand holds the last token of the channel. -/
theorem Placed.lastAccepted?_eq (h : s.Placed) (inside : i + 1 < s.tokens.size) :
    (s.lastAccepted? i).bind (s.tokens[·]?) = (s.between 0 (i + 1)).getLast? := by
  have here := Array.getElem?_eq_getElem (Nat.lt_of_succ_lt inside)
  rw [getLast?_between here (h.isEof_eq_false here inside)]
  induction i with
  | zero =>
      rw [lastAccepted?, here, Option.map_some, Option.getD_some, between_self]
      split
      · exact here
      · rfl
  | succ i ih =>
      have inside := Nat.lt_of_succ_lt inside
      have previous := Array.getElem?_eq_getElem (Nat.lt_of_succ_lt inside)
      rw [lastAccepted?, here, Option.map_some, Option.getD_some]
      split
      · exact here
      · rw [ih inside previous, getLast?_between previous (h.isEof_eq_false previous inside)]

/-- Looking back shows the last token that has been passed. -/
theorem Begun.lookahead?_back (h : s.Begun) : (s.lookahead? (-1)).1 = s.before.getLast? := by
  obtain ⟨place, here⟩ := h.position
  have inside := h.sound.inside here
  have index : s.index = place := by rw [TokenStream.index, here, Option.getD_some]
  rw [before, index, lookahead?, h.start_eq, here, if_neg (by decide), if_pos (by decide)]
  cases place with
  | zero => simp [between_self]
  | succ place =>
      have found : s.sync place = (true, s) := sync_of_lt (Nat.lt_of_succ_lt inside)
      have least : min place (s.tokens.size - 1) = place := by omega
      have some : s.tokens.isEmpty = false := by
        rw [Array.isEmpty_eq_false_iff, Ne, ← Array.size_eq_zero_iff]
        omega
      have step : s.previousOnChannel place = (s.lastAccepted? place, s) := by
        simp [previousOnChannel, found, least, some]
      rw [← h.sound.toPlaced.lastAccepted?_eq inside]
      simp only [Option.getD_some, Int.natAbs_neg, Int.natAbs_one, backward, step]
      cases s.lastAccepted? place with
      | none => simp
      | some j => simp

end Begun

end TokenStream

end AdaptiveLL
