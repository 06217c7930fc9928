import AdaptiveLL.Proofs.Stream.TokenStream
/-!
Prefetched tokens cannot be seen. Streams that differ only in how many tokens have been pulled
give the same answers, whatever is done with them.
-/
namespace AdaptiveLL

namespace TokenStream

variable {σ : Type} [TokenSource σ] {s s' : TokenStream σ} {i j : Nat}

@[simp] theorem marks_onward (i : Nat) (s : TokenStream σ) : (s.onward i).marks = s.marks :=
  (nextOnChannel_spec i s).1.marks

@[simp] theorem marks_start (s : TokenStream σ) : s.start.marks = s.marks := by
  cases h : s.position with
  | some i => rw [start_of_position h]
  | none =>
      rw [start_of_none h, marks_onward]
      exact (sync_spec 0 s).1.marks

@[simp] theorem marks_seek (i : Nat) (s : TokenStream σ) : (s.seek i).marks = s.marks := by
  rw [seek_eq_onward, marks_onward, marks_start]

@[simp] theorem marks_lookahead? (k : Int) (s : TokenStream σ) :
    (s.lookahead? k).2.marks = s.marks :=
  (lookahead?_pulled k s).marks.trans (marks_start s)

@[simp] theorem marks_lookahead (k : Int) (s : TokenStream σ) :
    (s.lookahead k).2.marks = s.marks :=
  marks_lookahead? k s

@[simp] theorem marks_consume (s : TokenStream σ) : s.consume.marks = s.marks := by
  unfold consume
  extract_lets here position
  have seen : (here.lookahead 1).2.marks = s.marks := by simp [here]
  obtain ⟨symbol, next, eq⟩ : ∃ symbol next, here.lookahead 1 = (symbol, next) := ⟨_, _, rfl⟩
  rw [eq] at seen ⊢
  have pulled := (sync_spec (position + 1) next).1.marks
  simp only
  split
  case isTrue => exact seen
  case isFalse =>
      split <;> rename_i last eq <;> rw [eq] at pulled
      · exact ((marks_onward (position + 1) last).trans pulled).trans seen
      · exact pulled.trans seen

@[simp] theorem marks_textRange (i j : Nat) (s : TokenStream σ) :
    (s.textRange i j).2.marks = s.marks := by
  unfold textRange
  extract_lets here
  split
  · exact marks_start s
  · exact (sync_spec (j - 1) here).1.marks.trans (marks_start s)

theorem started_lookahead? (k : Int) (i : TokenStream σ) : (i.lookahead? k).2.position.isSome := by
  rw [(lookahead?_pulled k i).position, start_position]
  rfl

theorem started_textRange (j k : Nat) (i : TokenStream σ) : (i.textRange j k).2.position.isSome := by
  unfold textRange
  extract_lets here
  have started : here.position.isSome := by
    rw [start_position]
    rfl
  split
  · exact started
  · rwa [← (sync_spec (k - 1) here).1.position] at started

theorem started_consume (i : TokenStream σ) : i.consume.position.isSome := by
  unfold consume
  extract_lets here position
  have seen : (here.lookahead 1).2.position.isSome := started_lookahead? 1 here
  obtain ⟨symbol, next, eq⟩ : ∃ symbol next, here.lookahead 1 = (symbol, next) := ⟨_, _, rfl⟩
  rw [eq] at seen ⊢
  have pulled := (sync_spec (position + 1) next).1.position
  simp only
  split
  case isTrue => exact seen
  case isFalse =>
      split <;> rename_i last eq <;> rw [eq] at pulled
      · rfl
      · exact pulled ▸ seen

/-- Looking forward stays among the tokens. -/
theorem forward_inside (h : s.Placed) (k : Nat) (inside : i < s.tokens.size) :
    (s.forward k i).1 < (s.forward k i).2.tokens.size := by
  induction k generalizing s i with
  | zero => exact inside
  | succ k ih =>
      have pulled := (sync_spec (i + 1) s).1
      unfold forward
      split <;> rename_i next eq <;> rw [eq] at pulled
      · obtain ⟨pulled', inside', -⟩ := nextOnChannel_spec (i + 1) next
        have placed := pulled.placed h
        exact ih (pulled'.placed placed) (inside' placed)
      · exact ih (pulled.placed h) (Nat.lt_of_lt_of_le inside pulled.size_le)

omit [TokenSource σ] in
/-- A search backwards ends at the place where it begins, or before. -/
theorem lastAccepted?_le (h : s.lastAccepted? i = some j) : j ≤ i := by
  induction i with
  | zero =>
      unfold lastAccepted? at h
      split at h <;> simp_all
  | succ i ih =>
      unfold lastAccepted? at h
      split at h
      · exact Nat.le_of_eq (Option.some.inj h).symm
      · exact Nat.le_succ_of_le (ih h)

theorem previousOnChannel_inside (h : (s.previousOnChannel i).1 = some j) :
    j < (s.previousOnChannel i).2.tokens.size := by
  have sized : (s.previousOnChannel i).2 = (s.sync i).2 := rfl
  rw [sized]
  unfold previousOnChannel at h
  simp only at h
  split at h
  case isTrue => cases h
  case isFalse some =>
      have le := lastAccepted?_le h
      have pos : 0 < (s.sync i).2.tokens.size := by
        simpa [Nat.pos_iff_ne_zero, Array.size_eq_zero_iff] using some
      omega

/-- So does looking back. -/
theorem backward_inside (k : Nat) (inside : i < s.tokens.size)
    (h : (s.backward k i).1 = some j) : j < (s.backward k i).2.tokens.size := by
  induction k, i, s using backward.induct with
  | case1 i s =>
      obtain rfl : i = j := Option.some.inj h
      exact inside
  | case2 => cases h
  | case3 k i s place next eq ih =>
      have inside' : place < next.tokens.size := by
        have found := previousOnChannel_inside (s := s) (i := i) (j := place)
        rw [eq] at found
        exact found rfl
      rw [backward, eq] at h ⊢
      exact ih inside' h
  | case4 k i s next eq =>
      rw [backward, eq] at h
      cases h

/-- Both answers are the same, and one stream is still ahead of the other. -/
def Agree {α : Type} (x x' : α × TokenStream σ) : Prop :=
  x.1 = x'.1 ∧ Ahead x.2 x'.2

namespace Ahead

theorem pulled (h : Ahead s s') : Pulled s s' := by
  induction h with
  | refl s => exact .refl s
  | pull more _ ih => exact (Pulled.pull more).trans ih

theorem name [TokenSource.Steady σ] (h : Ahead s s') :
    TokenSource.name s'.source = TokenSource.name s.source := by
  induction h with
  | refl s => rfl
  | pull _ _ ih => exact ih.trans (TokenSource.Steady.name_next _)

/-- Behind the end of the input nothing is pulled. -/
theorem eq_of_ended (h : Ahead s s') (ended : s.ended = true) : s' = s := by
  cases h with
  | refl => rfl
  | pull more => simp [ended] at more

theorem withPosition (h : Ahead s s') (position : Option Nat) :
    Ahead { s with position } { s' with position } := by
  have all := h.moved position s.marks
  rwa [show ({ s' with position, marks := s.marks } : TokenStream σ) = { s' with position } by
    rw [← h.pulled.marks]] at all

theorem withMarks (h : Ahead s s') (marks : Nat) : Ahead { s with marks } { s' with marks } := by
  have all := h.moved s.position marks
  rwa [show ({ s' with position := s.position, marks } : TokenStream σ) = { s' with marks } by
    rw [← h.pulled.position]] at all

theorem tokens_eq (h : Ahead s s') (inside : i < s.tokens.size) : s'.tokens[i]? = s.tokens[i]? := by
  have here := Array.getElem?_eq_getElem inside
  rw [here]
  exact h.pulled.get here

/-- A token that was pulled before is there at once. -/
theorem sync (h : Ahead s s') (i : Nat) : Agree (s.sync i) (s'.sync i) := by
  induction h with
  | refl s => exact ⟨rfl, .refl _⟩
  | @pull s s' more _ ih =>
      rcases Nat.lt_trichotomy i s.tokens.size with inside | rfl | beyond
      · rw [sync_of_lt (by rw [size_pull]; omega)] at ih
        rw [sync_of_lt inside]
        exact ⟨ih.1, .pull more ih.2⟩
      · have one : s.sync s.tokens.size = (true, s.pull) := by
          simp [TokenStream.sync, fetch, more]
        rw [sync_of_lt (by rw [size_pull]; omega)] at ih
        rwa [one]
      · have shift : i - s.tokens.size + 1 = (i - s.pull.tokens.size + 1) + 1 := by
          rw [size_pull]
          omega
        have same : s.sync i = s.pull.sync i := by
          have outside : ¬ i < s.pull.tokens.size := by
            rw [size_pull]
            omega
          unfold TokenStream.sync
          rw [if_neg (by omega), if_neg outside, shift]
          simp only [fetch_succ _ more, Nat.add_le_add_iff_right]
        rwa [same]

theorem shows (h : Ahead s s') (i : Nat) : s'.shows i = s.shows i := by
  induction h with
  | refl => rfl
  | pull _ _ ih => exact ih.trans (shows_pull _ i)

/-- The fuel does not matter, as long as it reaches a place where the cursor may stand. -/
theorem skipFrom {fuel fuel' : Nat} (h : Ahead s s') (placed : s.Placed)
    (inside : i < s.tokens.size) (le : i ≤ j) (lt : j < i + fuel) (lt' : j < i + fuel')
    (shown : s.shows j = true) : Agree (s.skipFrom fuel i) (s'.skipFrom fuel' i) := by
  induction fuel generalizing s s' i fuel' with
  | zero => omega
  | succ fuel ih =>
      cases fuel' with
      | zero => omega
      | succ fuel' =>
          have here := Array.getElem?_eq_getElem inside
          have here' := h.pulled.get here
          cases accepted : s.accepts s.tokens[i] with
          | true =>
              rw [skipFrom_accepted here accepted,
                skipFrom_accepted here' (by rwa [h.pulled.accepts])]
              exact ⟨rfl, h⟩
          | false =>
              have other : i ≠ j := by
                rintro rfl
                rw [shows_of_get here, accepted] at shown
                cases shown
              have accepted' : s'.accepts s.tokens[i] = false := by rwa [h.pulled.accepts]
              obtain ⟨next, eq, pulled, reached, shows, same⟩ :=
                skipFrom_hidden (n := fuel) placed here accepted
              obtain ⟨next', eq', -, -, -, same'⟩ :=
                skipFrom_hidden (n := fuel') (h.pulled.placed placed) here' accepted'
              have onward := h.sync (i + 1)
              rw [eq, eq'] at onward
              rw [same, same']
              exact ih onward.2 (pulled.placed placed) reached (by omega) (by omega) (by omega)
                ((shows j).trans shown)

/-- Tokens of other channels are stepped over alike. -/
theorem nextOnChannel (h : Ahead s s') (sound : s.Sound) (i : Nat) :
    Agree (s.nextOnChannel i) (s'.nextOnChannel i) := by
  obtain ⟨same, ahead⟩ := h.sync i
  obtain ⟨pulled, reached, ended⟩ := sync_spec i s
  obtain ⟨pulled', reached', -⟩ := sync_spec i s'
  unfold TokenStream.nextOnChannel
  generalize s.sync i = found at same ahead pulled reached ended
  generalize s'.sync i = found' at same ahead pulled' reached'
  obtain ⟨ok, next⟩ := found
  obtain ⟨ok', next'⟩ := found'
  obtain rfl : ok = ok' := same
  replace ahead : Ahead next next' := ahead
  cases ok with
  | false =>
      have all : next' = next := ahead.eq_of_ended (ended rfl)
      have beyond : next.tokens.size ≤ i :=
        Nat.le_of_not_lt fun lt => Bool.false_ne_true (reached.2 lt)
      simp [all, beyond, Agree, Ahead.refl]
  | true =>
      have inside : i < next.tokens.size := reached.1 rfl
      have inside' : i < next'.tokens.size := reached'.1 rfl
      have sound' : next.Sound := pulled.sound sound
      obtain ⟨j, le, lt, shown⟩ := sound'.exists_shows inside
      obtain ⟨j', le', lt', shown'⟩ := (ahead.pulled.sound sound').exists_shows inside'
      simp only [Nat.not_le_of_lt inside, Nat.not_le_of_lt inside', if_false]
      rw [ahead.shows] at shown'
      -- The nearer one of the two places is within both bounds.
      rcases Nat.le_total j j' with first | first
      · exact ahead.skipFrom sound'.toPlaced inside le lt (by omega) shown
      · exact ahead.skipFrom sound'.toPlaced inside le' (by omega) lt' shown'

theorem onward (h : Ahead s s') (sound : s.Sound) (i : Nat) :
    Ahead (s.onward i) (s'.onward i) := by
  obtain ⟨same, ahead⟩ := h.nextOnChannel sound i
  rw [TokenStream.onward, TokenStream.onward, ← same]
  exact ahead.withPosition _

theorem start (h : Ahead s s') (sound : s.Sound) : Ahead s.start s'.start := by
  have position := h.pulled.position
  cases here : s.position with
  | some i => rwa [start_of_position here, start_of_position (position.trans here)]
  | none =>
      rw [start_of_none here, start_of_none (position.trans here)]
      exact (h.sync 0).2.onward ((sync_spec 0 s).1.sound sound) 0

theorem forward (h : Ahead s s') (sound : s.Sound) (k i : Nat) :
    Agree (s.forward k i) (s'.forward k i) := by
  induction k generalizing s s' i with
  | zero => exact ⟨rfl, h⟩
  | succ k ih =>
      obtain ⟨same, ahead⟩ := h.sync (i + 1)
      have sound' := (sync_spec (i + 1) s).1.sound sound
      unfold TokenStream.forward
      generalize s.sync (i + 1) = found at same ahead sound'
      generalize s'.sync (i + 1) = found' at same ahead
      obtain ⟨ok, next⟩ := found
      obtain ⟨ok', next'⟩ := found'
      obtain rfl : ok = ok' := same
      cases ok with
      | false => exact ih ahead sound' i
      | true =>
          obtain ⟨place, later⟩ := ahead.nextOnChannel sound' (i + 1)
          have sound'' := (nextOnChannel_spec (i + 1) next).1.sound sound'
          simp only [← place]
          exact ih later sound'' _

/-- Looking back sees the places up to the one that it begins at. -/
theorem lastAccepted? (h : Ahead s s') (inside : i < s.tokens.size) :
    s'.lastAccepted? i = s.lastAccepted? i := by
  have accepts : s'.accepts = s.accepts := funext h.pulled.accepts
  induction i with
  | zero => simp only [TokenStream.lastAccepted?, h.tokens_eq inside, accepts]
  | succ i ih =>
      simp only [TokenStream.lastAccepted?, h.tokens_eq inside, accepts]
      rw [ih (by omega)]

/-- A search backwards finds the same place. -/
theorem previousOnChannel (h : Ahead s s') (i : Nat) :
    Agree (s.previousOnChannel i) (s'.previousOnChannel i) := by
  obtain ⟨-, ahead⟩ := h.sync i
  obtain ⟨-, reached, ended⟩ := sync_spec i s
  refine ⟨?_, ahead⟩
  unfold TokenStream.previousOnChannel
  cases found : (s.sync i).1 with
  | false => simp [ahead.eq_of_ended (ended found)]
  | true =>
      have inside := reached.1 found
      have inside' := Nat.lt_of_lt_of_le inside ahead.pulled.size_le
      have least : min i ((s.sync i).2.tokens.size - 1) = i := by omega
      have least' : min i ((s'.sync i).2.tokens.size - 1) = i := by omega
      have some : (s.sync i).2.tokens.isEmpty = false := by
        simp only [Array.isEmpty_eq_false_iff, ne_eq, ← Array.size_eq_zero_iff]
        omega
      have some' : (s'.sync i).2.tokens.isEmpty = false := by
        simp only [Array.isEmpty_eq_false_iff, ne_eq, ← Array.size_eq_zero_iff]
        omega
      simp only [some, some', least, least', Bool.false_eq_true, if_false]
      exact (ahead.lastAccepted? inside).symm

theorem backward (h : Ahead s s') (k i : Nat) : Agree (s.backward k i) (s'.backward k i) := by
  induction k generalizing s s' i with
  | zero => exact ⟨rfl, h⟩
  | succ k ih =>
      cases i with
      | zero => exact ⟨rfl, h⟩
      | succ i =>
          obtain ⟨same, ahead⟩ := h.previousOnChannel i
          unfold TokenStream.backward
          generalize s.previousOnChannel i = found at same ahead
          generalize s'.previousOnChannel i = found' at same ahead
          obtain ⟨place, next⟩ := found
          obtain ⟨place', next'⟩ := found'
          obtain rfl : place = place' := same
          cases place with
          | none => exact ⟨rfl, ahead⟩
          | some j => exact ih ahead j

/-- Two places that agree hold the same token. -/
theorem token {place place' : Nat} (h : Ahead s s') (same : place = place')
    (inside : place < s.tokens.size) : Agree (s.tokens[place]?, s) (s'.tokens[place']?, s') := by
  subst same
  exact ⟨(h.tokens_eq inside).symm, h⟩

theorem lookahead? (h : Ahead s s') (sound : s.Sound) (k : Int) :
    Agree (s.lookahead? k) (s'.lookahead? k) := by
  have started := h.start sound
  have sound' := (start_passes s).sound sound
  have here := started.pulled.position
  have inside : s.start.index < s.start.tokens.size := sound'.inside (start_position s)
  unfold TokenStream.lookahead?
  simp only [here]
  rw [← TokenStream.index]
  split
  · exact ⟨rfl, started⟩
  split
  · split
    · exact ⟨rfl, started⟩
    · obtain ⟨same, ahead⟩ := started.backward k.natAbs s.start.index
      have found := fun j => backward_inside (j := j) k.natAbs inside
      generalize s.start.backward k.natAbs s.start.index = x at same ahead found
      generalize s'.start.backward k.natAbs s.start.index = x' at same ahead
      obtain ⟨place, next⟩ := x
      obtain ⟨place', next'⟩ := x'
      obtain rfl : place = place' := same
      cases place with
      | none => exact ⟨rfl, ahead⟩
      | some j => exact ahead.token rfl (found j rfl)
  · obtain ⟨same, ahead⟩ := started.forward sound' (k.natAbs - 1) s.start.index
    exact ahead.token same (forward_inside sound'.toPlaced _ inside)

theorem lookahead (h : Ahead s s') (sound : s.Sound) (k : Int) :
    Agree (s.lookahead k) (s'.lookahead k) := by
  obtain ⟨same, ahead⟩ := h.lookahead? sound k
  exact ⟨congrArg (fun t => (t.map Token.type).getD Symbol.invalid) same, ahead⟩

theorem seek (h : Ahead s s') (sound : s.Sound) (i : Nat) : Ahead (s.seek i) (s'.seek i) :=
  (h.start sound).onward ((start_passes s).sound sound) i

/-- The cursor moves on alike. -/
theorem consume (h : Ahead s s') (sound : s.Sound) : Ahead s.consume s'.consume := by
  have started := h.start sound
  have sound' := (start_passes s).sound sound
  obtain ⟨t, get⟩ := sound.toPlaced.current
  have get' : s'.start.tokens[s'.start.index]? = some t := by
    rw [started.pulled.index]
    exact started.pulled.get get
  cases eof : t.isEof with
  | true => rwa [consume_eof get eof, consume_eof get' eof]
  | false =>
      have placed' : s'.Placed := (h.pulled.sound sound).toPlaced
      rw [(consume_next sound.toPlaced get eof).2, (consume_next placed' get' eof).2,
        started.pulled.index]
      exact (started.sync _).2.onward ((sync_spec _ _).1.sound sound') _

theorem textRange (h : Ahead s s') (sound : s.Sound) (i j : Nat) :
    Agree (s.textRange i j) (s'.textRange i j) := by
  have started := h.start sound
  obtain ⟨same, ahead⟩ := started.sync (j - 1)
  obtain ⟨-, reached, ended⟩ := sync_spec (j - 1) s.start
  unfold TokenStream.textRange
  extract_lets here here'
  split
  case isTrue => exact ⟨rfl, started⟩
  case isFalse some =>
      refine ⟨?_, ahead⟩
      cases found : (s.start.sync (j - 1)).1 with
      | false => simp only [here, here', ahead.eq_of_ended (ended found)]
      | true =>
          have inside := reached.1 found
          have range : (s'.start.sync (j - 1)).2.tokens.extract i j =
              (s.start.sync (j - 1)).2.tokens.extract i j := by
            have le := ahead.pulled.size_le
            refine Array.ext (by simp only [Array.size_extract]; omega) fun k lt lt' => ?_
            have at_k := ahead.tokens_eq (i := i + k) (by simp only [Array.size_extract] at lt'; omega)
            rw [Array.getElem?_eq_getElem, Array.getElem?_eq_getElem] at at_k
            simpa using at_k
          simp only [here, here', range]

end Ahead

/-- What can be done with a stream. -/
inductive Use where
  | look (k : Int)
  | consume
  | seek (place : Nat)
  | mark
  | release
  deriving DecidableEq, Repr

/-- Use a stream; only looking has an answer. -/
def use (s : TokenStream σ) : Use → Option Token × TokenStream σ
  | .look k => s.lookahead? k
  | .consume => (none, s.consume)
  | .seek place => (none, s.seek place)
  | .mark => (none, s.mark)
  | .release => (none, s.release)

/-- The answers to one use after the other. -/
def answers (s : TokenStream σ) : List Use → List (Option Token)
  | [] => []
  | u :: rest => (s.use u).1 :: (s.use u).2.answers rest

theorem use_leads (u : Use) (s : TokenStream σ) : Leads s (s.use u).2 := by
  cases u with
  | look k => exact (lookahead?_passes k s).toLeads
  | consume => exact consume_leads s
  | seek place => exact seek_leads place s
  | mark => exact (passes_of_marks s _).toLeads
  | release => exact (passes_of_marks s _).toLeads

/-- What a stream answers does not depend on how much was pulled before it was asked. -/
theorem Ahead.use (h : Ahead s s') (sound : s.Sound) (u : Use) : Agree (s.use u) (s'.use u) := by
  cases u with
  | look k => exact h.lookahead? sound k
  | consume => exact ⟨rfl, h.consume sound⟩
  | seek place => exact ⟨rfl, h.seek sound place⟩
  | mark =>
      refine ⟨rfl, ?_⟩
      change Ahead { s with marks := s.marks + 1 } { s' with marks := s'.marks + 1 }
      rw [h.pulled.marks]
      exact h.withMarks (s.marks + 1)
  | release =>
      refine ⟨rfl, ?_⟩
      change Ahead { s with marks := s.marks - 1 } { s' with marks := s'.marks - 1 }
      rw [h.pulled.marks]
      exact h.withMarks (s.marks - 1)

/-- Streams in use that differ at most in how many tokens have been pulled. -/
structure Even (i i' : TokenStream σ) : Prop where
  ahead : i.Ahead i'
  sound : i.Sound
  started : i.position.isSome

namespace Even

variable {i i' : TokenStream σ}

theorem index (even : i.Even i') : i'.index = i.index :=
  even.ahead.pulled.index

theorem inside (even : i.Even i') : i.index < i.tokens.size := by
  obtain ⟨place, here⟩ := Option.isSome_iff_exists.1 even.started
  rw [TokenStream.index, here]
  exact even.sound.inside here

/-- Whatever is done with the streams. -/
theorem use (even : i.Even i') (u : Use) : Even (i.use u).2 (i'.use u).2 where
  ahead := (even.ahead.use even.sound u).2
  sound := (use_leads u i).sound even.sound
  started := by
    cases u with
    | look k => exact started_lookahead? k i
    | consume => exact started_consume i
    | seek place => rfl
    | mark => exact even.started
    | release => exact even.started

end Even

/-- Streams that are even as soon as both of them have been looked at. -/
def Starts (i i' : TokenStream σ) : Prop :=
  i.start.Ahead i'.start ∧ i.Sound

theorem Even.starts {i i' : TokenStream σ} (even : i.Even i') : i.Starts i' :=
  ⟨even.ahead.start even.sound, even.sound⟩

/-- The first look at the streams. -/
theorem Starts.lookahead? {i i' : TokenStream σ} (h : i.Starts i') (k : Int) :
    (i'.lookahead? k).1 = (i.lookahead? k).1 ∧ Even (i.lookahead? k).2 (i'.lookahead? k).2 := by
  obtain ⟨ahead, sound⟩ := h
  have first (i : TokenStream σ) : i.lookahead? k = i.start.lookahead? k := by
    rw [TokenStream.lookahead?, TokenStream.lookahead?, start_start]
  obtain ⟨same, ahead⟩ := ahead.lookahead? ((start_passes i).sound sound) k
  rw [← first, ← first] at same ahead
  exact ⟨same.symm, ahead, (lookahead?_passes k i).sound sound, started_lookahead? k i⟩

section Position

variable (q : Option Nat)

/-! Pulling does not look at the cursor. -/

theorem fetch_withPosition (n : Nat) (s : TokenStream σ) : ({ s with position := q }).fetch n
    = ((s.fetch n).1, { (s.fetch n).2 with position := q }) := by
  induction n generalizing s with
  | zero => rfl
  | succ n ih =>
      have pulled : ({ s with position := q } : TokenStream σ).pull = { s.pull with position := q } :=
        rfl
      simp only [fetch, pulled, ih]
      split <;> rfl

theorem sync_withPosition (i : Nat) (s : TokenStream σ) : ({ s with position := q }).sync i
    = ((s.sync i).1, { (s.sync i).2 with position := q }) := by
  simp only [sync, fetch_withPosition]
  split <;> rfl

theorem skipFrom_withPosition (fuel i : Nat) (s : TokenStream σ) :
    ({ s with position := q }).skipFrom fuel i
      = ((s.skipFrom fuel i).1, { (s.skipFrom fuel i).2 with position := q }) := by
  induction fuel generalizing i s with
  | zero => rfl
  | succ fuel ih =>
      have accepts : ({ s with position := q } : TokenStream σ).accepts = s.accepts := rfl
      simp only [skipFrom, sync_withPosition, accepts]
      split
      case h_1 => rfl
      case h_2 t _ =>
          split
          case isTrue => rfl
          case isFalse =>
              obtain ⟨ok, next⟩ := s.sync (i + 1)
              cases ok with
              | true => exact ih (i + 1) next
              | false => rfl

theorem onward_withPosition (i : Nat) (s : TokenStream σ) :
    ({ s with position := q }).onward i = s.onward i := by
  have same : ({ s with position := q } : TokenStream σ).nextOnChannel i
      = ((s.nextOnChannel i).1, { (s.nextOnChannel i).2 with position := q }) := by
    simp only [nextOnChannel, sync_withPosition]
    split
    · rfl
    · exact skipFrom_withPosition q _ i _
  simp only [onward, same]

end Position

/-- Back at the start, a stream that has been in use is ahead of what it was made from. -/
theorem Leads.starts {i s : TokenStream σ} (h : Leads i s) (sound : i.Sound)
    (unread : i.position = none) (marks : s.marks = i.marks) : i.Starts (s.seek 0) := by
  have started := h.trans (start_passes s).toLeads
  have ahead : Ahead i { s.start with position := none } := by
    have all := started.ahead
    rwa [unread, ← marks, ← marks_start s] at all
  have some : 0 < s.start.tokens.size :=
    Nat.lt_of_le_of_lt (Nat.zero_le _) ((started.sound sound).inside (start_position s))
  have first : ({ s.start with position := none } : TokenStream σ).start = s.start.onward 0 := by
    have here : ({ s.start with position := none } : TokenStream σ).sync 0
        = (true, { s.start with position := none }) := sync_of_lt some
    rw [start_of_none rfl, here]
    exact onward_withPosition none 0 s.start
  have after := ahead.start sound
  rw [first] at after
  have stands : (s.start.onward 0).start = s.start.onward 0 := start_of_position rfl
  refine ⟨?_, sound⟩
  rwa [seek_eq_onward, stands]

/-- Nobody who uses the stream can tell how far it has been pulled. -/
theorem Ahead.answers (h : Ahead s s') (sound : s.Sound) (uses : List Use) :
    s'.answers uses = s.answers uses := by
  induction uses generalizing s s' with
  | nil => rfl
  | cons u rest ih =>
      obtain ⟨same, ahead⟩ := h.use sound u
      simp only [TokenStream.answers, same, ih ahead ((use_leads u s).sound sound)]

end TokenStream

end AdaptiveLL
