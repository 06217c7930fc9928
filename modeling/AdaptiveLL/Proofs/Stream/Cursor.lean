import AdaptiveLL.Proofs.Stream.Upcoming
/-!
A token stream pulls its tokens from a source when they are needed. Whoever uses it cannot tell:
it answers as a cursor does that holds all tokens of the input from the beginning, up to the first
end of the input (`replies_eq`).
-/
namespace AdaptiveLL

/-- The source gives out `tokens` and then `last`, which is the first end of the input. Its horizon
reaches that far. -/
structure TokenSource.Yields {σ : Type} [TokenSource σ] (s : σ) (tokens : Array Token)
    (last : Token) : Prop where
  nth : ∀ {i : Nat} {t : Token}, (tokens.push last)[i]? = some t → nth s i = t
  isEof : ∀ {i : Nat} {t : Token}, (tokens.push last)[i]? = some t →
    (t.isEof = true ↔ i = tokens.size)
  horizon : ∀ {i : Nat}, i ≤ tokens.size → tokens.size ≤ i + horizon (after i s)

namespace TokenStream

/-- What can be asked of a stream of tokens, and done with it. -/
inductive Call where
  /-- The type of the token at a distance. -/
  | lookahead (k : Int)
  /-- The token at a distance. -/
  | lookahead? (k : Int)
  | consume
  | seek (place : Nat)
  | mark
  | release
  | textRange (start stop : Nat)
  deriving DecidableEq, Repr

inductive Reply where
  | type (symbol : Symbol)
  | token (t : Option Token)
  /-- Where the cursor has gone. -/
  | place (i : Nat)
  | marker (number : Int)
  | text (s : String)
  | done
  deriving DecidableEq, Repr

end TokenStream

open TokenStream (Call Reply)

/-- All the tokens of an input, each with its place, and a place to read from. The last token is the
end of the input. -/
structure Cursor where
  tokens : List Token
  channel : Nat
  place : Nat
  /-- The number of open marks. -/
  marks : Nat := 0
  deriving Repr

namespace Cursor

/-- Whether the cursor may stand on the token. -/
def accepts (channel : Nat) (t : Token) : Bool :=
  t.channel == channel || t.isEof

/-- The first place from `i` on where a cursor may stand, else the last place. -/
def find (tokens : List Token) (channel i : Nat) : Nat :=
  (((tokens.drop i).findIdx? (accepts channel)).map (i + ·)).getD (tokens.length - 1)

/-- On the first token where a cursor may stand. -/
def ofTokens (tokens : List Token) (channel : Nat) : Cursor where
  tokens
  channel
  place := find tokens channel 0

/-- The tokens to read from the cursor on. -/
def ahead (c : Cursor) : List Token :=
  (c.tokens.drop c.place).filter (accepts c.channel)

/-- The tokens that have been read, the last one first. -/
def behind (c : Cursor) : List Token :=
  (c.tokens.take c.place).reverse.filter (accepts c.channel)

/-- The `k`-th token from the cursor on, counted from 1, or the end of the input; with a negative
distance the `k`-th one before the cursor, if there is one. -/
def token? (c : Cursor) (k : Int) : Option Token :=
  if k = 0 then none
  else if k < 0 then c.behind[k.natAbs - 1]?
  else c.ahead[k.natAbs - 1]? <|> c.tokens.getLast?

def moveTo (c : Cursor) (i : Nat) : Cursor :=
  { c with place := find c.tokens c.channel i }

/-- The texts of the tokens from `start` up to but not including `stop`, and not beyond the end of
the input. -/
def text (c : Cursor) (start stop : Nat) : String :=
  String.join ((((c.tokens.drop start).take (stop - start)).takeWhile (!·.isEof)).map Token.text)

def call (c : Cursor) : Call → Reply × Cursor
  | .lookahead k => (.type (((c.token? k).map Token.type).getD Symbol.invalid), c)
  | .lookahead? k => (.token (c.token? k), c)
  | .consume => let c := c.moveTo (c.place + 1); (.place c.place, c)
  | .seek i => let c := c.moveTo i; (.place c.place, c)
  | .mark => let c := { c with marks := c.marks + 1 }; (.marker (-c.marks), c)
  | .release => (.done, { c with marks := c.marks - 1 })
  | .textRange start stop => (.text (c.text start stop), c)

/-- The replies to one call after the other. -/
def replies (c : Cursor) : List Call → List Reply
  | [] => []
  | x :: rest => (c.call x).1 :: (c.call x).2.replies rest

/-- The cursor after the calls. -/
def after (c : Cursor) (calls : List Call) : Cursor :=
  calls.foldl (fun c x => (c.call x).2) c

/-- The cursor is on a token of its channel or on the end of the input. -/
def Stands (c : Cursor) : Prop :=
  ∃ t, c.tokens[c.place]? = some t ∧ accepts c.channel t = true

end Cursor

namespace TokenStream

variable {σ : Type} [TokenSource σ]

def call (s : TokenStream σ) : Call → Reply × TokenStream σ
  | .lookahead k => (s.lookahead k).map .type id
  | .lookahead? k => (s.lookahead? k).map .token id
  | .consume => (.place s.consume.index, s.consume)
  | .seek i => (.place (s.seek i).index, s.seek i)
  | .mark => (.marker (-s.mark.marks), s.mark)
  | .release => (.done, s.release)
  | .textRange start stop => (s.textRange start stop).map .text id

/-- The replies to one call after the other. -/
def replies (s : TokenStream σ) : List Call → List Reply
  | [] => []
  | x :: rest => (s.call x).1 :: (s.call x).2.replies rest

end TokenStream

/-! ### All the tokens of an input -/

/-- The tokens carry their places, and the last of them is the only end of the input. -/
structure Token.Complete (all : List Token) : Prop where
  place : ∀ {i : Nat} {t : Token}, all[i]? = some t → t.index = some i
  isEof : ∀ {i : Nat} {t : Token}, all[i]? = some t → (t.isEof = true ↔ i + 1 = all.length)
  nonempty : 0 < all.length

namespace Cursor

variable {all : List Token} {channel i j : Nat} {t : Token}

variable (channel) in
theorem exists_last (h : Token.Complete all) :
    ∃ t, all[all.length - 1]? = some t ∧ t.isEof = true ∧ accepts channel t = true := by
  have last := List.getElem?_eq_getElem (Nat.sub_lt h.nonempty Nat.one_pos)
  have eof := (h.isEof last).2 (Nat.sub_add_cancel h.nonempty)
  exact ⟨_, last, eof, by rw [accepts, eof, Bool.or_true]⟩

/-- Behind the end of the input there is nothing to stand on. -/
theorem find_of_le (beyond : all.length ≤ i) : find all channel i = all.length - 1 := by
  rw [find, List.drop_eq_nil_of_le beyond]
  rfl

/-- What is found is the first place where a cursor may stand. -/
theorem find_eq (le : i ≤ j) (here : all[j]? = some t) (stands : accepts channel t = true)
    (skipped : ∀ m u, i ≤ m → m < j → all[m]? = some u → accepts channel u = false) :
    find all channel i = j := by
  have found : (all.drop i).findIdx? (accepts channel) = some (j - i) := by
    obtain ⟨inside, rfl⟩ := List.getElem?_eq_some_iff.1 here
    rw [List.findIdx?_eq_some_iff_getElem]
    refine ⟨by rw [List.length_drop]; omega, ?_, fun m lt => ?_⟩
    · simpa [Nat.add_sub_cancel' le] using stands
    · rw [List.getElem_drop, skipped (i + m) _ (by omega) (by omega) (List.getElem?_eq_getElem (by omega))]
      exact Bool.false_ne_true
  rw [find, found, Option.map_some, Option.getD_some, Nat.add_sub_cancel' le]

variable (channel) in
/-- There is always something to be found: the end of the input, if nothing else. -/
theorem find_spec (h : Token.Complete all) (inside : i < all.length) :
    ∃ t, i ≤ find all channel i ∧ all[find all channel i]? = some t ∧ accepts channel t = true ∧
      ∀ m u, i ≤ m → m < find all channel i → all[m]? = some u → accepts channel u = false := by
  cases found : (all.drop i).findIdx? (accepts channel) with
  | none =>
      obtain ⟨t, last, -, stands⟩ := exists_last channel h
      have mem : t ∈ all.drop i := by
        refine List.mem_iff_getElem?.2 ⟨all.length - 1 - i, ?_⟩
        rwa [List.getElem?_drop, Nat.add_sub_cancel' (by omega)]
      rw [List.findIdx?_eq_none_iff] at found
      rw [found t mem] at stands
      cases stands
  | some k =>
      simp only [find, found, Option.map_some, Option.getD_some]
      rw [List.findIdx?_eq_some_iff_getElem] at found
      obtain ⟨lt, stands, skipped⟩ := found
      rw [List.length_drop] at lt
      rw [List.getElem_drop] at stands
      refine ⟨all[i + k], Nat.le_add_right i k, List.getElem?_eq_getElem (by omega), stands, ?_⟩
      intro m u le lt' get
      have := skipped (m - i) (by omega)
      rw [List.getElem_drop] at this
      obtain ⟨inside', rfl⟩ := List.getElem?_eq_some_iff.1 get
      simpa [Nat.add_sub_cancel' le] using this

theorem find_lt (h : Token.Complete all) (channel i : Nat) : find all channel i < all.length := by
  rcases Nat.lt_or_ge i all.length with inside | beyond
  · obtain ⟨t, -, here, -⟩ := find_spec channel h inside
    exact (List.getElem?_eq_some_iff.1 here).1
  · rw [find_of_le beyond]
    exact Nat.sub_lt h.nonempty Nat.one_pos

theorem find_stands (h : Token.Complete all) (channel i : Nat) :
    ∃ t, all[find all channel i]? = some t ∧ accepts channel t = true := by
  rcases Nat.lt_or_ge i all.length with inside | beyond
  · obtain ⟨t, -, here, stands, -⟩ := find_spec channel h inside
    exact ⟨t, here, stands⟩
  · obtain ⟨t, last, -, stands⟩ := exists_last channel h
    exact ⟨t, by rwa [find_of_le beyond], stands⟩

/-- What is passed over is not to be read. -/
theorem filter_drop_find (h : Token.Complete all) (inside : i < all.length) :
    (all.drop i).filter (accepts channel) =
      (all.drop (find all channel i)).filter (accepts channel) := by
  obtain ⟨t, le, here, -, skipped⟩ := find_spec channel h inside
  have split : all.drop i =
      (all.drop i).take (find all channel i - i) ++ all.drop (find all channel i) := by
    conv_lhs => rw [← List.take_append_drop (find all channel i - i) (all.drop i)]
    rw [List.drop_drop, Nat.add_sub_cancel' le]
  rw [split, List.filter_append]
  refine List.append_left_eq_self.2 (List.filter_eq_nil_iff.2 fun u mem => ?_)
  obtain ⟨m, lt, rfl⟩ := List.mem_take_iff_getElem.1 mem
  have low := Nat.lt_of_lt_of_le lt (Nat.min_le_left _ _)
  rw [List.getElem_drop, skipped (i + m) _ (Nat.le_add_right i m) (by omega)
    (List.getElem?_eq_getElem (by rw [List.length_drop] at lt; omega))]
  exact Bool.false_ne_true

/-- The token under a cursor is the first one to read. -/
theorem filter_drop (here : all[i]? = some t) (stands : accepts channel t = true) :
    (all.drop i).filter (accepts channel) = t :: (all.drop (i + 1)).filter (accepts channel) := by
  obtain ⟨inside, rfl⟩ := List.getElem?_eq_some_iff.1 here
  rw [List.drop_eq_getElem_cons inside, List.filter_cons_of_pos stands]

theorem filter_take_succ (here : all[i]? = some t) :
    (all.take (i + 1)).reverse.filter (accepts channel) =
      (if accepts channel t then [t] else []) ++
        (all.take i).reverse.filter (accepts channel) := by
  rw [List.take_add_one, here, Option.toList_some, List.reverse_append, List.reverse_singleton,
    List.singleton_append, List.filter_cons]
  split <;> rfl

/-- Reading on from a place where a cursor may stand, one token after the other. -/
theorem getElem?_iterate (h : Token.Complete all) (k : Nat) (here : all[i]? = some t)
    (stands : accepts channel t = true) :
    all[(fun j => find all channel (j + 1))^[k] i]? =
      (((all.drop i).filter (accepts channel))[k]? <|> all.getLast?) := by
  induction k generalizing i t with
  | zero =>
      rw [filter_drop here stands]
      exact here
  | succ k ih =>
      obtain ⟨u, next, stands'⟩ := find_stands h channel (i + 1)
      rw [Function.iterate_succ_apply, ih next stands', filter_drop here stands,
        List.getElem?_cons_succ]
      rcases Nat.lt_or_ge (i + 1) all.length with more | beyond
      · rw [filter_drop_find h more]
      · -- The cursor is at the end of the input, and stays there.
        rw [filter_drop next stands', List.getLast?_eq_getElem?, find_of_le beyond] at *
        rw [List.drop_eq_nil_of_le beyond, List.drop_eq_nil_of_le (by omega), next]
        cases k <;> rfl

end Cursor

/-! ### Streams and cursors -/

namespace TokenStream

variable {σ : Type} [TokenSource σ] {s s' : TokenStream σ} {all : List Token} {c : Cursor}
  {i j k : Nat} {t : Token}

/-- What has been pulled is the first part of the tokens, and the source gives out the rest. -/
structure PartOf (s : TokenStream σ) (all : List Token) : Prop where
  get : ∀ {i : Nat} {t : Token}, s.tokens[i]? = some t → all[i]? = some t
  size_le : s.tokens.size ≤ all.length
  ended : s.ended = true ↔ s.tokens.size = all.length
  coming : ∀ {i : Nat} {t : Token}, all[s.tokens.size + i]? = some t →
    { TokenSource.nth s.source i with index := some (s.tokens.size + i) } = t
  near : ∀ {i : Nat}, s.tokens.size + i < all.length →
    all.length ≤ s.tokens.size + i + TokenSource.horizon (TokenSource.after i s.source) + 1

namespace PartOf

/-- The token that is pulled is the next one of the list. -/
theorem pull (h : s.PartOf all) (complete : Token.Complete all) (more : s.ended = false) :
    s.pull.PartOf all := by
  have lt : s.tokens.size < all.length := by
    refine Nat.lt_of_le_of_ne h.size_le fun same => ?_
    rw [h.ended.2 same] at more
    cases more
  have here := List.getElem?_eq_getElem lt
  have next := h.coming (i := 0) here
  have grown (i : Nat) : s.pull.tokens.size + i = s.tokens.size + (i + 1) := by
    rw [size_pull]
    omega
  refine ⟨fun get => ?_, by rw [size_pull]; exact lt, ?_, fun {i t} get => ?_, fun {i} inside => ?_⟩
  · rcases tokens_pull_cases get with old | ⟨rfl, rfl⟩
    · exact h.get old
    · rw [here, ← next]
      rfl
  · have eof : s.pull.ended = all[s.tokens.size].isEof := by
      rw [← next]
      rfl
    rw [eof, complete.isEof here, size_pull]
  · rw [grown] at get
    rw [grown, ← h.coming get]
    rfl
  · rw [grown] at inside
    have near := h.near inside
    rw [grown]
    exact near

/-- It does not matter how much has been pulled. -/
theorem ahead (h : s.PartOf all) (complete : Token.Complete all) (ahead : Ahead s s') :
    s'.PartOf all := by
  induction ahead with
  | refl => exact h
  | pull more _ ih => exact ih (h.pull complete more)

theorem leads (h : s.PartOf all) (complete : Token.Complete all) (leads : Leads s s') :
    s'.PartOf all := by
  obtain ⟨get, size_le, ended, coming, near⟩ := h.ahead complete leads.ahead
  exact ⟨get, size_le, ended, coming, near⟩

theorem getElem? (h : s.PartOf all) (inside : i < s.tokens.size) : s.tokens[i]? = all[i]? := by
  have here := Array.getElem?_eq_getElem inside
  rw [here, h.get here]

/-- A place is there if the input is that long. -/
theorem sync (h : s.PartOf all) (complete : Token.Complete all) (i : Nat) :
    (s.sync i).1 = decide (i < all.length) := by
  obtain ⟨pulled, reached, ended⟩ := sync_spec i s
  have part := h.leads complete pulled.toLeads
  have le := part.size_le
  cases found : (s.sync i).1 with
  | true =>
      have := reached.1 found
      simp only [Bool.true_eq, decide_eq_true_eq]
      omega
  | false =>
      have := part.ended.1 (ended found)
      rw [found] at reached
      simp only [Bool.false_eq_true, false_iff] at reached
      simp only [Bool.false_eq, decide_eq_false_iff_not]
      omega

theorem shows (h : s.PartOf all) (get : all[i]? = some t) :
    s.shows i = Cursor.accepts s.channel t := by
  rcases Nat.lt_or_ge i s.tokens.size with pulled | coming
  · rw [← h.getElem? pulled] at get
    rw [shows_of_get get]
    rfl
  · rw [TokenStream.shows, Array.getElem?_eq_none coming]
    have next := h.coming (i := i - s.tokens.size) (t := t) (by rwa [Nat.add_sub_cancel' coming])
    rw [← next]
    rfl

/-- The search for a token finds the place that the cursor finds. -/
theorem nextOnChannel (h : s.PartOf all) (complete : Token.Complete all) (placed : s.Placed)
    (i : Nat) : (s.nextOnChannel i).1 = Cursor.find all s.channel i := by
  obtain ⟨pulled, reached, ended⟩ := sync_spec i s
  have part := h.leads complete pulled.toLeads
  have found := h.sync complete i
  rcases Nat.lt_or_ge i all.length with more | beyond
  · rw [decide_eq_true more, reached] at found
    have skips : s.nextOnChannel i = (s.sync i).2.skipFrom (s.sync i).2.bound i :=
      if_neg (Nat.not_le_of_lt found)
    rw [skips]
    generalize (s.sync i).2 = s₁ at *
    have placed₁ := pulled.placed placed
    obtain ⟨last, get, -, stands⟩ := Cursor.exists_last s₁.channel complete
    have near : all.length - 1 < i + s₁.bound := by
      rw [bound]
      rcases Nat.lt_or_eq_of_le part.size_le with lt | all
      · have near := part.near (i := 0) lt
        rw [TokenSource.after, Function.iterate_zero_apply] at near
        omega
      · omega
    obtain ⟨⟨t, here, accepted⟩, skipped⟩ := skipFrom_shows placed₁ found (by omega) near
      ((part.shows get).trans stands)
    have later := part.leads complete (skipFrom_pulled s₁.bound i s₁).toLeads
    have le := (skipFrom_inside s₁.bound placed₁ found).1
    rw [← pulled.channel]
    refine (Cursor.find_eq le (later.get here) accepted fun m u low high get => ?_).symm
    have inside := (Array.getElem?_eq_some_iff.1 here).1
    exact skipped m u low high ((later.getElem? (by omega)).trans get)
  · rw [decide_eq_false (Nat.not_lt_of_le beyond)] at found
    have all := part.ended.1 (ended found)
    have short : (s.sync i).2.tokens.size ≤ i := all ▸ beyond
    have last : s.nextOnChannel i = ((s.sync i).2.tokens.size - 1, (s.sync i).2) := if_pos short
    rw [last, Cursor.find_of_le beyond, all]

theorem onward (h : s.PartOf all) (complete : Token.Complete all) (placed : s.Placed) (i : Nat) :
    (s.onward i).position = some (Cursor.find all s.channel i) :=
  congrArg some (h.nextOnChannel complete placed i)

/-- Going forward step by step. -/
theorem forward (h : s.PartOf all) (complete : Token.Complete all) (placed : s.Placed) (k : Nat)
    (inside : i < all.length) :
    (s.forward k i).1 = (fun j => Cursor.find all s.channel (j + 1))^[k] i := by
  induction k generalizing s i with
  | zero => rfl
  | succ k ih =>
      have pulled := (sync_spec (i + 1) s).1
      have found := h.sync complete (i + 1)
      rw [Function.iterate_succ_apply, TokenStream.forward]
      split <;> rename_i next eq <;> rw [eq] at found pulled
      · have part := h.leads complete pulled.toLeads
        have placed' := pulled.placed placed
        have pulled' := (nextOnChannel_spec (i + 1) next).1
        have place := part.nextOnChannel complete placed' (i + 1)
        rw [pulled.channel] at place
        have channel := pulled'.channel.trans pulled.channel
        rw [ih (part.leads complete pulled'.toLeads) (pulled'.placed placed')
          (place ▸ Cursor.find_lt complete _ _), place, channel]
      · -- The end of the input has been reached.
        have beyond := of_decide_eq_false found.symm
        rw [ih (h.leads complete pulled.toLeads) (pulled.placed placed) inside, pulled.channel,
          Cursor.find_of_le (Nat.not_lt.1 beyond), show all.length - 1 = i by omega]

/-- The last place up to `i` where the cursor may stand, and what there is before it. -/
theorem lastAccepted? (h : s.PartOf all) (inside : i < s.tokens.size) :
    match s.lastAccepted? i with
    | some j => j ≤ i ∧ ∃ t, all[j]? = some t ∧
        (all.take (i + 1)).reverse.filter (Cursor.accepts s.channel) =
          t :: (all.take j).reverse.filter (Cursor.accepts s.channel)
    | none => (all.take (i + 1)).reverse.filter (Cursor.accepts s.channel) = [] := by
  induction i with
  | zero =>
      have here := Array.getElem?_eq_getElem inside
      have same : s.accepts s.tokens[0] = Cursor.accepts s.channel s.tokens[0] := rfl
      rw [Cursor.filter_take_succ (h.get here), TokenStream.lastAccepted?, here, Option.map_some,
        Option.getD_some, same]
      cases accepted : Cursor.accepts s.channel s.tokens[0] with
      | true => exact ⟨Nat.le_refl 0, _, h.get here, rfl⟩
      | false => rfl
  | succ i ih =>
      have here := Array.getElem?_eq_getElem inside
      have same : s.accepts s.tokens[i + 1] = Cursor.accepts s.channel s.tokens[i + 1] := rfl
      rw [Cursor.filter_take_succ (h.get here), TokenStream.lastAccepted?, here, Option.map_some,
        Option.getD_some, same]
      cases accepted : Cursor.accepts s.channel s.tokens[i + 1] with
      | true => exact ⟨Nat.le_refl _, _, h.get here, rfl⟩
      | false =>
          have rest := ih (Nat.lt_of_succ_lt inside)
          revert rest
          cases s.lastAccepted? i with
          | none => exact id
          | some j => exact And.imp_left Nat.le_succ_of_le

/-- One step back from a place among the tokens that have been pulled. -/
theorem previousOnChannel (h : s.PartOf all) (inside : i < s.tokens.size) :
    (∃ j t, s.previousOnChannel i = (some j, s) ∧ j ≤ i ∧ all[j]? = some t ∧
      (all.take (i + 1)).reverse.filter (Cursor.accepts s.channel) =
        t :: (all.take j).reverse.filter (Cursor.accepts s.channel)) ∨
    s.previousOnChannel i = (none, s) ∧
      (all.take (i + 1)).reverse.filter (Cursor.accepts s.channel) = [] := by
  have some : s.tokens.isEmpty = false := by
    rw [Array.isEmpty_eq_false_iff, Ne, ← Array.size_eq_zero_iff]
    omega
  have step : s.previousOnChannel i = (s.lastAccepted? i, s) := by
    simp only [TokenStream.previousOnChannel, sync_of_lt inside, some, Bool.false_eq_true, if_false,
      Nat.min_eq_left (Nat.le_sub_one_of_lt inside)]
  have last := h.lastAccepted? inside
  rw [step]
  cases found : s.lastAccepted? i with
  | some j =>
      rw [found] at last
      obtain ⟨le, t, get, split⟩ := last
      exact .inl ⟨j, t, rfl, le, get, split⟩
  | none =>
      rw [found] at last
      exact .inr ⟨rfl, last⟩

/-- Going back from a place among the tokens that have been pulled, by at least one token. -/
theorem backward (h : s.PartOf all) (k : Nat) (inside : i < s.tokens.size) :
    (s.backward (k + 1) i).1.bind (all[·]?) =
      ((all.take i).reverse.filter (Cursor.accepts s.channel))[k]? := by
  induction k generalizing i with
  | zero =>
      cases i with
      | zero => rfl
      | succ i =>
          rcases h.previousOnChannel (Nat.lt_of_succ_lt inside) with
            ⟨j, t, step, -, get, split⟩ | ⟨step, split⟩ <;> rw [TokenStream.backward, step, split]
          · exact get
          · rfl
  | succ k ih =>
      cases i with
      | zero => rfl
      | succ i =>
          rcases h.previousOnChannel (Nat.lt_of_succ_lt inside) with
            ⟨j, t, step, le, -, split⟩ | ⟨step, split⟩ <;> rw [TokenStream.backward, step, split]
          · exact ih (by omega)
          · rfl

/-- What has been pulled of the input. -/
theorem toList (h : s.PartOf all) : s.tokens.toList = all.take s.tokens.size := by
  refine List.ext_getElem? fun i => ?_
  rw [Array.getElem?_toList, List.getElem?_take]
  split
  · exact h.getElem? ‹_›
  · exact Array.getElem?_eq_none (Nat.not_lt.1 ‹_›)

end PartOf

/-- The stream is the cursor, but for how much of the input it has pulled. -/
structure Shows (s : TokenStream σ) (c : Cursor) : Prop where
  complete : Token.Complete c.tokens
  placed : s.Placed
  part : s.PartOf c.tokens
  channel : s.channel = c.channel
  marks : s.marks = c.marks
  position : s.position = some c.place ∨
    s.position = none ∧ c.place = Cursor.find c.tokens c.channel 0
  stands : c.Stands

namespace Shows

/-- At the first access the cursor is put where it belongs. -/
theorem start_position (h : s.Shows c) : s.start.position = some c.place := by
  rcases h.position with here | ⟨unset, first⟩
  · rw [start_of_position here, here]
  · have pulled := (sync_spec 0 s).1
    have found := (h.part.leads h.complete pulled.toLeads).onward h.complete
      (pulled.placed h.placed) 0
    rw [start_of_none unset, found, pulled.channel, h.channel, first]

/-- What is asked and done leads to a stream that shows a cursor over the same tokens, if it is put
at the same place and has as many marks. -/
theorem leads (h : s.Shows c) (leads : Leads s s') {place marks : Nat}
    (position : s'.position = some place) (marks_eq : s'.marks = marks)
    (stands : ∃ t, c.tokens[place]? = some t ∧ Cursor.accepts c.channel t = true) :
    s'.Shows { c with place, marks } where
  complete := h.complete
  placed := leads.placed h.placed
  part := h.part.leads h.complete leads
  channel := leads.channel.trans h.channel
  marks := marks_eq
  position := .inl position
  stands

theorem start (h : s.Shows c) : s.start.Shows c :=
  h.leads (start_passes s).toLeads h.start_position ((marks_start s).trans h.marks) h.stands

theorem start_index (h : s.Shows c) : s.start.index = c.place := by
  rw [index, h.start_position, Option.getD_some]

/-- Where a stream in use stands. -/
theorem index (h : s.Shows c) (started : s.position.isSome) : s.index = c.place := by
  rcases h.position with here | ⟨unset, -⟩
  · rw [TokenStream.index, here, Option.getD_some]
  · rw [unset] at started
    cases started

/-- The token under the cursor. -/
theorem current (h : s.Shows c) :
    ∃ t, s.start.tokens[s.start.index]? = some t ∧ c.tokens[c.place]? = some t ∧
      Cursor.accepts c.channel t = true := by
  obtain ⟨t, here⟩ := h.placed.current
  have get := h.start.part.get here
  rw [h.start_index] at get
  obtain ⟨u, get', stands⟩ := h.stands
  obtain rfl := Option.some.inj (get.symm.trans get')
  exact ⟨t, here, get, stands⟩

/-- Looking back: fewer tokens than places have been read. -/
theorem lookahead?_back (h : s.Shows c) {k : Int} (back : k < 0) :
    (s.lookahead? k).1 = c.behind[k.natAbs - 1]? := by
  have inside : c.place < s.start.tokens.size := h.start.placed.inside h.start_position
  obtain ⟨m, steps⟩ : ∃ m, k.natAbs = m + 1 := ⟨k.natAbs - 1, by omega⟩
  have far := h.start.part.backward m inside
  rw [h.start.channel] at far
  rw [TokenStream.lookahead?, if_neg (by omega), if_pos back, h.start_position, Option.getD_some,
    steps, Nat.add_sub_cancel]
  split
  case isTrue short =>
      refine (List.getElem?_eq_none ?_).symm
      have le : c.behind.length ≤ (c.tokens.take c.place).reverse.length := List.length_filter_le _ _
      rw [List.length_reverse, List.length_take] at le
      omega
  case isFalse =>
      have pulled := backward_pulled (m + 1) c.place s.start
      split <;> rename_i next eq <;> rw [eq] at far pulled
      · have place := backward_inside (m + 1) inside (congrArg Prod.fst eq)
        rw [eq] at place
        exact ((h.start.part.leads h.complete pulled.toLeads).getElem? place).trans far
      · exact far

/-- Looking forward. -/
theorem lookahead?_forth (h : s.Shows c) {k : Int} (forth : 0 < k) :
    (s.lookahead? k).1 = (c.ahead[k.natAbs - 1]? <|> c.tokens.getLast?) := by
  obtain ⟨t, here, stands⟩ := h.stands
  have inside : c.place < s.start.tokens.size := h.start.placed.inside h.start_position
  have far := h.start.part.forward h.complete h.start.placed (k.natAbs - 1)
    (List.getElem?_eq_some_iff.1 here).1
  have place := forward_inside h.start.placed (k.natAbs - 1) inside
  have part := h.start.part.leads h.complete (forward_pulled (k.natAbs - 1) c.place s.start).toLeads
  have ahead := Cursor.getElem?_iterate h.complete (k.natAbs - 1) here stands
  rw [← h.start.channel, ← far, ← part.getElem? place, h.start.channel] at ahead
  rw [TokenStream.lookahead?, if_neg (by omega), if_neg (by omega), h.start_position,
    Option.getD_some]
  exact ahead

/-- Tokens ahead and behind are those of the list. -/
theorem lookahead? (h : s.Shows c) (k : Int) :
    (s.lookahead? k).1 = c.token? k ∧ (s.lookahead? k).2.Shows c := by
  have pulled := lookahead?_pulled k s
  refine ⟨?_, h.start.leads pulled.toLeads (pulled.position.trans h.start_position)
    (pulled.marks.trans h.start.marks) h.stands⟩
  rcases Int.lt_trichotomy k 0 with back | rfl | forth
  · rw [h.lookahead?_back back, Cursor.token?, if_neg (by omega), if_pos back]
  · rfl
  · rw [h.lookahead?_forth forth, Cursor.token?, if_neg (by omega), if_neg (by omega)]

/-- The cursor of the stream goes where the other one goes. -/
theorem onward (h : s.Shows c) (leads : Leads s s') (marks : s'.marks = c.marks) (i : Nat) :
    (s'.onward i).Shows (c.moveTo i) := by
  have place := (h.part.leads h.complete leads).onward h.complete (leads.placed h.placed) i
  rw [leads.channel, h.channel] at place
  exact h.leads (leads.trans (onward_leads i s')) place ((marks_onward i s').trans marks)
    (Cursor.find_stands h.complete c.channel i)

/-- To consume is to move the cursor by one place. -/
theorem consume (h : s.Shows c) : s.consume.Shows (c.moveTo (c.place + 1)) := by
  obtain ⟨t, here, get, -⟩ := h.current
  cases eof : t.isEof with
  | true =>
      have last := (h.complete.isEof get).1 eof
      have stays : c.moveTo (c.place + 1) = c := by
        rw [Cursor.moveTo, Cursor.find_of_le (by omega), ← last, Nat.add_sub_cancel]
      rw [consume_eof here eof, stays]
      exact h.start
  | false =>
      have pulled := (sync_spec (s.start.index + 1) s.start).1
      rw [(consume_next h.placed here eof).2, h.start_index]
      rw [h.start_index] at pulled
      exact h.start.onward pulled.toLeads (pulled.marks.trans h.start.marks) _

theorem seek (h : s.Shows c) (i : Nat) : (s.seek i).Shows (c.moveTo i) :=
  h.start.onward (.refl _) h.start.marks i

theorem withMarks (h : s.Shows c) {marks marks' : Nat} (same : marks = marks') :
    ({ s with marks } : TokenStream σ).Shows { c with marks := marks' } := by
  have leads := (passes_of_marks s marks).toLeads
  exact ⟨h.complete, leads.placed h.placed, h.part.leads h.complete leads, h.channel, same,
    h.position, h.stands⟩

theorem textRange (h : s.Shows c) (start stop : Nat) :
    (s.textRange start stop).1 = c.text start stop ∧ (s.textRange start stop).2.Shows c := by
  have shows := h.start
  have here := h.start_position
  unfold TokenStream.textRange
  generalize s.start = s₀ at *
  simp only
  split
  case isTrue empty =>
      refine ⟨?_, shows⟩
      rw [Cursor.text, Nat.sub_eq_zero_of_le empty]
      rfl
  case isFalse some =>
      obtain ⟨pulled, reached, ended⟩ := sync_spec (stop - 1) s₀
      have later := shows.leads pulled.toLeads (pulled.position.trans here)
        (pulled.marks.trans shows.marks) h.stands
      refine ⟨?_, later⟩
      have part : (s₀.sync (stop - 1)).2.PartOf c.tokens := later.part
      -- What has not been pulled is behind the range, or behind the end of the input.
      have enough : stop ≤ (s₀.sync (stop - 1)).2.tokens.size ∨
          (s₀.sync (stop - 1)).2.tokens.size = c.tokens.length := by
        cases ok : (s₀.sync (stop - 1)).1 with
        | true => exact .inl (by have := reached.1 ok; omega)
        | false => exact .inr (part.ended.1 (ended ok))
      have range : ((s₀.sync (stop - 1)).2.tokens.extract start stop).toList =
          (c.tokens.drop start).take (stop - start) := by
        rw [Array.toList_extract, List.extract_eq_take_drop, part.toList, List.drop_take,
          List.take_take]
        rcases enough with enough | all
        · rw [Nat.min_eq_left (by omega)]
        · rw [all, ← List.take_take, ← List.length_drop, List.take_length]
      rw [range, Cursor.text]

/-- Every call is answered as by the cursor over the whole list. -/
theorem call (h : s.Shows c) (x : Call) :
    (s.call x).1 = (c.call x).1 ∧ (s.call x).2.Shows (c.call x).2 := by
  cases x with
  | lookahead k =>
      obtain ⟨same, later⟩ := h.lookahead? k
      refine ⟨?_, later⟩
      rw [Cursor.call, ← same]
      rfl
  | lookahead? k =>
      obtain ⟨same, later⟩ := h.lookahead? k
      exact ⟨congrArg Reply.token same, later⟩
  | consume => exact ⟨congrArg Reply.place (h.consume.index (started_consume s)), h.consume⟩
  | seek i => exact ⟨congrArg Reply.place ((h.seek i).index rfl), h.seek i⟩
  | mark => exact ⟨congrArg (fun n : Nat => Reply.marker (-n)) (congrArg (· + 1) h.marks),
      h.withMarks (congrArg (· + 1) h.marks)⟩
  | release => exact ⟨rfl, h.withMarks (congrArg (· - 1) h.marks)⟩
  | textRange start stop =>
      obtain ⟨same, later⟩ := h.textRange start stop
      exact ⟨congrArg Reply.text same, later⟩

/-- Whatever is asked and done, the stream goes on showing the cursor. -/
theorem replies (h : s.Shows c) (calls : List Call) :
    s.replies calls = c.replies calls ∧ (c.after calls).Stands := by
  induction calls generalizing s c with
  | nil => exact ⟨rfl, h.stands⟩
  | cons x rest ih =>
      obtain ⟨same, later⟩ := h.call x
      obtain ⟨replies, stands⟩ := ih later
      exact ⟨by rw [TokenStream.replies, Cursor.replies, same, replies], stands⟩

end Shows

section Yields

variable {source : σ} {tokens : Array Token} {last : Token}

omit [TokenSource σ] in
theorem getElem?_placed (tokens : Array Token) (i : Nat) :
    (Token.placed tokens)[i]? = tokens[i]?.map fun t => { t with index := some i } := by
  rw [Token.placed, List.getElem?_mapIdx, Array.getElem?_toList]

omit [TokenSource σ] in
theorem length_placed (tokens : Array Token) : (Token.placed tokens).length = tokens.size := by
  rw [Token.placed, List.length_mapIdx, Array.length_toList]

/-- The tokens that a source yields, with their places, end with the end of the input. -/
theorem complete_of_yields (h : TokenSource.Yields source tokens last) :
    Token.Complete (Token.placed (tokens.push last)) where
  place get := by
    rw [getElem?_placed, Option.map_eq_some_iff] at get
    obtain ⟨t, -, rfl⟩ := get
    rfl
  isEof {i t} get := by
    rw [getElem?_placed, Option.map_eq_some_iff] at get
    obtain ⟨t, get, rfl⟩ := get
    change t.isEof = true ↔ _
    rw [h.isEof get, length_placed, Array.size_push]
    omega
  nonempty := by
    rw [length_placed, Array.size_push]
    exact Nat.succ_pos _

/-- A stream that nothing has been pulled from. -/
theorem Shows.ofSource (h : TokenSource.Yields source tokens last) (channel : Nat) :
    ({ source, channel } : TokenStream σ).Shows
      (.ofTokens (Token.placed (tokens.push last)) channel) where
  complete := complete_of_yields h
  placed := .ofSource source channel
  part := by
    have length : (Token.placed (tokens.push last)).length = tokens.size + 1 := by
      rw [length_placed, Array.size_push]
    refine ⟨by simp, Nat.zero_le _, ?_, fun {i t} get => ?_, fun {i} inside => ?_⟩
    · change false = true ↔ 0 = (Token.placed (tokens.push last)).length
      rw [length]
      simp
    · change (Token.placed (tokens.push last))[0 + i]? = some t at get
      change { TokenSource.nth source i with index := some (0 + i) } = t
      rw [getElem?_placed, Option.map_eq_some_iff] at get
      obtain ⟨u, get, rfl⟩ := get
      rw [Nat.zero_add] at get ⊢
      rw [h.nth get]
    · change 0 + i < (Token.placed (tokens.push last)).length at inside
      change (Token.placed (tokens.push last)).length ≤ 0 + i + _ + 1
      rw [length, Nat.zero_add] at *
      exact Nat.succ_le_succ (h.horizon (Nat.le_of_lt_succ inside))
  channel := rfl
  marks := rfl
  position := .inr ⟨rfl, rfl⟩
  stands := Cursor.find_stands (complete_of_yields h) channel 0

/-- The stream over a source that gives out finitely many tokens and then the end of the input
answers as a cursor over all these tokens, which is always on a token of the channel or on the end
of the input. -/
theorem replies_eq (h : TokenSource.Yields source tokens last) (channel : Nat)
    (calls : List Call) :
    let cursor := Cursor.ofTokens (Token.placed (tokens.push last)) channel
    ({ source, channel } : TokenStream σ).replies calls = cursor.replies calls ∧
      (cursor.after calls).Stands :=
  (Shows.ofSource h channel).replies calls

end Yields

end TokenStream

namespace TokenList

/-- A list of tokens gives out its tokens, and then the end of the input behind them. -/
theorem yields {tokens : Array Token} (words : ∀ t ∈ tokens, t.isEof = false) (name : String) :
    TokenSource.Yields ({ tokens, name } : TokenList) tokens
      ({ tokens, place := tokens.size, name } : TokenList).endToken := by
  have after {i : Nat} (le : i ≤ tokens.size) :
      TokenSource.after i ({ tokens, name } : TokenList) = { tokens, place := i, name } := by
    induction i with
    | zero => rfl
    | succ i ih =>
        have word := words tokens[i] (Array.getElem_mem le)
        rw [TokenSource.after, Function.iterate_succ_apply', ← TokenSource.after,
          ih (Nat.le_of_succ_le le)]
        change (TokenList.next _).2 = _
        simp [TokenList.next, Array.getElem?_eq_getElem le, word]
  have nth {i : Nat} (le : i ≤ tokens.size) :
      TokenSource.nth ({ tokens, name } : TokenList) i =
        (TokenList.next { tokens, place := i, name }).1 := by
    rw [TokenSource.nth, after le]
    rfl
  refine ⟨fun {i t} get => ?_, fun {i t} get => ?_, fun {i} le => ?_⟩
  · rw [Array.getElem?_push] at get
    split at get
    case isTrue last =>
        rw [nth (Nat.le_of_eq last), TokenList.next, Array.getElem?_eq_none (Nat.le_of_eq last.symm)]
        rw [last]
        exact Option.some.inj get
    case isFalse =>
        have inside := (Array.getElem?_eq_some_iff.1 get).1
        rw [nth (Nat.le_of_lt inside), TokenList.next, get]
  · rw [Array.getElem?_push] at get
    split at get
    case isTrue last =>
        obtain rfl := Option.some.inj get
        exact iff_of_true rfl last
    case isFalse other =>
        rw [words t (Array.mem_of_getElem? get)]
        exact iff_of_false Bool.false_ne_true other
  · rw [after le]
    change tokens.size ≤ i + (tokens.size - i)
    omega

/-- Two words with a blank between them that is hidden. -/
def twoWords : Array Token :=
  #[{ type := 1, text? := some "a" }, { type := 9, channel := 1, text? := some " " },
    { type := 2, text? := some "b" }]

/-- The end of the input behind the two words. -/
def endOfTwoWords : Token :=
  ({ tokens := twoWords, place := 3 } : TokenList).endToken

end TokenList

namespace TokenStream

theorem replies_eq_twoWords :
    TokenSource.Yields ({ tokens := TokenList.twoWords } : TokenList)
      TokenList.twoWords TokenList.endOfTwoWords ∧
    ({ source := { tokens := TokenList.twoWords } } : TokenStream TokenList).replies
        [.lookahead 2, .lookahead? (-1), .consume, .mark, .lookahead 9, .textRange 0 3, .release,
          .seek 1, .lookahead? 0] =
      [.type 2, .token none, .place 2, .marker (-1), .type Symbol.eof, .text "a b", .done, .place 2,
        .token none] := by
  have yields : TokenSource.Yields ({ tokens := TokenList.twoWords } : TokenList)
      TokenList.twoWords TokenList.endOfTwoWords := TokenList.yields (by decide) "<list>"
  exact ⟨yields, (replies_eq yields 0 _).1.trans (by decide +kernel)⟩

end TokenStream

end AdaptiveLL
