import AdaptiveLL.Network.Lookahead
import AdaptiveLL.Proofs.IntervalSet.Separated
import AdaptiveLL.Proofs.Network.Settling
import Mathlib.Data.Fintype.BigOperators
/-!
Lookahead sets against the moves of a network. Whatever a set holds can come next
(`look_sound`), and if no rule is called twice on the way to the next symbol, the set holds
everything that can come next (`look_exact`). The walk adds the labels of edges range by range, and
an edge reads what a search finds in its label; these are the same symbols where labels are in
canonical form (`nextTokens_exact`). Neither condition can be dropped (`nextTokens_twice`).
-/
namespace AdaptiveLL

namespace Except

variable {ε α β : Type} {f : β → α → Except ε β}

/-- What every step of a fold keeps holds in the end. -/
theorem foldlM_keeps (inv : β → Prop) {l : List α} {b b' : β} (h : l.foldlM f b = .ok b')
    (start : inv b) (step : ∀ a ∈ l, ∀ b b', f b a = .ok b' → inv b → inv b') : inv b' := by
  induction l generalizing b with
  | nil =>
      obtain rfl := Except.ok.inj h
      exact start
  | cons a l ih =>
      rw [List.foldlM_cons, bind_eq_ok] at h
      obtain ⟨b₁, first, rest⟩ := h
      refine ih rest (step a List.mem_cons_self b b₁ first start) fun a' mem => ?_
      exact step a' (List.mem_cons_of_mem _ mem)

/-- A fold ends if every step does. `inv` speaks about the members that are behind. -/
theorem foldlM_ends (inv : List α → β → Prop) {l : List α} {b : β} (start : inv [] b)
    (step : ∀ a ∈ l, ∀ done b, inv done b → ∃ b', f b a = .ok b' ∧ inv (a :: done) b') :
    ∃ b', l.foldlM f b = .ok b' ∧ inv l.reverse b' := by
  suffices ∀ done b, inv done b → ∃ b', l.foldlM f b = .ok b' ∧ inv (l.reverse ++ done) b' by
    simpa using this [] b start
  clear start b
  induction l with
  | nil => exact fun done b h => ⟨b, rfl, h⟩
  | cons a l ih =>
      intro done b h
      obtain ⟨b₁, first, h₁⟩ := step a List.mem_cons_self done b h
      obtain ⟨b', rest, h'⟩ :=
        ih (fun a' mem => step a' (List.mem_cons_of_mem _ mem)) (a :: done) b₁ h₁
      refine ⟨b', ?_, by simpa using h'⟩
      rw [List.foldlM_cons, bind_eq_ok]
      exact ⟨b₁, first, rest⟩

end Except

namespace Transition

/-- The rule that an edge calls. -/
def callee? : Transition → Option Nat
  | .call _ rule _ _ => some rule
  | _ => none

/-- Whether the symbol is among those that the label of the edge stands for. -/
def bears (t : Transition) (x low high : Symbol) : Bool :=
  let inAlphabet := decide (low ≤ x) && decide (x ≤ high)
  match t with
  | atom _ label => label == x
  | range _ l h => decide (l ≤ x) && decide (x ≤ h)
  | set _ labels => decide (x ∈ labels)
  | notSet _ labels => inAlphabet && !decide (x ∈ labels)
  | wildcard _ => inAlphabet
  | _ => false

/-- The sets on the edge are in canonical form, which the search for a symbol relies on. -/
def IsCanonical (t : Transition) : Prop :=
  ∀ labels ∈ t.label?, labels.IsSeparated

instance (t : Transition) : Decidable t.IsCanonical :=
  inferInstanceAs (Decidable (∀ labels ∈ t.label?, labels.IsSeparated))

theorem IsCanonical.reads_eq {t : Transition} (h : t.IsCanonical) (x low high : Symbol) :
    t.reads x low high = t.bears x low high := by
  cases t with
  | set target labels =>
      exact Bool.eq_iff_iff.2 ((h labels rfl).contains_iff.trans decide_eq_true_iff.symm)
  | notSet target labels =>
      have found : labels.contains x = decide (x ∈ labels) :=
        Bool.eq_iff_iff.2 ((h labels rfl).contains_iff.trans decide_eq_true_iff.symm)
      simp only [reads, bears, found]
  | _ => rfl

end Transition

namespace Network

variable {n : Network} {start p p' : Place} {rules : List Nat} {x : Symbol}

/-- The symbol can come next: silent moves lead to an edge that bears it. -/
def Foresees (n : Network) (p : Place) (x : Symbol) : Prop :=
  ∃ q frames s e, Relation.ReflTransGen n.Silent p (q, frames) ∧ n.states[q]? = some s ∧
    s.isRuleStop = false ∧ e ∈ s.transitions ∧ e.bears x Symbol.firstToken n.maxToken = true

/-- Silent moves lead to an edge that reads the symbol. -/
def CanRead (n : Network) (p : Place) (x : Symbol) : Prop :=
  ∃ q frames s e, Relation.ReflTransGen n.Silent p (q, frames) ∧ n.states[q]? = some s ∧
    s.isRuleStop = false ∧ e ∈ s.transitions ∧ e.reads x Symbol.firstToken n.maxToken = true

/-- All sets on the edges of the network are in canonical form. -/
def IsCanonical (n : Network) : Prop :=
  ∀ s ∈ n.states, ∀ e ∈ s.transitions, e.IsCanonical

instance (n : Network) : Decidable n.IsCanonical :=
  inferInstanceAs (Decidable (∀ s ∈ n.states, ∀ e ∈ s.transitions, e.IsCanonical))

theorem IsCanonical.canRead_iff (h : n.IsCanonical) : n.CanRead p x ↔ n.Foresees p x := by
  unfold CanRead Foresees
  refine exists_congr fun q => exists_congr fun frames => exists_congr fun s =>
    exists_congr fun e => and_congr_right fun _ => and_congr_right fun here =>
      and_congr_right fun _ => and_congr_right fun mem => ?_
  rw [(h s (Array.mem_of_getElem? here) e mem).reads_eq]

/-- Silent moves lead to the end of a rule without a caller. -/
def CanEnd (n : Network) (p : Place) : Prop :=
  ∃ q s, Relation.ReflTransGen n.Silent p (q, []) ∧ n.states[q]? = some s ∧ s.isRuleStop = true

/-- Silent moves from a place, with the rules that they call. -/
inductive Calls (n : Network) (start : Place) : List Nat → Place → Prop where
  | refl : Calls n start [] start
  | edge {rules : List Nat} {q : Nat} {frames : List Nat} {s : State} {e : Transition} {p : Place}
      (before : Calls n start rules (q, frames)) (here : n.states[q]? = some s)
      (inside : s.isRuleStop = false) (mem : e ∈ s.transitions)
      (cross : e.silently? frames = some p) : Calls n start (e.callee?.toList ++ rules) p
  | back {rules : List Nat} {q resume : Nat} {frames : List Nat} {s : State}
      (before : Calls n start rules (q, resume :: frames)) (here : n.states[q]? = some s)
      (stop : s.isRuleStop = true) : Calls n start rules (resume, frames)

/-- No silent moves from the place call a rule twice. -/
def CallsOnce (n : Network) (start : Place) : Prop :=
  ∀ rules p, n.Calls start rules p → rules.Nodup

theorem Calls.silent (h : n.Calls start rules p) : Relation.ReflTransGen n.Silent start p := by
  induction h with
  | refl => exact .refl
  | edge _ here inside mem cross ih => exact ih.tail (.edge here inside mem cross)
  | back _ here stop ih => exact ih.tail (.back here stop)

theorem Calls.frames_le (h : n.Calls start rules p) :
    p.2.length ≤ start.2.length + rules.length := by
  induction h with
  | refl => exact Nat.le_refl _
  | @edge rules q frames s e p _ _ _ _ cross ih =>
      cases e <;> simp_all [Transition.silently?, Transition.isEpsilon, Transition.callee?] <;>
        subst cross <;> simp only [List.length_cons] <;> omega
  | back _ _ _ ih => exact Nat.le_of_succ_le ih

theorem Calls.rule_lt (wf : n.WellFormed) (h : n.Calls start rules p) :
    ∀ rule ∈ rules, rule < n.ruleStarts.size := by
  induction h with
  | refl => exact fun _ mem => nomatch mem
  | @edge rules q frames s e p _ here _ mem _ ih =>
      intro rule memRule
      rcases List.mem_append.1 memRule with called | before
      · cases e with
        | call target rule' precedence follow =>
            obtain rfl := List.mem_singleton.1 called
            exact (Array.getElem?_eq_some_iff.1 (wf.call_start here mem)).1
        | _ => cases called
      · exact ih rule before
  | back _ _ _ ih => exact ih

/-- A search for a rule that is called twice, over at most `fuel` silent moves in a row. -/
def callsOnceWithin (n : Network) : Nat → List Nat → Place → Bool
  | 0, _, _ => false
  | fuel + 1, rules, p =>
      decide rules.Nodup &&
        match n.states[p.1]? with
        | none => true
        | some s =>
            if s.isRuleStop then
              match p.2 with
              | [] => true
              | resume :: frames => n.callsOnceWithin fuel rules (resume, frames)
            else s.transitions.all fun e => (e.silently? p.2).all fun p' =>
              n.callsOnceWithin fuel (e.callee?.toList ++ rules) p'

theorem callsOnce_of_within {fuel : Nat} (found : n.callsOnceWithin fuel [] start = true) :
    n.CallsOnce start := by
  have searched : ∀ rules p, n.Calls start rules p →
      ∃ fuel, n.callsOnceWithin fuel rules p = true := by
    intro rules p path
    induction path with
    | refl => exact ⟨fuel, found⟩
    | @edge rules q frames s e p before here inside mem cross ih =>
        obtain ⟨_ | fuel, found⟩ := ih
        · cases found
        · simp only [callsOnceWithin, here, inside, Bool.and_eq_true, Bool.false_eq_true, if_false,
            List.all_eq_true] at found
          have next := found.2 e mem
          rw [cross] at next
          exact ⟨fuel, next⟩
    | @back rules q resume frames s before here stop ih =>
        obtain ⟨_ | fuel, found⟩ := ih
        · cases found
        · simp only [callsOnceWithin, here, stop, Bool.and_eq_true, if_true] at found
          exact ⟨fuel, found.2⟩
  intro rules p path
  obtain ⟨_ | fuel, found⟩ := searched rules p path
  · cases found
  · simp only [callsOnceWithin, Bool.and_eq_true, decide_eq_true_eq] at found
    exact found.1

end Network

namespace Lookahead

variable {n : Network} {stop : Option Nat} {ended x : Symbol} {fuel q : Nat}
  {called rules frames : List Nat} {w w' w'' : Walk} {s : State} {e : Transition} {start p : Place}

/-- What a walk does at an edge. -/
def cross (n : Network) (stop : Option Nat) (ended : Symbol) (fuel : Nat) (called frames : List Nat)
    (w : Walk) (e : Transition) : Except Fault Walk :=
  match e with
  | .call target rule _ follow =>
      if n.ruleStarts.size ≤ rule then .error (.noSuchRule rule)
      else if called.contains rule then .ok w
      else visit n stop ended fuel (rule :: called) (follow :: frames) target w
  | .wildcard _ => .ok { w with found := w.found.addRange Symbol.firstToken n.maxToken }
  | .notSet _ labels =>
      .ok { w with found := w.found.addSet (labels.complement Symbol.firstToken n.maxToken) }
  | e =>
      match e.label? with
      | some labels => .ok { w with found := w.found.addSet labels }
      | none => visit n stop ended fuel called frames e.target w

/-- An edge that reads adds the symbols that it reads. -/
theorem cross_reads (n : Network) (stop : Option Nat) (ended : Symbol) (fuel : Nat) (called : List Nat)
    (proper : w.found.IsProper) (reads : e.silently? frames = none) :
    ∃ found, cross n stop ended fuel called frames w e = .ok { w with found } ∧ found.IsProper ∧
      ∀ x, x ∈ found ↔ x ∈ w.found ∨ e.bears x Symbol.firstToken n.maxToken = true := by
  cases e with
  | atom target label =>
      refine ⟨_, rfl, proper.addSet _, fun x => ?_⟩
      rw [IntervalSet.mem_addSet proper, IntervalSet.mem_singleton, Transition.bears, beq_iff_eq,
        eq_comm]
  | range target low high =>
      refine ⟨_, rfl, proper.addSet _, fun x => ?_⟩
      rw [IntervalSet.mem_addSet proper, IntervalSet.mem_ofRange]
      simp [Transition.bears]
  | set target labels =>
      refine ⟨_, rfl, proper.addSet _, fun x => ?_⟩
      rw [IntervalSet.mem_addSet proper]
      simp [Transition.bears]
  | notSet target labels =>
      refine ⟨_, rfl, proper.addSet _, fun x => ?_⟩
      rw [IntervalSet.mem_addSet proper, IntervalSet.mem_complement]
      simp [Transition.bears, Membership.mem]
  | wildcard target =>
      refine ⟨_, rfl, proper.addRange _ _, fun x => ?_⟩
      rw [IntervalSet.mem_addRange proper]
      simp [Transition.bears]
  | epsilon | call | predicate | precedence | action => cases reads

/-- An edge that reads nothing is followed. A rule that counts as called is not called again. -/
theorem cross_silent (silent : e.silently? frames = some p)
    (rule_lt : ∀ rule ∈ e.callee?, rule < n.ruleStarts.size) :
    cross n stop ended fuel called frames w e =
      if ∃ rule ∈ e.callee?, rule ∈ called then .ok w
      else visit n stop ended fuel (e.callee?.toList ++ called) p.2 p.1 w := by
  cases e with
  | call target rule precedence follow =>
      obtain rfl := Option.some.inj silent
      have valid : ¬ n.ruleStarts.size ≤ rule := Nat.not_le.2 (rule_lt rule rfl)
      simp [cross, valid, Transition.callee?]
  | epsilon | predicate | precedence | action =>
      obtain rfl := Option.some.inj silent
      simp [cross, Transition.label?, Transition.callee?, Transition.target]
  | atom | range | set | notSet | wildcard => cases silent

theorem visit_visited (been : (q, frames) ∈ w.visited) :
    visit n stop ended (fuel + 1) called frames q w = .ok w := by
  rw [visit, if_pos (List.contains_iff_mem.2 been)]
  rfl

theorem state_eq_ok : n.state q = .ok s ↔ n.states[q]? = some s := by
  unfold Network.state
  split <;> simp_all

theorem ruleOf_eq_ok (here : n.states[q]? = some s) (lt : s.rule < n.ruleStarts.size) :
    ruleOf n q = .ok s.rule := by
  rw [ruleOf, state_eq_ok.2 here]
  exact if_pos lt

/-- A place that was not visited before, and is not the one to stop at. -/
theorem visit_new (new : (q, frames) ∉ w.visited) (going : ¬ (some q = stop ∧ frames = [])) :
    visit n stop ended (fuel + 1) called frames q w =
      let w := { w with visited := (q, frames) :: w.visited }
      n.state q >>= fun s =>
        if s.isRuleStop then
          match frames with
          | [] => .ok { w with found := w.found.add ended }
          | resume :: outer => ruleOf n resume >>= fun rule =>
              visit n stop ended fuel (called.filter (· ≠ rule)) outer resume w
        else s.transitions.foldlM (cross n stop ended fuel called frames) w := by
  rw [visit, if_neg (mt List.contains_iff_mem.1 new), if_neg going]
  rfl

section Soundness

/-- The symbol can come next, or it stands for the end of the rule and the rule can end. -/
def Comes (n : Network) (ended : Symbol) (p : Place) (x : Symbol) : Prop :=
  n.Foresees p x ∨ x = ended ∧ n.CanEnd p

theorem cross_followed (silent : e.silently? frames = some p)
    (h : cross n stop ended fuel called frames w e = .ok w') :
    w' = w ∨ ∃ called, visit n stop ended fuel called p.2 p.1 w = .ok w' := by
  cases e with
  | call target rule precedence follow =>
      obtain rfl := Option.some.inj silent
      simp only [cross] at h
      split at h
      · cases h
      · split at h
        · exact .inl (Except.ok.inj h).symm
        · exact .inr ⟨_, h⟩
  | epsilon | predicate | precedence | action =>
      obtain rfl := Option.some.inj silent
      exact .inr ⟨_, h⟩
  | atom | range | set | notSet | wildcard => cases silent

/-- What a walk finds can come next where it has begun. -/
theorem visit_sound (h : visit n none ended fuel called frames q w = .ok w')
    (path : Relation.ReflTransGen n.Silent start (q, frames)) (proper : w.found.IsProper) :
    w'.found.IsProper ∧ ∀ x ∈ w'.found, x ∈ w.found ∨ Comes n ended start x := by
  induction fuel generalizing called frames q w w' with
  | zero => cases h
  | succ fuel ih =>
      by_cases new : (q, frames) ∈ w.visited
      · rw [visit_visited new] at h
        obtain rfl := Except.ok.inj h
        exact ⟨proper, fun x mem => .inl mem⟩
      rw [visit_new new (by simp)] at h
      obtain ⟨s, here, h⟩ := Except.bind_eq_ok.1 h
      rw [state_eq_ok] at here
      cases stop : s.isRuleStop with
      | true =>
          rw [if_pos stop] at h
          cases frames with
          | nil =>
              obtain rfl := Except.ok.inj h
              refine ⟨proper.add ended, fun x mem => ?_⟩
              exact ((IntervalSet.mem_add proper).1 mem).imp_right fun last =>
                .inr ⟨last, q, s, path, here, stop⟩
          | cons resume outer =>
              obtain ⟨rule, -, h⟩ := Except.bind_eq_ok.1 h
              have sound := ih h (path.tail (.back here stop)) proper
              exact sound
      | false =>
          rw [if_neg (by simp [stop])] at h
          refine Except.foldlM_keeps (fun v : Walk => v.found.IsProper ∧
            ∀ x ∈ v.found, x ∈ w.found ∨ Comes n ended start x) h ⟨proper, fun x mem => .inl mem⟩ ?_
          rintro e mem v v' crossed ⟨proper, sound⟩
          cases silent : e.silently? frames with
          | none =>
              obtain ⟨found, added, proper', members⟩ :=
                cross_reads n none ended fuel called proper silent
              obtain rfl := Except.ok.inj (added.symm.trans crossed)
              refine ⟨proper', fun x mem' => ?_⟩
              rcases (members x).1 mem' with old | reads
              · exact sound x old
              · exact .inr (.inl ⟨q, frames, s, e, path, here, stop, mem, reads⟩)
          | some p =>
              rcases cross_followed silent crossed with rfl | ⟨called', visited⟩
              · exact ⟨proper, sound⟩
              · obtain ⟨proper', sound'⟩ :=
                  ih visited (path.tail (.edge here stop mem silent)) proper
                exact ⟨proper', fun x mem' => (sound' x mem').elim (sound x) .inr⟩

end Soundness

section Completeness

/-- All that a place leads to has been visited and found. -/
structure Covers (n : Network) (ended : Symbol) (w : Walk) (p : Place) : Prop where
  silent : ∀ p', n.Silent p p' → p' ∈ w.visited
  reads : ∀ s e x, n.states[p.1]? = some s → s.isRuleStop = false → e ∈ s.transitions →
    e.bears x Symbol.firstToken n.maxToken = true → x ∈ w.found
  ended : ∀ s, n.states[p.1]? = some s → s.isRuleStop = true → p.2 = [] → ended ∈ w.found

/-- The walk has gone on to `w'`, and is through with all places that are new in it. -/
structure Explores (n : Network) (ended : Symbol) (w w' : Walk) : Prop where
  visited : ∀ p ∈ w.visited, p ∈ w'.visited
  found : ∀ x ∈ w.found, x ∈ w'.found
  covers : ∀ p ∈ w'.visited, p ∈ w.visited ∨ Covers n ended w' p

theorem Covers.mono (h : Covers n ended w p) (visited : ∀ p ∈ w.visited, p ∈ w'.visited)
    (found : ∀ x ∈ w.found, x ∈ w'.found) : Covers n ended w' p where
  silent p' move := visited p' (h.silent p' move)
  reads s e x here inside mem reads := found x (h.reads s e x here inside mem reads)
  ended s here stop bottom := found ended (h.ended s here stop bottom)

theorem Explores.refl (w : Walk) : Explores n ended w w :=
  ⟨fun _ mem => mem, fun _ mem => mem, fun _ mem => .inl mem⟩

theorem Explores.trans (h : Explores n ended w w') (h' : Explores n ended w' w'') :
    Explores n ended w w'' where
  visited p mem := h'.visited p (h.visited p mem)
  found x mem := h'.found x (h.found x mem)
  covers p mem := by
    rcases h'.covers p mem with before | covers
    · exact (h.covers p before).imp_right fun covers => covers.mono h'.visited h'.found
    · exact .inr covers

/-- The places that were visited are distinct, and have at most `height` frames. -/
structure Fits (n : Network) (height : Nat) (w : Walk) : Prop where
  proper : w.found.IsProper
  nodup : w.visited.Nodup
  inRange : ∀ p ∈ w.visited, n.InRange p ∧ p.2.length ≤ height

/-- The entry of a word, or the blank `size` behind its end. -/
theorem getD_lt_succ {size : Nat} {word : List Nat} (small : ∀ q ∈ word, q < size) (i : Nat) :
    (word[i]?).getD size < size + 1 := by
  cases entry : word[i]? with
  | none => exact Nat.lt_succ_self _
  | some q => exact Nat.lt_succ_of_lt (small q (List.mem_of_getElem? entry))

/-- Words over the numbers below `size` are equal if their entries are, with `size` as a blank
behind their ends. -/
theorem eq_of_getD_eq {size : Nat} {word word' : List Nat} (small : ∀ q ∈ word, q < size)
    (small' : ∀ q ∈ word', q < size) (same : ∀ i : Nat, (word[i]?).getD size = (word'[i]?).getD size) :
    word = word' := by
  refine List.ext_getElem? fun i => ?_
  have same := same i
  cases entry : word[i]? with
  | none =>
      cases entry' : word'[i]? with
      | none => rfl
      | some q' =>
          rw [entry, entry'] at same
          exact absurd same.symm (small' q' (List.mem_of_getElem? entry')).ne
  | some q =>
      cases entry' : word'[i]? with
      | none =>
          rw [entry, entry'] at same
          exact absurd same (small q (List.mem_of_getElem? entry)).ne
      | some q' =>
          rw [entry, entry'] at same
          exact congrArg some same

/-- There are no more places with at most `height` frames than words of that length and one more
over the states and a blank. -/
theorem Fits.length_le {height : Nat} (fits : Fits n height w) :
    w.visited.length ≤ (n.states.size + 1) ^ (height + 1) := by
  let code (p : Place) (i : Fin (height + 1)) : Fin (n.states.size + 1) :=
    Fin.ofNat (n.states.size + 1) (((p.1 :: p.2)[(i : Nat)]?).getD n.states.size)
  have injective : ∀ p ∈ w.visited, ∀ p' ∈ w.visited, code p = code p' → p = p' := by
    intro p mem p' mem' same
    obtain ⟨inRange, short⟩ := fits.inRange p mem
    obtain ⟨inRange', short'⟩ := fits.inRange p' mem'
    have small : ∀ q ∈ p.1 :: p.2, q < n.states.size := List.forall_mem_cons.2 inRange
    have small' : ∀ q ∈ p'.1 :: p'.2, q < n.states.size := List.forall_mem_cons.2 inRange'
    have words : p.1 :: p.2 = p'.1 :: p'.2 := by
      refine eq_of_getD_eq small small' fun i => ?_
      by_cases inside : i < height + 1
      · have entries := congrArg Fin.val (congrFun same ⟨i, inside⟩)
        simp only [code, Fin.val_ofNat] at entries
        rwa [Nat.mod_eq_of_lt (getD_lt_succ small i),
          Nat.mod_eq_of_lt (getD_lt_succ small' i)] at entries
      · rw [List.getElem?_eq_none (by simp only [List.length_cons]; omega),
          List.getElem?_eq_none (by simp only [List.length_cons]; omega)]
    obtain ⟨state, frames⟩ := List.cons.inj words
    exact Prod.ext state frames
  have card := (fits.nodup.map_on injective).length_le_card
  simpa using card

theorem Fits.enter {height : Nat} (fits : Fits n height w) (new : p ∉ w.visited)
    (inRange : n.InRange p) (short : p.2.length ≤ height) :
    Fits n height { w with visited := p :: w.visited } where
  proper := fits.proper
  nodup := fits.nodup.cons new
  inRange := List.forall_mem_cons.2 ⟨⟨inRange, short⟩, fits.inRange⟩

/-- A place counts as visited from the start, so it has to be covered in the end. -/
theorem Explores.enter (h : Explores n ended { w with visited := p :: w.visited } w')
    (covers : Covers n ended w' p) : Explores n ended w w' ∧ p ∈ w'.visited := by
  refine ⟨⟨fun p' mem => h.visited p' (.tail _ mem), h.found, fun p' mem => ?_⟩,
    h.visited p (.head _)⟩
  rcases h.covers p' mem with before | covers'
  · rcases List.mem_cons.1 before with rfl | before
    · exact .inr covers
    · exact .inl before
  · exact .inr covers'

theorem Explores.length_le (h : Explores n ended w w') (nodup : w.visited.Nodup) :
    w.visited.length ≤ w'.visited.length :=
  (List.subperm_of_subset nodup h.visited).length_le

/-- What an edge leads to has been visited, and what it reads has been found. -/
def Taken (n : Network) (frames : List Nat) (w : Walk) (e : Transition) : Prop :=
  (∀ p, e.silently? frames = some p → p ∈ w.visited) ∧
    ∀ x, e.bears x Symbol.firstToken n.maxToken = true → x ∈ w.found

theorem reads_of_silent (silent : e.silently? frames = some p) {low high : Symbol} :
    e.bears x low high = false := by
  cases e <;> simp_all [Transition.silently?, Transition.isEpsilon, Transition.bears]

/-- A walk takes all edges of a place if it can follow each of them that reads nothing. -/
theorem cross_all {height : Nat} {edges : List Transition} (fits : Fits n height w)
    (follow : ∀ e ∈ edges, ∀ p, e.silently? frames = some p → ∀ v, Fits n height v →
      Explores n ended w v → ∃ v', cross n none ended fuel called frames v e = .ok v' ∧
        Fits n height v' ∧ Explores n ended v v' ∧ p ∈ v'.visited) :
    ∃ w', edges.foldlM (cross n none ended fuel called frames) w = .ok w' ∧ Fits n height w' ∧
      Explores n ended w w' ∧ ∀ e ∈ edges, Taken n frames w' e := by
  let inv (done : List Transition) (v : Walk) : Prop :=
    Fits n height v ∧ Explores n ended w v ∧ ∀ e ∈ done, Taken n frames v e
  have step : ∀ e ∈ edges, ∀ done v, inv done v →
      ∃ v', cross n none ended fuel called frames v e = .ok v' ∧ inv (e :: done) v' := by
    rintro e mem done v ⟨fits, explores, taken⟩
    have keep {v' : Walk} (next : Explores n ended v v') (this : Taken n frames v' e) :
        Explores n ended w v' ∧ ∀ e' ∈ e :: done, Taken n frames v' e' := by
      refine ⟨explores.trans next, List.forall_mem_cons.2 ⟨this, fun e' mem' => ?_⟩⟩
      obtain ⟨silent, reads⟩ := taken e' mem'
      exact ⟨fun p silently => next.visited p (silent p silently),
        fun x reading => next.found x (reads x reading)⟩
    cases silent : e.silently? frames with
    | none =>
        obtain ⟨found, run, proper, members⟩ :=
          cross_reads n none ended fuel called fits.proper silent
        refine ⟨_, run, ⟨proper, fits.nodup, fits.inRange⟩, keep ⟨fun _ mem => mem,
          fun x mem => (members x).2 (.inl mem), fun _ mem => .inl mem⟩ ⟨fun p silently => ?_,
          fun x reading => (members x).2 (.inr reading)⟩⟩
        cases silent.symm.trans silently
    | some p =>
        obtain ⟨v', run, fits', next, visited⟩ := follow e mem p silent v fits explores
        refine ⟨v', run, fits', keep next ⟨fun p' silently => ?_, fun x reading => ?_⟩⟩
        · exact Option.some.inj (silent.symm.trans silently) ▸ visited
        · cases (reads_of_silent silent).symm.trans reading
  obtain ⟨w', run, fits', explores, taken⟩ :=
    Except.foldlM_ends inv ⟨fits, .refl w, fun _ mem => nomatch mem⟩ step
  exact ⟨w', run, fits', explores, fun e mem => taken e (List.mem_reverse.2 mem)⟩

variable (wf : n.WellFormed)
  (rules_lt : ∀ (q : Nat) (s : State), n.states[q]? = some s → s.rule < n.ruleStarts.size)

include wf

theorem frames_le (once : n.CallsOnce start) (path : n.Calls start rules p) :
    p.2.length ≤ start.2.length + n.ruleStarts.size := by
  have few : rules.length ≤ n.ruleStarts.size := by
    have sub : rules ⊆ List.range n.ruleStarts.size := fun rule mem =>
      List.mem_range.2 (path.rule_lt wf rule mem)
    simpa using (List.subperm_of_subset (once rules p path) sub).length_le
  have := path.frames_le
  omega

include rules_lt

/-- A walk that calls no rule twice comes to its end, and is then through with every place that
it has visited. -/
theorem visit_explores (ended : Symbol) (inRange : n.InRange start) (once : n.CallsOnce start)
    (path : n.Calls start rules (q, frames)) (sub : ∀ rule ∈ called, rule ∈ rules)
    (fits : Fits n (start.2.length + n.ruleStarts.size) w)
    (enough : (n.states.size + 1) ^ (start.2.length + n.ruleStarts.size + 1) <
      fuel + w.visited.length) :
    ∃ w', visit n none ended fuel called frames q w = .ok w' ∧
      Fits n (start.2.length + n.ruleStarts.size) w' ∧ Explores n ended w w' ∧
      (q, frames) ∈ w'.visited := by
  induction fuel generalizing called rules frames q w with
  | zero =>
      have := fits.length_le
      omega
  | succ fuel ih =>
      by_cases new : (q, frames) ∈ w.visited
      · exact ⟨w, visit_visited new, fits, .refl w, new⟩
      have here : n.InRange (q, frames) := inRange.path wf path.silent
      have fits₁ := fits.enter new here (frames_le wf once path)
      have enough₁ : (n.states.size + 1) ^ (start.2.length + n.ruleStarts.size + 1) <
          fuel + ((q, frames) :: w.visited).length := by
        rw [List.length_cons]
        omega
      obtain ⟨s, hs⟩ : ∃ s, n.states[q]? = some s := ⟨_, Array.getElem?_eq_getElem here.1⟩
      rw [visit_new new (by simp)]
      rw [state_eq_ok.2 hs]
      cases stop : s.isRuleStop with
      | true =>
          have noEdge (v : Walk) (e : Transition) : ¬ s.isRuleStop = false := by simp [stop]
          cases frames with
          | nil =>
              refine ⟨_, if_pos stop, ⟨fits.proper.add ended, fits₁.nodup, fits₁.inRange⟩,
                Explores.enter ⟨fun _ mem => mem, fun x mem => ?_, fun _ mem => .inl mem⟩
                  ⟨fun p' move => ?_, fun s' e x hs' inside => ?_, fun _ _ _ _ => ?_⟩⟩
              · exact (IntervalSet.mem_add fits.proper).2 (.inl mem)
              · cases move.of_stop hs stop
              · obtain rfl := Option.some.inj (hs.symm.trans hs')
                cases stop.symm.trans inside
              · exact (IntervalSet.mem_add fits.proper).2 (.inr rfl)
          | cons resume outer =>
              obtain ⟨r, hr⟩ : ∃ r, n.states[resume]? = some r :=
                ⟨_, Array.getElem?_eq_getElem (here.2 resume (.head _))⟩
              have sub' : ∀ rule ∈ called.filter (· ≠ r.rule), rule ∈ rules := fun rule mem =>
                sub rule (List.mem_of_mem_filter mem)
              obtain ⟨w', run, fits', explores, visited⟩ :=
                ih (path.back hs stop) sub' fits₁ enough₁
              have covers : Covers n ended w' (q, resume :: outer) := by
                refine ⟨fun p' move => ?_, fun s' e x hs' inside => ?_, fun _ _ _ bottom => ?_⟩
                · obtain ⟨rfl, rfl⟩ := List.cons.inj (move.of_stop hs stop)
                  exact visited
                · obtain rfl := Option.some.inj (hs.symm.trans hs')
                  cases stop.symm.trans inside
                · cases bottom
              refine ⟨w', (if_pos stop).trans ?_, fits', explores.enter covers⟩
              rw [ruleOf_eq_ok hr (rules_lt resume r hr)]
              exact run
      | false =>
          have follow : ∀ e ∈ s.transitions, ∀ p, e.silently? frames = some p → ∀ v,
              Fits n (start.2.length + n.ruleStarts.size) v →
              Explores n ended { w with visited := (q, frames) :: w.visited } v →
              ∃ v', cross n none ended fuel called frames v e = .ok v' ∧
                Fits n (start.2.length + n.ruleStarts.size) v' ∧ Explores n ended v v' ∧
                p ∈ v'.visited := by
            intro e mem p silent v fitsV explores
            have path' := path.edge hs stop mem silent
            have rule_lt : ∀ rule ∈ e.callee?, rule < n.ruleStarts.size := fun rule calls =>
              path'.rule_lt wf rule (List.mem_append_left _ (Option.mem_toList.2 calls))
            have fresh : ¬ ∃ rule ∈ e.callee?, rule ∈ called := by
              rintro ⟨rule, calls, again⟩
              exact (List.nodup_append.1 (once _ _ path')).2.2 rule (Option.mem_toList.2 calls)
                rule (sub rule again) rfl
            have longer : ((q, frames) :: w.visited).length ≤ v.visited.length :=
              explores.length_le fits₁.nodup
            rw [cross_silent silent rule_lt, if_neg fresh]
            refine ih path' (fun rule mem => ?_) fitsV (by omega)
            exact List.mem_append.2 ((List.mem_append.1 mem).imp_right (sub rule))
          obtain ⟨w', run, fits', explores, taken⟩ := cross_all fits₁ follow
          have covers : Covers n ended w' (q, frames) := by
            refine ⟨fun p' move => ?_, fun s' e x hs' _ mem reads => ?_, fun s' hs' stop' => ?_⟩
            · obtain ⟨e, mem, silent⟩ := move.of_inside hs stop
              exact (taken e mem).1 p' silent
            · obtain rfl := Option.some.inj (hs.symm.trans hs')
              exact (taken e mem).2 x reads
            · obtain rfl := Option.some.inj (hs.symm.trans hs')
              cases stop.symm.trans stop'
          refine ⟨w', (if_neg (by simp [stop])).trans run, fits', explores.enter covers⟩

end Completeness

end Lookahead

namespace Network

open Lookahead

variable {n : Network} {q : Nat} {callers : Callers} {set : IntervalSet} {x : Symbol}

/-- What a lookahead set holds can come next, or stands for the end of the rule. -/
theorem look_sound (h : n.look q none callers = .ok set) (mem : x ∈ set) :
    n.Foresees (q, callers.frames) x ∨ x = callers.ended ∧ n.CanEnd (q, callers.frames) := by
  simp only [look] at h
  cases run : visit n none callers.ended (bound n callers.frames) [] callers.frames q {} with
  | error fault => simp [run, Except.map] at h
  | ok w =>
      rw [run] at h
      obtain rfl := Except.ok.inj h
      obtain ⟨-, sound⟩ := visit_sound run .refl IntervalSet.isProper_empty
      exact (sound x mem).resolve_left IntervalSet.not_mem_empty

/-- The bound of a walk exceeds the number of places that it can visit. -/
theorem lt_bound (n : Network) (frames : List Nat) :
    (n.states.size + 1) ^ (frames.length + n.ruleStarts.size + 1) < bound n frames := by
  have wide : 1 < n.states.size + frames.length + 2 := by omega
  calc (n.states.size + 1) ^ (frames.length + n.ruleStarts.size + 1)
      ≤ (n.states.size + frames.length + 2) ^ (frames.length + n.ruleStarts.size + 1) :=
        Nat.pow_le_pow_left (by omega) _
    _ < (n.states.size + frames.length + 2) ^ (frames.length + n.ruleStarts.size + 2) :=
        Nat.pow_lt_pow_right wide (Nat.lt_succ_self _)

/-- A lookahead set is exact if no rule is called twice on the way to the next symbol. -/
theorem look_exact (callers : Callers) (wf : n.WellFormed)
    (rules_lt : ∀ (q : Nat) (s : State), n.states[q]? = some s → s.rule < n.ruleStarts.size)
    (inRange : n.InRange (q, callers.frames)) (once : n.CallsOnce (q, callers.frames)) :
    ∃ set, n.look q none callers = .ok set ∧ ∀ x, x ∈ set ↔
      n.Foresees (q, callers.frames) x ∨ x = callers.ended ∧ n.CanEnd (q, callers.frames) := by
  have enough : (n.states.size + 1) ^ (callers.frames.length + n.ruleStarts.size + 1) <
      bound n callers.frames + ({} : Walk).visited.length := lt_bound n callers.frames
  have fits : Fits n (callers.frames.length + n.ruleStarts.size) {} :=
    ⟨IntervalSet.isProper_empty, .nil, fun _ mem => nomatch mem⟩
  obtain ⟨w, run, -, explores, visited⟩ :=
    visit_explores wf rules_lt callers.ended inRange once .refl (List.Subset.refl []) fits enough
  have covers : ∀ p, Relation.ReflTransGen n.Silent (q, callers.frames) p →
      p ∈ w.visited ∧ Covers n callers.ended w p := by
    intro p path
    have isCovered {p : Place} (mem : p ∈ w.visited) : Covers n callers.ended w p :=
      (explores.covers p mem).resolve_left fun old => nomatch old
    induction path with
    | refl => exact ⟨visited, isCovered visited⟩
    | tail _ move ih =>
        have mem := ih.2.silent _ move
        exact ⟨mem, isCovered mem⟩
  have looked : n.look q none callers = .ok w.found := by
    rw [look, run]
    rfl
  refine ⟨w.found, looked, fun x => ⟨look_sound looked, ?_⟩⟩
  rintro (⟨q', frames, s, e, path, here, inside, mem, reads⟩ | ⟨rfl, q', s, path, here, stop⟩)
  · exact (covers _ path).2.reads s e x here inside mem reads
  · exact (covers _ path).2.ended s here stop rfl

/-- The tokens that can come next inside a rule, and `epsilon` if the rule can end first. -/
theorem nextTokens_exact {kind : GrammarKind} {plan : Blueprint}
    (built : Network.assemble kind plan = .ok n)
    (rules_lt : ∀ (q : Nat) (s : State), n.states[q]? = some s → s.rule < n.ruleStarts.size)
    (canonical : n.IsCanonical) (inside : q < n.states.size) (once : n.CallsOnce (q, [])) :
    ∃ set, n.nextTokens q = .ok set ∧
      (∀ x, x ≠ Symbol.epsilon → (x ∈ set ↔ n.CanRead (q, []) x)) ∧
      (¬ n.CanRead (q, []) Symbol.epsilon → (Symbol.epsilon ∈ set ↔ n.CanEnd (q, []))) := by
  obtain ⟨set, looked, members⟩ := look_exact .unknown (wellFormed_of_assemble built) rules_lt
    ⟨inside, fun _ mem => nomatch mem⟩ once
  refine ⟨set, looked, fun x other => (members x).trans ?_, fun unread => (members _).trans ?_⟩
  · rw [canonical.canRead_iff]
    exact or_iff_left fun last => other last.1
  · rw [canonical.canRead_iff] at unread
    exact (or_iff_right unread).trans (and_iff_right rfl)

/-- A rule that calls an empty rule twice and then reads a token. -/
def twice : Blueprint where
  maxToken := 1
  states := [
    { rule := 0, kind := .ruleStart 4 false, transitions := [.plain 1] },
    { rule := 0, kind := .basic, transitions := [.call 5 1 0 2] },
    { rule := 0, kind := .basic, transitions := [.call 5 1 0 3] },
    { rule := 0, kind := .basic, transitions := [.atom 4 1] },
    { rule := 0, kind := .ruleStop },
    { rule := 1, kind := .ruleStart 6 false, transitions := [.plain 6] },
    { rule := 1, kind := .ruleStop }]
  rules := [⟨0, none⟩, ⟨5, none⟩]

/-- The network of `twice`, where the end of the empty rule goes back to both calls. -/
def twiceNetwork : Network where
  kind := .parser
  maxToken := 1
  states := #[
    { rule := 0, kind := .ruleStart 4 false, transitions := [.plain 1] },
    { rule := 0, kind := .basic, transitions := [.call 5 1 0 2] },
    { rule := 0, kind := .basic, transitions := [.call 5 1 0 3] },
    { rule := 0, kind := .basic, transitions := [.atom 4 1] },
    { rule := 0, kind := .ruleStop },
    { rule := 1, kind := .ruleStart 6 false, transitions := [.plain 6] },
    { rule := 1, kind := .ruleStop, transitions := [.epsilon 2 none, .epsilon 3 none] }]
  decisions := #[]
  ruleStarts := #[0, 5]
  ruleStops := #[4, 6]
  ruleTokens := #[]
  modes := #[]
  actions := #[]

/-- Behind the first call the lookahead is exact. -/
theorem nextTokens_exact_twice : ∃ set, twiceNetwork.nextTokens 2 = .ok set ∧
    (1 ∈ set ↔ twiceNetwork.CanRead (2, []) 1) := by
  have built : Network.assemble .parser twice = .ok twiceNetwork := by decide +kernel
  have rules_lt : ∀ (q : Nat) (s : State), twiceNetwork.states[q]? = some s →
      s.rule < twiceNetwork.ruleStarts.size := by
    have all : ∀ s ∈ twiceNetwork.states, s.rule < twiceNetwork.ruleStarts.size := by decide
    exact fun q s here => all s (Array.mem_of_getElem? here)
  have canonical : twiceNetwork.IsCanonical := by decide +kernel
  have found : twiceNetwork.callsOnceWithin 5 [] (2, []) = true := by decide
  obtain ⟨set, looked, members, -⟩ :=
    nextTokens_exact built rules_lt canonical (by decide) (callsOnce_of_within found)
  exact ⟨set, looked, members 1 (by decide)⟩

/-- The token behind two calls of an empty rule comes next, but is not found: the walk takes the
rule for one that it is still in when it meets the second call. -/
theorem nextTokens_twice : Network.assemble .parser twice = .ok twiceNetwork ∧
    twiceNetwork.nextTokens 0 = .ok ∅ ∧ twiceNetwork.CanRead (0, []) 1 := by
  refine ⟨by decide +kernel, by decide +kernel, 3, [], _, .atom 4 1, ?_, rfl, rfl, .head _, rfl⟩
  refine .head (.edge (t := .plain 1) rfl rfl (.head _) rfl) ?_
  refine .head (.edge (t := .call 5 1 0 2) rfl rfl (.head _) rfl) ?_
  refine .head (.edge (t := .plain 6) rfl rfl (.head _) rfl) (.head (.back rfl rfl) ?_)
  refine .head (.edge (t := .call 5 1 0 3) rfl rfl (.head _) rfl) ?_
  exact .head (.edge (t := .plain 6) rfl rfl (.head _) rfl) (.single (.back rfl rfl))

end Network

end AdaptiveLL
