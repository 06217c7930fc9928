import AdaptiveLL.Grammar.Samples
import AdaptiveLL.Proofs.Prediction.Adaptive
/-!
Sessions: predictions one after the other, by any parsers of one grammar, that share the
tables. Whatever the tables have learned meanwhile, a prediction cannot be seen from outside
except by its answer.
-/
namespace AdaptiveLL

namespace Network

/-- The alternatives of a state are the numbers of its edges. -/
def HasEdge (n : Network) (q alt : Nat) : Prop :=
  1 ≤ alt ∧ ∃ s, n.states[q]? = some s ∧ alt ≤ s.transitions.length

theorem offers_hasEdge (n : Network) : n.Offers n.HasEdge :=
  fun _ s here _ pos le => ⟨pos, s, here, le⟩

end Network

namespace Tables

/-- New tables are empty. -/
theorem Within.ofNetwork (n : Network) (P : Nat → Nat → Prop) : (Tables.ofNetwork n).Within P := by
  intro table mem d here
  unfold Tables.ofNetwork at mem
  split at mem
  · obtain ⟨i, lt, rfl⟩ := Array.getElem_of_mem mem
    simp at here
  · obtain ⟨i, lt, rfl⟩ := Array.getElem_of_mem mem
    simp at here

theorem starts_ofNetwork {n : Network} (parses : n.kind = .parser) :
    (Tables.ofNetwork n).starts = n.decisions := by
  refine Array.ext (by simp [Tables.starts, Tables.ofNetwork, parses]) fun i _ _ => ?_
  simp [Tables.starts, Tables.ofNetwork, parses]

/-- So are tables that have been cleared. -/
theorem within_clear (t : Tables) (P : Nat → Nat → Prop) : t.clear.Within P := by
  intro table mem d here
  obtain ⟨old, -, rfl⟩ := Array.mem_map.1 mem
  simp [PredictionTable.clear] at here

@[simp] theorem starts_clear (t : Tables) : t.clear.starts = t.starts := by
  simp [Tables.starts, Tables.clear, PredictionTable.clear, Function.comp_def]

/-- The tables that a session can have left behind whose predictions were made in modes of
which `Mode` holds. -/
inductive Learned (g : Grammar) (Mode : PredictionMode → Prop) : Tables → Prop
  | new : Learned g Mode (.ofNetwork g.network)
  | predict {σ τ : Type} [TokenSource σ] {s : Simulation σ τ} (earlier : Learned g Mode s.tables)
      {mode : PredictionMode} (permitted : Mode mode) (fuel decision : Nat)
      (situation : Situation τ) :
      Learned g Mode ((Prediction.adaptivePredict g mode fuel decision situation).run s).2.tables
  | clear {t : Tables} (earlier : Learned g Mode t) : Learned g Mode t.clear

namespace Learned

variable {g : Grammar} {Mode : PredictionMode → Prop} {t : Tables}

theorem starts_within (h : t.Learned g Mode) :
    t.starts = (Tables.ofNetwork g.network).starts ∧ t.Within g.network.HasEdge := by
  induction h with
  | new => exact ⟨rfl, .ofNetwork _ _⟩
  | clear _ ih => exact ⟨(starts_clear _).trans ih.1, within_clear _ _⟩
  | @predict σ τ _ s _ mode _ fuel decision situation ih =>
      have ensures := Prediction.adaptivePredict_ensures mode fuel decision situation ih.2
        g.network.offers_hasEdge
      unfold Step.Ensures at ensures
      split at ensures <;> rename_i s' run <;> rw [run]
      · exact ⟨ensures.1.starts.trans ih.1, ensures.1.within⟩
      · exact ⟨ensures.1.starts.trans ih.1, ensures.1.within⟩

end Learned

end Tables

namespace Prediction

variable {σ τ : Type} [TokenSource σ] {s s' : Simulation σ τ} {place : Nat}

theorem Predicted.ahead {P : Nat → Nat → Prop} {c : Situation τ} (h : Predicted P c s s')
    (sound : s.input.Sound) (read : s.input.position = some place) : s.input.Ahead s'.input := by
  have ahead := h.input.ahead
  rwa [read, ← h.position sound read, ← h.marks] at ahead

/-- A prediction from a stream that has been read before cannot be seen. Whatever comes out,
the cursor is where it was, the marks are as many, and the stream answers to everything as it
would have; the host has been asked only while the cursor stood where the prediction began;
and the alternative, if there is one, is the number of an edge of the decision state. -/
theorem adaptivePredict_invisible {g : Grammar} (mode : PredictionMode) (fuel decision : Nat)
    (situation : Situation τ) (learned : s.tables.Learned g fun _ => True)
    (sound : s.input.Sound) (read : s.input.position = some place) :
    let outcome := (adaptivePredict g mode fuel decision situation).run s
    outcome.2.input.position = some place ∧ outcome.2.input.marks = s.input.marks ∧
      (∀ uses, outcome.2.input.answers uses = s.input.answers uses) ∧
      situation.Asked place s.host outcome.2.host ∧
      ∀ alt, outcome.1 = .ok alt → ∃ number state,
        (Tables.ofNetwork g.network).starts[decision]? = some number ∧
          g.network.states[number]? = some state ∧ 1 ≤ alt ∧ alt ≤ state.transitions.length := by
  intro outcome
  obtain ⟨starts, within⟩ := learned.starts_within
  have ensures := adaptivePredict_ensures mode fuel decision situation within
    g.network.offers_hasEdge
  have unseen (h : Predicted g.network.HasEdge situation s outcome.2) :
      outcome.2.input.position = some place ∧ outcome.2.input.marks = s.input.marks ∧
        (∀ uses, outcome.2.input.answers uses = s.input.answers uses) ∧
        situation.Asked place s.host outcome.2.host :=
    ⟨h.position sound read, h.marks, (h.ahead sound read).answers sound, h.host sound read⟩
  obtain ⟨answer, last, run⟩ : ∃ answer last, outcome = (answer, last) := ⟨_, _, rfl⟩
  cases answer with
  | error e =>
      obtain ⟨predicted, -⟩ := ensures.error run
      rw [run] at unseen ⊢
      obtain ⟨position, marks, answers, asked⟩ := unseen predicted
      exact ⟨position, marks, answers, asked, by simp⟩
  | ok alt =>
      obtain ⟨predicted, number, known, pos, state, here, le⟩ := ensures.ok run
      rw [run] at unseen ⊢
      obtain ⟨position, marks, answers, asked⟩ := unseen predicted
      refine ⟨position, marks, answers, asked, ?_⟩
      rintro _ ⟨⟩
      exact ⟨number, state, starts ▸ known, here, pos, le⟩

/-- A host that notes every question, for the first decision of a grammar with two predicates. -/
theorem adaptivePredict_invisible_predicated : ∃ n, Samples.predicated.rules.build = .ok n ∧
    let g : Grammar := { network := n, names := Samples.predicated.names }
    let situation : Situation (List Question) := {
      node := some 0, invoking := [], precedence := 0, state := 0
      ask := fun question asked => (question.index == 1, question :: asked) }
    let word : TokenList := { tokens := #[{ type := 1, text? := some "a" }] }
    let input : TokenStream TokenList := { source := word }
    let s : Simulation TokenList (List Question) := .ofInput n (.ofNetwork n) input.start []
    s.tables.Learned g (fun _ => True) ∧ s.input.Sound ∧ s.input.position = some 0 ∧
      let outcome := (adaptivePredict g .ll 100 0 situation).run s
      outcome.2.input.position = some 0 ∧ outcome.2.input.marks = s.input.marks ∧
        (∀ uses, outcome.2.input.answers uses = s.input.answers uses) ∧
        situation.Asked 0 s.host outcome.2.host ∧
        ∀ alt, outcome.1 = .ok alt → ∃ number state,
          (Tables.ofNetwork g.network).starts[0]? = some number ∧
            g.network.states[number]? = some state ∧ 1 ≤ alt ∧ alt ≤ state.transitions.length := by
  have known : Samples.predicated.rules.build.toOption.isSome = true := by decide +kernel
  cases built : Samples.predicated.rules.build with
  | error e => simp [built, Except.toOption] at known
  | ok n =>
      have prompt (tokens : Array Token) (channel : Nat) :
          TokenSource.Prompt channel ({ tokens } : TokenList) :=
        TokenList.Ends.prompt (fun t mem => by simp at mem) channel
      refine ⟨n, rfl, ?_⟩
      intro g situation word input s
      have sound : s.input.Sound :=
        (TokenStream.start_passes input).sound (.ofSource (prompt _ _))
      have read : s.input.position = some 0 := rfl
      exact ⟨.new, sound, read, adaptivePredict_invisible .ll 100 0 situation .new sound read⟩

end Prediction

end AdaptiveLL
