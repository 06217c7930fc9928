import AdaptiveLL.Grammar.Description
import AdaptiveLL.Grammar.Samples
import AdaptiveLL.Proofs.Network.Written
/-!
The text of a description can be read. A description whose numbers have the size that is stored
comes back as it was, with all the lexers embedded in it, if its lists and objects are nested no
deeper than is read; a lexer that is embedded too deep makes the text unreadable.
-/
namespace AdaptiveLL

open Json (Value listUnlessEmpty)
open Json.Value

theorem Vocabulary.keeps (v : Vocabulary) : Keeps toJson ofJson? v := by
  have names (table : Array (Option String)) : Keeps (ofList (ofOption text))
      (asList? (orNull? asText?)) table.toList :=
    keeps_list fun _ _ => keeps_option (fun s _ => keeps_text s) nofun
  have literals := names v.literals
  have symbolics := names v.symbolics
  refine ⟨?_, ?_⟩
  · simp [toJson, isExact_object, MembersExact, literals.exact, symbolics.exact]
  · simp [toJson, ofJson?, fields?_object, List.lookup_cons, literals.reads, symbolics.reads]

theorem GrammarKind.keeps (kind : GrammarKind) :
    Keeps (fun kind => .text (tag kind)) (asName? tags) kind where
  exact := (keeps_text kind.tag).exact
  reads := by cases kind <;> simp [asName?, tags, tag, List.lookup_cons]

namespace Description

variable {g : GrammarPlan} {ls : List GrammarPlan}

theorem keys_members (g : GrammarPlan) :
    ((members g).map Prod.fst).Sublist
      ["grammar_name", "grammar_type", "rule_names", "vocabulary", "channel_names", "mode_names",
        "atn"] := by
  rw [members, List.map_append, List.map_append, List.map_append]
  exact .append (.append (.append (.refl _) (keys_listUnlessEmpty _ _))
    (keys_listUnlessEmpty _ _)) (.refl _)

theorem texts_keeps (names : List String) : Keeps (ofList text) (asList? asText?) names :=
  keeps_list fun s _ => keeps_text s

theorem membersExact_members (fits : g.plan.Fits) : MembersExact (members g) := by
  simp [members, MembersExact, (keeps_text _).exact, (texts_keeps _).exact,
    g.names.vocabulary.keeps.exact, (Blueprint.keeps fits).exact,
    membersExact_listUnlessEmpty "channel_names" (texts_keeps g.names.channels),
    membersExact_listUnlessEmpty "mode_names" (texts_keeps g.names.modes)]

/-- The members of a description are read, and the embedded lexer within the depth that is
left. -/
theorem ofJsonWithin?_members (fits : g.plan.Fits) (depth : Nat) (lexer : Option Value) :
    ofJsonWithin? (depth + 1) (.object (members g ++ lexer.toList.map (("lexer", ·)))) =
      (orElse? none (orNull? (ofJsonWithin? depth)) lexer).map fun
        | none => ⟨g, []⟩
        | some d => (⟨g, []⟩ : Description).withLexer d := by
  have ordered :
      ((members g ++ lexer.toList.map (("lexer", ·))).map Prod.fst).Sublist fieldNames := by
    rw [List.map_append]
    refine (keys_members g).append (?_ : List.Sublist _ ["lexer"])
    cases lexer <;> simp
  have behind (name : String) (other : name ≠ "lexer") :
      (lexer.toList.map (("lexer", ·))).lookup name = none := by
    cases lexer <;> simp [other]
  have last : (lexer.toList.map (("lexer", ·))).lookup "lexer" = lexer := by
    cases lexer <;> simp
  have kind : asName? GrammarKind.tags (.text g.kind.tag) = some g.kind := g.kind.keeps.reads
  rw [ofJsonWithin?, fields?_ordered ordered (by decide)]
  simp [fieldNames, members, List.lookup_cons, List.lookup_append, behind, last, kind,
    (keeps_text _).reads, (texts_keeps _).reads, g.names.vocabulary.keeps.reads,
    (Blueprint.keeps fits).reads,
    orElse?_listUnlessEmpty "channel_names" (texts_keeps g.names.channels),
    orElse?_listUnlessEmpty "mode_names" (texts_keeps g.names.modes)]
  cases orElse? none (orNull? (ofJsonWithin? depth)) lexer with
  | none => rfl
  | some d => cases d <;> rfl

theorem isExact_nested (fits : g.plan.Fits) (embedded : ∀ l ∈ ls, l.plan.Fits) :
    (nested g ls).IsExact := by
  induction ls generalizing g with
  | nil => simpa only [nested, isExact_object] using membersExact_members fits
  | cons lexer rest ih =>
      have inner := ih (embedded lexer (.head _)) fun l mem => embedded l (.tail _ mem)
      simpa [nested, isExact_object, MembersExact, inner] using membersExact_members fits

theorem nested_ne_null : nested g ls ≠ .null := by
  cases ls <;> simp [nested]

/-- All embedded lexers are read, the innermost one first. -/
theorem ofJsonWithin?_nested (fits : g.plan.Fits) (embedded : ∀ l ∈ ls, l.plan.Fits) {depth : Nat}
    (enough : ls.length < depth) : ofJsonWithin? depth (nested g ls) = some ⟨g, ls⟩ := by
  obtain ⟨depth, rfl⟩ := Nat.exists_eq_succ_of_ne_zero (Nat.ne_zero_of_lt enough)
  induction ls generalizing g depth with
  | nil => simpa [nested] using ofJsonWithin?_members fits depth none
  | cons lexer rest ih =>
      have room : rest.length < depth := Nat.lt_of_succ_lt_succ enough
      obtain ⟨depth, rfl⟩ := Nat.exists_eq_succ_of_ne_zero (Nat.ne_zero_of_lt room)
      have inner : ofJsonWithin? (depth + 1) (nested lexer rest) = some ⟨lexer, rest⟩ :=
        ih (embedded lexer (.head _)) (fun l mem => embedded l (.tail _ mem)) depth room
      have read := ofJsonWithin?_members fits (depth + 1) (some (nested lexer rest))
      rw [orElse?_some, orNull?, inner] at read
      · simpa [nested, withLexer] using read
      · exact nested_ne_null

theorem membersDepth_append (ms ms' : List (String × Value)) :
    membersDepth (ms ++ ms') = max (membersDepth ms) (membersDepth ms') := by
  induction ms with
  | nil => simp [membersDepth]
  | cons m ms ih => rw [List.cons_append, membersDepth, membersDepth, ih, Nat.max_assoc]

theorem length_lt_depth : ls.length < (nested g ls).depth := by
  induction ls generalizing g with
  | nil =>
      rw [nested, depth]
      exact Nat.succ_pos _
  | cons lexer rest ih =>
      rw [nested, depth, membersDepth_append, membersDepth, membersDepth, Nat.max_zero]
      have inner := ih (g := lexer)
      have : (nested lexer rest).depth ≤ max (membersDepth (members g)) (nested lexer rest).depth :=
        Nat.le_max_right _ _
      simp only [List.length_cons]
      omega

/-- The numbers of the description have the size that is stored, and no command is pinned. -/
def Fits (d : Description) : Prop :=
  ∀ g ∈ d.grammar :: d.lexers, g.plan.Fits

instance (d : Description) : Decidable d.Fits :=
  inferInstanceAs (Decidable (∀ g ∈ d.grammar :: d.lexers, g.plan.Fits))

/-- The text of a description, of whatever names and with lexers embedded in lexers, is read as
the description, if the text nests its lists and objects no deeper than can be read. -/
theorem ofText_toText {d : Description} (fits : d.Fits)
    (shallow : d.toJson.levels ≤ Json.maxNesting) : ofText d.toText = .ok d := by
  have outer := fits d.grammar (.head _)
  have embedded := fun l mem => fits l (.tail _ mem)
  have parsed : Json.parse? d.toText = some d.toJson := by
    rw [toText, toJson, Json.parse?_writePretty (isExact_nested outer embedded)]
    exact congrArg some (cut_of_le shallow)
  have read : ofJson? d.toJson = some d := ofJsonWithin?_nested outer embedded length_lt_depth
  rw [ofText, parsed, Option.bind_some, read]

/-- The parser of sums and products with its lexer. -/
theorem ofText_toText_expression :
    let plan (g : RuleGrammar) : GrammarPlan := ⟨g.rules.kind, g.names, g.rules.builder.blueprint⟩
    let d : Description := ⟨plan Samples.expression, [plan Samples.expressionLexer]⟩
    d.Fits ∧ d.toJson.levels ≤ Json.maxNesting ∧ ofText d.toText = .ok d := by
  intro plan d
  have fits : d.Fits := by decide +kernel
  have shallow : d.toJson.levels ≤ Json.maxNesting := by decide +kernel
  exact ⟨fits, shallow, ofText_toText fits shallow⟩

/-! ### Lexers embedded too deep -/

theorem lookup_cutMembers (key : String) (room : Nat) (ms : List (String × Value)) :
    (cutMembers room ms).lookup key = (ms.lookup key).map (cut room) := by
  induction ms with
  | nil => simp [cutMembers]
  | cons m ms ih =>
      obtain ⟨name, v⟩ := m
      rw [cutMembers, List.lookup_cons, List.lookup_cons, ih]
      cases key == name <;> rfl

/-- An embedded lexer that cannot be read makes the description unreadable. -/
theorem ofJsonWithin?_lexer {depth : Nat} {ms : List (String × Value)} {lexer : Value}
    (found : ms.lookup "lexer" = some lexer) (shown : lexer ≠ .null)
    (unread : ofJsonWithin? depth lexer = none) :
    ofJsonWithin? (depth + 1) (.object ms) = none := by
  have inner : orNull? (ofJsonWithin? depth) lexer = none := by
    rw [orNull?, unread]
    · rfl
    · exact shown
  rw [ofJsonWithin?, fields?, members?]
  split
  · simp [fieldNames, found, inner]
  · rfl

/-- Where fewer levels are read than lexers are embedded, nothing is. -/
theorem ofJsonWithin?_cut {room : Nat} (deep : room ≤ ls.length) (depth : Nat) :
    ofJsonWithin? depth ((nested g ls).cut room) = none := by
  induction ls generalizing g room depth with
  | nil =>
      obtain rfl : room = 0 := Nat.le_zero.1 deep
      cases depth <;> simp [nested, cut, Json.enclosed, ofJsonWithin?, fields?]
  | cons lexer rest ih =>
      cases depth with
      | zero => rfl
      | succ depth =>
          cases room with
          | zero => simp [nested, cut, Json.enclosed, ofJsonWithin?, fields?]
          | succ room =>
              have absent : (members g).lookup "lexer" = none := by
                simp [members, List.lookup_cons, List.lookup_append]
              have found : (cutMembers room (members g ++ [("lexer", nested lexer rest)])).lookup
                  "lexer" = some ((nested lexer rest).cut room) := by
                simp [lookup_cutMembers, List.lookup_append, absent]
              have shown : (nested lexer rest).cut room ≠ .null := by
                cases rest <;> cases room <;> simp [nested, cut, Json.enclosed]
              rw [nested, cut, Json.enclosed]
              exact ofJsonWithin?_lexer found shown (ih (Nat.le_of_succ_le_succ deep) depth)

theorem ofText_toText_of_deep {d : Description} (fits : d.Fits)
    (deep : Json.maxNesting ≤ d.lexers.length) : ofText d.toText = .error .unreadable := by
  have parsed := Json.parse?_writePretty
    (isExact_nested (fits d.grammar (.head _)) fun l mem => fits l (.tail _ mem))
  have unread : ofJson? ((nested d.grammar d.lexers).cut Json.maxNesting) = none :=
    ofJsonWithin?_cut deep _
  rw [ofText, toText, toJson, parsed, Option.bind_some, unread]

/-- A lexer without rules, embedded in itself as often as levels are read. -/
theorem ofText_toText_deep :
    let lexer : GrammarPlan := ⟨.lexer, {}, { maxToken := 0, states := [], rules := [] }⟩
    let d : Description := ⟨lexer, List.replicate 127 lexer⟩
    d.Fits ∧ ofText d.toText = .error .unreadable := by
  intro lexer d
  have fits : d.Fits := by decide +kernel
  exact ⟨fits, ofText_toText_of_deep fits (by simp [d, Json.maxNesting])⟩

end Description

end AdaptiveLL
