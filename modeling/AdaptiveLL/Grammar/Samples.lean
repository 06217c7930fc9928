import AdaptiveLL.Grammar.Rules
/-!
Sample grammars, each of a shape that stresses one part of the recognizers.
-/
namespace AdaptiveLL.Samples

/-- The vocabulary shared by the parser and the lexer of expressions. -/
def expressionWords : Vocabulary :=
  .ofEntries [
    ⟨1, none, some "INT"⟩, ⟨2, none, some "ID"⟩, ⟨3, some "'+'", some "PLUS"⟩,
    ⟨4, some "'*'", some "STAR"⟩, ⟨5, some "'('", some "LPAREN"⟩,
    ⟨6, some "')'", some "RPAREN"⟩, ⟨7, none, some "WS"⟩]

def letterWords : Vocabulary :=
  .ofEntries [⟨1, some "'a'", some "A"⟩, ⟨2, some "'b'", some "B"⟩, ⟨3, some "'c'", some "C"⟩]

def identifierWords : Vocabulary :=
  .ofEntries [⟨1, none, some "ID"⟩]

/-- `s : e EOF ; e : e '*' e | e '+' e | '(' e ')' | INT | ID ;` where `*` binds tighter
than `+` and both associate to the left. -/
def expression : RuleGrammar where
  rules :=
    { kind := .parser, maxToken := 7
      rules := [
        { body := some (.sequence [.ref 1 0, .token Symbol.eof]) },
        { leftRecursive := true
          body := some (.leftRecursive
            [.sequence [.token 5, .ref 1 0, .token 6], .token 1, .token 2]
            [3, 2]
            [.sequence [.token 4, .ref 1 4], .sequence [.token 3, .ref 1 3]]) }] }
  names := { grammar := "Expr", rules := ["s", "e"], vocabulary := expressionWords }

/-- Letters and the underscore. -/
def identifierChars : IntervalSet :=
  .ofRanges [(97, 122), (65, 90), (95, 95)]

/-- Numbers, identifiers, operators and parentheses; blanks are skipped. -/
def expressionLexer : RuleGrammar where
  rules :=
    { kind := .lexer, maxToken := 7
      rules := [
        { tokenType := 1, body := some (.plus true [.range 48 57]) },
        { tokenType := 2, body := some (.plus true [.set identifierChars]) },
        { tokenType := 3, body := some (.literal "+") },
        { tokenType := 4, body := some (.literal "*") },
        { tokenType := 5, body := some (.literal "(") },
        { tokenType := 6, body := some (.literal ")") },
        { tokenType := 7
          body := some (.sequence [.plus true [.set (.ofList [32, 9, 13, 10])], .command .skip]) }]
      modes := [[0, 1, 2, 3, 4, 5, 6]] }
  names :=
    { grammar := "ExprLexer"
      rules := ["INT", "ID", "PLUS", "STAR", "LPAREN", "RPAREN", "WS"]
      vocabulary := expressionWords
      channels := ["DEFAULT_TOKEN_CHANNEL", "HIDDEN"]
      modes := ["DEFAULT_MODE"] }

/-- `s : 'a' 'c' ;` Whatever follows is left unread. -/
def ac : RuleGrammar where
  rules :=
    { kind := .parser, maxToken := 3
      rules := [{ body := some (.sequence [.token 1, .token 3]) }] }
  names := { grammar := "AC", rules := ["s"], vocabulary := letterWords }

/-- `s : 'a' 'b' | 'a' 'c' ;` The decision needs two tokens of lookahead. -/
def twoTokenChoice : RuleGrammar where
  rules :=
    { kind := .parser, maxToken := 3
      rules := [
        { body := some (.alternatives
            [.sequence [.token 1, .token 2], .sequence [.token 1, .token 3]]) }] }
  names := { grammar := "TwoTokenChoice", rules := ["s"], vocabulary := letterWords }

/-- `s : (a | b) EOF ; a : ID ; b : ID ;` Both alternatives match the same input. -/
def ambiguous : RuleGrammar where
  rules :=
    { kind := .parser, maxToken := 1
      rules := [
        { body := some (.sequence [.alternatives [.ref 1 0, .ref 2 0], .token Symbol.eof]) },
        { body := some (.token 1) },
        { body := some (.token 1) }] }
  names := { grammar := "Ambiguous", rules := ["s", "a", "b"], vocabulary := identifierWords }

/-- `s : {p0}? ID EOF | {p1}? ID EOF ;` Only the host tells the alternatives apart. -/
def predicated : RuleGrammar where
  rules :=
    { kind := .parser, maxToken := 1
      rules := [
        { body := some (.alternatives
            [.sequence [.predicate 0 false, .token 1, .token Symbol.eof],
             .sequence [.predicate 1 false, .token 1, .token Symbol.eof]]) }] }
  names := { grammar := "Predicated", rules := ["s"], vocabulary := identifierWords }

/-- Words and quoted strings. The opening quote goes on with a mode of its own, so that a
string comes out as one token, quotes included. -/
def modeLexer : RuleGrammar where
  rules :=
    { kind := .lexer, maxToken := 5
      rules := [
        { tokenType := 1, body := some (.plus true [.range 97 122]) },
        { tokenType := 3
          body := some (.sequence [.literal "\"", .command .more, .command (.pushMode 1)]) },
        { tokenType := 5, body := some (.sequence [.plus true [.literal " "], .command .skip]) },
        { tokenType := 2, body := some (.sequence [.literal "\"", .command .popMode]) },
        { tokenType := 4
          body := some (.sequence [.plus true [.notSet (.singleton 34)], .command .more]) }]
      modes := [[0, 1, 2], [3, 4]] }
  names :=
    { grammar := "ModeLexer"
      rules := ["WORD", "OPEN", "WS", "STRING", "BODY"]
      vocabulary := .ofEntries [
        ⟨1, none, some "WORD"⟩, ⟨2, none, some "STRING"⟩, ⟨3, none, some "OPEN"⟩,
        ⟨4, none, some "BODY"⟩, ⟨5, none, some "WS"⟩]
      channels := ["DEFAULT_TOKEN_CHANNEL", "HIDDEN"]
      modes := ["DEFAULT_MODE", "STRING_MODE"] }

/-- The samples by name. -/
def all : List (String × RuleGrammar) :=
  [("expression", expression), ("expression_lexer", expressionLexer), ("ac", ac),
   ("two_token_choice", twoTokenChoice), ("ambiguous", ambiguous), ("predicated", predicated),
   ("mode_lexer", modeLexer)]

end AdaptiveLL.Samples
