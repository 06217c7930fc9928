import AdaptiveLL.Token
/-!
Token sources: whatever produces the tokens of an input one after the other, the last of
which is the end of the input.
-/
namespace AdaptiveLL

class TokenSource (σ : Type) where
  next : σ → Token × σ
  /-- The line where the source stands. -/
  line : σ → Nat
  /-- The column where the source stands. -/
  column : σ → Nat
  name : σ → String
  /-- The number of errors met while producing tokens. -/
  errorCount : σ → Nat
  /-- At most so many tokens are still to come before the end of the input. -/
  horizon : σ → Nat

/-- A source of one of two kinds. -/
instance {σ ρ : Type} [TokenSource σ] [TokenSource ρ] : TokenSource (σ ⊕ ρ) where
  next
    | .inl s => (TokenSource.next s).map id .inl
    | .inr s => (TokenSource.next s).map id .inr
  line := Sum.elim TokenSource.line TokenSource.line
  column := Sum.elim TokenSource.column TokenSource.column
  name := Sum.elim TokenSource.name TokenSource.name
  errorCount := Sum.elim TokenSource.errorCount TokenSource.errorCount
  horizon := Sum.elim TokenSource.horizon TokenSource.horizon

/-- A list of tokens as a source. When the list runs out, the end of the input follows
where the last token ended. -/
structure TokenList where
  tokens : Array Token
  /-- The place of the next token. -/
  place : Nat := 0
  /-- The end of the input, once it was given out. -/
  ended : Option Token := none
  name : String := "<list>"
  deriving Repr, Inhabited

namespace TokenList

/-- The part of a text after its last line break. -/
def lastLine (cs : List Char) : List Char :=
  (cs.reverse.takeWhile (· ≠ '\n')).reverse

def line (s : TokenList) : Nat :=
  match s.tokens[s.place]?, s.tokens.back? with
  | some t, _ => t.line
  | none, some last => last.line + last.text.toList.count '\n'
  | none, none => 1

def column (s : TokenList) : Nat :=
  match s.tokens[s.place]?, s.tokens.back? with
  | some t, _ => t.column
  | none, some last =>
      let cs := last.text.toList
      if cs.contains '\n' then (lastLine cs).length else last.column + cs.length
  | none, none => 0

/-- The end of the input behind the tokens of the list. -/
def endToken (s : TokenList) : Token :=
  .endOfInput none ((s.tokens.back?.map Token.stop).getD 0) s.line s.column

def next (s : TokenList) : Token × TokenList :=
  match s.tokens[s.place]? with
  | some t => (t, { s with place := s.place + 1, ended := if t.isEof then some t else s.ended })
  | none =>
      let t := s.ended.getD s.endToken
      (t, { s with ended := some t })

instance : TokenSource TokenList where
  next := next
  line := line
  column := column
  name := TokenList.name
  errorCount _ := 0
  horizon s := s.tokens.size - s.place

end TokenList

end AdaptiveLL
