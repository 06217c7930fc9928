import AdaptiveLL.Stream.TokenSource
/-!
Token streams: a cursor over the tokens of a source. Tokens are pulled from the source only
when they are needed and are all kept. The cursor stands on a token of the stream's channel or on
the end of the input; tokens of other channels can be asked for by their place.

Each operation answers with the stream that remembers what was pulled.
-/
namespace AdaptiveLL

structure TokenStream (σ : Type) where
  source : σ
  tokens : Array Token := #[]
  /-- The place of the cursor; there is none before the first access. -/
  position : Option Nat := none
  /-- Whether the end of the input has been pulled. -/
  ended : Bool := false
  channel : Nat := Token.defaultChannel
  /-- The number of open marks. -/
  marks : Nat := 0
  deriving Repr, Inhabited

namespace TokenStream

variable {σ : Type} [TokenSource σ]

/-- Whether the cursor may stand on the token. -/
def accepts (s : TokenStream σ) (t : Token) : Bool :=
  t.channel == s.channel || t.isEof

/-- Pull one token. -/
def pull (s : TokenStream σ) : TokenStream σ :=
  let (t, source) := TokenSource.next s.source
  { s with
    source
    tokens := s.tokens.push { t with index := some s.tokens.size }
    ended := t.isEof }

/-- Pull up to `n` tokens, but none behind the end of the input. The answer is the number of
tokens pulled. -/
def fetch : Nat → TokenStream σ → Nat × TokenStream σ
  | 0, s => (0, s)
  | n + 1, s =>
      if s.ended then (0, s)
      else
        let (pulled, s) := fetch n s.pull
        (pulled + 1, s)

/-- Pull until there is a token at place `i`. The answer says whether there is one. -/
def sync (i : Nat) (s : TokenStream σ) : Bool × TokenStream σ :=
  if i < s.tokens.size then (true, s)
  else
    let needed := i - s.tokens.size + 1
    let (pulled, s) := s.fetch needed
    (needed ≤ pulled, s)

/-- More than the number of places that the stream can ever have. -/
def bound (s : TokenStream σ) : Nat :=
  s.tokens.size + TokenSource.horizon s.source + 2

/-- Step over tokens of other channels, at most `fuel` of them. -/
def skipFrom : Nat → Nat → TokenStream σ → Nat × TokenStream σ
  | 0, i, s => (i, s)
  | fuel + 1, i, s =>
      match s.tokens[i]? with
      | none => (i, s)
      | some t =>
          if s.accepts t then (i, s)
          else
            match s.sync (i + 1) with
            | (true, s) => skipFrom fuel (i + 1) s
            | (false, s) => (s.tokens.size - 1, s)

/-- The first place from `i` on where the cursor may stand, else the last place. -/
def nextOnChannel (i : Nat) (s : TokenStream σ) : Nat × TokenStream σ :=
  let (_, s) := s.sync i
  if s.tokens.size ≤ i then (s.tokens.size - 1, s) else skipFrom s.bound i s

/-- The last place up to `i` where the cursor may stand. -/
def lastAccepted? (s : TokenStream σ) : Nat → Option Nat
  | 0 => if (s.tokens[0]?.map s.accepts).getD false then some 0 else none
  | i + 1 =>
      if (s.tokens[i + 1]?.map s.accepts).getD false then some (i + 1) else s.lastAccepted? i

def previousOnChannel (i : Nat) (s : TokenStream σ) : Option Nat × TokenStream σ :=
  let (_, s) := s.sync i
  (if s.tokens.isEmpty then none else s.lastAccepted? (min i (s.tokens.size - 1)), s)

/-- Put the cursor on the first token, at the first access. -/
def start (s : TokenStream σ) : TokenStream σ :=
  match s.position with
  | some _ => s
  | none =>
      let (_, s) := s.sync 0
      let (i, s) := s.nextOnChannel 0
      { s with position := some i }

/-- The place `k` steps forward from `i`; it stays on the end of the input. -/
def forward : Nat → Nat → TokenStream σ → Nat × TokenStream σ
  | 0, i, s => (i, s)
  | k + 1, i, s =>
      match s.sync (i + 1) with
      | (true, s) =>
          let (i, s) := s.nextOnChannel (i + 1)
          forward k i s
      | (false, s) => forward k i s

/-- The place `k` steps back from `i`, if there is one. -/
def backward : Nat → Nat → TokenStream σ → Option Nat × TokenStream σ
  | 0, i, s => (some i, s)
  | _ + 1, 0, s => (none, s)
  | k + 1, i + 1, s =>
      match s.previousOnChannel i with
      | (some j, s) => backward k j s
      | (none, s) => (none, s)

/-- The token at a distance from the cursor: 1 is the token under it, -1 the one before. -/
def lookahead? (k : Int) (s : TokenStream σ) : Option Token × TokenStream σ :=
  let s := s.start
  let position := s.position.getD 0
  if k = 0 then (none, s)
  else if k < 0 then
    if position < k.natAbs then (none, s)
    else
      match s.backward k.natAbs position with
      | (some i, s) => (s.tokens[i]?, s)
      | (none, s) => (none, s)
  else
    let (i, s) := s.forward (k.natAbs - 1) position
    (s.tokens[i]?, s)

/-- The type of the token at a distance from the cursor. -/
def lookahead (k : Int) (s : TokenStream σ) : Symbol × TokenStream σ :=
  let (t, s) := s.lookahead? k
  ((t.map Token.type).getD Symbol.invalid, s)

/-- Step to the next token; the cursor stays on the end of the input. -/
def consume (s : TokenStream σ) : TokenStream σ :=
  let s := s.start
  let position := s.position.getD 0
  let (symbol, s) := s.lookahead 1
  if symbol = Symbol.eof then s
  else
    match s.sync (position + 1) with
    | (true, s) =>
        let (i, s) := s.nextOnChannel (position + 1)
        { s with position := some i }
    | (false, s) => s

/-- The place of the cursor. -/
def index (s : TokenStream σ) : Nat :=
  s.position.getD 0

/-- Put the cursor on the first token from place `i` on. -/
def seek (i : Nat) (s : TokenStream σ) : TokenStream σ :=
  let (i, s) := s.start.nextOnChannel i
  { s with position := some i }

def mark (s : TokenStream σ) : TokenStream σ :=
  { s with marks := s.marks + 1 }

def release (s : TokenStream σ) : TokenStream σ :=
  { s with marks := s.marks - 1 }

/-- The number of tokens pulled so far. -/
def size (s : TokenStream σ) : Nat :=
  s.tokens.size

/-- The token at a place, on any channel, if it has been pulled. -/
def get? (s : TokenStream σ) (i : Nat) : Option Token :=
  s.tokens[i]?

/-- The texts of the tokens from `start` up to but not including `stop`, and not beyond the
end of the input. -/
def textRange (start stop : Nat) (s : TokenStream σ) : String × TokenStream σ :=
  let s := s.start
  if stop ≤ start then ("", s)
  else
    let (_, s) := s.sync (stop - 1)
    let tokens := (s.tokens.extract start stop).toList.takeWhile (!·.isEof)
    (String.join (tokens.map Token.text), s)

/-- Pull every token, at most `fuel` of them. -/
def fillWithin : Nat → TokenStream σ → TokenStream σ
  | 0, s => s
  | fuel + 1, s => if s.ended then s else fillWithin fuel s.pull

def fill (s : TokenStream σ) : TokenStream σ :=
  let s := s.start
  s.fillWithin s.bound

/-- The text of the whole input. -/
def text (s : TokenStream σ) : String × TokenStream σ :=
  let s := s.fill
  s.textRange 0 s.tokens.size

/-- The number of places where the cursor may stand. -/
def acceptedCount (s : TokenStream σ) : Nat × TokenStream σ :=
  let s := s.fill
  (s.tokens.toList.countP s.accepts, s)

/-- Whether a token is on the channel asked for, if one is. -/
def onChannel (channel : Option Nat) (t : Token) : Bool :=
  (channel.map (t.channel == ·)).getD true

/-- The tokens from place `i` on up to the next one that the cursor may stand on. -/
def hiddenFrom (channel : Option Nat) : Nat → Nat → TokenStream σ → List Token × TokenStream σ
  | 0, _, s => ([], s)
  | fuel + 1, i, s =>
      match s.tokens[i]? with
      | none => ([], s)
      | some t =>
          if s.accepts t then ([], s)
          else
            let (_, s) := s.sync (i + 1)
            let (rest, s) := hiddenFrom channel fuel (i + 1) s
            (if onChannel channel t then t :: rest else rest, s)

/-- The hidden tokens directly after place `i`. -/
def hiddenRight (i : Nat) (channel : Option Nat) (s : TokenStream σ) :
    List Token × TokenStream σ :=
  let (_, s) := s.start.sync (i + 1)
  hiddenFrom channel s.bound (i + 1) s

/-- The hidden tokens directly before place `i`, among those pulled so far. -/
def hiddenLeft (i : Nat) (channel : Option Nat) (s : TokenStream σ) :
    List Token × TokenStream σ :=
  let s := s.start
  if s.tokens.size < i then ([], s)
  else
    let before := (s.tokens.extract 0 i).toList.reverse
    let run := before.takeWhile (·.channel ≠ s.channel)
    ((run.filter (onChannel channel)).reverse, s)

end TokenStream

end AdaptiveLL
