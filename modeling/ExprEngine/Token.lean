import ExprEngine.Span

/-!
# Tokens

* `TokenKind`            what a token is, as far as the scanner can tell;
* `Token`                a kind with the span of its text;
* `TokenStream`          tokens with the source they were cut from;
* `TokenStream.lexemes`  the tokens in order with their positions and texts.
-/

namespace ExprEngine

/-- Kinds of tokens. Which operator a token is, the parser decides: `:` means something only while
a choice waits for its second branch. -/
inductive TokenKind
  | operator
  | parenthesis
  | comma
  | number
  /-- the span is the text between the quotes, escapes unexpanded -/
  | string
  | identifier
deriving DecidableEq, Repr

namespace TokenKind

def name : TokenKind → String
  | operator => "operator"
  | parenthesis => "parenthesis"
  | comma => "comma"
  | number => "number"
  | string => "string"
  | identifier => "identifier"

/-- Whether a token of the kind ends an operand, so that a `-` after it subtracts. -/
def endsOperand : TokenKind → Bool
  | number => true
  | string => true
  | identifier => true
  | _ => false

/-- Whether a token of the kind may be a punctuation mark. -/
def isPunctuation : TokenKind → Bool
  | operator => true
  | parenthesis => true
  | comma => true
  | _ => false

end TokenKind

/-- A token and where it stands. -/
structure Token where
  kind : TokenKind
  span : Span
deriving DecidableEq, Repr

/-- A token sequence and its source. The tokens need not come from the scanner. -/
structure TokenStream where
  source : Text
  tokens : List Token

/-- A token with its position in the stream and its text. -/
structure Lexeme where
  index : Nat
  kind : TokenKind
  span : Span
  text : String
deriving DecidableEq, Repr

/-- Whether the lexeme is an opening parenthesis, as a mark of any kind. -/
def Lexeme.isOpening (t : Lexeme) : Bool := t.kind.isPunctuation && t.text == "("

namespace TokenStream

/-- The offset just past the source. -/
def endOffset (s : TokenStream) : Nat := min (Text.byteLength s.source) Span.maxOffset

/-- A token at a position as a lexeme. -/
def lexeme (source : Text) (index : Nat) (t : Token) : Lexeme :=
  ⟨index, t.kind, t.span, String.ofList (t.span.slice source)⟩

/-- The tokens with their positions and texts, from a position on. -/
def lexemesFrom (source : Text) : Nat → List Token → List Lexeme
  | _, [] => []
  | i, t :: ts => lexeme source i t :: lexemesFrom source (i + 1) ts

/-- The tokens with their positions and texts. -/
def lexemes (s : TokenStream) : List Lexeme := lexemesFrom s.source 0 s.tokens

end TokenStream
end ExprEngine
