import LoxExpr.Reading

/-!
A parser over tokens: reading one expression, reading all tokens as one expression, and finding the
next statement after an error.
-/

set_option autoImplicit false
set_option relaxedAutoImplicit false

namespace LoxExpr

/-- How many groups and prefix operators may enclose one another. -/
def nestingLimit : Nat := 255

/-- A place in a list of tokens, and what is being read there. -/
structure Parser where
  taken : Nat
  /-- The tokens behind the place, up to the end. -/
  ahead : List Token
  finish : Token
  /-- The reading under way; none of its frames outlives a call. -/
  reading : Reading
  deriving DecidableEq

namespace Parser

/-- The parser at the start of a list of tokens, which has to end in an end token; the first end
token counts as the end. -/
def ofTokens? (tokens : List Token) : Option Parser :=
  if tokens.getLast?.any Token.isEof then
    (tokens.find? Token.isEof).map fun finish =>
      ⟨0, tokens.takeWhile (!·.isEof), finish, .start⟩
  else
    none

def next (p : Parser) : Token := p.ahead.head?.getD p.finish

def depth (p : Parser) : Nat := p.reading.depth

/-- The parser at a later place, where only `ahead` is left. -/
def moveTo (p : Parser) (ahead : List Token) : Parser :=
  { p with taken := p.taken + (p.ahead.length - ahead.length), ahead := ahead }

/-- Moves over the next token, but not over the end. -/
def skip (p : Parser) : Parser := p.moveTo p.ahead.tail

def advance (limit : Option Nat) (p : Parser) : Parser :=
  let (reading, ahead) := p.reading.advance limit p.ahead
  { p.moveTo ahead with reading := reading }

/-- Reads the longest expression from here, with at most `limit` levels of nesting. A token that
would nest too deeply is moved over; any other wrong token is left as the next one. -/
def readWithin (limit : Option Nat) (p : Parser) : Except SyntaxError Tree × Parser :=
  let q := p.advance limit
  let idle := { q with reading := .start }
  match q.reading.result q.next with
  | .ok e => (.ok e, idle)
  | .error .tooDeeplyNested => (.error (.atToken .tooDeeplyNested q.next), idle.skip)
  | .error fault => (.error (.atToken fault q.next), idle)

def readExpression (p : Parser) : Except SyntaxError Tree × Parser :=
  p.readWithin (some nestingLimit)

/-- Reads all tokens up to the end as one expression, with at most `limit` levels of nesting. -/
def parseWithin (limit : Option Nat) (p : Parser) : Except SyntaxError Tree :=
  match p.readWithin limit with
  | (.ok e, q) =>
    if q.ahead.isEmpty then .ok e else .error (.atToken .expectedEndOfExpression q.next)
  | (.error error, _) => .error error

def parse (p : Parser) : Except SyntaxError Tree := p.parseWithin (some nestingLimit)

/-- The tokens that are left where the next statement may start: behind the end of a statement, or
before a token that starts one, but behind at least one token. -/
def nextStatement : List Token → List Token
  | [] => []
  | t :: ts =>
    if t.endsStatement || ts.head?.any Token.startsStatement then ts else nextStatement ts

def recover (p : Parser) : Parser := p.moveTo (nextStatement p.ahead)

end Parser

/-- Reads a list of tokens as one expression; there is no answer without an end token. -/
def parseTokens? (tokens : List Token) : Option (Except SyntaxError Tree) :=
  (Parser.ofTokens? tokens).map Parser.parse

end LoxExpr
