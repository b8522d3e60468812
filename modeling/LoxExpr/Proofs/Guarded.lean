import LoxExpr.Cursor
import LoxExpr.Run

/-!
Scanning, parsing and running with checks on everything that is taken for granted.

Here a source is scanned with two cursors, lexemes are cut out of it by byte offsets, and tokens are
read by recursive descent, with an index into them and a counter of nesting. Wherever that relies on
an offset, an index, a counter or an end token being as it should, there is a check, and a breach of
it ends everything. Loops and calls are counted against a number of rounds, and running out of them
is a breach as well.
-/

set_option autoImplicit false
set_option relaxedAutoImplicit false

namespace LoxExpr

/-- The ways in which something taken for granted can turn out not to hold. -/
inductive Breach where
  /-- A part of a text is asked for between offsets that are out of order, out of the text or
  within a character, or between cursors over different texts. -/
  | slice
  /-- The lexeme of a number does not read as one. -/
  | number
  /-- A list of tokens does not end in an end token. -/
  | noEnd
  /-- The index of the next token lies behind the last. -/
  | index
  /-- The counter of nesting exceeds its limit, or would go below zero. -/
  | depth
  /-- There are more rounds than were allowed for. -/
  | rounds
  deriving DecidableEq

namespace Guarded

/-- The part of a text between two byte offsets, which have to be in order and between
characters. -/
def slice (text : String) (start stop : Nat) : Except Breach String :=
  if start ≤ stop ∧ String.Pos.Raw.isValid text ⟨start⟩ ∧ String.Pos.Raw.isValid text ⟨stop⟩ then
    match String.fromUTF8? (text.toUTF8.extract start stop) with
    | some part => .ok part
    | none => .error .slice
  else
    .error .slice

/-- A scan under way: where the current piece starts, how far it has been read, the tokens before
it, and the journal. -/
structure Scanner where
  start : Cursor
  current : Cursor
  tokens : List Token
  journal : Journal

namespace Scanner

def ofSource (source : String) (journal : Journal) : Scanner :=
  ⟨.ofString source, .ofString source, [], journal⟩

def lexeme (s : Scanner) : Except Breach String :=
  if s.start.source = s.current.source then
    slice s.start.source s.start.offset s.current.offset
  else
    .error .slice

def push (s : Scanner) (kind : Token.Kind) (literal? : Option Literal) : Except Breach Scanner := do
  let lexeme ← s.lexeme
  return { s with tokens := s.tokens ++ [⟨kind, lexeme, literal?, s.start.position⟩] }

def report (s : Scanner) (e : LexicalError) : Scanner :=
  { s with journal := s.journal.record (e.onLine s.current.line) }

def skipWhile (s : Scanner) (test : Char → Bool) : Scanner :=
  { s with current := s.current.skipWhile test }

def pushString (s : Scanner) : Except Breach Scanner := do
  let lexeme ← s.lexeme
  let value ← slice lexeme 1 (lexeme.utf8ByteSize - 1)
  s.push .string (some (.string value))

def string (s : Scanner) : Except Breach Scanner :=
  let s := s.skipWhile (· != '"')
  match s.current.accept '"' with
  | (false, _) => .ok (s.report .unterminatedString)
  | (true, current) => { s with current := current }.pushString

def pushNumber (read? : String → Option Binary64) (s : Scanner) : Except Breach Scanner := do
  let lexeme ← s.lexeme
  match read? lexeme with
  | some value => s.push .number (some (.number value))
  | none => throw .number

def number (read? : String → Option Binary64) (s : Scanner) : Except Breach Scanner :=
  let s := s.skipWhile Char.isDigit
  if s.current.peek? = some '.' ∧ s.current.peekSecond?.any Char.isDigit then
    ({ s with current := s.current.next.2 }.skipWhile Char.isDigit).pushNumber read?
  else
    s.pushNumber read?

def word (s : Scanner) : Except Breach Scanner := do
  let s := s.skipWhile Piece.isWordPart
  let lexeme ← s.lexeme
  match Keyword.ofText? lexeme with
  | some k => s.push (.keyword k) none
  | none => s.push .identifier none

def symbol (s : Scanner) : Symbol → Except Breach Scanner
  | .slash =>
    match s.current.accept '/' with
    | (true, current) => .ok ({ s with current := current }.skipWhile (· != '\n'))
    | (false, _) => s.push (.symbol .slash) none
  | short =>
    match short.withEqual? with
    | none => s.push (.symbol short) none
    | some long =>
      match s.current.accept '=' with
      | (true, current) => { s with current := current }.push (.symbol long) none
      | (false, _) => s.push (.symbol short) none

def piece (read? : String → Option Binary64) (s : Scanner) (c : Char) : Except Breach Scanner :=
  if c.isWhitespace then
    .ok s
  else if c = '"' then
    s.string
  else if c.isDigit then
    s.number read?
  else if Piece.isWordStart c then
    s.word
  else
    match Symbol.ofChar? c with
    | some symbol => s.symbol symbol
    | none => .ok (s.report .unexpectedCharacter)

/-- Scans piece after piece, one in each round. -/
def pieces (read? : String → Option Binary64) : Nat → Scanner → Except Breach Scanner
  | 0, _ => .error .rounds
  | n + 1, s =>
    match s.current.next with
    | (none, _) => .ok { s with start := s.current }
    | (some c, current) => do
      let s ← Scanner.piece read? { s with start := s.current, current := current } c
      pieces read? n s

end Scanner

/-- Scans a source, in no more rounds than it has characters and one for its end. -/
def scan (read? : String → Option Binary64) (source : String) (journal : Journal) :
    Except Breach (List Token × Journal) := do
  let s ← (Scanner.ofSource source journal).pieces read? (source.length + 1)
  return (s.tokens ++ [.eof s.current.position], s.journal)

/-- Where a descent stands: the index of the next token, the counter of nesting, and the journal. -/
structure Place where
  index : Nat
  depth : Nat
  journal : Journal

abbrev Descent : Type := Except Breach (Except SyntaxError Tree × Place)

def Descent.andThen (d : Descent) (go : Tree → Place → Descent) : Descent := do
  match ← d with
  | (.ok e, q) => go e q
  | (.error error, q) => return (.error error, q)

namespace Place

variable (limit : Option Nat) (tokens : List Token)

def peek (p : Place) : Except Breach Token :=
  if limit.all (p.depth ≤ ·) then
    match tokens[p.index]? with
    | some t => .ok t
    | none => .error .index
  else
    .error .depth

def pass (p : Place) (t : Token) : Place := if t.isEof then p else { p with index := p.index + 1 }

def fail (p : Place) (fault : SyntaxFault) (t : Token) : Except SyntaxError Tree × Place :=
  (.error (.atToken fault t),
    { p with journal := p.journal.record (SyntaxError.atToken fault t).diagnostic })

def leave : Except SyntaxError Tree × Place → Descent
  | (_, ⟨_, 0, _⟩) => .error .depth
  | (result, ⟨index, depth + 1, journal⟩) => .ok (result, ⟨index, depth, journal⟩)

/-- Reads what a token encloses, one level deeper. -/
def nested (t : Token) (read : Place → Descent) (p : Place) : Descent :=
  if limit.all (p.depth < ·) then do
    leave (← read { p with depth := p.depth + 1 })
  else
    .ok (p.fail .tooDeeplyNested t)

end Place

inductive Goal where
  /-- An operand of binary operators of a level; of no such operator beyond level 4. -/
  | operand (level : Nat)
  /-- The binary operators of a level, and their right operands, behind a first operand. -/
  | chain (level : Nat) (left : Tree)

def lastLevel : Nat := 4

open Place

/-- Reads by recursive descent; each call is one round. -/
def read (limit : Option Nat) (tokens : List Token) : Nat → Goal → Place → Descent
  | 0, _, _ => .error .rounds
  | n + 1, .chain level left, p => do
    let t ← p.peek limit tokens
    if t.binaryLevel? = some level then
      (read limit tokens n (.operand (level + 1)) (p.pass t)).andThen fun right q =>
        read limit tokens n (.chain level (.binary left t right)) q
    else
      return (.ok left, p)
  | n + 1, .operand level, p =>
    if level ≤ lastLevel then
      (read limit tokens n (.operand (level + 1)) p).andThen fun left q =>
        read limit tokens n (.chain level left) q
    else do
      let t ← p.peek limit tokens
      if t.isUnary then
        ((p.pass t).nested limit t (read limit tokens n (.operand level))).andThen fun e q =>
          .ok (.ok (.unary t e), q)
      else if t.isLeftParen then
        ((p.pass t).nested limit t (read limit tokens n (.operand 1))).andThen fun e q => do
          let u ← q.peek limit tokens
          return if u.isRightParen then (.ok (.group e), q.pass u) else q.fail .missingRightParen u
      else
        match t.leaf? with
        | some value => return (.ok (.leaf value), p.pass t)
        | none => return p.fail .expectedExpression t

/-- Reads a list of tokens as one expression, in no more rounds than six for each token. -/
def parse (limit : Option Nat) (tokens : List Token) (journal : Journal) :
    Except Breach (Option Tree × Journal) :=
  if tokens.getLast?.any Token.isEof then do
    match ← read limit tokens (6 * tokens.length) (.operand 1) ⟨0, 0, journal⟩ with
    | (.ok e, p) =>
      let t ← p.peek limit tokens
      if t.isEof then
        return (some e, p.journal)
      else
        return (none, (p.fail .expectedEndOfExpression t).2.journal)
    | (.error _, p) => return (none, p.journal)
  else
    .error .noEnd

def recover (tokens : List Token) : Nat → Place → Except Breach Place
  | 0, _ => .error .rounds
  | n + 1, p => do
    let t ← p.peek (some nestingLimit) tokens
    if t.isEof then
      return p
    else if t.endsStatement then
      return p.pass t
    else do
      let u ← (p.pass t).peek (some nestingLimit) tokens
      if u.startsStatement then return p.pass t else recover tokens n (p.pass t)

def answer (tokens : List Token) (p : Place) :
    Parser.Request → Except Breach (Parser.Reply × Place)
  | .readExpression => do
    let (result, p) ← read (some nestingLimit) tokens (6 * tokens.length) (.operand 1) p
    return (.expression result, p)
  | .recover => do
    return (.recovered, ← recover tokens tokens.length p)

def answerAll (tokens : List Token) : Place → List Parser.Request → Except Breach Place
  | p, [] => .ok p
  | p, request :: requests => do
    let (_, p) ← answer tokens p request
    answerAll tokens p requests

/-- What is left to do of a run when its tokens have been read: the expression is written, unless
the journal holds anything. -/
def conclude (output : Sink) : Option Tree × Journal → Run
  | (none, journal) => ⟨journal, output, true⟩
  | (some e, journal) =>
    if journal.hasErrors then
      ⟨journal, output, true⟩
    else
      let (output, completed) := output.write (e.text ++ "\n")
      ⟨journal, output, completed⟩

def run (read? : String → Option Binary64) (source : String) (listTokens : Bool)
    (journal : Journal) (output : Sink) : Except Breach Run := do
  let (tokens, journal) ← scan read? source journal
  match output.writeAll (if listTokens then tokens.map Token.listing else []) with
  | (output, false) => return ⟨journal, output, false⟩
  | (output, true) =>
    if tokens.length = 1 then
      return ⟨journal, output, true⟩
    else
      return conclude output (← parse (some nestingLimit) tokens journal)

end Guarded

end LoxExpr
