import LiveDoc.Yaml.Directive
import LiveDoc.Yaml.Scalar.Block
import LiveDoc.Yaml.Scalar.Plain
import LiveDoc.Yaml.Scalar.Quoted

namespace LiveDoc.Yaml

/-- A node that a colon may still turn into a key. -/
structure PossibleKey where
  /-- No other reading of the node is left where a key is required. -/
  isRequired : Bool
  number : Nat
  mark : Mark

structure Scan where
  cursor : Cursor
  tokens : List Token := []
  /-- The column of the block; none is open at `-1`. -/
  indent : Int := -1
  outerIndents : List Int := []
  key : Option PossibleKey := none
  /-- The possible keys before the open flow collections, the innermost first. -/
  outerKeys : List (Option PossibleKey) := []
  keyAllowed : Bool := true

namespace Scan

def inFlow (s : Scan) : Bool := !s.outerKeys.isEmpty

def mark (s : Scan) : Mark := s.cursor.mark

def column (s : Scan) : Int := s.cursor.column

def emit (s : Scan) (kind : Token.Kind) (start : Mark) (next : Cursor) : Scan :=
  { s with tokens := ⟨kind, start, next.mark⟩ :: s.tokens, cursor := next }

def emitChars (s : Scan) (kind : Token.Kind) (n : Nat) : Scan :=
  s.emit kind s.mark (s.cursor.drop n)

def insert (s : Scan) (number : Nat) (kind : Token.Kind) (mark : Mark) : Scan :=
  let later := s.tokens.length - number
  { s with tokens := s.tokens.take later ++ ⟨kind, mark, mark⟩ :: s.tokens.drop later }

def missingColon (s : Scan) (key : PossibleKey) : Fault :=
  s.cursor.fault .missingColon .simpleKey key.mark

/-- A key ends in its line, and within 1024 characters. -/
def isStale (s : Scan) (key : PossibleKey) : Bool :=
  key.mark.line < s.mark.line || key.mark.index + 1024 < s.mark.index

def freshKey (s : Scan) : Option PossibleKey → Except Fault (Option PossibleKey)
  | none => .ok none
  | some key =>
    if s.isStale key then
      if key.isRequired then .error (s.missingColon key) else .ok none
    else .ok (some key)

def dropStaleKeys (s : Scan) : Except Fault Scan := do
  let outerKeys ← s.outerKeys.reverse.mapM s.freshKey
  let key ← s.freshKey s.key
  return { s with key, outerKeys := outerKeys.reverse }

def dropKey (s : Scan) : Except Fault Scan :=
  match s.key with
  | none => .ok s
  | some key => if key.isRequired then .error (s.missingColon key) else .ok { s with key := none }

def saveKey (s : Scan) : Except Fault Scan :=
  if s.keyAllowed then do
    let s ← s.dropKey
    return { s with
      key := some ⟨!s.inFlow && s.indent == s.column, s.tokens.length, s.mark⟩ }
  else .ok s

def openBlock (s : Scan) (column : Int) (number : Nat) (kind : Token.Kind) (mark : Mark) : Scan :=
  if !s.inFlow ∧ s.indent < column then
    { s with indent := column, outerIndents := s.indent :: s.outerIndents }.insert number kind mark
  else s

def closed (column : Int) (mark : Mark) : Int → List Int → List Token → Int × List Int × List Token
  | indent, [], tokens => (indent, [], tokens)
  | indent, outer :: outers, tokens =>
    if column < indent then closed column mark outer outers (⟨.blockEnd, mark, mark⟩ :: tokens)
    else (indent, outer :: outers, tokens)

def closeBlocks (s : Scan) (column : Int) : Scan :=
  if s.inFlow then s
  else
    let (indent, outerIndents, tokens) := closed column s.mark s.indent s.outerIndents s.tokens
    { s with indent, outerIndents, tokens }

/-- Moves to the next token: over blanks, comments and line breaks. A new line of a block may begin
with a key. Tabs are skipped only where no key may begin. -/
def skipToToken (s : Scan) : Nat → Scan
  | 0 => s
  | fuel + 1 =>
    let c := s.cursor
    let c := if c.mark.index = 0 ∧ c.rest.head? = some '\ufeff' then c.drop 1 else c
    let isSkipped (ch : Char) := ch = ' ' || (s.inFlow || !s.keyAllowed) && ch = '\t'
    let c := (c.span isSkipped).2.skipComment
    match c.takeBreak? with
    | some (_, next) =>
      skipToToken { s with cursor := next, keyAllowed := s.keyAllowed || !s.inFlow } fuel
    | none => { s with cursor := c }

def leaveDocument (s : Scan) : Except Fault Scan := do
  let s ← (s.closeBlocks (-1)).dropKey
  return { s with keyAllowed := false }

def streamEnd (s : Scan) : Except Fault Scan := do
  let c := s.cursor
  let mark := if c.column = 0 then c.mark else { c.mark with line := c.mark.line + 1, column := 0 }
  let s ← leaveDocument { s with cursor := { c with mark } }
  return s.emitChars .streamEnd 0

def directive (s : Scan) : Except Fault Scan := do
  let s ← s.leaveDocument
  let (token, next) ← Directive.scan s.cursor
  return { s with tokens := token :: s.tokens, cursor := next }

def documentMark (s : Scan) (kind : Token.Kind) : Except Fault Scan := do
  return (← s.leaveDocument).emitChars kind 3

def flowStart (s : Scan) (kind : Token.Kind) : Except Fault Scan := do
  let s ← s.saveKey
  let s := { s with key := none, outerKeys := s.key :: s.outerKeys, keyAllowed := true }
  return s.emitChars kind 1

def flowEnd (s : Scan) (kind : Token.Kind) : Except Fault Scan := do
  let s ← s.dropKey
  let s :=
    match s.outerKeys with
    | [] => s
    | key :: outerKeys => { s with key, outerKeys }
  return { s with keyAllowed := false }.emitChars kind 1

def flowEntry (s : Scan) : Except Fault Scan := do
  return { ← s.dropKey with keyAllowed := true }.emitChars .flowEntry 1

/-- In a block, an indicator that opens one may stand only where a key may. -/
def demandKeyAllowed (s : Scan) (problem : Problem) : Except Fault Unit :=
  if s.inFlow ∨ s.keyAllowed then .ok () else .error (.located problem s.mark none)

def entry (s : Scan) : Except Fault Scan := do
  s.demandKeyAllowed .misplacedEntry
  let s := s.openBlock s.column s.tokens.length .blockSequenceStart s.mark
  return { ← s.dropKey with keyAllowed := true }.emitChars .entry 1

def keyMark (s : Scan) : Except Fault Scan := do
  s.demandKeyAllowed .misplacedKey
  let s := s.openBlock s.column s.tokens.length .blockMappingStart s.mark
  return { ← s.dropKey with keyAllowed := !s.inFlow }.emitChars .key 1

def valueMark (s : Scan) : Except Fault Scan := do
  match s.key with
  | some key =>
    let s := s.insert key.number .key key.mark
    let s := s.openBlock key.mark.column key.number .blockMappingStart key.mark
    return { s with key := none, keyAllowed := false }.emitChars .value 1
  | none =>
    s.demandKeyAllowed .misplacedValue
    let s := s.openBlock s.column s.tokens.length .blockMappingStart s.mark
    return { s with keyAllowed := !s.inFlow }.emitChars .value 1

def endsAnchor : List Char → Bool
  | [] => true
  | c :: cs => endsWord (c :: cs) || "?:,]\x7d%@\x60".contains c

def anchor (s : Scan) (isAlias : Bool) : Except Fault Scan := do
  let s := { ← s.saveKey with keyAllowed := false }
  let (name, next) := (s.cursor.drop 1).span isWordChar
  if name = [] ∨ !endsAnchor next.rest then
    throw (next.fault .anchorName (if isAlias then .alias else .anchor) s.mark)
  let name := String.ofList name
  return s.emit (if isAlias then .alias name else .anchor name) s.mark next

def tag (s : Scan) : Except Fault Scan := do
  let s := { ← s.saveKey with keyAllowed := false }
  let (handle, suffix, next) ← Tag.parts s.cursor
  if endsWord next.rest ∨ (s.inFlow ∧ next.rest.head? = some ',') then
    return s.emit (.tag handle suffix) s.mark next
  else throw (next.fault .blankOrBreak .tag s.mark)

def blockScalar (s : Scan) (folded : Bool) : Except Fault Scan := do
  let s := { ← s.dropKey with keyAllowed := true }
  let (text, next) ← Block.scan folded s.indent s.cursor
  return s.emit (.scalar text .block) s.mark next

def quotedScalar (s : Scan) (isSingle : Bool) : Except Fault Scan := do
  let s := { ← s.saveKey with keyAllowed := false }
  let (text, next) ← Quoted.scan isSingle s.cursor
  return s.emit (.scalar text .quoted) s.mark next

def plainScalar (s : Scan) : Except Fault Scan := do
  let s := { ← s.saveKey with keyAllowed := false }
  let r ← Plain.scan s.inFlow (s.indent + 1).toNat s.cursor
  return { s with
    tokens := ⟨.scalar r.text .plain, s.mark, r.stop⟩ :: s.tokens
    cursor := r.next
    keyAllowed := r.isBroken }

def isIndicator (c : Char) : Bool :=
  "-?:,[]\x7b\x7d#&*!|>'\"%@\x60".contains c

def beginsPlain (inFlow : Bool) : List Char → Bool
  | [] => false
  | c :: cs =>
    !(isSpace c || isBreak c || isIndicator c)
      || c = '-' && !(cs.head?.any isSpace)
      || !inFlow && (c = '?' || c = ':') && !endsWord cs

def otherToken (s : Scan) : Except Fault Scan :=
  if beginsPlain s.inFlow s.cursor.rest then s.plainScalar
  else .error (s.cursor.fault .noToken .nextToken s.mark)

def token (s : Scan) : Except Fault Scan :=
  match s.cursor.rest with
  | [] => s.streamEnd
  | c :: cs =>
    if s.cursor.column = 0 ∧ c = '%' then s.directive
    else if s.cursor.atDocumentMark then
      s.documentMark (if c = '-' then .documentStart else .documentEnd)
    else
      match c with
      | '[' => s.flowStart .flowSequenceStart
      | '\x7b' => s.flowStart .flowMappingStart
      | ']' => s.flowEnd .flowSequenceEnd
      | '\x7d' => s.flowEnd .flowMappingEnd
      | ',' => s.flowEntry
      | '-' => if endsWord cs then s.entry else s.otherToken
      | '?' => if s.inFlow ∨ endsWord cs then s.keyMark else s.otherToken
      | ':' => if s.inFlow ∨ endsWord cs then s.valueMark else s.otherToken
      | '*' => s.anchor true
      | '&' => s.anchor false
      | '!' => s.tag
      | '|' => if s.inFlow then s.otherToken else s.blockScalar false
      | '>' => if s.inFlow then s.otherToken else s.blockScalar true
      | '\x27' => s.quotedScalar true
      | '\x22' => s.quotedScalar false
      | _ => s.otherToken

def next (s : Scan) : Except Fault Scan := do
  let s ← (s.skipToToken (s.cursor.rest.length + 1)).dropStaleKeys
  let s ← (s.closeBlocks s.column).token
  s.dropStaleKeys

/-- The tokens that are settled: those before the first possible key. -/
def settled (s : Scan) : List Token :=
  let keys := (s.key :: s.outerKeys).filterMap (·.map PossibleKey.number)
  s.tokens.reverse.take (keys.foldl min s.tokens.length)

def run : Nat → Scan → List Token × Option Fault
  | 0, s => (s.settled, none)
  | fuel + 1, s =>
    match s.next with
    | .error fault => (s.settled, some fault)
    | .ok after =>
      if after.tokens.head?.any (·.kind = .streamEnd) then (after.tokens.reverse, none)
      else run fuel after

end Scan

def isAllowed (c : Char) : Bool :=
  c = '\t' || c = '\n' || c = '\r' || (' ' ≤ c && c ≤ '~') || c = '\u0085'
    || ('\u00a0' ≤ c && c ≤ '\ufffd') || 0x10000 ≤ c.toNat

def controlOffset? (offset : Nat) : List Char → Option Nat
  | [] => none
  | c :: cs => if isAllowed c then controlOffset? (offset + c.utf8Size) cs else some offset

def tokens (text : List Char) : List Token × Option Fault :=
  match controlOffset? 0 text with
  | some offset => ([], some (.control offset))
  | none =>
    let start : Token := ⟨.streamStart, {}, {}⟩
    Scan.run (text.length + 2) { cursor := { rest := text }, tokens := [start] }

end LiveDoc.Yaml
