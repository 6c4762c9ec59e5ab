import LiveDoc.Text.Trim
import LiveDoc.Text.Utf8
import LiveDoc.Yaml.Cursor
import LiveDoc.Yaml.Resolution

namespace LiveDoc.Yaml.Printer

structure Allowed where
  isMultiline : Bool
  plain : Bool
  single : Bool
  block : Bool

/-- Tabs, and characters outside of the basic plane, do not count as printable. -/
def isPrintable (c : Char) : Bool :=
  c = '\n' || (' ' ≤ c && c ≤ '~') || ('\u00a0' ≤ c && c ≤ '\ufffd' && c ≠ '\ufeff')

def endsWordOrText : List Char → Bool
  | '\x00' :: _ => true
  | cs => endsWord cs

def hasLeadingIndicator : List Char → Bool
  | '-' :: '-' :: '-' :: _ | '.' :: '.' :: '.' :: _ => true
  | c :: cs =>
    "#,[]\x7b\x7d&*!|>'\"%@\x60".contains c
      || (c = '?' || c = ':' || c = '-') && endsWordOrText cs
  | [] => false

def hasInnerIndicator (before : Char) : List Char → Bool
  | [] => false
  | c :: cs =>
    c = ':' && endsWordOrText cs || c = '#' && endsWordOrText [before] || hasInnerIndicator c cs

def hasPair (p q : Char → Bool) : List Char → Bool
  | c :: d :: cs => p c && q d || hasPair p q (d :: cs)
  | _ => false

def isBlank (c : Char) : Bool := c = ' '

def analyse (cs : List Char) : Allowed :=
  match cs with
  | [] => ⟨false, true, true, false⟩
  | first :: rest =>
    let isMultiline := cs.any isBreak
    let isSpecial := cs.any (!isPrintable ·) || hasPair isBlank isBreak cs
    let isIndicated := hasLeadingIndicator cs || hasInnerIndicator first rest
    let endsInSpace := cs.getLast?.any isBlank
    let isPadded :=
      isBlank first || isBreak first || endsInSpace || cs.getLast?.any isBreak
    let single := !isSpecial && !hasPair isBreak isBlank cs
    { isMultiline
      plain := single && !isMultiline && !isIndicated && !isPadded
      single
      block := !isSpecial && !endsInSpace }

/-- Texts that would be read as another kind of scalar, or look like numbers with leading zeros. -/
def isAmbiguous (s : String) : Bool :=
  match Resolution.plain s with
  | .ok (.string _) => Resolution.hasLeadingZero s.toList
  | _ => true

inductive Style where
  | plain
  | single
  | double
  | literal
  deriving DecidableEq

/-- The style of a text; a key that is written before its colon must stay in its line. -/
def styleOf (isSimpleKey : Bool) (s : String) (allowed : Allowed) : Style :=
  if '\n' ∈ s.toList then if allowed.block ∧ !isSimpleKey then .literal else .double
  else if isSimpleKey ∧ allowed.isMultiline then .double
  else if isAmbiguous s ∨ !allowed.plain then if allowed.single then .single else .double
  else .plain

def indentBy (n : Nat) (line : List Char) : List Char :=
  List.replicate n ' ' ++ line

def linesOf (cs : List Char) : List (List Char) :=
  match (Text.splitOn '\n' cs).reverse with
  | [] :: lines => lines.reverse
  | lines => lines.reverse

def singleQuoted (cs : List Char) : List Char :=
  '\x27' :: (cs.flatMap fun c => if c = '\x27' then [c, c] else [c]) ++ ['\x27']

def hexUpper (width n : Nat) : List Char :=
  let digits := (Nat.toDigits 16 n).map Char.toUpper
  List.replicate (width - digits.length) '0' ++ digits

def escape? (c : Char) : Option Char :=
  match c with
  | '\x00' => some '0'
  | '\x07' => some 'a'
  | '\x08' => some 'b'
  | '\t' => some 't'
  | '\n' => some 'n'
  | '\x0b' => some 'v'
  | '\x0c' => some 'f'
  | '\r' => some 'r'
  | '\x1b' => some 'e'
  | '\x22' => some '\x22'
  | '\\' => some '\\'
  | '\u0085' => some 'N'
  | '\u2028' => some 'L'
  | '\u2029' => some 'P'
  | _ => none

def doubleQuotedChar (c : Char) : List Char :=
  match escape? c with
  | some letter => ['\\', letter]
  | none =>
    if isPrintable c then [c]
    else if c.toNat ≤ 0xff then '\\' :: 'x' :: hexUpper 2 c.toNat
    else if c.toNat ≤ 0xffff then '\\' :: 'u' :: hexUpper 4 c.toNat
    else '\\' :: 'U' :: hexUpper 8 c.toNat

def doubleQuoted (cs : List Char) : List Char :=
  '\x22' :: cs.flatMap doubleQuotedChar ++ ['\x22']

def literalHints (cs : List Char) : List Char :=
  let start := if cs.head?.any (fun c => isBlank c || isBreak c) then ['2'] else []
  let stop :=
    match cs.reverse with
    | c :: d :: _ => if !isBreak c then ['-'] else if isBreak d then ['+'] else []
    | [c] => if isBreak c then ['+'] else ['-']
    | [] => ['-']
  start ++ stop

/-- The first line goes on where the node is to be written; all others are whole lines. -/
abbrev Lines := List (List Char)

def literal (indent : Nat) (cs : List Char) : Lines :=
  let body := (linesOf cs).map fun line => if line = [] then [] else indentBy indent line
  ('|' :: literalHints cs) :: body

def text (isSimpleKey : Bool) (indent : Nat) (s : String) : Lines :=
  let cs := s.toList
  match styleOf isSimpleKey s (analyse cs) with
  | .plain => [cs]
  | .single => [singleQuoted cs]
  | .double => [doubleQuoted cs]
  | .literal => literal indent cs

inductive Lead where
  | start
  | dash
  | mark
  | key
  deriving DecidableEq

def Lead.space : Lead → List Char
  | .start => []
  | _ => [' ']

def prepend (cs : List Char) : Lines → Lines
  | [] => [cs]
  | line :: lines => (cs ++ line) :: lines

def nested (lead : Lead) (indent : Nat) : Nat :=
  match lead with
  | .start => indent
  | _ => indent + 2

def blockLines (lead : Lead) (hasTag : Bool) (indent : Nat) (lines : Lines) : Lines :=
  if hasTag ∨ lead = .key then [] :: lines
  else
    match lines with
    | [] => []
    | line :: lines => (lead.space ++ line.drop indent) :: lines

def isTagChar (c : Char) : Bool :=
  isWordChar c || ";/?:@&=+$,.!~*'()[]".contains c

def tagOctet (octet : UInt8) : List Char :=
  let c := Char.ofNat octet.toNat
  if isTagChar c then [c] else '%' :: hexUpper 2 octet.toNat

def tagText (tag : String) : List Char :=
  let octets := (Text.utf8 tag.toList).flatMap tagOctet
  if tag = "!" then "!<!>".toList else '!' :: octets

/-- Whether a node may be written before its colon: in one line of at most 128 octets. -/
def isSimpleKey : Tree → Bool
  | .sequence items => items.isEmpty
  | .mapping entries => entries.isEmpty
  | .string s => !(analyse s.toList).isMultiline && s.utf8ByteSize ≤ 128
  | .tagged tag value =>
    match value with
    | .sequence items => items.isEmpty && tag.utf8ByteSize < 128
    | .mapping entries => entries.isEmpty && tag.utf8ByteSize < 128
    | .string s =>
      !(analyse s.toList).isMultiline && s.utf8ByteSize + tag.utf8ByteSize < 128
    | .tagged .. => false
    | _ => true
  | _ => true

/-- The indentation of the dashes of a sequence: none of its own where it follows a key. -/
def dashIndent (lead : Lead) (hasTag : Bool) (indent : Nat) : Nat :=
  if lead = .key ∨ (lead = .mark ∧ hasTag) then indent else nested lead indent

def inLine (lead : Lead) (hasTag : Bool) (lines : Lines) : Lines :=
  prepend (if hasTag then [' '] else lead.space) lines

mutual

/-- A node whose lead stands in a block with this indentation. A tag in a tag cannot be written. -/
def node (isKey : Bool) (lead : Lead) (hasTag : Bool) (indent : Nat) : Tree → Option Lines
  | .null => some (inLine lead hasTag ["null".toList])
  | .bool b => some (inLine lead hasTag [(toString b).toList])
  | .int n => some (inLine lead hasTag [Decimal.intText n])
  | .float x => some (inLine lead hasTag [(Tree.floatText x).toList])
  | .string s => some (inLine lead hasTag (text isKey (indent + 2) s))
  | .sequence [] => some (inLine lead hasTag ["[]".toList])
  | .mapping [] => some (inLine lead hasTag ["\x7b\x7d".toList])
  | .sequence items => do
    let own := dashIndent lead hasTag indent
    return blockLines lead hasTag own (← sequenceLines own items)
  | .mapping entries => do
    let own := nested lead indent
    return blockLines lead hasTag own (← mappingLines own entries)
  | .tagged tag value =>
    if hasTag then none
    else do
      let lines ← node isKey lead true indent value
      return prepend (lead.space ++ tagText tag) lines
termination_by structural t => t

def sequenceLines (indent : Nat) : List Tree → Option Lines
  | [] => some []
  | item :: items => do
    let lines ← node false .dash false indent item
    let more ← sequenceLines indent items
    return prepend (indentBy indent ['-']) lines ++ more
termination_by structural ts => ts

def mappingLines (indent : Nat) : List (Tree × Tree) → Option Lines
  | [] => some []
  | (key, value) :: entries => do
    let isSimple := isSimpleKey key
    let keyLines ← node isSimple (if isSimple then .start else .mark) false indent key
    let valueLines ← node false (if isSimple then .key else .mark) false indent value
    let more ← mappingLines indent entries
    let pad := indentBy indent
    if isSimple then
      return prepend (pad (keyLines.flatten ++ [':'])) valueLines ++ more
    else
      return prepend (pad ['?']) keyLines ++ prepend (pad [':']) valueLines ++ more
termination_by structural es => es

end

/-- The text of a tree, without blanks around it; empty if it has none. -/
def render (t : Tree) : String :=
  match node false .start false 0 t with
  | some lines => String.ofList (Text.trim (Text.joinWith ['\n'] lines))
  | none => ""

end LiveDoc.Yaml.Printer
