import LiveDoc.Decimal.Reading
import LiveDoc.Text.Utf8
import LiveDoc.Yaml.Cursor

namespace LiveDoc.Yaml

abbrev Bytes := List UInt8

inductive TagSite where
  | directive
  | node
  deriving DecidableEq

namespace Tag

def isUriChar (c : Char) : Bool :=
  isWordChar c || ";/?:@&=+$.!~*'()".contains c

def hexPair? (high low : Char) : Option Nat :=
  match Decimal.digitValue? 16 high, Decimal.digitValue? 16 low with
  | some h, some l => some (16 * h + l)
  | _, _ => none

def sequenceLength (octet : Nat) : Nat :=
  if octet < 0x80 then 1
  else if octet / 0x20 = 6 then 2
  else if octet / 0x10 = 14 then 3
  else if octet / 8 = 30 then 4
  else 0

def uriActivity : TagSite → Activity
  | .directive => .tagDirectiveUri
  | .node => .tagUri

def trailing (site : TagSite) (start : Mark) : Nat → Cursor → Except Fault (Bytes × Cursor)
  | 0, c => .ok ([], c)
  | more + 1, c =>
    match c.rest with
    | '%' :: high :: low :: _ =>
      match hexPair? high low with
      | some octet =>
        if octet / 0x40 = 2 then do
          let (octets, next) ← trailing site start more (c.drop 3)
          return (.ofNat octet :: octets, next)
        else .error (c.fault .trailingOctet (uriActivity site) start)
      | none => .error (c.fault .escapedOctet (uriActivity site) start)
    | _ => .error (c.fault .escapedOctet (uriActivity site) start)

def escaped (site : TagSite) (start : Mark) (c : Cursor) : Except Fault (Bytes × Cursor) :=
  match c.rest with
  | '%' :: high :: low :: _ =>
    match hexPair? high low with
    | some octet =>
      match sequenceLength octet with
      | 0 => .error (c.fault .leadingOctet (uriActivity site) start)
      | length + 1 => do
        let (octets, next) ← trailing site start length (c.drop 3)
        return (.ofNat octet :: octets, next)
    | none => .error (c.fault .escapedOctet (uriActivity site) start)
  | _ => .error (c.fault .escapedOctet (uriActivity site) start)

def uriChars (site : TagSite) (brackets : Bool) (start : Mark) :
    Nat → Cursor → Except Fault (Bytes × Cursor)
  | 0, c => .ok ([], c)
  | fuel + 1, c =>
    match c.rest with
    | [] => .ok ([], c)
    | ch :: _ =>
      if ch = '%' then do
        let (octets, next) ← escaped site start c
        let (more, next) ← uriChars site brackets start fuel next
        return (octets ++ more, next)
      else if isUriChar ch || brackets && (ch = ',' || ch = '[' || ch = ']') then do
        let (more, next) ← uriChars site brackets start fuel (c.drop 1)
        return (.ofNat ch.toNat :: more, next)
      else .ok ([], c)

def uri (site : TagSite) (brackets : Bool) (head : Bytes) (start : Mark) (c : Cursor) :
    Except Fault (Bytes × Cursor) := do
  let (octets, next) ← uriChars site brackets start c.rest.length c
  if head = [] ∧ next.mark = c.mark then
    throw (next.fault .tagUri (uriActivity site) start)
  return ((head.drop 1 ++ octets).takeWhile (· ≠ 0), next)

/-- A `!`, word characters, and if there is one a second `!`, which a directive demands. -/
def handle (site : TagSite) (start : Mark) (c : Cursor) : Except Fault (Bytes × Cursor) :=
  match c.rest with
  | '!' :: _ =>
    let (word, next) := (c.drop 1).span isWordChar
    let octets := Text.utf8 ('!' :: word)
    if next.rest.head? = some '!' then .ok (octets ++ Text.utf8 ['!'], next.drop 1)
    else if site = .directive ∧ word ≠ [] then
      .error (next.fault .tagMark .tagDirectiveEnd start)
    else .ok (octets, next)
  | _ =>
    .error (c.fault .tagMark (if site = .directive then .tagDirectiveHandle else .tag) start)

/-- A second `!` makes a handle, and all else is the suffix of the handle `!`. -/
def isHandle (octets : Bytes) : Bool :=
  1 < octets.length && octets.getLast? = some (.ofNat '!'.toNat)

def parts (c : Cursor) : Except Fault (Bytes × Bytes × Cursor) := do
  let start := c.mark
  match c.rest with
  | '!' :: '<' :: _ =>
    let (suffix, next) ← uri .node true [] start (c.drop 2)
    if next.rest.head? = some '>' then return ([], suffix, next.drop 1)
    else throw (next.fault .tagBracket .tag start)
  | _ =>
    let (head, next) ← handle .node start c
    if isHandle head then
      let (suffix, next) ← uri .node false [] start next
      return (head, suffix, next)
    else
      let (suffix, next) ← uri .node false head start next
      if suffix = [] then return ([], Text.utf8 ['!'], next)
      else return (Text.utf8 ['!'], suffix, next)

end Tag

end LiveDoc.Yaml
