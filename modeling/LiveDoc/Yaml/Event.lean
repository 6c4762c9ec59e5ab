import LiveDoc.Yaml.Tokens

namespace LiveDoc.Yaml

structure Properties where
  anchor : Option String := none
  tag : Option Bytes := none
  deriving DecidableEq, Repr

inductive Event where
  | alias (name : String)
  | scalar (properties : Properties) (text : String) (style : Style)
  | sequenceStart (properties : Properties)
  | sequenceEnd
  | mappingStart (properties : Properties)
  | mappingEnd
  deriving DecidableEq, Repr

/-- What is expected next. A collection remembers where it began. -/
inductive Stage where
  | document
  | bareDocument
  | blockEntry (start : Mark)
  | indentlessEntry
  | blockKey (start : Mark)
  | blockValue (start : Mark)
  | flowEntry (start : Mark) (isFirst : Bool)
  | pairKey (start : Mark)
  | pairValue (start : Mark)
  | pairEnd (start : Mark)
  | flowKey (start : Mark) (isFirst : Bool)
  | flowValue (start : Mark)
  | flowNoValue (start : Mark)

abbrev Located := Event × Mark

structure Reading where
  tokens : List Token
  fault : Option Fault
  handles : List (Bytes × Bytes) := []
  stages : List Stage := []

namespace Reading

def outOfTokens (r : Reading) : Fault :=
  r.fault.getD (.located .nodeContent {} none)

def peek (r : Reading) : Except Fault Token :=
  match r.tokens with
  | [] => .error r.outOfTokens
  | token :: _ => .ok token

def skip (r : Reading) : Reading := { r with tokens := r.tokens.tail }

def enter (r : Reading) (stage : Stage) : Reading := { r with stages := stage :: r.stages }

def emptyScalar (properties : Properties) : Event := .scalar properties "" .plain

abbrev Step := Except Fault (Located × Reading)

def empty (r : Reading) (mark : Mark) : Step := .ok ((emptyScalar {}, mark), r)

structure Prefixed where
  properties : Properties := {}
  handle : Option (Bytes × Bytes × Mark) := none
  start : Mark
  next : Reading

def addAnchor (p : Prefixed) : Except Fault Prefixed := do
  let token ← p.next.peek
  match token.kind with
  | .anchor name =>
    return { p with properties := { p.properties with anchor := some name }, next := p.next.skip }
  | _ => return p

def addTag (p : Prefixed) : Except Fault Prefixed := do
  let token ← p.next.peek
  match token.kind with
  | .tag handle suffix =>
    return { p with handle := some (handle, suffix, token.start), next := p.next.skip }
  | _ => return p

def wholeTag (r : Reading) (start : Mark) :
    Option (Bytes × Bytes × Mark) → Except Fault (Option Bytes)
  | none => .ok none
  | some ([], suffix, _) => .ok (some suffix)
  | some (handle, suffix, mark) =>
    match r.handles.lookup handle with
    | some octets => .ok (some (octets ++ suffix))
    | none => .error (.located .undefinedTagHandle mark (some (.node, start)))

def properties (r : Reading) : Except Fault Prefixed := do
  let token ← r.peek
  let p : Prefixed := { start := token.start, next := r }
  let p ← match token.kind with
    | .anchor _ => do addTag (← addAnchor p)
    | _ => do
      let p ← addTag p
      if p.handle.isSome then addAnchor p else pure p
  let tag ← r.wholeTag p.start p.handle
  return { p with properties := { p.properties with tag } }

def node (isBlock mayBeIndentless : Bool) (r : Reading) : Step := do
  let token ← r.peek
  match token.kind with
  | .alias name => return ((.alias name, token.start), r.skip)
  | _ =>
    let p ← r.properties
    let r := p.next
    let token ← r.peek
    let opens (event : Event) (stage : Stage) : Step := .ok ((event, p.start), r.skip.enter stage)
    match token.kind, isBlock, mayBeIndentless with
    | .entry, _, true => return ((.sequenceStart p.properties, p.start), r.enter .indentlessEntry)
    | .scalar text style, _, _ => return ((.scalar p.properties text style, p.start), r.skip)
    | .flowSequenceStart, _, _ =>
      opens (.sequenceStart p.properties) (.flowEntry token.start true)
    | .flowMappingStart, _, _ => opens (.mappingStart p.properties) (.flowKey token.start true)
    | .blockSequenceStart, true, _ =>
      opens (.sequenceStart p.properties) (.blockEntry token.start)
    | .blockMappingStart, true, _ => opens (.mappingStart p.properties) (.blockKey token.start)
    | _, _, _ =>
      if p.properties = {} then
        let activity := if isBlock then Activity.blockNode else .flowNode
        throw (.located .nodeContent token.start (some (activity, p.start)))
      else return ((emptyScalar p.properties, p.start), r)

/-- A node, or an empty scalar at `mark` if one of the tokens in `absent` follows. -/
def nodeUnless (absent : List Token.Kind) (isBlock mayBeIndentless : Bool) (mark : Mark)
    (r : Reading) : Step := do
  if absent.contains (← r.peek).kind then r.empty mark else r.node isBlock mayBeIndentless

def documentNode (r : Reading) : Step := do
  let token ← r.peek
  match token.kind with
  | .version .. | .tagHandle .. | .documentStart | .documentEnd | .streamEnd => r.empty token.start
  | _ => r.node true false

def blockEntry (start : Mark) (r : Reading) : Step := do
  let token ← r.peek
  match token.kind with
  | .entry =>
    (r.skip.enter (.blockEntry start)).nodeUnless [.entry, .blockEnd] true false token.stop
  | .blockEnd => return ((.sequenceEnd, token.start), r.skip)
  | _ => throw (.located .sequenceDash token.start (some (.blockSequence, start)))

def indentlessEntry (r : Reading) : Step := do
  let token ← r.peek
  match token.kind with
  | .entry =>
    let r := r.skip.enter .indentlessEntry
    r.nodeUnless [.entry, .key, .value, .blockEnd] true false token.stop
  | _ => return ((.sequenceEnd, token.start), r)

def blockKey (start : Mark) (r : Reading) : Step := do
  let token ← r.peek
  match token.kind with
  | .key =>
    (r.skip.enter (.blockValue start)).nodeUnless [.key, .value, .blockEnd] true true token.stop
  | .blockEnd => return ((.mappingEnd, token.start), r.skip)
  | _ => throw (.located .mappingKey token.start (some (.blockMapping, start)))

def blockValue (start : Mark) (r : Reading) : Step := do
  let token ← r.peek
  let next := r.enter (.blockKey start)
  match token.kind with
  | .value => next.skip.nodeUnless [.key, .value, .blockEnd] true true token.stop
  | _ => next.empty token.start

def comma (isFirst : Bool) (problem : Problem) (activity : Activity) (start : Mark) (r : Reading) :
    Except Fault Reading := do
  let token ← r.peek
  if isFirst then return r
  else if token.kind = .flowEntry then return r.skip
  else throw (.located problem token.start (some (activity, start)))

def flowEntry (start : Mark) (isFirst : Bool) (r : Reading) : Step := do
  let token ← r.peek
  if token.kind = .flowSequenceEnd then return ((.sequenceEnd, token.start), r.skip)
  else
    let r ← r.comma isFirst .flowSequenceEnd .flowSequence start
    let token ← r.peek
    match token.kind with
    | .key => return ((.mappingStart {}, token.start), r.skip.enter (.pairKey start))
    | .flowSequenceEnd => return ((.sequenceEnd, token.start), r.skip)
    | _ => (r.enter (.flowEntry start false)).node false false

/-- The key of a mapping with one entry in a flow sequence. A mark in its place is passed over. -/
def pairKey (start : Mark) (r : Reading) : Step := do
  let token ← r.peek
  let next := r.enter (.pairValue start)
  match token.kind with
  | .value | .flowEntry | .flowSequenceEnd => next.skip.empty token.stop
  | _ => next.node false false

def pairValue (start : Mark) (r : Reading) : Step := do
  let token ← r.peek
  let next := r.enter (.pairEnd start)
  if token.kind = .value then
    let token ← next.skip.peek
    next.skip.nodeUnless [.flowEntry, .flowSequenceEnd] false false token.start
  else next.empty token.start

def pairEnd (start : Mark) (r : Reading) : Step := do
  let token ← r.peek
  return ((.mappingEnd, token.start), r.enter (.flowEntry start false))

def flowKey (start : Mark) (isFirst : Bool) (r : Reading) : Step := do
  let token ← r.peek
  if token.kind = .flowMappingEnd then return ((.mappingEnd, token.start), r.skip)
  else
    let r ← r.comma isFirst .flowMappingEnd .flowMapping start
    let token ← r.peek
    match token.kind with
    | .key =>
      let token ← r.skip.peek
      (r.skip.enter (.flowValue start)).nodeUnless [.value, .flowEntry, .flowMappingEnd]
        false false token.start
    | .flowMappingEnd => return ((.mappingEnd, token.start), r.skip)
    | _ => (r.enter (.flowNoValue start)).node false false

def flowValue (start : Mark) (r : Reading) : Step := do
  let token ← r.peek
  let next := r.enter (.flowKey start false)
  if token.kind = .value then
    let token ← next.skip.peek
    next.skip.nodeUnless [.flowEntry, .flowMappingEnd] false false token.start
  else next.empty token.start

def flowNoValue (start : Mark) (r : Reading) : Step := do
  let token ← r.peek
  (r.enter (.flowKey start false)).empty token.start

def step (stage : Stage) (r : Reading) : Step :=
  match stage with
  | .document => r.documentNode
  | .bareDocument => r.node true false
  | .blockEntry start => r.blockEntry start
  | .indentlessEntry => r.indentlessEntry
  | .blockKey start => r.blockKey start
  | .blockValue start => r.blockValue start
  | .flowEntry start isFirst => r.flowEntry start isFirst
  | .pairKey start => r.pairKey start
  | .pairValue start => r.pairValue start
  | .pairEnd start => r.pairEnd start
  | .flowKey start isFirst => r.flowKey start isFirst
  | .flowValue start => r.flowValue start
  | .flowNoValue start => r.flowNoValue start

def events : Nat → Reading → List Located × Except Fault Reading
  | 0, r => ([], .error r.outOfTokens)
  | fuel + 1, r =>
    match r.stages with
    | [] => ([], .ok r)
    | stage :: stages =>
      match step stage { r with stages } with
      | .error fault => ([], .error fault)
      | .ok (event, next) =>
        let (more, result) := events fuel next
        (event :: more, result)

def utf8 (s : String) : Bytes := Text.utf8 s.toList

def defaultHandles : List (Bytes × Bytes) :=
  [(utf8 "!", utf8 "!"), (utf8 "!!", utf8 "tag:yaml.org,2002:")]

def directives : Nat → Bool → Reading → Except Fault Reading
  | 0, _, r => .error r.outOfTokens
  | fuel + 1, hasVersion, r => do
    let token ← r.peek
    match token.kind with
    | .version major minor =>
      if hasVersion then throw (.located .duplicateVersion token.start none)
      if major ≠ 1 ∨ (minor ≠ 1 ∧ minor ≠ 2) then
        throw (.located .incompatibleVersion token.start none)
      directives fuel true r.skip
    | .tagHandle handle octets =>
      if (r.handles.lookup handle).isSome then
        throw (.located .duplicateTagHandle token.start none)
      directives fuel hasVersion { r.skip with handles := r.handles ++ [(handle, octets)] }
    | _ => return { r with handles := r.handles ++ defaultHandles }

def firstDocument (r : Reading) : Except Fault (Option Reading) := do
  let token ← r.peek
  match token.kind with
  | .streamEnd => return none
  | .version .. | .tagHandle .. | .documentStart =>
    let r ← directives (r.tokens.length + 1) false r
    let token ← r.peek
    if token.kind = .documentStart then return some (r.skip.enter .document)
    else throw (.located .documentStart token.start none)
  | _ => return some ({ r with handles := defaultHandles }.enter .bareDocument)

def isFollowed (r : Reading) : Bool :=
  match r.tokens.dropWhile (·.kind = .documentEnd) with
  | token :: _ => token.kind ≠ .streamEnd
  | [] => true

end Reading

structure Outline where
  /-- There are none if the stream holds no document. -/
  events : Option (List Located)
  fault : Option Fault
  isFollowed : Bool

def Outline.ofTokens (tokens : List Token) (fault : Option Fault) : Outline :=
  let r : Reading := { tokens := tokens.tail, fault }
  match if tokens = [] then .error r.outOfTokens else r.firstDocument with
  | .error fault => ⟨some [], some fault, false⟩
  | .ok none => ⟨none, none, false⟩
  | .ok (some r) =>
    match Reading.events (4 * tokens.length + 8) r with
    | (events, .error fault) => ⟨some events, some fault, false⟩
    | (events, .ok r) =>
      match r.peek with
      | .error fault => ⟨some events, some fault, false⟩
      | .ok _ => ⟨some events, none, r.isFollowed⟩

def Outline.ofText (text : List Char) : Outline :=
  let (tokens, fault) := Yaml.tokens text
  ofTokens tokens fault

end LiveDoc.Yaml
