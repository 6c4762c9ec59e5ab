import LiveDoc.Yaml.Mark

namespace LiveDoc.Yaml

inductive Problem where
  | missingColon
  | misplacedEntry
  | misplacedKey
  | misplacedValue
  | noToken
  | directiveName
  | directiveCharacter
  | unknownDirective
  | commentOrBreak
  | longVersion
  | versionNumber
  | versionDot
  | blankAfterHandle
  | blankOrBreak
  | anchorName
  | tagMark
  | tagUri
  | tagBracket
  | escapedOctet
  | leadingOctet
  | trailingOctet
  | zeroIndent
  | tabIndent
  | documentInScalar
  | endInScalar
  | unknownEscape
  | hexNumber
  | escapeCode
  | colonInFlow
  | tabInPlain
  | documentStart
  | duplicateVersion
  | incompatibleVersion
  | duplicateTagHandle
  | undefinedTagHandle
  | nodeContent
  | sequenceDash
  | mappingKey
  | flowSequenceEnd
  | flowMappingEnd
  deriving DecidableEq, Repr

def Problem.text : Problem → String
  | missingColon => "could not find expected ':'"
  | misplacedEntry => "block sequence entries are not allowed in this context"
  | misplacedKey => "mapping keys are not allowed in this context"
  | misplacedValue => "mapping values are not allowed in this context"
  | noToken => "found character that cannot start any token"
  | directiveName => "could not find expected directive name"
  | directiveCharacter => "found unexpected non-alphabetical character"
  | unknownDirective => "found unknown directive name"
  | commentOrBreak => "did not find expected comment or line break"
  | longVersion => "found extremely long version number"
  | versionNumber => "did not find expected version number"
  | versionDot => "did not find expected digit or '.' character"
  | blankAfterHandle => "did not find expected whitespace"
  | blankOrBreak => "did not find expected whitespace or line break"
  | anchorName => "did not find expected alphabetic or numeric character"
  | tagMark => "did not find expected '!'"
  | tagUri => "did not find expected tag URI"
  | tagBracket => "did not find the expected '>'"
  | escapedOctet => "did not find URI escaped octet"
  | leadingOctet => "found an incorrect leading UTF-8 octet"
  | trailingOctet => "found an incorrect trailing UTF-8 octet"
  | zeroIndent => "found an indentation indicator equal to 0"
  | tabIndent => "found a tab character where an indentation space is expected"
  | documentInScalar => "found unexpected document indicator"
  | endInScalar => "found unexpected end of stream"
  | unknownEscape => "found unknown escape character"
  | hexNumber => "did not find expected hexdecimal number"
  | escapeCode => "found invalid Unicode character escape code"
  | colonInFlow => "found unexpected ':'"
  | tabInPlain => "found a tab character that violates indentation"
  | documentStart => "did not find expected <document start>"
  | duplicateVersion => "found duplicate %YAML directive"
  | incompatibleVersion => "found incompatible YAML document"
  | duplicateTagHandle => "found duplicate %TAG directive"
  | undefinedTagHandle => "found undefined tag handle"
  | nodeContent => "did not find expected node content"
  | sequenceDash => "did not find expected '-' indicator"
  | mappingKey => "did not find expected key"
  | flowSequenceEnd => "did not find expected ',' or ']'"
  | flowMappingEnd => "did not find expected ',' or '\x7d'"

inductive Activity where
  | simpleKey
  | nextToken
  | directive
  | versionDirective
  | tagDirective
  | tagDirectiveHandle
  | tagDirectiveEnd
  | tagDirectiveUri
  | anchor
  | alias
  | tag
  | tagUri
  | blockScalar
  | quotedScalar
  | quotedEscape
  | plainScalar
  | node
  | blockNode
  | flowNode
  | blockSequence
  | blockMapping
  | flowSequence
  | flowMapping
  deriving DecidableEq, Repr

def Activity.text : Activity → String
  | simpleKey => "while scanning a simple key"
  | nextToken => "while scanning for the next token"
  | directive => "while scanning a directive"
  | versionDirective => "while scanning a %YAML directive"
  | tagDirective => "while scanning a %TAG directive"
  | tagDirectiveHandle => "while scanning a tag directive"
  | tagDirectiveEnd => "while parsing a tag directive"
  | tagDirectiveUri => "while parsing a %TAG directive"
  | anchor => "while scanning an anchor"
  | .alias => "while scanning an alias"
  | tag => "while scanning a tag"
  | tagUri => "while parsing a tag"
  | blockScalar => "while scanning a block scalar"
  | quotedScalar => "while scanning a quoted scalar"
  | quotedEscape => "while parsing a quoted scalar"
  | plainScalar => "while scanning a plain scalar"
  | node => "while parsing a node"
  | blockNode => "while parsing a block node"
  | flowNode => "while parsing a flow node"
  | blockSequence => "while parsing a block collection"
  | blockMapping => "while parsing a block mapping"
  | flowSequence => "while parsing a flow sequence"
  | flowMapping => "while parsing a flow mapping"

/-- A character that no YAML text may hold, by its byte offset, or a problem at a place. -/
inductive Fault where
  | control (offset : Nat)
  | located (problem : Problem) (mark : Mark) (context : Option (Activity × Mark))
  deriving DecidableEq, Repr

/-- The place of the context is mentioned if it differs from the place of the problem. -/
def contextText (mark : Mark) : Option (Activity × Mark) → String
  | none => ""
  | some (activity, start) =>
    let isSame := start.line = mark.line ∧ start.column = mark.column
    ", " ++ activity.text ++ if isSame then "" else start.suffix

def Fault.text : Fault → String
  | .control offset =>
    "control characters are not allowed" ++
      if offset = 0 then "" else " at position " ++ toString offset
  | .located problem mark context => problem.text ++ mark.suffix ++ contextText mark context

end LiveDoc.Yaml
