import LiveDoc.Number.Basic
import LiveDoc.Text.Quoted

namespace LiveDoc.Script

inductive Keyword where
  | letK
  | constK
  | varK
  | returnK
  | ifK
  | elseK
  | whileK
  | breakK
  | continueK
  | throwK
  | typeofK
  | trueK
  | falseK
  | nullK
  | undefinedK
  | thisK
  deriving DecidableEq, Repr

def Keyword.all : List Keyword :=
  [letK, constK, varK, returnK, ifK, elseK, whileK, breakK, continueK, throwK, typeofK, trueK,
    falseK, nullK, undefinedK, thisK]

def Keyword.text : Keyword → String
  | letK => "let"
  | constK => "const"
  | varK => "var"
  | returnK => "return"
  | ifK => "if"
  | elseK => "else"
  | whileK => "while"
  | breakK => "break"
  | continueK => "continue"
  | throwK => "throw"
  | typeofK => "typeof"
  | trueK => "true"
  | falseK => "false"
  | nullK => "null"
  | undefinedK => "undefined"
  | thisK => "this"

def Keyword.name (k : Keyword) : String :=
  k.text.capitalize

inductive Sign where
  | openParen
  | closeParen
  | openBrace
  | closeBrace
  | openBracket
  | closeBracket
  | comma
  | semicolon
  | dot
  | question
  | colon
  | assign
  | plusAssign
  | minusAssign
  | starAssign
  | slashAssign
  | percentAssign
  | eq
  | notEq
  | strictEq
  | strictNotEq
  | lt
  | ltEq
  | gt
  | gtEq
  | and
  | or
  | not
  | plus
  | minus
  | star
  | slash
  | percent
  deriving DecidableEq, Repr

/-- All signs. A sign stands after every sign that it is the beginning of. -/
def Sign.all : List Sign :=
  [strictEq, strictNotEq, plusAssign, minusAssign, starAssign, slashAssign, percentAssign, eq,
    notEq, ltEq, gtEq, and, or, openParen, closeParen, openBrace, closeBrace, openBracket, closeBracket,
    comma, semicolon, dot, question, colon, assign, lt, gt, not, plus, minus, star, slash, percent]

def Sign.text : Sign → String
  | openParen => "("
  | closeParen => ")"
  | openBrace => "\x7b"
  | closeBrace => "\x7d"
  | openBracket => "["
  | closeBracket => "]"
  | comma => ","
  | semicolon => ";"
  | dot => "."
  | question => "?"
  | colon => ":"
  | assign => "="
  | plusAssign => "+="
  | minusAssign => "-="
  | starAssign => "*="
  | slashAssign => "/="
  | percentAssign => "%="
  | eq => "=="
  | notEq => "!="
  | strictEq => "==="
  | strictNotEq => "!=="
  | lt => "<"
  | ltEq => "<="
  | gt => ">"
  | gtEq => ">="
  | and => "&&"
  | or => "||"
  | not => "!"
  | plus => "+"
  | minus => "-"
  | star => "*"
  | slash => "/"
  | percent => "%"

def Sign.name : Sign → String
  | openParen => "OpenParen"
  | closeParen => "CloseParen"
  | openBrace => "OpenBrace"
  | closeBrace => "CloseBrace"
  | openBracket => "OpenBracket"
  | closeBracket => "CloseBracket"
  | comma => "Comma"
  | semicolon => "Semicolon"
  | dot => "Dot"
  | question => "Question"
  | colon => "Colon"
  | assign => "Assign"
  | plusAssign => "PlusAssign"
  | minusAssign => "MinusAssign"
  | starAssign => "StarAssign"
  | slashAssign => "SlashAssign"
  | percentAssign => "PercentAssign"
  | eq => "Eq"
  | notEq => "NotEq"
  | strictEq => "StrictEq"
  | strictNotEq => "StrictNotEq"
  | lt => "Lt"
  | ltEq => "LtEq"
  | gt => "Gt"
  | gtEq => "GtEq"
  | and => "And"
  | or => "Or"
  | not => "Not"
  | plus => "Plus"
  | minus => "Minus"
  | star => "Star"
  | slash => "Slash"
  | percent => "Percent"

inductive Token where
  | keyword (k : Keyword)
  | sign (s : Sign)
  | number (n : Number)
  | text (s : String)
  | name (s : String)
  deriving DecidableEq

def numberName : Number → String
  | .int n => "Int(" ++ String.ofList (Decimal.intText n.toInt) ++ ")"
  | .float x => "Float(" ++ Number.sourceFloat x ++ ")"

def Token.kindName : Token → String
  | keyword k => k.name
  | sign s => s.name
  | number _ => "Number"
  | text _ => "Str"
  | name _ => "Ident"

def Token.shown : Token → String
  | keyword k => k.name
  | sign s => s.name
  | number n => "Number(" ++ numberName n ++ ")"
  | text s => "Str(" ++ Text.quoted s ++ ")"
  | name s => "Ident(" ++ Text.quoted s ++ ")"

end LiveDoc.Script
