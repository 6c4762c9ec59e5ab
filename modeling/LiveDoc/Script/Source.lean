import LiveDoc.Script.Lexer
import LiveDoc.Script.Parser

namespace LiveDoc.Script

inductive SyntaxError where
  | unrecognized (offset : Nat)
  | unexpected (failure : Failure) (offset : Nat)

namespace SyntaxError

def offset : SyntaxError → Nat
  | unrecognized offset => offset
  | unexpected _ offset => offset

def text : SyntaxError → String
  | unrecognized _ => "unrecognized character"
  | unexpected failure _ => failure.text

def message (e : SyntaxError) : String :=
  e.text ++ " at offset " ++ toString e.offset

end SyntaxError

/-- Where the tokens begin that are left of all tokens; at the end of the text if none are. -/
def offsetOf (source : String) (tokens : List Spanned) (rest : List Token) : Nat :=
  match tokens.drop (tokens.length - rest.length) with
  | [] => source.utf8ByteSize
  | spanned :: _ => spanned.start

def Program.ofSource (source : String) : Except SyntaxError Program :=
  match tokenize source with
  | .error offset => .error (.unrecognized offset)
  | .ok tokens =>
    match Parser.program (tokens.map (·.token)) with
    | .ok program => .ok program
    | .error failure => .error (.unexpected failure (offsetOf source tokens failure.rest))

end LiveDoc.Script
