import LiveDoc.Script.Token
import LiveDoc.Signal
import LiveDoc.Text.Trim
import LiveDoc.Text.Utf8

namespace LiveDoc.Script

namespace Lexer

open Text

def isLayout (c : Char) : Bool :=
  c = ' ' || c = '\t' || c = '\r' || c = '\n' || c = '\x0c'

def commentLength? : List Char → Option Nat
  | '*' :: '/' :: _ => some 2
  | _ :: cs => (commentLength? cs).map (· + 1)
  | [] => none

def digitCount (cs : List Char) : Nat :=
  (cs.takeWhile Decimal.isDigit).length

def fractionLength : List Char → Nat
  | '.' :: cs => if digitCount cs = 0 then 0 else digitCount cs + 1
  | _ => 0

def signLength : List Char → Nat
  | '+' :: _ | '-' :: _ => 1
  | _ => 0

def exponentLength : List Char → Nat
  | c :: cs =>
    if c = 'e' ∨ c = 'E' then
      let sign := signLength cs
      let digits := digitCount (cs.drop sign)
      if digits = 0 then 0 else digits + sign + 1
    else 0
  | [] => 0

def numberLength (cs : List Char) : Nat :=
  let whole := digitCount cs
  let fraction := fractionLength (cs.drop whole)
  whole + fraction + exponentLength (cs.drop (whole + fraction))

def number? (lexeme : List Char) : Option Number :=
  if lexeme.all Decimal.isDigit then
    match Decimal.int64? lexeme with
    | some n => some (.int n)
    | none => (Decimal.float? lexeme).map .float
  else (Decimal.float? lexeme).map .float

/-- The characters up to the closing quote. A backslash takes the next character with it, unless
that is a newline, which it must not stand before. -/
def quotedLength? (quote : Char) : List Char → Option Nat
  | [] => none
  | '\\' :: '\n' :: _ => none
  | '\\' :: _ :: cs => (quotedLength? quote cs).map (· + 2)
  | c :: cs =>
    if c = quote then some 1
    else if c = '\\' then none
    else (quotedLength? quote cs).map (· + 1)

def escaped (c : Char) : Char :=
  if c = 'n' then '\n'
  else if c = 't' then '\t'
  else if c = 'r' then '\r'
  else if c = '0' then '\x00'
  else c

def unescape : List Char → List Char
  | '\\' :: c :: cs => escaped c :: unescape cs
  | ['\\'] => []
  | c :: cs => c :: unescape cs
  | [] => []

def word (lexeme : List Char) : Token :=
  let s := String.ofList lexeme
  match Keyword.all.find? (·.text = s) with
  | some k => .keyword k
  | none => .name s

def sign? (cs : List Char) : Option Sign :=
  Sign.all.find? fun s => (after? s.text.toList cs).isSome

end Lexer

open Lexer

inductive Piece where
  | layout
  | token (t : Token)

/-- The longest piece that a text begins with, and its length. -/
def Piece.longest? (cs : List Char) : Option (Piece × Nat) :=
  match cs with
  | [] => none
  | '/' :: '*' :: rest => (commentLength? rest).map fun n => (.layout, n + 2)
  | c :: rest =>
    if isLayout c then some (.layout, (rest.takeWhile isLayout).length + 1)
    else if Decimal.isDigit c then
      let n := numberLength cs
      (number? (cs.take n)).map fun x => (.token (.number x), n)
    else if c = '\x22' ∨ c = '\x27' then
      (quotedLength? c rest).map fun n =>
        (.token (.text (String.ofList (unescape (rest.take (n - 1))))), n + 1)
    else if Signal.isNameStart c then
      let n := (rest.takeWhile Signal.isNameRest).length + 1
      some (.token (word (cs.take n)), n)
    else (sign? cs).map fun s => (.token (.sign s), s.text.length)

structure Spanned where
  token : Token
  start : Nat
  stop : Nat
  deriving DecidableEq

theorem Lexer.text_length_pos (s : Sign) : 0 < s.text.length := by
  cases s <;> decide

theorem Lexer.numberLength_pos {c : Char} {cs : List Char} (h : Decimal.isDigit c = true) :
    0 < numberLength (c :: cs) := by
  simp only [numberLength, digitCount, List.takeWhile_cons, h]
  simp only [↓reduceIte, List.length_cons]
  omega

theorem Piece.longest?_pos {cs : List Char} {p : Piece} {n : Nat}
    (h : Piece.longest? cs = some (p, n)) : 0 < n ∧ cs ≠ [] := by
  unfold longest? at h
  split at h
  · cases h
  · obtain ⟨m, _, hm⟩ := Option.map_eq_some_iff.1 h
    cases hm
    exact ⟨by omega, by simp⟩
  · refine ⟨?_, by simp⟩
    split at h
    · cases h; omega
    · split at h
      · next hd =>
        obtain ⟨x, _, hx⟩ := Option.map_eq_some_iff.1 h
        cases hx
        exact numberLength_pos hd
      · split at h
        · obtain ⟨m, _, hm⟩ := Option.map_eq_some_iff.1 h
          cases hm
          omega
        · split at h
          · cases h; omega
          · obtain ⟨s, _, hs⟩ := Option.map_eq_some_iff.1 h
            cases hs
            exact text_length_pos s

/-- The tokens of a text that begins at a byte offset, or the offset where no piece begins. -/
def tokenizeFrom (offset : Nat) (cs : List Char) : Except Nat (List Spanned) :=
  if cs = [] then .ok []
  else
    match h : Piece.longest? cs with
    | none => .error offset
    | some (piece, n) =>
      let stop := offset + Text.utf8Length (cs.take n)
      have : cs.length - n < cs.length := by
        have ⟨hn, hne⟩ := Piece.longest?_pos h
        have := List.length_pos_iff.2 hne
        omega
      match piece with
      | .layout => tokenizeFrom stop (cs.drop n)
      | .token t => (tokenizeFrom stop (cs.drop n)).map (⟨t, offset, stop⟩ :: ·)
termination_by cs.length
decreasing_by all_goals simpa only [List.length_drop] using this

def tokenize (source : String) : Except Nat (List Spanned) :=
  tokenizeFrom 0 source.toList

end LiveDoc.Script
