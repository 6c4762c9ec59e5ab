import LiveDoc.Proofs.Grammar
import LiveDoc.Script.Lexer

namespace LiveDoc.Script

def UnaryOp.token : UnaryOp → Token
  | not => .sign .not
  | neg => .sign .minus
  | plus => .sign .plus
  | typeof => .keyword .typeofK

def BinaryOp.sign : BinaryOp → Sign
  | add => .plus
  | sub => .minus
  | mul => .star
  | div => .slash
  | rem => .percent
  | eq => .eq
  | notEq => .notEq
  | strictEq => .strictEq
  | strictNotEq => .strictNotEq
  | lt => .lt
  | ltEq => .ltEq
  | gt => .gt
  | gtEq => .gtEq

def LogicalOp.sign : LogicalOp → Sign
  | and => .and
  | or => .or

def assignmentSign : Option BinaryOp → Sign
  | some .add => .plusAssign
  | some .sub => .minusAssign
  | some .mul => .starAssign
  | some .div => .slashAssign
  | some .rem => .percentAssign
  | _ => .assign

def parenthesized (ts : List Token) : List Token :=
  .sign .openParen :: ts ++ [.sign .closeParen]

mutual

def Expr.tokens : Expr → List Token
  | .number n => [.number n]
  | .text s => [.text s]
  | .bool b => [.keyword (if b then .trueK else .falseK)]
  | .null => [.keyword .nullK]
  | .undefined => [.keyword .undefinedK]
  | .this => [.keyword .thisK]
  | .name s => [.name s]
  | .array items =>
    parenthesized (.sign .openBracket :: itemTokens items ++ [.sign .closeBracket])
  | .object entries =>
    parenthesized (.sign .openBrace :: entryTokens entries ++ [.sign .closeBrace])
  | .member o property => parenthesized (o.tokens ++ [.sign .dot, Lexer.word property.toList])
  | .index o i => parenthesized (o.tokens ++ .sign .openBracket :: i.tokens ++ [.sign .closeBracket])
  | .call callee args =>
    parenthesized (callee.tokens ++ .sign .openParen :: itemTokens args ++ [.sign .closeParen])
  | .unary op e => parenthesized (op.token :: e.tokens)
  | .binary op l r => parenthesized (l.tokens ++ .sign op.sign :: r.tokens)
  | .logical op l r => parenthesized (l.tokens ++ .sign op.sign :: r.tokens)
  | .conditional c a b =>
    parenthesized (c.tokens ++ .sign .question :: a.tokens ++ .sign .colon :: b.tokens)
  | .assign target op value =>
    parenthesized (target.tokens ++ .sign (assignmentSign op) :: value.tokens)
termination_by structural e => e

def itemTokens : List Expr → List Token
  | [] => []
  | e :: es => e.tokens ++ if es.isEmpty then [] else .sign .comma :: itemTokens es
termination_by structural es => es

def entryTokens : List (String × Expr) → List Token
  | [] => []
  | (key, e) :: es =>
    .text key :: .sign .colon :: e.tokens ++
      if es.isEmpty then [] else .sign .comma :: entryTokens es
termination_by structural es => es

end

def initializerTokens : Option Expr → List Token
  | none => []
  | some e => .sign .assign :: e.tokens

def bindingTokens : List (String × Option Expr) → List Token
  | [] => []
  | (s, init) :: bs =>
    .name s :: initializerTokens init ++ if bs.isEmpty then [] else .sign .comma :: bindingTokens bs

mutual

def Stmt.tokens : Stmt → List Token
  | .declare isConst bs =>
    .keyword (if isConst then .constK else .letK) :: bindingTokens bs ++ [.sign .semicolon]
  | .returns none => [.keyword .returnK, .sign .semicolon]
  | .returns (some e) => .keyword .returnK :: e.tokens ++ [.sign .semicolon]
  | .ifElse c s none => .keyword .ifK :: parenthesized c.tokens ++ s.tokens
  | .ifElse c s (some s') =>
    .keyword .ifK :: parenthesized c.tokens ++ s.tokens ++ .keyword .elseK :: s'.tokens
  | .whileLoop c s => .keyword .whileK :: parenthesized c.tokens ++ s.tokens
  | .breakLoop => [.keyword .breakK, .sign .semicolon]
  | .continueLoop => [.keyword .continueK, .sign .semicolon]
  | .throws e => .keyword .throwK :: e.tokens ++ [.sign .semicolon]
  | .block body => .sign .openBrace :: tokensOfAll body ++ [.sign .closeBrace]
  | .expr e => e.tokens ++ [.sign .semicolon]
  | .empty => [.sign .semicolon]
termination_by structural s => s

def tokensOfAll : List Stmt → List Token
  | [] => []
  | s :: body => s.tokens ++ tokensOfAll body
termination_by structural body => body

end

/-- Whether an assignment can come after the operation. -/
def isAssignable : Option BinaryOp → Bool
  | none | some .add | some .sub | some .mul | some .div | some .rem => true
  | _ => false

section WellFormed

-- `isName` tells which texts are identifiers.
variable (isName : String → Bool)

def isPropertyName (s : String) : Bool :=
  isName s || Keyword.all.any (·.text = s)

mutual

def Expr.isWellFormed : Expr → Bool
  | .array items => areWellFormed items
  | .object entries => entriesWellFormed entries
  | .member o property => o.isWellFormed && isPropertyName isName property
  | .index o i => o.isWellFormed && i.isWellFormed
  | .call callee args => callee.isWellFormed && areWellFormed args
  | .unary _ e => e.isWellFormed
  | .binary _ l r => l.isWellFormed && r.isWellFormed
  | .logical _ l r => l.isWellFormed && r.isWellFormed
  | .conditional c a b => c.isWellFormed && a.isWellFormed && b.isWellFormed
  | .assign target op value =>
    target.isTarget && isAssignable op && target.isWellFormed && value.isWellFormed
  | _ => true
termination_by structural e => e

def areWellFormed : List Expr → Bool
  | [] => true
  | e :: es => e.isWellFormed && areWellFormed es
termination_by structural es => es

def entriesWellFormed : List (String × Expr) → Bool
  | [] => true
  | (_, e) :: es => e.isWellFormed && entriesWellFormed es
termination_by structural es => es

end

def initializerWellFormed : Option Expr → Bool
  | none => true
  | some e => e.isWellFormed isName

mutual

def Stmt.isWellFormed : Stmt → Bool
  | .declare _ bs => !bs.isEmpty && bs.all fun b => initializerWellFormed isName b.2
  | .returns none => true
  | .returns (some e) => e.isWellFormed isName
  | .ifElse c s none => c.isWellFormed isName && s.isWellFormed
  | .ifElse c s (some s') =>
    c.isWellFormed isName && s.isWellFormed && !s.endsOpen && s'.isWellFormed
  | .whileLoop c s => c.isWellFormed isName && s.isWellFormed
  | .throws e => e.isWellFormed isName
  | .block body => allWellFormed body
  | .expr e => e.isWellFormed isName
  | .breakLoop | .continueLoop | .empty => true
termination_by structural s => s

def allWellFormed : List Stmt → Bool
  | [] => true
  | s :: body => s.isWellFormed && allWellFormed body
termination_by structural body => body

end

end WellFormed

section

variable {isName : String → Bool}

def Token.fits (isName : String → Bool) : Token → Bool
  | name s => isName s
  | _ => true

def Fits (isName : String → Bool) (ts : List Token) : Prop :=
  ∀ t ∈ ts, t.fits isName = true

@[simp]
theorem fits_cons {t : Token} {ts : List Token} :
    Fits isName (t :: ts) ↔ t.fits isName = true ∧ Fits isName ts :=
  List.forall_mem_cons

@[simp]
theorem fits_append {ts us : List Token} :
    Fits isName (ts ++ us) ↔ Fits isName ts ∧ Fits isName us :=
  List.forall_mem_append

namespace Grammar

theorem isPropertyName_of_propertyName {t : Token} {s : String} (h : PropertyName t s)
    (ht : t.fits isName = true) : isPropertyName isName s = true := by
  rw [isPropertyName, Bool.or_eq_true]
  cases h with
  | name => exact .inl ht
  | @keyword k =>
    right
    cases k <;> decide

theorem isAssignable_of_assignmentOperator {t : Token} {op : Option BinaryOp}
    (h : AssignmentOperator t op) : isAssignable op = true := by
  cases h <;> rfl

theorem isWellFormed_join {level : Level} {t : Token} {join : Expr → Expr → Expr}
    (h : BinaryOperator level t join) {l r : Expr} (hl : l.isWellFormed isName = true)
    (hr : r.isWellFormed isName = true) : (join l r).isWellFormed isName = true := by
  cases h <;> simp [Expr.isWellFormed, hl, hr]

theorem isWellFormed_of_expression {phrase : Phrase} {ts : List Token} {e : Expr}
    (h : Expression phrase ts e) (hts : Fits isName ts) : e.isWellFormed isName = true := by
  revert hts
  -- One motive for each of the three kinds of derivations.
  induction h using @Expression.rec _
    (fun ts es _ => Fits isName ts → areWellFormed isName es = true)
    (fun ts es _ => Fits isName ts → entriesWellFormed isName es = true) with
  | atom ht => cases ht <;> exact fun _ => rfl
  | parens _ ih =>
    intro hts
    simp only [fits_cons, fits_append] at hts
    exact ih hts.1.2
  | array _ ih =>
    intro hts
    simp only [fits_cons, fits_append] at hts
    simp [Expr.isWellFormed, ih, hts]
  | object _ ih =>
    intro hts
    simp only [fits_cons, fits_append] at hts
    simp [Expr.isWellFormed, ih, hts]
  | member _ hp ih =>
    intro hts
    simp only [fits_cons, fits_append] at hts
    have hname := isPropertyName_of_propertyName hp hts.2.2.1
    simp [Expr.isWellFormed, ih, hts, hname]
  | index _ _ iho ihi =>
    intro hts
    simp only [fits_cons, fits_append] at hts
    simp [Expr.isWellFormed, iho, ihi, hts]
  | call _ _ ihc iha =>
    intro hts
    simp only [fits_cons, fits_append] at hts
    simp [Expr.isWellFormed, ihc, iha, hts]
  | unary _ _ ih =>
    intro hts
    simp only [fits_cons] at hts
    simp [Expr.isWellFormed, ih, hts]
  | binary _ ht _ ihl ihr =>
    intro hts
    simp only [fits_cons, fits_append] at hts
    exact isWellFormed_join ht (ihl hts.1) (ihr hts.2.2)
  | choice _ _ _ ihc iha ihb =>
    intro hts
    simp only [fits_cons, fits_append] at hts
    simp [Expr.isWellFormed, ihc, iha, ihb, hts]
  | assign _ htarget ht _ ihe ihv =>
    intro hts
    simp only [fits_cons, fits_append] at hts
    have hop := isAssignable_of_assignmentOperator ht
    simp [Expr.isWellFormed, htarget, hop, ihe, ihv, hts]
  | primary _ ih | access _ ih | operand _ ih | chain _ ih | conditional _ ih => exact ih
  | nil => rfl
  | last _ ih hts => simp [areWellFormed, ih, hts]
  | cons _ _ ihe ihs hts =>
    simp only [fits_cons, fits_append] at hts
    simp [areWellFormed, ihe, ihs, hts]
  | none => rfl
  | single _ _ ih hts =>
    simp only [fits_cons] at hts
    simp [entriesWellFormed, ih, hts]
  | more _ _ _ ihe ihs hts =>
    simp only [fits_cons, fits_append] at hts
    simp [entriesWellFormed, ihe, ihs, hts]

theorem initializerWellFormed_of_initializer {ts : List Token} {init : Option Expr}
    (h : Initializer ts init) (hts : Fits isName ts) :
    initializerWellFormed isName init = true := by
  cases h with
  | none => rfl
  | value he =>
    rw [fits_cons] at hts
    exact isWellFormed_of_expression he hts.2

theorem wellFormed_of_bindings {ts : List Token} {bs : List (String × Option Expr)}
    (h : Bindings ts bs) (hts : Fits isName ts) :
    bs ≠ [] ∧ ∀ b ∈ bs, initializerWellFormed isName b.2 = true := by
  refine ⟨by cases h <;> simp, ?_⟩
  induction h with
  | last hi =>
    rw [fits_cons] at hts
    simpa using initializerWellFormed_of_initializer hi hts.2
  | cons hi _ ih =>
    simp only [fits_cons, fits_append] at hts
    exact List.forall_mem_cons.2
      ⟨initializerWellFormed_of_initializer hi hts.1.2, ih hts.2.2⟩

theorem isWellFormed_of_statement {ts : List Token} {s : Stmt} (h : Statement ts s)
    (hts : Fits isName ts) : s.isWellFormed isName = true := by
  revert hts
  induction h using @Statement.rec _
    (fun ts body _ => Fits isName ts → allWellFormed isName body = true) with
  | declare _ hs _ =>
    intro hts
    simp only [fits_cons, fits_append] at hts
    simpa [Stmt.isWellFormed] using wellFormed_of_bindings hs hts.1.2
  | returnSome he _ | throws he _ =>
    intro hts
    simp only [fits_cons, fits_append] at hts
    simpa [Stmt.isWellFormed] using isWellFormed_of_expression he hts.1.2
  | expr he _ =>
    intro hts
    rw [fits_append] at hts
    simpa [Stmt.isWellFormed] using isWellFormed_of_expression he hts.1
  | ifThen hc _ ih | whileLoop hc _ ih =>
    intro hts
    simp only [fits_cons, fits_append] at hts
    have hcondition := isWellFormed_of_expression hc hts.1.2.2
    simp [Stmt.isWellFormed, hcondition, ih, hts]
  | ifElse hc _ hclosed _ ih ih' =>
    intro hts
    simp only [fits_cons, fits_append] at hts
    have hcondition := isWellFormed_of_expression hc hts.1.1.2.2
    simp [Stmt.isWellFormed, hcondition, hclosed, ih, ih', hts]
  | block _ ih =>
    intro hts
    simp only [fits_cons, fits_append] at hts
    simp [Stmt.isWellFormed, ih, hts]
  | returnNone _ | breakLoop _ | continueLoop _ | empty => exact fun _ => rfl
  | nil => rfl
  | cons _ _ ihs ihb hts =>
    rw [fits_append] at hts
    simp [allWellFormed, ihs, ihb, hts]

end Grammar

theorem Parser.allWellFormed_of_program {ts : List Token} {p : Program} (h : program ts = .ok p)
    (hts : Fits isName ts) : allWellFormed isName p = true := by
  revert hts
  refine program_induction
    (motive := fun ts p => Fits isName ts → allWellFormed isName p = true)
    (fun _ => rfl) (fun {ts q body} hs hbody hts => ?_) h
  obtain ⟨⟨us, hus, hs⟩, _⟩ := takesStatement_of_statement hs
  have hsplit : Fits isName (us ++ q.rest) := by rwa [← hus]
  rw [fits_append] at hsplit
  simp [allWellFormed, Grammar.isWellFormed_of_statement hs hsplit.1, hbody hsplit.2]

end

end LiveDoc.Script
