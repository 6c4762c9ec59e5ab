import LiveDoc.Script.Parser

namespace LiveDoc.Script

/-- Whether a statement ends with an `if` that may still get an `else`. -/
def Stmt.endsOpen : Stmt → Bool
  | .ifElse _ _ none => true
  | .ifElse _ _ (some elseStmt) => elseStmt.endsOpen
  | .whileLoop _ body => body.endsOpen
  | _ => false
termination_by structural s => s

namespace Grammar

inductive Atom : Token → Expr → Prop
  | number : Atom (.number n) (.number n)
  | text : Atom (.text s) (.text s)
  | name : Atom (.name s) (.name s)
  | true : Atom (.keyword .trueK) (.bool true)
  | false : Atom (.keyword .falseK) (.bool false)
  | null : Atom (.keyword .nullK) .null
  | undefined : Atom (.keyword .undefinedK) .undefined
  | this : Atom (.keyword .thisK) .this

inductive PropertyName : Token → String → Prop
  | name : PropertyName (.name s) s
  | keyword : PropertyName (.keyword k) k.text

inductive EntryKey : Token → String → Prop
  | property (h : PropertyName t s) : EntryKey t s
  | text : EntryKey (.text s) s
  | number : EntryKey (.number n) n.text

inductive UnaryOperator : Token → UnaryOp → Prop
  | not : UnaryOperator (.sign .not) .not
  | neg : UnaryOperator (.sign .minus) .neg
  | plus : UnaryOperator (.sign .plus) .plus
  | typeof : UnaryOperator (.keyword .typeofK) .typeof

inductive BinaryOperator : Level → Token → (Expr → Expr → Expr) → Prop
  | or : BinaryOperator .or (.sign .or) (.logical .or)
  | and : BinaryOperator .and (.sign .and) (.logical .and)
  | eq : BinaryOperator .equality (.sign .eq) (.binary .eq)
  | notEq : BinaryOperator .equality (.sign .notEq) (.binary .notEq)
  | strictEq : BinaryOperator .equality (.sign .strictEq) (.binary .strictEq)
  | strictNotEq : BinaryOperator .equality (.sign .strictNotEq) (.binary .strictNotEq)
  | lt : BinaryOperator .relational (.sign .lt) (.binary .lt)
  | ltEq : BinaryOperator .relational (.sign .ltEq) (.binary .ltEq)
  | gt : BinaryOperator .relational (.sign .gt) (.binary .gt)
  | gtEq : BinaryOperator .relational (.sign .gtEq) (.binary .gtEq)
  | add : BinaryOperator .additive (.sign .plus) (.binary .add)
  | sub : BinaryOperator .additive (.sign .minus) (.binary .sub)
  | mul : BinaryOperator .term (.sign .star) (.binary .mul)
  | div : BinaryOperator .term (.sign .slash) (.binary .div)
  | rem : BinaryOperator .term (.sign .percent) (.binary .rem)

inductive AssignmentOperator : Token → Option BinaryOp → Prop
  | plain : AssignmentOperator (.sign .assign) none
  | add : AssignmentOperator (.sign .plusAssign) (some .add)
  | sub : AssignmentOperator (.sign .minusAssign) (some .sub)
  | mul : AssignmentOperator (.sign .starAssign) (some .mul)
  | div : AssignmentOperator (.sign .slashAssign) (some .div)
  | rem : AssignmentOperator (.sign .percentAssign) (some .rem)

/-- The kinds of expressions, each of which may stand for the ones before it. -/
inductive Phrase where
  | primary
  | access
  | unary
  | binary (level : Level)
  | conditional
  | assignment

/-- What stands on both sides of an operator of a level: an expression of the next level. -/
def operand : Level → Phrase
  | .or => .binary .and
  | .and => .binary .equality
  | .equality => .binary .relational
  | .relational => .binary .additive
  | .additive => .binary .term
  | .term => .unary

mutual

inductive Expression : Phrase → List Token → Expr → Prop
  | atom (ht : Atom t e) : Expression .primary [t] e
  | parens (he : Expression .assignment ts e) :
    Expression .primary (.sign .openParen :: ts ++ [.sign .closeParen]) e
  | array (hs : Items ts es) :
    Expression .primary (.sign .openBracket :: ts ++ [.sign .closeBracket]) (.array es)
  | object (hs : Entries ts es) :
    Expression .primary (.sign .openBrace :: ts ++ [.sign .closeBrace]) (.object es)
  | primary (he : Expression .primary ts e) : Expression .access ts e
  | member (ho : Expression .access ts o) (hp : PropertyName t s) :
    Expression .access (ts ++ [.sign .dot, t]) (.member o s)
  | index (ho : Expression .access ts o) (hi : Expression .assignment us i) :
    Expression .access (ts ++ .sign .openBracket :: us ++ [.sign .closeBracket]) (.index o i)
  | call (hc : Expression .access ts c) (ha : Items us args) :
    Expression .access (ts ++ .sign .openParen :: us ++ [.sign .closeParen]) (.call c args)
  | access (he : Expression .access ts e) : Expression .unary ts e
  | unary (ht : UnaryOperator t op) (he : Expression .unary ts e) :
    Expression .unary (t :: ts) (.unary op e)
  | operand (he : Expression (operand level) ts e) : Expression (.binary level) ts e
  | binary (hl : Expression (.binary level) ts l) (ht : BinaryOperator level t join)
    (hr : Expression (operand level) us r) : Expression (.binary level) (ts ++ t :: us) (join l r)
  | chain (he : Expression (.binary .or) ts e) : Expression .conditional ts e
  | choice (hc : Expression (.binary .or) ts c) (ha : Expression .assignment us a)
    (hb : Expression .assignment vs b) :
    Expression .conditional (ts ++ .sign .question :: us ++ .sign .colon :: vs)
      (.conditional c a b)
  | conditional (he : Expression .conditional ts e) : Expression .assignment ts e
  | assign (he : Expression .conditional ts e) (htarget : e.isTarget = true)
    (ht : AssignmentOperator t op) (hv : Expression .assignment us v) :
    Expression .assignment (ts ++ t :: us) (.assign e op v)

inductive Items : List Token → List Expr → Prop
  | nil : Items [] []
  | last (he : Expression .assignment ts e) : Items ts [e]
  | cons (he : Expression .assignment ts e) (hs : Items us es) :
    Items (ts ++ .sign .comma :: us) (e :: es)

inductive Entries : List Token → List (String × Expr) → Prop
  | none : Entries [] []
  | single (hk : EntryKey t key) (he : Expression .assignment ts e) :
    Entries (t :: .sign .colon :: ts) [(key, e)]
  | more (hk : EntryKey t key) (he : Expression .assignment ts e) (hs : Entries us es) :
    Entries (t :: .sign .colon :: ts ++ .sign .comma :: us) ((key, e) :: es)

end

inductive Ending : List Token → Prop
  | none : Ending []
  | semicolon : Ending [.sign .semicolon]

inductive Initializer : List Token → Option Expr → Prop
  | none : Initializer [] none
  | value (he : Expression .assignment ts e) : Initializer (.sign .assign :: ts) (some e)

inductive Bindings : List Token → List (String × Option Expr) → Prop
  | last (hi : Initializer ts init) : Bindings (.name s :: ts) [(s, init)]
  | cons (hi : Initializer ts init) (hs : Bindings us bs) :
    Bindings (.name s :: ts ++ .sign .comma :: us) ((s, init) :: bs)

inductive Declarator : Token → Bool → Prop
  | let : Declarator (.keyword .letK) false
  | var : Declarator (.keyword .varK) false
  | const : Declarator (.keyword .constK) true

mutual

inductive Statement : List Token → Stmt → Prop
  | declare (ht : Declarator t isConst) (hs : Bindings ts bs) (hend : Ending us) :
    Statement (t :: ts ++ us) (.declare isConst bs)
  | returnNone (hend : Ending us) : Statement (.keyword .returnK :: us) (.returns none)
  | returnSome (he : Expression .assignment ts e) (hend : Ending us) :
    Statement (.keyword .returnK :: ts ++ us) (.returns (some e))
  | ifThen (hc : Expression .assignment ts c) (hs : Statement us s) :
    Statement (.keyword .ifK :: .sign .openParen :: ts ++ .sign .closeParen :: us)
      (.ifElse c s none)
  | ifElse (hc : Expression .assignment ts c) (hs : Statement us s) (hclosed : s.endsOpen = false)
    (hs' : Statement vs s') :
    Statement (.keyword .ifK :: .sign .openParen :: ts ++ .sign .closeParen :: us ++
      .keyword .elseK :: vs) (.ifElse c s (some s'))
  | whileLoop (hc : Expression .assignment ts c) (hs : Statement us s) :
    Statement (.keyword .whileK :: .sign .openParen :: ts ++ .sign .closeParen :: us)
      (.whileLoop c s)
  | breakLoop (hend : Ending us) : Statement (.keyword .breakK :: us) .breakLoop
  | continueLoop (hend : Ending us) : Statement (.keyword .continueK :: us) .continueLoop
  | throws (he : Expression .assignment ts e) (hend : Ending us) :
    Statement (.keyword .throwK :: ts ++ us) (.throws e)
  | block (hs : Statements ts body) :
    Statement (.sign .openBrace :: ts ++ [.sign .closeBrace]) (.block body)
  | empty : Statement [.sign .semicolon] .empty
  | expr (he : Expression .assignment ts e) (hend : Ending us) : Statement (ts ++ us) (.expr e)

inductive Statements : List Token → List Stmt → Prop
  | nil : Statements [] []
  | cons (hs : Statement ts s) (hb : Statements us body) : Statements (ts ++ us) (s :: body)

end

end Grammar

open Grammar

namespace Parser

def Takes (d : List Token → Prop) (ts rest : List Token) : Prop :=
  ∃ used, ts = used ++ rest ∧ d used

theorem bind_eq_ok {x : Except Failure α} {f : α → Except Failure β} {b : β} :
    (x >>= f) = .ok b ↔ ∃ a, x = .ok a ∧ f a = .ok b := by
  cases x with
  | ok a => simp [bind, Except.bind]
  | error e => simp [bind, Except.bind]

theorem eq_of_eat? {s : Sign} {ts : List Token} {p : Parsed Unit ts.length}
    (h : eat? s ts = some p) : ts = .sign s :: p.rest := by
  cases ts with
  | nil => cases h
  | cons t rest =>
    rw [eat?] at h
    split at h
    next ht =>
      cases h
      rw [ht]
    · cases h

theorem eq_of_expect {s : Sign} {what : Expectation} {ts : List Token}
    {p : Parsed Unit ts.length} (h : expect s what ts = .ok p) : ts = .sign s :: p.rest := by
  rw [expect] at h
  split at h
  next q hq =>
    cases h
    exact eq_of_eat? hq
  · cases h

theorem atom_of_atom? {t : Token} {e : Expr} (h : atom? t = some e) : Atom t e := by
  unfold atom? at h
  split at h <;> cases h <;> constructor

theorem propertyName_of_propertyName? {t : Token} {s : String} (h : propertyName? t = some s) :
    PropertyName t s := by
  unfold propertyName? at h
  split at h <;> cases h <;> constructor

theorem entryKey_of_entryKey? {t : Token} {s : String} (h : entryKey? t = some s) :
    EntryKey t s := by
  unfold entryKey? at h
  split at h
  · cases h
    exact .text
  · cases h
    exact .number
  · exact .property (propertyName_of_propertyName? h)

theorem unaryOperator_of_unaryOp? {t : Token} {op : UnaryOp} (h : unaryOp? t = some op) :
    UnaryOperator t op := by
  unfold unaryOp? at h
  split at h <;> cases h <;> constructor

theorem binaryOperator_of_operator? {level : Level} {t : Token} {join : Expr → Expr → Expr}
    (h : level.operator? t = some join) : BinaryOperator level t join := by
  unfold Level.operator? at h
  split at h <;> cases h <;> constructor

theorem assignmentOperator_of_assignment? {t : Token} {op : Option BinaryOp}
    (h : assignment? t = some op) : AssignmentOperator t op := by
  unfold assignment? at h
  split at h <;> cases h <;> constructor

/-- What the readers of expressions take when there are fewer than `n` tokens. -/
structure Reads (n : Nat) : Prop where
  accesses : ∀ {o : Expr} {ts : List Token} {p : Parsed Expr (ts.length + 1)}, ts.length < n →
    accesses o ts = .ok p → ∀ {us : List Token}, Expression .access us o →
    Takes (fun vs => Expression .access (us ++ vs) p.value) ts p.rest
  unary : ∀ {ts : List Token} {p : Parsed Expr ts.length}, ts.length < n → unary ts = .ok p →
    Takes (Expression .unary · p.value) ts p.rest
  operand : ∀ {level : Level} {ts : List Token} {p : Parsed Expr ts.length}, ts.length < n →
    operand level ts = .ok p → Takes (Expression (Grammar.operand level) · p.value) ts p.rest
  chainRest : ∀ {level : Level} {l : Expr} {ts : List Token} {p : Parsed Expr (ts.length + 1)},
    ts.length < n → chainRest level l ts = .ok p →
    ∀ {us : List Token}, Expression (.binary level) us l →
    Takes (fun vs => Expression (.binary level) (us ++ vs) p.value) ts p.rest
  expression : ∀ {ts : List Token} {p : Parsed Expr ts.length}, ts.length < n →
    expression ts = .ok p → Takes (Expression .assignment · p.value) ts p.rest
  expressions : ∀ {close : Sign} {ts : List Token} {p : Parsed (List Expr) ts.length},
    ts.length < n → expressions close ts = .ok p →
    Takes (fun us => ∃ vs, us = vs ++ [.sign close] ∧ Items vs p.value) ts p.rest
  entries : ∀ {ts : List Token} {p : Parsed (List (String × Expr)) ts.length}, ts.length < n →
    entries ts = .ok p →
    Takes (fun us => ∃ vs, us = vs ++ [.sign .closeBrace] ∧ Entries vs p.value) ts p.rest

namespace Reads

theorem primary {ts : List Token} (hr : Reads ts.length) {p : Parsed Expr ts.length}
    (h : primary ts = .ok p) : Takes (Expression .primary · p.value) ts p.rest := by
  unfold Parser.primary at h
  split at h
  · cases h
  next rest =>
    obtain ⟨⟨e, rest₁, hlt⟩, he, h⟩ := bind_eq_ok.1 h
    obtain ⟨⟨_, rest₂, hlt'⟩, hclose, h⟩ := bind_eq_ok.1 h
    cases h
    obtain ⟨us, hus, he⟩ := hr.expression (by simp) he
    refine ⟨.sign .openParen :: us ++ [.sign .closeParen], ?_, .parens he⟩
    simpa [eq_of_expect hclose] using hus
  next rest =>
    obtain ⟨⟨es, rest₁, hlt⟩, hs, h⟩ := bind_eq_ok.1 h
    cases h
    obtain ⟨_, hus, us, rfl, hs⟩ := hr.expressions (by simp) hs
    exact ⟨.sign .openBracket :: us ++ [.sign .closeBracket], by simpa using hus, .array hs⟩
  next rest =>
    obtain ⟨⟨es, rest₁, hlt⟩, hs, h⟩ := bind_eq_ok.1 h
    cases h
    obtain ⟨_, hus, us, rfl, hs⟩ := hr.entries (by simp) hs
    exact ⟨.sign .openBrace :: us ++ [.sign .closeBrace], by simpa using hus, .object hs⟩
  next t rest _ _ _ =>
    split at h
    next e he =>
      cases h
      exact ⟨[t], rfl, .atom (atom_of_atom? he)⟩
    · cases h

theorem accesses_of_shorter {o : Expr} {ts : List Token} (hr : Reads ts.length)
    {p : Parsed Expr (ts.length + 1)} (h : Parser.accesses o ts = .ok p) {us : List Token}
    (ho : Expression .access us o) :
    Takes (fun vs => Expression .access (us ++ vs) p.value) ts p.rest := by
  unfold Parser.accesses at h
  split at h
  · cases h
  next t rest =>
    split at h
    · cases h
    next property hp =>
      obtain ⟨⟨e, rest₁, hlt⟩, he, h⟩ := bind_eq_ok.1 h
      cases h
      have hmember := Expression.member ho (propertyName_of_propertyName? hp)
      obtain ⟨vs, hvs, he⟩ := hr.accesses (Nat.lt_succ_of_lt (Nat.lt_succ_self _)) he hmember
      exact ⟨.sign .dot :: t :: vs, by simpa using hvs, by simpa using he⟩
  next rest =>
    obtain ⟨⟨i, rest₁, hlt⟩, hi, h⟩ := bind_eq_ok.1 h
    obtain ⟨⟨_, rest₂, hlt'⟩, hclose, h⟩ := bind_eq_ok.1 h
    obtain ⟨⟨e, rest₃, hlt''⟩, he, h⟩ := bind_eq_ok.1 h
    cases h
    have hshorter : rest₂.length < rest.length := Nat.lt_trans hlt' hlt
    obtain ⟨is, his, hi⟩ := hr.expression (by simp) hi
    obtain ⟨vs, hvs, he⟩ := hr.accesses (Nat.lt_succ_of_lt hshorter) he (.index ho hi)
    have hrest := eq_of_expect hclose
    refine ⟨.sign .openBracket :: is ++ .sign .closeBracket :: vs, ?_, by simpa using he⟩
    simpa [hrest, hvs] using his
  next rest =>
    obtain ⟨⟨args, rest₁, hlt⟩, ha, h⟩ := bind_eq_ok.1 h
    obtain ⟨⟨e, rest₂, hlt'⟩, he, h⟩ := bind_eq_ok.1 h
    cases h
    obtain ⟨_, has, as, rfl, ha⟩ := hr.expressions (by simp) ha
    obtain ⟨vs, hvs, he⟩ := hr.accesses (Nat.lt_succ_of_lt hlt) he (.call ho ha)
    refine ⟨.sign .openParen :: as ++ .sign .closeParen :: vs, ?_, by simpa using he⟩
    simpa [hvs] using has
  · cases h
    exact ⟨[], rfl, by simpa using ho⟩

theorem unary_of_shorter {ts : List Token} (hr : Reads ts.length) {p : Parsed Expr ts.length}
    (h : Parser.unary ts = .ok p) : Takes (Expression .unary · p.value) ts p.rest := by
  unfold Parser.unary at h
  split at h
  · cases h
  next t rest =>
    split at h
    next op hop =>
      obtain ⟨⟨e, rest₁, hlt⟩, he, h⟩ := bind_eq_ok.1 h
      cases h
      obtain ⟨us, hus, he⟩ := hr.unary (by simp) he
      exact ⟨t :: us, by simpa using hus, .unary (unaryOperator_of_unaryOp? hop) he⟩
    next hop =>
      obtain ⟨⟨o, rest₁, hlt⟩, ho, h⟩ := bind_eq_ok.1 h
      obtain ⟨⟨e, rest₂, hlt'⟩, he, h⟩ := bind_eq_ok.1 h
      cases h
      obtain ⟨us, hus, ho⟩ := hr.primary ho
      obtain ⟨vs, hvs, he⟩ := hr.accesses hlt he (.primary ho)
      exact ⟨us ++ vs, by simpa [hvs] using hus, .access he⟩

theorem chain_of_operand {level : Level} {ts : List Token} (hr : Reads ts.length)
    (hoperand : ∀ {p : Parsed Expr ts.length}, Parser.operand level ts = .ok p →
      Takes (Expression (Grammar.operand level) · p.value) ts p.rest)
    {p : Parsed Expr ts.length} (h : chain level ts = .ok p) :
    Takes (Expression (.binary level) · p.value) ts p.rest := by
  unfold chain at h
  obtain ⟨⟨l, rest₁, hlt⟩, hl, h⟩ := bind_eq_ok.1 h
  obtain ⟨⟨e, rest₂, hlt'⟩, he, h⟩ := bind_eq_ok.1 h
  cases h
  obtain ⟨us, hus, hl⟩ := hoperand hl
  obtain ⟨vs, hvs, he⟩ := hr.chainRest hlt he (.operand hl)
  exact ⟨us ++ vs, by simpa [hvs] using hus, he⟩

theorem operand_of_shorter {ts : List Token} (hr : Reads ts.length) (level : Level)
    {p : Parsed Expr ts.length} (h : Parser.operand level ts = .ok p) :
    Takes (Expression (Grammar.operand level) · p.value) ts p.rest := by
  unfold Parser.operand at h
  split at h
  next next hnext =>
    have hheight := Level.height_of_tighter hnext
    have hoperand : Grammar.operand level = .binary next := by
      cases level <;> cases hnext <;> rfl
    rw [hoperand]
    exact hr.chain_of_operand (hr.operand_of_shorter next) h
  next hnone =>
    have hoperand : Grammar.operand level = .unary := by
      cases level <;> cases hnone
      rfl
    rw [hoperand]
    exact hr.unary_of_shorter h
termination_by level.height

/-- What stands before becomes the left operand. -/
theorem chainRest_of_shorter {level : Level} {l : Expr} {ts : List Token} (hr : Reads ts.length)
    {p : Parsed Expr (ts.length + 1)} (h : Parser.chainRest level l ts = .ok p) {us : List Token}
    (hl : Expression (.binary level) us l) :
    Takes (fun vs => Expression (.binary level) (us ++ vs) p.value) ts p.rest := by
  unfold Parser.chainRest at h
  split at h
  · cases h
    exact ⟨[], rfl, by simpa using hl⟩
  next t rest =>
    split at h
    · cases h
      exact ⟨[], rfl, by simpa using hl⟩
    next join hjoin =>
      obtain ⟨⟨r, rest₁, hlt⟩, hright, h⟩ := bind_eq_ok.1 h
      obtain ⟨⟨e, rest₂, hlt'⟩, he, h⟩ := bind_eq_ok.1 h
      cases h
      obtain ⟨rs, hrs, hright⟩ := hr.operand (by simp) hright
      have hbinary := Expression.binary hl (binaryOperator_of_operator? hjoin) hright
      obtain ⟨vs, hvs, he⟩ := hr.chainRest (Nat.lt_succ_of_lt hlt) he hbinary
      exact ⟨t :: rs ++ vs, by simpa [hvs] using hrs, by simpa using he⟩

theorem conditional {ts : List Token} (hr : Reads ts.length) {p : Parsed Expr ts.length}
    (h : conditional ts = .ok p) : Takes (Expression .conditional · p.value) ts p.rest := by
  unfold Parser.conditional at h
  obtain ⟨⟨c, rest₁, hlt⟩, hc, h⟩ := bind_eq_ok.1 h
  obtain ⟨us, hus, hc⟩ := hr.chain_of_operand (hr.operand_of_shorter .or) hc
  dsimp only at h
  split at h
  next rest₁ hlt _ =>
    obtain ⟨⟨a, rest₂, hlt₂⟩, ha, h⟩ := bind_eq_ok.1 h
    obtain ⟨⟨_, rest₃, hlt₃⟩, hcolon, h⟩ := bind_eq_ok.1 h
    obtain ⟨⟨b, rest₄, hlt₄⟩, hb, h⟩ := bind_eq_ok.1 h
    cases h
    have hshorter : rest₁.length < ts.length := Nat.lt_of_succ_lt hlt
    have hshorter' : rest₃.length < ts.length := Nat.lt_trans hlt₃ (Nat.lt_trans hlt₂ hshorter)
    obtain ⟨as, has, ha⟩ := hr.expression hshorter ha
    obtain ⟨bs, hbs, hb⟩ := hr.expression hshorter' hb
    have hrest : rest₂ = .sign .colon :: rest₃ := eq_of_expect hcolon
    have hbs : rest₃ = bs ++ rest₄ := hbs
    refine ⟨us ++ .sign .question :: as ++ .sign .colon :: bs, ?_, .choice hc ha hb⟩
    simpa [has, hrest, hbs] using hus
  next rest₁ hlt _ _ =>
    cases h
    exact ⟨us, hus, .chain hc⟩

theorem expression_of_shorter {ts : List Token} (hr : Reads ts.length) {p : Parsed Expr ts.length}
    (h : Parser.expression ts = .ok p) : Takes (Expression .assignment · p.value) ts p.rest := by
  unfold Parser.expression at h
  obtain ⟨⟨e, rest₁, hlt⟩, he, h⟩ := bind_eq_ok.1 h
  obtain ⟨us, hus, he⟩ := hr.conditional he
  dsimp only at h
  split at h
  · cases h
    exact ⟨us, hus, .conditional he⟩
  next t rest₁ hlt _ =>
    split at h
    · cases h
      exact ⟨us, hus, .conditional he⟩
    next op hop =>
      split at h
      next htarget =>
        obtain ⟨⟨v, rest₂, hlt'⟩, hv, h⟩ := bind_eq_ok.1 h
        cases h
        obtain ⟨vs, hvs, hv⟩ := hr.expression (Nat.lt_of_succ_lt hlt) hv
        have hassign := Expression.assign he htarget (assignmentOperator_of_assignment? hop) hv
        exact ⟨us ++ t :: vs, by simpa [hvs] using hus, hassign⟩
      · cases h

theorem expressions_of_shorter {close : Sign} {ts : List Token} (hr : Reads ts.length)
    {p : Parsed (List Expr) ts.length} (h : Parser.expressions close ts = .ok p) :
    Takes (fun us => ∃ vs, us = vs ++ [.sign close] ∧ Items vs p.value) ts p.rest := by
  unfold Parser.expressions at h
  split at h
  next rest hlt hclose =>
    cases h
    exact ⟨[.sign close], eq_of_eat? hclose, [], rfl, .nil⟩
  · obtain ⟨⟨e, rest₁, hlt⟩, he, h⟩ := bind_eq_ok.1 h
    obtain ⟨us, hus, he⟩ := hr.expression_of_shorter he
    dsimp only at h
    split at h
    next rest₁ hlt _ =>
      obtain ⟨⟨es, rest₂, hlt'⟩, hs, h⟩ := bind_eq_ok.1 h
      cases h
      obtain ⟨_, hvs, vs, rfl, hs⟩ := hr.expressions (Nat.lt_of_succ_lt hlt) hs
      refine ⟨us ++ .sign .comma :: vs ++ [.sign close], ?_, _, rfl, .cons he hs⟩
      simpa [hvs] using hus
    next rest₁ hlt _ _ =>
      obtain ⟨⟨_, rest₂, hlt'⟩, hclose, h⟩ := bind_eq_ok.1 h
      cases h
      have hrest := eq_of_expect hclose
      exact ⟨us ++ [.sign close], by simpa [hrest] using hus, _, rfl, .last he⟩

theorem entry {ts : List Token} (hr : Reads ts.length) {p : Parsed (String × Expr) ts.length}
    (h : entry ts = .ok p) :
    Takes (fun us => ∃ t vs, us = t :: .sign .colon :: vs ∧ EntryKey t p.value.1 ∧
      Expression .assignment vs p.value.2) ts p.rest := by
  unfold Parser.entry at h
  split at h
  · cases h
  next t rest =>
    split at h
    · cases h
    next key hkey =>
      obtain ⟨⟨_, rest₁, hlt⟩, hcolon, h⟩ := bind_eq_ok.1 h
      obtain ⟨⟨e, rest₂, hlt'⟩, he, h⟩ := bind_eq_ok.1 h
      cases h
      obtain ⟨us, hus, he⟩ := hr.expression (Nat.lt_succ_of_lt hlt) he
      have hrest := eq_of_expect hcolon
      refine ⟨t :: .sign .colon :: us, ?_, t, us, rfl, entryKey_of_entryKey? hkey, he⟩
      simpa [hrest] using hus

theorem entries_of_shorter {ts : List Token} (hr : Reads ts.length)
    {p : Parsed (List (String × Expr)) ts.length} (h : Parser.entries ts = .ok p) :
    Takes (fun us => ∃ vs, us = vs ++ [.sign .closeBrace] ∧ Entries vs p.value) ts p.rest := by
  unfold Parser.entries at h
  split at h
  next rest hlt hclose =>
    cases h
    exact ⟨[.sign .closeBrace], eq_of_eat? hclose, [], rfl, .none⟩
  · obtain ⟨⟨⟨key, e⟩, rest₁, hlt⟩, he, h⟩ := bind_eq_ok.1 h
    obtain ⟨_, hus, t, us, rfl, hkey, he⟩ := hr.entry he
    dsimp only at h
    split at h
    next rest₁ hlt _ =>
      obtain ⟨⟨es, rest₂, hlt'⟩, hs, h⟩ := bind_eq_ok.1 h
      cases h
      obtain ⟨_, hvs, vs, rfl, hs⟩ := hr.entries (Nat.lt_of_succ_lt hlt) hs
      refine ⟨t :: .sign .colon :: us ++ .sign .comma :: vs ++ [.sign .closeBrace], ?_, _, rfl,
        .more hkey he hs⟩
      simpa [hvs] using hus
    next rest₁ hlt _ _ =>
      obtain ⟨⟨_, rest₂, hlt'⟩, hclose, h⟩ := bind_eq_ok.1 h
      cases h
      have hrest := eq_of_expect hclose
      refine ⟨t :: .sign .colon :: us ++ [.sign .closeBrace], ?_, _, rfl, .single hkey he⟩
      simpa [hrest] using hus

theorem mono {m n : Nat} (hr : Reads n) (h : m ≤ n) : Reads m where
  accesses hlt := hr.accesses (Nat.lt_of_lt_of_le hlt h)
  unary hlt := hr.unary (Nat.lt_of_lt_of_le hlt h)
  operand hlt := hr.operand (Nat.lt_of_lt_of_le hlt h)
  chainRest hlt := hr.chainRest (Nat.lt_of_lt_of_le hlt h)
  expression hlt := hr.expression (Nat.lt_of_lt_of_le hlt h)
  expressions hlt := hr.expressions (Nat.lt_of_lt_of_le hlt h)
  entries hlt := hr.entries (Nat.lt_of_lt_of_le hlt h)

end Reads

theorem reads (n : Nat) : Reads n := by
  induction n with
  | zero => constructor <;> exact fun hlt => absurd hlt (Nat.not_lt_zero _)
  | succ n ih =>
    have hshorter {ts : List Token} (hlt : ts.length < n + 1) : Reads ts.length :=
      ih.mono (Nat.le_of_lt_succ hlt)
    exact {
      accesses := fun hlt => (hshorter hlt).accesses_of_shorter
      unary := fun hlt => (hshorter hlt).unary_of_shorter
      operand := fun hlt => (hshorter hlt).operand_of_shorter _
      chainRest := fun hlt => (hshorter hlt).chainRest_of_shorter
      expression := fun hlt => (hshorter hlt).expression_of_shorter
      expressions := fun hlt => (hshorter hlt).expressions_of_shorter
      entries := fun hlt => (hshorter hlt).entries_of_shorter }

theorem takes_expression {ts : List Token} {p : Parsed Expr ts.length}
    (h : expression ts = .ok p) : Takes (Expression .assignment · p.value) ts p.rest :=
  (reads _).expression_of_shorter h

theorem map_eq_ok {x : Except Failure α} {f : α → β} {b : β} :
    x.map f = .ok b ↔ ∃ a, x = .ok a ∧ f a = b := by
  cases x with
  | ok a => simp [Except.map]
  | error e => simp [Except.map]

theorem takes_dropSemicolon (ts : List Token) : Takes Ending ts (dropSemicolon ts) := by
  unfold dropSemicolon
  split
  · exact ⟨[.sign .semicolon], rfl, .semicolon⟩
  · exact ⟨[], rfl, .none⟩

theorem takes_condition {ts : List Token} {p : Parsed Expr ts.length} (h : condition ts = .ok p) :
    Takes (fun us => ∃ vs, us = .sign .openParen :: vs ++ [.sign .closeParen] ∧
      Expression .assignment vs p.value) ts p.rest := by
  unfold condition at h
  obtain ⟨⟨_, rest₁, hlt₁⟩, hopen, h⟩ := bind_eq_ok.1 h
  obtain ⟨⟨e, rest₂, hlt₂⟩, he, h⟩ := bind_eq_ok.1 h
  obtain ⟨⟨_, rest₃, hlt₃⟩, hclose, h⟩ := bind_eq_ok.1 h
  cases h
  have hts : ts = .sign .openParen :: rest₁ := eq_of_expect hopen
  have hrest : rest₂ = .sign .closeParen :: rest₃ := eq_of_expect hclose
  obtain ⟨us, hus, he⟩ := takes_expression he
  have hus : rest₁ = us ++ rest₂ := hus
  exact ⟨_, by simp [hts, hus, hrest], us, rfl, he⟩

theorem takes_initializer {ts : List Token} {p : Parsed (Option Expr) (ts.length + 1)}
    (h : initializer ts = .ok p) : Takes (Initializer · p.value) ts p.rest := by
  unfold initializer at h
  split at h
  next rest =>
    obtain ⟨⟨e, rest₁, hlt⟩, he, h⟩ := bind_eq_ok.1 h
    cases h
    obtain ⟨us, hus, he⟩ := takes_expression he
    exact ⟨.sign .assign :: us, by simpa using hus, .value he⟩
  · cases h
    exact ⟨[], rfl, .none⟩

theorem takes_bindings {n : Nat} {ts : List Token} (hn : ts.length < n)
    {p : Parsed (List (String × Option Expr)) ts.length} (h : bindings ts = .ok p) :
    Takes (Bindings · p.value) ts p.rest := by
  induction n generalizing ts with
  | zero => exact absurd hn (Nat.not_lt_zero _)
  | succ n ih =>
    unfold bindings at h
    split at h
    next s rest =>
      obtain ⟨⟨init, rest₁, hlt⟩, hinit, h⟩ := bind_eq_ok.1 h
      obtain ⟨us, hus, hinit⟩ := takes_initializer hinit
      dsimp only at h
      split at h
      next rest₁ hlt _ =>
        obtain ⟨⟨bs, rest₂, hlt'⟩, hs, h⟩ := bind_eq_ok.1 h
        cases h
        have hshorter : rest₁.length < n := by
          simp only [List.length_cons] at hlt hn
          omega
        obtain ⟨vs, hvs, hs⟩ := ih hshorter hs
        exact ⟨.name s :: us ++ .sign .comma :: vs, by simpa [hvs] using hus, .cons hinit hs⟩
      next rest₁ hlt _ _ =>
        cases h
        exact ⟨.name s :: us, by simpa using hus, .last hinit⟩
    · cases h

/-- What a reader of statements takes is one, and it has read the `else` of every open `if`. -/
def TakesStatement (ts : List Token) (p : Parsed Stmt ts.length) : Prop :=
  Takes (Statement · p.value) ts p.rest ∧
    (p.value.endsOpen = true → ∀ rest, p.rest ≠ .keyword .elseK :: rest)

structure ReadsStatements (n : Nat) : Prop where
  statement : ∀ {ts : List Token} {p : Parsed Stmt ts.length}, ts.length < n →
    statement ts = .ok p → TakesStatement ts p
  block : ∀ {ts : List Token} {p : Parsed (List Stmt) ts.length}, ts.length < n →
    block ts = .ok p →
    Takes (fun us => ∃ vs, us = vs ++ [.sign .closeBrace] ∧ Statements vs p.value) ts p.rest

theorem takesStatement_ended {t : Token} {ts : List Token} {d : List Token → α → Prop}
    {p : Parsed α ts.length} (hp : Takes (d · p.value) ts p.rest) {f : α → Stmt}
    (hf : ∀ {us vs}, d us p.value → Ending vs → Statement (t :: us ++ vs) (f p.value))
    (hclosed : (f p.value).endsOpen = false) : TakesStatement (t :: ts) (ended f p) := by
  obtain ⟨us, hus, hd⟩ := hp
  obtain ⟨vs, hvs, hend⟩ := takes_dropSemicolon p.rest
  refine ⟨⟨t :: us ++ vs, ?_, hf hd hend⟩, fun hopen => ?_⟩
  · simp only [List.cons_append, List.append_assoc, List.cons.injEq, true_and]
    exact hus.trans (congrArg _ hvs)
  · rw [ended, hclosed] at hopen
    cases hopen

theorem takesStatement_single {t : Token} {ts : List Token} {s : Stmt}
    (hs : ∀ {us}, Ending us → Statement (t :: us) s) (hclosed : s.endsOpen = false) :
    TakesStatement (t :: ts) (single s ts) := by
  obtain ⟨us, hus, hend⟩ := takes_dropSemicolon ts
  refine ⟨⟨t :: us, congrArg _ hus, hs hend⟩, fun hopen => ?_⟩
  rw [single, hclosed] at hopen
  cases hopen

namespace ReadsStatements

theorem declaration {t : Token} {isConst : Bool} (ht : Declarator t isConst) {ts : List Token}
    {p : Parsed Stmt (ts.length + 1)}
    (h : (bindings ts).map (ended (.declare isConst)) = .ok p) : TakesStatement (t :: ts) p := by
  obtain ⟨q, hq, rfl⟩ := map_eq_ok.1 h
  exact takesStatement_ended (takes_bindings (Nat.lt_succ_self _) hq) (Statement.declare ht) rfl

theorem statement_of_shorter {ts : List Token} (hr : ReadsStatements ts.length)
    {p : Parsed Stmt ts.length} (h : Parser.statement ts = .ok p) : TakesStatement ts p := by
  unfold Parser.statement at h
  split at h
  · cases h
  · exact declaration .let h
  · exact declaration .var h
  · exact declaration .const h
  next rest =>
    split at h
    · cases h
      exact takesStatement_single .returnNone rfl
    · obtain ⟨q, hq, rfl⟩ := map_eq_ok.1 h
      exact takesStatement_ended (takes_expression hq) .returnSome rfl
  · cases h
    exact takesStatement_single .breakLoop rfl
  · cases h
    exact takesStatement_single .continueLoop rfl
  · obtain ⟨q, hq, rfl⟩ := map_eq_ok.1 h
    exact takesStatement_ended (takes_expression hq) .throws rfl
  next rest =>
    obtain ⟨⟨c, rest₁, hlt⟩, hc, h⟩ := bind_eq_ok.1 h
    obtain ⟨⟨s, rest₂, hlt'⟩, hs, h⟩ := bind_eq_ok.1 h
    obtain ⟨_, hus, us, rfl, hc⟩ := takes_condition hc
    obtain ⟨⟨vs, hvs, hs⟩, hopen⟩ := hr.statement (Nat.lt_succ_of_lt hlt) hs
    dsimp only at h
    split at h
    next rest₂ hlt' _ =>
      obtain ⟨⟨s', rest₃, hlt₃⟩, hs', h⟩ := bind_eq_ok.1 h
      cases h
      have hshorter : rest₂.length < rest.length + 1 := by
        simp only [List.length_cons] at hlt hlt'
        omega
      obtain ⟨⟨ws, hws, hs'⟩, hopen'⟩ := hr.statement hshorter hs'
      have hclosed : s.endsOpen = false := by
        rw [Bool.eq_false_iff]
        exact fun hs => hopen hs _ rfl
      refine ⟨⟨_, ?_, .ifElse hc hs hclosed hs'⟩, by simpa [Stmt.endsOpen] using hopen'⟩
      simpa [hvs, hws] using hus
    next hnone =>
      cases h
      refine ⟨⟨_, ?_, .ifThen hc hs⟩, fun _ rest heq => ?_⟩
      · simpa [hvs] using hus
      · obtain rfl : rest₂ = .keyword .elseK :: rest := heq
        exact hnone _ _ rfl HEq.rfl
  next rest =>
    obtain ⟨⟨c, rest₁, hlt⟩, hc, h⟩ := bind_eq_ok.1 h
    obtain ⟨⟨s, rest₂, hlt'⟩, hs, h⟩ := bind_eq_ok.1 h
    cases h
    obtain ⟨_, hus, us, rfl, hc⟩ := takes_condition hc
    obtain ⟨⟨vs, hvs, hs⟩, hopen⟩ := hr.statement (Nat.lt_succ_of_lt hlt) hs
    refine ⟨⟨_, ?_, .whileLoop hc hs⟩, by simpa [Stmt.endsOpen] using hopen⟩
    simpa [hvs] using hus
  next rest =>
    obtain ⟨⟨body, rest₁, hlt⟩, hs, h⟩ := bind_eq_ok.1 h
    cases h
    obtain ⟨_, hus, us, rfl, hs⟩ := hr.block (by simp) hs
    exact ⟨⟨_, by simpa using hus, .block hs⟩, by simp [Stmt.endsOpen]⟩
  · cases h
    exact ⟨⟨[.sign .semicolon], rfl, .empty⟩, by simp [Stmt.endsOpen]⟩
  · obtain ⟨⟨e, rest₁, hlt⟩, he, h⟩ := bind_eq_ok.1 h
    cases h
    obtain ⟨us, hus, he⟩ := takes_expression he
    obtain ⟨vs, hvs, hend⟩ := takes_dropSemicolon rest₁
    exact ⟨⟨us ++ vs, by simpa [← hvs] using hus, .expr he hend⟩, by simp [Stmt.endsOpen]⟩

theorem block_of_shorter {ts : List Token} (hr : ReadsStatements ts.length)
    {p : Parsed (List Stmt) ts.length} (h : Parser.block ts = .ok p) :
    Takes (fun us => ∃ vs, us = vs ++ [.sign .closeBrace] ∧ Statements vs p.value) ts p.rest := by
  unfold Parser.block at h
  split at h
  next rest hlt hclose =>
    cases h
    exact ⟨[.sign .closeBrace], eq_of_eat? hclose, [], rfl, .nil⟩
  · split at h
    · cases h
    · obtain ⟨⟨s, rest₁, hlt⟩, hs, h⟩ := bind_eq_ok.1 h
      obtain ⟨⟨body, rest₂, hlt'⟩, hb, h⟩ := bind_eq_ok.1 h
      cases h
      obtain ⟨us, hus, hs⟩ := (hr.statement_of_shorter hs).1
      obtain ⟨_, hvs, vs, rfl, hb⟩ := hr.block hlt hb
      exact ⟨us ++ vs ++ [.sign .closeBrace], by simpa [hvs] using hus, _, rfl, .cons hs hb⟩

theorem mono {m n : Nat} (hr : ReadsStatements n) (h : m ≤ n) : ReadsStatements m where
  statement hlt := hr.statement (Nat.lt_of_lt_of_le hlt h)
  block hlt := hr.block (Nat.lt_of_lt_of_le hlt h)

end ReadsStatements

theorem readsStatements (n : Nat) : ReadsStatements n := by
  induction n with
  | zero => constructor <;> exact fun hlt => absurd hlt (Nat.not_lt_zero _)
  | succ n ih =>
    have hshorter {ts : List Token} (hlt : ts.length < n + 1) : ReadsStatements ts.length :=
      ih.mono (Nat.le_of_lt_succ hlt)
    exact {
      statement := fun hlt => (hshorter hlt).statement_of_shorter
      block := fun hlt => (hshorter hlt).block_of_shorter }

/-- A program is read statement by statement. -/
theorem program_induction {motive : List Token → Program → Prop} (hnil : motive [] [])
    (hcons : ∀ {ts : List Token} {p : Parsed Stmt ts.length} {body : Program},
      statement ts = .ok p → motive p.rest body → motive ts (p.value :: body))
    {ts : List Token} {p : Program} (h : program ts = .ok p) : motive ts p := by
  induction hn : ts.length using Nat.strongRecOn generalizing ts p with
  | _ n ih =>
  unfold program at h
  split at h
  next hempty =>
    cases h
    rw [hempty]
    exact hnil
  · obtain ⟨q, hs, h⟩ := bind_eq_ok.1 h
    obtain ⟨body, hbody, h⟩ := bind_eq_ok.1 h
    cases h
    exact hcons hs (ih _ (hn ▸ q.shorter) hbody rfl)

theorem takesStatement_of_statement {ts : List Token} {p : Parsed Stmt ts.length}
    (h : statement ts = .ok p) : TakesStatement ts p :=
  (readsStatements _).statement_of_shorter h

end Parser

/-- What is read as a program is one, and none of its tokens are left over. -/
theorem Grammar.statements_of_program {ts : List Token} {p : Program}
    (h : Parser.program ts = .ok p) : Statements ts p := by
  refine Parser.program_induction .nil (fun {ts q body} hs hbody => ?_) h
  obtain ⟨⟨us, hus, hs⟩, _⟩ := Parser.takesStatement_of_statement hs
  have hall := Statements.cons hs hbody
  rwa [← hus] at hall

/-- `if (a) if (b) c; else d = e - f - g * h`: the `else` belongs to the inner `if`. -/
theorem Grammar.statements_of_nested_if :
    Statements
      [.keyword .ifK, .sign .openParen, .name "a", .sign .closeParen, .keyword .ifK,
        .sign .openParen, .name "b", .sign .closeParen, .name "c", .sign .semicolon,
        .keyword .elseK, .name "d", .sign .assign, .name "e", .sign .minus, .name "f",
        .sign .minus, .name "g", .sign .star, .name "h"]
      [.ifElse (.name "a")
        (.ifElse (.name "b") (.expr (.name "c"))
          (some (.expr (.assign (.name "d") none
            (.binary .sub (.binary .sub (.name "e") (.name "f"))
              (.binary .mul (.name "g") (.name "h")))))))
        none] :=
  statements_of_program (by cbv)

end LiveDoc.Script
