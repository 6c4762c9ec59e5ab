import LiveDoc.Proofs.Rendering

namespace LiveDoc.Script

def Sign.closes : Sign → Bool
  | closeParen | closeBrace | closeBracket | comma | colon | semicolon => true
  | _ => false

def Sign.accesses : Sign → Bool
  | dot | openBracket | openParen => true
  | _ => false

def Token.begins : Token → Bool
  | number _ | text _ | name _ | sign .openParen => true
  | keyword k => k ∈ [.trueK, .falseK, .nullK, .undefinedK, .thisK]
  | sign _ => false

theorem Sign.accesses_of_closes {s : Sign} (h : s.closes = true) : s.accesses = false := by
  cases s <;> first | rfl | cases h

theorem Expr.tokens_eq (e : Expr) : ∃ t ts, e.tokens = t :: ts ∧ t.begins = true := by
  cases e with
  | bool b => cases b <;> exact ⟨_, _, rfl, rfl⟩
  | _ => exact ⟨_, _, rfl, rfl⟩

theorem Level.operator?_of_closes {s : Sign} (hs : s.closes = true) (level : Level) :
    level.operator? (.sign s) = none := by
  cases s <;> cases hs <;> cases level <;> rfl

theorem Level.operator?_of_ne {level other : Level} {t : Token} {join : Expr → Expr → Expr}
    (h : level.operator? t = some join) (hne : other ≠ level) : other.operator? t = none := by
  cases Parser.binaryOperator_of_operator? h <;> cases other <;> first | rfl | exact absurd rfl hne

namespace Parser

def Finds (r : Result α n) (a : α) (rest : List Token) : Prop :=
  ∃ h, r = .ok ⟨a, rest, h⟩

/-- A reader finds `a` in the tokens `ts` and leaves `rest`. -/
def Yields {bound : List Token → Nat} (read : (ts : List Token) → Result α (bound ts))
    (ts : List Token) (a : α) (rest : List Token) : Prop :=
  Finds (read ts) a rest

theorem Finds.bind {r : Result α n} {f : Parsed α n → Result β m} (hr : Finds r a rest)
    (hf : ∀ h, Finds (f ⟨a, rest, h⟩) b rest') : Finds (r >>= f) b rest' := by
  obtain ⟨h, rfl⟩ := hr
  exact hf h

theorem Yields.bind {bound : List Token → Nat} {read : (ts : List Token) → Result α (bound ts)}
    {f : Parsed α (bound ts) → Result β m} (h : Yields read ts a rest)
    (hf : ∀ h, Finds (f ⟨a, rest, h⟩) b rest') : Finds (read ts >>= f) b rest' :=
  Finds.bind h hf

theorem eat?_cons {s : Sign} : ∃ h, eat? s (.sign s :: rest) = some ⟨(), rest, h⟩ := by
  simp [eat?]

theorem yields_expect {s : Sign} {what : Expectation} :
    Yields (expect s what) (.sign s :: rest) () rest := by
  simp [Yields, Finds, expect, eat?]

theorem eat?_of_begins {s : Sign} {t : Token} (ht : t.begins = true) (hs : s.closes = true) :
    eat? s (t :: rest) = none := by
  have hne : t ≠ .sign s := by
    rintro rfl
    cases s <;> cases hs <;> cases ht
  simp [eat?, hne]

theorem yields_accesses {e : Expr} {s : Sign} (hs : s.accesses = false) :
    Yields (accesses e) (.sign s :: rest) e (.sign s :: rest) := by
  unfold Yields accesses
  cases s <;> first | exact ⟨_, rfl⟩ | cases hs

theorem unaryOp?_of_begins {t : Token} (ht : t.begins = true) : unaryOp? t = none := by
  cases t with
  | keyword k => cases k <;> first | rfl | cases ht
  | sign s => cases s <;> first | rfl | cases ht
  | _ => rfl

theorem yields_unary {o e : Expr} {t : Token} (hop : unaryOp? t = none)
    (ho : Yields primary (t :: ts) o us) (he : Yields (accesses o) us e rest) :
    Yields unary (t :: ts) e rest := by
  unfold Yields unary
  simp only [hop]
  exact ho.bind fun _ => he.bind fun _ => ⟨_, rfl⟩

theorem yields_chainRest {level : Level} {e : Expr} {s : Sign}
    (hs : level.operator? (.sign s) = none) :
    Yields (chainRest level e) (.sign s :: rest) e (.sign s :: rest) := by
  unfold Yields chainRest
  simp only [hs]
  exact ⟨_, rfl⟩

theorem yields_chain {level : Level} {e : Expr} {s : Sign}
    (h : Yields (operand level) ts e (.sign s :: rest)) (hs : level.operator? (.sign s) = none) :
    Yields (chain level) ts e (.sign s :: rest) := by
  unfold Yields chain
  exact h.bind fun _ => (yields_chainRest hs).bind fun _ => ⟨_, rfl⟩

theorem yields_operand_of_chain {level next : Level} (hnext : level.tighter = some next)
    (h : Yields (chain next) ts e rest) : Yields (operand level) ts e rest := by
  unfold Yields operand
  split
  next next' hnext' =>
    cases hnext.symm.trans hnext'
    exact h
  next hnone => cases hnext.symm.trans hnone

theorem yields_operand {level : Level} {e : Expr} {s : Sign}
    (h : Yields unary ts e (.sign s :: rest))
    (hs : ∀ other : Level, other.height < level.height → other.operator? (.sign s) = none) :
    Yields (operand level) ts e (.sign s :: rest) := by
  cases hnext : level.tighter with
  | none =>
    unfold Yields operand
    split
    next next hnext' => cases hnext.symm.trans hnext'
    · exact h
  | some next =>
    have hheight := Level.height_of_tighter hnext
    have hoperand : Yields (operand next) ts e (.sign s :: rest) :=
      yields_operand h fun other hother => hs other (Nat.lt_trans hother hheight)
    exact yields_operand_of_chain hnext (yields_chain hoperand (hs next hheight))
termination_by level.height

theorem yields_chain_join {level : Level} {s s' : Sign} {join : Expr → Expr → Expr}
    (hs : level.operator? (.sign s) = some join) (hs' : s'.closes = true)
    (hl : Yields unary ts l (.sign s :: us)) (hr : Yields unary us r (.sign s' :: rest)) :
    Yields (chain level) ts (join l r) (.sign s' :: rest) := by
  have hleft : Yields (operand level) ts l (.sign s :: us) :=
    yields_operand hl fun other hheight =>
      Level.operator?_of_ne hs fun heq => Nat.lt_irrefl _ (heq ▸ hheight)
  have hright : Yields (operand level) us r (.sign s' :: rest) :=
    yields_operand hr fun other _ => Level.operator?_of_closes hs' other
  have hrest : Yields (chainRest level l) (.sign s :: us) (join l r) (.sign s' :: rest) := by
    unfold Yields chainRest
    simp only [hs]
    exact hright.bind fun _ =>
      (yields_chainRest (Level.operator?_of_closes hs' level)).bind fun _ => ⟨_, rfl⟩
  unfold Yields chain
  exact hleft.bind fun _ => hrest.bind fun _ => ⟨_, rfl⟩

theorem yields_chain_or {level : Level} {e : Expr} {s : Sign} (hs : s.closes = true)
    (h : Yields (chain level) ts e (.sign s :: rest)) :
    Yields (chain .or) ts e (.sign s :: rest) := by
  have hlooser (level : Level) {next : Level} (hnext : level.tighter = some next)
      (h : Yields (chain next) ts e (.sign s :: rest)) :
      Yields (chain level) ts e (.sign s :: rest) :=
    yields_chain (yields_operand_of_chain hnext h) (Level.operator?_of_closes hs level)
  cases level with
  | or => exact h
  | and => exact hlooser .or rfl h
  | equality => exact hlooser .or rfl (hlooser .and rfl h)
  | relational => exact hlooser .or rfl (hlooser .and rfl (hlooser .equality rfl h))
  | additive =>
    have hequality := hlooser .equality rfl (hlooser .relational rfl h)
    exact hlooser .or rfl (hlooser .and rfl hequality)
  | term =>
    have hrelational := hlooser .relational rfl (hlooser .additive rfl h)
    exact hlooser .or rfl (hlooser .and rfl (hlooser .equality rfl hrelational))

theorem yields_conditional_of_chain {e : Expr} {s : Sign} (hs : s ≠ .question)
    (h : Yields (chain .or) ts e (.sign s :: rest)) :
    Yields conditional ts e (.sign s :: rest) := by
  unfold Yields conditional
  refine h.bind fun _ => ?_
  cases s <;> first | exact ⟨_, rfl⟩ | exact absurd rfl hs

theorem yields_expression_of_conditional {e : Expr} {s : Sign} (hs : s.closes = true)
    (h : Yields conditional ts e (.sign s :: rest)) :
    Yields expression ts e (.sign s :: rest) := by
  have hassign : assignment? (.sign s) = none := by
    cases s <;> first | rfl | cases hs
  unfold Yields expression
  refine h.bind fun _ => ?_
  simp only [hassign]
  exact ⟨_, rfl⟩

theorem yields_expression_of_chain {level : Level} {e : Expr} {s : Sign} (hs : s.closes = true)
    (h : Yields (chain level) ts e (.sign s :: rest)) :
    Yields expression ts e (.sign s :: rest) := by
  have hne : s ≠ .question := by
    rintro rfl
    cases hs
  exact yields_expression_of_conditional hs
    (yields_conditional_of_chain hne (yields_chain_or hs h))

theorem yields_chain_of_unary {e : Expr} {s : Sign}
    (hs : ∀ level : Level, level.operator? (.sign s) = none)
    (h : Yields unary ts e (.sign s :: rest)) : Yields (chain .or) ts e (.sign s :: rest) :=
  yields_chain (yields_operand h fun other _ => hs other) (hs .or)

theorem yields_expression_of_unary {e : Expr} {s : Sign} (hs : s.closes = true)
    (h : Yields unary ts e (.sign s :: rest)) : Yields expression ts e (.sign s :: rest) :=
  yields_expression_of_chain hs (yields_chain_of_unary (Level.operator?_of_closes hs) h)

/-- Inside parentheses every expression is read. -/
theorem yields_primary {e : Expr}
    (h : Yields expression (ts ++ .sign .closeParen :: rest) e (.sign .closeParen :: rest)) :
    Yields primary (parenthesized ts ++ rest) e rest := by
  have htokens : parenthesized ts ++ rest = .sign .openParen :: (ts ++ .sign .closeParen :: rest) := by
    simp [parenthesized]
  rw [htokens]
  unfold Yields primary
  refine h.bind fun _ => ?_
  exact yields_expect.bind fun _ => ⟨_, rfl⟩

/-- An expression is read back from its tokens, whatever is behind them. -/
def ReadsBack (e : Expr) : Prop :=
  ∀ rest, Yields primary (e.tokens ++ rest) e rest

namespace ReadsBack

variable {e : Expr}

/-- Before an access, or anything else that goes on with a primary expression. -/
theorem accessed (h : ReadsBack e) {a : Expr} (ha : Yields (Parser.accesses e) us a rest) :
    Yields Parser.unary (e.tokens ++ us) a rest := by
  obtain ⟨t, ts, heq, ht⟩ := e.tokens_eq
  have he := h us
  rw [heq] at he ⊢
  exact yields_unary (unaryOp?_of_begins ht) he ha

theorem unary (h : ReadsBack e) {s : Sign} (hs : s.accesses = false) :
    Yields Parser.unary (e.tokens ++ .sign s :: rest) e (.sign s :: rest) :=
  h.accessed (yields_accesses hs)

theorem expression (h : ReadsBack e) {s : Sign} (hs : s.closes = true) :
    Yields Parser.expression (e.tokens ++ .sign s :: rest) e (.sign s :: rest) :=
  yields_expression_of_unary hs (h.unary (Sign.accesses_of_closes hs))

end ReadsBack

theorem readsBack_of_expression {e : Expr} {ts : List Token} (heq : e.tokens = parenthesized ts)
    (h : ∀ rest, Yields expression (ts ++ .sign .closeParen :: rest) e (.sign .closeParen :: rest)) :
    ReadsBack e := by
  intro rest
  rw [heq]
  exact yields_primary (h rest)

theorem readsBack_of_primary {e : Expr} {t : Token} {ts : List Token} (ht : unaryOp? t = none)
    (heq : e.tokens = parenthesized (t :: ts))
    (h : ∀ rest, Yields primary (t :: (ts ++ rest)) e rest) : ReadsBack e :=
  readsBack_of_expression heq fun _ =>
    yields_expression_of_unary rfl (yields_unary ht (h _) (yields_accesses rfl))

theorem readsBack_of_accesses {o e : Expr} (ho : ReadsBack o) {ts : List Token}
    (heq : e.tokens = parenthesized (o.tokens ++ ts))
    (h : ∀ rest, Yields (accesses o) (ts ++ .sign .closeParen :: rest) e (.sign .closeParen :: rest)) :
    ReadsBack e := by
  refine readsBack_of_expression heq fun rest => ?_
  rw [List.append_assoc]
  exact yields_expression_of_unary rfl (ho.accessed (h rest))

def IsListEnd (s : Sign) : Prop :=
  s = .closeParen ∨ s = .closeBracket

def ItemsReadBack (es : List Expr) : Prop :=
  ∀ (close : Sign), IsListEnd close → ∀ rest,
    Yields (expressions close) (itemTokens es ++ .sign close :: rest) es rest

def EntriesReadBack (es : List (String × Expr)) : Prop :=
  ∀ rest, Yields entries (entryTokens es ++ .sign .closeBrace :: rest) es rest

theorem itemsReadBack_nil : ItemsReadBack [] := by
  intro close _ rest
  obtain ⟨h, heat⟩ : ∃ h, eat? close (.sign close :: rest) = some ⟨(), rest, h⟩ := eat?_cons
  unfold Yields expressions
  simp only [itemTokens, List.nil_append, heat]
  exact ⟨h, rfl⟩

theorem itemsReadBack_cons {e : Expr} {es : List Expr} (he : ReadsBack e) (hes : ItemsReadBack es) :
    ItemsReadBack (e :: es) := by
  intro close hclose rest
  have hcloses : close.closes = true := by
    obtain rfl | rfl := hclose <;> rfl
  obtain ⟨t, ts, heq, ht⟩ := e.tokens_eq
  have heat (us : List Token) : eat? close (e.tokens ++ us) = none := by
    rw [heq]
    exact eat?_of_begins ht hcloses
  cases es with
  | nil =>
    simp only [itemTokens, List.isEmpty_nil, if_true, List.append_nil]
    unfold Yields expressions
    simp only [heat]
    refine (he.expression hcloses).bind fun _ => ?_
    obtain rfl | rfl := hclose <;> exact yields_expect.bind fun _ => ⟨_, rfl⟩
  | cons e' es =>
    have hes := hes close hclose rest
    rw [itemTokens]
    simp only [List.isEmpty_cons, Bool.false_eq_true, if_false, List.append_assoc,
      List.cons_append]
    unfold Yields expressions
    simp only [heat]
    have hcomma : Sign.closes .comma = true := rfl
    refine (he.expression hcomma).bind fun _ => ?_
    exact hes.bind fun _ => ⟨_, rfl⟩

theorem entriesReadBack_nil : EntriesReadBack [] := by
  intro rest
  unfold Yields entries
  exact ⟨_, rfl⟩

theorem yields_entry {key : String} {e : Expr} (he : ReadsBack e) {s : Sign}
    (hs : s.closes = true) :
    Yields entry (.text key :: .sign .colon :: (e.tokens ++ .sign s :: rest)) (key, e)
      (.sign s :: rest) := by
  unfold Yields entry
  refine yields_expect.bind fun _ => ?_
  exact (he.expression hs).bind fun _ => ⟨_, rfl⟩

theorem entriesReadBack_cons {key : String} {e : Expr} {es : List (String × Expr)}
    (he : ReadsBack e) (hes : EntriesReadBack es) : EntriesReadBack ((key, e) :: es) := by
  intro rest
  have heat (us : List Token) : eat? .closeBrace (.text key :: us) = none := rfl
  cases es with
  | nil =>
    simp only [entryTokens, List.isEmpty_nil, if_true, List.append_nil, List.cons_append]
    unfold Yields entries
    simp only [heat]
    have hclose : Sign.closes .closeBrace = true := rfl
    refine (yields_entry he hclose).bind fun _ => ?_
    exact yields_expect.bind fun _ => ⟨_, rfl⟩
  | cons e' es =>
    have hes := hes rest
    rw [entryTokens]
    simp only [List.isEmpty_cons, Bool.false_eq_true, if_false, List.append_assoc,
      List.cons_append]
    unfold Yields entries
    simp only [heat]
    have hcomma : Sign.closes .comma = true := rfl
    refine (yields_entry he hcomma).bind fun _ => ?_
    exact hes.bind fun _ => ⟨_, rfl⟩

theorem propertyName?_word (s : String) : propertyName? (Lexer.word s.toList) = some s := by
  simp only [Lexer.word, String.ofList_toList]
  split
  next k hk =>
    have htext := List.find?_some hk
    simpa [propertyName?] using htext
  · rfl

theorem readsBack_array {es : List Expr} (hes : ItemsReadBack es) : ReadsBack (.array es) := by
  have heq : (Expr.array es).tokens =
      parenthesized (.sign .openBracket :: (itemTokens es ++ [.sign .closeBracket])) := rfl
  refine readsBack_of_primary rfl heq fun rest => ?_
  rw [List.append_assoc]
  unfold Yields primary
  exact (hes _ (.inr rfl) _).bind fun _ => ⟨_, rfl⟩

theorem readsBack_object {es : List (String × Expr)} (hes : EntriesReadBack es) :
    ReadsBack (.object es) := by
  have heq : (Expr.object es).tokens =
      parenthesized (.sign .openBrace :: (entryTokens es ++ [.sign .closeBrace])) := rfl
  refine readsBack_of_primary rfl heq fun rest => ?_
  rw [List.append_assoc]
  unfold Yields primary
  exact (hes _).bind fun _ => ⟨_, rfl⟩

theorem readsBack_member {o : Expr} (ho : ReadsBack o) (property : String) :
    ReadsBack (.member o property) := by
  refine readsBack_of_accesses ho rfl fun rest => ?_
  simp only [List.cons_append, List.nil_append]
  unfold Yields accesses
  simp only [propertyName?_word]
  exact (yields_accesses rfl).bind fun _ => ⟨_, rfl⟩

theorem readsBack_index {o i : Expr} (ho : ReadsBack o) (hi : ReadsBack i) :
    ReadsBack (.index o i) := by
  have heq : (Expr.index o i).tokens =
      parenthesized (o.tokens ++ (.sign .openBracket :: i.tokens ++ [.sign .closeBracket])) := by
    simp [Expr.tokens]
  refine readsBack_of_accesses ho heq fun rest => ?_
  simp only [List.cons_append, List.append_assoc, List.nil_append]
  unfold Yields accesses
  refine (hi.expression rfl).bind fun _ => yields_expect.bind fun _ => ?_
  exact (yields_accesses rfl).bind fun _ => ⟨_, rfl⟩

theorem readsBack_call {callee : Expr} {args : List Expr} (hcallee : ReadsBack callee)
    (hargs : ItemsReadBack args) : ReadsBack (.call callee args) := by
  have heq : (Expr.call callee args).tokens = parenthesized
      (callee.tokens ++ (.sign .openParen :: itemTokens args ++ [.sign .closeParen])) := by
    simp [Expr.tokens]
  refine readsBack_of_accesses hcallee heq fun rest => ?_
  simp only [List.cons_append, List.append_assoc, List.nil_append]
  unfold Yields accesses
  refine (hargs _ (.inl rfl) _).bind fun _ => ?_
  exact (yields_accesses rfl).bind fun _ => ⟨_, rfl⟩

theorem readsBack_unary (op : UnaryOp) {e : Expr} (he : ReadsBack e) : ReadsBack (.unary op e) := by
  have hop : unaryOp? op.token = some op := by
    cases op <;> rfl
  refine readsBack_of_expression rfl fun rest => yields_expression_of_unary rfl ?_
  rw [List.cons_append]
  unfold Yields unary
  simp only [hop]
  exact (he.unary rfl).bind fun _ => ⟨_, rfl⟩

theorem readsBack_join {level : Level} {s : Sign} {join : Expr → Expr → Expr}
    (hs : level.operator? (.sign s) = some join) {l r : Expr} (hl : ReadsBack l) (hr : ReadsBack r)
    (heq : (join l r).tokens = parenthesized (l.tokens ++ .sign s :: r.tokens)) :
    ReadsBack (join l r) := by
  have haccesses : s.accesses = false := by
    cases s <;> first | rfl | cases level <;> cases hs
  refine readsBack_of_expression heq fun rest => ?_
  rw [List.append_assoc, List.cons_append]
  exact yields_expression_of_chain rfl
    (yields_chain_join hs rfl (hl.unary haccesses) (hr.unary rfl))

theorem readsBack_conditional {c a b : Expr} (hc : ReadsBack c) (ha : ReadsBack a)
    (hb : ReadsBack b) : ReadsBack (.conditional c a b) := by
  have hquestion (level : Level) : level.operator? (.sign .question) = none := by
    cases level <;> rfl
  refine readsBack_of_expression rfl fun rest => yields_expression_of_conditional rfl ?_
  simp only [List.cons_append, List.append_assoc]
  unfold Yields conditional
  refine (yields_chain_of_unary hquestion (hc.unary rfl)).bind fun _ => ?_
  refine (ha.expression rfl).bind fun _ => yields_expect.bind fun _ => ?_
  exact (hb.expression rfl).bind fun _ => ⟨_, rfl⟩

theorem readsBack_assign {target value : Expr} {op : Option BinaryOp}
    (htarget : target.isTarget = true) (hop : isAssignable op = true) (ht : ReadsBack target)
    (hv : ReadsBack value) : ReadsBack (.assign target op value) := by
  have hassign : assignment? (.sign (assignmentSign op)) = some op := by
    unfold isAssignable at hop
    split at hop <;> first | rfl | cases hop
  have hoperator (level : Level) : level.operator? (.sign (assignmentSign op)) = none := by
    unfold assignmentSign
    split <;> cases level <;> rfl
  have haccesses : (assignmentSign op).accesses = false := by
    unfold assignmentSign
    split <;> rfl
  have hne : assignmentSign op ≠ .question := by
    unfold assignmentSign
    split <;> simp
  refine readsBack_of_expression rfl fun rest => ?_
  simp only [List.cons_append, List.append_assoc]
  have hread : Yields Parser.conditional
      (target.tokens ++ .sign (assignmentSign op) :: (value.tokens ++ .sign .closeParen :: rest))
      target (.sign (assignmentSign op) :: (value.tokens ++ .sign .closeParen :: rest)) :=
    yields_conditional_of_chain hne (yields_chain_of_unary hoperator (ht.unary haccesses))
  unfold Yields expression
  refine hread.bind fun _ => ?_
  simp only [hassign, htarget, if_true]
  exact (hv.expression rfl).bind fun _ => ⟨_, rfl⟩

theorem readsBack_binary (op : BinaryOp) {l r : Expr} (hl : ReadsBack l) (hr : ReadsBack r) :
    ReadsBack (.binary op l r) := by
  obtain ⟨level, hs⟩ : ∃ level : Level, level.operator? (.sign op.sign) = some (.binary op) := by
    cases op
    case add | sub => exact ⟨.additive, rfl⟩
    case mul | div | rem => exact ⟨.term, rfl⟩
    case eq | notEq | strictEq | strictNotEq => exact ⟨.equality, rfl⟩
    case lt | ltEq | gt | gtEq => exact ⟨.relational, rfl⟩
  exact readsBack_join hs hl hr rfl

theorem readsBack_logical (op : LogicalOp) {l r : Expr} (hl : ReadsBack l) (hr : ReadsBack r) :
    ReadsBack (.logical op l r) := by
  obtain ⟨level, hs⟩ : ∃ level : Level, level.operator? (.sign op.sign) = some (.logical op) := by
    cases op with
    | and => exact ⟨.and, rfl⟩
    | or => exact ⟨.or, rfl⟩
  exact readsBack_join hs hl hr rfl

theorem readsBack_atom {t : Token} {e : Expr} (ht : atom? t = some e) (heq : e.tokens = [t]) :
    ReadsBack e := by
  intro rest
  rw [heq]
  unfold Yields primary
  cases atom_of_atom? ht <;> exact ⟨_, rfl⟩

section

variable {isName : String → Bool}

mutual

theorem readsBack (e : Expr) (he : e.isWellFormed isName = true) : ReadsBack e := by
  match e with
  | .number n => exact readsBack_atom rfl rfl
  | .text s => exact readsBack_atom rfl rfl
  | .name s => exact readsBack_atom rfl rfl
  | .bool true => exact readsBack_atom rfl rfl
  | .bool false => exact readsBack_atom rfl rfl
  | .null => exact readsBack_atom rfl rfl
  | .undefined => exact readsBack_atom rfl rfl
  | .this => exact readsBack_atom rfl rfl
  | .array items =>
    simp only [Expr.isWellFormed] at he
    exact readsBack_array (itemsReadBack items he)
  | .object entries =>
    simp only [Expr.isWellFormed] at he
    exact readsBack_object (entriesReadBack entries he)
  | .member o property =>
    simp only [Expr.isWellFormed, Bool.and_eq_true] at he
    exact readsBack_member (readsBack o he.1) property
  | .index o i =>
    simp only [Expr.isWellFormed, Bool.and_eq_true] at he
    exact readsBack_index (readsBack o he.1) (readsBack i he.2)
  | .call callee args =>
    simp only [Expr.isWellFormed, Bool.and_eq_true] at he
    exact readsBack_call (readsBack callee he.1) (itemsReadBack args he.2)
  | .unary op e =>
    simp only [Expr.isWellFormed] at he
    exact readsBack_unary op (readsBack e he)
  | .binary op l r =>
    simp only [Expr.isWellFormed, Bool.and_eq_true] at he
    exact readsBack_binary op (readsBack l he.1) (readsBack r he.2)
  | .logical op l r =>
    simp only [Expr.isWellFormed, Bool.and_eq_true] at he
    exact readsBack_logical op (readsBack l he.1) (readsBack r he.2)
  | .conditional c a b =>
    simp only [Expr.isWellFormed, Bool.and_eq_true] at he
    exact readsBack_conditional (readsBack c he.1.1) (readsBack a he.1.2) (readsBack b he.2)
  | .assign target op value =>
    simp only [Expr.isWellFormed, Bool.and_eq_true] at he
    exact readsBack_assign he.1.1.1 he.1.1.2 (readsBack target he.1.2) (readsBack value he.2)

theorem itemsReadBack (es : List Expr) (hes : areWellFormed isName es = true) :
    ItemsReadBack es := by
  match es with
  | [] => exact itemsReadBack_nil
  | e :: es =>
    simp only [areWellFormed, Bool.and_eq_true] at hes
    exact itemsReadBack_cons (readsBack e hes.1) (itemsReadBack es hes.2)

theorem entriesReadBack (es : List (String × Expr)) (hes : entriesWellFormed isName es = true) :
    EntriesReadBack es := by
  match es with
  | [] => exact entriesReadBack_nil
  | (key, e) :: es =>
    simp only [entriesWellFormed, Bool.and_eq_true] at hes
    exact entriesReadBack_cons (readsBack e hes.1) (entriesReadBack es hes.2)

end

theorem finds_ended {r : Result α n} {f : α → Stmt} (h : Finds r a (.sign .semicolon :: rest)) :
    Finds (r.map (ended f)) (f a) rest := by
  obtain ⟨hlt, rfl⟩ := h
  exact ⟨_, rfl⟩

theorem yields_initializer {init : Option Expr} (hi : initializerWellFormed isName init = true)
    {s : Sign} (hs : s.closes = true) :
    Yields initializer (initializerTokens init ++ .sign s :: rest) init (.sign s :: rest) := by
  cases init with
  | none =>
    unfold Yields initializer
    cases s <;> first | exact ⟨_, rfl⟩ | cases hs
  | some e =>
    unfold Yields initializer
    exact ((readsBack e hi).expression hs).bind fun _ => ⟨_, rfl⟩

theorem yields_bindings {bs : List (String × Option Expr)} (hne : bs ≠ [])
    (hbs : ∀ b ∈ bs, initializerWellFormed isName b.2 = true) :
    Yields bindings (bindingTokens bs ++ .sign .semicolon :: rest) bs (.sign .semicolon :: rest) := by
  induction bs with
  | nil => exact absurd rfl hne
  | cons b bs ih =>
    obtain ⟨s, init⟩ := b
    have hinit := hbs _ List.mem_cons_self
    cases bs with
    | nil =>
      simp only [bindingTokens, List.isEmpty_nil, if_true, List.append_nil, List.cons_append]
      unfold Yields bindings
      have hsemicolon : Sign.closes .semicolon = true := rfl
      exact (yields_initializer hinit hsemicolon).bind fun _ => ⟨_, rfl⟩
    | cons b' bs =>
      have hrest := ih (List.cons_ne_nil _ _) fun b hb => hbs b (List.mem_cons_of_mem _ hb)
      rw [bindingTokens]
      simp only [List.isEmpty_cons, Bool.false_eq_true, if_false, List.append_assoc,
        List.cons_append]
      unfold Yields bindings
      have hcomma : Sign.closes .comma = true := rfl
      refine (yields_initializer hinit hcomma).bind fun _ => ?_
      exact hrest.bind fun _ => ⟨_, rfl⟩

theorem yields_condition {c : Expr} (hc : c.isWellFormed isName = true) :
    Yields condition (parenthesized c.tokens ++ rest) c rest := by
  simp only [parenthesized, List.cons_append, List.append_assoc, List.nil_append]
  unfold Yields condition
  refine yields_expect.bind fun _ => ?_
  exact ((readsBack c hc).expression rfl).bind fun _ => yields_expect.bind fun _ => ⟨_, rfl⟩

theorem yields_statement_of_expression {t : Token} {e : Expr} (ht : t.begins = true)
    (he : Yields expression (t :: ts) e (.sign .semicolon :: rest)) :
    Yields statement (t :: ts) (.expr e) rest := by
  unfold Yields statement
  cases t with
  | keyword k => cases k <;> first | exact he.bind fun _ => ⟨_, rfl⟩ | cases ht
  | sign s => cases s <;> first | exact he.bind fun _ => ⟨_, rfl⟩ | cases ht
  | _ => exact he.bind fun _ => ⟨_, rfl⟩

/-- A statement is read back from its tokens, unless an `else` behind them would get into it. -/
def StatementReadsBack (s : Stmt) : Prop :=
  ∀ rest, (s.endsOpen = true → ∀ rest', rest ≠ .keyword .elseK :: rest') →
    Yields statement (s.tokens ++ rest) s rest

def BlockReadsBack (body : List Stmt) : Prop :=
  ∀ rest, Yields block (tokensOfAll body ++ .sign .closeBrace :: rest) body rest

theorem Stmt.tokens_eq (s : Stmt) :
    ∃ t ts, s.tokens = t :: ts ∧ t ≠ .keyword .elseK ∧ t ≠ .sign .closeBrace := by
  cases s with
  | declare isConst => cases isConst <;> exact ⟨_, _, rfl, by simp, by simp⟩
  | returns value => cases value <;> exact ⟨_, _, rfl, by simp, by simp⟩
  | ifElse c s s' => cases s' <;> exact ⟨_, _, rfl, by simp, by simp⟩
  | expr e =>
    obtain ⟨t, ts, heq, ht⟩ := e.tokens_eq
    refine ⟨t, ts ++ [.sign .semicolon], by rw [Stmt.tokens, heq, List.cons_append], ?_, ?_⟩ <;>
    · rintro rfl
      cases ht
  | _ => exact ⟨_, _, rfl, by simp, by simp⟩

theorem tokensOfAll_ne_else (body : List Stmt) (hrest : ∀ us, rest ≠ .keyword .elseK :: us)
    (us : List Token) : tokensOfAll body ++ rest ≠ .keyword .elseK :: us := by
  cases body with
  | nil => exact hrest us
  | cons s body =>
    obtain ⟨t, ts, heq, helse, _⟩ := Stmt.tokens_eq s
    rw [tokensOfAll, heq]
    intro h
    cases h
    exact helse rfl

theorem endsReturn_of_begins {t : Token} (ht : t.begins = true) : endsReturn (t :: ts) = false := by
  cases t with
  | sign s => cases s <;> first | rfl | cases ht
  | _ => rfl

theorem statementReadsBack_declare (isConst : Bool) {bs : List (String × Option Expr)}
    (hne : bs ≠ []) (hbs : ∀ b ∈ bs, initializerWellFormed isName b.2 = true) :
    StatementReadsBack (.declare isConst bs) := by
  intro rest _
  rw [Stmt.tokens]
  simp only [List.cons_append, List.append_assoc, List.nil_append]
  unfold Yields statement
  cases isConst <;> exact finds_ended (yields_bindings hne hbs)

theorem statementReadsBack_returns {e : Expr} (he : e.isWellFormed isName = true) :
    StatementReadsBack (.returns (some e)) := by
  intro rest _
  have hends (us : List Token) : endsReturn (e.tokens ++ us) = false := by
    obtain ⟨t, ts, heq, ht⟩ := e.tokens_eq
    rw [heq]
    exact endsReturn_of_begins ht
  rw [Stmt.tokens]
  simp only [List.cons_append, List.append_assoc, List.nil_append]
  unfold Yields statement
  simp only [hends, Bool.false_eq_true, if_false]
  exact finds_ended (f := fun e => .returns (some e)) ((readsBack e he).expression rfl)

theorem statementReadsBack_throws {e : Expr} (he : e.isWellFormed isName = true) :
    StatementReadsBack (.throws e) := by
  intro rest _
  rw [Stmt.tokens]
  simp only [List.cons_append, List.append_assoc, List.nil_append]
  unfold Yields statement
  exact finds_ended ((readsBack e he).expression rfl)

theorem statementReadsBack_expr {e : Expr} (he : e.isWellFormed isName = true) :
    StatementReadsBack (.expr e) := by
  intro rest _
  obtain ⟨t, ts, heq, ht⟩ := e.tokens_eq
  have hread : Yields expression (e.tokens ++ .sign .semicolon :: rest) e (.sign .semicolon :: rest) :=
    (readsBack e he).expression rfl
  rw [Stmt.tokens, List.append_assoc]
  rw [heq] at hread ⊢
  exact yields_statement_of_expression ht hread

theorem statementReadsBack_ifThen {c : Expr} {s : Stmt} (hc : c.isWellFormed isName = true)
    (hs : StatementReadsBack s) : StatementReadsBack (.ifElse c s none) := by
  intro rest hopen
  have helse : ∀ us, rest ≠ .keyword .elseK :: us := hopen (by rw [Stmt.endsOpen])
  rw [Stmt.tokens]
  simp only [List.cons_append, List.append_assoc]
  unfold Yields statement
  refine (yields_condition hc).bind fun _ => (hs rest fun _ => helse).bind fun _ => ?_
  dsimp only
  split
  · exact absurd rfl (helse _)
  · exact ⟨_, rfl⟩

theorem statementReadsBack_ifElse {c : Expr} {s s' : Stmt} (hc : c.isWellFormed isName = true)
    (hclosed : s.endsOpen = false) (hs : StatementReadsBack s) (hs' : StatementReadsBack s') :
    StatementReadsBack (.ifElse c s (some s')) := by
  intro rest hopen
  rw [Stmt.endsOpen] at hopen
  rw [Stmt.tokens]
  simp only [List.cons_append, List.append_assoc]
  unfold Yields statement
  have hthen : Yields statement (s.tokens ++ .keyword .elseK :: (s'.tokens ++ rest)) s
      (.keyword .elseK :: (s'.tokens ++ rest)) :=
    hs _ fun h => by rw [hclosed] at h; cases h
  refine (yields_condition hc).bind fun _ => hthen.bind fun _ => ?_
  exact (hs' rest hopen).bind fun _ => ⟨_, rfl⟩

theorem statementReadsBack_whileLoop {c : Expr} {s : Stmt} (hc : c.isWellFormed isName = true)
    (hs : StatementReadsBack s) : StatementReadsBack (.whileLoop c s) := by
  intro rest hopen
  rw [Stmt.endsOpen] at hopen
  rw [Stmt.tokens]
  simp only [List.cons_append, List.append_assoc]
  unfold Yields statement
  exact (yields_condition hc).bind fun _ => (hs rest hopen).bind fun _ => ⟨_, rfl⟩

theorem statementReadsBack_block {body : List Stmt} (hbody : BlockReadsBack body) :
    StatementReadsBack (.block body) := by
  intro rest _
  rw [Stmt.tokens]
  simp only [List.cons_append, List.append_assoc, List.nil_append]
  unfold Yields statement
  exact (hbody rest).bind fun _ => ⟨_, rfl⟩

theorem blockReadsBack_cons {s : Stmt} {body : List Stmt} (hs : StatementReadsBack s)
    (hbody : BlockReadsBack body) : BlockReadsBack (s :: body) := by
  intro rest
  obtain ⟨t, ts, heq, _, hclose⟩ := Stmt.tokens_eq s
  have hrest : ∀ us, tokensOfAll body ++ .sign .closeBrace :: rest ≠ .keyword .elseK :: us :=
    tokensOfAll_ne_else body fun us => by simp
  have hread := hs _ fun _ => hrest
  rw [tokensOfAll, List.append_assoc]
  rw [heq] at hread ⊢
  have heat (us : List Token) : eat? .closeBrace (t :: us) = none := by
    simp [eat?, hclose]
  unfold Yields block
  simp only [List.cons_append, heat, reduceCtorEq, if_false]
  exact hread.bind fun _ => (hbody rest).bind fun _ => ⟨_, rfl⟩

mutual

theorem statementReadsBack (s : Stmt) (hs : s.isWellFormed isName = true) :
    StatementReadsBack s := by
  match s with
  | .declare isConst bs =>
    simp only [Stmt.isWellFormed, Bool.and_eq_true, Bool.not_eq_true', List.isEmpty_eq_false_iff,
      List.all_eq_true] at hs
    exact statementReadsBack_declare isConst hs.1 hs.2
  | .returns none => exact fun rest _ => by unfold Yields statement; exact ⟨_, rfl⟩
  | .returns (some e) =>
    simp only [Stmt.isWellFormed] at hs
    exact statementReadsBack_returns hs
  | .ifElse c s none =>
    simp only [Stmt.isWellFormed, Bool.and_eq_true] at hs
    exact statementReadsBack_ifThen hs.1 (statementReadsBack s hs.2)
  | .ifElse c s (some s') =>
    simp only [Stmt.isWellFormed, Bool.and_eq_true, Bool.not_eq_true'] at hs
    exact statementReadsBack_ifElse hs.1.1.1 hs.1.2 (statementReadsBack s hs.1.1.2)
      (statementReadsBack s' hs.2)
  | .whileLoop c s =>
    simp only [Stmt.isWellFormed, Bool.and_eq_true] at hs
    exact statementReadsBack_whileLoop hs.1 (statementReadsBack s hs.2)
  | .breakLoop => exact fun rest _ => by unfold Yields statement; exact ⟨_, rfl⟩
  | .continueLoop => exact fun rest _ => by unfold Yields statement; exact ⟨_, rfl⟩
  | .throws e =>
    simp only [Stmt.isWellFormed] at hs
    exact statementReadsBack_throws hs
  | .block body =>
    simp only [Stmt.isWellFormed] at hs
    exact statementReadsBack_block (blockReadsBack body hs)
  | .expr e =>
    simp only [Stmt.isWellFormed] at hs
    exact statementReadsBack_expr hs
  | .empty => exact fun rest _ => by unfold Yields statement; exact ⟨_, rfl⟩

theorem blockReadsBack (body : List Stmt) (hbody : allWellFormed isName body = true) :
    BlockReadsBack body := by
  match body with
  | [] => exact fun rest => by unfold Yields block; exact ⟨_, rfl⟩
  | s :: body =>
    simp only [allWellFormed, Bool.and_eq_true] at hbody
    exact blockReadsBack_cons (statementReadsBack s hbody.1) (blockReadsBack body hbody.2)

end

theorem program_tokensOfAll {p : Program} (hp : allWellFormed isName p = true) :
    program (tokensOfAll p) = .ok p := by
  induction p with
  | nil =>
    unfold program
    rfl
  | cons s body ih =>
    simp only [allWellFormed, Bool.and_eq_true] at hp
    have hrest : ∀ us, tokensOfAll body ++ [] ≠ .keyword .elseK :: us :=
      tokensOfAll_ne_else body (by simp)
    rw [List.append_nil] at hrest
    obtain ⟨h, hread⟩ := statementReadsBack s hp.1 (tokensOfAll body) fun _ => hrest
    obtain ⟨t, ts, heq, _⟩ := Stmt.tokens_eq s
    rw [tokensOfAll]
    unfold program
    rw [if_neg (by simp [heq]), hread]
    simp only [bind, Except.bind, ih hp.2]
    rfl

end

end Parser

/-- Reading undoes writing: a well-formed program is read from the tokens it is written with, and no
other programs are read. It does not matter which texts are identifiers, as long as the names among
the tokens that are read are. -/
theorem reads_written_programs (isName : String → Bool) :
    (∀ p : Program, allWellFormed isName p = true → Parser.program (tokensOfAll p) = .ok p) ∧
      ∀ (ts : List Token) (p : Program), Fits isName ts → Parser.program ts = .ok p →
        allWellFormed isName p = true :=
  ⟨fun _ hp => Parser.program_tokensOfAll hp,
    fun _ _ hts h => Parser.allWellFormed_of_program h hts⟩

end LiveDoc.Script
