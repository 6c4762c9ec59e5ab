import LiveDoc.Proofs.ReadBack

namespace LiveDoc.Script

def Token.opens : Token → Bool
  | .sign .openParen | .sign .openBracket | .sign .openBrace => true
  | _ => false

def Token.leads : Token → Bool
  | .keyword k =>
    k ∈ [.letK, .varK, .constK, .returnK, .breakK, .continueK, .throwK, .ifK, .whileK]
  | .sign s => s = .openBrace ∨ s = .semicolon
  | _ => false

open Grammar

namespace Parser

abbrev Reader (α : Type) := StateT (List Token) (Except Failure) α

def bare (r : Result α n) : Except Failure (α × List Token) :=
  r.map fun p => (p.value, p.rest)

def reader {bound : List Token → Nat} (read : (ts : List Token) → Result α (bound ts)) :
    Reader α :=
  fun ts => bare (read ts)

variable {t : Token} {ts rest : List Token}

theorem bare_bind {r : Result α n} {f : Parsed α n → Result β m}
    {k : α × List Token → Except Failure (β × List Token)}
    (h : ∀ a rest hlt, bare (f ⟨a, rest, hlt⟩) = k (a, rest)) :
    bare (r >>= f) = bare r >>= k := by
  cases r with
  | error => rfl
  | ok p => exact h p.value p.rest p.shorter

theorem bare_bind_last {r : Result α n} {f : Parsed α n → Result α m}
    (h : ∀ a rest hlt, bare (f ⟨a, rest, hlt⟩) = .ok (a, rest)) : bare (r >>= f) = bare r :=
  (bare_bind h).trans (bind_pure _)

theorem length_of_reader {bound : List Token → Nat}
    {read : (ts : List Token) → Result α (bound ts)} {a : α}
    (h : reader read ts = .ok (a, rest)) : rest.length < bound ts := by
  obtain ⟨p, _, heq⟩ := map_eq_ok.1 h
  cases heq
  exact p.shorter

theorem reader_ne_self (read : (ts : List Token) → Result α ts.length) (a : α) :
    reader read ts ≠ .ok (a, ts) :=
  fun h => Nat.lt_irrefl _ (length_of_reader h)

theorem bind_apply (x : Reader α) (f : α → Reader β) (ts : List Token) :
    (x >>= f) ts = x ts >>= fun p => f p.1 p.2 :=
  rfl

section

variable {x : Reader α} {f : α → Reader β}

theorem bind_ok {a : α} (h : x ts = .ok (a, rest)) : (x >>= f) ts = f a rest := by
  rw [bind_apply, h]
  rfl

theorem of_bind_ok {b : β} (h : (x >>= f) ts = .ok (b, rest)) :
    ∃ a mid, x ts = .ok (a, mid) ∧ f a mid = .ok (b, rest) := by
  obtain ⟨⟨a, mid⟩, ha, hb⟩ := bind_eq_ok.1 h
  exact ⟨a, mid, ha, hb⟩

theorem bind_error {failure : Failure} (h : x ts = .error failure) :
    (x >>= f) ts = .error failure := by
  rw [bind_apply, h]
  rfl

end

def token (what : Expectation) (read? : Token → Option α) : Reader α
  | [] => missing what []
  | t :: ts =>
    match read? t with
    | some a => .ok (a, ts)
    | none => missing what (t :: ts)

section

variable {what : Expectation} {read? : Token → Option α} {a : α}

theorem token_some (h : read? t = some a) : token what read? (t :: ts) = .ok (a, ts) := by
  simp only [token, h]

theorem token_none (h : read? t = none) :
    token what read? (t :: ts) = .error ⟨.expected what, t :: ts⟩ := by
  simp only [token, h, missing, fail]

theorem length_of_token (h : token what read? ts = .ok (a, rest)) : rest.length < ts.length := by
  cases ts with
  | nil => cases h
  | cons t ts =>
    cases ht : read? t with
    | some b =>
      cases (token_some ht).symm.trans h
      exact Nat.lt_succ_self _
    | none => cases (token_none ht).symm.trans h

end

def isSign? (s : Sign) (t : Token) : Option Unit :=
  if t = .sign s then some () else none

theorem reader_expect (s : Sign) (what : Expectation) :
    reader (expect s what) = token what (isSign? s) := by
  funext ts
  cases ts with
  | nil => rfl
  | cons t ts =>
    by_cases ht : t = .sign s <;>
      simp [reader, bare, expect, eat?, token, isSign?, ht, Except.map, missing, fail]

theorem eat?_of_ne {s : Sign} (h : ts.head? ≠ some (.sign s)) : eat? s ts = none := by
  cases ts with
  | nil => rfl
  | cons t ts => exact if_neg fun ht => h (congrArg some ht)

theorem reader_primary_nil : reader primary [] = .error ⟨.expected .expression, []⟩ := by
  unfold reader
  rw [primary]
  rfl

theorem reader_primary_parens : reader primary (.sign .openParen :: ts) =
    (do
      let e ← reader expression
      let _ ← reader (expect .closeParen .closeParen)
      return e : Reader Expr) ts := by
  unfold reader
  rw [primary]
  exact bare_bind fun _ _ _ => bare_bind fun _ _ _ => rfl

theorem reader_primary_array : reader primary (.sign .openBracket :: ts) =
    (do
      let items ← reader (expressions .closeBracket)
      return .array items : Reader Expr) ts := by
  unfold reader
  rw [primary]
  exact bare_bind fun _ _ _ => rfl

theorem reader_primary_object : reader primary (.sign .openBrace :: ts) =
    (do
      let es ← reader entries
      return .object es : Reader Expr) ts := by
  unfold reader
  rw [primary]
  exact bare_bind fun _ _ _ => rfl

theorem reader_primary_atom (h : t.opens = false) :
    reader primary (t :: ts) = token .expression atom? (t :: ts) := by
  unfold reader
  rw [primary]
  · simp only [token]
    cases atom? t <;> rfl
  all_goals
    rintro rfl
    cases h

def accessed (o : Expr) : Reader Expr := do
  let property ← token .propertyName propertyName?
  reader (accesses (.member o property))

theorem reader_accesses_dot (o : Expr) :
    reader (accesses o) (.sign .dot :: ts) = accessed o ts := by
  unfold reader
  cases ts with
  | nil =>
    rw [accesses]
    rfl
  | cons t ts =>
    rw [accesses]
    simp only [accessed, bind_apply, token]
    cases propertyName? t with
    | none => rfl
    | some property => exact bare_bind_last fun _ _ _ => rfl

theorem reader_accesses_index (o : Expr) : reader (accesses o) (.sign .openBracket :: ts) =
    (do
      let i ← reader expression
      let _ ← reader (expect .closeBracket .closeBracket)
      reader (accesses (.index o i)) : Reader Expr) ts := by
  unfold reader
  rw [accesses]
  exact bare_bind fun _ _ _ => bare_bind fun _ _ _ => bare_bind_last fun _ _ _ => rfl

theorem reader_accesses_call (o : Expr) : reader (accesses o) (.sign .openParen :: ts) =
    (do
      let args ← reader (expressions .closeParen)
      reader (accesses (.call o args)) : Reader Expr) ts := by
  unfold reader
  rw [accesses]
  exact bare_bind fun _ _ _ => bare_bind_last fun _ _ _ => rfl

theorem reader_accesses_none (o : Expr)
    (h : ∀ s : Sign, ts.head? = some (.sign s) → s.accesses = false) :
    reader (accesses o) ts = .ok (o, ts) := by
  unfold reader
  rw [accesses]
  · rfl
  all_goals
    intros
    next heq =>
      cases heq
      cases h _ rfl

theorem reader_unary_operator {op : UnaryOp} (h : unaryOp? t = some op) :
    reader unary (t :: ts) =
      (do
        let e ← reader unary
        return .unary op e : Reader Expr) ts := by
  unfold reader
  rw [unary]
  simp only [h]
  exact bare_bind fun _ _ _ => rfl

theorem reader_unary_none (h : ∀ t, ts.head? = some t → unaryOp? t = none) :
    reader unary ts =
      (do
        let o ← reader primary
        reader (accesses o) : Reader Expr) ts := by
  unfold reader
  cases ts with
  | nil =>
    rw [unary, bind_apply, primary]
    rfl
  | cons t ts =>
    rw [unary]
    simp only [h t rfl]
    exact bare_bind fun _ _ _ => bare_bind_last fun _ _ _ => rfl

section

variable {level : Level}

theorem reader_operand_of_tighter {next : Level} (h : level.tighter = some next) :
    reader (operand level) = reader (chain next) := by
  funext ts
  unfold reader
  rw [operand]
  split
  next h' =>
    cases h.symm.trans h'
    rfl
  next h' => cases h.symm.trans h'

theorem reader_operand_of_tightest (h : level.tighter = none) :
    reader (operand level) = reader unary := by
  funext ts
  unfold reader
  rw [operand]
  split
  next h' => cases h.symm.trans h'
  · rfl

theorem reader_chain (level : Level) : reader (chain level) =
    (do
      let e ← reader (operand level)
      reader (chainRest level e) : Reader Expr) := by
  funext ts
  unfold reader
  rw [chain]
  exact bare_bind fun _ _ _ => bare_bind_last fun _ _ _ => rfl

theorem reader_chainRest_operator {join : Expr → Expr → Expr} (l : Expr)
    (h : level.operator? t = some join) : reader (chainRest level l) (t :: ts) =
      (do
        let r ← reader (operand level)
        reader (chainRest level (join l r)) : Reader Expr) ts := by
  unfold reader
  rw [chainRest]
  simp only [h]
  exact bare_bind fun _ _ _ => bare_bind_last fun _ _ _ => rfl

theorem reader_chainRest_none (l : Expr)
    (h : ∀ t, ts.head? = some t → level.operator? t = none) :
    reader (chainRest level l) ts = .ok (l, ts) := by
  unfold reader
  cases ts with
  | nil =>
    rw [chainRest]
    rfl
  | cons t ts =>
    rw [chainRest]
    simp only [h t rfl]
    rfl

end

def choice (c : Expr) : Reader Expr
  | .sign .question :: ts =>
    (do
      let a ← reader expression
      let _ ← reader (expect .colon .colon)
      let b ← reader expression
      return .conditional c a b : Reader Expr) ts
  | ts => .ok (c, ts)

theorem choice_of_ne (c : Expr) (h : ts.head? ≠ some (.sign .question)) :
    choice c ts = .ok (c, ts) := by
  unfold choice
  split
  · exact absurd rfl h
  · rfl

theorem reader_conditional : reader conditional =
    (do
      let c ← reader (chain .or)
      choice c : Reader Expr) := by
  funext ts
  unfold reader
  rw [conditional]
  refine bare_bind fun c rest _ => ?_
  dsimp only
  split
  · exact bare_bind fun _ _ _ => bare_bind fun _ _ _ => bare_bind fun _ _ _ => rfl
  next hne =>
    refine (choice_of_ne c fun hhead => ?_).symm
    obtain ⟨ts', rfl⟩ := List.head?_eq_some_iff.1 hhead
    exact hne _ _ rfl HEq.rfl

def assigned (target : Expr) : Reader Expr
  | [] => .ok (target, [])
  | t :: ts =>
    match assignment? t with
    | none => .ok (target, t :: ts)
    | some op =>
      if target.isTarget then
        (do
          let value ← reader expression
          return .assign target op value : Reader Expr) ts
      else fail .invalidTarget (t :: ts)

section

variable {target : Expr} {op : Option BinaryOp}

theorem assigned_none (target : Expr) (h : ∀ t, ts.head? = some t → assignment? t = none) :
    assigned target ts = .ok (target, ts) := by
  cases ts with
  | nil => rfl
  | cons t ts => simp only [assigned, h t rfl]

theorem assigned_target (h : assignment? t = some op) (htarget : target.isTarget = true) :
    assigned target (t :: ts) =
      (do
        let value ← reader expression
        return .assign target op value : Reader Expr) ts := by
  simp only [assigned, h, htarget, if_true]

theorem assigned_invalid (h : assignment? t = some op) (htarget : target.isTarget ≠ true) :
    assigned target (t :: ts) = .error ⟨.invalidTarget, t :: ts⟩ := by
  simp only [assigned, h, if_neg htarget, fail]

end

theorem reader_expression : reader expression =
    (do
      let target ← reader conditional
      assigned target : Reader Expr) := by
  funext ts
  unfold reader
  rw [expression]
  refine bare_bind fun target rest _ => ?_
  cases rest with
  | nil => rfl
  | cons t rest =>
    simp only [assigned]
    cases assignment? t with
    | none => rfl
    | some op =>
      dsimp only
      split
      · exact bare_bind fun _ _ _ => rfl
      · rfl

def listed (close : Sign) (more : Reader (List α)) (a : α) : Reader (List α)
  | .sign .comma :: ts =>
    (do
      let as ← more
      return a :: as : Reader (List α)) ts
  | ts =>
    (do
      let _ ← reader (expect close (.listEnd close))
      return [a] : Reader (List α)) ts

theorem listed_of_ne (close : Sign) (more : Reader (List α)) (a : α)
    (h : ts.head? ≠ some (.sign .comma)) : listed close more a ts =
      (do
        let _ ← reader (expect close (.listEnd close))
        return [a] : Reader (List α)) ts := by
  unfold listed
  split
  · exact absurd rfl h
  · rfl

theorem reader_expressions_close (close : Sign) :
    reader (expressions close) (.sign close :: ts) = .ok ([], ts) := by
  unfold reader
  rw [expressions]
  obtain ⟨h, heat⟩ : ∃ h, eat? close (.sign close :: ts) = some ⟨(), ts, h⟩ := eat?_cons
  simp only [heat]
  rfl

theorem reader_expressions_item {close : Sign} (h : ts.head? ≠ some (.sign close)) :
    reader (expressions close) ts =
      (do
        let e ← reader expression
        listed close (reader (expressions close)) e : Reader (List Expr)) ts := by
  unfold reader
  rw [expressions]
  simp only [eat?_of_ne h]
  refine bare_bind fun e rest _ => ?_
  dsimp only
  split
  · exact bare_bind fun _ _ _ => rfl
  next hne =>
    rw [listed_of_ne]
    · exact bare_bind fun _ _ _ => rfl
    · intro hhead
      obtain ⟨ts', rfl⟩ := List.head?_eq_some_iff.1 hhead
      exact hne _ _ rfl HEq.rfl

theorem reader_entry : reader entry =
    (do
      let key ← token .propertyName entryKey?
      let _ ← reader (expect .colon .colon)
      let e ← reader expression
      return (key, e) : Reader (String × Expr)) := by
  funext ts
  unfold reader
  cases ts with
  | nil =>
    rw [entry]
    rfl
  | cons t ts =>
    rw [entry]
    simp only [bind_apply, token]
    cases entryKey? t with
    | none => rfl
    | some key => exact bare_bind fun _ _ _ => bare_bind fun _ _ _ => rfl

theorem reader_entries_close : reader entries (.sign .closeBrace :: ts) = .ok ([], ts) := by
  unfold reader
  rw [entries]
  rfl

theorem reader_entries_entry (h : ts.head? ≠ some (.sign .closeBrace)) : reader entries ts =
    (do
      let e ← reader entry
      listed .closeBrace (reader entries) e : Reader (List (String × Expr))) ts := by
  unfold reader
  rw [entries]
  simp only [eat?_of_ne h]
  refine bare_bind fun e rest _ => ?_
  dsimp only
  split
  · exact bare_bind fun _ _ _ => rfl
  next hne =>
    rw [listed_of_ne]
    · exact bare_bind fun _ _ _ => rfl
    · intro hhead
      obtain ⟨ts', rfl⟩ := List.head?_eq_some_iff.1 hhead
      exact hne _ _ rfl HEq.rfl

theorem reader_condition : reader condition =
    (do
      let _ ← reader (expect .openParen .openParen)
      let e ← reader expression
      let _ ← reader (expect .closeParen .closeParen)
      return e : Reader Expr) := by
  funext ts
  unfold reader
  rw [condition]
  exact bare_bind fun _ _ _ => bare_bind fun _ _ _ => bare_bind fun _ _ _ => rfl

theorem reader_initializer_value : reader initializer (.sign .assign :: ts) =
    (do
      let e ← reader expression
      return some e : Reader (Option Expr)) ts := by
  unfold reader
  rw [initializer]
  exact bare_bind fun _ _ _ => rfl

theorem reader_initializer_none (h : ts.head? ≠ some (.sign .assign)) :
    reader initializer ts = .ok (none, ts) := by
  unfold reader initializer
  split
  · exact absurd rfl h
  · rfl

def variableName? : Token → Option String
  | .name s => some s
  | _ => none

def declared (b : String × Option Expr) : Reader (List (String × Option Expr))
  | .sign .comma :: ts =>
    (do
      let bs ← reader bindings
      return b :: bs : Reader (List (String × Option Expr))) ts
  | ts => .ok ([b], ts)

theorem declared_of_ne (b : String × Option Expr) (h : ts.head? ≠ some (.sign .comma)) :
    declared b ts = .ok ([b], ts) := by
  unfold declared
  split
  · exact absurd rfl h
  · rfl

theorem reader_bindings : reader bindings =
    (do
      let s ← token .variableName variableName?
      let value ← reader initializer
      declared (s, value) : Reader (List (String × Option Expr))) := by
  funext ts
  unfold reader
  rw [bindings.eq_def]
  split
  next s ts =>
    simp only [bind_apply, token, variableName?]
    refine bare_bind fun value rest _ => ?_
    dsimp only
    split
    · exact bare_bind fun _ _ _ => rfl
    next hne =>
      refine (declared_of_ne _ fun hhead => ?_).symm
      obtain ⟨ts', rfl⟩ := List.head?_eq_some_iff.1 hhead
      exact hne _ _ rfl HEq.rfl
  next hne =>
    cases ts with
    | nil => rfl
    | cons t ts => cases t <;> first | rfl | exact absurd rfl (hne _ _)

def semicolon : Reader Unit :=
  fun ts => .ok ((), dropSemicolon ts)

def ending (f : α → Stmt) (x : Reader α) : Reader Stmt := do
  let a ← x
  semicolon
  return f a

theorem bare_map_ended (f : α → Stmt) (read : (ts : List Token) → Result α ts.length) :
    bare ((read ts).map (ended f)) = ending f (reader read) ts := by
  simp only [ending, bind_apply, reader]
  cases read ts <;> rfl

def returned : Reader (Option Expr) := fun ts =>
  if endsReturn ts then .ok (none, ts)
  else
    (do
      let e ← reader expression
      return some e : Reader (Option Expr)) ts

theorem reader_statement_nil : reader statement [] = .error ⟨.expected .statement, []⟩ := by
  unfold reader
  rw [statement]
  rfl

theorem reader_statement_declare {isConst : Bool} (h : Declarator t isConst) :
    reader statement (t :: ts) = ending (.declare isConst) (reader bindings) ts := by
  unfold reader
  cases h <;>
  · rw [statement]
    exact bare_map_ended _ _

theorem reader_statement_throw :
    reader statement (.keyword .throwK :: ts) = ending .throws (reader expression) ts := by
  unfold reader
  rw [statement]
  exact bare_map_ended _ _

theorem reader_statement_break :
    reader statement (.keyword .breakK :: ts) = ending (fun _ => .breakLoop) (pure ()) ts := by
  unfold reader
  rw [statement]
  rfl

theorem reader_statement_continue :
    reader statement (.keyword .continueK :: ts) = ending (fun _ => .continueLoop) (pure ()) ts := by
  unfold reader
  rw [statement]
  rfl

theorem reader_statement_empty :
    reader statement (.sign .semicolon :: ts) = .ok (.empty, ts) := by
  unfold reader
  rw [statement]
  rfl

theorem reader_statement_return :
    reader statement (.keyword .returnK :: ts) = ending .returns returned ts := by
  unfold reader
  rw [statement]
  simp only [ending, bind_apply, returned]
  split
  · rfl
  · cases h : expression ts <;> simp only [reader, h] <;> rfl

def otherwise (c : Expr) (s : Stmt) : Reader Stmt
  | .keyword .elseK :: ts =>
    (do
      let s' ← reader statement
      return .ifElse c s (some s') : Reader Stmt) ts
  | ts => .ok (.ifElse c s none, ts)

theorem otherwise_of_ne (c : Expr) (s : Stmt) (h : ts.head? ≠ some (.keyword .elseK)) :
    otherwise c s ts = .ok (.ifElse c s none, ts) := by
  unfold otherwise
  split
  · exact absurd rfl h
  · rfl

theorem reader_statement_if : reader statement (.keyword .ifK :: ts) =
    (do
      let c ← reader condition
      let s ← reader statement
      otherwise c s : Reader Stmt) ts := by
  unfold reader
  rw [statement]
  refine bare_bind fun c _ _ => bare_bind fun s rest _ => ?_
  dsimp only
  split
  · exact bare_bind fun _ _ _ => rfl
  next hne =>
    refine (otherwise_of_ne c s fun hhead => ?_).symm
    obtain ⟨ts', rfl⟩ := List.head?_eq_some_iff.1 hhead
    exact hne _ _ rfl HEq.rfl

theorem reader_statement_while : reader statement (.keyword .whileK :: ts) =
    (do
      let c ← reader condition
      let body ← reader statement
      return .whileLoop c body : Reader Stmt) ts := by
  unfold reader
  rw [statement]
  exact bare_bind fun _ _ _ => bare_bind fun _ _ _ => rfl

theorem reader_statement_block : reader statement (.sign .openBrace :: ts) =
    (do
      let body ← reader block
      return .block body : Reader Stmt) ts := by
  unfold reader
  rw [statement]
  exact bare_bind fun _ _ _ => rfl

theorem reader_statement_expression (h : t.leads = false) :
    reader statement (t :: ts) = ending .expr (reader expression) (t :: ts) := by
  unfold reader
  rw [statement]
  · exact bare_bind fun _ _ _ => rfl
  · exact List.cons_ne_nil _ _
  all_goals
    intro rest heq
    cases heq
    cases h

theorem reader_block_nil : reader block [] = .error ⟨.expected .closeBrace, []⟩ := by
  unfold reader
  rw [block]
  rfl

theorem reader_block_close : reader block (.sign .closeBrace :: ts) = .ok ([], ts) := by
  unfold reader
  rw [block]
  rfl

theorem reader_block_statement (h : t ≠ .sign .closeBrace) : reader block (t :: ts) =
    (do
      let s ← reader statement
      let body ← reader block
      return s :: body : Reader (List Stmt)) (t :: ts) := by
  have heat : eat? .closeBrace (t :: ts) = none := eat?_of_ne (by simpa using h)
  unfold reader
  rw [block]
  simp only [heat, reduceCtorEq, if_false]
  exact bare_bind fun _ _ _ => bare_bind fun _ _ _ => rfl

def readerProgram : Reader Program :=
  fun ts => (program ts).map (·, [])

theorem readerProgram_statement : readerProgram (t :: ts) =
    (do
      let s ← reader statement
      let body ← readerProgram
      return s :: body : Reader Program) (t :: ts) := by
  unfold readerProgram
  rw [program]
  simp only [reduceCtorEq, if_false, bind_apply, reader]
  rcases statement (t :: ts) with _ | ⟨s, rest, h⟩
  · rfl
  · cases h : program rest with
    | error => simp only [bare, Except.map, Bind.bind, Except.bind, h]
    | ok =>
      simp only [bare, Except.map, Bind.bind, Except.bind, h]
      rfl

end Parser

end LiveDoc.Script
