import LiveDoc.Proofs.Lookahead

namespace LiveDoc.Script

namespace Parser

inductive Closes : List Token → Prop
  | nil : Closes []
  | sign {s : Sign} (hs : s.closes = true) : Closes (.sign s :: ts)

inductive EndsBlock : List Token → Prop
  | nil : EndsBlock []
  | brace : EndsBlock (.sign .closeBrace :: ts)

variable {t : Token} {ts rest : List Token}

theorem EndsBlock.of_nil (h : ts = []) : EndsBlock ts := by
  rw [h]
  exact .nil

theorem EndsBlock.closes (h : EndsBlock ts) : Closes ts := by
  cases h with
  | nil => exact .nil
  | brace => exact .sign rfl

theorem Closes.of_head? (h : Closes ts) (ht : ts.head? = some t) :
    ∃ s : Sign, t = .sign s ∧ s.closes = true := by
  cases h with
  | nil => cases ht
  | sign hs => exact ⟨_, (Option.some.inj ht).symm, hs⟩

theorem Closes.head?_ne {s : Sign} (h : Closes ts) (hs : s.closes = false) :
    ts.head? ≠ some (.sign s) := by
  intro hhead
  obtain ⟨s', heq, hs'⟩ := h.of_head? hhead
  cases heq
  cases hs.symm.trans hs'

theorem EndsBlock.head?_ne (h : EndsBlock ts) (ht : t ≠ .sign .closeBrace) :
    ts.head? ≠ some t := by
  cases h with
  | nil => exact (Option.some_ne_none t).symm
  | brace => exact fun heq => ht (Option.some.inj heq).symm

section

variable {S : List Token → Prop} {x : Reader α} {more : List Token}

theorem completes_expect (s : Sign) (what : Expectation) :
    Completes S (reader (expect s what)) [.sign s] := by
  rw [reader_expect]
  exact completes_token (if_pos rfl)

theorem completes_after (s : Sign) (what : Expectation) (hx : Completes S x more) :
    Completes S (do let _ ← reader (expect s what); x) (.sign s :: more) :=
  (completes_expect (S := fun _ => True) s what).bind (fun _ => hx) fun _ _ => trivial

theorem foresees_expect (s : Sign) (what : Expectation) (ts : List Token) :
    Foresees S (reader (expect s what)) ts := by
  rw [reader_expect]
  exact foresees_token (t := .sign s) (if_pos rfl) ts

theorem foresees_after (s : Sign) (what : Expectation) (hmore : Completes S x more)
    (hx : ∀ {rest}, rest.length < ts.length → Foresees S x rest) :
    Foresees S (do let _ ← reader (expect s what); x) ts :=
  (foresees_expect (S := fun _ => True) s what ts).bind (fun _ _ => trivial)
    (fun _ => ⟨more, hmore, fun _ _ => trivial⟩) fun hfound => hx (length_of_reader hfound)

end

theorem accesses_of_closes (o : Expr) (h : Closes ts) : reader (accesses o) ts = .ok (o, ts) := by
  refine reader_accesses_none o fun s hhead => ?_
  obtain ⟨s', heq, hs'⟩ := h.of_head? hhead
  cases heq
  exact Sign.accesses_of_closes hs'

theorem completes_accesses (o : Expr) : Completes Closes (reader (accesses o)) [] :=
  ⟨o, fun _ => accesses_of_closes o⟩

theorem chainRest_of_closes (level : Level) (l : Expr) (h : Closes ts) :
    reader (chainRest level l) ts = .ok (l, ts) := by
  refine reader_chainRest_none l fun t hhead => ?_
  obtain ⟨s, rfl, hs⟩ := h.of_head? hhead
  exact Level.operator?_of_closes hs level

theorem completes_chainRest (level : Level) (l : Expr) :
    Completes Closes (reader (chainRest level l)) [] :=
  ⟨l, fun _ => chainRest_of_closes level l⟩

def someName : Token :=
  .name "x"

theorem completes_primary : Completes Closes (reader primary) [someName] :=
  (completes_token (a := Expr.name "x") rfl).congr fun _ => reader_primary_atom rfl

theorem completes_unary : Completes Closes (reader unary) [someName] := by
  have hunary : unaryOp? someName = none := rfl
  refine (completes_primary.bind completes_accesses fun _ hk => hk).congr fun k => reader_unary_none ?_
  simp [hunary]

theorem completes_operand (level : Level) :
    Completes Closes (reader (operand level)) [someName] := by
  cases hnext : level.tighter with
  | none =>
    rw [reader_operand_of_tightest hnext]
    exact completes_unary
  | some next =>
    have hheight := Level.height_of_tighter hnext
    rw [reader_operand_of_tighter hnext, reader_chain]
    exact (completes_operand next).bind (completes_chainRest next) fun _ hk => hk
termination_by level.height

theorem completes_choice (c : Expr) : Completes Closes (choice c) [] :=
  ⟨c, fun _ hk => choice_of_ne c (hk.head?_ne rfl)⟩

theorem assigned_of_closes (target : Expr) (h : Closes ts) :
    assigned target ts = .ok (target, ts) := by
  cases h with
  | nil => rfl
  | @sign _ s hs => cases s <;> first | rfl | cases hs

theorem completes_assigned (target : Expr) : Completes Closes (assigned target) [] :=
  ⟨target, fun _ => assigned_of_closes target⟩

theorem completes_expression : Completes Closes (reader expression) [someName] := by
  rw [reader_expression, reader_conditional, reader_chain]
  have hchain := (completes_operand .or).bind (completes_chainRest .or) fun _ hk => hk
  exact (hchain.bind completes_choice fun _ hk => hk).bind completes_assigned fun _ hk => hk

theorem head?_cases (read? : Token → Option α) (ts : List Token) :
    (∃ t rest a, ts = t :: rest ∧ read? t = some a) ∨ ∀ t, ts.head? = some t → read? t = none := by
  cases ts with
  | nil => exact .inr fun _ hhead => by cases hhead
  | cons t rest =>
    cases h : read? t with
    | some a => exact .inl ⟨t, rest, a, rfl, h⟩
    | none => exact .inr fun _ hhead => Option.some.inj hhead ▸ h

/-- The readers of expressions look one token ahead when there are fewer than `n` tokens. -/
structure Foresight (n : Nat) : Prop where
  accesses : ∀ (o : Expr) {ts : List Token}, ts.length < n →
    Foresees Closes (reader (accesses o)) ts
  unary : ∀ {ts : List Token}, ts.length < n → Foresees Closes (reader unary) ts
  operand : ∀ (level : Level) {ts : List Token}, ts.length < n →
    Foresees Closes (reader (operand level)) ts
  chainRest : ∀ (level : Level) (l : Expr) {ts : List Token}, ts.length < n →
    Foresees Closes (reader (chainRest level l)) ts
  expression : ∀ {ts : List Token}, ts.length < n → Foresees Closes (reader expression) ts
  expressions : ∀ {close : Sign}, IsListEnd close → ∀ {ts : List Token}, ts.length < n →
    Foresees Closes (reader (expressions close)) ts
  entries : ∀ {ts : List Token}, ts.length < n → Foresees Closes (reader entries) ts

theorem completes_listed {close : Sign} (more : Reader (List α)) (a : α) (hclose : close ≠ .comma)
    {S : List Token → Prop} : Completes S (listed close more a) [.sign close] :=
  (completes_after close (.listEnd close) (completes_pure [a])).congr fun _ =>
    listed_of_ne close more a (by simpa using hclose)

theorem foresees_listed {close : Sign} {more : Reader (List α)} (a : α) (hclose : close ≠ .comma)
    (hmore : ∀ {rest}, rest.length < ts.length → Foresees Closes more rest) :
    Foresees Closes (listed close more a) ts := by
  by_cases hcomma : ts.head? = some (.sign .comma)
  · obtain ⟨rest, rfl⟩ := List.head?_eq_some_iff.1 hcomma
    exact .cons (fun _ => rfl) ((hmore (Nat.lt_succ_self _)).map _)
  · have hlisted {ts' : List Token} (hhead : ts'.head? = ts.head?) : listed close more a ts' =
        (do let _ ← reader (expect close (.listEnd close)); return [a] : Reader (List α)) ts' :=
      listed_of_ne close more a (hhead ▸ hcomma)
    refine .congr (completes_listed more a hclose) (fun _ => hlisted) (fun as h => ?_) ?_
    · obtain ⟨_, mid, hmid, hrest⟩ := of_bind_ok ((hlisted rfl).symm.trans h)
      cases hrest
      exact reader_ne_self _ _ hmid
    · exact foresees_after _ _ (completes_pure [a]) fun _ => .pure _

namespace Foresight

theorem opened (hf : Foresight (t :: ts).length) (h : t.opens = true) :
    Foresees Closes (reader Parser.primary) (t :: ts) := by
  have hlt : ts.length < (t :: ts).length := Nat.lt_succ_self _
  cases t with
  | sign s =>
    cases s with
    | openParen =>
      refine .cons (fun _ => reader_primary_parens) ?_
      exact (hf.expression hlt).bind (fun _ hk => hk)
        (fun e => ⟨_, completes_after _ _ (completes_pure e), fun _ _ => .sign rfl⟩)
        fun _ => foresees_after _ _ (completes_pure _) fun _ => .pure _
    | openBracket =>
      exact .cons (fun _ => reader_primary_array) ((hf.expressions (.inr rfl) hlt).map _)
    | openBrace => exact .cons (fun _ => reader_primary_object) ((hf.entries hlt).map _)
    | _ => cases h
  | _ => cases h

theorem primary (hf : Foresight ts.length) : Foresees Closes (reader Parser.primary) ts := by
  cases ts with
  | nil => exact .fail_nil completes_primary reader_primary_nil
  | cons t ts =>
    cases hopens : t.opens with
    | true => exact hf.opened hopens
    | false =>
      have hatom (ts : List Token) : reader Parser.primary (t :: ts) =
          token .expression atom? (t :: ts) := reader_primary_atom hopens
      cases ht : atom? t with
      | some e => exact .cons (fun _ => (hatom _).trans (token_some ht)) (.pure e)
      | none => exact .fail_cons completes_primary fun _ => (hatom _).trans (token_none ht)

theorem accesses_of_shorter (hf : Foresight ts.length) (o : Expr) :
    Foresees Closes (reader (Parser.accesses o)) ts := by
  by_cases h : ∃ s rest, ts = .sign s :: rest ∧ s.accesses = true
  · obtain ⟨s, rest, rfl, hs⟩ := h
    have hlt : rest.length < (Token.sign s :: rest).length := Nat.lt_succ_self _
    cases s with
    | dot =>
      refine .cons (fun _ => reader_accesses_dot o) ?_
      refine (foresees_token (t := someName) (a := "x") rfl rest).bind_nil (fun _ hk => hk)
        (fun property => completes_accesses _) fun hfound => ?_
      exact hf.accesses _ (Nat.lt_trans (length_of_token hfound) hlt)
    | openBracket =>
      refine .cons (fun _ => reader_accesses_index o) ?_
      refine (hf.expression hlt).bind (fun _ hk => hk)
        (fun i => ⟨_, completes_after _ _ (completes_accesses _), fun _ _ => .sign rfl⟩)
        fun hfound => foresees_after _ _ (completes_accesses _) fun hlt' => ?_
      exact hf.accesses _ (Nat.lt_trans hlt' (Nat.lt_trans (length_of_reader hfound) hlt))
    | openParen =>
      refine .cons (fun _ => reader_accesses_call o) ?_
      refine (hf.expressions (.inl rfl) hlt).bind_nil (fun _ hk => hk)
        (fun args => completes_accesses _) fun hfound => ?_
      exact hf.accesses _ (Nat.lt_trans (length_of_reader hfound) hlt)
    | _ => cases hs
  · have hnone (s : Sign) (hhead : ts.head? = some (.sign s)) : s.accesses = false := by
      obtain ⟨rest, rfl⟩ := List.head?_eq_some_iff.1 hhead
      exact Bool.eq_false_iff.2 fun hs => h ⟨s, rest, rfl, hs⟩
    exact .stop (fun _ => accesses_of_closes o) fun ts' hhead =>
      reader_accesses_none o (hhead ▸ hnone)

theorem unary_of_shorter (hf : Foresight ts.length) : Foresees Closes (reader Parser.unary) ts := by
  obtain ⟨t, rest, op, rfl, hop⟩ | hnone := head?_cases unaryOp? ts
  · have hlt : rest.length < (t :: rest).length := Nat.lt_succ_self _
    exact .cons (fun _ => reader_unary_operator hop) ((hf.unary hlt).map _)
  · refine .congr completes_unary (fun ts' hhead => reader_unary_none (hhead ▸ hnone))
      (reader_ne_self _) ?_
    exact hf.primary.bind_nil (fun _ hk => hk) completes_accesses
      fun hfound => hf.accesses _ (length_of_reader hfound)

theorem chain_of_operand (hf : Foresight ts.length) {level : Level}
    (hoperand : Foresees Closes (reader (Parser.operand level)) ts) :
    Foresees Closes (reader (chain level)) ts := by
  rw [reader_chain]
  exact hoperand.bind_nil (fun _ hk => hk) (completes_chainRest level)
    fun hfound => hf.chainRest level _ (length_of_reader hfound)

theorem operand_of_shorter (hf : Foresight ts.length) (level : Level) :
    Foresees Closes (reader (Parser.operand level)) ts := by
  cases hnext : level.tighter with
  | none =>
    rw [reader_operand_of_tightest hnext]
    exact hf.unary_of_shorter
  | some next =>
    have hheight := Level.height_of_tighter hnext
    rw [reader_operand_of_tighter hnext]
    exact hf.chain_of_operand (hf.operand_of_shorter next)
termination_by level.height

theorem chainRest_of_shorter (hf : Foresight ts.length) (level : Level) (l : Expr) :
    Foresees Closes (reader (Parser.chainRest level l)) ts := by
  obtain ⟨t, rest, join, rfl, hjoin⟩ | hnone := head?_cases level.operator? ts
  · have hlt : rest.length < (t :: rest).length := Nat.lt_succ_self _
    refine .cons (fun _ => reader_chainRest_operator l hjoin) ?_
    exact (hf.operand level hlt).bind_nil (fun _ hk => hk)
      (fun r => completes_chainRest level _)
      fun hfound => hf.chainRest level _ (Nat.lt_trans (length_of_reader hfound) hlt)
  · exact .stop (fun _ => chainRest_of_closes level l) fun ts' hhead =>
      reader_chainRest_none l (hhead ▸ hnone)

theorem choice (hf : Foresight n) (hlt : ts.length < n) (c : Expr) :
    Foresees Closes (choice c) ts := by
  refine .optional (fun _ hk => hk.head?_ne rfl) (choice_of_ne c) (fun _ => rfl) fun hrest => ?_
  have hlt := Nat.lt_trans hrest hlt
  refine (hf.expression hlt).bind (fun _ hk => hk)
    (fun a => ⟨_, completes_after _ _ (completes_expression.map _), fun _ _ => .sign rfl⟩)
    fun hfound => foresees_after _ _ (completes_expression.map _) fun hlt' => ?_
  exact (hf.expression (Nat.lt_trans hlt' (Nat.lt_trans (length_of_reader hfound) hlt))).map _

theorem conditional (hf : Foresight ts.length) :
    Foresees Closes (reader Parser.conditional) ts := by
  rw [reader_conditional]
  exact (hf.chain_of_operand (hf.operand_of_shorter .or)).bind_nil (fun _ hk => hk)
    completes_choice
    fun hfound => hf.choice (length_of_reader hfound) _

theorem assigned (hf : Foresight n) (hlt : ts.length < n) (target : Expr) :
    Foresees Closes (assigned target) ts := by
  obtain ⟨t, rest, op, rfl, hop⟩ | hnone := head?_cases assignment? ts
  · by_cases htarget : target.isTarget = true
    · exact .cons (fun _ => assigned_target hop htarget)
        ((hf.expression (Nat.lt_of_succ_lt hlt)).map _)
    · exact .fail_cons (completes_assigned target) fun _ => assigned_invalid hop htarget
  · exact .stop (fun _ => assigned_of_closes target) fun ts' hhead =>
      assigned_none target (hhead ▸ hnone)

theorem expression_of_shorter (hf : Foresight ts.length) :
    Foresees Closes (reader Parser.expression) ts := by
  rw [reader_expression]
  exact hf.conditional.bind_nil (fun _ hk => hk)
    completes_assigned
    fun hfound => hf.assigned (length_of_reader hfound) _

theorem expressions_of_shorter (hf : Foresight ts.length) {close : Sign} (hclose : IsListEnd close) :
    Foresees Closes (reader (Parser.expressions close)) ts := by
  have hcomma : close ≠ .comma := by
    obtain rfl | rfl := hclose <;> simp
  have hcloses : close.closes = true := by
    obtain rfl | rfl := hclose <;> rfl
  by_cases h : ts.head? = some (.sign close)
  · obtain ⟨rest, rfl⟩ := List.head?_eq_some_iff.1 h
    exact .cons (fun _ => reader_expressions_close close) (.pure [])
  · refine .congr ((completes_pure []).cons fun _ => reader_expressions_close close)
      (fun ts' hhead => reader_expressions_item (hhead ▸ h)) (reader_ne_self _) ?_
    refine hf.expression_of_shorter.bind (fun _ hk => hk)
      (fun e => ⟨_, completes_listed _ e hcomma, fun _ _ => .sign hcloses⟩) fun hfound => ?_
    exact foresees_listed _ hcomma fun hlt =>
      hf.expressions hclose (Nat.lt_trans hlt (length_of_reader hfound))

theorem entry (hf : Foresight ts.length) : Foresees Closes (reader entry) ts := by
  rw [reader_entry]
  refine (foresees_token (t := someName) (a := "x") (S := fun _ => True) rfl ts).bind
    (fun _ _ => trivial)
    (fun key => ⟨_, completes_after _ _ (completes_expression.map _), fun _ _ => trivial⟩)
    fun hfound => foresees_after _ _ (completes_expression.map _) fun hlt => ?_
  exact (hf.expression (Nat.lt_trans hlt (length_of_token hfound))).map _

theorem entries_of_shorter (hf : Foresight ts.length) :
    Foresees Closes (reader Parser.entries) ts := by
  by_cases h : ts.head? = some (.sign .closeBrace)
  · obtain ⟨rest, rfl⟩ := List.head?_eq_some_iff.1 h
    exact .cons (fun _ => reader_entries_close) (.pure [])
  · refine .congr ((completes_pure []).cons fun _ => reader_entries_close)
      (fun ts' hhead => reader_entries_entry (hhead ▸ h)) (reader_ne_self _) ?_
    refine hf.entry.bind (fun _ hk => hk)
      (fun e => ⟨_, completes_listed _ e Sign.noConfusion, fun _ _ => .sign rfl⟩) fun hfound => ?_
    exact foresees_listed _ Sign.noConfusion fun hlt =>
      hf.entries (Nat.lt_trans hlt (length_of_reader hfound))

theorem mono {m n : Nat} (hf : Foresight n) (h : m ≤ n) : Foresight m where
  accesses o _ hlt := hf.accesses o (Nat.lt_of_lt_of_le hlt h)
  unary hlt := hf.unary (Nat.lt_of_lt_of_le hlt h)
  operand level _ hlt := hf.operand level (Nat.lt_of_lt_of_le hlt h)
  chainRest level l _ hlt := hf.chainRest level l (Nat.lt_of_lt_of_le hlt h)
  expression hlt := hf.expression (Nat.lt_of_lt_of_le hlt h)
  expressions hclose _ hlt := hf.expressions hclose (Nat.lt_of_lt_of_le hlt h)
  entries hlt := hf.entries (Nat.lt_of_lt_of_le hlt h)

end Foresight

theorem foresight (n : Nat) : Foresight n := by
  induction n with
  | zero => constructor <;> intros <;> contradiction
  | succ n ih =>
    have hshorter {ts : List Token} (hlt : ts.length < n + 1) : Foresight ts.length :=
      ih.mono (Nat.le_of_lt_succ hlt)
    exact {
      accesses := fun o _ hlt => (hshorter hlt).accesses_of_shorter o
      unary := fun hlt => (hshorter hlt).unary_of_shorter
      operand := fun level _ hlt => (hshorter hlt).operand_of_shorter level
      chainRest := fun level l _ hlt => (hshorter hlt).chainRest_of_shorter level l
      expression := fun hlt => (hshorter hlt).expression_of_shorter
      expressions := fun hclose _ hlt => (hshorter hlt).expressions_of_shorter hclose
      entries := fun hlt => (hshorter hlt).entries_of_shorter }

theorem foresees_expression (ts : List Token) : Foresees Closes (reader expression) ts :=
  (foresight _).expression_of_shorter

theorem foresees_condition (ts : List Token) : Foresees Closes (reader condition) ts := by
  rw [reader_condition]
  have hclose (e : Expr) := completes_after (S := Closes) .closeParen .closeParen (completes_pure e)
  refine foresees_after _ _ (completes_expression.bind hclose fun _ _ => .sign rfl) fun _ => ?_
  exact (foresees_expression _).bind (fun _ hk => hk) (fun e => ⟨_, hclose e, fun _ _ => .sign rfl⟩)
    fun _ => foresees_after _ _ (completes_pure _) fun _ => .pure _

theorem completes_initializer : Completes Closes (reader initializer) [] :=
  ⟨none, fun _ hk => reader_initializer_none (hk.head?_ne rfl)⟩

theorem foresees_initializer (ts : List Token) : Foresees Closes (reader initializer) ts :=
  .optional (fun _ hk => hk.head?_ne rfl) reader_initializer_none
    (fun _ => reader_initializer_value) fun _ => (foresees_expression _).map _

theorem completes_declared (b : String × Option Expr) : Completes EndsBlock (declared b) [] :=
  ⟨[b], fun _ hk => declared_of_ne b (hk.head?_ne (by simp))⟩

theorem foresees_declared (b : String × Option Expr)
    (hmore : ∀ {rest}, rest.length < ts.length → Foresees EndsBlock (reader bindings) rest) :
    Foresees EndsBlock (declared b) ts :=
  .optional (fun _ hk => hk.head?_ne (by simp)) (declared_of_ne b) (fun _ => rfl)
    fun hlt => (hmore hlt).map _

theorem foresees_bindings (ts : List Token) : Foresees EndsBlock (reader bindings) ts := by
  rw [reader_bindings]
  refine (foresees_token (t := someName) (a := "x") (S := Closes) rfl ts).bind
    (fun _ => EndsBlock.closes) (fun s => ⟨[], ?_, fun _ => EndsBlock.closes⟩) fun hname => ?_
  · exact completes_initializer.bind (fun value => completes_declared (s, value))
      fun _ => EndsBlock.closes
  · refine (foresees_initializer _).bind_nil (fun _ => EndsBlock.closes)
      (fun value => completes_declared _)
      fun hvalue => foresees_declared _ fun hrest => ?_
    have hlt := Nat.lt_of_lt_of_le hrest (Nat.le_of_lt_succ (length_of_reader hvalue))
    have hshorter := Nat.lt_trans hlt (length_of_token hname)
    exact foresees_bindings _
termination_by ts.length

theorem semicolon_of_ne (h : ts.head? ≠ some (.sign .semicolon)) : semicolon ts = .ok ((), ts) := by
  unfold semicolon dropSemicolon
  split
  · exact absurd rfl h
  · rfl

theorem completes_semicolon : Completes EndsBlock semicolon [] :=
  ⟨(), fun _ hk => semicolon_of_ne (hk.head?_ne (by simp))⟩

theorem foresees_semicolon (ts : List Token) : Foresees EndsBlock semicolon ts :=
  .optional (fun _ hk => hk.head?_ne (by simp)) semicolon_of_ne (fun _ => rfl) fun _ => .pure ()

theorem Foresees.ending (f : α → Stmt) {x : Reader α} (hx : Foresees EndsBlock x ts) :
    Foresees EndsBlock (ending f x) ts :=
  hx.bind_nil (fun _ hk => hk) (fun a => completes_semicolon.map fun _ => f a)
    fun _ => (foresees_semicolon _).map _

theorem endsReturn_congr {ts' : List Token} (h : ts'.head? = ts.head?) :
    endsReturn ts' = endsReturn ts := by
  cases ts with
  | nil => rw [List.head?_eq_none_iff.1 h]
  | cons t ts =>
    obtain ⟨rest, rfl⟩ := List.head?_eq_some_iff.1 h
    cases t with
    | sign s => cases s <;> rfl
    | _ => rfl

theorem returned_of_endsBlock (h : EndsBlock ts) : returned ts = .ok (none, ts) := by
  cases h <;> rfl

theorem completes_returned : Completes EndsBlock returned [] :=
  ⟨none, fun _ => returned_of_endsBlock⟩

theorem foresees_returned (ts : List Token) : Foresees EndsBlock returned ts := by
  cases h : endsReturn ts with
  | true =>
    refine .stop (fun _ => returned_of_endsBlock) fun ts' hhead => ?_
    simp only [returned, endsReturn_congr hhead, h, if_true]
  | false =>
    have hreturned {ts' : List Token} (hhead : ts'.head? = ts.head?) : returned ts' =
        (do let e ← reader expression; return some e : Reader (Option Expr)) ts' := by
      simp only [returned, endsReturn_congr hhead, h, Bool.false_eq_true, if_false]
    refine .congr completes_returned (fun _ => hreturned) (fun value hvalue => ?_)
      (((foresees_expression ts).mono fun _ => EndsBlock.closes).map _)
    obtain ⟨e, mid, he, hrest⟩ := of_bind_ok ((hreturned rfl).symm.trans hvalue)
    cases hrest
    exact reader_ne_self _ _ he

theorem completes_otherwise (c : Expr) (s : Stmt) : Completes EndsBlock (otherwise c s) [] :=
  ⟨.ifElse c s none, fun _ hk => otherwise_of_ne c s (hk.head?_ne (by simp))⟩

theorem completes_statement {S : List Token → Prop} :
    Completes S (reader statement) [.sign .semicolon] :=
  (completes_pure Stmt.empty).cons fun _ => reader_statement_empty

theorem completes_block {S : List Token → Prop} :
    Completes S (reader Parser.block) [.sign .closeBrace] :=
  (completes_pure []).cons fun _ => reader_block_close

structure StatementForesight (n : Nat) : Prop where
  statement : ∀ {ts : List Token}, ts.length < n → Foresees EndsBlock (reader statement) ts
  block : ∀ {ts : List Token}, ts.length < n → Foresees EndsBlock (reader block) ts

namespace StatementForesight

theorem otherwise (hf : StatementForesight n) (hlt : ts.length < n) (c : Expr) (s : Stmt) :
    Foresees EndsBlock (otherwise c s) ts :=
  .optional (fun _ hk => hk.head?_ne (by simp)) (otherwise_of_ne c s) (fun _ => rfl)
    fun hrest => (hf.statement (Nat.lt_trans hrest hlt)).map _

theorem ifElse (hf : StatementForesight n) (hlt : ts.length < n) :
    Foresees EndsBlock
      (do
        let c ← reader condition
        let s ← reader Parser.statement
        Parser.otherwise c s : Reader Stmt) ts := by
  refine (foresees_condition ts).bind (fun _ => EndsBlock.closes)
    (fun c => ⟨[.sign .semicolon], ?_, fun _ _ => .sign rfl⟩) fun hc => ?_
  · exact completes_statement.bind (completes_otherwise c) fun _ hk => hk
  · have hlt' := Nat.lt_trans (length_of_reader hc) hlt
    exact (hf.statement hlt').bind_nil (fun _ hk => hk)
      (fun s => completes_otherwise _ s)
      fun hs => hf.otherwise (Nat.lt_trans (length_of_reader hs) hlt') _ _

theorem whileLoop (hf : StatementForesight n) (hlt : ts.length < n) :
    Foresees EndsBlock
      (do
        let c ← reader condition
        let body ← reader Parser.statement
        return .whileLoop c body : Reader Stmt) ts :=
  (foresees_condition ts).bind (fun _ => EndsBlock.closes)
    (fun _ => ⟨_, completes_statement.map _, fun _ _ => .sign rfl⟩)
    fun hc => (hf.statement (Nat.lt_trans (length_of_reader hc) hlt)).map _

theorem led (hf : StatementForesight (t :: ts).length) (h : t.leads = true) :
    Foresees EndsBlock (reader Parser.statement) (t :: ts) := by
  have hlt : ts.length < (t :: ts).length := Nat.lt_succ_self _
  have hexpression : Foresees EndsBlock (reader expression) ts :=
    (foresees_expression ts).mono fun _ => EndsBlock.closes
  cases t with
  | keyword k =>
    cases k with
    | letK => exact .cons (fun _ => reader_statement_declare .let) ((foresees_bindings ts).ending _)
    | varK => exact .cons (fun _ => reader_statement_declare .var) ((foresees_bindings ts).ending _)
    | constK =>
      exact .cons (fun _ => reader_statement_declare .const) ((foresees_bindings ts).ending _)
    | returnK => exact .cons (fun _ => reader_statement_return) ((foresees_returned ts).ending _)
    | breakK => exact .cons (fun _ => reader_statement_break) (.ending _ (.pure ()))
    | continueK => exact .cons (fun _ => reader_statement_continue) (.ending _ (.pure ()))
    | throwK => exact .cons (fun _ => reader_statement_throw) (hexpression.ending _)
    | ifK => exact .cons (fun _ => reader_statement_if) (hf.ifElse hlt)
    | whileK => exact .cons (fun _ => reader_statement_while) (hf.whileLoop hlt)
    | _ => cases h
  | sign s =>
    cases s with
    | openBrace => exact .cons (fun _ => reader_statement_block) ((hf.block hlt).map _)
    | semicolon => exact .cons (fun _ => reader_statement_empty) (.pure Stmt.empty)
    | _ => cases h
  | _ => cases h

theorem statement_of_shorter (hf : StatementForesight ts.length) :
    Foresees EndsBlock (reader Parser.statement) ts := by
  cases ts with
  | nil => exact .fail_nil completes_statement reader_statement_nil
  | cons t ts =>
    cases ht : t.leads with
    | false =>
      refine .congr completes_statement (fun ts' hhead => ?_) (reader_ne_self _)
        (((foresees_expression _).mono fun _ => EndsBlock.closes).ending .expr)
      obtain ⟨rest, rfl⟩ := List.head?_eq_some_iff.1 hhead
      exact reader_statement_expression ht
    | true => exact hf.led ht

theorem block_of_shorter (hf : StatementForesight ts.length) :
    Foresees EndsBlock (reader Parser.block) ts := by
  cases ts with
  | nil => exact .fail_nil completes_block reader_block_nil
  | cons t ts =>
    by_cases ht : t = .sign .closeBrace
    · subst ht
      exact .cons (fun _ => reader_block_close) (.pure [])
    · refine .congr completes_block (fun ts' hhead => ?_) (reader_ne_self _)
        (hf.statement_of_shorter.bind (fun _ hk => hk)
          (fun s => ⟨_, completes_block.map (s :: ·), fun _ _ => .brace⟩)
          fun hs => (hf.block (length_of_reader hs)).map _)
      obtain ⟨rest, rfl⟩ := List.head?_eq_some_iff.1 hhead
      exact reader_block_statement ht

theorem mono {m n : Nat} (hf : StatementForesight n) (h : m ≤ n) : StatementForesight m where
  statement hlt := hf.statement (Nat.lt_of_lt_of_le hlt h)
  block hlt := hf.block (Nat.lt_of_lt_of_le hlt h)

end StatementForesight

theorem statementForesight (n : Nat) : StatementForesight n := by
  induction n with
  | zero => constructor <;> intros <;> contradiction
  | succ n ih =>
    have hshorter {ts : List Token} (hlt : ts.length < n + 1) : StatementForesight ts.length :=
      ih.mono (Nat.le_of_lt_succ hlt)
    exact {
      statement := fun hlt => (hshorter hlt).statement_of_shorter
      block := fun hlt => (hshorter hlt).block_of_shorter }

theorem foresees_statement (ts : List Token) : Foresees EndsBlock (reader statement) ts :=
  (statementForesight _).statement_of_shorter

theorem readerProgram_nil : readerProgram [] = .ok ([], []) := by
  unfold readerProgram
  rw [program]
  rfl

theorem readerProgram_of_nil (h : ts = []) : readerProgram ts = .ok ([], ts) := by
  rw [h, readerProgram_nil]

theorem completes_program : Completes (· = []) readerProgram [] :=
  ⟨[], fun _ => readerProgram_of_nil⟩

theorem foresees_program (ts : List Token) : Foresees (· = []) readerProgram ts := by
  cases ts with
  | nil => exact .stop (fun _ => readerProgram_of_nil) fun ts' hhead =>
      readerProgram_of_nil (List.head?_eq_none_iff.1 hhead)
  | cons t ts =>
    refine .congr completes_program (fun ts' hhead => ?_) (fun p hp => ?_)
      ((foresees_statement (t :: ts)).bind_nil (fun _ => EndsBlock.of_nil)
        (fun s => completes_program.map (s :: ·))
        fun hs => ?_)
    · obtain ⟨rest, rfl⟩ := List.head?_eq_some_iff.1 hhead
      exact readerProgram_statement
    · obtain ⟨_, _, heq⟩ := map_eq_ok.1 hp
      cases heq
    · have hshorter := length_of_reader hs
      exact (foresees_program _).map _
termination_by ts.length
decreasing_by exact hshorter

theorem readerProgram_eq_ok {p : Program} : readerProgram ts = .ok (p, []) ↔ program ts = .ok p := by
  unfold readerProgram
  cases program ts <;> simp [Except.map]

theorem readerProgram_eq_error {f : Failure} :
    readerProgram ts = .error f ↔ program ts = .error f := by
  unfold readerProgram
  cases program ts <;> simp [Except.map]

end Parser

theorem eq_append_of_take {used rest ts : List Token} {t : Token}
    (h : ts.take (used.length + 1) = (used ++ t :: rest).take (used.length + 1)) :
    ∃ rest', ts = used ++ t :: rest' := by
  have htake : (used ++ t :: rest).take (used.length + 1) = used ++ [t] := by
    rw [List.take_length_add_append]
    rfl
  refine ⟨ts.drop (used.length + 1), ?_⟩
  rw [← List.singleton_append, ← List.append_assoc, ← htake, ← h, List.take_append_drop]

/-- Where reading a program fails, the tokens before could have gone on to a program. All tokens that
begin with these and with the one it fails at, if there is one, fail there with the same message. -/
theorem first_impossible_token {ts : List Token} {f : Failure} (h : Parser.program ts = .error f) :
    ∃ i ≤ ts.length, f.rest = ts.drop i ∧
      (∃ more p, Parser.program (ts.take i ++ more) = .ok p) ∧
      (i < ts.length → ∀ ts' : List Token, ts'.take (i + 1) = ts.take (i + 1) →
        ∃ f', Parser.program ts' = .error f' ∧ f'.rest = ts'.drop i ∧ f'.text = f.text) := by
  obtain ⟨cause, rest⟩ := f
  obtain ⟨used, rfl, ⟨more, p, hmore⟩, hused⟩ :=
    (Parser.foresees_program ts).failed (Parser.readerProgram_eq_error.2 h)
  refine ⟨used.length, by simp, by simp, ⟨more, p, ?_⟩, fun hlt ts' htake => ?_⟩
  · have hprogram := Parser.readerProgram_eq_ok.1 (hmore [] rfl)
    simpa using hprogram
  · cases rest with
    | nil => simp at hlt
    | cons t rest =>
      obtain ⟨rest', rfl⟩ := eq_append_of_take htake
      have hfails := hused (List.cons_ne_nil _ _) (t :: rest') rfl
      exact ⟨⟨cause, t :: rest'⟩, Parser.readerProgram_eq_error.1 hfails, by simp, rfl⟩

/-- `if (a) 1` can go on, but not with an assignment, whatever is assigned. -/
theorem first_impossible_token_assign :
    let before : List Token :=
      [.keyword .ifK, .sign .openParen, .name "a", .sign .closeParen, .number (.int 1)]
    (∃ more p, Parser.program (before ++ more) = .ok p) ∧
      ∀ rest, ∃ f, Parser.program (before ++ .sign .assign :: rest) = .error f ∧
        f.rest = .sign .assign :: rest ∧ f.text = "invalid assignment target, found Assign" := by
  intro before
  have hfails : Parser.program (before ++ [.sign .assign, .name "b"]) =
      .error ⟨.invalidTarget, [.sign .assign, .name "b"]⟩ := by cbv
  obtain ⟨i, hi, hrest, hmore, hsame⟩ := first_impossible_token hfails
  obtain rfl : i = 5 := by
    have hlength := congrArg List.length hrest
    simp only [before, List.length_append, List.length_drop, List.length_cons, List.length_nil]
      at hi hlength
    omega
  exact ⟨hmore, fun rest => hsame (by decide) (before ++ .sign .assign :: rest) rfl⟩

end LiveDoc.Script
