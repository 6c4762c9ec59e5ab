import LiveDoc.Proofs.ParseErrors

namespace LiveDoc.Script

open Grammar

namespace Parser

/-- What readers look for. Behind the word of a declaration stand its bindings, and behind the sign
that opens a block, a list or an object what is in it and the sign that closes it. -/
inductive Part : Type → Type
  | statement : Part Stmt
  | declaration (isConst : Bool) : Part Stmt
  | block : Part (List Stmt)
  | condition : Part Expr
  | expression : Part Expr
  | conditional : Part Expr
  | chain (level : Level) : Part Expr
  | unary : Part Expr
  | access : Part Expr
  | arguments : Part (List Expr)
  | elements : Part (List Expr)
  | entries : Part (List (String × Expr))
  | entry : Part (String × Expr)
  | property : Part String
  | primary : Part Expr

namespace Part

def reader : Part α → Reader α
  | statement => Parser.reader Parser.statement
  | declaration isConst => ending (.declare isConst) (Parser.reader bindings)
  | block => Parser.reader Parser.block
  | condition => Parser.reader Parser.condition
  | expression => Parser.reader Parser.expression
  | conditional => Parser.reader Parser.conditional
  | chain level => Parser.reader (Parser.chain level)
  | unary => Parser.reader Parser.unary
  | access => do
    let o ← Parser.reader Parser.primary
    Parser.reader (accesses o)
  | arguments => Parser.reader (expressions .closeParen)
  | elements => Parser.reader (expressions .closeBracket)
  | entries => Parser.reader Parser.entries
  | entry => Parser.reader Parser.entry
  | property => token .propertyName propertyName?
  | primary => Parser.reader Parser.primary

def close? : Part α → Option Sign
  | block | entries => some .closeBrace
  | condition | arguments => some .closeParen
  | elements => some .closeBracket
  | _ => none

variable {ts rest : List Token}

/-- What is found or fails is settled at a place behind the tokens that were taken. -/
theorem foresees (part : Part α) (ts : List Token) : ∃ S, Foresees S part.reader ts := by
  have hf := foresight ts.length
  cases part with
  | statement => exact ⟨_, foresees_statement ts⟩
  | declaration isConst => exact ⟨_, (foresees_bindings ts).ending _⟩
  | block => exact ⟨_, (statementForesight _).block_of_shorter⟩
  | condition => exact ⟨_, foresees_condition ts⟩
  | expression => exact ⟨_, foresees_expression ts⟩
  | conditional => exact ⟨_, hf.conditional⟩
  | chain level => exact ⟨_, hf.chain_of_operand (hf.operand_of_shorter level)⟩
  | unary => exact ⟨_, hf.unary_of_shorter⟩
  | access =>
    exact ⟨_, hf.primary.bind_nil (fun _ hk => hk) completes_accesses
      fun hfound => hf.accesses _ (length_of_reader hfound)⟩
  | arguments => exact ⟨_, hf.expressions_of_shorter (.inl rfl)⟩
  | elements => exact ⟨_, hf.expressions_of_shorter (.inr rfl)⟩
  | entries => exact ⟨_, hf.entries_of_shorter⟩
  | entry => exact ⟨_, hf.entry⟩
  | property => exact ⟨fun _ => True, foresees_token (t := someName) (a := "x") rfl ts⟩
  | primary => exact ⟨_, hf.primary⟩

theorem length_lt {part : Part α} {a : α} (h : part.reader ts = .ok (a, rest)) :
    rest.length < ts.length := by
  cases part with
  | declaration isConst =>
    obtain ⟨bs, mid, hbindings, hend⟩ := of_bind_ok h
    cases hend
    exact Nat.lt_of_le_of_lt (length_dropSemicolon_le mid) (length_of_reader hbindings)
  | access =>
    obtain ⟨o, mid, hprimary, haccesses⟩ := of_bind_ok h
    exact Nat.lt_of_le_of_lt (Nat.le_of_lt_succ (length_of_reader haccesses))
      (length_of_reader hprimary)
  | property => exact length_of_token h
  | _ => exact length_of_reader h

theorem parsed_of_reader {bound : List Token → Nat}
    {read : (ts : List Token) → Result α (bound ts)} {a : α}
    (h : Parser.reader read ts = .ok (a, rest)) : ∃ p, read ts = .ok p ∧ p.rest = rest := by
  obtain ⟨p, hp, heq⟩ := map_eq_ok.1 h
  exact ⟨p, hp, congrArg Prod.snd heq⟩

theorem getLast?_of_takes {d : List Token → Prop} {s : Sign} {used : List Token}
    (h : Takes (fun us => ∃ vs, us = vs ++ [.sign s] ∧ d vs) ts rest) (hts : ts = used ++ rest) :
    used.getLast? = some (.sign s) := by
  obtain ⟨us, hus, vs, rfl, -⟩ := h
  rw [List.append_cancel_right (hts.symm.trans hus)]
  exact List.getLast?_concat

theorem getLast?_of_reader {part : Part α} {a : α} {used : List Token}
    (h : part.reader ts = .ok (a, rest)) (hts : ts = used ++ rest) :
    part.close? = none ∨ used.getLast? = part.close?.map Token.sign := by
  have hr := reads ts.length
  cases part with
  | block =>
    obtain ⟨p, hp, rfl⟩ := parsed_of_reader h
    exact .inr (getLast?_of_takes ((readsStatements _).block_of_shorter hp) hts)
  | condition =>
    obtain ⟨p, hp, rfl⟩ := parsed_of_reader h
    obtain ⟨us, hus, vs, rfl, -⟩ := takes_condition hp
    have hclose : Takes (fun us => ∃ vs, us = vs ++ [.sign .closeParen] ∧ True) ts p.rest :=
      ⟨_, hus, .sign .openParen :: vs, rfl, trivial⟩
    exact .inr (getLast?_of_takes hclose hts)
  | arguments | elements =>
    obtain ⟨p, hp, rfl⟩ := parsed_of_reader h
    exact .inr (getLast?_of_takes (hr.expressions_of_shorter hp) hts)
  | entries =>
    obtain ⟨p, hp, rfl⟩ := parsed_of_reader h
    exact .inr (getLast?_of_takes (hr.entries_of_shorter hp) hts)
  | _ => exact .inl rfl

/-- A part is found behind the place where it begins, or fails there or behind. -/
theorem progress_of_reader (part : Part α) (ts : List Token) :
    (∃ a used rest, ts = used ++ rest ∧ used ≠ [] ∧ part.reader ts = .ok (a, rest) ∧
      (part.close? = none ∨ used.getLast? = part.close?.map Token.sign)) ∨
    ∃ cause used rest, ts = used ++ rest ∧ part.reader ts = .error ⟨cause, rest⟩ := by
  obtain ⟨S, hf⟩ := part.foresees ts
  cases h : part.reader ts with
  | ok found =>
    obtain ⟨a, rest⟩ := found
    obtain ⟨used, hts, -⟩ := hf.found h
    refine .inl ⟨a, used, rest, hts, ?_, rfl, getLast?_of_reader h hts⟩
    rintro rfl
    have hlt := length_lt h
    rw [hts, List.nil_append] at hlt
    exact absurd hlt (Nat.lt_irrefl _)
  | error failure =>
    obtain ⟨cause, rest⟩ := failure
    obtain ⟨used, hts, -⟩ := hf.failed h
    exact .inr ⟨cause, used, rest, hts, rfl⟩

end Part

theorem length_le_of_program {ts : List Token} {p : Program} (h : program ts = .ok p) :
    p.length ≤ ts.length :=
  program_induction (motive := fun ts p => p.length ≤ ts.length) (Nat.le_refl _)
    (fun {_ q _} _ hbody => Nat.lt_of_le_of_lt hbody q.shorter) h

end Parser

theorem exists_place {tokens used rest : List Token} {i : Fin (tokens.length + 1)}
    (h : tokens.drop i = used ++ rest) : ∃ j : Fin (tokens.length + 1),
      rest = tokens.drop j ∧ (j : Nat) = i + used.length ∧
        tokens.take j = tokens.take i ++ used := by
  have hlength := congrArg List.length h
  rw [List.length_drop, List.length_append] at hlength
  have hi := i.is_lt
  refine ⟨⟨i + used.length, by omega⟩, ?_, rfl, ?_⟩
  · rw [← List.drop_drop, h, List.drop_left]
  · rw [List.take_add, h, List.take_left]

/-- From any place on, every reader either finds its part and stops at a later place, which for a
block, a list or an object is the one behind its closing sign, or fails at a place that is not
earlier. A program is read to its end, with no more statements than tokens, or fails at some
place. -/
theorem progress :
    (∀ {α : Type} (part : Parser.Part α) (tokens : List Token) (i : Fin (tokens.length + 1)),
      (∃ a, ∃ j : Fin (tokens.length + 1), i < j ∧
        part.reader (tokens.drop i) = .ok (a, tokens.drop j) ∧
        (part.close? = none ∨ (tokens.take j).getLast? = part.close?.map Token.sign)) ∨
      ∃ cause, ∃ j : Fin (tokens.length + 1), i ≤ j ∧
        part.reader (tokens.drop i) = .error ⟨cause, tokens.drop j⟩) ∧
    ∀ tokens : List Token,
      (∃ p, Parser.program tokens = .ok p ∧ p.length ≤ tokens.length) ∨
      ∃ cause, ∃ j : Fin (tokens.length + 1),
        Parser.program tokens = .error ⟨cause, tokens.drop j⟩ := by
  constructor
  · intro α part tokens i
    rcases part.progress_of_reader (tokens.drop i) with
      ⟨a, used, rest, hts, hne, hread, hclose⟩ | ⟨cause, used, rest, hts, hread⟩
    · obtain ⟨j, rfl, hj, htake⟩ := exists_place hts
      have hpos := List.length_pos_iff.2 hne
      refine .inl ⟨a, j, by omega, hread, ?_⟩
      rwa [htake, List.getLast?_append, Option.or_of_isSome (List.getLast?_isSome.2 hne)]
    · obtain ⟨j, rfl, hj, -⟩ := exists_place hts
      exact .inr ⟨cause, j, by omega, hread⟩
  · intro tokens
    cases h : Parser.program tokens with
    | ok p => exact .inl ⟨p, rfl, Parser.length_le_of_program h⟩
    | error failure =>
      obtain ⟨cause, rest⟩ := failure
      obtain ⟨used, hts, -⟩ :=
        (Parser.foresees_program tokens).failed (Parser.readerProgram_eq_error.2 h)
      obtain ⟨j, rfl, -, -⟩ := exists_place (i := 0) hts
      exact .inr ⟨cause, j, rfl⟩

end LiveDoc.Script
