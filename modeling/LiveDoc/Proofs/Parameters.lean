import LiveDoc.Proofs.Layout
import LiveDoc.Proofs.Policy
import LiveDoc.Proofs.ReadBack
import LiveDoc.Value.Compile

namespace LiveDoc

namespace Signal

variable {params : List String} {body : String}

theorem isName_of_params? {args : List Char} (h : params? args = some params) :
    ∀ name ∈ params, isName name.toList = true := by
  rw [params?] at h
  split at h
  · cases h
    simp
  · dsimp only at h
    split at h
    next hall =>
      cases h
      intro name hname
      obtain ⟨cs, hcs, rfl⟩ := List.mem_map.1 hname
      rw [String.toList_ofList]
      exact List.all_eq_true.1 hall cs hcs
    · cases h

theorem isName_of_function? {rest : List Char} (h : function? rest = some (.function params body)) :
    ∀ name ∈ params, isName name.toList = true := by
  simp only [function?] at h
  split at h
  · split at h
    · obtain ⟨names, hnames, heq⟩ := Option.map_eq_some_iff.1 h
      cases heq
      exact isName_of_params? hnames
    · cases h
  · cases h

theorem isName_of_detect {text : String} (h : detect text = .ok (some (.function params body))) :
    ∀ name ∈ params, isName name.toList = true := by
  simp only [detect] at h
  split at h
  · split at h
    next hsignal =>
      cases h
      exact isName_of_function? hsignal
    · cases h
  · split at h
    · split at h
      next hsignal =>
        cases h
        simp only [inclusion?] at hsignal
        split at hsignal
        · cases hsignal
        · split at hsignal <;> cases hsignal
      · cases h
    · cases h

end Signal

namespace Script

open Lexer

def returning (name : String) : String :=
  "return " ++ name ++ ";"

theorem tokens?_returning {name : String} (h : Signal.isName name.toList = true) :
    tokens? (returning name).toList =
      some [.keyword .returnK, word name.toList, .sign .semicolon] := by
  have hsplit : (returning name).toList = "return".toList ++ (' ' :: (name.toList ++ [';'])) := by
    simp [returning]
  have hreturn : Piece.longest? ("return".toList ++ (' ' :: (name.toList ++ [';']))) =
      some (.token (.keyword .returnK), 6) :=
    longest?_word (by decide) fun d hd => by cases hd; decide
  have hname : Piece.longest? (name.toList ++ [';']) =
      some (.token (word name.toList), name.toList.length) :=
    longest?_word h fun d hd => by cases hd; decide
  have hsemicolon : Piece.longest? ([';'] ++ []) = some (.token (.sign .semicolon), 1) := rfl
  have hnil : tokens? [] = some [] := by cbv
  rw [hsplit, tokens?_token hreturn, tokens?_blank (by decide), tokens?_token hname,
    ← List.append_nil [';'], tokens?_token hsemicolon, hnil]
  rfl

theorem toOption_ofSource_returning {name : String} (h : Signal.isName name.toList = true) :
    (Program.ofSource (returning name)).toOption =
      (Parser.program [.keyword .returnK, word name.toList, .sign .semicolon]).toOption := by
  obtain ⟨tokens, hok, heq⟩ := exists_tokenize_of_tokens? (tokens?_returning h)
  simp only [Program.ofSource, hok, heq]
  cases Parser.program [.keyword .returnK, word name.toList, .sign .semicolon] <;> rfl

/-- A word that is no keyword is read as a name. -/
theorem ofSource_returning {name : String} (h : Signal.isName name.toList = true)
    (hne : ∀ k : Keyword, k.text ≠ name) :
    Program.ofSource (returning name) = .ok [.returns (some (.name name))] := by
  have hread := toOption_ofSource_returning h
  have hwell : allWellFormed (fun _ => true) [.returns (some (.name name))] = true := rfl
  have hprogram : Parser.program [.keyword .returnK, .name name, .sign .semicolon] =
      .ok [.returns (some (.name name))] := Parser.program_tokensOfAll hwell
  rw [word_of_ne hne, hprogram] at hread
  cases hp : Program.ofSource (returning name) with
  | error e => simp [hp, Except.toOption] at hread
  | ok p => simpa [hp, Except.toOption] using hread

/-- A keyword is read as a literal or as `this`, or else it is an error. -/
theorem program_return_keyword (k : Keyword) :
    (Parser.program [.keyword .returnK, .keyword k, .sign .semicolon]).toOption =
      (Parser.atom? (.keyword k)).map fun e => [.returns (some e)] := by
  cases k <;> cbv

theorem Scope.get?_ofParams_of_not_mem {done : Scope} {names : List String} {args : List Value}
    {name : String} (h : name ∉ names) : (ofParams done names args).get? name = done.get? name := by
  induction names generalizing done args with
  | nil => rfl
  | cons first names ih =>
    simp only [List.mem_cons, not_or] at h
    obtain ⟨hne, hnames⟩ := h
    cases args with
    | nil => rw [ofParams, ih hnames, Slots.get?_put_of_ne _ _ hne]
    | cons v args => rw [ofParams, ih hnames, Slots.get?_put_of_ne _ _ hne]

theorem Scope.get?_ofParams {done : Scope} {names : List String} {args : List Value}
    (hnodup : names.Nodup) (i : Nat) (hi : i < names.length) :
    (ofParams done names args).get? names[i] = some ⟨args.getD i .undefined, false⟩ := by
  induction names generalizing done args i with
  | nil => cases hi
  | cons first names ih =>
    obtain ⟨hfirst, hnames⟩ := List.nodup_cons.1 hnodup
    cases i with
    | zero =>
      cases args <;>
        rw [ofParams, List.getElem_cons_zero, get?_ofParams_of_not_mem hfirst,
          Slots.get?_put_self] <;> rfl
    | succ i =>
      have hi' : i < names.length := by simpa using hi
      cases args <;> rw [ofParams, List.getElem_cons_succ, ih hnames i hi'] <;> rfl

theorem run_lookup {s : Locals} {name : String} {v : Value} (h : s.scopes.lookup name = .ok v) :
    Run.lookup name s = (.ok v, s) := by
  have hget : (get : Run Locals) s = (.ok s, s) := rfl
  simp only [Run.lookup, run_bind, hget, h]
  rfl

theorem runBody_returns {f : Frame} {scope : Scope} {e : Expr} {h : Heap} {v : Value}
    (he : eval f f.held e ⟨h, [scope]⟩ = (.ok v, ⟨h, [scope]⟩)) :
    runBody f scope [.returns (some e)] h = (.ok v, h) := by
  simp only [runBody, execAll, exec, run_bind, he]
  rfl

/-- The parameter at a place is bound: a body that returns it is one that can be read, and wherever
the function is called, it answers with the argument at this place, or with nothing if there is
none. -/
def Binds (params : List String) (i : Nat) (name : String) : Prop :=
  ∀ h : Heap, ∃ g h', h.compile params (returning name) = .ok (g, h') ∧
    ∀ fuel room depth held receiver args h, depth < maxCallDepth →
      invoke fuel (room + 1) depth held { g with receiver } args h =
        (.ok (args.getD i .undefined), h)

theorem binds_of_ne {params : List String} (hnodup : params.Nodup) {i : Nat}
    (hi : i < params.length) (hname : Signal.isName params[i].toList = true)
    (hne : ∀ k : Keyword, k.text ≠ params[i]) : Binds params i params[i] := by
  intro h
  have hcompile : h.compile params (returning params[i]) =
      .ok (h.define params (returning params[i]) [.returns (some (.name params[i]))]) := by
    rw [Heap.compile, ofSource_returning hname hne]
    rfl
  refine ⟨_, _, hcompile, fun fuel room depth held receiver args h' hd => ?_⟩
  have hfound : Scopes.lookup [Scope.ofParams [] params args] params[i] =
      .ok (args.getD i .undefined) := by
    rw [Scopes.lookup, Scopes.find?, Scope.get?_ofParams hnodup i hi]
  rw [invoke_of_lt hd]
  apply runBody_returns
  simp only [eval]
  exact run_lookup hfound

theorem ne_of_binds {params : List String} {i : Nat} {name : String}
    (hname : Signal.isName name.toList = true) (h : Binds params i name) (k : Keyword) :
    k.text ≠ name := by
  rintro rfl
  obtain ⟨g, h', hcompile, hcall⟩ := h ⟨#[], 0⟩
  have hread := toOption_ofSource_returning hname
  rw [word_text, program_return_keyword] at hread
  rw [Heap.compile] at hcompile
  cases hp : Program.ofSource (returning k.text) with
  | error e => simp [hp, Except.map] at hcompile
  | ok p =>
    simp only [hp, Except.map, Except.ok.injEq] at hcompile
    cases hcompile
    have hone := hcall 0 0 0 [] none (List.replicate (i + 1) (.number (.int 1))) ⟨#[], 0⟩
      (by decide)
    have harg : (List.replicate (i + 1) (Value.number (.int 1))).getD i .undefined =
        .number (.int 1) := by simp
    rw [harg] at hone
    cases ha : Parser.atom? (.keyword k) with
    | none => simp [hp, ha, Except.toOption] at hread
    | some e =>
      obtain rfl : p = [.returns (some e)] := by simpa [hp, ha, Except.toOption] using hread
      -- Whatever a keyword stands for, it is not the number that came as the argument.
      cases k <;> cases ha <;> cases hone

/-- The parameters that a signal gives are all bound, except for those that are keywords. -/
theorem parameters_bind (text body : String) (params : List String)
    (hdetect : Signal.detect text = .ok (some (.function params body))) (hnodup : params.Nodup)
    (i : Nat) (hi : i < params.length) :
    Binds params i params[i] ↔ ∀ k : Keyword, k.text ≠ params[i] := by
  have hname := Signal.isName_of_detect hdetect params[i] (List.getElem_mem hi)
  exact ⟨ne_of_binds hname, binds_of_ne hnodup hi hname⟩

theorem second_parameter_binds :
    Signal.detect "__YAML_SCRIPT_FN__(a, b) return b;" =
        .ok (some (.function ["a", "b"] " return b;")) ∧
      ["a", "b"].Nodup ∧ 1 < ["a", "b"].length ∧ (∀ k : Keyword, k.text ≠ "b") ∧
      Binds ["a", "b"] 1 "b" := by
  have hdetect : Signal.detect "__YAML_SCRIPT_FN__(a, b) return b;" =
      .ok (some (.function ["a", "b"] " return b;")) := by decide
  have hne : ∀ k : Keyword, k.text ≠ "b" := by
    intro k
    cases k <;> decide
  have hbinds := (parameters_bind _ _ _ hdetect (by decide) 1 (by decide)).2 hne
  exact ⟨hdetect, by decide, by decide, hne, hbinds⟩

/-- A parameter that is a keyword is not: the body answers with what the keyword stands for. -/
theorem null_parameter :
    Signal.detect "__YAML_SCRIPT_FN__(null) return null;" =
        .ok (some (.function ["null"] " return null;")) ∧
      ∃ g h, Heap.compile ⟨#[], 0⟩ ["null"] (returning "null") = .ok (g, h) ∧
        hostCall 0 0 [] g [.number (.int 1)] h = (.ok .null, h) := by
  have hsource : Program.ofSource (returning "null") = .ok [.returns (some .null)] := by cbv
  refine ⟨by decide, ?_⟩
  rw [Heap.compile, hsource]
  exact ⟨_, _, rfl, rfl⟩

end Script

end LiveDoc
