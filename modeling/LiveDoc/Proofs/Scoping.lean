import LiveDoc.Proofs.Keeps
import LiveDoc.Script.Eval
import Mathlib.Data.List.Forall2

namespace LiveDoc.Script

namespace Scope

/-- What was declared as a constant is one still, with the same value. -/
def KeepsConstants (scope scope' : Scope) : Prop :=
  ∀ name b, scope.get? name = some b → b.isConst = true → scope'.get? name = some b

/-- No name has come or gone, and no constant has changed. -/
structure Stays (scope scope' : Scope) : Prop where
  keys_eq : Slots.keys scope' = Slots.keys scope
  constants : scope.KeepsConstants scope'

/-- Names may have come, none has gone, and no constant has changed. -/
structure Grows (scope scope' : Scope) : Prop where
  keys_prefix : Slots.keys scope <+: Slots.keys scope'
  constants : scope.KeepsConstants scope'

section

variable {scope scope' scope'' : Scope} {name : String} {b : Binding}

theorem KeepsConstants.trans (h : scope.KeepsConstants scope')
    (h' : scope'.KeepsConstants scope'') : scope.KeepsConstants scope'' :=
  fun name b hb hconst => h' name b (h name b hb hconst) hconst

theorem KeepsConstants.put (hvar : ∀ c, scope.get? name = some c → c.isConst = false)
    (b : Binding) : scope.KeepsConstants (Slots.put scope name b) := by
  intro other c hc hconst
  have hne : other ≠ name := by
    rintro rfl
    rw [hvar c hc] at hconst
    cases hconst
  exact (Slots.get?_put_of_ne scope b hne).trans hc

instance : IsPreorder Scope Stays where
  refl _ := ⟨rfl, fun _ _ hb _ => hb⟩
  trans _ _ _ h h' := ⟨h'.keys_eq.trans h.keys_eq, h.constants.trans h'.constants⟩

instance : IsPreorder Scope Grows where
  refl _ := ⟨List.prefix_rfl, fun _ _ hb _ => hb⟩
  trans _ _ _ h h' := ⟨h.keys_prefix.trans h'.keys_prefix, h.constants.trans h'.constants⟩

theorem Stays.grows (h : scope.Stays scope') : scope.Grows scope' :=
  ⟨h.keys_eq ▸ List.prefix_rfl, h.constants⟩

theorem Stays.put (hb : scope.get? name = some b) (hvar : b.isConst = false) (c : Binding) :
    scope.Stays (Slots.put scope name c) := by
  constructor
  · rw [Slots.keys_put, if_pos (Slots.mem_keys_of_get? hb)]
  · apply KeepsConstants.put
    intro d hd
    cases hb.symm.trans hd
    exact hvar

theorem Grows.put (hvar : ∀ c, scope.get? name = some c → c.isConst = false) (b : Binding) :
    scope.Grows (Slots.put scope name b) := by
  constructor
  · rw [Slots.keys_put]
    split
    · exact List.prefix_rfl
    · exact List.prefix_append _ _
  · exact .put hvar b

end

end Scope

namespace Scopes

/-- No scope has come or gone, and each is as it was, variables aside. -/
def Stay : Scopes → Scopes → Prop :=
  List.Forall₂ Scope.Stays

/-- Names may have come into the innermost scope. -/
inductive Grow : Scopes → Scopes → Prop
  | none : Grow [] []
  | innermost (hscope : Scope.Grows scope scope') (houter : Stay outer outer') :
    Grow (scope :: outer) (scope' :: outer')

section

variable {scopes scopes' scopes'' : Scopes} {name : String} {v : Value}

theorem Stay.trans (h : Stay scopes scopes') (h' : Stay scopes' scopes'') :
    Stay scopes scopes'' := by
  induction h generalizing scopes'' with
  | nil => exact h'
  | cons hscope _ ih =>
    cases h' with
    | cons hscope' houter' => exact .cons (trans_of Scope.Stays hscope hscope') (ih houter')

instance : IsPreorder Scopes Stay where
  refl := List.forall₂_refl
  trans _ _ _ := Stay.trans

instance : IsPreorder Scopes Grow where
  refl
    | [] => .none
    | scope :: outer => .innermost (refl_of Scope.Grows scope) (refl_of Stay outer)
  trans _ _ _ h h' := by
    cases h with
    | none => exact h'
    | innermost hscope houter =>
      cases h' with
      | innermost hscope' houter' =>
        exact .innermost (trans_of Scope.Grows hscope hscope') (houter.trans houter')

theorem Stay.grow (h : Stay scopes scopes') : Grow scopes scopes' := by
  cases h with
  | nil => exact .none
  | cons hscope houter => exact .innermost hscope.grows houter

theorem stay_of_assign (h : scopes.assign name v = .ok scopes') : Stay scopes scopes' := by
  induction scopes generalizing scopes' with
  | nil => cases h
  | cons scope outer ih =>
    rw [assign] at h
    split at h
    next b hb =>
      split at h
      next => cases h
      next hvar =>
        cases h
        exact .cons (.put hb (by simpa using hvar) _) (refl_of Stay outer)
    next =>
      cases houter : assign name v outer with
      | error e => simp [houter, Except.map] at h
      | ok outer' =>
        simp only [houter, Except.map, Except.ok.injEq] at h
        subst h
        exact .cons (refl_of Scope.Stays scope) (ih houter)

theorem grow_of_declare {isConst : Bool} (h : scopes.declare name v isConst = .ok scopes') :
    Grow scopes scopes' := by
  cases scopes with
  | nil => cases h
  | cons scope outer =>
    rw [declare] at h
    split at h
    next => cases h
    next hvar =>
      cases h
      refine .innermost (.put ?_ _) (refl_of Stay outer)
      intro c hc
      simpa [hc] using hvar

end

end Scopes

/-- However the run ends, the scopes after it are related to those before it. -/
def Run.Moves (R : Scopes → Scopes → Prop) (act : Run α) : Prop :=
  ∀ s, R s.scopes (act s).2.scopes

namespace Run.Moves

variable {R : Scopes → Scopes → Prop}

theorem get_bind {next : Locals → Run β} (hn : ∀ s, Moves R (next s)) :
    Moves R (get >>= next) :=
  fun s => hn s s

theorem imp {S : Scopes → Scopes → Prop} {act : Run α} (h : Moves R act)
    (hRS : ∀ scopes scopes', R scopes scopes' → S scopes scopes') : Moves S act :=
  fun s => hRS _ _ (h s)

variable [IsPreorder Scopes R]

theorem pure (a : α) : Moves R (Pure.pure a : Run α) :=
  fun s => refl_of R s.scopes

theorem throw (e : Interrupt) : Moves R (MonadExcept.throw e : Run α) :=
  fun s => refl_of R s.scopes

theorem bind {act : Run α} {next : α → Run β} (h : Moves R act) (hn : ∀ a, Moves R (next a)) :
    Moves R (act >>= next) := by
  intro s
  have hs := h s
  rw [run_bind]
  cases hr : act s with
  | mk result s' =>
    rw [hr] at hs
    cases result with
    | ok a => exact trans_of R hs (hn a s')
    | error e => exact hs

theorem onHeap (act : HeapRun α) : Moves R (Run.onHeap act) :=
  fun s => refl_of R s.scopes

theorem onScopes {change : Scopes → Except RuntimeError Scopes}
    (h : ∀ {scopes scopes'}, change scopes = .ok scopes' → R scopes scopes') :
    Moves R (Run.onScopes change) := by
  intro s
  rw [Run.onScopes, run_get_bind]
  cases hchange : change s.scopes with
  | ok scopes => exact h hchange
  | error e => exact refl_of R s.scopes

/-- A block leaves no scope behind, and no name. -/
theorem inBlock {act : Run α} (h : Moves Scopes.Grow act) :
    Moves Scopes.Stay (Run.inBlock act) := by
  intro s
  have hinner := h { s with scopes := [] :: s.scopes }
  change Scopes.Stay s.scopes (act { s with scopes := [] :: s.scopes }).2.scopes.tail
  generalize (act { s with scopes := [] :: s.scopes }).2.scopes = scopes at hinner
  cases hinner with
  | innermost _ houter => exact houter

theorem lookup (name : String) : Moves R (Run.lookup name) := by
  apply get_bind
  intro s
  split
  next v _ => exact pure v
  next e _ => exact throw _

theorem propertyName (v : Value) : Moves R (Run.propertyName v) :=
  get_bind fun _ => onHeap _

theorem applyBinary (op : BinaryOp) (a b : Value) : Moves R (Run.applyBinary op a b) :=
  get_bind fun _ => onHeap _

variable {f : Frame} {depth : Nat} {held : List Ref} {object : Value} {name : String}

theorem getProperty : Moves R (Run.getProperty f depth held object name) :=
  get_bind fun _ => onHeap _

theorem setProperty {v : Value} : Moves R (Run.setProperty f depth held object name v) :=
  get_bind fun _ => onHeap _

theorem call {callee : Value} {args : List Value} :
    Moves R (Run.call f depth held callee args) := by
  cases callee with
  | function g => exact get_bind fun _ => onHeap _
  | _ => exact throw _

variable {op : Option BinaryOp} {right : List Ref → Run Value}

theorem assigned {current : Run Value} (hc : Moves R current) (hr : ∀ held, Moves R (right held)) :
    Moves R (Run.assigned held op current right) := by
  cases op with
  | none => exact hr held
  | some op => exact hc.bind fun left => (hr _).bind fun v => applyBinary op left v

theorem assignName (hr : ∀ held, Moves Scopes.Stay (right held)) :
    Moves Scopes.Stay (Run.assignName held name op right) := by
  apply (assigned (lookup name) hr).bind
  intro v
  have hassign : Moves Scopes.Stay (Run.onScopes (Scopes.assign name v)) :=
    onScopes Scopes.stay_of_assign
  exact hassign.bind fun _ => pure v

theorem assignProperty (hr : ∀ held, Moves R (right held)) :
    Moves R (Run.assignProperty f held object name op right) := by
  apply (assigned getProperty hr).bind
  intro v
  exact setProperty.bind fun _ => pure v

end Run.Moves

open Run (Moves)

mutual

theorem moves_eval (f : Frame) (held : List Ref) (e : Expr) :
    Moves Scopes.Stay (eval f held e) := by
  match e with
  | .number _ | .text _ | .bool _ | .null | .undefined | .this =>
    simp only [eval]
    exact .pure _
  | .name s =>
    simp only [eval]
    exact .lookup s
  | .array items =>
    simp only [eval]
    exact (moves_evalAll f held items).bind fun _ => .onHeap _
  | .object entries =>
    simp only [eval]
    exact (moves_evalEntries f held [] entries).bind fun _ => .onHeap _
  | .member object property =>
    simp only [eval]
    exact (moves_eval f held object).bind fun _ => .getProperty
  | .index object index =>
    simp only [eval]
    apply (moves_eval f held object).bind
    intro o
    apply (moves_eval f (hold held o) index).bind
    intro i
    exact Moves.bind (.propertyName i) fun _ => .getProperty
  | .call callee args =>
    simp only [eval]
    apply (moves_eval f held callee).bind
    intro c
    exact (moves_evalAll f (hold held c) args).bind fun _ => .call
  | .unary op operand =>
    simp only [eval]
    exact (moves_eval f held operand).bind fun v => .pure (op.apply v)
  | .binary op left right =>
    simp only [eval]
    apply (moves_eval f held left).bind
    intro l
    exact (moves_eval f (hold held l) right).bind fun r => .applyBinary op l r
  | .logical op left right =>
    simp only [eval]
    apply (moves_eval f held left).bind
    intro l
    split
    · exact .pure l
    · exact moves_eval f (hold held l) right
  | .conditional condition thenExpr elseExpr =>
    simp only [eval]
    apply (moves_eval f held condition).bind
    intro c
    split
    · exact moves_eval f held thenExpr
    · exact moves_eval f held elseExpr
  | .assign target op value =>
    have hr : ∀ held, Moves Scopes.Stay (eval f held value) := fun held => moves_eval f held value
    match target with
    | .name s =>
      simp only [eval]
      exact .assignName hr
    | .member object property =>
      simp only [eval]
      exact (moves_eval f held object).bind fun _ => .assignProperty hr
    | .index object index =>
      simp only [eval]
      apply (moves_eval f held object).bind
      intro o
      apply (moves_eval f (hold held o) index).bind
      intro i
      exact Moves.bind (.propertyName i) fun _ => .assignProperty hr
    | .number _ | .text _ | .bool _ | .null | .undefined | .this | .array _ | .object _
    | .call _ _ | .unary _ _ | .binary _ _ _ | .logical _ _ _ | .conditional _ _ _
    | .assign _ _ _ =>
      simp only [eval]
      exact .throw _

theorem moves_evalAll (f : Frame) (held : List Ref) (es : List Expr) :
    Moves Scopes.Stay (evalAll f held es) := by
  match es with
  | [] =>
    simp only [evalAll]
    exact .pure _
  | e :: es =>
    simp only [evalAll]
    apply (moves_eval f held e).bind
    intro v
    exact (moves_evalAll f (hold held v) es).bind fun _ => .pure _

theorem moves_evalEntries (f : Frame) (held : List Ref) (done : Entries)
    (es : List (String × Expr)) : Moves Scopes.Stay (evalEntries f held done es) := by
  match es with
  | [] =>
    simp only [evalEntries]
    exact .pure _
  | (key, e) :: rest =>
    simp only [evalEntries]
    apply (moves_eval f (done.values.foldl hold held) e).bind
    intro v
    exact moves_evalEntries f held (done.put key v) rest

end

/-- An expression brings no names, and so does not stand in the way of those that a statement
brings. -/
theorem grow_eval (f : Frame) (e : Expr) : Moves Scopes.Grow (eval f f.held e) :=
  (moves_eval f f.held e).imp fun _ _ => Scopes.Stay.grow

theorem grow_loop {condition : Run Value} {body : Run Flow} (hc : Moves Scopes.Grow condition)
    (hb : Moves Scopes.Grow body) (fuel : Nat) : Moves Scopes.Grow (loop condition body fuel) := by
  induction fuel with
  | zero => exact .throw _
  | succ fuel ih =>
    rw [loop]
    apply hc.bind
    intro c
    split
    · apply hb.bind
      intro flow
      cases flow with
      | breaks | returns => exact .pure _
      | normal | continues => exact ih
    · exact .pure _

theorem grow_declareAll (f : Frame) (isConst : Bool) (bindings : List (String × Option Expr)) :
    Moves Scopes.Grow (declareAll f isConst bindings) := by
  induction bindings with
  | nil => exact .pure _
  | cons binding rest ih =>
    cases binding with
    | mk name init =>
      have hinit : Moves Scopes.Grow (init.elim (pure .undefined) (eval f f.held)) := by
        cases init with
        | none => exact .pure _
        | some e => exact grow_eval f e
      rw [declareAll]
      apply hinit.bind
      intro v
      exact Moves.bind (.onScopes Scopes.grow_of_declare) fun _ => ih

mutual

theorem grow_exec (f : Frame) (s : Stmt) : Moves Scopes.Grow (exec f s) := by
  match s with
  | .declare isConst bindings =>
    simp only [exec]
    exact (grow_declareAll f isConst bindings).bind fun _ => .pure _
  | .returns none | .breakLoop | .continueLoop | .empty =>
    simp only [exec]
    exact .pure _
  | .returns (some e) | .expr e =>
    simp only [exec]
    exact (grow_eval f e).bind fun _ => .pure _
  | .ifElse condition thenStmt none =>
    simp only [exec]
    apply (grow_eval f condition).bind
    intro c
    split
    · exact grow_exec f thenStmt
    · exact .pure _
  | .ifElse condition thenStmt (some elseStmt) =>
    simp only [exec]
    apply (grow_eval f condition).bind
    intro c
    split
    · exact grow_exec f thenStmt
    · exact grow_exec f elseStmt
  | .whileLoop condition body =>
    simp only [exec]
    exact grow_loop (grow_eval f condition) (grow_exec f body) f.fuel
  | .throws e =>
    simp only [exec]
    apply (grow_eval f e).bind
    intro v
    apply Moves.get_bind
    intro s
    exact Moves.bind (.onHeap _) fun _ => .throw _
  | .block body =>
    simp only [exec]
    exact (Moves.inBlock (grow_execAll f body)).imp fun _ _ => Scopes.Stay.grow

theorem grow_execAll (f : Frame) (body : Program) : Moves Scopes.Grow (execAll f body) := by
  match body with
  | [] =>
    simp only [execAll]
    exact .pure _
  | s :: rest =>
    simp only [execAll]
    apply (grow_exec f s).bind
    intro flow
    cases flow with
    | normal => exact grow_execAll f rest
    | returns | breaks | continues => exact .pure _

end

/-- However a statement ends, the scopes that were there are there, and no other. Names may have
come into the innermost one only, and whatever was a constant in any of them is one with the same
value. An expression does not even bring names, whatever the functions do that it calls. -/
theorem scopes_after (f : Frame) (s : Locals) :
    (∀ stmt : Stmt, Scopes.Grow s.scopes (exec f stmt s).2.scopes) ∧
      ∀ (held : List Ref) (e : Expr), Scopes.Stay s.scopes (eval f held e s).2.scopes :=
  ⟨fun stmt => grow_exec f stmt s, fun held e => moves_eval f held e s⟩

/-- A block in a loop fails behind its declaration, and only what it assigned outside of it is
left. -/
example (f : Frame) :
    let scopes (v : String) : Scopes := [[("k", ⟨.text "a", true⟩), ("n", ⟨.text v, false⟩)]]
    let body : Stmt := .block [.declare false [("k", some (.name "n"))],
      .expr (.assign (.name "n") none (.text "c")), .throws (.name "k")]
    exec { f with fuel := 1 } (.whileLoop (.bool true) body) ⟨{}, scopes "b"⟩ =
      (.error (.error (.thrown "b")), ⟨{}, scopes "c"⟩) :=
  rfl

end LiveDoc.Script
