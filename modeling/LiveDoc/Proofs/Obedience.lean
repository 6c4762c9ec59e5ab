import LiveDoc.Proofs.Policy

namespace LiveDoc.Script.Policy

variable {p : Policy}

/-- A frame in which a body has only what it may hold. -/
structure Frame (p : Policy) (f : Script.Frame) : Prop where
  this : p.value f.this
  held : ∀ r ∈ f.held, p.held r
  call : p.Calls f.call

section Steps

theorem keeps_onHeap {post : α → Prop} {act : HeapRun α} (h : Keeps p.heap post act) :
    Keeps p.Locals post (Run.onHeap act) :=
  fun s hs => ⟨⟨(h s.heap hs.1).1, hs.2⟩, (h s.heap hs.1).2⟩

theorem keeps_lookup (name : String) : Keeps p.Locals p.value (Run.lookup name) := by
  apply Keeps.get_bind
  intro s hs
  split
  next v hv =>
    rw [Script.Scopes.lookup] at hv
    split at hv
    next b hb =>
      cases hv
      exact .pure hs (hs.2.find? hb)
    · cases hv
  · exact Keeps.throw _ _ s hs

theorem keeps_onScopes {change : Script.Scopes → Except RuntimeError Script.Scopes}
    (h : ∀ {scopes scopes'}, p.Scopes scopes → change scopes = .ok scopes' → p.Scopes scopes') :
    Keeps p.Locals (fun _ => True) (Run.onScopes change) := by
  apply Keeps.get_bind
  intro s hs
  split
  next scopes he => exact ⟨⟨hs.1, h hs.2 he⟩, fun _ _ => trivial⟩
  · exact Keeps.throw _ _ s hs

theorem keeps_inBlock {post : α → Prop} {act : Run α} (h : Keeps p.Locals post act) :
    Keeps p.Locals post (Run.inBlock act) := by
  intro s hs
  have hs' : p.Locals { s with scopes := [] :: s.scopes } := by
    refine ⟨hs.1, fun scope hm => ?_⟩
    rcases List.mem_cons.1 hm with rfl | hm
    · simp [Slots.values]
    · exact hs.2 scope hm
  obtain ⟨hi, hp⟩ := h _ hs'
  exact ⟨⟨hi.1, hi.2.tail⟩, hp⟩

theorem keeps_propertyName (v : Value) : Keeps p.Locals (fun _ => True) (Run.propertyName v) := by
  apply Keeps.get_bind
  intro s hs
  exact keeps_onHeap (.liftText _ fun _ _ => trivial) s hs

theorem isData_result? {h : Heap} {op : BinaryOp} {a b v : Value}
    (hv : op.result? h a b = some v) : v.IsData := by
  have hsum (hv : sum? h a b = some v) : v.IsData := by
    rw [sum?] at hv
    split at hv
    · simp only [Option.bind_eq_bind, Option.bind_eq_some_iff] at hv
      obtain ⟨s, -, t, -, hv⟩ := hv
      cases hv
      trivial
    · cases hv
      trivial
  cases op with
  | add => exact hsum hv
  | _ => cases hv; trivial

theorem keeps_applyBinary (op : BinaryOp) (a b : Value) :
    Keeps p.Locals p.value (Run.applyBinary op a b) := by
  apply Keeps.get_bind
  intro s hs
  exact keeps_onHeap (.liftText _ fun _ hv => p.data (isData_result? hv)) s hs

variable {f : Script.Frame} {depth : Nat} {held : List Ref}

theorem held_append_refs {s : Script.Locals} (hs : p.Locals s) (hh : ∀ r ∈ held, p.held r) :
    ∀ r ∈ held ++ s.scopes.refs, p.held r := by
  intro r hr
  rcases List.mem_append.1 hr with hr | hr
  · exact hh r hr
  · exact hs.2.held r hr

theorem keeps_getPropertyIn (hf : p.Frame f) (hh : ∀ r ∈ held, p.held r) {object : Value}
    (ho : p.value object) (name : String) :
    Keeps p.Locals p.value (Run.getProperty f depth held object name) := by
  apply Keeps.get_bind
  intro s hs
  exact keeps_onHeap (keeps_getProperty hf.call (held_append_refs hs hh) ho name) s hs

theorem keeps_setPropertyIn (hf : p.Frame f) (hh : ∀ r ∈ held, p.held r) {object : Value}
    (ho : p.value object) (name : String) {v : Value} (hv : p.value v) :
    Keeps p.Locals (fun _ => True) (Run.setProperty f depth held object name v) := by
  apply Keeps.get_bind
  intro s hs
  exact keeps_onHeap (keeps_setProperty hf.call (held_append_refs hs hh) ho name hv) s hs

theorem keeps_callIn (hf : p.Frame f) (hh : ∀ r ∈ held, p.held r) {callee : Value}
    (hc : p.value callee) {args : List Value} (ha : ∀ v ∈ args, p.value v) :
    Keeps p.Locals p.value (Run.call f depth held callee args) := by
  cases callee with
  | function g =>
    apply Keeps.get_bind
    intro s hs
    exact keeps_onHeap (hf.call _ _ _ _ (held_append_refs hs hh) hc ha) s hs
  | _ => exact .throw _ _

theorem keeps_assigned {op : Option BinaryOp} {current : Run Value} {right : List Ref → Run Value}
    (hh : ∀ r ∈ held, p.held r) (hc : Keeps p.Locals p.value current)
    (hr : ∀ held, (∀ r ∈ held, p.held r) → Keeps p.Locals p.value (right held)) :
    Keeps p.Locals p.value (Run.assigned held op current right) := by
  cases op with
  | none => exact hr held hh
  | some op =>
    refine hc.bind fun left hl => ?_
    refine (hr _ (held_hold hh hl)).bind fun v _ => ?_
    exact keeps_applyBinary op left v

theorem keeps_assignName {op : Option BinaryOp} {right : List Ref → Run Value}
    (hh : ∀ r ∈ held, p.held r) (name : String)
    (hr : ∀ held, (∀ r ∈ held, p.held r) → Keeps p.Locals p.value (right held)) :
    Keeps p.Locals p.value (Run.assignName held name op right) := by
  refine (keeps_assigned hh (keeps_lookup name) hr).bind fun v hv => ?_
  refine (keeps_onScopes fun hs he => hs.assign hv he).bind fun _ _ => ?_
  exact .pure hv

theorem keeps_assignProperty (hf : p.Frame f) (hh : ∀ r ∈ held, p.held r) {object : Value}
    (ho : p.value object) (name : String) {op : Option BinaryOp} {right : List Ref → Run Value}
    (hr : ∀ held, (∀ r ∈ held, p.held r) → Keeps p.Locals p.value (right held)) :
    Keeps p.Locals p.value (Run.assignProperty f held object name op right) := by
  have hh' := held_hold hh ho
  refine (keeps_assigned hh' (keeps_getPropertyIn hf hh' ho name) hr).bind fun v hv => ?_
  refine (keeps_setPropertyIn hf (held_hold hh' hv) ho name hv).bind fun _ _ => ?_
  exact .pure hv

end Steps

theorem isData_apply (op : UnaryOp) (v : Value) : (op.apply v).IsData := by
  cases op <;> trivial

mutual

theorem keeps_eval {f : Script.Frame} (hf : p.Frame f) (e : Expr) {held : List Ref}
    (hh : ∀ r ∈ held, p.held r) : Keeps p.Locals p.value (Script.eval f held e) := by
  match e with
  | .number _ | .text _ | .bool _ | .null | .undefined =>
    simp only [Script.eval]
    exact .pure (p.data trivial)
  | .this =>
    simp only [Script.eval]
    exact .pure hf.this
  | .name s =>
    simp only [Script.eval]
    exact keeps_lookup s
  | .array items =>
    simp only [Script.eval]
    refine (keeps_evalAll hf items hh).bind fun vs hvs => keeps_onHeap ?_
    intro h hi
    have ha := p.alloc (c := .sequence vs.toArray) hi (by simpa [Container.values] using hvs)
    exact ⟨ha.1, fun v hv => by cases hv; exact ha.2⟩
  | .object entries =>
    simp only [Script.eval]
    have hnil : ∀ v ∈ Slots.values ([] : Entries), p.value v := by simp [Slots.values]
    refine (keeps_evalEntries hf entries hh hnil).bind fun es hes => keeps_onHeap ?_
    intro h hi
    have ha := p.alloc (c := .mapping es) hi hes
    exact ⟨ha.1, fun v hv => by cases hv; exact ha.2⟩
  | .member object property =>
    simp only [Script.eval]
    exact (keeps_eval hf object hh).bind fun o ho => keeps_getPropertyIn hf hh ho property
  | .index object index =>
    simp only [Script.eval]
    refine (keeps_eval hf object hh).bind fun o ho => ?_
    refine (keeps_eval hf index (held_hold hh ho)).bind fun i _ => ?_
    exact (keeps_propertyName i).bind fun name _ => keeps_getPropertyIn hf hh ho name
  | .call callee args =>
    simp only [Script.eval]
    refine (keeps_eval hf callee hh).bind fun c hc => ?_
    exact (keeps_evalAll hf args (held_hold hh hc)).bind fun vs hvs => keeps_callIn hf hh hc hvs
  | .unary op operand =>
    simp only [Script.eval]
    exact (keeps_eval hf operand hh).bind fun v _ => .pure (p.data (isData_apply op v))
  | .binary op left right =>
    simp only [Script.eval]
    refine (keeps_eval hf left hh).bind fun l hl => ?_
    exact (keeps_eval hf right (held_hold hh hl)).bind fun r _ => keeps_applyBinary op l r
  | .logical op left right =>
    simp only [Script.eval]
    refine (keeps_eval hf left hh).bind fun l hl => ?_
    split
    · exact .pure hl
    · exact keeps_eval hf right (held_hold hh hl)
  | .conditional condition thenExpr elseExpr =>
    simp only [Script.eval]
    refine (keeps_eval hf condition hh).bind fun c _ => ?_
    split
    · exact keeps_eval hf thenExpr hh
    · exact keeps_eval hf elseExpr hh
  | .assign target op value =>
    have hr : ∀ held, (∀ r ∈ held, p.held r) →
        Keeps p.Locals p.value (Script.eval f held value) := fun _ hh => keeps_eval hf value hh
    match target with
    | .name s =>
      simp only [Script.eval]
      exact keeps_assignName hh s hr
    | .member object property =>
      simp only [Script.eval]
      exact (keeps_eval hf object hh).bind fun o ho => keeps_assignProperty hf hh ho property hr
    | .index object index =>
      simp only [Script.eval]
      refine (keeps_eval hf object hh).bind fun o ho => ?_
      refine (keeps_eval hf index (held_hold hh ho)).bind fun i _ => ?_
      exact (keeps_propertyName i).bind fun name _ => keeps_assignProperty hf hh ho name hr
    | .number _ | .text _ | .bool _ | .null | .undefined | .this | .array _ | .object _
    | .call _ _ | .unary _ _ | .binary _ _ _ | .logical _ _ _ | .conditional _ _ _
    | .assign _ _ _ =>
      simp only [Script.eval]
      exact .throw _ _

theorem keeps_evalAll {f : Script.Frame} (hf : p.Frame f) (es : List Expr) {held : List Ref}
    (hh : ∀ r ∈ held, p.held r) :
    Keeps p.Locals (fun vs => ∀ v ∈ vs, p.value v) (Script.evalAll f held es) := by
  match es with
  | [] =>
    simp only [Script.evalAll]
    exact .pure (by simp)
  | e :: es =>
    simp only [Script.evalAll]
    refine (keeps_eval hf e hh).bind fun v hv => ?_
    refine (keeps_evalAll hf es (held_hold hh hv)).bind fun vs hvs => .pure ?_
    simpa using ⟨hv, hvs⟩

theorem keeps_evalEntries {f : Script.Frame} (hf : p.Frame f) (es : List (String × Expr))
    {held : List Ref} (hh : ∀ r ∈ held, p.held r) {done : Entries}
    (hd : ∀ v ∈ done.values, p.value v) :
    Keeps p.Locals (fun es => ∀ v ∈ Slots.values es, p.value v)
      (Script.evalEntries f held done es) := by
  match es with
  | [] =>
    simp only [Script.evalEntries]
    exact .pure hd
  | (key, e) :: rest =>
    simp only [Script.evalEntries]
    refine (keeps_eval hf e (held_foldl_hold hh hd)).bind fun v hv => ?_
    refine keeps_evalEntries hf rest hh fun w hw => ?_
    rcases Slots.mem_values_put hw with rfl | hw
    · exact hv
    · exact hd w hw

end

def Flow (p : Policy) : Script.Flow → Prop
  | .returns v => p.value v
  | _ => True

theorem keeps_loop {condition : Run Value} {body : Run Script.Flow}
    (hc : Keeps p.Locals p.value condition) (hb : Keeps p.Locals p.Flow body) (fuel : Nat) :
    Keeps p.Locals p.Flow (Script.loop condition body fuel) := by
  induction fuel with
  | zero => exact .throw _ _
  | succ fuel ih =>
    rw [Script.loop]
    refine hc.bind fun c _ => ?_
    split
    · refine hb.bind fun flow hflow => ?_
      cases flow with
      | breaks => exact .pure trivial
      | returns v => exact .pure hflow
      | normal | continues => exact ih
    · exact .pure trivial

theorem keeps_declareAll {f : Script.Frame} (hf : p.Frame f) (isConst : Bool)
    (bindings : List (String × Option Expr)) :
    Keeps p.Locals (fun _ => True) (Script.declareAll f isConst bindings) := by
  induction bindings with
  | nil => exact .pure trivial
  | cons binding rest ih =>
    cases binding with
    | mk name init =>
      have hinit : Keeps p.Locals p.value (init.elim (pure .undefined) (Script.eval f f.held)) := by
        cases init with
        | none => exact .pure (p.data trivial)
        | some e => exact keeps_eval hf e hf.held
      refine hinit.bind fun v hv => ?_
      exact (keeps_onScopes fun hs he => hs.declare hv he).bind fun _ _ => ih

mutual

theorem keeps_exec {f : Script.Frame} (hf : p.Frame f) (s : Stmt) :
    Keeps p.Locals p.Flow (Script.exec f s) := by
  match s with
  | .declare isConst bindings =>
    simp only [Script.exec]
    exact (keeps_declareAll hf isConst bindings).bind fun _ _ => .pure trivial
  | .returns none =>
    simp only [Script.exec]
    exact .pure (p.data trivial)
  | .returns (some e) =>
    simp only [Script.exec]
    exact (keeps_eval hf e hf.held).bind fun v hv => .pure hv
  | .ifElse condition thenStmt none =>
    simp only [Script.exec]
    refine (keeps_eval hf condition hf.held).bind fun c _ => ?_
    split
    · exact keeps_exec hf thenStmt
    · exact .pure trivial
  | .ifElse condition thenStmt (some elseStmt) =>
    simp only [Script.exec]
    refine (keeps_eval hf condition hf.held).bind fun c _ => ?_
    split
    · exact keeps_exec hf thenStmt
    · exact keeps_exec hf elseStmt
  | .whileLoop condition body =>
    simp only [Script.exec]
    exact keeps_loop (keeps_eval hf condition hf.held) (keeps_exec hf body) f.fuel
  | .breakLoop | .continueLoop | .empty =>
    simp only [Script.exec]
    exact .pure trivial
  | .throws e =>
    simp only [Script.exec]
    refine (keeps_eval hf e hf.held).bind fun v _ => ?_
    apply Keeps.get_bind
    intro s hs
    exact (keeps_onHeap (Keeps.liftText _ fun _ _ => trivial) s hs).bind fun _ _ => .throw _ _
  | .block body =>
    simp only [Script.exec]
    exact keeps_inBlock (keeps_execAll hf body)
  | .expr e =>
    simp only [Script.exec]
    exact (keeps_eval hf e hf.held).bind fun _ _ => .pure trivial

theorem keeps_execAll {f : Script.Frame} (hf : p.Frame f) (body : Program) :
    Keeps p.Locals p.Flow (Script.execAll f body) := by
  match body with
  | [] =>
    simp only [Script.execAll]
    exact .pure trivial
  | s :: rest =>
    simp only [Script.execAll]
    refine (keeps_exec hf s).bind fun flow hflow => ?_
    cases flow with
    | normal => exact keeps_execAll hf rest
    | returns | breaks | continues => exact .pure hflow

end

theorem value_answer {flow : Script.Flow} {v : Value} (hflow : p.Flow flow)
    (hv : flow.answer = .ok v) : p.value v := by
  cases flow with
  | normal => cases hv; exact p.data trivial
  | returns w => cases hv; exact hflow
  | breaks | continues => cases hv

theorem keeps_runBody {f : Script.Frame} (hf : p.Frame f) {scope : Scope} (hs : p.Scopes [scope])
    (body : Program) : Keeps p.heap p.value (Script.runBody f scope body) := by
  intro h hi
  obtain ⟨hl, hflow⟩ := keeps_execAll hf body ⟨h, [scope]⟩ ⟨hi, hs⟩
  rw [KeepsAt, Script.runBody]
  split
  next flow s he =>
    rw [he] at hl hflow
    refine ⟨hl.1, fun v hv => ?_⟩
    cases ha : flow.answer with
    | ok w =>
      rw [ha] at hv
      cases hv
      exact value_answer (hflow flow rfl) ha
    | error e =>
      rw [ha] at hv
      cases hv
  next e s he =>
    rw [he] at hl
    exact ⟨hl.1, fun v hv => by cases hv⟩

theorem calls_enter {fuel : Nat} {call : Call} (hc : p.Calls call) :
    p.Calls (Script.enter fuel call) := by
  intro depth held g args hh hg ha
  have hscope : p.Scopes [Scope.ofParams [] g.params args] :=
    Scopes.ofParams (by simp [Scopes, Slots.values]) ha
  have hh' : ∀ r ∈ (args.drop g.params.length).foldl hold held, p.held r :=
    held_foldl_hold hh fun v hv => ha v (List.mem_of_mem_drop hv)
  apply Keeps.get_bind
  intro h hi
  have hroots := held_append_refs (s := ⟨h, [Scope.ofParams [] g.params args]⟩) ⟨hi, hscope⟩ hh'
  rw [Script.Scopes.refs, List.flatMap_singleton] at hroots
  have hthis := p.receiver hi hroots hg
  exact keeps_runBody ⟨hthis, held_hold hh' hthis, hc⟩ hscope g.definition.body h hi

/-- A call keeps to every policy that allows the function and its arguments. -/
theorem calls_invoke (p : Policy) (fuel room : Nat) : p.Calls (Script.invoke fuel room) := by
  induction room with
  | zero =>
    intro depth held g args _ _ _
    rw [Script.invoke]
    split <;> exact .throw _ _
  | succ room ih =>
    intro depth held g args hh hg ha
    by_cases hd : depth < maxCallDepth
    · rw [invoke_of_lt hd]
      exact calls_enter ih depth held g args hh hg ha
    · rw [invoke_of_le (Nat.le_of_not_lt hd)]
      exact .throw _ _

end LiveDoc.Script.Policy
