import LiveDoc.Proofs.Keeps
import LiveDoc.Script.Eval

namespace LiveDoc.Script

inductive Expr.IsBase : Expr → Prop
  | name : IsBase (.name s)
  | this : IsBase .this

inductive Expr.IsKey : Expr → Prop
  | name : IsKey (.name s)
  | text : IsKey (.text s)
  | number : IsKey (.number n)
  | bool : IsKey (.bool b)
  | null : IsKey .null

/-- A name, or a property of a base that is named by a word or by a key. -/
inductive Expr.IsSimpleTarget : Expr → Prop
  | name : IsSimpleTarget (.name s)
  | member (ho : o.IsBase) : IsSimpleTarget (.member o property)
  | index (ho : o.IsBase) (hi : i.IsKey) : IsSimpleTarget (.index o i)

/-- In this state, an expression has this outcome, leaves the state as it is, and does not depend on
what is held. -/
def Settles (f : Frame) (e : Expr) (s : Locals) (outcome : Except Interrupt Value) : Prop :=
  ∀ held, eval f held e s = (outcome, s)

theorem settles_name (f : Frame) (name : String) (s : Locals) :
    ∃ outcome, Settles f (.name name) s outcome := by
  refine ⟨(Run.lookup name s).1, fun held => ?_⟩
  have hget : (get : Run Locals) s = (.ok s, s) := rfl
  simp only [eval, Run.lookup, run_bind, hget]
  cases s.scopes.lookup name <;> rfl

theorem Expr.IsBase.settles {e : Expr} (he : e.IsBase) (f : Frame) (s : Locals) :
    ∃ outcome, Settles f e s outcome := by
  cases he with
  | name => exact settles_name f _ s
  | this => exact ⟨_, fun _ => rfl⟩

theorem Expr.IsKey.settles {e : Expr} (he : e.IsKey) (f : Frame) (s : Locals) :
    ∃ outcome, Settles f e s outcome := by
  cases he with
  | name => exact settles_name f _ s
  | _ => exact ⟨_, fun _ => rfl⟩

theorem propertyName_settles (v : Value) (s : Locals) :
    ∃ outcome, Run.propertyName v s = (outcome, s) := by
  have hget : (get : Run Locals) s = (.ok s, s) := rfl
  refine ⟨(Run.propertyName v s).1, ?_⟩
  simp only [Run.propertyName, run_bind, hget]
  cases s.heap.propertyName? v <;> rfl

section

variable {f : Frame} {o i : Expr} {s : Locals}

theorem eval_compound_member {object : Value} (ho : Settles f o s (.ok object)) (held : List Ref)
    (op : BinaryOp) (property : String) (e : Expr) :
    Run.assignProperty f held object property (some op) (fun held => eval f held e) s =
      Run.assignProperty f held object property none
        (fun held => eval f held (.binary op (.member o property) e)) s := by
  simp only [Run.assignProperty, Run.assigned, eval, run_bind, ho _]

theorem eval_compound_index {object key : Value} {name : String}
    (ho : Settles f o s (.ok object)) (hi : Settles f i s (.ok key))
    (hname : Run.propertyName key s = (.ok name, s)) (held : List Ref) (op : BinaryOp) (e : Expr) :
    Run.assignProperty f held object name (some op) (fun held => eval f held e) s =
      Run.assignProperty f held object name none
        (fun held => eval f held (.binary op (.index o i) e)) s := by
  simp only [Run.assignProperty, Run.assigned, eval, run_bind, ho _, hi _, hname]

end

/-- An assignment with an operation does what the plain assignment of the operation does: in every
state it has the same outcome and leaves the same scopes and the same heap. -/
theorem eval_compound {t : Expr} (ht : t.IsSimpleTarget) (f : Frame) (held : List Ref)
    (op : BinaryOp) (e : Expr) :
    eval f held (.assign t (some op) e) = eval f held (.assign t none (.binary op t e)) := by
  cases ht with
  | name => simp only [eval, Run.assignName, Run.assigned]
  | @member o property ho =>
    funext s
    obtain ⟨outcome, ho⟩ := ho.settles f s
    simp only [eval, run_bind, ho held]
    cases outcome with
    | error => rfl
    | ok object => exact eval_compound_member ho held op property e
  | @index o i ho hi =>
    funext s
    obtain ⟨outcome, ho⟩ := ho.settles f s
    obtain ⟨outcome', hi⟩ := hi.settles f s
    simp only [eval, run_bind, ho held]
    cases outcome with
    | error => rfl
    | ok object =>
      simp only [hi _]
      cases outcome' with
      | error => rfl
      | ok key =>
        obtain ⟨outcome, hname⟩ := propertyName_settles key s
        simp only [hname]
        cases outcome with
        | error => rfl
        | ok name => exact eval_compound_index ho hi hname held op e

/-- `this[k] += k = "b"`: the property is still the one that `k` named at first. -/
theorem eval_compound_renaming :
    let frame : Frame := ⟨.container ⟨0⟩, [], 0, 0, hostCall 0⟩
    let target : Expr := .index .this (.name "k")
    let newName : Expr := .assign (.name "k") none (.text "b")
    let locals (a : Value) (k : String) : Locals :=
      ⟨⟨#[.mapping [("a", a), ("b", .null)]], 0⟩, [[("k", ⟨.text k, false⟩)]]⟩
    let outcome : Except Interrupt Value × Locals := (.ok (.text "5b"), locals (.text "5b") "b")
    target.IsSimpleTarget ∧
      eval frame [] (.assign target (some .add) newName) (locals (.text "5") "a") = outcome ∧
      eval frame [] (.assign target none (.binary .add target newName)) (locals (.text "5") "a") =
        outcome := by
  intro frame target newName locals outcome
  have htarget : target.IsSimpleTarget := .index .this .name
  have hcompound : eval frame [] (.assign target (some .add) newName) (locals (.text "5") "a") =
      outcome := by rfl
  refine ⟨htarget, hcompound, ?_⟩
  rw [← eval_compound htarget, hcompound]

end LiveDoc.Script
