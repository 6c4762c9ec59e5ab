import LiveDoc.Proofs.Rendering

namespace LiveDoc.Script

structure Assignment where
  target : Expr
  op : Option BinaryOp

/-- An assignment to a name or a property, with one of the operations `+ - * / %` at most. -/
def Assignment.IsProper (a : Assignment) : Prop :=
  a.target.isTarget = true ∧
    a.op ∈ [none, some .add, some .sub, some .mul, some .div, some .rem]

mutual

def Expr.assignments : Expr → List Assignment
  | .array items => assignmentsOfAll items
  | .object entries => assignmentsOfEntries entries
  | .member o _ => o.assignments
  | .index o i => o.assignments ++ i.assignments
  | .call callee args => callee.assignments ++ assignmentsOfAll args
  | .unary _ e => e.assignments
  | .binary _ l r => l.assignments ++ r.assignments
  | .logical _ l r => l.assignments ++ r.assignments
  | .conditional c a b => c.assignments ++ a.assignments ++ b.assignments
  | .assign target op value => ⟨target, op⟩ :: (target.assignments ++ value.assignments)
  | _ => []
termination_by structural e => e

def assignmentsOfAll : List Expr → List Assignment
  | [] => []
  | e :: es => e.assignments ++ assignmentsOfAll es
termination_by structural es => es

def assignmentsOfEntries : List (String × Expr) → List Assignment
  | [] => []
  | (_, e) :: es => e.assignments ++ assignmentsOfEntries es
termination_by structural es => es

end

def initializerAssignments : Option Expr → List Assignment
  | none => []
  | some e => e.assignments

mutual

def Stmt.assignments : Stmt → List Assignment
  | .declare _ bs => bs.flatMap fun b => initializerAssignments b.2
  | .returns none => []
  | .returns (some e) => e.assignments
  | .ifElse c s none => c.assignments ++ s.assignments
  | .ifElse c s (some s') => c.assignments ++ s.assignments ++ s'.assignments
  | .whileLoop c s => c.assignments ++ s.assignments
  | .throws e => e.assignments
  | .block body => bodyAssignments body
  | .expr e => e.assignments
  | .breakLoop | .continueLoop | .empty => []
termination_by structural s => s

def bodyAssignments : List Stmt → List Assignment
  | [] => []
  | s :: body => s.assignments ++ bodyAssignments body
termination_by structural body => body

end

def AllProper (as : List Assignment) : Prop :=
  ∀ a ∈ as, a.IsProper

@[simp]
theorem allProper_nil : AllProper [] :=
  List.forall_mem_nil _

@[simp]
theorem allProper_cons {a : Assignment} {as : List Assignment} :
    AllProper (a :: as) ↔ a.IsProper ∧ AllProper as :=
  List.forall_mem_cons

@[simp]
theorem allProper_append {as bs : List Assignment} :
    AllProper (as ++ bs) ↔ AllProper as ∧ AllProper bs :=
  List.forall_mem_append

section

variable {isName : String → Bool}

theorem mem_operations_of_isAssignable {op : Option BinaryOp} (h : isAssignable op = true) :
    op ∈ [none, some .add, some .sub, some .mul, some .div, some .rem] := by
  cases op with
  | none => decide
  | some op => cases op <;> first | decide | cases h

mutual

theorem allProper_expr (e : Expr) (he : e.isWellFormed isName = true) :
    AllProper e.assignments := by
  match e with
  | .number _ | .text _ | .bool _ | .null | .undefined | .this | .name _ =>
    exact allProper_nil
  | .array items => exact allProper_all items he
  | .object entries => exact allProper_entries entries he
  | .member o _ =>
    simp only [Expr.isWellFormed, Bool.and_eq_true] at he
    exact allProper_expr o he.1
  | .unary _ e => exact allProper_expr e he
  | .index l r | .binary _ l r | .logical _ l r =>
    simp only [Expr.isWellFormed, Bool.and_eq_true] at he
    exact allProper_append.2 ⟨allProper_expr l he.1, allProper_expr r he.2⟩
  | .call callee args =>
    simp only [Expr.isWellFormed, Bool.and_eq_true] at he
    exact allProper_append.2 ⟨allProper_expr callee he.1, allProper_all args he.2⟩
  | .conditional c a b =>
    simp only [Expr.isWellFormed, Bool.and_eq_true] at he
    simp only [Expr.assignments, allProper_append]
    exact ⟨⟨allProper_expr c he.1.1, allProper_expr a he.1.2⟩, allProper_expr b he.2⟩
  | .assign target op value =>
    simp only [Expr.isWellFormed, Bool.and_eq_true] at he
    obtain ⟨⟨⟨htarget, hop⟩, ht⟩, hv⟩ := he
    simp only [Expr.assignments, allProper_cons, allProper_append]
    exact ⟨⟨htarget, mem_operations_of_isAssignable hop⟩, allProper_expr target ht,
      allProper_expr value hv⟩

theorem allProper_all (es : List Expr) (hes : areWellFormed isName es = true) :
    AllProper (assignmentsOfAll es) := by
  match es with
  | [] => exact allProper_nil
  | e :: es =>
    simp only [areWellFormed, Bool.and_eq_true] at hes
    exact allProper_append.2 ⟨allProper_expr e hes.1, allProper_all es hes.2⟩

theorem allProper_entries (es : List (String × Expr)) (hes : entriesWellFormed isName es = true) :
    AllProper (assignmentsOfEntries es) := by
  match es with
  | [] => exact allProper_nil
  | (_, e) :: es =>
    simp only [entriesWellFormed, Bool.and_eq_true] at hes
    exact allProper_append.2 ⟨allProper_expr e hes.1, allProper_entries es hes.2⟩

end

theorem allProper_initializers {bs : List (String × Option Expr)}
    (hbs : (bs.all fun b => initializerWellFormed isName b.2) = true) :
    AllProper (bs.flatMap fun b => initializerAssignments b.2) := by
  intro a ha
  obtain ⟨b, hb, ha⟩ := List.mem_flatMap.1 ha
  have hinit := List.all_eq_true.1 hbs b hb
  cases hi : b.2 with
  | none =>
    rw [hi] at ha
    cases ha
  | some e =>
    rw [hi] at ha hinit
    exact allProper_expr e hinit a ha

mutual

theorem allProper_stmt (s : Stmt) (hs : s.isWellFormed isName = true) :
    AllProper s.assignments := by
  match s with
  | .returns none | .breakLoop | .continueLoop | .empty => exact allProper_nil
  | .declare _ bs =>
    simp only [Stmt.isWellFormed, Bool.and_eq_true] at hs
    exact allProper_initializers hs.2
  | .returns (some e) | .throws e | .expr e => exact allProper_expr e hs
  | .ifElse c s none | .whileLoop c s =>
    simp only [Stmt.isWellFormed, Bool.and_eq_true] at hs
    exact allProper_append.2 ⟨allProper_expr c hs.1, allProper_stmt s hs.2⟩
  | .ifElse c s (some s') =>
    simp only [Stmt.isWellFormed, Bool.and_eq_true] at hs
    simp only [Stmt.assignments, allProper_append]
    exact ⟨⟨allProper_expr c hs.1.1.1, allProper_stmt s hs.1.1.2⟩, allProper_stmt s' hs.2⟩
  | .block body => exact allProper_body body hs

theorem allProper_body (body : List Stmt) (hbody : allWellFormed isName body = true) :
    AllProper (bodyAssignments body) := by
  match body with
  | [] => exact allProper_nil
  | s :: body =>
    simp only [allWellFormed, Bool.and_eq_true] at hbody
    exact allProper_append.2 ⟨allProper_stmt s hbody.1, allProper_body body hbody.2⟩

end

end

end LiveDoc.Script
