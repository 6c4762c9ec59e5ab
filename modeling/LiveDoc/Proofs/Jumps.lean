import LiveDoc.Proofs.Keeps
import LiveDoc.Script.Eval

namespace LiveDoc.Script

mutual

/-- Whether every `break` and `continue` in a statement is in a loop. What is in the body of a loop
may hold any of them. -/
def Stmt.jumpsInLoops : Stmt → Bool
  | .breakLoop | .continueLoop => false
  | .ifElse _ thenStmt none => thenStmt.jumpsInLoops
  | .ifElse _ thenStmt (some elseStmt) => thenStmt.jumpsInLoops && elseStmt.jumpsInLoops
  | .block body => allJumpInLoops body
  | _ => true
termination_by structural s => s

def allJumpInLoops : List Stmt → Bool
  | [] => true
  | s :: rest => s.jumpsInLoops && allJumpInLoops rest
termination_by structural body => body

end

def Flow.IsSettled : Flow → Prop
  | normal | returns _ => True
  | breaks | continues => False

/-- Whatever its body does, a loop does not end with a `break` or a `continue`. -/
theorem settled_loop (condition : Run Value) (body : Run Flow) (fuel : Nat) :
    Keeps (fun _ => True) Flow.IsSettled (loop condition body fuel) := by
  induction fuel with
  | zero => exact .throw _ _
  | succ fuel ih =>
    rw [loop]
    refine .bind (.trivial _) fun v _ => ?_
    split
    · refine .bind (.trivial _) fun flow _ => ?_
      cases flow with
      | breaks | returns => exact .pure trivial
      | normal | continues => exact ih
    · exact .pure trivial

mutual

theorem settled_exec (f : Frame) (s : Stmt) (hs : s.jumpsInLoops = true) :
    Keeps (fun _ => True) Flow.IsSettled (exec f s) := by
  match s with
  | .declare _ _ | .returns (some _) | .expr _ =>
    simp only [exec]
    exact .bind (.trivial _) fun _ _ => .pure trivial
  | .returns none | .empty =>
    simp only [exec]
    exact .pure trivial
  | .ifElse _ thenStmt none =>
    simp only [exec]
    refine .bind (.trivial _) fun v _ => ?_
    split
    · exact settled_exec f thenStmt hs
    · exact .pure trivial
  | .ifElse _ thenStmt (some elseStmt) =>
    simp only [exec]
    simp only [Stmt.jumpsInLoops, Bool.and_eq_true] at hs
    refine .bind (.trivial _) fun v _ => ?_
    split
    · exact settled_exec f thenStmt hs.1
    · exact settled_exec f elseStmt hs.2
  | .whileLoop _ _ =>
    simp only [exec]
    exact settled_loop _ _ _
  | .breakLoop | .continueLoop => cases hs
  | .throws _ =>
    simp only [exec]
    refine .bind (.trivial _) fun _ _ => .bind (.trivial _) fun _ _ => ?_
    exact .bind (.trivial _) fun _ _ => .throw _ _
  | .block body =>
    simp only [exec]
    exact fun _ _ => settled_execAll f body hs _ trivial

theorem settled_execAll (f : Frame) (body : Program) (hs : allJumpInLoops body = true) :
    Keeps (fun _ => True) Flow.IsSettled (execAll f body) := by
  match body with
  | [] =>
    simp only [execAll]
    exact .pure trivial
  | s :: rest =>
    simp only [execAll]
    simp only [allJumpInLoops, Bool.and_eq_true] at hs
    refine .bind (settled_exec f s hs.1) fun flow hflow => ?_
    cases flow with
    | normal => exact settled_execAll f rest hs.2
    | returns | breaks | continues => exact .pure hflow

end

end LiveDoc.Script
