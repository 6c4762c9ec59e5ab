import LiveDoc.Proofs.Assignments
import LiveDoc.Proofs.Bodies
import LiveDoc.Proofs.Frames
import LiveDoc.Script.Source
import Mathlib

namespace LiveDoc.Script

/-- A program that was read from a text, as the body of every function is that a host makes. -/
def Program.IsRead (p : Program) : Prop :=
  ∃ source, Program.ofSource source = .ok p

theorem Program.IsRead.allWellFormed {p : Program} (h : p.IsRead) :
    allWellFormed anyName p = true := by
  obtain ⟨source, hsource⟩ := h
  rw [ofSource] at hsource
  cases ht : tokenize source with
  | error offset => simp [ht] at hsource
  | ok tokens =>
    rw [ht] at hsource
    dsimp only at hsource
    cases hp : Parser.program (tokens.map (·.token)) with
    | error failure => simp [hp] at hsource
    | ok program =>
      rw [hp] at hsource
      cases hsource
      refine Parser.allWellFormed_of_program hp fun t _ => ?_
      cases t <;> rfl

/-- Bodies that were read end with all errors but that for what is assigned to. -/
def Comparison.ofRead : Comparison (.bodies Program.IsRead) where
  plain e _ := e ≠ .error .invalidAssignmentTarget
  stop := .error .callDepthExceeded
  stop' := some (.error .callDepthExceeded)
  error he heq := by cases heq; cases he
  endless _ _ := by simp
  loops _ := .inr (by simp)
  targets hf := .inl (Program.IsRead.allWellFormed hf)
  jumps _ := .inr (by simp)

/-- Where all functions have bodies that were read from texts, no request ends with the error for
what is assigned to. In all the frames that open, assignments are to names and properties, with one
of five operations at most: nobody sees a frame that is otherwise. -/
theorem Request.run_of_read (request : Request) (held : List Ref) (fuel : Nat) (h : Heap)
    (hh : h.Bodies Program.IsRead) (hv : ∀ v ∈ request.values, v.Bodies Program.IsRead) :
    (∀ h', request.run (hostCall fuel) 0 held h ≠ (.error (.error .invalidAssignmentTarget), h')) ∧
      ∀ lookout : Lookout,
        (∀ o, AllProper (bodyAssignments o.function.definition.body) → lookout o = none) →
        request.run (invokeUnder lookout fuel maxCallDepth held []) 0 held h =
          request.run (hostCall fuel) 0 held h := by
  constructor
  · intro h' hran
    have hplain := Comparison.ofRead.plain_of_run rfl (fun _ he => (Option.some.inj he).symm)
      (fun _ _ => trivial) hv hh hran (by simp)
    exact hplain rfl
  · intro lookout hl
    have hsilent : ∀ o : Opening, Program.IsRead o.function.definition.body → lookout o = none :=
      fun o ho => hl o (allProper_body _ ho.allWellFormed)
    exact Comparison.ofRead.run_under rfl rfl (fun o ho _ => hsilent o ho)
      (Policy.holds_bodies _ held) hv fuel hh

def counterHeap : Heap where
  containers := #[.mapping [("n", .number (.int 1)), ("next", .function ⟨⟨0, [], "this.n += 1",
    [.expr (.assign (.member .this "n") (some .add) (.number (.int 1)))]⟩, some ⟨0⟩⟩)]]
  definitions := 1

/-- The function is called, and the mapping is written. -/
theorem counter_of_read :
    let body : Program := [.expr (.assign (.member .this "n") (some .add) (.number (.int 1)))]
    let next : Value := .function ⟨⟨0, [], "this.n += 1", body⟩, some ⟨0⟩⟩
    let request : Request := .call next []
    Program.ofSource "this.n += 1" = .ok body ∧
      (∀ h', request.run (hostCall 0) 0 [⟨0⟩] counterHeap ≠
        (.error (.error .invalidAssignmentTarget), h')) ∧
      request.run (invokeUnder (fun _ => none) 0 maxCallDepth [⟨0⟩] []) 0 [⟨0⟩] counterHeap =
        (.ok .undefined,
          counterHeap.set ⟨0⟩ (.mapping [("n", .number (.int 2)), ("next", next)])) := by
  intro body next request
  have hsource : Program.ofSource "this.n += 1" = .ok body := by cbv
  have hread : body.IsRead := ⟨_, hsource⟩
  have hbodies : counterHeap.Bodies Program.IsRead := by
    apply Heap.bodies_of_mem
    simpa [counterHeap, Container.values, Slots.values, Value.Bodies] using hread
  have hvalues : ∀ v ∈ request.values, v.Bodies Program.IsRead := by
    simpa [request, Request.values, next, Value.Bodies] using hread
  obtain ⟨hne, hunder⟩ := Request.run_of_read request [⟨0⟩] 0 counterHeap hbodies hvalues
  refine ⟨hsource, hne, ?_⟩
  rw [hunder _ fun _ _ => rfl]
  rfl

/-- Bodies with all `break` and `continue` in loops end with any error but those for one of them. -/
def Comparison.ofSettled : Comparison (.bodies (allJumpInLoops · = true)) where
  plain e _ := ∀ statement, e ≠ .error (.strayControlFlow statement)
  stop := .error .callDepthExceeded
  stop' := none
  error he _ heq := by cases heq; cases he
  endless _ _ := by simp
  loops _ := .inr (by simp)
  targets _ := .inr (by simp)
  jumps hf := .inl hf

/-- Where every `break` and `continue` of a function is in a loop of the same function, no request
ends with an error for one of them. Any loop ends normally or returns, whatever is in its body. -/
theorem jumps_stay_in_loops :
    (∀ (request : Request) (held : List Ref) (fuel : Nat) (h : Heap),
      h.Bodies (allJumpInLoops · = true) →
      (∀ v ∈ request.values, v.Bodies (allJumpInLoops · = true)) →
        ∀ statement h', request.run (hostCall fuel) 0 held h ≠
          (.error (.error (.strayControlFlow statement)), h')) ∧
      ∀ (f : Frame) (condition : Expr) (body : Stmt) (s s' : Locals) (flow : Flow),
        exec f (.whileLoop condition body) s = (.ok flow, s') →
          flow = .normal ∨ ∃ v, flow = .returns v := by
  constructor
  · intro request held fuel h hh hv statement h' hran
    have hplain := Comparison.ofSettled.plain_of_run rfl nofun (fun _ _ => trivial) hv hh hran
      (by simp)
    exact hplain statement rfl
  · intro f condition body s s' flow hexec
    have hsettled := (settled_exec f (.whileLoop condition body) rfl s trivial).2 flow
    rw [hexec] at hsettled
    cases flow with
    | normal => exact .inl rfl
    | returns v => exact .inr ⟨v, rfl⟩
    | breaks | continues => exact absurd (hsettled rfl) id

/-- A function that leaves a loop is called. It would be an error if there were no loop to leave. -/
theorem jump_out_of_loop :
    let leave : Stmt := .block [.breakLoop]
    let looping : Value := .function ⟨⟨0, [], "while (true) { break; }",
      [.whileLoop (.bool true) leave]⟩, none⟩
    let straying : Value := .function ⟨⟨1, [], "{ break; }", [leave]⟩, none⟩
    (∀ statement h', (Request.call looping []).run (hostCall 1) 0 [] ⟨#[], 2⟩ ≠
        (.error (.error (.strayControlFlow statement)), h')) ∧
      (Request.call looping []).run (hostCall 1) 0 [] ⟨#[], 2⟩ = (.ok .undefined, ⟨#[], 2⟩) ∧
      (Request.call straying []).run (hostCall 1) 0 [] ⟨#[], 2⟩ =
        (.error (.error (.strayControlFlow "break")), ⟨#[], 2⟩) := by
  intro leave looping straying
  have hbodies : Heap.Bodies (allJumpInLoops · = true) ⟨#[], 2⟩ := by
    apply Heap.bodies_of_mem
    simp
  have hvalues : ∀ v ∈ (Request.call looping []).values,
      v.Bodies (allJumpInLoops · = true) := by
    intro v hv
    cases List.mem_singleton.1 hv
    rfl
  exact ⟨jumps_stay_in_loops.1 _ [] 1 _ hbodies hvalues, rfl, rfl⟩

end LiveDoc.Script
