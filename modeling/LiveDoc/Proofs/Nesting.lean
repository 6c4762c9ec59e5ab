import LiveDoc.Proofs.Bodies
import LiveDoc.Proofs.Endless
import LiveDoc.Proofs.Frames

namespace LiveDoc.Script

/-- Functions without loops end with a value or an error, unless they ask for a text without an
end. -/
def Comparison.loopFree : Comparison (.bodies (areLoopFree · = true)) where
  plain
    | .error _, _ => True
    | .outOfFuel, _ => False
    | .endlessText v, h => h.IsEndless v
  stop := .error .callDepthExceeded
  stop' := none
  error _ := trivial
  endless _ hv := Heap.isEndless_of_text? hv
  loops hf := .inl hf
  targets _ := .inr fun _ => trivial
  jumps _ := .inr fun _ _ => trivial

/-- Interrupts a run where as many frames as allowed are open, and one more would be. -/
def refusing (e : Interrupt) : Lookout := fun o =>
  if o.frames.length = maxCallDepth then some e else none

/-- Only a call that is refused raises the error, and that decides what becomes of the run. -/
def Comparison.ofRefusal (e : Interrupt) : Comparison (.bodies fun _ => True) where
  plain e' _ := e' ≠ .error .callDepthExceeded
  stop := .error .callDepthExceeded
  stop' := some e
  error he heq := by cases heq; cases he
  endless _ _ := by simp
  loops _ := .inr (by simp)
  targets _ := .inr (by simp)
  jumps _ := .inr (by simp)

theorem Comparison.allows_refusing (e : Interrupt) : (ofRefusal e).Allows (refusing e) where
  opens _ _ hd := if_neg (Nat.ne_of_lt hd)
  refuses _ _ hd e' he := by
    rw [refusing, if_pos hd, Option.getD_some]
    exact Option.some.inj he

namespace Request

/-- The run of a host does not depend on the room for calls, if there is as much as there are depths:
it is the depth that bounds them. -/
theorem run_of_room (request : Request) (held : List Ref) (fuel : Nat) (h : Heap) {room : Nat}
    (hroom : maxCallDepth ≤ room) :
    request.run (invoke fuel room) 0 held h = request.run (hostCall fuel) 0 held h := by
  let c := Comparison.ofRefusal (.error .callDepthExceeded)
  have hcalls : c.Calls (hostCall fuel) 0 (invoke fuel room) 0 :=
    Comparison.calls_invoke rfl fuel (Nat.le_refl _)
      (fun _ he => ⟨(Option.some.inj he).symm, rfl⟩) (Nat.le_refl _) hroom
  have hruns : c.OnHeap (request.run (hostCall fuel) 0 held)
      (request.run (invoke fuel room) 0 held) :=
    Comparison.onHeap_request (Policy.calls_invoke _ fuel maxCallDepth)
      (hcalls.mono (List.nil_subset held)) (Policy.holds_bodies _ held) fun v _ => v.bodies_true
  exact (hruns h h.bodies_true).eq

theorem ends_of_loopFree {request : Request} {h : Heap}
    (hh : h.Bodies (areLoopFree · = true))
    (hv : ∀ v ∈ request.values, v.Bodies (areLoopFree · = true)) (held : List Ref) (fuel : Nat)
    {result : Except Interrupt Value} {h' : Heap}
    (hran : request.run (hostCall fuel) 0 held h = (result, h')) :
    (∃ v, result = .ok v) ∨ (∃ e, result = .error (.error e)) ∨
      ∃ v, result = .error (.endlessText v) ∧ h'.IsEndless v := by
  cases result with
  | ok v => exact .inl ⟨v, rfl⟩
  | error e =>
    cases e with
    | error e => exact .inr (.inl ⟨e, rfl⟩)
    | endlessText v =>
      have hplain := Comparison.loopFree.plain_of_run rfl nofun (fun _ _ => trivial) hv hh hran
        (by simp)
      exact .inr (.inr ⟨v, rfl, hplain⟩)
    | outOfFuel =>
      have hplain := Comparison.loopFree.plain_of_run rfl nofun (fun _ _ => trivial) hv hh hran
        (by simp)
      exact hplain.elim

/-- Without loops every request ends with a value or an error, unless it asks for the text of a value
that leads to a sequence that contains itself. With or without loops, the depth of every call is the
number of the frames around it, which is not more than allowed; the room that `invoke` recurses on
does not matter. A call is refused where as many frames as allowed are open, and it is then that the
run ends with the error for its depth, before the body of the refused function does anything. -/
theorem run_ends (request : Request) (held : List Ref) (fuel : Nat) (h : Heap) :
    let ran := request.run (hostCall fuel) 0 held h
    (∀ room, maxCallDepth ≤ room → request.run (invoke fuel room) 0 held h = ran) ∧
    (h.Bodies (areLoopFree · = true) →
      (∀ v ∈ request.values, v.Bodies (areLoopFree · = true)) →
        (∃ v, ran.1 = .ok v) ∨ (∃ e, ran.1 = .error (.error e)) ∨
          ∃ v, ran.1 = .error (.endlessText v) ∧ ran.2.IsEndless v) ∧
    (∀ lookout : Lookout,
      (∀ o : Opening, o.depth = o.frames.length → o.frames.length ≤ maxCallDepth →
        lookout o = none) →
      request.run (invokeUnder lookout fuel maxCallDepth held []) 0 held h = ran) ∧
    ∀ h', ran = (.error (.error .callDepthExceeded), h') ↔
      ∀ e, request.run (invokeUnder (refusing e) fuel maxCallDepth held []) 0 held h =
        (.error e, h') := by
  intro ran
  have hruns (e : Interrupt) : (Comparison.ofRefusal e).OnHeap
      (request.run (hostCall fuel) 0 held)
      (request.run (invokeUnder (refusing e) fuel maxCallDepth held []) 0 held) :=
    Comparison.onHeap_requestUnder rfl (Comparison.allows_refusing e) fuel
      (Policy.holds_bodies _ held) fun v _ => v.bodies_true
  refine ⟨fun room => run_of_room request held fuel h, ?_, ?_, ?_⟩
  · intro hh hv
    exact ends_of_loopFree hh hv held fuel rfl
  · intro lookout hl
    exact (Comparison.ofRefusal (.error .callDepthExceeded)).run_under rfl rfl
      (fun o _ ho => hl o ho.depth_eq ho.depth_le) (Policy.holds_bodies _ held)
      (fun v _ => v.bodies_true) fuel h.bodies_true
  · intro h'
    constructor
    -- the run ends in the refusal if and only if it ends in whatever is put in the place of that
    · intro hran e
      have hagree := hruns e h h.bodies_true
      rw [show request.run (hostCall fuel) 0 held h = _ from hran] at hagree
      exact hagree.eq_of_stopped (by simp [Comparison.ofRefusal])
    · intro hall
      rw [← hall (.error .callDepthExceeded)]
      exact (hruns (.error .callDepthExceeded) h h.bodies_true).eq.symm

end Request

end LiveDoc.Script
