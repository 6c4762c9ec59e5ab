import LiveDoc.Proofs.Comparison
import LiveDoc.Proofs.Requests

namespace LiveDoc.Script

/-- What is seen of a call just before it opens a frame, or is refused. -/
structure Opening where
  heap : Heap
  roots : List Ref
  /-- What the host holds, and the receivers of the frames that are open. -/
  around : List Ref
  frames : List Function
  /-- The depth that the caller has given. -/
  depth : Nat
  function : Function

namespace Opening

def this (o : Opening) : Value :=
  o.heap.receiver o.roots o.function

/-- All that is held around a call is held on, and its depth is the number of the open frames. -/
structure IsProper (o : Opening) : Prop where
  held : o.around ⊆ o.roots
  depth_eq : o.depth = o.frames.length
  depth_le : o.frames.length ≤ maxCallDepth

theorem IsProper.of_holds {p : Policy} {around held : List Ref} (hh : p.Holds around held)
    {frames : List Function} (hd : frames.length ≤ maxCallDepth) {h : Heap} {g : Function}
    {args : List Value} :
    IsProper ⟨h, frameRoots held g args, around, frames, frames.length, g⟩ :=
  ⟨List.Subset.trans hh.above (subset_frameRoots held g args), rfl, hd⟩

end Opening

/-- Looks at the calls of a run. It may interrupt the run, in place of one of them. -/
abbrev Lookout := Opening → Option Interrupt

/-- Calls a function as `invoke` does, under a lookout. The frames that are open are counted here; the
depth of a call is what the body has given that makes the call. -/
def invokeUnder (lookout : Lookout) (fuel room : Nat) (around : List Ref)
    (frames : List Function) : Call := fun depth held g args h =>
  let opening : Opening := ⟨h, frameRoots held g args, around, frames, depth, g⟩
  match lookout opening with
  | some e => (.error e, h)
  | none =>
    if maxCallDepth ≤ depth then HeapRun.fail .callDepthExceeded h
    else
      match room with
      | 0 => (.error .outOfFuel, h)
      | room + 1 =>
        let call := invokeUnder lookout fuel room (hold around opening.this) (g :: frames)
        enter fuel call depth held g args h

section

variable {lookout : Lookout} {fuel room depth : Nat} {around held : List Ref}
  {frames : List Function} {g : Function} {args : List Value} {h : Heap}

theorem invokeUnder_of_le (hd : maxCallDepth ≤ depth) :
    invokeUnder lookout fuel room around frames depth held g args h =
      (.error ((lookout ⟨h, frameRoots held g args, around, frames, depth, g⟩).getD
        (.error .callDepthExceeded)), h) := by
  cases hl : lookout ⟨h, frameRoots held g args, around, frames, depth, g⟩ with
  | some e => cases room <;> simp only [invokeUnder, hl, Option.getD_some]
  | none =>
    cases room <;> simp only [invokeUnder, hl, if_pos hd, Option.getD_none] <;> rfl

theorem invokeUnder_of_lt (hd : depth < maxCallDepth)
    (hnone : lookout ⟨h, frameRoots held g args, around, frames, depth, g⟩ = none) :
    invokeUnder lookout fuel (room + 1) around frames depth held g args h =
      enter fuel (invokeUnder lookout fuel room
          (hold around (h.receiver (frameRoots held g args) g)) (g :: frames))
        depth held g args h := by
  simp only [invokeUnder, hnone, if_neg (Nat.not_le_of_lt hd)]
  rfl

end

namespace Comparison

variable {p : Policy} {c : Comparison p}

theorem onHeap_request {floor : List Ref} {call call' : Call} {depth depth' : Nat}
    (hk : p.Calls call) (hc : c.CallsAbove floor call depth call' depth') {held : List Ref}
    (hh : p.Holds floor held) {request : Request} (hv : ∀ v ∈ request.values, p.value v) :
    c.OnHeap (request.run call depth held) (request.run call' depth' held) := by
  cases request with
  | get object name => exact onHeap_getProperty hc hh (hv _ (List.mem_cons_self ..)) name
  | set object name v =>
    have ho : p.value object := hv _ (List.mem_cons_self ..)
    have hw : p.value v := hv _ (List.mem_cons_of_mem _ (List.mem_cons_self ..))
    exact .bind (Policy.keeps_setProperty hk hh.allowed ho name hw)
      (onHeap_setProperty hc hh hk ho name hw) fun _ _ => .pure _
  | call callee args =>
    have hf : p.value callee := hv _ (List.mem_cons_self ..)
    have ha : ∀ v ∈ args, p.value v := fun v hm => hv v (List.mem_cons_of_mem _ hm)
    cases callee with
    | function f => exact hc held f args hh hf ha
    | _ => exact onHeap_fail rfl

section

variable (hstop : c.stop = .error .callDepthExceeded)

include hstop

/-- A run is stopped by a call that is refused. -/
theorem agree_refused {fuel room depth : Nat} (hd : maxCallDepth ≤ depth) {held : List Ref}
    {g : Function} {args : List Value} {h : Heap} {o : Except Interrupt Value × Heap}
    (ho : ∀ e, c.stop' = some e → o = (.error e, h)) :
    Agree c.plain c.stop c.stop' (invoke fuel room depth held g args h) o := by
  rw [invoke_of_le hd, hstop]
  exact .stopped ho

theorem calls_refused {fuel room room' depth depth' : Nat} (hd : maxCallDepth ≤ depth)
    (hstop' : ∀ e, c.stop' = some e → e = .error .callDepthExceeded ∧ depth' = depth) :
    c.Calls (invoke fuel room) depth (invoke fuel room') depth' := by
  intro held g args _ _ _ h _
  refine agree_refused hstop hd fun e he => ?_
  obtain ⟨rfl, rfl⟩ := hstop' e he
  rw [invoke_of_le hd]
  rfl

/-- Calls agree with calls that are no deeper, if there is room enough for both, until a call is
refused. If it is said what stops the other run then, both are at the same depth. -/
theorem calls_invoke (fuel : Nat) {room room' depth depth' : Nat} (hle : depth' ≤ depth)
    (hstop' : ∀ e, c.stop' = some e → e = .error .callDepthExceeded ∧ depth' = depth)
    (hroom : maxCallDepth ≤ room + depth) (hroom' : maxCallDepth ≤ room' + depth') :
    c.Calls (invoke fuel room) depth (invoke fuel room') depth' := by
  induction room generalizing room' depth depth' with
  -- without room the first call is as deep as none may be
  | zero => exact calls_refused hstop (by omega) hstop'
  | succ room ih =>
    by_cases hd : depth < maxCallDepth
    · obtain ⟨room', rfl⟩ := Nat.exists_eq_succ_of_ne_zero (show room' ≠ 0 by omega)
      have hstop'' : ∀ e, c.stop' = some e →
          e = .error .callDepthExceeded ∧ depth' + 1 = depth + 1 :=
        fun e he => ⟨(hstop' e he).1, congrArg (· + 1) (hstop' e he).2⟩
      have hcalls : c.Calls (invoke fuel room) (depth + 1) (invoke fuel room') (depth' + 1) :=
        ih (Nat.add_le_add_right hle 1) hstop'' (by omega) (by omega)
      intro held g args hh hg ha h hi
      rw [invoke_of_lt hd, invoke_of_lt (Nat.lt_of_le_of_lt hle hd)]
      exact calls_enter (Policy.calls_invoke _ fuel room) hcalls fuel held g args hh hg ha h hi
    · exact calls_refused hstop (Nat.le_of_not_lt hd) hstop'

/-- All interrupts of requests are plain, but that for the depth of calls. -/
theorem plain_of_run (hstop' : ∀ e, c.stop' = some e → e = .error .callDepthExceeded)
    {held : List Ref} (hh : ∀ r ∈ held, p.held r) {request : Request}
    (hv : ∀ v ∈ request.values, p.value v) {fuel : Nat} {h h' : Heap} (hi : p.heap h)
    {e : Interrupt} (he : request.run (hostCall fuel) 0 held h = (.error e, h'))
    (hne : e ≠ .error .callDepthExceeded) : c.plain e h' := by
  have hcalls := calls_invoke hstop fuel (Nat.le_refl 0) (fun e he => ⟨hstop' e he, rfl⟩)
    (Nat.le_refl maxCallDepth) (Nat.le_refl maxCallDepth)
  have hagree := onHeap_request (Policy.calls_invoke _ fuel maxCallDepth) hcalls
    ⟨hh, List.nil_subset held⟩ hv h hi
  rw [show request.run (invoke fuel maxCallDepth) 0 held h = _ from he] at hagree
  exact hagree.eq_or_plain.resolve_left (by rwa [hstop])

/-- A lookout that lets proper calls open their frames. What it says to one for which there is no
frame left is what stops the other run. -/
structure Allows (c : Comparison p) (lookout : Lookout) : Prop where
  opens : ∀ {o : Opening}, p.value (.function o.function) → o.IsProper →
    o.frames.length < maxCallDepth → lookout o = none
  refuses : ∀ {o : Opening}, p.value (.function o.function) → o.IsProper →
    o.frames.length = maxCallDepth →
      ∀ e, c.stop' = some e → (lookout o).getD (.error .callDepthExceeded) = e

theorem Allows.agree_refused {lookout : Lookout} (hl : c.Allows lookout) {fuel room room' : Nat}
    {around held : List Ref} (hh : p.Holds around held) {g : Function}
    (hg : p.value (.function g)) {frames : List Function} (hd : frames.length = maxCallDepth)
    {args : List Value} {h : Heap} :
    Agree c.plain c.stop c.stop' (invoke fuel room frames.length held g args h)
      (invokeUnder lookout fuel room' around frames frames.length held g args h) := by
  have hle : maxCallDepth ≤ frames.length := Nat.le_of_eq hd.symm
  refine Comparison.agree_refused hstop hle fun e he => ?_
  rw [invokeUnder_of_le hle, hl.refuses hg (.of_holds hh (Nat.le_of_eq hd)) hd e he]

/-- Under a lookout that lets proper calls open their frames all calls are proper: each hands on what
is held, and its depth is the number of the frames around. -/
theorem calls_invokeUnder {lookout : Lookout} (hl : c.Allows lookout) (fuel : Nat)
    (around : List Ref) (frames : List Function) {room room' : Nat}
    (hroom : maxCallDepth ≤ room + frames.length) (hroom' : maxCallDepth ≤ room' + frames.length)
    (hle : frames.length ≤ maxCallDepth) :
    c.CallsAbove around (invoke fuel room) frames.length
      (invokeUnder lookout fuel room' around frames) frames.length := by
  induction room generalizing room' around frames with
  | zero =>
    intro held g args hh hg _ h _
    exact hl.agree_refused hstop hh hg (by omega)
  | succ room ih =>
    intro held g args hh hg ha h hi
    rcases Nat.lt_or_eq_of_le hle with hlt | hd
    · obtain ⟨room', rfl⟩ := Nat.exists_eq_succ_of_ne_zero (show room' ≠ 0 by omega)
      rw [invoke_of_lt hlt, invokeUnder_of_lt hlt (hl.opens hg (.of_holds hh hle) hlt)]
      -- both count one more: the body the depth that it hands on, and the lookout the open frames
      refine agree_enter (Policy.calls_invoke _ fuel room) hh hg ha hi ?_ fuel
      have hroom : maxCallDepth ≤ room + (g :: frames).length := by
        rw [List.length_cons]
        omega
      have hroom' : maxCallDepth ≤ room' + (g :: frames).length := by
        rw [List.length_cons]
        omega
      exact ih _ _ hroom hroom' hlt
    · exact hl.agree_refused hstop hh hg hd

theorem onHeap_requestUnder {lookout : Lookout} (hl : c.Allows lookout) (fuel : Nat)
    {held around : List Ref} (hh : p.Holds around held) {request : Request}
    (hv : ∀ v ∈ request.values, p.value v) :
    c.OnHeap (request.run (hostCall fuel) 0 held)
      (request.run (invokeUnder lookout fuel maxCallDepth around []) 0 held) := by
  have hcalls : c.CallsAbove around (hostCall fuel) 0
      (invokeUnder lookout fuel maxCallDepth around []) 0 :=
    calls_invokeUnder hstop hl fuel around [] (Nat.le_refl _) (Nat.le_refl _) (Nat.zero_le _)
  exact onHeap_request (Policy.calls_invoke _ fuel maxCallDepth) hcalls hh hv

/-- A run does not notice that it is looked at. -/
theorem run_under (hstop' : c.stop' = some (.error .callDepthExceeded)) {lookout : Lookout}
    (hl : ∀ o : Opening, p.value (.function o.function) → o.IsProper → lookout o = none)
    {held around : List Ref} (hh : p.Holds around held) {request : Request}
    (hv : ∀ v ∈ request.values, p.value v) (fuel : Nat) {h : Heap} (hi : p.heap h) :
    request.run (invokeUnder lookout fuel maxCallDepth around []) 0 held h =
      request.run (hostCall fuel) 0 held h := by
  have hallows : c.Allows lookout := by
    refine ⟨fun hg ho _ => hl _ hg ho, fun hg ho _ e he => ?_⟩
    rw [hl _ hg ho, Option.getD_none]
    exact Option.some.inj (hstop'.symm.trans he)
  have hagree := onHeap_requestUnder hstop hallows fuel hh hv h hi
  rw [hstop, hstop'] at hagree
  exact hagree.eq

end

end Comparison

end LiveDoc.Script
