import LiveDoc.Proofs.Obedience

namespace LiveDoc.Script

inductive Request where
  | get (object : Value) (name : String)
  | set (object : Value) (name : String) (v : Value)
  | call (callee : Value) (args : List Value)

namespace Request

def values : Request → List Value
  | get object _ => [object]
  | set object _ v => [object, v]
  | call callee args => callee :: args

/-- Does what is asked at a depth, while some containers are held. A host asks at the depth of 0. -/
def run (invoke : Call) (depth : Nat) (held : List Ref) : Request → HeapRun Value
  | get object name => HeapRun.getProperty invoke depth held object name
  | set object name v => do
    HeapRun.setProperty invoke depth held object name v
    return .undefined
  | call (.function f) args => invoke depth held f args
  | call other _ => HeapRun.fail (.notCallable other.typeName)

end Request

/-- A request, with what the host holds meanwhile and the rounds that a loop is given. -/
structure Turn where
  request : Request
  held : List Ref
  fuel : Nat

def Turn.run (turn : Turn) : HeapRun Value :=
  turn.request.run (hostCall turn.fuel) 0 turn.held

/-- What a host finds after it has asked for one thing after the other, whether it got it or not. -/
def afterAll (h : Heap) (turns : List Turn) : Heap :=
  turns.foldl (fun h turn => (turn.run h).2) h

namespace Policy

variable {p : Policy}

theorem keeps_request {invoke : Call} (hc : p.Calls invoke) {depth : Nat} {held : List Ref}
    (hh : ∀ r ∈ held, p.held r) {request : Request} (hv : ∀ v ∈ request.values, p.value v) :
    Keeps p.heap p.value (request.run invoke depth held) := by
  cases request with
  | get object name =>
    have ho : p.value object := hv _ (List.mem_cons_self ..)
    exact keeps_getProperty hc hh ho name
  | set object name v =>
    have ho : p.value object := hv _ (List.mem_cons_self ..)
    have hw : p.value v := hv _ (List.mem_cons_of_mem _ (List.mem_cons_self ..))
    refine (keeps_setProperty hc hh ho name hw).bind fun _ _ => ?_
    exact .pure (p.data trivial)
  | call callee args =>
    have hf : p.value callee := hv _ (List.mem_cons_self ..)
    have ha : ∀ v ∈ args, p.value v := fun v hm => hv v (List.mem_cons_of_mem _ hm)
    cases callee with
    | function f => exact hc depth held f args hh hf ha
    | _ => exact .throw _ _

end Policy

end LiveDoc.Script
