import LiveDoc.Proofs.Bodies
import LiveDoc.Proofs.Frames

namespace LiveDoc.Script

theorem Agree.eq_of_ne {plain : ε → σ → Prop} {stop : ε} {stop' : Option ε}
    {o o' : Except ε α × σ} (h : Agree plain stop stop' o o') (hne : o.1 ≠ .error stop) :
    o' = o := by
  cases h with
  | ok | error => rfl
  | stopped _ => exact absurd rfl hne

def Comparison.shallower : Comparison (.bodies fun _ => True) where
  plain e _ := .error .callDepthExceeded ≠ e
  stop := .error .callDepthExceeded
  stop' := none
  error he heq := by cases heq; cases he
  endless _ _ := Interrupt.noConfusion
  loops _ := .inr fun _ => Interrupt.noConfusion
  targets _ := .inr (by simp)
  jumps _ := .inr (by simp)

theorem Request.run_of_shallower (fuel : Nat) {room room' depth depth' : Nat}
    (hle : depth' ≤ depth) (hroom : maxCallDepth ≤ room + depth)
    (hroom' : maxCallDepth ≤ room' + depth') (request : Request) (held : List Ref) (h : Heap)
    (hne : (request.run (invoke fuel room) depth held h).1 ≠ .error (.error .callDepthExceeded)) :
    request.run (invoke fuel room') depth' held h =
      request.run (invoke fuel room) depth held h := by
  have hcalls : Comparison.shallower.Calls (invoke fuel room) depth (invoke fuel room') depth' :=
    Comparison.calls_invoke rfl fuel hle nofun hroom hroom'
  have hruns : Comparison.shallower.OnHeap (request.run (invoke fuel room) depth held)
      (request.run (invoke fuel room') depth' held) :=
    Comparison.onHeap_request (Policy.calls_invoke _ fuel room)
      (hcalls.mono (List.nil_subset held)) (Policy.holds_bodies _ held) fun v _ => v.bodies_true
  exact (hruns h h.bodies_true).eq_of_ne hne

theorem eval_index {f : Frame} {held : List Ref} {object index : Expr} {s s₁ s₂ : Locals}
    {o k : Value} {name : String} (ho : eval f held object s = (.ok o, s₁))
    (hk : eval f (hold held o) index s₁ = (.ok k, s₂))
    (hname : s₂.heap.propertyName? k = some name) :
    eval f held (.index object index) s =
      Run.onHeap ((Request.get o name).run f.call (f.depth + 1) (held ++ s₂.scopes.refs)) s₂ := by
  have hproperty : Run.propertyName k s₂ = (.ok name, s₂) := by
    change Run.onHeap (HeapRun.liftText k (s₂.heap.propertyName? k)) s₂ = _
    rw [hname]
    rfl
  simp only [eval, run_bind, ho, hk, hproperty]
  rfl

/-- Whatever is called, read or written, a run that does not end with the error for its depth has
the same result and the same heap at every smaller depth. So a host that reads a property finds what a
body finds that reads it in brackets, as long as the body does not get that error. -/
theorem run_within_fewer (fuel : Nat) {few many : Nat} (hle : few ≤ many) :
    (∀ (request : Request) (held : List Ref) (h : Heap),
      (request.run (hostCall fuel) many held h).1 ≠ .error (.error .callDepthExceeded) →
        request.run (hostCall fuel) few held h = request.run (hostCall fuel) many held h) ∧
    ∀ (f : Frame) (room : Nat) (held : List Ref) (object index : Expr) (s s₁ s₂ : Locals)
      (o k : Value) (name : String),
      f.call = invoke fuel room → maxCallDepth ≤ room + (f.depth + 1) →
      eval f held object s = (.ok o, s₁) → eval f (hold held o) index s₁ = (.ok k, s₂) →
      s₂.heap.propertyName? k = some name →
      (eval f held (.index object index) s).1 ≠ .error (.error .callDepthExceeded) →
        eval f held (.index object index) s =
          Run.onHeap ((Request.get o name).run (hostCall fuel) 0 (held ++ s₂.scopes.refs)) s₂ := by
  constructor
  · intro request held h hne
    exact request.run_of_shallower fuel hle (Nat.le_add_right ..) (Nat.le_add_right ..) held h hne
  · intro f room held object index s s₁ s₂ o k name hf hroom ho hk hname hne
    rw [eval_index ho hk hname, hf] at hne ⊢
    have hread : (Request.get o name).run (hostCall fuel) 0 (held ++ s₂.scopes.refs) s₂.heap = _ :=
      Request.run_of_shallower fuel (Nat.zero_le _) hroom (Nat.le_refl _) _ _ _ hne
    simp only [Run.onHeap, hread]

def pricedHeap : Heap where
  containers := #[.mapping [("price", .number (.int 7)), ("total", .accessor ⟨some
    ⟨⟨0, [], "return this.price;", [.returns (some (.member .this "price"))]⟩, some ⟨0⟩⟩, none⟩)]]
  definitions := 1

/-- A getter within 98 frames and within 3, and read by the host. Within 100 it is refused. -/
theorem getter_within_fewer :
    let total : Request := .get (.container ⟨0⟩) "total"
    let start : Locals := ⟨pricedHeap, [[("o", ⟨.container ⟨0⟩, false⟩)]]⟩
    let frame : Frame := ⟨.undefined, [], 0, 97, invoke 0 2⟩
    let found : Except Interrupt Value := .ok (.number (.int 7))
    3 ≤ 98 ∧ total.run (hostCall 0) 98 [⟨0⟩] pricedHeap = (found, pricedHeap) ∧
      total.run (hostCall 0) 3 [⟨0⟩] pricedHeap = (found, pricedHeap) ∧
      eval frame [] (.index (.name "o") (.text "total")) start =
        Run.onHeap (total.run (hostCall 0) 0 ([] ++ start.scopes.refs)) start ∧
      (total.run (hostCall 0) 100 [⟨0⟩] pricedHeap).1 = .error (.error .callDepthExceeded) := by
  intro total start frame found
  have hmany : total.run (hostCall 0) 98 [⟨0⟩] pricedHeap = (found, pricedHeap) := by rfl
  have ho : eval frame [] (.name "o") start = (.ok (.container ⟨0⟩), start) := by rfl
  have hk : eval frame (hold [] (.container ⟨0⟩)) (.text "total") start =
      (.ok (.text "total"), start) := by rfl
  have hread : (eval frame [] (.index (.name "o") (.text "total")) start).1 = found := by rfl
  obtain ⟨hrun, hhost⟩ := run_within_fewer 0 (by decide : 3 ≤ 98)
  refine ⟨by decide, hmany, ?_, ?_, by rfl⟩
  · rw [hrun total [⟨0⟩] pricedHeap (by simp [hmany, found]), hmany]
  · exact hhost frame 2 [] (.name "o") (.text "total") start start start (.container ⟨0⟩)
      (.text "total") "total" rfl (by decide) ho hk rfl (by simp [hread, found])

end LiveDoc.Script
