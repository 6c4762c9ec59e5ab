import LiveDoc.Proofs.Jumps
import LiveDoc.Proofs.Obedience
import LiveDoc.Proofs.Rendering

namespace LiveDoc.Script

/-- How two runs end: both in the same way, an interrupt being a plain one, or the first is stopped.
The second is then stopped in the same state, if it is said by what. -/
inductive Agree (plain : ε → σ → Prop) (stop : ε) (stop' : Option ε) :
    Except ε α × σ → Except ε α × σ → Prop
  | ok : Agree plain stop stop' (.ok a, s) (.ok a, s)
  | error (he : plain e s) : Agree plain stop stop' (.error e, s) (.error e, s)
  | stopped {o : Except ε α × σ} (ho : ∀ e, stop' = some e → o = (.error e, s)) :
    Agree plain stop stop' (.error stop, s) o

namespace Agree

variable {plain : ε → σ → Prop} {stop : ε} {s : σ}

theorem eq_or_plain {stop' : Option ε} {e : ε} {o : Except ε α × σ}
    (h : Agree plain stop stop' (.error e, s) o) : e = stop ∨ plain e s := by
  cases h with
  | error he => exact .inr he
  | stopped _ => exact .inl rfl

theorem eq_of_stopped {e : ε} {o : Except ε α × σ}
    (h : Agree plain stop (some e) (.error stop, s) o) (hstop : ¬plain stop s) :
    o = (.error e, s) := by
  cases h with
  | error he => exact absurd he hstop
  | stopped ho => exact ho e rfl

theorem eq {o o' : Except ε α × σ} (h : Agree plain stop (some stop) o o') : o' = o := by
  cases h with
  | ok | error => rfl
  | stopped ho => exact ho stop rfl

end Agree

def Agrees (inv : σ → Prop) (plain : ε → σ → Prop) (stop : ε) (stop' : Option ε)
    (act act' : ExceptT ε (StateM σ) α) : Prop :=
  ∀ s, inv s → Agree plain stop stop' (act s) (act' s)

namespace Agrees

variable {inv : σ → Prop} {plain : ε → σ → Prop} {stop : ε} {stop' : Option ε}

theorem pure (a : α) : Agrees inv plain stop stop' (pure a) (pure a) :=
  fun _ _ => .ok

theorem throw {e : ε} (he : ∀ s, plain e s) :
    Agrees inv plain stop stop' (throw e : ExceptT ε (StateM σ) α) (throw e) :=
  fun s _ => .error (he s)

theorem bind {mid : α → Prop} {act act' : ExceptT ε (StateM σ) α}
    {next next' : α → ExceptT ε (StateM σ) β} (hk : Keeps inv mid act)
    (h : Agrees inv plain stop stop' act act')
    (hn : ∀ a, mid a → Agrees inv plain stop stop' (next a) (next' a)) :
    Agrees inv plain stop stop' (act >>= next) (act' >>= next') := by
  intro s hs
  obtain ⟨hi, hp⟩ := hk s hs
  have hact := h s hs
  rw [run_bind, run_bind]
  generalize act s = o at hi hp hact
  generalize act' s = o' at hact
  cases hact with
  | ok => exact hn _ (hp _ rfl) _ hi
  | error he => exact .error he
  | stopped ho =>
    refine .stopped fun e he => ?_
    rw [ho e he]

theorem get_bind {next next' : σ → ExceptT ε (StateM σ) β}
    (hn : ∀ s, inv s → Agree plain stop stop' (next s s) (next' s s)) :
    Agrees inv plain stop stop' (get >>= next) (get >>= next') :=
  fun s hs => hn s hs

end Agrees

mutual

def Stmt.isLoopFree : Stmt → Bool
  | .whileLoop _ _ => false
  | .ifElse _ thenStmt none => thenStmt.isLoopFree
  | .ifElse _ thenStmt (some elseStmt) => thenStmt.isLoopFree && elseStmt.isLoopFree
  | .block body => areLoopFree body
  | _ => true
termination_by structural s => s

def areLoopFree : List Stmt → Bool
  | [] => true
  | s :: rest => s.isLoopFree && areLoopFree rest
termination_by structural body => body

end

/-- Takes every text for an identifier. What a body assigns to has nothing to do with that. -/
def anyName (_ : String) : Bool := true

def RuntimeError.isOrdinary : RuntimeError → Bool
  | callDepthExceeded | invalidAssignmentTarget | strayControlFlow _ => false
  | _ => true

/-- What a policy allows to be held, with some containers at least. -/
structure Policy.Holds (p : Policy) (floor held : List Ref) : Prop where
  allowed : ∀ r ∈ held, p.held r
  above : floor ⊆ held

namespace Policy.Holds

variable {p : Policy} {floor held : List Ref}

theorem hold (hh : p.Holds floor held) {v : Value} (hv : p.value v) :
    p.Holds floor (hold held v) :=
  ⟨held_hold hh.allowed hv, List.Subset.trans hh.above (subset_hold held v)⟩

theorem foldl_hold (hh : p.Holds floor held) {vs : List Value} (hvs : ∀ v ∈ vs, p.value v) :
    p.Holds floor (vs.foldl Script.hold held) :=
  ⟨held_foldl_hold hh.allowed hvs, List.Subset.trans hh.above (subset_foldl_hold held vs)⟩

theorem append_refs (hh : p.Holds floor held) {s : Script.Locals} (hs : p.Locals s) :
    p.Holds floor (held ++ s.scopes.refs) :=
  ⟨held_append_refs hs hh.allowed, List.subset_append_of_subset_left _ hh.above⟩

end Policy.Holds

/-- What is expected of runs under a policy: the interrupts that they may end with, and what the
first and the second one are stopped by. -/
structure Comparison (p : Policy) where
  plain : Interrupt → Heap → Prop
  stop : Interrupt
  stop' : Option Interrupt
  error : ∀ {e h}, e.isOrdinary = true → plain (.error e) h
  endless : ∀ {h v}, p.heap h → h.text? v = none → plain (.endlessText v) h
  loops : ∀ {f}, p.value (.function f) →
    areLoopFree f.definition.body = true ∨ ∀ h, plain .outOfFuel h
  targets : ∀ {f}, p.value (.function f) →
    allWellFormed anyName f.definition.body = true ∨
      ∀ h, plain (.error .invalidAssignmentTarget) h
  jumps : ∀ {f}, p.value (.function f) →
    allJumpInLoops f.definition.body = true ∨
      ∀ statement h, plain (.error (.strayControlFlow statement)) h

namespace Comparison

variable {p : Policy} (c : Comparison p)

def OnHeap (act act' : HeapRun α) : Prop :=
  Agrees p.heap c.plain c.stop c.stop' act act'

def OnLocals (act act' : Run α) : Prop :=
  Agrees p.Locals (fun e s => c.plain e s.heap) c.stop c.stop' act act'

/-- Calls at one depth and at another that agree wherever the policy allows them, as long as some
containers are held. -/
def CallsAbove (floor : List Ref) (call : Call) (depth : Nat) (call' : Call) (depth' : Nat) :
    Prop :=
  ∀ held f args, p.Holds floor held → p.value (.function f) → (∀ v ∈ args, p.value v) →
    c.OnHeap (call depth held f args) (call' depth' held f args)

def CallsWithin (floor : List Ref) (f : Frame) (call' : Call) (depth' : Nat) : Prop :=
  c.CallsAbove floor f.call (f.depth + 1) call' (depth' + 1)

def Calls (call : Call) (depth : Nat) (call' : Call) (depth' : Nat) : Prop :=
  c.CallsAbove [] call depth call' depth'

/-- A part of a body that is well-formed, if assignments to what is no target are not plain. -/
def Aimed (wellFormed : Bool) : Prop :=
  wellFormed = true ∨ ∀ h, c.plain (.error .invalidAssignmentTarget) h

variable {c}

theorem aimed_and {a b : Bool} : c.Aimed (a && b) ↔ c.Aimed a ∧ c.Aimed b := by
  simp only [Aimed, Bool.and_eq_true, and_or_right]

section Properties

variable {call call' : Call} {depth depth' : Nat} {floor held : List Ref}

theorem onHeap_fail {e : RuntimeError} (he : e.isOrdinary = true) :
    c.OnHeap (HeapRun.fail e : HeapRun α) (HeapRun.fail e) :=
  .throw fun _ => c.error he

theorem onHeap_readSlot (hc : c.CallsAbove floor call depth call' depth')
    (hh : p.Holds floor held) {slot : Option Value} (hs : ∀ v, slot = some v → p.value v) :
    c.OnHeap (HeapRun.readSlot call depth held slot) (HeapRun.readSlot call' depth' held slot) := by
  cases slot with
  | none => exact .pure _
  | some v =>
    cases v with
    | accessor a =>
      cases a with
      | mk getter setter =>
        cases getter with
        | none => exact .pure _
        | some f => exact hc _ _ _ hh (p.getter (hs _ rfl) rfl) (by simp)
    | _ => exact .pure _

theorem onHeap_getElement (hc : c.CallsAbove floor call depth call' depth')
    (hh : p.Holds floor held) {items : Array Value} (hs : ∀ v ∈ items.toList, p.value v)
    (name : String) :
    c.OnHeap (HeapRun.getElement call depth held items name)
      (HeapRun.getElement call' depth' held items name) := by
  rw [HeapRun.getElement, HeapRun.getElement]
  split
  · exact .pure _
  · split
    next i _ =>
      refine onHeap_readSlot hc hh fun v hv => hs v ?_
      exact Array.mem_toList_iff.2 (Array.mem_of_getElem? hv)
    · exact .pure _

theorem onHeap_getProperty (hc : c.CallsAbove floor call depth call' depth')
    (hh : p.Holds floor held) {object : Value} (ho : p.value object) (name : String) :
    c.OnHeap (HeapRun.getProperty call depth held object name)
      (HeapRun.getProperty call' depth' held object name) := by
  cases object with
  | container r =>
    apply Agrees.get_bind
    intro h hi
    have hh' := hh.hold ho
    cases he : h.get? r with
    | none => exact .ok
    | some d =>
      cases d with
      | mapping entries =>
        have hs : ∀ v, entries.get? name = some v → p.value v :=
          fun v hv => p.read hi ho he (Slots.mem_values_of_get? hv)
        exact onHeap_readSlot hc hh' hs h hi
      | sequence items =>
        exact onHeap_getElement hc hh' (fun v hv => p.read hi ho he hv) name h hi
  | undefined | null => exact onHeap_fail rfl
  | text | bool | number | function | accessor => exact .pure _

theorem onHeap_writeAccessor (hc : c.CallsAbove floor call depth call' depth')
    (hh : p.Holds floor held) (hk : p.Calls call) {a : Accessor} (ha : p.value (.accessor a))
    (name : String) {v : Value} (hv : p.value v) :
    c.OnHeap (HeapRun.writeAccessor call depth held a name v)
      (HeapRun.writeAccessor call' depth' held a name v) := by
  rw [HeapRun.writeAccessor, HeapRun.writeAccessor]
  split
  next setter hs =>
    have hsetter := p.setter ha hs
    have hargs : ∀ w ∈ [v], p.value w := by simpa using hv
    exact .bind (hk _ _ _ _ hh.allowed hsetter hargs) (hc _ _ _ hh hsetter hargs) fun _ _ => .pure _
  · exact onHeap_fail rfl

theorem onHeap_setEntry (hc : c.CallsAbove floor call depth call' depth')
    (hh : p.Holds floor held) (hk : p.Calls call) {r : Ref} {entries : Entries} {name : String}
    (hs : ∀ v, entries.get? name = some v → p.value v) {v : Value} (hv : p.value v) :
    c.OnHeap (HeapRun.setEntry call depth held r entries name v)
      (HeapRun.setEntry call' depth' held r entries name v) := by
  simp only [HeapRun.setEntry]
  split
  next a ha => exact onHeap_writeAccessor hc hh hk (hs _ ha) name hv
  · exact fun _ _ => .ok

theorem onHeap_setElement (hc : c.CallsAbove floor call depth call' depth')
    (hh : p.Holds floor held) (hk : p.Calls call) {r : Ref} {items : Array Value}
    (hs : ∀ v ∈ items.toList, p.value v) (i : Nat) {v : Value} (hv : p.value v) :
    c.OnHeap (HeapRun.setElement call depth held r items i v)
      (HeapRun.setElement call' depth' held r items i v) := by
  simp only [HeapRun.setElement]
  split
  next a ha =>
    have hm := Array.mem_toList_iff.2 (Array.mem_of_getElem? ha)
    exact onHeap_writeAccessor hc hh hk (hs _ hm) _ hv
  · split
    · exact onHeap_fail rfl
    · exact fun _ _ => .ok

theorem onHeap_setProperty (hc : c.CallsAbove floor call depth call' depth')
    (hh : p.Holds floor held) (hk : p.Calls call) {object : Value} (ho : p.value object)
    (name : String) {v : Value} (hv : p.value v) :
    c.OnHeap (HeapRun.setProperty call depth held object name v)
      (HeapRun.setProperty call' depth' held object name v) := by
  cases object with
  | container r =>
    apply Agrees.get_bind
    intro h hi
    have hh' := hh.hold ho
    cases he : h.get? r with
    | none => exact onHeap_fail rfl h hi
    | some d =>
      cases d with
      | mapping entries =>
        have hs : ∀ v, entries.get? name = some v → p.value v :=
          fun v hv => p.read hi ho he (Slots.mem_values_of_get? hv)
        exact onHeap_setEntry hc hh' hk hs hv h hi
      | sequence items =>
        cases hi' : Decimal.index? name.toList with
        | none => exact onHeap_fail rfl h hi
        | some i =>
          exact onHeap_setElement hc hh' hk (fun v hv => p.read hi ho he hv) i hv h hi
  | undefined | null | bool | number | text | function | accessor => exact onHeap_fail rfl

end Properties

section Steps

theorem agree_onHeap {act act' : HeapRun α} {s : Locals}
    (h : Agree c.plain c.stop c.stop' (act s.heap) (act' s.heap)) :
    Agree (fun e s => c.plain e s.heap) c.stop c.stop' (Run.onHeap act s)
      (Run.onHeap act' s) := by
  simp only [Run.onHeap]
  generalize act s.heap = o at h
  generalize act' s.heap = o' at h
  cases h with
  | ok => exact .ok
  | error he => exact .error he
  | stopped ho =>
    refine .stopped fun e he => ?_
    rw [ho e he]

theorem onLocals_onHeap {act act' : HeapRun α} (h : c.OnHeap act act') :
    c.OnLocals (Run.onHeap act) (Run.onHeap act') :=
  fun s hs => agree_onHeap (h s.heap hs.1)

theorem onLocals_fail {e : RuntimeError} (he : e.isOrdinary = true) :
    c.OnLocals (Run.fail e : Run α) (Run.fail e) :=
  .throw fun _ => c.error he

theorem agree_liftText {v : Value} {made : Option α} {h : Heap} (hi : p.heap h)
    (hm : made = none → h.text? v = none) :
    Agree c.plain c.stop c.stop' (HeapRun.liftText v made h) (HeapRun.liftText v made h) := by
  cases made with
  | none => exact .error (c.endless hi (hm rfl))
  | some a => exact .ok

theorem onLocals_lookup (name : String) : c.OnLocals (Run.lookup name) (Run.lookup name) := by
  apply Agrees.get_bind
  intro s hs
  rw [Scopes.lookup]
  cases Scopes.find? name s.scopes with
  | some binding => exact .ok
  | none => exact onLocals_fail rfl s hs

theorem onLocals_onScopes {change : Scopes → Except RuntimeError Scopes}
    (h : ∀ {scopes e}, change scopes = .error e → e.isOrdinary = true) :
    c.OnLocals (Run.onScopes change) (Run.onScopes change) := by
  apply Agrees.get_bind
  intro s hs
  cases he : change s.scopes with
  | ok scopes => exact .ok
  | error e => exact onLocals_fail (h he) s hs

theorem isOrdinary_of_declare {scopes : Scopes} {name : String} {v : Value}
    {isConst : Bool} {e : RuntimeError} (he : scopes.declare name v isConst = .error e) :
    e.isOrdinary = true := by
  cases scopes with
  | nil => cases he; rfl
  | cons scope outer =>
    rw [Scopes.declare] at he
    split at he
    · cases he; rfl
    · cases he

theorem isOrdinary_of_assign {scopes : Scopes} {name : String} {v : Value}
    {e : RuntimeError} (he : scopes.assign name v = .error e) : e.isOrdinary = true := by
  induction scopes with
  | nil => cases he; rfl
  | cons scope outer ih =>
    rw [Scopes.assign] at he
    split at he
    · split at he
      · cases he; rfl
      · cases he
    · cases ho : Scopes.assign name v outer with
      | ok outer' => simp [ho, Except.map] at he
      | error e' =>
        simp only [ho, Except.map, Except.error.injEq] at he
        subst he
        exact ih ho

theorem onLocals_inBlock {act act' : Run α} (h : c.OnLocals act act') :
    c.OnLocals (Run.inBlock act) (Run.inBlock act') := by
  intro s hs
  have hs' : p.Locals { s with scopes := [] :: s.scopes } := by
    refine ⟨hs.1, fun scope hm => ?_⟩
    rcases List.mem_cons.1 hm with rfl | hm
    · simp [Slots.values]
    · exact hs.2 scope hm
  have hact := h _ hs'
  simp only [Run.inBlock]
  generalize act { s with scopes := [] :: s.scopes } = o at hact
  generalize act' { s with scopes := [] :: s.scopes } = o' at hact
  cases hact with
  | ok => exact .ok
  | error he => exact .error he
  | stopped ho =>
    refine .stopped fun e he => ?_
    rw [ho e he]

theorem onLocals_propertyName (v : Value) :
    c.OnLocals (Run.propertyName v) (Run.propertyName v) := by
  apply Agrees.get_bind
  intro s hs
  refine agree_onHeap (agree_liftText hs.1 fun hn => ?_)
  cases v with
  | number n =>
    simp only [Heap.propertyName?] at hn
    split at hn <;> cases hn
  | _ => exact hn

theorem text?_textless_of_sum? {h : Heap} {a b : Value} (hn : sum? h a b = none) :
    h.text? (h.textless a b) = none := by
  rw [sum?] at hn
  rw [Heap.textless]
  split at hn
  · cases ha : h.text? a with
    | none => simpa using ha
    | some s =>
      cases hb : h.text? b with
      | none => simpa using hb
      | some t => simp [ha, hb] at hn
  · cases hn

theorem onLocals_applyBinary (op : BinaryOp) (a b : Value) :
    c.OnLocals (Run.applyBinary op a b) (Run.applyBinary op a b) := by
  apply Agrees.get_bind
  intro s hs
  refine agree_onHeap (agree_liftText hs.1 fun hn => ?_)
  cases op with
  | add => exact text?_textless_of_sum? hn
  | _ => cases hn

variable {f : Frame} {call' : Call} {depth depth' : Nat} {floor held : List Ref}

theorem onLocals_getProperty (hc : c.CallsWithin floor f call' depth')
    (hh : p.Holds floor held) {object : Value} (ho : p.value object) (name : String) :
    c.OnLocals (Run.getProperty f (f.depth + 1) held object name)
      (Run.getProperty { f with call := call', depth := depth' } (depth' + 1) held object
        name) := by
  apply Agrees.get_bind
  intro s hs
  have hh' := hh.append_refs hs
  exact onLocals_onHeap (onHeap_getProperty hc hh' ho name) s hs

theorem onLocals_setProperty (hf : p.Frame f) (hc : c.CallsWithin floor f call' depth')
    (hh : p.Holds floor held) {object : Value} (ho : p.value object) (name : String) {v : Value}
    (hv : p.value v) :
    c.OnLocals (Run.setProperty f (f.depth + 1) held object name v)
      (Run.setProperty { f with call := call', depth := depth' } (depth' + 1) held object name
        v) := by
  apply Agrees.get_bind
  intro s hs
  have hh' := hh.append_refs hs
  exact onLocals_onHeap (onHeap_setProperty hc hh' hf.call ho name hv) s hs

theorem onLocals_call (hc : c.CallsWithin floor f call' depth') (hh : p.Holds floor held)
    {callee : Value} (hv : p.value callee) {args : List Value} (ha : ∀ v ∈ args, p.value v) :
    c.OnLocals (Run.call f (f.depth + 1) held callee args)
      (Run.call { f with call := call', depth := depth' } (depth' + 1) held callee args) := by
  cases callee with
  | function g =>
    apply Agrees.get_bind
    intro s hs
    have hh' := hh.append_refs hs
    exact onLocals_onHeap (hc _ _ _ hh' hv ha) s hs
  | _ => exact onLocals_fail rfl

variable {op : Option BinaryOp} {right right' : List Ref → Run Value}

theorem onLocals_assigned {current current' : Run Value} (hh : p.Holds floor held)
    (hkc : Keeps p.Locals p.value current) (hc : c.OnLocals current current')
    (hkr : ∀ held, (∀ r ∈ held, p.held r) → Keeps p.Locals p.value (right held))
    (hr : ∀ held, p.Holds floor held → c.OnLocals (right held) (right' held)) :
    c.OnLocals (Run.assigned held op current right) (Run.assigned held op current' right') := by
  cases op with
  | none => exact hr held hh
  | some op =>
    refine .bind hkc hc fun left hl => ?_
    have hh' := hh.hold hl
    exact .bind (hkr _ hh'.allowed) (hr _ hh') fun v _ => onLocals_applyBinary op left v

theorem onLocals_assignName (hh : p.Holds floor held) (name : String)
    (hkr : ∀ held, (∀ r ∈ held, p.held r) → Keeps p.Locals p.value (right held))
    (hr : ∀ held, p.Holds floor held → c.OnLocals (right held) (right' held)) :
    c.OnLocals (Run.assignName held name op right) (Run.assignName held name op right') := by
  have hk := Policy.keeps_lookup (p := p) name
  refine .bind (Policy.keeps_assigned hh.allowed hk hkr)
    (onLocals_assigned hh hk (onLocals_lookup name) hkr hr) fun v hv => ?_
  exact .bind (Policy.keeps_onScopes fun hs he => hs.assign hv he)
    (onLocals_onScopes isOrdinary_of_assign) fun _ _ => .pure v

theorem onLocals_assignProperty (hf : p.Frame f) (hc : c.CallsWithin floor f call' depth')
    (hh : p.Holds floor held) {object : Value} (ho : p.value object) (name : String)
    (hkr : ∀ held, (∀ r ∈ held, p.held r) → Keeps p.Locals p.value (right held))
    (hr : ∀ held, p.Holds floor held → c.OnLocals (right held) (right' held)) :
    c.OnLocals (Run.assignProperty f held object name op right)
      (Run.assignProperty { f with call := call', depth := depth' } held object name op
        right') := by
  have hh' := hh.hold ho
  have hk : Keeps p.Locals p.value
      (Run.getProperty f (f.depth + 1) (hold held object) object name) :=
    Policy.keeps_getPropertyIn hf hh'.allowed ho name
  refine .bind (Policy.keeps_assigned hh'.allowed hk hkr)
    (onLocals_assigned hh' hk (onLocals_getProperty hc hh' ho name) hkr hr) fun v hv => ?_
  have hh'' := hh'.hold hv
  exact .bind (Policy.keeps_setPropertyIn hf hh''.allowed ho name hv)
    (onLocals_setProperty hf hc hh'' ho name hv) fun _ _ => .pure v

end Steps

section Expressions

variable {f : Frame} {call' : Call} {depth' : Nat} {floor : List Ref}

mutual

theorem agrees_eval (hf : p.Frame f) (hc : c.CallsWithin floor f call' depth') (e : Expr)
    (he : c.Aimed (e.isWellFormed anyName)) {held : List Ref} (hh : p.Holds floor held) :
    c.OnLocals (eval f held e) (eval { f with call := call', depth := depth' } held e) := by
  -- by the form of `e`: its parts agree, and what calls a function does so one frame deeper in both
  match e with
  | .number _ | .text _ | .bool _ | .null | .undefined | .this =>
    simp only [eval]
    exact .pure _
  | .name s =>
    simp only [eval]
    exact onLocals_lookup s
  | .array items =>
    simp only [eval]
    exact .bind (Policy.keeps_evalAll hf items hh.allowed) (agrees_evalAll hf hc items he hh)
      fun vs _ => onLocals_onHeap fun _ _ => .ok
  | .object entries =>
    simp only [eval]
    have hnil : ∀ v ∈ Slots.values ([] : Entries), p.value v := by simp [Slots.values]
    exact .bind (Policy.keeps_evalEntries hf entries hh.allowed hnil)
      (agrees_evalEntries hf hc entries he hh hnil) fun es _ => onLocals_onHeap fun _ _ => .ok
  | .member object property =>
    simp only [eval]
    simp only [Expr.isWellFormed, aimed_and] at he
    exact .bind (Policy.keeps_eval hf object hh.allowed) (agrees_eval hf hc object he.1 hh)
      fun o ho => onLocals_getProperty hc hh ho property
  | .index object index =>
    simp only [eval]
    simp only [Expr.isWellFormed, aimed_and] at he
    refine .bind (Policy.keeps_eval hf object hh.allowed) (agrees_eval hf hc object he.1 hh)
      fun o ho => ?_
    have hh' := hh.hold ho
    refine .bind (Policy.keeps_eval hf index hh'.allowed) (agrees_eval hf hc index he.2 hh')
      fun i _ => ?_
    exact .bind (Policy.keeps_propertyName i) (onLocals_propertyName i)
      fun name _ => onLocals_getProperty hc hh ho name
  | .call callee args =>
    simp only [eval]
    simp only [Expr.isWellFormed, aimed_and] at he
    refine .bind (Policy.keeps_eval hf callee hh.allowed) (agrees_eval hf hc callee he.1 hh)
      fun v hv => ?_
    have hh' := hh.hold hv
    exact .bind (Policy.keeps_evalAll hf args hh'.allowed) (agrees_evalAll hf hc args he.2 hh')
      fun vs hvs => onLocals_call hc hh hv hvs
  | .unary op operand =>
    simp only [eval]
    exact .bind (Policy.keeps_eval hf operand hh.allowed) (agrees_eval hf hc operand he hh)
      fun v _ => .pure _
  | .binary op left right =>
    simp only [eval]
    simp only [Expr.isWellFormed, aimed_and] at he
    refine .bind (Policy.keeps_eval hf left hh.allowed) (agrees_eval hf hc left he.1 hh)
      fun l hl => ?_
    have hh' := hh.hold hl
    exact .bind (Policy.keeps_eval hf right hh'.allowed) (agrees_eval hf hc right he.2 hh')
      fun r _ => onLocals_applyBinary op l r
  | .logical op left right =>
    simp only [eval]
    simp only [Expr.isWellFormed, aimed_and] at he
    refine .bind (Policy.keeps_eval hf left hh.allowed) (agrees_eval hf hc left he.1 hh)
      fun l hl => ?_
    split
    · exact .pure _
    · exact agrees_eval hf hc right he.2 (hh.hold hl)
  | .conditional condition thenExpr elseExpr =>
    simp only [eval]
    simp only [Expr.isWellFormed, aimed_and] at he
    refine .bind (Policy.keeps_eval hf condition hh.allowed) (agrees_eval hf hc condition he.1.1 hh)
      fun v _ => ?_
    split
    · exact agrees_eval hf hc thenExpr he.1.2 hh
    · exact agrees_eval hf hc elseExpr he.2 hh
  | .assign target op value =>
    simp only [Expr.isWellFormed, aimed_and] at he
    obtain ⟨⟨⟨htarget, _⟩, ht⟩, hv⟩ := he
    have hkr : ∀ held, (∀ r ∈ held, p.held r) → Keeps p.Locals p.value (eval f held value) :=
      fun _ hh => Policy.keeps_eval hf value hh
    have hr : ∀ held, p.Holds floor held →
        c.OnLocals (eval f held value)
          (eval { f with call := call', depth := depth' } held value) :=
      fun _ hh => agrees_eval hf hc value hv hh
    match target with
    | .name s =>
      simp only [eval]
      exact onLocals_assignName hh s hkr hr
    | .member object property =>
      simp only [eval]
      simp only [Expr.isWellFormed, aimed_and] at ht
      exact .bind (Policy.keeps_eval hf object hh.allowed) (agrees_eval hf hc object ht.1 hh)
        fun o ho => onLocals_assignProperty hf hc hh ho property hkr hr
    | .index object index =>
      simp only [eval]
      simp only [Expr.isWellFormed, aimed_and] at ht
      refine .bind (Policy.keeps_eval hf object hh.allowed) (agrees_eval hf hc object ht.1 hh)
        fun o ho => ?_
      have hh' := hh.hold ho
      refine .bind (Policy.keeps_eval hf index hh'.allowed) (agrees_eval hf hc index ht.2 hh')
        fun i _ => ?_
      exact .bind (Policy.keeps_propertyName i) (onLocals_propertyName i)
        fun name _ => onLocals_assignProperty hf hc hh ho name hkr hr
    | .number _ | .text _ | .bool _ | .null | .undefined | .this | .array _ | .object _
    | .call _ _ | .unary _ _ | .binary _ _ _ | .logical _ _ _ | .conditional _ _ _
    | .assign _ _ _ =>
      simp only [eval]
      have hplain := htarget.resolve_left (by simp [Expr.isTarget])
      exact .throw fun s => hplain s.heap

theorem agrees_evalAll (hf : p.Frame f) (hc : c.CallsWithin floor f call' depth') (es : List Expr)
    (hes : c.Aimed (areWellFormed anyName es)) {held : List Ref} (hh : p.Holds floor held) :
    c.OnLocals (evalAll f held es) (evalAll { f with call := call', depth := depth' } held es) := by
  match es with
  | [] =>
    simp only [evalAll]
    exact .pure _
  | e :: es =>
    simp only [evalAll]
    simp only [areWellFormed, aimed_and] at hes
    refine .bind (Policy.keeps_eval hf e hh.allowed) (agrees_eval hf hc e hes.1 hh) fun v hv => ?_
    have hh' := hh.hold hv
    exact .bind (Policy.keeps_evalAll hf es hh'.allowed) (agrees_evalAll hf hc es hes.2 hh')
      fun vs _ => .pure _

theorem agrees_evalEntries (hf : p.Frame f) (hc : c.CallsWithin floor f call' depth')
    (es : List (String × Expr)) (hes : c.Aimed (entriesWellFormed anyName es))
    {held : List Ref} (hh : p.Holds floor held) {done : Entries}
    (hd : ∀ v ∈ done.values, p.value v) :
    c.OnLocals (evalEntries f held done es)
      (evalEntries { f with call := call', depth := depth' } held done es) := by
  match es with
  | [] =>
    simp only [evalEntries]
    exact .pure _
  | (key, e) :: rest =>
    simp only [evalEntries]
    simp only [entriesWellFormed, aimed_and] at hes
    have hh' := hh.foldl_hold hd
    refine .bind (Policy.keeps_eval hf e hh'.allowed) (agrees_eval hf hc e hes.1 hh') fun v hv => ?_
    refine agrees_evalEntries hf hc rest hes.2 hh fun w hw => ?_
    rcases Slots.mem_values_put hw with rfl | hw
    · exact hv
    · exact hd w hw

end

end Expressions

section Statements

variable {f : Frame} {call' : Call} {depth' : Nat} {floor : List Ref}

theorem agrees_loop {condition condition' : Run Value} {body body' : Run Flow}
    (hkc : Keeps p.Locals p.value condition) (hc : c.OnLocals condition condition')
    (hkb : Keeps p.Locals p.Flow body) (hb : c.OnLocals body body')
    (hfuel : ∀ h, c.plain .outOfFuel h) (fuel : Nat) :
    c.OnLocals (loop condition body fuel) (loop condition' body' fuel) := by
  induction fuel with
  | zero => exact .throw fun _ => hfuel _
  | succ fuel ih =>
    simp only [loop]
    refine .bind hkc hc fun v _ => ?_
    split
    · refine .bind hkb hb fun flow _ => ?_
      cases flow with
      | breaks | returns => exact .pure _
      | normal | continues => exact ih
    · exact .pure _

theorem agrees_declareAll (hf : p.Frame f) (hc : c.CallsWithin floor f call' depth')
    (hh : p.Holds floor f.held) (isConst : Bool)
    (bindings : List (String × Option Expr))
    (hb : c.Aimed (bindings.all fun b => initializerWellFormed anyName b.2)) :
    c.OnLocals (declareAll f isConst bindings)
      (declareAll { f with call := call', depth := depth' } isConst bindings) := by
  induction bindings with
  | nil => exact .pure _
  | cons binding rest ih =>
    simp only [List.all_cons, aimed_and] at hb
    cases binding with
    | mk name init =>
      have hk : Keeps p.Locals p.value (init.elim (pure .undefined) (eval f f.held)) := by
        cases init with
        | none => exact .pure (p.data trivial)
        | some e => exact Policy.keeps_eval hf e hf.held
      have hinit : c.OnLocals (init.elim (pure .undefined) (eval f f.held))
          (init.elim (pure .undefined)
            (eval { f with call := call', depth := depth' } f.held)) := by
        cases init with
        | none => exact .pure _
        | some e => exact agrees_eval hf hc e hb.1 hh
      refine .bind hk hinit fun v hv => ?_
      exact .bind (Policy.keeps_onScopes fun hs he => hs.declare hv he)
        (onLocals_onScopes isOrdinary_of_declare) fun _ _ => ih hb.2

mutual

theorem agrees_exec (hf : p.Frame f) (hc : c.CallsWithin floor f call' depth')
    (hh : p.Holds floor f.held) (s : Stmt)
    (hs : s.isLoopFree = true ∨ ∀ h, c.plain .outOfFuel h)
    (ht : c.Aimed (s.isWellFormed anyName)) :
    c.OnLocals (exec f s) (exec { f with call := call', depth := depth' } s) := by
  match s with
  | .declare isConst bindings =>
    simp only [exec]
    simp only [Stmt.isWellFormed, aimed_and] at ht
    exact .bind (Policy.keeps_declareAll hf isConst bindings)
      (agrees_declareAll hf hc hh isConst bindings ht.2) fun _ _ => .pure _
  | .returns none =>
    simp only [exec]
    exact .pure _
  | .returns (some e) =>
    simp only [exec]
    exact .bind (Policy.keeps_eval hf e hf.held) (agrees_eval hf hc e ht hh)
      fun v _ => .pure _
  | .ifElse condition thenStmt none =>
    simp only [exec]
    simp only [Stmt.isLoopFree] at hs
    simp only [Stmt.isWellFormed, aimed_and] at ht
    refine .bind (Policy.keeps_eval hf condition hf.held)
      (agrees_eval hf hc condition ht.1 hh) fun v _ => ?_
    split
    · exact agrees_exec hf hc hh thenStmt hs ht.2
    · exact .pure _
  | .ifElse condition thenStmt (some elseStmt) =>
    simp only [exec]
    simp only [Stmt.isLoopFree, Bool.and_eq_true] at hs
    simp only [Stmt.isWellFormed, aimed_and] at ht
    refine .bind (Policy.keeps_eval hf condition hf.held)
      (agrees_eval hf hc condition ht.1.1.1 hh) fun v _ => ?_
    split
    · exact agrees_exec hf hc hh thenStmt (hs.imp_left And.left) ht.1.1.2
    · exact agrees_exec hf hc hh elseStmt (hs.imp_left And.right) ht.2
  | .whileLoop condition body =>
    simp only [exec]
    simp only [Stmt.isWellFormed, aimed_and] at ht
    have hfuel : ∀ h, c.plain .outOfFuel h := by simpa [Stmt.isLoopFree] using hs
    exact agrees_loop (Policy.keeps_eval hf condition hf.held)
      (agrees_eval hf hc condition ht.1 hh) (Policy.keeps_exec hf body)
      (agrees_exec hf hc hh body (.inr hfuel) ht.2) hfuel f.fuel
  | .breakLoop | .continueLoop | .empty =>
    simp only [exec]
    exact .pure _
  | .throws e =>
    simp only [exec]
    refine .bind (Policy.keeps_eval hf e hf.held) (agrees_eval hf hc e ht hh) fun v _ => ?_
    apply Agrees.get_bind
    intro s hs
    cases htext : s.heap.text? v with
    | none => exact .error (c.endless hs.1 htext)
    | some text => exact .error (c.error rfl)
  | .block body =>
    simp only [exec]
    exact onLocals_inBlock (agrees_execAll hf hc hh body hs ht)
  | .expr e =>
    simp only [exec]
    exact .bind (Policy.keeps_eval hf e hf.held) (agrees_eval hf hc e ht hh)
      fun _ _ => .pure _

theorem agrees_execAll (hf : p.Frame f) (hc : c.CallsWithin floor f call' depth')
    (hh : p.Holds floor f.held) (body : Program)
    (hs : areLoopFree body = true ∨ ∀ h, c.plain .outOfFuel h)
    (ht : c.Aimed (allWellFormed anyName body)) :
    c.OnLocals (execAll f body) (execAll { f with call := call', depth := depth' } body) := by
  match body with
  | [] =>
    simp only [execAll]
    exact .pure _
  | s :: rest =>
    simp only [execAll]
    simp only [areLoopFree, Bool.and_eq_true] at hs
    simp only [allWellFormed, aimed_and] at ht
    refine .bind (Policy.keeps_exec hf s) (agrees_exec hf hc hh s (hs.imp_left And.left) ht.1)
      fun flow _ => ?_
    cases flow with
    | normal => exact agrees_execAll hf hc hh rest (hs.imp_left And.right) ht.2
    | returns | breaks | continues => exact .pure _

end

end Statements

theorem onHeap_runBody {f : Frame} {call' : Call} {depth' : Nat} {floor : List Ref}
    (hf : p.Frame f) (hc : c.CallsWithin floor f call' depth')
    (hh : p.Holds floor f.held) {scope : Scope} (hs : p.Scopes [scope]) {body : Program}
    (hl : areLoopFree body = true ∨ ∀ h, c.plain .outOfFuel h)
    (ht : c.Aimed (allWellFormed anyName body))
    (hj : allJumpInLoops body = true ∨
      ∀ statement h, c.plain (.error (.strayControlFlow statement)) h) :
    c.OnHeap (runBody f scope body)
      (runBody { f with call := call', depth := depth' } scope body) := by
  intro h hi
  have hrun := agrees_execAll hf hc hh body hl ht ⟨h, [scope]⟩ ⟨hi, hs⟩
  have hsettled := hj.imp_left fun hj => (settled_execAll f body hj ⟨h, [scope]⟩ trivial).2
  simp only [runBody]
  generalize execAll f body ⟨h, [scope]⟩ = o at hrun hsettled
  generalize execAll { f with call := call', depth := depth' } body ⟨h, [scope]⟩ = o' at hrun
  cases hrun with
  | @ok flow s =>
    cases flow with
    | normal | returns => exact .ok
    | breaks | continues =>
      rcases hsettled with hsettled | hplain
      · exact absurd (hsettled _ rfl) id
      · exact .error (hplain _ _)
  | error he => exact .error he
  | stopped ho =>
    refine .stopped fun e he => ?_
    rw [ho e he]

section

variable {floor : List Ref} {call call' : Call} {depth depth' : Nat}

/-- Bodies agree if the calls do that they make, one frame deeper. These hold what is held around
the body, and the receiver of the function. -/
theorem agree_enter (hk : p.Calls call) {held : List Ref} (hh : p.Holds floor held) {g : Function}
    (hg : p.value (.function g)) {args : List Value} (ha : ∀ v ∈ args, p.value v) {h : Heap}
    (hi : p.heap h) (hc : c.CallsAbove (hold floor (h.receiver (frameRoots held g args) g))
      call (depth + 1) call' (depth' + 1)) (fuel : Nat) :
    Agree c.plain c.stop c.stop' (enter fuel call depth held g args h)
      (enter fuel call' depth' held g args h) := by
  have hscope : p.Scopes [Scope.ofParams [] g.params args] :=
    Policy.Scopes.ofParams (by simp [Policy.Scopes, Slots.values]) ha
  have hh' : p.Holds floor ((args.drop g.params.length).foldl hold held) :=
    hh.foldl_hold fun v hv => ha v (List.mem_of_mem_drop hv)
  have hroots := (hh'.append_refs (s := ⟨h, [Scope.ofParams [] g.params args]⟩)
    ⟨hi, hscope⟩).allowed
  rw [Scopes.refs, List.flatMap_singleton] at hroots
  have hthis := p.receiver hi hroots hg
  have hheld := Policy.held_hold hh'.allowed hthis
  have hf : p.Frame ⟨_, _, fuel, depth, call⟩ := ⟨hthis, hheld, hk⟩
  exact onHeap_runBody hf hc ⟨hheld, hold_subset_hold hh'.above _⟩ hscope (c.loops hg)
    (c.targets hg) (c.jumps hg) h hi

theorem CallsAbove.mono {floor' : List Ref} (hc : c.CallsAbove floor call depth call' depth')
    (hf : floor ⊆ floor') : c.CallsAbove floor' call depth call' depth' :=
  fun held f args hh => hc held f args ⟨hh.allowed, List.Subset.trans hf hh.above⟩

theorem calls_enter (hk : p.Calls call) (hc : c.Calls call (depth + 1) call' (depth' + 1))
    (fuel : Nat) : c.Calls (enter fuel call) depth (enter fuel call') depth' :=
  fun _ _ _ hh hg ha _ hi => agree_enter hk hh hg ha hi (hc.mono (List.nil_subset _)) fuel

end

end Comparison

end LiveDoc.Script
