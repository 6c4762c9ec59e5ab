import LiveDoc.Proofs.Keeps
import LiveDoc.Script.Eval

namespace LiveDoc

inductive Container.Writes (v : Value) : Container → Container → Prop
  | entry {entries : Entries} (h : ∀ a, entries.get? name ≠ some (.accessor a)) :
    Writes v (.mapping entries) (.mapping (entries.put name v))
  | element {items : Array Value} (h : ∀ a, items[i]? ≠ some (.accessor a))
    (hi : i ≤ items.size + Script.maxGap) :
    Writes v (.sequence items) (.sequence (Script.HeapRun.writeAt items i v))

theorem Container.Writes.mem_values {c c' : Container} {v w : Value} (h : c.Writes v c')
    (hw : w ∈ c'.values) : w = v ∨ w ∈ c.values ∨ w = .undefined := by
  cases h with
  | entry _ => exact (Slots.mem_values_put hw).imp_right .inl
  | @element i items _ _ =>
    simp only [Container.values, Script.HeapRun.writeAt] at hw ⊢
    split at hw
    · rw [Array.toList_setIfInBounds] at hw
      rcases List.mem_or_eq_of_mem_set hw with hw | hw
      · exact .inr (.inl hw)
      · exact .inl hw
    · simp only [Array.toList_push, Array.toList_append, Array.toList_replicate, List.mem_append,
        List.mem_replicate, List.mem_singleton] at hw
      rcases hw with (hw | ⟨-, hw⟩) | hw
      · exact .inr (.inl hw)
      · exact .inr (.inr hw)
      · exact .inl hw

namespace Script

theorem subset_hold (held : List Ref) (v : Value) : held ⊆ hold held v := by
  intro r hr
  cases v with
  | container q => exact List.mem_insert_of_mem hr
  | undefined | null | bool | number | text | function | accessor => exact hr

theorem subset_foldl_hold (held : List Ref) (vs : List Value) : held ⊆ vs.foldl hold held := by
  induction vs generalizing held with
  | nil => exact List.Subset.refl held
  | cons v vs ih => exact List.Subset.trans (subset_hold held v) (ih (hold held v))

theorem hold_subset_hold {held held' : List Ref} (hs : held ⊆ held') (v : Value) :
    hold held v ⊆ hold held' v := by
  cases v with
  | container q =>
    intro r hr
    rcases List.mem_insert_iff.1 hr with rfl | hr
    · exact List.mem_insert_self
    · exact List.mem_insert_of_mem (hs hr)
  | undefined | null | bool | number | text | function | accessor => exact hs

def frameRoots (held : List Ref) (g : Function) (args : List Value) : List Ref :=
  (args.drop g.params.length).foldl hold held ++ (Scope.ofParams [] g.params args).refs

theorem subset_frameRoots (held : List Ref) (g : Function) (args : List Value) :
    held ⊆ frameRoots held g args :=
  List.subset_append_of_subset_left _ (subset_foldl_hold held _)

section

variable {fuel room depth : Nat} {held : List Ref} {g : Function} {args : List Value}

theorem invoke_of_le (hd : maxCallDepth ≤ depth) :
    invoke fuel room depth held g args = .fail .callDepthExceeded := by
  cases room <;> exact if_pos hd

theorem invoke_of_lt (hd : depth < maxCallDepth) :
    invoke fuel (room + 1) depth held g args = enter fuel (invoke fuel room) depth held g args :=
  if_neg (Nat.not_le_of_lt hd)

end

/-- What bodies may do to the heap, and what they may hold while they run. -/
structure Policy where
  heap : Heap → Prop
  value : Value → Prop
  held : Ref → Prop
  data : ∀ {v}, v.IsData → value v
  refs : ∀ {v r}, value v → r ∈ v.refs → held r
  getter : ∀ {a f}, value (.accessor a) → a.getter = some f → value (.function f)
  setter : ∀ {a f}, value (.accessor a) → a.setter = some f → value (.function f)
  receiver : ∀ {h roots f}, heap h → (∀ r ∈ roots, held r) → value (.function f) →
    value (h.receiver roots f)
  alloc : ∀ {h c}, heap h → (∀ v ∈ c.values, value v) →
    heap (h.alloc c).2 ∧ value (.container (h.alloc c).1)
  read : ∀ {h r c v}, heap h → value (.container r) → h.get? r = some c → v ∈ c.values → value v
  write : ∀ {h r c c' v}, heap h → value (.container r) → h.get? r = some c → value v →
    c.Writes v c' → heap (h.set r c')

namespace Policy

variable (p : Policy)

def Calls (call : Call) : Prop :=
  ∀ depth held f args, (∀ r ∈ held, p.held r) → p.value (.function f) →
    (∀ v ∈ args, p.value v) → Keeps p.heap p.value (call depth held f args)

variable {p}

theorem held_hold {held : List Ref} {v : Value} (hh : ∀ r ∈ held, p.held r) (hv : p.value v) :
    ∀ r ∈ hold held v, p.held r := by
  have hinsert (rs : List Ref) (hrs : ∀ r ∈ rs, p.held r) :
      ∀ r ∈ rs.foldr List.insert held, p.held r := by
    induction rs with
    | nil => exact hh
    | cons q rs ih =>
      intro r hr
      rcases List.mem_insert_iff.1 hr with rfl | hr
      · exact hrs _ (List.mem_cons_self ..)
      · exact ih (fun r hr => hrs r (List.mem_cons_of_mem _ hr)) r hr
  exact hinsert v.refs fun r hr => p.refs hv hr

theorem held_foldl_hold {held : List Ref} {vs : List Value} (hh : ∀ r ∈ held, p.held r)
    (hvs : ∀ v ∈ vs, p.value v) : ∀ r ∈ vs.foldl Script.hold held, p.held r := by
  induction vs generalizing held with
  | nil => exact hh
  | cons v vs ih =>
    exact ih (held_hold hh (hvs v (List.mem_cons_self ..)))
      fun w hw => hvs w (List.mem_cons_of_mem _ hw)

section Properties

variable {call : Call} {depth : Nat} {held : List Ref}

theorem keeps_readSlot (hc : p.Calls call) (hh : ∀ r ∈ held, p.held r) {slot : Option Value}
    (hs : ∀ v, slot = some v → p.value v) :
    Keeps p.heap p.value (HeapRun.readSlot call depth held slot) := by
  cases slot with
  | none => exact .pure (p.data trivial)
  | some v =>
    cases v with
    | accessor a =>
      cases a with
      | mk getter setter =>
        cases getter with
        | none => exact .pure (p.data trivial)
        | some f => exact hc _ _ _ _ hh (p.getter (hs _ rfl) rfl) (by simp)
    | _ => exact .pure (hs _ rfl)

theorem keeps_getElement (hc : p.Calls call) (hh : ∀ r ∈ held, p.held r) {items : Array Value}
    (hs : ∀ v ∈ items.toList, p.value v) (name : String) :
    Keeps p.heap p.value (HeapRun.getElement call depth held items name) := by
  rw [HeapRun.getElement]
  split
  · exact .pure (p.data trivial)
  · split
    next i _ =>
      refine keeps_readSlot hc hh fun v hv => hs v ?_
      exact Array.mem_toList_iff.2 (Array.mem_of_getElem? hv)
    · exact .pure (p.data trivial)

theorem isData_textProperty (s name : String) : (HeapRun.textProperty s name).IsData := by
  rw [HeapRun.textProperty]
  split
  · trivial
  · split <;> trivial

theorem keeps_getProperty (hc : p.Calls call) (hh : ∀ r ∈ held, p.held r) {object : Value}
    (ho : p.value object) (name : String) :
    Keeps p.heap p.value (HeapRun.getProperty call depth held object name) := by
  cases object with
  | container r =>
    apply Keeps.get_bind
    intro h hi
    have hh' := held_hold hh ho
    split
    next entries he =>
      have hs : ∀ v, entries.get? name = some v → p.value v :=
        fun v hv => p.read hi ho he (Slots.mem_values_of_get? hv)
      exact keeps_readSlot hc hh' hs h hi
    next items he => exact keeps_getElement hc hh' (fun v hv => p.read hi ho he hv) name h hi
    · exact .pure hi (p.data trivial)
  | text s => exact .pure (p.data (isData_textProperty s name))
  | undefined => exact .throw _ _
  | null => exact .throw _ _
  | bool | number | function | accessor => exact .pure (p.data trivial)

theorem keeps_writeAccessor (hc : p.Calls call) (hh : ∀ r ∈ held, p.held r) {a : Accessor}
    (ha : p.value (.accessor a)) (name : String) {v : Value} (hv : p.value v) :
    Keeps p.heap (fun _ => True) (HeapRun.writeAccessor call depth held a name v) := by
  rw [HeapRun.writeAccessor]
  split
  next setter hs =>
    refine (hc _ _ _ _ hh (p.setter ha hs) ?_).bind fun _ _ => .pure trivial
    simpa using hv
  · exact .throw _ _

theorem keeps_setProperty (hc : p.Calls call) (hh : ∀ r ∈ held, p.held r) {object : Value}
    (ho : p.value object) (name : String) {v : Value} (hv : p.value v) :
    Keeps p.heap (fun _ => True) (HeapRun.setProperty call depth held object name v) := by
  cases object with
  | container r =>
    apply Keeps.get_bind
    intro h hi
    have hh' := held_hold hh ho
    split
    next entries he =>
      simp only [HeapRun.setEntry]
      split
      next a ha =>
        have hread := p.read hi ho he (Slots.mem_values_of_get? ha)
        exact keeps_writeAccessor hc hh' hread name hv h hi
      next hna =>
        exact ⟨p.write hi ho he hv (.entry hna), fun _ _ => trivial⟩
    next items he =>
      split
      next i _ =>
        simp only [HeapRun.setElement]
        split
        next a ha =>
          have hm := Array.mem_toList_iff.2 (Array.mem_of_getElem? ha)
          exact keeps_writeAccessor hc hh' (p.read hi ho he hm) _ hv h hi
        next hna =>
          split
          · exact Keeps.throw _ _ h hi
          · exact ⟨p.write hi ho he hv (.element hna (by omega)), fun _ _ => trivial⟩
      · exact Keeps.throw _ _ h hi
    · exact Keeps.throw _ _ h hi
  | undefined | null | bool | number | text | function | accessor => exact .throw _ _

end Properties

section Variables

variable (p) in
def Scopes (scopes : Scopes) : Prop :=
  ∀ scope ∈ scopes, ∀ b ∈ scope.values, p.value b.value

variable (p) in
def Locals (s : Locals) : Prop :=
  p.heap s.heap ∧ p.Scopes s.scopes

theorem Scopes.held {scopes : Script.Scopes} (hs : p.Scopes scopes) :
    ∀ r ∈ scopes.refs, p.held r := by
  intro r hr
  obtain ⟨scope, hscope, hr⟩ := List.mem_flatMap.1 hr
  obtain ⟨b, hb, hr⟩ := List.mem_flatMap.1 hr
  exact p.refs (hs scope hscope b hb) hr

theorem Scopes.tail {scopes : Script.Scopes} (hs : p.Scopes scopes) : p.Scopes scopes.tail :=
  fun scope hscope => hs scope (List.mem_of_mem_tail hscope)

theorem Scopes.put {scope : Scope} {outer : Script.Scopes} {b : Binding}
    (hs : p.Scopes (scope :: outer)) (name : String) (hb : p.value b.value) :
    p.Scopes (Slots.put scope name b :: outer) := by
  intro s hm b' hb'
  rcases List.mem_cons.1 hm with rfl | hm
  · rcases Slots.mem_values_put hb' with rfl | hb'
    · exact hb
    · exact hs scope (List.mem_cons_self ..) b' hb'
  · exact hs s (List.mem_cons_of_mem _ hm) b' hb'

theorem Scopes.find? {scopes : Script.Scopes} (hs : p.Scopes scopes) {name : String} {b : Binding}
    (hb : scopes.find? name = some b) : p.value b.value := by
  induction scopes with
  | nil => cases hb
  | cons scope outer ih =>
    rw [Script.Scopes.find?] at hb
    split at hb
    next b' hget =>
      cases hb
      exact hs scope (List.mem_cons_self ..) b (Slots.mem_values_of_get? hget)
    · exact ih (fun s hm => hs s (List.mem_cons_of_mem _ hm)) hb

theorem Scopes.declare {scopes scopes' : Script.Scopes} {name : String} {v : Value}
    {isConst : Bool} (hs : p.Scopes scopes) (hv : p.value v)
    (h : scopes.declare name v isConst = .ok scopes') : p.Scopes scopes' := by
  cases scopes with
  | nil => cases h
  | cons scope outer =>
    rw [Script.Scopes.declare] at h
    split at h
    · cases h
    · cases h
      exact hs.put name hv

theorem Scopes.assign {scopes scopes' : Script.Scopes} {name : String} {v : Value}
    (hs : p.Scopes scopes) (hv : p.value v) (h : scopes.assign name v = .ok scopes') :
    p.Scopes scopes' := by
  induction scopes generalizing scopes' with
  | nil => cases h
  | cons scope outer ih =>
    rw [Script.Scopes.assign] at h
    split at h
    next b _ =>
      split at h
      · cases h
      · cases h
        exact hs.put name hv
    next =>
      cases ho : Script.Scopes.assign name v outer with
      | error e => simp [ho, Except.map] at h
      | ok outer' =>
        simp only [ho, Except.map, Except.ok.injEq] at h
        subst h
        have ho' := ih (fun s hm => hs s (List.mem_cons_of_mem _ hm)) ho
        intro s hm
        rcases List.mem_cons.1 hm with rfl | hm
        · exact hs s (List.mem_cons_self ..)
        · exact ho' s hm

theorem Scopes.ofParams {done : Scope} {names : List String} {args : List Value}
    (hd : p.Scopes [done]) (ha : ∀ v ∈ args, p.value v) :
    p.Scopes [Scope.ofParams done names args] := by
  induction names generalizing done args with
  | nil =>
    rw [Scope.ofParams]
    exact hd
  | cons name names ih =>
    cases args with
    | nil => exact ih (hd.put name (p.data trivial)) ha
    | cons v vs =>
      exact ih (hd.put name (ha v (List.mem_cons_self ..)))
        fun w hw => ha w (List.mem_cons_of_mem _ hw)

end Variables

end Policy

end Script

end LiveDoc
