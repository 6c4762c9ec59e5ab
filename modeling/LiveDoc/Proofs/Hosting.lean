import LiveDoc.Host.Session
import LiveDoc.Proofs.Counting
import LiveDoc.Proofs.Nesting
import LiveDoc.Proofs.Ownership
import LiveDoc.Proofs.Retention
import Mathlib.Logic.Relation

namespace LiveDoc.Session

open Script Confinement

/-- The values that a host can have in hand: what it has kept, what it makes by itself, what it
finds in slots and accessors, and the receivers of functions. -/
inductive Has (s : Session) : Value → Prop
  | kept (hv : v ∈ s.kept.values) : Has s v
  | data (hv : v.IsData) : Has s v
  | slot (hr : Has s (.container r)) (hc : s.heap.get? r = some c) (hv : v ∈ c.values) : Has s v
  | getter {a : Accessor} (ha : Has s (.accessor a)) (hf : a.getter = some f) :
    Has s (.function f)
  | setter {a : Accessor} (ha : Has s (.accessor a)) (hf : a.setter = some f) :
    Has s (.function f)
  | accessor {a : Accessor} (hg : ∀ f, a.getter = some f → Has s (.function f))
    (hs : ∀ f, a.setter = some f → Has s (.function f)) : Has s (.accessor a)
  | this (hheld : Has s held) (hf : Has s (.function f)) : Has s (s.receiver held f)

def keepAny (s : Session) (name : String) (v : Option Value) : Session :=
  v.elim s (s.keep name)

/-- A host does one thing with what it has in hand. What comes of it is kept, and can be let go by
another step. -/
inductive Step : Session → Session → Prop
  | keep (hv : s.Has v) : Step s (s.keep name v)
  | drop : Step s (s.drop name)
  | alloc (hc : ∀ v ∈ c.values, s.Has v) (ha : s.alloc c = (v, t)) : Step s (t.keep name v)
  | compile (hf : s.compile params source = .ok (f, t)) : Step s (t.keep name (.function f))
  | load {l : Load.Loader} (hl : s.load (l.load source) = .ok (v, t)) : Step s (t.keep name v)
  | resolve {l : Load.Loader} (hl : s.load (l.node tree) = .ok (v, t)) : Step s (t.keep name v)
  | read (hheld : s.Has held) (hv : s.Has v) (hr : read fuel held v path s = (result, t)) :
    Step s (t.keepAny name result.toOption)
  | write (ho : s.Has object) (hv : s.Has v) (hw : write fuel object property v s = (result, t)) :
    Step s t
  /-- What is written is let go of before, and a setter may let go of it too. -/
  | give (ho : s.Has object) (hv : s.Has v)
    (hw : write fuel object property v (s.drop name) = (result, t)) : Step s t
  | call (hf : s.Has callee) (ha : ∀ v ∈ args, s.Has v)
    (hc : call fuel callee args s = (result, t)) : Step s (t.keepAny name result.toOption)
  | insert (hr : s.Has (.container r)) (hv : s.Has v) (hi : s.insert? r key v = some (old, t)) :
    Step s (t.keepAny name old)
  | remove (hr : s.Has (.container r)) (hi : s.remove? r key = some (old, t)) :
    Step s (t.keepAny name old)
  | push (hr : s.Has (.container r)) (hv : s.Has v) (hp : s.push? r v = some (size, t)) : Step s t

section

variable {s t : Session} {v : Value}

theorem held_roots (s : Session) : ∀ r ∈ s.roots, Held s.heap s.roots r :=
  fun _ hr => .inl (Heap.isAlive_of_mem hr)

theorem held_hold {held : List Ref} (hh : ∀ r ∈ held, Held s.heap s.roots r)
    (hv : v.Keeps s.heap s.roots) : ∀ r ∈ hold held v, Held s.heap s.roots r :=
  Policy.held_hold (p := Retained.policy s.heap s.roots) hh hv

theorem Has.keeps (hv : s.Has v) : v.Keeps s.heap s.roots := by
  induction hv with
  | kept hv => exact fun r hr => s.held_roots r (List.mem_flatMap.2 ⟨_, hv, hr⟩)
  | data hv => exact hv.keeps
  | slot _ hc hv ih => exact Retained.refl.keeps_of_slot (ih _ (List.mem_singleton_self _)) hc hv
  | getter _ _ _ | setter _ _ _ | accessor _ _ _ _ => exact fun _ hr => by cases hr
  | this _ _ ih _ => exact Retained.refl.keeps_receiver (held_hold s.held_roots ih) _

/-- What a step leaves behind: slots and names have got only what was alive or is new. -/
structure Leaves (s t : Session) : Prop where
  heap : Retained s.heap s.roots t.heap
  roots : ∀ r ∈ t.roots, Held s.heap s.roots r

theorem leaves_heap {h : Heap} (hh : Retained s.heap s.roots h) :
    s.Leaves { s with heap := h } :=
  ⟨hh, s.held_roots⟩

theorem Leaves.keep (hl : s.Leaves t) (hv : v.Keeps s.heap s.roots) (name : String) :
    s.Leaves (t.keep name v) := by
  refine ⟨hl.heap, fun r hr => ?_⟩
  obtain ⟨w, hw, hrw⟩ := List.mem_flatMap.1 hr
  rcases Slots.mem_values_put hw with rfl | hw
  · exact hv r hrw
  · exact hl.roots r (List.mem_flatMap.2 ⟨w, hw, hrw⟩)

theorem Leaves.keepAny (hl : s.Leaves t) {v : Option Value}
    (hv : ∀ w, v = some w → w.Keeps s.heap s.roots) (name : String) :
    s.Leaves (t.keepAny name v) := by
  cases v with
  | none => exact hl
  | some w => exact hl.keep (hv w rfl) name

theorem roots_drop_subset (s : Session) (name : String) : (s.drop name).roots ⊆ s.roots := by
  intro r hr
  obtain ⟨v, hv, hr⟩ := List.mem_flatMap.1 hr
  exact List.mem_flatMap.2 ⟨v, Slots.values_erase_subset s.kept name hv, hr⟩

theorem leaves_drop (s : Session) (name : String) : s.Leaves (s.drop name) :=
  ⟨.refl, fun r hr => s.held_roots r (s.roots_drop_subset name hr)⟩

theorem retained_of_planted {h : Heap} {vs : List Value} (hp : Load.Build.Planted s.heap h vs) :
    Retained s.heap s.roots h := by
  refine ⟨hp.grows.size_le, fun {d c r} hget hr => ?_⟩
  by_cases hd : d.index < s.heap.size
  · rw [hp.grows.get?_eq d hd] at hget
    exact .inl ⟨c, hget, hr⟩
  · have hheld : h.Holds d r := ⟨c, hget, hr⟩
    have hmem := Heap.mem_heldFrom.2 ⟨d, Nat.le_of_not_lt hd, hheld⟩
    exact .inr (.inr (hp.within r (List.mem_append_right _ hmem)).1)

theorem leaves_load {m : Load.Build Value} (hm : Load.Build.Plants m)
    (hl : s.load m = .ok (v, t)) (name : String) : s.Leaves (t.keep name v) := by
  rw [load] at hl
  cases hr : m s.heap with
  | error e => simp [hr, Except.map] at hl
  | ok made =>
    obtain ⟨w, h⟩ := made
    simp only [hr, Except.map, Except.ok.injEq, Prod.mk.injEq] at hl
    obtain ⟨rfl, rfl⟩ := hl
    have hp := hm hr
    apply (leaves_heap (retained_of_planted hp)).keep
    intro r hr
    exact .inr (hp.within r (List.mem_append_left _ (by simpa using hr))).1

theorem leaves_compile {params : List String} {source : String} {f : Function}
    (hf : s.compile params source = .ok (f, t)) (name : String) :
    s.Leaves (t.keep name (.function f)) := by
  rw [compile, Heap.compile] at hf
  cases hp : Program.ofSource source with
  | error e => simp [hp, Except.map] at hf
  | ok body =>
    simp only [hp, Except.map, Except.ok.injEq] at hf
    cases hf
    have hsame : Retained s.heap s.roots (s.heap.define params source body).2 :=
      ⟨Nat.le_refl _, fun hget hr => .inl ⟨_, hget, hr⟩⟩
    exact (leaves_heap hsame).keep (fun _ hr => by cases hr) name

section

variable {result : Except Interrupt α}

theorem leaves_onHeap {act : List Ref → HeapRun α} (hrun : onHeap act s = (result, t))
    {post : α → Prop} (hact : Script.Keeps (Retained s.heap s.roots) post (act s.roots)) :
    s.Leaves t ∧ ∀ a, result.toOption = some a → post a := by
  obtain ⟨hh, hpost⟩ := hact s.heap .refl
  cases hrun
  refine ⟨leaves_heap hh, fun a ha => hpost a ?_⟩
  cases hresult : (act s.roots s.heap).1 with
  | error e => simp [hresult, Except.toOption] at ha
  | ok b => simpa [hresult, Except.toOption] using ha

end

theorem calls_hostCall (s : Session) (fuel : Nat) :
    (Retained.policy s.heap s.roots).Calls (hostCall fuel) :=
  Policy.calls_invoke _ fuel maxCallDepth

theorem keeps_readPath {p : Policy} {call : Call} (hc : p.Calls call) {held : List Ref}
    (hh : ∀ r ∈ held, p.held r) {v : Value} (hv : p.value v) (path : List String) :
    Script.Keeps p.heap p.value (readPath call held v path) := by
  induction path generalizing v with
  | nil => exact .pure hv
  | cons name path ih =>
    rw [readPath]
    exact .bind (Policy.keeps_getProperty hc hh hv name) fun w hw => ih hw

theorem leaves_read {held : Value} {fuel : Nat} {path : List String}
    {result : Except Interrupt Value} (hheld : s.Has held) (hv : s.Has v)
    (hr : read fuel held v path s = (result, t)) (name : String) :
    s.Leaves (t.keepAny name result.toOption) := by
  have hh := held_hold s.held_roots hheld.keeps
  have hl := leaves_onHeap hr (keeps_readPath (s.calls_hostCall fuel) hh hv.keeps path)
  exact hl.1.keepAny hl.2 name

theorem leaves_write (s' : Session) (hheap : s'.heap = s.heap) (hroots : s'.roots ⊆ s.roots)
    {object : Value} {fuel : Nat} {property : String} {result : Except Interrupt Unit}
    (ho : s.Has object) (hv : s.Has v) (hw : write fuel object property v s' = (result, t)) :
    s.Leaves t := by
  have hh : ∀ r ∈ s'.roots, Held s.heap s.roots r := fun r hr => s.held_roots r (hroots hr)
  have hrun : Script.Keeps (Retained s.heap s.roots) (fun _ => True)
      (HeapRun.setProperty (hostCall fuel) 0 s'.roots object property v) :=
    Policy.keeps_setProperty (s.calls_hostCall fuel) hh ho.keeps property hv.keeps
  cases hw
  exact ⟨(hrun s'.heap (hheap ▸ .refl)).1, hh⟩

theorem leaves_call {callee : Value} {args : List Value} {fuel : Nat}
    {result : Except Interrupt Value} (hf : s.Has callee) (ha : ∀ v ∈ args, s.Has v)
    (hc : call fuel callee args s = (result, t)) (name : String) :
    s.Leaves (t.keepAny name result.toOption) := by
  have hargs : ∀ v ∈ args, v.Keeps s.heap s.roots := fun v hv => (ha v hv).keeps
  have hheld : ∀ r ∈ args.foldl hold s.roots, Held s.heap s.roots r :=
    Policy.held_foldl_hold (p := Retained.policy s.heap s.roots) s.held_roots hargs
  have hrun : Script.Keeps (Retained s.heap s.roots) (Value.Keeps s.heap s.roots)
      ((Request.call callee args).run (hostCall fuel) 0 (args.foldl hold s.roots)) := by
    apply Policy.keeps_request (s.calls_hostCall fuel) hheld
    exact List.forall_mem_cons.2 ⟨hf.keeps, hargs⟩
  have hsame : call fuel callee args s = onHeap (fun roots =>
      (Request.call callee args).run (hostCall fuel) 0 (args.foldl hold roots)) s := by
    cases callee <;> rfl
  rw [hsame] at hc
  have hl := leaves_onHeap hc hrun
  exact hl.1.keepAny hl.2 name

/-- Other entries for a mapping, each of which was in it or may be held. What one of its slots has
held is kept. -/
theorem leaves_entries {r : Ref} {entries changed : Entries} (hr : s.Has (.container r))
    (he : s.heap.entries? r = some entries)
    (hc : ∀ w ∈ changed.values, w ∈ entries.values ∨ w.Keeps s.heap s.roots) (key name : String) :
    s.Leaves (keepAny { s with heap := s.heap.set r (.mapping changed) } name
      (entries.get? key)) := by
  have hget := Heap.get?_of_entries? he
  have hset : Retained s.heap s.roots (s.heap.set r (.mapping changed)) :=
    Retained.refl.set hget hc
  apply (leaves_heap hset).keepAny
  intro w hw
  exact (Has.slot hr hget (Slots.mem_values_of_get? hw)).keeps

theorem leaves_insert {r : Ref} {key name : String} {old : Option Value} (hr : s.Has (.container r))
    (hv : s.Has v) (hi : s.insert? r key v = some (old, t)) : s.Leaves (t.keepAny name old) := by
  obtain ⟨change, hchange, heq⟩ := Option.map_eq_some_iff.1 hi
  obtain ⟨entries, he, rfl⟩ := Option.map_eq_some_iff.1 hchange
  cases heq
  refine leaves_entries hr he (fun w hw => ?_) key name
  rcases Slots.mem_values_put hw with rfl | hw
  · exact .inr hv.keeps
  · exact .inl hw

theorem leaves_remove {r : Ref} {key name : String} {old : Option Value}
    (hr : s.Has (.container r)) (hi : s.remove? r key = some (old, t)) :
    s.Leaves (t.keepAny name old) := by
  obtain ⟨change, hchange, heq⟩ := Option.map_eq_some_iff.1 hi
  obtain ⟨entries, he, rfl⟩ := Option.map_eq_some_iff.1 hchange
  cases heq
  exact leaves_entries hr he (fun w hw => .inl (Slots.values_erase_subset entries key hw)) key name

theorem leaves_push {r : Ref} {size : Nat} (hv : s.Has v) (hp : s.push? r v = some (size, t)) :
    s.Leaves t := by
  obtain ⟨change, hchange, heq⟩ := Option.map_eq_some_iff.1 hp
  obtain ⟨items, hi, rfl⟩ := Option.map_eq_some_iff.1 hchange
  cases heq
  apply leaves_heap
  apply Retained.refl.set (Heap.get?_of_items? hi)
  intro w hw
  rw [Container.values, Array.toList_push] at hw
  rcases List.mem_append.1 hw with hw | hw
  · exact .inl hw
  · rw [List.mem_singleton.1 hw]
    exact .inr hv.keeps

theorem Step.leaves (h : Step s t) : s.Leaves t := by
  cases h with
  | keep hv => exact (leaves_heap .refl).keep hv.keeps _
  | drop => exact leaves_drop s _
  | alloc hc ha =>
    cases ha
    have hnew := Retained.refl.alloc fun v hv => (hc v hv).keeps
    refine (leaves_heap hnew).keep (fun r hr => ?_) _
    cases List.mem_singleton.1 hr
    exact .inr (Nat.le_refl _)
  | compile hf => exact leaves_compile hf _
  | load hl => exact leaves_load (Load.Loader.plants_load _ _) hl _
  | resolve hl => exact leaves_load (Load.Loader.plants_node _ _) hl _
  | read hheld hv hr => exact leaves_read hheld hv hr _
  | write ho hv hw => exact leaves_write s rfl (List.Subset.refl _) ho hv hw
  | give ho hv hw => exact leaves_write (s.drop _) rfl (s.roots_drop_subset _) ho hv hw
  | call hf ha hc => exact leaves_call hf ha hc _
  | insert hr hv hi => exact leaves_insert hr hv hi
  | remove hr hi => exact leaves_remove hr hi
  | push _ hv hp => exact leaves_push hv hp

/-- What is alive after a step was alive before it, or is new. -/
theorem Step.held {r : Ref} (h : Step s t) (hr : Held t.heap t.roots r) :
    Held s.heap s.roots r := by
  obtain ⟨hheap, hroots⟩ := h.leaves
  rcases hr with ha | hle
  · exact held_of_isAlive hroots hheap.slots ha
  · exact .inr (Nat.le_trans hheap.size_le hle)

theorem held_of_run {r : Ref} (h : Relation.ReflTransGen Step s t)
    (hr : Held t.heap t.roots r) : Held s.heap s.roots r := by
  induction h with
  | refl => exact hr
  | tail _ hstep ih => exact ih (hstep.held hr)

/-- What a host can reach has been alive at all times. -/
theorem stays_of_reached {r : Ref} (h : Relation.ReflTransGen Step s t)
    (hlt : r.index < s.heap.size) (hr : t.heap.Reached t.roots r) : s.heap.Stays s.roots r := by
  have hheld : Held t.heap t.roots r := by
    by_cases htlt : r.index < t.heap.size
    · exact .inl (Heap.isAlive_of_reached hr htlt)
    · exact .inr (Nat.le_of_not_lt htlt)
  have ha := (held_of_run h hheld).resolve_right (Nat.not_le_of_lt hlt)
  exact Heap.stays_of_isAlive hlt ha

end

/-- What a host can reach stays: no cascade has got to it since it was made, and the functions that
are bound to it have found it all the time. To let go of something else changes nothing about it. In
the course of a request, whatever slots are overwritten, this is so of what can be reached from what
the host holds and from the receivers of the open frames: nobody sees a frame open where it is not.
The value of `this` is that of the frame, wherever it is read. -/
theorem receivers_stay :
    (∀ s t : Session, Relation.ReflTransGen Step s t → ∀ r, r.index < s.heap.size →
      t.heap.Reached t.roots r → s.heap.Stays s.roots r) ∧
    (∀ (s : Session) (name : String) (r : Ref), r.index < s.heap.size →
      (s.drop name).heap.Reached (s.drop name).roots r →
        (s.drop name).heap.get? r = s.heap.get? r ∧
        (s.drop name).heap.Stays (s.drop name).roots r ∧
        ∀ f : Function, f.receiver = some r → ∀ held,
          (s.drop name).receiver held f = s.receiver held f) ∧
    (∀ (request : Request) (held : List Ref) (fuel : Nat) (h : Heap) (lookout : Lookout),
      (∀ o : Opening, (∀ r, r.index < o.heap.size → o.heap.Reached o.around r →
        o.heap.Stays o.roots r) → lookout o = none) →
      request.run (invokeUnder lookout fuel maxCallDepth held []) 0 held h =
        request.run (hostCall fuel) 0 held h) ∧
    ∀ (f : Frame) (held : List Ref) (l : Locals), eval f held .this l = (.ok f.this, l) := by
  refine ⟨fun _ _ h _ hlt hr => stays_of_reached h hlt hr, ?_, ?_, ?_⟩
  · intro s name r hlt hr
    have hafter : (s.drop name).heap.Stays (s.drop name).roots r := stays_of_reached .refl hlt hr
    have hbefore : s.heap.Stays s.roots r := stays_of_reached (.single .drop) hlt hr
    refine ⟨rfl, hafter, fun f hf held => ?_⟩
    exact (hafter.found f hf _ (subset_hold _ held)).trans
      (hbefore.found f hf _ (subset_hold _ held)).symm
  · intro request held fuel h lookout hl
    -- what can be reached from the open frames is held, and what is held stays
    have hsilent : ∀ o : Opening, o.around ⊆ o.roots → lookout o = none := by
      intro o ho
      apply hl
      intro r hlt hr
      exact Heap.stays_of_isAlive hlt (Heap.isAlive_of_reached (hr.mono ho) hlt)
    exact (Comparison.ofRefusal (.error .callDepthExceeded)).run_under rfl rfl
      (fun o _ ho => hsilent o ho.held) (Policy.holds_bodies _ held) (fun v _ => v.bodies_true) fuel
      h.bodies_true
  · intro f held l
    simp only [eval]
    rfl

/-- A function that takes its receiver out of a slot, and has another function give it back. -/
def leaving : Function where
  definition := ⟨0, ["o"], "o.child = null; return this.self();",
    [.expr (.assign (.member (.name "o") "child") none .null),
      .returns (some (.call (.member .this "self") []))]⟩
  receiver := some ⟨1⟩

def leavingSession : Session where
  heap := {
    containers := #[.mapping [("child", .container ⟨1⟩)],
      .mapping [("leave", .function leaving),
        ("self", .function ⟨⟨1, [], "return this;", [.returns (some .this)]⟩, some ⟨1⟩⟩)]]
    definitions := 2 }
  kept := [("root", .container ⟨0⟩)]

def leftSession : Session where
  heap := leavingSession.heap.set ⟨0⟩ (.mapping [("child", .null)])
  kept := [("root", .container ⟨0⟩), ("child", .container ⟨1⟩)]

/-- The mapping has stayed, though it is not in its slot any more. It is dropped when the host lets
go of it. -/
theorem receivers_stay_out_of_slots :
    let s := leavingSession
    let t := leftSession
    Relation.ReflTransGen Step s t ∧ (1 : Nat) < s.heap.size ∧ t.heap.Reached t.roots ⟨1⟩ ∧
      s.heap.Stays s.roots ⟨1⟩ ∧ (t.drop "child").heap.Drops (t.drop "child").roots [⟨1⟩] := by
  intro s t
  have hroot : s.Has (.container ⟨0⟩) := .kept (List.mem_singleton_self _)
  have hchild : s.Has (.container ⟨1⟩) := .slot hroot rfl (List.mem_singleton_self _)
  have hleave : s.Has (.function leaving) := .slot hchild rfl List.mem_cons_self
  have hargs : ∀ v ∈ [Value.container ⟨0⟩], s.Has v :=
    fun v hv => List.mem_singleton.1 hv ▸ hroot
  have hcall : call 0 (.function leaving) [.container ⟨0⟩] s =
      (.ok (.container ⟨1⟩), { s with heap := t.heap }) := rfl
  have hstep : s.Step (keepAny { s with heap := t.heap } "child" (some (.container ⟨1⟩))) :=
    .call hleave hargs hcall
  have hrun : Relation.ReflTransGen Step s t := .single hstep
  have hsize : (1 : Nat) < s.heap.size := by decide
  have hreached : t.heap.Reached t.roots ⟨1⟩ := .root (by decide)
  have hstays := receivers_stay.1 s t hrun ⟨1⟩ hsize hreached
  exact ⟨hrun, hsize, hreached, hstays, .next .none (by decide) (by simp) rfl⟩

end LiveDoc.Session
