import LiveDoc.Proofs.Liveness
import LiveDoc.Proofs.Obedience

namespace LiveDoc

/-- The containers that a body gets at through a value: the one that it is, or the living receivers
of its functions. -/
inductive Value.Grants (alive : Ref → Prop) : Value → Ref → Prop
  | container : Grants alive (.container r) r
  | function {f : Function} (hr : f.receiver = some r) (ha : alive r) :
    Grants alive (.function f) r
  | getter {a : Accessor} (hf : a.getter = some f) (hr : f.receiver = some r) (ha : alive r) :
    Grants alive (.accessor a) r
  | setter {a : Accessor} (hf : a.setter = some f) (hr : f.receiver = some r) (ha : alive r) :
    Grants alive (.accessor a) r

/-- The containers that a body gets at from some values, through slots as they are. -/
inductive Heap.Accessible (h : Heap) (alive : Ref → Prop) (start : Value → Prop) : Ref → Prop
  | start (hv : start v) (hr : v.Grants alive r) : Accessible h alive start r
  | slot (hd : Accessible h alive start d) (hc : h.get? d = some c) (hv : v ∈ c.values)
    (hr : v.Grants alive r) : Accessible h alive start r

theorem Value.Grants.imp {alive alive' : Ref → Prop} {v : Value} {r : Ref}
    (h : v.Grants alive r) (ha : ∀ r, alive r → alive' r) : v.Grants alive' r := by
  cases h with
  | container => exact .container
  | function hr h => exact .function hr (ha r h)
  | getter hf hr h => exact .getter hf hr (ha r h)
  | setter hf hr h => exact .setter hf hr (ha r h)

theorem Value.Grants.or {alive new : Ref → Prop} {v : Value} {r : Ref}
    (h : v.Grants (fun r => alive r ∨ new r) r) : v.Grants alive r ∨ new r := by
  cases h with
  | container => exact .inl .container
  | function hr h => exact h.imp_left (.function hr)
  | getter hf hr h => exact h.imp_left (.getter hf hr)
  | setter hf hr h => exact h.imp_left (.setter hf hr)

namespace Confinement

section

variable (before : Heap) (roots : List Ref) (start : Value → Prop)

/-- What is alive when a call begins, or new. -/
def Held (r : Ref) : Prop :=
  before.isAlive roots r = true ∨ before.size ≤ r.index

/-- What a body gets at when it is called, or new. -/
def Inside (r : Ref) : Prop :=
  before.Accessible (fun r => before.isAlive roots r = true) start r ∨ before.size ≤ r.index

def Safe (v : Value) : Prop :=
  ∀ r, v.Grants (Held before roots) r → Inside before roots start r

structure Confined (h : Heap) : Prop where
  size_le : before.size ≤ h.size
  outside : ∀ r, ¬Inside before roots start r → h.get? r = before.get? r
  inside : ∀ {r c v}, Inside before roots start r → h.get? r = some c → v ∈ c.values →
    Safe before roots start v

end

variable {before : Heap} {roots : List Ref} {start : Value → Prop}

theorem Inside.held (hstart : ∀ r, start (.container r) → r ∈ roots) {r : Ref}
    (hr : Inside before roots start r) : Held before roots r := by
  have hgrants {v : Value} {q : Ref} (hq : v.Grants (fun r => before.isAlive roots r = true) q) :
      before.isAlive roots q = true ∨ v = .container q := by
    cases hq with
    | container => exact .inr rfl
    | function _ ha | getter _ _ ha | setter _ _ ha => exact .inl ha
  rcases hr with hr | hr
  · induction hr with
    | start hv hq =>
      rcases hgrants hq with ha | rfl
      · exact .inl ha
      · exact .inl (Heap.isAlive_of_mem (hstart _ hv))
    | @slot d c v q hd hc hv hq ih =>
      rcases hgrants hq with ha | rfl
      · exact .inl ha
      · by_cases hlt : q.index < before.size
        · have hd' : before.isAlive roots d = true :=
            ih.resolve_right (Nat.not_le_of_lt (Heap.index_lt_of_get? hc))
          exact .inl (Heap.isAlive_of_refs hd' hc (Container.mem_refs hv) hlt)
        · exact .inr (Nat.le_of_not_lt hlt)
  · exact .inr hr

/-- What is alive was alive before, or is new, if slots have got only such containers. A dead one
would be held by dead ones only, and those are as they were. -/
theorem held_of_isAlive {h : Heap} {later : List Ref} (hl : ∀ r ∈ later, Held before roots r)
    (hslots : ∀ {d c r}, h.get? d = some c → r ∈ c.refs →
      (∃ c', before.get? d = some c' ∧ r ∈ c'.refs) ∨ Held before roots r)
    {r : Ref} (hr : h.isAlive later r = true) : Held before roots r := by
  by_contra hdead
  obtain ⟨s, hs, hsr⟩ := Heap.supported_of_isAlive hr
  have hsupported : before.Supported roots fun q => s q ∧ ¬Held before roots q := by
    rintro q ⟨hq, hqdead⟩
    rcases hs q hq with hq | ⟨d, c, hd, hget, hqc⟩
    · exact absurd (hl q hq) hqdead
    · obtain ⟨c', hget', hqc'⟩ := (hslots hget hqc).resolve_right hqdead
      refine .inr ⟨d, c', ⟨hd, fun hdlive => hqdead ?_⟩, hget', hqc'⟩
      have hda := hdlive.resolve_right (Nat.not_le_of_lt (Heap.index_lt_of_get? hget'))
      by_cases hlt : q.index < before.size
      · exact .inl (Heap.isAlive_of_refs hda hget' hqc' hlt)
      · exact .inr (Nat.le_of_not_lt hlt)
  have hlt : r.index < before.size := Nat.lt_of_not_le fun hle => hdead (.inr hle)
  exact hdead (.inl (Heap.isAlive_of_supported hsupported ⟨hsr, hdead⟩ hlt))

/-- What is alive in the course of a call was alive when it began, or is new. -/
theorem Confined.held_of_isAlive (hstart : ∀ r, start (.container r) → r ∈ roots) {h : Heap}
    (hc : Confined before roots start h) {later : List Ref}
    (hl : ∀ r ∈ later, Held before roots r) {r : Ref} (hr : h.isAlive later r = true) :
    Held before roots r := by
  apply Confinement.held_of_isAlive hl _ hr
  intro d c q hget hq
  by_cases hd : Inside before roots start d
  · exact .inr ((hc.inside hd hget (Container.mem_values_of_refs hq) q .container).held hstart)
  · exact .inl ⟨c, (hc.outside d hd).symm.trans hget, hq⟩

/-- In what is accessible in the course of a call nothing is from outside. -/
theorem Confined.inside_of_accessible (hstart : ∀ r, start (.container r) → r ∈ roots) {h : Heap}
    (hc : Confined before roots start h) {later : List Ref}
    (hl : ∀ r ∈ later, Held before roots r) {values : Value → Prop}
    (hv : ∀ v, values v → Safe before roots start v) {r : Ref}
    (hr : h.Accessible (fun r => h.isAlive later r = true) values r) :
    Inside before roots start r := by
  have hlive : ∀ q, h.isAlive later q = true → Held before roots q :=
    fun q hq => hc.held_of_isAlive hstart hl hq
  induction hr with
  | start hstart' hq => exact hv _ hstart' _ (hq.imp hlive)
  | slot hd hget hv hq ih => exact hc.inside ih hget hv _ (hq.imp hlive)

theorem safe_container {r : Ref} (hr : Inside before roots start r) :
    Safe before roots start (.container r) := by
  intro q hq
  cases hq
  exact hr

theorem safe_of_start {v : Value} (hv : start v) : Safe before roots start v := by
  intro r hr
  exact hr.or.imp_left fun h => .start hv h

theorem confined_refl : Confined before roots start before := by
  refine ⟨Nat.le_refl _, fun _ _ => rfl, ?_⟩
  intro r c v hr hget hv q hq
  have hr' := hr.resolve_right (Nat.not_le_of_lt (Heap.index_lt_of_get? hget))
  exact hq.or.imp_left fun h => .slot hr' hget hv h

theorem Confined.alloc {h : Heap} (hc : Confined before roots start h) {c : Container}
    (hs : ∀ v ∈ c.values, Safe before roots start v) :
    Confined before roots start (h.alloc c).2 ∧
      Safe before roots start (.container (h.alloc c).1) := by
  have hnew : Inside before roots start (h.alloc c).1 := .inr hc.size_le
  refine ⟨⟨?_, ?_, ?_⟩, safe_container hnew⟩
  · exact Nat.le_trans hc.size_le (by rw [Heap.size_alloc]; exact Nat.le_succ _)
  · intro r hr
    rw [Heap.get?_alloc, if_neg, hc.outside r hr]
    intro he
    exact hr (.inr (he ▸ hc.size_le))
  · intro r c' v hr hc' hv
    rw [Heap.get?_alloc] at hc'
    split at hc'
    · cases hc'
      exact hs v hv
    · exact hc.inside hr hc' hv

theorem Confined.write {h : Heap} (hc : Confined before roots start h) {r : Ref}
    {c c' : Container} {v : Value} (hr : Safe before roots start (.container r))
    (hget : h.get? r = some c) (hv : Safe before roots start v) (hw : c.Writes v c') :
    Confined before roots start (h.set r c') := by
  have hin : Inside before roots start r := hr r .container
  refine ⟨?_, ?_, ?_⟩
  · rw [Heap.size_set]
    exact hc.size_le
  · intro q hq
    have hne : q ≠ r := by
      rintro rfl
      exact hq hin
    rw [Heap.get?_set_of_ne _ _ hne]
    exact hc.outside q hq
  · intro q d w hq hd hwd
    by_cases he : q = r
    · subst he
      rw [Heap.get?_set_self _ _ _ (Heap.index_lt_of_get? hget)] at hd
      cases hd
      rcases hw.mem_values hwd with rfl | hwd | rfl
      · exact hv
      · exact hc.inside hin hget hwd
      · intro _ hg
        cases hg
    · rw [Heap.get?_set_of_ne _ _ he] at hd
      exact hc.inside hq hd hwd

def policy (before : Heap) (roots : List Ref) (start : Value → Prop)
    (hstart : ∀ r, start (.container r) → r ∈ roots) : Script.Policy where
  heap := Confined before roots start
  value := Safe before roots start
  held := Held before roots
  data hv _ hg := by cases hg <;> exact hv.elim
  refs := by
    intro v r hv hr
    cases v with
    | container q =>
      cases List.mem_singleton.1 hr
      exact (hv _ .container).held hstart
    | _ => cases hr
  getter := by
    intro a f ha hf r hr
    cases hr with
    | function hr hl => exact ha r (.getter hf hr hl)
  setter := by
    intro a f ha hf r hr
    cases hr with
    | function hr hl => exact ha r (.setter hf hr hl)
  receiver := by
    intro h later f hc hl hf
    rw [Heap.receiver]
    split
    next r hr =>
      split
      next ha =>
        exact safe_container (hf r (.function hr (hc.held_of_isAlive hstart hl ha)))
      next =>
        intro _ hg
        cases hg
    · intro _ hg
      cases hg
  alloc hc hs := hc.alloc hs
  read hc hr hget hv := hc.inside (hr _ .container) hget hv
  write hc hr hget hv hw := hc.write hr hget hv hw

end Confinement

namespace Script

open Confinement

theorem mem_foldl_hold {held : List Ref} {args : List Value} {r : Ref}
    (h : r ∈ held ∨ .container r ∈ args) : r ∈ args.foldl hold held := by
  induction args generalizing held with
  | nil => simpa using h
  | cons v args ih =>
    apply ih
    rcases h with h | h
    · left
      rw [hold]
      cases v with
      | container q => exact List.mem_insert_of_mem h
      | _ => exact h
    · rcases List.mem_cons.1 h with rfl | h
      · exact .inl List.mem_insert_self
      · exact .inr h

/-- A call changes only containers that are accessible from the function and its arguments when it
begins. Afterwards, whatever is held then, only these and new ones are accessible from the result
and from these. -/
theorem invoke_confined (fuel room depth : Nat) (held : List Ref) (f : Function)
    (args : List Value) (h : Heap) :
    let roots := args.foldl hold held
    let used := h.Accessible (fun r => h.isAlive roots r = true) fun v => v = .function f ∨ v ∈ args
    let ran := invoke fuel room depth held f args h
    (∀ r, r.index < h.size → ¬used r → ran.2.get? r = h.get? r) ∧
      ∀ later, (∀ r ∈ later, h.isAlive roots r = true ∨ h.size ≤ r.index) →
        ∀ r, ran.2.Accessible (fun r => ran.2.isAlive later r = true)
            (fun v => ran.1 = .ok v ∨ ∃ d, used d ∧ v = .container d) r →
          used r ∨ h.size ≤ r.index := by
  intro roots used ran
  let start (v : Value) : Prop := v = .function f ∨ v ∈ args
  have hstart : ∀ r, start (.container r) → r ∈ roots := by
    rintro r (hr | hr)
    · cases hr
    · exact mem_foldl_hold (.inr hr)
  have hheld : ∀ r ∈ held, Held h roots r :=
    fun r hr => .inl (Heap.isAlive_of_mem (mem_foldl_hold (.inl hr)))
  have hf : Safe h roots start (.function f) := safe_of_start (.inl rfl)
  have hargs : ∀ v ∈ args, Safe h roots start v := fun v hv => safe_of_start (.inr hv)
  -- that the body keeps to the policy is proved once for all bodies
  have hran := (policy h roots start hstart).calls_invoke fuel room depth held f args hheld hf
    hargs h confined_refl
  have hc : Confined h roots start ran.2 := hran.1
  constructor
  · intro r hlt hr
    apply hc.outside
    rintro (hin | hle)
    · exact hr hin
    · exact absurd hlt (Nat.not_lt_of_ge hle)
  · intro later hl r hr
    refine hc.inside_of_accessible hstart hl ?_ hr
    rintro v (hok | ⟨d, hd, rfl⟩)
    · exact hran.2 v hok
    · exact safe_container (.inl hd)

end Script

end LiveDoc
