import LiveDoc.Proofs.Receivers

namespace LiveDoc

theorem Slots.values_put_subperm (slots : Slots α) (key : String) (value : α) :
    (values (slots.put key value)).Subperm (slots.values ++ [value]) := by
  induction slots with
  | nil => exact .refl _
  | cons slot rest ih =>
    obtain ⟨k, v⟩ := slot
    rw [put]
    split
    · have hperm : (value :: values rest).Perm (values rest ++ [value]) :=
        (List.perm_append_singleton value _).symm
      exact hperm.subperm.trans (List.sublist_cons_self v _).subperm
    · exact (List.subperm_cons v).2 ih

namespace Heap

def held (h : Heap) : List Ref :=
  h.containers.toList.flatMap Container.refs

def heldFrom (h : Heap) (n : Nat) : List Ref :=
  (h.containers.toList.drop n).flatMap Container.refs

def Holds (h : Heap) (d r : Ref) : Prop :=
  ∃ k, h.get? d = some k ∧ r ∈ k.refs

section

variable {h g : Heap} {n : Nat} {r : Ref} {k : Container}

theorem heldFrom_eq_nil (hn : h.size ≤ n) : h.heldFrom n = [] := by
  rw [heldFrom, List.drop_of_length_le (by simpa [size] using hn)]
  rfl

theorem mem_heldFrom : r ∈ h.heldFrom n ↔ ∃ d, n ≤ d.index ∧ h.Holds d r := by
  have hdrop (k : Container) :
      k ∈ h.containers.toList.drop n ↔ ∃ d : Ref, n ≤ d.index ∧ h.get? d = some k := by
    simp only [List.mem_iff_getElem?, List.getElem?_drop, Array.getElem?_toList]
    constructor
    · rintro ⟨i, hi⟩
      exact ⟨⟨n + i⟩, Nat.le_add_right n i, hi⟩
    · rintro ⟨d, hn, hk⟩
      exact ⟨d.index - n, by rwa [Nat.add_sub_cancel' hn]⟩
  simp only [heldFrom, List.mem_flatMap, hdrop, Holds]
  grind

theorem Extends.toList_eq (hg : h.Extends g) :
    g.containers.toList = h.containers.toList ++ g.containers.toList.drop h.size := by
  have htake : g.containers.toList.take h.size = h.containers.toList := by
    apply List.ext_getElem?
    intro i
    rw [List.getElem?_take]
    split
    next hi => simpa [get?] using hg.get?_eq ⟨i⟩ hi
    next hi => simpa [size] using hi
  rw [← htake, List.take_append_drop]

theorem Extends.heldFrom_eq (hg : h.Extends g) (hn : n ≤ h.size) :
    g.heldFrom n = h.heldFrom n ++ g.heldFrom h.size := by
  have hlength : n ≤ h.containers.toList.length := by simpa [size] using hn
  rw [heldFrom, hg.toList_eq, List.drop_append_of_le_length hlength, List.flatMap_append]
  rfl

theorem Extends.held_eq (hg : h.Extends g) : g.held = h.held ++ g.heldFrom h.size := by
  rw [held, hg.toList_eq, List.flatMap_append]
  rfl

theorem heldFrom_set (hn : n < h.size) (k : Container) :
    (h.set ⟨n⟩ k).heldFrom n = k.refs ++ h.heldFrom (n + 1) := by
  have hlength : n < (h.containers.toList.set n k).length := by simpa [size] using hn
  rw [heldFrom, set, Array.toList_setIfInBounds, List.drop_eq_getElem_cons hlength]
  simp [heldFrom, List.drop_set]

end

end Heap

namespace Load.Build

/-- A build that has made containers and has some values in hand. No new container is in two places,
be it slots or values in hand, and a container has only such in its slots that were made after it. -/
structure Planted (h g : Heap) (vs : List Value) : Prop where
  grows : h.Extends g
  once : (vs.flatMap Value.refs ++ g.heldFrom h.size).Nodup
  within : ∀ r ∈ vs.flatMap Value.refs ++ g.heldFrom h.size, h.size ≤ r.index ∧ r.index < g.size
  defined : ∀ v ∈ vs, v ≠ .undefined
  contents : ∀ d k, h.size ≤ d.index → g.get? d = some k →
    (∀ v ∈ k.values, v ≠ .undefined) ∧ ∀ r ∈ k.refs, d.index < r.index

namespace Planted

variable {h m g : Heap} {v : Value} {vs ws : List Value}

theorem data (hg : g.containers = h.containers)
    (hv : ∀ v ∈ vs, v.refs = [] ∧ v ≠ .undefined) : Planted h g vs := by
  have hsize : g.size = h.size := by rw [Heap.size, hg, Heap.size]
  have hnone : vs.flatMap Value.refs ++ g.heldFrom h.size = [] := by
    rw [Heap.heldFrom_eq_nil (Nat.le_of_eq hsize), List.append_nil]
    exact List.flatMap_eq_nil_iff.2 fun v hmem => (hv v hmem).1
  constructor
  · exact .of_containers hg
  · rw [hnone]
    exact .nil
  · rw [hnone]
    exact fun _ hr => absurd hr List.not_mem_nil
  · exact fun v hmem => (hv v hmem).2
  · intro d k hd hk
    exact absurd (Heap.index_lt_of_get? hk) (by omega)

theorem change (hp : Planted h g vs)
    (hs : (ws.flatMap Value.refs).Subperm (vs.flatMap Value.refs))
    (hu : ∀ w ∈ ws, w ≠ .undefined) : Planted h g ws where
  grows := hp.grows
  once := by
    obtain ⟨l, hperm, hsub⟩ := (List.subperm_append_right (g.heldFrom h.size)).2 hs
    exact hperm.nodup_iff.1 (hp.once.sublist hsub)
  within r hr := hp.within r (((List.subperm_append_right _).2 hs).subset hr)
  defined := hu
  contents := hp.contents

theorem perm_append (hp : Planted h m vs) (hq : Planted m g ws) :
    ((vs ++ ws).flatMap Value.refs ++ g.heldFrom h.size).Perm
      ((vs.flatMap Value.refs ++ m.heldFrom h.size) ++
        (ws.flatMap Value.refs ++ g.heldFrom m.size)) := by
  rw [hq.grows.heldFrom_eq hp.grows.size_le, List.flatMap_append, List.append_assoc,
    List.append_assoc]
  exact (List.perm_append_comm_assoc _ _ _).append_left _

/-- What the second build has made is not in what the first one has made. -/
theorem append (hp : Planted h m vs) (hq : Planted m g ws) : Planted h g (vs ++ ws) where
  grows := hp.grows.trans hq.grows
  once := by
    rw [(perm_append hp hq).nodup_iff, List.nodup_append]
    refine ⟨hp.once, hq.once, ?_⟩
    rintro r hr _ hr' rfl
    exact absurd (hp.within r hr).2 (Nat.not_lt.2 (hq.within r hr').1)
  within := by
    have hle := hp.grows.size_le
    have hle' := hq.grows.size_le
    intro r hr
    rcases List.mem_append.1 ((perm_append hp hq).mem_iff.1 hr) with hr | hr
    · have hwithin := hp.within r hr
      omega
    · have hwithin := hq.within r hr
      omega
  defined v hv := (List.mem_append.1 hv).elim (hp.defined v) (hq.defined v)
  contents d k hd hk := by
    by_cases hdm : d.index < m.size
    · rw [hq.grows.get?_eq d hdm] at hk
      exact hp.contents d k hd hk
    · exact hq.contents d k (Nat.not_lt.1 hdm) hk

/-- A container that was made before the values that are put into it. -/
theorem container {k₀ k : Container} (hp : Planted (h.alloc k₀).2 g k.values) :
    Planted h (g.set ⟨h.size⟩ k) [.container ⟨h.size⟩] := by
  have hsize : (h.alloc k₀).2.size = h.size + 1 := h.size_alloc k₀
  have hmem : h.size < g.size := by
    have hle := hp.grows.size_le
    omega
  -- what was in hand is in the slots of the container now, and nowhere else
  have hrefs : k.values.flatMap Value.refs ++ g.heldFrom (h.alloc k₀).2.size =
      (g.set ⟨h.size⟩ k).heldFrom h.size := by
    rw [hsize, Heap.heldFrom_set hmem]
    rfl
  have honce := hp.once
  have hwithin := hp.within
  rw [hrefs] at honce hwithin
  constructor
  · exact ((Heap.Extends.alloc h k₀).trans hp.grows).set k (Nat.le_refl _)
  · apply List.nodup_cons.2
    refine ⟨?_, honce⟩
    intro hr
    have hle := (hwithin _ hr).1
    simp only at hle
    omega
  · intro r hr
    rw [Heap.size_set]
    rcases List.mem_cons.1 hr with rfl | hr
    · exact ⟨Nat.le_refl _, hmem⟩
    · have hle := hwithin r hr
      omega
  · simp
  · intro d k' hd hk
    by_cases hdr : d = ⟨h.size⟩
    · subst hdr
      cases (Heap.get?_set_self _ _ _ hmem).symm.trans hk
      refine ⟨hp.defined, ?_⟩
      intro r hr
      have hle := (hp.within r (List.mem_append_left _ hr)).1
      simp only
      omega
    · rw [Heap.get?_set_of_ne _ _ hdr] at hk
      have hne : d.index ≠ h.size := fun he => hdr (Ref.eq_of_index he)
      exact hp.contents d k' (by omega) hk

/-- Every container that can be reached is in hand or in a slot of a new one. -/
theorem mem_of_reached (hp : Planted h g [v]) {d : Ref} (hd : g.Reached v.refs d) :
    d ∈ [v].flatMap Value.refs ++ g.heldFrom h.size := by
  induction hd with
  | root hr => simp [hr]
  | slot _ hk hr ih =>
    apply List.mem_append_right
    exact Heap.mem_heldFrom.2 ⟨_, (hp.within _ ih).1, _, hk, hr⟩

theorem count_held (hp : Planted h g [v]) {d : Ref} (hd : g.Reached v.refs d) :
    g.held.count d = h.held.count d + if d ∈ v.refs then 0 else 1 := by
  have hone := List.count_eq_one_of_mem hp.once (hp.mem_of_reached hd)
  rw [List.flatMap_singleton, List.count_append] at hone
  rw [hp.grows.held_eq, List.count_append]
  split
  next hmem =>
    have hpos := List.count_pos_iff.2 hmem
    omega
  next hmem =>
    have hzero := List.count_eq_zero.2 hmem
    omega

/-- What a new container holds was made after it. -/
theorem lt_of_transGen (hp : Planted h g vs) {d r : Ref} (hd : h.size ≤ d.index)
    (hr : Relation.TransGen g.Holds d r) : d.index < r.index := by
  induction hr with
  | single hr =>
    obtain ⟨k, hk, hr⟩ := hr
    exact (hp.contents d k hd hk).2 _ hr
  | tail _ hr ih =>
    obtain ⟨k, hk, hr⟩ := hr
    exact Nat.lt_trans ih ((hp.contents _ k (by omega) hk).2 _ hr)

end Planted

def Plants (m : Build Value) : Prop :=
  ∀ {h g : Heap} {v : Value}, m h = .ok (v, g) → Planted h g [v]

section

variable {c : Config} {document : String → Build Value} {h g : Heap}

theorem Planted.place {d : Ref} {name : String} {t : Yaml.Tree} {v w : Value}
    (hp : Planted h g [v]) (hw : placed c g d name t v = .ok w) : Planted h g [w] := by
  cases outcome_of_placed hw with
  | kept _ => exact hp
  | accessor _ _ _ _ _ =>
    apply hp.change
    · exact List.nil_subperm
    · simp

theorem Planted.put {done : Entries} {m : Heap} {w : Value} (hp : Planted h m done.values)
    (hw : Planted m g [w]) (name : String) : Planted h g (Slots.values (done.put name w)) := by
  have hboth := hp.append hw
  have hsub := Slots.values_put_subperm done name w
  apply hboth.change
  · obtain ⟨l, hperm, hl⟩ := hsub
    exact (hperm.flatMap_right _).symm.subperm.trans (hl.flatMap _).subperm
  · intro u hu
    exact hboth.defined u (hsub.subset hu)

mutual

theorem plants_resolve (hd : ∀ q, Plants (document q)) (t : Yaml.Tree) (owner : Option Ref) :
    Plants (resolve c document owner t) := by
  intro h g v hr
  match t with
  | .string s =>
    simp only [resolve] at hr
    rcases text_eq_ok.1 hr with ⟨-, hr⟩ | ⟨params, body, -, hr⟩ | ⟨path, -, hr⟩
    · cases hr
      exact .data rfl (by simp [Value.refs])
    · obtain ⟨program, -, rfl, rfl⟩ := function_eq_ok.1 hr
      exact .data rfl (by simp [Value.refs])
    · exact hd path hr
  | .sequence ts =>
    obtain ⟨items, h₁, hi, rfl, rfl⟩ := resolve_sequence_eq_ok.1 hr
    exact .container (planted_resolveItems hd ts hi)
  | .mapping es =>
    obtain ⟨entries, h₁, he, rfl, rfl⟩ := resolve_mapping_eq_ok.1 hr
    exact .container (planted_resolveEntries hd es he (.data rfl nofun))
  | .tagged _ t =>
    simp only [resolve] at hr
    exact plants_resolve hd t owner hr
  | .null | .bool _ | .int _ | .float _ =>
    simp only [resolve] at hr
    cases hr
    exact .data rfl (by simp [Value.refs, Yaml.Tree.scalar])

theorem planted_resolveItems (hd : ∀ q, Plants (document q)) (ts : List Yaml.Tree) {d : Ref}
    {index : Nat} {h g : Heap} {vs : List Value}
    (hr : resolveItems c document d index ts h = .ok (vs, g)) : Planted h g vs := by
  match ts with
  | [] =>
    cases hr
    exact .data rfl nofun
  | t :: ts =>
    obtain ⟨v, h₁, w, ws, hv, hw, hws, rfl⟩ := resolveItems_cons_eq_ok.1 hr
    have hfirst : Planted h h₁ [w] := (plants_resolve hd t (some d) hv).place hw
    exact hfirst.append (planted_resolveItems hd ts hws)

theorem planted_resolveEntries (hd : ∀ q, Plants (document q)) (es : List (Yaml.Tree × Yaml.Tree))
    {d : Ref} {done out : Entries} {h₀ h g : Heap}
    (hr : resolveEntries c document d done es h = .ok (out, g))
    (hdone : Planted h₀ h done.values) : Planted h₀ g out.values := by
  match es with
  | [] =>
    cases hr
    exact hdone
  | (key, t) :: rest =>
    obtain ⟨name, v, h₁, w, -, hv, hw, hr⟩ := resolveEntries_cons_eq_ok.1 hr
    have hnode : Planted h h₁ [w] := (plants_resolve hd t (some d) hv).place hw
    exact planted_resolveEntries hd rest hr (hdone.put hnode name)

end

end

end Load.Build

namespace Load.Loader

theorem plants_document (l : Loader) (stack : List Identity) (p : String) :
    Build.Plants (l.document stack p) := by
  induction stack, p using document_induction (l := l) with
  | step stack p ih =>
    intro h g v hr
    obtain ⟨hoff, t, ht, hr⟩ := document_eq_ok.1 hr
    exact Build.plants_resolve (ih hoff t ht) t none hr

theorem plants_node (l : Loader) (t : Yaml.Tree) : Build.Plants (l.node t) :=
  Build.plants_resolve (plants_document l []) t none

theorem plants_load (l : Loader) (src : Source) : Build.Plants (l.load src) := by
  intro h g v hr
  obtain ⟨t, ht⟩ := exists_starts hr
  obtain ⟨stack, hr⟩ := resolve_of_starts hr ht
  exact Build.plants_resolve (plants_document _ stack) t none hr

/-- The containers of a loaded document are new ones and make up a tree: the root is in no slot, each
other one is in a single slot, and none of them is inside of itself. All their slots have values. -/
theorem load_tree {patterns : Line.Patterns} {reader : Reader} {docs : Collection} {src : Source}
    {h g : Heap} {root : Value}
    (hr : (ofCollection patterns reader docs).load src h = .ok (root, g)) :
    root ≠ .undefined ∧ h.Extends g ∧ ∀ d, g.Reached root.refs d → h.size ≤ d.index ∧
      ((∀ r ∈ h.held, r.index < h.size) → h.held.count d = 0) ∧
      (g.held.count d = h.held.count d + if d ∈ root.refs then 0 else 1) ∧
      ¬Relation.TransGen g.Holds d d ∧
      ∃ k, g.get? d = some k ∧ ∀ v ∈ k.values, v ≠ .undefined := by
  obtain ⟨t, ht⟩ := exists_starts hr
  obtain ⟨stack, hr⟩ := resolve_of_starts hr ht
  have hp : Build.Planted h g [root] :=
    Build.plants_resolve (plants_document _ stack) t none hr
  refine ⟨hp.defined root (List.mem_singleton_self _), hp.grows, ?_⟩
  intro d hd
  obtain ⟨hle, hlt⟩ := hp.within d (hp.mem_of_reached hd)
  obtain ⟨k, hk⟩ : ∃ k, g.get? d = some k := ⟨_, Array.getElem?_eq_getElem hlt⟩
  refine ⟨hle, ?_, hp.count_held hd, ?_, k, hk, (hp.contents d k hle hk).1⟩
  · intro hh
    apply List.count_eq_zero.2
    intro hmem
    exact absurd (hh d hmem) (Nat.not_lt.2 hle)
  · intro hloop
    exact absurd (hp.lt_of_transGen hle hloop) (Nat.lt_irrefl _)

theorem load_tree_of_pair :
    ∃ g, (ofCollection .standard .yaml [("p", "[]")]).load
        (.text "['__YAML_SCRIPT_INCLUDE__ p', '__YAML_SCRIPT_INCLUDE__ p']") {} =
          .ok (.container ⟨0⟩, g) ∧ g.held = [⟨1⟩, ⟨2⟩] ∧
      ∀ d, g.Reached [⟨0⟩] d → g.held.count d = if d = ⟨0⟩ then 0 else 1 := by
  have hr : (ofCollection .standard .yaml [("p", "[]")]).load
      (.text "['__YAML_SCRIPT_INCLUDE__ p', '__YAML_SCRIPT_INCLUDE__ p']") {} =
        .ok (.container ⟨0⟩,
          ⟨#[.sequence #[.container ⟨1⟩, .container ⟨2⟩], .sequence #[], .sequence #[]], 0⟩) := by
    cbv
  obtain ⟨-, -, hall⟩ := load_tree hr
  refine ⟨_, hr, rfl, ?_⟩
  intro d hd
  obtain ⟨-, hbefore, hafter, -⟩ := hall d hd
  rw [hafter, hbefore (by simp [Heap.held])]
  simp [Value.refs]

end Load.Loader

end LiveDoc
