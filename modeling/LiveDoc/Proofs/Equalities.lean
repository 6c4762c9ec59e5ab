import LiveDoc.Proofs.Floats
import LiveDoc.Proofs.Heights
import LiveDoc.Proofs.Names
import LiveDoc.Script.Operators
import LiveDoc.Value.Equality

namespace LiveDoc

theorem Function.isSame_self (f : Function) : f.isSame f = true :=
  decide_eq_true rfl

theorem Function.isSame_comm (f g : Function) : f.isSame g = g.isSame f :=
  decide_eq_decide.2 eq_comm

theorem sameFunction?_self (o : Option Function) : sameFunction? o o = true := by
  cases o with
  | none => rfl
  | some f => exact f.isSame_self

theorem sameFunction?_comm (o p : Option Function) : sameFunction? o p = sameFunction? p o := by
  cases o with
  | none => cases p <;> rfl
  | some f =>
    cases p with
    | none => rfl
    | some g => exact f.isSame_comm g

theorem Accessor.isSame_self (a : Accessor) : a.isSame a = true := by
  rw [isSame, sameFunction?_self, sameFunction?_self]
  rfl

theorem Accessor.isSame_comm (a b : Accessor) : a.isSame b = b.isSame a := by
  rw [isSame, isSame, sameFunction?_comm, sameFunction?_comm a.setter]

namespace Value

theorem strictEquals_comm (a b : Value) : a.strictEquals b = b.strictEquals a := by
  cases a <;> cases b <;>
    simp [strictEquals, eq_comm, Number.equals_comm, Function.isSame_comm]

theorem looseEquals_comm (a b : Value) : a.looseEquals b = b.looseEquals a := by
  cases a <;> cases b <;>
    simp [looseEquals, isUndefined, isNull, strictEquals_comm, Number.equals_comm]

theorem looseEquals_of_strictEquals {a b : Value} (h : a.strictEquals b = true) :
    a.looseEquals b = true := by
  cases a <;> cases b <;>
    simp_all [looseEquals, strictEquals, isUndefined, isNull, toNumber, Number.equals]

end Value

def Container.compare? (test : Value → Value → Option Bool) : Container → Container → Option Bool
  | sequence as, sequence bs =>
    if as.size = bs.size then Heap.allM? (fun p => test p.1 p.2) (as.toList.zip bs.toList)
    else some false
  | mapping as, mapping bs =>
    let entry (a : String × Value) :=
      match bs.get? a.1 with
      | some b => test a.2 b
      | none => some false
    if as.length = bs.length then Heap.allM? entry as else some false
  | _, _ => some false

namespace Heap

/-- Equality of values that nest at most `depth` pairs of containers. Without `shortcut` a container
is compared with itself slot by slot. -/
def comparedIn (h : Heap) (shortcut : Bool) : Nat → Value → Value → Option Bool
  | 0, .container r, .container s =>
    if shortcut = true ∧ r = s then some true
    else
      match h.get? r, h.get? s with
      | some (.sequence _), some (.sequence _) | some (.mapping _), some (.mapping _) => none
      | _, _ => some false
  | depth + 1, .container r, .container s =>
    if shortcut = true ∧ r = s then some true
    else
      match h.get? r, h.get? s with
      | some k, some l => k.compare? (comparedIn h shortcut depth) l
      | _, _ => some false
  | _, a, b => h.equalIn 0 a b

/-- Equality by contents, of a container with itself too. -/
def structural? (h : Heap) (a b : Value) : Option Bool :=
  h.comparedIn false (h.size * h.size + 1) a b

theorem equalIn_eq_comparedIn (h : Heap) (depth : Nat) (a b : Value) :
    h.equalIn depth a b = h.comparedIn true depth a b := by
  induction depth generalizing a b with
  | zero =>
    cases a <;> cases b <;> try rfl
    next r s =>
      simp only [comparedIn, true_and]
      rcases hr : h.get? r with _ | _ | _ <;> rcases hs : h.get? s with _ | _ | _ <;>
        simp [equalIn, hr, hs]
  | succ depth ih =>
    have hsame : h.comparedIn true depth = h.equalIn depth :=
      funext fun a => funext fun b => (ih a b).symm
    cases a <;> cases b <;> try rfl
    next r s =>
      simp only [comparedIn, true_and, hsame]
      rcases hr : h.get? r with _ | _ | _ <;> rcases hs : h.get? s with _ | _ | _ <;>
        simp [equalIn, hr, hs] <;> rfl

/-- Equality by contents as a relation. With `shortcut` a container equals itself. -/
inductive Same (h : Heap) (shortcut : Bool) : Value → Value → Prop
  | simple {a b : Value} : a.refs = [] ∨ b.refs = [] → h.equalIn 0 a b = some true →
    Same h shortcut a b
  | handle {r : Ref} : shortcut = true → Same h shortcut (.container r) (.container r)
  | sequence {r s : Ref} {as bs : Array Value} : h.get? r = some (.sequence as) →
    h.get? s = some (.sequence bs) → as.size = bs.size →
    (∀ p ∈ as.toList.zip bs.toList, Same h shortcut p.1 p.2) →
    Same h shortcut (.container r) (.container s)
  | mapping {r s : Ref} {as bs : Entries} : h.get? r = some (.mapping as) →
    h.get? s = some (.mapping bs) → as.length = bs.length →
    (∀ e ∈ as, e.1 ∈ bs.keys) →
    (∀ e ∈ as, ∀ b, bs.get? e.1 = some b → Same h shortcut e.2 b) →
    Same h shortcut (.container r) (.container s)

def Decides (answer : Option Bool) (p : Prop) : Prop :=
  ∃ b, answer = some b ∧ (b = true ↔ p)

theorem Decides.congr {answer : Option Bool} {p q : Prop} (h : Decides answer p) (hpq : p ↔ q) :
    Decides answer q := by
  obtain ⟨b, hb, hp⟩ := h
  exact ⟨b, hb, hp.trans hpq⟩

theorem Decides.eq {answer answer' : Option Bool} {p : Prop} (h : Decides answer p)
    (h' : Decides answer' p) : answer = answer' := by
  obtain ⟨b, rfl, hb⟩ := h
  obtain ⟨b', rfl, hb'⟩ := h'
  rw [Bool.eq_iff_iff.2 (hb.trans hb'.symm)]

theorem decides_false {p : Prop} (h : ¬p) : Decides (some false) p :=
  ⟨false, rfl, by simpa using h⟩

theorem decides_allM? {test : α → Option Bool} {P : α → Prop} {xs : List α}
    (h : ∀ x ∈ xs, Decides (test x) (P x)) : Decides (allM? test xs) (∀ x ∈ xs, P x) := by
  induction xs with
  | nil => exact ⟨true, rfl, by simp⟩
  | cons x xs ih =>
    rw [List.forall_mem_cons] at h
    obtain ⟨⟨b, hb, hx⟩, hxs⟩ := h
    obtain ⟨c, hc, hall⟩ := ih hxs
    rw [List.forall_mem_cons, ← hx, ← hall]
    cases b with
    | false => exact ⟨false, by rw [allM?, hb]; rfl, by simp⟩
    | true => exact ⟨c, by rw [allM?, hb]; exact hc, by simp⟩

end Heap

inductive Container.Matches (R : Value → Value → Prop) : Container → Container → Prop
  | sequence {as bs : Array Value} : as.size = bs.size →
    (∀ p ∈ as.toList.zip bs.toList, R p.1 p.2) → Matches R (.sequence as) (.sequence bs)
  | mapping {as bs : Entries} : as.length = bs.length →
    (∀ e ∈ as, ∃ b, bs.get? e.1 = some b ∧ R e.2 b) → Matches R (.mapping as) (.mapping bs)

namespace Heap

open Container

theorem decides_compare? {test : Value → Value → Option Bool} {R : Value → Value → Prop}
    {k l : Container} (h : ∀ v ∈ k.values, ∀ w, Decides (test v w) (R v w)) :
    Decides (k.compare? test l) (k.Matches R l) := by
  cases k with
  | sequence as =>
    cases l with
    | mapping bs => exact decides_false nofun
    | sequence bs =>
      rw [compare?]
      split
      next hsize =>
        refine (decides_allM? fun p hp => h _ (List.of_mem_zip hp).1 _).congr ?_
        exact ⟨.sequence hsize, fun | .sequence _ hall => hall⟩
      next hsize => exact decides_false fun | .sequence hs _ => hsize hs
  | mapping as =>
    cases l with
    | sequence bs => exact decides_false nofun
    | mapping bs =>
      rw [compare?]
      split
      next hlength =>
        refine (decides_allM? (P := fun e => ∃ b, bs.get? e.1 = some b ∧ R e.2 b) ?_).congr ?_
        · intro e he
          split
          next b hb =>
            refine (h e.2 (List.mem_map_of_mem he) b).congr ?_
            simp [hb]
          next hb => exact decides_false (by simp [hb])
        · exact ⟨.mapping hlength, fun | .mapping _ hall => hall⟩
      next hlength => exact decides_false fun | .mapping hl _ => hlength hl

section

variable {h : Heap} {shortcut : Bool}

theorem same_simple_iff {a b : Value} (hab : a.refs = [] ∨ b.refs = []) :
    h.Same shortcut a b ↔ h.equalIn 0 a b = some true := by
  constructor
  · intro hs
    cases hs with
    | simple _ he => exact he
    | handle _ | sequence _ _ _ _ | mapping _ _ _ _ _ => simp [Value.refs] at hab
  · exact .simple hab

theorem same_container_iff {r s : Ref} :
    h.Same shortcut (.container r) (.container s) ↔ (shortcut = true ∧ r = s) ∨
      ∃ k l, h.get? r = some k ∧ h.get? s = some l ∧ k.Matches (h.Same shortcut) l := by
  constructor
  · intro hs
    cases hs with
    | simple hab _ => simp [Value.refs] at hab
    | handle hcut => exact .inl ⟨hcut, rfl⟩
    | sequence hr hs hsize hall => exact .inr ⟨_, _, hr, hs, .sequence hsize hall⟩
    | mapping hr hs hlength hkeys hall =>
      refine .inr ⟨_, _, hr, hs, .mapping hlength fun e he => ?_⟩
      obtain ⟨b, hb⟩ := Slots.exists_get?_of_mem_keys (hkeys e he)
      exact ⟨b, hb, hall e he b hb⟩
  · rintro (⟨hcut, rfl⟩ | ⟨k, l, hr, hs, hkl⟩)
    · exact .handle hcut
    · cases hkl with
      | sequence hsize hall => exact .sequence hr hs hsize hall
      | mapping hlength hall =>
        refine .mapping hr hs hlength ?_ ?_
        · intro e he
          obtain ⟨b, hb, -⟩ := hall e he
          exact Slots.mem_keys_of_get? hb
        · intro e he b hb
          obtain ⟨b', hb', hsame⟩ := hall e he
          cases hb.symm.trans hb'
          exact hsame

theorem simple_or_containers (a b : Value) :
    (a.refs = [] ∨ b.refs = []) ∨ ∃ r s, a = .container r ∧ b = .container s := by
  cases a <;> cases b <;> simp [Value.refs]

theorem decides_simple {a b : Value} (hab : a.refs = [] ∨ b.refs = []) (depth : Nat) :
    Decides (h.comparedIn shortcut depth a b) (h.Same shortcut a b) := by
  have hcompared : h.comparedIn shortcut depth a b = h.equalIn 0 a b := by
    cases a <;> cases b <;> cases depth <;> first | rfl | simp [Value.refs] at hab
  have hanswer : ∃ same, h.equalIn 0 a b = some same := by
    cases a <;> cases b <;> first | exact ⟨_, rfl⟩ | simp [Value.refs] at hab
  obtain ⟨same, hsame⟩ := hanswer
  refine ⟨same, hcompared.trans hsame, ?_⟩
  rw [same_simple_iff hab, hsame, Option.some.injEq]

/-- A comparison that goes deep enough comes to an end. -/
theorem decides_comparedIn (hacyclic : h.Acyclic) {depth : Nat} {a b : Value}
    (hdepth : ∀ r ∈ a.refs, r.index < h.size → h.height r < depth) :
    Decides (h.comparedIn shortcut depth a b) (h.Same shortcut a b) := by
  induction depth generalizing a b with
  | zero =>
    rcases simple_or_containers a b with hab | ⟨r, s, rfl, rfl⟩
    · exact decides_simple hab 0
    · rw [comparedIn]
      split
      next hcut => exact ⟨true, rfl, by simp [same_container_iff, hcut]⟩
      next hcut =>
        -- a container of the heap has a height, for which there is no depth left
        have hr : h.get? r = none := by
          apply Array.getElem?_eq_none
          refine Nat.le_of_not_lt fun hlt => ?_
          exact absurd (hdepth r (List.mem_singleton_self r) hlt) (Nat.not_lt_zero _)
        simp only [hr]
        exact decides_false (by simp [same_container_iff, hcut, hr])
  | succ depth ih =>
    rcases simple_or_containers a b with hab | ⟨r, s, rfl, rfl⟩
    · exact decides_simple hab (depth + 1)
    · rw [comparedIn]
      split
      next hcut => exact ⟨true, rfl, by simp [same_container_iff, hcut]⟩
      next hcut =>
        split
        next k l hr hs =>
          refine (decides_compare? fun v hv w => ih ?_).congr ?_
          · intro q hq hlt
            have hholds : h.Holds r q := ⟨k, hr, List.mem_flatMap.2 ⟨v, hv, hq⟩⟩
            have hless := height_lt_of_holds hholds hlt (hacyclic q)
            have hle := hdepth r (List.mem_singleton_self r) (index_lt_of_get? hr)
            omega
          · simp [same_container_iff, hcut, hr, hs]
        next hnone =>
          refine decides_false ?_
          rw [same_container_iff]
          rintro (hc | ⟨k, l, hr, hs, -⟩)
          · exact hcut hc
          · exact hnone k l hr hs

/-- Slots hold containers of the heap, and the slots of a mapping have different names. -/
structure Regular (h : Heap) : Prop where
  within : ∀ d r, h.Holds d r → r.index < h.size
  distinct : ∀ r entries, h.get? r = some (.mapping entries) → entries.keys.Nodup

theorem equalIn_simple_comm {a b : Value} (hab : a.refs = [] ∨ b.refs = []) :
    h.equalIn 0 a b = h.equalIn 0 b a := by
  cases a <;> cases b <;>
    simp [equalIn, Value.refs, eq_comm, Number.equals_comm, Function.isSame_comm,
      Accessor.isSame_comm] at hab ⊢

theorem Same.symm (hregular : h.Regular) {a b : Value} (hab : h.Same shortcut a b) :
    h.Same shortcut b a := by
  induction hab with
  | simple hab he => exact .simple hab.symm ((equalIn_simple_comm hab).symm.trans he)
  | handle hcut => exact .handle hcut
  | sequence hr hs hsize _ ih =>
    refine .sequence hs hr hsize.symm fun p hp => ?_
    rw [← List.zip_swap] at hp
    obtain ⟨q, hq, rfl⟩ := List.mem_map.1 hp
    exact ih q hq
  | mapping hr hs hlength hkeys _ ih =>
    rw [same_container_iff]
    refine .inr ⟨_, _, hs, hr, .mapping hlength.symm ?_⟩
    refine Slots.exists_get?_comm (R := fun v w => h.Same shortcut w v)
      (hregular.distinct _ _ hr) (hregular.distinct _ _ hs) hlength fun e he => ?_
    obtain ⟨b, hb⟩ := Slots.exists_get?_of_mem_keys (hkeys e he)
    exact ⟨b, hb, ih e he b hb⟩

end

/-- The same containers, with the slots of mappings in any order. -/
inductive Reordered : Container → Container → Prop
  | sequence {items : Array Value} : Reordered (.sequence items) (.sequence items)
  | mapping {entries entries' : Entries} : entries.Perm entries' →
    Reordered (.mapping entries) (.mapping entries')

def Reorders (h h' : Heap) : Prop :=
  ∀ r, Option.Rel Reordered (h.get? r) (h'.get? r)

section

variable {h h' : Heap} {shortcut : Bool}

theorem Reordered.symm {k k' : Container} (hk : Reordered k k') : Reordered k' k := by
  cases hk with
  | sequence => exact .sequence
  | mapping hperm => exact .mapping hperm.symm

theorem rel_reordered_symm {o o' : Option Container} (ho : Option.Rel Reordered o o') :
    Option.Rel Reordered o' o := by
  cases ho with
  | none => exact .none
  | some hk => exact .some hk.symm

theorem Reorders.symm (hh : h.Reorders h') : h'.Reorders h :=
  fun r => rel_reordered_symm (hh r)

theorem Reordered.mem_refs {k k' : Container} (hk : Reordered k k') {r : Ref} (hr : r ∈ k.refs) :
    r ∈ k'.refs := by
  cases hk with
  | sequence => exact hr
  | mapping hperm => exact ((hperm.map _).flatMap_right _).subset hr

theorem Reorders.get? (hh : h.Reorders h') {r : Ref} {k : Container} (hk : h.get? r = some k) :
    ∃ k', h'.get? r = some k' ∧ Reordered k k' := by
  have hr := hh r
  rw [hk] at hr
  cases hr' : h'.get? r with
  | none => rw [hr'] at hr; cases hr
  | some k' =>
    rw [hr'] at hr
    cases hr with
    | some hk => exact ⟨k', rfl, hk⟩

theorem Reorders.holds (hh : h.Reorders h') {d r : Ref} (hd : h.Holds d r) : h'.Holds d r := by
  obtain ⟨k, hk, hr⟩ := hd
  obtain ⟨k', hk', hkk⟩ := hh.get? hk
  exact ⟨k', hk', hkk.mem_refs hr⟩

theorem Reorders.acyclic (hh : h.Reorders h') (hacyclic : h.Acyclic) : h'.Acyclic :=
  fun r hloop => hacyclic r (Relation.TransGen.mono (fun _ _ => hh.symm.holds) r r hloop)

theorem Reorders.distinct (hh : h.Reorders h')
    (hkeys : ∀ r entries, h.get? r = some (.mapping entries) → entries.keys.Nodup) (r : Ref)
    (entries : Entries) (hr : h'.get? r = some (.mapping entries)) : entries.keys.Nodup := by
  obtain ⟨k, hk, hkk⟩ := hh.symm.get? hr
  cases hkk with
  | mapping hperm => exact ((hperm.map _).nodup_iff).2 (hkeys r _ hk)

theorem Same.reorder (hh : h.Reorders h')
    (hkeys : ∀ r entries, h.get? r = some (.mapping entries) → entries.keys.Nodup) {a b : Value}
    (hab : h.Same shortcut a b) : h'.Same shortcut a b := by
  induction hab with
  | @simple a b hab he =>
    refine .simple hab ?_
    rw [← he]
    cases a <;> cases b <;> simp [equalIn, Value.refs] at hab ⊢
  | handle hcut => exact .handle hcut
  | sequence hr hs hsize _ ih =>
    obtain ⟨_, hr', hk⟩ := hh.get? hr
    obtain ⟨_, hs', hl⟩ := hh.get? hs
    cases hk with
    | sequence =>
      cases hl with
      | sequence => exact .sequence hr' hs' hsize ih
  | mapping hr hs hlength hnames _ ih =>
    obtain ⟨_, hr', hk⟩ := hh.get? hr
    obtain ⟨_, hs', hl⟩ := hh.get? hs
    cases hk with
    | mapping hp =>
      cases hl with
      | mapping hq =>
        refine .mapping hr' hs' (hp.length_eq.symm.trans (hlength.trans hq.length_eq)) ?_ ?_
        · intro e he
          exact (hq.map _).subset (hnames e (hp.symm.subset he))
        · intro e he b hb
          rw [Slots.get?_of_perm (hkeys _ _ hs) hq] at hb
          exact ih e (hp.symm.subset he) b hb

end

/-- A value that is not a number, or has one in a slot of a container that it leads to. -/
def ReachesNaN (h : Heap) (v : Value) : Prop :=
  ∃ n : Number, n.isNaN = true ∧
    (v = .number n ∨ ∃ d k, h.Reached v.refs d ∧ h.get? d = some k ∧ .number n ∈ k.values)

section

variable {h : Heap} {shortcut : Bool}

theorem ReachesNaN.of_mem {d : Ref} {k : Container} {v : Value} (hd : h.get? d = some k)
    (hv : v ∈ k.values) (hn : h.ReachesNaN v) : h.ReachesNaN (.container d) := by
  obtain ⟨n, hnan, rfl | ⟨q, l, hq, hl, hmem⟩⟩ := hn
  · exact ⟨n, hnan, .inr ⟨d, k, .root (List.mem_singleton_self d), hd, hv⟩⟩
  · exact ⟨n, hnan, .inr ⟨q, l, reached_of_mem hd hv hq, hl, hmem⟩⟩

theorem Same.mono {a b : Value} (hab : h.Same false a b) : h.Same shortcut a b := by
  induction hab with
  | simple hab he => exact .simple hab he
  | handle hcut => cases hcut
  | sequence hr hs hsize _ ih => exact .sequence hr hs hsize ih
  | mapping hr hs hlength hkeys _ ih => exact .mapping hr hs hlength hkeys ih

theorem same_self_simple {v : Value} (hv : v.refs = []) (hnan : ¬h.ReachesNaN v) :
    h.Same shortcut v v := by
  refine .simple (.inl hv) ?_
  cases v with
  | number n =>
    have hn : n.isNaN = false := Bool.eq_false_iff.2 fun hn => hnan ⟨n, hn, .inl rfl⟩
    simp [equalIn, Number.equals_self hn]
  | function f => simp [equalIn, Function.isSame_self]
  | accessor a => simp [equalIn, Accessor.isSame_self]
  | container r => simp [Value.refs] at hv
  | _ => simp [equalIn]

theorem same_self_container (hregular : h.Regular) (hacyclic : h.Acyclic) {r : Ref}
    (hr : r.index < h.size) (hnan : ¬h.ReachesNaN (.container r)) :
    h.Same shortcut (.container r) (.container r) := by
  induction hheight : h.height r using Nat.strong_induction_on generalizing r with
  | _ n ih =>
    obtain ⟨k, hk⟩ : ∃ k, h.get? r = some k := ⟨_, Array.getElem?_eq_getElem hr⟩
    have hself : ∀ v ∈ k.values, h.Same shortcut v v := by
      intro v hv
      have hno : ¬h.ReachesNaN v := fun hn => hnan (hn.of_mem hk hv)
      cases v with
      | container q =>
        have hholds : h.Holds r q := ⟨k, hk, Container.mem_refs hv⟩
        have hq := hregular.within r q hholds
        exact ih _ (hheight ▸ height_lt_of_holds hholds hq (hacyclic q)) hq hno rfl
      | _ => exact same_self_simple rfl hno
    cases k with
    | sequence items =>
      refine .sequence hk hk rfl fun p hp => ?_
      exact List.forall₂_zip (List.forall₂_same.2 hself) hp
    | mapping entries =>
      refine .mapping hk hk rfl (fun e he => List.mem_map_of_mem he) fun e he b hb => ?_
      rw [Slots.get?_of_mem (hregular.distinct r entries hk) he] at hb
      cases hb
      exact hself e.2 (List.mem_map_of_mem he)

/-- A value has the contents that it has, if all its numbers are numbers. -/
theorem same_self (hregular : h.Regular) (hacyclic : h.Acyclic) {v : Value}
    (hin : ∀ r ∈ v.refs, r.index < h.size) (hnan : ¬h.ReachesNaN v) : h.Same shortcut v v := by
  cases v with
  | container r =>
    exact same_self_container hregular hacyclic (hin r (List.mem_singleton_self r)) hnan
  | _ => exact same_self_simple rfl hnan

/-- That a container equals itself changes no answer for values without such numbers. -/
theorem Same.slotwise (hregular : h.Regular) (hacyclic : h.Acyclic) {a b : Value}
    (hab : h.Same true a b) (hin : ∀ r ∈ a.refs, r.index < h.size) (hnan : ¬h.ReachesNaN a) :
    h.Same false a b := by
  induction hab with
  | simple hab he => exact .simple hab he
  | handle _ => exact same_self hregular hacyclic hin hnan
  | sequence hr hs hsize _ ih =>
    refine .sequence hr hs hsize fun p hp => ?_
    have hmem := (List.of_mem_zip hp).1
    apply ih p hp
    · exact fun q hq => hregular.within _ q ⟨_, hr, List.mem_flatMap.2 ⟨_, hmem, hq⟩⟩
    · exact fun hn => hnan (hn.of_mem hr hmem)
  | mapping hr hs hlength hkeys _ ih =>
    refine .mapping hr hs hlength hkeys fun e he b hb => ?_
    have hmem : e.2 ∈ Slots.values _ := List.mem_map_of_mem he
    apply ih e he b hb
    · exact fun q hq => hregular.within _ q ⟨_, hr, List.mem_flatMap.2 ⟨_, hmem, hq⟩⟩
    · exact fun hn => hnan (hn.of_mem hr hmem)

theorem decides_compared (hacyclic : h.Acyclic) (shortcut : Bool) (a b : Value) :
    Decides (h.comparedIn shortcut (h.size * h.size + 1) a b) (h.Same shortcut a b) := by
  apply decides_comparedIn hacyclic
  intro r _ hr
  exact Nat.lt_succ_of_lt (Nat.lt_of_lt_of_le (height_lt_size hr (hacyclic r)) (Nat.le_mul_self _))

theorem decides_equal? (hacyclic : h.Acyclic) (a b : Value) :
    Decides (h.equal? a b) (h.Same true a b) := by
  rw [equal?, equalIn_eq_comparedIn]
  exact decides_compared hacyclic true a b

theorem equal?_of_strictEquals {a b : Value} (hab : a.strictEquals b = true) :
    h.equal? a b = some true := by
  rw [equal?, equalIn_eq_comparedIn]
  cases a <;> cases b <;> simp_all [Value.strictEquals, comparedIn, equalIn]

end

/-- The equalities agree: what is equal strictly is equal loosely and by contents, and both of these
are symmetric. The last one does not depend on the order of names, and without values that are not
numbers it is the same as comparing slot by slot, by which every container equals itself. -/
theorem equalities_agree {h : Heap} (hregular : h.Regular) (hacyclic : h.Acyclic) (a b : Value) :
    (a.strictEquals b = true → a.looseEquals b = true ∧ h.equal? a b = some true) ∧
    a.looseEquals b = b.looseEquals a ∧
    (∃ same, h.equal? a b = some same ∧ h.equal? b a = some same) ∧
    (∀ h', h.Reorders h' → h'.equal? a b = h.equal? a b) ∧
    ((∀ r ∈ a.refs, r.index < h.size) → ¬h.ReachesNaN a →
      h.structural? a a = some true ∧ h.structural? a b = h.equal? a b) := by
  have hdecides := decides_equal? hacyclic a b
  refine ⟨fun hs => ⟨Value.looseEquals_of_strictEquals hs, equal?_of_strictEquals hs⟩,
    Value.looseEquals_comm a b, ?_, ?_, ?_⟩
  · have hswapped := hdecides.congr ⟨Same.symm hregular, Same.symm hregular⟩
    obtain ⟨same, hsame, -⟩ := hdecides
    exact ⟨same, hsame, ((decides_equal? hacyclic b a).eq hswapped).trans hsame⟩
  · intro h' hh
    apply (decides_equal? (hh.acyclic hacyclic) a b).eq
    exact hdecides.congr
      ⟨Same.reorder hh hregular.distinct, Same.reorder hh.symm (hh.distinct hregular.distinct)⟩
  · intro hin hnan
    constructor
    · obtain ⟨same, hsame, hiff⟩ := decides_compared hacyclic false a a
      rw [structural?, hsame, hiff.2 (same_self hregular hacyclic hin hnan)]
    · apply (decides_compared hacyclic false a b).eq
      exact hdecides.congr ⟨fun hab => hab.slotwise hregular hacyclic hin hnan, Same.mono⟩

def twoSequences (entries : Entries) : Heap where
  containers := #[.mapping entries, .mapping [("b", .null), ("a", .text "x")],
    .sequence #[.container ⟨0⟩], .sequence #[.container ⟨1⟩]]

theorem twoSequences_cases {entries : Entries} {d : Ref} {k : Container}
    (hk : (twoSequences entries).get? d = some k) :
    d = ⟨0⟩ ∧ k = .mapping entries ∨ d = ⟨1⟩ ∧ k = .mapping [("b", .null), ("a", .text "x")] ∨
      d = ⟨2⟩ ∧ k = .sequence #[.container ⟨0⟩] ∨ d = ⟨3⟩ ∧ k = .sequence #[.container ⟨1⟩] := by
  obtain ⟨i⟩ := d
  have hi : i < 4 := index_lt_of_get? hk
  interval_cases i <;> cases hk <;> simp [twoSequences]

theorem equalities_agree_in_two_orders :
    ∃ h h' : Heap, h = twoSequences [("a", .text "x"), ("b", .null)] ∧ h.Reorders h' ∧
      h.equal? (.container ⟨2⟩) (.container ⟨3⟩) = some true ∧
      h.equal? (.container ⟨3⟩) (.container ⟨2⟩) = some true ∧
      h'.equal? (.container ⟨2⟩) (.container ⟨3⟩) = some true ∧
      h.structural? (.container ⟨2⟩) (.container ⟨2⟩) = some true := by
  generalize hh : twoSequences [("a", .text "x"), ("b", .null)] = h
  have hlower (d r : Ref) (hd : h.Holds d r) : r.index < d.index ∧ d.index < h.size := by
    obtain ⟨k, hk, hr⟩ := hd
    refine ⟨?_, index_lt_of_get? hk⟩
    subst hh
    rcases twoSequences_cases hk with ⟨rfl, rfl⟩ | ⟨rfl, rfl⟩ | ⟨rfl, rfl⟩ | ⟨rfl, rfl⟩ <;>
      simp [Container.refs, Container.values, Slots.values, Value.refs] at hr <;> simp [hr]
  have hregular : h.Regular := by
    constructor
    · exact fun d r hd => Nat.lt_trans (hlower d r hd).1 (hlower d r hd).2
    · intro r entries hr
      subst hh
      rcases twoSequences_cases hr with ⟨-, hk⟩ | ⟨-, hk⟩ | ⟨-, hk⟩ | ⟨-, hk⟩ <;> cases hk <;>
        decide
  have hacyclic : h.Acyclic := acyclic_of_lt fun d r hd => (hlower d r hd).1
  have hreorders : h.Reorders (twoSequences [("b", .null), ("a", .text "x")]) := by
    subst hh
    rintro ⟨_ | _ | _ | _ | i⟩
    · exact .some (.mapping (.swap ..))
    · exact .some (.mapping (.refl _))
    · exact .some .sequence
    · exact .some .sequence
    · exact .none
  have hnan : ¬h.ReachesNaN (.container ⟨2⟩) := by
    subst hh
    rintro ⟨n, -, hv | ⟨d, k, -, hk, hmem⟩⟩
    · cases hv
    · rcases twoSequences_cases hk with ⟨-, rfl⟩ | ⟨-, rfl⟩ | ⟨-, rfl⟩ | ⟨-, rfl⟩ <;>
        simp [Container.values, Slots.values] at hmem
  have hequal : h.equal? (.container ⟨2⟩) (.container ⟨3⟩) = some true := by
    subst hh
    decide
  have hin : ∀ r ∈ (Value.container ⟨2⟩).refs, r.index < h.size := by
    subst hh
    decide
  obtain ⟨-, -, ⟨same, hsame, hswapped⟩, horder, hself⟩ :=
    equalities_agree hregular hacyclic (.container ⟨2⟩) (.container ⟨3⟩)
  cases hequal.symm.trans hsame
  exact ⟨h, _, rfl, hreorders, hequal, hswapped, (horder _ hreorders).trans hequal,
    (hself hin hnan).1⟩

end Heap

end LiveDoc
