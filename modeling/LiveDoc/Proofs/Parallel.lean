import LiveDoc.Proofs.Alike
import LiveDoc.Proofs.Inclusion

namespace LiveDoc.Load.Build

/-- The containers that came to two heaps by the same steps. -/
def Shift (b b' n : Nat) (r r' : Ref) : Prop :=
  ∃ k < n, r.index = b + k ∧ r'.index = b' + k

theorem Shift.mono {b b' n m : Nat} (hle : n ≤ m) (r r' : Ref) (h : Shift b b' n r r') :
    Shift b b' m r r' := by
  obtain ⟨k, hk, hr, hr'⟩ := h
  exact ⟨k, by omega, hr, hr'⟩

theorem biUnique_shift (b b' n : Nat) : Relator.BiUnique (Shift b b' n) := by
  constructor
  · rintro r q r' ⟨k, _, hr, hr'⟩ ⟨j, _, hq, hq'⟩
    exact Ref.eq_of_index (by omega)
  · rintro r r' q' ⟨k, _, hr, hr'⟩ ⟨j, _, hq, hq'⟩
    exact Ref.eq_of_index (by omega)

/-- Two heaps to which the same steps have added `n` containers. -/
structure Aligned (b b' n : Nat) (h h' : Heap) : Prop where
  size : h.size = b + n
  size' : h'.size = b' + n
  contents : ∀ r r', Shift b b' n r r' →
    ∃ k k', h.get? r = some k ∧ h'.get? r' = some k' ∧ k.Alike (Shift b b' n) k'

theorem aligned_refl (h h' : Heap) : Aligned h.size h'.size 0 h h' where
  size := rfl
  size' := rfl
  contents := by
    rintro r r' ⟨k, hk, -⟩
    cases hk

theorem Aligned.alloc {b b' n : Nat} {h h' : Heap} (ha : Aligned b b' n h h') {k k' : Container}
    (hk : k.Alike (Shift b b' n) k') :
    Aligned b b' (n + 1) (h.alloc k).2 (h'.alloc k').2 where
  size := by
    rw [Heap.size_alloc, ha.size, Nat.add_assoc]
  size' := by
    rw [Heap.size_alloc, ha.size', Nat.add_assoc]
  contents := by
    rintro r r' ⟨i, hi, hr, hr'⟩
    have hmono : ∀ r r', Shift b b' n r r' → Shift b b' (n + 1) r r' := Shift.mono (Nat.le_succ n)
    by_cases hin : i < n
    · obtain ⟨c, c', hc, hc', hcc⟩ := ha.contents r r' ⟨i, hin, hr, hr'⟩
      rw [Heap.get?_alloc_of_lt _ _ (by rw [ha.size]; omega),
        Heap.get?_alloc_of_lt _ _ (by rw [ha.size']; omega)]
      exact ⟨c, c', hc, hc', hcc.mono hmono⟩
    · have hlast : r = ⟨h.size⟩ := Ref.eq_of_index (by simp only [ha.size]; omega)
      have hlast' : r' = ⟨h'.size⟩ := Ref.eq_of_index (by simp only [ha.size']; omega)
      subst hlast hlast'
      exact ⟨k, k', h.get?_alloc_self k, h'.get?_alloc_self k', hk.mono hmono⟩

theorem Aligned.set {b b' n : Nat} {h h' : Heap} (ha : Aligned b b' n h h') {r r' : Ref}
    (hr : Shift b b' n r r') {k k' : Container} (hk : k.Alike (Shift b b' n) k') :
    Aligned b b' n (h.set r k) (h'.set r' k') where
  size := by rw [Heap.size_set, ha.size]
  size' := by rw [Heap.size_set, ha.size']
  contents := by
    intro q q' hq
    by_cases he : q = r
    · subst he
      cases (biUnique_shift b b' n).2 hr hq
      obtain ⟨i, hi, hr, hr'⟩ := hr
      exact ⟨k, k', Heap.get?_set_self _ _ _ (by rw [ha.size]; omega),
        Heap.get?_set_self _ _ _ (by rw [ha.size']; omega), hk⟩
    · have he' : q' ≠ r' := by
        rintro rfl
        exact he ((biUnique_shift b b' n).1 hq hr)
      rw [Heap.get?_set_of_ne _ _ he, Heap.get?_set_of_ne _ _ he']
      exact ha.contents q q' hq

theorem Aligned.of_containers {b b' n : Nat} {h h' g g' : Heap} (ha : Aligned b b' n h h')
    (he : g.containers = h.containers) (he' : g'.containers = h'.containers) :
    Aligned b b' n g g' where
  size := by rw [Heap.size, he]; exact ha.size
  size' := by rw [Heap.size, he']; exact ha.size'
  contents r r' hr := by
    simp only [Heap.get?, he, he']
    exact ha.contents r r' hr

/-- If the first build has a result, the second has one like it; and if the first fails with
something other than a cycle, the second fails with the same. -/
structure Follows (b b' n : Nat) (post : Nat → α → α' → Prop) (m : Build α) (m' : Build α') :
    Prop where
  ok : ∀ {h h' g a}, Aligned b b' n h h' → m h = .ok (a, g) →
    ∃ n' a' g', n ≤ n' ∧ m' h' = .ok (a', g') ∧ Aligned b b' n' g g' ∧ post n' a a'
  error : ∀ {h h' e}, Aligned b b' n h h' → m h = .error e → (∀ chain, e ≠ .cycle chain) →
    m' h' = .error e

section

variable {b b' n : Nat}

theorem Follows.pure {post : Nat → α → α' → Prop} {a : α} {a' : α'} (ha : post n a a') :
    Follows b b' n post (pure a) (pure a') where
  ok hh hr := by
    cases hr
    exact ⟨n, a', _, Nat.le_refl n, rfl, hh, ha⟩
  error _ he := by cases he

theorem Follows.throw {post : Nat → α → α' → Prop} (e : LoadError) :
    Follows b b' n post (throw e) (throw e) where
  ok _ hr := by cases hr
  error _ he _ := by
    cases he
    rfl

theorem Follows.bind {post : Nat → α → α' → Prop} {post' : Nat → β → β' → Prop} {m : Build α}
    {m' : Build α'} {f : α → Build β} {f' : α' → Build β'} (hm : Follows b b' n post m m')
    (hf : ∀ n' a a', n ≤ n' → post n' a a' → Follows b b' n' post' (f a) (f' a')) :
    Follows b b' n post' (m >>= f) (m' >>= f') where
  ok hh hr := by
    obtain ⟨x, h₁, hx, hr⟩ := bind_eq_ok.1 hr
    obtain ⟨n₁, x', h₁', hle, hx', hh₁, hpost⟩ := hm.ok hh hx
    obtain ⟨n₂, a', g', hle', ha', hg, hpost'⟩ := (hf n₁ x x' hle hpost).ok hh₁ hr
    exact ⟨n₂, a', g', Nat.le_trans hle hle', bind_eq_ok.2 ⟨x', h₁', hx', ha'⟩, hg, hpost'⟩
  error hh he hne := by
    rcases bind_eq_error.1 he with he | ⟨x, h₁, hx, he⟩
    · exact bind_eq_error.2 (.inl (hm.error hh he hne))
    · obtain ⟨n₁, x', h₁', hle, hx', hh₁, hpost⟩ := hm.ok hh hx
      exact bind_eq_error.2 (.inr ⟨x', h₁', hx', (hf n₁ x x' hle hpost).error hh₁ he hne⟩)

theorem Follows.liftM (x : Except LoadError α) :
    Follows b b' n (fun _ a a' => a = a') (liftM x) (liftM x) where
  ok hh hr := by
    obtain ⟨rfl, rfl⟩ := liftM_eq_ok.1 hr
    exact ⟨n, _, _, Nat.le_refl n, liftM_eq_ok.2 ⟨rfl, rfl⟩, hh, rfl⟩
  error _ he _ := liftM_eq_error.2 (liftM_eq_error.1 he)

theorem Follows.alloc {k k' : Container} (hk : k.Alike (Shift b b' n) k') :
    Follows b b' n (Shift b b') (alloc k) (alloc k') where
  ok hh hr := by
    cases hr
    exact ⟨n + 1, _, _, Nat.le_succ n, rfl, hh.alloc hk, n, Nat.lt_succ_self n, hh.size, hh.size'⟩
  error _ he := by cases he

theorem Follows.fill {r r' : Ref} (hr : Shift b b' n r r') {k k' : Container}
    (hk : k.Alike (Shift b b' n) k') :
    Follows b b' n (fun _ _ _ => True) (fill r k) (fill r' k') where
  ok hh he := by
    cases he
    exact ⟨n, _, _, Nat.le_refl n, rfl, hh.set hr hk, trivial⟩
  error _ he := by cases he

def ValuesAlike (b b' n : Nat) (v v' : Value) : Prop := v.Alike (Shift b b' n) v'

theorem Follows.function {owner owner' : Option Ref}
    (ho : Option.Rel (Shift b b' n) owner owner') (params : List String) (source : String) :
    Follows b b' n (ValuesAlike b b') (function owner params source)
      (function owner' params source) where
  ok hh hr := by
    obtain ⟨body, hbody, rfl, rfl⟩ := function_eq_ok.1 hr
    exact ⟨n, _, _, Nat.le_refl n, function_eq_ok.2 ⟨body, hbody, rfl, rfl⟩,
      hh.of_containers rfl rfl, .function ⟨rfl, rfl, rfl, ho⟩⟩
  error _ he _ := by
    rw [Build.function, Heap.compile] at he ⊢
    cases hp : Script.Program.ofSource source with
    | error e =>
      rw [hp] at he
      exact he
    | ok body =>
      rw [hp] at he
      cases he

variable {c : Config} {document document' : String → Build Value}

theorem half_alike {ρ : Ref → Ref → Prop} {d d' : Ref} (hd : ρ d d') {entries entries' : Entries}
    (he : Slots.Rel (Value.Alike ρ) entries entries') (name key : String) :
    (half d name entries key = .error (.invalidAccessor name) ∧
      half d' name entries' key = .error (.invalidAccessor name)) ∨
    ∃ o o', half d name entries key = .ok o ∧ half d' name entries' key = .ok o' ∧
      Option.Rel (Function.Alike ρ) o o' := by
  have hget := he.get? key
  rw [half, half]
  generalize entries.get? key = o, entries'.get? key = o' at hget ⊢
  cases hget with
  | none => exact .inr ⟨none, none, rfl, rfl, .none⟩
  | @some v v' hv =>
    cases hv with
    | function hf =>
      exact .inr ⟨_, _, rfl, rfl, .some ⟨hf.params, hf.source, hf.body, .some hd⟩⟩
    | data hdata =>
      cases v with
      | container | function | accessor => exact hdata.elim
      | _ => exact .inl ⟨rfl, rfl⟩
    | container _ | accessor _ _ => exact .inl ⟨rfl, rfl⟩

theorem accessor_alike {ρ : Ref → Ref → Prop} {d d' : Ref} (hd : ρ d d')
    {entries entries' : Entries} (he : Slots.Rel (Value.Alike ρ) entries entries')
    (name : String) :
    (∃ e, accessor c d name entries = .error e ∧ accessor c d' name entries' = .error e) ∨
    ∃ v v', accessor c d name entries = .ok v ∧ accessor c d' name entries' = .ok v' ∧
      v.Alike ρ v' := by
  rw [accessor, accessor]
  rcases half_alike hd he name c.getKey with ⟨hg, hg'⟩ | ⟨g, g', hg, hg', hgetter⟩
  · rw [hg, hg']
    exact .inl ⟨_, rfl, rfl⟩
  · rw [hg, hg']
    rcases half_alike hd he name c.setKey with ⟨hs, hs'⟩ | ⟨s, s', hs, hs', hsetter⟩
    · rw [hs, hs']
      exact .inl ⟨_, rfl, rfl⟩
    · rw [hs, hs']
      exact .inr ⟨_, _, rfl, rfl, .accessor hgetter hsetter⟩

theorem placed_alike {h h' : Heap} (hh : Aligned b b' n h h') {d d' : Ref}
    (hd : Shift b b' n d d') (name : String) (t : Yaml.Tree) {v v' : Value}
    (hv : ValuesAlike b b' n v v') :
    (∃ e, placed c h d name t v = .error e ∧ placed c h' d' name t v' = .error e) ∨
    ∃ w w', placed c h d name t v = .ok w ∧ placed c h' d' name t v' = .ok w' ∧
      ValuesAlike b b' n w w' := by
  have hkept : ∃ w w', Except.ok v = (.ok w : Except LoadError Value) ∧
      Except.ok v' = (.ok w' : Except LoadError Value) ∧ ValuesAlike b b' n w w' :=
    ⟨v, v', rfl, rfl, hv⟩
  cases t with
  | mapping es =>
    cases hv with
    | @container r r' hr =>
      obtain ⟨k, k', hk, hk', hkk⟩ := hh.contents r r' hr
      rw [placed, placed, Heap.entries?, Heap.entries?, hk, hk']
      cases hkk with
      | mapping he =>
        simp only
        rw [he.keys]
        split
        · exact accessor_alike hd he name
        · exact .inr hkept
      | sequence _ => exact .inr hkept
    | data hdata =>
      cases v with
      | container | function | accessor => exact hdata.elim
      | _ => exact .inr hkept
    | function _ | accessor _ _ => exact .inr hkept
  | _ => exact .inr hkept

theorem Follows.place {d d' : Ref} (hd : Shift b b' n d d') (name : String) (t : Yaml.Tree)
    {v v' : Value} (hv : ValuesAlike b b' n v v') :
    Follows b b' n (ValuesAlike b b') (place c d name t v) (place c d' name t v') where
  ok {_ h'} _ _ hh hr := by
    obtain ⟨hr, rfl⟩ := place_eq_ok.1 hr
    rcases placed_alike hh hd name t hv with ⟨e, he, -⟩ | ⟨w, w', hw, hw', hww⟩
    · cases he.symm.trans hr
    · cases hw.symm.trans hr
      exact ⟨n, w', h', Nat.le_refl n, place_eq_ok.2 ⟨hw', rfl⟩, hh, hww⟩
  error hh he _ := by
    have he := place_eq_error.1 he
    rcases placed_alike hh hd name t hv with ⟨e, he', he''⟩ | ⟨w, w', hw, -, -⟩
    · cases he'.symm.trans he
      exact place_eq_error.2 he''
    · cases hw.symm.trans he

theorem Follows.text {owner owner' : Option Ref}
    (ho : Option.Rel (Shift b b' n) owner owner') (s : String)
    (hd : ∀ path, Signal.detect s = .ok (some (.inclusion path)) →
      Follows b b' n (ValuesAlike b b') (document path) (document' path)) :
    Follows b b' n (ValuesAlike b b') (text document owner s) (text document' owner' s) := by
  rw [Build.text, Build.text]
  cases hs : Signal.detect s with
  | error kind => cases kind <;> exact .throw _
  | ok signal =>
    rcases signal with _ | ⟨params, body⟩ | path
    · exact .pure (.data trivial)
    · exact .function ho params body
    · exact hd path hs

mutual

theorem follows_resolve (t : Yaml.Tree) {n : Nat} {owner owner' : Option Ref}
    (ho : Option.Rel (Shift b b' n) owner owner')
    (hd : ∀ q ∈ t.inclusions, ∀ n, Follows b b' n (ValuesAlike b b') (document q) (document' q)) :
    Follows b b' n (ValuesAlike b b') (resolve c document owner t)
      (resolve c document' owner' t) := by
  match t with
  | .string s =>
    simp only [resolve]
    exact .text ho s fun path hs => hd path (by simp [Yaml.Tree.inclusions, hs]) n
  | .sequence nodes =>
    simp only [resolve]
    apply Follows.bind (.alloc (.sequence .nil))
    intro n₁ r r' _ hr
    apply Follows.bind (follows_resolveItems nodes hr hd)
    intro n₂ items items' hle hitems
    have hr₂ := Shift.mono hle r r' hr
    apply Follows.bind (.fill hr₂ (.sequence hitems))
    intro n₃ _ _ hle' _
    exact .pure (.container (Shift.mono hle' r r' hr₂))
  | .mapping nodes =>
    simp only [resolve]
    apply Follows.bind (.alloc (.mapping .nil))
    intro n₁ r r' _ hr
    apply Follows.bind (follows_resolveEntries nodes hr .nil hd)
    intro n₂ entries entries' hle he
    have hr₂ := Shift.mono hle r r' hr
    apply Follows.bind (.fill hr₂ (.mapping he))
    intro n₃ _ _ hle' _
    exact .pure (.container (Shift.mono hle' r r' hr₂))
  | .tagged _ node =>
    simp only [resolve]
    exact follows_resolve node ho hd
  | .null | .bool _ | .int _ | .float _ =>
    simp only [resolve]
    exact .pure (.data trivial)

theorem follows_resolveItems (ts : List Yaml.Tree) {n index : Nat} {d d' : Ref}
    (ho : Shift b b' n d d')
    (hd : ∀ q ∈ Yaml.Tree.inclusionsOfItems ts, ∀ n,
      Follows b b' n (ValuesAlike b b') (document q) (document' q)) :
    Follows b b' n (fun n => List.Forall₂ (ValuesAlike b b' n))
      (resolveItems c document d index ts) (resolveItems c document' d' index ts) := by
  match ts with
  | [] => exact .pure .nil
  | t :: ts =>
    simp only [resolveItems]
    have ht := fun q hq => hd q (List.mem_append_left _ hq)
    have hts := fun q hq => hd q (List.mem_append_right _ hq)
    apply Follows.bind (follows_resolve t (.some ho) ht)
    intro n₁ v v' hle hv
    have ho₁ := Shift.mono hle d d' ho
    apply Follows.bind (.place ho₁ (toString index) t hv)
    intro n₂ w w' hle₂ hw
    have ho₂ := Shift.mono hle₂ d d' ho₁
    apply Follows.bind (follows_resolveItems ts ho₂ hts)
    intro n₃ ws ws' hle₃ hws
    exact .pure (.cons (hw.mono (Shift.mono hle₃)) hws)

theorem follows_resolveEntries (es : List (Yaml.Tree × Yaml.Tree)) {n : Nat} {d d' : Ref}
    (ho : Shift b b' n d d') {done done' : Entries}
    (hdone : Slots.Rel (ValuesAlike b b' n) done done')
    (hd : ∀ q ∈ Yaml.Tree.inclusionsOfEntries es, ∀ n,
      Follows b b' n (ValuesAlike b b') (document q) (document' q)) :
    Follows b b' n (fun n => Slots.Rel (ValuesAlike b b' n))
      (resolveEntries c document d done es) (resolveEntries c document' d' done' es) := by
  match es with
  | [] => exact .pure hdone
  | (key, t) :: rest =>
    simp only [resolveEntries]
    have ht := fun q hq => hd q (List.mem_append_left _ hq)
    have hrest := fun q hq => hd q (List.mem_append_right _ hq)
    apply Follows.bind (.liftM key.key)
    intro n₁ name name' hle hname
    subst hname
    have ho₁ := Shift.mono hle d d' ho
    apply Follows.bind (follows_resolve t (.some ho₁) ht)
    intro n₂ v v' hle₂ hv
    have ho₂ := Shift.mono hle₂ d d' ho₁
    apply Follows.bind (.place ho₂ name t hv)
    intro n₃ w w' hle₃ hw
    have hle' : n ≤ n₃ := by omega
    refine follows_resolveEntries rest (Shift.mono hle₃ d d' ho₂) ?_ hrest
    exact (hdone.imp fun _ _ hv => hv.mono (Shift.mono hle')).put name hw

end

end

end LiveDoc.Load.Build
