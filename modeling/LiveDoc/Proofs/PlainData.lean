import LiveDoc.Proofs.Alike
import LiveDoc.Proofs.Receivers

namespace LiveDoc

namespace Yaml.Tree

/-- A mapping of nothing but a getter and a setter. -/
def IsAccessor (c : Config) : Tree → Prop
  | .mapping es => (∀ e ∈ es, ∃ name, e.1.key = .ok name) ∧ c.IsAccessorNames (names es)
  | _ => False

mutual

/-- No text is a signal, and there is no accessor in a slot. -/
def IsPlain (c : Config) : Tree → Prop
  | .string s => Signal.detect s = .ok none
  | .sequence ts => ItemsPlain c ts
  | .mapping es => EntriesPlain c es
  | .tagged _ t => IsPlain c t
  | _ => True
termination_by structural t => t

def ItemsPlain (c : Config) : List Tree → Prop
  | [] => True
  | t :: ts => (IsPlain c t ∧ ¬IsAccessor c t) ∧ ItemsPlain c ts
termination_by structural ts => ts

def EntriesPlain (c : Config) : List (Tree × Tree) → Prop
  | [] => True
  | (_, t) :: rest => (IsPlain c t ∧ ¬IsAccessor c t) ∧ EntriesPlain c rest
termination_by structural es => es

end

section

variable {c : Config}

mutual

theorem inclusions_eq_nil (t : Tree) (ht : t.IsPlain c) : t.inclusions = [] := by
  match t with
  | .string s =>
    rw [IsPlain] at ht
    rw [inclusions, ht]
  | .sequence ts =>
    rw [IsPlain] at ht
    exact inclusionsOfItems_eq_nil ts ht
  | .mapping es =>
    rw [IsPlain] at ht
    exact inclusionsOfEntries_eq_nil es ht
  | .tagged _ t =>
    rw [IsPlain] at ht
    exact inclusions_eq_nil t ht
  | .null | .bool _ | .int _ | .float _ => rfl

theorem inclusionsOfItems_eq_nil (ts : List Tree) (hts : ItemsPlain c ts) :
    inclusionsOfItems ts = [] := by
  match ts with
  | [] => rfl
  | t :: ts =>
    rw [ItemsPlain] at hts
    rw [inclusionsOfItems, inclusions_eq_nil t hts.1.1, inclusionsOfItems_eq_nil ts hts.2]
    rfl

theorem inclusionsOfEntries_eq_nil (es : List (Tree × Tree)) (hes : EntriesPlain c es) :
    inclusionsOfEntries es = [] := by
  match es with
  | [] => rfl
  | (_, t) :: rest =>
    rw [EntriesPlain] at hes
    rw [inclusionsOfEntries, inclusions_eq_nil t hes.1.1, inclusionsOfEntries_eq_nil rest hes.2]
    rfl

end

end

end Yaml.Tree

namespace Load.Build

section

variable {c : Config} {document document' : String → Build Value}

mutual

/-- The value of a tree depends on no documents but those that it includes. -/
theorem resolve_congr (t : Yaml.Tree) (owner : Option Ref)
    (hd : ∀ q ∈ t.inclusions, document q = document' q) :
    resolve c document owner t = resolve c document' owner t := by
  match t with
  | .string s =>
    simp only [resolve, text]
    cases hs : Signal.detect s with
    | error kind => cases kind <;> rfl
    | ok signal =>
      rcases signal with _ | ⟨params, body⟩ | path
      · rfl
      · rfl
      · exact hd path (by simp [Yaml.Tree.inclusions, hs])
  | .sequence ts =>
    simp only [resolve]
    apply bind_congr
    intro r
    rw [resolveItems_congr ts r 0 hd]
  | .mapping es =>
    simp only [resolve]
    apply bind_congr
    intro r
    rw [resolveEntries_congr es r [] hd]
  | .tagged _ t =>
    simp only [resolve]
    exact resolve_congr t owner hd
  | .null | .bool _ | .int _ | .float _ => simp only [resolve]

theorem resolveItems_congr (ts : List Yaml.Tree) (owner : Ref) (index : Nat)
    (hd : ∀ q ∈ Yaml.Tree.inclusionsOfItems ts, document q = document' q) :
    resolveItems c document owner index ts = resolveItems c document' owner index ts := by
  match ts with
  | [] => rfl
  | t :: ts =>
    have ht := fun q hq => hd q (List.mem_append_left _ hq)
    have hts := fun q hq => hd q (List.mem_append_right _ hq)
    simp only [resolveItems, resolve_congr t (some owner) ht,
      resolveItems_congr ts owner (index + 1) hts]

theorem resolveEntries_congr (es : List (Yaml.Tree × Yaml.Tree)) (owner : Ref) (done : Entries)
    (hd : ∀ q ∈ Yaml.Tree.inclusionsOfEntries es, document q = document' q) :
    resolveEntries c document owner done es = resolveEntries c document' owner done es := by
  match es with
  | [] => rfl
  | (key, t) :: rest =>
    have ht := fun q hq => hd q (List.mem_append_left _ hq)
    have hrest := fun q hq => hd q (List.mem_append_right _ hq)
    simp only [resolveEntries, resolve_congr t (some owner) ht]
    apply bind_congr
    intro name
    apply bind_congr
    intro v
    apply bind_congr
    intro w
    exact resolveEntries_congr rest owner (done.put name w) hrest

end

/-- A node that is no accessor has its own value in its slot. -/
theorem bind_place (hd : ∀ q, Grows (document q)) {t : Yaml.Tree} (ht : ¬t.IsAccessor c)
    (owner : Option Ref) (d : Ref) (name : String) (f : Value → Build α) :
    (resolve c document owner t >>= fun v => place c d name t v >>= f) =
      resolve c document owner t >>= f := by
  funext h
  rw [bind_apply, bind_apply]
  cases hr : resolve c document owner t h with
  | error e => rfl
  | ok r =>
    obtain ⟨v, g⟩ := r
    have hplaced : placed c g d name t v = .ok v := by
      cases t with
      | mapping es =>
        obtain ⟨r, entries, rfl, he, hkeys⟩ := entries_of_resolve hd hr
        obtain ⟨out, h₁, hout, -⟩ := resolve_mapping_eq_ok.1 hr
        have hnames : c.isAccessorKeySet entries.keys = false := by
          apply Bool.eq_false_iff.2
          intro hset
          rw [hkeys, Config.isAccessorKeySet_fields] at hset
          exact ht ⟨key_eq_ok_of_resolveEntries hout, hset⟩
        simp [placed, he, hnames]
      | _ => rfl
    simp only
    rw [bind_apply, place_apply, hplaced]
    rfl

end

/-- Containers that have come to two heaps in pairs, in any order. -/
structure Twins (ρ : Ref → Ref → Prop) (h g h' g' : Heap) : Prop where
  grows : h.Extends g
  grows' : h'.Extends g'
  renames : g.Renames ρ g'
  fresh : ∀ r r', ρ r r' → h.size ≤ r.index ∧ h'.size ≤ r'.index

section

variable {ρ σ : Ref → Ref → Prop} {h m g h' m' g' : Heap}

theorem Twins.refl (h h' : Heap) : Twins ⊥ h h h' h' where
  grows := .refl h
  grows' := .refl h'
  renames := ⟨⟨fun _ _ _ hr => hr.elim, fun _ _ _ hr => hr.elim⟩, fun _ _ hr => hr.elim⟩
  fresh _ _ hr := hr.elim

theorem Twins.lt (ht : Twins ρ h g h' g') {r r' : Ref} (hr : ρ r r') :
    r.index < g.size ∧ r'.index < g'.size := by
  obtain ⟨k, k', hk, hk', -⟩ := ht.renames.contents r r' hr
  exact ⟨Heap.index_lt_of_get? hk, Heap.index_lt_of_get? hk'⟩

theorem biUnique_sup (hρ : Relator.BiUnique ρ) (hσ : Relator.BiUnique σ)
    (hl : ∀ r r' q', ρ r r' → ¬σ r q') (hr : ∀ r q r', ρ r r' → ¬σ q r') :
    Relator.BiUnique (ρ ⊔ σ) := by
  constructor
  · rintro r q r' (h | h) (h' | h')
    · exact hρ.1 h h'
    · exact absurd h' (hr _ _ _ h)
    · exact absurd h (hr _ _ _ h')
    · exact hσ.1 h h'
  · rintro r r' q' (h | h) (h' | h')
    · exact hρ.2 h h'
    · exact absurd h' (hl _ _ _ h)
    · exact absurd h (hl _ _ _ h')
    · exact hσ.2 h h'

theorem Twins.trans (hρ : Twins ρ h m h' m') (hσ : Twins σ m g m' g') :
    Twins (ρ ⊔ σ) h g h' g' where
  grows := hρ.grows.trans hσ.grows
  grows' := hρ.grows'.trans hσ.grows'
  renames := by
    constructor
    · apply biUnique_sup hρ.renames.biUnique hσ.renames.biUnique
      · intro r r' q' hr hq
        exact absurd (hρ.lt hr).1 (Nat.not_lt.2 (hσ.fresh _ _ hq).1)
      · intro r q r' hr hq
        exact absurd (hρ.lt hr).2 (Nat.not_lt.2 (hσ.fresh _ _ hq).2)
    · rintro r r' (hr | hr)
      · obtain ⟨k, k', hk, hk', hkk⟩ := hρ.renames.contents r r' hr
        obtain ⟨hlt, hlt'⟩ := hρ.lt hr
        exact ⟨k, k', (hσ.grows.get?_eq r hlt).trans hk, (hσ.grows'.get?_eq r' hlt').trans hk',
          hkk.mono fun _ _ => .inl⟩
      · obtain ⟨k, k', hk, hk', hkk⟩ := hσ.renames.contents r r' hr
        exact ⟨k, k', hk, hk', hkk.mono fun _ _ => .inr⟩
  fresh := by
    rintro r r' (hr | hr)
    · exact hρ.fresh r r' hr
    · have hσr := hσ.fresh r r' hr
      exact ⟨Nat.le_trans hρ.grows.size_le hσr.1, Nat.le_trans hρ.grows'.size_le hσr.2⟩

def Around (h g' : Heap) (r r' : Ref) : Prop :=
  r = ⟨h.size⟩ ∧ r' = ⟨g'.size⟩

theorem biUnique_around (h g' : Heap) : Relator.BiUnique (Around h g') :=
  ⟨fun _ _ _ h h' => h.1.trans h'.1.symm, fun _ _ _ h h' => h.2.trans h'.2.symm⟩

theorem Twins.container {k₀ k k' : Container} (ht : Twins ρ (h.alloc k₀).2 g h' g')
    (hk : k.Alike ρ k') :
    Twins (ρ ⊔ Around h g') h (g.set ⟨h.size⟩ k) h' (g'.alloc k').2 := by
  have hsize : (h.alloc k₀).2.size = h.size + 1 := h.size_alloc k₀
  have hgrows : h.Extends g := (Heap.Extends.alloc h k₀).trans ht.grows
  have hle := ht.grows.size_le
  have hmem : h.size < g.size := by omega
  -- the new pair shares no container with an old one
  have hnew (r r' : Ref) (hr : ρ r r') : r ≠ ⟨h.size⟩ ∧ r'.index < g'.size := by
    have hfresh := (ht.fresh r r' hr).1
    refine ⟨?_, (ht.lt hr).2⟩
    rintro rfl
    simp only at hfresh
    omega
  constructor
  · exact hgrows.set k (Nat.le_refl _)
  · exact ht.grows'.trans (.alloc g' k')
  · constructor
    · apply biUnique_sup ht.renames.biUnique (biUnique_around h g')
      · intro r r' q' hr hq
        exact (hnew r r' hr).1 hq.1
      · rintro r q r' hr ⟨-, rfl⟩
        exact absurd (hnew r _ hr).2 (Nat.lt_irrefl _)
    · rintro r r' (hr | ⟨rfl, rfl⟩)
      · obtain ⟨c, c', hc, hc', hcc⟩ := ht.renames.contents r r' hr
        obtain ⟨hne, hlt⟩ := hnew r r' hr
        rw [Heap.get?_set_of_ne _ _ hne, Heap.get?_alloc_of_lt _ _ hlt]
        exact ⟨c, c', hc, hc', hcc.mono fun _ _ => .inl⟩
      · exact ⟨k, k', Heap.get?_set_self _ _ _ hmem, g'.get?_alloc_self k',
          hk.mono fun _ _ => .inl⟩
  · rintro r r' (hr | ⟨rfl, rfl⟩)
    · have hfresh := ht.fresh r r' hr
      exact ⟨by omega, hfresh.2⟩
    · exact ⟨Nat.le_refl _, ht.grows'.size_le⟩

end

/-- Two builds with related results and containers in pairs, or with a failure for the same key. -/
def Concurs (post : (Ref → Ref → Prop) → α → α' → Prop) (m : Build α) (m' : Build α') : Prop :=
  ∀ h h', (∃ ρ a g a' g', m h = .ok (a, g) ∧ m' h' = .ok (a', g') ∧ Twins ρ h g h' g' ∧
      post ρ a a') ∨
    ∃ key, m h = .error (.unsupportedKey key) ∧ m' h' = .error (.unsupportedKey key)

section

variable {post : (Ref → Ref → Prop) → α → α' → Prop} {post' : (Ref → Ref → Prop) → β → β' → Prop}
  {m : Build α} {m' : Build α'}

theorem Concurs.pure {a : α} {a' : α'} (ha : post ⊥ a a') :
    Concurs post (pure a) (pure a') := by
  intro h h'
  exact .inl ⟨⊥, a, h, a', h', rfl, rfl, .refl h h', ha⟩

theorem Concurs.bind {f : α → Build β} {f' : α' → Build β'} (hm : Concurs post m m')
    (hf : ∀ ρ a a', post ρ a a' → Concurs (fun σ => post' (ρ ⊔ σ)) (f a) (f' a')) :
    Concurs post' (m >>= f) (m' >>= f') := by
  intro h h'
  rw [bind_apply, bind_apply]
  rcases hm h h' with ⟨ρ, a, g, a', g', hr, hr', ht, ha⟩ | ⟨key, he, he'⟩
  · rw [hr, hr']
    rcases hf ρ a a' ha g g' with ⟨σ, b, k, b', k', hb, hb', ht', hpost⟩ | hfail
    · exact .inl ⟨ρ ⊔ σ, b, k, b', k', hb, hb', ht.trans ht', hpost⟩
    · exact .inr hfail
  · rw [he, he']
    exact .inr ⟨key, rfl, rfl⟩

theorem Concurs.key (t : Yaml.Tree) :
    Concurs (fun _ name name' => name = name') (liftM t.key) (liftM t.key) := by
  intro h h'
  rw [liftM_apply, liftM_apply]
  cases hk : t.key with
  | ok name => exact .inl ⟨⊥, name, h, name, h', rfl, rfl, .refl h h', rfl⟩
  | error e =>
    obtain ⟨key, rfl⟩ := Yaml.Tree.key_eq_error hk
    exact .inr ⟨key, rfl, rfl⟩

/-- A container that is made before its contents is like one that is made after them. -/
theorem Concurs.container (k₀ : Container) {m : Ref → Build α} {f : α → Container}
    {f' : α' → Container} (hm : ∀ r, Concurs post (m r) m')
    (hf : ∀ ρ a a', post ρ a a' → (f a).Alike ρ (f' a')) :
    Concurs Value.Alike
      (do
        let r ← alloc k₀
        let a ← m r
        fill r (f a)
        return .container r)
      (do return .container (← alloc (f' (← m')))) := by
  intro h h'
  have halloc : alloc k₀ h = .ok (⟨h.size⟩, (h.alloc k₀).2) := rfl
  simp only [bind_apply, halloc]
  rcases hm ⟨h.size⟩ (h.alloc k₀).2 h' with ⟨ρ, a, g, a', g', hr, hr', ht, ha⟩ | ⟨key, he, he'⟩
  · rw [hr, hr']
    exact .inl ⟨_, _, _, _, _, rfl, rfl, ht.container (hf ρ a a' ha), .container (.inr ⟨rfl, rfl⟩)⟩
  · rw [he, he']
    exact .inr ⟨key, rfl, rfl⟩

end

section

variable {c : Config} {document : String → Build Value}

mutual

theorem concurs_resolve (hd : ∀ q, Grows (document q)) (t : Yaml.Tree) (ht : t.IsPlain c)
    (owner : Option Ref) : Concurs Value.Alike (resolve c document owner t) (plain t) := by
  match t with
  | .string s =>
    rw [Yaml.Tree.IsPlain] at ht
    simp only [resolve, text, ht, plain]
    exact .pure (.data trivial)
  | .sequence ts =>
    rw [Yaml.Tree.IsPlain] at ht
    simp only [resolve, plain]
    apply Concurs.container _ fun r => concurs_resolveItems hd ts ht r 0
    intro ρ vs vs' hvs
    exact .sequence hvs
  | .mapping es =>
    rw [Yaml.Tree.IsPlain] at ht
    simp only [resolve, plain]
    apply Concurs.container _ fun r => concurs_resolveEntries hd es ht r .nil
    intro ρ entries entries' he
    rw [bot_sup_eq] at he
    exact .mapping he
  | .tagged _ t =>
    rw [Yaml.Tree.IsPlain] at ht
    simp only [resolve, plain]
    exact concurs_resolve hd t ht owner
  | .null | .bool _ | .int _ | .float _ =>
    simp only [resolve, plain]
    exact .pure (.data trivial)

theorem concurs_resolveItems (hd : ∀ q, Grows (document q)) (ts : List Yaml.Tree)
    (hts : Yaml.Tree.ItemsPlain c ts) (d : Ref) (index : Nat) :
    Concurs (fun ρ => List.Forall₂ (Value.Alike ρ))
      (resolveItems c document d index ts) (plainItems ts) := by
  match ts with
  | [] => exact .pure .nil
  | t :: ts =>
    rw [Yaml.Tree.ItemsPlain] at hts
    obtain ⟨⟨ht, hno⟩, hts⟩ := hts
    simp only [resolveItems, plainItems]
    rw [bind_place hd hno]
    apply Concurs.bind (concurs_resolve hd t ht (some d))
    intro ρ v v' hv
    apply Concurs.bind (concurs_resolveItems hd ts hts d (index + 1))
    intro σ vs vs' hvs
    apply Concurs.pure
    rw [sup_bot_eq]
    exact .cons (hv.mono fun _ _ => .inl) (hvs.imp fun _ _ hw => hw.mono fun _ _ => .inr)

theorem concurs_resolveEntries (hd : ∀ q, Grows (document q))
    (es : List (Yaml.Tree × Yaml.Tree)) (hes : Yaml.Tree.EntriesPlain c es) (d : Ref)
    {τ : Ref → Ref → Prop} {done done' : Entries} (hdone : Slots.Rel (Value.Alike τ) done done') :
    Concurs (fun ρ => Slots.Rel (Value.Alike (τ ⊔ ρ))) (resolveEntries c document d done es)
      (plainEntries done' es) := by
  match es with
  | [] =>
    apply Concurs.pure
    rw [sup_bot_eq]
    exact hdone
  | (key, t) :: rest =>
    rw [Yaml.Tree.EntriesPlain] at hes
    obtain ⟨⟨ht, hno⟩, hrest⟩ := hes
    simp only [resolveEntries, plainEntries]
    apply Concurs.bind (.key key)
    rintro ρ name name' rfl
    rw [bind_place hd hno]
    apply Concurs.bind (concurs_resolve hd t ht (some d))
    intro σ v v' hv
    simp only [← sup_assoc]
    apply concurs_resolveEntries hd rest hrest d
    exact (hdone.imp fun _ _ hw => hw.mono fun _ _ hr => .inl (.inl hr)).put name
      (hv.mono fun _ _ => .inr)

end

end

end Load.Build

namespace Load

/-- A tree of plain data is resolved as such by every engine that takes the patterns, whatever
documents there are: both ways give values that are alike, or fail for the same key. -/
theorem resolve_plain_data (engine : Line.Engine) (c : Config) (files : Files) (reader : Reader)
    {t : Yaml.Tree} (ht : t.IsPlain c) (h h' : Heap) :
    (∀ document, resolve engine c files reader t = do
      let _ ← liftM (Line.Patterns.compile engine c)
      Build.resolve c document none t) ∧
    match Line.Patterns.compile engine c with
    | .ok _ =>
      (∃ v g v' g', resolve engine c files reader t h = .ok (v, g) ∧
        Build.plain t h' = .ok (v', g') ∧ Value.Isomorphic g v g' v') ∨
      ∃ key, resolve engine c files reader t h = .error (.unsupportedKey key) ∧
        Build.plain t h' = .error (.unsupportedKey key)
    | .error e => resolve engine c files reader t h = .error e := by
  have hnone := Yaml.Tree.inclusions_eq_nil t ht
  constructor
  · intro document
    funext g
    rw [resolve_apply, Build.bind_apply, Build.liftM_apply]
    cases Line.Patterns.compile engine c with
    | error e => rfl
    | ok p =>
      -- nothing is included, so it does not matter what becomes of an included document
      have hsame : Build.resolve c (Loader.file ⟨p, files, reader⟩) none t =
          Build.resolve c document none t := by
        apply Build.resolve_congr
        intro q hq
        rw [hnone] at hq
        cases hq
      exact congrFun hsame g
  · rw [resolve_apply]
    cases Line.Patterns.compile engine c with
    | error e => rfl
    | ok p =>
      rcases Build.concurs_resolve (Loader.grows_document _ []) t ht none h h' with
        ⟨ρ, v, g, v', g', hr, hr', htwins, hv⟩ | hfail
      · exact .inl ⟨v, g, v', g', hr, hr', ρ, htwins.renames, hv⟩
      · exact .inr hfail

theorem resolve_plain_data_of_keys :
    let t : Yaml.Tree := .mapping [(.bool true, .null), (.tagged "t" (.string "true"),
      .sequence [.mapping [(.string "get", .null), (.string "a", .null)]])]
    ∃ v g v' g', resolve (fun _ => none) {} (Collection.files []) .yaml t {} = .ok (v, g) ∧
      Build.plain t {} = .ok (v', g') ∧ Value.Isomorphic g v g' v' := by
  intro t
  have hnames : ¬({} : Config).IsAccessorNames ["get", "a"] := by
    unfold Config.IsAccessorNames
    decide
  have hinner : ¬(Yaml.Tree.mapping [(.string "get", .null), (.string "a", .null)]).IsAccessor {} :=
    fun h => hnames h.2
  have ht : t.IsPlain {} := by
    simpa [t, Yaml.Tree.IsPlain, Yaml.Tree.EntriesPlain, Yaml.Tree.ItemsPlain,
      Yaml.Tree.IsAccessor] using hinner
  obtain ⟨-, hok | ⟨key, -, he⟩⟩ :=
    resolve_plain_data (fun _ => none) {} (Collection.files []) .yaml ht {} {}
  · exact hok
  · cases he

end Load

end LiveDoc
