import LiveDoc.Proofs.Cycles
import LiveDoc.Proofs.Liveness
import LiveDoc.Proofs.Names
import LiveDoc.Proofs.Origin
import Mathlib

namespace LiveDoc

/-- The sets of names that make an accessor of a mapping. -/
def Config.IsAccessorNames (c : Config) (names : List String) : Prop :=
  names.toFinset = {c.getKey} ∨ names.toFinset = {c.setKey} ∨
    names.toFinset = {c.getKey, c.setKey}

theorem Config.isAccessorKeySet_iff {c : Config} {keys : List String} (hk : keys.Nodup) :
    c.isAccessorKeySet keys = true ↔ c.IsAccessorNames keys := by
  simp only [isAccessorKeySet, IsAccessorNames, Bool.and_eq_true, List.all_eq_true,
    Bool.or_eq_true, decide_eq_true_eq]
  constructor
  · rintro ⟨hall, hlen⟩
    rcases keys with _ | ⟨a, _ | ⟨b, _ | ⟨c, keys⟩⟩⟩
    · simp at hlen
    · simpa using hall a (by simp) |>.imp_right .inl
    · have ha := hall a (by simp)
      have hb := hall b (by simp)
      have hne : a ≠ b := by simpa using hk
      refine .inr (.inr ?_)
      rcases ha with rfl | rfl <;> rcases hb with rfl | rfl <;> simp_all [Finset.pair_comm]
    · simp at hlen
  · intro h
    have hcard := List.toFinset_card_of_nodup hk
    have hmem (key : String) : key ∈ keys.toFinset ↔ key ∈ keys := List.mem_toFinset
    rcases h with h | h | h <;> rw [h] at hcard hmem
    · simp_all
    · simp_all
    · have hle := Finset.card_le_two (a := c.getKey) (b := c.setKey)
      have hpos := Finset.card_pos.2 ⟨c.getKey, Finset.mem_insert_self c.getKey {c.setKey}⟩
      exact ⟨fun key hkey => by simpa using (hmem key).2 hkey, by omega⟩

theorem Yaml.Tree.nodup_fields {done : Slots Tree} {es : List (Tree × Tree)}
    (h : done.keys.Nodup) : (fields done es).keys.Nodup := by
  induction es generalizing done with
  | nil => exact h
  | cons e rest ih =>
    rw [fields]
    split
    · exact ih (Slots.nodup_put h)
    · exact ih h

theorem Config.isAccessorKeySet_fields {c : Config} {es : List (Yaml.Tree × Yaml.Tree)} :
    c.isAccessorKeySet (Yaml.Tree.fields [] es).keys = true ↔
      c.IsAccessorNames (Yaml.Tree.names es) := by
  have hset : (Yaml.Tree.names es).eraseDups.toFinset = (Yaml.Tree.names es).toFinset := by
    ext key
    simp
  have hnil : (Slots.keys ([] : Slots Yaml.Tree)).Nodup := .nil
  rw [isAccessorKeySet_iff (Yaml.Tree.nodup_fields hnil), Yaml.Tree.fields_keys_nil,
    IsAccessorNames, IsAccessorNames, hset]

namespace Load.Loader

/-- The tree that a load starts from. -/
def Starts (l : Loader) : Source → Yaml.Tree → Prop
  | .text text, t => l.tree text = .ok t
  | .file path, t => l.content path = .ok t

/-- The nodes that the containers of a loaded value are written for: the root for the tree that the
load starts from, and what is in their slots for the nodes in the slots. -/
inductive Written (l : Loader) (h : Heap) (t : Yaml.Tree) (root : Value) : Ref → Yaml.Tree → Prop
  | root {r : Ref} {included : Bool} {u : Yaml.Tree} :
    root = .container r → l.Leads included t u → u.IsBranch → Written l h t root r u
  | slot {d r : Ref} {s n u : Yaml.Tree} {k : Container} {included : Bool} :
    Written l h t root d s → h.get? d = some k → (n, .container r) ∈ s.nodes.zip k.values →
      l.Leads included n u → u.IsBranch → Written l h t root r u

/-- What a slot of a container holds for its node. -/
structure Slot (l : Loader) (h : Heap) (roots : List Ref) (d : Ref) (n : Yaml.Tree) (w : Value) :
    Prop where
  function : ∀ f, w = .function f → ∃ included s params body, l.Leads included n (.string s) ∧
    Signal.detect s = .ok (some (.function params body)) ∧ f.params = params ∧ f.source = body ∧
    h.receiver roots f = if included then .undefined else .container d
  accessor : (∃ a, w = .accessor a) ↔
    ∃ es, n = .mapping es ∧ l.config.IsAccessorNames (Yaml.Tree.names es)
  halves : ∀ a f, w = .accessor a → a.getter = some f ∨ a.setter = some f →
    h.receiver roots f = .container d
  branch : ∀ included u, l.Leads included n u → u.IsBranch →
    (∃ a, w = .accessor a) ∨ ∃ r, w = .container r

variable {l : Loader}

def Made (l : Loader) (h : Heap) (r : Ref) (t : Yaml.Tree) : Prop :=
  ∃ stack owner h₁ h₂, Build.resolve l.config (l.document stack) owner t h₁ =
    .ok (.container r, h₂) ∧ Heap.Settled h₁ h₂ h

def Filled (l : Loader) (h : Heap) (d : Ref) (n : Yaml.Tree) (w : Value) : Prop :=
  ∃ stack, Build.Filled l.config (l.document stack) h d n w

theorem exists_starts {src : Source} {h : Heap} {r : Value × Heap} (hr : l.load src h = .ok r) :
    ∃ t, l.Starts src t := by
  cases src with
  | text text =>
    obtain ⟨t, h', ht, -⟩ := Build.bind_eq_ok.1 hr
    exact ⟨t, (Build.liftM_eq_ok.1 ht).1⟩
  | file path =>
    obtain ⟨-, t, ht, -⟩ := document_eq_ok.1 hr
    exact ⟨t, ht⟩

theorem resolve_of_starts {src : Source} {h : Heap} {r : Value × Heap} (hr : l.load src h = .ok r)
    {t : Yaml.Tree} (ht : l.Starts src t) :
    ∃ stack, Build.resolve l.config (l.document stack) none t h = .ok r := by
  cases src with
  | text text =>
    obtain ⟨t', h', hm, hn⟩ := Build.bind_eq_ok.1 hr
    obtain ⟨ht', rfl⟩ := Build.liftM_eq_ok.1 hm
    cases ht'.symm.trans ht
    exact ⟨[], hn⟩
  | file path =>
    obtain ⟨-, t', ht', hr⟩ := document_eq_ok.1 hr
    cases ht'.symm.trans ht
    exact ⟨_, hr⟩

theorem Made.pairs {h : Heap} {r : Ref} {t : Yaml.Tree} (hm : l.Made h r t) (ht : t.IsBranch) :
    ∃ k, h.get? r = some k ∧ k.Pairs (l.Filled h r) t := by
  obtain ⟨stack, owner, h₁, h₂, hr, hs⟩ := hm
  obtain ⟨hv, k, hk, hp⟩ := Build.pairs_of_resolve (l.grows_document stack) ht hr
  cases hv
  have hget := hs.get?_eq ⟨h₁.size⟩ (Nat.le_refl _) (Heap.index_lt_of_get? hk)
  exact ⟨k, hget.trans hk, hp.imp fun _ _ hf => ⟨stack, hf.within (Nat.le_refl _) hs⟩⟩

theorem Made.key_eq_ok {h : Heap} {r : Ref} {es : List (Yaml.Tree × Yaml.Tree)}
    (hm : l.Made h r (.mapping es)) : ∀ e ∈ es, ∃ name, e.1.key = .ok name := by
  obtain ⟨stack, owner, h₁, h₂, hr, -⟩ := hm
  obtain ⟨entries, h₃, he, -⟩ := Build.resolve_mapping_eq_ok.1 hr
  exact Build.key_eq_ok_of_resolveEntries he

theorem made_of_leads {stack : List Identity} {owner : Option Ref} {t u : Yaml.Tree} {r : Ref}
    {h h' g : Heap} {included : Bool}
    (hr : Build.resolve l.config (l.document stack) owner t h = .ok (.container r, h'))
    (hs : Heap.Settled h h' g) (hl : l.Leads included t u) : l.Made g r u := by
  obtain ⟨stack, hr⟩ := hl.resolve hr
  exact ⟨stack, _, h, h', hr, hs⟩

theorem branch_of_container {stack : List Identity} {owner : Option Ref} {t : Yaml.Tree} {r : Ref}
    {h h' : Heap}
    (hr : Build.resolve l.config (l.document stack) owner t h = .ok (.container r, h')) :
    ∃ included u, l.Leads included t u ∧ u.IsBranch := by
  obtain ⟨included, u, stack, hl, hu, hr⟩ := exists_leads hr
  cases Build.result_of_resolve hu hr with
  | branch hu => exact ⟨included, u, hl, hu⟩
  | data _ hv => exact hv.elim

theorem ne_accessor_of_resolve {stack : List Identity} {owner : Option Ref} {t : Yaml.Tree}
    {h h' : Heap} {v : Value}
    (hr : Build.resolve l.config (l.document stack) owner t h = .ok (v, h')) (a : Accessor) :
    v ≠ .accessor a := by
  rintro rfl
  obtain ⟨included, u, stack, -, hu, hr⟩ := exists_leads hr
  cases Build.result_of_resolve hu hr with
  | data _ hv => exact hv

theorem Filled.container {h : Heap} {d r : Ref} {n : Yaml.Tree}
    (hf : l.Filled h d n (.container r)) :
    (∃ included u, l.Leads included n u ∧ u.IsBranch) ∧
      ∀ included u, l.Leads included n u → l.Made h r u := by
  obtain ⟨stack, name, h₁, h₂, v, hr, hp, -, hs⟩ := hf
  cases Build.outcome_of_placed hp with
  | kept _ => exact ⟨branch_of_container hr, fun _ _ => made_of_leads hr hs⟩

theorem receiver_eq {h : Heap} {roots : List Ref} {d : Ref} {f : Function}
    (hd : h.isAlive roots d = true) (hf : f.receiver = some d) :
    h.receiver roots f = .container d := by
  rw [Heap.receiver, hf]
  exact if_pos hd

theorem Filled.function {h : Heap} {roots : List Ref} {d : Ref} {n : Yaml.Tree} {f : Function}
    (hf : l.Filled h d n (.function f)) (hd : h.isAlive roots d = true) :
    ∃ included s params body, l.Leads included n (.string s) ∧
      Signal.detect s = .ok (some (.function params body)) ∧ f.params = params ∧ f.source = body ∧
      h.receiver roots f = if included then .undefined else .container d := by
  obtain ⟨stack, name, h₁, h₂, v, hr, hp, -, -⟩ := hf
  cases Build.outcome_of_placed hp with
  | kept _ =>
    obtain ⟨included, u, stack, hl, hu, hr⟩ := exists_leads hr
    cases Build.result_of_resolve hu hr with
    | function hs hf hparams hbody =>
      refine ⟨included, _, _, _, hl, hs, hparams, hbody, ?_⟩
      cases included with
      | false => exact receiver_eq hd hf
      | true =>
        -- a document does not know the container around the node that includes it
        rw [Heap.receiver, hf]
        rfl
    | data _ hv => exact hv.elim

theorem Filled.accessor_iff {h : Heap} {d : Ref} {n : Yaml.Tree} {w : Value}
    (hf : l.Filled h d n w) : (∃ a, w = .accessor a) ↔
      ∃ es, n = .mapping es ∧ l.config.IsAccessorNames (Yaml.Tree.names es) := by
  obtain ⟨stack, name, h₁, h₂, v, hr, hp, -, -⟩ := hf
  have hgrow := l.grows_document stack
  constructor
  · rintro ⟨a, rfl⟩
    cases Build.outcome_of_placed hp with
    | kept _ => exact absurd rfl (ne_accessor_of_resolve hr a)
    | accessor ht hv he hk _ =>
      subst ht hv
      obtain ⟨r, entries, hv, he', hkeys⟩ := Build.entries_of_resolve hgrow hr
      cases hv
      cases he.symm.trans he'
      exact ⟨_, rfl, Config.isAccessorKeySet_fields.1 (hkeys ▸ hk)⟩
  · rintro ⟨es, rfl, hn⟩
    obtain ⟨r, entries, rfl, he, hkeys⟩ := Build.entries_of_resolve hgrow hr
    cases Build.outcome_of_placed hp with
    | kept hno =>
      have hk := hno es r entries rfl rfl he
      rw [hkeys, Config.isAccessorKeySet_fields.2 hn] at hk
      cases hk
    | accessor _ _ _ _ _ => exact ⟨_, rfl⟩

theorem Filled.half {h : Heap} {roots : List Ref} {d : Ref} {n : Yaml.Tree} {a : Accessor}
    (hf : l.Filled h d n (.accessor a)) (hd : h.isAlive roots d = true) {f : Function}
    (ha : a.getter = some f ∨ a.setter = some f) : h.receiver roots f = .container d := by
  obtain ⟨stack, name, h₁, h₂, v, hr, hp, -, -⟩ := hf
  cases Build.outcome_of_placed hp with
  | kept _ => exact absurd rfl (ne_accessor_of_resolve hr a)
  | accessor _ _ _ _ hbound => exact receiver_eq hd (hbound f ha)

theorem Filled.branch {h : Heap} {d : Ref} {n u : Yaml.Tree} {w : Value} (hf : l.Filled h d n w)
    {included : Bool} (hl : l.Leads included n u) (hu : u.IsBranch) :
    (∃ a, w = .accessor a) ∨ ∃ r, w = .container r := by
  obtain ⟨stack, name, h₁, h₂, v, hr, hp, -, -⟩ := hf
  cases Build.outcome_of_placed hp with
  | kept _ =>
    obtain ⟨stack, hr⟩ := hl.resolve hr
    exact .inr ⟨_, (Build.pairs_of_resolve (l.grows_document stack) hu hr).1⟩
  | accessor _ _ _ _ _ => exact .inl ⟨_, rfl⟩

theorem Filled.slot {h : Heap} {roots : List Ref} {d : Ref} {n : Yaml.Tree} {w : Value}
    (hf : l.Filled h d n w) (hd : h.isAlive roots d = true) : l.Slot h roots d n w where
  function f hw := by
    subst hw
    exact hf.function hd
  accessor := hf.accessor_iff
  halves a f hw ha := by
    subst hw
    exact hf.half hd ha
  branch _ _ hl hu := hf.branch hl hu

theorem Written.isBranch {h : Heap} {t u : Yaml.Tree} {root : Value} {r : Ref}
    (hw : l.Written h t root r u) : u.IsBranch := by
  cases hw with
  | root _ _ hu | slot _ _ _ _ hu => exact hu

section

variable {stack : List Identity} {t : Yaml.Tree} {root : Value} {h h' : Heap}

theorem Written.made (hr : Build.resolve l.config (l.document stack) none t h = .ok (root, h'))
    {r : Ref} {u : Yaml.Tree} (hw : l.Written h' t root r u) : l.Made h' r u := by
  induction hw with
  | root hroot hl _ => exact made_of_leads (hroot ▸ hr) (.refl h h') hl
  | slot hw hk hz hl _ ih =>
    obtain ⟨k, hk', hp⟩ := ih.pairs hw.isBranch
    cases hk.symm.trans hk'
    exact (Filled.container (List.forall₂_zip hp.values hz)).2 _ _ hl

/-- All containers of a loaded value are written for nodes. -/
theorem exists_written (hr : Build.resolve l.config (l.document stack) none t h = .ok (root, h'))
    {d : Ref} (hd : h'.Reached root.refs d) : ∃ s, l.Written h' t root d s := by
  induction hd with
  | root hd =>
    cases root with
    | container r =>
      cases List.mem_singleton.1 hd
      obtain ⟨included, u, hl, hu⟩ := branch_of_container hr
      exact ⟨u, .root rfl hl hu⟩
    | _ => cases hd
  | @slot d k r _ hk hd ih =>
    obtain ⟨s, hw⟩ := ih
    obtain ⟨k', hk', hp⟩ := (hw.made hr).pairs hw.isBranch
    cases hk.symm.trans hk'
    obtain ⟨n, hz⟩ := hp.exists_mem_zip (Container.mem_values_of_refs hd)
    obtain ⟨included, u, hl, hu⟩ := (Filled.container (List.forall₂_zip hp.values hz)).1
    exact ⟨u, .slot hw hk hz hl hu⟩

end

/-- In a loaded document that is held, all containers have what is written in their nodes: the
functions that are written there are bound to them, those that includes lead to are not bound, and
those mappings are accessors that are written there with nothing but a getter and a setter. -/
theorem load_binds_receivers {patterns : Line.Patterns} {reader : Reader} {docs : Collection}
    {src : Source} {h h' : Heap} {root : Value}
    (hr : (ofCollection patterns reader docs).load src h = .ok (root, h')) {roots : List Ref}
    (hheld : ∀ r ∈ root.refs, r ∈ roots) :
    ∃ t, (ofCollection patterns reader docs).Starts src t ∧
      (∀ f, root = .function f → f.receiver = none) ∧ (∀ a, root ≠ .accessor a) ∧
      (∀ included u, (ofCollection patterns reader docs).Leads included t u → u.IsBranch →
        ∃ r, root = .container r) ∧
      ∀ d, h'.Reached root.refs d → (∃ s, (ofCollection patterns reader docs).Written h' t root d s) ∧
        ∀ s, (ofCollection patterns reader docs).Written h' t root d s → ∃ k, h'.get? d = some k ∧
          k.Pairs ((ofCollection patterns reader docs).Slot h' roots d) s ∧
          ∀ es, s = .mapping es → (∀ e ∈ es, ∃ name, e.1.key = .ok name) ∧
            ∃ entries, k = .mapping entries ∧
              entries.keys = (Yaml.Tree.names es).eraseDups := by
  obtain ⟨t, ht⟩ := exists_starts hr
  obtain ⟨stack, hr⟩ := resolve_of_starts hr ht
  refine ⟨t, ht, ?_, ne_accessor_of_resolve hr, ?_, ?_⟩
  · rintro f rfl
    obtain ⟨included, u, stack, -, hu, hr⟩ := exists_leads hr
    cases Build.result_of_resolve hu hr with
    | function _ hf _ _ => cases included <;> exact hf
    | data _ hv => exact hv.elim
  · intro included u hl hu
    obtain ⟨stack, hr⟩ := hl.resolve hr
    exact ⟨_, (Build.pairs_of_resolve (grows_document _ stack) hu hr).1⟩
  · intro d hd
    refine ⟨exists_written hr hd, ?_⟩
    intro s hw
    obtain ⟨k, hk, hp⟩ := (hw.made hr).pairs hw.isBranch
    have hreached : h'.Reached roots d := hd.mono hheld
    have halive := Heap.isAlive_of_reached hreached (Heap.index_lt_of_get? hk)
    refine ⟨k, hk, hp.imp fun _ _ hf => hf.slot halive, ?_⟩
    rintro es rfl
    cases hp with
    | mapping hp =>
      exact ⟨(hw.made hr).key_eq_ok, _, rfl, hp.keys.symm.trans (Yaml.Tree.fields_keys_nil es)⟩

theorem load_binds_receiver_of_function :
    ∃ h', (ofCollection .standard .yaml []).load (.text "f: '__YAML_SCRIPT_FN__()'") {} =
        .ok (.container ⟨0⟩, h') ∧
      ∃ t s k, (ofCollection .standard .yaml []).Written h' t (.container ⟨0⟩) ⟨0⟩ s ∧
        h'.get? ⟨0⟩ = some k ∧
        k.Pairs ((ofCollection .standard .yaml []).Slot h' [⟨0⟩] ⟨0⟩) s := by
  have hr : (ofCollection .standard .yaml []).load (.text "f: '__YAML_SCRIPT_FN__()'") {} =
      .ok (.container ⟨0⟩,
        ⟨#[.mapping [("f", .function ⟨⟨0, [], "", []⟩, some ⟨0⟩⟩)]], 1⟩) := by cbv
  obtain ⟨t, -, -, -, -, hall⟩ := load_binds_receivers hr fun _ h => h
  obtain ⟨⟨s, hw⟩, hs⟩ := hall ⟨0⟩ (.root (List.mem_singleton_self _))
  obtain ⟨k, hk, hp, -⟩ := hs s hw
  exact ⟨_, hr, t, s, k, hw, hk, hp⟩

/-- The root of the included document is no function but an include, and still the function that it
leads to has no receiver. -/
theorem load_binds_receivers_ne :
    let l := ofCollection .standard .yaml
      [("a", "'__YAML_SCRIPT_INCLUDE__ b'"), ("b", "'__YAML_SCRIPT_FN__()'")]
    (l.tree "f: '__YAML_SCRIPT_INCLUDE__ a'" =
        .ok (.mapping [(.string "f", .string "__YAML_SCRIPT_INCLUDE__ a")]) ∧
      l.content "a" = .ok (.string "__YAML_SCRIPT_INCLUDE__ b") ∧
      Signal.detect "__YAML_SCRIPT_INCLUDE__ b" = .ok (some (.inclusion "b"))) ∧
    ∃ f h, l.load (.text "f: '__YAML_SCRIPT_INCLUDE__ a'") {} = .ok (.container ⟨0⟩, h) ∧
      h.get? ⟨0⟩ = some (.mapping [("f", .function f)]) ∧
      h.receiver [⟨0⟩] f = .undefined := by
  intro l
  refine ⟨⟨?_, ?_, ?_⟩, ⟨⟨0, [], "", []⟩, none⟩,
    ⟨#[.mapping [("f", .function ⟨⟨0, [], "", []⟩, none⟩)]], 1⟩, ?_, rfl, rfl⟩
  · cbv
  · cbv
  · cbv
  · cbv

end Load.Loader

end LiveDoc
