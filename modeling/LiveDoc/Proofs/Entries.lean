import LiveDoc.Proofs.KeyNames
import LiveDoc.Proofs.Receivers

namespace LiveDoc

namespace Yaml.Tree

/-- Entries next to those that they were read from: one for each name, in the order in which the
names come first, and with the values that come last. Those are all entries if the keys differ. -/
structure Keeps (R : Tree → Value → Prop) (es : List (Tree × Tree)) (entries : Entries) : Prop where
  named : ∀ e ∈ es, ∃ name, e.1.key = .ok name
  keys : entries.keys = (names es).eraseDups
  last : ∀ s ∈ entries, ∃ before key node after, es = before ++ (key, node) :: after ∧
    key.key = .ok s.1 ∧ s.1 ∉ names after ∧ R node s.2
  all : es.Pairwise (fun e f => e.1.Differs f.1) ↔
    List.Forall₂ (fun e s => e.1.key = .ok s.1 ∧ R e.2 s.2) es entries

theorem names_cons {key node : Tree} {name : String} (hkey : key.key = .ok name)
    (rest : List (Tree × Tree)) : names ((key, node) :: rest) = name :: names rest := by
  simp [names, hkey, Except.toOption]

theorem mem_names {es : List (Tree × Tree)} {name : String} :
    name ∈ names es ↔ ∃ e ∈ es, e.1.key = .ok name := by
  rw [names, List.mem_filterMap]
  refine exists_congr fun e => and_congr_right fun _ => ?_
  cases e.1.key <;> simp [Except.toOption]

theorem nodup_names_iff {es : List (Tree × Tree)} (hkeys : ∀ e ∈ es, ∃ name, e.1.key = .ok name) :
    (names es).Nodup ↔ es.Pairwise fun e f => e.1.Differs f.1 := by
  induction es with
  | nil => simp [names]
  | cons e rest ih =>
    obtain ⟨key, node⟩ := e
    obtain ⟨⟨name, hname⟩, hrest⟩ := List.forall_mem_cons.1 hkeys
    have hnew : name ∉ names rest ↔ ∀ f ∈ rest, key.Differs f.1 := by
      constructor
      · intro hnot f hf
        obtain ⟨other, hother⟩ := hrest f hf
        apply (name_ne_iff hname hother).1
        rintro rfl
        exact hnot (mem_names.2 ⟨f, hf, hother⟩)
      · intro hall hmem
        obtain ⟨f, hf, hother⟩ := mem_names.1 hmem
        exact (name_ne_iff hname hother).2 (hall f hf) rfl
    rw [names_cons hname, List.nodup_cons, List.pairwise_cons, hnew, ih hrest]

theorem names_eq_keys {α : Type} {R : Tree → α → Prop} {es : List (Tree × Tree)} {slots : Slots α}
    (h : List.Forall₂ (fun e s => e.1.key = .ok s.1 ∧ R e.2 s.2) es slots) :
    names es = slots.keys := by
  induction h with
  | nil => rfl
  | @cons e s es slots hes _ ih =>
    rw [names_cons hes.1, ih]
    rfl

/-- A field that was not there has the node that comes last under its name. -/
theorem mem_fields {done : Slots Tree} {es : List (Tree × Tree)} (hdone : done.keys.Nodup)
    (hkeys : ∀ e ∈ es, ∃ name, e.1.key = .ok name) {field : String × Tree}
    (hf : field ∈ fields done es) :
    field ∈ done ∧ field.1 ∉ names es ∨
      ∃ before key after, es = before ++ (key, field.2) :: after ∧ key.key = .ok field.1 ∧
        field.1 ∉ names after := by
  induction es generalizing done with
  | nil => exact .inl ⟨hf, List.not_mem_nil⟩
  | cons e rest ih =>
    obtain ⟨key, node⟩ := e
    obtain ⟨⟨name, hname⟩, hrest⟩ := List.forall_mem_cons.1 hkeys
    simp only at hname
    rw [fields, hname] at hf
    rcases ih (Slots.nodup_put hdone) hrest hf with ⟨hmem, hnot⟩ | ⟨before, key', after, hes, hlast⟩
    · rcases Slots.mem_put hdone hmem with rfl | ⟨hne, hmem⟩
      · exact .inr ⟨[], key, rest, rfl, hname, hnot⟩
      · rw [names_cons hname]
        exact .inl ⟨hmem, List.not_mem_cons_of_ne_of_not_mem hne hnot⟩
    · exact .inr ⟨(key, node) :: before, key', after, congrArg _ hes, hlast⟩

theorem fields_eq_append {done more : Slots Tree} {es : List (Tree × Tree)}
    (h : List.Forall₂ (fun e field => e.1.key = .ok field.1 ∧ e.2 = field.2) es more)
    (hnames : (done.keys ++ more.keys).Nodup) : fields done es = done ++ more := by
  induction h generalizing done with
  | nil => rw [fields, List.append_nil]
  | @cons e field es more hfield _ ih =>
    obtain ⟨key, node⟩ := e
    obtain ⟨name, node'⟩ := field
    obtain ⟨hname, rfl⟩ := hfield
    have hnew : name ∉ done.keys :=
      fun hmem => List.disjoint_of_nodup_append hnames hmem (List.mem_cons_self ..)
    have hkeys : (Slots.keys (done ++ [(name, node)]) ++ Slots.keys more).Nodup := by
      simpa [Slots.keys] using hnames
    simp only at hname
    rw [fields, hname]
    simp only
    rw [Slots.put_of_not_mem hnew, ih hkeys, List.append_assoc, List.singleton_append]

theorem nodup_keys_of_fields {R : Tree → Value → Prop} {es : List (Tree × Tree)}
    {entries : Entries} (h : Slots.Rel R (fields [] es) entries) : entries.keys.Nodup := by
  rw [← h.keys]
  exact nodup_fields .nil

theorem keeps_of_fields {R : Tree → Value → Prop} {es : List (Tree × Tree)} {entries : Entries}
    (hkeys : ∀ e ∈ es, ∃ name, e.1.key = .ok name) (h : Slots.Rel R (fields [] es) entries) :
    Keeps R es entries := by
  constructor
  · exact hkeys
  · rw [← h.keys, fields_keys_nil]
  · intro s hs
    obtain ⟨field, hfield, hname, hR⟩ := exists_left_of_forall₂ h s hs
    have hnil : (Slots.keys ([] : Slots Tree)).Nodup := .nil
    rcases mem_fields hnil hkeys hfield with ⟨hmem, -⟩ | ⟨before, key, after, hes, hkey, hlast⟩
    · cases hmem
    · exact ⟨before, key, field.2, after, hes, hname ▸ hkey, hname ▸ hlast, hR⟩
  · rw [← nodup_names_iff hkeys]
    constructor
    · intro hnodup
      have hfield : ∀ e ∈ es, ∃ field : String × Tree, e.1.key = .ok field.1 ∧ e.2 = field.2 := by
        intro e he
        obtain ⟨name, hname⟩ := hkeys e he
        exact ⟨(name, e.2), hname, rfl⟩
      obtain ⟨more, hmore⟩ := exists_forall₂ hfield
      rw [names_eq_keys (R := fun node node' => node = node') hmore] at hnodup
      have hfields : fields [] es = [] ++ more := fields_eq_append hmore hnodup
      rw [hfields, List.nil_append] at h
      apply forall₂_of_common hmore h.flip
      intro e s field hef hfs
      exact ⟨hfs.1 ▸ hef.1, hef.2 ▸ hfs.2⟩
    · intro hall
      rw [names_eq_keys hall]
      exact nodup_keys_of_fields h

end Yaml.Tree

namespace Load.Build

section

variable {h h' g : Heap}

theorem plain_sequence_eq_ok {ts : List Yaml.Tree} {v : Value} :
    plain (.sequence ts) h = .ok (v, h') ↔
      ∃ items h₁, plainItems ts h = .ok (items, h₁) ∧ v = .container ⟨h₁.size⟩ ∧
        h' = (h₁.alloc (.sequence items.toArray)).2 := by
  rw [plain, bind_eq_ok]
  refine exists_congr fun items => exists_congr fun h₁ => and_congr_right fun _ => ?_
  change Except.ok _ = _ ↔ _
  simp [eq_comm, Heap.alloc]

theorem plain_mapping_eq_ok {es : List (Yaml.Tree × Yaml.Tree)} {v : Value} :
    plain (.mapping es) h = .ok (v, h') ↔
      ∃ entries h₁, plainEntries [] es h = .ok (entries, h₁) ∧ v = .container ⟨h₁.size⟩ ∧
        h' = (h₁.alloc (.mapping entries)).2 := by
  rw [plain, bind_eq_ok]
  refine exists_congr fun entries => exists_congr fun h₁ => and_congr_right fun _ => ?_
  change Except.ok _ = _ ↔ _
  simp [eq_comm, Heap.alloc]

theorem plainItems_cons_eq_ok {t : Yaml.Tree} {ts : List Yaml.Tree} {vs : List Value} :
    plainItems (t :: ts) h = .ok (vs, h') ↔
      ∃ v h₁ ws, plain t h = .ok (v, h₁) ∧ plainItems ts h₁ = .ok (ws, h') ∧ vs = v :: ws := by
  rw [plainItems, bind_eq_ok]
  refine exists_congr fun v => exists_congr fun h₁ => ?_
  simp only [bind_eq_ok, pure_apply, Except.ok.injEq, Prod.mk.injEq]
  grind

theorem plainEntries_cons_eq_ok {done : Entries} {key t : Yaml.Tree}
    {rest : List (Yaml.Tree × Yaml.Tree)} {r : Entries × Heap} :
    plainEntries done ((key, t) :: rest) h = .ok r ↔
      ∃ name v h₁, key.key = .ok name ∧ plain t h = .ok (v, h₁) ∧
        plainEntries (done.put name v) rest h₁ = .ok r := by
  simp only [plainEntries, bind_eq_ok, liftM_eq_ok]
  grind

mutual

theorem grows_plain (t : Yaml.Tree) : Grows (plain t) := by
  intro h h' v hr
  match t with
  | .sequence ts =>
    obtain ⟨items, h₁, hi, -, rfl⟩ := plain_sequence_eq_ok.1 hr
    exact (grows_plainItems ts hi).trans (.alloc h₁ _)
  | .mapping es =>
    obtain ⟨entries, h₁, he, -, rfl⟩ := plain_mapping_eq_ok.1 hr
    exact (grows_plainEntries es [] he).trans (.alloc h₁ _)
  | .tagged _ t =>
    rw [plain] at hr
    exact grows_plain t hr
  | .null | .bool _ | .int _ | .float _ | .string _ =>
    cases hr
    exact .refl h

theorem grows_plainItems (ts : List Yaml.Tree) : Grows (plainItems ts) := by
  intro h h' vs hr
  match ts with
  | [] =>
    cases hr
    exact .refl h
  | t :: ts =>
    obtain ⟨v, h₁, ws, hv, hws, -⟩ := plainItems_cons_eq_ok.1 hr
    exact (grows_plain t hv).trans (grows_plainItems ts hws)

theorem grows_plainEntries (es : List (Yaml.Tree × Yaml.Tree)) (done : Entries) :
    Grows (plainEntries done es) := by
  intro h h' out hr
  match es with
  | [] =>
    cases hr
    exact .refl h
  | (key, t) :: rest =>
    obtain ⟨name, v, h₁, -, hv, hrest⟩ := plainEntries_cons_eq_ok.1 hr
    exact (grows_plain t hv).trans (grows_plainEntries rest _ hrest)

end

/-- A value that a tree was read as, on a heap that has it still. -/
def Converted (g : Heap) (t : Yaml.Tree) (v : Value) : Prop :=
  ∃ h₁ h₂, plain t h₁ = .ok (v, h₂) ∧ h₂.Extends g

theorem Converted.mono {t : Yaml.Tree} {v : Value} (hv : Converted h t v) (hg : h.Extends g) :
    Converted g t v := by
  obtain ⟨h₁, h₂, hr, hh⟩ := hv
  exact ⟨h₁, h₂, hr, hh.trans hg⟩

theorem of_mem_plainEntries {es : List (Yaml.Tree × Yaml.Tree)} {done out : Entries}
    (hr : plainEntries done es h = .ok (out, h')) :
    ∀ e ∈ es, (∃ name, e.1.key = .ok name) ∧ ∃ v, Converted h' e.2 v := by
  induction es generalizing done h with
  | nil => nofun
  | cons e rest ih =>
    obtain ⟨name, v, h₁, hk, hv, hrest⟩ := plainEntries_cons_eq_ok.1 hr
    have hfirst : Converted h' e.2 v := ⟨h, h₁, hv, grows_plainEntries rest _ hrest⟩
    exact List.forall_mem_cons.2 ⟨⟨⟨name, hk⟩, v, hfirst⟩, ih hrest⟩

theorem converted_of_plainEntries {es : List (Yaml.Tree × Yaml.Tree)} {nodes : Slots Yaml.Tree}
    {done out : Entries} (hr : plainEntries done es h = .ok (out, h'))
    (hdone : Slots.Rel (Converted h) nodes done) :
    Slots.Rel (Converted h') (Yaml.Tree.fields nodes es) out := by
  induction es generalizing nodes done h with
  | nil =>
    cases hr
    exact hdone
  | cons e rest ih =>
    obtain ⟨key, t⟩ := e
    obtain ⟨name, v, h₁, hk, hv, hrest⟩ := plainEntries_cons_eq_ok.1 hr
    have hnew : Converted h₁ t v := ⟨h, h₁, hv, .refl h₁⟩
    have hgrow := grows_plain t hv
    rw [Yaml.Tree.fields, hk]
    exact ih hrest ((hdone.imp fun _ _ hw => hw.mono hgrow).put name hnew)

theorem Converted.keeps {es : List (Yaml.Tree × Yaml.Tree)} {v : Value}
    (hv : Converted g (.mapping es) v) :
    ∃ r entries, v = .container r ∧ g.get? r = some (.mapping entries) ∧
      Yaml.Tree.Keeps (Converted g) es entries := by
  obtain ⟨h₁, h₂, hr, hg⟩ := hv
  obtain ⟨entries, h₃, he, rfl, rfl⟩ := plain_mapping_eq_ok.1 hr
  have hself := h₃.get?_alloc_self (.mapping entries)
  refine ⟨_, entries, rfl, (hg.get?_eq _ (Heap.index_lt_of_get? hself)).trans hself, ?_⟩
  apply Yaml.Tree.keeps_of_fields fun e hmem => (of_mem_plainEntries he e hmem).1
  apply (converted_of_plainEntries he .nil).imp
  exact fun _ _ hw => hw.mono ((Heap.Extends.alloc h₃ _).trans hg)

theorem converted_of_mem_items {ts : List Yaml.Tree} {vs : List Value}
    (hr : plainItems ts h = .ok (vs, h')) : ∀ t ∈ ts, ∃ v, Converted h' t v := by
  induction ts generalizing h vs with
  | nil => nofun
  | cons t ts ih =>
    obtain ⟨v, h₁, ws, hv, hws, -⟩ := plainItems_cons_eq_ok.1 hr
    exact List.forall_mem_cons.2 ⟨⟨v, h, h₁, hv, grows_plainItems ts hws⟩, ih hws⟩

/-- All nodes of a tree that was read have been read. -/
theorem Converted.within {t u : Yaml.Tree} {v : Value} (hv : Converted g t v)
    (hu : t.Within u) : ∃ w, Converted g u w := by
  induction hu generalizing v with
  | here => exact ⟨v, hv⟩
  | tagged _ ih =>
    obtain ⟨h₁, h₂, hr, hg⟩ := hv
    rw [plain] at hr
    exact ih ⟨h₁, h₂, hr, hg⟩
  | @child t n u hn _ ih =>
    have hchild : ∃ w, Converted g n w := by
      obtain ⟨h₁, h₂, hr, hg⟩ := hv
      cases t with
      | sequence ts =>
        obtain ⟨items, h₃, hi, -, rfl⟩ := plain_sequence_eq_ok.1 hr
        obtain ⟨w, hw⟩ := converted_of_mem_items hi n hn
        exact ⟨w, hw.mono ((Heap.Extends.alloc h₃ _).trans hg)⟩
      | mapping es =>
        obtain ⟨e, he, rfl⟩ := List.mem_map.1 hn
        obtain ⟨entries, h₃, hes, -, rfl⟩ := plain_mapping_eq_ok.1 hr
        obtain ⟨-, w, hw⟩ := of_mem_plainEntries hes e he
        exact ⟨w, hw.mono ((Heap.Extends.alloc h₃ _).trans hg)⟩
      | _ => cases hn
    obtain ⟨w, hw⟩ := hchild
    exact ih hw

end

section

variable {c : Config} {document : String → Build Value}

theorem filled_of_mem_entries (hd : ∀ q, Grows (document q)) {d : Ref}
    {es : List (Yaml.Tree × Yaml.Tree)} {done out : Entries} {h h' : Heap} (hlt : d.index < h.size)
    (hr : resolveEntries c document d done es h = .ok (out, h')) :
    ∀ e ∈ es, ∃ w, Filled c document h' d e.2 w := by
  induction es generalizing done h with
  | nil => nofun
  | cons e rest ih =>
    obtain ⟨name, v, h₁, w, -, hv, hw, hrest⟩ := resolveEntries_cons_eq_ok.1 hr
    have hgrow := grows_resolve hd (some d) e.2 hv
    have hf : Filled c document h₁ d e.2 w := ⟨_, h, h₁, v, hv, hw, hlt, .refl h h₁⟩
    have hfirst := hf.mono (grows_resolveEntries hd d _ rest hrest)
    exact List.forall_mem_cons.2 ⟨⟨w, hfirst⟩, ih (Nat.lt_of_lt_of_le hlt hgrow.size_le) hrest⟩

/-- All nodes in a container have got values, also those that others have taken the place of. -/
theorem exists_filled_of_resolve (hd : ∀ q, Grows (document q)) {owner : Option Ref}
    {t : Yaml.Tree} {h h' : Heap} {v : Value} (hr : resolve c document owner t h = .ok (v, h')) :
    ∀ n ∈ t.children, ∃ w, Filled c document h' ⟨h.size⟩ n w := by
  have hlt (k : Container) : h.size < (h.alloc k).2.size := by
    rw [Heap.size_alloc]
    exact Nat.lt_succ_self _
  intro n hn
  cases t with
  | sequence ts =>
    obtain ⟨items, h₁, hi, -, rfl⟩ := resolve_sequence_eq_ok.1 hr
    have hfilled := filled_of_resolveItems hd (hlt _) hi
    obtain ⟨w, -, hf⟩ := exists_left_of_forall₂ hfilled.flip n hn
    exact ⟨w, Filled.set hf _⟩
  | mapping es =>
    obtain ⟨e, he, rfl⟩ := List.mem_map.1 hn
    obtain ⟨entries, h₁, hes, -, rfl⟩ := resolve_mapping_eq_ok.1 hr
    obtain ⟨w, hf⟩ := filled_of_mem_entries hd (hlt _) hes e he
    exact ⟨w, hf.set _⟩
  | _ => cases hn

end

end Load.Build

namespace Load.Loader

variable {l : Loader}

theorem Made.keeps {g : Heap} {r : Ref} {es : List (Yaml.Tree × Yaml.Tree)}
    (hm : l.Made g r (.mapping es)) :
    ∃ entries, g.get? r = some (.mapping entries) ∧ Yaml.Tree.Keeps (l.Filled g r) es entries := by
  obtain ⟨k, hk, hp⟩ := hm.pairs .mapping
  cases hp with
  | mapping hp => exact ⟨_, hk, Yaml.Tree.keeps_of_fields hm.key_eq_ok hp⟩

/-- All containers of a tree that was loaded have been made. -/
theorem made_of_within {t u : Yaml.Tree} (hu : t.Within u) (hb : u.IsBranch)
    {stack : List Identity} {owner : Option Ref} {h h' g : Heap} {v : Value}
    (hr : Build.resolve l.config (l.document stack) owner t h = .ok (v, h'))
    (hs : Heap.Settled h h' g) : ∃ r, l.Made g r u := by
  have hgrow := l.grows_document stack
  induction hu generalizing owner h h' v with
  | here =>
    obtain ⟨rfl, -⟩ := Build.pairs_of_resolve hgrow hb hr
    exact ⟨_, stack, owner, h, h', hr, hs⟩
  | tagged _ ih =>
    rw [Build.resolve] at hr
    exact ih hb hr hs
  | child hn _ ih =>
    obtain ⟨w, name, h₁, h₂, w', hr', -, hlt, hs'⟩ := Build.exists_filled_of_resolve hgrow hr _ hn
    exact ih hb hr' (hs'.within (Nat.le_of_lt hlt) hs)

/-- Mappings keep their entries under their names, in plain data and in live documents, also where
they become accessors. All of them are kept if and only if their keys differ. -/
theorem entries_kept (l : Loader) (g : Heap) :
    (∀ t es h v, Build.plain t h = .ok (v, g) → t.Within (.mapping es) →
      (∃ r, Build.Converted g (.mapping es) (.container r)) ∧
        ∀ r, Build.Converted g (.mapping es) (.container r) → ∃ entries,
          g.get? r = some (.mapping entries) ∧ Yaml.Tree.Keeps (Build.Converted g) es entries) ∧
    ∀ stack owner t es h v,
      Build.resolve l.config (l.document stack) owner t h = .ok (v, g) → t.Within (.mapping es) →
        (∃ r, l.Made g r (.mapping es)) ∧ ∀ r, l.Made g r (.mapping es) → ∃ entries,
          g.get? r = some (.mapping entries) ∧ Yaml.Tree.Keeps (l.Filled g r) es entries := by
  constructor
  · intro t es h v hr hes
    have hv : Build.Converted g t v := ⟨h, g, hr, .refl g⟩
    obtain ⟨w, hw⟩ := hv.within hes
    constructor
    · obtain ⟨r, entries, rfl, -⟩ := hw.keeps
      exact ⟨r, hw⟩
    · intro r hw
      obtain ⟨r', entries, heq, hget, hkeeps⟩ := hw.keeps
      cases heq
      exact ⟨entries, hget, hkeeps⟩
  · intro stack owner t es h v hr hes
    exact ⟨made_of_within hes .mapping hr (.refl h g), fun r hm => hm.keeps⟩

theorem entries_kept_in_sequence :
    (∃ v g, Build.plain (.sequence [.mapping [(.int 1, .null), (.null, .bool true)]]) {} =
        .ok (v, g) ∧ ∃ r entries, g.get? r = some (.mapping entries) ∧
          Yaml.Tree.Keeps (Build.Converted g) [(.int 1, .null), (.null, .bool true)] entries) ∧
    ∃ v g, (ofCollection .standard .yaml []).node
        (.sequence [.mapping [(.int 1, .null), (.null, .bool true)]]) {} = .ok (v, g) ∧
        ∃ r entries, g.get? r = some (.mapping entries) ∧
          Yaml.Tree.Keeps ((ofCollection .standard .yaml []).Filled g r)
            [(.int 1, .null), (.null, .bool true)] entries := by
  have hwithin : Yaml.Tree.Within (.sequence [.mapping [(.int 1, .null), (.null, .bool true)]])
      (.mapping [(.int 1, .null), (.null, .bool true)]) := .child (List.mem_singleton_self _) .here
  constructor
  · have hr : Build.plain (.sequence [.mapping [(.int 1, .null), (.null, .bool true)]]) {} =
        .ok (.container ⟨1⟩, ⟨#[.mapping [("1", .null), ("null", .bool true)],
          .sequence #[.container ⟨0⟩]], 0⟩) := by cbv
    obtain ⟨⟨r, hr'⟩, hall⟩ :=
      (entries_kept (ofCollection .standard .yaml []) _).1 _ _ _ _ hr hwithin
    exact ⟨_, _, hr, r, hall r hr'⟩
  · have hr : (ofCollection .standard .yaml []).node
        (.sequence [.mapping [(.int 1, .null), (.null, .bool true)]]) {} =
          .ok (.container ⟨0⟩, ⟨#[.sequence #[.container ⟨1⟩],
            .mapping [("1", .null), ("null", .bool true)]], 0⟩) := by cbv
    obtain ⟨⟨r, hr'⟩, hall⟩ :=
      (entries_kept (ofCollection .standard .yaml []) _).2 [] none _ _ _ _ hr hwithin
    exact ⟨_, _, hr, r, hall r hr'⟩

/-- Of an integer and its text as keys, only the value of the last one is kept. -/
theorem entries_kept_ne :
    Yaml.Tree.scalar (.int 1) ≠ Yaml.Tree.scalar (.string "1") ∧
    Build.plain (.mapping [(.int 1, .string "a"), (.string "1", .string "b")]) {} =
      .ok (.container ⟨0⟩, ⟨#[.mapping [("1", .text "b")]], 0⟩) ∧
    (ofCollection .standard .yaml []).node
        (.mapping [(.int 1, .string "a"), (.string "1", .string "b")]) {} =
      .ok (.container ⟨0⟩, ⟨#[.mapping [("1", .text "b")]], 0⟩) := by
  refine ⟨nofun, ?_, ?_⟩
  · cbv
  · cbv

end Load.Loader

end LiveDoc
