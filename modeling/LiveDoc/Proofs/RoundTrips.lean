import LiveDoc.Proofs.Alike
import LiveDoc.Proofs.Growth
import LiveDoc.Proofs.Heights
import LiveDoc.Proofs.Names

namespace LiveDoc

namespace Yaml.Tree

def ofFields (fields : Slots Tree) : Tree :=
  .mapping (fields.map fun field => (.string field.1, field.2))

/-- A tree without tags, whose integers have 64 bits and whose keys are different texts. -/
inductive IsData : Tree → Prop
  | null : IsData .null
  | bool (b : Bool) : IsData (.bool b)
  | int {n : Int} : Decimal.fitsWord n = true → IsData (.int n)
  | float (x : Float) : IsData (.float x)
  | string (s : String) : IsData (.string s)
  | sequence {ts : List Tree} : (∀ t ∈ ts, IsData t) → IsData (.sequence ts)
  | mapping {fields : Slots Tree} : fields.keys.Nodup → (∀ t ∈ fields.values, IsData t) →
    IsData (ofFields fields)

end Yaml.Tree

/-- The slots of a container next to those of a tree, whose names are different. -/
inductive Container.Lists (R : Value → Yaml.Tree → Prop) : Container → Yaml.Tree → Prop
  | sequence {items : Array Value} {ts : List Yaml.Tree} :
    List.Forall₂ R items.toList ts → Lists R (.sequence items) (.sequence ts)
  | mapping {entries : Entries} {fields : Slots Yaml.Tree} :
    entries.keys.Nodup → Slots.Rel R entries fields →
      Lists R (.mapping entries) (.ofFields fields)

theorem Container.Lists.imp {R S : Value → Yaml.Tree → Prop} {k : Container} {t : Yaml.Tree}
    (h : k.Lists R t) (hi : ∀ v ∈ k.values, ∀ u, R v u → S v u) : k.Lists S t := by
  cases h with
  | sequence h => exact .sequence (forall₂_of_mem h hi)
  | mapping hnames h =>
    apply Lists.mapping hnames
    exact forall₂_of_mem h fun e he field hf => ⟨hf.1, hi e.2 (List.mem_map_of_mem he) _ hf.2⟩

theorem Container.Lists.exists_of_mem {R : Value → Yaml.Tree → Prop} {k : Container}
    {t : Yaml.Tree} (h : k.Lists R t) {v : Value} (hv : v ∈ k.values) : ∃ u, R v u := by
  have hof {ts : List Yaml.Tree} (hts : List.Forall₂ R k.values ts) : ∃ u, R v u := by
    obtain ⟨i, hi, rfl⟩ := List.mem_iff_getElem.1 hv
    exact ⟨_, hts.get hi (hts.length_eq ▸ hi)⟩
  cases h with
  | sequence h => exact hof h
  | mapping _ h => exact hof h.values

/-- A value that has a form as YAML, which a container has with its contents. -/
def Value.IsPlain : Value → Prop
  | undefined | function _ | accessor _ => False
  | _ => True

namespace Heap

open Relation

/-- Plain data with its tree. The containers in it are unfolded wherever they are. -/
inductive Unfolds (h : Heap) : Value → Yaml.Tree → Prop
  | null : Unfolds h .null .null
  | bool (b : Bool) : Unfolds h (.bool b) (.bool b)
  | int (n : Int64) : Unfolds h (.number (.int n)) (.int n.toInt)
  | float (x : Float) : Unfolds h (.number (.float x)) (.float x)
  | text (s : String) : Unfolds h (.text s) (.string s)
  -- `Unfolds` itself cannot be written under `Lists`, so a relation stands for it
  | container {r : Ref} {k : Container} {t : Yaml.Tree} {R : Value → Yaml.Tree → Prop} :
    h.get? r = some k → k.Lists R t → (∀ v u, R v u → Unfolds h v u) →
      Unfolds h (.container r) t

section

variable {h g : Heap} {v : Value} {t : Yaml.Tree}

theorem unfolds_container_iff {r : Ref} :
    h.Unfolds (.container r) t ↔ ∃ k, h.get? r = some k ∧ k.Lists h.Unfolds t := by
  constructor
  · intro ht
    cases ht with
    | container hr hk hall => exact ⟨_, hr, hk.imp fun v _ u => hall v u⟩
  · rintro ⟨k, hr, hk⟩
    exact .container hr hk fun _ _ hu => hu

theorem Unfolds.mono (ht : h.Unfolds v t) (hg : h.Extends g) : g.Unfolds v t := by
  induction ht with
  | null => exact .null
  | bool b => exact .bool b
  | int n => exact .int n
  | float x => exact .float x
  | text s => exact .text s
  | container hr hk _ ih =>
    exact .container ((hg.get?_eq _ (index_lt_of_get? hr)).trans hr) hk ih

theorem Unfolds.index_lt (ht : h.Unfolds v t) : ∀ r ∈ v.refs, r.index < h.size := by
  cases ht with
  | null | bool _ | int _ | float _ | text _ => nofun
  | container hr _ _ =>
    intro _ hmem
    cases List.mem_singleton.1 hmem
    exact index_lt_of_get? hr

/-- A container with a tree is not inside of itself. -/
theorem Unfolds.not_loop (ht : h.Unfolds v t) : ∀ r ∈ v.refs, ¬TransGen h.Holds r r := by
  induction ht with
  | null | bool _ | int _ | float _ | text _ => nofun
  | @container r k t R hr hk _ ih =>
    intro _ hmem hloop
    cases List.mem_singleton.1 hmem
    obtain ⟨q, ⟨k', hk', hq⟩, hback⟩ := TransGen.head'_iff.1 hloop
    cases hr.symm.trans hk'
    obtain ⟨w, hw, hqw⟩ := List.mem_flatMap.1 hq
    obtain ⟨u, hu⟩ := hk.exists_of_mem hw
    exact ih w u hu q hqw (TransGen.tail' hback ⟨k, hr, hq⟩)

theorem mapM_eq_some {f : α → Option β} {xs : List α} {ys : List β}
    (h : List.Forall₂ (fun x y => f x = some y) xs ys) : xs.mapM f = some ys := by
  induction h with
  | nil => rfl
  | cons hx _ ih => simp [List.mapM_cons, hx, ih]

theorem Unfolds.treeIn_eq (ht : h.Unfolds v t) {depth : Nat}
    (hdepth : ∀ r ∈ v.refs, h.height r < depth) : h.treeIn depth v = some t := by
  induction ht generalizing depth with
  | null | bool _ | int _ | float _ | text _ => simp only [treeIn]
  | @container r k t R hr hk hall ih =>
    have hpos := Nat.ne_zero_of_lt (hdepth r (List.mem_singleton_self r))
    obtain ⟨depth, rfl⟩ := Nat.exists_eq_add_one_of_ne_zero hpos
    -- what the container holds is less high, so one level less is enough for it
    have hslots : k.Lists (fun w u => h.treeIn depth w = some u) t := by
      apply hk.imp
      intro w hw u hu
      apply ih w u hu
      intro q hq
      have hholds : h.Holds r q := ⟨k, hr, List.mem_flatMap.2 ⟨w, hw, hq⟩⟩
      have hless := height_lt_of_holds hholds ((hall w u hu).index_lt q hq)
        ((hall w u hu).not_loop q hq)
      have hle := hdepth r (List.mem_singleton_self r)
      omega
    cases hslots with
    | sequence hts =>
      rw [treeIn.eq_def]
      simp only [hr, mapM_eq_some hts, Option.map_some]
    | @mapping entries fields hnames hfields =>
      have hentries : entries.mapM (fun e => (h.treeIn depth e.2).map fun u =>
          (Yaml.Tree.string e.1, u)) =
            some (fields.map fun field => (.string field.1, field.2)) := by
        apply mapM_eq_some
        rw [List.forall₂_map_right_iff]
        apply List.Forall₂.imp _ hfields
        intro e field hf
        rw [hf.2, hf.1, Option.map_some]
      rw [treeIn.eq_def]
      simp only [hr, hentries, Option.map_some]
      rfl

theorem Unfolds.tree?_eq (ht : h.Unfolds v t) : h.tree? v = some t :=
  ht.treeIn_eq fun r hr => height_lt_size (ht.index_lt r hr) (ht.not_loop r hr)

/-- A value built of null, booleans, numbers, texts and containers, none of which is in itself. -/
structure Plain (h : Heap) (v : Value) : Prop where
  plain : v.IsPlain
  contents : ∀ d, h.Reached v.refs d → ∃ k, h.get? d = some k ∧ ∀ w ∈ k.values, w.IsPlain
  distinct : ∀ d entries, h.Reached v.refs d → h.get? d = some (.mapping entries) →
    entries.keys.Nodup
  acyclic : ∀ d, h.Reached v.refs d → ¬TransGen h.Holds d d

theorem Plain.of_mem {r : Ref} {k : Container} {w : Value} (hv : h.Plain (.container r))
    (hr : h.get? r = some k) (hw : w ∈ k.values) : h.Plain w := by
  have hreached {d : Ref} (hd : h.Reached w.refs d) : h.Reached [r] d := reached_of_mem hr hw hd
  constructor
  · obtain ⟨k', hk', hplain⟩ := hv.contents r (.root (List.mem_singleton_self r))
    cases hr.symm.trans hk'
    exact hplain w hw
  · exact fun d hd => hv.contents d (hreached hd)
  · exact fun d entries hd => hv.distinct d entries (hreached hd)
  · exact fun d hd => hv.acyclic d (hreached hd)

theorem exists_lists {R : Value → Yaml.Tree → Prop} {k : Container}
    (hnames : ∀ entries, k = .mapping entries → entries.keys.Nodup)
    (h : ∀ w ∈ k.values, ∃ u, R w u) : ∃ t, k.Lists R t := by
  cases k with
  | sequence items =>
    obtain ⟨ts, hts⟩ := exists_forall₂ h
    exact ⟨_, .sequence hts⟩
  | mapping entries =>
    have hfield : ∀ e ∈ entries, ∃ field : String × Yaml.Tree, e.1 = field.1 ∧ R e.2 field.2 := by
      intro e he
      obtain ⟨u, hu⟩ := h e.2 (List.mem_map_of_mem he)
      exact ⟨(e.1, u), rfl, hu⟩
    obtain ⟨fields, hfields⟩ := exists_forall₂ hfield
    exact ⟨_, .mapping (hnames entries rfl) hfields⟩

theorem exists_unfolds_of_refs (hv : v.IsPlain) (hrefs : v.refs = []) : ∃ t, h.Unfolds v t := by
  cases v with
  | undefined | function _ | accessor _ => exact hv.elim
  | null => exact ⟨_, .null⟩
  | bool b => exact ⟨_, .bool b⟩
  | text s => exact ⟨_, .text s⟩
  | number n =>
    cases n with
    | int n => exact ⟨_, .int n⟩
    | float x => exact ⟨_, .float x⟩
  | container r => cases hrefs

theorem Plain.exists_unfolds (hv : h.Plain v) : ∃ t, h.Unfolds v t := by
  cases v with
  | container r =>
    induction hheight : h.height r using Nat.strong_induction_on generalizing r with
    | _ n ih =>
      have hself : h.Reached (Value.container r).refs r := .root (List.mem_singleton_self r)
      obtain ⟨k, hr, -⟩ := hv.contents r hself
      have hslots : ∀ w ∈ k.values, ∃ u, h.Unfolds w u := by
        intro w hw
        have hplain := hv.of_mem hr hw
        cases w with
        | container q =>
          obtain ⟨l, hq, -⟩ := hplain.contents q (.root (List.mem_singleton_self q))
          have hloop := hplain.acyclic q (.root (List.mem_singleton_self q))
          have hholds : h.Holds r q := ⟨k, hr, Container.mem_refs hw⟩
          have hless := height_lt_of_holds hholds (index_lt_of_get? hq) hloop
          exact ih _ (hheight ▸ hless) q hplain rfl
        | _ => exact exists_unfolds_of_refs hplain.plain rfl
      have hdistinct (entries : Entries) (hk : k = .mapping entries) : entries.keys.Nodup :=
        hv.distinct r entries hself (hk ▸ hr)
      obtain ⟨t, ht⟩ := exists_lists hdistinct hslots
      exact ⟨t, unfolds_container_iff.2 ⟨k, hr, ht⟩⟩
  | _ => exact exists_unfolds_of_refs hv.plain rfl

theorem Unfolds.isData (ht : h.Unfolds v t) : t.IsData := by
  induction ht with
  | null => exact .null
  | bool b => exact .bool b
  | int n => exact .int (Decimal.fitsWord_toInt n)
  | float x => exact .float x
  | text s => exact .string s
  | container hr hk _ ih =>
    cases hk with
    | sequence hts =>
      apply Yaml.Tree.IsData.sequence
      intro u hu
      obtain ⟨w, -, hwu⟩ := exists_left_of_forall₂ hts u hu
      exact ih w u hwu
    | mapping hnames hfields =>
      apply Yaml.Tree.IsData.mapping (hfields.keys ▸ hnames)
      intro u hu
      obtain ⟨w, -, hwu⟩ := exists_left_of_forall₂ hfields.values u hu
      exact ih w u hwu

end

end Heap

namespace Load.Build

open Heap

theorem plainItems_ok {ts : List Yaml.Tree}
    (hts : ∀ t ∈ ts, ∀ h, ∃ v g, plain t h = .ok (v, g) ∧ h.Extends g ∧ g.Unfolds v t) (h : Heap) :
    ∃ vs g, plainItems ts h = .ok (vs, g) ∧ h.Extends g ∧ List.Forall₂ g.Unfolds vs ts := by
  induction ts generalizing h with
  | nil => exact ⟨[], h, rfl, .refl h, .nil⟩
  | cons t ts ih =>
    rw [List.forall_mem_cons] at hts
    obtain ⟨v, g, hv, hg, ht⟩ := hts.1 h
    obtain ⟨vs, g', hvs, hg', htrees⟩ := ih hts.2 g
    have hrun : plainItems (t :: ts) h = .ok (v :: vs, g') := by
      simp only [plainItems, bind_apply, hv, hvs, pure_apply]
    exact ⟨v :: vs, g', hrun, hg.trans hg', .cons (ht.mono hg') htrees⟩

theorem plainEntries_ok {fields : Slots Yaml.Tree}
    (hfields : ∀ t ∈ fields.values, ∀ h, ∃ v g, plain t h = .ok (v, g) ∧ h.Extends g ∧
      g.Unfolds v t) {done : Entries} {before : Slots Yaml.Tree} {h : Heap}
    (hdone : Slots.Rel h.Unfolds done before) (hnames : (before.keys ++ fields.keys).Nodup) :
    ∃ entries g, plainEntries done (fields.map fun field => (.string field.1, field.2)) h =
        .ok (entries, g) ∧ h.Extends g ∧ Slots.Rel g.Unfolds entries (before ++ fields) := by
  induction fields generalizing done before h with
  | nil => exact ⟨done, h, rfl, .refl h, by rwa [List.append_nil]⟩
  | cons field rest ih =>
    obtain ⟨name, t⟩ := field
    obtain ⟨ht, hrest⟩ := List.forall_mem_cons.1 hfields
    obtain ⟨v, g, hv, hg, htree⟩ := ht h
    have hnew : name ∉ done.keys := by
      rw [hdone.keys]
      exact fun hmem => List.disjoint_of_nodup_append hnames hmem (List.mem_cons_self ..)
    have hmore : Slots.Rel g.Unfolds (done ++ [(name, v)]) (before ++ [(name, t)]) :=
      List.rel_append (hdone.imp fun _ _ hu => hu.mono hg) (.cons ⟨rfl, htree⟩ .nil)
    have hsplit : before ++ (name, t) :: rest = before ++ [(name, t)] ++ rest := by simp
    have hkeys : (Slots.keys (before ++ [(name, t)]) ++ Slots.keys rest).Nodup := by
      simpa [Slots.keys] using hnames
    obtain ⟨entries, g', hentries, hg', hall⟩ := ih hrest hmore hkeys
    have hrun : plainEntries done (((name, t) :: rest).map fun field => (.string field.1, field.2))
        h = .ok (entries, g') := by
      simp only [List.map_cons, plainEntries, bind_apply, liftM_apply, Yaml.Tree.key, Except.map,
        hv, Slots.put_of_not_mem hnew, hentries]
    exact ⟨entries, g', hrun, hg.trans hg', hsplit ▸ hall⟩

/-- Every tree of plain data is built, on whatever heap, and the value unfolds to the tree. -/
theorem plain_ok {t : Yaml.Tree} (ht : t.IsData) (h : Heap) :
    ∃ v g, plain t h = .ok (v, g) ∧ h.Extends g ∧ g.Unfolds v t := by
  induction ht generalizing h with
  | null => exact ⟨.null, h, rfl, .refl h, .null⟩
  | bool b => exact ⟨.bool b, h, rfl, .refl h, .bool b⟩
  | @int n hn =>
    have hrun : plain (.int n) h = .ok (.number (.int (.ofInt n)), h) := by
      simp only [plain, Yaml.Tree.scalar, Number.ofInt, if_pos hn, pure_apply]
    refine ⟨_, h, hrun, .refl h, ?_⟩
    have hback := Unfolds.int (h := h) (.ofInt n)
    rwa [Decimal.toInt_ofInt hn] at hback
  | float x => exact ⟨.number (.float x), h, rfl, .refl h, .float x⟩
  | string s => exact ⟨.text s, h, rfl, .refl h, .text s⟩
  | @sequence ts _ ih =>
    obtain ⟨vs, g, hvs, hg, htrees⟩ := plainItems_ok ih h
    have hrun : plain (.sequence ts) h =
        .ok (.container ⟨g.size⟩, (g.alloc (.sequence vs.toArray)).2) := by
      simp only [plain, bind_apply, hvs, alloc, pure_apply, Heap.alloc]
    have halloc := Extends.alloc g (.sequence vs.toArray)
    refine ⟨_, _, hrun, hg.trans halloc, ?_⟩
    apply unfolds_container_iff.2 ⟨_, g.get?_alloc_self _, .sequence ?_⟩
    exact htrees.imp fun _ _ hu => hu.mono halloc
  | @mapping fields hnames _ ih =>
    obtain ⟨entries, g, hentries, hg, hfields⟩ := plainEntries_ok ih .nil (h := h) hnames
    have hrun : plain (.ofFields fields) h =
        .ok (.container ⟨g.size⟩, (g.alloc (.mapping entries)).2) := by
      simp only [Yaml.Tree.ofFields, plain, bind_apply, hentries, alloc, pure_apply, Heap.alloc]
    have halloc := Extends.alloc g (.mapping entries)
    refine ⟨_, _, hrun, hg.trans halloc, ?_⟩
    apply unfolds_container_iff.2 ⟨_, g.get?_alloc_self _, .mapping ?_ ?_⟩
    · rw [hfields.keys]
      exact hnames
    · exact hfields.imp fun _ _ hu => hu.mono halloc

end Load.Build

/-- Values that are alike with all that they hold, whichever containers are shared in them. -/
def Value.Bisimilar (h : Heap) (v : Value) (h' : Heap) (v' : Value) : Prop :=
  ∃ ρ, (∀ r r', ρ r r' → ∃ k k', h.get? r = some k ∧ h'.get? r' = some k' ∧ k.Alike ρ k') ∧
    v.Alike ρ v'

namespace Heap

def SameTree (h h' : Heap) (r r' : Ref) : Prop :=
  ∃ t, h.Unfolds (.container r) t ∧ h'.Unfolds (.container r') t

section

variable {h h' : Heap} {v v' : Value} {t : Yaml.Tree}

theorem ofFields_injective {fields fields' : Slots Yaml.Tree}
    (hf : Yaml.Tree.ofFields fields = .ofFields fields') : fields = fields' := by
  have hmap := Yaml.Tree.mapping.inj hf
  refine List.map_injective_iff.2 ?_ hmap
  rintro ⟨name, t⟩ ⟨name', t'⟩ heq
  cases heq
  rfl

/-- Values with one tree are alike. -/
theorem Unfolds.alike (ht : h.Unfolds v t) (ht' : h'.Unfolds v' t) :
    v.Alike (SameTree h h') v' := by
  cases ht with
  | container hr hk hall =>
    cases ht' with
    | container hr' hk' hall' =>
      exact .container ⟨t, .container hr hk hall, .container hr' hk' hall'⟩
    | _ => cases hk
  | int n =>
    generalize hn : n.toInt = m at ht'
    cases ht' with
    | int n' =>
      cases Int64.toInt_inj.1 hn
      exact .data trivial
    | container _ hk' _ => cases hk'
  | null | bool _ | float _ | text _ =>
    cases ht' with
    | container _ hk' _ => cases hk'
    | _ => exact .data trivial

theorem alike_of_lists {k k' : Container} (hk : k.Lists h.Unfolds t)
    (hk' : k'.Lists h'.Unfolds t) : k.Alike (SameTree h h') k' := by
  cases hk with
  | sequence hts =>
    cases hk' with
    | sequence hts' => exact .sequence (forall₂_of_common hts hts' fun _ _ _ => Unfolds.alike)
  | @mapping entries fields _ hfields =>
    generalize heq : Yaml.Tree.ofFields fields = u at hk'
    cases hk' with
    | sequence _ => cases heq
    | mapping _ hfields' =>
      cases ofFields_injective heq
      apply Container.Alike.mapping
      apply forall₂_of_common hfields hfields'
      intro e e' field hf hf'
      exact ⟨hf.1.trans hf'.1.symm, hf.2.alike hf'.2⟩

theorem Unfolds.bisimilar (ht : h.Unfolds v t) (ht' : h'.Unfolds v' t) :
    Value.Bisimilar h v h' v' := by
  refine ⟨SameTree h h', ?_, ht.alike ht'⟩
  rintro r r' ⟨u, hu, hu'⟩
  obtain ⟨k, hr, hk⟩ := unfolds_container_iff.1 hu
  obtain ⟨k', hr', hk'⟩ := unfolds_container_iff.1 hu'
  exact ⟨k, k', hr, hr', alike_of_lists hk hk'⟩

end

end Heap

/-- A tree of plain data is built on every heap, and the value is written as this tree. The tree of
plain data that is not in itself is such a tree, and what is built from it has the contents of the
value that it is the tree of, with all names in their order. -/
theorem Load.plain_round_trip :
    (∀ t : Yaml.Tree, t.IsData → ∀ h, ∃ v g, Build.plain t h = .ok (v, g) ∧ g.tree? v = some t) ∧
    ∀ h v, Heap.Plain h v → ∃ t, h.tree? v = some t ∧ t.IsData ∧
      ∀ h', ∃ v' g, Build.plain t h' = .ok (v', g) ∧ Value.Bisimilar h v g v' := by
  constructor
  · intro t ht h
    obtain ⟨v, g, hr, -, hv⟩ := Build.plain_ok ht h
    exact ⟨v, g, hr, hv.tree?_eq⟩
  · intro h v hv
    obtain ⟨t, ht⟩ := hv.exists_unfolds
    refine ⟨t, ht.tree?_eq, ht.isData, fun h' => ?_⟩
    obtain ⟨v', g, hr, -, hv'⟩ := Build.plain_ok ht.isData h'
    exact ⟨v', g, hr, ht.bisimilar hv'⟩

def Heap.shared : Heap where
  containers := #[.mapping [("b", .null), ("a", .number (.int 1))],
    .sequence #[.container ⟨0⟩, .container ⟨0⟩]]

theorem Heap.shared_cases {d : Ref} {k : Container} (hk : shared.get? d = some k) :
    d = ⟨0⟩ ∧ k = .mapping [("b", .null), ("a", .number (.int 1))] ∨
      d = ⟨1⟩ ∧ k = .sequence #[.container ⟨0⟩, .container ⟨0⟩] := by
  obtain ⟨i⟩ := d
  have hi : i < 2 := index_lt_of_get? hk
  interval_cases i <;> cases hk <;> simp [shared]

/-- A container that is shared is built twice. -/
theorem Load.plain_round_trip_of_shared :
    ∃ t v g, Heap.shared.tree? (.container ⟨1⟩) = some t ∧ Build.plain t {} = .ok (v, g) ∧
      g.tree? v = some t ∧ Value.Bisimilar Heap.shared (.container ⟨1⟩) g v := by
  have hholds {d r : Ref} (hd : Heap.shared.Holds d r) : d = ⟨1⟩ ∧ r = ⟨0⟩ := by
    obtain ⟨k, hk, hr⟩ := hd
    rcases Heap.shared_cases hk with ⟨rfl, rfl⟩ | ⟨rfl, rfl⟩
    · cases hr
    · exact ⟨rfl, by simpa [Container.refs, Container.values, Value.refs] using hr⟩
  have hreached {d : Ref} (hd : Heap.shared.Reached [⟨1⟩] d) : d = ⟨0⟩ ∨ d = ⟨1⟩ := by
    cases hd with
    | root hr => exact .inr (List.mem_singleton.1 hr)
    | slot _ hk hr => exact .inl (hholds ⟨_, hk, hr⟩).2
  have hplain : Heap.shared.Plain (.container ⟨1⟩) := by
    constructor
    · trivial
    · intro d hd
      rcases hreached hd with rfl | rfl
      · exact ⟨_, rfl, by simp [Heap.shared, Container.values, Slots.values, Value.IsPlain]⟩
      · exact ⟨_, rfl, by simp [Heap.shared, Container.values, Value.IsPlain]⟩
    · intro d entries _ hk
      rcases Heap.shared_cases hk with ⟨-, hentries⟩ | ⟨-, hentries⟩ <;> cases hentries
      decide
    · have hlower : ∀ d r, Heap.shared.Holds d r → r.index < d.index := by
        intro d r hd
        obtain ⟨rfl, rfl⟩ := hholds hd
        decide
      exact fun d _ => Heap.acyclic_of_lt hlower d
  obtain ⟨t, ht, hdata, hback⟩ := plain_round_trip.2 Heap.shared _ hplain
  obtain ⟨v, g, hr, hv⟩ := hback {}
  obtain ⟨v', g', hr', hv'⟩ := plain_round_trip.1 t hdata {}
  cases hr.symm.trans hr'
  exact ⟨t, v, g, ht, hr, hv', hv⟩

end LiveDoc
