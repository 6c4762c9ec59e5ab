import LiveDoc.Proofs.PlainData

namespace LiveDoc

namespace Yaml.Tree

mutual

def untagged : Tree → Tree
  | .sequence ts => .sequence (untaggedItems ts)
  | .mapping es => .mapping (untaggedEntries es)
  | .tagged _ t => untagged t
  | t => t
termination_by structural t => t

def untaggedItems : List Tree → List Tree
  | [] => []
  | t :: ts => untagged t :: untaggedItems ts
termination_by structural ts => ts

def untaggedEntries : List (Tree × Tree) → List (Tree × Tree)
  | [] => []
  | (key, t) :: rest => (untagged key, untagged t) :: untaggedEntries rest
termination_by structural es => es

end

def branch? : Tree → Option Tree
  | .tagged _ t => branch? t
  | .sequence ts => some (.sequence ts)
  | .mapping es => some (.mapping es)
  | _ => none

mutual

/-- The keys of a tree that are sequences or mappings, in the order in which they are written. -/
def branchKeys : Tree → List Tree
  | .sequence ts => branchKeysOfItems ts
  | .mapping es => branchKeysOfEntries es
  | .tagged _ t => branchKeys t
  | _ => []
termination_by structural t => t

def branchKeysOfItems : List Tree → List Tree
  | [] => []
  | t :: ts => branchKeys t ++ branchKeysOfItems ts
termination_by structural ts => ts

def branchKeysOfEntries : List (Tree × Tree) → List Tree
  | [] => []
  | (key, t) :: rest => key.branch?.toList ++ (branchKeys t ++ branchKeysOfEntries rest)
termination_by structural es => es

end

/-- An accessor but for the tags in front of it, which a slot does not make an accessor of. -/
def IsTaggedAccessor (c : Config) : Tree → Prop
  | .tagged _ t => t.untagged.IsAccessor c
  | _ => False

theorem key_untagged (t : Tree) :
    (∃ name, t.branch? = none ∧ t.key = .ok name ∧ t.untagged.key = .ok name) ∨
      ∃ key, t.branch? = some key ∧ t.key = .error (.unsupportedKey (Printer.render key)) ∧
        t.untagged.key = .error (.unsupportedKey (Printer.render key.untagged)) := by
  match t with
  | .tagged _ t => exact key_untagged t
  | .sequence _ | .mapping _ => exact .inr ⟨_, rfl, rfl, rfl⟩
  | .null | .bool _ | .int _ | .float _ | .string _ => exact .inl ⟨_, rfl, rfl, rfl⟩

end Yaml.Tree

namespace Load.Build

open Yaml.Tree

/-- Two builds that differ at most in how they show the first of some keys, which makes both of them
fail. -/
def SameButKeys (keys : List Yaml.Tree) (m m' : Build α) : Prop :=
  ∀ h, (m h = m' h ∧ ∀ r, m h = .ok r → keys = []) ∨ ∃ key ∈ keys.head?,
    m h = .error (.unsupportedKey (Yaml.Printer.render key)) ∧
    m' h = .error (.unsupportedKey (Yaml.Printer.render key.untagged))

section

variable {keys keys' : List Yaml.Tree} {m m' : Build α}

theorem SameButKeys.refl (m : Build α) : SameButKeys [] m m :=
  fun _ => .inl ⟨rfl, fun _ _ => rfl⟩

theorem SameButKeys.bind {f f' : α → Build β} (hm : SameButKeys keys m m')
    (hf : ∀ a, SameButKeys keys' (f a) (f' a)) :
    SameButKeys (keys ++ keys') (m >>= f) (m' >>= f') := by
  intro h
  rw [bind_apply, bind_apply]
  rcases hm h with ⟨heq, hok⟩ | ⟨key, hkey, he, he'⟩
  · -- no key of the first build is left to fail for, if that has a result
    cases hr : m h with
    | error e =>
      rw [← heq, hr]
      exact .inl ⟨rfl, nofun⟩
    | ok p =>
      rw [← heq, hr, hok p hr]
      exact hf p.1 p.2
  · rw [he, he', List.head?_append, Option.mem_def.1 hkey]
    exact .inr ⟨key, rfl, rfl, rfl⟩

theorem SameButKeys.bind_same (hm : SameButKeys keys m m') (f : α → Build β) :
    SameButKeys keys (m >>= f) (m' >>= f) := by
  rw [← List.append_nil keys]
  exact hm.bind fun _ => .refl _

theorem sameButKeys_key (key : Yaml.Tree) :
    SameButKeys key.branch?.toList (liftM key.key) (liftM key.untagged.key) := by
  intro h
  rw [liftM_apply, liftM_apply]
  rcases key_untagged key with ⟨name, hnone, hname, hname'⟩ | ⟨branch, hsome, he, he'⟩
  · rw [hname, hname', hnone]
    exact .inl ⟨rfl, fun _ _ => rfl⟩
  · rw [he, he', hsome]
    exact .inr ⟨branch, rfl, rfl, rfl⟩

end

section

variable {c : Config} {document : String → Build Value}

/-- In a slot that does not make an accessor of it, a node is what it is without its tags. -/
theorem SameButKeys.place (hd : ∀ q, Grows (document q)) {t : Yaml.Tree}
    (ht : ¬t.IsTaggedAccessor c) {d : Ref} {keys keys' : List Yaml.Tree}
    (hm : SameButKeys keys (resolve c document (some d) t)
      (resolve c document (some d) t.untagged)) (name : String) {f f' : Value → Build α}
    (hf : ∀ w, SameButKeys keys' (f w) (f' w)) :
    SameButKeys (keys ++ keys')
      (resolve c document (some d) t >>= fun v => place c d name t v >>= f)
      (resolve c document (some d) t.untagged >>= fun v =>
        place c d name t.untagged v >>= f') := by
  match t with
  | .tagged tag t =>
    rw [bind_place hd (t := untagged (.tagged tag t)) ht,
      bind_place hd (t := .tagged tag t) fun h => h]
    exact hm.bind hf
  | .mapping es =>
    refine hm.bind fun v => ?_
    cases v with
    | container r => exact (SameButKeys.refl _).bind hf
    | _ => exact hf _
  | .sequence _ | .null | .bool _ | .int _ | .float _ | .string _ => exact hm.bind hf

mutual

theorem resolve_untagged (hd : ∀ q, Grows (document q)) (t : Yaml.Tree)
    (ht : ∀ s n, t.Within s → n ∈ s.children → ¬n.IsTaggedAccessor c) (owner : Option Ref) :
    SameButKeys t.branchKeys (resolve c document owner t)
      (resolve c document owner t.untagged) := by
  match t with
  | .sequence ts =>
    simp only [untagged, resolve]
    refine (SameButKeys.refl _).bind fun r => ?_
    refine SameButKeys.bind_same (resolveItems_untagged hd ts ?_ r 0) _
    exact fun n hn => ⟨ht _ n .here hn, fun s m hs => ht s m (.child hn hs)⟩
  | .mapping es =>
    simp only [untagged, resolve]
    refine (SameButKeys.refl _).bind fun r => ?_
    refine SameButKeys.bind_same (resolveEntries_untagged hd es ?_ r []) _
    intro e he
    have hmem : e.2 ∈ (Yaml.Tree.mapping es).children := List.mem_map_of_mem he
    exact ⟨ht _ _ .here hmem, fun s m hs => ht s m (.child hmem hs)⟩
  | .tagged _ t =>
    simp only [untagged, resolve]
    exact resolve_untagged hd t (fun s n hs => ht s n (.tagged hs)) owner
  | .null | .bool _ | .int _ | .float _ | .string _ => exact .refl _

theorem resolveItems_untagged (hd : ∀ q, Grows (document q)) (ts : List Yaml.Tree)
    (hts : ∀ n ∈ ts, ¬n.IsTaggedAccessor c ∧
      ∀ s m, n.Within s → m ∈ s.children → ¬m.IsTaggedAccessor c) (d : Ref) (index : Nat) :
    SameButKeys (branchKeysOfItems ts) (resolveItems c document d index ts)
      (resolveItems c document d index (untaggedItems ts)) := by
  match ts with
  | [] => exact .refl _
  | t :: ts =>
    rw [List.forall_mem_cons] at hts
    simp only [untaggedItems, resolveItems]
    apply SameButKeys.place hd hts.1.1 (resolve_untagged hd t hts.1.2 (some d))
    intro w
    exact SameButKeys.bind_same (resolveItems_untagged hd ts hts.2 d (index + 1)) _

theorem resolveEntries_untagged (hd : ∀ q, Grows (document q))
    (es : List (Yaml.Tree × Yaml.Tree))
    (hes : ∀ e ∈ es, ¬e.2.IsTaggedAccessor c ∧
      ∀ s m, e.2.Within s → m ∈ s.children → ¬m.IsTaggedAccessor c) (d : Ref) (done : Entries) :
    SameButKeys (branchKeysOfEntries es) (resolveEntries c document d done es)
      (resolveEntries c document d done (untaggedEntries es)) := by
  match es with
  | [] => exact .refl _
  | (key, t) :: rest =>
    rw [List.forall_mem_cons] at hes
    simp only [untaggedEntries, resolveEntries]
    refine SameButKeys.bind (sameButKeys_key key) fun name => ?_
    apply SameButKeys.place hd hes.1.1 (resolve_untagged hd t hes.1.2 (some d))
    intro w
    exact resolveEntries_untagged hd rest hes.2 d (done.put name w)

end

end

end Load.Build

namespace Load

/-- If no accessor in a slot has a tag, a tree is resolved as it is without its tags: both give the
same value on the same heap, or the same failure. The exception is a key that is a sequence or a
mapping. Then both fail for the first one in the tree, and each shows what is printed of it as it
stands there: with the tags inside of it or without them, and nothing if the printer refuses it. -/
theorem resolve_without_tags (engine : Line.Engine) (c : Config) (files : Files) (reader : Reader)
    {t : Yaml.Tree} (ht : ∀ s n, t.Within s → n ∈ s.children → ¬n.IsTaggedAccessor c) (h : Heap) :
    resolve engine c files reader t h = resolve engine c files reader t.untagged h ∨
      ∃ key ∈ t.branchKeys.head?,
        resolve engine c files reader t h =
          .error (.unsupportedKey (Yaml.Printer.render key)) ∧
        resolve engine c files reader t.untagged h =
          .error (.unsupportedKey (Yaml.Printer.render key.untagged)) := by
  rw [resolve_apply, resolve_apply]
  cases Line.Patterns.compile engine c with
  | error e => exact .inl rfl
  | ok p => exact (Build.resolve_untagged (Loader.grows_document _ []) t ht none h).imp_left (·.1)

/-- Tags on a mapping, on its key and on the function behind it. -/
theorem resolve_without_tags_of_mapping : ∃ r,
    resolve (fun _ => none) {} (Collection.files []) .yaml (.tagged "m" (.mapping
      [(.tagged "k" (.string "a"), .tagged "f" (.string "__YAML_SCRIPT_FN__() return 1;"))])) {} =
        .ok r ∧
    resolve (fun _ => none) {} (Collection.files []) .yaml
      (.mapping [(.string "a", .string "__YAML_SCRIPT_FN__() return 1;")]) {} = .ok r := by
  have ht : ∀ s n, (Yaml.Tree.tagged "m" (.mapping [(.tagged "k" (.string "a"),
      .tagged "f" (.string "__YAML_SCRIPT_FN__() return 1;"))])).Within s → n ∈ s.children →
      ¬n.IsTaggedAccessor {} := by
    intro s n hs hn
    rcases hs with _ | hs | ⟨hm, -⟩
    · cases hn
    · rcases hs with _ | _ | ⟨hm, hs⟩
      · cases List.mem_singleton.1 hn
        exact id
      · cases List.mem_singleton.1 hm
        rcases hs with _ | hs | ⟨hm, -⟩
        · cases hn
        · rcases hs with _ | _ | ⟨hm, -⟩
          · cases hn
          · cases hm
        · cases hm
    · cases hm
  have heq := resolve_without_tags (fun _ => none) {} (Collection.files []) .yaml ht {}
  obtain ⟨r, hr⟩ : ∃ r, resolve (fun _ => none) {} (Collection.files []) .yaml
      (.tagged "m" (.mapping [(.tagged "k" (.string "a"),
        .tagged "f" (.string "__YAML_SCRIPT_FN__() return 1;"))])) {} = .ok r := ⟨_, by cbv⟩
  rw [hr] at heq
  refine ⟨r, hr, ?_⟩
  rcases heq with heq | ⟨_, _, he, _⟩
  · exact heq.symm
  · cases he

/-- A tag in front of an accessor makes a mapping of it. A key that is a sequence is shown with the
tag in it, and not at all with a tag inside of that. -/
theorem resolve_without_tags_ne :
    (∃ v g v' g', resolve (fun _ => none) {} (Collection.files []) .yaml
        (.mapping [(.string "p", .tagged "t" (.mapping
          [(.string "get", .string "__YAML_SCRIPT_FN__() return 1;")]))]) {} = .ok (v, g) ∧
      resolve (fun _ => none) {} (Collection.files []) .yaml
        (.mapping [(.string "p", .mapping
          [(.string "get", .string "__YAML_SCRIPT_FN__() return 1;")])]) {} = .ok (v', g') ∧
      ¬Value.Isomorphic g v g' v') ∧
    resolve (fun _ => none) {} (Collection.files []) .yaml
        (.mapping [(.sequence [.tagged "a" (.int 1)], .null)]) {} =
      .error (.unsupportedKey "- !a 1") ∧
    resolve (fun _ => none) {} (Collection.files []) .yaml
        (.mapping [(.sequence [.tagged "a" (.tagged "b" (.int 1))], .null)]) {} =
      .error (.unsupportedKey "") ∧
    resolve (fun _ => none) {} (Collection.files []) .yaml
        (.mapping [(.sequence [.int 1], .null)]) {} =
      .error (.unsupportedKey "- 1") := by
  refine ⟨⟨_, _, _, _, by cbv, by cbv, ?_⟩, by cbv, by cbv, by cbv⟩
  rintro ⟨ρ, hρ, hv⟩
  cases hv with
  | data hv => exact hv
  | container hr =>
    obtain ⟨k, k', hk, hk', hkk⟩ := hρ.contents _ _ hr
    cases hk
    cases hk'
    cases hkk with
    | mapping hrel =>
      cases hrel with
      | cons hslot _ =>
        have hvalues := hslot.2
        cases hvalues

end Load

end LiveDoc
