import LiveDoc.Load.Resolve

namespace LiveDoc.Load

namespace Build

theorem pure_apply (a : α) (h : Heap) : (pure a : Build α) h = .ok (a, h) := rfl

theorem throw_apply (e : LoadError) (h : Heap) : (throw e : Build α) h = .error e := rfl

theorem liftM_apply (x : Except LoadError α) (h : Heap) :
    (liftM x : Build α) h = x.map fun a => (a, h) := by
  cases x <;> rfl

theorem bind_apply (m : Build α) (f : α → Build β) (h : Heap) :
    (m >>= f) h = match m h with
      | .ok (a, h) => f a h
      | .error e => .error e := by
  change (m h >>= fun p => f p.1 p.2) = _
  cases m h <;> rfl

theorem bind_eq_ok {m : Build α} {f : α → Build β} {h : Heap} {r : β × Heap} :
    (m >>= f) h = .ok r ↔ ∃ a h', m h = .ok (a, h') ∧ f a h' = .ok r := by
  rw [bind_apply]
  cases m h with
  | error e => simp
  | ok p =>
    cases p
    simp [and_assoc]

theorem bind_eq_error {m : Build α} {f : α → Build β} {h : Heap} {e : LoadError} :
    (m >>= f) h = .error e ↔
      m h = .error e ∨ ∃ a h', m h = .ok (a, h') ∧ f a h' = .error e := by
  rw [bind_apply]
  cases m h with
  | error e' => simp
  | ok p =>
    cases p
    simp [and_assoc]

theorem liftM_eq_ok {x : Except LoadError α} {h h' : Heap} {a : α} :
    (liftM x : Build α) h = .ok (a, h') ↔ x = .ok a ∧ h' = h := by
  cases x with
  | error e => simp [liftM_apply, Except.map]
  | ok b => simp [liftM_apply, Except.map, eq_comm]

theorem liftM_eq_error {x : Except LoadError α} {h : Heap} {e : LoadError} :
    (liftM x : Build α) h = .error e ↔ x = .error e := by
  cases x <;> simp [liftM_apply, Except.map]

theorem accessor_eq_ok {c : Config} {owner : Ref} {name : String} {entries : Entries} {v : Value} :
    accessor c owner name entries = .ok v ↔
      ∃ getter setter, half owner name entries c.getKey = .ok getter ∧
        half owner name entries c.setKey = .ok setter ∧ v = .accessor ⟨getter, setter⟩ := by
  rw [accessor]
  cases half owner name entries c.getKey <;> cases half owner name entries c.setKey <;>
    simp [bind, Except.bind, pure, Except.pure, eq_comm]

theorem accessor_eq_error {c : Config} {owner : Ref} {name : String} {entries : Entries}
    {e : LoadError} : accessor c owner name entries = .error e →
      ∃ key, half owner name entries key = .error e := by
  rw [accessor]
  cases hg : half owner name entries c.getKey with
  | error e' =>
    rintro he
    cases he
    exact ⟨_, hg⟩
  | ok getter =>
    cases hs : half owner name entries c.setKey with
    | error e' =>
      rintro he
      cases he
      exact ⟨_, hs⟩
    | ok setter => nofun

def placed (c : Config) (h : Heap) (owner : Ref) (name : String) (node : Yaml.Tree) (v : Value) :
    Except LoadError Value :=
  match node, v with
  | .mapping _, .container r =>
    match h.entries? r with
    | some entries =>
      if c.isAccessorKeySet entries.keys then accessor c owner name entries else .ok v
    | none => .ok v
  | _, _ => .ok v

theorem place_apply (c : Config) (owner : Ref) (name : String) (node : Yaml.Tree) (v : Value)
    (h : Heap) :
    place c owner name node v h = (placed c h owner name node v).map fun w => (w, h) := by
  cases node with
  | mapping =>
    cases v with
    | container r =>
      rw [place, bind_apply, placed]
      change (match h.entries? r with | some _ => _ | none => _ : Build Value) h = _
      cases h.entries? r with
      | none => rfl
      | some entries =>
        simp only
        split
        · exact liftM_apply ..
        · rfl
    | _ => rfl
  | _ => rfl

theorem place_eq_ok {c : Config} {owner : Ref} {name : String} {node : Yaml.Tree} {v w : Value}
    {h h' : Heap} : place c owner name node v h = .ok (w, h') ↔
      placed c h owner name node v = .ok w ∧ h' = h := by
  rw [place_apply]
  cases placed c h owner name node v with
  | error e => simp [Except.map]
  | ok u => simp [Except.map, eq_comm]

theorem place_eq_error {c : Config} {owner : Ref} {name : String} {node : Yaml.Tree} {v : Value}
    {h : Heap} {e : LoadError} : place c owner name node v h = .error e ↔
      placed c h owner name node v = .error e := by
  rw [place_apply]
  cases placed c h owner name node v <;> simp [Except.map]

section

variable {c : Config} {document : String → Build Value} {h h' : Heap}

theorem function_eq_ok {owner : Option Ref} {params : List String} {source : String} {v : Value} :
    function owner params source h = .ok (v, h') ↔
      ∃ body, Script.Program.ofSource source = .ok body ∧
        v = .function ⟨⟨h.definitions, params, source, body⟩, owner⟩ ∧
        h' = { h with definitions := h.definitions + 1 } := by
  rw [function, Heap.compile]
  cases Script.Program.ofSource source with
  | error e => simp [Except.map]
  | ok body => simp [Except.map, Heap.define, eq_comm]

theorem text_eq_ok {owner : Option Ref} {s : String} {r : Value × Heap} :
    text document owner s h = .ok r ↔
      (Signal.detect s = .ok none ∧ r = (.text s, h)) ∨
      (∃ params body, Signal.detect s = .ok (some (.function params body)) ∧
        function owner params body h = .ok r) ∨
      ∃ path, Signal.detect s = .ok (some (.inclusion path)) ∧ document path h = .ok r := by
  cases hs : Signal.detect s with
  | error kind => cases kind <;> simp [text, hs, throw_apply]
  | ok signal =>
    rcases signal with _ | ⟨params, body⟩ | path
    · simp [text, hs, pure_apply, eq_comm]
    · simp [text, hs, and_assoc]
    · simp [text, hs]

theorem resolve_sequence_eq_ok {owner : Option Ref} {ts : List Yaml.Tree} {v : Value} :
    resolve c document owner (.sequence ts) h = .ok (v, h') ↔
      ∃ items h₁, resolveItems c document ⟨h.size⟩ 0 ts (h.alloc (.sequence #[])).2 =
        .ok (items, h₁) ∧ v = .container ⟨h.size⟩ ∧
        h' = h₁.set ⟨h.size⟩ (.sequence items.toArray) := by
  rw [resolve, bind_apply]
  change (_ >>= _ : Build Value) _ = _ ↔ _
  rw [bind_eq_ok]
  refine exists_congr fun items => exists_congr fun h₁ => and_congr_right fun _ => ?_
  change Except.ok _ = _ ↔ _
  simp [eq_comm]

theorem resolve_mapping_eq_ok {owner : Option Ref} {es : List (Yaml.Tree × Yaml.Tree)}
    {v : Value} :
    resolve c document owner (.mapping es) h = .ok (v, h') ↔
      ∃ entries h₁, resolveEntries c document ⟨h.size⟩ [] es (h.alloc (.mapping [])).2 =
        .ok (entries, h₁) ∧ v = .container ⟨h.size⟩ ∧
        h' = h₁.set ⟨h.size⟩ (.mapping entries) := by
  rw [resolve, bind_apply]
  change (_ >>= _ : Build Value) _ = _ ↔ _
  rw [bind_eq_ok]
  refine exists_congr fun items => exists_congr fun h₁ => and_congr_right fun _ => ?_
  change Except.ok _ = _ ↔ _
  simp [eq_comm]

theorem resolveItems_cons_eq_ok {owner : Ref} {index : Nat} {t : Yaml.Tree}
    {ts : List Yaml.Tree} {vs : List Value} :
    resolveItems c document owner index (t :: ts) h = .ok (vs, h') ↔
      ∃ v h₁ w ws, resolve c document (some owner) t h = .ok (v, h₁) ∧
        placed c h₁ owner (toString index) t v = .ok w ∧
        resolveItems c document owner (index + 1) ts h₁ = .ok (ws, h') ∧ vs = w :: ws := by
  rw [resolveItems, bind_eq_ok]
  refine exists_congr fun v => exists_congr fun h₁ => ?_
  simp only [bind_eq_ok, place_eq_ok, pure_apply, Except.ok.injEq, Prod.mk.injEq]
  grind

theorem resolveEntries_cons_eq_ok {owner : Ref} {done : Entries} {key t : Yaml.Tree}
    {rest : List (Yaml.Tree × Yaml.Tree)} {r : Entries × Heap} :
    resolveEntries c document owner done ((key, t) :: rest) h = .ok r ↔
      ∃ name v h₁ w, key.key = .ok name ∧ resolve c document (some owner) t h = .ok (v, h₁) ∧
        placed c h₁ owner name t v = .ok w ∧
        resolveEntries c document owner (done.put name w) rest h₁ = .ok r := by
  simp only [resolveEntries, bind_eq_ok, place_eq_ok, liftM_eq_ok]
  grind

end

end Build

theorem resolve_apply (engine : Line.Engine) (c : Config) (files : Files) (reader : Reader)
    (t : Yaml.Tree) (h : Heap) :
    resolve engine c files reader t h =
      match Line.Patterns.compile engine c with
      | .ok patterns => Build.resolve c (Loader.file ⟨patterns, files, reader⟩) none t h
      | .error e => .error e := by
  rw [resolve, Build.bind_apply, Build.liftM_apply, Loader.make]
  cases hp : Line.Patterns.compile engine c with
  | error e => rfl
  | ok patterns =>
    have hconfig : Loader.config ⟨patterns, files, reader⟩ = c :=
      Line.Patterns.config_of_compile hp
    simp only [Except.map, Loader.node, hconfig]

end LiveDoc.Load
