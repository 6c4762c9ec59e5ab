import LiveDoc.Proofs.Inclusion
import Mathlib.Data.Finset.Dedup

namespace LiveDoc

namespace Yaml.Tree

def names (es : List (Tree × Tree)) : List String :=
  es.filterMap fun e => e.1.key.toOption

/-- The nodes of a mapping by their names. Of two with one name the first gives the place, and the
last the node. -/
def fields (done : Slots Tree) : List (Tree × Tree) → Slots Tree
  | [] => done
  | (key, node) :: rest =>
    match key.key with
    | .ok name => fields (done.put name node) rest
    | .error _ => fields done rest

def nodes : Tree → List Tree
  | .sequence ts => ts
  | .mapping es => (fields [] es).values
  | _ => []

def children : Tree → List Tree
  | .sequence ts => ts
  | .mapping es => es.map (·.2)
  | _ => []

/-- The nodes of a tree that are not in keys. -/
inductive Within : Tree → Tree → Prop
  | here {t : Tree} : Within t t
  | tagged {tag : String} {t u : Tree} : Within t u → Within (.tagged tag t) u
  | child {t n u : Tree} : n ∈ t.children → Within n u → Within t u

inductive IsBranch : Tree → Prop
  | sequence {ts : List Tree} : IsBranch (.sequence ts)
  | mapping {es : List (Tree × Tree)} : IsBranch (.mapping es)

def IsEnd : Tree → Prop
  | .tagged _ _ => False
  | .string s => ∀ path, Signal.detect s ≠ .ok (some (.inclusion path))
  | _ => True

theorem fields_keys (done : Slots Tree) (es : List (Tree × Tree)) :
    (fields done es).keys = done.keys ++ ((names es).removeAll done.keys).eraseDups := by
  induction es generalizing done with
  | nil => simp [fields, names]
  | cons e rest ih =>
    obtain ⟨key, node⟩ := e
    rw [fields]
    cases hk : key.key with
    | error e => simp [names, hk, Except.toOption, ih]
    | ok name =>
      have hnames : names ((key, node) :: rest) = name :: names rest := by
        simp [names, hk, Except.toOption]
      rw [ih, hnames, Slots.keys_put, List.cons_removeAll]
      by_cases hm : name ∈ done.keys
      · simp [hm]
      · rw [if_neg hm, if_pos (by simpa using hm), List.eraseDups_cons, List.append_assoc,
          List.singleton_append]
        simp only [List.removeAll, List.filter_filter]
        congr 4
        grind

/-- The names of a mapping are as they are written, in the order of their first occurrence. -/
theorem fields_keys_nil (es : List (Tree × Tree)) : (fields [] es).keys = (names es).eraseDups := by
  rw [fields_keys]
  simp [Slots.keys]

end Yaml.Tree

namespace Load

namespace Loader

/-- What a node stands for, and whether that is in another document. -/
inductive Leads (l : Loader) : Bool → Yaml.Tree → Yaml.Tree → Prop
  | here {t : Yaml.Tree} : Leads l false t t
  | tagged {included : Bool} {tag : String} {t u : Yaml.Tree} :
    Leads l included t u → Leads l included (.tagged tag t) u
  | inclusion {included : Bool} {s path : String} {t u : Yaml.Tree} :
    Signal.detect s = .ok (some (.inclusion path)) → l.content path = .ok t →
      Leads l included t u → Leads l true (.string s) u

variable {l : Loader}

def ownerIn (included : Bool) (owner : Option Ref) : Option Ref :=
  if included then none else owner

theorem Leads.resolve {included : Bool} {t u : Yaml.Tree} (hl : l.Leads included t u)
    {stack : List Identity} {owner : Option Ref} {h : Heap} {r : Value × Heap}
    (hr : Build.resolve l.config (l.document stack) owner t h = .ok r) :
    ∃ stack, Build.resolve l.config (l.document stack) (ownerIn included owner) u h = .ok r := by
  induction hl generalizing stack owner with
  | here => exact ⟨stack, hr⟩
  | tagged _ ih =>
    simp only [Build.resolve] at hr
    exact ih hr
  | @inclusion included s path t u hs ht _ ih =>
    simp only [Build.resolve, Build.text, hs] at hr
    obtain ⟨-, t', ht', hr⟩ := document_eq_ok.1 hr
    cases ht.symm.trans ht'
    obtain ⟨stack, hr⟩ := ih hr
    exact ⟨stack, by simpa [ownerIn] using hr⟩

def Ends (l : Loader) (owner : Option Ref) (t : Yaml.Tree) (h : Heap) (r : Value × Heap) : Prop :=
  ∃ included u stack, l.Leads included t u ∧ u.IsEnd ∧
    Build.resolve l.config (l.document stack) (ownerIn included owner) u h = .ok r

theorem ends_of_resolve {stack : List Identity}
    (hd : ∀ {path h r}, l.document stack path h = .ok r →
      ∃ t, l.content path = .ok t ∧ l.Ends none t h r)
    (t : Yaml.Tree) {owner : Option Ref} {h : Heap} {r : Value × Heap}
    (hr : Build.resolve l.config (l.document stack) owner t h = .ok r) : l.Ends owner t h r := by
  match t with
  | .tagged _ t =>
    simp only [Build.resolve] at hr
    obtain ⟨included, u, stack, hl, hu, hr⟩ := ends_of_resolve hd t hr
    exact ⟨included, u, stack, .tagged hl, hu, hr⟩
  | .string s =>
    have htext := hr
    simp only [Build.resolve] at htext
    rcases Build.text_eq_ok.1 htext with ⟨hs, -⟩ | ⟨params, body, hs, -⟩ | ⟨path, hs, hp⟩
    · exact ⟨false, _, stack, .here, fun path hp => (by simp [hs] at hp), hr⟩
    · exact ⟨false, _, stack, .here, fun path hp => (by simp [hs] at hp), hr⟩
    · obtain ⟨t, ht, included, u, stack, hl, hu, hr⟩ := hd hp
      exact ⟨true, u, stack, .inclusion hs ht hl, hu, by simpa [ownerIn] using hr⟩
  | .null | .bool _ | .int _ | .float _ | .sequence _ | .mapping _ =>
    exact ⟨false, _, stack, .here, trivial, hr⟩

theorem ends_of_document {stack : List Identity} {path : String} {h : Heap} {r : Value × Heap}
    (hr : l.document stack path h = .ok r) : ∃ t, l.content path = .ok t ∧ l.Ends none t h r := by
  induction stack, path using document_induction (l := l) generalizing h r with
  | step stack path ih =>
    obtain ⟨hoff, t, ht, hr⟩ := document_eq_ok.1 hr
    exact ⟨t, ht, ends_of_resolve (fun hr => ih hoff t ht _ hr) t hr⟩

/-- A node that has a value stands for one that has this value by itself. -/
theorem exists_leads {t : Yaml.Tree} {stack : List Identity} {owner : Option Ref} {h : Heap}
    {r : Value × Heap} (hr : Build.resolve l.config (l.document stack) owner t h = .ok r) :
    l.Ends owner t h r :=
  ends_of_resolve ends_of_document t hr

end Loader

end Load

end LiveDoc
