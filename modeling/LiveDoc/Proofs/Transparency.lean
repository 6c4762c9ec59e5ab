import LiveDoc.Proofs.Parallel
import LiveDoc.Proofs.Receivers

namespace LiveDoc

namespace Yaml.Tree

def inclusion? : Tree → Option String
  | .string s =>
    match Signal.detect s with
    | .ok (some (.inclusion path)) => some path
    | _ => none
  | .tagged _ node => inclusion? node
  | _ => none

theorem eq_string_of_inclusion? {s path : String} (h : (string s).inclusion? = some path) :
    Signal.detect s = .ok (some (.inclusion path)) := by
  rw [inclusion?] at h
  split at h
  next hs => rwa [← Option.some.inj h]
  next => cases h

end Yaml.Tree

namespace Load.Loader

section

variable {l : Loader}

/-- Loads inside of some documents and inside of others go the same way, unless one of the former is
met again. -/
theorem follows_document {stack stack' : List Identity} {p : String}
    (hs : ∀ q, Relation.ReflTransGen l.Includes p q →
      (l.files.identity q).isOn stack' = true → (l.files.identity q).isOn stack = true)
    (b b' n : Nat) :
    Build.Follows b b' n (Build.ValuesAlike b b') (l.document stack p) (l.document stack' p) := by
  induction stack, p using document_induction (l := l) generalizing stack' n with
  | step stack p ih =>
    have hoff' (hoff : (l.files.identity p).isOn stack = false) :
        (l.files.identity p).isOn stack' = false := by
      refine Bool.eq_false_iff.2 fun hon => ?_
      rw [hs p .refl hon] at hoff
      cases hoff
    have hresolve {t : Yaml.Tree} (hoff : (l.files.identity p).isOn stack = false)
        (ht : l.content p = .ok t) : Build.Follows b b' n (Build.ValuesAlike b b')
          (Build.resolve l.config (l.document (stack ++ [l.files.identity p])) none t)
          (Build.resolve l.config (l.document (stack' ++ [l.files.identity p])) none t) := by
      refine Build.follows_resolve t .none fun q hq n => ?_
      apply ih hoff t ht q
      intro q' hq' hon
      rw [Identity.isOn_append, Bool.or_eq_true] at hon ⊢
      exact hon.imp_left (hs q' (.head ⟨t, ht, hq⟩ hq'))
    -- The other run is on no more of the stack, so it comes to each document that this one opens.
    constructor
    · intro h h' g a hh hr
      obtain ⟨hoff, t, ht, hr⟩ := document_eq_ok.1 hr
      obtain ⟨n', a', g', hle, hr', hg, ha⟩ := (hresolve hoff ht).ok hh hr
      exact ⟨n', a', g', hle, document_eq_ok.2 ⟨hoff' hoff, t, ht, hr'⟩, hg, ha⟩
    · intro h h' e hh he hne
      rcases document_eq_error.1 he with ⟨-, he⟩ | ⟨hoff, he | ⟨t, ht, he⟩⟩
      · exact absurd he (hne _)
      · exact document_eq_error.2 (.inr ⟨hoff' hoff, .inl he⟩)
      · have he' := (hresolve hoff ht).error hh he hne
        exact document_eq_error.2 (.inr ⟨hoff' hoff, .inr ⟨t, ht, he'⟩⟩)

theorem follows_file (stack : List Identity) (p : String) (b b' n : Nat) :
    Build.Follows b b' n (Build.ValuesAlike b b') (l.document stack p) (l.file p) :=
  follows_document (by simp [Identity.isOn]) b b' n

theorem isomorphic_of_follows {m m' : Build Value} {h h' h₀ g : Heap} {v : Value}
    (hm : Build.Follows h.size h₀.size 0 (Build.ValuesAlike h.size h₀.size) m m')
    (hr : m h = .ok (v, h')) (hs : Heap.Settled h h' g) :
    ∃ v₀ h₀', m' h₀ = .ok (v₀, h₀') ∧ Value.Isomorphic g v h₀' v₀ := by
  obtain ⟨n, v₀, h₀', -, hr₀, hh, hv⟩ := hm.ok (Build.aligned_refl h h₀) hr
  refine ⟨v₀, h₀', hr₀, _, ⟨Build.biUnique_shift .., fun r r' hrr => ?_⟩, hv⟩
  obtain ⟨k, k', hk, hk', hkk⟩ := hh.contents r r' hrr
  obtain ⟨i, hi, hri, -⟩ := hrr
  exact ⟨k, k', (hs.get?_eq r (by omega) (Heap.index_lt_of_get? hk)).trans hk, hk', hkk⟩

theorem resolve_of_inclusion? {stack : List Identity} {owner : Option Ref} {n : Yaml.Tree}
    {path : String} (hn : n.inclusion? = some path) :
    Build.resolve l.config (l.document stack) owner n = l.document stack path := by
  match n with
  | .string s => simp only [Build.resolve, Build.text, Yaml.Tree.eq_string_of_inclusion? hn]
  | .tagged _ n =>
    simp only [Build.resolve]
    exact resolve_of_inclusion? hn

/-- A slot for an included document has the value of that document. -/
theorem Filled.isomorphic {g : Heap} {d : Ref} {n : Yaml.Tree} {w : Value} {path : String}
    (hf : l.Filled g d n w) (hn : n.inclusion? = some path) (h₀ : Heap) :
    ∃ v₀ h₀', l.file path h₀ = .ok (v₀, h₀') ∧ Value.Isomorphic g w h₀' v₀ := by
  obtain ⟨stack, name, h₁, h₂, v, hr, hp, -, hs⟩ := hf
  cases Build.outcome_of_placed hp with
  | kept _ =>
    rw [resolve_of_inclusion? hn] at hr
    exact isomorphic_of_follows (follows_file stack path ..) hr hs
  | accessor ht _ _ _ _ =>
    rw [ht] at hn
    cases hn

end

/-- A document inside of others is as it is by itself: it has a value like it if it has one, and
else fails with the same error or with a cycle. It has one if it has one by itself and does not lead
to the documents around it. The slots of a loaded document that include others have their values. -/
theorem document_transparent (patterns : Line.Patterns) (reader : Reader) (docs : Collection)
    (p : String) (stack : List Identity) (h h₀ : Heap) :
    (∀ v h', (ofCollection patterns reader docs).document stack p h = .ok (v, h') →
      ∃ v₀ h₀', (ofCollection patterns reader docs).file p h₀ = .ok (v₀, h₀') ∧
        Value.Isomorphic h' v h₀' v₀) ∧
    (∀ e, (ofCollection patterns reader docs).document stack p h = .error e →
      (∀ chain, e ≠ .cycle chain) →
      (ofCollection patterns reader docs).file p h₀ = .error e) ∧
    (∀ v₀ h₀', (ofCollection patterns reader docs).file p h₀ = .ok (v₀, h₀') →
      (∀ q, Relation.ReflTransGen (ofCollection patterns reader docs).Includes p q →
        (Identity.spelled q).isOn stack = false) →
      ∃ v h', (ofCollection patterns reader docs).document stack p h = .ok (v, h') ∧
        Value.Isomorphic h₀' v₀ h' v) ∧
    ∀ src root g t, (ofCollection patterns reader docs).load src h = .ok (root, g) →
      (ofCollection patterns reader docs).Starts src t → ∀ d, g.Reached root.refs d →
        ∃ s k, (ofCollection patterns reader docs).Written g t root d s ∧ g.get? d = some k ∧
          List.Forall₂ (fun n w => ∀ q, n.inclusion? = some q →
            ∃ v₀ h₀', (ofCollection patterns reader docs).file q h₀ = .ok (v₀, h₀') ∧
              Value.Isomorphic g w h₀' v₀) s.nodes k.values := by
  refine ⟨?_, ?_, ?_, ?_⟩
  · intro v h' hr
    exact isomorphic_of_follows (follows_file stack p ..) hr (.refl h h')
  · intro e he hne
    exact (follows_file stack p ..).error (Build.aligned_refl h h₀) he hne
  · intro v₀ h₀' hr hq
    apply isomorphic_of_follows (follows_document ?_ ..) hr (.refl h₀ h₀')
    intro q hpq hon
    exact absurd (hq q hpq) (Bool.not_eq_false _ ▸ hon)
  · intro src root g t hr ht d hd
    obtain ⟨stack, hr⟩ := resolve_of_starts hr ht
    obtain ⟨s, hw⟩ := exists_written hr hd
    obtain ⟨k, hk, hp⟩ := (hw.made hr).pairs hw.isBranch
    exact ⟨s, k, hw, hk, hp.values.imp fun _ _ hf q hn => hf.isomorphic hn h₀⟩

end Load.Loader

end LiveDoc
