import LiveDoc.Proofs.Inclusion

namespace LiveDoc

namespace Heap

/-- All containers are as they were, and others may have come. -/
structure Extends (h h' : Heap) : Prop where
  size_le : h.size ≤ h'.size
  get?_eq : ∀ r, r.index < h.size → h'.get? r = h.get? r

namespace Extends

theorem refl (h : Heap) : h.Extends h :=
  ⟨Nat.le_refl _, fun _ _ => rfl⟩

theorem trans {h₁ h₂ h₃ : Heap} (h : h₁.Extends h₂) (h' : h₂.Extends h₃) : h₁.Extends h₃ :=
  ⟨Nat.le_trans h.size_le h'.size_le, fun r hr =>
    (h'.get?_eq r (Nat.lt_of_lt_of_le hr h.size_le)).trans (h.get?_eq r hr)⟩

theorem of_containers {h h' : Heap} (he : h'.containers = h.containers) : h.Extends h' where
  size_le := by simp [size, he]
  get?_eq r _ := by rw [get?, get?, he]

theorem alloc (h : Heap) (c : Container) : h.Extends (h.alloc c).2 :=
  ⟨by rw [size_alloc]; exact Nat.le_succ _, fun _ hr => h.get?_alloc_of_lt c hr⟩

theorem set {h h' : Heap} (hh : h.Extends h') {r : Ref} (c : Container) (hr : h.size ≤ r.index) :
    h.Extends (h'.set r c) where
  size_le := by rw [size_set]; exact hh.size_le
  get?_eq q hq := by
    have hne : q ≠ r := by rintro rfl; omega
    rw [get?_set_of_ne _ _ hne, hh.get?_eq q hq]

end Extends

/-- What came between two heaps is still there in a third one. -/
structure Settled (h₁ h₂ h : Heap) : Prop where
  size_le : h₂.size ≤ h.size
  get?_eq : ∀ r, h₁.size ≤ r.index → r.index < h₂.size → h.get? r = h₂.get? r

namespace Settled

theorem refl (h₁ h₂ : Heap) : Settled h₁ h₂ h₂ :=
  ⟨Nat.le_refl _, fun _ _ _ => rfl⟩

theorem mono {h₁ h₂ h h' : Heap} (hs : Settled h₁ h₂ h) (hh : h.Extends h') :
    Settled h₁ h₂ h' :=
  ⟨Nat.le_trans hs.size_le hh.size_le, fun r hr hr' =>
    (hh.get?_eq r (Nat.lt_of_lt_of_le hr' hs.size_le)).trans (hs.get?_eq r hr hr')⟩

theorem set {h₁ h₂ h : Heap} (hs : Settled h₁ h₂ h) {r : Ref} (c : Container)
    (hr : r.index < h₁.size) : Settled h₁ h₂ (h.set r c) where
  size_le := by rw [size_set]; exact hs.size_le
  get?_eq q hq hq' := by
    have hne : q ≠ r := by rintro rfl; omega
    rw [get?_set_of_ne _ _ hne, hs.get?_eq q hq hq']

theorem within {h₁ h₂ g₁ g₂ h : Heap} (hg : Settled g₁ g₂ h₂) (hle : h₁.size ≤ g₁.size)
    (hs : Settled h₁ h₂ h) : Settled g₁ g₂ h :=
  ⟨Nat.le_trans hg.size_le hs.size_le, fun r hr hr' =>
    (hs.get?_eq r (Nat.le_trans hle hr) (Nat.lt_of_lt_of_le hr' hg.size_le)).trans
      (hg.get?_eq r hr hr')⟩

end Settled

end Heap

namespace Load

namespace Build

def Grows (m : Build α) : Prop :=
  ∀ {h h' : Heap} {a : α}, m h = .ok (a, h') → h.Extends h'

theorem closed_grows : Closed Grows where
  pure a h h' b hr := by
    cases hr
    exact .refl h
  bind hm hf h h' b hr := by
    obtain ⟨a, h₁, ha, hr⟩ := bind_eq_ok.1 hr
    exact (hm ha).trans (hf a hr)
  lift _ h h' a hr := by
    obtain ⟨-, rfl⟩ := liftM_eq_ok.1 hr
    exact .refl h'
  function owner params source h h' v hr := by
    obtain ⟨body, -, -, rfl⟩ := function_eq_ok.1 hr
    exact .of_containers rfl
  place c d name t v h h' w hr := by
    obtain ⟨-, rfl⟩ := place_eq_ok.1 hr
    exact .refl h'
  container k m f hm h h' v hr := by
    obtain ⟨r, h₁, halloc, hrest⟩ := bind_eq_ok.1 hr
    cases halloc
    obtain ⟨a, h₂, ha, hfill⟩ := bind_eq_ok.1 hrest
    cases hfill
    have hgrow : h.Extends h₂ := (Heap.Extends.alloc h k).trans (hm _ ha)
    exact hgrow.set (f a) (Nat.le_refl _)

theorem grows_resolve {c : Config} {document : String → Build Value}
    (hd : ∀ q, Grows (document q)) (owner : Option Ref) (t : Yaml.Tree) :
    Grows (resolve c document owner t) :=
  closed_grows.resolve t owner fun q _ => hd q

theorem grows_resolveItems {c : Config} {document : String → Build Value}
    (hd : ∀ q, Grows (document q)) (d : Ref) (index : Nat) (ts : List Yaml.Tree) :
    Grows (resolveItems c document d index ts) :=
  closed_grows.resolveItems ts d index fun q _ => hd q

theorem grows_resolveEntries {c : Config} {document : String → Build Value}
    (hd : ∀ q, Grows (document q)) (d : Ref) (done : Entries)
    (es : List (Yaml.Tree × Yaml.Tree)) : Grows (resolveEntries c document d done es) :=
  closed_grows.resolveEntries es d done fun q _ => hd q

end Build

theorem Loader.grows_document (l : Loader) (stack : List Identity) (p : String) :
    Build.Grows (l.document stack p) := by
  induction stack, p using document_induction (l := l) with
  | step stack p ih =>
    intro h h' v hr
    obtain ⟨hoff, t, ht, hr⟩ := document_eq_ok.1 hr
    exact Build.grows_resolve (ih hoff t ht) none t hr

end Load

end LiveDoc
