import LiveDoc.Script.Run

namespace LiveDoc.Script

def KeepsAt (inv : σ → Prop) (post : α → Prop) (act : ExceptT ε (StateM σ) α) (s : σ) : Prop :=
  inv (act s).2 ∧ ∀ a, (act s).1 = .ok a → post a

def Keeps (inv : σ → Prop) (post : α → Prop) (act : ExceptT ε (StateM σ) α) : Prop :=
  ∀ s, inv s → KeepsAt inv post act s

theorem KeepsAt.pure {inv : σ → Prop} {post : α → Prop} {s : σ} (hs : inv s) (ha : post a) :
    KeepsAt inv post (pure a : ExceptT ε (StateM σ) α) s := by
  refine ⟨hs, fun b hb => ?_⟩
  cases hb
  exact ha

theorem run_bind (act : ExceptT ε (StateM σ) α) (next : α → ExceptT ε (StateM σ) β) (s : σ) :
    (act >>= next) s = match act s with
      | (.ok a, s) => next a s
      | (.error e, s) => (.error e, s) := by
  change (match act s with | (a, s) => ExceptT.bindCont next a s) = _
  cases act s with
  | mk a s => cases a <;> rfl

theorem run_get_bind (next : σ → ExceptT ε (StateM σ) β) (s : σ) :
    (get >>= next) s = next s s :=
  rfl

theorem KeepsAt.bind {inv : σ → Prop} {mid : α → Prop} {post : β → Prop}
    {act : ExceptT ε (StateM σ) α} {next : α → ExceptT ε (StateM σ) β} {s : σ}
    (h : KeepsAt inv mid act s) (hn : ∀ a, mid a → Keeps inv post (next a)) :
    KeepsAt inv post (act >>= next) s := by
  rw [KeepsAt, run_bind]
  obtain ⟨hi, hp⟩ := h
  cases hr : act s with
  | mk a s' =>
    rw [hr] at hi hp
    cases a with
    | ok a => exact hn a (hp a rfl) s' hi
    | error e => exact ⟨hi, fun b hb => by cases hb⟩

namespace Keeps

variable {inv : σ → Prop} {mid : α → Prop} {post : β → Prop}

theorem pure {post : α → Prop} (ha : post a) :
    Keeps inv post (pure a : ExceptT ε (StateM σ) α) :=
  fun _ hs => .pure hs ha

theorem throw (post : α → Prop) (e : ε) :
    Keeps inv post (throw e : ExceptT ε (StateM σ) α) := by
  intro s hs
  exact ⟨hs, fun a ha => by cases ha⟩

theorem bind {act : ExceptT ε (StateM σ) α} {next : α → ExceptT ε (StateM σ) β}
    (h : Keeps inv mid act) (hn : ∀ a, mid a → Keeps inv post (next a)) :
    Keeps inv post (act >>= next) :=
  fun s hs => (h s hs).bind hn

theorem trivial (act : ExceptT ε (StateM σ) α) : Keeps (fun _ => True) (fun _ => True) act :=
  fun _ _ => ⟨True.intro, fun _ _ => True.intro⟩

theorem get_bind {next : σ → ExceptT ε (StateM σ) β}
    (hn : ∀ s, inv s → KeepsAt inv post (next s) s) : Keeps inv post (get >>= next) :=
  fun s hs => hn s hs

theorem liftText {inv : Heap → Prop} {v : Value} {made : Option α} (post : α → Prop)
    (h : ∀ a, made = some a → post a) : Keeps inv post (HeapRun.liftText v made) := by
  cases made with
  | none => exact .throw _ _
  | some a => exact .pure (h a rfl)

end Keeps

end LiveDoc.Script
