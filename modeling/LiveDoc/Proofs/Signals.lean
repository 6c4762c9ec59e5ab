import LiveDoc.Signal
import LiveDoc.Proofs.Blanks

namespace LiveDoc.Signal

open Text

/-- The text between the brackets of a function with these parameters. -/
inductive Arguments : List Char → List String → Prop
  | blank (h : AllBlank args) : Arguments args []
  | names (hne : pieces ≠ []) (h : ∀ piece ∈ pieces, isName (trim piece) = true) :
    Arguments (joinWith [','] pieces) (pieces.map fun piece => String.ofList (trim piece))

section

variable {args body : List Char} {params : List String} {c : Char}

theorem isNameRest_of_mem {name : List Char} (h : isName name = true) (hc : c ∈ name) :
    isNameRest c = true := by
  cases name with
  | nil => cases h
  | cons d name =>
    obtain ⟨hd, hname⟩ := (Bool.and_eq_true _ _).mp h
    rcases List.mem_cons.1 hc with rfl | hc
    · rw [isNameRest, hd, Bool.true_or]
    · exact List.all_eq_true.1 hname c hc

theorem mem_joinWith {sep : List Char} {pieces : List (List Char)} (h : c ∈ joinWith sep pieces) :
    c ∈ sep ∨ ∃ piece ∈ pieces, c ∈ piece := by
  induction pieces with
  | nil => cases h
  | cons piece pieces ih =>
    cases pieces with
    | nil => exact .inr ⟨piece, List.mem_singleton_self _, h⟩
    | cons next rest =>
      rw [joinWith_cons_cons] at h
      rcases List.mem_append.1 h with hmem | hmem
      · rcases List.mem_append.1 hmem with hmem | hmem
        · exact .inr ⟨piece, List.mem_cons_self, hmem⟩
        · exact .inl hmem
      · rcases ih hmem with hmem | ⟨other, hother, hmem⟩
        · exact .inl hmem
        · exact .inr ⟨other, List.mem_cons_of_mem _ hother, hmem⟩

theorem subset_joinWith {sep piece : List Char} {pieces : List (List Char)}
    (h : piece ∈ pieces) : piece ⊆ joinWith sep pieces := by
  induction pieces with
  | nil => cases h
  | cons first pieces ih =>
    cases pieces with
    | nil =>
      rw [List.mem_singleton.1 h]
      exact List.Subset.refl _
    | cons next rest =>
      rw [joinWith_cons_cons]
      rcases List.mem_cons.1 h with rfl | h
      · exact fun c hc => List.mem_append_left _ (List.mem_append_left _ hc)
      · exact fun c hc => List.mem_append_right _ (ih h hc)

theorem Arguments.not_mem (h : Arguments args params) (hblank : isBlank c = false)
    (hname : isNameRest c = false) (hcomma : c ≠ ',') : c ∉ args := by
  intro hmem
  cases h with
  | blank hargs => exact hargs.not_mem hblank hmem
  | names hne hnames =>
    rcases mem_joinWith hmem with hmem | ⟨piece, hpiece, hmem⟩
    · exact hcomma (List.mem_singleton.1 hmem)
    · have hrest := isNameRest_of_mem (hnames piece hpiece) (mem_trim hmem hblank)
      rw [hname] at hrest
      cases hrest

theorem Arguments.params?_eq (h : Arguments args params) : params? args = some params := by
  cases h with
  | blank hargs => rw [params?, if_pos (List.all_eq_true.2 hargs)]
  | @names pieces hne hnames =>
    have hcomma : ∀ piece ∈ pieces, ',' ∉ piece := by
      intro piece hpiece hmem
      have hrest := isNameRest_of_mem (hnames piece hpiece) (mem_trim hmem (by decide))
      exact absurd hrest (by decide)
    have hall : ¬ (joinWith [','] pieces).all isBlank := by
      intro hall
      obtain ⟨piece, rest, rfl⟩ := List.exists_cons_of_ne_nil hne
      have hblank : AllBlank piece := fun c hc =>
        List.all_eq_true.1 hall c (subset_joinWith List.mem_cons_self hc)
      have hname := hnames piece List.mem_cons_self
      rw [trim, trimStart_of_allBlank hblank] at hname
      cases hname
    have hsplit := splitOn_joinWith hne hcomma
    have hnamed : (pieces.map trim).all isName = true := by
      rw [List.all_map]
      exact List.all_eq_true.2 hnames
    simp only [params?, if_neg hall, hsplit, if_pos hnamed, List.map_map]
    rfl

theorem function?_eq (hparams : params? args = some params) (hclose : ')' ∉ args) :
    function? ('(' :: (args ++ ')' :: body)) = some (.function params (String.ofList body)) := by
  have hargs : ∀ c ∈ args, decide (c ≠ ')') = true := by
    intro c hc
    exact decide_eq_true (ne_of_mem_of_not_mem hc hclose)
  have hdrop : (args ++ ')' :: body).dropWhile (· ≠ ')') = ')' :: body := by
    rw [List.dropWhile_append_of_pos hargs]
    rfl
  have htake : (args ++ ')' :: body).takeWhile (· ≠ ')') = args := by
    rw [List.takeWhile_append_of_pos hargs]
    simp
  simp only [function?, hdrop, htake, hparams, Option.map_some]

/-- A function is read back with its parameters, and with all that stands behind them. -/
theorem detect_functionHead (h : Arguments args params) :
    detect (String.ofList (functionHead args ++ body)) =
      .ok (some (.function params (String.ofList body))) := by
  have hhead : functionHead args ++ body =
      Kind.function.mark.toList ++ '(' :: (args ++ ')' :: body) := by simp [functionHead]
  have htrim : trimStart (functionHead args ++ body) = functionHead args ++ body := rfl
  have hafter : after? Kind.function.mark.toList (trimStart (functionHead args ++ body)) =
      some ('(' :: (args ++ ')' :: body)) := by
    rw [htrim]
    exact after?_eq_some_iff.2 hhead
  have hclose : ')' ∉ args := h.not_mem (by decide) (by decide) (by decide)
  simp only [detect, String.toList_ofList, hafter, function?_eq h.params?_eq hclose]

end

end LiveDoc.Signal
