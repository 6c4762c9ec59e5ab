import LiveDoc.Proofs.Signals

namespace LiveDoc.Signal

open Text

/-- A text that a signal is written as, between blanks. -/
inductive Writes : Signal → List Char → Prop
  | function (hb : AllBlank blanks) (hclose : ')' ∉ args) (h : Arguments args params) :
    Writes (.function params body) (blanks ++ (functionHead args ++ body.toList))
  | inclusion (hb : AllBlank blanks) (hgap : AllBlank gap) (hne : gap ≠ [])
    (hpath : path.toList ≠ []) (htrim : trim path.toList = path.toList) (he : AllBlank ends) :
    Writes (.inclusion path)
      (blanks ++ (Kind.inclusion.mark.toList ++ (gap ++ (path.toList ++ ends))))

def Kind.read? : Kind → List Char → Option Signal
  | .function => function?
  | .inclusion => inclusion?

section

variable {args cs rest : List Char} {params : List String} {signal : Signal} {kind : Kind}

theorem params?_eq_some_iff : params? args = some params ↔ Arguments args params := by
  constructor
  · intro h
    rw [params?] at h
    split at h
    next hblank =>
      cases h
      exact .blank (List.all_eq_true.1 hblank)
    next =>
      dsimp only at h
      split at h
      next hnames =>
        cases h
        rw [List.all_map, List.all_eq_true] at hnames
        have hargs := Arguments.names (splitOn_ne_nil ',' args) hnames
        rw [joinWith_splitOn] at hargs
        rw [List.map_map]
        exact hargs
      next => cases h
  · exact Arguments.params?_eq

theorem function?_eq_some_iff :
    function? rest = some signal ↔ ∃ args params body, ')' ∉ args ∧ Arguments args params ∧
      rest = '(' :: (args ++ ')' :: body) ∧ signal = .function params (String.ofList body) := by
  constructor
  · intro h
    simp only [function?] at h
    split at h
    next inner =>
      split at h
      next body hbody =>
        obtain ⟨params, hparams, rfl⟩ := Option.map_eq_some_iff.1 h
        refine ⟨_, params, body, ?_, params?_eq_some_iff.1 hparams, ?_, rfl⟩
        · intro hmem
          simpa using List.mem_takeWhile_imp hmem
        · rw [← hbody, List.takeWhile_append_dropWhile]
      next => cases h
    next => cases h
  · rintro ⟨args, params, body, hclose, hargs, rfl, rfl⟩
    exact function?_eq hargs.params?_eq hclose

theorem inclusion?_eq_some_iff :
    inclusion? rest = some signal ↔ ∃ gap path ends, AllBlank gap ∧ gap ≠ [] ∧ path ≠ [] ∧
      trim path = path ∧ AllBlank ends ∧ rest = gap ++ (path ++ ends) ∧
        signal = .inclusion (String.ofList path) := by
  constructor
  · intro h
    cases rest with
    | nil => cases h
    | cons c cs =>
      simp only [inclusion?] at h
      split at h
      next hread =>
        cases h
        obtain ⟨hc, hpath⟩ := hread
        obtain ⟨ends, hends, heq⟩ := exists_trimEnd (trimStart (c :: cs))
        have hgap : indentation (c :: cs) ≠ [] := by
          rw [indentation, List.takeWhile_cons_of_pos hc]
          exact List.cons_ne_nil _ _
        refine ⟨_, _, ends, allBlank_indentation (c :: cs), hgap, hpath, trim_trim _, hends, ?_,
          rfl⟩
        rw [trim, ← heq, indentation_append_trimStart]
      next => cases h
  · rintro ⟨gap, path, ends, hgap, hne, hpath, htrim, hends, rfl, rfl⟩
    obtain ⟨c, gap, rfl⟩ := List.exists_cons_of_ne_nil hne
    have hread : trim ((c :: gap) ++ (path ++ ends)) = path := by
      rw [trim_append_append hgap hends, htrim]
    have hc : isBlank c = true := hgap c List.mem_cons_self
    rw [List.cons_append] at hread ⊢
    simp only [inclusion?, hread]
    exact if_pos ⟨hc, hpath⟩

theorem Kind.exists_mark (kind : Kind) :
    ∃ mark, kind.mark.toList = '_' :: mark := by
  cases kind <;> exact ⟨_, rfl⟩

theorem Kind.eq_of_mark {kind' : Kind} {rest' : List Char}
    (h : kind.mark.toList ++ rest = kind'.mark.toList ++ rest') : kind = kind' := by
  have hletter := congrArg (·[14]?) h
  cases kind with
  | function =>
    cases kind' with
    | function => rfl
    | inclusion => cases hletter
  | inclusion =>
    cases kind' with
    | function => cases hletter
    | inclusion => rfl

theorem trimStart_mark {blanks : List Char} (hb : AllBlank blanks) :
    trimStart (blanks ++ (kind.mark.toList ++ rest)) = kind.mark.toList ++ rest := by
  obtain ⟨mark, hmark⟩ := kind.exists_mark
  rw [hmark, List.cons_append, trimStart_append_cons (by decide), trimStart_of_allBlank hb,
    List.nil_append]

/-- A signal is written as a mark behind blanks, with what belongs behind the mark. -/
theorem writes_iff :
    Writes signal cs ↔ ∃ (kind : Kind) (rest : List Char),
      trimStart cs = kind.mark.toList ++ rest ∧ kind.read? rest = some signal := by
  constructor
  · intro h
    cases h with
    | @function blanks args params body hb hclose hargs =>
      refine ⟨.function, '(' :: (args ++ ')' :: body.toList), ?_, ?_⟩
      · rw [← trimStart_mark hb]
        simp [functionHead]
      · exact function?_eq_some_iff.2 ⟨args, params, body.toList, hclose, hargs, rfl, by simp⟩
    | inclusion hb hgap hne hpath htrim he =>
      refine ⟨.inclusion, _, trimStart_mark hb, ?_⟩
      exact inclusion?_eq_some_iff.2
        ⟨_, _, _, hgap, hne, hpath, htrim, he, rfl, by rw [String.ofList_toList]⟩
  · rintro ⟨kind, rest, hmark, hread⟩
    have hb := allBlank_indentation cs
    rw [← indentation_append_trimStart cs, hmark]
    cases kind with
    | function =>
      obtain ⟨args, params, body, hclose, hargs, rfl, rfl⟩ := function?_eq_some_iff.1 hread
      have hwrites : Writes (.function params (String.ofList body)) _ := .function hb hclose hargs
      simpa [functionHead] using hwrites
    | inclusion =>
      obtain ⟨gap, path, ends, hgap, hne, hpath, htrim, he, rfl, rfl⟩ :=
        inclusion?_eq_some_iff.1 hread
      have hwrites : Writes (.inclusion (String.ofList path)) _ :=
        .inclusion hb hgap hne (by simpa using hpath) (by simpa using htrim) he
      simpa using hwrites

theorem detect_of_mark {text : String} (h : trimStart text.toList = kind.mark.toList ++ rest) :
    detect text = match kind.read? rest with
      | some signal => .ok (some signal)
      | none => .error kind := by
  cases kind with
  | function =>
    have hafter := after?_eq_some_iff.2 h
    cases hread : function? rest <;> simp only [detect, hafter, Kind.read?, hread]
  | inclusion =>
    have hafter := after?_eq_some_iff.2 h
    have hnone : after? Kind.function.mark.toList (trimStart text.toList) = none := by
      rw [Option.eq_none_iff_forall_not_mem]
      intro rest' hrest'
      rw [h] at hrest'
      cases Kind.eq_of_mark (after?_eq_some_iff.1 hrest')
    cases hread : inclusion? rest <;> simp only [detect, hafter, hnone, Kind.read?, hread]

theorem detect_of_not_mark {text : String}
    (h : ∀ kind : Kind, ¬ kind.mark.toList <+: trimStart text.toList) : detect text = .ok none := by
  have hnone : ∀ kind : Kind, after? kind.mark.toList (trimStart text.toList) = none := by
    intro kind
    rw [Option.eq_none_iff_forall_not_mem]
    intro rest hrest
    exact h kind ⟨rest, (after?_eq_some_iff.1 hrest).symm⟩
  simp only [detect, hnone]

theorem detect_eq_ok_iff {text : String} :
    detect text = .ok (some signal) ↔ Writes signal text.toList := by
  rw [writes_iff]
  constructor
  · intro h
    by_cases hmark : ∃ kind : Kind, kind.mark.toList <+: trimStart text.toList
    · obtain ⟨kind, rest, hrest⟩ := hmark
      rw [detect_of_mark hrest.symm] at h
      split at h
      next hread =>
        cases h
        exact ⟨kind, rest, hrest.symm, hread⟩
      next => cases h
    · rw [detect_of_not_mark (not_exists.1 hmark)] at h
      cases h
  · rintro ⟨kind, rest, hmark, hread⟩
    rw [detect_of_mark hmark, hread]

theorem detect_eq_error_iff {text : String} :
    detect text = .error kind ↔
      kind.mark.toList <+: trimStart text.toList ∧ ∀ signal, ¬ Writes signal text.toList := by
  constructor
  · intro h
    have hnot : ∀ signal, ¬ Writes signal text.toList := by
      intro signal hwrites
      rw [detect_eq_ok_iff.2 hwrites] at h
      cases h
    by_cases hmark : ∃ kind : Kind, kind.mark.toList <+: trimStart text.toList
    · obtain ⟨kind', rest, hrest⟩ := hmark
      rw [detect_of_mark hrest.symm] at h
      split at h
      next => cases h
      next =>
        cases h
        exact ⟨⟨rest, hrest⟩, hnot⟩
    · rw [detect_of_not_mark (not_exists.1 hmark)] at h
      cases h
  · rintro ⟨⟨rest, hrest⟩, hnot⟩
    rw [detect_of_mark hrest.symm]
    split
    next signal hread => exact absurd (writes_iff.2 ⟨kind, rest, hrest.symm, hread⟩) (hnot signal)
    next => rfl

theorem detect_eq_none_iff {text : String} :
    detect text = .ok none ↔ ∀ kind : Kind, ¬ kind.mark.toList <+: trimStart text.toList := by
  constructor
  · rintro h kind ⟨rest, hrest⟩
    rw [detect_of_mark hrest.symm] at h
    split at h <;> cases h
  · exact detect_of_not_mark

theorem detect_inclusionText {path : List Char} (hne : path ≠ []) (htrim : trim path = path) :
    detect (String.ofList (inclusionText path)) = .ok (some (.inclusion (String.ofList path))) := by
  have hgap : AllBlank [' '] := by decide
  have hnil : AllBlank [] := by decide
  have hread : inclusion? (' ' :: path) = some (.inclusion (String.ofList path)) :=
    inclusion?_eq_some_iff.2 ⟨[' '], path, [], hgap, by simp, hne, htrim, hnil, by simp, rfl⟩
  rw [detect_eq_ok_iff, writes_iff]
  refine ⟨.inclusion, ' ' :: path, ?_, hread⟩
  rw [String.toList_ofList]
  rfl

end

/-- A text is read as a signal if and only if it is written as that signal. If it begins with a mark
and is not written as a signal, it is refused with the kind of the mark, and if it begins with none,
it is no signal. So every signal that is rendered is read back. -/
theorem detect_exact :
    (∀ text signal, detect text = .ok (some signal) ↔ Writes signal text.toList) ∧
    (∀ text kind, detect text = .error kind ↔
      kind.mark.toList <+: trimStart text.toList ∧ ∀ signal, ¬ Writes signal text.toList) ∧
    (∀ text, detect text = .ok none ↔
      ∀ kind : Kind, ¬ kind.mark.toList <+: trimStart text.toList) ∧
    (∀ args params body, Arguments args params →
      detect (String.ofList (functionHead args ++ body)) =
        .ok (some (.function params (String.ofList body)))) ∧
    ∀ path, path ≠ [] → trim path = path →
      detect (String.ofList (inclusionText path)) =
        .ok (some (.inclusion (String.ofList path))) := by
  refine ⟨fun _ _ => detect_eq_ok_iff, fun _ _ => detect_eq_error_iff, fun _ => detect_eq_none_iff,
    ?_, ?_⟩
  · intro args params body hargs
    exact detect_functionHead hargs
  · intro path hne htrim
    exact detect_inclusionText hne htrim

/-- A function and an include between blanks, a name that is none, and a text without a mark. -/
theorem detect_exact_samples :
    Writes (.function ["a", "b"] " return a + b;")
        " __YAML_SCRIPT_FN__(a , b) return a + b;".toList ∧
      Writes (.inclusion "a b.yaml") "\n__YAML_SCRIPT_INCLUDE__\t a b.yaml ".toList ∧
      (∀ signal, ¬ Writes signal "__YAML_SCRIPT_FN__(a,,b)".toList) ∧
      (∀ kind : Kind, ¬ kind.mark.toList <+: trimStart " f: __YAML_SCRIPT_FN__()".toList) ∧
      detect "__YAML_SCRIPT_FN__( )return" = .ok (some (.function [] "return")) := by
  obtain ⟨hok, herror, hnone, hfunction, -⟩ := detect_exact
  have hblank : Arguments [' '] [] := .blank (by decide)
  refine ⟨(hok _ _).1 (by decide), (hok _ _).1 (by decide), ((herror _ .function).1 (by decide)).2,
    (hnone _).1 (by decide), hfunction [' '] [] "return".toList hblank⟩

end LiveDoc.Signal
