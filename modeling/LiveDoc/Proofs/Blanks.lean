import LiveDoc.Text.Trim
import Mathlib.Data.List.TakeWhile

namespace LiveDoc.Text

def AllBlank (cs : List Char) : Prop :=
  ∀ c ∈ cs, isBlank c = true

instance (cs : List Char) : Decidable (AllBlank cs) :=
  decidable_of_iff (cs.all isBlank = true) List.all_eq_true

theorem allBlank_indentation (cs : List Char) : AllBlank (indentation cs) :=
  List.all_eq_true.1 List.all_takeWhile

theorem indentation_append_trimStart (cs : List Char) : indentation cs ++ trimStart cs = cs :=
  List.takeWhile_append_dropWhile

theorem isBlank_of_head?_trimStart {cs : List Char} {d : Char} (h : (trimStart cs).head? = some d) :
    isBlank d = false := by
  have hnot := List.head?_dropWhile_not isBlank cs
  rw [trimStart] at h
  rwa [h] at hnot

theorem trimStart_of_allBlank {cs : List Char} (h : AllBlank cs) : trimStart cs = [] :=
  List.dropWhile_eq_nil_iff.2 h

theorem trimStart_append_cons {cs rest : List Char} {d : Char} (hd : isBlank d = false) :
    trimStart (cs ++ d :: rest) = trimStart cs ++ d :: rest := by
  have hrest : List.dropWhile isBlank (d :: rest) = d :: rest :=
    List.dropWhile_cons_of_neg (by simp [hd])
  rw [trimStart, List.dropWhile_append, hrest]
  split
  next hempty => rw [trimStart, List.isEmpty_iff.1 hempty, List.nil_append]
  · rfl

theorem indentation_append_cons {blanks rest : List Char} {d : Char} (hb : AllBlank blanks)
    (hd : isBlank d = false) : indentation (blanks ++ d :: rest) = blanks := by
  rw [indentation, List.takeWhile_append_of_pos hb, List.takeWhile_cons_of_neg (by simp [hd]),
    List.append_nil]

theorem append_cons_inj {blanks blanks' rest rest' : List Char} {d e : Char}
    (h : blanks ++ d :: rest = blanks' ++ e :: rest') (hb : AllBlank blanks)
    (hb' : AllBlank blanks') (hd : isBlank d = false) (he : isBlank e = false) :
    blanks = blanks' ∧ d = e ∧ rest = rest' := by
  have hindent := congrArg indentation h
  rw [indentation_append_cons hb hd, indentation_append_cons hb' he] at hindent
  subst hindent
  obtain ⟨hde, hrest⟩ := List.cons.inj (List.append_cancel_left h)
  exact ⟨rfl, hde, hrest⟩

theorem exists_trimEnd (cs : List Char) : ∃ ends, AllBlank ends ∧ cs = trimEnd cs ++ ends := by
  refine ⟨(cs.reverse.takeWhile isBlank).reverse, ?_, ?_⟩
  · intro c hc
    exact List.all_eq_true.1 List.all_takeWhile c (List.mem_reverse.1 hc)
  · rw [trimEnd, ← List.reverse_append, List.takeWhile_append_dropWhile, List.reverse_reverse]

theorem trimEnd_append_cons {cs ds : List Char} {d : Char} (hd : isBlank d = false) :
    trimEnd (cs ++ d :: ds) = cs ++ trimEnd (d :: ds) := by
  have hne : ((d :: ds).reverse.dropWhile isBlank).isEmpty = false := by
    rw [List.isEmpty_eq_false_iff]
    intro h
    have hmem : d ∈ (d :: ds).reverse := by simp
    simpa [hd] using List.dropWhile_eq_nil_iff.1 h d hmem
  rw [trimEnd, List.reverse_append, List.dropWhile_append, hne]
  simp [trimEnd]

theorem trimEnd_cons {cs : List Char} {d : Char} (hd : isBlank d = false) :
    trimEnd (d :: cs) = d :: trimEnd cs := by
  have hlast : List.dropWhile isBlank [d] = [d] := List.dropWhile_cons_of_neg (by simp [hd])
  rw [trimEnd, List.reverse_cons, List.dropWhile_append, hlast]
  split
  next hempty => simp [trimEnd, List.isEmpty_iff.1 hempty]
  · simp [trimEnd]

theorem mem_of_mem_trimEnd {cs : List Char} {c : Char} (h : c ∈ trimEnd cs) : c ∈ cs :=
  List.mem_reverse.1 ((List.dropWhile_sublist isBlank).subset (List.mem_reverse.1 h))

theorem mem_of_mem_trim {cs : List Char} {c : Char} (h : c ∈ trim cs) : c ∈ cs :=
  (List.dropWhile_sublist isBlank).subset (mem_of_mem_trimEnd h)

theorem mem_trim {cs : List Char} {c : Char} (h : c ∈ cs) (hc : isBlank c = false) :
    c ∈ trim cs := by
  obtain ⟨ends, hends, heq⟩ := exists_trimEnd (trimStart cs)
  have hcs : c ∈ indentation cs ++ trimStart cs := by rwa [indentation_append_trimStart]
  have hstart : c ∈ trimStart cs := by
    rcases List.mem_append.1 hcs with hmem | hmem
    · exact absurd (allBlank_indentation cs c hmem) (by simp [hc])
    · exact hmem
  rw [heq] at hstart
  rcases List.mem_append.1 hstart with hmem | hmem
  · exact hmem
  · exact absurd (hends c hmem) (by simp [hc])

theorem trim_cons_blank {cs : List Char} {c : Char} (hc : isBlank c = true) :
    trim (c :: cs) = trim cs := by
  rw [trim, trimStart, List.dropWhile_cons_of_pos hc]
  rfl

theorem trimStart_append {blanks : List Char} (h : AllBlank blanks) (cs : List Char) :
    trimStart (blanks ++ cs) = trimStart cs :=
  List.dropWhile_append_of_pos h

theorem trimEnd_append {ends : List Char} (cs : List Char) (h : AllBlank ends) :
    trimEnd (cs ++ ends) = trimEnd cs := by
  have hends : ∀ c ∈ ends.reverse, isBlank c = true := fun c hc => h c (List.mem_reverse.1 hc)
  rw [trimEnd, List.reverse_append, List.dropWhile_append_of_pos hends]
  rfl

theorem trim_append_append {blanks ends cs : List Char} (hb : AllBlank blanks)
    (he : AllBlank ends) : trim (blanks ++ (cs ++ ends)) = trim cs := by
  rw [trim, trimStart_append hb]
  cases hcs : trimStart cs with
  | nil =>
    have hblank : AllBlank cs := List.dropWhile_eq_nil_iff.1 hcs
    rw [trim, trimStart_append hblank, trimStart_of_allBlank he, hcs]
  | cons d rest =>
    have hd : isBlank d = false := isBlank_of_head?_trimStart (by rw [hcs]; rfl)
    have hstart : trimStart (cs ++ ends) = trimStart cs ++ ends := by
      rw [trimStart, List.dropWhile_append, ← trimStart, hcs]
      rfl
    rw [hstart, trimEnd_append _ he, trim]

theorem trim_trim (cs : List Char) : trim (trim cs) = trim cs := by
  obtain ⟨ends, hends, heq⟩ := exists_trimEnd (trimStart cs)
  have hcs : cs = indentation cs ++ (trim cs ++ ends) := by
    rw [trim, ← heq, indentation_append_trimStart]
  rw [← trim_append_append (allBlank_indentation cs) hends, ← hcs]

def nonblanks (cs : List Char) : Nat :=
  cs.countP (!isBlank ·)

@[simp] theorem nonblanks_append (cs ds : List Char) :
    nonblanks (cs ++ ds) = nonblanks cs + nonblanks ds :=
  List.countP_append

theorem nonblanks_cons (c : Char) (cs : List Char) :
    nonblanks (c :: cs) = nonblanks [c] + nonblanks cs :=
  nonblanks_append [c] cs

theorem nonblanks_of_allBlank {cs : List Char} (h : AllBlank cs) : nonblanks cs = 0 := by
  refine List.countP_eq_zero.2 ?_
  intro c hc
  simp [h c hc]

@[simp] theorem nonblanks_trimEnd (cs : List Char) : nonblanks (trimEnd cs) = nonblanks cs := by
  obtain ⟨ends, hends, heq⟩ := exists_trimEnd cs
  rw [congrArg nonblanks heq, nonblanks_append, nonblanks_of_allBlank hends, Nat.add_zero]

@[simp] theorem nonblanks_trim (cs : List Char) : nonblanks (trim cs) = nonblanks cs := by
  rw [trim, nonblanks_trimEnd, ← congrArg nonblanks (indentation_append_trimStart cs),
    nonblanks_append, nonblanks_of_allBlank (allBlank_indentation cs), Nat.zero_add]

theorem split_of_not_mem {cs ds before after : List Char} {d : Char} (hd : d ∉ cs)
    (h : cs ++ ds = before ++ d :: after) :
    ∃ skipped, before = cs ++ skipped ∧ ds = skipped ++ d :: after := by
  rcases List.append_eq_append_iff.1 h with ⟨skipped, rfl, rfl⟩ | ⟨overlap, rfl, hafter⟩
  · exact ⟨skipped, rfl, rfl⟩
  · cases overlap with
    | nil => exact ⟨[], by simp, by simpa using hafter.symm⟩
    | cons e overlap =>
      obtain ⟨rfl, -⟩ := List.cons.inj hafter
      exact absurd (List.mem_append_right _ List.mem_cons_self) hd

theorem AllBlank.not_mem {cs : List Char} {d : Char} (h : AllBlank cs) (hd : isBlank d = false) :
    d ∉ cs := by
  intro hmem
  rw [h d hmem] at hd
  cases hd

theorem AllBlank.noColon {cs : List Char} (h : AllBlank cs) : ':' ∉ cs :=
  h.not_mem (by decide)

end LiveDoc.Text
