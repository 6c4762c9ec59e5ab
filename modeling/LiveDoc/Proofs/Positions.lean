import LiveDoc.Load.Position
import LiveDoc.Proofs.Blanks
import Mathlib

namespace LiveDoc.Load

open Text

def IsDigits (ds : List Char) : Prop :=
  ds ≠ [] ∧ ∀ c ∈ ds, isDecimalDigit c = true

def mention (line column : List Char) : List Char :=
  "at line ".toList ++ (line ++ (" column ".toList ++ column))

/-- The text goes on with a mention. The digits of its column are all that stand there. -/
def BeginsAt (cs line column : List Char) : Prop :=
  ∃ after, IsDigits line ∧ IsDigits column ∧ cs = mention line column ++ after ∧
    ∀ c, after.head? = some c → isDecimalDigit c = false

def Mentions (cs : List Char) : Prop :=
  ∃ before rest line column, cs = before ++ rest ∧ BeginsAt rest line column

/-- The first mention in the text. Its numbers are zero if they are not of 32 bits. -/
def FirstMention (cs : List Char) (line column : Nat) : Prop :=
  ∃ before rest ls ks, cs = before ++ rest ∧ BeginsAt rest ls ks ∧
    wordOrZero ls = line ∧ wordOrZero ks = column ∧
      ∀ before' rest' ls' ks', cs = before' ++ rest' → BeginsAt rest' ls' ks' →
        before.length ≤ before'.length

theorem isDecimalDigit_of_isBlank {c : Char} (h : isBlank c = true) : isDecimalDigit c = false := by
  have hapart : ∀ r ∈ blankRanges, ∀ s ∈ decimalDigitRanges, r.2 < s.1 ∨ s.2 < r.1 := by decide
  obtain ⟨r, hr, hc⟩ := List.any_eq_true.1 h
  rw [isDecimalDigit, Bool.eq_false_iff]
  intro hdigit
  obtain ⟨s, hs, hc'⟩ := Array.any_eq_true'.1 hdigit
  simp only [Range.contains, Bool.and_eq_true, decide_eq_true_eq] at hc hc'
  have hrs := hapart r hr s hs
  omega

theorem isBlank_of_isDecimalDigit {c : Char} (h : isDecimalDigit c = true) : isBlank c = false := by
  rw [Bool.eq_false_iff]
  intro hblank
  rw [isDecimalDigit_of_isBlank hblank] at h
  cases h

theorem digits?_eq_some_iff {cs ds rest : List Char} : digits? cs = some (ds, rest) ↔
    IsDigits ds ∧ cs = ds ++ rest ∧ ∀ c, rest.head? = some c → isDecimalDigit c = false := by
  constructor
  · intro h
    rw [digits?] at h
    split at h
    · cases h
    next ds hne =>
      cases h
      refine ⟨⟨hne, List.all_eq_true.1 List.all_takeWhile⟩,
        List.takeWhile_append_dropWhile.symm, fun c hc => ?_⟩
      have hnot := List.head?_dropWhile_not isDecimalDigit cs
      rwa [hc] at hnot
  · rintro ⟨⟨hne, hds⟩, rfl, hrest⟩
    have htake : rest.takeWhile isDecimalDigit = [] ∧ rest.dropWhile isDecimalDigit = rest := by
      cases rest with
      | nil => exact ⟨rfl, rfl⟩
      | cons c rest =>
        have hc := hrest c rfl
        exact ⟨List.takeWhile_cons_of_neg (by simp [hc]), List.dropWhile_cons_of_neg (by simp [hc])⟩
    rw [digits?, List.takeWhile_append_of_pos hds, List.dropWhile_append_of_pos hds, htake.1,
      htake.2, List.append_nil]
    cases ds with
    | nil => exact absurd rfl hne
    | cons => rfl

theorem mention_eq (line column : List Char) : mention line column =
    'a' :: 't' :: ' ' :: (['l', 'i', 'n', 'e'] ++
      ' ' :: (line ++ ' ' :: (['c', 'o', 'l', 'u', 'm', 'n'] ++ ' ' :: column))) := by
  rfl

theorem digits?_after?_eq_some_iff {mark cs ds rest : List Char} :
    (after? mark cs).bind digits? = some (ds, rest) ↔
      IsDigits ds ∧ cs = mark ++ (ds ++ rest) ∧ ∀ c, rest.head? = some c → isDecimalDigit c = false := by
  rw [Option.bind_eq_some_iff]
  constructor
  · rintro ⟨after, hafter, hdigits⟩
    obtain ⟨hds, rfl, hrest⟩ := digits?_eq_some_iff.1 hdigits
    exact ⟨hds, after?_eq_some_iff.1 hafter, hrest⟩
  · rintro ⟨hds, rfl, hrest⟩
    exact ⟨_, after?_eq_some_iff.2 rfl, digits?_eq_some_iff.2 ⟨hds, rfl, hrest⟩⟩

theorem mention_append (line column rest : List Char) : mention line column ++ rest =
    "at line ".toList ++ (line ++ (" column ".toList ++ (column ++ rest))) := by
  have hassoc (mark mark' : List Char) : mark ++ (line ++ (mark' ++ column)) ++ rest =
      mark ++ (line ++ (mark' ++ (column ++ rest))) := by
    simp only [List.append_assoc]
  exact hassoc ..

theorem mention?_eq_some_iff {cs line column rest : List Char} :
    mention? cs = some (line, column, rest) ↔ IsDigits line ∧ IsDigits column ∧
      cs = mention line column ++ rest ∧ ∀ c, rest.head? = some c → isDecimalDigit c = false := by
  rw [mention_append]
  constructor
  · intro h
    obtain ⟨⟨l, after⟩, hl, h⟩ := Option.bind_eq_some_iff.1 h
    obtain ⟨⟨c, rest'⟩, hc, h⟩ := Option.bind_eq_some_iff.1 h
    cases h
    obtain ⟨hline, rfl, -⟩ := digits?_after?_eq_some_iff.1 hl
    obtain ⟨hcolumn, rfl, hrest⟩ := digits?_after?_eq_some_iff.1 hc
    exact ⟨hline, hcolumn, rfl, hrest⟩
  · rintro ⟨hline, hcolumn, rfl, hrest⟩
    have hblank (c : Char) (hc : (" column ".toList ++ (column ++ rest)).head? = some c) :
        isDecimalDigit c = false := by
      obtain ⟨⟩ : some ' ' = some c := hc
      exact isDecimalDigit_of_isBlank (by decide)
    exact Option.bind_eq_some_iff.2 ⟨(line, _), digits?_after?_eq_some_iff.2 ⟨hline, rfl, hblank⟩,
      Option.bind_eq_some_iff.2 ⟨(column, rest),
        digits?_after?_eq_some_iff.2 ⟨hcolumn, rfl, hrest⟩, rfl⟩⟩

/-- Every blank stands before something else, which is no `a`. -/
def Tight : List Char → Prop
  | [] => True
  | b :: cs => (isBlank b = true → ∃ d, cs.head? = some d ∧ isBlank d = false ∧ d ≠ 'a') ∧ Tight cs

theorem Tight.of_append {cs ds : List Char} (h : Tight (cs ++ ds)) : Tight ds := by
  induction cs with
  | nil => exact h
  | cons c cs ih => exact ih h.2

theorem tight_append {word cs : List Char} (hword : word.any isBlank = false) (h : Tight cs) :
    Tight (word ++ cs) := by
  induction word with
  | nil => exact h
  | cons c word ih =>
    obtain ⟨hc, hword⟩ := Bool.or_eq_false_iff.1 hword
    exact ⟨fun hblank => absurd (hc.symm.trans hblank) Bool.false_ne_true, ih hword⟩

theorem tight_blank_append {word cs : List Char} (hne : word ≠ []) (hword : word.any isBlank = false)
    (ha : 'a' ∉ word) (h : Tight cs) : Tight (' ' :: (word ++ cs)) := by
  refine ⟨fun _ => ?_, tight_append hword h⟩
  cases word with
  | nil => exact absurd rfl hne
  | cons c word =>
    exact ⟨c, rfl, (Bool.or_eq_false_iff.1 hword).1, fun hc => ha (hc ▸ List.mem_cons_self ..)⟩

theorem tight_blank_digits {ds cs : List Char} (hds : IsDigits ds) (h : Tight cs) :
    Tight (' ' :: (ds ++ cs)) := by
  refine tight_blank_append hds.1 (List.any_eq_false.2 fun c hc => ?_) (fun ha => ?_) h
  · exact Bool.eq_false_iff.1 (isBlank_of_isDecimalDigit (hds.2 c hc))
  · exact absurd (hds.2 _ ha) (by decide +kernel)

theorem tight_mention {line column : List Char} (hline : IsDigits line) (hcolumn : IsDigits column) :
    Tight (mention line column) := by
  have hcolumn : Tight (' ' :: (column ++ [])) := tight_blank_digits hcolumn trivial
  rw [List.append_nil] at hcolumn
  rw [mention_eq]
  refine tight_append (show ['a', 't'].any isBlank = false by decide) ?_
  refine tight_blank_append (by decide) (by decide) (by decide) (tight_blank_digits hline ?_)
  exact tight_blank_append (by decide) (by decide) (by decide) hcolumn

/-- A blank, and then another one or the first letter of a mention. -/
def Parts (cs : List Char) : Prop :=
  ∃ b d rest, cs = b :: d :: rest ∧ isBlank b = true ∧ (isBlank d = true ∨ d = 'a')

theorem parts_ending {blanks : List Char} (hne : blanks ≠ []) (hblanks : AllBlank blanks)
    (line column : List Char) : Parts (blanks ++ mention line column) := by
  cases blanks with
  | nil => exact absurd rfl hne
  | cons b blanks =>
    obtain ⟨hb, hblanks⟩ := List.forall_mem_cons.1 hblanks
    cases blanks with
    | nil => exact ⟨b, 'a', _, rfl, hb, .inr rfl⟩
    | cons d blanks => exact ⟨b, d, _, rfl, hb, .inl (hblanks d (List.mem_cons_self ..))⟩

/-- A mention that begins before such blanks also ends before them. -/
theorem Parts.mention_end {tail cs line column rest : List Char} (htail : Parts tail)
    (hline : IsDigits line) (hcolumn : IsDigits column)
    (h : cs ++ tail = mention line column ++ rest) : ∃ more, cs = mention line column ++ more := by
  obtain ⟨b, d, after, rfl, hb, hd⟩ := htail
  rcases List.append_eq_append_iff.1 h with ⟨more, hmore, hparts⟩ | ⟨more, hmore, -⟩
  · rcases more with _ | ⟨c, _ | ⟨e, more⟩⟩
    · exact ⟨[], by rw [hmore, List.append_nil, List.append_nil]⟩
    -- the blank is inside of the mention, but what follows it is not
    all_goals
      obtain ⟨hbc, hparts⟩ := List.cons.inj hparts
      obtain ⟨e', he', hnot, hne⟩ := (hmore ▸ tight_mention hline hcolumn).of_append.1 (hbc ▸ hb)
      cases he'
    obtain ⟨hde, -⟩ := List.cons.inj hparts
    rw [← hde] at hnot hne
    rcases hd with hd | hd
    · exact absurd (hnot.symm.trans hd) Bool.false_ne_true
    · exact absurd hd hne
  · exact ⟨more, hmore⟩

theorem Parts.not_digit {tail cs : List Char} (htail : Parts tail)
    (hcs : ∀ c, cs.head? = some c → isDecimalDigit c = false) :
    ∀ c, (cs ++ tail).head? = some c → isDecimalDigit c = false := by
  obtain ⟨b, d, after, rfl, hb, -⟩ := htail
  intro c hc
  cases cs with
  | nil =>
    cases hc
    exact isDecimalDigit_of_isBlank hb
  | cons => exact hcs c hc

theorem mention?_append {tail : List Char} (htail : Parts tail) (cs : List Char) :
    mention? (cs ++ tail) =
      (mention? cs).map fun found => (found.1, found.2.1, found.2.2 ++ tail) := by
  cases h : mention? cs with
  | some found =>
    obtain ⟨line, column, rest⟩ := found
    obtain ⟨hline, hcolumn, rfl, hrest⟩ := mention?_eq_some_iff.1 h
    exact mention?_eq_some_iff.2
      ⟨hline, hcolumn, List.append_assoc .., htail.not_digit hrest⟩
  | none =>
    rw [Option.map_none, Option.eq_none_iff_forall_ne_some]
    rintro ⟨line, column, rest⟩ hfound
    obtain ⟨hline, hcolumn, heq, hrest⟩ := mention?_eq_some_iff.1 hfound
    obtain ⟨more, rfl⟩ := htail.mention_end hline hcolumn heq
    obtain rfl : more ++ tail = rest := List.append_cancel_left ((List.append_assoc ..).symm.trans heq)
    have hmore (c : Char) (hc : more.head? = some c) : isDecimalDigit c = false := by
      refine hrest c ?_
      rw [List.head?_append, hc, Option.some_or]
    rw [mention?_eq_some_iff.2 ⟨hline, hcolumn, rfl, hmore⟩] at h
    cases h

theorem mention?_eq_none_of_ne {c : Char} (hc : c ≠ 'a') (cs : List Char) :
    mention? (c :: cs) = none := by
  rw [Option.eq_none_iff_forall_ne_some]
  rintro ⟨line, column, rest⟩ h
  obtain ⟨-, -, heq, -⟩ := mention?_eq_some_iff.1 h
  rw [mention_eq] at heq
  exact hc (List.cons.inj heq).1

theorem mention?_of_beginsAt {cs line column : List Char} (h : BeginsAt cs line column) :
    ∃ after, mention? cs = some (line, column, after) := by
  obtain ⟨after, h⟩ := h
  exact ⟨after, mention?_eq_some_iff.2 h⟩

theorem beginsAt_of_mention? {cs line column after : List Char}
    (h : mention? cs = some (line, column, after)) : BeginsAt cs line column :=
  ⟨after, mention?_eq_some_iff.1 h⟩

theorem not_beginsAt_of_mention? {cs : List Char} (h : mention? cs = none) (line column : List Char) :
    ¬ BeginsAt cs line column := by
  intro hbegins
  obtain ⟨after, hafter⟩ := mention?_of_beginsAt hbegins
  rw [h] at hafter
  cases hafter

theorem not_beginsAt_nil (line column : List Char) : ¬ BeginsAt [] line column :=
  not_beginsAt_of_mention? rfl line column

/-- A text that begins with no mention mentions what its rest does. -/
theorem mentions_cons_iff {c : Char} {cs : List Char} (h : mention? (c :: cs) = none) :
    Mentions (c :: cs) ↔ Mentions cs := by
  constructor
  · rintro ⟨before, rest, line, column, heq, hrest⟩
    cases before with
    | nil => exact absurd (heq ▸ hrest) (not_beginsAt_of_mention? h line column)
    | cons d before => exact ⟨before, rest, line, column, (List.cons.inj heq).2, hrest⟩
  · rintro ⟨before, rest, line, column, rfl, hrest⟩
    exact ⟨c :: before, rest, line, column, rfl, hrest⟩

theorem not_mentions_nil : ¬ Mentions [] := by
  rintro ⟨before, rest, line, column, heq, hrest⟩
  obtain ⟨-, rfl⟩ := List.append_eq_nil_iff.1 heq.symm
  exact not_beginsAt_nil line column hrest

theorem firstPosition_of_mention? {cs line column rest : List Char}
    (h : mention? cs = some (line, column, rest)) :
    firstPosition cs = (wordOrZero line, wordOrZero column) := by
  cases cs with
  | nil => exact absurd (beginsAt_of_mention? h) (not_beginsAt_nil line column)
  | cons c cs => rw [firstPosition, h]

theorem firstPosition_cons {c : Char} {cs : List Char} (h : mention? (c :: cs) = none) :
    firstPosition (c :: cs) = firstPosition cs := by
  rw [firstPosition, h]

theorem firstPosition_of_first {cs : List Char} {line column : Nat}
    (h : FirstMention cs line column) : firstPosition cs = (line, column) := by
  obtain ⟨before, rest, ls, ks, rfl, hbegins, rfl, rfl, hleast⟩ := h
  induction before with
  | nil =>
    obtain ⟨after, hafter⟩ := mention?_of_beginsAt hbegins
    exact firstPosition_of_mention? hafter
  | cons c before ih =>
    have hnone : mention? (c :: (before ++ rest)) = none := by
      rw [Option.eq_none_iff_forall_ne_some]
      rintro ⟨ls', ks', after⟩ hsome
      have hle := hleast [] _ ls' ks' rfl (beginsAt_of_mention? hsome)
      cases hle
    rw [List.cons_append, firstPosition_cons hnone]
    refine ih fun before' rest' ls' ks' heq hbegins' => ?_
    have hle := hleast (c :: before') rest' ls' ks' (by rw [List.cons_append, heq]; rfl) hbegins'
    exact Nat.le_of_succ_le_succ hle

theorem exists_first {cs : List Char} (h : Mentions cs) :
    ∃ line column, FirstMention cs line column := by
  induction cs with
  | nil => exact absurd h not_mentions_nil
  | cons c cs ih =>
    cases hmention : mention? (c :: cs) with
    | some found =>
      obtain ⟨ls, ks, after⟩ := found
      exact ⟨_, _, [], _, ls, ks, rfl, beginsAt_of_mention? hmention, rfl, rfl,
        fun _ _ _ _ _ _ => Nat.zero_le _⟩
    | none =>
      obtain ⟨line, column, before, rest, ls, ks, rfl, hbegins, hline, hcolumn, hleast⟩ :=
        ih ((mentions_cons_iff hmention).1 h)
      refine ⟨line, column, c :: before, rest, ls, ks, rfl, hbegins, hline, hcolumn, ?_⟩
      intro before' rest' ls' ks' heq hbegins'
      cases before' with
      | nil => exact absurd (heq ▸ hbegins') (not_beginsAt_of_mention? hmention ls' ks')
      | cons d before' =>
        exact Nat.succ_le_succ (hleast before' rest' ls' ks' (List.cons.inj heq).2 hbegins')

theorem mention?_cons_append {c : Char} {cs tail : List Char} (htail : Parts tail)
    (h : mention? (c :: cs) = none) : mention? (c :: (cs ++ tail)) = none := by
  rw [← List.cons_append, mention?_append htail, h, Option.map_none]

/-- Before such blanks, the first mention stays the first. -/
theorem firstPosition_append_of_mentions {cs tail : List Char} (htail : Parts tail)
    (h : Mentions cs) : firstPosition (cs ++ tail) = firstPosition cs := by
  induction cs with
  | nil => exact absurd h not_mentions_nil
  | cons c cs ih =>
    cases hmention : mention? (c :: cs) with
    | some found =>
      have happend := mention?_append htail (c :: cs)
      rw [hmention] at happend
      rw [firstPosition_of_mention? happend, firstPosition_of_mention? hmention]
    | none =>
      rw [List.cons_append, firstPosition_cons (mention?_cons_append htail hmention),
        firstPosition_cons hmention]
      exact ih ((mentions_cons_iff hmention).1 h)

theorem firstPosition_append_of_not_mentions {cs tail : List Char} (htail : Parts tail)
    (h : ¬ Mentions cs) : firstPosition (cs ++ tail) = firstPosition tail := by
  induction cs with
  | nil => rfl
  | cons c cs ih =>
    cases hmention : mention? (c :: cs) with
    | some found =>
      exact absurd ⟨[], _, _, _, rfl, beginsAt_of_mention? hmention⟩ h
    | none =>
      rw [List.cons_append, firstPosition_cons (mention?_cons_append htail hmention)]
      exact ih fun hcs => h ((mentions_cons_iff hmention).2 hcs)

theorem mention?_mention {line column : List Char} (hline : IsDigits line) (hcolumn : IsDigits column) :
    mention? (mention line column) = some (line, column, []) :=
  mention?_eq_some_iff.2 ⟨hline, hcolumn, (List.append_nil _).symm, by simp⟩

theorem firstPosition_blanks {blanks line column : List Char} (hblanks : AllBlank blanks)
    (hline : IsDigits line) (hcolumn : IsDigits column) :
    firstPosition (blanks ++ mention line column) = (wordOrZero line, wordOrZero column) := by
  induction blanks with
  | nil => exact firstPosition_of_mention? (mention?_mention hline hcolumn)
  | cons b blanks ih =>
    obtain ⟨hb, hblanks⟩ := List.forall_mem_cons.1 hblanks
    have hne : b ≠ 'a' := by
      rintro rfl
      exact absurd hb (by decide)
    rw [List.cons_append, firstPosition_cons (mention?_eq_none_of_ne hne _)]
    exact ih hblanks

theorem isEnding_blanks {blanks line column : List Char} (hne : blanks ≠ [])
    (hblanks : AllBlank blanks) (hline : IsDigits line) (hcolumn : IsDigits column) :
    isEnding (blanks ++ mention line column) = true := by
  have htrim : trimStart (blanks ++ mention line column) = mention line column := by
    rw [mention_eq, trimStart_append_cons (by decide), trimStart_of_allBlank hblanks, List.nil_append]
  rw [isEnding, htrim, mention?_mention hline hcolumn]
  cases blanks with
  | nil => exact absurd rfl hne
  | cons b blanks => simpa using hblanks b (List.mem_cons_self ..)

/-- Behind a text that does not end in a blank, a mention at the end is not one of that text. -/
theorem isEnding_append {cs tail : List Char} {d : Char} (htail : Parts tail)
    (hd : isBlank d = false) : isEnding (cs ++ d :: tail) = false := by
  rw [isEnding, trimStart_append_cons hd, List.append_cons (trimStart cs), mention?_append htail]
  cases mention? (trimStart cs ++ [d]) with
  | none => exact Bool.and_false _
  | some found =>
    obtain ⟨b, e, after, rfl, -, -⟩ := htail
    simp

theorem withoutEnding_append_cons {cs tail : List Char} {d : Char} (htail : Parts tail)
    (hending : isEnding tail = true) (hd : isBlank d = false) :
    withoutEnding (cs ++ d :: tail) = cs ++ [d] := by
  have hnot (cs : List Char) : ¬ isEnding (cs ++ d :: tail) = true := by
    rw [isEnding_append htail hd]
    exact Bool.false_ne_true
  induction cs with
  | nil =>
    have htail' : withoutEnding tail = [] := by
      obtain ⟨b, e, after, rfl, -, -⟩ := htail
      rw [withoutEnding, if_pos hending]
    exact (if_neg (hnot [])).trans (congrArg (d :: ·) htail')
  | cons c cs ih => exact (if_neg (hnot (c :: cs))).trans (congrArg (c :: ·) ih)

theorem withoutEnding_append {body tail : List Char} (htail : Parts tail)
    (hending : isEnding tail = true) (hbody : body.getLast?.any isBlank = false) :
    withoutEnding (body ++ tail) = body := by
  rcases List.eq_nil_or_concat body with rfl | ⟨cs, d, rfl⟩
  · obtain ⟨b, e, after, rfl, -, -⟩ := htail
    rw [List.nil_append, withoutEnding, if_pos hending]
  · rw [List.concat_eq_append] at hbody ⊢
    rw [List.getLast?_concat] at hbody
    rw [← List.append_cons]
    exact withoutEnding_append_cons htail hending hbody

def IsWord (ds : List Char) (n : Nat) : Prop :=
  ds ≠ [] ∧ (∀ c ∈ ds, Decimal.isDigit c = true) ∧ Nat.ofDigitChars 10 ds 0 = n ∧ n < Nat.pow 2 32

instance (ds : List Char) (n : Nat) : Decidable (IsWord ds n) :=
  decidable_of_iff (ds ≠ [] ∧ ds.all Decimal.isDigit = true ∧ Nat.ofDigitChars 10 ds 0 = n ∧ n < Nat.pow 2 32)
    (by rw [IsWord, List.all_eq_true])

/-- The text ends in a mention of the line and the column behind blanks. All blanks before the mention
belong to the ending, so none is left at the end of the body. -/
def EndsAt (cs body : List Char) (line column : Nat) : Prop :=
  ∃ blanks ls ks, blanks ≠ [] ∧ AllBlank blanks ∧ IsWord ls line ∧ IsWord ks column ∧
    cs = body ++ (blanks ++ mention ls ks) ∧ body.getLast?.any isBlank = false

theorem IsWord.wordOrZero {ds : List Char} {n : Nat} (h : IsWord ds n) : wordOrZero ds = n := by
  obtain ⟨hne, hds, hn, hlt⟩ := h
  rw [Load.wordOrZero, Decimal.natural?_ten_eq_some_iff.2 ⟨hne, hds, hn⟩]
  exact if_pos hlt

theorem isDecimalDigit_of_isDigit {c : Char} (h : Decimal.isDigit c = true) :
    isDecimalDigit c = true := by
  simp only [Decimal.isDigit, Bool.and_eq_true, decide_eq_true_eq] at h
  refine Array.any_eq_true'.2 ⟨(48, 57), by decide +kernel, ?_⟩
  simp only [Range.contains, Bool.and_eq_true, decide_eq_true_eq]
  exact h

theorem IsWord.isDigits {ds : List Char} {n : Nat} (h : IsWord ds n) : IsDigits ds :=
  ⟨h.1, fun c hc => isDecimalDigit_of_isDigit (h.2.1 c hc)⟩

/-- Of a message that ends in a mention, that mention is left out. Reported is the first position of all
that are mentioned: it is the one of the ending if and only if no other is mentioned before, or the
first one before is the same. -/
theorem parseError_of_ending {message : String} {body : List Char} {line column : Nat}
    (h : EndsAt message.toList body line column) :
    (∀ l k, FirstMention body l k → parseError message = .parse (String.ofList body) l k) ∧
      (parseError message = .parse (String.ofList body) line column ↔
        (Mentions body → FirstMention body line column)) := by
  obtain ⟨blanks, ls, ks, hne, hblanks, hls, hks, hmessage, hbody⟩ := h
  have htail := parts_ending hne hblanks ls ks
  have hparse : parseError message = .parse (String.ofList body) (firstPosition message.toList).1
      (firstPosition message.toList).2 := by
    have hending := isEnding_blanks hne hblanks hls.isDigits hks.isDigits
    have hwithout := withoutEnding_append htail hending hbody
    rw [← hmessage] at hwithout
    rw [parseError, hwithout]
  have hfirst (l k : Nat) (h : FirstMention body l k) : firstPosition message.toList = (l, k) := by
    obtain ⟨before, rest, l', k', hbefore, hbegins, -⟩ := id h
    rw [hmessage, firstPosition_append_of_mentions htail ⟨before, rest, l', k', hbefore, hbegins⟩,
      firstPosition_of_first h]
  refine ⟨fun l k h => by rw [hparse, hfirst l k h], fun heq hmentions => ?_, fun h => ?_⟩
  · obtain ⟨l, k, hlk⟩ := exists_first hmentions
    rw [hparse, hfirst l k hlk] at heq
    obtain ⟨-, rfl, rfl⟩ := LoadError.parse.inj heq
    exact hlk
  · by_cases hmentions : Mentions body
    · rw [hparse, hfirst line column (h hmentions)]
    · have hlast := firstPosition_blanks hblanks hls.isDigits hks.isDigits
      rw [hls.wordOrZero, hks.wordOrZero] at hlast
      rw [hparse, hmessage, firstPosition_append_of_not_mentions htail hmentions, hlast]

theorem parseError_of_only_position :
    EndsAt "invalid YAML at line 5 column 10".toList "invalid YAML".toList 5 10 ∧
      parseError "invalid YAML at line 5 column 10" = .parse "invalid YAML" 5 10 := by
  have hends : EndsAt "invalid YAML at line 5 column 10".toList "invalid YAML".toList 5 10 := by
    refine ⟨[' '], ['5'], ['1', '0'], ?_⟩
    exact ⟨by decide, by decide, by decide, by decide, by decide +kernel, by decide +kernel⟩
  have hnot : ¬ Mentions "invalid YAML".toList := by
    rintro ⟨before, rest, ls, ks, heq, after, -, -, rfl, -⟩
    have hmem : 'u' ∈ "invalid YAML".toList := by
      rw [heq, mention_eq]
      simp
    exact absurd hmem (by decide)
  exact ⟨hends, (parseError_of_ending hends).2.2 fun h => absurd h hnot⟩

/-- A text whose outline breaks off before the first node cannot be read. -/
theorem ofText_of_outline {text : String} {fault : Yaml.Fault}
    (h : Yaml.Outline.ofText text.toList = ⟨some [], some fault, false⟩) :
    Yaml.Tree.ofText text = .error (.fault fault) := by
  have hnode (n : Nat) :
      (Yaml.Document.ofOutline ⟨some [], some fault, false⟩ []).node (n + 1) {} {} =
        .error (.fault fault) := by
    rw [Yaml.Document.node]
    rfl
  rw [Yaml.Tree.ofText, Yaml.Document.read, h]
  exact congrArg (· >>= _) (hnode _)

/-- The quote that is not closed stands in column 2. What is reported is the end of the text, twice. -/
theorem tree_open_quote : ∃ e, Yaml.Tree.ofText " '" = .error e ∧
    EndsAt e.text.toList ("found unexpected end of stream at line 1 column 3, " ++
      "while scanning a quoted scalar").toList 1 2 ∧
    tree " '" = .error (.parse ("found unexpected end of stream at line 1 column 3, " ++
      "while scanning a quoted scalar") 1 3) := by
  have htext : Yaml.Tree.ofText " '" = .error (.fault (.located .endInScalar ⟨2, 0, 2⟩
      (some (.quotedScalar, ⟨1, 0, 1⟩)))) := ofText_of_outline (by cbv)
  refine ⟨_, htext, ?_, ?_⟩
  · refine ⟨[' '], ['1'], ['2'], ?_⟩
    exact ⟨by decide, by decide, by decide, by decide, by decide +kernel, by decide +kernel⟩
  · rw [tree, Reader.tree, Reader.yaml, htext]
    exact congrArg Except.error (by decide +kernel)

end LiveDoc.Load
