import LiveDoc.Proofs.InlineFunctions

namespace LiveDoc.Line

open Text

/-- A text begins with a construct, behind blanks. -/
inductive Begins : List Char → Prop
  | function (hb : AllBlank blanks) : Begins (blanks ++ '(' :: (args ++ ')' :: rest))
  | inclusion (hb : AllBlank blanks) (hd : isBlank d = true) :
    Begins (blanks ++ ("@include".toList ++ d :: rest))

/-- A construct stands behind a colon. -/
def HoldsValue (cs : List Char) : Prop :=
  ∃ before rest, cs = before ++ ':' :: rest ∧ Begins rest

/-- A construct stands behind the dash that the text begins with. -/
def HoldsItem (cs : List Char) : Prop :=
  ∃ indent rest, AllBlank indent ∧ cs = indent ++ '-' :: rest ∧ Begins rest

section

variable {construct : Construct} {place : Place} {next indent key start cs out line w : List Char}
  {d e : Char}

theorem Begins.append (h : Begins cs) (ends : List Char) : Begins (cs ++ ends) := by
  cases h with
  | @function blanks args rest hb =>
    have hfunction : Begins (blanks ++ '(' :: (args ++ ')' :: (rest ++ ends))) := .function hb
    simpa using hfunction
  | @inclusion blanks d rest hb hd =>
    have hinclusion : Begins (blanks ++ ("@include".toList ++ d :: (rest ++ ends))) :=
      .inclusion hb hd
    simpa using hinclusion

theorem Begins.of_append_singleton (h : Begins (cs ++ [d])) (hd : isBlank d = false)
    (hclose : d ≠ ')') : Begins cs := by
  generalize hline : cs ++ [d] = line at h
  cases h with
  | @function blanks args rest hb =>
    rcases rest.eq_nil_or_concat with rfl | ⟨rest, e, rfl⟩
    · have hsplit : cs ++ [d] = (blanks ++ '(' :: args) ++ [')'] := by simpa using hline
      obtain ⟨-, hlast⟩ := List.append_inj' hsplit rfl
      exact absurd (List.cons.inj hlast).1 hclose
    · have hsplit : cs ++ [d] = (blanks ++ '(' :: (args ++ ')' :: rest)) ++ [e] := by
        simpa using hline
      obtain ⟨rfl, -⟩ := List.append_inj' hsplit rfl
      exact .function hb
  | @inclusion blanks e rest hb he =>
    rcases rest.eq_nil_or_concat with rfl | ⟨rest, e', rfl⟩
    · have hsplit : cs ++ [d] = (blanks ++ "@include".toList) ++ [e] := by simpa using hline
      obtain ⟨-, hlast⟩ := List.append_inj' hsplit rfl
      rw [(List.cons.inj hlast).1, he] at hd
      cases hd
    · have hsplit : cs ++ [d] = (blanks ++ ("@include".toList ++ e :: rest)) ++ [e'] := by
        simpa using hline
      obtain ⟨rfl, -⟩ := List.append_inj' hsplit rfl
      exact .inclusion hb he

theorem Begins.of_fills (h : construct.Fills {} next cs out) : Begins cs := by
  cases h with
  | multiline hb hn he => exact .function hb
  | inline hb hn hbody => exact .function hb
  | inclusion hb hd hn => exact .inclusion hb hd

theorem Begins.exists_fills (h : Begins cs) (next : List Char) (hn : '\n' ∉ cs) :
    ∃ construct out, Construct.Fills {} next construct cs out := by
  cases h with
  | @function blanks args rest hb =>
    simp only [List.mem_append, List.mem_cons, not_or] at hn
    obtain ⟨-, -, hargs, -, hrest⟩ := hn
    exact ⟨.inline, _, .inline hb hargs hrest⟩
  | @inclusion blanks d rest hb hd =>
    have hpath : '\n' ∉ trim (d :: rest) := by
      intro hmem
      have hrest := mem_of_mem_trim hmem
      exact hn (by simp [List.mem_cons.1 hrest])
    exact ⟨.inclusion, _, .inclusion hb hd hpath⟩

theorem exists_expands_iff (next : List Char) (hn : '\n' ∉ line) :
    (∃ construct place w, Expands {} next construct place line w) ↔
      HoldsValue line ∨ HoldsItem line := by
  constructor
  · rintro ⟨construct, place, w, h⟩
    cases h with
    | @key indent before rest out hi hbody hkey hout =>
      exact .inl ⟨indent ++ before, rest, by simp, .of_fills hout⟩
    | @item indent rest out hi hout => exact .inr ⟨indent, rest, hi, rfl, .of_fills hout⟩
  · rintro (⟨before, rest, rfl, h⟩ | ⟨indent, rest, hi, rfl, h⟩)
    · obtain ⟨hbefore, hrest⟩ := not_or.1 (fun hmem => hn (List.mem_append.2 hmem))
      have hbehind := fun hmem => hrest (List.mem_cons_of_mem _ hmem)
      obtain ⟨construct, out, hfills⟩ := h.exists_fills next hbehind
      have hsome := expand?_key_isSome hbefore hfills.written?_isSome
      exact ⟨construct, .key, _, expands_expandOr hsome⟩
    · obtain ⟨-, hrest⟩ := not_or.1 (fun hmem => hn (List.mem_append.2 hmem))
      have hbehind := fun hmem => hrest (List.mem_cons_of_mem _ hmem)
      obtain ⟨construct, out, hfills⟩ := h.exists_fills next hbehind
      exact ⟨construct, .item, _, .item hi hfills⟩

theorem foldl_expandOr_of_not_expands {c : Config} {others : List (Construct × Place)}
    (h : ∀ sought ∈ others, ∀ w, ¬ Expands c next sought.1 sought.2 line w) :
    others.foldl (expandOr c next) line = line := by
  induction others with
  | nil => rfl
  | cons sought others ih =>
    obtain ⟨hsought, hothers⟩ := List.forall_mem_cons.1 h
    have hsame := (expandOr_eq_or_expands c next line sought).resolve_right (hsought _)
    rw [List.foldl_cons, hsame]
    exact ih hothers

/-- An expansion is not undone by those after it. -/
theorem nonblanks_lt_foldl_expandOr {others : List (Construct × Place)} (hn : '\n' ∉ line)
    {sought : Construct × Place} (hmem : sought ∈ others)
    (h : Expands {} next sought.1 sought.2 line w) :
    nonblanks line < nonblanks (others.foldl (expandOr {} next) line) := by
  induction others with
  | nil => cases hmem
  | cons first others ih =>
    rw [List.foldl_cons]
    rcases expandOr_eq_or_expands {} next line first with hsame | hexpands
    · rw [hsame]
      rcases List.mem_cons.1 hmem with rfl | hmem
      · have hexpands := expands_expandOr (h.expand?_isSome hn)
        exact absurd hexpands.nonblanks_lt (by rw [hsame]; exact Nat.lt_irrefl _)
      · exact ih hmem
    · exact Nat.lt_of_lt_of_le hexpands.nonblanks_lt (nonblanks_le_foldl_expandOr next others _)

theorem mem_order (construct : Construct) (place : Place) : (construct, place) ∈ order := by
  cases construct <;> cases place <;> decide

theorem expand_of_not_holds (hn : '\n' ∉ line) (hvalue : ¬ HoldsValue line)
    (hitem : ¬ HoldsItem line) : expand {} next line = line := by
  apply foldl_expandOr_of_not_expands
  intro sought _ w hw
  exact ((exists_expands_iff next hn).1 ⟨_, _, w, hw⟩).elim hvalue hitem

theorem nonblanks_lt_expand (next : List Char) (hn : '\n' ∉ line)
    (h : HoldsValue line ∨ HoldsItem line) : nonblanks line < nonblanks (expand {} next line) := by
  obtain ⟨construct, place, w, hw⟩ := (exists_expands_iff next hn).2 h
  exact nonblanks_lt_foldl_expandOr hn (mem_order construct place) hw

/-- A line is left as it is if no construct stands in it. -/
theorem expand_eq_self_iff (next : List Char) (hn : '\n' ∉ line) :
    expand {} next line = line ↔ ¬ HoldsValue line ∧ ¬ HoldsItem line := by
  constructor
  · intro hsame
    apply not_or.1
    intro h
    have hlt := nonblanks_lt_expand next hn h
    rw [hsame] at hlt
    exact Nat.lt_irrefl _ hlt
  · intro h
    exact expand_of_not_holds hn h.1 h.2

def quoted (quote : Char) (text : List Char) : List Char :=
  quote :: (text ++ [quote])

def IsQuote (quote : Char) : Prop :=
  quote = '"' ∨ quote = '\''

theorem IsQuote.isBlank (h : IsQuote d) : isBlank d = false := by
  rcases h with rfl | rfl <;> decide

theorem IsQuote.ne_of_mem (h : IsQuote d) (he : e ∈ ":()-@\n".toList) : d ≠ e := by
  intro heq
  subst heq
  rcases h with rfl | rfl <;> revert he <;> decide

theorem Begins.head (h : Begins (' ' :: d :: cs)) (hd : Text.isBlank d = false) :
    d = '(' ∨ d = '@' := by
  have hblank : AllBlank [' '] := by decide
  generalize hline : ' ' :: d :: cs = line at h
  cases h with
  | function hb => exact .inl (append_cons_inj hline hblank hb hd (by decide)).2.1
  | inclusion hb _ => exact .inr (append_cons_inj hline hblank hb hd (by decide)).2.1

theorem IsQuote.not_begins {quote : Char} (h : IsQuote quote) (text : List Char) :
    ¬ Begins (' ' :: quoted quote text) := by
  intro hbegins
  rcases hbegins.head h.isBlank with heq | heq
  · exact h.ne_of_mem (by decide) heq
  · exact h.ne_of_mem (by decide) heq

theorem HoldsValue.of_append (h : HoldsValue (start ++ cs)) (hs : ':' ∉ start) :
    HoldsValue cs := by
  obtain ⟨before, rest, heq, hrest⟩ := h
  obtain ⟨skipped, -, rfl⟩ := split_of_not_mem hs heq
  exact ⟨skipped, rest, rfl, hrest⟩

theorem HoldsValue.of_append_singleton (h : HoldsValue (cs ++ [d])) (hd : isBlank d = false)
    (hclose : d ≠ ')') (hcolon : d ≠ ':') : HoldsValue cs := by
  obtain ⟨before, rest, heq, hrest⟩ := h
  rcases rest.eq_nil_or_concat with rfl | ⟨rest, e, rfl⟩
  · obtain ⟨-, hlast⟩ := List.append_inj' heq rfl
    exact absurd (List.cons.inj hlast).1 hcolon
  · have hsplit : cs ++ [d] = (before ++ ':' :: rest) ++ [e] := by simpa using heq
    obtain ⟨rfl, hlast⟩ := List.append_inj' hsplit rfl
    obtain ⟨rfl, -⟩ := List.cons.inj hlast
    rw [List.concat_eq_append] at hrest
    exact ⟨before, rest, rfl, hrest.of_append_singleton hd hclose⟩

theorem HoldsValue.append (h : HoldsValue cs) (start ends : List Char) :
    HoldsValue (start ++ (cs ++ ends)) := by
  obtain ⟨before, rest, rfl, hrest⟩ := h
  exact ⟨start ++ before, rest ++ ends, by simp, hrest.append ends⟩

/-- What stands in quotes is searched like all other text. -/
theorem holdsValue_quoted {quote : Char} {text : List Char} (hq : IsQuote quote)
    (hs : ':' ∉ start) : HoldsValue (start ++ quoted quote text) ↔ HoldsValue text := by
  have hcolon : quote ≠ ':' := hq.ne_of_mem (by decide)
  have hclose : quote ≠ ')' := hq.ne_of_mem (by decide)
  have hsplit : start ++ quoted quote text = (start ++ [quote]) ++ (text ++ [quote]) := by
    simp [quoted]
  rw [hsplit]
  constructor
  · intro h
    have hfirst : ':' ∉ start ++ [quote] := by simp [hs, hcolon.symm]
    exact (h.of_append hfirst).of_append_singleton hq.isBlank hclose hcolon
  · intro h
    exact h.append _ _

theorem holdsValue_keyLine_quoted {quote : Char} {text : List Char} (hq : IsQuote quote)
    (hi : AllBlank indent) (hk : ':' ∉ key) :
    HoldsValue (keyLine indent key (quoted quote text)) ↔ HoldsValue text := by
  have hstart : ':' ∉ indent ++ key := by simp [hi.noColon, hk]
  rw [keyLine, ← List.append_assoc]
  constructor
  · intro h
    obtain ⟨before, rest, heq, hrest⟩ := h.of_append hstart
    cases before with
    | nil =>
      obtain ⟨-, rfl⟩ := List.cons.inj heq
      exact absurd hrest (hq.not_begins text)
    | cons e before =>
      obtain ⟨-, heq⟩ := List.cons.inj heq
      have hblank : ':' ∉ [' '] := by decide
      exact (holdsValue_quoted hq hblank).1 ⟨before, rest, heq, hrest⟩
  · intro h
    have hvalue := h.append (indent ++ key ++ [':', ' ', quote]) [quote]
    simpa [quoted] using hvalue

theorem HoldsItem.of_append (h : HoldsItem (indent ++ cs)) (hi : AllBlank indent) :
    HoldsItem cs := by
  obtain ⟨blanks, rest, hb, heq, hrest⟩ := h
  obtain ⟨skipped, rfl, rfl⟩ := split_of_not_mem (hi.not_mem (by decide)) heq
  have hskipped : AllBlank skipped := fun c hc => hb c (List.mem_append_right _ hc)
  exact ⟨skipped, rest, hskipped, rfl, hrest⟩

theorem HoldsItem.append (h : HoldsItem cs) (hi : AllBlank indent) (ends : List Char) :
    HoldsItem (indent ++ (cs ++ ends)) := by
  obtain ⟨blanks, rest, hb, rfl, hrest⟩ := h
  have hblanks : AllBlank (indent ++ blanks) := by
    intro c hc
    exact (List.mem_append.1 hc).elim (hi c) (hb c)
  exact ⟨indent ++ blanks, rest ++ ends, hblanks, by simp, hrest.append ends⟩

theorem Begins.of_append_colon (h : Begins (cs ++ ':' :: out)) (ho : '(' ∉ cs) : Begins cs := by
  generalize hline : cs ++ ':' :: out = line at h
  cases h with
  | @function blanks args rest hb =>
    have hfirst : ':' ∉ blanks ++ ['('] := by simp [hb.noColon]
    have hsplit : (blanks ++ ['(']) ++ (args ++ ')' :: rest) = cs ++ ':' :: out := by
      simpa using hline.symm
    obtain ⟨skipped, rfl, -⟩ := split_of_not_mem hfirst hsplit
    simp at ho
  | @inclusion blanks e rest hb he =>
    have hne : ':' ≠ e := by
      rintro rfl
      exact absurd he (by decide)
    have hfirst : ':' ∉ blanks ++ ("@include".toList ++ [e]) := by simp [hb.noColon, hne]
    have hsplit : (blanks ++ ("@include".toList ++ [e])) ++ rest = cs ++ ':' :: out := by
      simpa using hline.symm
    obtain ⟨skipped, rfl, -⟩ := split_of_not_mem hfirst hsplit
    have hinclusion : Begins (blanks ++ ("@include".toList ++ e :: skipped)) := .inclusion hb he
    simpa using hinclusion

theorem holdsItem_keyLine {value : List Char} (hi : AllBlank indent) (hk : ':' ∉ key)
    (ho : '(' ∉ key) : HoldsItem (keyLine indent key value) ↔ HoldsItem key := by
  constructor
  · intro h
    obtain ⟨blanks, rest, hb, heq, hrest⟩ := h.of_append hi
    have hdash : ':' ∉ blanks ++ ['-'] := by simp [hb.noColon]
    have hsplit : (blanks ++ ['-']) ++ rest = key ++ ':' :: ' ' :: value := by
      simpa using heq.symm
    obtain ⟨skipped, rfl, rfl⟩ := split_of_not_mem hdash hsplit
    have hopen : '(' ∉ skipped := fun hmem => ho (List.mem_append_right _ hmem)
    exact ⟨blanks, skipped, hb, by simp, hrest.of_append_colon hopen⟩
  · intro h
    exact h.append hi _

theorem not_holdsItem_quoted {quote : Char} {text : List Char} (hq : IsQuote quote)
    (hi : AllBlank indent) : ¬ HoldsItem (itemLine indent (quoted quote text)) := by
  rintro ⟨blanks, rest, hb, heq, hrest⟩
  obtain ⟨-, -, rfl⟩ := append_cons_inj heq hi hb (by decide) (by decide)
  exact hq.not_begins text hrest

/-- A scalar in quotes is left as it is, whatever the next line, if no construct stands behind a colon
of its text, and in front of it none stands behind a dash. -/
theorem expand_quoted_scalar {quote : Char} {text : List Char} (hq : IsQuote quote)
    (hi : AllBlank indent) (hkey : ':' ∉ key ∧ '(' ∉ key)
    (hn : '\n' ∉ indent ++ key ++ text) (next : List Char) :
    (expand {} next (keyLine indent key (quoted quote text)) =
        keyLine indent key (quoted quote text) ↔ ¬ HoldsValue text ∧ ¬ HoldsItem key) ∧
    (expand {} next (itemLine indent (quoted quote text)) = itemLine indent (quoted quote text) ↔
      ¬ HoldsValue text) := by
  have hnewline : '\n' ≠ quote := (hq.ne_of_mem (by decide)).symm
  simp only [List.mem_append, not_or] at hn
  obtain ⟨⟨hindent, hoff⟩, htext⟩ := hn
  constructor
  · have hline : '\n' ∉ keyLine indent key (quoted quote text) := by
      simp [keyLine, quoted, hindent, hoff, htext, hnewline]
    rw [expand_eq_self_iff next hline, holdsValue_keyLine_quoted hq hi hkey.1,
      holdsItem_keyLine hi hkey.1 hkey.2]
  · have hline : '\n' ∉ itemLine indent (quoted quote text) := by
      simp [itemLine, quoted, hindent, htext, hnewline]
    have hstart : ':' ∉ indent ++ ['-', ' '] := by simp [hi.noColon]
    have hsplit : itemLine indent (quoted quote text) =
        (indent ++ ['-', ' ']) ++ quoted quote text := by simp [itemLine]
    have hvalue : HoldsValue (itemLine indent (quoted quote text)) ↔ HoldsValue text := by
      rw [hsplit]
      exact holdsValue_quoted hq hstart
    rw [expand_eq_self_iff next hline, hvalue]
    exact and_iff_left (not_holdsItem_quoted hq hi)

theorem expand_quoted_remark :
    expand {} "  ".toList "  see: \"http://a.b (draft)\"".toList =
        "  see: \"http://a.b (draft)\"".toList ∧
      expand {} "  ".toList "  - \"http://a.b (draft)\"".toList =
        "  - \"http://a.b (draft)\"".toList ∧
      ¬ HoldsValue "http://a.b (draft)".toList := by
  have hi : AllBlank "  ".toList := by decide
  have hkey : ':' ∉ "see".toList ∧ '(' ∉ "see".toList := by decide
  have hn : '\n' ∉ "  ".toList ++ "see".toList ++ "http://a.b (draft)".toList := by decide
  have hquoted := expand_quoted_scalar (.inl rfl) hi hkey hn "  ".toList
  have hsame : expand {} "  ".toList "  - \"http://a.b (draft)\"".toList =
      "  - \"http://a.b (draft)\"".toList := by decide +kernel
  have hvalue : ¬ HoldsValue "http://a.b (draft)".toList := hquoted.2.1 hsame
  have hitem : ¬ HoldsItem "see".toList := by
    rintro ⟨indent, rest, hindent, heq, -⟩
    have hmem : '-' ∈ "see".toList := by rw [heq]; simp
    exact absurd hmem (by decide)
  exact ⟨hquoted.1.2 ⟨hvalue, hitem⟩, hsame, hvalue⟩

/-- A colon in quotes with brackets behind it is taken for the end of a key. -/
theorem expand_quoted_function :
    expand {} [] "key: \"a: (b)\"".toList = "key: \"a: __YAML_SCRIPT_FN__(b) \"".toList ∧
      expand {} [] "- 'see: @include x'".toList = "- 'see: __YAML_SCRIPT_INCLUDE__ x'".toList := by
  decide +kernel

end

end LiveDoc.Line
