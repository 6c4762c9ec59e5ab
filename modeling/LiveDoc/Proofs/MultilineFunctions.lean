import LiveDoc.Proofs.PlainLines

namespace LiveDoc.Line

open Text

def ofLines (lines : List (List Char)) : String :=
  String.ofList (joinWith ['\n'] lines)

def nextIndentation : List (List Char) → List Char
  | [] => []
  | line :: _ => indentation line

def expandBefore (c : Config) (after : List (List Char)) : List (List Char) → List (List Char)
  | [] => []
  | line :: lines => expand c (nextIndentation (lines ++ after)) line :: expandBefore c after lines

section

variable {c : Config} {lines before body after : List (List Char)} {line : List Char}

theorem expandLines_cons (c : Config) (line : List Char) (lines : List (List Char)) :
    expandLines c (line :: lines) =
      expand c (nextIndentation lines) line :: expandLines c lines := by
  cases lines <;> rfl

theorem expandLines_append (c : Config) (lines after : List (List Char)) :
    expandLines c (lines ++ after) = expandBefore c after lines ++ expandLines c after := by
  induction lines with
  | nil => rfl
  | cons line lines ih =>
    rw [List.cons_append, expandLines_cons, ih]
    rfl

theorem expandText_ofLines (c : Config) (hne : lines ≠ []) (hn : ∀ line ∈ lines, '\n' ∉ line) :
    expandText c (ofLines lines) = ofLines (expandLines c lines) := by
  rw [expandText, ofLines, String.toList_ofList, splitOn_joinWith hne hn]
  rfl

theorem allBlank_nextIndentation (lines : List (List Char)) :
    AllBlank (nextIndentation lines) := by
  cases lines with
  | nil => exact fun c hc => absurd hc List.not_mem_nil
  | cons line lines => exact allBlank_indentation line

theorem joinWith_cons {sep piece : List Char} {pieces : List (List Char)} (hne : pieces ≠ []) :
    joinWith sep (piece :: pieces) = piece ++ sep ++ joinWith sep pieces := by
  cases pieces with
  | nil => exact absurd rfl hne
  | cons next rest => rfl

/-- A separator inside of a piece is like one between two pieces. -/
theorem joinWith_append_cons (sep first second : List Char) (before after : List (List Char)) :
    joinWith sep (before ++ (first ++ sep ++ second) :: after) =
      joinWith sep (before ++ first :: second :: after) := by
  induction before with
  | nil =>
    cases after with
    | nil => rfl
    | cons next rest => simp [joinWith]
  | cons piece before ih =>
    rw [List.cons_append, List.cons_append, joinWith_cons (by simp), joinWith_cons (by simp), ih]

/-- So are some pieces that were joined before. -/
theorem joinWith_append_joinWith (sep : List Char) {pieces : List (List Char)} (hne : pieces ≠ [])
    (before after : List (List Char)) :
    joinWith sep (before ++ joinWith sep pieces :: after) =
      joinWith sep (before ++ (pieces ++ after)) := by
  induction pieces generalizing before with
  | nil => exact absurd rfl hne
  | cons piece pieces ih =>
    cases pieces with
    | nil => rfl
    | cons next rest =>
      rw [joinWith_cons (List.cons_ne_nil next rest), joinWith_append_cons, List.append_cons,
        ih (List.cons_ne_nil next rest)]
      simp

theorem nonblanks_joinWith (lines : List (List Char)) :
    nonblanks (joinWith ['\n'] lines) = nonblanks lines.flatten := by
  induction lines with
  | nil => rfl
  | cons line lines ih =>
    have hnewline : nonblanks ['\n'] = 0 := by decide
    cases lines with
    | nil => simp [joinWith]
    | cons next rest =>
      rw [joinWith_cons_cons, nonblanks_append, nonblanks_append, ih, hnewline, Nat.add_zero]
      exact (nonblanks_append line _).symm

theorem expandBefore_of_not_holds (hn : ∀ line ∈ body, '\n' ∉ line)
    (h : ∀ line ∈ body, ¬ HoldsValue line ∧ ¬ HoldsItem line) :
    expandBefore {} after body = body := by
  induction body with
  | nil => rfl
  | cons line body ih =>
    obtain ⟨hline, hbody⟩ := List.forall_mem_cons.1 hn
    obtain ⟨hholds, hothers⟩ := List.forall_mem_cons.1 h
    rw [expandBefore, expand_of_not_holds hline hholds.1 hholds.2, ih hbody hothers]

theorem nonblanks_le_expand (next line : List Char) :
    nonblanks line ≤ nonblanks (expand {} next line) :=
  nonblanks_le_foldl_expandOr next order line

theorem nonblanks_le_expandBefore (after body : List (List Char)) :
    nonblanks body.flatten ≤ nonblanks (expandBefore {} after body).flatten := by
  induction body with
  | nil => exact Nat.le_refl _
  | cons line body ih =>
    simp only [expandBefore, List.flatten_cons, nonblanks_append]
    exact Nat.add_le_add (nonblanks_le_expand _ line) ih

/-- A line that is expanded makes the text longer, blanks aside. -/
theorem nonblanks_lt_expandBefore (after : List (List Char)) (hn : '\n' ∉ line)
    (hmem : line ∈ body) (h : HoldsValue line ∨ HoldsItem line) :
    nonblanks body.flatten < nonblanks (expandBefore {} after body).flatten := by
  induction body with
  | nil => cases hmem
  | cons first body ih =>
    simp only [expandBefore, List.flatten_cons, nonblanks_append]
    rcases List.mem_cons.1 hmem with rfl | hmem
    · exact Nat.add_lt_add_of_lt_of_le (nonblanks_lt_expand _ hn h)
        (nonblanks_le_expandBefore after body)
    · exact Nat.add_lt_add_of_le_of_lt (nonblanks_le_expand _ first) (ih hmem)

end

/-- A key in front of its colon, without blanks around it. No bracket stands behind a colon in it. -/
structure IsHeaderKey (key : List Char) : Prop where
  trimmed : trim key = key
  oneLine : '\n' ∉ key
  noBracket : ∀ before rest, key = before ++ ':' :: rest → (trimStart rest).head? ≠ some '('

/-- The header of a function with these arguments, and the line that is written for it. -/
inductive Header (args : List Char) : List Char → List Char → Prop
  | key (hargs : Signal.Arguments args params) (hi : AllBlank indent) (hk : IsHeaderKey key)
    (he : AllBlank ends) (hn : '\n' ∉ indent ++ args ++ ends) :
    Header args (keyLine indent key (functionText args ends)) (keyLine indent key ['>'])
  | item (hargs : Signal.Arguments args params) (hi : AllBlank indent) (he : AllBlank ends)
    (hn : '\n' ∉ indent ++ args ++ ends) :
    Header args (itemLine indent (functionText args ends)) (itemLine indent ['>'])

section

variable {next args ends indent key header opening : List Char} {params : List String}
  {construct : Construct}

theorem trimStart_eq_of_trim {cs : List Char} (h : trim cs = cs) : trimStart cs = cs := by
  apply (List.dropWhile_suffix isBlank).eq_of_length_le
  calc cs.length = (trim cs).length := by rw [h]
    _ ≤ (trimStart cs).length := by
      obtain ⟨ends, -, heq⟩ := exists_trimEnd (trimStart cs)
      rw [congrArg List.length heq, trim, List.length_append]
      exact Nat.le_add_right _ _

theorem trimEnd_eq_of_trim {cs : List Char} (h : trim cs = cs) : trimEnd cs = cs := by
  rw [trim, trimStart_eq_of_trim h] at h
  exact h

/-- The key of a line ends at the first colon that the construct can stand behind. -/
theorem keyed_of_eq_none {tail : List Char → Option α} (before : List Char)
    {skipped rest : List Char} {a : α}
    (hnone : ∀ start behind, skipped = start ++ ':' :: behind →
      tail (behind ++ ':' :: rest) = none)
    (hn : '\n' ∉ trimEnd (before.reverse ++ skipped)) (h : tail rest = some a) :
    keyed tail before (skipped ++ ':' :: rest) =
      some (trimEnd (before.reverse ++ skipped), a) := by
  induction skipped generalizing before with
  | nil =>
    rw [List.append_nil] at hn ⊢
    simp [keyed, keyEnd?, oneLine?_eq_some_iff.2 ⟨hn, rfl⟩, h]
  | cons d skipped ih =>
    have hlater : ∀ start behind, skipped = start ++ ':' :: behind →
        tail (behind ++ ':' :: rest) = none := by
      intro start behind heq
      exact hnone (d :: start) behind (by rw [heq]; rfl)
    have hfirst : (if d = ':' then keyEnd? tail before (skipped ++ ':' :: rest) else none) =
        none := by
      split
      next hd =>
        have htail := hnone [] skipped (by rw [hd]; rfl)
        cases hkey : oneLine? (trimEnd before.reverse) <;> simp [keyEnd?, hkey, htail]
      · rfl
    rw [List.cons_append, keyed, hfirst, ih _ hlater (by simpa using hn)]
    simp

variable (next) in
theorem written?_header (hargs : Signal.Arguments args params) (hn : '\n' ∉ args)
    (he : AllBlank ends) :
    Construct.multiline.written? {} next (' ' :: functionText args ends) =
      some ('>' :: '\n' :: next ++ Signal.functionHead args) := by
  have hclose : ')' ∉ args := hargs.not_mem (by decide) (by decide) (by decide)
  have hends : onlyBlanks? ends = some () := if_pos (List.all_eq_true.2 he)
  rw [Construct.written?, arguments?_functionText hclose hn hends]
  rfl

variable (next) in
theorem IsHeaderKey.written?_eq_none (hk : IsHeaderKey key) {start behind rest : List Char}
    (heq : key = start ++ ':' :: behind) :
    Construct.multiline.written? {} next (behind ++ ':' :: rest) = none := by
  have hcolon : isBlank ':' = false := by decide
  have hopen : isBlank '(' = false := by decide
  rw [Option.eq_none_iff_forall_not_mem]
  intro out hout
  have hfills := fills_of_written? hout
  generalize hcs : behind ++ ':' :: rest = cs at hfills
  cases hfills with
  | @multiline blanks args' ends' hb _ _ =>
    have hfirst := congrArg trimStart hcs
    rw [trimStart_append_cons hcolon] at hfirst
    have hrest : trimStart (blanks ++ '(' :: (args' ++ ')' :: ends')) =
        '(' :: (args' ++ ')' :: ends') := by
      rw [trimStart_append_cons hopen, trimStart_of_allBlank hb, List.nil_append]
    have hnot := hk.noBracket start behind heq
    cases htrim : trimStart behind with
    | nil =>
      rw [htrim] at hfirst
      exact absurd (List.cons.inj (hfirst.trans hrest)).1 (by decide)
    | cons d ds =>
      rw [htrim] at hfirst hnot
      exact hnot (congrArg some (List.cons.inj (hfirst.trans hrest)).1)

theorem expandOr_keyLine_of_keyed {c : Config} {value out : List Char} (hi : AllBlank indent)
    (hk : trim key = key)
    (h : keyed (construct.written? c next) [] (key ++ ':' :: ' ' :: value) = some (key, out)) :
    expandOr c next (keyLine indent key value) (construct, .key) = keyLine indent key out := by
  have hcolon : isBlank ':' = false := by decide
  have hstart : trimStart (keyLine indent key value) = key ++ ':' :: ' ' :: value := by
    rw [keyLine, trimStart_append hi, trimStart_append_cons hcolon, trimStart_eq_of_trim hk]
  have hindent : indentation (keyLine indent key value) = indent := by
    have hline := indentation_append_trimStart (keyLine indent key value)
    rw [hstart] at hline
    exact List.append_cancel_right hline
  rw [expandOr, expand?]
  simp only [hstart, hindent, h]
  simp [keyLine]

theorem not_expands_key_of_noColon {c : Config} {line w : List Char} (hline : ':' ∉ line) :
    ¬ Expands c next construct .key line w := by
  intro h
  rw [← List.append_nil line] at h
  obtain ⟨before, rest, out, heq, -⟩ := h.exists_colon hline
  cases before <;> cases heq

theorem expandOr_key_of_noColon {c : Config} {line : List Char} (hline : ':' ∉ line) :
    expandOr c next line (construct, .key) = line :=
  (expandOr_eq_or_expands c next line _).resolve_right (not_expands_key_of_noColon hline)

theorem expandOr_header_key (hargs : Signal.Arguments args params) (hi : AllBlank indent)
    (hk : IsHeaderKey key) (he : AllBlank ends) (hn : '\n' ∉ args) :
    expandOr {} next (keyLine indent key (functionText args ends)) (.multiline, .key) =
      keyLine indent key ['>'] ++ ['\n'] ++ (next ++ Signal.functionHead args) := by
  have hkey : trimEnd ([].reverse ++ key) = key := trimEnd_eq_of_trim hk.trimmed
  have hkeyed := keyed_of_eq_none [] (fun start behind heq => hk.written?_eq_none next heq)
    (by rw [hkey]; exact hk.oneLine) (written?_header next hargs hn he)
  rw [hkey] at hkeyed
  rw [expandOr_keyLine_of_keyed hi hk.trimmed hkeyed]
  simp [keyLine]

theorem expandOr_header_item (hargs : Signal.Arguments args params) (hi : AllBlank indent)
    (he : AllBlank ends) (hn : '\n' ∉ args) :
    expandOr {} next (itemLine indent (functionText args ends)) (.multiline, .item) =
      itemLine indent ['>'] ++ ['\n'] ++ (next ++ Signal.functionHead args) := by
  rw [expandOr, itemLine, expand?_item hi, written?_header next hargs hn he]
  simp [itemLine]

theorem expandOr_header_item_key (hargs : Signal.Arguments args params) (hi : AllBlank indent)
    (he : AllBlank ends) :
    expandOr {} next (itemLine indent (functionText args ends)) (construct, .key) =
      itemLine indent (functionText args ends) := by
  have hcolon : ':' ∉ args := hargs.not_mem (by decide) (by decide) (by decide)
  have hline : ':' ∉ itemLine indent (functionText args ends) := by
    simp [itemLine, functionText, hi.noColon, he.noColon, hcolon]
  exact expandOr_key_of_noColon hline

/-- A header becomes the line that opens a text, with the function behind the indentation of the next
line. -/
theorem Header.expand_eq (h : Header args header opening) (hnext : AllBlank next) :
    expand {} next header = opening ++ ['\n'] ++ (next ++ Signal.functionHead args) := by
  have hhead : ∃ rest, Signal.functionHead args = '_' :: rest := ⟨_, rfl⟩
  obtain ⟨rest, hrest⟩ := hhead
  cases h with
  | @key params indent key ends hargs hi hk he hn =>
    have hbroken : Broken (keyLine indent key ['>'] ++ ['\n'] ++ (next ++ '_' :: rest)) :=
      ⟨indent ++ (key ++ [':', ' ']), next, rest, hnext, by simp [keyLine]⟩
    have hargsLine : '\n' ∉ args := fun hmem => hn (by simp [hmem])
    rw [expand, order, List.foldl_cons, expandOr_header_key hargs hi hk he hargsLine, hrest]
    exact hbroken.foldl_expandOr _
  | @item params indent ends hargs hi he hn =>
    have hbroken : Broken (itemLine indent ['>'] ++ ['\n'] ++ (next ++ '_' :: rest)) :=
      ⟨indent ++ ['-', ' '], next, rest, hnext, by simp [itemLine]⟩
    have hargsLine : '\n' ∉ args := fun hmem => hn (by simp [hmem])
    rw [expand, order, List.foldl_cons, expandOr_header_item_key hargs hi he, List.foldl_cons,
      expandOr_header_item hargs hi he hargsLine, hrest]
    exact hbroken.foldl_expandOr _

theorem Header.oneLine (h : Header args header opening) : '\n' ∉ header := by
  cases h with
  | @key params indent key ends hargs hi hk he hn =>
    simp only [List.mem_append, not_or] at hn
    simp [keyLine, functionText, hn, hk.oneLine]
  | @item params indent ends hargs hi he hn =>
    simp only [List.mem_append, not_or] at hn
    simp [itemLine, functionText, hn]

end

/-- The lines behind the header of a function are left as they are, and stand behind the two lines
that are written for the header, if no construct stands in one of them. -/
theorem expandText_multiline_function {before body after : List (List Char)}
    {args header opening : List Char} (h : Header args header opening)
    (hn : ∀ line ∈ before ++ (body ++ after), '\n' ∉ line) :
    expandText {} (ofLines (before ++ header :: (body ++ after))) =
      ofLines (expandBefore {} (header :: (body ++ after)) before ++
        opening :: (nextIndentation (body ++ after) ++ Signal.functionHead args) ::
          (body ++ expandLines {} after)) ↔
    ∀ line ∈ body, ¬ HoldsValue line ∧ ¬ HoldsItem line := by
  have hne : before ++ header :: (body ++ after) ≠ [] := by simp
  have hall : ∀ line ∈ before ++ header :: (body ++ after), '\n' ∉ line := by
    intro line hmem
    rcases List.mem_append.1 hmem with hmem | hmem
    · exact hn line (List.mem_append_left _ hmem)
    · rcases List.mem_cons.1 hmem with rfl | hmem
      · exact h.oneLine
      · exact hn line (List.mem_append_right _ hmem)
  have hbody : ∀ line ∈ body, '\n' ∉ line := by
    intro line hmem
    exact hn line (List.mem_append_right _ (List.mem_append_left _ hmem))
  have hexpand : expandText {} (ofLines (before ++ header :: (body ++ after))) =
      ofLines (expandBefore {} (header :: (body ++ after)) before ++
        opening :: (nextIndentation (body ++ after) ++ Signal.functionHead args) ::
          (expandBefore {} after body ++ expandLines {} after)) := by
    rw [expandText_ofLines _ hne hall, expandLines_append, expandLines_cons, expandLines_append,
      h.expand_eq (allBlank_nextIndentation _), ofLines, joinWith_append_cons, ← ofLines]
  rw [hexpand]
  constructor
  · intro heq line hmem
    apply not_or.1
    intro hholds
    have hlt := nonblanks_lt_expandBefore after (hbody line hmem) hmem hholds
    have hsum := congrArg (fun text => nonblanks text.toList) heq
    simp only [ofLines, String.toList_ofList, nonblanks_joinWith, List.flatten_append,
      List.flatten_cons, nonblanks_append] at hsum
    omega
  · intro hholds
    rw [expandBefore_of_not_holds hbody hholds]

theorem expandText_multiline_price :
    expandText {} "price: (n)  \n  if (n > 9)\n    return [{a: n}];\nrest: 1" =
        "price: >\n  __YAML_SCRIPT_FN__(n)\n  if (n > 9)\n    return [{a: n}];\nrest: 1" ∧
      ¬ HoldsValue "    return [{a: n}];".toList := by
  have hpieces : ["n".toList] ≠ [] := List.cons_ne_nil _ _
  have hargs : Signal.Arguments "n".toList ["n"] := .names hpieces (by decide)
  have hkey : IsHeaderKey "price".toList := by
    refine ⟨by decide, by decide, ?_⟩
    intro before rest heq
    have hmem : ':' ∈ "price".toList := by rw [heq]; simp
    exact absurd hmem (by decide)
  have hindent : AllBlank [] := by decide
  have hends : AllBlank "  ".toList := by decide
  have hheader : Header "n".toList "price: (n)  ".toList "price: >".toList :=
    .key hargs hindent hkey hends (by decide)
  have hbody := @expandText_multiline_function []
    ["  if (n > 9)".toList, "    return [{a: n}];".toList] ["rest: 1".toList] _ _ _ hheader
    (by decide)
  have hexpand : expandText {} "price: (n)  \n  if (n > 9)\n    return [{a: n}];\nrest: 1" =
      "price: >\n  __YAML_SCRIPT_FN__(n)\n  if (n > 9)\n    return [{a: n}];\nrest: 1" := by
    decide +kernel
  exact ⟨hexpand, (hbody.1 hexpand _ (by simp)).1⟩

/-- The second branch of a conditional in brackets is taken for a function, and so is a term in
brackets behind a dash. -/
theorem expandText_multiline_ternary :
    expandText {} "f: (a)\n  return a ? 1 : (2);" =
        "f: >\n  __YAML_SCRIPT_FN__(a)\n  return a ? 1: __YAML_SCRIPT_FN__(2) ;" ∧
      expandText {} "f: (a)\n  return a\n  - (1);" =
        "f: >\n  __YAML_SCRIPT_FN__(a)\n  return a\n  - __YAML_SCRIPT_FN__(1) ;" := by
  decide +kernel

end LiveDoc.Line
