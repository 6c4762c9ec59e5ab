import LiveDoc.Proofs.Expansion
import LiveDoc.Proofs.Signals

namespace LiveDoc.Line

open Text

/-- A key as it stands in front of its colon. -/
structure IsKey (key : List Char) : Prop where
  nonempty : key ≠ []
  trimmed : trim key = key
  noDash : key.head? ≠ some '-'
  noColon : ':' ∉ key
  oneLine : '\n' ∉ key

/-- A function in one line, with its parameters and the text behind its brackets. -/
structure IsInline (args : List Char) (params : List String) (body : List Char) : Prop where
  arguments : Signal.Arguments args params
  oneLine : '\n' ∉ args ++ body
  notBlank : ¬ AllBlank body

def keyLine (indent key value : List Char) : List Char :=
  indent ++ (key ++ ':' :: ' ' :: value)

def itemLine (indent value : List Char) : List Char :=
  indent ++ '-' :: ' ' :: value

def functionText (args body : List Char) : List Char :=
  '(' :: (args ++ ')' :: body)

def markedText (args body : List Char) : List Char :=
  Signal.functionHead args ++ ' ' :: body

def EndsClosed (cs : List Char) : Prop :=
  ∃ before ends, AllBlank ends ∧ cs = before ++ ')' :: ends

/-- Brackets stand behind a colon. -/
def HoldsFunction (cs : List Char) : Prop :=
  ∃ before blanks args rest, AllBlank blanks ∧
    cs = before ++ ':' :: (blanks ++ '(' :: (args ++ ')' :: rest))

/-- An include stands behind a colon. -/
def HoldsInclusion (cs : List Char) : Prop :=
  ∃ before blanks d rest, AllBlank blanks ∧ isBlank d = true ∧
    cs = before ++ ':' :: (blanks ++ ("@include".toList ++ d :: rest))

section

variable {next indent key args body start line w : List Char} {params : List String}
  {construct : Construct} {place : Place}

theorem IsKey.exists_cons (h : IsKey key) :
    ∃ d rest, key = d :: rest ∧ isBlank d = false ∧ d ≠ '-' := by
  obtain ⟨d, rest, rfl⟩ := List.exists_cons_of_ne_nil h.nonempty
  refine ⟨d, rest, rfl, ?_, ?_⟩
  · obtain ⟨ends, -, heq⟩ := exists_trimEnd (trimStart (d :: rest))
    rw [← trim, h.trimmed] at heq
    exact isBlank_of_head?_trimStart (by rw [heq]; rfl)
  · intro hdash
    exact h.noDash (by rw [hdash]; rfl)

theorem IsKey.trimEnd_eq (h : IsKey key) : trimEnd key = key := by
  obtain ⟨d, rest, rfl, hd, -⟩ := h.exists_cons
  have htrim := h.trimmed
  rwa [trim, trimStart, List.dropWhile_cons_of_neg (by simp [hd])] at htrim

theorem IsInline.args_oneLine (h : IsInline args params body) : '\n' ∉ args :=
  fun hmem => h.oneLine (List.mem_append_left _ hmem)

theorem IsInline.body_oneLine (h : IsInline args params body) : '\n' ∉ body :=
  fun hmem => h.oneLine (List.mem_append_right _ hmem)

theorem IsInline.noColon (h : IsInline args params body) : ':' ∉ args :=
  h.arguments.not_mem (by decide) (by decide) (by decide)

theorem IsInline.noClose (h : IsInline args params body) : ')' ∉ args :=
  h.arguments.not_mem (by decide) (by decide) (by decide)

theorem itemLine_functionText (indent args body : List Char) :
    itemLine indent (functionText args body) =
      (indent ++ '-' :: ' ' :: '(' :: (args ++ [')'])) ++ body := by
  simp [itemLine, functionText]

theorem itemLine_markedText (indent args body : List Char) :
    itemLine indent (markedText args body) =
      (indent ++ '-' :: ' ' :: (Signal.functionHead args ++ [' '])) ++ body := by
  simp [itemLine, markedText]

theorem keyLine_functionText (indent key args body : List Char) :
    keyLine indent key (functionText args body) =
      (indent ++ (key ++ ':' :: ' ' :: '(' :: (args ++ [')']))) ++ body := by
  simp [keyLine, functionText]

theorem keyLine_markedText (indent key args body : List Char) :
    keyLine indent key (markedText args body) =
      (indent ++ (key ++ ':' :: ' ' :: (Signal.functionHead args ++ [' ']))) ++ body := by
  simp [keyLine, markedText]

theorem Expands.endsClosed (h : Expands {} next .multiline place line w) : EndsClosed line := by
  cases h with
  | @key indent before rest out hi hbody hn hout =>
    cases hout with
    | @multiline blanks args ends hb hargs he =>
      exact ⟨indent ++ (before ++ ':' :: (blanks ++ '(' :: args)), ends, he, by simp⟩
  | @item indent rest out hi hout =>
    cases hout with
    | @multiline blanks args ends hb hargs he =>
      exact ⟨indent ++ '-' :: (blanks ++ '(' :: args), ends, he, by simp⟩

theorem EndsClosed.of_append (h : EndsClosed (start ++ body)) (hb : ¬ AllBlank body) :
    EndsClosed body := by
  obtain ⟨before, ends, he, heq⟩ := h
  rcases List.append_eq_append_iff.1 heq with ⟨skipped, -, hbody⟩ | ⟨skipped, -, hends⟩
  · exact ⟨skipped, ends, he, hbody⟩
  · cases skipped with
    | nil => exact ⟨[], ends, he, hends.symm⟩
    | cons d skipped =>
      obtain ⟨-, rfl⟩ := List.cons.inj hends
      exact absurd (fun c hc => he c (List.mem_append_right _ hc)) hb

variable (next) in
theorem EndsClosed.fills (h : EndsClosed body) (hargs : '\n' ∉ args) (hbody : '\n' ∉ body) :
    ∃ out, Construct.multiline.Fills {} next (' ' :: functionText args body) out := by
  obtain ⟨before, ends, he, rfl⟩ := h
  have hblank : AllBlank [' '] := by decide
  have hn : '\n' ∉ args ++ ')' :: before := by
    intro hmem
    rcases List.mem_append.1 hmem with hmem | hmem
    · exact hargs hmem
    · exact hbody (List.mem_append_left _ (List.mem_of_ne_of_mem (by decide) hmem))
  have htext : ' ' :: functionText args (before ++ ')' :: ends) =
      [' '] ++ (['('] ++ ((args ++ ')' :: before) ++ ([')'] ++ ends))) := by
    simp [functionText]
  rw [htext]
  exact ⟨_, .multiline hblank hn he⟩

theorem expand_of_not_endsClosed (h : ¬ EndsClosed line) :
    expand {} next line = (order.drop 2).foldl (expandOr {} next) line := by
  have hnone : ∀ place, expandOr {} next line (.multiline, place) = line := by
    intro place
    exact (expandOr_eq_or_expands {} next line _).resolve_right fun hexpands => h hexpands.endsClosed
  simp only [expand, order, List.foldl_cons, List.drop_succ_cons, List.drop_zero, hnone]

/-- A line with a function that goes on in the next lines does not stay one line. -/
theorem expand_ne_of_multiline (hnext : AllBlank next)
    (h : (expand? {} next .multiline place line).isSome = true) (hw : '\n' ∉ w) :
    expand {} next line ≠ w := by
  rw [expand, order, List.foldl_cons, List.foldl_cons]
  have hbroken : Broken (expandOr {} next (expandOr {} next line (.multiline, .key))
      (.multiline, .item)) := by
    rcases expandOr_eq_or_expands {} next line (.multiline, .key) with heq | hexpands
    · rw [heq]
      cases place with
      | key =>
        have hexpands := expands_expandOr h
        exact absurd hexpands.nonblanks_lt (by rw [heq]; exact Nat.lt_irrefl _)
      | item => exact (expands_expandOr h).broken hnext
    · rw [(hexpands.broken hnext).expandOr_eq]
      exact hexpands.broken hnext
  rw [hbroken.foldl_expandOr]
  intro heq
  exact hw (heq ▸ hbroken.newline_mem)

/-- A construct of a key stands behind the first colon or a later one. -/
theorem Expands.exists_colon (h : Expands c next construct .key (start ++ line) w)
    (hs : ':' ∉ start) :
    ∃ before rest out, line = before ++ ':' :: rest ∧ construct.Fills c next rest out := by
  generalize hline : start ++ line = whole at h
  cases h with
  | @key indent before rest out hi hbody hn hout =>
    rw [← List.append_assoc] at hline
    obtain ⟨skipped, -, rfl⟩ := split_of_not_mem hs hline
    exact ⟨skipped, rest, out, rfl, hout⟩

theorem Expands.holdsFunction (h : Expands {} next .inline .key (start ++ body) w)
    (hs : ':' ∉ start) : HoldsFunction body := by
  obtain ⟨before, rest, out, rfl, hfills⟩ := h.exists_colon hs
  cases hfills with
  | @inline blanks args rest hb hn hbody => exact ⟨before, blanks, args, rest, hb, rfl⟩

theorem holdsInclusion_of_fills {before rest out : List Char}
    (h : Construct.inclusion.Fills {} next rest out) : HoldsInclusion (before ++ ':' :: rest) := by
  cases h with
  | @inclusion blanks d rest hb hd hn => exact ⟨before, blanks, d, rest, hb, hd, rfl⟩

theorem Expands.holdsInclusion (h : Expands {} next .inclusion .key (start ++ body) w)
    (hs : ':' ∉ start) : HoldsInclusion body := by
  obtain ⟨before, rest, out, rfl, hfills⟩ := h.exists_colon hs
  exact holdsInclusion_of_fills hfills

variable (next) in
theorem HoldsFunction.expands (h : HoldsFunction body) (hn : '\n' ∉ start ++ body) :
    Expands {} next .inline .key (start ++ body)
      (expandOr {} next (start ++ body) (.inline, .key)) := by
  obtain ⟨before, blanks, args, rest, hb, rfl⟩ := h
  simp only [List.mem_append, List.mem_cons, not_or] at hn
  obtain ⟨hstart, hbefore, -, -, -, hargs, -, hrest⟩ := hn
  have hfills : Construct.inline.Fills {} next (blanks ++ '(' :: (args ++ ')' :: rest)) _ :=
    .inline hb hargs hrest
  rw [← List.append_assoc]
  refine expands_expandOr (expand?_key_isSome ?_ hfills.written?_isSome)
  simp [hstart, hbefore]

variable (next) in
theorem HoldsInclusion.expands (h : HoldsInclusion body) (hn : '\n' ∉ start ++ body) :
    Expands {} next .inclusion .key (start ++ body)
      (expandOr {} next (start ++ body) (.inclusion, .key)) := by
  obtain ⟨before, blanks, d, rest, hb, hd, rfl⟩ := h
  have hpath : '\n' ∉ trim (d :: rest) := by
    intro hmem
    have hrest := mem_of_mem_trim hmem
    exact hn (by simp [List.mem_cons.1 hrest])
  have hfills : Construct.inclusion.Fills {} next
      (blanks ++ ("@include".toList ++ d :: rest)) _ := .inclusion hb hd hpath
  rw [← List.append_assoc]
  refine expands_expandOr (expand?_key_isSome ?_ hfills.written?_isSome)
  intro hmem
  rcases List.mem_append.1 hmem with hmem | hmem
  · exact hn (List.mem_append_left _ hmem)
  · exact hn (by simp [hmem])

theorem HoldsInclusion.foldl_ne (h : HoldsInclusion body) (hn : '\n' ∉ start ++ body)
    (others : List (Construct × Place)) :
    ((.inclusion, .key) :: others).foldl (expandOr {} next) (start ++ body) ≠ start ++ body := by
  have hgrowth := (h.expands next hn).nonblanks_lt
  have hlater := nonblanks_le_foldl_expandOr next others
    (expandOr {} next (start ++ body) (.inclusion, .key))
  intro heq
  rw [List.foldl_cons] at heq
  rw [heq] at hlater
  omega

theorem not_fills_markedText (out : List Char) :
    ¬ construct.Fills {} next (' ' :: markedText args body) out := by
  have hblank : AllBlank [' '] := by decide
  have hhead : ∃ rest, markedText args body = '_' :: rest := ⟨_, rfl⟩
  obtain ⟨rest, hrest⟩ := hhead
  intro h
  rw [hrest] at h
  generalize hcs : ' ' :: '_' :: rest = cs at h
  cases h with
  | multiline hb hn he =>
    exact absurd (append_cons_inj hcs hblank hb (by decide) (by decide)).2.1 (by decide)
  | inline hb hn hbody =>
    exact absurd (append_cons_inj hcs hblank hb (by decide) (by decide)).2.1 (by decide)
  | inclusion hb hd hn =>
    exact absurd (append_cons_inj hcs hblank hb (by decide) (by decide)).2.1 (by decide)

theorem arguments?_functionText {finish : List Char → Option α} {rest : List Char} {a : α}
    (hclose : ')' ∉ args) (hn : '\n' ∉ args) (h : finish rest = some a) :
    arguments? {} finish (' ' :: functionText args rest) = some (args, a) := by
  have htrim : trimStart (' ' :: functionText args rest) = functionText args rest := rfl
  have hafter : after? ({} : Config).functionOpen.toList (functionText args rest) =
      some (args ++ ')' :: rest) := after?_eq_some_iff.2 rfl
  have hfound : (after? ({} : Config).functionOpen.toList (functionText args rest)).bind
      (upTo ({} : Config).functionClose.toList finish) = some (args, a) := by
    rw [hafter, Option.bind_some]
    exact upTo_of_not_mem hclose hn h
  obtain ⟨others, hothers⟩ := afterBlanks_eq_cons (' ' :: functionText args rest)
  rw [arguments?, hothers, htrim, List.findSome?_cons, hfound]

variable (next) in
theorem written?_functionText (h : IsInline args params body) :
    Construct.inline.written? {} next (' ' :: functionText args body) =
      some (markedText args body) := by
  have hbody : oneLine? body = some body := oneLine?_eq_some_iff.2 ⟨h.body_oneLine, rfl⟩
  rw [Construct.written?, arguments?_functionText h.noClose h.args_oneLine hbody]
  rfl

theorem expandOr_keyLine (h : IsInline args params body) (hi : AllBlank indent) (hk : IsKey key) :
    expandOr {} next (keyLine indent key (functionText args body)) (.inline, .key) =
      keyLine indent key (markedText args body) := by
  have htrim := hk.trimEnd_eq
  obtain ⟨d, rest, rfl, hd, -⟩ := hk.exists_cons
  have hn : '\n' ∉ trimEnd (d :: rest) := by
    rw [htrim]
    exact hk.oneLine
  have hexpand := expand?_key hi hd hk.noColon hn (written?_functionText next h)
  rw [htrim] at hexpand
  rw [expandOr, keyLine, hexpand]
  rfl

theorem expandOr_itemLine (h : IsInline args params body) (hi : AllBlank indent) :
    expandOr {} next (itemLine indent (functionText args body)) (.inline, .item) =
      itemLine indent (markedText args body) := by
  rw [expandOr, itemLine, expand?_item hi, written?_functionText next h]
  rfl

/-- A line with a key in front is no item. -/
theorem expandOr_keyLine_item {value : List Char} (hi : AllBlank indent) (hk : IsKey key) :
    expandOr {} next (keyLine indent key value) (construct, .item) = keyLine indent key value := by
  refine (expandOr_eq_or_expands {} next _ _).resolve_right ?_
  obtain ⟨d, rest, rfl, hd, hne⟩ := hk.exists_cons
  generalize hw : expandOr {} next (keyLine indent (d :: rest) value) (construct, .item) = w
  generalize hline : keyLine indent (d :: rest) value = line
  intro h
  cases h with
  | item hi' hout => exact hne (append_cons_inj hline hi hi' hd (by decide)).2.1

theorem noColon_marked (h : IsInline args params body) :
    ':' ∉ ' ' :: (Signal.functionHead args ++ [' ']) := by
  have hmark : ':' ∉ Signal.Kind.function.mark.toList := by decide
  simp [Signal.functionHead, hmark, h.noColon]

/-- Behind the mark, only an include in the body is left to be found. -/
theorem Expands.holdsInclusion_keyLine (hin : IsInline args params body) (hi : AllBlank indent)
    (hk : IsKey key)
    (h : Expands {} next .inclusion .key (keyLine indent key (markedText args body)) w) :
    HoldsInclusion body := by
  have hstart : ':' ∉ indent ++ key := by
    simp [hi.noColon, hk.noColon]
  rw [keyLine, ← List.append_assoc] at h
  obtain ⟨before, rest, out, heq, hfills⟩ := h.exists_colon hstart
  cases before with
  | nil =>
    obtain ⟨-, rfl⟩ := List.cons.inj heq
    exact absurd hfills (not_fills_markedText out)
  | cons d before =>
    obtain ⟨-, heq⟩ := List.cons.inj heq
    have hmarked : (' ' :: (Signal.functionHead args ++ [' '])) ++ body = before ++ ':' :: rest :=
      Eq.trans (by simp [markedText]) heq
    obtain ⟨skipped, -, rfl⟩ := split_of_not_mem (noColon_marked hin) hmarked
    exact holdsInclusion_of_fills hfills

theorem Expands.holdsFunction_itemLine (hin : IsInline args params body) (hi : AllBlank indent)
    (h : Expands {} next .inline .key (itemLine indent (functionText args body)) w) :
    HoldsFunction body := by
  rw [itemLine_functionText] at h
  refine h.holdsFunction ?_
  simp [hi.noColon, hin.noColon]

theorem Expands.holdsInclusion_itemLine (hin : IsInline args params body) (hi : AllBlank indent)
    (h : Expands {} next .inclusion .key (itemLine indent (markedText args body)) w) :
    HoldsInclusion body := by
  rw [itemLine_markedText] at h
  refine h.holdsInclusion ?_
  intro hmem
  rcases List.mem_append.1 hmem with hmem | hmem
  · exact hi.not_mem (by decide) hmem
  · exact noColon_marked hin (List.mem_of_ne_of_mem (by decide) hmem)

theorem expandOr_itemLine_inclusion (hi : AllBlank indent) :
    expandOr {} next (itemLine indent (markedText args body)) (.inclusion, .item) =
      itemLine indent (markedText args body) := by
  cases hwritten : Construct.inclusion.written? {} next (' ' :: markedText args body) with
  | none =>
    rw [expandOr, itemLine, expand?_item hi, hwritten]
    rfl
  | some out => exact absurd (fills_of_written? hwritten) (not_fills_markedText out)

/-- What stands in front of the first colon stays. -/
theorem Expands.exists_body {d : Char} (h : Expands {} next construct .key (start ++ d :: body) w)
    (hs : ':' ∉ start) (hd : isBlank d = false) (hcolon : d ≠ ':') :
    ∃ body', w = start ++ d :: body' := by
  generalize hline : start ++ d :: body = line at h
  cases h with
  | @key indent before rest out hi hbody hn hout =>
    have hfirst : ':' ∉ start ++ [d] := by simp [hs, Ne.symm hcolon]
    have hsplit : (start ++ [d]) ++ body = (indent ++ before) ++ ':' :: rest := by
      simpa using hline
    obtain ⟨skipped, hbefore, -⟩ := split_of_not_mem hfirst hsplit
    cases before with
    | nil =>
      have hmem : d ∈ indent := by
        rw [List.append_nil] at hbefore
        simp [hbefore]
      exact absurd hmem (hi.not_mem hd)
    | cons e before =>
      have he : isBlank e = false := hbody e rfl
      have hkey : indent ++ trimEnd (e :: before) = start ++ d :: trimEnd skipped := by
        rw [← trimEnd_append_cons he, hbefore, List.append_assoc, List.singleton_append,
          trimEnd_append_cons hd, trimEnd_cons hd]
      refine ⟨trimEnd skipped ++ ':' :: ' ' :: out, ?_⟩
      rw [← List.append_assoc, hkey]
      simp

theorem newline_not_mem_markedText (h : IsInline args params body) :
    '\n' ∉ markedText args body := by
  have hmark : '\n' ∉ Signal.Kind.function.mark.toList := by decide
  simp [markedText, Signal.functionHead, hmark, h.args_oneLine, h.body_oneLine]

section

variable (hin : IsInline args params body) (hnext : AllBlank next) (hi : AllBlank indent)
  (hn : '\n' ∉ indent) (hk : IsKey key)

include hin hi hk in
theorem expand_keyLine_of_not_endsClosed (hends : ¬ EndsClosed body) :
    expand {} next (keyLine indent key (functionText args body)) =
      [(.inclusion, .key), (.inclusion, .item)].foldl (expandOr {} next)
        (keyLine indent key (markedText args body)) := by
  have hnot : ¬ EndsClosed (keyLine indent key (functionText args body)) := by
    rw [keyLine_functionText]
    exact fun h => hends (h.of_append hin.notBlank)
  rw [expand_of_not_endsClosed hnot]
  simp only [order, List.drop_succ_cons, List.drop_zero, List.foldl_cons, List.foldl_nil,
    expandOr_keyLine hin hi hk, expandOr_keyLine_item hi hk]

include hin hnext hi hn hk in
/-- The function of a key is expanded where it stands, and nothing else of its line changes. -/
theorem expand_keyLine :
    expand {} next (keyLine indent key (functionText args body)) =
        keyLine indent key (markedText args body) ↔
      ¬ EndsClosed body ∧ ¬ HoldsInclusion body := by
  have hmarked : '\n' ∉ keyLine indent key (markedText args body) := by
    simp [keyLine, hn, hk.oneLine, newline_not_mem_markedText hin]
  by_cases hends : EndsClosed body
  · obtain ⟨out, hfills⟩ := hends.fills next hin.args_oneLine hin.body_oneLine
    have hkey : '\n' ∉ indent ++ key := by simp [hn, hk.oneLine]
    have hsome := expand?_key_isSome hkey hfills.written?_isSome
    rw [List.append_assoc] at hsome
    exact iff_of_false (expand_ne_of_multiline hnext hsome hmarked) fun h => h.1 hends
  rw [expand_keyLine_of_not_endsClosed hin hi hk hends]
  by_cases hinc : HoldsInclusion body
  · rw [keyLine_markedText] at hmarked ⊢
    exact iff_of_false (hinc.foldl_ne hmarked _) fun h => h.2 hinc
  · have hsame := (expandOr_eq_or_expands {} next (keyLine indent key (markedText args body))
      (.inclusion, .key)).resolve_right fun h => hinc (h.holdsInclusion_keyLine hin hi hk)
    simp only [List.foldl_cons, List.foldl_nil, hsame, expandOr_keyLine_item hi hk, hends, hinc,
      not_false_eq_true, and_self]

include hin in
theorem expand_itemLine_of_not_endsClosed (hends : ¬ EndsClosed body) :
    expand {} next (itemLine indent (functionText args body)) =
      (order.drop 2).foldl (expandOr {} next) (itemLine indent (functionText args body)) := by
  refine expand_of_not_endsClosed ?_
  rw [itemLine_functionText]
  exact fun h => hends (h.of_append hin.notBlank)

variable (next) in
include hin hi hn in
/-- A function behind a colon in the body of an item is expanded before the item is. -/
theorem HoldsFunction.exists_body (h : HoldsFunction body) :
    ∃ body', IsInline args params body' ∧ nonblanks body < nonblanks body' ∧
      expandOr {} next (itemLine indent (functionText args body)) (.inline, .key) =
        itemLine indent (functionText args body') := by
  have hsplit : ∀ rest, itemLine indent (functionText args rest) =
      (indent ++ '-' :: ' ' :: '(' :: args) ++ ')' :: rest := by
    intro rest
    simp [itemLine, functionText]
  have hcolon : ':' ∉ indent ++ '-' :: ' ' :: '(' :: args := by
    simp [hi.noColon, hin.noColon]
  have hline : '\n' ∉ itemLine indent (functionText args body) := by
    simp [itemLine, functionText, hn, hin.args_oneLine, hin.body_oneLine]
  rw [itemLine_functionText] at hline
  have hexpands := h.expands next hline
  rw [← itemLine_functionText] at hline hexpands
  have hgrowth := hexpands.nonblanks_lt
  have honeLine := hexpands.newline_not_mem (by decide) hline
  rw [hsplit] at hexpands
  obtain ⟨body', hbody'⟩ := hexpands.exists_body hcolon (by decide) (by decide)
  rw [← hsplit, ← hsplit] at hbody'
  rw [hbody'] at hgrowth honeLine
  have hmore : nonblanks body < nonblanks body' := by
    simp only [itemLine_functionText, nonblanks_append] at hgrowth
    omega
  refine ⟨body', ⟨hin.arguments, ?_, ?_⟩, hmore, hbody'⟩
  · intro hmem
    refine honeLine ?_
    rcases List.mem_append.1 hmem with hmem | hmem
    · simp [itemLine, functionText, hmem]
    · simp [itemLine, functionText, hmem]
  · intro hblank
    rw [nonblanks_of_allBlank hblank] at hmore
    exact absurd hmore (Nat.not_lt_zero _)

include hi in
/-- After the colons of the body, the item is expanded. -/
theorem foldl_itemLine {body' : List Char} (hin' : IsInline args params body')
    (hstep : expandOr {} next (itemLine indent (functionText args body)) (.inline, .key) =
      itemLine indent (functionText args body')) :
    (order.drop 2).foldl (expandOr {} next) (itemLine indent (functionText args body)) =
      [(.inclusion, .key), (.inclusion, .item)].foldl (expandOr {} next)
        (itemLine indent (markedText args body')) := by
  simp only [order, List.drop_succ_cons, List.drop_zero, List.foldl_cons, List.foldl_nil, hstep,
    expandOr_itemLine hin' hi]

include hin hi hn in
theorem HoldsFunction.foldl_ne (h : HoldsFunction body) :
    (order.drop 2).foldl (expandOr {} next) (itemLine indent (functionText args body)) ≠
      itemLine indent (markedText args body) := by
  obtain ⟨body', hin', hmore, hstep⟩ := h.exists_body next hin hi hn
  have hgrowth := nonblanks_le_foldl_expandOr next
    [(.inclusion, .key), (.inclusion, .item)] (itemLine indent (markedText args body'))
  intro heq
  rw [← foldl_itemLine hi hin' hstep, heq] at hgrowth
  simp only [itemLine_markedText, nonblanks_append] at hgrowth
  omega

include hin hnext hi hn in
/-- A function of an item is expanded where it stands, unless one in its body is expanded first. -/
theorem expand_itemLine :
    expand {} next (itemLine indent (functionText args body)) =
        itemLine indent (markedText args body) ↔
      ¬ EndsClosed body ∧ ¬ HoldsInclusion body ∧ ¬ HoldsFunction body := by
  have hmarked : '\n' ∉ itemLine indent (markedText args body) := by
    simp [itemLine, hn, newline_not_mem_markedText hin]
  by_cases hends : EndsClosed body
  · obtain ⟨out, hfills⟩ := hends.fills next hin.args_oneLine hin.body_oneLine
    have hsome : (expand? {} next .multiline .item
        (itemLine indent (functionText args body))).isSome = true := by
      rw [itemLine, expand?_item hi, Option.isSome_map]
      exact hfills.written?_isSome
    exact iff_of_false (expand_ne_of_multiline hnext hsome hmarked) fun h => h.1 hends
  rw [expand_itemLine_of_not_endsClosed hin hends]
  by_cases hfunction : HoldsFunction body
  · exact iff_of_false (hfunction.foldl_ne hin hi hn) fun h => h.2.2 hfunction
  have hstep := (expandOr_eq_or_expands {} next (itemLine indent (functionText args body))
    (.inline, .key)).resolve_right fun h => hfunction (h.holdsFunction_itemLine hin hi)
  rw [foldl_itemLine hi hin hstep]
  by_cases hinc : HoldsInclusion body
  · rw [itemLine_markedText] at hmarked ⊢
    exact iff_of_false (hinc.foldl_ne hmarked _) fun h => h.2.1 hinc
  · have hsame := (expandOr_eq_or_expands {} next (itemLine indent (markedText args body))
      (.inclusion, .key)).resolve_right fun h => hinc (h.holdsInclusion_itemLine hin hi)
    simp only [List.foldl_cons, List.foldl_nil, hsame, expandOr_itemLine_inclusion hi, hends, hinc,
      hfunction, not_false_eq_true, and_self]

include hin hnext hi hn hk in
/-- A function in one line is expanded where it stands, and nothing else of its line changes, if its
body does not end with a bracket and no construct stands behind a colon of it; what is written is
read back with the parameters and the body of the function. -/
theorem expand_inline_function :
    (expand {} next (keyLine indent key (functionText args body)) =
        keyLine indent key (markedText args body) ↔
      ¬ EndsClosed body ∧ ¬ HoldsInclusion body) ∧
    (expand {} next (itemLine indent (functionText args body)) =
        itemLine indent (markedText args body) ↔
      ¬ EndsClosed body ∧ ¬ HoldsInclusion body ∧ ¬ HoldsFunction body) ∧
    ∃ text, Signal.detect (String.ofList (markedText args body)) =
        .ok (some (.function params text)) ∧ trim text.toList = trim body := by
  refine ⟨expand_keyLine hin hnext hi hn hk, expand_itemLine hin hnext hi hn, ?_⟩
  refine ⟨String.ofList (' ' :: body), Signal.detect_functionHead hin.arguments, ?_⟩
  rw [String.toList_ofList, trim_cons_blank (by decide)]

end

theorem expand_inline_sum :
    expand {} [] "  f: (a, b) return a + b;".toList =
        "  f: __YAML_SCRIPT_FN__(a, b)  return a + b;".toList ∧
      expand {} [] "  - (a, b) return a + b;".toList =
        "  - __YAML_SCRIPT_FN__(a, b)  return a + b;".toList := by
  have hpieces : ["a".toList, " b".toList] ≠ [] := List.cons_ne_nil _ _
  have harguments : Signal.Arguments "a, b".toList ["a", "b"] := .names hpieces (by decide)
  have hin : IsInline "a, b".toList ["a", "b"] " return a + b;".toList :=
    ⟨harguments, by decide, by decide⟩
  have hkey : IsKey "f".toList := ⟨by decide, by decide, by decide, by decide, by decide⟩
  have hindent : AllBlank "  ".toList := by decide
  have hnext : AllBlank [] := by decide
  have hends : ¬ EndsClosed " return a + b;".toList := by
    rintro ⟨before, ends, -, h⟩
    have hmem : ')' ∈ " return a + b;".toList := by rw [h]; simp
    exact absurd hmem (by decide)
  have hcolon : ∀ before rest, " return a + b;".toList ≠ before ++ ':' :: rest := by
    intro before rest h
    have hmem : ':' ∈ " return a + b;".toList := by rw [h]; simp
    exact absurd hmem (by decide)
  have hinclusion : ¬ HoldsInclusion " return a + b;".toList := by
    rintro ⟨before, blanks, d, rest, -, -, h⟩
    exact hcolon _ _ h
  have hfunction : ¬ HoldsFunction " return a + b;".toList := by
    rintro ⟨before, blanks, args, rest, -, h⟩
    exact hcolon _ _ h
  have hexpand := expand_inline_function hin hnext hindent (by decide) hkey
  exact ⟨hexpand.1.2 ⟨hends, hinclusion⟩, hexpand.2.1.2 ⟨hends, hinclusion, hfunction⟩⟩

/-- A call at the end of the body is taken for the end of the parameters, and an include behind a
colon of the body is expanded. -/
theorem expand_inline_call :
    expand {} [] "f: (a) return g(a)".toList =
        "f: >\n__YAML_SCRIPT_FN__(a) return g(a)".toList ∧
      expand {} [] "f: (a) a ? 1 : @include x".toList =
        "f: __YAML_SCRIPT_FN__(a)  a ? 1: __YAML_SCRIPT_INCLUDE__ x".toList := by
  decide +kernel

end

end LiveDoc.Line
