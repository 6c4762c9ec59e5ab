import LiveDoc.Line.Patterns
import LiveDoc.Proofs.Detection
import LiveDoc.Proofs.MultilineFunctions

namespace LiveDoc.Line

open Text

structure IsToken (token : List Char) : Prop where
  nonempty : token ≠ []
  noBlank : ∀ d ∈ token, isBlank d = false
  noColon : ':' ∉ token

/-- Tokens by which a function is told from an include, and both from the sign of a folded text. -/
structure TellsApart (c : Config) : Prop where
  opening : IsToken c.functionOpen.toList
  closing : IsToken c.functionClose.toList
  inclusion : IsToken c.includeKey.toList
  noPrefix : ¬ c.functionOpen.toList <+: c.includeKey.toList
  notFolded : c.includeKey.toList ≠ ['>']

def Construct.token (c : Config) : Construct → List Char
  | .multiline | .inline => c.functionOpen.toList
  | .inclusion => c.includeKey.toList

/-- A key without blanks around it, in which no construct begins. -/
structure IsPlainKey (c : Config) (key : List Char) : Prop where
  trimmed : trim key = key
  oneLine : '\n' ∉ key
  noColon : ':' ∉ key
  noToken : ∀ construct : Construct, ¬ construct.token c <:+: key

structure IsMargin (blanks : List Char) : Prop where
  allBlank : AllBlank blanks
  oneLine : '\n' ∉ blanks

/-- A text between the tokens of a line. It may hold these tokens. -/
structure IsArgument (cs : List Char) : Prop where
  oneLine : '\n' ∉ cs
  noColon : ':' ∉ cs

structure IsPath (path : List Char) : Prop extends IsArgument path where
  nonempty : path ≠ []
  trimmed : trim path = path

def headerText (c : Config) (args ends : List Char) : List Char :=
  c.functionOpen.toList ++ (args ++ (c.functionClose.toList ++ ends))

def includeText (c : Config) (path ends : List Char) : List Char :=
  c.includeKey.toList ++ ' ' :: (path ++ ends)

section

variable {c : Config} {construct : Construct}
  {next indent key args path ends cs rest rest' token value out : List Char}

theorem IsToken.of_all (hne : token ≠ []) (hb : token.all (!isBlank ·) = true)
    (hc : ':' ∉ token) : IsToken token :=
  ⟨hne, by simpa using hb, hc⟩

theorem IsToken.trimStart_append (h : IsToken token) {blanks : List Char} (hb : AllBlank blanks) :
    trimStart (blanks ++ (token ++ rest)) = token ++ rest := by
  obtain ⟨d, tail, rfl⟩ := List.exists_cons_of_ne_nil h.nonempty
  have hd : isBlank d = false := h.noBlank d List.mem_cons_self
  rw [List.cons_append, trimStart_append_cons hd, trimStart_of_allBlank hb, List.nil_append]

theorem IsToken.trimEnd_append (h : IsToken token) (he : AllBlank ends) :
    trimEnd (cs ++ (token ++ ends)) = cs ++ token := by
  rw [← List.append_assoc, Text.trimEnd_append _ he]
  obtain ⟨start, d, rfl⟩ := (List.eq_nil_or_concat token).resolve_left h.nonempty
  have hd : isBlank d = false := h.noBlank d (by simp)
  rw [List.concat_eq_append, ← List.append_assoc, trimEnd_append_cons hd]
  simp [trimEnd, hd]

theorem IsToken.newline_not_mem (h : IsToken token) : '\n' ∉ token := by
  intro hmem
  have hblank := h.noBlank '\n' hmem
  exact absurd hblank (by decide)

theorem TellsApart.isToken (hc : TellsApart c) (construct : Construct) :
    IsToken (construct.token c) := by
  cases construct with
  | multiline | inline => exact hc.opening
  | inclusion => exact hc.inclusion

theorem Construct.Fills.exists_token (h : construct.Fills c next cs out) :
    ∃ blanks rest, AllBlank blanks ∧ cs = blanks ++ (construct.token c ++ rest) := by
  cases h with
  | multiline hb hn he => exact ⟨_, _, hb, rfl⟩
  | inline hb hn hbody => exact ⟨_, _, hb, rfl⟩
  | inclusion hb hd hn => exact ⟨_, _, hb, rfl⟩

/-- A construct is found if only one text can be written for it. -/
theorem Construct.Fills.written?_eq (h : construct.Fills c next cs out)
    (hunique : ∀ out', construct.Fills c next cs out' → out' = out) :
    construct.written? c next cs = some out := by
  obtain ⟨out', hout'⟩ := Option.isSome_iff_exists.1 h.written?_isSome
  rw [hout', hunique out' (fills_of_written? hout')]

theorem IsToken.cancel (h : IsToken token) {blanks blanks' : List Char} (hb : AllBlank blanks)
    (hb' : AllBlank blanks') (heq : blanks ++ (token ++ rest) = blanks' ++ (token ++ rest')) :
    rest = rest' := by
  have hstart := congrArg trimStart heq
  rw [h.trimStart_append hb, h.trimStart_append hb'] at hstart
  exact List.append_cancel_left hstart

variable (next) in
/-- The last closing token closes a header. -/
theorem written?_of_header (hc : TellsApart c) (hn : '\n' ∉ args) (he : AllBlank ends) :
    Construct.multiline.written? c next (' ' :: headerText c args ends) =
      some ('>' :: '\n' :: next ++ Signal.functionHead args) := by
  have hblank : AllBlank [' '] := by decide
  have hfills : Construct.multiline.Fills c next ([' '] ++ headerText c args ends) _ :=
    .multiline hblank hn he
  apply hfills.written?_eq
  intro out' h
  generalize hcs : [' '] ++ headerText c args ends = cs at h
  cases h with
  | @multiline blanks args' ends' hb _ he' =>
    have hrest := congrArg trimEnd (hc.opening.cancel hblank hb hcs)
    rw [hc.closing.trimEnd_append he, hc.closing.trimEnd_append he'] at hrest
    rw [List.append_cancel_right hrest]

variable (next) in
theorem written?_of_inclusion (hc : TellsApart c) (hp : IsPath path) (he : AllBlank ends) :
    Construct.inclusion.written? c next (' ' :: includeText c path ends) =
      some (Signal.inclusionText path) := by
  have hblank : AllBlank [' '] := by decide
  have htrim : trim (' ' :: (path ++ ends)) = path := by
    rw [← List.singleton_append, trim_append_append hblank he, hp.trimmed]
  have hn : '\n' ∉ trim (' ' :: (path ++ ends)) := by
    rw [htrim]
    exact hp.oneLine
  have hfills : Construct.inclusion.Fills c next ([' '] ++ includeText c path ends) _ :=
    .inclusion hblank (by decide) hn
  rw [htrim] at hfills
  apply hfills.written?_eq
  intro out' h
  generalize hcs : [' '] ++ includeText c path ends = cs at h
  cases h with
  | @inclusion blanks d rest hb hd _ =>
    rw [← hc.inclusion.cancel hblank hb hcs, htrim]

theorem TellsApart.not_fills_inclusion (hc : TellsApart c) (hne : construct ≠ .inclusion) :
    ¬ construct.Fills c next (' ' :: includeText c path ends) out := by
  have hblank : AllBlank [' '] := by decide
  have htoken : construct.token c = c.functionOpen.toList := by
    cases construct with
    | multiline | inline => rfl
    | inclusion => exact absurd rfl hne
  intro h
  obtain ⟨blanks, rest, hb, heq⟩ := h.exists_token
  rw [← List.singleton_append, htoken] at heq
  have hstart := congrArg trimStart heq
  rw [includeText, hc.inclusion.trimStart_append hblank, hc.opening.trimStart_append hb] at hstart
  rcases List.append_eq_append_iff.1 hstart with ⟨skipped, hopen, hrest⟩ | ⟨skipped, hkey, -⟩
  · cases skipped with
    | nil =>
      rw [List.append_nil] at hopen
      exact hc.noPrefix ⟨[], by rw [hopen, List.append_nil]⟩
    | cons d skipped =>
      -- the opening token would go on behind the blank
      obtain ⟨rfl, -⟩ := List.cons.inj hrest
      have hspace := hc.opening.noBlank ' ' (by rw [hopen]; simp)
      exact absurd hspace (by decide)
  · exact hc.noPrefix ⟨skipped, hkey.symm⟩

theorem TellsApart.not_fills_folded (hc : TellsApart c) :
    ¬ construct.Fills c next (' ' :: '>' :: '\n' :: rest) out := by
  have hblank : AllBlank [' '] := by decide
  have hangle : isBlank '>' = false := by decide
  have hsign : ∀ blanks token more, AllBlank blanks → IsToken token →
      ' ' :: '>' :: '\n' :: rest = blanks ++ (token ++ more) →
        token = ['>'] ∧ more = '\n' :: rest := by
    intro blanks token more hb htoken heq
    have hstart := congrArg trimStart heq
    rw [htoken.trimStart_append hb, ← List.singleton_append, trimStart_append hblank, trimStart,
      List.dropWhile_cons_of_neg (by simp [hangle])] at hstart
    obtain ⟨d, tail, rfl⟩ := List.exists_cons_of_ne_nil htoken.nonempty
    obtain ⟨rfl, htail⟩ := List.cons.inj hstart
    cases tail with
    | nil => exact ⟨rfl, htail.symm⟩
    | cons e tail =>
      obtain ⟨rfl, -⟩ := List.cons.inj htail
      exact absurd (by simp) htoken.newline_not_mem
  have hclose : ∀ args' more, '\n' ∉ args' →
      args' ++ (c.functionClose.toList ++ more) ≠ '\n' :: rest := by
    intro args' more hn heq
    cases args' with
    | nil =>
      obtain ⟨d, tail, htoken⟩ := List.exists_cons_of_ne_nil hc.closing.nonempty
      rw [List.nil_append, htoken] at heq
      obtain ⟨rfl, -⟩ := List.cons.inj heq
      exact hc.closing.newline_not_mem (by rw [htoken]; exact List.mem_cons_self)
    | cons d args' =>
      obtain ⟨rfl, -⟩ := List.cons.inj heq
      exact hn List.mem_cons_self
  intro h
  generalize hcs : ' ' :: '>' :: '\n' :: rest = cs at h
  cases h with
  | multiline hb hn he => exact hclose _ _ hn (hsign _ _ _ hb hc.opening hcs).2
  | inline hb hn hbody => exact hclose _ _ hn (hsign _ _ _ hb hc.opening hcs).2
  | inclusion hb hd hn => exact hc.notFolded (hsign _ _ _ hb hc.inclusion hcs).1

/-- An item with a token behind its dash is no line with a plain key. -/
theorem IsPlainKey.not_expands_item (hk : IsPlainKey c key) (hi : AllBlank indent)
    (htoken : IsToken (construct.token c)) :
    ¬ Expands c next construct .item (keyLine indent key value) out := by
  have hcolon : isBlank ':' = false := by decide
  have hdash : isBlank '-' = false := by decide
  intro h
  generalize hline : keyLine indent key value = line at h
  cases h with
  | @item indent' rest out hi' hout =>
    have hstart := congrArg trimStart hline
    rw [keyLine, trimStart_append hi, trimStart_append hi', trimStart_append_cons hcolon,
      trimStart_eq_of_trim hk.trimmed, trimStart, List.dropWhile_cons_of_neg (by simp [hdash])]
      at hstart
    cases key with
    | nil => cases hstart
    | cons d key =>
      obtain ⟨-, hrest⟩ := List.cons.inj hstart
      obtain ⟨blanks, more, hb, rfl⟩ := hout.exists_token
      have hnot : ':' ∉ blanks ++ construct.token c := by
        simp [hb.noColon, htoken.noColon]
      rw [← List.append_assoc] at hrest
      obtain ⟨skipped, rfl, -⟩ := split_of_not_mem hnot hrest.symm
      exact hk.noToken construct ⟨d :: blanks, skipped, by simp⟩

/-- Behind the only colon of a line, a construct is found or nothing is. -/
theorem IsPlainKey.not_expands_key (hk : IsPlainKey c key) (hi : AllBlank indent)
    (hvalue : ':' ∉ value) (hnot : ∀ out, ¬ construct.Fills c next (' ' :: value) out) :
    ¬ Expands c next construct .key (keyLine indent key value) out := by
  have hstart : ':' ∉ indent ++ key := by simp [hi.noColon, hk.noColon]
  intro h
  rw [keyLine, ← List.append_assoc] at h
  obtain ⟨before, rest, out, heq, hfills⟩ := h.exists_colon hstart
  cases before with
  | nil =>
    obtain ⟨-, rfl⟩ := List.cons.inj heq
    exact hnot out hfills
  | cons d before =>
    obtain ⟨-, hrest⟩ := List.cons.inj heq
    have hmem : ':' ∈ ' ' :: value := by rw [hrest]; simp
    exact hvalue (List.mem_of_ne_of_mem (by decide) hmem)

theorem not_expands_item (hi : AllBlank indent)
    (hnot : ∀ out, ¬ construct.Fills c next (' ' :: value) out) :
    ¬ Expands c next construct .item (itemLine indent value) out := by
  have hdash : isBlank '-' = false := by decide
  intro h
  generalize hline : itemLine indent value = line at h
  cases h with
  | item hi' hout =>
    obtain ⟨-, -, rfl⟩ := append_cons_inj hline hi hi' hdash hdash
    exact hnot _ hout

theorem IsPlainKey.expandOr_keyLine (hk : IsPlainKey c key) (hi : AllBlank indent)
    (h : construct.written? c next (' ' :: value) = some out) :
    expandOr c next (keyLine indent key value) (construct, .key) = keyLine indent key out := by
  have hkey : trimEnd ([].reverse ++ key) = key := trimEnd_eq_of_trim hk.trimmed
  have hkeyed := keyed_of_not_mem [] hk.noColon (by rw [hkey]; exact hk.oneLine) h
  rw [hkey] at hkeyed
  exact expandOr_keyLine_of_keyed hi hk.trimmed hkeyed

theorem expandOr_itemLine_of_written (hi : AllBlank indent)
    (h : construct.written? c next (' ' :: value) = some out) :
    expandOr c next (itemLine indent value) (construct, .item) = itemLine indent out := by
  rw [expandOr, itemLine, expand?_item hi, h]
  rfl

theorem expandOr_of_not_expands {place : Place} {line : List Char}
    (h : ∀ out, ¬ Expands c next construct place line out) :
    expandOr c next line (construct, place) = line :=
  (expandOr_eq_or_expands c next line (construct, place)).resolve_right (h _)

section

variable (hc : TellsApart c) (hi : AllBlank indent) (he : AllBlank ends)

theorem noColon_folded (hnext : AllBlank next) (ha : IsArgument args) :
    ':' ∉ '>' :: '\n' :: next ++ Signal.functionHead args := by
  have hmark : ':' ∉ Signal.Kind.function.mark.toList := by decide
  simp [Signal.functionHead, hnext.noColon, ha.noColon, hmark]

include hc in
theorem noColon_headerText (ha : IsArgument args) (he : AllBlank ends) :
    ':' ∉ headerText c args ends := by
  simp [headerText, hc.opening.noColon, hc.closing.noColon, ha.noColon, he.noColon]

include hc in
theorem noColon_includeText (hp : IsPath path) (he : AllBlank ends) :
    ':' ∉ includeText c path ends := by
  simp [includeText, hc.inclusion.noColon, hp.noColon, he.noColon]

include hc hi he in
theorem expand_key_header (hnext : AllBlank next) (hk : IsPlainKey c key) (ha : IsArgument args) :
    expand c next (keyLine indent key (headerText c args ends)) =
      keyLine indent key ('>' :: '\n' :: next ++ Signal.functionHead args) := by
  have hwritten := written?_of_header next hc ha.oneLine he
  rw [expand, order, List.foldl_cons, hk.expandOr_keyLine hi hwritten]
  apply foldl_expandOr_of_not_expands
  rintro ⟨construct, place⟩ - w
  cases place with
  | key =>
    exact hk.not_expands_key hi (noColon_folded hnext ha) fun _ => hc.not_fills_folded
  | item => exact hk.not_expands_item hi (hc.isToken construct)

include hc hi he in
theorem expand_item_header (hnext : AllBlank next) (ha : IsArgument args) :
    expand c next (itemLine indent (headerText c args ends)) =
      itemLine indent ('>' :: '\n' :: next ++ Signal.functionHead args) := by
  have hwritten := written?_of_header next hc ha.oneLine he
  have hcolon : ':' ∉ itemLine indent (headerText c args ends) := by
    simp [itemLine, hi.noColon, noColon_headerText hc ha he]
  have hfolded := noColon_folded hnext ha
  have hcolon' : ':' ∉ itemLine indent ('>' :: '\n' :: next ++ Signal.functionHead args) := by
    rw [itemLine]
    simp only [List.mem_append, List.mem_cons, not_or]
    exact ⟨hi.noColon, by decide, by decide, by simpa using hfolded⟩
  rw [expand, order, List.foldl_cons, expandOr_key_of_noColon hcolon, List.foldl_cons,
    expandOr_itemLine_of_written hi hwritten]
  apply foldl_expandOr_of_not_expands
  rintro ⟨construct, place⟩ - w
  cases place with
  | key => exact not_expands_key_of_noColon hcolon'
  | item => exact not_expands_item hi fun _ => hc.not_fills_folded

include hc hi he in
theorem expand_key_include (hk : IsPlainKey c key) (hp : IsPath path) :
    expand c next (keyLine indent key (includeText c path ends)) =
      keyLine indent key (Signal.inclusionText path) := by
  have hwritten := written?_of_inclusion next hc hp he
  have hitem : ∀ (construct : Construct) (value : List Char),
      expandOr c next (keyLine indent key value) (construct, .item) = keyLine indent key value := by
    intro construct value
    exact expandOr_of_not_expands fun _ => hk.not_expands_item hi (hc.isToken construct)
  have hkey : ∀ construct : Construct, construct ≠ .inclusion →
      expandOr c next (keyLine indent key (includeText c path ends)) (construct, .key) =
        keyLine indent key (includeText c path ends) := by
    intro construct hne
    apply expandOr_of_not_expands
    intro out
    exact hk.not_expands_key hi (noColon_includeText hc hp he) fun _ => hc.not_fills_inclusion hne
  have hmultiline := hkey .multiline (by decide)
  have hinline := hkey .inline (by decide)
  have hinclusion := hk.expandOr_keyLine hi hwritten
  simp only [expand, order, List.foldl_cons, List.foldl_nil, hmultiline, hinline, hitem, hinclusion]

include hc hi he in
theorem expand_item_include (hp : IsPath path) :
    expand c next (itemLine indent (includeText c path ends)) =
      itemLine indent (Signal.inclusionText path) := by
  have hwritten := written?_of_inclusion next hc hp he
  have hcolon : ':' ∉ itemLine indent (includeText c path ends) := by
    simp [itemLine, hi.noColon, noColon_includeText hc hp he]
  have hitem : ∀ construct : Construct, construct ≠ .inclusion →
      expandOr c next (itemLine indent (includeText c path ends)) (construct, .item) =
        itemLine indent (includeText c path ends) := by
    intro construct hne
    apply expandOr_of_not_expands
    intro out
    exact not_expands_item hi fun _ => hc.not_fills_inclusion hne
  have hkey : ∀ construct : Construct,
      expandOr c next (itemLine indent (includeText c path ends)) (construct, .key) =
        itemLine indent (includeText c path ends) := by
    intro construct
    exact expandOr_key_of_noColon hcolon
  have hmultiline := hitem .multiline (by decide)
  have hinline := hitem .inline (by decide)
  have hinclusion := expandOr_itemLine_of_written hi hwritten
  simp only [expand, order, List.foldl_cons, List.foldl_nil, hkey, hmultiline, hinline, hinclusion]

end

/-- If an engine takes the patterns, then in every text the line becomes some lines, which may depend
on the indentation of the line behind it, and all other lines are expanded as they are. If it does
not, then there is no text but an error. -/
def Becomes (c : Config) (line : List Char) (lines : List Char → List (List Char)) : Prop :=
  ∀ (engine : Engine) (before after : List (List Char)),
    (∀ other ∈ before ++ after, '\n' ∉ other) →
    transform engine c (ofLines (before ++ line :: after)) =
      (Patterns.compile engine c).map fun _ => ofLines (expandBefore c (line :: after) before ++
        (lines (nextIndentation after) ++ expandLines c after))

theorem becomes_of_expand {line : List Char} {lines : List Char → List (List Char)}
    (hn : '\n' ∉ line) (hne : ∀ next, lines next ≠ [])
    (h : ∀ next, AllBlank next → expand c next line = joinWith ['\n'] (lines next)) :
    Becomes c line lines := by
  intro engine before after hothers
  have hall : ∀ other ∈ before ++ line :: after, '\n' ∉ other := by
    intro other hmem
    rcases List.mem_append.1 hmem with hmem | hmem
    · exact hothers other (List.mem_append_left _ hmem)
    · rcases List.mem_cons.1 hmem with rfl | hmem
      · exact hn
      · exact hothers other (List.mem_append_right _ hmem)
  rw [transform_eq, expandText_ofLines c (by simp) hall, expandLines_append, expandLines_cons,
    h _ (allBlank_nextIndentation after), ofLines, joinWith_append_joinWith _ (hne _), ← ofLines]

/-- A line with nothing but a header becomes the line that opens a folded text and, behind the
indentation of the next line, the function without its body. One with an include becomes the line
with the marked path, which is read back. -/
theorem constructs_become (hc : TellsApart c) (hk : IsPlainKey c key) (ha : IsArgument args)
    (hp : IsPath path) (hi : IsMargin indent) (he : IsMargin ends) :
    Becomes c (keyLine indent key (headerText c args ends))
        (fun next => [keyLine indent key ['>'], next ++ Signal.functionHead args]) ∧
      Becomes c (itemLine indent (headerText c args ends))
        (fun next => [itemLine indent ['>'], next ++ Signal.functionHead args]) ∧
      Becomes c (keyLine indent key (includeText c path ends))
        (fun _ => [keyLine indent key (Signal.inclusionText path)]) ∧
      Becomes c (itemLine indent (includeText c path ends))
        (fun _ => [itemLine indent (Signal.inclusionText path)]) ∧
      Signal.detect (String.ofList (Signal.inclusionText path)) =
        .ok (some (.inclusion (String.ofList path))) := by
  have hheader : '\n' ∉ headerText c args ends := by
    simp [headerText, hc.opening.newline_not_mem, ha.oneLine, hc.closing.newline_not_mem,
      he.oneLine]
  have hinclude : '\n' ∉ includeText c path ends := by
    simp [includeText, hc.inclusion.newline_not_mem, hp.oneLine, he.oneLine]
  refine ⟨?_, ?_, ?_, ?_, Signal.detect_inclusionText hp.nonempty hp.trimmed⟩
  · apply becomes_of_expand
    · simp [keyLine, hi.oneLine, hk.oneLine, hheader]
    · simp
    · intro next hnext
      rw [expand_key_header hc hi.allBlank he.allBlank hnext hk ha]
      simp [joinWith, keyLine]
  · apply becomes_of_expand
    · simp [itemLine, hi.oneLine, hheader]
    · simp
    · intro next hnext
      rw [expand_item_header hc hi.allBlank he.allBlank hnext ha]
      simp [joinWith, itemLine]
  · apply becomes_of_expand
    · simp [keyLine, hi.oneLine, hk.oneLine, hinclude]
    · simp
    · intro next _
      exact expand_key_include hc hi.allBlank he.allBlank hk hp
  · apply becomes_of_expand
    · simp [itemLine, hi.oneLine, hinclude]
    · simp
    · intro next _
      exact expand_item_include hc hi.allBlank he.allBlank hp

/-- Brackets of two characters. Both may stand in the parameters, and so may any other sign. -/
theorem constructs_become_brackets :
    let c : Config := { functionOpen := "<<", functionClose := ">>", includeKey := "@use" }
    transform (fun _ => none) c "a: 1\n  b*: <<x>> $1 <<>>  \n    return x;" =
        .ok "a: 1\n  b*: >\n    __YAML_SCRIPT_FN__(x>> $1 <<)\n    return x;" ∧
      transform (fun _ => none) c "a: 1\n  - @use ($1 @use)/<<x>>.yaml  " =
        .ok "a: 1\n  - __YAML_SCRIPT_INCLUDE__ ($1 @use)/<<x>>.yaml" := by
  intro c
  have htokens : TellsApart c :=
    ⟨.of_all (by decide) (by decide) (by decide), .of_all (by decide) (by decide) (by decide),
      .of_all (by decide) (by decide) (by decide), by decide, by decide⟩
  have htoken : ∀ construct : Construct, ¬ construct.token c <:+: "b*".toList := by
    intro construct
    cases construct <;> decide
  have hkey : IsPlainKey c "b*".toList := ⟨by decide, by decide, by decide, htoken⟩
  have hargs : IsArgument "x>> $1 <<".toList := ⟨by decide, by decide⟩
  have hpath : IsPath "($1 @use)/<<x>>.yaml".toList :=
    { oneLine := by decide, noColon := by decide, nonempty := by decide, trimmed := by decide }
  have hmargin : IsMargin "  ".toList := ⟨by decide, by decide⟩
  obtain ⟨hheader, -, -, hinclude, -⟩ :=
    constructs_become htokens hkey hargs hpath hmargin hmargin
  constructor
  · have hexpand := hheader (fun _ => none) ["a: 1".toList] ["    return x;".toList] (by decide)
    have htext : ofLines ("a: 1".toList :: keyLine "  ".toList "b*".toList
        (headerText c "x>> $1 <<".toList "  ".toList) :: ["    return x;".toList]) =
      "a: 1\n  b*: <<x>> $1 <<>>  \n    return x;" := by decide +kernel
    rw [List.singleton_append, htext] at hexpand
    rw [hexpand]
    exact congrArg Except.ok (by decide +kernel)
  · have hexpand := hinclude (fun _ => none) ["a: 1".toList] [] (by decide)
    have htext : ofLines ("a: 1".toList :: itemLine "  ".toList
        (includeText c "($1 @use)/<<x>>.yaml".toList "  ".toList) :: []) =
      "a: 1\n  - @use ($1 @use)/<<x>>.yaml  " := by decide +kernel
    rw [List.singleton_append, htext] at hexpand
    rw [hexpand]
    exact congrArg Except.ok (by decide +kernel)

end

end LiveDoc.Line
