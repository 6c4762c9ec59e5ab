import LiveDoc.Proofs.Expansion

namespace LiveDoc.Line

open Text

/-- A function or an include could begin here, behind blanks. -/
def opens (cs : List Char) : Bool :=
  (after? ['('] (trimStart cs)).isSome ||
    (after? "@include".toList (trimStart cs)).any (·.head?.any isBlank)

inductive Opening : List Char → Prop
  | function : Opening ['(']
  | inclusion (hd : isBlank d = true) : Opening ("@include".toList ++ [d])

section

variable {cs ds opening rest : List Char} {d : Char}

theorem Opening.not_mem (h : Opening opening) (hd : isBlank d = false) (hopen : d ≠ '(')
    (hkey : d ∉ "@include".toList) : d ∉ opening := by
  cases h with
  | function => simpa using hopen
  | @inclusion e he =>
    intro hmem
    rcases List.mem_append.1 hmem with hmem | hmem
    · exact hkey hmem
    · rw [← List.mem_singleton.1 hmem, hd] at he
      cases he

theorem Opening.trimStart_append (h : Opening opening) {blanks : List Char}
    (hb : AllBlank blanks) : trimStart (blanks ++ (opening ++ rest)) = opening ++ rest := by
  have hhead : ∃ d tail, isBlank d = false ∧ opening = d :: tail := by
    cases h with
    | function => exact ⟨'(', [], by decide, rfl⟩
    | inclusion hd => exact ⟨'@', _, by decide, rfl⟩
  obtain ⟨d, tail, hd, rfl⟩ := hhead
  rw [List.cons_append, trimStart_append_cons hd, trimStart_of_allBlank hb, List.nil_append]

theorem opens_iff_of_trimStart :
    opens cs = true ↔ ∃ opening rest, Opening opening ∧ trimStart cs = opening ++ rest := by
  rw [opens, Bool.or_eq_true, Option.isSome_iff_exists, Option.any_eq_true]
  constructor
  · rintro (⟨rest, hrest⟩ | ⟨inner, hinner, hblank⟩)
    · exact ⟨_, rest, .function, after?_eq_some_iff.1 hrest⟩
    · obtain ⟨d, hhead, hd⟩ := (Option.any_eq_true _ _).1 hblank
      obtain ⟨rest, rfl⟩ := List.head?_eq_some_iff.1 hhead
      exact ⟨_, rest, .inclusion hd, by rw [after?_eq_some_iff.1 hinner, List.append_assoc]; rfl⟩
  · rintro ⟨opening, rest, hopening, hbody⟩
    cases hopening with
    | function => exact .inl ⟨rest, after?_eq_some_iff.2 hbody⟩
    | @inclusion d hd =>
      rw [List.append_assoc] at hbody
      exact .inr ⟨d :: rest, after?_eq_some_iff.2 hbody, hd⟩

theorem opens_iff :
    opens cs = true ↔ ∃ blanks opening rest,
      AllBlank blanks ∧ Opening opening ∧ cs = blanks ++ (opening ++ rest) := by
  rw [opens_iff_of_trimStart]
  constructor
  · rintro ⟨opening, rest, hopening, hbody⟩
    have hcs := indentation_append_trimStart cs
    rw [hbody] at hcs
    exact ⟨_, opening, rest, allBlank_indentation cs, hopening, hcs.symm⟩
  · rintro ⟨blanks, opening, rest, hb, hopening, rfl⟩
    exact ⟨opening, rest, hopening, hopening.trimStart_append hb⟩

theorem opens_append (h : opens cs = true) : opens (cs ++ ds) = true := by
  obtain ⟨blanks, opening, rest, hb, hopening, rfl⟩ := opens_iff.1 h
  exact opens_iff.2 ⟨blanks, opening, rest ++ ds, hb, hopening, by simp⟩

/-- A colon and a closing bracket are part of no opening. -/
def Stops (d : Char) : Prop :=
  d = ':' ∨ d = ')'

theorem Stops.isBlank (h : Stops d) : isBlank d = false := by
  rcases h with rfl | rfl <;> decide

theorem opens_append_stop (h : Stops d) : opens (cs ++ d :: ds) = opens cs := by
  have hd := h.isBlank
  rw [Bool.eq_iff_iff]
  constructor
  · intro hopens
    obtain ⟨blanks, opening, rest, hb, hopening, heq⟩ := opens_iff.1 hopens
    have hnot : d ∉ blanks ++ opening := by
      intro hmem
      rcases List.mem_append.1 hmem with hmem | hmem
      · exact hb.not_mem hd hmem
      · exact hopening.not_mem hd (by rcases h with rfl | rfl <;> decide)
          (by rcases h with rfl | rfl <;> decide) hmem
    rw [← List.append_assoc] at heq
    obtain ⟨skipped, rfl, -⟩ := split_of_not_mem hnot heq.symm
    exact opens_iff.2 ⟨blanks, opening, skipped, hb, hopening, by simp⟩
  · exact opens_append

def keyOpenings : List Char → Nat
  | [] => 0
  | c :: cs => (if c = ':' ∧ opens cs then 1 else 0) + keyOpenings cs

def itemOpenings (line : List Char) : Nat :=
  match trimStart line with
  | '-' :: rest => if opens rest then 1 else 0
  | _ => 0

/-- The openings at which a construct could stand. -/
def openings (line : List Char) : Nat :=
  keyOpenings line + itemOpenings line

theorem keyOpenings_append_stop (h : Stops d) :
    keyOpenings (cs ++ d :: ds) = keyOpenings cs + keyOpenings (d :: ds) := by
  induction cs with
  | nil => simp [keyOpenings]
  | cons c cs ih =>
    rw [List.cons_append, keyOpenings, opens_append_stop h, ih, ← Nat.add_assoc]
    rfl

theorem keyOpenings_of_not_mem (h : ':' ∉ cs) : keyOpenings (cs ++ ds) = keyOpenings ds := by
  induction cs with
  | nil => rfl
  | cons c cs ih =>
    obtain ⟨hc, hcs⟩ := not_or.1 (fun hmem => h (List.mem_cons.2 hmem))
    rw [List.cons_append, keyOpenings, ih hcs, if_neg (fun hcolon => hc hcolon.1.symm), Nat.zero_add]

theorem keyOpenings_cons_of_ne (h : d ≠ ':') : keyOpenings (d :: cs) = keyOpenings cs :=
  keyOpenings_of_not_mem (List.not_mem_cons_of_ne_of_not_mem h.symm List.not_mem_nil)

theorem keyOpenings_le_append (cs ds : List Char) : keyOpenings cs ≤ keyOpenings (cs ++ ds) := by
  induction cs with
  | nil => exact Nat.zero_le _
  | cons c cs ih =>
    rw [List.cons_append, keyOpenings, keyOpenings]
    refine Nat.add_le_add ?_ ih
    split
    next h => rw [if_pos ⟨h.1, opens_append h.2⟩]
    · exact Nat.zero_le _

theorem keyOpenings_trimEnd_le (cs : List Char) : keyOpenings (trimEnd cs) ≤ keyOpenings cs := by
  obtain ⟨ends, -, heq⟩ := exists_trimEnd cs
  rw [congrArg keyOpenings heq]
  exact keyOpenings_le_append _ _

theorem keyOpenings_trim_le (cs : List Char) : keyOpenings (trim cs) ≤ keyOpenings cs := by
  refine (keyOpenings_trimEnd_le _).trans ?_
  rw [← congrArg keyOpenings (indentation_append_trimStart cs)]
  rw [keyOpenings_of_not_mem (allBlank_indentation cs).noColon]

theorem itemOpenings_dash {indent : List Char} (hi : AllBlank indent) :
    itemOpenings (indent ++ '-' :: rest) = if opens rest then 1 else 0 := by
  have hdash : isBlank '-' = false := by decide
  rw [itemOpenings, trimStart_append_cons hdash, trimStart_of_allBlank hi]
  rfl

theorem itemOpenings_of_ne {indent : List Char} (hi : AllBlank indent) (hd : isBlank d = false)
    (hne : d ≠ '-') : itemOpenings (indent ++ d :: rest) = 0 := by
  rw [itemOpenings, trimStart_append_cons hd, trimStart_of_allBlank hi, List.nil_append]
  split
  next heq => exact absurd (List.cons.inj heq).1 hne
  · rfl

end

section

variable {construct : Construct} {place : Place} {next cs out line w : List Char}

theorem Construct.Fills.opens (h : construct.Fills {} next cs out) : opens cs = true := by
  cases h with
  | multiline hb hn he => exact opens_iff.2 ⟨_, _, _, hb, .function, rfl⟩
  | inline hb hn hbody => exact opens_iff.2 ⟨_, _, _, hb, .function, rfl⟩
  | @inclusion blanks d rest hb hd hn =>
    exact opens_iff.2 ⟨blanks, _, rest, hb, .inclusion hd, by rw [List.append_assoc]; rfl⟩

theorem Construct.Fills.not_opens (h : construct.Fills {} next cs out)
    (hone : construct ≠ .multiline) : Line.opens (' ' :: out) = false := by
  cases h with
  | multiline hb hn he => exact absurd rfl hone
  | inline hb hn hbody => rfl
  | inclusion hb hd hn => rfl

theorem Construct.Fills.keyOpenings_le (h : construct.Fills {} next cs out)
    (hone : construct ≠ .multiline) : keyOpenings (' ' :: out) ≤ keyOpenings cs := by
  cases h with
  | multiline hb hn he => exact absurd rfl hone
  | @inline blanks args body hb hn hbody =>
    have hout : ' ' :: (Signal.functionHead args ++ ' ' :: body) =
        (' ' :: Signal.Kind.function.mark.toList ++ ['(']) ++ (args ++ ')' :: ' ' :: body) := by
      simp [Signal.functionHead]
    refine Nat.le_of_eq ?_
    calc keyOpenings (' ' :: (Signal.functionHead args ++ ' ' :: body))
        = keyOpenings (args ++ ')' :: ' ' :: body) := by
          rw [hout, keyOpenings_of_not_mem (by decide)]
      _ = keyOpenings (args ++ ')' :: body) := by
          rw [keyOpenings_append_stop (.inr rfl), keyOpenings_append_stop (.inr rfl),
            keyOpenings_cons_of_ne (by decide), keyOpenings_cons_of_ne (by decide),
            keyOpenings_cons_of_ne (by decide)]
      _ = keyOpenings (blanks ++ ('(' :: (args ++ ')' :: body))) := by
          rw [keyOpenings_of_not_mem hb.noColon, keyOpenings_cons_of_ne (by decide)]
  | @inclusion blanks d rest hb hd hn =>
    have hmark : ':' ∉ ' ' :: Signal.Kind.inclusion.mark.toList ++ [' '] := by decide
    have hkey : ':' ∉ ({} : Config).includeKey.toList := by decide
    have hout : ' ' :: Signal.inclusionText (trim (d :: rest)) =
        (' ' :: Signal.Kind.inclusion.mark.toList ++ [' ']) ++ trim (d :: rest) := by
      simp [Signal.inclusionText]
    rw [hout, keyOpenings_of_not_mem hmark, keyOpenings_of_not_mem hb.noColon,
      keyOpenings_of_not_mem hkey]
    exact keyOpenings_trim_le _

theorem itemOpenings_key_le {indent before rest : List Char} (hi : AllBlank indent)
    (hbody : ∀ d, (before ++ ':' :: rest).head? = some d → isBlank d = false) :
    itemOpenings (indent ++ (trimEnd before ++ ':' :: out)) ≤
      itemOpenings (indent ++ (before ++ ':' :: rest)) := by
  cases before with
  | nil =>
    have hcolon : isBlank ':' = false := by decide
    refine Nat.le_trans (Nat.le_of_eq ?_) (Nat.zero_le _)
    exact itemOpenings_of_ne hi hcolon (by decide)
  | cons d before =>
    have hd : isBlank d = false := hbody d rfl
    rw [trimEnd_cons hd, List.cons_append, List.cons_append]
    by_cases hdash : d = '-'
    · subst hdash
      rw [itemOpenings_dash hi, itemOpenings_dash hi, opens_append_stop (.inl rfl),
        opens_append_stop (.inl rfl)]
      obtain ⟨ends, -, heq⟩ := exists_trimEnd before
      split
      next hopens =>
        have hbefore : opens before = true := heq ▸ opens_append hopens
        rw [if_pos hbefore]
      · exact Nat.zero_le _
    · rw [itemOpenings_of_ne hi hd hdash]
      exact Nat.zero_le _

/-- A change uses up the opening it begins at. -/
theorem Expands.openings_lt (h : Expands {} next construct place line w)
    (hone : construct ≠ .multiline) : openings w < openings line := by
  cases h with
  | @item indent rest out hi hout =>
    have hrest := hout.keyOpenings_le hone
    have hw : keyOpenings (indent ++ '-' :: ' ' :: out) = keyOpenings (' ' :: out) := by
      rw [keyOpenings_of_not_mem hi.noColon, keyOpenings_cons_of_ne (by decide)]
    have hline : keyOpenings (indent ++ '-' :: rest) = keyOpenings rest := by
      rw [keyOpenings_of_not_mem hi.noColon, keyOpenings_cons_of_ne (by decide)]
    rw [openings, openings, itemOpenings_dash hi, itemOpenings_dash hi, hout.opens,
      hout.not_opens hone, hw, hline]
    exact Nat.add_lt_add_of_le_of_lt hrest Nat.zero_lt_one
  | @key indent before rest out hi hbody hn hout =>
    have hbefore := keyOpenings_trimEnd_le before
    have hrest := hout.keyOpenings_le hone
    have hitem : itemOpenings (indent ++ (trimEnd before ++ ':' :: ' ' :: out)) ≤
        itemOpenings (indent ++ (before ++ ':' :: rest)) := itemOpenings_key_le hi hbody
    have hw : keyOpenings (indent ++ (trimEnd before ++ ':' :: ' ' :: out)) =
        keyOpenings (trimEnd before) + keyOpenings (' ' :: out) := by
      rw [keyOpenings_of_not_mem hi.noColon, keyOpenings_append_stop (.inl rfl), keyOpenings,
        if_neg (by simp [hout.not_opens hone]), Nat.zero_add]
    have hline : keyOpenings (indent ++ (before ++ ':' :: rest)) =
        keyOpenings before + (1 + keyOpenings rest) := by
      rw [keyOpenings_of_not_mem hi.noColon, keyOpenings_append_stop (.inl rfl), keyOpenings,
        if_pos ⟨rfl, hout.opens⟩]
    rw [openings, openings, hw, hline]
    omega

theorem Construct.Fills.openings_pos (h : construct.Fills {} next cs out) :
    0 < keyOpenings (':' :: cs) := by
  rw [keyOpenings, if_pos ⟨rfl, h.opens⟩]
  exact Nat.add_pos_left Nat.zero_lt_one _

theorem Expands.openings_pos (h : Expands {} next construct place line w) : 0 < openings line := by
  cases h with
  | item hi hout =>
    rw [openings, itemOpenings_dash hi, hout.opens]
    exact Nat.succ_pos _
  | key hi hbody hn hout =>
    rw [openings, keyOpenings_of_not_mem hi.noColon,
      keyOpenings_append_stop (.inl rfl)]
    exact Nat.add_pos_left (Nat.add_pos_right _ hout.openings_pos) _

end

/-- The constructs that change the line, in the order in which they do. -/
def changes (c : Config) (next : List Char) :
    List (Construct × Place) → List Char → List (Construct × Place)
  | [], _ => []
  | sought :: others, line =>
    if expandOr c next line sought = line then changes c next others line
    else sought :: changes c next others (expandOr c next line sought)

section

variable {next line : List Char} {sought : Construct × Place} {others : List (Construct × Place)}

theorem Broken.changes_eq (h : Broken line) : changes {} next others line = [] := by
  induction others with
  | nil => rfl
  | cons sought others ih => rw [changes, if_pos h.expandOr_eq, ih]

theorem changes_subset (c : Config) (next : List Char) (others : List (Construct × Place))
    (line : List Char) : changes c next others line ⊆ others := by
  induction others generalizing line with
  | nil => exact List.Subset.refl _
  | cons sought others ih =>
    rw [changes]
    split
    · exact List.subset_cons_of_subset _ (ih _)
    · exact List.cons_subset_cons _ (ih _)

theorem changes_eq_nil_iff (hline : '\n' ∉ line) :
    changes {} next others line = [] ↔
      ∀ sought ∈ others, ∀ w, ¬ Expands {} next sought.1 sought.2 line w := by
  induction others with
  | nil => simp [changes]
  | cons sought others ih =>
    rw [changes, List.forall_mem_cons]
    split
    next heq =>
      rw [ih]
      refine (and_iff_right ?_).symm
      intro w h
      have hexpands := expands_expandOr (h.expand?_isSome hline)
      exact absurd hexpands.nonblanks_lt (by rw [heq]; exact Nat.lt_irrefl _)
    next hne =>
      have hexpands := (expandOr_eq_or_expands {} next line sought).resolve_left hne
      exact iff_of_false (List.cons_ne_nil _ _) fun h => h.1 _ hexpands

theorem length_changes_le (hnext : AllBlank next) (hline : '\n' ∉ line) :
    (changes {} next others line).length ≤ openings line := by
  induction others generalizing line with
  | nil => exact Nat.zero_le _
  | cons sought others ih =>
    obtain ⟨construct, place⟩ := sought
    rw [changes]
    split
    · exact ih hline
    next hne =>
      have hexpands := (expandOr_eq_or_expands {} next line _).resolve_left hne
      by_cases hone : construct = .multiline
      · subst hone
        rw [(hexpands.broken hnext).changes_eq]
        exact hexpands.openings_pos
      · have hlater := ih (hexpands.newline_not_mem hone hline)
        exact Nat.succ_le_of_lt (Nat.lt_of_le_of_lt hlater (hexpands.openings_lt hone))

theorem changes_multiline (place : Place) (hnext : AllBlank next) :
    changes {} next ((.multiline, place) :: others) line = [(.multiline, place)] ∨
      changes {} next ((.multiline, place) :: others) line = changes {} next others line := by
  rw [changes]
  split
  · exact .inr rfl
  next hne =>
    have hexpands := (expandOr_eq_or_expands {} next line _).resolve_left hne
    have hbroken := hexpands.broken hnext
    exact .inl (by rw [hbroken.changes_eq])

/-- A line in which a construct stands is changed, at most as often as there are openings in it, and
a function that goes on in the next lines is its only change. -/
theorem changes_le_openings {next line : List Char} (hnext : AllBlank next) (hline : '\n' ∉ line) :
    (changes {} next order line ≠ [] ↔
      ∃ construct place w, Expands {} next construct place line w) ∧
    (changes {} next order line).length ≤ openings line ∧
    ∀ place, (Construct.multiline, place) ∈ changes {} next order line →
      changes {} next order line = [(.multiline, place)] := by
  refine ⟨?_, length_changes_le hnext hline, ?_⟩
  · have hall : ∀ construct place, (construct, place) ∈ order := by
      intro construct place
      cases construct <;> cases place <;> decide
    rw [Ne, changes_eq_nil_iff hline]
    constructor
    · intro h
      by_contra hnone
      exact h fun sought _ w hw => hnone ⟨_, _, w, hw⟩
    · rintro ⟨construct, place, w, hw⟩ h
      exact h _ (hall construct place) w hw
  · intro place hmem
    have hlater : (Construct.multiline, place) ∉ order.drop 2 := by cases place <;> decide
    -- functions that go on in the next lines are looked for first, as keys and then as items
    rcases changes_multiline .key hnext with hkey | hkey
    · rw [order, hkey] at hmem ⊢
      rw [List.mem_singleton.1 hmem]
    · rcases changes_multiline .item hnext with hitem | hitem
      · rw [order, hkey, hitem] at hmem ⊢
        rw [List.mem_singleton.1 hmem]
      · rw [order, hkey, hitem] at hmem
        exact absurd (changes_subset _ _ _ _ hmem) hlater

theorem changes_of_ternary_key :
    (changes {} "  ".toList order "f: (a) a ? 1 : 2;".toList).length ≤ 1 := by
  have hnext : AllBlank "  ".toList := by decide
  exact (changes_le_openings hnext (by decide)).2.1.trans (by decide +kernel)

/-- The value of a key in the body of an item is taken for a function too. -/
theorem changes_of_ternary_item :
    changes {} [] order "- (a) a ? 1 : (2) + 3;".toList = [(.inline, .key), (.inline, .item)] ∧
      expand {} [] "- (a) a ? 1 : (2) + 3;".toList =
        "- __YAML_SCRIPT_FN__(a)  a ? 1: __YAML_SCRIPT_FN__(2)  + 3;".toList := by
  decide +kernel

end

end LiveDoc.Line
