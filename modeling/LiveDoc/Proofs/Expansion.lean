import LiveDoc.Line.Expansion
import LiveDoc.Proofs.Blanks

namespace LiveDoc.Line

open Text

theorem mem_afterBlanks {cs rest : List Char} :
    rest ∈ afterBlanks cs ↔ ∃ blanks, AllBlank blanks ∧ cs = blanks ++ rest := by
  induction cs with
  | nil =>
    constructor
    · intro h
      exact ⟨[], by decide, (List.mem_singleton.1 h).symm⟩
    · rintro ⟨blanks, -, h⟩
      obtain ⟨rfl, rfl⟩ := List.nil_eq_append_iff.1 h
      exact List.mem_singleton_self _
  | cons c cs ih =>
    rw [afterBlanks]
    constructor
    · intro h
      split at h
      next hc =>
        rcases List.mem_append.1 h with h | h
        · obtain ⟨blanks, hb, rfl⟩ := ih.1 h
          refine ⟨c :: blanks, ?_, rfl⟩
          exact List.forall_mem_cons.2 ⟨hc, hb⟩
        · exact ⟨[], by decide, by simpa using (List.mem_singleton.1 h).symm⟩
      next hc => exact ⟨[], by decide, by simpa using (List.mem_singleton.1 h).symm⟩
    · rintro ⟨blanks, hb, h⟩
      cases blanks with
      | nil =>
        rw [List.nil_append] at h
        subst h
        split <;> simp
      | cons d blanks =>
        obtain ⟨rfl, rfl⟩ := List.cons.inj h
        obtain ⟨hc, hb⟩ := List.forall_mem_cons.1 hb
        rw [if_pos hc]
        exact List.mem_append_left _ (ih.2 ⟨blanks, hb, rfl⟩)

theorem afterBlanks_eq_cons (cs : List Char) : ∃ others, afterBlanks cs = trimStart cs :: others := by
  induction cs with
  | nil => exact ⟨[], rfl⟩
  | cons c cs ih =>
    obtain ⟨others, ih⟩ := ih
    rw [afterBlanks, trimStart, List.dropWhile_cons]
    split
    · exact ⟨others ++ [c :: cs], by rw [ih]; rfl⟩
    · exact ⟨[], rfl⟩

section

variable {close : List Char} {finish : List Char → Option α} {cs skipped rest : List Char} {a : α}

theorem of_upTo (h : upTo close finish cs = some (skipped, a)) :
    '\n' ∉ skipped ∧ ∃ rest, cs = skipped ++ (close ++ rest) ∧ finish rest = some a := by
  induction cs generalizing skipped with
  | nil =>
    obtain ⟨found, hfound, heq⟩ := Option.map_eq_some_iff.1 h
    obtain ⟨rest, hrest, hfinish⟩ := Option.bind_eq_some_iff.1 hfound
    cases heq
    exact ⟨List.not_mem_nil, rest, by simpa using after?_eq_some_iff.1 hrest, hfinish⟩
  | cons c cs ih =>
    rw [upTo] at h
    split at h
    next found hfound =>
      obtain ⟨rest, hrest, hfinish⟩ := Option.bind_eq_some_iff.1 hfound
      cases h
      exact ⟨List.not_mem_nil, rest, by simpa using after?_eq_some_iff.1 hrest, hfinish⟩
    · split at h
      · cases h
      next hc =>
        obtain ⟨⟨skipped', a'⟩, hfound, heq⟩ := Option.map_eq_some_iff.1 h
        cases heq
        obtain ⟨hn, rest, rfl, hfinish⟩ := ih hfound
        refine ⟨?_, rest, rfl, hfinish⟩
        rw [List.mem_cons, not_or]
        exact ⟨Ne.symm hc, hn⟩

theorem upTo_isSome (hn : '\n' ∉ skipped) (h : (finish rest).isSome = true) :
    (upTo close finish (skipped ++ (close ++ rest))).isSome = true := by
  obtain ⟨a, ha⟩ := Option.isSome_iff_exists.1 h
  induction skipped with
  | nil =>
    have hbind : (after? close (close ++ rest)).bind finish = some a := by
      rw [after?_eq_some_iff.2 rfl, Option.bind_some, ha]
    rw [List.nil_append]
    generalize close ++ rest = cs at hbind
    cases cs with
    | nil => simp [upTo, hbind]
    | cons c cs => simp [upTo, hbind]
  | cons c skipped ih =>
    obtain ⟨hc, hn⟩ := not_or.1 (fun h => hn (List.mem_cons.2 h))
    rw [List.cons_append, upTo]
    split
    · rfl
    · rw [if_neg (Ne.symm hc), Option.isSome_map]
      exact ih hn

/-- The first bracket is taken if it can be. -/
theorem upTo_of_not_mem {d : Char} (hd : d ∉ skipped) (hn : '\n' ∉ skipped)
    (h : finish rest = some a) : upTo [d] finish (skipped ++ d :: rest) = some (skipped, a) := by
  induction skipped with
  | nil => simp [upTo, after?, h]
  | cons c skipped ih =>
    obtain ⟨hdc, hd⟩ := not_or.1 (fun h => hd (List.mem_cons.2 h))
    obtain ⟨hc, hn⟩ := not_or.1 (fun h => hn (List.mem_cons.2 h))
    rw [List.cons_append, upTo, after?, if_neg hdc, Option.bind_none, if_neg (Ne.symm hc), ih hd hn]
    rfl

end

variable {c : Config} {next : List Char}

/-- A construct that fills a text, and what is written for it. -/
inductive Construct.Fills (c : Config) (next : List Char) :
    Construct → List Char → List Char → Prop
  | multiline (hb : AllBlank blanks) (hn : '\n' ∉ args) (he : AllBlank ends) :
    Fills c next .multiline
      (blanks ++ (c.functionOpen.toList ++ (args ++ (c.functionClose.toList ++ ends))))
      ('>' :: '\n' :: next ++ Signal.functionHead args)
  | inline (hb : AllBlank blanks) (hn : '\n' ∉ args) (hbody : '\n' ∉ body) :
    Fills c next .inline
      (blanks ++ (c.functionOpen.toList ++ (args ++ (c.functionClose.toList ++ body))))
      (Signal.functionHead args ++ ' ' :: body)
  | inclusion (hb : AllBlank blanks) (hd : isBlank d = true) (hn : '\n' ∉ trim (d :: rest)) :
    Fills c next .inclusion (blanks ++ (c.includeKey.toList ++ d :: rest))
      (Signal.inclusionText (trim (d :: rest)))

theorem of_arguments? {finish : List Char → Option α} {cs args : List Char} {a : α}
    (h : arguments? c finish cs = some (args, a)) :
    ∃ blanks rest, AllBlank blanks ∧ '\n' ∉ args ∧ finish rest = some a ∧
      cs = blanks ++ (c.functionOpen.toList ++ (args ++ (c.functionClose.toList ++ rest))) := by
  obtain ⟨inner, hinner, hfound⟩ := List.exists_of_findSome?_eq_some h
  obtain ⟨blanks, hb, rfl⟩ := mem_afterBlanks.1 hinner
  obtain ⟨cs, hcs, htext⟩ := Option.bind_eq_some_iff.1 hfound
  obtain rfl := after?_eq_some_iff.1 hcs
  obtain ⟨hn, rest, rfl, hfinish⟩ := of_upTo htext
  exact ⟨blanks, rest, hb, hn, hfinish, rfl⟩

theorem arguments?_isSome {finish : List Char → Option α} {blanks args rest : List Char}
    (hb : AllBlank blanks) (hn : '\n' ∉ args) (h : (finish rest).isSome = true) :
    (arguments? c finish (blanks ++
      (c.functionOpen.toList ++ (args ++ (c.functionClose.toList ++ rest))))).isSome = true := by
  rw [arguments?, List.findSome?_isSome_iff]
  refine ⟨_, mem_afterBlanks.2 ⟨blanks, hb, rfl⟩, ?_⟩
  rw [after?_eq_some_iff.2 rfl]
  exact upTo_isSome hn h

theorem onlyBlanks?_eq_some {cs : List Char} {u : Unit} (h : onlyBlanks? cs = some u) :
    AllBlank cs := by
  rw [onlyBlanks?] at h
  split at h
  next hall => exact List.all_eq_true.1 hall
  · cases h

theorem oneLine?_eq_some_iff {cs ds : List Char} :
    oneLine? cs = some ds ↔ '\n' ∉ cs ∧ cs = ds := by
  rw [oneLine?]
  split
  next h => simp [h]
  next h => simp [h]

theorem fills_of_written? {construct : Construct} {cs out : List Char}
    (h : construct.written? c next cs = some out) : construct.Fills c next cs out := by
  cases construct with
  | multiline =>
    obtain ⟨⟨args, u⟩, hargs, rfl⟩ := Option.map_eq_some_iff.1 h
    obtain ⟨blanks, rest, hb, hn, hrest, rfl⟩ := of_arguments? hargs
    exact .multiline hb hn (onlyBlanks?_eq_some hrest)
  | inline =>
    obtain ⟨⟨args, body⟩, hargs, rfl⟩ := Option.map_eq_some_iff.1 h
    obtain ⟨blanks, rest, hb, hn, hrest, rfl⟩ := of_arguments? hargs
    obtain ⟨hbody, rfl⟩ := oneLine?_eq_some_iff.1 hrest
    exact .inline hb hn hbody
  | inclusion =>
    obtain ⟨path, hpath, rfl⟩ := Option.map_eq_some_iff.1 h
    obtain ⟨inner, hinner, hfound⟩ := List.exists_of_findSome?_eq_some hpath
    obtain ⟨blanks, hb, rfl⟩ := mem_afterBlanks.1 hinner
    obtain ⟨cs, hcs, htail⟩ := Option.bind_eq_some_iff.1 hfound
    obtain rfl := after?_eq_some_iff.1 hcs
    cases cs with
    | nil => cases htail
    | cons d rest =>
      simp only [path?] at htail
      split at htail
      next hd =>
        obtain ⟨hn, rfl⟩ := oneLine?_eq_some_iff.1 htail
        exact .inclusion hb hd hn
      · cases htail

theorem Construct.Fills.written?_isSome {construct : Construct} {cs out : List Char}
    (h : construct.Fills c next cs out) : (construct.written? c next cs).isSome = true := by
  cases h with
  | multiline hb hn he =>
    rw [written?, Option.isSome_map]
    refine arguments?_isSome hb hn ?_
    rw [onlyBlanks?, if_pos (List.all_eq_true.2 he)]
    rfl
  | inline hb hn hbody =>
    rw [written?, Option.isSome_map]
    refine arguments?_isSome hb hn ?_
    rw [oneLine?_eq_some_iff.2 ⟨hbody, rfl⟩]
    rfl
  | inclusion hb hd hn =>
    rw [written?, Option.isSome_map, List.findSome?_isSome_iff]
    refine ⟨_, mem_afterBlanks.2 ⟨_, hb, rfl⟩, ?_⟩
    rw [after?_eq_some_iff.2 rfl, Option.bind_some]
    simp only [path?, if_pos hd, oneLine?_eq_some_iff.2 ⟨hn, rfl⟩, Option.isSome_some]

/-- A construct that stands at a place of a line, and the line that is written for it. -/
inductive Expands (c : Config) (next : List Char) (construct : Construct) :
    Place → List Char → List Char → Prop
  | key (hi : AllBlank indent) (hbody : ∀ d, (before ++ ':' :: rest).head? = some d →
      isBlank d = false) (hn : '\n' ∉ trimEnd before) (hout : construct.Fills c next rest out) :
    Expands c next construct .key (indent ++ (before ++ ':' :: rest))
      (indent ++ (trimEnd before ++ ':' :: ' ' :: out))
  | item (hi : AllBlank indent) (hout : construct.Fills c next rest out) :
    Expands c next construct .item (indent ++ '-' :: rest) (indent ++ '-' :: ' ' :: out)

theorem of_keyed {tail : List Char → Option α} {before cs key : List Char} {a : α}
    (h : keyed tail before cs = some (key, a)) :
    ∃ skipped rest, cs = skipped ++ ':' :: rest ∧ tail rest = some a ∧
      key = trimEnd (before.reverse ++ skipped) ∧ '\n' ∉ key := by
  induction cs generalizing before with
  | nil => cases h
  | cons d cs ih =>
    rw [keyed] at h
    split at h
    next found hfound =>
      cases h
      split at hfound
      next hd =>
        obtain ⟨key', hkey, hfound⟩ := Option.bind_eq_some_iff.1 hfound
        obtain ⟨a', ha, heq⟩ := Option.map_eq_some_iff.1 hfound
        cases heq
        obtain ⟨hn, rfl⟩ := oneLine?_eq_some_iff.1 hkey
        exact ⟨[], cs, by rw [hd]; rfl, ha, by rw [List.append_nil], hn⟩
      · cases hfound
    · obtain ⟨skipped, rest, rfl, ha, rfl, hn⟩ := ih h
      refine ⟨d :: skipped, rest, rfl, ha, ?_, hn⟩
      rw [List.reverse_cons, List.append_assoc]
      rfl

theorem keyed_isSome {tail : List Char → Option α} {before skipped rest : List Char}
    (hn : '\n' ∉ before.reverse ++ skipped) (h : (tail rest).isSome = true) :
    (keyed tail before (skipped ++ ':' :: rest)).isSome = true := by
  induction skipped generalizing before with
  | nil =>
    obtain ⟨a, ha⟩ := Option.isSome_iff_exists.1 h
    have hkey : oneLine? (trimEnd before.reverse) = some (trimEnd before.reverse) := by
      refine oneLine?_eq_some_iff.2 ⟨?_, rfl⟩
      intro hmem
      exact hn (List.mem_append_left _ (mem_of_mem_trimEnd hmem))
    simp [keyed, keyEnd?, hkey, ha]
  | cons d skipped ih =>
    rw [List.cons_append, keyed]
    split
    · rfl
    · exact ih (by simpa using hn)

/-- A colon in front of all that `tail` could take ends the key. -/
theorem keyed_of_not_mem {tail : List Char → Option α} (before : List Char)
    {skipped rest : List Char} {a : α} (hc : ':' ∉ skipped)
    (hn : '\n' ∉ trimEnd (before.reverse ++ skipped)) (h : tail rest = some a) :
    keyed tail before (skipped ++ ':' :: rest) =
      some (trimEnd (before.reverse ++ skipped), a) := by
  induction skipped generalizing before with
  | nil =>
    rw [List.append_nil] at hn ⊢
    simp [keyed, keyEnd?, oneLine?_eq_some_iff.2 ⟨hn, rfl⟩, h]
  | cons d skipped ih =>
    obtain ⟨hdc, hc⟩ := not_or.1 (fun h => hc (List.mem_cons.2 h))
    rw [List.cons_append, keyed, if_neg (Ne.symm hdc), ih _ hc (by simpa using hn)]
    simp

theorem expands_of_expand? {construct : Construct} {place : Place} {line w : List Char}
    (h : expand? c next construct place line = some w) :
    Expands c next construct place line w := by
  have hline := indentation_append_trimStart line
  cases place with
  | key =>
    obtain ⟨⟨key, out⟩, hkeyed, rfl⟩ := Option.map_eq_some_iff.1 h
    obtain ⟨before, rest, hbody, hout, rfl, hn⟩ := of_keyed hkeyed
    have hhead : ∀ d, (before ++ ':' :: rest).head? = some d → isBlank d = false := by
      intro d hd
      rw [← hbody] at hd
      exact isBlank_of_head?_trimStart hd
    have hexpands := Expands.key (allBlank_indentation line) hhead hn (fills_of_written? hout)
    rw [← hbody, hline] at hexpands
    simpa using hexpands
  | item =>
    simp only [expand?] at h
    split at h
    next hplace => cases hplace
    next rest hplace hbody =>
      obtain ⟨out, hout, rfl⟩ := Option.map_eq_some_iff.1 h
      have hexpands := Expands.item (allBlank_indentation line) (fills_of_written? hout)
      rw [← hbody, hline] at hexpands
      simpa using hexpands
    · cases h

theorem expands_expandOr {construct : Construct} {place : Place} {line : List Char}
    (h : (expand? c next construct place line).isSome = true) :
    Expands c next construct place line (expandOr c next line (construct, place)) := by
  obtain ⟨w, hw⟩ := Option.isSome_iff_exists.1 h
  simpa [expandOr, hw] using expands_of_expand? hw

theorem expandOr_eq_or_expands (c : Config) (next line : List Char)
    (sought : Construct × Place) : expandOr c next line sought = line ∨
      Expands c next sought.1 sought.2 line (expandOr c next line sought) := by
  cases hexpand : expand? c next sought.1 sought.2 line with
  | none => exact .inl (by simp [expandOr, hexpand])
  | some w => exact .inr (by simpa [expandOr, hexpand] using expands_of_expand? hexpand)

theorem expand?_item {construct : Construct} {indent rest : List Char} (hi : AllBlank indent) :
    expand? c next construct .item (indent ++ '-' :: rest) =
      (construct.written? c next rest).map (indent ++ '-' :: ' ' :: ·) := by
  have hdash : isBlank '-' = false := by decide
  simp only [expand?, indentation_append_cons hi hdash, trimStart_append_cons hdash,
    trimStart_of_allBlank hi, List.nil_append]

/-- The line is expanded at the first colon if that can be. -/
theorem expand?_key {construct : Construct} {indent key rest out : List Char} {d : Char}
    (hi : AllBlank indent) (hd : isBlank d = false) (hc : ':' ∉ d :: key)
    (hn : '\n' ∉ trimEnd (d :: key)) (h : construct.written? c next rest = some out) :
    expand? c next construct .key (indent ++ (d :: key ++ ':' :: rest)) =
      some (indent ++ (trimEnd (d :: key) ++ ':' :: ' ' :: out)) := by
  have hkeyed := keyed_of_not_mem [] hc hn h
  simp only [expand?, List.cons_append, indentation_append_cons hi hd,
    trimStart_append_cons hd, trimStart_of_allBlank hi, List.nil_append] at hkeyed ⊢
  rw [hkeyed]
  simp

theorem expand?_key_isSome {construct : Construct} {skipped rest : List Char}
    (hn : '\n' ∉ skipped) (h : (construct.written? c next rest).isSome = true) :
    (expand? c next construct .key (skipped ++ ':' :: rest)).isSome = true := by
  have hcolon : isBlank ':' = false := by decide
  simp only [expand?, trimStart_append_cons hcolon, Option.isSome_map]
  refine keyed_isSome ?_ h
  intro hmem
  exact hn ((List.dropWhile_sublist isBlank).subset hmem)

theorem Expands.expand?_isSome {construct : Construct} {place : Place} {line w : List Char}
    (h : Expands c next construct place line w) (hline : '\n' ∉ line) :
    (expand? c next construct place line).isSome = true := by
  cases h with
  | @key indent before rest out hi hbody hn hout =>
    rw [← List.append_assoc] at hline ⊢
    have hskipped : '\n' ∉ indent ++ before := fun hmem => hline (List.mem_append_left _ hmem)
    exact expand?_key_isSome hskipped hout.written?_isSome
  | item hi hout =>
    rw [expand?_item hi, Option.isSome_map]
    exact hout.written?_isSome

theorem nonblanks_functionHead (args : List Char) :
    nonblanks (Signal.functionHead args) = nonblanks args + 20 := by
  have hmark : nonblanks Signal.Kind.function.mark.toList = 18 := by decide
  have hopen : nonblanks ['('] = 1 := by decide
  have hclose : nonblanks [')'] = 1 := by decide
  rw [Signal.functionHead, nonblanks_append, nonblanks_append, nonblanks_cons, hmark, hopen, hclose]
  omega

theorem nonblanks_inclusionText (path : List Char) :
    nonblanks (Signal.inclusionText path) = nonblanks path + 23 := by
  have hmark : nonblanks Signal.Kind.inclusion.mark.toList = 23 := by decide
  have hblank : nonblanks [' '] = 0 := by decide
  rw [Signal.inclusionText, nonblanks_append, nonblanks_cons, hmark, hblank]
  omega

section

variable {construct : Construct} {place : Place} {cs out line w : List Char}

/-- What is written is longer than what stood there, blanks aside. -/
theorem Construct.Fills.nonblanks_lt (h : construct.Fills {} next cs out) :
    nonblanks cs < nonblanks out := by
  have hopen : nonblanks ({} : Config).functionOpen.toList = 1 := by decide
  have hclose : nonblanks ({} : Config).functionClose.toList = 1 := by decide
  cases h with
  | multiline hb hn he =>
    rw [List.cons_append, List.cons_append, nonblanks_cons, nonblanks_cons '\n']
    simp only [nonblanks_append, nonblanks_functionHead, nonblanks_of_allBlank hb,
      nonblanks_of_allBlank he, hopen, hclose]
    omega
  | inline hb hn hbody =>
    rw [nonblanks_append (Signal.functionHead _), nonblanks_cons ' ']
    simp only [nonblanks_append, nonblanks_functionHead, nonblanks_of_allBlank hb, hopen, hclose]
    omega
  | inclusion hb hd hn =>
    have hkey : nonblanks ({} : Config).includeKey.toList = 8 := by decide
    simp only [nonblanks_append, nonblanks_inclusionText, nonblanks_trim,
      nonblanks_of_allBlank hb, hkey]
    omega

theorem Expands.nonblanks_lt (h : Expands {} next construct place line w) :
    nonblanks line < nonblanks w := by
  cases h with
  | key hi hbody hn hout =>
    have hgrowth := hout.nonblanks_lt
    simp only [nonblanks_append, nonblanks_trimEnd]
    rw [nonblanks_cons ':', nonblanks_cons ':' (' ' :: _), nonblanks_cons ' ']
    omega
  | item hi hout =>
    have hgrowth := hout.nonblanks_lt
    simp only [nonblanks_append]
    rw [nonblanks_cons '-', nonblanks_cons '-' (' ' :: _), nonblanks_cons ' ']
    omega

theorem Construct.Fills.newline_not_mem (h : construct.Fills {} next cs out)
    (hone : construct ≠ .multiline) : '\n' ∉ out := by
  cases h with
  | multiline hb hn he => exact absurd rfl hone
  | inline hb hn hbody =>
    have hmark : '\n' ∉ Signal.Kind.function.mark.toList := by decide
    simp [Signal.functionHead, hmark, hn, hbody]
  | inclusion hb hd hn =>
    have hmark : '\n' ∉ Signal.Kind.inclusion.mark.toList := by decide
    simp [Signal.inclusionText, hmark, hn]

theorem Expands.newline_not_mem (h : Expands {} next construct place line w)
    (hone : construct ≠ .multiline) (hline : '\n' ∉ line) : '\n' ∉ w := by
  cases h with
  | item hi hout =>
    have hnout := hout.newline_not_mem hone
    have hindent := (not_or.1 (fun hmem => hline (List.mem_append.2 hmem))).1
    simp [hindent, hnout]
  | key hi hbody hn hout =>
    have hnout := hout.newline_not_mem hone
    have hindent := (not_or.1 (fun hmem => hline (List.mem_append.2 hmem))).1
    simp [hindent, hn, hnout]

/-- A text that goes on in a second line, where a function begins. -/
def Broken (cs : List Char) : Prop :=
  ∃ before blanks rest, AllBlank blanks ∧
    cs = before ++ '>' :: '\n' :: (blanks ++ '_' :: rest)

theorem Broken.newline_mem (h : Broken cs) : '\n' ∈ cs := by
  obtain ⟨before, blanks, rest, -, rfl⟩ := h
  simp

theorem Broken.of_append (before : List Char) (h : Broken (before ++ cs)) (hd : '>' ∉ before) :
    Broken cs := by
  obtain ⟨start, blanks, rest, hb, heq⟩ := h
  obtain ⟨skipped, -, rfl⟩ := split_of_not_mem hd heq
  exact ⟨skipped, blanks, rest, hb, rfl⟩

theorem Broken.newline_mem_trimEnd (h : Broken cs) : '\n' ∈ trimEnd cs := by
  obtain ⟨before, blanks, rest, -, rfl⟩ := h
  have hunderscore : isBlank '_' = false := by decide
  have hassoc : before ++ '>' :: '\n' :: (blanks ++ '_' :: rest) =
      (before ++ '>' :: '\n' :: blanks) ++ '_' :: rest := by simp
  rw [hassoc, trimEnd_append_cons hunderscore]
  simp

theorem Broken.newline_mem_trim (h : Broken cs) : '\n' ∈ trim cs := by
  obtain ⟨before, blanks, rest, hb, rfl⟩ := h
  have hangle : isBlank '>' = false := by decide
  rw [trim, trimStart_append_cons hangle]
  exact Broken.newline_mem_trimEnd ⟨trimStart before, blanks, rest, hb, rfl⟩

theorem Broken.not_fills (h : Broken cs) : ¬ construct.Fills {} next cs out := by
  have hangle : isBlank '>' = false := by decide
  intro hfills
  cases hfills with
  | multiline hb hn he =>
    obtain ⟨before, blanks, rest, -, heq⟩ :=
      (h.of_append _ (hb.not_mem hangle)).of_append ['('] (by decide)
    rw [List.append_cons] at heq
    obtain ⟨skipped, -, hclose⟩ := split_of_not_mem hn heq
    -- the blanks behind the bracket would hold the second line
    cases skipped with
    | nil => cases hclose
    | cons e skipped =>
      obtain ⟨-, rfl⟩ := List.cons.inj hclose
      have hunderscore : isBlank '_' = true := he '_' (by simp)
      exact absurd hunderscore (by decide)
  | inline hb hn hbody =>
    have hargs := (h.of_append _ (hb.not_mem hangle)).of_append ['('] (by decide)
    rcases List.mem_append.1 hargs.newline_mem with hmem | hmem
    · exact hn hmem
    · exact hbody (List.mem_of_ne_of_mem (by decide) hmem)
  | inclusion hb hd hn =>
    have hpath := (h.of_append _ (hb.not_mem hangle)).of_append
      ({} : Config).includeKey.toList (by decide)
    exact hn hpath.newline_mem_trim

theorem Broken.not_expands (h : Broken line) : ¬ Expands {} next construct place line w := by
  have hangle : isBlank '>' = false := by decide
  intro hexpands
  cases hexpands with
  | item hi hout =>
    exact ((h.of_append _ (hi.not_mem hangle)).of_append ['-'] (by decide)).not_fills hout
  | @key indent before rest out hi hbody hn hout =>
    obtain ⟨start, blanks, last, hb, heq⟩ := h.of_append _ (hi.not_mem hangle)
    rcases List.append_eq_append_iff.1 heq with ⟨skipped, rfl, hrest⟩ | ⟨skipped, rfl, hafter⟩
    · cases skipped with
      | nil => cases hrest
      | cons e skipped =>
        obtain ⟨-, rfl⟩ := List.cons.inj hrest
        exact Broken.not_fills ⟨skipped, blanks, last, hb, rfl⟩ hout
    · -- the key would go beyond the first line
      have hfirst : ':' ∉ '>' :: '\n' :: blanks := by simp [hb.noColon]
      have hsecond : ('>' :: '\n' :: blanks) ++ '_' :: last = skipped ++ ':' :: rest := hafter
      obtain ⟨name, rfl, hname⟩ := split_of_not_mem hfirst hsecond
      cases name with
      | nil => cases hname
      | cons e name =>
        obtain ⟨rfl, -⟩ := List.cons.inj hname
        exact hn (Broken.newline_mem_trimEnd ⟨start, blanks, name, hb, by simp⟩)

theorem Broken.expandOr_eq {sought : Construct × Place} (h : Broken line) :
    expandOr {} next line sought = line :=
  (expandOr_eq_or_expands {} next line sought).resolve_right h.not_expands

theorem Broken.foldl_expandOr (h : Broken line) (others : List (Construct × Place)) :
    others.foldl (expandOr {} next) line = line := by
  induction others with
  | nil => rfl
  | cons sought others ih => rw [List.foldl_cons, h.expandOr_eq, ih]

theorem nonblanks_le_foldl_expandOr (next : List Char) (others : List (Construct × Place))
    (line : List Char) :
    nonblanks line ≤ nonblanks (others.foldl (expandOr {} next) line) := by
  induction others generalizing line with
  | nil => exact Nat.le_refl _
  | cons sought others ih =>
    refine Nat.le_trans ?_ (ih _)
    rcases expandOr_eq_or_expands {} next line sought with heq | hexpands
    · rw [heq]
    · exact Nat.le_of_lt hexpands.nonblanks_lt

/-- The text of a multiline construct goes beyond its line. -/
theorem Expands.broken (hnext : AllBlank next)
    (h : Expands {} next .multiline place line w) : Broken w := by
  have hhead : ∀ args, ∃ rest, Signal.functionHead args = '_' :: rest := fun _ => ⟨_, rfl⟩
  cases h with
  | @key indent before rest out hi hbody hn hout =>
    cases hout with
    | @multiline blanks args ends hb hargs he =>
      obtain ⟨rest, hrest⟩ := hhead args
      exact ⟨indent ++ (trimEnd before ++ [':', ' ']), next, rest, hnext, by simp [hrest]⟩
  | @item indent rest out hi hout =>
    cases hout with
    | @multiline blanks args ends hb hargs he =>
      obtain ⟨rest, hrest⟩ := hhead args
      exact ⟨indent ++ ['-', ' '], next, rest, hnext, by simp [hrest]⟩

end

end LiveDoc.Line
