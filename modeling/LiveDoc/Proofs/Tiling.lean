import LiveDoc.Proofs.Layout

namespace LiveDoc.Script

namespace Lexer

/-- A text in quotes, with them. -/
inductive IsText : List Char → Prop
  | mk (hq : q = '\x22' ∨ q = '\x27') (h : IsQuoted q cs) : IsText (q :: cs)

def IsLexeme (x : List Char) : Prop :=
  IsNumeral x ∨ IsText x ∨ IsWord x ∨ IsSign x

/-- The token that a lexeme makes. A keyword is no name. -/
inductive Makes : List Char → Token → Prop
  | number (h : IsNumeral x) (hn : number? x = some n) : Makes x (.number n)
  | text (hq : q = '\x22' ∨ q = '\x27') (h : IsQuoted q (cs ++ [q])) :
    Makes (q :: (cs ++ [q])) (.text (String.ofList (unescape cs)))
  | keyword (k : Keyword) : Makes k.text.toList (.keyword k)
  | name (h : IsWord x) (hk : ∀ k : Keyword, k.text.toList ≠ x) : Makes x (.name (String.ofList x))
  | sign (s : Sign) : Makes s.text.toList (.sign s)

/-- No piece of a body begins here, though there is something left of it. -/
inductive Unreadable : List Char → Prop
  | comment (h : ¬['*', '/'] <:+: cs) : Unreadable ('/' :: '*' :: cs)
  | char (hc : isLayout c = false) (h : ∀ x, x <+: c :: cs → ¬IsLexeme x) : Unreadable (c :: cs)

end Lexer

open Lexer

/-- The tokens of a text in front of another one, with the places where they begin and end. -/
inductive Tiles (after : List Char) : Nat → List Char → List Spanned → Prop
  | last (hg : IsLayout gap) : Tiles after offset gap []
  | token (hg : IsLayout gap) (hx : Makes x t) (hlong : IsLongest IsLexeme x (x ++ (cs ++ after)))
    (hopen : ¬['/', '*'] <+: x ++ (cs ++ after)) (hstart : start = offset + Text.utf8Length gap)
    (hstop : stop = start + Text.utf8Length x) (h : Tiles after stop cs tokens) :
    Tiles after offset (gap ++ (x ++ cs)) (⟨t, start, stop⟩ :: tokens)

namespace Lexer

theorem splitSign_of_isDigit {d : Char} {ds : List Char} (h : Decimal.isDigit d = true) :
    Decimal.splitSign (d :: ds) = (false, d :: ds) := by
  unfold Decimal.splitSign
  split
  next heq => cases heq; exact absurd h (by decide)
  next heq => cases heq; exact absurd h (by decide)
  · rfl

theorem integer?_of_isDigits {sign ds : List Char} (hs : sign = [] ∨ sign = ['+'] ∨ sign = ['-'])
    (hd : IsDigits ds) : ∃ n, Decimal.integer? 10 (sign ++ ds) = some n := by
  have hn : Decimal.natural? 10 ds = some (Nat.ofDigitChars 10 ds 0) :=
    Decimal.natural?_ten_eq_some_iff.2 ⟨hd.1, hd.2, rfl⟩
  rcases hs with rfl | rfl | rfl
  · obtain ⟨d, ds, rfl⟩ := List.exists_cons_of_ne_nil hd.1
    simp only [List.nil_append, Decimal.integer?, splitSign_of_isDigit (hd.2 d (by simp)), hn]
    exact ⟨_, rfl⟩
  · simp only [List.cons_append, List.nil_append, Decimal.integer?, Decimal.splitSign, hn]
    exact ⟨_, rfl⟩
  · simp only [List.cons_append, List.nil_append, Decimal.integer?, Decimal.splitSign, hn]
    exact ⟨_, rfl⟩

theorem exponent?_of_isExponent {e : List Char} (he : IsExponent e) :
    ∃ n, Decimal.exponent? e = some n := by
  cases he with
  | none => exact ⟨0, rfl⟩
  | some he hs hd =>
    obtain ⟨n, hn⟩ := integer?_of_isDigits hs hd
    refine ⟨n, ?_⟩
    rcases he with rfl | rfl <;> exact hn

theorem isLayout_of_isDigit {c : Char} (h : Decimal.isDigit c = true) : isLayout c = false := by
  have hparts := parts_of_isDigit h
  simp only [parts, Bool.or_eq_false_iff] at hparts
  exact hparts.1

theorem takeWhile_append_of_digits {ds rest : List Char} (hd : ∀ c ∈ ds, Decimal.isDigit c = true)
    (hrest : ∀ c, rest.head? = some c → Decimal.isDigit c = false) :
    (ds ++ rest).takeWhile Decimal.isDigit = ds ∧ (ds ++ rest).dropWhile Decimal.isDigit = rest := by
  rw [List.takeWhile_append_of_pos hd, List.dropWhile_append_of_pos hd]
  cases rest with
  | nil => simp
  | cons c rest => simp [hrest c rfl]

theorem decimal?_of_isNumeral {x : List Char} (h : IsNumeral x) :
    ∃ f, Decimal.decimal? false x = some f := by
  cases h with
  | @mk whole fraction exponent hw hf he =>
    obtain ⟨n, hn⟩ := exponent?_of_isExponent he
    have hexponent : ∀ c, exponent.head? = some c → Decimal.isDigit c = false :=
      fun _ => isDigit_of_exponent he
    cases hf with
    | none =>
      obtain ⟨htake, hdrop⟩ := takeWhile_append_of_digits hw.2 hexponent
      have hm : Decimal.natural? 10 whole = some (Nat.ofDigitChars 10 whole 0) :=
        Decimal.natural?_ten_eq_some_iff.2 ⟨hw.1, hw.2, rfl⟩
      simp only [Decimal.decimal?, List.nil_append, htake, hdrop]
      cases he with
      | none => simp [hm, hn]
      | some he => rcases he with rfl | rfl <;> simp [hm, hn]
    | @some ds hd =>
      have hhead : ∀ c, ('.' :: (ds ++ exponent)).head? = some c → Decimal.isDigit c = false := by
        rintro _ ⟨⟩
        decide
      obtain ⟨htake, hdrop⟩ := takeWhile_append_of_digits hw.2 hhead
      obtain ⟨htake', hdrop'⟩ := takeWhile_append_of_digits hd.2 hexponent
      have hm : Decimal.natural? 10 (whole ++ ds) = some (Nat.ofDigitChars 10 (whole ++ ds) 0) := by
        refine Decimal.natural?_ten_eq_some_iff.2 ⟨by simp [hw.1], fun c hc => ?_, rfl⟩
        exact (List.mem_append.1 hc).elim (hw.2 c) (hd.2 c)
      simp only [Decimal.decimal?, List.cons_append, htake, hdrop, htake', hdrop', hm, hn]
      exact ⟨_, rfl⟩

theorem IsNumeral.exists_digit {x : List Char} (h : IsNumeral x) :
    ∃ c cs, x = c :: cs ∧ Decimal.isDigit c = true := by
  cases h with
  | mk hw =>
    obtain ⟨c, cs, rfl⟩ := List.exists_cons_of_ne_nil hw.1
    exact ⟨c, _, rfl, hw.2 c (by simp)⟩

theorem float?_of_isNumeral {x : List Char} (h : IsNumeral x) :
    ∃ f, Decimal.float? x = some f := by
  obtain ⟨f, hf⟩ := decimal?_of_isNumeral h
  obtain ⟨c, cs, rfl, hc⟩ := h.exists_digit
  have hlower : Decimal.lower c = c := by
    simp only [Decimal.isDigit, Bool.and_eq_true, decide_eq_true_eq] at hc
    have hupper : ¬ 'A' ≤ c := fun hle => absurd (le_trans hle hc.2) (by decide)
    simp [Decimal.lower, hupper]
  simp only [Decimal.float?, splitSign_of_isDigit hc, List.map_cons, hlower]
  split
  next heq => cases (List.cons.inj heq).1; exact absurd hc (by decide)
  next heq => cases (List.cons.inj heq).1; exact absurd hc (by decide)
  next heq => cases (List.cons.inj heq).1; exact absurd hc (by decide)
  · exact ⟨f, hf⟩

theorem exists_number?_of_isNumeral {x : List Char} (h : IsNumeral x) :
    ∃ n, number? x = some n := by
  obtain ⟨f, hf⟩ := float?_of_isNumeral h
  simp only [number?, hf, Option.map_some]
  split
  · split <;> exact ⟨_, rfl⟩
  · exact ⟨_, rfl⟩

theorem IsQuoted.exists_body {quote : Char} {cs : List Char} (h : IsQuoted quote cs) :
    ∃ body, cs = body ++ [quote] := by
  induction h with
  | close => exact ⟨[], rfl⟩
  | @escape d cs hd _ ih =>
    obtain ⟨body, rfl⟩ := ih
    exact ⟨'\\' :: d :: body, rfl⟩
  | @char c cs hq hc _ ih =>
    obtain ⟨body, rfl⟩ := ih
    exact ⟨c :: body, rfl⟩

theorem exists_makes {x : List Char} (h : IsLexeme x) : ∃ t, Makes x t := by
  rcases h with hnumeral | htext | hword | ⟨s, rfl⟩
  · obtain ⟨n, hn⟩ := exists_number?_of_isNumeral hnumeral
    exact ⟨_, .number hnumeral hn⟩
  · cases htext with
    | mk hq h =>
      obtain ⟨body, rfl⟩ := h.exists_body
      exact ⟨_, .text hq h⟩
  · by_cases hk : ∃ k : Keyword, k.text.toList = x
    · obtain ⟨k, rfl⟩ := hk
      exact ⟨_, .keyword k⟩
    · exact ⟨_, .name hword (not_exists.1 hk)⟩
  · exact ⟨_, .sign s⟩

theorem isName_keyword (k : Keyword) : Signal.isName k.text.toList = true := by
  cases k <;> decide

theorem isName_of_isWord {x : List Char} (h : IsWord x) : Signal.isName x = true := by
  cases h with
  | mk hc hcs => exact Bool.and_eq_true _ _ ▸ ⟨hc, List.all_eq_true.2 hcs⟩

theorem isWord_of_isName {x : List Char} (h : Signal.isName x = true) : IsWord x := by
  cases x with
  | nil => cases h
  | cons c cs =>
    obtain ⟨hc, hcs⟩ := (Bool.and_eq_true _ _).mp h
    exact .mk hc (List.all_eq_true.1 hcs)

theorem Makes.isLexeme {x : List Char} {t : Token} (h : Makes x t) : IsLexeme x := by
  cases h with
  | number h => exact .inl h
  | text hq h => exact .inr (.inl (.mk hq h))
  | keyword k => exact .inr (.inr (.inl (isWord_of_isName (isName_keyword k))))
  | name h => exact .inr (.inr (.inl h))
  | sign s => exact .inr (.inr (.inr ⟨s, rfl⟩))

theorem IsLongest.mono {lang lang' : List Char → Prop} {x cs : List Char}
    (h : IsLongest lang x cs) (hle : ∀ y, lang' y → lang y) (hx : lang' x) :
    IsLongest lang' x cs :=
  ⟨h.begins, hx, fun y hy hm => h.longest y hy (hle y hm)⟩

theorem exists_isLongest (lang : List Char → Prop) (cs : List Char) :
    (∀ x, x <+: cs → ¬lang x) ∨ ∃ x, IsLongest lang x cs := by
  classical
  by_cases hnone : ∀ x, x <+: cs → ¬lang x
  · exact .inl hnone
  · push Not at hnone
    obtain ⟨x, hx, hm⟩ := hnone
    have htake {y : List Char} (hy : y <+: cs) : cs.take y.length = y :=
      (List.prefix_iff_eq_take.1 hy).symm
    let n := Nat.findGreatest (fun n => lang (cs.take n)) cs.length
    have hn : lang (cs.take n) :=
      Nat.findGreatest_spec (P := fun n => lang (cs.take n)) hx.length_le (by rwa [htake hx])
    refine .inr ⟨cs.take n, List.take_prefix .., hn, fun y hy hmem => ?_⟩
    rw [List.length_take_of_le (Nat.findGreatest_le _)]
    exact Nat.le_findGreatest hy.length_le (by rwa [htake hy])

theorem head_of_sign (s : Sign) : ∃ c cs, s.text.toList = c :: cs ∧ isLayout c = false ∧
    Decimal.isDigit c = false ∧ ¬(c = '\x22' ∨ c = '\x27') ∧ Signal.isNameStart c = false := by
  cases s <;> exact ⟨_, _, rfl, by decide, by decide, by decide, by decide⟩

theorem not_open {c : Char} {cs : List Char} (h : ¬['/', '*'] <+: c :: cs) :
    ¬(c = '/' ∧ cs.head? = some '*') := by
  rintro ⟨rfl, hstar⟩
  obtain ⟨ds, rfl⟩ := List.head?_eq_some_iff.1 hstar
  exact h (List.prefix_append ['/', '*'] ds)

theorem longest?_of_makes {x cs : List Char} {t : Token} (hx : Makes x t)
    (hlong : IsLongest IsLexeme x (x ++ cs)) (hopen : ¬['/', '*'] <+: x ++ cs) :
    Piece.longest? (x ++ cs) = some (.token t, x.length) := by
  -- a word ends where no longer word begins
  have hword (hw : IsWord x) : ∀ d, cs.head? = some d → Signal.isNameRest d = false := by
    intro d hd
    obtain ⟨ds, rfl⟩ := List.head?_eq_some_iff.1 hd
    by_contra hrest
    have hlonger : IsWord (x ++ [d]) := by
      cases hw with
      | mk hc hcs =>
        refine .mk hc fun e he => ?_
        rcases List.mem_append.1 he with he | he
        · exact hcs e he
        · rw [List.mem_singleton.1 he]
          simpa using hrest
    have hle := hlong.longest (x ++ [d]) (by simp) (.inr (.inr (.inl hlonger)))
    simp at hle
  cases hx with
  | @number x n h hn =>
    have hnumeral : IsLongest IsNumeral x (x ++ cs) := hlong.mono (fun y hy => .inl hy) h
    obtain ⟨c, xs, rfl, hc⟩ := h.exists_digit
    rw [List.cons_append] at hnumeral hopen ⊢
    have hlength : numberLength (c :: (xs ++ cs)) = (c :: xs).length := by
      rw [← length_take_numberLength, ← hnumeral.unique (isLongest_numberLength hc)]
    rw [longest?_cons (not_open hopen), if_neg (by simp [isLayout_of_isDigit hc]), if_pos hc,
      hlength, ← List.cons_append, List.take_left, hn]
    rfl
  | @text q body hq h =>
    have hlayout : isLayout q = false := by rcases hq with rfl | rfl <;> rfl
    have hdigit : Decimal.isDigit q = false := by rcases hq with rfl | rfl <;> rfl
    have hescape : q ≠ '\\' := by rcases hq with rfl | rfl <;> decide
    rw [List.cons_append] at hopen ⊢
    rw [longest?_cons (not_open hopen), if_neg (by simp [hlayout]), if_neg (by simp [hdigit]),
      if_pos hq, h.length_eq hescape]
    simp
  | keyword k =>
    have hname := isName_keyword k
    rw [longest?_word hname (hword (isWord_of_isName hname)), word_text]
  | @name x h hk =>
    have hk' : ∀ k : Keyword, k.text ≠ String.ofList x := by
      rintro k hk'
      exact hk k (by rw [hk', String.toList_ofList])
    have hword' := word_of_ne hk'
    rw [String.toList_ofList] at hword'
    rw [longest?_word (isName_of_isWord h) (hword h), hword']
  | sign s =>
    have hsign : IsLongest IsSign s.text.toList (s.text.toList ++ cs) :=
      hlong.mono (fun y hy => .inr (.inr (.inr hy))) ⟨s, rfl⟩
    have hread := sign?_eq_some_iff.2 hsign
    obtain ⟨c, xs, hs, hlayout, hdigit, hquote, hname⟩ := head_of_sign s
    rw [String.length_toList]
    rw [hs, List.cons_append] at hread hopen ⊢
    rw [longest?_cons (not_open hopen), if_neg (by simp [hlayout]), if_neg (by simp [hdigit]),
      if_neg hquote, if_neg (by simp [hname]), hread, Option.map_some]

theorem commentLength?_eq_none {cs : List Char} (h : commentLength? cs = none) :
    ¬['*', '/'] <:+: cs := by
  fun_induction commentLength? cs with
  | case1 => cases h
  | case2 c cs hc ih =>
    refine not_infix_cons ?_ (ih (by simpa using h))
    rintro ⟨rfl, hhead⟩
    obtain ⟨ds, rfl⟩ := List.head?_eq_some_iff.1 hhead
    exact hc ds rfl rfl
  | case3 => decide

/-- Nothing is read where nothing begins. -/
theorem longest?_of_unreadable {cs : List Char} (h : Unreadable cs) :
    Piece.longest? cs = none := by
  cases h with
  | @comment cs h =>
    change (commentLength? cs).map _ = none
    cases hn : commentLength? cs with
    | none => rfl
    | some n =>
      obtain ⟨text, rest, rfl, -, -⟩ := text_of_commentLength? hn
      exact absurd ⟨text, rest, by simp⟩ h
  | @char c cs hc h =>
    have hopen : ¬(c = '/' ∧ cs.head? = some '*') := by
      rintro ⟨rfl, -⟩
      exact h ['/'] (by simp) (.inr (.inr (.inr ⟨.slash, rfl⟩)))
    rw [longest?_cons hopen, if_neg (by simp [hc])]
    split
    next hdigit =>
      have hnumeral : IsLongest IsNumeral ((c :: cs).take (numberLength (c :: cs))) (c :: cs) :=
        isLongest_numberLength hdigit
      exact absurd (.inl hnumeral.mem) (h _ hnumeral.begins)
    · split
      next hquote =>
        cases hn : quotedLength? c cs with
        | none => rfl
        | some n =>
          have htext : IsLexeme (c :: cs.take n) := .inr (.inl (.mk hquote (isQuoted_take hn).2))
          refine absurd htext (h _ ?_)
          rw [List.prefix_cons_inj]
          exact List.take_prefix ..
      · split
        next hname =>
          have hword : IsLongest IsWord (c :: cs.takeWhile Signal.isNameRest) (c :: cs) :=
            isLongest_word hname
          exact absurd (.inr (.inr (.inl hword.mem))) (h _ hword.begins)
        · cases hs : sign? (c :: cs) with
          | none => rfl
          | some s =>
            have hsign := isLongest_of_sign? hs
            exact absurd (.inr (.inr (.inr hsign.mem))) (h _ hsign.begins)

end Lexer

theorem IsLayout.append {gap gap' : List Char} (hg : IsLayout gap) (hg' : IsLayout gap') :
    IsLayout (gap ++ gap') := by
  induction hg with
  | nil => exact hg'
  | blank hc _ ih => exact .blank hc ih
  | comment htext _ ih =>
    rw [List.cons_append, List.cons_append, List.append_assoc, List.cons_append, List.cons_append]
    exact .comment htext ih

namespace Tiles

variable {after cs : List Char} {offset : Nat} {tokens : List Spanned}

theorem behind_gap {gap : List Char} (hg : IsLayout gap)
    (h : Tiles after (offset + Text.utf8Length gap) cs tokens) :
    Tiles after offset (gap ++ cs) tokens := by
  cases h with
  | last hg' => exact .last (hg.append hg')
  | token hg' hx hlong hopen hstart hstop h =>
    rw [← List.append_assoc]
    refine .token (hg.append hg') hx hlong hopen ?_ hstop h
    rw [hstart, Text.utf8Length_append, Nat.add_assoc]

/-- A tiling does not depend on what stands behind it, as long as its lexemes stay the longest. -/
theorem alone (h : Tiles after offset cs tokens) : Tiles [] offset cs tokens := by
  induction h with
  | last hg => exact .last hg
  | @token gap x t cs start offset stop tokens hg hx hlong hopen hstart hstop _ ih =>
    have hbegins : x ++ (cs ++ []) <+: x ++ (cs ++ after) := by simp
    refine .token hg hx ?_ (fun hp => hopen (hp.trans hbegins)) hstart hstop ih
    exact ⟨List.prefix_append .., hlong.mem, fun y hy hm => hlong.longest y (hy.trans hbegins) hm⟩

theorem tokenizeFrom_append (h : Tiles after offset cs tokens) :
    tokenizeFrom offset (cs ++ after) =
      (tokenizeFrom (offset + Text.utf8Length cs) after).map (tokens ++ ·) := by
  induction h with
  | last hg =>
    rw [tokenizeFrom_append_of_isLayout hg]
    cases tokenizeFrom _ after <;> rfl
  | @token gap x t cs start offset stop tokens hg hx hlong hopen hstart hstop _ ih =>
    subst hstart hstop
    rw [List.append_assoc, List.append_assoc, tokenizeFrom_append_of_isLayout hg,
      tokenizeFrom_token (longest?_of_makes hx hlong hopen), List.take_left, List.drop_left, ih,
      Text.utf8Length_append, Text.utf8Length_append, ← Nat.add_assoc, ← Nat.add_assoc]
    cases tokenizeFrom _ after <;> rfl

theorem tokenizeFrom_eq (h : Tiles [] offset cs tokens) : tokenizeFrom offset cs = .ok tokens := by
  have hnil (offset : Nat) : tokenizeFrom offset [] = .ok [] := by rw [tokenizeFrom, if_pos rfl]
  have hread := h.tokenizeFrom_append
  rw [List.append_nil, hnil] at hread
  rw [hread, Except.map, List.append_nil]

theorem tokenizeFrom_eq_error (h : Tiles after offset cs tokens) (hafter : Unreadable after) :
    tokenizeFrom offset (cs ++ after) = .error (offset + Text.utf8Length cs) := by
  have hne : after ≠ [] := by cases hafter <;> simp
  rw [h.tokenizeFrom_append, tokenizeFrom, if_neg hne]
  split
  · rfl
  next hm => cases (longest?_of_unreadable hafter).symm.trans hm

theorem le_start (h : Tiles after offset cs tokens) : ∀ t ∈ tokens, offset ≤ t.start := by
  induction h with
  | last => simp
  | token _ _ _ _ hstart hstop _ ih =>
    intro t ht
    rcases List.mem_cons.1 ht with rfl | ht
    · simp only
      omega
    · have := ih t ht
      omega

theorem pairwise (h : Tiles after offset cs tokens) :
    tokens.Pairwise fun t u => t.stop ≤ u.start := by
  induction h with
  | last => exact .nil
  | token _ _ _ _ _ _ h ih => exact .cons h.le_start ih

/-- Every token is that of a slice of the text, which has no other token. -/
theorem slice (h : Tiles after offset cs tokens) {t : Spanned} (ht : t ∈ tokens) :
    ∃ before x behind, cs = before ++ (x ++ behind) ∧ x ≠ [] ∧ Makes x t.token ∧
      t.start = offset + Text.utf8Length before ∧ t.stop = t.start + Text.utf8Length x ∧
      tokenizeFrom 0 x = .ok [⟨t.token, 0, Text.utf8Length x⟩] := by
  induction h with
  | last => cases ht
  | @token gap x u cs start offset stop tokens hg hx hlong hopen hstart hstop _ ih =>
    rcases List.mem_cons.1 ht with rfl | ht
    · have hbegins : x ++ ([] ++ []) <+: x ++ (cs ++ after) := by simp
      have hlong' : IsLongest IsLexeme x (x ++ ([] ++ [])) :=
        ⟨List.prefix_append .., hlong.mem, fun y hy => hlong.longest y (hy.trans hbegins)⟩
      have hopen' : ¬['/', '*'] <+: x ++ ([] ++ []) := fun hp => hopen (hp.trans hbegins)
      have hslice : Tiles [] 0 ([] ++ (x ++ [])) [⟨u, 0, Text.utf8Length x⟩] :=
        .token .nil hx hlong' hopen' rfl (Nat.zero_add _).symm (.last .nil)
      have hne := (Piece.longest?_pos (longest?_of_makes hx hlong hopen)).1
      rw [List.nil_append, List.append_nil] at hslice
      exact ⟨gap, x, cs, rfl, List.length_pos_iff.1 hne, hx, hstart, hstop, hslice.tokenizeFrom_eq⟩
    · obtain ⟨before, y, behind, rfl, hne, hy, hstart', hstop', hread⟩ := ih ht
      refine ⟨gap ++ (x ++ before), y, behind, by simp, hne, hy, ?_, hstop', hread⟩
      rw [hstart', hstop, hstart, Text.utf8Length_append, Text.utf8Length_append]
      omega

end Tiles

/-- Every text is tiled up to its end, or to a place where nothing begins. -/
theorem exists_tiles (offset : Nat) (cs : List Char) :
    ∃ before rest tokens, cs = before ++ rest ∧ Tiles rest offset before tokens ∧
      (rest = [] ∨ Unreadable rest) := by
  induction hn : cs.length using Nat.strong_induction_on generalizing offset cs with
  | _ n ih =>
    subst hn
    -- layout is taken together with what is found behind it
    have hbehind {gap cs' : List Char} (hg : IsLayout gap) (hcs : cs = gap ++ cs')
        (hlt : cs'.length < cs.length) : ∃ before rest tokens, cs = before ++ rest ∧
          Tiles rest offset before tokens ∧ (rest = [] ∨ Unreadable rest) := by
      obtain ⟨before, rest, tokens, rfl, h, hrest⟩ :=
        ih _ hlt (offset + Text.utf8Length gap) cs' rfl
      exact ⟨gap ++ before, rest, tokens, by simpa using hcs, h.behind_gap hg, hrest⟩
    cases cs with
    | nil => exact ⟨[], [], [], rfl, .last .nil, .inl rfl⟩
    | cons c cs =>
      by_cases hopen : ['/', '*'] <+: c :: cs
      · obtain ⟨text, htext⟩ := hopen
        cases htext
        cases hlength : commentLength? text with
        | none =>
          exact ⟨[], _, [], rfl, .last .nil, .inr (.comment (commentLength?_eq_none hlength))⟩
        | some n =>
          obtain ⟨comment, cs', rfl, -, hcomment⟩ := text_of_commentLength? hlength
          have hgap : IsLayout ('/' :: '*' :: (comment ++ ['*', '/'])) := .comment hcomment .nil
          have hcs : '/' :: '*' :: (comment ++ '*' :: '/' :: cs') =
              '/' :: '*' :: (comment ++ ['*', '/']) ++ cs' := by simp
          exact hbehind hgap hcs (by simp; omega)
      by_cases hc : isLayout c = true
      · exact hbehind (.blank hc .nil) rfl (by simp)
      rcases exists_isLongest IsLexeme (c :: cs) with hnone | ⟨x, hx⟩
      · exact ⟨[], _, [], rfl, .last .nil, .inr (.char (by simpa using hc) hnone)⟩
      · obtain ⟨t, ht⟩ := exists_makes hx.mem
        obtain ⟨cs', hcs⟩ := hx.begins
        rw [← hcs] at hx hopen
        have hpos := (Piece.longest?_pos (longest?_of_makes ht hx hopen)).1
        have hlt : cs'.length < (c :: cs).length := by
          rw [← hcs, List.length_append]
          omega
        obtain ⟨before, rest, tokens, rfl, h, hrest⟩ :=
          ih _ hlt (offset + Text.utf8Length x) cs' rfl
        exact ⟨x ++ before, rest, _, by simpa using hcs.symm,
          .token .nil ht hx hopen rfl rfl h, hrest⟩

theorem tokenizeFrom_eq_ok_iff {offset : Nat} {cs : List Char} {tokens : List Spanned} :
    tokenizeFrom offset cs = .ok tokens ↔ Tiles [] offset cs tokens := by
  refine ⟨fun h => ?_, Tiles.tokenizeFrom_eq⟩
  obtain ⟨before, rest, tokens', rfl, htiles, rfl | hrest⟩ := exists_tiles offset cs
  · rw [List.append_nil] at h ⊢
    cases htiles.tokenizeFrom_eq.symm.trans h
    exact htiles
  · cases (htiles.tokenizeFrom_eq_error hrest).symm.trans h

theorem tokenizeFrom_eq_error_iff {offset place : Nat} {cs : List Char} :
    tokenizeFrom offset cs = .error place ↔
      ∃ before rest tokens, cs = before ++ rest ∧ place = offset + Text.utf8Length before ∧
        Unreadable rest ∧ Tiles rest offset before tokens := by
  constructor
  · intro h
    obtain ⟨before, rest, tokens, rfl, htiles, rfl | hrest⟩ := exists_tiles offset cs
    · rw [List.append_nil] at h
      cases htiles.tokenizeFrom_eq.symm.trans h
    · cases (htiles.tokenizeFrom_eq_error hrest).symm.trans h
      exact ⟨before, rest, tokens, rfl, rfl, hrest, htiles⟩
  · rintro ⟨before, rest, tokens, rfl, rfl, hrest, htiles⟩
    exact htiles.tokenizeFrom_eq_error hrest

theorem exists_slice {source : String} {tokens : List Spanned} (h : tokenize source = .ok tokens)
    {t : Spanned} (ht : t ∈ tokens) :
    ∃ before slice behind, source = before ++ slice ++ behind ∧ slice ≠ "" ∧
      Makes slice.toList t.token ∧ t.start = before.utf8ByteSize ∧
      t.stop = (before ++ slice).utf8ByteSize ∧
      tokenize slice = .ok [⟨t.token, 0, slice.utf8ByteSize⟩] := by
  obtain ⟨before, x, behind, hsource, hne, hmakes, hstart, hstop, hread⟩ :=
    (tokenizeFrom_eq_ok_iff.1 h).slice ht
  refine ⟨.ofList before, .ofList x, .ofList behind, ?_, by simpa using hne, ?_, ?_, ?_, ?_⟩
  · rw [← String.ofList_append, ← String.ofList_append, List.append_assoc, ← hsource,
      String.ofList_toList]
  · rwa [String.toList_ofList]
  · rw [hstart, Nat.zero_add, Text.utf8Length_eq_utf8ByteSize]
  · rw [hstop, hstart, Nat.zero_add, ← Text.utf8Length_append, Text.utf8Length_eq_utf8ByteSize,
      String.ofList_append]
  · rw [tokenize, String.toList_ofList, hread, Text.utf8Length_eq_utf8ByteSize]

/-- The tokens of a text are those that tile it: they stand one behind the other in slices of it with
nothing but layout around them, each the longest lexeme at its place and the only token of its slice.
A text has no tokens exactly if the text before some place is tiled by its tokens and nothing begins
there, neither layout nor a lexeme. -/
theorem tokens_tile (source : String) :
    (∀ tokens, tokenize source = .ok tokens ↔ Tiles [] 0 source.toList tokens) ∧
      (∀ tokens, tokenize source = .ok tokens → tokens.Pairwise (fun t u => t.stop ≤ u.start) ∧
        ∀ t ∈ tokens, ∃ before slice behind, source = before ++ slice ++ behind ∧ slice ≠ "" ∧
          t.start = before.utf8ByteSize ∧ t.stop = (before ++ slice).utf8ByteSize ∧
          tokenize slice = .ok [⟨t.token, 0, slice.utf8ByteSize⟩]) ∧
      ∀ offset, tokenize source = .error offset ↔
        ∃ before rest tokens, source = before ++ rest ∧ offset = before.utf8ByteSize ∧
          Unreadable rest.toList ∧ Tiles rest.toList 0 before.toList tokens ∧
          tokenize before = .ok tokens := by
  refine ⟨fun tokens => tokenizeFrom_eq_ok_iff, fun tokens h => ?_, fun offset => ?_⟩
  · refine ⟨(tokenizeFrom_eq_ok_iff.1 h).pairwise, fun t ht => ?_⟩
    obtain ⟨before, slice, behind, hsource, hne, -, hplace⟩ := exists_slice h ht
    exact ⟨before, slice, behind, hsource, hne, hplace⟩
  · rw [tokenize, tokenizeFrom_eq_error_iff]
    constructor
    · rintro ⟨before, rest, tokens, hsource, rfl, hrest, htiles⟩
      refine ⟨.ofList before, .ofList rest, tokens, ?_, ?_, ?_⟩
      · rw [← String.ofList_append, ← hsource, String.ofList_toList]
      · rw [Nat.zero_add, Text.utf8Length_eq_utf8ByteSize]
      · simp only [tokenize, String.toList_ofList]
        exact ⟨hrest, htiles, htiles.alone.tokenizeFrom_eq⟩
    · rintro ⟨before, rest, tokens, rfl, rfl, hrest, htiles, -⟩
      refine ⟨before.toList, rest.toList, tokens, String.toList_append, ?_, hrest, htiles⟩
      rw [Nat.zero_add, Text.utf8Length_toList]

/-- A number gives back the exponent that has no digits, and a comment has to end. -/
example : tokenize "1.e+" =
      .ok [⟨.number (.int 1), 0, 1⟩, ⟨.sign .dot, 1, 2⟩, ⟨.name "e", 2, 3⟩, ⟨.sign .plus, 3, 4⟩] ∧
    tokenize "a /*/ b" = .error 2 := by
  constructor <;> cbv

end LiveDoc.Script
