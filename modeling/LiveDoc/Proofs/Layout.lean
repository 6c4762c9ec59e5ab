import LiveDoc.Proofs.Lexemes
import LiveDoc.Script.Source
import Mathlib

namespace LiveDoc.Script

open Lexer

inductive IsLayout : List Char → Prop
  | nil : IsLayout []
  | blank (hc : isLayout c = true) (h : IsLayout cs) : IsLayout (c :: cs)
  | comment (htext : ¬['*', '/'] <:+: text) (h : IsLayout cs) :
    IsLayout ('/' :: '*' :: (text ++ '*' :: '/' :: cs))

theorem IsLayout.parts {gap : List Char} (hg : IsLayout gap) (hne : gap ≠ []) (cs : List Char) :
    ∀ d, (gap ++ cs).head? = some d → parts d = true := by
  intro d hd
  cases hg with
  | nil => exact absurd rfl hne
  | blank hc _ =>
    cases hd
    simp [Lexer.parts, hc]
  | comment _ _ =>
    cases hd
    rfl

theorem longest?_blank {c : Char} (hc : isLayout c = true) (cs : List Char) :
    Piece.longest? (c :: cs) = some (.layout, (cs.takeWhile isLayout).length + 1) := by
  rw [longest?_cons, if_pos hc]
  rintro ⟨rfl, -⟩
  revert hc
  decide

theorem not_infix_cons {c : Char} {text : List Char} (hc : ¬(c = '*' ∧ text.head? = some '/'))
    (h : ¬['*', '/'] <:+: text) : ¬['*', '/'] <:+: c :: text := by
  rw [List.infix_cons_iff]
  rintro (hb | hi)
  · obtain ⟨rest, hrest⟩ := hb
    cases hrest
    exact hc ⟨rfl, rfl⟩
  · exact h hi

theorem commentLength?_cons {c : Char} {cs : List Char} (h : ¬(c = '*' ∧ cs.head? = some '/')) :
    commentLength? (c :: cs) = (commentLength? cs).map (· + 1) := by
  rw [commentLength?.eq_2]
  rintro cs' rfl rfl
  exact h ⟨rfl, rfl⟩

theorem commentLength?_text {text : List Char} (h : ¬['*', '/'] <:+: text) (cs : List Char) :
    commentLength? (text ++ '*' :: '/' :: cs) = some (text.length + 2) := by
  induction text with
  | nil => rfl
  | cons c text ih =>
    have htext : ¬['*', '/'] <:+: text := fun hi => h (hi.trans (List.suffix_cons c text).isInfix)
    rw [List.cons_append, commentLength?_cons, ih htext]
    · rfl
    · rintro ⟨rfl, hhead⟩
      cases text with
      | nil => cases hhead
      | cons d text =>
        cases hhead
        exact h (List.prefix_append ['*', '/'] text).isInfix

theorem text_of_commentLength? {cs : List Char} {n : Nat} (h : commentLength? cs = some n) :
    ∃ text rest, cs = text ++ '*' :: '/' :: rest ∧ n = text.length + 2 ∧
      ¬['*', '/'] <:+: text := by
  fun_induction commentLength? cs generalizing n with
  | case1 cs =>
    cases h
    exact ⟨[], cs, rfl, rfl, by decide⟩
  | case2 c cs hc ih =>
    obtain ⟨m, hm, rfl⟩ := Option.map_eq_some_iff.1 h
    obtain ⟨text, rest, rfl, rfl, hi⟩ := ih hm
    refine ⟨c :: text, rest, rfl, rfl, not_infix_cons ?_ hi⟩
    rintro ⟨rfl, hhead⟩
    obtain ⟨tail, rfl⟩ := List.head?_eq_some_iff.1 hhead
    exact hc _ rfl rfl
  | case3 => cases h

theorem longest?_le {cs : List Char} {piece : Piece} {n : Nat}
    (h : Piece.longest? cs = some (piece, n)) : n ≤ cs.length := by
  cases cs with
  | nil => cases h
  | cons c cs =>
    by_cases hopen : c = '/' ∧ cs.head? = some '*'
    · obtain ⟨rfl, hstar⟩ := hopen
      obtain ⟨cs, rfl⟩ := List.head?_eq_some_iff.1 hstar
      obtain ⟨m, hm, heq⟩ := Option.map_eq_some_iff.1 h
      obtain ⟨text, rest, rfl, rfl, -⟩ := text_of_commentLength? hm
      cases heq
      simp
    · rw [longest?_cons hopen] at h
      have hword := (List.takeWhile_prefix Signal.isNameRest (l := cs)).length_le
      have hblank := (List.takeWhile_prefix isLayout (l := cs)).length_le
      have hnumber := numberLength_le (c :: cs)
      split at h
      · cases h
        rw [List.length_cons]
        omega
      · split at h
        · obtain ⟨x, -, heq⟩ := Option.map_eq_some_iff.1 h
          cases heq
          exact hnumber
        · split at h
          · obtain ⟨m, hm, heq⟩ := Option.map_eq_some_iff.1 h
            have hquoted := (isQuoted_take hm).1
            cases heq
            rw [List.length_cons]
            omega
          · split at h
            · cases h
              rw [List.length_cons]
              omega
            · obtain ⟨s, hs, heq⟩ := Option.map_eq_some_iff.1 h
              have hsign := (isLongest_of_sign? hs).begins.length_le
              cases heq
              rwa [String.length_toList] at hsign

theorem isLayout_of_blanks {cs : List Char} (h : ∀ c ∈ cs, isLayout c = true) : IsLayout cs := by
  induction cs with
  | nil => exact .nil
  | cons c cs ih =>
    exact .blank (h c (by simp)) (ih fun d hd => h d (List.mem_cons_of_mem _ hd))

theorem isLayout_of_longest? {x rest : List Char}
    (h : Piece.longest? (x ++ rest) = some (.layout, x.length)) : IsLayout x := by
  cases x with
  | nil => exact .nil
  | cons c xs =>
    by_cases hopen : c = '/' ∧ (xs ++ rest).head? = some '*'
    · obtain ⟨rfl, hstar⟩ := hopen
      obtain ⟨cs, hcs⟩ := List.head?_eq_some_iff.1 hstar
      rw [List.cons_append, hcs] at h
      obtain ⟨n, hn, heq⟩ := Option.map_eq_some_iff.1 h
      obtain ⟨text, rest', rfl, rfl, hi⟩ := text_of_commentLength? hn
      have hlen : xs.length = ('*' :: (text ++ ['*', '/'])).length := by
        simpa using (Prod.mk.inj heq).2.symm
      have hsplit : xs ++ rest = '*' :: (text ++ ['*', '/']) ++ rest' := by simpa using hcs
      rw [(List.append_inj hsplit hlen).1]
      exact .comment hi .nil
    · rw [List.cons_append, longest?_cons hopen] at h
      split at h
      next hc =>
        have hlen : ((xs ++ rest).takeWhile isLayout).length = xs.length := by
          simpa using (Prod.mk.inj (Option.some.inj h)).2
        have hxs : (xs ++ rest).takeWhile isLayout = xs :=
          (List.prefix_of_prefix_length_le (List.takeWhile_prefix _) (List.prefix_append ..)
            hlen.le).eq_of_length hlen
        have hall : ∀ d ∈ xs, isLayout d = true := by
          rw [← hxs]
          exact List.all_eq_true.1 List.all_takeWhile
        exact .blank hc (isLayout_of_blanks hall)
      · repeat' split at h
        all_goals simp [Option.map_eq_some_iff] at h

def tokens? (cs : List Char) : Option (List Token) :=
  (tokenizeFrom 0 cs).toOption.map (·.map (·.token))

theorem tokenizeFrom_layout {offset n : Nat} {cs : List Char}
    (h : Piece.longest? cs = some (.layout, n)) :
    tokenizeFrom offset cs = tokenizeFrom (offset + Text.utf8Length (cs.take n)) (cs.drop n) := by
  rw [tokenizeFrom, if_neg (Piece.longest?_pos h).2]
  split
  next hn => rw [h] at hn; cases hn
  next piece m hm =>
    cases h.symm.trans hm
    rfl

theorem tokenizeFrom_token {offset n : Nat} {cs : List Char} {t : Token}
    (h : Piece.longest? cs = some (.token t, n)) :
    tokenizeFrom offset cs =
      (tokenizeFrom (offset + Text.utf8Length (cs.take n)) (cs.drop n)).map
        (⟨t, offset, offset + Text.utf8Length (cs.take n)⟩ :: ·) := by
  rw [tokenizeFrom, if_neg (Piece.longest?_pos h).2]
  split
  next hn => rw [h] at hn; cases hn
  next piece m hm =>
    cases h.symm.trans hm
    rfl

theorem toOption_tokenizeFrom_none (offset : Nat) {cs : List Char} (hne : cs ≠ [])
    (h : Piece.longest? cs = none) : (tokenizeFrom offset cs).toOption = none := by
  rw [tokenizeFrom, if_neg hne]
  split
  · rfl
  next hm => cases h.symm.trans hm

theorem toOption_map_token {tokens : Except Nat (List Spanned)} (t : Spanned) :
    (tokens.map (t :: ·)).toOption.map (·.map (·.token)) =
      (tokens.toOption.map (·.map (·.token))).map (t.token :: ·) := by
  cases tokens <;> rfl

theorem tokens?_eq (offset : Nat) (cs : List Char) :
    (tokenizeFrom offset cs).toOption.map (·.map (·.token)) = tokens? cs := by
  induction hn : cs.length using Nat.strong_induction_on generalizing offset cs with
  | _ n ih =>
    by_cases hne : cs = []
    · subst hne
      rw [tokens?, tokenizeFrom, tokenizeFrom, if_pos rfl, if_pos rfl]
    cases hl : Piece.longest? cs with
    | none => rw [tokens?, toOption_tokenizeFrom_none _ hne hl, toOption_tokenizeFrom_none _ hne hl]
    | some found =>
      obtain ⟨piece, m⟩ := found
      have hm := (Piece.longest?_pos hl).1
      have hpos := List.length_pos_iff.2 hne
      have hlt : (cs.drop m).length < n := by
        rw [List.length_drop]
        omega
      cases piece with
      | layout =>
        rw [tokens?, tokenizeFrom_layout hl, tokenizeFrom_layout hl, ih _ hlt _ _ rfl,
          ih _ hlt _ _ rfl]
      | token t =>
        rw [tokens?, tokenizeFrom_token hl, tokenizeFrom_token hl, toOption_map_token,
          toOption_map_token, ih _ hlt _ _ rfl, ih _ hlt _ _ rfl]

section

variable {x rest : List Char} {t : Token}

theorem tokens?_token (h : Piece.longest? (x ++ rest) = some (.token t, x.length)) :
    tokens? (x ++ rest) = (tokens? rest).map (t :: ·) := by
  rw [tokens?, tokenizeFrom_token h, toOption_map_token, List.drop_left, tokens?_eq]

end

theorem tokenizeFrom_blank (offset : Nat) {c : Char} (hc : isLayout c = true) (cs : List Char) :
    tokenizeFrom offset (c :: cs) = tokenizeFrom (offset + Text.utf8Length [c]) cs := by
  -- a blank is taken together with those behind it
  have hrun (offset : Nat) (c : Char) (hc : isLayout c = true) (cs : List Char) :
      tokenizeFrom offset (c :: cs) =
        tokenizeFrom (offset + Text.utf8Length (c :: cs.takeWhile isLayout))
          (cs.dropWhile isLayout) := by
    have hsplit : c :: cs = (c :: cs.takeWhile isLayout) ++ cs.dropWhile isLayout := by
      rw [List.cons_append, List.takeWhile_append_dropWhile]
    have hlongest : Piece.longest? ((c :: cs.takeWhile isLayout) ++ cs.dropWhile isLayout) =
        some (.layout, (c :: cs.takeWhile isLayout).length) := by
      rw [← hsplit]
      exact longest?_blank hc cs
    rw [hsplit, tokenizeFrom_layout hlongest, List.take_left, List.drop_left]
  rw [hrun offset c hc]
  cases cs with
  | nil => rfl
  | cons d ds =>
    by_cases hd : isLayout d = true
    · rw [hrun _ d hd, List.takeWhile_cons_of_pos hd, List.dropWhile_cons_of_pos hd, Nat.add_assoc,
        ← Text.utf8Length_append, List.singleton_append]
    · rw [List.takeWhile_cons_of_neg hd, List.dropWhile_cons_of_neg hd]

theorem tokenizeFrom_append_of_isLayout {gap : List Char} (hg : IsLayout gap) (offset : Nat)
    (cs : List Char) :
    tokenizeFrom offset (gap ++ cs) = tokenizeFrom (offset + Text.utf8Length gap) cs := by
  induction hg generalizing offset with
  | nil => rfl
  | @blank c gap hc _ ih =>
    rw [List.cons_append, tokenizeFrom_blank offset hc, ih, Nat.add_assoc, ← Text.utf8Length_append,
      List.singleton_append]
  | @comment text gap htext _ ih =>
    have hsplit : '/' :: '*' :: (text ++ '*' :: '/' :: gap) =
        '/' :: '*' :: (text ++ ['*', '/']) ++ gap := by simp
    have hlongest : Piece.longest? ('/' :: '*' :: (text ++ ['*', '/']) ++ (gap ++ cs)) =
        some (.layout, ('/' :: '*' :: (text ++ ['*', '/'])).length) := by
      simp only [List.cons_append, List.append_assoc, List.nil_append]
      change (commentLength? _).map _ = _
      rw [commentLength?_text htext]
      simp
    rw [hsplit, List.append_assoc, tokenizeFrom_layout hlongest, List.take_left, List.drop_left, ih,
      Text.utf8Length_append, Nat.add_assoc]

theorem tokens?_append_of_isLayout {gap : List Char} (hg : IsLayout gap) (cs : List Char) :
    tokens? (gap ++ cs) = tokens? cs := by
  rw [tokens?, tokenizeFrom_append_of_isLayout hg, tokens?_eq]

theorem tokens?_blank {c : Char} (hc : isLayout c = true) (cs : List Char) :
    tokens? (c :: cs) = tokens? cs :=
  tokens?_append_of_isLayout (.blank hc .nil) cs

/-- Reading a text in front of another one takes whole pieces of it and makes tokens of them. -/
inductive Leads (rest : List Char) : List Char → List Token → Prop
  | done : Leads rest [] []
  | layout (hx : Piece.longest? (x ++ (cs ++ rest)) = some (.layout, x.length))
    (h : Leads rest cs ts) : Leads rest (x ++ cs) ts
  | token (hx : Piece.longest? (x ++ (cs ++ rest)) = some (.token t, x.length))
    (h : Leads rest cs ts) : Leads rest (x ++ cs) (t :: ts)

theorem Leads.tokens?_append {cs rest rest' : List Char} {ts : List Token} (h : Leads rest cs ts)
    (hparts : ∀ d, rest'.head? = some d → parts d = true) :
    tokens? (cs ++ rest') = (tokens? rest').map (ts ++ ·) := by
  induction h with
  | done => simp
  | @layout x cs ts hx _ ih =>
    rw [List.append_assoc, tokens?_append_of_isLayout (isLayout_of_longest? hx), ih]
  | @token x cs ts t hx _ ih =>
    have hne : x ≠ [] := List.length_pos_iff.1 (Piece.longest?_pos hx).1
    rw [List.append_assoc, tokens?_token (longest?_of_parted hne hx hparts), ih, Option.map_map]
    rfl

/-- A place where a token begins or ends. -/
def IsBoundary (tokens : List Spanned) (offset : Nat) : Prop :=
  ∃ t ∈ tokens, t.start = offset ∨ t.stop = offset

inductive Pieces : Nat → List Char → List Spanned → Prop
  | nil : Pieces offset [] []
  | layout (hx : Piece.longest? (x ++ cs) = some (.layout, x.length))
    (h : Pieces (offset + Text.utf8Length x) cs tokens) : Pieces offset (x ++ cs) tokens
  | token (hx : Piece.longest? (x ++ cs) = some (.token t, x.length))
    (h : Pieces (offset + Text.utf8Length x) cs tokens) :
    Pieces offset (x ++ cs) (⟨t, offset, offset + Text.utf8Length x⟩ :: tokens)

theorem pieces_iff {offset : Nat} {cs : List Char} {tokens : List Spanned} :
    tokenizeFrom offset cs = .ok tokens ↔ Pieces offset cs tokens := by
  constructor
  · intro h
    induction hn : cs.length using Nat.strong_induction_on generalizing offset cs tokens with
    | _ n ih =>
      by_cases hne : cs = []
      · subst hne
        rw [tokenizeFrom, if_pos rfl] at h
        cases h
        exact .nil
      cases hl : Piece.longest? cs with
      | none =>
        have hnone := toOption_tokenizeFrom_none offset hne hl
        rw [h] at hnone
        cases hnone
      | some found =>
        obtain ⟨piece, m⟩ := found
        have hm := (Piece.longest?_pos hl).1
        have hle := longest?_le hl
        have hlt : (cs.drop m).length < n := by
          rw [List.length_drop]
          omega
        have hlen : (cs.take m).length = m := List.length_take_of_le hle
        have hpiece : Piece.longest? (cs.take m ++ cs.drop m) =
            some (piece, (cs.take m).length) := by
          rw [List.take_append_drop, hlen, hl]
        rw [← List.take_append_drop m cs]
        cases piece with
        | layout =>
          rw [tokenizeFrom_layout hl] at h
          exact .layout hpiece (ih _ hlt h rfl)
        | token t =>
          rw [tokenizeFrom_token hl] at h
          generalize htail : tokenizeFrom _ (cs.drop m) = tail at h
          cases tail with
          | error => cases h
          | ok tail =>
            cases h
            exact .token hpiece (ih _ hlt htail rfl)
  · intro h
    induction h with
    | nil => rw [tokenizeFrom, if_pos rfl]
    | layout hx _ ih => rw [tokenizeFrom_layout hx, List.take_left, List.drop_left, ih]
    | token hx _ ih =>
      rw [tokenizeFrom_token hx, List.take_left, List.drop_left, ih]
      rfl

theorem Pieces.le_start {offset : Nat} {cs : List Char} {tokens : List Spanned}
    (h : Pieces offset cs tokens) : ∀ t ∈ tokens, offset ≤ t.start ∧ t.start < t.stop := by
  induction h with
  | nil => simp
  | layout _ _ ih =>
    intro t ht
    have := ih t ht
    omega
  | token hx _ ih =>
    intro t ht
    rcases List.mem_cons.1 ht with rfl | ht
    · have hne := List.length_pos_iff.1 (Piece.longest?_pos hx).1
      have := Text.utf8Length_pos hne
      simp only
      omega
    · have := ih t ht
      omega

/-- A piece does not go beyond a boundary that it begins before. -/
theorem Pieces.within {offset : Nat} {x cs before rest : List Char} {tokens : List Spanned}
    (h : Pieces (offset + Text.utf8Length x) cs tokens) (hcs : x ++ cs = before ++ rest)
    (hb : offset + Text.utf8Length before = offset + Text.utf8Length x ∨
      IsBoundary tokens (offset + Text.utf8Length before)) :
    ∃ before', before = x ++ before' ∧ cs = before' ++ rest := by
  rcases List.append_eq_append_iff.1 hcs with hwithin | ⟨y, rfl, rfl⟩
  · exact hwithin
  · have hy : y = [] := by
      by_contra hne
      have hpos := Text.utf8Length_pos hne
      rw [Text.utf8Length_append] at hb h
      rcases hb with hb | ⟨t, ht, hb⟩
      · omega
      · have := h.le_start t ht
        omega
    subst hy
    exact ⟨[], by simp⟩

/-- A boundary parts the tokens of a text into those before and those behind it. -/
theorem Pieces.leads {offset : Nat} {cs before rest : List Char} {tokens : List Spanned}
    (h : Pieces offset cs tokens) (hcs : cs = before ++ rest)
    (hb : IsBoundary tokens (offset + Text.utf8Length before)) :
    ∃ done todo, tokens = done ++ todo ∧ Leads rest before (done.map (·.token)) ∧
      Pieces (offset + Text.utf8Length before) rest todo ∧
      ∀ t ∈ done, t.start < t.stop ∧ t.stop ≤ offset + Text.utf8Length before := by
  induction h generalizing before with
  | nil =>
    obtain ⟨t, ht, -⟩ := hb
    cases ht
  | @layout x cs offset tokens hx h ih =>
    obtain ⟨before', rfl, rfl⟩ := h.within hcs (.inr hb)
    rw [Text.utf8Length_append, ← Nat.add_assoc] at hb ⊢
    obtain ⟨done, todo, rfl, hleads, hrest, hdone⟩ := ih rfl hb
    exact ⟨done, todo, rfl, .layout hx hleads, hrest, hdone⟩
  | @token x cs t offset tokens hx h ih =>
    by_cases hbefore : before = []
    · subst hbefore
      rw [List.nil_append] at hcs
      subst hcs
      exact ⟨[], _, rfl, .done, .token hx h, by simp⟩
    have hpos := Text.utf8Length_pos hbefore
    -- the boundary is not inside of this token, so it is at its end or one of the tokens behind it
    have hinner : offset + Text.utf8Length before = offset + Text.utf8Length x ∨
        IsBoundary tokens (offset + Text.utf8Length before) := by
      obtain ⟨u, hu, hbound⟩ := hb
      rcases List.mem_cons.1 hu with rfl | hu
      · exact .inl (by simp only at hbound; omega)
      · exact .inr ⟨u, hu, hbound⟩
    obtain ⟨before', rfl, rfl⟩ := h.within hcs hinner
    have hx' := Text.utf8Length_pos (List.length_pos_iff.1 (Piece.longest?_pos hx).1)
    rw [Text.utf8Length_append, ← Nat.add_assoc] at hinner ⊢
    by_cases hbefore' : before' = []
    · subst hbefore'
      refine ⟨[_], tokens, rfl, .token hx .done, by simpa [Text.utf8Length] using h, ?_⟩
      simp only [List.mem_singleton, forall_eq]
      omega
    · have hpos' := Text.utf8Length_pos hbefore'
      obtain ⟨done, todo, rfl, hleads, hrest, hdone⟩ := ih rfl (hinner.resolve_left (by omega))
      refine ⟨_ :: done, todo, rfl, .token hx hleads, hrest, ?_⟩
      intro u hu
      rcases List.mem_cons.1 hu with rfl | hu
      · simp only
        omega
      · exact hdone u hu

/-- Two texts have the same tokens, though in other places, and so they are the same program, or
fail for the same reason. -/
def SameMeaning (source source' : String) : Prop :=
  ∃ tokens tokens', tokenize source = .ok tokens ∧ tokenize source' = .ok tokens' ∧
    tokens'.map (·.token) = tokens.map (·.token) ∧
    (Program.ofSource source').mapError SyntaxError.text =
      (Program.ofSource source).mapError SyntaxError.text

theorem exists_tokenize_of_tokens? {source : String} {ts : List Token}
    (h : tokens? source.toList = some ts) :
    ∃ tokens, tokenize source = .ok tokens ∧ tokens.map (·.token) = ts := by
  rw [tokens?] at h
  obtain ⟨tokens, htokens, heq⟩ := Option.map_eq_some_iff.1 h
  refine ⟨tokens, ?_, heq⟩
  rw [tokenize]
  revert htokens
  cases tokenizeFrom 0 source.toList with
  | error => exact nofun
  | ok => rintro ⟨⟩; rfl

theorem sameMeaning_of_tokens? {source source' : String} {tokens : List Spanned}
    (h : tokenize source = .ok tokens) (h' : tokens? source'.toList = some (tokens.map (·.token))) :
    SameMeaning source source' := by
  obtain ⟨tokens', hok, heq⟩ := exists_tokenize_of_tokens? h'
  refine ⟨tokens, tokens', h, hok, heq, ?_⟩
  simp only [Program.ofSource, h, hok, heq]
  cases Parser.program (tokens.map (·.token)) <;> rfl

theorem tokens?_of_pieces {offset : Nat} {cs : List Char} {tokens : List Spanned}
    (h : Pieces offset cs tokens) : tokens? cs = some (tokens.map (·.token)) := by
  rw [← tokens?_eq offset, pieces_iff.2 h]
  rfl

theorem Leads.tokens?_gap {before rest gap after : List Char} {ts : List Token}
    (h : Leads rest before ts) (hg : IsLayout gap) (hne : gap ≠ []) :
    tokens? (before ++ (gap ++ after)) = (tokens? after).map (ts ++ ·) := by
  rw [h.tokens?_append (hg.parts hne after), tokens?_append_of_isLayout hg]

theorem tokens?_insert {before gap after : List Char} {tokens : List Spanned}
    (h : tokenizeFrom 0 (before ++ after) = .ok tokens)
    (hb : IsBoundary tokens (Text.utf8Length before)) (hg : IsLayout gap) :
    tokens? (before ++ (gap ++ after)) = some (tokens.map (·.token)) := by
  by_cases hne : gap = []
  · subst hne
    exact tokens?_of_pieces (pieces_iff.1 h)
  obtain ⟨done, todo, rfl, hleads, hrest, -⟩ := (pieces_iff.1 h).leads rfl (by rwa [Nat.zero_add])
  rw [hleads.tokens?_gap hg hne, tokens?_of_pieces hrest, Option.map_some, List.map_append]

/-- The tokens behind a boundary, if those on both of its sides are known. -/
theorem eq_of_boundary {done todo d r : List Spanned} {t₁ t₂ : Spanned} {offset : Nat}
    (h : done ++ t₁ :: t₂ :: todo = d ++ r)
    (hd : ∀ t ∈ d, t.start < t.stop ∧ t.stop ≤ offset)
    (hr : ∀ t ∈ r, offset ≤ t.start ∧ t.start < t.stop) (h₁ : t₁.stop = offset)
    (h₂ : offset < t₂.start) : r = t₂ :: todo := by
  have hleft : t₁ ∉ r := fun hm => by have := hr t₁ hm; omega
  have hright : t₂ ∉ d := fun hm => by have := hd t₂ hm; omega
  rcases List.append_eq_append_iff.1 h with ⟨a, rfl, ha⟩ | ⟨a, rfl, rfl⟩
  · match a with
    | [] =>
      obtain rfl : t₁ :: t₂ :: todo = r := ha
      simp at hleft
    | [u] => exact (List.cons.inj ha).2.symm
    | u :: v :: a =>
      obtain ⟨-, ha⟩ := List.cons.inj ha
      obtain ⟨rfl, -⟩ := List.cons.inj ha
      simp at hright
  · simp at hleft

theorem tokens?_replace {before old gap after : List Char} {done todo : List Spanned}
    {t₁ t₂ : Spanned}
    (h : tokenizeFrom 0 (before ++ (old ++ after)) = .ok (done ++ t₁ :: t₂ :: todo))
    (h₁ : t₁.stop = Text.utf8Length before) (h₂ : t₂.start = Text.utf8Length (before ++ old))
    (hold : old ≠ []) (hg : IsLayout gap) (hne : gap ≠ []) :
    tokens? (before ++ (gap ++ after)) = some ((done ++ t₁ :: t₂ :: todo).map (·.token)) := by
  rw [Text.utf8Length_append] at h₂
  have hpos := Text.utf8Length_pos hold
  have hbound : IsBoundary (done ++ t₁ :: t₂ :: todo) (0 + Text.utf8Length before) :=
    ⟨t₁, by simp, .inr (by rw [h₁, Nat.zero_add])⟩
  obtain ⟨d, r, hsplit, hleads, hrest, hd⟩ := (pieces_iff.1 h).leads rfl hbound
  rw [Nat.zero_add] at hrest hd
  obtain rfl := eq_of_boundary hsplit hd hrest.le_start h₁ (by omega)
  -- nothing but layout stands between the two tokens
  obtain ⟨e, r, hsplit', -, hafter, he⟩ := hrest.leads rfl ⟨t₂, by simp, .inl h₂⟩
  have hnil : e = [] := by
    cases e with
    | nil => rfl
    | cons u e =>
      obtain ⟨rfl, -⟩ := List.cons.inj hsplit'
      have := he t₂ (by simp)
      omega
  subst hnil
  rw [List.nil_append] at hsplit'
  subst hsplit'
  rw [hleads.tokens?_gap hg hne, tokens?_of_pieces hafter, hsplit, Option.map_some,
    List.map_append]

/-- Blanks and comments can be put where a token begins or ends, and can take the place of others
between two tokens, without a change of what a function body means. -/
theorem layout_between_tokens (before gap after : String) (hgap : IsLayout gap.toList) :
    (∀ tokens, tokenize (before ++ after) = .ok tokens →
      IsBoundary tokens before.utf8ByteSize →
        SameMeaning (before ++ after) (before ++ gap ++ after)) ∧
    ∀ old done t₁ t₂ todo, tokenize (before ++ old ++ after) = .ok (done ++ t₁ :: t₂ :: todo) →
      t₁.stop = before.utf8ByteSize → t₂.start = (before ++ old).utf8ByteSize → old ≠ "" →
      gap ≠ "" → SameMeaning (before ++ old ++ after) (before ++ gap ++ after) := by
  constructor
  · intro tokens h hb
    refine sameMeaning_of_tokens? h ?_
    rw [tokenize, String.toList_append] at h
    rw [String.append_assoc, String.toList_append, String.toList_append]
    exact tokens?_insert h (by rwa [Text.utf8Length_toList]) hgap
  · intro old done t₁ t₂ todo h h₁ h₂ hold hne
    refine sameMeaning_of_tokens? h ?_
    rw [tokenize, String.append_assoc, String.toList_append, String.toList_append] at h
    rw [String.append_assoc, String.toList_append, String.toList_append]
    rw [← Text.utf8Length_toList] at h₁ h₂
    rw [String.toList_append] at h₂
    exact tokens?_replace h h₁ h₂ (by simpa using hold) hgap (by simpa using hne)

/-- A number that an `e` stands behind, and a slash that a comment comes to stand behind. -/
theorem layout_behind_number_and_slash :
    IsLayout "/* * */ ".toList ∧
      tokenize ("1" ++ "e") = .ok [⟨.number (.int 1), 0, 1⟩, ⟨.name "e", 1, 2⟩] ∧
      SameMeaning ("1" ++ "e") ("1" ++ "/* * */ " ++ "e") ∧
      tokenize ("a /" ++ " " ++ "b") =
        .ok ([⟨.name "a", 0, 1⟩] ++ ⟨.sign .slash, 2, 3⟩ :: ⟨.name "b", 4, 5⟩ :: []) ∧
      SameMeaning ("a /" ++ " " ++ "b") ("a /" ++ "/* * */ " ++ "b") := by
  have hgap : IsLayout "/* * */ ".toList := by
    change IsLayout ('/' :: '*' :: ([' ', '*', ' '] ++ '*' :: '/' :: [' ']))
    exact .comment (by decide) (.blank rfl .nil)
  have hone : tokenize ("1" ++ "e") = .ok [⟨.number (.int 1), 0, 1⟩, ⟨.name "e", 1, 2⟩] := by cbv
  have hslash : tokenize ("a /" ++ " " ++ "b") =
      .ok ([⟨.name "a", 0, 1⟩] ++ ⟨.sign .slash, 2, 3⟩ :: ⟨.name "b", 4, 5⟩ :: []) := by cbv
  obtain ⟨hinsert, -⟩ := layout_between_tokens "1" "/* * */ " "e" hgap
  obtain ⟨-, hreplace⟩ := layout_between_tokens "a /" "/* * */ " "b" hgap
  refine ⟨hgap, hone, hinsert _ hone ⟨_, List.mem_cons_self, .inr (by decide)⟩, hslash, ?_⟩
  exact hreplace " " _ _ _ _ hslash (by decide) (by decide) (by decide) (by decide)

end LiveDoc.Script
