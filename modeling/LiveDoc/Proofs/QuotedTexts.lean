import LiveDoc.Proofs.Tiling

namespace LiveDoc.Script

namespace Lexer

def IsQuote (c : Char) : Prop :=
  c = '\x22' ∨ c = '\x27'

/-- What a backslash and the character behind it stand for. -/
inductive Escape : Char → Char → Prop
  | newline : Escape 'n' '\n'
  | tab : Escape 't' '\t'
  | carriageReturn : Escape 'r' '\r'
  | null : Escape '0' '\x00'
  | itself (hc : c ∉ ['n', 't', 'r', '0']) : Escape c c

/-- What stands between two quotes, and the text that it stands for. -/
inductive StandsFor (quote : Char) : List Char → List Char → Prop
  | nil : StandsFor quote [] []
  | escape (hd : d ≠ '\n') (he : Escape d e) (h : StandsFor quote cs text) :
    StandsFor quote ('\\' :: d :: cs) (e :: text)
  | char (hq : c ≠ quote) (hc : c ≠ '\\') (h : StandsFor quote cs text) :
    StandsFor quote (c :: cs) (c :: text)

def escape (quote : Char) : List Char → List Char
  | [] => []
  | c :: cs => if c = '\\' ∨ c = quote then '\\' :: c :: escape quote cs else c :: escape quote cs

def literal (quote : Char) (s : String) : String :=
  .ofList (quote :: (escape quote s.toList ++ [quote]))

theorem escape_iff {c d : Char} : Escape c d ↔ escaped c = d := by
  constructor
  · intro h
    cases h with
    | itself hc =>
      simp only [List.mem_cons, List.not_mem_nil, or_false, not_or] at hc
      simp [escaped, hc]
    | _ => rfl
  · rintro rfl
    by_cases hc : c ∈ ['n', 't', 'r', '0']
    · simp only [List.mem_cons, List.not_mem_nil, or_false] at hc
      rcases hc with rfl | rfl | rfl | rfl <;> constructor
    · have hself := hc
      simp only [List.mem_cons, List.not_mem_nil, or_false, not_or] at hself
      simpa [escaped, hself] using Escape.itself hc

theorem unescape_cons {c : Char} (hc : c ≠ '\\') (cs : List Char) :
    unescape (c :: cs) = c :: unescape cs := by
  rw [unescape.eq_3] <;> simp [hc]

/-- Up to the closing quote, what is taken together is one escape or one character. -/
theorem IsQuoted.standsFor {quote : Char} {cs : List Char} (h : IsQuoted quote cs) :
    ∃ body, cs = body ++ [quote] ∧ StandsFor quote body (unescape body) := by
  induction h with
  | close => exact ⟨[], rfl, .nil⟩
  | @escape d cs hd _ ih =>
    obtain ⟨body, rfl, hbody⟩ := ih
    exact ⟨'\\' :: d :: body, rfl, .escape hd (escape_iff.2 rfl) hbody⟩
  | @char c cs hq hc _ ih =>
    obtain ⟨body, rfl, hbody⟩ := ih
    refine ⟨c :: body, rfl, ?_⟩
    rw [unescape_cons hc]
    exact .char hq hc hbody

namespace StandsFor

variable {quote : Char} {cs text : List Char}

theorem isQuoted (h : StandsFor quote cs text) : IsQuoted quote (cs ++ [quote]) := by
  induction h with
  | nil => exact .close
  | escape hd _ _ ih => exact .escape hd ih
  | char hq hc _ ih => exact .char hq hc ih

theorem unescape_eq (h : StandsFor quote cs text) : unescape cs = text := by
  induction h with
  | nil => rfl
  | escape _ he _ ih => rw [unescape, ih, escape_iff.1 he]
  | char _ hc _ ih => rw [unescape_cons hc, ih]

/-- What stands in quotes makes one token, which is the text that it stands for. -/
theorem tokenizeFrom_eq (hq : IsQuote quote) (h : StandsFor quote cs text) :
    tokenizeFrom 0 (quote :: (cs ++ [quote])) =
      .ok [⟨.text (String.ofList text), 0, Text.utf8Length (quote :: (cs ++ [quote]))⟩] := by
  have hmakes : Makes (quote :: (cs ++ [quote])) (.text (String.ofList (unescape cs))) :=
    .text hq h.isQuoted
  have hopen : ¬['/', '*'] <+: quote :: (cs ++ [quote]) ++ ([] ++ []) := by
    rw [List.cons_append, List.cons_prefix_cons]
    rintro ⟨rfl, -⟩
    rcases hq with hq | hq <;> exact absurd hq (by decide)
  have hlong : IsLongest IsLexeme (quote :: (cs ++ [quote])) (quote :: (cs ++ [quote]) ++ ([] ++ [])) :=
    ⟨List.prefix_append .., hmakes.isLexeme, fun y hy _ => by simpa using hy.length_le⟩
  have htiles : Tiles [] 0 ([] ++ (quote :: (cs ++ [quote]) ++ [])) _ :=
    .token .nil hmakes hlong hopen rfl (Nat.zero_add _).symm (.last .nil)
  rw [List.nil_append, List.append_nil, h.unescape_eq] at htiles
  exact htiles.tokenizeFrom_eq

end StandsFor

theorem standsFor_escape {quote : Char} (hq : IsQuote quote) (cs : List Char) :
    StandsFor quote (escape quote cs) cs := by
  induction cs with
  | nil => exact .nil
  | cons c cs ih =>
    rw [escape]
    split
    next hc =>
      have hself : c ≠ '\n' ∧ c ∉ ['n', 't', 'r', '0'] := by
        rcases hc with rfl | rfl
        · decide
        · rcases hq with rfl | rfl <;> decide
      exact .escape hself.1 (.itself hself.2) ih
    next hc => exact .char (fun h => hc (.inr h)) (fun h => hc (.inl h)) ih

end Lexer

open Lexer

/-- Every text is the only token of what it is written as in quotes of either kind. And every token
that is a text comes from what stands between two quotes, where the pairs of a backslash and a
character are told apart from the left and none is left without its character. -/
theorem quoted_texts :
    (∀ quote, IsQuote quote → ∀ s : String,
      tokenize (literal quote s) = .ok [⟨.text s, 0, (literal quote s).utf8ByteSize⟩]) ∧
    ∀ source tokens, tokenize source = .ok tokens → ∀ t ∈ tokens, ∀ s, t.token = .text s →
      ∃ before quote inner behind, source = before ++ .ofList (quote :: (inner ++ [quote])) ++ behind ∧
        t.start = before.utf8ByteSize ∧
        t.stop = (before ++ .ofList (quote :: (inner ++ [quote]))).utf8ByteSize ∧
        IsQuote quote ∧ StandsFor quote inner s.toList := by
  constructor
  · intro quote hq s
    have hlist : (literal quote s).toList = quote :: (escape quote s.toList ++ [quote]) :=
      String.toList_ofList
    rw [tokenize, hlist, (standsFor_escape hq s.toList).tokenizeFrom_eq hq, String.ofList_toList,
      Text.utf8Length_eq_utf8ByteSize, literal]
  · intro source tokens h t ht s hs
    obtain ⟨before, slice, behind, rfl, -, hmakes, hstart, hstop, -⟩ := exists_slice h ht
    rw [hs] at hmakes
    generalize hx : slice.toList = x at hmakes
    obtain rfl : slice = .ofList x := by rw [← hx, String.ofList_toList]
    cases hmakes with
    | @text quote cs hq hquoted =>
      obtain ⟨inner, hinner, hstands⟩ := hquoted.standsFor
      obtain rfl := List.append_cancel_right hinner
      refine ⟨before, quote, cs, behind, rfl, hstart, hstop, hq, ?_⟩
      rwa [String.toList_ofList]

end LiveDoc.Script
