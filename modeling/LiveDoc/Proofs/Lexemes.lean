import LiveDoc.Script.Lexer
import Mathlib.Data.List.Infix
import Mathlib.Data.List.Pairwise

namespace LiveDoc.Script.Lexer

open Text

/-- The longest beginning of a text that is in a language. -/
structure IsLongest (lang : List Char → Prop) (x cs : List Char) : Prop where
  begins : x <+: cs
  mem : lang x
  longest : ∀ y, y <+: cs → lang y → y.length ≤ x.length

theorem IsLongest.unique {lang : List Char → Prop} {x y cs : List Char}
    (hx : IsLongest lang x cs) (hy : IsLongest lang y cs) : x = y := by
  have hle := hy.longest x hx.begins hx.mem
  have hge := hx.longest y hy.begins hy.mem
  exact (List.prefix_of_prefix_length_le hx.begins hy.begins hle).eq_of_length (by omega)

/-- What only layout begins with. A lexeme may begin with it, as a sign does, but not go on. -/
def parts (c : Char) : Bool :=
  isLayout c || c = '/'

/-- A member stays the longest one in front of another text, if that one parts. -/
theorem IsLongest.of_parted {lang : List Char → Prop}
    (hlang : ∀ c cs, lang (c :: cs) → ∀ d ∈ cs, parts d = false) {c : Char}
    {x xs mid rest rest' : List Char} (h : IsLongest lang x (c :: (xs ++ (mid ++ rest))))
    (hlen : x.length = xs.length + 1) (hparts : ∀ d, rest'.head? = some d → parts d = true) :
    x = c :: xs ∧ IsLongest lang x (c :: (xs ++ (mid ++ rest'))) := by
  have hx : x = c :: xs := by
    have hbegins : c :: xs <+: c :: (xs ++ (mid ++ rest)) := List.prefix_append (c :: xs) _
    exact (List.prefix_of_prefix_length_le h.begins hbegins hlen.le).eq_of_length hlen
  subst hx
  have hbegins : c :: xs <+: c :: (xs ++ (mid ++ rest')) := List.prefix_append (c :: xs) _
  refine ⟨rfl, hbegins, h.mem, fun y hy hm => ?_⟩
  by_contra hlt
  obtain ⟨z, rfl⟩ := List.prefix_of_prefix_length_le hbegins hy (by omega)
  have hz : ∀ d ∈ z, parts d = false :=
    fun d hd => hlang c (xs ++ z) hm d (List.mem_append_right _ hd)
  rw [List.cons_append, List.prefix_cons_inj, List.prefix_append_right_inj] at hy
  -- what the longer member adds cannot reach `rest'`, so it stands in the first text as well
  have hmid : z <+: mid := by
    rcases List.prefix_or_prefix_of_prefix hy (List.prefix_append mid rest') with hzm | ⟨w, rfl⟩
    · exact hzm
    · rw [List.prefix_append_right_inj] at hy
      cases w with
      | nil => simp
      | cons d w =>
        obtain ⟨tail, rfl⟩ := hy
        have hd := hz d (by simp)
        rw [hparts d rfl] at hd
        cases hd
  have hbegins : c :: xs ++ z <+: c :: (xs ++ (mid ++ rest)) := by
    rw [List.cons_append, List.prefix_cons_inj, List.prefix_append_right_inj]
    exact hmid.trans (List.prefix_append ..)
  have hle := h.longest (c :: xs ++ z) hbegins hm
  omega

def IsDigits (cs : List Char) : Prop :=
  cs ≠ [] ∧ ∀ c ∈ cs, Decimal.isDigit c = true

inductive IsFraction : List Char → Prop
  | none : IsFraction []
  | some (h : IsDigits ds) : IsFraction ('.' :: ds)

inductive IsExponent : List Char → Prop
  | none : IsExponent []
  | some (he : e = 'e' ∨ e = 'E') (hs : sign = [] ∨ sign = ['+'] ∨ sign = ['-'])
    (hd : IsDigits ds) : IsExponent (e :: (sign ++ ds))

inductive IsNumeral : List Char → Prop
  | mk (hw : IsDigits whole) (hf : IsFraction fraction) (he : IsExponent exponent) :
    IsNumeral (whole ++ (fraction ++ exponent))

theorem parts_of_isDigit {c : Char} (h : Decimal.isDigit c = true) : parts c = false := by
  by_contra hp
  simp only [parts, isLayout, Bool.not_eq_false, Bool.or_eq_true, decide_eq_true_eq] at hp
  rcases hp with ((((rfl | rfl) | rfl) | rfl) | rfl) | rfl <;> revert h <;> decide

/-- Either the digits of a text are those that are known to stand there, or there are more of them
and nothing else is known. -/
theorem digitCount_of_begins {ds z cs : List Char} (hd : ∀ c ∈ ds, Decimal.isDigit c = true)
    (hz : ∀ c, z.head? = some c → Decimal.isDigit c = false) (h : ds ++ z <+: cs) :
    z = [] ∧ ds.length ≤ digitCount cs ∨
      digitCount cs = ds.length ∧ z <+: cs.drop ds.length := by
  obtain ⟨rest, rfl⟩ := h
  rw [List.append_assoc]
  simp only [digitCount, List.takeWhile_append_of_pos hd, List.length_append, List.drop_left]
  cases z with
  | nil => exact .inl ⟨rfl, by omega⟩
  | cons c z => exact .inr ⟨by simp [hz c rfl], by simp⟩

theorem isDigits_take {cs : List Char} (h : digitCount cs ≠ 0) :
    IsDigits (cs.take (digitCount cs)) := by
  have htake : cs.take (digitCount cs) = cs.takeWhile Decimal.isDigit :=
    (List.prefix_iff_eq_take.1 (List.takeWhile_prefix _)).symm
  rw [htake]
  exact ⟨fun hnil => h (by simp [digitCount, hnil]), List.all_eq_true.1 List.all_takeWhile⟩

theorem isDigit_exponent {c : Char} (h : c = 'e' ∨ c = 'E') : Decimal.isDigit c = false := by
  rcases h with rfl | rfl <;> decide

theorem isFraction_take (cs : List Char) : IsFraction (cs.take (fractionLength cs)) := by
  unfold fractionLength
  split
  next ds =>
    split
    · exact .none
    next h => exact .some (isDigits_take h)
  · exact .none

theorem isExponent_take (cs : List Char) : IsExponent (cs.take (exponentLength cs)) := by
  cases cs with
  | nil => exact .none
  | cons e cs =>
    simp only [exponentLength]
    split
    next he =>
      split
      · exact .none
      next h =>
        have htake : (e :: cs).take (digitCount (cs.drop (signLength cs)) + signLength cs + 1) =
            e :: (cs.take (signLength cs) ++
              (cs.drop (signLength cs)).take (digitCount (cs.drop (signLength cs)))) := by
          rw [List.take_succ_cons, Nat.add_comm, List.take_add]
        rw [htake]
        refine .some he ?_ (isDigits_take h)
        unfold signLength
        split <;> simp
    · exact .none

theorem isNumeral_take {c : Char} {cs : List Char} (h : Decimal.isDigit c = true) :
    IsNumeral ((c :: cs).take (numberLength (c :: cs))) := by
  have hwhole : digitCount (c :: cs) ≠ 0 := by simp [digitCount, h]
  simp only [numberLength]
  rw [List.take_add, List.take_add, List.append_assoc]
  exact .mk (isDigits_take hwhole) (isFraction_take _) (isExponent_take _)

theorem length_le_exponentLength {e cs : List Char} (he : IsExponent e) (h : e <+: cs) :
    e.length ≤ exponentLength cs := by
  obtain ⟨rest, rfl⟩ := h
  cases he with
  | none => simp
  | @some e sign ds he hs hd =>
    obtain ⟨d, ds', rfl⟩ := List.exists_cons_of_ne_nil hd.1
    have hd' : Decimal.isDigit d = true := hd.2 d (by simp)
    have hsign : signLength (sign ++ (d :: ds' ++ rest)) = sign.length := by
      rcases hs with rfl | rfl | rfl
      · simp only [List.nil_append, List.cons_append, List.length_nil]
        unfold signLength
        split
        next heq => cases heq; exact absurd hd' (by decide)
        next heq => cases heq; exact absurd hd' (by decide)
        · rfl
      · rfl
      · rfl
    have hdigits : (d :: ds').length ≤ digitCount (d :: ds' ++ rest) := by
      simp only [digitCount, List.takeWhile_append_of_pos hd.2, List.length_append]
      omega
    simp only [List.cons_append, List.append_assoc, exponentLength, if_pos he] at *
    rw [hsign, List.drop_left, if_neg (by simp only [List.length_cons] at hdigits; omega)]
    simp only [List.length_cons, List.length_append] at *
    omega

theorem isDigit_of_exponent {e : List Char} (he : IsExponent e) {c : Char} (h : e.head? = some c) :
    Decimal.isDigit c = false := by
  cases he with
  | none => cases h
  | some he hs hd =>
    cases h
    exact isDigit_exponent he

theorem length_le_numberLength {x cs : List Char} (hx : IsNumeral x) (h : x <+: cs) :
    x.length ≤ numberLength cs := by
  simp only [numberLength]
  cases hx with
  | @mk whole fraction exponent hw hf he =>
    have hhead : ∀ c, (fraction ++ exponent).head? = some c → Decimal.isDigit c = false := by
      intro c hc
      cases hf with
      | none => exact isDigit_of_exponent he hc
      | some hd => cases hc; decide
    rcases digitCount_of_begins hw.2 hhead h with ⟨hnil, hle⟩ | ⟨heq, hrest⟩
    · simp only [hnil, List.append_nil]
      omega
    · rw [heq, List.length_append, List.length_append]
      cases hf with
      | none =>
        have hexp := length_le_exponentLength he hrest
        cases he with
        | none =>
          simp only [List.length_nil]
          omega
        | some he hs hd =>
          obtain ⟨rest, hrest⟩ := hrest
          have hzero : fractionLength (cs.drop whole.length) = 0 := by
            rw [← hrest]
            rcases he with rfl | rfl <;> rfl
          rw [hzero, Nat.add_zero, List.length_nil]
          omega
      | @some ds hd =>
        obtain ⟨rest, hrest⟩ := hrest
        have hdrop : cs.drop whole.length = '.' :: (ds ++ exponent ++ rest) := by
          rw [← hrest]
          simp
        have hbegins : ds ++ exponent <+: ds ++ exponent ++ rest := List.prefix_append ..
        have hpos : 0 < ds.length := List.length_pos_iff.2 hd.1
        rw [← List.drop_drop, hdrop, fractionLength]
        rcases digitCount_of_begins hd.2 (fun _ => isDigit_of_exponent he) hbegins with
          ⟨rfl, hle⟩ | ⟨heq, hexp⟩
        · rw [if_neg (by omega), List.length_cons, List.length_nil]
          omega
        · have hle := length_le_exponentLength he hexp
          rw [heq, if_neg (by omega), List.length_cons, List.drop_succ_cons]
          omega

theorem numberLength_le (cs : List Char) : numberLength cs ≤ cs.length := by
  have hdigits (cs : List Char) : digitCount cs ≤ cs.length :=
    (List.takeWhile_prefix _).length_le
  have hfraction (cs : List Char) : fractionLength cs ≤ cs.length := by
    unfold fractionLength
    split
    next ds =>
      have := hdigits ds
      split <;> simp only [List.length_cons] <;> omega
    · omega
  have hexponent (cs : List Char) : exponentLength cs ≤ cs.length := by
    cases cs with
    | nil => rfl
    | cons e cs =>
      have hsign : signLength cs ≤ cs.length := by
        unfold signLength
        split <;> simp
      have := hdigits (cs.drop (signLength cs))
      rw [List.length_drop] at this
      simp only [exponentLength, List.length_cons]
      split <;> (try split) <;> omega
  have hwhole := hdigits cs
  have hrest := hfraction (cs.drop (digitCount cs))
  have hlast := hexponent (cs.drop (digitCount cs + fractionLength (cs.drop (digitCount cs))))
  rw [List.length_drop] at hrest hlast
  simp only [numberLength]
  omega

theorem length_take_numberLength (cs : List Char) :
    (cs.take (numberLength cs)).length = numberLength cs :=
  List.length_take_of_le (numberLength_le cs)

theorem isLongest_numberLength {c : Char} {cs : List Char} (h : Decimal.isDigit c = true) :
    IsLongest IsNumeral ((c :: cs).take (numberLength (c :: cs))) (c :: cs) := by
  refine ⟨List.take_prefix .., isNumeral_take h, fun y hy hm => ?_⟩
  rw [length_take_numberLength]
  exact length_le_numberLength hm hy

theorem parts_of_isNumeral (c : Char) (cs : List Char) (h : IsNumeral (c :: cs)) :
    ∀ d ∈ cs, parts d = false := by
  intro d hd
  have hmem : d ∈ c :: cs := List.mem_cons_of_mem _ hd
  generalize c :: cs = x at h hmem
  cases h with
  | mk hw hf he =>
    rcases List.mem_append.1 hmem with hmem | hmem
    · exact parts_of_isDigit (hw.2 d hmem)
    · rcases List.mem_append.1 hmem with hmem | hmem
      · cases hf with
        | none => cases hmem
        | some hd =>
          rcases List.mem_cons.1 hmem with rfl | hmem
          · decide
          · exact parts_of_isDigit (hd.2 d hmem)
      · cases he with
        | none => cases hmem
        | some he hs hd =>
          rcases List.mem_cons.1 hmem with rfl | hmem
          · rcases he with rfl | rfl <;> decide
          · rcases List.mem_append.1 hmem with hmem | hmem
            · rcases hs with rfl | rfl | rfl
              · cases hmem
              · cases List.mem_singleton.1 hmem; decide
              · cases List.mem_singleton.1 hmem; decide
            · exact parts_of_isDigit (hd.2 d hmem)

inductive IsWord : List Char → Prop
  | mk (hc : Signal.isNameStart c = true) (hcs : ∀ d ∈ cs, Signal.isNameRest d = true) :
    IsWord (c :: cs)

theorem isLongest_word {c : Char} {cs : List Char} (h : Signal.isNameStart c = true) :
    IsLongest IsWord (c :: cs.takeWhile Signal.isNameRest) (c :: cs) := by
  refine ⟨?_, .mk h (List.all_eq_true.1 List.all_takeWhile), fun y hy hm => ?_⟩
  · rw [List.prefix_cons_inj]
    exact List.takeWhile_prefix _
  · cases hm with
    | @mk d ds hd hds =>
      obtain ⟨-, hds'⟩ := List.cons_prefix_cons.1 hy
      obtain ⟨rest, rfl⟩ := hds'
      simp only [List.takeWhile_append_of_pos hds, List.length_cons, List.length_append]
      omega

theorem parts_of_isWord (c : Char) (cs : List Char) (h : IsWord (c :: cs)) :
    ∀ d ∈ cs, parts d = false := by
  cases h with
  | mk hc hcs =>
    intro d hd
    by_contra hp
    simp only [parts, isLayout, Bool.not_eq_false, Bool.or_eq_true, decide_eq_true_eq] at hp
    have hrest := hcs d hd
    rcases hp with ((((rfl | rfl) | rfl) | rfl) | rfl) | rfl <;> revert hrest <;> decide

theorem isDigit_of_isNameStart {c : Char} (h : Signal.isNameStart c = true) :
    Decimal.isDigit c = false := by
  by_contra hd
  simp only [Decimal.isDigit, Bool.not_eq_false, Bool.and_eq_true, decide_eq_true_eq] at hd
  have hlow : 48 ≤ c.toNat := hd.1
  have hhigh : c.toNat ≤ 57 := hd.2
  simp only [Signal.isNameStart, Bool.or_eq_true, decide_eq_true_eq] at h
  rcases h with (hletter | rfl) | rfl
  · rcases (Bool.or_eq_true _ _).mp hletter with hupper | hlower
    · have hle : 65 ≤ c.toNat := (of_decide_eq_true hupper).1
      omega
    · have hle : 97 ≤ c.toNat := of_decide_eq_true ((Bool.and_eq_true _ _).mp hlower).1
      omega
  · exact absurd hhigh (by decide)
  · exact absurd hlow (by decide)

theorem word_of_ne {name : String} (h : ∀ k : Keyword, k.text ≠ name) :
    word name.toList = .name name := by
  simp only [word, String.ofList_toList]
  rw [List.find?_eq_none.2 fun k _ => by simpa using h k]

theorem word_text (k : Keyword) : word k.text.toList = .keyword k := by
  cases k <;> decide

def IsSign (cs : List Char) : Prop :=
  ∃ s : Sign, s.text.toList = cs

theorem Sign.mem_all (s : Sign) : s ∈ Sign.all := by
  cases s <;> decide

theorem pairwise_signs :
    Sign.all.Pairwise fun s t => ¬s.text.toList <+: t.text.toList := by
  decide

theorem Sign.text_toList_injective {s t : Sign} (h : s.text.toList = t.text.toList) : s = t := by
  have : Std.Symm fun s t : Sign => s.text.toList ≠ t.text.toList := ⟨fun _ _ => Ne.symm⟩
  have hdistinct : Sign.all.Pairwise fun s t => s.text.toList ≠ t.text.toList := by
    refine pairwise_signs.imp fun {s t} hst he => hst ?_
    rw [he]
  by_contra hne
  exact hdistinct.forall (Sign.mem_all s) (Sign.mem_all t) hne h

theorem isLongest_of_sign? {cs : List Char} {s : Sign} (h : sign? cs = some s) :
    IsLongest IsSign s.text.toList cs := by
  obtain ⟨hs, before, after, hall, hbefore⟩ := List.find?_eq_some_iff_append.1 h
  obtain ⟨rest, hrest⟩ := Option.isSome_iff_exists.1 hs
  rw [after?_eq_some_iff] at hrest
  refine ⟨⟨rest, hrest.symm⟩, ⟨s, rfl⟩, ?_⟩
  rintro y hy ⟨t, rfl⟩
  by_contra hlt
  have hst : s.text.toList <+: t.text.toList :=
    List.prefix_of_prefix_length_le ⟨rest, hrest.symm⟩ hy (by omega)
  have hpairs := pairwise_signs
  rw [hall, List.pairwise_append, List.pairwise_cons] at hpairs
  have hmem := Sign.mem_all t
  rw [hall] at hmem
  rcases List.mem_append.1 hmem with hmem | hmem
  · have := hbefore t hmem
    obtain ⟨rest, hrest⟩ := hy
    simp [after?_eq_some_iff.2 hrest.symm] at this
  · rcases List.mem_cons.1 hmem with rfl | hmem
    · omega
    · exact hpairs.2.1.1 t hmem hst

theorem sign?_eq_some_iff {cs : List Char} {s : Sign} :
    sign? cs = some s ↔ IsLongest IsSign s.text.toList cs := by
  refine ⟨isLongest_of_sign?, fun h => ?_⟩
  obtain ⟨rest, hrest⟩ := h.begins
  have hsome : (sign? cs).isSome = true := by
    refine List.find?_isSome.2 ⟨s, Sign.mem_all s, ?_⟩
    rw [after?_eq_some_iff.2 hrest.symm]
    rfl
  obtain ⟨t, ht⟩ := Option.isSome_iff_exists.1 hsome
  rw [ht, Sign.text_toList_injective ((isLongest_of_sign? ht).unique h)]

theorem parts_of_isSign (c : Char) (cs : List Char) (h : IsSign (c :: cs)) :
    ∀ d ∈ cs, parts d = false := by
  obtain ⟨s, hs⟩ := h
  have htails : ∀ s ∈ Sign.all, s.text.toList.tail.all (!parts ·) = true := by decide
  have htail := htails s (Sign.mem_all s)
  rw [hs] at htail
  intro d hd
  simpa using List.all_eq_true.1 htail d hd

inductive IsQuoted (quote : Char) : List Char → Prop
  | close : IsQuoted quote [quote]
  | escape (hd : d ≠ '\n') (h : IsQuoted quote cs) : IsQuoted quote ('\\' :: d :: cs)
  | char (hq : c ≠ quote) (hc : c ≠ '\\') (h : IsQuoted quote cs) : IsQuoted quote (c :: cs)

theorem quotedLength?_escape {quote d : Char} {cs : List Char} (hd : d ≠ '\n') :
    quotedLength? quote ('\\' :: d :: cs) = (quotedLength? quote cs).map (· + 2) := by
  rw [quotedLength?.eq_3]
  simpa using hd

theorem quotedLength?_cons {quote c : Char} {cs : List Char} (hc : c ≠ '\\') :
    quotedLength? quote (c :: cs) =
      if c = quote then some 1 else (quotedLength? quote cs).map (· + 1) := by
  rw [quotedLength?.eq_4] <;> simp [hc]

theorem IsQuoted.length_eq {quote : Char} (hq : quote ≠ '\\') {x : List Char}
    (h : IsQuoted quote x) (rest : List Char) :
    quotedLength? quote (x ++ rest) = some x.length := by
  induction h with
  | close => simp [quotedLength?_cons hq]
  | escape hd _ ih => simp [quotedLength?_escape hd, ih]
  | char hne hc _ ih => simp [quotedLength?_cons hc, hne, ih]

theorem isQuoted_take {quote : Char} {cs : List Char} {n : Nat}
    (h : quotedLength? quote cs = some n) : n ≤ cs.length ∧ IsQuoted quote (cs.take n) := by
  fun_induction quotedLength? quote cs generalizing n with
  | case1 | case2 => cases h
  | case3 d cs hd ih =>
    obtain ⟨m, hm, rfl⟩ := Option.map_eq_some_iff.1 h
    obtain ⟨hle, hm⟩ := ih hm
    exact ⟨by simpa using hle, .escape (by simpa using hd) hm⟩
  | case4 cs =>
    cases h
    exact ⟨by simp, .close⟩
  | case5 => cases h
  | case6 c cs _ _ hne hc ih =>
    obtain ⟨m, hm, rfl⟩ := Option.map_eq_some_iff.1 h
    obtain ⟨hle, hm⟩ := ih hm
    exact ⟨by simpa using hle, .char hne hc hm⟩

theorem longest?_cons {c : Char} {cs : List Char} (h : ¬(c = '/' ∧ cs.head? = some '*')) :
    Piece.longest? (c :: cs) =
      if isLayout c then some (.layout, (cs.takeWhile isLayout).length + 1)
      else if Decimal.isDigit c then
        (number? ((c :: cs).take (numberLength (c :: cs)))).map fun x =>
          (.token (.number x), numberLength (c :: cs))
      else if c = '\x22' ∨ c = '\x27' then
        (quotedLength? c cs).map fun n =>
          (.token (.text (String.ofList (unescape (cs.take (n - 1))))), n + 1)
      else if Signal.isNameStart c then
        some (.token (word (c :: cs.takeWhile Signal.isNameRest)),
          (cs.takeWhile Signal.isNameRest).length + 1)
      else (sign? (c :: cs)).map fun s => (.token (.sign s), s.text.length) := by
  unfold Piece.longest?
  split
  next heq => cases heq
  next heq => cases heq; simp at h
  next c' cs' _ heq =>
    cases heq
    have htake : (c :: cs).take ((cs.takeWhile Signal.isNameRest).length + 1) =
        c :: cs.takeWhile Signal.isNameRest := by
      rw [List.take_succ_cons, (List.prefix_iff_eq_take.1 (List.takeWhile_prefix _)).symm]
    simp only [htake]

theorem longest?_word {name rest : List Char} (h : Signal.isName name = true)
    (hrest : ∀ d, rest.head? = some d → Signal.isNameRest d = false) :
    Piece.longest? (name ++ rest) = some (.token (word name), name.length) := by
  cases name with
  | nil => cases h
  | cons c cs =>
    obtain ⟨hc, hcs⟩ := (Bool.and_eq_true _ _).mp h
    have hne : ∀ d, Signal.isNameStart d = false → c ≠ d := by
      rintro d hd rfl
      rw [hc] at hd
      cases hd
    have hopen : ¬(c = '/' ∧ (cs ++ rest).head? = some '*') :=
      fun hslash => hne '/' (by decide) hslash.1
    have hlayout : isLayout c = false := by
      simp [isLayout, hne ' ' (by decide), hne '\t' (by decide), hne '\r' (by decide),
        hne '\n' (by decide), hne '\x0c' (by decide)]
    have hquote : ¬(c = '\x22' ∨ c = '\x27') := by
      simp [hne '\x22' (by decide), hne '\x27' (by decide)]
    have htake : (cs ++ rest).takeWhile Signal.isNameRest = cs := by
      rw [List.takeWhile_append_of_pos (List.all_eq_true.1 hcs)]
      cases rest with
      | nil => simp
      | cons d ds => simp [hrest d rfl]
    rw [List.cons_append, longest?_cons hopen, if_neg (by simp [hlayout]),
      if_neg (by simp [isDigit_of_isNameStart hc]), if_neg hquote, if_pos hc, htake]
    rfl

section

variable {c : Char} {xs mid rest rest' : List Char}
  (hparts : ∀ d, rest'.head? = some d → parts d = true)

include hparts

theorem numberLength_of_parted (hc : Decimal.isDigit c = true)
    (h : numberLength (c :: (xs ++ (mid ++ rest))) = xs.length + 1) :
    numberLength (c :: (xs ++ (mid ++ rest'))) = xs.length + 1 := by
  have hlong : IsLongest IsNumeral _ (c :: (xs ++ (mid ++ rest))) := isLongest_numberLength hc
  have hlen : ((c :: (xs ++ (mid ++ rest))).take (numberLength (c :: (xs ++ (mid ++ rest))))).length =
      xs.length + 1 := by
    rw [length_take_numberLength, h]
  have hx := (hlong.of_parted parts_of_isNumeral hlen hparts).2
  rw [← length_take_numberLength, ← hx.unique (isLongest_numberLength hc), hlen]

theorem takeWhile_of_parted (hc : Signal.isNameStart c = true)
    (h : ((xs ++ (mid ++ rest)).takeWhile Signal.isNameRest).length = xs.length) :
    (xs ++ (mid ++ rest')).takeWhile Signal.isNameRest =
      (xs ++ (mid ++ rest)).takeWhile Signal.isNameRest := by
  have hlong : IsLongest IsWord _ (c :: (xs ++ (mid ++ rest))) := isLongest_word hc
  have hx := (hlong.of_parted parts_of_isWord (by simp [h]) hparts).2
  exact (List.cons.inj (hx.unique (isLongest_word hc))).2.symm

theorem sign?_of_parted {s : Sign} (h : sign? (c :: (xs ++ (mid ++ rest))) = some s)
    (hlen : s.text.length = xs.length + 1) : sign? (c :: (xs ++ (mid ++ rest'))) = some s := by
  rw [← String.length_toList] at hlen
  have hx := (sign?_eq_some_iff.1 h).of_parted parts_of_isSign hlen hparts
  exact sign?_eq_some_iff.2 hx.2

end

/-- The longest token at a place stays the longest one if the text is parted somewhere behind it. -/
theorem longest?_of_parted {x mid rest rest' : List Char} {t : Token} (hne : x ≠ [])
    (h : Piece.longest? (x ++ (mid ++ rest)) = some (.token t, x.length))
    (hparts : ∀ d, rest'.head? = some d → parts d = true) :
    Piece.longest? (x ++ (mid ++ rest')) = some (.token t, x.length) := by
  obtain ⟨c, xs, rfl⟩ := List.exists_cons_of_ne_nil hne
  have hopen : ¬(c = '/' ∧ (xs ++ (mid ++ rest)).head? = some '*') := by
    rintro ⟨rfl, hstar⟩
    obtain ⟨cs, hcs⟩ := List.head?_eq_some_iff.1 hstar
    rw [List.cons_append, hcs] at h
    obtain ⟨n, _, hn⟩ := Option.map_eq_some_iff.1 h
    cases hn
  -- a comment that did not begin here does not begin now
  have hopen' : ¬(c = '/' ∧ (xs ++ (mid ++ rest')).head? = some '*') := by
    rintro ⟨rfl, hstar⟩
    simp only [List.head?_append, true_and, Option.or_eq_some_iff] at hopen hstar
    rcases hstar with hstar | ⟨hxs, hstar | ⟨hmid, hstar⟩⟩
    · exact hopen (.inl hstar)
    · exact hopen (.inr ⟨hxs, .inl hstar⟩)
    · exact absurd (hparts _ hstar) (by decide)
  rw [List.cons_append, longest?_cons hopen] at h
  rw [List.cons_append, longest?_cons hopen']
  split at h
  · cases h
  next hlayout =>
    rw [if_neg hlayout]
    split at h
    next hdigit =>
      rw [if_pos hdigit]
      obtain ⟨n, hn, heq⟩ := Option.map_eq_some_iff.1 h
      obtain ⟨ht, hlen⟩ := Prod.mk.inj heq
      rw [hlen, List.length_cons, List.take_succ_cons, List.take_left] at hn
      rw [numberLength_of_parted hparts hdigit hlen, List.take_succ_cons, List.take_left, hn,
        Option.map_some, ht]
      rfl
    next hdigit =>
      rw [if_neg hdigit]
      split at h
      next hquote =>
        rw [if_pos hquote]
        obtain ⟨n, hn, heq⟩ := Option.map_eq_some_iff.1 h
        obtain ⟨ht, hlen⟩ := Prod.mk.inj heq
        obtain rfl : n = xs.length := by simpa using hlen
        have hquoted := (isQuoted_take hn).2
        rw [List.take_left] at hquoted
        have hescape : c ≠ '\\' := by
          rcases hquote with rfl | rfl <;> decide
        have htake (rest : List Char) : (xs ++ rest).take (xs.length - 1) = xs.take (xs.length - 1) :=
          List.take_append_of_le_length (Nat.sub_le ..)
        rw [htake] at ht
        rw [hquoted.length_eq hescape, Option.map_some, htake, ht]
        rfl
      next hquote =>
        rw [if_neg hquote]
        split at h
        next hname =>
          rw [if_pos hname]
          obtain ⟨ht, hlen⟩ := Prod.mk.inj (Option.some.inj h)
          rw [takeWhile_of_parted hparts hname (by simpa using hlen), h]
        next hname =>
          rw [if_neg hname]
          obtain ⟨s, hs, heq⟩ := Option.map_eq_some_iff.1 h
          obtain ⟨ht, hlen⟩ := Prod.mk.inj heq
          rw [sign?_of_parted hparts hs hlen, ← heq]
          rfl

end LiveDoc.Script.Lexer
