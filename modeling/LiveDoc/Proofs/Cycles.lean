import LiveDoc.Proofs.Inclusion
import Mathlib.Data.List.Chain

namespace LiveDoc.Load

/-- What a load starts from: a text, or the document at a path. -/
inductive Source where
  | text (text : String)
  | file (path : String)

namespace Loader

def load (l : Loader) : Source → Build Value
  | .text text => l.text text
  | .file path => l.file path

def Includes (l : Loader) (p q : String) : Prop :=
  ∃ t, l.content p = .ok t ∧ q ∈ t.inclusions

/-- The documents that a load goes to from its source. -/
def Enters (l : Loader) : Source → String → Prop
  | .text text, q => ∃ t, l.tree text = .ok t ∧ q ∈ t.inclusions
  | .file path, q => q = path

/-- The documents that a load may come to. -/
def Reaches (l : Loader) (src : Source) (q : String) : Prop :=
  ∃ p, l.Enters src p ∧ Relation.ReflTransGen l.Includes p q

section

variable {l : Loader}

theorem ok_of_enters {src : Source} {h : Heap} {r : Value × Heap} (hr : l.load src h = .ok r)
    {p : String} (hp : l.Enters src p) : ∃ g s, l.document [] p g = .ok s := by
  cases src with
  | file path =>
    cases hp
    exact ⟨h, r, hr⟩
  | text text =>
    obtain ⟨t, ht, hp⟩ := hp
    obtain ⟨t', h', ht', hr⟩ := Build.bind_eq_ok.1 hr
    cases ht.symm.trans (Build.liftM_eq_ok.1 ht').1
    exact Build.ok_of_resolve t hr hp

theorem ok_of_includes {stack : List Identity} {p q : String} {h : Heap} {r : Value × Heap}
    (hr : l.document stack p h = .ok r) (hq : l.Includes p q) :
    ∃ g s, l.document (stack ++ [l.files.identity p]) q g = .ok s := by
  obtain ⟨t, ht, hq⟩ := hq
  obtain ⟨-, t', ht', hr⟩ := document_eq_ok.1 hr
  cases ht.symm.trans ht'
  exact Build.ok_of_resolve t hr hq

/-- All documents that a loaded one leads to are loaded on the way, with those between them on the
stack. -/
theorem ok_of_reflTransGen {stack : List Identity} {p q : String} {h : Heap} {r : Value × Heap}
    (hr : l.document stack p h = .ok r) (hq : Relation.ReflTransGen l.Includes p q) :
    ∃ rest g s, l.document (stack ++ rest) q g = .ok s := by
  induction hq with
  | refl => exact ⟨[], h, r, by rwa [List.append_nil]⟩
  | tail _ hq ih =>
    obtain ⟨rest, g, s, hs⟩ := ih
    obtain ⟨g, s, hs⟩ := ok_of_includes hs hq
    exact ⟨rest ++ [_], g, s, by rwa [← List.append_assoc]⟩

theorem ok_of_reaches {src : Source} {h : Heap} {r : Value × Heap} (hr : l.load src h = .ok r)
    {q : String} (hq : l.Reaches src q) : ∃ stack g s, l.document stack q g = .ok s := by
  obtain ⟨p, hp, hq⟩ := hq
  obtain ⟨g, s, hs⟩ := ok_of_enters hr hp
  obtain ⟨rest, g, s, hs⟩ := ok_of_reflTransGen hs hq
  exact ⟨_, g, s, hs⟩

/-- A document that can be loaded does not lead back to itself. -/
theorem same_eq_false_of_transGen {stack : List Identity} {p q : String} {h : Heap}
    {r : Value × Heap} (hr : l.document stack p h = .ok r)
    (hq : Relation.TransGen l.Includes p q) :
    (l.files.identity q).same (l.files.identity p) = false := by
  obtain ⟨b, hb, hq⟩ := Relation.TransGen.head'_iff.1 hq
  obtain ⟨g, s, hs⟩ := ok_of_includes hr hb
  obtain ⟨rest, g, s, hs⟩ := ok_of_reflTransGen hs hq
  have hoff := (document_eq_ok.1 hs).1
  simp only [Identity.isOn_append, Bool.or_eq_false_iff] at hoff
  simpa [Identity.isOn] using hoff.1.2

theorem exists_read_of_document {stack : List Identity} {p : String} {h : Heap} {r : Value × Heap}
    (hr : l.document stack p h = .ok r) : ∃ text, l.files.read p = .ok text := by
  obtain ⟨-, t, ht, -⟩ := document_eq_ok.1 hr
  exact exists_read_of_content ht

end

/-- A stack of documents that can be read, none of them twice. -/
structure Proper (l : Loader) (stack : List Identity) : Prop where
  distinct : stack.Pairwise fun i j => i.same j = false
  readable : ∀ i ∈ stack, ∃ path text, i = l.files.identity path ∧ l.files.read path = .ok text

section

variable {l : Loader}

theorem distinct_push {stack : List Identity} {i : Identity}
    (hs : stack.Pairwise fun i j => i.same j = false) (hi : i.isOn stack = false) :
    (stack ++ [i]).Pairwise fun i j => i.same j = false := by
  refine List.pairwise_append.2 ⟨hs, List.pairwise_singleton .., fun j hj k hk => ?_⟩
  cases List.mem_singleton.1 hk
  refine Bool.eq_false_iff.2 fun h => ?_
  rw [Identity.isOn_iff.2 ⟨j, hj, Identity.same_symm h⟩] at hi
  cases hi

theorem proper_nil : l.Proper [] :=
  ⟨.nil, by simp⟩

theorem Proper.push {stack : List Identity} {p text : String} (h : l.Proper stack)
    (hs : (l.files.identity p).isOn stack = false) (hr : l.files.read p = .ok text) :
    l.Proper (stack ++ [l.files.identity p]) where
  distinct := distinct_push h.distinct hs
  readable i hi := by
    rcases List.mem_append.1 hi with hi | hi
    · exact h.readable i hi
    · cases List.mem_singleton.1 hi
      exact ⟨p, text, rfl, hr⟩

end

/-- Loads a document, and gives up with an error when documents are nested deeper than allowed or
the stack does not hold what it should. -/
def watched (l : Loader) (holds : List Identity → Bool) (e : LoadError) :
    Nat → List Identity → String → Build Value
  | 0, _, _ => throw e
  | depth + 1, stack, path =>
    let chain := stack ++ [l.files.identity path]
    if !holds stack then throw e
    else if (l.files.identity path).isOn stack then throw (.cycle (chain.map Identity.shown))
    else do
      let text ← liftM (l.files.read path)
      if !holds chain then throw e
      let tree ← liftM (l.tree text)
      Build.resolve l.config (l.watched holds e depth chain) none tree

def watchedLoad (l : Loader) (holds : List Identity → Bool) (e : LoadError) (depth : Nat) :
    Source → Build Value
  | .file path => l.watched holds e depth [] path
  | .text text => do
    Build.resolve l.config (l.watched holds e depth []) none (← liftM (l.tree text))

section

variable {l : Loader} {holds : List Identity → Bool} {e : LoadError}

/-- There is nothing to see as long as the depth allows for all documents that are left. -/
theorem watched_eq (hh : ∀ stack, l.Proper stack → holds stack = true) {depth : Nat}
    {stack : List Identity} (hs : l.Proper stack) (hd : (l.left stack).length < depth) :
    l.watched holds e depth stack = l.document stack := by
  induction depth generalizing stack with
  | zero => cases hd
  | succ depth ih =>
    funext p h
    rw [document_apply, watched, hh stack hs]
    simp only [Bool.not_true, Bool.false_eq_true, if_false]
    split
    · rfl
    next hoff =>
      simp only [Build.bind_apply, Build.liftM_apply, content]
      cases hr : l.files.read p with
      | error e => rfl
      | ok text =>
        have hpush := hs.push (Bool.eq_false_iff.2 hoff) hr
        have hleft := l.length_left_append_lt hoff hr
        simp only [Except.map, hh _ hpush]
        rw [ih hpush (by omega)]
        cases l.tree text <;> rfl

theorem watchedLoad_eq (hh : ∀ stack, l.Proper stack → holds stack = true) {depth : Nat}
    (hd : l.files.known.length < depth) (src : Source) :
    l.watchedLoad holds e depth src = l.load src := by
  have hleft : (l.left []).length ≤ l.files.known.length := List.length_filter_le ..
  have heq : l.watched holds e depth [] = l.document [] := watched_eq hh proper_nil (by omega)
  cases src with
  | file path => exact congrFun heq path
  | text text =>
    rw [watchedLoad, heq]
    rfl

end

/-- The way from an opened document to the first one that is on the stack. -/
inductive Closing (l : Loader) : List Identity → List String → Prop
  | here {stack : List Identity} {p : String} :
    (l.files.identity p).isOn stack = true → Closing l stack [p]
  | next {stack : List Identity} {p q : String} {rest : List String} :
    (l.files.identity p).isOn stack = false → l.Includes p q →
      Closing l (stack ++ [l.files.identity p]) (q :: rest) → Closing l stack (p :: q :: rest)

section

variable {l : Loader}

theorem Closing.isChain {stack : List Identity} {trail : List String}
    (h : Closing l stack trail) : trail.IsChain l.Includes := by
  induction h with
  | here _ => exact .singleton _
  | next _ hq _ ih => exact .cons_cons hq ih

/-- The last document closes the way, and none before it does. -/
theorem Closing.eq_append {stack : List Identity} {trail : List String}
    (h : Closing l stack trail) (hs : stack.Pairwise fun i j => i.same j = false) :
    ∃ init last, trail = init ++ [last] ∧
      (l.files.identity last).isOn (stack ++ init.map l.files.identity) = true ∧
      (stack ++ init.map l.files.identity).Pairwise fun i j => i.same j = false := by
  induction h with
  | @here stack p hp => exact ⟨[], p, rfl, by simpa using hp, by simpa using hs⟩
  | @next stack p q rest hp _ _ ih =>
    obtain ⟨init, last, he, hlast, hdistinct⟩ := ih (distinct_push hs hp)
    exact ⟨p :: init, last, by rw [he, List.cons_append], by simpa using hlast,
      by simpa using hdistinct⟩

/-- A reported cycle is the stack, and a way that closes on it. -/
theorem closing_of_cycle (hread : ∀ path chain, l.files.read path ≠ .error (.cycle chain))
    {stack : List Identity} {p : String} {h : Heap} {chain : List String}
    (he : l.document stack p h = .error (.cycle chain)) :
    ∃ rest, chain = (stack ++ (p :: rest).map l.files.identity).map Identity.shown ∧
      Closing l stack (p :: rest) := by
  induction stack, p using document_induction (l := l) generalizing h with
  | step stack p ih =>
    rcases document_eq_error.1 he with ⟨hon, he⟩ | ⟨hoff, he⟩
    · cases he
      exact ⟨[], rfl, .here hon⟩
    · rcases he with he | ⟨t, ht, he⟩
      · exact absurd he (content_ne_cycle hread)
      · rcases Build.blamed_of_resolve t he with he | ⟨q, hq, g, he⟩
        · exact absurd rfl (he chain)
        · obtain ⟨rest, hchain, hclosing⟩ := ih hoff t ht q he
          exact ⟨q :: rest, by simpa using hchain, .next hoff ⟨t, ht, hq⟩ hclosing⟩

theorem document_eq_cycle_of_load {src : Source} {h : Heap} {chain : List String}
    (he : l.load src h = .error (.cycle chain)) :
    ∃ p g, l.Enters src p ∧ l.document [] p g = .error (.cycle chain) := by
  cases src with
  | file path => exact ⟨path, h, rfl, he⟩
  | text text =>
    rcases Build.bind_eq_error.1 he with he | ⟨t, h', ht, he⟩
    · exact absurd (Build.liftM_eq_error.1 he) tree_ne_cycle
    · rcases Build.blamed_of_resolve t he with he | ⟨q, hq, g, he⟩
      · exact absurd rfl (he chain)
      · exact ⟨q, g, ⟨t, (Build.liftM_eq_ok.1 ht).1, hq⟩, he⟩

end

def ofCollection (patterns : Line.Patterns) (reader : Reader) (docs : Collection) : Loader where
  patterns
  files := docs.files
  reader

section

variable {docs : Collection}

theorem isSome_find?_of_read {path text : String} (hr : docs.read path = .ok text) :
    (docs.find? path).isSome := by
  rw [Collection.read] at hr
  split at hr
  next hf => rw [hf, Option.isSome_some]
  next => cases hr

theorem read_ne_cycle (path : String) (chain : List String) :
    docs.read path ≠ .error (.cycle chain) := by
  rw [Collection.read]
  split <;> intro he <;> cases he

/-- Of paths to different documents, one path names just one. -/
theorem countP_same_eq_one {paths : List String} {path : String}
    (hp : paths.Pairwise fun p q => Path.same p q = false)
    (hs : ∃ p ∈ paths, Path.same path p = true) : paths.countP (Path.same path) = 1 := by
  induction paths with
  | nil => simp at hs
  | cons p paths ih =>
    obtain ⟨hpq, hp⟩ := List.pairwise_cons.1 hp
    by_cases hsame : Path.same path p = true
    · have hrest : paths.countP (Path.same path) = 0 := by
        refine List.countP_eq_zero.2 fun q hq hsq => ?_
        simp only [Path.same, decide_eq_true_eq] at hsame hsq
        simpa [Path.same, ← hsame, ← hsq] using hpq q hq
      rw [List.countP_cons_of_pos hsame, hrest]
    · rw [List.countP_cons_of_neg hsame]
      obtain ⟨q, hq, hsq⟩ := hs
      rcases List.mem_cons.1 hq with rfl | hq
      · exact absurd hsq hsame
      · exact ih hp ⟨q, hq, hsq⟩

/-- A load comes to an end without nesting more documents than there are, and its stack has
registered documents only and none twice. If it succeeds, then all documents that it reaches are
registered and none leads back to itself. If it reports a cycle, then that is one. -/
theorem load_inclusions (patterns : Line.Patterns) (reader : Reader) (docs : Collection)
    (src : Source) (h : Heap) :
    (∀ holds e,
      (∀ stack, (ofCollection patterns reader docs).Proper stack → holds stack = true) →
      (ofCollection patterns reader docs).watchedLoad holds e (docs.length + 1) src h =
        (ofCollection patterns reader docs).load src h) ∧
    (∀ root h', (ofCollection patterns reader docs).load src h = .ok (root, h') →
      (∀ q, (ofCollection patterns reader docs).Reaches src q → (docs.find? q).isSome) ∧
      ∀ q q', (ofCollection patterns reader docs).Reaches src q →
        Relation.TransGen (ofCollection patterns reader docs).Includes q q' →
          Path.same q' q = false) ∧
    ∀ chain, (ofCollection patterns reader docs).load src h = .error (.cycle chain) →
      (∃ p ∈ chain.head?, (ofCollection patterns reader docs).Enters src p) ∧
      chain.IsChain (ofCollection patterns reader docs).Includes ∧
      ∃ init last, chain = init ++ [last] ∧
        init.Pairwise (fun p q => Path.same p q = false) ∧ init.countP (Path.same last) = 1 := by
  refine ⟨?_, ?_, ?_⟩
  · intro holds e hh
    have hdepth : (ofCollection patterns reader docs).files.known.length < docs.length + 1 := by
      simp [ofCollection, Collection.files]
    rw [watchedLoad_eq hh hdepth]
  · intro root h' hr
    constructor
    · intro q hq
      obtain ⟨stack, g, s, hs⟩ := ok_of_reaches hr hq
      obtain ⟨text, hread⟩ := exists_read_of_document hs
      exact isSome_find?_of_read hread
    · intro q q' hq hq'
      obtain ⟨stack, g, s, hs⟩ := ok_of_reaches hr hq
      exact same_eq_false_of_transGen hs hq'
  · intro chain he
    obtain ⟨p, g, hp, he⟩ := document_eq_cycle_of_load he
    obtain ⟨rest, hchain, hclosing⟩ := closing_of_cycle read_ne_cycle he
    -- the documents of a collection are shown by their paths
    have hshown : chain = p :: rest := by
      simpa [ofCollection, Collection.files, Identity.shown, Function.comp_def] using hchain
    subst hshown
    obtain ⟨init, last, heq, hlast, hdistinct⟩ := hclosing.eq_append .nil
    have hpairs : init.Pairwise fun p q => Path.same p q = false := List.pairwise_map.1 hdistinct
    obtain ⟨i, hi, hsame⟩ := Identity.isOn_iff.1 hlast
    obtain ⟨q, hq, rfl⟩ := List.mem_map.1 hi
    exact ⟨⟨p, rfl, hp⟩, hclosing.isChain, init, last, heq, hpairs,
      countP_same_eq_one hpairs ⟨q, hq, hsame⟩⟩

end

end Loader

end LiveDoc.Load
