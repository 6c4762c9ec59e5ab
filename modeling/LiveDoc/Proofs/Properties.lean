import LiveDoc.Proofs.Permanence

namespace LiveDoc

namespace Decimal

/-- The digits of a position below `2 ^ 64`, with or without zeros in front, after an optional
`+`. -/
inductive Spells : List Char → Nat → Prop
  | digits (hne : ds ≠ []) (hd : ∀ c ∈ ds, isDigit c = true) (hn : Nat.ofDigitChars 10 ds 0 = n)
    (hlt : n < Nat.pow 2 64) : Spells ds n
  | plus (hne : ds ≠ []) (hd : ∀ c ∈ ds, isDigit c = true) (hn : Nat.ofDigitChars 10 ds 0 = n)
    (hlt : n < Nat.pow 2 64) : Spells ('+' :: ds) n

theorem index?_eq_some_iff {cs : List Char} {n : Nat} : index? cs = some n ↔ Spells cs n := by
  have hread : index? cs = some n ↔ unsigned? 10 cs = some n ∧ n < Nat.pow 2 64 := by
    rw [index?]
    cases unsigned? 10 cs with
    | none => simp
    | some m =>
      simp only [Option.ite_none_right_eq_some, Option.some.injEq]
      constructor
      · rintro ⟨hlt, rfl⟩
        exact ⟨rfl, hlt⟩
      · rintro ⟨rfl, hlt⟩
        exact ⟨hlt, rfl⟩
  rw [hread]
  constructor
  · rintro ⟨hn, hlt⟩
    unfold unsigned? at hn
    split at hn
    · obtain ⟨hne, hd, hn⟩ := natural?_ten_eq_some_iff.1 hn
      exact .plus hne hd hn hlt
    · obtain ⟨hne, hd, hn⟩ := natural?_ten_eq_some_iff.1 hn
      exact .digits hne hd hn hlt
  · intro h
    cases h with
    | plus hne hd hn hlt => exact ⟨natural?_ten_eq_some_iff.2 ⟨hne, hd, hn⟩, hlt⟩
    | digits hne hd hn hlt =>
      refine ⟨?_, hlt⟩
      rw [unsigned?]
      · exact natural?_ten_eq_some_iff.2 ⟨hne, hd, hn⟩
      · rintro ds rfl
        exact absurd (hd _ (List.mem_cons_self ..)) (by decide)

end Decimal

namespace Container

def slot? : Container → String → Option Value
  | mapping entries, name => entries.get? name
  | sequence items, name => (Decimal.index? name.toList).bind (items[·]?)

/-- How an error names a slot: an element by its position, however that was written. -/
def label : Container → String → String
  | mapping _, name => name
  | sequence _, name => ((Decimal.index? name.toList).map toString).getD name

/-- What becomes of a container when a value goes into one of its slots. -/
inductive Takes (name : String) (v : Value) : Container → Container → Prop
  | entry {entries entries' : Entries} (hslot : entries'.get? name = some v)
    (hothers : ∀ other, other ≠ name → entries'.get? other = entries.get? other)
    (hkeys : entries'.keys =
      if name ∈ entries.keys then entries.keys else entries.keys ++ [name]) :
    Takes name v (.mapping entries) (.mapping entries')
  | element {items items' : Array Value} (hi : Decimal.Spells name.toList i)
    (hslot : items'[i]? = some v)
    (hothers : ∀ j, j < items.size → j ≠ i → items'[j]? = items[j]?)
    (hgap : ∀ j, items.size ≤ j → j < i → items'[j]? = some .undefined)
    (hsize : items'.size = max items.size (i + 1)) :
    Takes name v (.sequence items) (.sequence items')

/-- Why a sequence does not take a value that goes to no accessor. -/
inductive Refuses (name : String) : Container → Script.RuntimeError → Prop
  | noPosition {items : Array Value} (h : ∀ i, ¬ Decimal.Spells name.toList i) :
    Refuses name (.sequence items) (.invalidPropertyWrite name "object")
  | tooFar {items : Array Value} (hi : Decimal.Spells name.toList i)
    (hfar : items.size + Script.maxGap < i) :
    Refuses name (.sequence items) (.indexTooLarge i items.size)

theorem Takes.put (entries : Entries) (name : String) (v : Value) :
    Takes name v (.mapping entries) (.mapping (entries.put name v)) :=
  .entry (Slots.get?_put_self entries name v) (fun _ hne => Slots.get?_put_of_ne entries v hne)
    (Slots.keys_put entries name v)

theorem Takes.writeAt (items : Array Value) {name : String} {i : Nat}
    (hi : Decimal.Spells name.toList i) (v : Value) :
    Takes name v (.sequence items) (.sequence (Script.HeapRun.writeAt items i v)) :=
  .element hi (getElem?_writeAt_self items i v) (fun _ => getElem?_writeAt_of_ne v)
    (fun _ => getElem?_writeAt_of_gap v) (size_writeAt items i v)

theorem Takes.slot?_eq {name : String} {v : Value} {c c' : Container} (h : c.Takes name v c') :
    c'.slot? name = some v := by
  cases h with
  | entry hslot _ _ => exact hslot
  | element hi hslot _ _ _ => rw [slot?, Decimal.index?_eq_some_iff.2 hi, Option.bind_some, hslot]

theorem not_spells_length (i : Nat) : ¬ Decimal.Spells "length".toList i := by
  intro h
  have hnone : Decimal.index? "length".toList = none := by decide
  cases hnone.symm.trans (Decimal.index?_eq_some_iff.2 h)

end Container

namespace Script.HeapRun

variable {call : Call} {depth : Nat} {held : List Ref} {h : Heap} {r : Ref} {c : Container} {name : String}
  {v : Value}

theorem getProperty_of_slot? (hget : h.get? r = some c) (hslot : c.slot? name = some v) :
    getProperty call depth held (.container r) name h =
      readSlot call depth (hold held (.container r)) (some v) h := by
  cases c with
  | mapping entries =>
    rw [Container.slot?] at hslot
    simp only [getProperty, run_get_bind, hget, hslot]
  | sequence items =>
    obtain ⟨i, hi, hitem⟩ := Option.bind_eq_some_iff.1 hslot
    -- the name of the size is no position
    have hname : name ≠ "length" := by
      rintro rfl
      exact Container.not_spells_length i (Decimal.index?_eq_some_iff.1 hi)
    simp only [getProperty, run_get_bind, hget, getElement, if_neg hname, hi, hitem]

theorem readSlot_of_ne (hv : ∀ a, v ≠ .accessor a) :
    readSlot call depth held (some v) h = (.ok v, h) := by
  cases v with
  | accessor a => exact absurd rfl (hv a)
  | _ => rfl

theorem getProperty_of_getter_none {a : Accessor} (hget : h.get? r = some c)
    (hslot : c.slot? name = some (.accessor a)) (ha : a.getter = none) :
    getProperty call depth held (.container r) name h = (.ok .undefined, h) := by
  rw [getProperty_of_slot? hget hslot]
  cases a with
  | mk getter setter =>
    cases ha
    rfl

theorem setEntry_of_ne {entries : Entries}
    (hslot : ∀ a, entries.get? name ≠ some (.accessor a)) :
    setEntry call depth held r entries name v = modify (·.set r (.mapping (entries.put name v))) := by
  rw [setEntry]
  split
  next a ha => exact absurd ha (hslot a)
  · rfl

theorem setElement_of_ne {items : Array Value} {i : Nat}
    (hslot : ∀ a, items[i]? ≠ some (.accessor a)) :
    setElement call depth held r items i v =
      if items.size + maxGap < i then fail (.indexTooLarge i items.size)
      else modify (·.set r (.sequence (writeAt items i v))) := by
  rw [setElement]
  split
  next a ha => exact absurd ha (hslot a)
  · rfl

theorem setProperty_of_setter_none {a : Accessor} (hget : h.get? r = some c)
    (hslot : c.slot? name = some (.accessor a)) (ha : a.setter = none) :
    setProperty call depth held (.container r) name v h =
      (.error (.error (.readOnly (c.label name))), h) := by
  cases c with
  | mapping entries =>
    rw [Container.slot?] at hslot
    simp only [setProperty, run_get_bind, hget, setEntry, hslot, writeAccessor, ha]
    rfl
  | sequence items =>
    obtain ⟨i, hi, hitem⟩ := Option.bind_eq_some_iff.1 hslot
    simp only [setProperty, run_get_bind, hget, hi, setElement, hitem, writeAccessor, ha,
      Container.label]
    rfl

theorem setProperty_of_refuses {e : RuntimeError} (hget : h.get? r = some c)
    (he : c.Refuses name e) :
    setProperty call depth held (.container r) name v h = (.error (.error e), h) := by
  cases he with
  | noPosition hno =>
    have hi : Decimal.index? name.toList = none :=
      Option.eq_none_iff_forall_ne_some.2 fun i hi => hno i (Decimal.index?_eq_some_iff.1 hi)
    simp only [setProperty, run_get_bind, hget, hi]
    rfl
  | @tooFar i items hi hfar =>
    have hslot : ∀ a, items[i]? ≠ some (.accessor a) := by
      intro a ha
      rw [Array.getElem?_eq_none (by omega)] at ha
      cases ha
    simp only [setProperty, run_get_bind, hget, Decimal.index?_eq_some_iff.2 hi,
      setElement_of_ne hslot, if_pos hfar]
    rfl

/-- A value that goes to no accessor is taken or refused. -/
theorem setProperty_takes_or_refuses (hget : h.get? r = some c)
    (hslot : ∀ a, c.slot? name ≠ some (.accessor a)) :
    (∃ c', setProperty call depth held (.container r) name v h = (.ok (), h.set r c') ∧
      c.Takes name v c') ∨ ∃ e, c.Refuses name e := by
  cases c with
  | mapping entries =>
    refine .inl ⟨_, ?_, .put entries name v⟩
    simp only [setProperty, run_get_bind, hget, setEntry_of_ne hslot]
    rfl
  | sequence items =>
    by_cases hspells : ∃ i, Decimal.Spells name.toList i
    · obtain ⟨i, hi⟩ := hspells
      by_cases hfar : items.size + maxGap < i
      · exact .inr ⟨_, .tooFar hi hfar⟩
      · have hindex := Decimal.index?_eq_some_iff.2 hi
        simp only [Container.slot?, hindex, Option.bind_some] at hslot
        refine .inl ⟨_, ?_, .writeAt items hi v⟩
        simp only [setProperty, run_get_bind, hget, hindex, setElement_of_ne hslot, if_neg hfar]
        rfl
    · exact .inr ⟨_, .noPosition (not_exists.1 hspells)⟩

theorem takes_of_setProperty {h' : Heap} (hget : h.get? r = some c)
    (hslot : ∀ a, c.slot? name ≠ some (.accessor a))
    (hok : setProperty call depth held (.container r) name v h = (.ok (), h')) :
    ∃ c', h' = h.set r c' ∧ c.Takes name v c' := by
  rcases setProperty_takes_or_refuses hget hslot with ⟨c', htaken, ht⟩ | ⟨e, he⟩
  · cases hok.symm.trans htaken
    exact ⟨c', rfl, ht⟩
  · cases hok.symm.trans (setProperty_of_refuses hget he)

theorem setProperty_eq_error_iff {e : Interrupt} {h' : Heap} (hget : h.get? r = some c)
    (hslot : ∀ a, c.slot? name ≠ some (.accessor a)) :
    setProperty call depth held (.container r) name v h = (.error e, h') ↔
      h' = h ∧ ∃ reason, c.Refuses name reason ∧ e = .error reason := by
  constructor
  · intro herror
    rcases setProperty_takes_or_refuses hget hslot with ⟨c', htaken, -⟩ | ⟨reason, he⟩
    · cases herror.symm.trans htaken
    · cases herror.symm.trans (setProperty_of_refuses hget he)
      exact ⟨rfl, reason, he, rfl⟩
  · rintro ⟨rfl, reason, he, rfl⟩
    exact setProperty_of_refuses hget he

/-- A value that goes to no accessor is read from its slot if the write succeeds, and of the heap
only that slot has changed, and what has to come in front of it. The write fails if and only if the
container refuses the value, and then nothing has changed. An accessor without a setter refuses
every value, and one without a getter reads as undefined. -/
theorem property_after_write (hget : h.get? r = some c) (hv : ∀ a, v ≠ .accessor a)
    (name : String) (call reader : Call) (depth readerDepth : Nat) (held readerHeld : List Ref) :
    ((∀ a, c.slot? name ≠ some (.accessor a)) →
      (∀ h', setProperty call depth held (.container r) name v h = (.ok (), h') →
        getProperty reader readerDepth readerHeld (.container r) name h' = (.ok v, h') ∧
          (∃ c', h'.get? r = some c' ∧ c.Takes name v c') ∧
          ∀ q, q ≠ r → h'.get? q = h.get? q) ∧
      ∀ e h', setProperty call depth held (.container r) name v h = (.error e, h') ↔
        h' = h ∧ ∃ reason, c.Refuses name reason ∧ e = .error reason) ∧
    ∀ a, c.slot? name = some (.accessor a) →
      (a.setter = none → setProperty call depth held (.container r) name v h =
        (.error (.error (.readOnly (c.label name))), h)) ∧
      (a.getter = none →
        getProperty reader readerDepth readerHeld (.container r) name h = (.ok .undefined, h)) := by
  constructor
  · intro hslot
    refine ⟨fun h' hok => ?_, fun e h' => setProperty_eq_error_iff hget hslot⟩
    obtain ⟨c', rfl, ht⟩ := takes_of_setProperty hget hslot hok
    have hget' : (h.set r c').get? r = some c' :=
      Heap.get?_set_self h r c' (Heap.index_lt_of_get? hget)
    refine ⟨?_, ⟨c', hget', ht⟩, fun q hne => Heap.get?_set_of_ne h c' hne⟩
    rw [getProperty_of_slot? hget' ht.slot?_eq, readSlot_of_ne hv]
  · intro a ha
    exact ⟨setProperty_of_setter_none hget ha, getProperty_of_getter_none hget ha⟩

def sampleHeap : Heap :=
  { containers := #[.sequence #[.null], .mapping [("a", .null), ("b", .accessor {})]] }

/-- A write behind the end of the sequence, one too far behind it, and one to the accessor. -/
theorem property_after_write_samples :
    (∃ after, setProperty (hostCall 0) 0 [] (.container ⟨0⟩) "+03" (.bool true) sampleHeap =
        (.ok (), after) ∧
      getProperty (hostCall 0) 0 [] (.container ⟨0⟩) "+03" after = (.ok (.bool true), after) ∧
      after.get? ⟨0⟩ = some (.sequence #[.null, .undefined, .undefined, .bool true]) ∧
      after.get? ⟨1⟩ = sampleHeap.get? ⟨1⟩) ∧
    setProperty (hostCall 0) 0 [] (.container ⟨0⟩) "1026" .null sampleHeap =
      (.error (.error (.indexTooLarge 1026 1)), sampleHeap) ∧
    setProperty (hostCall 0) 0 [] (.container ⟨1⟩) "b" .null sampleHeap =
      (.error (.error (.readOnly "b")), sampleHeap) ∧
    getProperty (hostCall 0) 0 [] (.container ⟨1⟩) "b" sampleHeap = (.ok .undefined, sampleHeap) := by
  have hsequence : sampleHeap.get? ⟨0⟩ = some (.sequence #[.null]) := rfl
  have hmapping : sampleHeap.get? ⟨1⟩ =
    some (.mapping [("a", .null), ("b", .accessor {})]) := rfl
  have hnear := property_after_write hsequence (v := .bool true) nofun "+03"
    (hostCall 0) (hostCall 0) 0 0 [] []
  have hfar := property_after_write hsequence (v := .null) nofun "1026"
    (hostCall 0) (hostCall 0) 0 0 [] []
  have haccessor := property_after_write hmapping (v := .null) nofun "b"
    (hostCall 0) (hostCall 0) 0 0 [] []
  have hread := (hnear.1 nofun).1 _ rfl
  obtain ⟨hset, hget⟩ := haccessor.2 {} rfl
  refine ⟨⟨_, rfl, hread.1, rfl, hread.2.2 ⟨1⟩ nofun⟩, ?_, hset rfl, hget rfl⟩
  apply ((hfar.1 nofun).2 _ _).2
  exact ⟨rfl, _, .tooFar (Decimal.index?_eq_some_iff.1 (by decide)) (by decide), rfl⟩

end Script.HeapRun

end LiveDoc
