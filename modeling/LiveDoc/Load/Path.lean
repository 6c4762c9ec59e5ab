import LiveDoc.Text.Trim

namespace LiveDoc.Load

namespace Path

def isName (piece : List Char) : Bool :=
  piece ≠ [] && piece ≠ ['.']

/-- The names on a path. Of the dots that mean the same directory only a leading one counts; an
empty name in front stands for the root. -/
def names (path : String) : List (List Char) :=
  match Text.splitOn '/' path.toList with
  | ['.'] :: rest => ['.'] :: rest.filter isName
  | [] :: next :: rest => [] :: (next :: rest).filter isName
  | pieces => pieces.filter isName

def same (a b : String) : Bool := names a = names b

end Path

/-- A document is known by its place, or by its path if it has none. -/
inductive Identity where
  | place (names : List String)
  | spelled (path : String)
  deriving DecidableEq, Repr

namespace Identity

def same : Identity → Identity → Bool
  | .place a, .place b => a = b
  | .spelled a, .spelled b => Path.same a b
  | _, _ => false

def shown : Identity → String
  | .place names => "/".intercalate names
  | .spelled path => path

theorem same_refl (i : Identity) : i.same i = true := by
  cases i <;> simp [same, Path.same]

theorem same_symm {i j : Identity} (h : i.same j = true) : j.same i = true := by
  cases i <;> cases j <;> simp_all [same, Path.same]

theorem same_trans {i j k : Identity} (h : i.same j = true) (h' : j.same k = true) :
    i.same k = true := by
  cases i <;> cases j <;> cases k <;> simp_all [same, Path.same]

def isOn (i : Identity) (stack : List Identity) : Bool :=
  stack.any i.same

theorem isOn_iff {i : Identity} {stack : List Identity} :
    i.isOn stack = true ↔ ∃ j ∈ stack, i.same j = true :=
  List.any_eq_true

theorem isOn_of_same {i j : Identity} {stack : List Identity} (h : i.same j = true)
    (hj : j.isOn stack = true) : i.isOn stack = true := by
  obtain ⟨k, hk, hjk⟩ := isOn_iff.1 hj
  exact isOn_iff.2 ⟨k, hk, same_trans h hjk⟩

theorem isOn_append {i : Identity} {stack rest : List Identity} :
    i.isOn (stack ++ rest) = (i.isOn stack || i.isOn rest) :=
  List.any_append

end Identity

end LiveDoc.Load
