import Mathlib.Data.List.Pairwise

/-!
# Records and their fields

A record read and written through a list of fields, each with a `get` and a `set`. That
writing a field changes that one and no other is a fact about each pair of fields;
`Writes` says it once for each field, of the list of all values, and `pairwise_apart`
takes the pairs out of it.
-/

namespace Record

variable {ι M β : Type*} (get : ι → M → β) (set : ι → M → β → M)

/-- Writing one field leaves the other as it is. -/
def Apart (f g : ι) : Prop := (∀ m b, get f (set g m b) = get f m) ∧ ∀ m b, get g (set f m b) = get g m

/-- Writing a field of `l`, which comes after `i` others in `all`, changes the value of that
field. -/
def Writes (all : List ι) : ℕ → List ι → Prop
  | _, [] => True
  | i, f :: l =>
    (∀ m b, all.map (get · (set f m b)) = (all.map (get · m)).set i (get f (set f m b))) ∧ Writes all (i + 1) l

variable {get set} {all : List ι}

theorem Apart.symm {f g : ι} (h : Apart get set f g) : Apart get set g f := ⟨h.2, h.1⟩

theorem Writes.of_getElem? {l : List ι} {i k : ℕ} (h : Writes get set all i l) {f : ι} (hf : l[k]? = some f)
    (m : M) (b : β) : all.map (get · (set f m b)) = (all.map (get · m)).set (i + k) (get f (set f m b)) := by
  induction l generalizing i k with
  | nil => cases hf
  | cons g l ih =>
    cases k with
    | zero =>
      cases Option.some.inj hf
      exact h.1 m b
    | succ k =>
      rw [Nat.add_comm k 1, ← Nat.add_assoc]
      exact ih h.2 hf

/-- A field keeps its value when another is written. -/
theorem Writes.get_set_of_ne (h : Writes get set all 0 all) {j k : ℕ} {f g : ι} (hf : all[j]? = some f)
    (hg : all[k]? = some g) (hne : j ≠ k) (m : M) (b : β) : get g (set f m b) = get g m := by
  have hk := congrArg (·[k]?) (h.of_getElem? hf m b)
  simp only [List.getElem?_map, hg, List.getElem?_set_ne (show 0 + j ≠ k by omega), Option.map_some,
    Option.some.injEq] at hk
  exact hk

theorem Writes.pairwise_apart (h : Writes get set all 0 all) : all.Pairwise (Apart get set) := by
  refine List.pairwise_iff_getElem.mpr fun i j hi hj hlt => ⟨fun m b => ?_, fun m b => ?_⟩
  · exact h.get_set_of_ne (List.getElem?_eq_getElem hj) (List.getElem?_eq_getElem hi) (by omega) m b
  · exact h.get_set_of_ne (List.getElem?_eq_getElem hi) (List.getElem?_eq_getElem hj) (by omega) m b

end Record
