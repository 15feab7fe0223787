import Mathlib.Data.List.AList

/-!
# Tables

A hash map of the source is an `AList`: a list of entries with distinct keys. The
operations of the C++ containers that `AList` has no name for, and the size of a
table.
-/

namespace AList

variable {α : Type*} {β : α → Type*}

/-- `size()`. -/
def size (m : AList β) : ℕ := m.entries.length

@[simp] theorem size_empty : (∅ : AList β).size = 0 := rfl

theorem size_eq_length_keys (m : AList β) : m.size = m.keys.length := by
  simp [size, keys, List.keys]

theorem size_eq_of_mem_iff {γ : α → Type*} {m : AList β} {m' : AList γ} (h : ∀ a, a ∈ m ↔ a ∈ m') :
    m.size = m'.size := by
  have hp : m.keys.Perm m'.keys :=
    (List.perm_ext_iff_of_nodup m.nodupKeys m'.nodupKeys).mpr fun a => h a
  rw [size_eq_length_keys, size_eq_length_keys, hp.length_eq]

variable [DecidableEq α]

/-- `emplace`: inserts unless the key is there already. -/
def emplace (m : AList β) (a : α) (b : β a) : AList β := if a ∈ m then m else m.insert a b

theorem emplace_of_notMem {m : AList β} {a : α} {b : β a} (h : a ∉ m) : m.emplace a b = m.insert a b := by
  simp [emplace, h]

theorem size_insert_of_notMem {m : AList β} {a : α} {b : β a} (h : a ∉ m) :
    (m.insert a b).size = m.size + 1 := by
  rw [size, entries_insert_of_notMem h, List.length_cons, size]

theorem size_erase_of_mem {m : AList β} {a : α} (h : a ∈ m) : (m.erase a).size + 1 = m.size := by
  have hk : a ∈ m.keys := mem_keys.mp h
  have := List.length_pos_of_mem hk
  rw [size_eq_length_keys, size_eq_length_keys, keys_erase, List.length_erase_of_mem hk]
  omega

theorem mem_of_lookup {m : AList β} {a : α} {b : β a} (h : m.lookup a = some b) : a ∈ m :=
  lookup_isSome.mp (by rw [h]; rfl)

theorem exists_lookup_of_mem {m : AList β} {a : α} (h : a ∈ m) : ∃ b, m.lookup a = some b :=
  Option.isSome_iff_exists.mp (lookup_isSome.mpr h)

end AList
