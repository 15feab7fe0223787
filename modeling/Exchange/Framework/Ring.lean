import Mathlib.Data.List.Basic
import Mathlib.Data.Nat.ModEq

/-!
# Rings

A ring of size `n` is a memory whose place `o % n` has element `o` of a stream, as long
as it is among the last `n`. `Holds.append` is writing the next elements of the stream,
`Holds.read` reading some that do not wrap.
-/

namespace Ring

variable {α : Type*} {n : ℕ} {f f' : ℕ → α} {s d : List α}

/-- Memory `f` has the last `n` elements of the stream `s`. -/
def Holds (n : ℕ) (f : ℕ → α) (s : List α) : Prop :=
  ∀ o (h : o < s.length), s.length ≤ o + n → f (o % n) = s[o]

theorem holds_nil (n : ℕ) (f : ℕ → α) : Holds n f [] := fun _ h => by cases h

/-- Two offsets less than a turn apart have different places. -/
theorem mod_ne {o p : ℕ} (h : o < p) (hn : p < o + n) : o % n ≠ p % n := fun e => by
  have hdvd : n ∣ p - o := (Nat.modEq_iff_dvd' (Nat.le_of_lt h)).mp e
  have := Nat.le_of_dvd (by omega) hdvd
  omega

theorem mod_eq_iff {o p : ℕ} (h : o ≤ p) (hn : p < o + n) : o % n = p % n ↔ o = p := by
  refine ⟨fun e => ?_, fun e => by rw [e]⟩
  by_contra hne
  exact mod_ne (by omega) hn e

/-- The next offset has the place of `o` if it is a turn later. -/
theorem succ_mod_eq_iff {o p : ℕ} (h : o ≤ p) (hn : p < o + n) : (p + 1) % n = o % n ↔ p + 1 = o + n := by
  refine ⟨fun e => ?_, fun e => by rw [e, Nat.add_mod_right]⟩
  by_contra hne
  exact mod_ne (by omega) (by omega) e.symm

/-- The place `k` after that of offset `o`, before the ring wraps. -/
theorem mod_add_of_lt {o k : ℕ} (h : o % n + k < n) : (o + k) % n = o % n + k := by
  rw [← Nat.mod_add_mod, Nat.mod_eq_of_lt h]

/-- And after it wraps. -/
theorem mod_add_of_le {o k : ℕ} (h : n ≤ o % n + k) (hk : k ≤ n) (hn : 0 < n) : (o + k) % n = o % n + k - n := by
  have := Nat.mod_lt o hn
  rw [← Nat.mod_add_mod, Nat.mod_eq_sub_mod h, Nat.mod_eq_of_lt (by omega)]

/-- Writing the next elements of the stream. -/
theorem Holds.append (h : Holds n f s)
    (hw : ∀ k (hk : k < d.length), f' ((s.length + k) % n) = d[k])
    (hrest : ∀ j < n, (∀ k < d.length, j ≠ (s.length + k) % n) → f' j = f j) : Holds n f' (s ++ d) := by
  intro o ho hle
  rw [List.length_append] at ho hle
  by_cases hs : o < s.length
  · have hn : 0 < n := by omega
    rw [List.getElem_append_left hs, ← h o hs (by omega)]
    refine hrest _ (Nat.mod_lt _ hn) fun k hk => mod_ne (by omega) (by omega)
  · obtain ⟨k, rfl⟩ := Nat.exists_eq_add_of_le (Nat.le_of_not_lt hs)
    rw [hw k (by omega), List.getElem_append_right (by omega)]
    simp only [Nat.add_sub_cancel_left]

/-- Reading `len` elements from offset `o` on, if they do not wrap. -/
theorem Holds.read (h : Holds n f s) {o len : ℕ} (hle : s.length ≤ o + n) (hlen : o + len ≤ s.length)
    (hwrap : o % n + len ≤ n) : (List.range len).map (fun k => f (o % n + k)) = (s.drop o).take len := by
  refine List.ext_getElem ?_ fun k hk hk' => ?_
  · rw [List.length_map, List.length_range, List.length_take, List.length_drop]
    omega
  · rw [List.length_map, List.length_range] at hk
    rw [List.getElem_map, List.getElem_range, ← mod_add_of_lt (by omega), List.getElem_take, List.getElem_drop]
    exact h (o + k) (by omega) (by omega)

end Ring
