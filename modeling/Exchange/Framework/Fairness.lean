import Mathlib.Order.WellFounded

/-!
# Fair schedules

Threads take turns in any order that lets each of them run again and again. A rank that no
step increases, and that an enabled thread's step decreases, falls until no thread is
enabled, if a step that does not decrease it leaves the enabled threads enabled: the thread
that is enabled when the rank stops falling has its turn one day.
-/

namespace Fairness

variable {σ τ α : Type*} [Preorder α]

/-- Every thread runs again and again. -/
def Fair (schedule : ℕ → τ) : Prop := ∀ t n, ∃ m, n ≤ m ∧ schedule m = t

/-- What makes a fair run come to an end: `rank` and the threads that can bring it down, as
long as `ok` holds. -/
structure Ranked (step : τ → σ → Option σ) (ok : σ → Prop) (rank : σ → α) (enabled : τ → σ → Prop) : Prop where
  moves : ∀ {t s s'}, ok s → step t s = some s' →
    rank s' < rank s ∨ ¬ enabled t s ∧ rank s' = rank s ∧ ∀ u, enabled u s → enabled u s'

variable {step : τ → σ → Option σ} {ok : σ → Prop} {rank : σ → α} {enabled : τ → σ → Prop} {schedule : ℕ → τ}
  {run : ℕ → σ}

/-- An enabled thread that runs `d` steps later does so with a rank that has fallen, or makes
it fall. -/
theorem Ranked.falls (h : Ranked step ok rank enabled) (hok : ∀ n, ok (run n))
    (hrun : ∀ n, step (schedule n) (run n) = some (run (n + 1))) {t : τ} {n d : ℕ} (he : enabled t (run n))
    (ht : schedule (n + d) = t) : ∃ m, n ≤ m ∧ rank (run m) < rank (run n) := by
  induction d generalizing n with
  | zero =>
    rcases h.moves (hok n) (hrun n) with hlt | ⟨hne, -⟩
    · exact ⟨n + 1, Nat.le_succ n, hlt⟩
    · exact absurd (ht.symm ▸ he) hne
  | succ d ih =>
    rcases h.moves (hok n) (hrun n) with hlt | ⟨-, hrank, hkeep⟩
    · exact ⟨n + 1, Nat.le_succ n, hlt⟩
    · obtain ⟨m, hm, hlt⟩ := ih (hkeep t he) (by rwa [Nat.add_right_comm])
      exact ⟨m, Nat.le_of_succ_le hm, hrank ▸ hlt⟩

/-- A fair run comes to a state where no thread is enabled. -/
theorem Ranked.ends [WellFoundedLT α] (h : Ranked step ok rank enabled) (hfair : Fair schedule)
    (hok : ∀ n, ok (run n)) (hrun : ∀ n, step (schedule n) (run n) = some (run (n + 1))) :
    ∃ n, ∀ t, ¬ enabled t (run n) := by
  suffices hs : ∀ a n, rank (run n) = a → ∃ m, ∀ t, ¬ enabled t (run m) from hs _ 0 rfl
  intro a
  induction a using WellFoundedLT.induction with
  | ind a ih =>
    rintro n rfl
    by_cases hn : ∃ t, enabled t (run n)
    · obtain ⟨t, he⟩ := hn
      obtain ⟨m, hm, ht⟩ := hfair t n
      obtain ⟨d, rfl⟩ := Nat.exists_eq_add_of_le hm
      obtain ⟨k, -, hlt⟩ := h.falls hok hrun he ht
      exact ih _ hlt k rfl
    · exact ⟨n, not_exists.mp hn⟩

end Fairness
