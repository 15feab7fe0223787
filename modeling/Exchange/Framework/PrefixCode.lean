import Mathlib.Data.List.Infix

/-!
# Prefix codes

Words of which none is the beginning of another: a concatenation of such words can be
cut in one way only (`PrefixFree.isPrefix_of_flatten`).
-/

variable {α : Type*}

/-- At most one word begins any list. -/
def PrefixFree (IsWord : List α → Prop) : Prop :=
  ∀ f g x, IsWord f → IsWord g → f <+: x → g <+: x → f = g

/-- Words that begin a concatenation of words are the first of them. -/
theorem PrefixFree.isPrefix_of_flatten {IsWord : List α → Prop} (hfree : PrefixFree IsWord) {fs gs : List (List α)}
    (hf : ∀ f ∈ fs, IsWord f ∧ f ≠ []) (hg : ∀ g ∈ gs, IsWord g) (h : fs.flatten <+: gs.flatten) : fs <+: gs := by
  induction fs generalizing gs with
  | nil => exact List.nil_prefix
  | cons f fs ih =>
    obtain ⟨hword, hne⟩ := hf f List.mem_cons_self
    have hfx : f <+: gs.flatten := (List.prefix_append f fs.flatten).trans (List.flatten_cons ▸ h)
    cases gs with
    | nil => exact absurd (List.prefix_nil.mp hfx) hne
    | cons g gs =>
      rw [List.flatten_cons] at hfx
      obtain rfl : f = g := hfree f g _ hword (hg g List.mem_cons_self) hfx (List.prefix_append g gs.flatten)
      rw [List.flatten_cons, List.flatten_cons, List.prefix_append_right_inj] at h
      exact (List.prefix_cons_inj f).mpr (ih (fun f' hf' => hf f' (List.mem_cons_of_mem f hf'))
        (fun g' hg' => hg g' (List.mem_cons_of_mem f hg')) h)
