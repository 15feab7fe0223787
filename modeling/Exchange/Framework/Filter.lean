import Mathlib.Data.List.Basic
import Mathlib.Data.List.Forall2

/-!
# Lists that are rewritten, related and extended

A list rewritten element by element (`filterMap`) keeps what a test selects, if the
test cannot tell an element from what it becomes. Where two lists are related element by
element, what is left of the one is related to what is left of the other; such relations
compose, and one element can be replaced by a related one. For a list that only grows,
`map_drop_left` is what was appended, and `forall_split_concat` what holds of each element
and those before it. A list sorted by key is its elements key by key
(`flatMap_filter_of_sorted`).
-/

namespace List

variable {α β γ : Type*}

theorem filter_filterMap_comm {l : List α} {f : α → Option α} {p : α → Bool}
    (h : ∀ a ∈ l, ∀ b, f a = some b → p b = p a) : (l.filterMap f).filter p = (l.filter p).filterMap f := by
  rw [filter_filterMap, filterMap_filter]
  refine filterMap_congr fun a ha => ?_
  cases e : f a with
  | none => simp
  | some b => by_cases hp : p a = true <;> simp [Option.filter, h a ha b e, hp]

theorem Forall₂.sublist_left {R : α → β → Prop} {l l' : List α} {m : List β} (h : Forall₂ R l m) (hs : l' <+ l) :
    SublistForall₂ R l' m := by
  induction hs generalizing m with
  | slnil => exact .nil
  | cons a _ ih =>
    cases h with
    | cons _ h => exact .cons_right (ih h)
  | cons_cons a _ ih =>
    cases h with
    | cons hr h => exact .cons hr (ih h)

theorem Forall₂.comp {R : α → β → Prop} {S : β → γ → Prop} {T : α → γ → Prop} {l : List α} {m : List β} {n : List γ}
    (h : Forall₂ R l m) (hRS : ∀ a b c, R a b → S b c → T a c) (h' : Forall₂ S m n) : Forall₂ T l n := by
  induction h generalizing n with
  | nil =>
    cases h'
    exact .nil
  | cons hab _ ih =>
    cases h' with
    | cons hbc h' => exact .cons (hRS _ _ _ hab hbc) (ih h')

theorem forall₂_set {R : α → α → Prop} (hR : ∀ a, R a a) {l : List α} {i : ℕ} {a b : α} (ha : l[i]? = some a)
    (hab : R a b) : Forall₂ R l (l.set i b) := by
  induction l generalizing i with
  | nil => cases ha
  | cons x l ih =>
    cases i with
    | zero =>
      cases ha
      exact .cons hab (forall₂_same.mpr fun y _ => hR y)
    | succ i => exact .cons (hR x) (ih ha)

theorem map_drop_left {f : α → β} {l l' : List α} {m : List β} (h : l'.map f = l.map f ++ m) :
    (l'.drop l.length).map f = m := by
  rw [map_drop, h, drop_left' (length_map _)]

theorem forall_split_concat {P : List α → α → Prop} {l : List α} {x : α}
    (h : ∀ pre y post, l = pre ++ y :: post → P pre y) (hx : P l x) :
    ∀ pre y post, l ++ [x] = pre ++ y :: post → P pre y := by
  intro pre y post e
  rcases eq_nil_or_concat' post with rfl | ⟨post, z, rfl⟩
  · obtain ⟨rfl, hlast⟩ := append_inj' e rfl
    obtain rfl := singleton_inj.mp hlast
    exact hx
  · rw [← cons_append, ← append_assoc] at e
    exact h pre y post (append_inj' e rfl).1

/-- What passes a test is in front, if nothing that fails it is before something that passes. -/
theorem filter_append_filter_not {p : α → Bool} {l : List α} (h : l.Pairwise fun a b => p b = true → p a = true) :
    l.filter p ++ l.filter (fun a => !p a) = l := by
  induction h with
  | nil => rfl
  | @cons a l ha _ ih =>
    by_cases hp : p a = true
    · rw [filter_cons_of_pos hp, filter_cons_of_neg (by simp [hp]), cons_append, ih]
    · have hl : ∀ b ∈ l, ¬ p b = true := fun b hb hb' => hp (ha b hb hb')
      rw [filter_cons_of_neg hp, filter_cons_of_pos (by simp [hp]), filter_eq_nil_iff.mpr hl,
        filter_eq_self.mpr fun b hb => by simpa using hl b hb, nil_append]

/-- A list whose keys come in the order of `ks` is its elements of the first key, then those of
the second, and so on. -/
theorem flatMap_filter_of_sorted [DecidableEq β] {key : α → β} {r : β → β → Prop} {ks : List β} {l : List α}
    (hr : ∀ k, ¬ r k k) (hks : ks.Pairwise r) (hl : l.Pairwise fun a b => ¬ r (key b) (key a))
    (hmem : ∀ a ∈ l, key a ∈ ks) : ks.flatMap (fun k => l.filter (key · == k)) = l := by
  induction hks generalizing l with
  | nil => exact (eq_nil_iff_forall_not_mem.mpr fun a ha => not_mem_nil (hmem a ha)).symm
  | @cons k ks hk _ ih =>
    have hfront : l.Pairwise fun a b => (key b == k) = true → (key a == k) = true := by
      refine (Pairwise.and_mem.mp hl).imp fun {a b} ⟨ha, _, hab⟩ hb => ?_
      rw [beq_iff_eq] at hb ⊢
      rcases mem_cons.mp (hmem a ha) with e | hm
      · exact e
      · exact absurd (hb ▸ hk _ hm) hab
    have hrest : ks.flatMap (fun k' => l.filter (key · == k')) = l.filter (fun a => !(key a == k)) := by
      rw [← ih (hl.filter _) fun a ha => ?_]
      · refine flatMap_congr fun k' hk' => ?_
        rw [filter_filter]
        refine filter_congr fun a _ => ?_
        by_cases e : key a = k'
        · have hne : k' ≠ k := fun e' => hr k (e' ▸ hk k' hk')
          simp [e, hne]
        · simp [e]
      · obtain ⟨ha, hne⟩ := mem_filter.mp ha
        exact (mem_cons.mp (hmem a ha)).resolve_left (by simpa using hne)
    rw [flatMap_cons, hrest, filter_append_filter_not hfront]

end List
