import Mathlib.Data.List.Basic
import Mathlib.Logic.Function.Basic

/-!
# Doubly linked lists in a store

`prev` and `next` give the links of every cell of a store. `Seg p l n` says that the
cells `l` are linked in this order, that `prev` of the first is `p` and that `next`
of the last is `n`; `Linked` is the whole list, with null links at both ends and the
pointers to its first and last cell.

`Linked.push` and `Linked.remove` are the two updates of an intrusive list: at the
back, and of any cell. `Linked.follow` recovers the cells by following `next` from
the head.
-/

namespace LinkedList

variable {ι : Type*}

/-- The cells `l`, linked in order between `p` and `n`. -/
def Seg (prev next : ι → Option ι) : Option ι → List ι → Option ι → Prop
  | _, [], _ => True
  | p, x :: xs, n => prev x = p ∧ next x = xs.head?.or n ∧ Seg prev next (some x) xs n

/-- The list with cells `l`, first cell `head` and last cell `tail`. -/
structure Linked (prev next : ι → Option ι) (head tail : Option ι) (l : List ι) : Prop where
  head : head = l.head?
  tail : tail = l.getLast?
  seg : Seg prev next none l none
  nodup : l.Nodup

variable {prev next prev' next' : ι → Option ι}

theorem Seg.congr {l : List ι} {p n : Option ι} (h : Seg prev next p l n)
    (hp : ∀ x ∈ l, prev' x = prev x) (hn : ∀ x ∈ l, next' x = next x) : Seg prev' next' p l n := by
  induction l generalizing p with
  | nil => trivial
  | cons x xs ih =>
    obtain ⟨h₁, h₂, h₃⟩ := h
    exact ⟨(hp x List.mem_cons_self).trans h₁, (hn x List.mem_cons_self).trans h₂,
      ih h₃ (fun y hy => hp y (List.mem_cons_of_mem _ hy)) fun y hy => hn y (List.mem_cons_of_mem _ hy)⟩

theorem seg_append {l₁ l₂ : List ι} {p n : Option ι} :
    Seg prev next p (l₁ ++ l₂) n ↔
      Seg prev next p l₁ (l₂.head?.or n) ∧ Seg prev next (l₁.getLast?.or p) l₂ n := by
  induction l₁ generalizing p with
  | nil => simp [Seg]
  | cons x xs ih =>
    simp only [List.cons_append, Seg, ih, List.head?_append, Option.or_assoc, and_assoc]
    have e : (x :: xs).getLast?.or p = xs.getLast?.or (some x) := by
      rw [List.getLast?_cons]; cases xs.getLast? <;> rfl
    rw [e]

/-- What a cell in the middle of a list is linked to. -/
theorem Linked.links {head tail : Option ι} {l₁ l₂ : List ι} {x : ι}
    (h : Linked prev next head tail (l₁ ++ x :: l₂)) : prev x = l₁.getLast? ∧ next x = l₂.head? := by
  obtain ⟨-, h₁, h₂, -⟩ := seg_append.mp h.seg
  exact ⟨by simpa using h₁, by simpa using h₂⟩

theorem Linked.congr {head tail : Option ι} {l : List ι} (h : Linked prev next head tail l)
    (hp : ∀ x ∈ l, prev' x = prev x) (hn : ∀ x ∈ l, next' x = next x) : Linked prev' next' head tail l :=
  ⟨h.head, h.tail, h.seg.congr hp hn, h.nodup⟩

theorem linked_nil : Linked prev next none none [] := ⟨rfl, rfl, trivial, List.nodup_nil⟩

theorem Linked.head_eq_none {head tail : Option ι} {l : List ι} (h : Linked prev next head tail l) :
    head = none ↔ l = [] := by
  rw [h.head, List.head?_eq_none_iff]

theorem Linked.tail_eq_none {head tail : Option ι} {l : List ι} (h : Linked prev next head tail l) :
    tail = none ↔ l = [] := by
  rw [h.tail, List.getLast?_eq_none_iff]

/-! ## Following the links -/

/-- The cells reached from `head` in `fuel` steps along `next`. -/
def follow (next : ι → Option ι) : ℕ → Option ι → List ι
  | 0, _ => []
  | _ + 1, none => []
  | fuel + 1, some x => x :: follow next fuel (next x)

theorem follow_seg {l : List ι} {p : Option ι} (h : Seg prev next p l none) :
    follow next l.length l.head? = l := by
  induction l generalizing p with
  | nil => rfl
  | cons x xs ih =>
    obtain ⟨-, h₂, h₃⟩ := h
    simp only [List.length_cons, List.head?_cons, follow, List.cons.injEq, true_and]
    rw [h₂, Option.or_none]
    exact ih h₃

theorem Linked.follow_eq {head tail : Option ι} {l : List ι} (h : Linked prev next head tail l) :
    follow next l.length head = l := by
  rw [h.head]; exact follow_seg h.seg

/-! ## Updates -/

/-- A fresh cell alone in a list. -/
theorem linked_singleton {x : ι} (hp : prev x = none) (hn : next x = none) :
    Linked prev next (some x) (some x) [x] :=
  ⟨rfl, rfl, ⟨hp, by simpa using hn, trivial⟩, by simp⟩

/-- The back cell of a list, taken apart. -/
theorem Linked.concat_of_tail {head : Option ι} {l : List ι} {t : ι}
    (h : Linked prev next head (some t) l) : ∃ l', l = l' ++ [t] := by
  rcases l.eq_nil_or_concat with rfl | ⟨l', y, rfl⟩
  · simpa using h.tail
  · have := h.tail
    simp only [List.concat_eq_append, List.getLast?_append, List.getLast?_singleton, Option.some_or,
      Option.some.injEq] at this
    exact ⟨l', by rw [List.concat_eq_append, this]⟩

variable [DecidableEq ι]

/-- Linking a fresh cell to the back of a non-empty list. -/
theorem Linked.push {head : Option ι} {l : List ι} {t x : ι} (h : Linked prev next head (some t) l)
    (hx : x ∉ l) (hn : next x = none) :
    Linked (Function.update prev x (some t)) (Function.update next t (some x)) head (some x) (l ++ [x]) := by
  obtain ⟨l', rfl⟩ := h.concat_of_tail
  have hxt : x ≠ t := fun e => hx (by simp [e])
  have hnd := h.nodup
  obtain ⟨hl', -, hdis⟩ := List.nodup_append.mp hnd
  obtain ⟨s₁, s₂⟩ := seg_append.mp h.seg
  refine ⟨?_, by simp, ?_, ?_⟩
  · rw [h.head]; cases l' <;> simp
  · -- every link but `next` of `t` and `prev` of `x` is kept
    rw [List.append_assoc, seg_append]
    have key : Seg (Function.update prev x (some t)) (Function.update next t (some x))
        none l' (([t] ++ [x]).head?.or none) := by
      refine s₁.congr (fun y hy => ?_) fun y hy => ?_
      · exact Function.update_of_ne (fun e => hx (by simp [← e, hy])) _ _
      · exact Function.update_of_ne (fun e => hdis y hy t (by simp) e) _ _
    refine ⟨key, ?_, ?_, ?_, ?_, trivial⟩
    · rw [Function.update_of_ne (Ne.symm hxt)]; exact s₂.1
    · simp
    · simp
    · rw [Function.update_of_ne hxt, hn]; rfl
  · rw [List.nodup_append]
    exact ⟨hnd, by simp, fun a ha b hb e => hx (by simp only [List.mem_singleton] at hb; rwa [← hb, ← e])⟩

/-- `next` after `x`'s predecessor, if any, is linked past it. -/
def bypassNext (next : ι → Option ι) (p n : Option ι) : ι → Option ι :=
  match p with
  | some p => Function.update next p n
  | none => next

theorem bypassNext_of_ne {p n : Option ι} {y : ι} (h : p ≠ some y) : bypassNext next p n y = next y := by
  cases p with
  | none => rfl
  | some p => exact Function.update_of_ne (fun e => h (by rw [e])) _ _

theorem bypassNext_self {p : ι} {n : Option ι} : bypassNext next (some p) n p = n :=
  Function.update_self ..

/-- Unlinking a cell: its neighbours, or the ends of the list, are linked past it. -/
theorem Linked.remove {head tail : Option ι} {l₁ l₂ : List ι} {x : ι}
    (h : Linked prev next head tail (l₁ ++ x :: l₂)) :
    Linked (bypassNext prev (next x) (prev x)) (bypassNext next (prev x) (next x))
      (if prev x = none then next x else head) (if next x = none then prev x else tail) (l₁ ++ l₂) := by
  obtain ⟨hp, hn⟩ := h.links
  obtain ⟨s₁, -, -, s₂⟩ := seg_append.mp h.seg
  obtain ⟨n₁, n₂, hdis⟩ := List.nodup_append.mp h.nodup
  have hx₁ : x ∉ l₁ := fun hx => hdis x hx x List.mem_cons_self rfl
  obtain ⟨hx₂, n₂⟩ := List.nodup_cons.mp n₂
  have hdis' : ∀ a ∈ l₁, ∀ b ∈ l₂, a ≠ b := fun a ha b hb => hdis a ha b (List.mem_cons_of_mem _ hb)
  rw [hp, hn]
  refine ⟨?_, ?_, ?_, List.nodup_append.mpr ⟨n₁, n₂, hdis'⟩⟩
  · rcases l₁ with _ | ⟨y, l₁⟩
    · simp
    · have : (y :: l₁).getLast? ≠ none := by simp
      rw [if_neg this, h.head]; simp
  · rcases l₂.eq_nil_or_concat with rfl | ⟨l₂, y, rfl⟩
    · simp
    · rw [if_neg (by cases l₂ <;> simp), h.tail]
      simp [List.getLast?_append, List.getLast?_cons]
  · rw [seg_append]
    constructor
    · -- the front part: only `next` of its last cell changes
      rcases l₁.eq_nil_or_concat with rfl | ⟨l₁, y, rfl⟩
      · trivial
      · rw [List.concat_eq_append] at *
        obtain ⟨t₁, t₂⟩ := seg_append.mp s₁
        have hy : y ∉ l₁ := fun hy => (List.nodup_append.mp n₁).2.2 y hy y (by simp) rfl
        rw [seg_append]
        refine ⟨t₁.congr (fun z hz => bypassNext_of_ne fun e => ?_) (fun z hz => bypassNext_of_ne fun e => ?_),
          ?_, ?_, trivial⟩
        · exact hdis' z (by simp [hz]) z (List.mem_of_head? e) rfl
        · simp only [List.getLast?_append, List.getLast?_singleton, Option.some_or, Option.some.injEq] at e
          exact hy (e ▸ hz)
        · rw [bypassNext_of_ne fun e => hdis' y (by simp) y (List.mem_of_head? e) rfl]
          exact t₂.1
        · simp [bypassNext_self]
    · -- the back part: only `prev` of its first cell changes
      rcases l₂ with _ | ⟨y, l₂⟩
      · trivial
      · obtain ⟨-, t₂, t₃⟩ := s₂
        have hy : y ∉ l₂ := (List.nodup_cons.mp n₂).1
        have hne : ∀ z ∈ y :: l₂, l₁.getLast? ≠ some z := fun z hz e =>
          hdis' z (List.mem_of_getLast? e) z hz rfl
        refine ⟨?_, ?_, t₃.congr (fun z hz => bypassNext_of_ne fun e => ?_) fun z hz => ?_⟩
        · simp [bypassNext_self]
        · rw [bypassNext_of_ne (hne y List.mem_cons_self)]; exact t₂
        · simp only [List.head?_cons, Option.some.injEq] at e
          exact hy (e ▸ hz)
        · exact bypassNext_of_ne (hne z (List.mem_cons_of_mem _ hz))

end LinkedList
