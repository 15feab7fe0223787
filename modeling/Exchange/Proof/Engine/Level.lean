import Exchange.Framework.LinkedList
import Exchange.Spec.Book

/-!
# One price level

`LevelRep m q l`: the pointers of level `q`, in the arena `m`, are the doubly linked
list of the slots `l`. `push_ok` and `remove_ok` say what the two updates of a level
do to it, and that they change no more than the links of the level's own slots: the
rest of an order (`Order.view`) is unchanged everywhere.
-/

namespace Exchange

open LinkedList

/-- An order without its links. -/
def Order.view (o : Order) : Spec.Resting where
  id := o.id
  clientId := o.clientId
  side := o.side
  price := o.price
  openQuantity := o.openQuantity
  executedQuantity := o.executedQuantity

@[simp] theorem Order.view_id (o : Order) : o.view.id = o.id := rfl
@[simp] theorem Order.view_clientId (o : Order) : o.view.clientId = o.clientId := rfl
@[simp] theorem Order.view_side (o : Order) : o.view.side = o.side := rfl
@[simp] theorem Order.view_price (o : Order) : o.view.price = o.price := rfl
@[simp] theorem Order.view_openQuantity (o : Order) : o.view.openQuantity = o.openQuantity := rfl
@[simp] theorem Order.view_executedQuantity (o : Order) : o.view.executedQuantity = o.executedQuantity := rfl

theorem Order.view_eq {o o' : Order} (h : o.view = o'.view) :
    o.id = o'.id ∧ o.clientId = o'.clientId ∧ o.side = o'.side ∧ o.price = o'.price ∧
      o.openQuantity = o'.openQuantity ∧ o.executedQuantity = o'.executedQuantity := by
  simpa [Order.view] using h

namespace Arena

theorem setNext_next (m : Arena) (x : ℕ) (v : Option ℕ) :
    (fun y => (m.setNext x v y).next) = Function.update (fun y => (m y).next) x v := by
  funext y
  by_cases h : y = x
  · subst h; simp [setNext]
  · simp [setNext, Function.update_of_ne h]

theorem setNext_prev (m : Arena) (x : ℕ) (v : Option ℕ) :
    (fun y => (m.setNext x v y).prev) = fun y => (m y).prev := by
  funext y
  by_cases h : y = x
  · subst h; simp [setNext]
  · simp [setNext, Function.update_of_ne h]

theorem setPrev_prev (m : Arena) (x : ℕ) (v : Option ℕ) :
    (fun y => (m.setPrev x v y).prev) = Function.update (fun y => (m y).prev) x v := by
  funext y
  by_cases h : y = x
  · subst h; simp [setPrev]
  · simp [setPrev, Function.update_of_ne h]

theorem setPrev_next (m : Arena) (x : ℕ) (v : Option ℕ) :
    (fun y => (m.setPrev x v y).next) = fun y => (m y).next := by
  funext y
  by_cases h : y = x
  · subst h; simp [setPrev]
  · simp [setPrev, Function.update_of_ne h]

@[simp] theorem setNext_view (m : Arena) (x : ℕ) (v : Option ℕ) (y : ℕ) :
    (m.setNext x v y).view = (m y).view := by
  by_cases h : y = x
  · subst h; simp [setNext, Order.view]
  · simp [setNext, Function.update_of_ne h]

@[simp] theorem setPrev_view (m : Arena) (x : ℕ) (v : Option ℕ) (y : ℕ) :
    (m.setPrev x v y).view = (m y).view := by
  by_cases h : y = x
  · subst h; simp [setPrev, Order.view]
  · simp [setPrev, Function.update_of_ne h]

theorem setNext_of_ne (m : Arena) {x y : ℕ} (v : Option ℕ) (h : y ≠ x) : m.setNext x v y = m y :=
  Function.update_of_ne h _ _

theorem setPrev_of_ne (m : Arena) {x y : ℕ} (v : Option ℕ) (h : y ≠ x) : m.setPrev x v y = m y :=
  Function.update_of_ne h _ _

end Arena

/-- `m'` differs from `m` only in links, and only of the slots `l`. -/
structure Relinked (l : List ℕ) (m m' : Arena) : Prop where
  view : ∀ x, (m' x).view = (m x).view
  other : ∀ x, x ∉ l → m' x = m x

/-- The level `q` is the list of the slots `l`. -/
structure LevelRep (m : Arena) (q : PriceLevelQueue) (l : List ℕ) : Prop where
  linked : Linked (fun x => (m x).prev) (fun x => (m x).next) q.head q.tail l
  size : q.size = l.length

namespace LevelRep

variable {m m' : Arena} {q : PriceLevelQueue} {l : List ℕ}

theorem new (m : Arena) : LevelRep m {} [] := ⟨linked_nil, rfl⟩

theorem congr (h : LevelRep m q l) (hm : ∀ x ∈ l, (m' x).prev = (m x).prev ∧ (m' x).next = (m x).next) :
    LevelRep m' q l :=
  ⟨h.linked.congr (fun x hx => (hm x hx).1) fun x hx => (hm x hx).2, h.size⟩

theorem empty_iff (h : LevelRep m q l) : q.empty = true ↔ l = [] := by
  rw [PriceLevelQueue.empty, beq_iff_eq, h.linked.head_eq_none]

theorem front_eq (h : LevelRep m q l) : q.front = l.head? := h.linked.head

/-- The slots of a level, by following its links. -/
theorem follow_eq (h : LevelRep m q l) : follow (fun x => (m x).next) q.size q.head = l := by
  rw [h.size]; exact h.linked.follow_eq

theorem push_ok (h : LevelRep m q l) {x : ℕ} (hx : x ∉ l) (hp : (m x).prev = none) (hn : (m x).next = none) :
    LevelRep (q.push m x).2 (q.push m x).1 (l ++ [x]) ∧ Relinked (l ++ [x]) m (q.push m x).2 := by
  cases ht : q.tail with
  | none =>
    obtain rfl : l = [] := h.linked.tail_eq_none.mp ht
    have hh : q.head = none := h.linked.head
    simp only [PriceLevelQueue.push, ht, hh, List.nil_append]
    exact ⟨⟨linked_singleton hp hn, by simp [h.size]⟩, fun _ => rfl, fun _ _ => rfl⟩
  | some t =>
    have hl : Linked _ _ q.head (some t) l := ht ▸ h.linked
    obtain ⟨l', rfl⟩ := hl.concat_of_tail
    obtain ⟨y, hy⟩ : ∃ y, q.head = some y := by
      rw [h.linked.head]; cases l' <;> simp
    simp only [PriceLevelQueue.push, ht, hy]
    refine ⟨⟨?_, by simp [h.size]⟩, fun z => by simp, fun z hz => ?_⟩
    · rw [Arena.setPrev_prev, Arena.setPrev_next, Arena.setNext_prev, Arena.setNext_next, ← hy]
      exact hl.push hx hn
    · simp only [List.mem_append, List.mem_singleton, not_or] at hz
      rw [Arena.setPrev_of_ne _ _ hz.2, Arena.setNext_of_ne _ _ hz.1.2]

theorem remove_ok {l₁ l₂ : List ℕ} {x : ℕ} (h : LevelRep m q (l₁ ++ x :: l₂)) :
    LevelRep (q.remove m x).2 (q.remove m x).1 (l₁ ++ l₂) ∧ Relinked (l₁ ++ l₂) m (q.remove m x).2 := by
  obtain ⟨hp, hn⟩ := h.linked.links
  have hr := h.linked.remove
  have hs : q.size - 1 = (l₁ ++ l₂).length := by rw [h.size]; simp
  have hpm : ∀ p, (m x).prev = some p → p ∈ l₁ := fun p e => List.mem_of_getLast? (hp ▸ e)
  have hnm : ∀ n, (m x).next = some n → n ∈ l₂ := fun n e => List.mem_of_head? (hn ▸ e)
  simp only [PriceLevelQueue.remove]
  cases ep : (m x).prev with
  | none =>
    cases en : (m x).next with
    | none =>
      simp only [ep, en, bypassNext, ite_true] at hr
      exact ⟨⟨hr, hs⟩, fun _ => rfl, fun _ _ => rfl⟩
    | some n =>
      simp only [ep, en, bypassNext, ite_true, reduceCtorEq, ite_false] at hr
      refine ⟨⟨?_, hs⟩, fun y => by simp, fun y hy => ?_⟩
      · rw [Arena.setPrev_prev, Arena.setPrev_next]; exact hr
      · exact Arena.setPrev_of_ne _ _ fun e => hy (by simp [e, hnm n en])
  | some p =>
    cases en : (m x).next with
    | none =>
      simp only [ep, en, bypassNext, ite_true, reduceCtorEq, ite_false] at hr
      refine ⟨⟨?_, hs⟩, fun y => by simp, fun y hy => ?_⟩
      · rw [Arena.setNext_prev, Arena.setNext_next]; exact hr
      · exact Arena.setNext_of_ne _ _ fun e => hy (by simp [e, hpm p ep])
    | some n =>
      simp only [ep, en, bypassNext, reduceCtorEq, ite_false] at hr
      refine ⟨⟨?_, hs⟩, fun y => by simp, fun y hy => ?_⟩
      · rw [Arena.setPrev_prev, Arena.setPrev_next, Arena.setNext_prev, Arena.setNext_next]; exact hr
      · exact (Arena.setPrev_of_ne _ _ fun e => hy (by simp [e, hnm n en])).trans
          (Arena.setNext_of_ne _ _ fun e => hy (by simp [e, hpm p ep]))

end LevelRep

end Exchange
