import Exchange.Proof.Book.Fair
import Exchange.Spec.Packet

/-!
# Market data fits the wire

The messages of a request have fields within their widths, if the ids of the orders are and the
trades are not too many to number: the shares are at most those of an order (`Incoming.itch_fits`)
and the prices are taken modulo 32 bits. Over a run, ids come from requests and match numbers only
grow (`steps_fit`).
-/

namespace Exchange.Spec

variable {b : Book} {req : EngineRequest}

/-- The ids of the orders are 64 bits wide. -/
def IdsLt (b : Book) : Prop := ∀ r ∈ b.orders, r.id < 2 ^ 64

theorem IdsLt.of_ids {b' : Book} (h : IdsLt b) (hids : ∀ id ∈ b'.ids, id ∈ b.ids) : IdsLt b' := fun r hr => by
  obtain ⟨r', hr', e⟩ := Book.mem_ids.mp (hids r.id (Book.mem_ids.mpr ⟨r, hr, rfl⟩))
  exact e ▸ h r' hr'

theorem toItchPrice_lt (p : ℕ) : toItchPrice p < 2 ^ 32 := Nat.mod_lt _ (by decide)

theorem tradeItch_fits {k : ℕ} {fs : List (Resting × ℕ)} (hfs : ∀ f ∈ fs, f.1.id < 2 ^ 64 ∧ f.2 < 2 ^ 32)
    (hk : k + fs.length ≤ 2 ^ 64) : ∀ m ∈ tradeItch k fs, FitsWire m := by
  induction fs generalizing k with
  | nil => exact fun m hm => absurd hm List.not_mem_nil
  | cons f fs ih =>
    obtain ⟨hf, hfs⟩ := List.forall_mem_cons.mp hfs
    rw [List.length_cons] at hk
    exact List.forall_mem_cons.mpr ⟨⟨hf.1, hf.2, by omega⟩, ih hfs (by omega)⟩

namespace Incoming

variable {i : Incoming}

/-- The shares and the ids of the trades are those of resting orders. -/
theorem trades_fit (h : b.WF) (hids : IdsLt b) : ∀ f ∈ (i.trades b).1, f.1.id < 2 ^ 64 ∧ f.2 < 2 ^ 32 := fun f hf => by
  obtain ⟨-, -, r, hr, n, e, hle⟩ := (i.trades_ok h).trade f hf
  have hr := Book.mem_orders.mpr ⟨_, hr⟩
  have hlt := h.liability_lt r hr
  exact ⟨by rw [e]; exact hids r hr, by omega⟩

theorem itch_fits (h : b.WF) (hids : IdsLt b) (hid : i.id < 2 ^ 64) (hq : i.quantity < 2 ^ 32)
    (hk : b.nextMatchNumber + (i.trades b).1.length ≤ 2 ^ 64) : ∀ m ∈ i.itch b, FitsWire m := by
  refine List.forall_mem_append.mpr ⟨tradeItch_fits (trades_fit h hids) hk, ?_⟩
  unfold add
  split_ifs
  · refine List.forall_mem_singleton.mpr ⟨hid, ?_, toItchPrice_lt _⟩
    exact Nat.lt_of_le_of_lt (Nat.sub_le _ _) hq
  · exact fun m hm => absurd hm List.not_mem_nil

theorem idsLt_book (h : b.WF) (hids : IdsLt b) (hid : i.id < 2 ^ 64) : IdsLt (i.book b) := by
  have htraded : IdsLt (i.traded b) := hids.of_ids fun id => i.mem_ids_of_traded h
  rw [book_eq]
  split_ifs
  · intro r hr
    rcases Book.mem_orders_append.mp hr with hr | rfl
    · exact htraded r hr
    · exact hid
  · exact htraded

end Incoming

/-- What a request does to the numbers. -/
structure Narrow (b : Book) (s : Step) : Prop where
  ids : IdsLt s.book
  le : b.nextMatchNumber ≤ s.book.nextMatchNumber
  itch : s.book.nextMatchNumber ≤ 2 ^ 64 → ∀ m ∈ s.itch, FitsWire m

theorem ignored_narrow (hids : IdsLt b) : Narrow b (ignored b) :=
  ⟨hids, Nat.le_refl _, fun _ _ hm => absurd hm List.not_mem_nil⟩

theorem idsLt_remove (hids : IdsLt b) (id : ℕ) : IdsLt (b.remove id) := fun r hr =>
  hids r (Book.mem_orders_remove.mp hr).1

theorem cancelAll_narrow (hids : IdsLt b) {o : Resting} (ho : o ∈ b.orders) : Narrow b (cancelAll b o) :=
  ⟨idsLt_remove hids o.id, Nat.le_refl _, fun _ => List.forall_mem_singleton.mpr (hids o ho)⟩

theorem enter_narrow (capacity : ℕ) (h : b.WF) (hids : IdsLt b) (hid : req.orderId < 2 ^ 64) :
    Narrow b (enter capacity b req) := by
  unfold enter
  dsimp only
  split_ifs
  · exact ignored_narrow hids
  · exact ⟨hids, Nat.le_refl _, fun _ _ hm => absurd hm List.not_mem_nil⟩
  · have hnumber := (newOrder req).nextMatchNumber_book b
    exact ⟨Incoming.idsLt_book h hids hid, by dsimp only; omega,
      fun hk => Incoming.itch_fits h hids hid req.quantity_lt (hnumber ▸ hk)⟩

theorem cancel_narrow (h : b.WF) (hids : IdsLt b) : Narrow b (cancel b req) := by
  unfold cancel
  cases hf : b.find? req.orderId with
  | none => exact ignored_narrow hids
  | some o =>
    obtain ⟨ho, -⟩ := find?_mem hf
    have hlt := h.liability_lt o ho
    dsimp only
    split_ifs
    · exact ignored_narrow hids
    · exact cancelAll_narrow hids ho
    · refine ⟨fun r hr => ?_, Nat.le_refl _, fun _ => List.forall_mem_singleton.mpr ⟨hids o ho, by omega⟩⟩
      rcases Book.mem_orders_reduce.mp hr with ⟨hr, -⟩ | ⟨r', hr', -, rfl⟩
      · exact hids r hr
      · exact hids r' hr'

theorem replace_narrow (h : b.WF) (hids : IdsLt b) (hnew : req.newOrderId < 2 ^ 64) : Narrow b (replace b req) := by
  unfold replace
  cases hf : b.find? req.orderId with
  | none => exact ignored_narrow hids
  | some o =>
    obtain ⟨ho, -⟩ := find?_mem hf
    dsimp only
    split
    · exact ignored_narrow hids
    split
    · exact cancelAll_narrow hids ho
    · have hids' := idsLt_remove hids o.id
      have hq : (replacement req o).quantity < 2 ^ 32 := Nat.lt_of_le_of_lt (Nat.sub_le _ _) req.quantity_lt
      have hnumber := (replacement req o).nextMatchNumber_book (b.remove o.id)
      have hsame : (b.remove o.id).nextMatchNumber = b.nextMatchNumber := rfl
      refine ⟨Incoming.idsLt_book (h.remove o.id) hids' hnew, by dsimp only; omega, fun hk => ?_⟩
      dsimp only at hk ⊢
      split_ifs
      · exact List.forall_mem_singleton.mpr ⟨hids o ho, hnew, hq, toItchPrice_lt _⟩
      · exact List.forall_mem_cons.mpr ⟨hids o ho, Incoming.itch_fits (h.remove o.id) hids' hnew hq (hnumber ▸ hk)⟩

theorem process_narrow (capacity : ℕ) (h : b.WF) (hids : IdsLt b) (hid : req.orderId < 2 ^ 64)
    (hnew : req.newOrderId < 2 ^ 64) : Narrow b (process capacity b req) := by
  have hhandle : Narrow b (handle capacity b req) := by
    unfold handle
    cases req.type with
    | new => exact enter_narrow capacity h hids hid
    | cancel => exact cancel_narrow h hids
    | replace => exact replace_narrow h hids hnew
  exact ⟨hhandle.ids, hhandle.le, hhandle.itch⟩

/-- Match numbers only grow. -/
theorem nextMatchNumber_le_after (capacity : ℕ) (h : b.WF) (hids : IdsLt b) {reqs : List EngineRequest}
    (hp : ∀ req ∈ reqs, PriceOk req) (hlt : ∀ req ∈ reqs, req.orderId < 2 ^ 64 ∧ req.newOrderId < 2 ^ 64) :
    b.nextMatchNumber ≤ (after capacity b reqs).nextMatchNumber := by
  induction reqs generalizing b with
  | nil => exact Nat.le_refl _
  | cons req reqs ih =>
    obtain ⟨hreq, hp⟩ := List.forall_mem_cons.mp hp
    obtain ⟨⟨hid, hnew⟩, hlt⟩ := List.forall_mem_cons.mp hlt
    have hn := process_narrow capacity h hids hid hnew
    exact hn.le.trans (ih (process_wf capacity h hreq) hn.ids hp hlt)

/-- The messages of a run fit. -/
theorem steps_fit (capacity : ℕ) (h : b.WF) (hids : IdsLt b) {reqs : List EngineRequest}
    (hp : ∀ req ∈ reqs, PriceOk req) (hlt : ∀ req ∈ reqs, req.orderId < 2 ^ 64 ∧ req.newOrderId < 2 ^ 64)
    (hk : (after capacity b reqs).nextMatchNumber ≤ 2 ^ 64) :
    ∀ m ∈ (steps capacity b reqs).flatMap (·.itch), FitsWire m := by
  induction reqs generalizing b with
  | nil => exact fun m hm => absurd hm List.not_mem_nil
  | cons req reqs ih =>
    obtain ⟨hreq, hp⟩ := List.forall_mem_cons.mp hp
    obtain ⟨⟨hid, hnew⟩, hlt⟩ := List.forall_mem_cons.mp hlt
    have hn := process_narrow capacity h hids hid hnew
    have hwf := process_wf capacity h hreq
    rw [steps, List.flatMap_cons]
    exact List.forall_mem_append.mpr
      ⟨hn.itch ((nextMatchNumber_le_after capacity hwf hn.ids hp hlt).trans hk), ih hwf hn.ids hp hlt hk⟩

end Exchange.Spec
