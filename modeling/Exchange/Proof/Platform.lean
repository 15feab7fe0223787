import Exchange.Proof.Server.Appended
import Exchange.Proof.Server.Calls
import Exchange.Proof.Server.Holdings
import Exchange.Proof.Server.Interleaving
import Exchange.Proof.System
import Exchange.Spec.Platform

/-!
# The platform tells clients what one message after the other would

`Platform.Inv` puts the three levels together: the system around the threads is as its own
invariant has it, the threads are on their way through the run that handles one message after
the other (`Threads.Inv`, whatever messages are still to come), and the sessions have the
packets of what the responder has said. Every step of the platform is a step of the system, a
step of the threads, or both.
-/

namespace Exchange

open Spec (answer answered rejected sentTo deliveries rejections responseOf responsesTo packetsTo outcome timeless
  holdings restingOf)
open Gateway (Trail)

namespace Platform

/-- The platform has got to `s`; the run that handles one message after the other starts from
`g₀`. -/
structure Inv (n : ℕ) (g₀ : Gateway) (v₀ : GatewayView) (s : Platform) : Prop where
  system : s.system.Ok
  taken_le : s.system.taken ≤ s.pushed
  pushed_le : s.pushed ≤ s.inbound.notes.length
  one_left : s.inbound.notes.length ≤ s.pushed + 1
  threads : ∀ left g' v' handled, Trail n g₀ v₀ (s.messages ++ left) g' v' handled →
    (s.threads left).Inv n g' v' handled
  loginsFirst : LoginsFirst s.inbound.notes
  logs : ∀ c conn sequence, .loginAccepted c conn sequence ∈ s.inbound.notes.take s.system.taken →
    (s.outbound.sessions c).log.isSome
  applied : Spec.applied s.said = (s.inbound.notes.take s.system.taken).filterMap (·.gateway?)
  appended : ∀ c, s.outbound.history.appended c = packetsTo c s.said

variable {n : ℕ} {g₀ : Gateway} {v₀ : GatewayView} {s s' : Platform}

/-! ## Steps around the threads -/

/-- The system goes on, and the threads have nothing to do with it. -/
theorem Inv.around (h : s.Inv n g₀ v₀) {system : System} (hok : system.Ok) (hin : system.inbound = s.system.inbound)
    (htaken : system.taken = s.system.taken) (hout : Outbound.Leaves s.system.outbound system.outbound) {loop : LoopPc}
    (hloop : loop.outbound = s.loop.outbound) : Inv n g₀ v₀ { s with system := system, loop := loop } := by
  refine ⟨hok, htaken ▸ h.taken_le, ?_, ?_, fun left g' v' handled ht => ?_, ?_, fun c conn sequence hm => ?_, ?_,
    fun c => ?_⟩
  · show s.pushed ≤ system.inbound.notes.length
    rw [hin]
    exact h.pushed_le
  · show system.inbound.notes.length ≤ s.pushed + 1
    rw [hin]
    exact h.one_left
  · have e : Platform.threads { s with system := system, loop := loop } left = s.threads left := by
      simp only [Platform.threads, Platform.inbound, Platform.outbound, hin, htaken, hout.responder, hloop]
    rw [e]
    exact h.threads left g' v' handled ht
  · show LoginsFirst system.inbound.notes
    rw [hin]
    exact h.loginsFirst
  · refine hout.logs c (h.logs c conn sequence ?_)
    rw [Platform.inbound, ← hin, ← htaken]
    exact hm
  · show Spec.applied s.said = (system.inbound.notes.take system.taken).filterMap _
    rw [hin, htaken]
    exact h.applied
  · show system.outbound.history.appended c = _
    rw [hout.appended]
    exact h.appended c

/-- A step of the system that is one of the client, of the network, or of the outbound thread
without a note or an event. -/
def Apart : System.Step → Prop
  | .flush | .heartbeat | .closeAll | .connect | .connected | .lost _ | .receive _ _ _ => True
  | _ => False

theorem Apart.step {system system' : System} {step : System.Step} (ha : Apart step)
    (h : system.step step = some system') : system'.inbound = system.inbound ∧ system'.taken = system.taken ∧
      Outbound.Leaves system.outbound system'.outbound := by
  have hout : ∀ step : Outbound.Step, (∀ o, system.outbound.step step = some o → Outbound.Leaves system.outbound o) →
      system.onOutbound step = some system' → system'.inbound = system.inbound ∧ system'.taken = system.taken ∧
        Outbound.Leaves system.outbound system'.outbound := fun _ hstep h => by
    obtain ⟨o, ho, rfl⟩ := Option.map_eq_some_iff.mp h
    exact ⟨rfl, rfl, hstep o ho⟩
  cases step with
  | flush => exact hout .flush (fun o ho => Outbound.flushDirty_leaves ho) h
  | heartbeat =>
    refine hout .heartbeat (fun o ho => ?_) h
    have hread : Outbound.Leaves system.outbound system.outbound.rdtsc.2 := .of_eq rfl
    exact hread.trans (Outbound.heartbeat_leaves ho)
  | closeAll => exact hout .closeAll (fun o ho => Option.some.inj ho ▸ Outbound.closeAll_leaves _) h
  | connect =>
    dsimp only [System.step] at h
    split at h <;> cases h <;> exact ⟨rfl, rfl, .refl _⟩
  | connected =>
    dsimp only [System.step] at h
    split at h
    · split at h <;> cases h <;> exact ⟨rfl, rfl, .refl _⟩
    · cases h
      exact ⟨rfl, rfl, .refl _⟩
  | lost now =>
    cases h
    exact ⟨rfl, rfl, .refl _⟩
  | receive now n conn =>
    dsimp only [System.step] at h
    split at h
    · split at h <;> cases h <;> exact ⟨rfl, rfl, .refl _⟩
    · cases h
      exact ⟨rfl, rfl, .refl _⟩
  | _ => exact ha.elim

theorem Inv.apart (h : s.Inv n g₀ v₀) {step : System.Step} (ha : Apart step) {loop : LoopPc}
    (hloop : loop.outbound = s.loop.outbound) :
    ∃ system, s.system.step step = some system ∧ Inv n g₀ v₀ { s with system := system, loop := loop } := by
  obtain ⟨system, hs, hok⟩ := System.step_ok h.system step
  obtain ⟨hin, htaken, hout⟩ := ha.step hs
  exact ⟨system, hs, h.around hok hin htaken hout hloop⟩

/-! ## The inbound thread -/

theorem ready_iff : s.ready = true ↔ s.pushed = s.inbound.notes.length ∧ s.request = none := by
  simp [Platform.ready]

/-- Order entry has nothing to do with what the inbound thread does. -/
theorem Inv.aside (h : s.Inv n g₀ v₀) (hready : s.ready) {system : System} (hok : system.Ok)
    (hin : InboundThread.Aside s.system.inbound system.inbound) (htaken : system.taken = s.system.taken)
    (hout : system.outbound = s.system.outbound) : Inv n g₀ v₀ { s with system := system } := by
  obtain ⟨hp, hreq⟩ := ready_iff.mp hready
  have hp : s.pushed = s.system.inbound.notes.length := hp
  obtain ⟨more, hnotes, hlen, hmore⟩ : ∃ more, system.inbound.notes = s.system.inbound.notes ++ more ∧
      more.length ≤ 1 ∧ more.filterMap (·.gateway?) = [] := by
    rcases hin.notes with e | ⟨note, e, hn⟩
    · exact ⟨[], by rw [e, List.append_nil], Nat.zero_le 1, rfl⟩
    · exact ⟨[note], e, Nat.le_refl 1, by simp [hn]⟩
  have htake : ∀ k, k ≤ s.pushed → system.inbound.notes.take k = s.system.inbound.notes.take k := fun k hk => by
    rw [hnotes, List.take_append_of_le_length (hp ▸ hk)]
  refine ⟨hok, htaken ▸ h.taken_le, ?_, ?_, fun left g' v' handled ht => ?_, hin.loginsFirst h.loginsFirst,
    fun c conn sequence hm => ?_, ?_, fun c => ?_⟩
  · show s.pushed ≤ system.inbound.notes.length
    rw [hnotes, List.length_append, hp]
    exact Nat.le_add_right _ _
  · show system.inbound.notes.length ≤ s.pushed + 1
    rw [hnotes, List.length_append, hp]
    exact Nat.add_le_add_left hlen _
  · have e : Platform.threads { s with system := system } left = s.threads left := by
      simp only [Platform.threads, Platform.inbound, Platform.outbound, hin.entry, hout, htaken,
        htake _ (Nat.le_refl _), Threads.mk.injEq, true_and, and_true]
      rw [hnotes, hp, List.drop_left, List.drop_length, hmore]
      rfl
    rw [e]
    exact h.threads left g' v' handled ht
  · show (system.outbound.sessions c).log.isSome
    rw [hout]
    refine h.logs c conn sequence ?_
    rw [Platform.inbound, ← htake _ h.taken_le, ← htaken]
    exact hm
  · show Spec.applied s.said = (system.inbound.notes.take system.taken).filterMap _
    rw [htaken, htake _ h.taken_le]
    exact h.applied
  · show system.outbound.history.appended c = _
    rw [hout]
    exact h.appended c

theorem Inv.accepted (h : s.Inv n g₀ v₀) (hready : s.ready) (conn : ConnId) (socket : Option ℕ) :
    ∃ s', s.onSystem (.accepted conn socket) = some s' ∧ s'.Inv n g₀ v₀ := by
  obtain ⟨system, hs, hok⟩ := System.step_ok h.system (.accepted conn socket)
  refine ⟨{ s with system := system }, by rw [onSystem, hs]; rfl, ?_⟩
  dsimp only [System.step] at hs
  split at hs
  · cases hs
    exact h.aside hready hok ⟨rfl, rfl, .inl rfl⟩ rfl rfl
  · cases hs
    exact h

theorem Inv.ended (h : s.Inv n g₀ v₀) (hready : s.ready) (conn : ConnId) :
    ∃ s', s.onSystem (.ended conn) = some s' ∧ s'.Inv n g₀ v₀ := by
  obtain ⟨system, hs, hok⟩ := System.step_ok h.system (.ended conn)
  refine ⟨{ s with system := system }, by rw [onSystem, hs]; rfl, ?_⟩
  cases hs
  exact h.aside hready hok (InboundThread.connEnded_aside _ conn) rfl rfl

/-- A packet of another kind than a Login Request can always arrive. -/
theorem canArrive_of_called {system : System} {conn : ConnId} {packet : SoupPacket} {x : ℕ × OuchInboundFrame}
    (h : system.inbound.called conn packet = some x) : system.canArrive conn packet = true := by
  unfold InboundThread.called at h
  dsimp only at h
  split at h
  · next hx =>
    have htype := SoupPacketType.ofByte_eq_some.mp hx.2.2.2.1
    unfold System.canArrive
    split
    · rfl
    · rw [htype]
      rfl
  · cases h

/-- A message that is translated is the next one of the run. -/
theorem Inv.translated (h : s.Inv n g₀ v₀) (hready : s.ready) {conn : ConnId} {packet : SoupPacket} {c : ℕ}
    {msg : OuchInboundFrame} {translation : Translation} {t : InboundThread} (stamps : Stamps)
    (hcalled : s.system.inbound.called conn packet = some (c, msg))
    (htr : s.system.inbound.Translated c msg translation t) (hok : System.Ok { s.system with inbound := t }) :
    Inv n g₀ v₀ { s with
      system := { s.system with inbound := t }
      request := (t.requests.drop s.inbound.requests.length).head?.map fun request =>
        ({ request with
            readBeginTsc := stamps.readBeginTsc, recvTsc := stamps.recvTsc, serverPushTsc := stamps.serverPushTsc },
          stamps.enginePopTsc)
      messages := s.messages ++ (s.message conn packet stamps).toList } := by
  obtain ⟨hp, hreq⟩ := ready_iff.mp hready
  have hp : s.pushed = s.system.inbound.notes.length := hp
  have hlen : (translation.note.toList.map ServerNote.gateway).length ≤ 1 := by
    cases translation.note <;> simp
  have htake : ∀ k, k ≤ s.pushed → t.notes.take k = s.system.inbound.notes.take k := fun k hk => by
    rw [htr.notes, List.take_append_of_le_length (hp ▸ hk)]
  have hdrop : (t.notes.drop s.pushed).filterMap (·.gateway?) = translation.note.toList := by
    rw [htr.notes, hp, List.drop_left]
    cases translation.note <;> rfl
  have hmsg : s.message conn packet stamps = some (stamps.inbound c msg) := by
    rw [message, Platform.inbound, hcalled]
    rfl
  rw [hmsg]
  refine ⟨hok, h.taken_le, ?_, ?_, fun left g' v' handled ht => ?_,
    htr.loginsFirst h.system.1.inbound.toSessions hcalled h.loginsFirst, fun c' conn' sequence hm => ?_, ?_, h.appended⟩
  · show s.pushed ≤ t.notes.length
    rw [htr.notes, List.length_append, hp]
    exact Nat.le_add_right _ _
  · show t.notes.length ≤ s.pushed + 1
    rw [htr.notes, List.length_append, hp]
    exact Nat.add_le_add_left hlen _
  · rw [List.append_assoc] at ht
    have h₁ := h.threads _ g' v' handled ht
    rw [Option.toList_some, List.singleton_append] at h₁
    obtain ⟨s₁, hs₁, h₁⟩ := h₁.inbound
    have hnote : (s.threads (stamps.inbound c msg :: left)).note = none := by
      show ((s.system.inbound.notes.drop s.pushed).filterMap _).head? = none
      rw [hp, List.drop_length]
      rfl
    have hentry : (s.threads (stamps.inbound c msg :: left)).entry.translate (stamps.inbound c msg).clientId
        (stamps.inbound c msg).msg = some (t.entry, translation) := htr.entry
    unfold Threads.inboundStep at hs₁
    rw [hnote, show (s.threads (stamps.inbound c msg :: left)).request = none from hreq,
      show (s.threads (stamps.inbound c msg :: left)).left = stamps.inbound c msg :: left from rfl] at hs₁
    dsimp only at hs₁
    rw [hentry, Option.bind_eq_bind, Option.bind_some] at hs₁
    obtain rfl := Option.some.inj hs₁
    convert h₁ using 1
    simp only [Platform.threads, Platform.inbound, Platform.outbound, hdrop, htake _ (Nat.le_refl _), htr.requests,
      List.drop_left, Threads.mk.injEq, true_and, and_true]
    constructor
    · cases translation.note <;> rfl
    · cases translation.request <;> rfl
  · refine h.logs c' conn' sequence ?_
    rw [Platform.inbound, ← htake _ h.taken_le]
    exact hm
  · show Spec.applied s.said = (t.notes.take s.system.taken).filterMap _
    rw [htake _ h.taken_le]
    exact h.applied

theorem Inv.packet (h : s.Inv n g₀ v₀) (hready : s.ready) (conn : ConnId) (packet : SoupPacket) (stamps : Stamps) :
    ∃ s', s.onPacket conn packet stamps = some s' ∧ s'.Inv n g₀ v₀ := by
  obtain ⟨hp, hreq⟩ := ready_iff.mp hready
  obtain ⟨system, hs, hok⟩ := System.step_ok h.system (.packet conn packet)
  refine ⟨_, by rw [onPacket, onSystem, hs]; rfl, ?_⟩
  dsimp only [System.step] at hs
  -- the system has the thread with or without the packet
  obtain ⟨t, rfl, ht⟩ : ∃ t, system = { s.system with inbound := t } ∧
      (s.system.inbound.called conn packet = none ∧ InboundThread.Aside s.system.inbound t ∨
        ∃ c msg translation, s.system.inbound.called conn packet = some (c, msg) ∧
          s.system.inbound.Translated c msg translation t) := by
    split at hs
    · obtain ⟨t, ht, rfl⟩ := Option.map_eq_some_iff.mp hs
      exact ⟨t, rfl, InboundThread.onEvent_packet ht⟩
    · next hcan =>
      cases hs
      refine ⟨_, rfl, .inl ⟨?_, .refl _⟩⟩
      cases hc : s.system.inbound.called conn packet with
      | none => rfl
      | some x => exact absurd (canArrive_of_called hc) hcan
  rcases ht with ⟨hnone, haside⟩ | ⟨c, msg, translation, hcalled, htr⟩
  · have hmsg : s.message conn packet stamps = none := by
      rw [message, Platform.inbound, hnone]
      rfl
    have hrequests : t.requests.drop s.system.inbound.requests.length = [] := by
      rw [haside.requests]
      exact List.drop_length
    have h' := h.aside hready hok haside rfl rfl
    simp only [Platform.inbound, hmsg, hrequests, Option.toList_none, List.append_nil, List.head?_nil, Option.map_none]
    rw [← hreq]
    exact h'
  · exact h.translated hready stamps hcalled htr hok

/-- The note that has been pushed last is the first that was left. -/
theorem Inv.pushNote (h : s.Inv n g₀ v₀) (hlt : s.pushed < s.inbound.notes.length) :
    Inv n g₀ v₀ { s with pushed := s.pushed + 1 } := by
  have hlast : s.pushed + 1 = s.inbound.notes.length := Nat.le_antisymm hlt h.one_left
  obtain ⟨note, hnote⟩ : ∃ note, s.inbound.notes[s.pushed]? = some note := ⟨_, List.getElem?_eq_getElem hlt⟩
  have hdrop : s.inbound.notes.drop s.pushed = [note] := by
    rw [List.drop_eq_getElem_cons hlt, List.drop_of_length_le (Nat.le_of_eq hlast.symm),
      (List.getElem?_eq_some_iff.mp hnote).2]
  have htake : s.inbound.notes.take (s.pushed + 1) = s.inbound.notes.take s.pushed ++ [note] := by
    rw [List.take_add_one, hnote]
    rfl
  have hring : ((s.inbound.notes.take (s.pushed + 1)).drop s.system.taken).filterMap (·.gateway?) =
      ((s.inbound.notes.take s.pushed).drop s.system.taken).filterMap (·.gateway?) ++ note.gateway?.toList := by
    rw [htake, List.drop_append_of_le_length, List.filterMap_append]
    · cases hn : note.gateway? <;> simp [hn]
    · rw [List.length_take, Nat.min_eq_left h.pushed_le]
      exact h.taken_le
  refine { h with
    taken_le := Nat.le_succ_of_le h.taken_le
    pushed_le := hlt
    one_left := Nat.le_succ_of_le (Nat.le_of_eq hlast.symm)
    threads := fun left g' v' handled ht => ?_ }
  have hinv := h.threads left g' v' handled ht
  have e : Platform.threads { s with pushed := s.pushed + 1 } left = { s.threads left with
      note := ((s.inbound.notes.drop (s.pushed + 1)).filterMap (·.gateway?)).head?
      notes := ((s.inbound.notes.take (s.pushed + 1)).drop s.system.taken).filterMap (·.gateway?) } := rfl
  rw [e, hring, List.drop_of_length_le (Nat.le_of_eq hlast.symm)]
  cases hg : note.gateway? with
  | none =>
    have hnone : (s.threads left).note = none := by
      show ((s.inbound.notes.drop s.pushed).filterMap _).head? = _
      simp [hdrop, hg]
    rw [Option.toList_none, List.append_nil]
    convert hinv using 1
    rw [show s.threads left = { s.threads left with note := (s.threads left).note } from rfl, hnone]
    rfl
  | some gateway =>
    have hnote' : (s.threads left).note = some gateway := by
      show ((s.inbound.notes.drop s.pushed).filterMap _).head? = _
      simp [hdrop, hg]
    obtain ⟨done, undone, current, rest, L, hat⟩ := hinv
    exact hat.pushNote hnote'

theorem Inv.push (h : s.Inv n g₀ v₀) : s.push.Inv n g₀ v₀ := by
  unfold Platform.push
  split
  · next hlt =>
    split
    · exact h.pushNote hlt
    · exact h
  · next hge =>
    have hp : s.inbound.notes.length = s.pushed := Nat.le_antisymm (Nat.not_lt.mp hge) h.pushed_le
    split
    · exact h
    · next request hrequest =>
      split
      · exact h
      · next requests hpush =>
        obtain rfl := RingBuffer.push_eq hpush
        refine { h with threads := fun left g' v' handled ht => ?_ }
        obtain ⟨done, undone, current, rest, L, hat⟩ := h.threads left g' v' handled ht
        have hnote : (s.threads left).note = none := by
          show ((s.inbound.notes.drop s.pushed).filterMap _).head? = none
          rw [← hp, List.drop_length]
          rfl
        exact hat.pushRequest hnote hrequest

/-! ## The matching thread -/

/-- The messages to come do not matter to the matching thread. -/
theorem engineStep_left (a : Arith) (s : Platform) (left : List Inbound) {t : Threads}
    (h : (s.threads []).engineStep a = some t) : (s.threads left).engineStep a = some { t with left := left } ∧
      t = { s.threads [] with requests := t.requests, book := t.book, engine := t.engine, events := t.events } := by
  have e : s.threads left = { s.threads [] with left := left } := rfl
  rw [e]
  generalize s.threads [] = t₀ at h
  obtain ⟨left₀, entry, note, request, notes, requests, book, engine, events, responder, outbound, log⟩ := t₀
  cases engine with
  | poll =>
    cases requests <;>
    · cases h
      exact ⟨rfl, rfl⟩
  | peek cur =>
    cases h
    exact ⟨rfl, rfl⟩
  | execute cur nxt =>
    obtain ⟨x, hx, h⟩ := Option.bind_eq_some_iff.mp h
    cases h
    exact ⟨Option.bind_eq_some_iff.mpr ⟨x, hx, rfl⟩, rfl⟩
  | emit unsent nxt =>
    cases unsent with
    | nil =>
      cases h
      exact ⟨rfl, rfl⟩
    | cons event unsent =>
      dsimp only [Threads.engineStep] at h ⊢
      split at h <;>
      · cases h
        exact ⟨rfl, rfl⟩

theorem Inv.engine (hall : ∀ ms, ∃ g' v' handled, Trail n g₀ v₀ ms g' v' handled) (h : s.Inv n g₀ v₀) :
    ∃ s', (∀ a, s.onEngine a = some s') ∧ s'.Inv n g₀ v₀ := by
  obtain ⟨g', v', handled, ht⟩ := hall (s.messages ++ [])
  obtain ⟨t, hstep, -⟩ := (h.threads [] g' v' handled ht).engine
  refine ⟨{ s with requests := t.requests, book := t.book, engine := t.engine, events := t.events },
    fun a => by rw [onEngine, hstep a]; rfl, { h with threads := fun left g' v' handled ht => ?_ }⟩
  obtain ⟨t', hstep', hinv⟩ := (h.threads left g' v' handled ht).engine
  obtain ⟨hleft, hframe⟩ := engineStep_left .wrapping s left (hstep .wrapping)
  have e : t' = { t with left := left } := Option.some.inj ((hstep' .wrapping).symm.trans hleft)
  rw [e, hframe] at hinv
  exact hinv

/-! ## The outbound thread -/

theorem packetsTo_concat (c : ℕ) (said : List Said) (x : Said) :
    packetsTo c (said ++ [x]) = packetsTo c said ++
      ((responseOf x).toList.filter (·.clientId = c)).map fun r => encodeSoupSequenced r.ouch maxSoupPacket := by
  unfold packetsTo responsesTo
  rw [List.filterMap_append, List.filter_append, List.map_append]
  cases hx : responseOf x <;> simp [hx]

theorem eq_gateway {note : ServerNote} {gateway : GatewayNote} (h : note.gateway? = some gateway) :
    note = .gateway gateway := by
  cases note with
  | gateway g => exact congrArg _ (Option.some.inj h)
  | _ => cases h

/-- Every record is of a note of its client. -/
theorem recordsOf_client {notes : List GatewayNote} {id : ℕ} {r : OrderRecord} (h : Spec.recordsOf notes id = some r) :
    ∃ note ∈ notes, note.client = r.clientId := by
  induction notes using List.reverseRecOn with
  | nil => cases h
  | append_singleton notes note ih =>
    rw [recordsOf_concat] at h
    by_cases hid : Spec.noteId note = some id
    · refine ⟨note, List.mem_append_right _ (List.mem_singleton.mpr rfl), ?_⟩
      cases note with
      | rejected _ _ => cases hid
      | _ id' r' =>
        cases hid
        rw [Spec.record, Function.update_self] at h
        exact congrArg OrderRecord.clientId (Option.some.inj h)
    · rw [record_of_ne hid] at h
      obtain ⟨note', hm, hc⟩ := ih h
      exact ⟨note', List.mem_append_left _ hm, hc⟩

/-- An event the responder is ready for can be answered. -/
theorem Inv.sendable_event (h : s.Inv n g₀ v₀) {e : Event} (hk : Known (Spec.recordsOf (Spec.applied s.said)) e)
    {timestamp : UInt64} {r : OuchResponse} (hr : answer (Spec.recordsOf (Spec.applied s.said)) e timestamp = some r) :
    s.system.outbound.Sendable r := by
  obtain ⟨r', hr', hans, hfits⟩ := hk.answer_ok timestamp
  obtain rfl := Option.some.inj (hr'.symm.trans hr)
  obtain ⟨record, hrec, hclient⟩ := hk.record
  obtain ⟨note, hm, hc⟩ := recordsOf_client hrec
  rw [h.applied] at hm
  obtain ⟨note', hm', hg⟩ := List.mem_filterMap.mp hm
  rw [eq_gateway hg] at hm'
  obtain ⟨conn, sequence, hl⟩ := h.loginsFirst.login_of_mem hm'
  have hlog := h.logs _ conn sequence hl
  rw [hc, hclient, ← hans.1] at hlog
  exact ⟨hlog, hfits⟩

/-- A gateway note can be answered when it is taken. -/
theorem Inv.sendable_note (h : s.Inv n g₀ v₀) {note : GatewayNote}
    (hnote : s.inbound.notes[s.system.taken]? = some (.gateway note)) {timestamp : UInt64} {r : OuchResponse}
    (hr : Spec.rejection timestamp note = some r) : s.system.outbound.Sendable r := by
  obtain ⟨hlt, hget⟩ := List.getElem?_eq_some_iff.mp hnote
  obtain ⟨conn, sequence, hl⟩ := h.loginsFirst (s.inbound.notes.take s.system.taken) note
    (s.inbound.notes.drop (s.system.taken + 1)) (by
      rw [← hget, ← List.drop_eq_getElem_cons hlt, List.take_append_drop])
  have hlog := h.logs _ conn sequence hl
  cases note with
  | rejected reason record =>
    cases hr
    exact ⟨hlog, fitsScratch_of_appendage rfl⟩
  | _ => cases hr

/-- The first of the notes in the ring. -/
theorem ring_cons {note : ServerNote} (hlt : s.system.taken < s.pushed)
    (hnote : s.inbound.notes[s.system.taken]? = some note) :
    (s.inbound.notes.take s.pushed).drop s.system.taken =
      note :: (s.inbound.notes.take s.pushed).drop (s.system.taken + 1) := by
  obtain ⟨hlen, hget⟩ := List.getElem?_eq_some_iff.mp hnote
  rw [List.drop_eq_getElem_cons (by rw [List.length_take]; exact lt_min hlt hlen), List.getElem_take, hget]

theorem take_taken {note : ServerNote} (hnote : s.inbound.notes[s.system.taken]? = some note) :
    s.inbound.notes.take (s.system.taken + 1) = s.inbound.notes.take s.system.taken ++ [note] := by
  rw [List.take_add_one, hnote]
  rfl

/-- A note of the server's own is taken. -/
theorem Inv.takeOwn (h : s.Inv n g₀ v₀) (hlt : s.system.taken < s.pushed) {note : ServerNote}
    (hnote : s.inbound.notes[s.system.taken]? = some note) (hg : note.gateway? = none)
    (hok : System.Ok { s.system with taken := s.system.taken + 1, outbound := s.system.outbound.onNote note }) :
    Inv n g₀ v₀ { s with
      system := { s.system with taken := s.system.taken + 1, outbound := s.system.outbound.onNote note } } := by
  have hkeeps : Outbound.Keeps s.system.outbound (s.system.outbound.onNote note) :=
    Outbound.onNote_keeps _ fun gateway e => by
      rw [e] at hg
      cases hg
  refine ⟨hok, hlt, h.pushed_le, h.one_left, fun left g' v' handled ht => ?_, h.loginsFirst,
    fun c conn sequence hm => ?_, ?_, fun c => ?_⟩
  · have hring := congrArg (List.filterMap (·.gateway?)) (ring_cons hlt hnote)
    rw [List.filterMap_cons_none hg] at hring
    convert h.threads left g' v' handled ht using 1
    simp only [Platform.threads, Platform.inbound, Platform.outbound, hkeeps.responder] at hring ⊢
    rw [hring]
  · have hm : .loginAccepted c conn sequence ∈ s.inbound.notes.take (s.system.taken + 1) := hm
    rw [take_taken hnote] at hm
    rcases List.mem_append.mp hm with hm | hm
    · exact hkeeps.logs c (h.logs c conn sequence hm)
    · rw [List.mem_singleton] at hm
      subst hm
      exact (Outbound.acceptLogin_answers s.system.outbound c conn sequence).2
  · show Spec.applied s.said = (s.inbound.notes.take (s.system.taken + 1)).filterMap _
    rw [take_taken hnote, List.filterMap_append, ← h.applied]
    simp [hg]
  · show (s.system.outbound.onNote note).history.appended c = _
    rw [hkeeps.appended]
    exact h.appended c

/-- A gateway note is taken, and answered if it is a rejection. -/
theorem Inv.takeGateway (h : s.Inv n g₀ v₀) (hlt : s.system.taken < s.pushed)
    (hpc : ∀ k event, s.loop.outbound ≠ .answer k event) {note : GatewayNote}
    (hnote : s.inbound.notes[s.system.taken]? = some (.gateway note)) (hok : System.Ok { s.system with
      taken := s.system.taken + 1, outbound := s.system.outbound.onNote (.gateway note) }) :
    Inv n g₀ v₀ { s with
      system := { s.system with taken := s.system.taken + 1, outbound := s.system.outbound.onNote (.gateway note) }
      said := s.said ++ [.note note
        (s.outbound.responder.onNote note (s.outbound.clock.nsSinceMidnight s.outbound.rdtsc.1)).2] } := by
  have hd := Outbound.onNote_delivers s.system.outbound note fun r hr => by
    rw [OuchResponder.onNote_snd] at hr
    exact h.sendable_note hnote hr
  refine ⟨hok, hlt, h.pushed_le, h.one_left, fun left g' v' handled ht => ?_, h.loginsFirst,
    fun c conn sequence hm => ?_, ?_, fun c => ?_⟩
  · have hring := congrArg (List.filterMap (·.gateway?)) (ring_cons hlt hnote)
    obtain ⟨done, undone, current, rest, L, hat⟩ := h.threads left g' v' handled ht
    have hinv : ((s.threads left).onNote (fun _ => s.outbound.clock.nsSinceMidnight s.outbound.rdtsc.1) note _).Inv
        n g' v' handled := ⟨done, undone, current, rest, L, hat.onNote ht hring hpc _⟩
    convert hinv using 1
    simp only [Platform.threads, Threads.onNote, Platform.inbound, Platform.outbound, hd.responder]
  · have hm : .loginAccepted c conn sequence ∈ s.inbound.notes.take (s.system.taken + 1) := hm
    rw [take_taken hnote] at hm
    rcases List.mem_append.mp hm with hm | hm
    · exact hd.logs c (h.logs c conn sequence hm)
    · cases List.mem_singleton.mp hm
  · show Spec.applied (s.said ++ [_]) = (s.inbound.notes.take (s.system.taken + 1)).filterMap _
    rw [take_taken hnote, List.filterMap_append, ← h.applied, Spec.applied, List.filterMap_append]
    rfl
  · show (s.system.outbound.onNote (.gateway note)).history.appended c = _
    rw [hd.appended, packetsTo_concat, ← h.appended]
    rfl

section

variable (hrecs : v₀.recs = fun _ => none) (hlives : ∀ id, v₀.lives id = .unborn)

include hrecs hlives

/-- The thread goes on without a note or an answer. -/
theorem Inv.moves (h : s.Inv n g₀ v₀) (events : List EngineEvent) (loop : LoopPc)
    (hstep : ∀ left, (s.threads left).outboundStep (fun _ => 0) (fun _ => 0) =
      { s.threads left with events := events, outbound := loop.outbound }) :
    Inv n g₀ v₀ { s with events := events, loop := loop } := by
  refine { h with threads := fun left g' v' handled ht => ?_ }
  have hinv := (h.threads left g' v' handled ht).outbound ht hrecs hlives (fun _ => 0) fun _ => 0
  rw [hstep] at hinv
  exact hinv

/-- `drain_notes` in the loop before `next`. -/
theorem Inv.drain (h : s.Inv n g₀ v₀)
    (hpc : ∀ k event, s.loop.outbound ≠ .answer k event) {next : LoopPc}
    (hnext : ∀ t : Threads, t.notes = [] → t.outbound = s.loop.outbound →
      t.outboundStep (fun _ => 0) (fun _ => 0) = { t with outbound := next.outbound }) :
    ∃ s', s.drainNotes next = some s' ∧ s'.Inv n g₀ v₀ := by
  unfold drainNotes
  split
  · next hlt =>
    obtain ⟨note, hnote⟩ : ∃ note, s.inbound.notes[s.system.taken]? = some note :=
      ⟨_, List.getElem?_eq_getElem (Nat.lt_of_lt_of_le hlt h.pushed_le)⟩
    obtain ⟨system, hs, hok⟩ := System.step_ok h.system .takeNote
    have hnote' : s.system.inbound.notes[s.system.taken]? = some note := hnote
    have hs' := hs
    rw [System.step, hnote'] at hs'
    obtain rfl := Option.some.inj hs'
    rw [hnote]
    dsimp only
    rw [onSystem, hs]
    refine ⟨_, rfl, ?_⟩
    cases hg : note.gateway? with
    | none =>
      have e : s.saidOf note = none := by rw [saidOf, hg]; rfl
      rw [e, Option.toList_none, List.append_nil]
      exact h.takeOwn hlt hnote hg hok
    | some gateway =>
      obtain rfl := eq_gateway hg
      exact h.takeGateway hlt hpc hnote hok
  · next hge =>
    refine ⟨_, rfl, h.moves hrecs hlives s.events next fun left => hnext _ ?_ rfl⟩
    show ((s.inbound.notes.take s.pushed).drop s.system.taken).filterMap _ = []
    rw [List.drop_of_length_le (Nat.le_trans (List.length_take_le _ _) (Nat.not_lt.mp hge))]
    rfl

/-- `on_event` in the loop. -/
theorem Inv.answer (hall : ∀ ms, ∃ g' v' handled, Trail n g₀ v₀ ms g' v' handled) (h : s.Inv n g₀ v₀) {k : ℕ}
    {event : EngineEvent} (hpc : s.loop = .answer k event) : ∃ s', s.onAnswer k event = some s' ∧ s'.Inv n g₀ v₀ := by
  have hpc' : ∀ left, (s.threads left).outbound = .answer k event := fun left => by
    show s.loop.outbound = _
    rw [hpc]
    rfl
  -- the responder goes on as the thread does
  have hstep : ∀ left g' v' handled, Trail n g₀ v₀ (s.messages ++ left) g' v' handled →
      Threads.Inv n g' v' handled { (s.threads left).onEvent s.system.outbound.clock.nsSinceMidnight event with
        outbound := .poll (k + 1) } := fun left g' v' handled ht => by
    have hinv := (h.threads left g' v' handled ht).outbound ht hrecs hlives s.system.outbound.clock.nsSinceMidnight
      fun _ => 0
    rwa [show (s.threads left).outboundStep s.system.outbound.clock.nsSinceMidnight (fun _ => 0) =
        { (s.threads left).onEvent s.system.outbound.clock.nsSinceMidnight event with outbound := .poll (k + 1) } by
      simp only [Threads.outboundStep, hpc']] at hinv
  obtain ⟨g', v', handled, ht⟩ := hall (s.messages ++ [])
  obtain ⟨hknown, timestamp, hanswer⟩ := (hstep [] g' v' handled ht).right rfl
  have hsend : ∀ r, (s.system.outbound.responder.onEvent event.toEvent
      (s.system.outbound.clock.nsSinceMidnight event.enginePushTsc)).2 = some r → s.system.outbound.Sendable r := by
    intro r hr
    have hmono : ∀ id r, Spec.recordsOf (Spec.applied s.said) id = some r →
        Spec.recordsOf (notesOf handled) id = some r := fun _ _ =>
      recordsOf_mono ht.noteIds.2 (h.threads [] g' v' handled ht).applied_isPrefix (List.prefix_refl _)
    have hanswer := hanswer.trans (hknown.answer_eq hmono timestamp)
    exact h.sendable_event hknown (hanswer.symm.trans hr)
  have hd := Outbound.onEvent_delivers s.system.outbound event hsend
  obtain ⟨system, hs, hok⟩ := System.step_ok h.system (.event event)
  obtain rfl := Option.some.inj hs
  refine ⟨{ s with
      system := { s.system with outbound := s.system.outbound.onEvent event }
      loop := .poll (k + 1)
      said := s.said ++ [.event event.toEvent (s.outbound.responder.onEvent event.toEvent
        (s.outbound.clock.nsSinceMidnight event.enginePushTsc)).2] }, rfl,
    hok, h.taken_le, h.pushed_le, h.one_left, fun left g' v' handled ht => ?_, h.loginsFirst,
    fun c conn sequence hm => hd.logs c (h.logs c conn sequence hm), ?_, fun c => ?_⟩
  · convert hstep left g' v' handled ht using 1
    simp only [Platform.threads, Threads.onEvent, Platform.inbound, Platform.outbound, hd.responder, LoopPc.outbound]
  · show Spec.applied (s.said ++ [_]) = _
    rw [Spec.applied, List.filterMap_append]
    exact (List.append_nil _).trans h.applied
  · show (s.system.outbound.onEvent event).history.appended c = _
    rw [hd.appended, packetsTo_concat, ← h.appended]
    rfl

theorem Inv.outbound (hall : ∀ ms, ∃ g' v' handled, Trail n g₀ v₀ ms g' v' handled) (h : s.Inv n g₀ v₀)
    (due shutdown : Bool) : ∃ s', s.onOutbound due shutdown = some s' ∧ s'.Inv n g₀ v₀ := by
  have hout : ∀ left, (s.threads left).outbound = s.loop.outbound := fun _ => rfl
  -- a step of the system, or none
  have happart : ∀ step : System.Step, Apart step → ∀ {loop : LoopPc}, loop.outbound = s.loop.outbound →
      ∃ s', ((s.onSystem step).map fun s' => { s' with loop := loop }) = some s' ∧ s'.Inv n g₀ v₀ := by
    intro step ha loop hloop
    obtain ⟨system, hs, hinv⟩ := h.apart ha hloop
    exact ⟨_, by rw [onSystem, hs]; rfl, hinv⟩
  have hstay : ∀ {loop : LoopPc}, loop.outbound = s.loop.outbound → Inv n g₀ v₀ { s with loop := loop } := fun hloop =>
    h.around h.system rfl rfl (.refl _) hloop
  unfold onOutbound
  cases hpc : s.loop with
  | top =>
    dsimp only
    split
    · exact happart .closeAll trivial (by rw [hpc]; rfl)
    · exact ⟨_, rfl, hstay (by rw [hpc]; rfl)⟩
  | drain =>
    refine h.drain hrecs hlives (by rw [hpc]; nofun) fun t hnotes ht => ?_
    rw [hpc] at ht
    simp only [Threads.outboundStep, ht, hnotes, LoopPc.outbound]
  | poll k =>
    have hk : ∀ left, (s.threads left).outbound = .poll k := fun left => by rw [hout, hpc]; rfl
    have hev : ∀ left, (s.threads left).events = s.events := fun _ => rfl
    dsimp only
    split
    · next hlt =>
      split
      · next hevents =>
        refine ⟨_, rfl, h.moves hrecs hlives s.events .flush fun left => ?_⟩
        simp only [Threads.outboundStep, hk, if_pos hlt, hev, hevents, LoopPc.outbound]
      · next event events hevents =>
        refine ⟨_, rfl, h.moves hrecs hlives events (.catchUp k event) fun left => ?_⟩
        simp only [Threads.outboundStep, hk, if_pos hlt, hev, hevents, LoopPc.outbound]
    · next hge =>
      refine ⟨_, rfl, h.moves hrecs hlives s.events .flush fun left => ?_⟩
      simp only [Threads.outboundStep, hk, if_neg hge, LoopPc.outbound]
      rfl
  | catchUp k event =>
    refine h.drain hrecs hlives (by rw [hpc]; nofun) fun t hnotes ht => ?_
    rw [hpc] at ht
    simp only [Threads.outboundStep, ht, hnotes, LoopPc.outbound]
  | answer k event => exact h.answer hrecs hlives hall hpc
  | flush => exact happart .flush trivial (by rw [hpc]; rfl)
  | scan =>
    dsimp only
    split
    · exact happart .heartbeat trivial (by rw [hpc]; rfl)
    · exact ⟨_, rfl, hstay (by rw [hpc]; rfl)⟩
  | stopped => exact ⟨_, rfl, h⟩

end

/-! ## Runs -/

section

variable (hrecs : v₀.recs = fun _ => none) (hlives : ∀ id, v₀.lives id = .unborn)
  (hall : ∀ ms, ∃ g' v' handled, Trail n g₀ v₀ ms g' v' handled)

include hrecs hlives hall

theorem step_ok (h : s.Inv n g₀ v₀) (step : Step) : ∃ s', (∀ a, s.step a step = some s') ∧ s'.Inv n g₀ v₀ := by
  -- only the matching thread computes with `a`
  have hplain : ∀ {x : Option Platform}, (∃ s', x = some s' ∧ s'.Inv n g₀ v₀) →
      ∃ s', (∀ _ : Arith, x = some s') ∧ s'.Inv n g₀ v₀ := fun ⟨s', hs, h'⟩ => ⟨s', fun _ => hs, h'⟩
  have hready : ∀ {x : Option Platform}, (s.ready → ∃ s', x = some s' ∧ s'.Inv n g₀ v₀) →
      ∃ s', (if s.ready then x else some s) = some s' ∧ s'.Inv n g₀ v₀ := fun hx => by
    split
    · next hr => exact hx hr
    · exact ⟨s, rfl, h⟩
  have hsystem : ∀ step : System.Step, Apart step → ∃ s', s.onSystem step = some s' ∧ s'.Inv n g₀ v₀ := by
    intro step ha
    obtain ⟨system, hs, hinv⟩ := h.apart ha rfl
    exact ⟨_, by rw [onSystem, hs]; rfl, hinv⟩
  cases step with
  | accepted conn socket => exact hplain (hready fun hr => h.accepted hr conn socket)
  | packet conn packet stamps => exact hplain (hready fun hr => h.packet hr conn packet stamps)
  | ended conn => exact hplain (hready fun hr => h.ended hr conn)
  | push => exact hplain ⟨_, rfl, h.push⟩
  | engine => exact h.engine hall
  | outbound due shutdown => exact hplain (h.outbound hrecs hlives hall due shutdown)
  | connect => exact hplain (hsystem .connect trivial)
  | connected => exact hplain (hsystem .connected trivial)
  | lost now => exact hplain (hsystem (.lost now) trivial)
  | receive now n conn => exact hplain (hsystem (.receive now n conn) trivial)

theorem run_ok (h : s.Inv n g₀ v₀) (steps : List Step) :
    ∃ s', (∀ a, s.run a steps = some s') ∧ s'.Inv n g₀ v₀ := by
  induction steps generalizing s with
  | nil => exact ⟨s, fun _ => rfl, h⟩
  | cons step steps ih =>
    obtain ⟨s₁, hs, h₁⟩ := step_ok hrecs hlives hall h step
    obtain ⟨s', hrun, h'⟩ := ih h₁
    refine ⟨s', fun a => ?_, h'⟩
    rw [run, hs a]
    exact hrun a

end

theorem Inv.init (k capacity : ℕ) (env : Env) (clock : Clock) (takes : ℕ → ℕ) (sendableAt : ℕ → Bool) (clientId : ℕ)
    (hentry : g₀.entry = { band := Gateway.band }) (hresting : v₀.resting = {}) :
    (Platform.init k capacity env clock takes sendableAt clientId).Inv capacity g₀ v₀ where
  system := .init k clock takes sendableAt clientId
  taken_le := Nat.le_refl 0
  pushed_le := Nat.le_refl 0
  one_left := Nat.zero_le 1
  threads left g' v' handled ht := .new capacity env ht hentry hresting
  loginsFirst past note rest e := by simp [Platform.init, Platform.inbound] at e
  logs _ _ _ hm := by cases hm
  applied := rfl
  appended _ := rfl

/-! ## What was said -/

variable {g' : Gateway} {v' : GatewayView} {handled : List Handled}

/-- What was said is the first of what the run says that handles one message after the other. -/
theorem Inv.said_isPrefix (h : s.Inv n g₀ v₀) (hrecs : v₀.recs = fun _ => none)
    (ht : Trail n g₀ v₀ s.messages g' v' handled) :
    (answered s.said).map outcome <+: (deliveries handled).map outcome ∧
      (rejected s.said).map timeless <+: (rejections handled).map timeless := by
  have hinv := h.threads [] g' v' handled (by rwa [List.append_nil])
  have hlog : s.said = (s.threads []).log := rfl
  rw [hlog]
  constructor
  · rw [hinv.answered_eq, ht.deliveries_eq hrecs]
    exact hinv.events_isPrefix.map _
  · rw [hinv.rejected_eq, ht.rejections_eq]
    exact hinv.applied_isPrefix.filterMap _

theorem Inv.said_eq (h : s.Inv n g₀ v₀) (hrecs : v₀.recs = fun _ => none)
    (ht : Trail n g₀ v₀ s.messages g' v' handled) (hq : s.Quiet) :
    (answered s.said).map outcome = (deliveries handled).map outcome ∧
      (rejected s.said).map timeless = (rejections handled).map timeless := by
  have hinv := h.threads [] g' v' handled (by rwa [List.append_nil])
  have hlog : s.said = (s.threads []).log := rfl
  rw [hlog]
  obtain ⟨happ, hev⟩ := hinv.done hq.2
  constructor
  · rw [hinv.answered_eq, ht.deliveries_eq hrecs, hev]
  · rw [hinv.rejected_eq, ht.rejections_eq, happ]

/-- The responder's messages are read back as they were, and fit. -/
def Plain (ouch : OuchOutboundFrame) : Prop := Spec.ofOutbound (fun _ _ _ => Spec.Regular) ouch ∧ FitsScratch ouch

theorem plain_report (r orig : OrderRecord) (e : Event) (timestamp : UInt64) :
    Plain (Spec.report r orig e timestamp) := by
  unfold Spec.report
  cases e.type <;>
    exact ⟨regular_of_blank rfl (List.map_inj_left.mp rfl), fitsScratch_of_appendage rfl⟩

theorem Plain.decode {ouch : OuchOutboundFrame} (h : Plain ouch) :
    decodeOutboundOuch (payloadOf (encodeSoupSequenced ouch maxSoupPacket)) = ouch := by
  obtain ⟨hr, h0, hfits⟩ := h
  have hmax : encodedSize ouch + 1 ≤ 65535 := by
    simp only [soupHeaderLen, maxSoupPacket] at hfits
    omega
  rw [encodeSoupSequenced_eq h0 hfits hmax]
  exact (decodeOutboundOuch_eq_iff.mpr (encodeOutboundOuch_spec hr (Nat.le_refl _)).2.1).1

/-- What the responder says is on the wire as it is. -/
theorem Inv.said_plain (h : s.Inv n g₀ v₀) (hall : ∀ ms, ∃ g' v' handled, Trail n g₀ v₀ ms g' v' handled)
    {r : OuchResponse} (hr : r ∈ s.said.filterMap responseOf) : Plain r.ouch := by
  obtain ⟨x, hx, hr⟩ := List.mem_filterMap.mp hr
  obtain ⟨pre, post, hlog⟩ := List.append_of_mem hx
  obtain ⟨g', v', handled, ht⟩ := hall (s.messages ++ [])
  have hright := (h.threads [] g' v' handled ht).right hlog
  cases x with
  | note note response =>
    obtain ⟨timestamp, rfl⟩ := hright
    cases note with
    | rejected reason record =>
      cases hr
      exact ⟨regular_of_blank rfl (List.map_inj_left.mp rfl), fitsScratch_of_appendage rfl⟩
    | _ => cases hr
  | event e response =>
    obtain ⟨-, timestamp, rfl⟩ := hright
    obtain ⟨record, -, hr⟩ := Option.bind_eq_some_iff.mp hr
    obtain ⟨orig, -, hr⟩ := Option.bind_eq_some_iff.mp hr
    obtain rfl := Option.some.inj hr
    exact plain_report record orig e timestamp

theorem Inv.bounded (h : s.Inv n g₀ v₀) {c : ℕ} (hc : s.system.session = some c)
    (hb : (responsesTo c s.said).length + 1 < 2 ^ 64) : s.system.Bounded := by
  have hlen : (s.system.outbound.history.appended c).length = (responsesTo c s.said).length :=
    (congrArg List.length (h.appended c)).trans (List.length_map _)
  rw [System.Bounded, System.packets_of_session hc, hlen]
  exact hb

/-- The log of a session was appended the packets to it. -/
theorem Inv.log_ok (h : s.Inv n g₀ v₀) (c : ℕ) :
    ((s.outbound.sessions c).log = none → packetsTo c s.said = []) ∧
      ∀ log, (s.outbound.sessions c).log = some log → log.Ok (packetsTo c s.said) := by
  have hlog := h.system.1.outbound.logs c
  rw [Outbound.LogOk, show s.system.outbound.history.appended c = packetsTo c s.said from h.appended c] at hlog
  refine ⟨fun hnone => ?_, fun log hsome => ?_⟩
  · rw [show (s.system.outbound.sessions c).log = none from hnone] at hlog
    exact hlog.1
  · rw [show (s.system.outbound.sessions c).log = some log from hsome] at hlog
    exact hlog.1

/-- What the client has handled are the first of the messages to its session. -/
theorem Inv.client_told (h : s.Inv n g₀ v₀) (hall : ∀ ms, ∃ g' v' handled, Trail n g₀ v₀ ms g' v' handled)
    (hb : s.system.Bounded) {c : ℕ} (hc : s.system.session = some c) :
    s.system.client.handled.map decodeOutboundOuch <+: (responsesTo c s.said).map (·.ouch) := by
  obtain ⟨hhandled, -⟩ := (h.system.2 hb).delivered h.system.1
  have hpackets : s.system.packets = packetsTo c s.said := (System.packets_of_session hc).trans (h.appended c)
  rw [hpackets] at hhandled
  have hdecode : ((packetsTo c s.said).map payloadOf).map decodeOutboundOuch = (responsesTo c s.said).map (·.ouch) := by
    unfold packetsTo
    rw [List.map_map, List.map_map]
    exact List.map_congr_left fun r hr => (h.said_plain hall (List.mem_of_mem_filter hr)).decode
  rw [← hdecode]
  exact hhandled.map _

/-! ## What the clients know -/

/-- In the end order entry and the book are where the run that handles one message after the
other has them. -/
theorem done_book {t : Threads} (h : t.Inv n g' v' handled) (hd : t.Done) :
    t.entry = g'.entry ∧ ∃ slots, Rep n t.book slots v'.resting := by
  obtain ⟨done, undone, current, rest, _, -, hr, hm, -⟩ := h
  obtain ⟨hleft, -, hrequest, -, hrequests, hengine, -⟩ := hd
  obtain ⟨g₁, v₁, ht, hentry⟩ := hr.trail
  rw [hleft] at ht
  cases ht
  obtain ⟨g₂, v₂, ms, slots, ht, hrep⟩ := hm.trail
  have hundone := hm.requests
  rw [hengine, hrequests] at hundone
  have hcurrent := hr.request
  rw [hrequest] at hcurrent
  have hquiet : plainRequests (undone ++ (current ++ [])) = [] := by
    rw [List.append_nil, plainRequests_append, ← hundone, hcurrent]
    rfl
  exact ⟨hentry, slots, (ht.quiet hquiet).1 ▸ hrep⟩

/-- Rejects of the gateway say nothing of open orders. -/
theorem applyTo_said {said : List Said} {c : ℕ} (hnote : ∀ note r, .note note (some r) ∈ said →
    ∃ m, r.ouch = .orderRejected m) (h : Spec.Holdings) :
    Holdings.applyTo c h (said.filterMap responseOf) =
      Holdings.applyTo c h ((answered said).filterMap Prod.snd) := by
  induction said generalizing h with
  | nil => rfl
  | cons x said ih =>
    have ih := ih fun note r hm => hnote note r (List.mem_cons_of_mem _ hm)
    cases x with
    | note note response =>
      cases response with
      | none => exact ih h
      | some r =>
        obtain ⟨m, hm⟩ := hnote note r List.mem_cons_self
        exact (Holdings.applyTo_rejected c h hm _).trans (ih h)
    | event e response =>
      cases response with
      | none => exact ih h
      | some r =>
        show Holdings.applyTo c h (r :: said.filterMap responseOf) =
          Holdings.applyTo c h (r :: (answered said).filterMap Prod.snd)
        rw [Holdings.applyTo_cons, Holdings.applyTo_cons, ih]

theorem Inv.holdings_eq (h : s.Inv n g₀ v₀) (hrecs : v₀.recs = fun _ => none) (hlives : ∀ id, v₀.lives id = .unborn)
    (hF : Faithful v₀) (hall : ∀ ms, ∃ g' v' handled, Trail n g₀ v₀ ms g' v' handled) (hq : s.Quiet) (c : ℕ) :
    holdings ((responsesTo c s.said).map (·.ouch)) = restingOf s.inbound.entry s.book c := by
  obtain ⟨g', v', handled, ht⟩ := hall s.messages
  have hinv := h.threads [] g' v' handled (by rwa [List.append_nil])
  obtain ⟨hentry, slots, hrep⟩ := done_book hinv hq.2
  have hanswered := hinv.answered_eq
  rw [(hinv.done hq.2).2] at hanswered
  have hk := ht.knows hrecs hlives c
  rw [← Holdings.applyTo_outcome c _ hanswered] at hk
  have hnote : ∀ note r, .note note (some r) ∈ s.said → ∃ m, r.ouch = .orderRejected m := fun note r hm => by
    obtain ⟨pre, post, hlog⟩ := List.append_of_mem hm
    obtain ⟨timestamp, hr⟩ := hinv.right hlog
    cases note with
    | rejected =>
      cases hr
      exact ⟨_, rfl⟩
    | _ => cases hr
  rw [responsesTo, Exchange.holdings_eq, applyTo_said hnote, show s.inbound.entry = g'.entry from hentry]
  exact hk.resting ht.ok.2 (ht.faithful hF) hrep

end Platform

section

variable (k capacity : ℕ) (env : Env) (clock : Clock) (takes : ℕ → ℕ) (sendableAt : ℕ → Bool) (clientId : ℕ)
  (steps : List Platform.Step)

/-- Every message list has a run that handles one message after the other. -/
theorem exists_trail (soupReplayBytes : ℕ) (env : Env) (ms : List Inbound) :
    ∃ g' v' handled, Trail capacity (.new capacity soupReplayBytes env)
      ⟨fun _ => none, fun _ => .unborn, {}, fun _ _ => []⟩ ms g' v' handled := by
  obtain ⟨g, v, handled, -, ht⟩ := (Gateway.Ok.new capacity soupReplayBytes env).trail (fun _ => 0) ms
  exact ⟨g, v, handled, ht⟩

theorem exists_run (soupReplayBytes : ℕ) (env' : Env) :
    ∃ s, (∀ a, (Platform.init k capacity env clock takes sendableAt clientId).run a steps = some s) ∧
      s.Inv capacity (.new capacity soupReplayBytes env') ⟨fun _ => none, fun _ => .unborn, {}, fun _ _ => []⟩ :=
  Platform.run_ok rfl (fun _ => rfl) (exists_trail capacity soupReplayBytes env')
    (.init k capacity env clock takes sendableAt clientId rfl rfl) steps

/-- The platform refines the gateway that completes each message before it reads the next. In
every run, whatever the packets of the connections, the order of the threads' steps, the bytes
the stack takes and the clients' reconnects: nothing undefined happens; every response of the
responder is appended to the log of its client's session, in order, and the log numbers them from
1 and holds the last of them; and what each client has been sent for events and for gateway
rejects is the first of what the gateway sends it on the messages the inbound thread has read,
timestamps aside, and all of it when nothing is under way. -/
theorem platform_refines_gateway (soupReplayBytes : ℕ) (env' : Env) (clock' : ℕ → UInt64) :
    ∃ s g handled, (∀ a, (Platform.init k capacity env clock takes sendableAt clientId).run a steps = some s) ∧
      (∀ a, Gateway.run a clock' (.new capacity soupReplayBytes env') s.messages = some (g, handled)) ∧
      ∀ c, s.outbound.history.appended c = packetsTo c s.said ∧
        ((s.outbound.sessions c).log = none → packetsTo c s.said = []) ∧
        (∀ log, (s.outbound.sessions c).log = some log → log.Ok (packetsTo c s.said)) ∧
        sentTo c ((answered s.said).filterMap Prod.snd) <+: sentTo c ((deliveries handled).filterMap Prod.snd) ∧
        sentTo c (rejected s.said) <+: sentTo c (rejections handled) ∧
        (s.Quiet →
          sentTo c ((answered s.said).filterMap Prod.snd) = sentTo c ((deliveries handled).filterMap Prod.snd) ∧
          sentTo c (rejected s.said) = sentTo c (rejections handled)) := by
  obtain ⟨s, hs, h⟩ := exists_run k capacity env clock takes sendableAt clientId steps soupReplayBytes env'
  obtain ⟨g, v, handled, hrun, ht⟩ := (Gateway.Ok.new capacity soupReplayBytes env').trail clock' s.messages
  refine ⟨s, g, handled, hs, hrun, fun c => ⟨h.appended c, (h.log_ok c).1, (h.log_ok c).2, ?_, ?_, fun hq => ⟨?_, ?_⟩⟩⟩
  · rw [sentTo_answers, sentTo_answers]
    exact ((h.said_isPrefix rfl ht).1.filterMap _).filter _
  · exact (h.said_isPrefix rfl ht).2.filter _
  · rw [sentTo_answers, sentTo_answers, (h.said_eq rfl ht hq).1]
  · rw [sentTo, sentTo, (h.said_eq rfl ht hq).2]

/-- What a client of the load generator reads is what the responder said to its session: the
payloads it has handled, over all its connections, decode to the first of the responses, each
once and in order, as long as the session has fewer than 2^64 - 1 messages. -/
theorem platform_client_reads_responses :
    ∃ s, (∀ a, (Platform.init k capacity env clock takes sendableAt clientId).run a steps = some s) ∧
      ∀ c, s.system.session = some c → (responsesTo c s.said).length + 1 < 2 ^ 64 →
        s.system.client.handled.map decodeOutboundOuch <+: (responsesTo c s.said).map (·.ouch) := by
  obtain ⟨s, hs, h⟩ := exists_run k capacity env clock takes sendableAt clientId steps 0 env
  exact ⟨s, hs, fun c hc hb => h.client_told (exists_trail capacity 0 env) (h.bounded hc hb) hc⟩

/-- When nothing is under way, the messages that were appended to a session's log say which orders
its client has in the book; so a client of the load generator that has read all of them, over
however many connections, knows exactly its resting orders. -/
theorem platform_tells_orders :
    ∃ s, (∀ a, (Platform.init k capacity env clock takes sendableAt clientId).run a steps = some s) ∧
      (s.Quiet → ∀ c, holdings ((responsesTo c s.said).map (·.ouch)) = restingOf s.inbound.entry s.book c ∧
        ((s.outbound.sessions c).log = none → responsesTo c s.said = []) ∧
        (∀ log, (s.outbound.sessions c).log = some log →
          log.Ok ((responsesTo c s.said).map fun r => encodeSoupSequenced r.ouch maxSoupPacket)) ∧
        (s.system.session = some c → (responsesTo c s.said).length + 1 < 2 ^ 64 →
          s.system.client.handled.length = (responsesTo c s.said).length →
            holdings (s.system.client.handled.map decodeOutboundOuch) = restingOf s.inbound.entry s.book c)) := by
  obtain ⟨s, hs, h⟩ := exists_run k capacity env clock takes sendableAt clientId steps 0 env
  refine ⟨s, hs, fun hq c => ?_⟩
  have hholdings := h.holdings_eq rfl (fun _ => rfl) nofun (exists_trail capacity 0 env) hq c
  refine ⟨hholdings, fun hnone => List.map_eq_nil_iff.mp ((h.log_ok c).1 hnone), (h.log_ok c).2, fun hc hb hlen => ?_⟩
  have htold := h.client_told (exists_trail capacity 0 env) (h.bounded hc hb) hc
  rw [htold.eq_of_length (by rw [List.length_map, List.length_map, hlen])]
  exact hholdings

end

/-- A client logs in and enters an order, and reads that it was accepted. -/
example : ((Platform.init 0 4 sampleEnv ⟨fun _ => 0, id, fun _ => 0⟩ (fun _ => 1000) (fun _ => true) 0).run .wrapping
    ([.connect, .connected, .accepted ⟨0, 1⟩ (some 0),
      .packet ⟨0, 1⟩ ⟨SoupPacketType.loginRequest.byte, payloadOf (loginBytes 0 1)⟩ {}, .push] ++
      List.replicate 6 (.outbound false false) ++
      [.packet ⟨0, 1⟩ ⟨SoupPacketType.unsequencedData.byte, encodeInboundOuch sampleEnter.msg 128⟩ {}, .push, .push] ++
      List.replicate 6 .engine ++ List.replicate 12 (.outbound false false) ++ [.receive 0 128 ⟨0, 1⟩])).map
    (fun s => s.system.client.handled.map fun payload => payload.head?) = some [some (chr 'A')] := by
  decide +kernel

end Exchange
