import SymbolicLtl.Proofs.Network.Steps

/-!
The books of a run. The active counter is the number of workers at work and of registered messages,
and every message that was sent has been received or is still on its way.
-/
namespace SymbolicLtl

theorem le_totalOf {α : Type} {k : Nat} (f : α → Nat) (v : Family k α) (i : Fin k) :
    f (v i) ≤ totalOf f v := le_sumOf (f := fun q => f (v q)) (List.mem_finRange i)

theorem add_le_totalOf {α : Type} {k : Nat} (f : α → Nat) (v : Family k α) {i j : Fin k}
    (hij : j ≠ i) : f (v i) + f (v j) ≤ totalOf f v := by
  -- Without the first value the second is still part of the sum.
  have hrest := @sumOf_update k (fun q => f (v q)) (fun q => if q = i then 0 else f (v q)) i
    (fun q hq => if_neg hq) _ (List.nodup_finRange k) (List.mem_finRange i)
  have hj := @le_sumOf _ (fun q => if q = i then 0 else f (v q)) _ j (List.mem_finRange j)
  simp only [if_neg hij, if_true] at hrest hj
  unfold totalOf
  omega

theorem totalOf_const {α : Type} {k : Nat} {f : α → Nat} {v : Family k α} {a : Nat}
    (h : ∀ i, f (v i) = a) : totalOf f v = k * a := by
  have hsum : ∀ l : List (Fin k), sumOf (fun q => f (v q)) l = l.length * a := by
    intro l
    induction l with
    | nil => simp [sumOf]
    | cons i l ih =>
      rw [sumOf, ih, h i, List.length_cons, Nat.succ_mul]
      omega
  unfold totalOf
  rw [hsum, List.length_finRange]

theorem totalOf_eq_zero {α : Type} {k : Nat} {f : α → Nat} {v : Family k α}
    (h : ∀ i, f (v i) = 0) : totalOf f v = 0 := totalOf_const h

namespace ActiveCounter

/-- A counter of so many bits can hold an amount. -/
def Room (bits : Option Nat) (amount : Nat) : Prop := ∀ b ∈ bits, 2 * amount < 2 ^ b

theorem Room.mono {bits : Option Nat} {amount less : Nat} (h : Room bits amount)
    (hle : less ≤ amount) : Room bits less := fun b hb => by
  have := h b hb
  omega

theorem shift_eq {c : ActiveCounter} {amount : Int} {total : Nat} (h : Room c.bits total)
    (htotal : c.value + amount = total) : c.shift amount = ⟨total, c.bits⟩ := by
  unfold shift
  cases hbits : c.bits with
  | none => simp only [htotal]
  | some bits =>
    have hlt := h bits hbits
    have hround : Int.bmod total (2 ^ bits) = total := Int.bmod_eq_of_le (by omega) (by omega)
    simp only [htotal, Nat.pow_eq, hround]

theorem bits_repeat_inc (k : Nat) (c : ActiveCounter) : (Nat.repeat inc k c).bits = c.bits := by
  induction k with
  | zero => rfl
  | succ k ih => exact ih

theorem repeat_inc {bits : Option Nat} {k : Nat} (h : Room bits k) :
    Nat.repeat inc k ⟨0, bits⟩ = ⟨k, bits⟩ := by
  induction k with
  | zero => rfl
  | succ k ih =>
    change inc (Nat.repeat inc k _) = _
    rw [ih (h.mono k.le_succ), inc, @shift_eq ⟨k, bits⟩ _ _ h rfl]

end ActiveCounter

namespace Network

variable {n : Nat} {p : Product n} {net : Network p}

namespace Phase

/-- One for a worker that neither waits nor has finished. A worker that has seen the end has. -/
@[simp] def active : Phase net → Nat
  | .waiting | .quitting _ | .returned => 0
  | _ => 1

/-- One for a worker that holds a message known to the counter: a packet that is about to be sent, or
a message that is about to be accounted for. -/
@[simp] def registered : Phase net → Nat
  | .sending (_ :: _) true | .counting _ _ => 1
  | _ => 0

@[simp] def taken : Phase net → Nat
  | .counting _ _ => 1
  | _ => 0

end Phase

def dataCount (b : Mailbox Table) : Nat := b.countP fun m => !m.isQuit

theorem dataCount_cons (m : Message Table) (b : Mailbox Table) :
    dataCount (m :: b) = dataCount b + if m.isQuit then 0 else 1 := by
  cases h : m.isQuit <;> simp [dataCount, h]

theorem dataCount_send (m : Message Table) (b : Mailbox Table) :
    dataCount (b.send m) = dataCount b + if m.isQuit then 0 else 1 := by
  cases h : m.isQuit <;> simp [dataCount, Mailbox.send, h]

namespace Config

def active (c : Config net) : Nat := totalOf (fun s => s.phase.active) c.workers

def registered (c : Config net) : Nat :=
  totalOf (fun s => s.phase.registered) c.workers + totalOf dataCount c.mailboxes

def Fits (c : Config net) : Prop := ActiveCounter.Room c.counter.bits (c.active + c.registered)

/-- The books are kept: the counter has its meaning, and no message gets lost. -/
structure Books (c : Config net) : Prop where
  room : c.Fits
  value : c.counter.value = c.active + c.registered
  sent : totalOf (fun s => s.tally.sent) c.workers =
    totalOf (fun s => s.tally.received) c.workers +
      (totalOf (fun s => s.phase.taken) c.workers + totalOf dataCount c.mailboxes)

/-- Every message is for states in the slice of its receiver. -/
abbrev InSlices (c : Config net) : Prop := c.Carries (fun _ _ => True) fun _ _ => True

theorem preserves_slices (dir : Direction) (states : StateSets n p.size)
    (constraint : Constraint n) :
    net.Preserves dir states constraint (fun _ _ => True) fun _ _ => True :=
  ⟨fun _ => trivial, fun _ _ _ _ _ => trivial, fun _ _ _ _ _ _ => trivial,
    fun _ _ _ _ _ => trivial, fun _ _ _ _ _ _ _ _ _ _ => trivial⟩

/-- A step counts what the worker and a mailbox gain or lose. -/
theorem counted_set {c c' : Config net} {w t : net.Id} {s : WorkerState net} {b : Mailbox Table}
    (hw : c'.workers = c.workers.set w s) (hm : c'.mailboxes = c.mailboxes.set t b) :
    c'.active + c'.registered + ((c.workers w).phase.active + (c.workers w).phase.registered +
      dataCount (c.mailboxes t)) = c.active + c.registered +
        (s.phase.active + s.phase.registered + dataCount b) := by
  have h₁ := totalOf_set (fun s : WorkerState net => s.phase.active) c.workers w s
  have h₂ := totalOf_set (fun s : WorkerState net => s.phase.registered) c.workers w s
  have h₃ := totalOf_set dataCount c.mailboxes t b
  unfold active registered
  rw [hw, hm]
  omega

namespace Books

variable {c c' : Config net}

/-- A step keeps the books if the counter and the tally follow what the worker and a mailbox gain or
lose. -/
theorem update (h : Books c) {w t : net.Id} {s : WorkerState net} {b : Mailbox Table}
    (hw : c'.workers = c.workers.set w s) (hm : c'.mailboxes = c.mailboxes.set t b)
    (hroom : c'.Fits)
    (hvalue : c'.counter.value + ((c.workers w).phase.active + (c.workers w).phase.registered +
      dataCount (c.mailboxes t) : Nat) = c.counter.value +
        (s.phase.active + s.phase.registered + dataCount b : Nat))
    (hsent : s.tally.sent + ((c.workers w).tally.received + (c.workers w).phase.taken +
      dataCount (c.mailboxes t)) = (c.workers w).tally.sent +
        (s.tally.received + s.phase.taken + dataCount b)) : Books c' := by
  have hcounted := counted_set hw hm
  have h₁ := totalOf_set (fun s : WorkerState net => s.phase.taken) c.workers w s
  have h₂ := totalOf_set (fun s : WorkerState net => s.tally.sent) c.workers w s
  have h₃ := totalOf_set (fun s : WorkerState net => s.tally.received) c.workers w s
  have h₄ := totalOf_set dataCount c.mailboxes t b
  have hv := h.value
  have hs := h.sent
  refine ⟨hroom, ?_, ?_⟩
  · omega
  · rw [hw, hm]
    omega

theorem updateWorker (h : Books c) {w : net.Id} {s : WorkerState net}
    (hw : c'.workers = c.workers.set w s) (hm : c'.mailboxes = c.mailboxes)
    (hroom : c'.Fits)
    (hvalue : c'.counter.value + ((c.workers w).phase.active + (c.workers w).phase.registered : Nat) =
      c.counter.value + (s.phase.active + s.phase.registered : Nat))
    (hsent : s.tally.sent + ((c.workers w).tally.received + (c.workers w).phase.taken) =
      (c.workers w).tally.sent + (s.tally.received + s.phase.taken)) : Books c' := by
  refine h.update (t := w) (b := c.mailboxes w) hw (by rw [hm, Family.set_get]) hroom ?_ ?_
  · push_cast at hvalue ⊢
    omega
  · omega

theorem active_le (h : Books c) (w : net.Id) :
    ((c.workers w).phase.active + (c.workers w).phase.registered : Nat) ≤ c.counter.value := by
  have h₁ := le_totalOf (fun s : WorkerState net => s.phase.active) c.workers w
  have h₂ := le_totalOf (fun s : WorkerState net => s.phase.registered) c.workers w
  have hv := h.value
  unfold active registered at hv
  omega

/-- Where something is counted, it can be taken off. -/
theorem shift_eq (h : Books c) (hpos : 0 < c.counter.value) :
    c.counter.shift (-1) = { c.counter with value := c.counter.value - 1 } := by
  have hv := h.value
  have hroom : ActiveCounter.Room c.counter.bits (c.active + c.registered - 1) :=
    h.room.mono (by omega)
  have htotal : c.counter.value + -1 = (c.active + c.registered - 1 : Nat) := by omega
  rw [ActiveCounter.shift_eq hroom htotal, ← htotal]
  rfl

/-- A worker that withdraws finds work on the counter: its own. -/
theorem done_eq (h : Books c) {w : net.Id} {registered : Bool}
    (hp : (c.workers w).phase = .sending [] registered) : c.counter.done =
      ({ c.counter with value := c.counter.value - 1 }, .ok (c.counter.value - 1 == 0)) := by
  have hpos := h.active_le w
  rw [hp] at hpos
  simp only [Phase.active, Phase.registered] at hpos
  have hlow : ¬c.counter.value - 1 < 0 := by omega
  simp only [ActiveCounter.done, h.shift_eq (by omega), if_neg hlow]

/-- A worker that accounts for a message finds both on the counter. -/
theorem consume_eq (h : Books c) {w : net.Id} {gathered : Diagram n} {received : Table}
    (hp : (c.workers w).phase = .counting gathered received) :
    c.counter.consume = ({ c.counter with value := c.counter.value - 1 }, .ok ()) := by
  have hpos := h.active_le w
  rw [hp] at hpos
  simp only [Phase.active, Phase.registered] at hpos
  have hlow : ¬c.counter.value - 1 ≤ 0 := by omega
  simp only [ActiveCounter.consume, h.shift_eq (by omega), if_neg hlow]

theorem inc_eq (h : Books c) {w : net.Id} {s : WorkerState net} {x : net.Packet}
    {xs : List net.Packet} (hp : (c.workers w).phase = .sending (x :: xs) false)
    (hs : s.phase = .sending (x :: xs) true)
    (hroom : Fits ((c.setCounter c.counter.inc).setWorker w s)) :
    c.counter.inc = { c.counter with value := c.counter.value + 1 } := by
  have hcounted := @counted_set _ _ _ c ((c.setCounter c.counter.inc).setWorker w s) w w s
    (c.mailboxes w) rfl (Family.set_get _ _).symm
  simp only [hp, hs, Phase.active, Phase.registered] at hcounted
  have hv := h.value
  have htotal : c.counter.value + 1 = (c.active + c.registered + 1 : Nat) := by omega
  have hroom' : ActiveCounter.Room c.counter.bits (c.active + c.registered + 1) :=
    hroom.mono (by omega)
  rw [ActiveCounter.inc, ActiveCounter.shift_eq hroom' htotal, ← htotal]

/-- A worker that passes states on is counted as it was before. -/
theorem propagate (h : Books c) {w : net.Id} {s : WorkerState net} {dir : Direction} {d : Diagram n}
    (hcounter : c'.counter = c.counter) (hw : c'.workers = c.workers.set w (s.propagate dir w d))
    (hm : c'.mailboxes = c.mailboxes) (hroom : c'.Fits)
    (hactive : (c.workers w).phase.active = 1) (hregistered : (c.workers w).phase.registered = 0)
    (htaken : (c.workers w).phase.taken = 0)
    (hsent : s.tally.sent = (c.workers w).tally.sent)
    (hreceived : s.tally.received = (c.workers w).tally.received) : Books c' := by
  obtain ⟨hnew, hregistered', htaken', hsent', hreceived'⟩ :
      (s.propagate dir w d).phase.active = 1 ∧ (s.propagate dir w d).phase.registered = 0 ∧
        (s.propagate dir w d).phase.taken = 0 ∧ (s.propagate dir w d).tally.sent = s.tally.sent ∧
        (s.propagate dir w d).tally.received = s.tally.received := by
    rcases s.propagate_cases dir w d with ⟨packets, images, -, heq⟩ | ⟨-, heq⟩
    · rw [heq]
      cases packets <;> exact ⟨rfl, rfl, rfl, rfl, rfl⟩
    · rw [heq]
      exact ⟨rfl, rfl, rfl, rfl, rfl⟩
  refine h.updateWorker hw hm hroom ?_ ?_
  · rw [hcounter]
    omega
  · omega

theorem step {dir : Direction} {states : StateSets n p.size} {constraint : Constraint n}
    {w : net.Id} (h : Books c) (hb : c.Briefed states constraint) (hc : InSlices c)
    (hs : Step dir c w c') (hroom : c'.Fits) : Books c' := by
  cases hs with
  | launch hp =>
    rw [hb.launch_eq hp] at hroom ⊢
    exact h.propagate rfl rfl rfl hroom (by rw [hp]; rfl) (by rw [hp]; rfl) (by rw [hp]; rfl) rfl rfl
  | withdraw hp =>
    -- Whether it waits now or has seen the end, the worker is no longer counted.
    rw [h.done_eq hp] at hroom ⊢
    refine h.updateWorker rfl rfl hroom ?_ ?_
    · cases hz : c.counter.value - 1 == 0 <;> simp [afterDone, hp]
    · cases hz : c.counter.value - 1 == 0 <;> simp [afterDone, hp]
  | register hp =>
    have hinc := h.inc_eq hp rfl hroom
    refine h.updateWorker rfl rfl hroom ?_ ?_
    · simp [hinc, hp]
      omega
    · simp [hp]
  | deliver hp =>
    -- The registered message moves from the sender into a mailbox.
    refine h.update rfl rfl hroom ?_ ?_
    · simp [dataCount_send, Message.isQuit, hp]
      omega
    · simp [dataCount_send, Message.isQuit, hp]
      omega
  | leave hp hm hq =>
    refine h.update rfl rfl hroom ?_ ?_
    · simp [dataCount_cons, hm, hq, hp]
    · simp [dataCount_cons, hm, hq, hp]
  | take hp hm hq =>
    -- The message stays on the counter as the worker that it has woken.
    obtain ⟨d, hd, -⟩ := hc.mail w _ (hm ▸ List.mem_cons_self) hq
    rw [WorkerState.receive_eq hd] at hroom ⊢
    refine h.update rfl rfl hroom ?_ ?_
    · simp [dataCount_cons, hm, hq, hp]
      omega
    · simp [dataCount_cons, hm, hq, hp]
      omega
  | finish hp hm =>
    exact h.propagate rfl rfl rfl hroom (by rw [hp]; rfl) (by rw [hp]; rfl) (by rw [hp]; rfl) rfl rfl
  | startle hp hm hq =>
    refine h.update rfl rfl hroom ?_ ?_
    · simp [dataCount_cons, hm, hq, hp]
    · simp [dataCount_cons, hm, hq, hp]
  | fetch hp hm hq =>
    refine h.update rfl rfl hroom ?_ ?_
    · simp [dataCount_cons, hm, hq, hp]
      omega
    · simp [dataCount_cons, hm, hq, hp]
      omega
  | account hp =>
    -- The message leaves the counter; the worker was on it before.
    have hin := hc.phase w
    rw [hp] at hin
    obtain ⟨-, d, hd, -⟩ := hin
    simp only [h.consume_eq hp, WorkerState.receiveCounted, WorkerState.receive_eq hd] at hroom ⊢
    refine h.updateWorker rfl rfl hroom ?_ ?_
    · simp [hp]
      omega
    · simp [hp]
  | depart hp =>
    refine h.updateWorker rfl rfl hroom ?_ ?_
    · simp [hp]
    · simp [hp]
  | announce hp =>
    refine h.update rfl rfl hroom ?_ ?_
    · simp [dataCount_send, Message.isQuit, hp]
    · simp [dataCount_send, Message.isQuit, hp]

end Books

end Config
end Network
end SymbolicLtl
