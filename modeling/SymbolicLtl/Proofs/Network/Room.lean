import Mathlib.Tactic.Ring
import SymbolicLtl.Proofs.Network.Quiescence

/-!
How much the active counter has to hold. What is counted, together with what may still be sent for
states that have not been reached, never grows during a run, so that a bound can be read off a
network.
-/
namespace SymbolicLtl

theorem totalOf_add_le {α : Type} {k : Nat} {f g h : α → Nat} (hle : ∀ a, f a + g a ≤ h a)
    (v : Family k α) : totalOf f v + totalOf g v ≤ totalOf h v := by
  unfold totalOf
  induction List.finRange k with
  | nil => exact Nat.le_refl _
  | cons i l ih =>
    have := hle (v i)
    simp only [sumOf]
    omega

namespace Network

variable {n : Nat} {p : Product n} {net : Network p}

/-- No more packets are made of one set of states than there are edges, in both directions, and
slices. -/
def spread (net : Network p) : Nat := 2 * p.automaton.edges.length * net.slices.length

/-- No more than this is counted in a run, since a worker reaches something new at most `2 ^ n`
times. -/
def capacity (net : Network p) : Nat := net.size * (1 + net.spread * (1 + 2 ^ n))

theorem Faithful.length_propagate_le (hnet : net.Faithful) {dir : Direction} {w : net.Id}
    {states : Diagram n} {packets : List net.Packet} {images : Nat}
    (h : net.propagate dir w states = .ok (packets, images)) : packets.length ≤ net.spread := by
  refine (Network.length_propagate_le h).trans (Nat.mul_le_mul_right _ ?_)
  have hforward := List.length_filter_le (fun e => e.source.val == (net.stateOf w).val)
    p.automaton.edges
  have hbackward := List.length_filter_le (fun e => e.target.val == (net.stateOf w).val)
    p.automaton.edges
  rw [hnet.forward, hnet.backward, List.length_map, List.length_map, Automaton.outgoing,
    Automaton.incoming]
  omega

/-- What a worker is counted for in a phase, with the packets that it has not registered yet. -/
def Phase.load : Phase net → Nat
  | .starting _ _ => 1 + net.spread
  | .sending packets _ => 1 + packets.length
  | .draining _ | .crashed _ => 1
  | .counting _ _ => 2
  | .waiting | .quitting _ | .returned => 0

theorem Phase.counted_le_load (phase : Phase net) :
    phase.active + phase.registered ≤ phase.load := by
  cases phase with
  | starting input limit => simp [load]
  | sending packets registered =>
    cases packets <;> cases registered <;> simp [load]
    omega
  | waiting | draining _ | counting _ _ | quitting _ | returned | crashed _ => simp [load]

namespace WorkerState

theorem load_propagate (hnet : net.Faithful) (s : WorkerState net) (dir : Direction) (w : net.Id)
    (d : Diagram n) : (s.propagate dir w d).phase.load ≤ 1 + net.spread := by
  rcases s.propagate_cases dir w d with ⟨packets, images, hok, heq⟩ | ⟨-, heq⟩
  · rw [heq]
    have := hnet.length_propagate_le hok
    simp only [Phase.load]
    omega
  · rw [heq]
    simp [Phase.load]

theorem load_launch (hnet : net.Faithful) (s : WorkerState net) (dir : Direction) (w : net.Id)
    (input : Table) (limit : Option Table) :
    (s.launch dir w input limit).phase.load ≤ 1 + net.spread := by
  unfold launch
  split
  · exact load_propagate hnet _ _ _ _
  · simp [Phase.load]

theorem load_receive (s : WorkerState net) (w : net.Id) (gathered : Diagram n) (received : Table) :
    (s.receive w gathered received).phase.load = 1 := by
  unfold receive
  split <;> rfl

end WorkerState

namespace Config

/-- What is counted, and what may still be. -/
def potential (c : Config net) : Nat :=
  totalOf (fun s => s.phase.load) c.workers + totalOf dataCount c.mailboxes +
    net.spread * c.unreached

theorem counted_le_potential (c : Config net) : c.active + c.registered ≤ c.potential := by
  have hload := totalOf_add_le (fun s : WorkerState net => s.phase.counted_le_load) c.workers
  unfold active registered potential
  omega

/-- A step that keeps what a worker has reached gives it no more than a mailbox loses. -/
theorem potential_set_le {c c' : Config net} {w t : net.Id} {s : WorkerState net}
    {b : Mailbox Table} (hw : c'.workers = c.workers.set w s)
    (hm : c'.mailboxes = c.mailboxes.set t b) (hreach : s.reach = (c.workers w).reach)
    (hload : s.phase.load + dataCount b ≤
      (c.workers w).phase.load + dataCount (c.mailboxes t)) : c'.potential ≤ c.potential := by
  have h₁ := totalOf_set (fun s : WorkerState net => s.phase.load) c.workers w s
  have h₂ := totalOf_set dataCount c.mailboxes t b
  have h₃ := totalOf_set (fun s : WorkerState net => s.reach.rejected) c.workers w s
  rw [hreach] at h₃
  have hunreached : c'.unreached = c.unreached := by
    unfold unreached
    rw [hw]
    omega
  unfold potential
  rw [hunreached, hw, hm]
  omega

theorem potential_setWorker_le {c c' : Config net} {w : net.Id} {s : WorkerState net}
    (hw : c'.workers = c.workers.set w s) (hm : c'.mailboxes = c.mailboxes)
    (hreach : s.reach = (c.workers w).reach)
    (hload : s.phase.load ≤ (c.workers w).phase.load) : c'.potential ≤ c.potential :=
  potential_set_le (t := w) (b := c.mailboxes w) hw (by rw [hm, Family.set_get]) hreach
    (Nat.add_le_add_right hload _)

/-- No step leaves more to be counted. -/
theorem Step.potential_le (hnet : net.Faithful) {dir : Direction} {c c' : Config net} {w : net.Id}
    (h : Step dir c w c') : c'.potential ≤ c.potential := by
  cases h with
  | launch hp =>
    refine potential_setWorker_le rfl rfl (reach_launch _ _ _ _ _) ?_
    rw [hp]
    exact WorkerState.load_launch hnet _ _ _ _ _
  | withdraw hp =>
    refine potential_setWorker_le rfl rfl rfl ?_
    rw [hp]
    unfold afterDone
    split <;> simp [Phase.load]
  | register hp =>
    refine potential_setWorker_le rfl rfl rfl ?_
    rw [hp]
    exact Nat.le_refl _
  | deliver hp =>
    refine potential_set_le rfl rfl rfl ?_
    rw [hp, dataCount_send]
    simp [Phase.load, Message.isQuit]
    omega
  | leave hp hm hq =>
    refine potential_set_le rfl rfl rfl ?_
    rw [hp, hm, dataCount_cons]
    simp [Phase.load]
  | take hp hm hq =>
    refine potential_set_le rfl rfl (reach_receive _ _ _ _) ?_
    rw [hp, hm, dataCount_cons, WorkerState.load_receive, hq]
    simp [Phase.load]
    omega
  | @finish gathered hp hm =>
    rcases c.finishBatch_cases dir w gathered with ⟨hphase, hreach⟩ | hlt
    · refine potential_setWorker_le rfl rfl hreach ?_
      rw [hphase, hp]
      simp [Phase.load]
    · -- What is new in a batch pays for the packets that it gives rise to.
      have hload := totalOf_set (fun s : WorkerState net => s.phase.load) c.workers w
        ((c.workers w).finishBatch dir w gathered)
      have hnew : ((c.workers w).finishBatch dir w gathered).phase.load ≤ 1 + net.spread :=
        WorkerState.load_propagate hnet _ _ _ _
      have hpaid := Nat.mul_le_mul_left net.spread hlt
      have hold : (c.workers w).phase.load = 1 := by
        rw [hp]
        rfl
      rw [Nat.mul_succ] at hpaid
      simp only [potential, mailboxes_setWorker]
      change totalOf _ (c.workers.set w _) + _ + _ ≤ _
      omega
  | startle hp hm hq =>
    refine potential_set_le rfl rfl rfl ?_
    rw [hp, hm, dataCount_cons]
    simp [Phase.load]
  | fetch hp hm hq =>
    refine potential_set_le rfl rfl rfl ?_
    rw [hp, hm, dataCount_cons, hq]
    simp [Phase.load]
    omega
  | account hp =>
    unfold WorkerState.receiveCounted
    split
    · refine potential_setWorker_le rfl rfl rfl ?_
      rw [hp]
      simp [Phase.load]
    · refine potential_setWorker_le rfl rfl (reach_receive _ _ _ _) ?_
      rw [hp, WorkerState.load_receive]
      simp [Phase.load]
  | depart hp =>
    refine potential_setWorker_le rfl rfl rfl ?_
    simp [Phase.load]
  | announce hp =>
    refine potential_set_le rfl rfl rfl ?_
    rw [hp, dataCount_send]
    simp [Phase.load, Message.isQuit]

theorem Step.bits_eq {dir : Direction} {c c' : Config net} {w : net.Id} (h : Step dir c w c') :
    c'.counter.bits = c.counter.bits := by
  cases h <;> rfl

theorem potential_start_le {c c₀ : Config net} {bits : Option Nat}
    (hreset : c.reset bits = .ok c₀) (states : StateSets n p.size) (constraint : Constraint n) :
    (c₀.start states constraint).potential ≤ net.capacity := by
  have hload : totalOf (fun s => s.phase.load) (c₀.start states constraint).workers =
      net.size * (1 + net.spread) := totalOf_const fun w => by rw [workers_start]; rfl
  have hunreached : (c₀.start states constraint).unreached =
      net.size * (Diagram.const false : Diagram n).rejected :=
    totalOf_const fun w => by rw [workers_start]
  have hrejected := Nat.mul_le_mul_left net.size (Diagram.const false : Diagram n).rejected_le_pow
  have hpaid := Nat.mul_le_mul_left net.spread (hunreached.trans_le hrejected)
  have hdata := (counted_start hreset states constraint).2.2
  unfold potential
  rw [hload, hdata]
  calc net.size * (1 + net.spread) + 0 + net.spread * (c₀.start states constraint).unreached
      ≤ net.size * (1 + net.spread) + 0 + net.spread * (net.size * 2 ^ n) :=
        Nat.add_le_add_left hpaid _
    _ = net.capacity := by
        unfold capacity
        ring

theorem bits_start {c c₀ : Config net} {bits : Option Nat} (hreset : c.reset bits = .ok c₀)
    (states : StateSets n p.size) (constraint : Constraint n) :
    (c₀.start states constraint).counter.bits = bits := by
  rw [Config.start, (reset_eq_ok hreset).1, ActiveCounter.bits_repeat_inc]

namespace Execution

variable {dir : Direction} {c c₀ c' : Config net} {bits : Option Nat} {states : StateSets n p.size}
  {constraint : Constraint n} {trace : List (Config net × net.Id)}

theorem roomy_of_fits (h : Execution dir c trace c')
    (hfits : ∀ trace c', Execution dir c trace c' → c'.Fits) : Roomy trace c' := by
  induction h with
  | refl => exact ⟨by simp, hfits _ _ .refl⟩
  | step h hw ih => exact ih.step (hfits _ _ (h.step hw))

/-- A counter without a limit is never outgrown. -/
theorem roomy_of_unlimited (hreset : c.reset none = .ok c₀)
    (h : Execution dir (c₀.start states constraint) trace c') : Roomy trace c' := by
  refine h.roomy_of_fits fun trace c' h => ?_
  have hbits := h.keeps (P := fun c => c.counter.bits = none) (bits_start hreset states constraint)
    fun hc hs => hs.bits_eq.trans hc
  rw [Fits, hbits]
  intro b hb
  cases hb

/-- A counter that can hold the capacity of a network is never outgrown. -/
theorem roomy (hnet : net.Faithful) (hreset : c.reset bits = .ok c₀)
    (h : Execution dir (c₀.start states constraint) trace c')
    (hroom : ActiveCounter.Room bits net.capacity) : Roomy trace c' := by
  refine h.roomy_of_fits fun trace c' h => ?_
  obtain ⟨hpotential, hbits⟩ := h.keeps
    (P := fun c => c.potential ≤ net.capacity ∧ c.counter.bits = bits)
    ⟨potential_start_le hreset states constraint, bits_start hreset states constraint⟩
    fun hc hs => ⟨(hs.potential_le hnet).trans hc.1, hs.bits_eq.trans hc.2⟩
  rw [Fits, hbits]
  exact hroom.mono (c'.counted_le_potential.trans hpotential)

end Execution

end Config
end Network
end SymbolicLtl
