import SymbolicLtl.Network.Worker

/-!
Every step of a worker makes progress: the workers reach a new state, or there is less left to do
with those reached. Hence runs of a network end, however its steps are interleaved.
-/
namespace SymbolicLtl

def totalOf {α : Type} {k : Nat} (f : α → Nat) (v : Family k α) : Nat :=
  sumOf (fun q => f (v q)) (List.finRange k)

theorem sumOf_update {k : Nat} {f g : Fin k → Nat} {i : Fin k} (h : ∀ q, q ≠ i → g q = f q)
    {l : List (Fin k)} (hl : l.Nodup) (hi : i ∈ l) : sumOf g l + f i = sumOf f l + g i := by
  have same : ∀ l : List (Fin k), i ∉ l → sumOf g l = sumOf f l := by
    intro l hl
    induction l with
    | nil => rfl
    | cons q l ih =>
      simp only [List.mem_cons, not_or] at hl
      rw [sumOf, sumOf, h q (Ne.symm hl.1), ih hl.2]
  induction l with
  | nil => cases hi
  | cons q l ih =>
    rw [List.nodup_cons] at hl
    simp only [sumOf]
    by_cases hq : q = i
    · subst hq
      have := same l hl.1
      omega
    · have := ih hl.2 (List.mem_of_ne_of_mem (Ne.symm hq) hi)
      have := h q hq
      omega

theorem le_sumOf {α : Type} {f : α → Nat} {l : List α} {a : α} (ha : a ∈ l) : f a ≤ sumOf f l := by
  induction l with
  | nil => cases ha
  | cons x l ih =>
    rw [sumOf]
    rcases List.mem_cons.mp ha with rfl | ha
    · omega
    · have := ih ha
      omega

theorem length_flatMap_le {α β : Type} {f : α → List β} {k : Nat} (hf : ∀ x, (f x).length ≤ k)
    (l : List α) : (l.flatMap f).length ≤ l.length * k := by
  induction l with
  | nil => simp
  | cons x l ih =>
    have := hf x
    rw [List.flatMap_cons, List.length_append, List.length_cons, Nat.succ_mul]
    omega

/-- Replacing a value replaces its amount. -/
theorem totalOf_set {α : Type} {k : Nat} (f : α → Nat) (v : Family k α) (i : Fin k) (x : α) :
    totalOf f (v.set i x) + f (v i) = totalOf f v + f x := by
  have := sumOf_update (f := fun q => f (v q)) (g := fun q => f (v.set i x q)) (i := i)
    (fun q hq => by simp [Family.get_set, hq]) (List.nodup_finRange k) (List.mem_finRange i)
  simpa [totalOf, Family.get_set] using this

namespace Network

variable {n : Nat} {p : Product n} {net : Network p}

/-- An amount of work that a message stands for. -/
def messageWeight (m : Message Table) : Nat := if m.isQuit then 2 else 6

def mailboxWeight (b : Mailbox Table) : Nat := sumOf messageWeight b

/-- An amount of work that includes telling all others to quit. -/
def quitWeight (net : Network p) : Nat := 3 * net.size + 2

/-- More packets than one set of states can give rise to. -/
def fanout (net : Network p) : Nat :=
  sumOf (fun w => (net.station w).forward.length + (net.station w).backward.length)
    (List.finRange net.size) * net.slices.length

/-- An amount of work that is left to a worker in a phase. -/
def phaseWeight : Phase net → Nat
  | .starting _ _ => net.quitWeight + 4 + 8 * net.fanout
  | .sending packets registered =>
    net.quitWeight + 2 + 8 * packets.length + if registered then 0 else 1
  | .waiting => net.quitWeight
  | .draining _ => net.quitWeight + 4
  | .counting _ _ => net.quitWeight + 8
  | .quitting targets => 3 * targets.length + 1
  | .returned | .crashed _ => 0

theorem length_packets_le (w : net.Id) (q : Fin p.size) (states : Diagram n) :
    (net.packets w q states).length ≤ net.slices.length := by
  have := List.length_filterMap_le (fun s : Fin net.slices.length =>
    let part := states.and ((net.station w).cubes s)
    if part.isFalse then none else some (⟨net.idOf q s, part⟩ : net.Packet)) (List.finRange _)
  rwa [List.length_finRange] at this

/-- There is at most one packet for each edge and slice. -/
theorem length_propagate_le {dir : Direction} {w : net.Id} {states : Diagram n}
    {packets : List net.Packet} {images : Nat}
    (h : net.propagate dir w states = .ok (packets, images)) : packets.length ≤
      ((net.station w).forward.length + (net.station w).backward.length) * net.slices.length := by
  have hflat : ∀ {α : Type} (f : α → List net.Packet) (l : List α),
      (∀ x, (f x).length ≤ net.slices.length) →
      l.length ≤ (net.station w).forward.length + (net.station w).backward.length →
      (l.flatMap f).length ≤ _ :=
    fun f l hf hl => Nat.le_trans (length_flatMap_le hf l) (Nat.mul_le_mul_right _ hl)
  unfold propagate at h
  split at h
  · cases h
    simp
  · cases dir with
    | forward =>
      cases h
      refine hflat _ _ (fun x => length_packets_le w _ _) ?_
      refine Nat.le_trans (List.length_filter_le _ _) ?_
      rw [List.length_map]
      omega
    | backward =>
      cases hi : (net.station w).relation.preImage states with
      | error m => simp [hi, bind, Except.bind] at h
      | ok image =>
        simp only [hi, bind, Except.bind, pure, Except.pure] at h
        split at h
        · cases h
          simp
        · cases h
          exact hflat _ _ (fun x => length_packets_le w _ _) (by omega)

theorem length_propagate_le_fanout {dir : Direction} {w : net.Id} {states : Diagram n}
    {packets : List net.Packet} {images : Nat}
    (h : net.propagate dir w states = .ok (packets, images)) : packets.length ≤ net.fanout :=
  Nat.le_trans (length_propagate_le h) (Nat.mul_le_mul_right _ (le_sumOf (f := fun w =>
    (net.station w).forward.length + (net.station w).backward.length) (List.mem_finRange w)))

namespace Config

/-- The number of pairs of a worker and an assignment that it has not reached. -/
def unreached (c : Config net) : Nat := totalOf (fun s => s.reach.rejected) c.workers

/-- The work that is left if nothing new is reached. -/
def pending (c : Config net) : Nat :=
  totalOf (fun s => phaseWeight s.phase) c.workers + totalOf mailboxWeight c.mailboxes

/-- One configuration is ahead of another. -/
def Ahead (c' c : Config net) : Prop :=
  c'.unreached < c.unreached ∨ (c'.unreached = c.unreached ∧ c'.pending < c.pending)

theorem mailboxWeight_send (b : Mailbox Table) (m : Message Table) :
    mailboxWeight (b.send m) = mailboxWeight b + messageWeight m := by
  simp [mailboxWeight, Mailbox.send, sumOf]

/-- A worker that keeps its states and has less to do is ahead. -/
theorem ahead_of_worker {c c' : Config net} {w : net.Id} {s : WorkerState net} {before : Phase net}
    (hb : (c.workers w).phase = before) (hw : c'.workers = c.workers.set w s)
    (hr : s.reach = (c.workers w).reach)
    (hp : phaseWeight s.phase + totalOf mailboxWeight c'.mailboxes <
      phaseWeight before + totalOf mailboxWeight c.mailboxes) : Ahead c' c := by
  right
  subst hb
  have h₁ := totalOf_set (fun s => s.reach.rejected) c.workers w s
  have h₂ := totalOf_set (fun s => phaseWeight s.phase) c.workers w s
  simp only [unreached, pending, hw]
  constructor
  · rw [hr] at h₁
    omega
  · omega

theorem length_others (w : net.Id) : (others w).length ≤ net.size := by
  have := List.length_filter_le (· != w) (List.finRange net.size)
  simpa [others] using this

theorem reach_receive (s : WorkerState net) (w : net.Id) (a : Diagram n) (b : Table) :
    (s.receive w a b).reach = s.reach := by
  unfold WorkerState.receive
  split <;> rfl

theorem phaseWeight_receive (s : WorkerState net) (w : net.Id) (a : Diagram n) (b : Table) :
    phaseWeight (s.receive w a b).phase ≤ net.quitWeight + 4 := by
  unfold WorkerState.receive
  split <;> simp [phaseWeight]

theorem reach_propagate (s : WorkerState net) (dir : Direction) (w : net.Id) (d : Diagram n) :
    (s.propagate dir w d).reach = s.reach := by
  unfold WorkerState.propagate
  split <;> rfl

/-- A worker has no more than one packet for each edge and slice. -/
theorem phaseWeight_propagate (s : WorkerState net) (dir : Direction) (w : net.Id) (d : Diagram n) :
    phaseWeight (s.propagate dir w d).phase ≤ net.quitWeight + 3 + 8 * net.fanout := by
  unfold WorkerState.propagate
  cases h : net.propagate dir w d with
  | error m => simp [phaseWeight]
  | ok x =>
    have := length_propagate_le_fanout h
    simp only [phaseWeight, Bool.false_eq_true, if_false]
    omega

theorem reach_launch (s : WorkerState net) (dir : Direction) (w : net.Id) (input : Table)
    (limit : Option Table) : (s.launch dir w input limit).reach = s.reach := by
  unfold WorkerState.launch
  split
  · exact reach_propagate _ _ _ _
  · rfl

theorem phaseWeight_launch (s : WorkerState net) (dir : Direction) (w : net.Id) (input : Table)
    (limit : Option Table) :
    phaseWeight (s.launch dir w input limit).phase ≤ net.quitWeight + 3 + 8 * net.fanout := by
  unfold WorkerState.launch
  split
  · exact phaseWeight_propagate _ _ _ _
  · simp [phaseWeight]

theorem phase_propagate_false (s : WorkerState net) (dir : Direction) (w : net.Id) :
    (s.propagate dir w (.const false)).phase = .sending [] false := by
  simp [WorkerState.propagate, Network.propagate, Diagram.isFalse]

/-- Finishing a batch reaches something new, or leaves nothing to send. -/
theorem finishBatch_cases (c : Config net) (dir : Direction) (w : net.Id) (gathered : Diagram n) :
    (((c.workers w).finishBatch dir w gathered).phase = .sending [] false ∧
      ((c.workers w).finishBatch dir w gathered).reach = (c.workers w).reach) ∨
    (c.setWorker w ((c.workers w).finishBatch dir w gathered)).unreached < c.unreached := by
  generalize hs : c.workers w = s
  let update := (gathered.diff s.reach).and s.restrict
  have hreach : (s.finishBatch dir w gathered).reach = s.reach.or update :=
    reach_propagate _ _ _ _
  by_cases hu : update = .const false
  · left
    constructor
    · change (WorkerState.propagate _ dir w update).phase = _
      rw [hu]
      exact phase_propagate_false _ _ _
    · rw [hreach, hu]
      exact Diagram.ext fun ρ => by simp
  · right
    have h₁ := totalOf_set (fun s => s.reach.rejected) c.workers w (s.finishBatch dir w gathered)
    obtain ⟨ρ, hρ⟩ := (Diagram.ne_const_iff update true).mp hu
    have hlt : (s.reach.or update).rejected < s.reach.rejected := by
      refine Diagram.rejected_or_lt ?_ hρ
      simp [update] at hρ
      exact hρ.1.2
    simp only [hreach, hs] at h₁
    simp only [unreached, setWorker]
    omega

theorem ahead_finishBatch {dir : Direction} {c : Config net} {w : net.Id} {gathered : Diagram n}
    (hp : (c.workers w).phase = .draining gathered) :
    Ahead (c.setWorker w ((c.workers w).finishBatch dir w gathered)) c := by
  rcases c.finishBatch_cases dir w gathered with ⟨hphase, hreach⟩ | hlt
  · refine ahead_of_worker hp rfl hreach ?_
    rw [hphase]
    simp [phaseWeight, setWorker]
  · exact .inl hlt

theorem phaseWeight_afterDone (w : net.Id) (r : Except Misuse Bool) :
    phaseWeight (afterDone w r) ≤ net.quitWeight := by
  have := length_others w
  unfold afterDone
  split <;> simp [phaseWeight, quitWeight]
  omega

theorem mailboxWeight_receive {b rest : Mailbox Table} {m : Message Table}
    (h : Mailbox.receive b = some (m, rest)) :
    mailboxWeight b = messageWeight m + mailboxWeight rest := by
  unfold Mailbox.receive at h
  split at h
  · cases h
  · cases h
    rfl

/-- Every step gets ahead. -/
theorem ahead_of_step {dir : Direction} {c c' : Config net} {w : net.Id}
    (h : c.step dir w = some c') : Ahead c' c := by
  have hmail := fun (t : net.Id) b => totalOf_set mailboxWeight c.mailboxes t b
  unfold step at h
  cases hp : (c.workers w).phase with
  | starting input limit =>
    simp only [hp] at h
    cases h
    refine ahead_of_worker hp rfl (reach_launch _ _ _ _ _) ?_
    have := phaseWeight_launch (c.workers w) dir w input limit
    simp only [phaseWeight, setWorker] at this ⊢
    omega
  | sending packets registered =>
    cases packets with
    | nil =>
      simp only [hp] at h
      cases h
      refine ahead_of_worker hp rfl rfl ?_
      have := phaseWeight_afterDone w c.counter.done.2
      change phaseWeight (afterDone w c.counter.done.2) + totalOf mailboxWeight c.mailboxes < _
      simp [phaseWeight] at this ⊢
      omega
    | cons p ps =>
      cases registered with
      | false =>
        simp only [hp] at h
        cases h
        refine ahead_of_worker hp rfl rfl ?_
        simp [phaseWeight, setWorker, setCounter]
      | true =>
        simp only [hp] at h
        cases h
        refine ahead_of_worker hp rfl rfl ?_
        have := hmail p.target (Mailbox.send (c.mailboxes p.target) ⟨.data, w, Table.ofDiagram p.states⟩)
        simp only [mailboxWeight_send, messageWeight, Message.isQuit] at this
        simp [phaseWeight, setWorker, send, setMailbox] at this ⊢
        omega
  | waiting =>
    simp only [hp] at h
    split at h
    · cases h
    · next m rest hm =>
      cases h
      have := hmail w rest
      rw [mailboxWeight_receive hm] at this
      cases hq : m.isQuit
      · refine ahead_of_worker hp rfl (reach_receive _ _ _ _) ?_
        have := phaseWeight_receive (c.workers w) w (.const false) m.content
        simp [phaseWeight, setWorker, setMailbox, messageWeight, hq] at *
        omega
      · refine ahead_of_worker hp rfl rfl ?_
        simp [phaseWeight, setWorker, setMailbox, messageWeight, hq] at *
        omega
  | draining gathered =>
    simp only [hp] at h
    split at h
    · cases h
      exact ahead_finishBatch hp
    · next m rest hm =>
      cases h
      have := hmail w rest
      rw [mailboxWeight_receive hm] at this
      cases hq : m.isQuit <;> refine ahead_of_worker hp rfl rfl ?_ <;>
        simp [phaseWeight, setWorker, setMailbox, messageWeight, hq] at * <;> omega
  | counting gathered received =>
    simp only [hp] at h
    cases h
    cases c.counter.consume.2 with
    | error m =>
      refine ahead_of_worker hp rfl rfl ?_
      simp [phaseWeight, setWorker, setCounter, WorkerState.receiveCounted]
    | ok u =>
      refine ahead_of_worker hp rfl (reach_receive _ _ _ _) ?_
      have := phaseWeight_receive (c.workers w) w gathered received
      change phaseWeight ((c.workers w).receive w gathered received).phase +
        totalOf mailboxWeight c.mailboxes < _
      simp only [phaseWeight] at this ⊢
      omega
  | quitting targets =>
    cases targets with
    | nil =>
      simp only [hp] at h
      cases h
      refine ahead_of_worker hp rfl rfl ?_
      simp [phaseWeight, setWorker]
    | cons t ts =>
      simp only [hp] at h
      cases h
      refine ahead_of_worker hp rfl rfl ?_
      have := hmail t (Mailbox.send (c.mailboxes t) ⟨.quit, w, .blank⟩)
      simp only [mailboxWeight_send, messageWeight, Message.isQuit] at this
      simp [phaseWeight, setWorker, send, setMailbox] at this ⊢
      omega
  | returned => simp only [hp] at h; cases h
  | crashed m => simp only [hp] at h; cases h

end Config
end Network
end SymbolicLtl
