import SymbolicLtl.Network.Run
import SymbolicLtl.Proofs.Network.Packets

/-!
The atomic steps of workers, one case for each, and executions: any interleaving of them. Sets that
are on their way to workers keep every property that batches pass on.
-/
namespace SymbolicLtl

@[simp] theorem Family.set_get {k : Nat} {α : Type} (v : Family k α) (i : Fin k) :
    v.set i (v i) = v := by
  refine Family.ext fun q => ?_
  rw [Family.get_set]
  split_ifs with h
  · rw [h]
  · rfl

namespace Network

variable {n : Nat} {p : Product n} {net : Network p}

namespace WorkerState

/-- Passing states on either starts to send packets or stops the worker. -/
theorem propagate_cases (s : WorkerState net) (dir : Direction) (w : net.Id) (states : Diagram n) :
    (∃ packets images, net.propagate dir w states = .ok (packets, images) ∧
      s.propagate dir w states =
        { s with phase := .sending packets false, tally.images := s.tally.images + images }) ∨
    (net.propagate dir w states = .error .renameClash ∧
      s.propagate dir w states = { s with phase := .crashed .renameClash }) := by
  unfold propagate
  cases h : net.propagate dir w states with
  | ok x => exact .inl ⟨x.1, x.2, rfl, rfl⟩
  | error m =>
    obtain rfl := (propagate_eq_error h).2.2
    exact .inr ⟨rfl, rfl⟩

end WorkerState

namespace Config

inductive Step (dir : Direction) (c : Config net) (w : net.Id) : Config net → Prop
  | launch {input : Table} {limit : Option Table}
    (h : (c.workers w).phase = .starting input limit) :
    Step dir c w (c.setWorker w ((c.workers w).launch dir w input limit))
  /-- All packets are sent. -/
  | withdraw {registered : Bool} (h : (c.workers w).phase = .sending [] registered) :
    Step dir c w ((c.setCounter c.counter.done.1).setWorker w
      { c.workers w with phase := afterDone w c.counter.done.2 })
  | register {x : net.Packet} {xs : List net.Packet}
    (h : (c.workers w).phase = .sending (x :: xs) false) :
    Step dir c w ((c.setCounter c.counter.inc).setWorker w
      { c.workers w with phase := .sending (x :: xs) true })
  | deliver {x : net.Packet} {xs : List net.Packet}
    (h : (c.workers w).phase = .sending (x :: xs) true) :
    Step dir c w ((c.send x.target ⟨.data, w, Table.ofDiagram x.states⟩).setWorker w
      { c.workers w with
        phase := .sending xs false, tally.sent := (c.workers w).tally.sent + 1 })
  | leave {m : Message Table} {rest : Mailbox Table} (h : (c.workers w).phase = .waiting)
    (hm : c.mailboxes w = m :: rest) (hq : m.isQuit = true) :
    Step dir c w ((c.setMailbox w rest).setWorker w { c.workers w with phase := .returned })
  | take {m : Message Table} {rest : Mailbox Table} (h : (c.workers w).phase = .waiting)
    (hm : c.mailboxes w = m :: rest) (hq : m.isQuit = false) :
    Step dir c w ((c.setMailbox w rest).setWorker w
      ((c.workers w).receive w (.const false) m.content))
  /-- No further message joins the batch. -/
  | finish {gathered : Diagram n} (h : (c.workers w).phase = .draining gathered)
    (hm : c.mailboxes w = []) :
    Step dir c w (c.setWorker w ((c.workers w).finishBatch dir w gathered))
  | startle {gathered : Diagram n} {m : Message Table} {rest : Mailbox Table}
    (h : (c.workers w).phase = .draining gathered) (hm : c.mailboxes w = m :: rest)
    (hq : m.isQuit = true) :
    Step dir c w ((c.setMailbox w rest).setWorker w
      { c.workers w with phase := .crashed (.quitWhileActive w) })
  | fetch {gathered : Diagram n} {m : Message Table} {rest : Mailbox Table}
    (h : (c.workers w).phase = .draining gathered) (hm : c.mailboxes w = m :: rest)
    (hq : m.isQuit = false) :
    Step dir c w ((c.setMailbox w rest).setWorker w
      { c.workers w with phase := .counting gathered m.content })
  | account {gathered : Diagram n} {received : Table}
    (h : (c.workers w).phase = .counting gathered received) :
    Step dir c w ((c.setCounter c.counter.consume.1).setWorker w
      ((c.workers w).receiveCounted w gathered received c.counter.consume.2))
  | depart (h : (c.workers w).phase = .quitting []) :
    Step dir c w (c.setWorker w { c.workers w with phase := .returned })
  | announce {t : net.Id} {ts : List net.Id} (h : (c.workers w).phase = .quitting (t :: ts)) :
    Step dir c w ((c.send t ⟨.quit, w, .blank⟩).setWorker w
      { c.workers w with phase := .quitting ts })

theorem Step.of_step {dir : Direction} {c c' : Config net} {w : net.Id}
    (h : c.step dir w = some c') : Step dir c w c' := by
  unfold step at h
  cases hp : (c.workers w).phase with
  | starting input limit =>
    simp only [hp, Option.some.injEq] at h
    exact h ▸ .launch hp
  | sending packets registered =>
    cases packets with
    | nil =>
      simp only [hp, Option.some.injEq] at h
      exact h ▸ .withdraw hp
    | cons x xs =>
      cases registered with
      | false =>
        simp only [hp, Option.some.injEq] at h
        exact h ▸ .register hp
      | true =>
        simp only [hp, Option.some.injEq] at h
        exact h ▸ .deliver hp
  | waiting =>
    cases hm : c.mailboxes w with
    | nil => simp [hp, hm, Mailbox.receive] at h
    | cons m rest =>
      simp only [hp, hm, Mailbox.receive, Option.some.injEq] at h
      cases hq : m.isQuit with
      | true => exact h ▸ (by simpa [hq] using .leave hp hm hq)
      | false => exact h ▸ (by simpa [hq] using .take hp hm hq)
  | draining gathered =>
    cases hm : c.mailboxes w with
    | nil =>
      simp only [hp, hm, Mailbox.receive, Option.some.injEq] at h
      exact h ▸ .finish hp hm
    | cons m rest =>
      simp only [hp, hm, Mailbox.receive, Option.some.injEq] at h
      cases hq : m.isQuit with
      | true => exact h ▸ (by simpa [hq] using .startle hp hm hq)
      | false => exact h ▸ (by simpa [hq] using .fetch hp hm hq)
  | counting gathered received =>
    simp only [hp, Option.some.injEq] at h
    exact h ▸ .account hp
  | quitting targets =>
    cases targets with
    | nil =>
      simp only [hp, Option.some.injEq] at h
      exact h ▸ .depart hp
    | cons t ts =>
      simp only [hp, Option.some.injEq] at h
      exact h ▸ .announce hp
  | returned => simp [hp] at h
  | crashed m => simp [hp] at h

/-- An interleaving of steps, with the configuration before each step and the worker that took
it. -/
inductive Execution (dir : Direction) (c : Config net) :
    List (Config net × net.Id) → Config net → Prop
  | refl : Execution dir c [] c
  | step {trace : List (Config net × net.Id)} {c' c'' : Config net} {w : net.Id}
    (h : Execution dir c trace c') (hw : c'.step dir w = some c'') :
    Execution dir c (trace ++ [(c', w)]) c''

/-- What every step keeps holds along executions. -/
theorem Execution.keeps {dir : Direction} {c c' : Config net} {trace : List (Config net × net.Id)}
    (h : Execution dir c trace c') {P : Config net → Prop} (h₀ : P c)
    (hstep : ∀ {c c' w}, P c → Step dir c w c' → P c') : P c' := by
  induction h with
  | refl => exact h₀
  | step _ hw ih => exact hstep ih (.of_step hw)

@[simp] theorem workers_setWorker (c : Config net) (w v : net.Id) (s : WorkerState net) :
    (c.setWorker w s).workers v = if v = w then s else c.workers v := Family.get_set _ _ _ _

@[simp] theorem mailboxes_setMailbox (c : Config net) (w v : net.Id) (b : Mailbox Table) :
    (c.setMailbox w b).mailboxes v = if v = w then b else c.mailboxes v := Family.get_set _ _ _ _

@[simp] theorem workers_setMailbox (c : Config net) (w : net.Id) (b : Mailbox Table) :
    (c.setMailbox w b).workers = c.workers := rfl

@[simp] theorem workers_setCounter (c : Config net) (counter : ActiveCounter) :
    (c.setCounter counter).workers = c.workers := rfl

@[simp] theorem workers_send (c : Config net) (t : net.Id) (m : Message Table) :
    (c.send t m).workers = c.workers := rfl

@[simp] theorem counter_setWorker (c : Config net) (w : net.Id) (s : WorkerState net) :
    (c.setWorker w s).counter = c.counter := rfl

@[simp] theorem counter_setMailbox (c : Config net) (w : net.Id) (b : Mailbox Table) :
    (c.setMailbox w b).counter = c.counter := rfl

@[simp] theorem counter_setCounter (c : Config net) (counter : ActiveCounter) :
    (c.setCounter counter).counter = counter := rfl

@[simp] theorem counter_send (c : Config net) (t : net.Id) (m : Message Table) :
    (c.send t m).counter = c.counter := rfl

@[simp] theorem mailboxes_setWorker (c : Config net) (w : net.Id) (s : WorkerState net) :
    (c.setWorker w s).mailboxes = c.mailboxes := rfl

@[simp] theorem mailboxes_setCounter (c : Config net) (counter : ActiveCounter) :
    (c.setCounter counter).mailboxes = c.mailboxes := rfl

@[simp] theorem mailboxes_send (c : Config net) (t v : net.Id) (m : Message Table) :
    (c.send t m).mailboxes v = if v = t then c.mailboxes t ++ [m] else c.mailboxes v :=
  mailboxes_setMailbox _ _ _ _

/-- A step changes the worker that takes it and no other. -/
theorem Step.workers_eq {dir : Direction} {c c' : Config net} {w v : net.Id}
    (h : Step dir c w c') (hv : v ≠ w) : c'.workers v = c.workers v := by
  cases h <;> simp [hv]

/-- A network that is reset counts all workers, and nothing is left of earlier runs. -/
theorem reset_eq_ok {c c₀ : Config net} {bits : Option Nat} (h : c.reset bits = .ok c₀) :
    c₀.counter = Nat.repeat ActiveCounter.inc net.size ⟨0, bits⟩ ∧ (∀ w, c₀.mailboxes w = []) ∧
      ∀ w, (c₀.workers w).tally = .zero := by
  unfold reset at h
  split at h
  · cases h
  · cases h
    simp

@[simp] theorem workers_start (c : Config net) (states : StateSets n p.size)
    (constraint : Constraint n) (w : net.Id) : (c.start states constraint).workers w =
      ⟨.starting (Table.ofDiagram (net.inputOf states w))
        (constraint.map fun _ => Table.ofDiagram (net.limitOf constraint w)),
        .const false, .const true, (c.workers w).tally⟩ := Family.get_ofFn _ w

end Config

def Phase.started : Phase net → Bool
  | .starting _ _ => false
  | _ => true

namespace WorkerState

theorem started_propagate (s : WorkerState net) (dir : Direction) (w : net.Id) (d : Diagram n) :
    (s.propagate dir w d).phase.started = true ∧
      (s.propagate dir w d).restrict = s.restrict := by
  rcases s.propagate_cases dir w d with ⟨packets, images, -, heq⟩ | ⟨-, heq⟩ <;>
    exact heq ▸ ⟨rfl, rfl⟩

theorem started_receive (s : WorkerState net) (w : net.Id) (a : Diagram n) (b : Table) :
    (s.receive w a b).phase.started = true ∧ (s.receive w a b).restrict = s.restrict := by
  unfold receive
  split <;> exact ⟨rfl, rfl⟩

theorem launch_eq {s : WorkerState net} {dir : Direction} {w : net.Id} {input : Table}
    {limit : Option Table} {states restrict : Diagram n}
    (h : net.load w input limit = .ok (states, restrict)) :
    s.launch dir w input limit = { s with restrict := restrict }.propagate dir w states := by
  unfold launch
  rw [h]

theorem receive_eq {s : WorkerState net} {w : net.Id} {gathered states : Diagram n}
    {received : Table} (h : net.accept w received = .ok states) : s.receive w gathered received =
      { s with
        phase := .draining (gathered.or states), tally.received := s.tally.received + 1 } := by
  unfold receive
  rw [h]

end WorkerState

namespace Config

/-- Workers that have not started can read what they were given, and the others keep to it. -/
structure Briefed (states : StateSets n p.size) (constraint : Constraint n) (c : Config net) :
    Prop where
  load : ∀ w input limit, (c.workers w).phase = .starting input limit →
    net.load w input limit = .ok (net.inputOf states w, net.limitOf constraint w)
  restrict : ∀ w, (c.workers w).phase.started = true →
    (c.workers w).restrict = net.limitOf constraint w

section Briefed

variable {dir : Direction} {states : StateSets n p.size} {constraint : Constraint n}
  {c c' : Config net} {w : net.Id}

theorem Briefed.start (hnet : net.Faithful) (c : Config net) :
    (c.start states constraint).Briefed states constraint := by
  refine ⟨fun w input limit h => ?_, fun w h => ?_⟩
  · rw [workers_start] at h
    cases h
    exact load_start hnet states constraint
  · rw [workers_start] at h
    cases h

/-- A worker that takes a step has started, and keeps to what it kept to unless it has just
started. -/
theorem Step.started (h : Step dir c w c') : (c'.workers w).phase.started = true ∧
    ((c.workers w).phase.started = true → (c'.workers w).restrict = (c.workers w).restrict) := by
  cases h with
  | @launch input limit hp =>
    rw [workers_setWorker, if_pos rfl, hp]
    refine ⟨?_, nofun⟩
    unfold WorkerState.launch
    split
    · exact (WorkerState.started_propagate _ _ _ _).1
    · rfl
  | withdraw hp =>
    rw [workers_setWorker, if_pos rfl]
    refine ⟨?_, fun _ => rfl⟩
    unfold afterDone
    split <;> rfl
  | take hp hm hq =>
    rw [workers_setWorker, if_pos rfl]
    exact ⟨(WorkerState.started_receive _ _ _ _).1, fun _ => (WorkerState.started_receive _ _ _ _).2⟩
  | finish hp hm =>
    rw [workers_setWorker, if_pos rfl]
    unfold WorkerState.finishBatch
    exact ⟨(WorkerState.started_propagate _ _ _ _).1,
      fun _ => (WorkerState.started_propagate _ _ _ _).2⟩
  | account hp =>
    rw [workers_setWorker, if_pos rfl]
    unfold WorkerState.receiveCounted
    split
    · exact ⟨rfl, fun _ => rfl⟩
    · exact ⟨(WorkerState.started_receive _ _ _ _).1,
        fun _ => (WorkerState.started_receive _ _ _ _).2⟩
  | register hp | deliver hp | leave hp | startle hp | fetch hp | depart hp | announce hp =>
    rw [workers_setWorker, if_pos rfl]
    exact ⟨rfl, fun _ => rfl⟩

theorem Briefed.launch_eq (hb : c.Briefed states constraint) {input : Table} {limit : Option Table}
    (hp : (c.workers w).phase = .starting input limit) :
    (c.workers w).launch dir w input limit =
      { c.workers w with restrict := net.limitOf constraint w }.propagate dir w
        (net.inputOf states w) := WorkerState.launch_eq (hb.load w input limit hp)

theorem Briefed.step (hb : c.Briefed states constraint) (h : Step dir c w c') :
    c'.Briefed states constraint := by
  have hstarted := h.started
  refine ⟨fun v input limit hv => ?_, fun v hv => ?_⟩
  · by_cases hvw : v = w
    · subst hvw
      rw [hv] at hstarted
      cases hstarted.1
    · rw [h.workers_eq hvw] at hv
      exact hb.load v input limit hv
  · by_cases hvw : v = w
    · subst hvw
      cases hp : (c.workers v).phase.started with
      | true => exact (hstarted.2 hp).trans (hb.restrict v hp)
      | false =>
        cases h with
        | launch hp' =>
          rw [workers_setWorker, if_pos rfl, hb.launch_eq hp']
          exact (WorkerState.started_propagate _ _ _ _).2
        | withdraw hp' | register hp' | deliver hp' | leave hp' | take hp' | finish hp'
        | startle hp' | fetch hp' | account hp' | depart hp' | announce hp' =>
          rw [hp'] at hp
          cases hp
    · rw [h.workers_eq hvw] at hv ⊢
      exact hb.restrict v hv

theorem Execution.briefed (hnet : net.Faithful) {trace : List (Config net × net.Id)}
    (h : Execution dir (c.start states constraint) trace c') : c'.Briefed states constraint :=
  h.keeps (.start hnet c) fun hc hs => hc.step hs

end Briefed

end Config

/-- A worker can read states with a property from a table. -/
def Reads (net : Network p) (P : net.Id → Diagram n → Prop) (w : net.Id) (t : Table) : Prop :=
  ∃ d, net.accept w t = .ok d ∧ P w d

/-- What is on its way in a phase of a worker lies in the slice of its receiver and has a property. -/
def Phase.Carries (P : net.Id → Diagram n → Prop) (w : net.Id) : Phase net → Prop
  | .sending xs _ => ∀ x ∈ xs, x.states.implies (net.cubeOf x.target) = true ∧ P x.target x.states
  | .draining gathered => P w gathered
  | .counting gathered received => P w gathered ∧ net.Reads P w received
  | _ => True

/-- A property of sets on their way to a worker, and one of the states it has reached, that the start
and every batch pass on. -/
structure Preserves (net : Network p) (dir : Direction) (states : StateSets n p.size)
    (constraint : Constraint n) (P Q : net.Id → Diagram n → Prop) : Prop where
  none : ∀ w, P w (.const false)
  or : ∀ w a b, P w a → P w b → P w (a.or b)
  start : ∀ w packets images, net.propagate dir w (net.inputOf states w) = .ok (packets, images) →
    ∀ x ∈ packets, P x.target x.states
  reach : ∀ w gathered reach, P w gathered → Q w reach →
    Q w (reach.or ((gathered.diff reach).and (net.limitOf constraint w)))
  packets : ∀ w gathered reach packets images, P w gathered → Q w reach →
    net.propagate dir w ((gathered.diff reach).and (net.limitOf constraint w)) =
      .ok (packets, images) → ∀ x ∈ packets, P x.target x.states

namespace Config

structure Carries (P Q : net.Id → Diagram n → Prop) (c : Config net) : Prop where
  phase : ∀ w, (c.workers w).phase.Carries P w
  mail : ∀ w, ∀ m ∈ c.mailboxes w, m.isQuit = false → net.Reads P w m.content
  reach : ∀ w, Q w (c.workers w).reach

namespace Carries

variable {P Q : net.Id → Diagram n → Prop} {c : Config net}

theorem setWorker (h : Carries P Q c) {w : net.Id} {s : WorkerState net}
    (hs : s.phase.Carries P w) (hr : Q w s.reach) : Carries P Q (c.setWorker w s) := by
  refine ⟨fun v => ?_, h.mail, fun v => ?_⟩
  · rw [workers_setWorker]
    split_ifs with hv
    · exact hv ▸ hs
    · exact h.phase v
  · rw [workers_setWorker]
    split_ifs with hv
    · exact hv ▸ hr
    · exact h.reach v

theorem setMailbox (h : Carries P Q c) {w : net.Id} {b : Mailbox Table}
    (hb : ∀ m ∈ b, m.isQuit = false → net.Reads P w m.content) :
    Carries P Q (c.setMailbox w b) := by
  refine ⟨h.phase, fun v => ?_, h.reach⟩
  rw [mailboxes_setMailbox]
  split_ifs with hv
  · exact hv ▸ hb
  · exact h.mail v

theorem setCounter (h : Carries P Q c) (counter : ActiveCounter) :
    Carries P Q (c.setCounter counter) := ⟨h.phase, h.mail, h.reach⟩

theorem send (h : Carries P Q c) {t : net.Id} {m : Message Table}
    (hm : m.isQuit = false → net.Reads P t m.content) : Carries P Q (c.send t m) := by
  refine h.setMailbox fun m' hm' => ?_
  rcases List.mem_append.mp hm' with hold | hnew
  · exact h.mail t m' hold
  · rw [List.mem_singleton.mp hnew]
    exact hm

/-- What is left in a mailbox was there before. -/
theorem setMailbox_tail (h : Carries P Q c) {w : net.Id} {m : Message Table} {rest : Mailbox Table}
    (hm : c.mailboxes w = m :: rest) : Carries P Q (c.setMailbox w rest) :=
  h.setMailbox fun m' hm' => h.mail w m' (hm ▸ List.mem_cons_of_mem _ hm')

theorem propagate (hnet : net.Faithful) {s : WorkerState net} {dir : Direction} {w : net.Id}
    {states : Diagram n} (h : ∀ packets images, net.propagate dir w states = .ok (packets, images) →
      ∀ x ∈ packets, P x.target x.states) : (s.propagate dir w states).phase.Carries P w := by
  rcases s.propagate_cases dir w states with ⟨packets, images, hok, heq⟩ | ⟨-, heq⟩
  · rw [heq]
    exact fun x hx => ⟨mem_propagate hnet hok hx, h packets images hok x hx⟩
  · rw [heq]
    trivial

section Step

variable {dir : Direction} {states : StateSets n p.size} {constraint : Constraint n}
  (ht : net.Preserves dir states constraint P Q)

include ht

theorem receive {s : WorkerState net} {w : net.Id} {gathered : Diagram n} {received : Table}
    (hg : P w gathered) (hr : net.Reads P w received) :
    (s.receive w gathered received).phase.Carries P w := by
  obtain ⟨d, hd, hP⟩ := hr
  rw [WorkerState.receive_eq hd]
  exact ht.or w _ _ hg hP

theorem step (hnet : net.Faithful) {c' : Config net} {w : net.Id}
    (hb : c.Briefed states constraint) (hc : Carries P Q c) (h : Step dir c w c') :
    Carries P Q c' := by
  have hphase := hc.phase w
  cases h with
  | launch h =>
    rw [hb.launch_eq h]
    refine hc.setWorker (propagate hnet (ht.start w)) ?_
    rw [reach_propagate]
    exact hc.reach w
  | withdraw h =>
    refine (hc.setCounter _).setWorker ?_ (hc.reach w)
    unfold afterDone
    split <;> trivial
  | register h =>
    rw [h] at hphase
    exact (hc.setCounter _).setWorker hphase (hc.reach w)
  | @deliver x xs h =>
    rw [h] at hphase
    obtain ⟨hx, hxs⟩ := List.forall_mem_cons.mp hphase
    have hreads : net.Reads P x.target (Table.ofDiagram x.states) :=
      ⟨x.states, accept_ofDiagram hx.1, hx.2⟩
    exact (hc.send fun _ => hreads).setWorker hxs (hc.reach w)
  | leave h hm hq => exact (hc.setMailbox_tail hm).setWorker trivial (hc.reach w)
  | @take m rest h hm hq =>
    refine (hc.setMailbox_tail hm).setWorker ?_ ?_
    · exact receive ht (ht.none w) (hc.mail w m (hm ▸ List.mem_cons_self) hq)
    · rw [reach_receive]
      exact hc.reach w
  | @finish gathered h hm =>
    have hrestrict := hb.restrict w (by rw [h]; rfl)
    rw [h] at hphase
    unfold WorkerState.finishBatch
    rw [hrestrict]
    refine hc.setWorker (propagate hnet fun packets images => ?_) ?_
    · exact ht.packets w gathered _ packets images hphase (hc.reach w)
    · rw [reach_propagate]
      exact ht.reach w gathered _ hphase (hc.reach w)
  | startle h hm hq => exact (hc.setMailbox_tail hm).setWorker trivial (hc.reach w)
  | @fetch gathered m rest h hm hq =>
    rw [h] at hphase
    refine (hc.setMailbox_tail hm).setWorker ⟨hphase, ?_⟩ (hc.reach w)
    exact hc.mail w m (hm ▸ List.mem_cons_self) hq
  | @account gathered received h =>
    rw [h] at hphase
    unfold WorkerState.receiveCounted
    split
    · exact (hc.setCounter _).setWorker trivial (hc.reach w)
    · refine (hc.setCounter _).setWorker (receive ht hphase.1 hphase.2) ?_
      rw [reach_receive]
      exact hc.reach w
  | depart h => exact hc.setWorker trivial (hc.reach w)
  | announce h =>
    refine (hc.send fun hq => ?_).setWorker trivial (hc.reach w)
    cases hq

end Step

/-- Whatever is on its way can be read by its receiver. -/
theorem weaken (h : Carries P Q c) : c.Carries (fun _ _ => True) fun _ _ => True := by
  refine ⟨fun w => ?_, fun w m hm hq => ?_, fun _ => trivial⟩
  · have hphase := h.phase w
    cases hp : (c.workers w).phase with
    | sending xs registered =>
      rw [hp] at hphase
      exact fun x hx => ⟨(hphase x hx).1, trivial⟩
    | counting gathered received =>
      rw [hp] at hphase
      obtain ⟨-, d, hd, -⟩ := hphase
      exact ⟨trivial, d, hd, trivial⟩
    | starting _ _ | waiting | draining _ | quitting _ | returned | crashed _ => trivial
  · obtain ⟨d, hd, -⟩ := h.mail w m hm hq
    exact ⟨d, hd, trivial⟩

/-- At the start nothing is on its way. -/
theorem start {c₀ : Config net} {bits : Option Nat} (hreset : c.reset bits = .ok c₀)
    (states : StateSets n p.size) (constraint : Constraint n) (hQ : ∀ w, Q w (.const false)) :
    Carries P Q (c₀.start states constraint) := by
  refine ⟨fun w => ?_, fun w m hm => ?_, fun w => ?_⟩
  · rw [workers_start]
    trivial
  · have hempty := (reset_eq_ok hreset).2.1 w
    change m ∈ c₀.mailboxes w at hm
    rw [hempty] at hm
    cases hm
  · rw [workers_start]
    exact hQ w

end Carries

/-- What the start and every batch pass on holds along executions. -/
theorem Execution.carries (hnet : net.Faithful) {dir : Direction} {states : StateSets n p.size}
    {constraint : Constraint n} {P Q : net.Id → Diagram n → Prop}
    (ht : net.Preserves dir states constraint P Q) (hQ : ∀ w, Q w (.const false))
    {c c₀ c' : Config net} {bits : Option Nat} (hreset : c.reset bits = .ok c₀)
    {trace : List (Config net × net.Id)}
    (h : Execution dir (c₀.start states constraint) trace c') : c'.Carries P Q := by
  have hboth := h.keeps (P := fun c => c.Briefed states constraint ∧ c.Carries P Q)
    ⟨.start hnet c₀, .start hreset states constraint hQ⟩
    fun hc hs => ⟨hc.1.step hs, hc.2.step ht hnet hc.1 hs⟩
  exact hboth.2

end Config
end Network
end SymbolicLtl
