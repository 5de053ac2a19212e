import SymbolicLtl.Diagram.Table
import SymbolicLtl.Network.ActiveCounter
import SymbolicLtl.Network.Message
import SymbolicLtl.Reachability.StateSets
import SymbolicLtl.Slicing.Layout

/-!
A network of workers that search the product together. Each worker owns the system states of one
automaton state in one slice, and computes with copies of its own. Workers share an active counter
and send each other tables of the states they find; they run by atomic steps that may be interleaved
in any way.
-/
namespace SymbolicLtl

namespace Network

/-- An edge seen from one end. -/
structure Route (n k : Nat) where
  state : Fin k
  label : Diagram n

/-- What a worker computes with, none of which it shares: the relation, the cubes of all slices, and
the edges at its automaton state in both directions. -/
structure Station (n k slices : Nat) where
  relation : Relation n
  cubes : Family slices (Diagram n)
  forward : List (Route n k)
  backward : List (Route n k)

variable {n : Nat}

def makeCubes (n : Nat) (slices : List Slice) :
    Except Misuse (Family slices.length (Diagram n)) :=
  Family.collect slices.length fun i => Diagram.cube (slices.get i)

/-- The copies for a worker at an automaton state. -/
def Station.make (p : Product n) (slices : List Slice) (q : Fin p.size) :
    Except Misuse (Station n p.size slices.length) := do
  let relation ← p.relation.clone n
  let cubes ← makeCubes n slices
  let forward ← (p.automaton.outgoing q).mapM fun e => return ⟨e.target, ← e.label.translocate n⟩
  let backward ← (p.automaton.incoming q).mapM fun e => return ⟨e.source, ← e.label.translocate n⟩
  return ⟨relation, cubes, forward, backward⟩

/-- The automaton state of the worker with a number, slice after slice within a state. -/
def stateAt {k slices : Nat} (w : Fin (k * slices)) : Fin k :=
  ⟨w / slices, Nat.div_lt_of_lt_mul (Nat.lt_of_lt_of_eq w.isLt (Nat.mul_comm k slices))⟩

end Network

/-- The workers for a product and a list of slices. Inputs are split by cubes that no worker has. -/
structure Network {n : Nat} (p : Product n) where
  slices : List Slice
  nonempty : slices ≠ []
  cubes : Family slices.length (Diagram n)
  stations : Family (p.size * slices.length) (Network.Station n p.size slices.length)

namespace Network

variable {n : Nat} {p : Product n}

/-- A network; without slices there is one, the whole state space. -/
def make (p : Product n) (slices : List Slice) : Except Misuse (Network p) := do
  let layout := Layout.make p.size slices
  let cubes ← makeCubes n layout.slices
  let stations ← Family.collect _ fun w => Station.make p layout.slices (stateAt w)
  return ⟨layout.slices, layout.nonempty, cubes, stations⟩

def size (net : Network p) : Nat := p.size * net.slices.length

abbrev Id (net : Network p) := Fin net.size

def station (net : Network p) (w : net.Id) : Station n p.size net.slices.length := net.stations w

/-- The worker of a slice of an automaton state. -/
def idOf (net : Network p) (q : Fin p.size) (s : Fin net.slices.length) : net.Id :=
  ⟨q * net.slices.length + s, by
    have hq := q.isLt
    have hs := s.isLt
    calc q * net.slices.length + s < (q + 1) * net.slices.length := by
          rw [Nat.add_mul, Nat.one_mul]; omega
      _ ≤ p.size * net.slices.length := Nat.mul_le_mul_right _ hq⟩

def stateOf (net : Network p) (w : net.Id) : Fin p.size := stateAt w

def sliceOf (net : Network p) (w : net.Id) : Fin net.slices.length :=
  ⟨w % net.slices.length, Nat.mod_lt _ (List.length_pos_iff.mpr net.nonempty)⟩

/-- The states that a worker may own, as it knows them. -/
def cubeOf (net : Network p) (w : net.Id) : Diagram n := (net.station w).cubes (net.sliceOf w)

structure Packet (net : Network p) where
  target : net.Id
  states : Diagram n

/-- How a worker splits states of an automaton state between its slices, leaving out empty parts. -/
def packets (net : Network p) (w : net.Id) (q : Fin p.size) (states : Diagram n) :
    List net.Packet :=
  (List.finRange net.slices.length).filterMap fun s =>
    let part := states.and ((net.station w).cubes s)
    if part.isFalse then none else some ⟨net.idOf q s, part⟩

/-- The packets that new states of a worker give rise to, and the number of images taken. Going
forward a label is applied before the image, going backward after it. -/
def propagate (net : Network p) (dir : Direction) (w : net.Id) (states : Diagram n) :
    Except Misuse (List net.Packet × Nat) :=
  if states.isFalse then .ok ([], 0)
  else match dir with
    | .forward =>
      let sources := ((net.station w).forward.map fun r =>
        (r.state, states.and r.label)).filter fun x => !x.2.isFalse
      .ok (sources.flatMap fun x => net.packets w x.1 ((net.station w).relation.postImage x.2),
        sources.length)
    | .backward => do
      let image ← (net.station w).relation.preImage states
      if image.isFalse then return ([], 1)
      else return ((net.station w).backward.flatMap fun r =>
        net.packets w r.state (image.and r.label), 1)

/-- Reads states that are meant for a worker. They must lie in its slice. -/
def accept (net : Network p) (w : net.Id) (t : Table) : Except Misuse (Diagram n) := do
  let states ← t.toDiagram n
  if states.implies (net.cubeOf w) then return states
  else throw (.outsideSlice w (net.slices.get (net.sliceOf w)).describe)

/-- Reads what a worker keeps to, if there is a limit, and then what it starts from. -/
def load (net : Network p) (w : net.Id) (input : Table) (limit : Option Table) :
    Except Misuse (Diagram n × Diagram n) := do
  let restrict ← match limit with
    | none => pure (.const true)
    | some t => t.toDiagram n
  return (← net.accept w input, restrict)

/-- What a worker is about to do. -/
inductive Phase (net : Network p) where
  /-- Read the states to start from, and the limit if there is one. -/
  | starting (input : Table) (limit : Option Table)
  /-- Send packets, after registering the first of them with the counter. -/
  | sending (packets : List net.Packet) (registered : Bool)
  | waiting
  /-- Look for further messages to join with the states received. -/
  | draining (gathered : Diagram n)
  /-- Account for a further message. -/
  | counting (gathered : Diagram n) (received : Table)
  /-- Tell the others that all is done. -/
  | quitting (targets : List net.Id)
  | returned
  | crashed (misuse : Misuse)

structure Tally where
  images : Nat
  sent : Nat
  received : Nat
  batches : Nat
deriving DecidableEq, Repr

namespace Tally

def zero : Tally := ⟨0, 0, 0, 0⟩

def add (a b : Tally) : Tally :=
  ⟨a.images + b.images, a.sent + b.sent, a.received + b.received, a.batches + b.batches⟩

end Tally

/-- What a worker is about to do, the states it has reached and those it keeps to, and its work. -/
structure WorkerState (net : Network p) where
  phase : Phase net
  reach : Diagram n
  restrict : Diagram n
  tally : Tally

/-- All that changes during a run. -/
structure Config (net : Network p) where
  counter : ActiveCounter
  workers : Family net.size (WorkerState net)
  mailboxes : Family net.size (Mailbox Table)

namespace WorkerState

variable {net : Network p}

def propagate (s : WorkerState net) (dir : Direction) (w : net.Id) (states : Diagram n) :
    WorkerState net :=
  match net.propagate dir w states with
  | .ok (packets, images) =>
    { s with phase := .sending packets false, tally.images := s.tally.images + images }
  | .error m => { s with phase := .crashed m }

/-- Begins a run. -/
def launch (s : WorkerState net) (dir : Direction) (w : net.Id) (input : Table)
    (limit : Option Table) : WorkerState net :=
  match net.load w input limit with
  | .ok (states, restrict) => { s with restrict := restrict }.propagate dir w states
  | .error m => { s with phase := .crashed m }

/-- Joins the states of a message to those gathered. -/
def receive (s : WorkerState net) (w : net.Id) (gathered : Diagram n) (received : Table) :
    WorkerState net :=
  match net.accept w received with
  | .ok states =>
    { s with
      phase := .draining (gathered.or states)
      tally.received := s.tally.received + 1 }
  | .error m => { s with phase := .crashed m }

/-- Joins states to those gathered, once the counter has accounted for them. -/
def receiveCounted (s : WorkerState net) (w : net.Id) (gathered : Diagram n) (received : Table) :
    Except Misuse Unit → WorkerState net
  | .error m => { s with phase := .crashed m }
  | .ok () => s.receive w gathered received

/-- Adds the allowed ones of the states received to those reached, and goes on with what is new. -/
def finishBatch (s : WorkerState net) (dir : Direction) (w : net.Id) (gathered : Diagram n) :
    WorkerState net :=
  let update := (gathered.diff s.reach).and s.restrict
  { s with reach := s.reach.or update, tally.batches := s.tally.batches + 1 }.propagate
    dir w update

end WorkerState

namespace Config

variable {net : Network p}

def others (w : net.Id) : List net.Id := (List.finRange net.size).filter (· != w)

/-- The phase after a worker has withdrawn from the counter. -/
def afterDone (w : net.Id) : Except Misuse Bool → Phase net
  | .error m => .crashed m
  | .ok true => .quitting (others w)
  | .ok false => .waiting

def setWorker (c : Config net) (w : net.Id) (s : WorkerState net) : Config net :=
  { c with workers := c.workers.set w s }

def setMailbox (c : Config net) (w : net.Id) (b : Mailbox Table) : Config net :=
  { c with mailboxes := c.mailboxes.set w b }

def setCounter (c : Config net) (counter : ActiveCounter) : Config net :=
  { c with counter := counter }

def send (c : Config net) (target : net.Id) (m : Message Table) : Config net :=
  c.setMailbox target (Mailbox.send (c.mailboxes target) m)

/-- The next atomic step of a worker. There is none when it waits for a message, or has stopped. -/
def step (dir : Direction) (c : Config net) (w : net.Id) : Option (Config net) :=
  let s := c.workers w
  match s.phase with
  | .starting input limit => some (c.setWorker w (s.launch dir w input limit))
  | .sending [] _ =>
    some ((c.setCounter c.counter.done.1).setWorker w
      { s with phase := afterDone w c.counter.done.2 })
  | .sending (p :: ps) false =>
    some ((c.setCounter c.counter.inc).setWorker w { s with phase := .sending (p :: ps) true })
  | .sending (p :: ps) true =>
    some ((c.send p.target ⟨.data, w, Table.ofDiagram p.states⟩).setWorker w
      { s with phase := .sending ps false, tally.sent := s.tally.sent + 1 })
  | .waiting =>
    match Mailbox.receive (c.mailboxes w) with
    | none => none
    | some (m, rest) =>
      some ((c.setMailbox w rest).setWorker w
        (if m.isQuit then { s with phase := .returned } else s.receive w (.const false) m.content))
  | .draining gathered =>
    match Mailbox.receive (c.mailboxes w) with
    | none => some (c.setWorker w (s.finishBatch dir w gathered))
    | some (m, rest) =>
      some ((c.setMailbox w rest).setWorker w
        (if m.isQuit then { s with phase := .crashed (.quitWhileActive w) }
        else { s with phase := .counting gathered m.content }))
  | .counting gathered received =>
    some ((c.setCounter c.counter.consume.1).setWorker w
      (s.receiveCounted w gathered received c.counter.consume.2))
  | .quitting [] => some (c.setWorker w { s with phase := .returned })
  | .quitting (t :: ts) =>
    some ((c.send t ⟨.quit, w, .blank⟩).setWorker w { s with phase := .quitting ts })
  | .returned | .crashed _ => none

end Config
end Network
end SymbolicLtl
