import SymbolicLtl.Proofs.Network.Agreement
import SymbolicLtl.Proofs.Reachability.ForkJoin

/-!
Every way in which a strategy may search. Which executor takes which image is left open, and so is
which worker takes the next step; whatever happens, the states found are those of one search.
-/
namespace SymbolicLtl

variable {n : Nat} {p : Product n}

namespace Network

variable {net : Network p}

/-- How a run of a network may end. The counter has any number of bits that have room for what is
counted. The workers take steps in any order until none of them has one, which happens in every
order; a worker that is stopped stops the run. -/
inductive Runs (net : Network p) (c : Config net) (dir : Direction) (states : StateSets n p.size)
    (constraint : Constraint n) : Except Misuse (StateSets n p.size × Config net) → Prop
  | unready {bits : Option Nat} {m : Misuse} (hreset : c.reset bits = .error m) :
    Runs net c dir states constraint (.error m)
  | uncovered {bits : Option Nat} {c₀ : Config net} (hreset : c.reset bits = .ok c₀)
    (hcov : (List.range p.size).all constraint.covers = false) :
    Runs net c dir states constraint (.error .badIndex)
  | stopped {bits : Option Nat} {c₀ c' : Config net} {trace : List (Config net × net.Id)}
    {w : net.Id} {m : Misuse} (hreset : c.reset bits = .ok c₀)
    (hcov : (List.range p.size).all constraint.covers = true)
    (hrun : Config.Execution dir (c₀.start states constraint) trace c')
    (hroom : Config.Roomy trace c') (hw : (c'.workers w).phase = .crashed m) :
    Runs net c dir states constraint (.error m)
  | ended {bits : Option Nat} {c₀ c' : Config net} {trace : List (Config net × net.Id)}
    (hreset : c.reset bits = .ok c₀) (hcov : (List.range p.size).all constraint.covers = true)
    (hrun : Config.Execution dir (c₀.start states constraint) trace c')
    (hroom : Config.Roomy trace c') (hend : ∀ w, c'.step dir w = none) :
    Runs net c dir states constraint (do return (← c'.reached, c'))

/-- The run of a network that is driven, with a counter without a limit, is one of its runs. -/
theorem runs_run (c : Config net) (dir : Direction) (states : StateSets n p.size)
    (constraint : Constraint n) :
    net.Runs c dir states constraint (net.run none c dir states constraint) := by
  unfold run
  cases hreset : c.reset none with
  | error m => exact .unready hreset
  | ok c₀ =>
    rw [Attempt.ok_bind]
    cases hcov : (List.range p.size).all constraint.covers with
    | false => exact .uncovered hreset hcov
    | true =>
      have hstart : Config.Execution dir (c₀.start states constraint) []
        (c₀.start states constraint) := .refl
      obtain ⟨⟨trace, hrun⟩, hend⟩ := Config.execution_drive hstart
      have hroom := hrun.roomy_of_unlimited hreset
      simp only [Bool.not_true, Bool.false_eq_true, if_false]
      split
      · next m hm =>
        obtain ⟨w, hw⟩ := Config.failure?_eq_some hm
        exact .stopped hreset hcov hrun hroom hw
      · exact .ended hreset hcov hrun hroom hend

/-- The workers of a network compute with what it was made of, and its cubes are over current values
and cover all assignments. -/
structure Covers (net : Network p) : Prop where
  faithful : net.Faithful
  cover : ∀ ρ, ∃ s, (net.cubes s).eval ρ = true
  cubes : ∀ s, (net.cubes s).OverCurrent p.relation.numVars

/-- Every run of a network at rest finds what one search finds, and leaves the network at rest. -/
theorem Runs.exact (hne : p.relation.parts ≠ []) (hnet : net.Covers) {c : Config net}
    (hc : Config.Rested net c) {dir : Direction} {states : StateSets n p.size}
    {constraint : Constraint n} (hadmits : p.Admits dir states constraint)
    (hcov : ∀ q : Fin p.size, constraint.covers q = true)
    {r : Except Misuse (StateSets n p.size × Config net)}
    (h : net.Runs c dir states constraint r) :
    ∃ v c', r = .ok (v, c') ∧ Config.Rested net c' ∧
      (p.search dir states constraint).result = .ok v := by
  have hsafe : Config.Safe net dir states constraint :=
    ⟨hne, hnet.faithful, hadmits, fun _ s => (hnet.cubes s).avoidsNext⟩
  cases h with
  | @unready bits m hreset =>
    obtain ⟨c₀, hok⟩ := Config.exists_reset (hc.mailboxes_eq_nil hnet.faithful) bits
    rw [hreset] at hok
    cases hok
  | uncovered hreset hall =>
    have hcovers : (List.range p.size).all constraint.covers = true := by
      simpa [Fin.forall_iff] using hcov
    rw [hcovers] at hall
    cases hall
  | @stopped bits c₀ c' trace w m hreset _ hrun hroom hw =>
    have haccounted := hrun.accounted hnet.faithful w.pos hreset hroom
    exact absurd hw (haccounted.phase_ne_crashed (hrun.unclashed hsafe hreset) w m)
  | @ended bits c₀ c' trace hreset _ hrun hroom hend =>
    have hfinished := hrun.finished_of_step_eq_none hsafe hreset hroom hend
    obtain ⟨v, hv, hsearch⟩ :=
      hrun.exists_reached_eq hsafe hnet.cover hcov hreset hroom hfinished
    refine ⟨v, c', ?_, .run hc hreset hrun hroom hfinished, hsearch⟩
    rw [hv]
    rfl

end Network

/-- In each direction there is a network at rest that covers all assignments. -/
def Networks.Sound (networks : Networks p) : Prop :=
  ∀ dir, ∃ net c, networks.get dir = .ok ⟨net, c⟩ ∧ net.Covers ∧ Network.Config.Rested net c

theorem Networks.Sound.set {networks : Networks p} (h : networks.Sound) {net : Network p}
    (hnet : net.Covers) {c : Network.Config net} (hc : Network.Config.Rested net c)
    (dir : Direction) : (networks.set dir ⟨net, c⟩).Sound := by
  intro dir'
  cases dir with
  | forward =>
    cases dir' with
    | forward => exact ⟨net, c, rfl, hnet, hc⟩
    | backward => exact h .backward
  | backward =>
    cases dir' with
    | forward => exact h .forward
    | backward => exact ⟨net, c, rfl, hnet, hc⟩

theorem Networks.sound_of_slices {numVars : Int} {init : Diagram n} {constraints : List (Diagram n)}
    {method : Method} (hmake : Relation.make numVars init constraints method = .ok p.relation)
    {forward backward : List Slice} (hforward : Slice.OverCurrent p.relation.numVars forward)
    (hbackward : Slice.OverCurrent p.relation.numVars backward) :
    Networks.Sound (⟨forward, backward, none, none⟩ : Networks p) := by
  intro dir
  cases dir with
  | forward =>
    obtain ⟨net, hnet, hfaithful, hcover, hcubes⟩ := Network.exists_make hmake hforward
    refine ⟨net, .idle net, ?_, ⟨hfaithful, hcover, hcubes⟩, .idle⟩
    simp only [get, hnet]
    rfl
  | backward =>
    obtain ⟨net, hnet, hfaithful, hcover, hcubes⟩ := Network.exists_make hmake hbackward
    refine ⟨net, .idle net, ?_, ⟨hfaithful, hcover, hcubes⟩, .idle⟩
    simp only [get, hnet]
    rfl

def Engine.Sound : Engine p → Prop
  | .sequential => True
  | .forkJoin pool => pool.Faithful
  | .messagePassing networks => networks.Sound

namespace Strategy

/-- How a search by a strategy may end, and the strategy after it. -/
inductive Searches (s : Strategy p) (dir : Direction) (start : StateSets n p.size)
    (constraint : Constraint n) : Except Misuse (StateSets n p.size) → Strategy p → Prop
  | sequential {event : Nat → Event} (hs : s.engine = .sequential) :
    Searches s dir start constraint (p.search dir start constraint).result
      (s.passed (p.search dir start constraint) event).strategy
  | forkJoin {pool : ForkJoin p} {event : Nat → Event} (hs : s.engine = .forkJoin pool)
    (assign : pool.Assignment) :
    Searches s dir start constraint (pool.search assign dir start constraint).result
      (s.passed (pool.search assign dir start constraint) event).strategy
  | unmade {networks : Networks p} {m : Misuse} (hs : s.engine = .messagePassing networks)
    (hget : networks.get dir = .error m) : Searches s dir start constraint (.error m) s
  | failed {networks : Networks p} {net : Network p} {c : Network.Config net} {m : Misuse}
    (hs : s.engine = .messagePassing networks) (hget : networks.get dir = .ok ⟨net, c⟩)
    (hrun : net.Runs c dir start constraint (.error m)) :
    Searches s dir start constraint (.error m) s
  | ran {networks : Networks p} {net : Network p} {c c' : Network.Config net}
    {sets : StateSets n p.size} (hs : s.engine = .messagePassing networks)
    (hget : networks.get dir = .ok ⟨net, c⟩)
    (hrun : net.Runs c dir start constraint (.ok (sets, c'))) :
    Searches s dir start constraint (.ok sets)
      { s with
        engine := .messagePassing (networks.set dir ⟨net, c'⟩)
        work := s.work.add ⟨1, c'.tally.batches, c'.tally.images, c'.tally.sent⟩ }

theorem searches_reachable (s : Strategy p) (dir : Direction) (start : StateSets n p.size)
    (constraint : Constraint n) : s.Searches dir start constraint
      (s.reachable dir start constraint).result (s.reachable dir start constraint).strategy := by
  unfold reachable
  split
  · next hs => exact .sequential hs
  · next pool hs => exact .forkJoin hs pool.inTurn
  · next networks hs =>
    split
    · next m hget => exact .unmade hs hget
    · next net c hget =>
      have hrun := net.runs_run c dir start constraint
      simp only [dif_pos]
      split
      · next m hm =>
        rw [hm] at hrun
        exact .failed hs hget hrun
      · next sets c' hok =>
        rw [hok] at hrun
        exact .ran hs hget hrun

/-- Every search by a sound strategy finds what one search finds, and the strategy stays sound. -/
theorem Searches.exact (hne : p.relation.parts ≠ []) {s s' : Strategy p} (hs : s.engine.Sound)
    {dir : Direction} {start : StateSets n p.size} {constraint : Constraint n}
    (hadmits : p.Admits dir start constraint)
    (hcov : ∀ q : Fin p.size, constraint.covers q = true)
    {r : Except Misuse (StateSets n p.size)} (h : s.Searches dir start constraint r s') :
    r = (p.search dir start constraint).result ∧ s'.engine.Sound := by
  cases h with
  | sequential => exact ⟨rfl, hs⟩
  | forkJoin hengine assign =>
    have hfaithful := hs
    rw [hengine] at hfaithful
    exact ⟨(ForkJoin.search_agrees hfaithful assign dir start hcov).result, hs⟩
  | unmade hengine hget =>
    rw [hengine] at hs
    obtain ⟨net, c, hok, -⟩ := hs dir
    rw [hget] at hok
    cases hok
  | failed hengine hget hrun =>
    rw [hengine] at hs
    obtain ⟨net, c, hok, hnet, hc⟩ := hs dir
    rw [hget] at hok
    cases hok
    obtain ⟨v, c', hr, -⟩ := hrun.exact hne hnet hc hadmits hcov
    cases hr
  | ran hengine hget hrun =>
    rw [hengine] at hs
    obtain ⟨net, c, hok, hnet, hc⟩ := hs dir
    rw [hget] at hok
    cases hok
    obtain ⟨v, c', hr, hrested, hsearch⟩ := hrun.exact hne hnet hc hadmits hcov
    cases hr
    exact ⟨hsearch.symm, hs.set hnet hrested dir⟩

/-- Strategies are made sound, where slices are over current values. -/
theorem sound_of_make {numVars : Int} {init : Diagram n} {constraints : List (Diagram n)}
    {method : Method} (hmake : Relation.make numVars init constraints method = .ok p.relation)
    {settings : StrategySettings}
    (hforward : Slice.OverCurrent p.relation.numVars settings.forwardSlices)
    (hbackward : Slice.OverCurrent p.relation.numVars settings.backwardSlices) {s : Strategy p}
    (hs : make p settings = .ok s) : s.engine.Sound := by
  unfold make at hs
  split_ifs at hs
  · cases hs
    trivial
  · cases hs
    exact Networks.sound_of_slices hmake hforward hbackward
  · obtain ⟨pool, hpool, hfaithful, -⟩ := ForkJoin.exists_make hmake settings.executors
    rw [hpool] at hs
    cases hs
    exact hfaithful
  · cases hs

end Strategy
end SymbolicLtl
