import SymbolicLtl.Proofs.Network.Liveness

/-!
The protocol of the workers. Whatever steps they take, the active counter is exact and the run comes
to its end, in a counter of any number of bits as long as it can hold what is counted.
-/
namespace SymbolicLtl.Network

variable {n : Nat} {p : Product n} {net : Network p}

namespace Config

/-- In every configuration that a run can get to, by any interleaving, the counter is the number of
workers at work and of messages on their way; a worker that has seen the end is not at work any more,
also while it tells the others. No worker is stopped by the protocol, every worker can read what is
sent to it and finds it in its slice, at most one worker has seen the end, and it saw all others
waiting and no states in any mailbox. When all have returned, exactly one has seen the end, nothing is
left, and the network can be reset. All this holds as long as the counter can hold what is counted,
and the capacity of the network is enough for that. -/
theorem counter_exact {numVars : Int} {init : Diagram n} {constraints : List (Diagram n)}
    {method : Method} (hmake : Relation.make numVars init constraints method = .ok p.relation)
    {slices : List Slice} (hnet : Network.make p slices = .ok net) (hsize : 0 < net.size)
    {bits : Option Nat} {prev c₀ : Config net} (hreset : prev.reset bits = .ok c₀) (dir : Direction)
    (states : StateSets n p.size) (constraint : Constraint n) {trace : List (Config net × net.Id)}
    {c : Config net} (hrun : Execution dir (c₀.start states constraint) trace c) :
    (ActiveCounter.Room bits net.capacity → Roomy trace c) ∧
    (Roomy trace c → c.counter.value = c.active + c.registered ∧
      (∀ w m, (c.workers w).phase = .crashed m → m = .renameClash) ∧
      (∀ w, ∀ m ∈ c.mailboxes w, m.isQuit = false →
        ∃ d, m.content.toDiagram n = .ok d ∧ d.implies (net.cubeOf w) = true) ∧
      (trace.countP fun x => x.1.seesEnd x.2) ≤ 1 ∧
      (∀ x ∈ trace, x.1.seesEnd x.2 = true → x.1.QuietBut x.2) ∧
      (c.Finished → (trace.countP fun x => x.1.seesEnd x.2) = 1 ∧ c.counter.value = 0 ∧
        (∀ w, c.mailboxes w = []) ∧ c.tally.sent = c.tally.received ∧
        ∃ c₁, c.reset bits = .ok c₁)) := by
  have hfaithful := faithful_of_make hmake hnet
  refine ⟨hrun.roomy hfaithful hreset, fun hroom => ?_⟩
  have h := hrun.accounted hfaithful hsize hreset hroom
  refine ⟨h.books.value, fun w m hp => ?_, fun w m hm hq => ?_, ?_, h.quiet, fun hall => ?_⟩
  · rcases h.stage with ⟨hworking, -⟩ | ⟨leader, targets, hending, -⟩
    · have := hworking.phase w
      rw [hp] at this
      exact this
    · have := hending.phase_eq w
      simp [hp] at this
  · obtain ⟨d, hd, -⟩ := h.inSlices.mail w m hm hq
    exact ⟨d, accept_eq_ok_iff.mp hd⟩
  · rcases h.stage with ⟨-, hcount⟩ | ⟨leader, targets, -, hcount⟩ <;> omega
  · obtain ⟨hcount, hvalue, hmail⟩ := h.finished hsize hall
    refine ⟨hcount, hvalue, hmail, ?_, exists_reset hmail bits⟩
    have htaken : totalOf (fun s : WorkerState net => s.phase.taken) c.workers = 0 :=
      totalOf_eq_zero fun w => by rw [hall w]; rfl
    have hdata : totalOf dataCount c.mailboxes = 0 :=
      totalOf_eq_zero fun w => by rw [hmail w]; rfl
    have hsent := h.books.sent
    rw [c.tally_eq Tally.sent (fun _ _ => rfl) rfl, c.tally_eq Tally.received (fun _ _ => rfl) rfl]
    omega

/-- One variable that changes in every step, and an automaton with an edge for the value true. -/
def relay : Product 2 where
  relation := .toggle
  automaton :=
    let first : Fin 2 := ⟨0, Nat.zero_lt_two⟩
    let second : Fin 2 := ⟨1, Nat.one_lt_two⟩
    ⟨2, [⟨first, second, .literal first true⟩], [first], [second]⟩

/-- The four workers for the values of the variable, and a counter of 64 bits that they cannot
outgrow. -/
theorem exists_relay : ∃ (net : Network relay) (c₀ : Config net),
    Network.make relay [[⟨0, true⟩], [⟨0, false⟩]] = .ok net ∧ net.size = 4 ∧
      (idle net).reset (some 64) = .ok c₀ ∧ ActiveCounter.Room (some 64) net.capacity ∧
      ∀ s, (net.cubes s).AvoidsNext relay.relation.numVars := by
  have hslices : Slice.OverCurrent relay.relation.numVars [[⟨0, true⟩], [⟨0, false⟩]] :=
    .inr ⟨[0], List.forall_mem_singleton.mpr ⟨⟨0, by decide⟩, rfl⟩, rfl⟩
  obtain ⟨net, hnet, -, -, hcubes⟩ := @exists_make _ relay _ _ _ _ Relation.make_toggle _ hslices
  have hlength : net.slices.length = 2 := by
    rw [slices_of_make hnet]
    rfl
  have hsize : net.size = 4 := by
    rw [size, hlength]
    rfl
  have hcapacity : net.capacity = 84 := by
    rw [capacity, spread, hsize, hlength]
    rfl
  have hroom : ActiveCounter.Room (some 64) net.capacity := by
    rintro b ⟨⟩
    rw [hcapacity]
    decide
  obtain ⟨c₀, hreset⟩ := exists_reset (c := idle net) (Family.get_replicate _) (some 64)
  exact ⟨net, c₀, hnet, hsize, hreset, hroom, fun s => (hcubes s).avoidsNext⟩

/-- However the four workers look for what can be reached, one of them sees the end, and they have
received all that was sent. -/
theorem counter_exact_relay : ∃ (net : Network relay) (c₀ : Config net),
    Network.make relay [[⟨0, true⟩], [⟨0, false⟩]] = .ok net ∧
      (idle net).reset (some 64) = .ok c₀ ∧
      (∃ trace c, Execution .forward (c₀.start relay.start none) trace c ∧ c.Finished) ∧
      ∀ trace c, Execution .forward (c₀.start relay.start none) trace c → c.Finished →
        (trace.countP fun x => x.1.seesEnd x.2) = 1 ∧ c.counter.value = 0 ∧
          c.tally.sent = c.tally.received := by
  obtain ⟨net, c₀, hnet, hsize, hreset, hcapacity, -⟩ := exists_relay
  have hfaithful := faithful_of_make Relation.make_toggle hnet
  have hsafe : Safe net .forward relay.start none :=
    ⟨Relation.parts_ne_nil Relation.make_toggle, hfaithful, ⟨nofun, nofun, nofun⟩, nofun⟩
  refine ⟨net, c₀, hnet, hreset, ?_, fun trace c hrun hfinished => ?_⟩
  · obtain ⟨trace, c, hrun, -, hfinished⟩ := exists_run hsafe hreset hcapacity
    exact ⟨trace, c, hrun, hfinished⟩
  · obtain ⟨hroomy, hexact⟩ := counter_exact Relation.make_toggle hnet (by omega) hreset .forward
      relay.start none hrun
    obtain ⟨-, -, -, -, -, hlast⟩ := hexact (hroomy hcapacity)
    obtain ⟨hcount, hvalue, -, htally, -⟩ := hlast hfinished
    exact ⟨hcount, hvalue, htally⟩

/-- Workers do not take steps for ever, and as long as some worker has not returned, one of them has
a step. So every interleaving can be brought to its end, and all workers have returned there. All this
holds as long as the counter can hold what is counted, and the capacity of the network is enough for
that. -/
theorem run_terminates {numVars : Int} {init : Diagram n} {constraints : List (Diagram n)}
    {method : Method} (hmake : Relation.make numVars init constraints method = .ok p.relation)
    {slices : List Slice} (hnet : Network.make p slices = .ok net) {bits : Option Nat}
    {prev c₀ : Config net} (hreset : prev.reset bits = .ok c₀) {dir : Direction}
    {states : StateSets n p.size} {constraint : Constraint n}
    (hadmits : p.Admits dir states constraint)
    (hcubes : dir = .backward → ∀ s, (net.cubes s).AvoidsNext p.relation.numVars) :
    (∀ f : Nat → Config net, ¬∀ i, ∃ w, (f i).step dir w = some (f (i + 1))) ∧
      ∀ trace c, Execution dir (c₀.start states constraint) trace c →
        (ActiveCounter.Room bits net.capacity → Roomy trace c) ∧
        (Roomy trace c → ((∀ w, c.step dir w = none) ↔ c.Finished) ∧
          ∃ trace' c', Execution dir (c₀.start states constraint) (trace ++ trace') c' ∧
            (c'.Finished ∨ ¬c'.Fits)) := by
  have hfaithful := faithful_of_make hmake hnet
  have hsafe : Safe net dir states constraint :=
    ⟨Relation.parts_ne_nil hmake, hfaithful, hadmits, hcubes⟩
  refine ⟨fun f hf => ?_, fun trace c h => ⟨h.roomy hfaithful hreset, fun hroom => ⟨⟨fun hstuck => ?_,
    fun hfinished w => ?_⟩, Execution.exists_finished hsafe hreset c trace h hroom⟩⟩⟩
  · exact (wellFounded_iff_isEmpty_descending_chain.mp (wellFounded_step dir)).false ⟨f, hf⟩
  · exact h.finished_of_step_eq_none hsafe hreset hroom hstuck
  · simp [step, hfinished w]

/-- Four workers that look for predecessors of all states come to an end. -/
theorem run_terminates_relay : ∃ (net : Network relay) (c₀ : Config net),
    Network.make relay [[⟨0, true⟩], [⟨0, false⟩]] = .ok net ∧
      (idle net).reset (some 64) = .ok c₀ ∧ ∃ trace c, Execution .backward
        (c₀.start (.replicate _ (.const true)) none) trace c ∧ c.Finished := by
  have hlabel : (Diagram.literal (0 : Fin 2) true).AvoidsNext relay.relation.numVars :=
    .literal (fun h => absurd h.2 (by decide)) _
  have hadmits : relay.Admits .backward (.replicate _ (.const true)) none := by
    refine ⟨fun _ => List.forall_mem_singleton.mpr hlabel, fun _ q => ?_, fun _ _ => .const true⟩
    rw [Family.get_replicate]
    exact .const true
  obtain ⟨net, c₀, hnet, -, hreset, hcapacity, hcubes⟩ := exists_relay
  obtain ⟨-, hends⟩ := run_terminates Relation.make_toggle hnet hreset hadmits fun _ => hcubes
  obtain ⟨hroomy, hend⟩ := hends [] _ .refl
  obtain ⟨-, trace, c, hrun, hfinished⟩ := hend (hroomy hcapacity)
  have hfits := ((hends _ c hrun).1 hcapacity).2
  exact ⟨net, c₀, hnet, hreset, _, c, hrun, hfinished.resolve_right fun h => h hfits⟩

end Config
end SymbolicLtl.Network
