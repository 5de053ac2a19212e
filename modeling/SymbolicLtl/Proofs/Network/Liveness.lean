import Mathlib.Order.WellFounded
import SymbolicLtl.Proofs.Network.Room

/-!
Runs of a network end. Every step gets ahead, so there are only finitely many, and as long as some
worker has not returned some worker has a step: a counter above zero stands for a worker at work or
for a message that wakes one.
-/
namespace SymbolicLtl

namespace Network

variable {n : Nat} {p : Product n} {net : Network p}

theorem propagate_ne_error (hnet : net.Faithful) {dir : Direction} {w : net.Id} {states : Diagram n}
    (h : dir = .backward → states.AvoidsNext p.relation.numVars) (m : Misuse) :
    net.propagate dir w states ≠ .error m := by
  intro herror
  obtain ⟨hdir, himage, -⟩ := propagate_eq_error herror
  rw [hnet.relation] at himage
  obtain ⟨t, ht⟩ := p.relation.exists_preImage (h hdir)
  rw [himage] at ht
  cases ht

namespace Config

/-- No network takes steps for ever. -/
theorem wellFounded_step (dir : Direction) :
    WellFounded fun c' c : Config net => ∃ w, c.step dir w = some c' := by
  have hlex : WellFounded fun c' c : Config net => Ahead c' c := by
    refine Subrelation.wf ?_
      (InvImage.wf (fun c : Config net => (c.unreached, c.pending))
        (Prod.lex Nat.lt_wfRel Nat.lt_wfRel).wf)
    rintro c' c (hlt | ⟨heq, hlt⟩)
    · exact Prod.Lex.left _ _ hlt
    · exact Prod.lex_def.mpr (.inr ⟨heq, hlt⟩)
  refine Subrelation.wf ?_ hlex
  rintro c' c ⟨w, hw⟩
  exact ahead_of_step hw

abbrev AvoidsNext (dir : Direction) (c : Config net) : Prop :=
  c.Carries (fun _ d => dir = .backward → d.AvoidsNext p.relation.numVars)
    fun _ d => dir = .backward → d.AvoidsNext p.relation.numVars

/-- The conditions under which no worker is stopped. -/
structure Safe (net : Network p) (dir : Direction) (states : StateSets n p.size)
    (constraint : Constraint n) : Prop where
  parts_ne_nil : p.relation.parts ≠ []
  faithful : net.Faithful
  admits : p.Admits dir states constraint
  cubes : dir = .backward → ∀ s, (net.cubes s).AvoidsNext p.relation.numVars

variable {dir : Direction} {states : StateSets n p.size} {constraint : Constraint n}

theorem Safe.input (h : Safe net dir states constraint) (w : net.Id) (hd : dir = .backward) :
    (net.inputOf states w).AvoidsNext p.relation.numVars :=
  (h.admits.start hd _).and (h.cubes hd _)

theorem Safe.update (h : Safe net dir states constraint) {w : net.Id} {gathered reach : Diagram n}
    (hg : dir = .backward → gathered.AvoidsNext p.relation.numVars)
    (hr : dir = .backward → reach.AvoidsNext p.relation.numVars) (hd : dir = .backward) :
    ((gathered.diff reach).and (net.limitOf constraint w)).AvoidsNext p.relation.numVars :=
  ((hg hd).diff (hr hd)).and (h.admits.constraint hd _)

theorem Safe.packets (h : Safe net dir states constraint) {w : net.Id} {d : Diagram n}
    {packets : List net.Packet} {images : Nat}
    (hok : net.propagate dir w d = .ok (packets, images)) :
    ∀ x ∈ packets, dir = .backward → x.states.AvoidsNext p.relation.numVars := by
  rintro x hx rfl
  exact avoidsNext_of_mem_propagate h.faithful h.parts_ne_nil (h.admits.labels rfl) (h.cubes rfl)
    hok hx

theorem Safe.preserves (h : Safe net dir states constraint) :
    net.Preserves dir states constraint
      (fun _ d => dir = .backward → d.AvoidsNext p.relation.numVars)
      fun _ d => dir = .backward → d.AvoidsNext p.relation.numVars where
  none _ _ := .const false
  or _ _ _ ha hb hd := (ha hd).or (hb hd)
  start _ _ _ hok := h.packets hok
  reach _ _ _ hg hr hd := (hr hd).or (h.update hg hr hd)
  packets _ _ _ _ _ _ _ hok := h.packets hok

/-- A clash of variables stops a worker only when it passes on the states it starts from, or those of
a batch. -/
theorem Step.crashed {c c' : Config net} {w v : net.Id} (hb : c.Briefed states constraint)
    (hc : InSlices c) (h : Step dir c w c') (hv : (c'.workers v).phase = .crashed .renameClash) :
    (c.workers v).phase = .crashed .renameClash ∨
      net.propagate dir v (net.inputOf states v) = .error .renameClash ∨ ∃ gathered,
      (c.workers v).phase = .draining gathered ∧ net.propagate dir v
        ((gathered.diff (c.workers v).reach).and (net.limitOf constraint v)) =
          .error .renameClash := by
  by_cases hvw : v = w
  · subst hvw
    have hpropagate : ∀ (s : WorkerState net) (d : Diagram n),
        (s.propagate dir v d).phase = .crashed .renameClash →
          net.propagate dir v d = .error .renameClash := by
      intro s d hs
      rcases s.propagate_cases dir v d with ⟨packets, images, -, heq⟩ | ⟨herror, -⟩
      · rw [heq] at hs
        cases hs
      · exact herror
    cases h with
    | launch hp =>
      rw [workers_setWorker, if_pos rfl, hb.launch_eq hp] at hv
      exact .inr (.inl (hpropagate _ _ hv))
    | withdraw hp =>
      simp only [workers_setWorker, if_true, afterDone, ActiveCounter.done] at hv
      split_ifs at hv
      · simp at hv
      · split at hv <;> simp_all
    | @finish gathered hp hm =>
      refine .inr (.inr ⟨gathered, hp, ?_⟩)
      rw [workers_setWorker, if_pos rfl, WorkerState.finishBatch] at hv
      rw [← hb.restrict v (by rw [hp]; rfl)]
      exact hpropagate _ _ hv
    | take hp hm hq =>
      obtain ⟨d, hd, -⟩ := hc.mail v _ (hm ▸ List.mem_cons_self) hq
      rw [workers_setWorker, if_pos rfl, WorkerState.receive_eq hd] at hv
      cases hv
    | account hp =>
      have hin := hc.phase v
      rw [hp] at hin
      obtain ⟨-, d, hd, -⟩ := hin
      simp only [workers_setWorker, if_true, ActiveCounter.consume, WorkerState.receiveCounted,
        WorkerState.receive_eq hd] at hv
      split_ifs at hv
      simp at hv
    | register hp | deliver hp | leave hp | startle hp | fetch hp | depart hp | announce hp =>
      simp at hv
  · rw [h.workers_eq hvw] at hv
    exact .inl hv

structure Unclashed (dir : Direction) (c : Config net) : Prop where
  avoidsNext : c.AvoidsNext dir
  phase : ∀ w, (c.workers w).phase ≠ .crashed .renameClash

theorem Unclashed.step (hsafe : Safe net dir states constraint) {c c' : Config net} {w : net.Id}
    (hb : c.Briefed states constraint) (h : Unclashed dir c) (hs : Step dir c w c') :
    Unclashed dir c' := by
  have hc : InSlices c := h.avoidsNext.weaken
  refine ⟨h.avoidsNext.step hsafe.preserves hsafe.faithful hb hs, fun v hv => ?_⟩
  rcases hs.crashed hb hc hv with hold | herror | ⟨gathered, hp, herror⟩
  · exact h.phase v hold
  · exact propagate_ne_error hsafe.faithful (hsafe.input v) _ herror
  · have hgathered := h.avoidsNext.phase v
    rw [hp] at hgathered
    exact propagate_ne_error hsafe.faithful (hsafe.update hgathered (h.avoidsNext.reach v)) _ herror

theorem Execution.unclashed (hsafe : Safe net dir states constraint) {c c₀ c' : Config net}
    {bits : Option Nat} (hreset : c.reset bits = .ok c₀) {trace : List (Config net × net.Id)}
    (h : Execution dir (c₀.start states constraint) trace c') : Unclashed dir c' := by
  have hstart : Unclashed dir (c₀.start states constraint) := by
    refine ⟨.start hreset states constraint fun _ _ => .const false, fun w hw => ?_⟩
    rw [workers_start] at hw
    cases hw
  have hboth := h.keeps (P := fun c => c.Briefed states constraint ∧ Unclashed dir c)
    ⟨.start hsafe.faithful c₀, hstart⟩ fun hc hs => ⟨hc.1.step hs, hc.2.step hsafe hc.1 hs⟩
  exact hboth.2

theorem Accounted.phase_ne_crashed {trace : List (Config net × net.Id)} {c : Config net}
    (h : Accounted trace c) (hc : Unclashed dir c) (w : net.Id) (m : Misuse) :
    (c.workers w).phase ≠ .crashed m := by
  intro hp
  rcases h.stage with ⟨hworking, -⟩ | ⟨leader, targets, hending, -⟩
  · have hm := hworking.phase w
    rw [hp] at hm
    subst hm
    exact hc.phase w hp
  · have := hending.phase_eq w
    simp [hp] at this

theorem step_eq_none {c : Config net} {w : net.Id}
    (h : c.step dir w = none) : (c.workers w).phase = .returned ∨
      (∃ m, (c.workers w).phase = .crashed m) ∨
      (c.workers w).phase = .waiting ∧ c.mailboxes w = [] := by
  unfold step at h
  cases hp : (c.workers w).phase with
  | starting input limit => simp [hp] at h
  | returned => exact .inl rfl
  | crashed m => exact .inr (.inl ⟨m, rfl⟩)
  | waiting =>
    cases hm : c.mailboxes w with
    | nil => exact .inr (.inr ⟨rfl, rfl⟩)
    | cons m rest => simp [hp, hm, Mailbox.receive] at h
  | draining gathered => cases hm : c.mailboxes w <;> simp [hp, hm, Mailbox.receive] at h
  | sending packets registered => cases packets <;> cases registered <;> simp [hp] at h
  | counting gathered received => simp [hp] at h
  | quitting targets => cases targets <;> simp [hp] at h

/-- A counter above zero stands for a step. -/
theorem Working.exists_step {c : Config net} (h : Working c) (hb : Books c)
    (hc : ∀ w m, (c.workers w).phase ≠ .crashed m) : ∃ w c', c.step dir w = some c' := by
  by_contra hstuck
  have hwaiting : ∀ w, (c.workers w).phase = .waiting ∧ c.mailboxes w = [] := by
    intro w
    have hnone : c.step dir w = none :=
      Option.eq_none_iff_forall_ne_some.mpr fun c' hc' => hstuck ⟨w, c', hc'⟩
    rcases step_eq_none hnone with hp | ⟨m, hp⟩ | hp
    · have := h.phase w
      rw [hp] at this
      cases this
    · exact absurd hp (hc w m)
    · exact hp
  have hactive : c.active = 0 := totalOf_eq_zero fun w => by rw [(hwaiting w).1]; rfl
  have hregistered : c.registered = 0 := by
    unfold registered
    rw [totalOf_eq_zero fun w => by rw [(hwaiting w).1]; rfl,
      totalOf_eq_zero fun w => by rw [(hwaiting w).2]; rfl]
  have hv := hb.value
  have hpos := h.value
  omega

/-- After the end, a worker that has not returned is told to, or tells the others. -/
theorem Ending.exists_step {c : Config net} {leader : net.Id}
    {targets : List net.Id} (h : Ending c leader targets) {w : net.Id}
    (hw : (c.workers w).phase ≠ .returned) : ∃ v c', c.step dir v = some c' := by
  by_contra hstuck
  have hnone : ∀ v, c.step dir v = none := fun v =>
    Option.eq_none_iff_forall_ne_some.mpr fun c' hc' => hstuck ⟨v, c', hc'⟩
  -- The leader can always step until it has returned, so nobody is left to be told.
  have hleader : targets = [] := by
    rcases h.phase with hp | ⟨hnil, -⟩
    · have := step_eq_none (hnone leader)
      simp [hp] at this
    · exact hnil
  subst hleader
  have hwstuck := step_eq_none (hnone w)
  rcases h.phase_eq w with ⟨-, hp⟩ | ⟨hne, hp⟩ | hp
  · simp [hp] at hwstuck
  · rcases h.others w hne with ⟨hmem, -⟩ | ⟨-, -, m, -, hm⟩ | ⟨-, hp', -⟩
    · cases hmem
    · simp [hp, hm] at hwstuck
    · exact hw hp'
  · exact hw hp

theorem Execution.exists_step (hsafe : Safe net dir states constraint) {c c₀ c' : Config net}
    {bits : Option Nat} (hreset : c.reset bits = .ok c₀) {trace : List (Config net × net.Id)}
    (h : Execution dir (c₀.start states constraint) trace c') (hroom : Roomy trace c')
    (hunfinished : ¬c'.Finished) : ∃ w c'', c'.step dir w = some c'' := by
  obtain ⟨w, hw⟩ : ∃ w, (c'.workers w).phase ≠ .returned := by
    by_contra hall
    exact hunfinished fun w => by_contra fun hw => hall ⟨w, hw⟩
  have hsize : 0 < net.size := w.pos
  have haccounted := h.accounted hsafe.faithful hsize hreset hroom
  have hcrashed := haccounted.phase_ne_crashed (h.unclashed hsafe hreset)
  rcases haccounted.stage with ⟨hworking, -⟩ | ⟨leader, targets, hending, -⟩
  · exact hworking.exists_step haccounted.books hcrashed
  · exact hending.exists_step hw

/-- However an execution has begun, it can be brought to its end, unless there is more to count than
the counter can hold. -/
theorem Execution.exists_finished (hsafe : Safe net dir states constraint) {c c₀ : Config net}
    {bits : Option Nat} (hreset : c.reset bits = .ok c₀) (c' : Config net) : ∀ trace,
    Execution dir (c₀.start states constraint) trace c' → Roomy trace c' → ∃ trace' c'',
      Execution dir (c₀.start states constraint) (trace ++ trace') c'' ∧
        (c''.Finished ∨ ¬c''.Fits) := by
  induction c' using (wellFounded_step dir).induction with
  | _ c' ih =>
    intro trace h hroom
    by_cases hfinished : c'.Finished
    · exact ⟨[], c', by rwa [List.append_nil], .inl hfinished⟩
    · obtain ⟨w, next, hw⟩ := h.exists_step hsafe hreset hroom hfinished
      by_cases hfits : next.Fits
      · obtain ⟨trace', last, hrun, hlast⟩ := ih next ⟨w, hw⟩ _ (h.step hw) (hroom.step hfits)
        exact ⟨(c', w) :: trace', last, by rwa [List.append_cons], hlast⟩
      · exact ⟨[(c', w)], next, h.step hw, .inr hfits⟩

/-- A network whose counter can hold its capacity can be run. -/
theorem exists_run (hsafe : Safe net dir states constraint) {c c₀ : Config net} {bits : Option Nat}
    (hreset : c.reset bits = .ok c₀) (hcapacity : ActiveCounter.Room bits net.capacity) :
    ∃ trace c', Execution dir (c₀.start states constraint) trace c' ∧ Roomy trace c' ∧
      c'.Finished := by
  have hstart : Execution dir (c₀.start states constraint) [] (c₀.start states constraint) := .refl
  obtain ⟨trace, c', hrun, hend⟩ := Execution.exists_finished hsafe hreset _ [] hstart
    (hstart.roomy hsafe.faithful hreset hcapacity)
  have hroom := hrun.roomy hsafe.faithful hreset hcapacity
  exact ⟨_, c', hrun, hroom, hend.resolve_right fun h => h hroom.2⟩

theorem Execution.finished_of_step_eq_none (hsafe : Safe net dir states constraint)
    {c c₀ c' : Config net} {bits : Option Nat} (hreset : c.reset bits = .ok c₀)
    {trace : List (Config net × net.Id)} (h : Execution dir (c₀.start states constraint) trace c')
    (hroom : Roomy trace c') (hend : ∀ w, c'.step dir w = none) : c'.Finished := by
  by_contra hunfinished
  obtain ⟨w, c'', hw⟩ := h.exists_step hsafe hreset hroom hunfinished
  rw [hend w] at hw
  cases hw

theorem execution_drive {dir : Direction} {c₀ c : Config net}
    {trace : List (Config net × net.Id)} (h : Execution dir c₀ trace c) :
    (∃ trace', Execution dir c₀ trace' (c.drive dir)) ∧ ∀ w, (c.drive dir).step dir w = none := by
  fun_induction drive dir c generalizing trace with
  | case1 c hnext =>
    unfold next at hnext
    rw [List.findSome?_eq_none_iff] at hnext
    exact ⟨⟨trace, h⟩, fun w => hnext w (List.mem_finRange w)⟩
  | case2 c c' hnext ih =>
    obtain ⟨w, -, hw⟩ := List.exists_of_findSome?_eq_some hnext
    exact ih (h.step hw)

theorem failure?_eq_some {c : Config net} {m : Misuse} (h : c.failure? = some m) :
    ∃ w, (c.workers w).phase = .crashed m := by
  unfold failure? at h
  obtain ⟨s, hs, hm⟩ := List.exists_of_findSome?_eq_some h
  rw [Family.toList_eq] at hs
  obtain ⟨w, -, rfl⟩ := List.mem_map.mp hs
  split at hm
  · next m' hp =>
    cases hm
    exact ⟨w, hp⟩
  · cases hm

end Config
end Network
end SymbolicLtl
