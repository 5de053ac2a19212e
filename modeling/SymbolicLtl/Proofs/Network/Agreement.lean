import SymbolicLtl.Proofs.Network.Protocol
import SymbolicLtl.Reachability.Strategy

/-!
A network finds what one search finds, however its workers are interleaved. All that is on its way
to a worker is one step away from states found before, and whatever is one step away from them is on
its way until its owner has looked at it.
-/
namespace SymbolicLtl.Network

variable {n : Nat} {p : Product n} {net : Network p} {dir : Direction}
  {states : StateSets n p.size} {constraint : Constraint n}

def Found (dir : Direction) (states : StateSets n p.size) (constraint : Constraint n)
    (x : p.Point) : Prop :=
  ∃ x₀, states.Has x₀ ∧ Relation.TransGen (p.Advance dir constraint) x₀ x

/-- One step away from the start, or from what a search finds. -/
def Due (dir : Direction) (states : StateSets n p.size) (constraint : Constraint n)
    (y : p.Point) : Prop :=
  ∃ x, (states.Has x ∨ Found dir states constraint x) ∧ p.Move dir x y

theorem Due.found {y : p.Point} (h : Due dir states constraint y)
    (hy : (constraint.setAt y.1).eval y.2 = true) : Found dir states constraint y := by
  obtain ⟨x, hx | ⟨x₀, hx₀, hpath⟩, hmove⟩ := h
  · exact ⟨x, hx, .single ⟨hmove, hy⟩⟩
  · exact ⟨x₀, hx₀, hpath.tail ⟨hmove, hy⟩⟩

theorem found_of_update {w : net.Id} {gathered reach : Diagram n} {ρ : Nat → Bool}
    (hg : ∀ ρ, gathered.eval ρ = true → Due dir states constraint (net.stateOf w, ρ))
    (hρ : ((gathered.diff reach).and (net.limitOf constraint w)).eval ρ = true) :
    Found dir states constraint (net.stateOf w, ρ) := by
  simp only [Diagram.eval_and, Diagram.eval_diff, Bool.and_eq_true] at hρ
  exact (hg ρ hρ.1.1).found hρ.2

theorem preserves_found (hnet : net.Faithful) (hne : p.relation.parts ≠ []) :
    net.Preserves dir states constraint
    (fun w d => ∀ ρ, d.eval ρ = true → Due dir states constraint (net.stateOf w, ρ))
    fun w d => ∀ ρ, d.eval ρ = true → Found dir states constraint (net.stateOf w, ρ) where
  none w ρ hρ := by
    rw [Diagram.eval_const] at hρ
    cases hρ
  or w a b ha hb ρ hρ := by
    rw [Diagram.eval_or, Bool.or_eq_true] at hρ
    exact hρ.elim (ha ρ) (hb ρ)
  start w packets images hok x hx ρ' hρ' := by
    obtain ⟨-, ρ, hρ, hmove⟩ := (exists_mem_propagate hnet hne hok).mp ⟨x, hx, rfl, hρ'⟩
    rw [inputOf, Diagram.eval_and, Bool.and_eq_true] at hρ
    exact ⟨(net.stateOf w, ρ), .inl hρ.1, hmove⟩
  reach w gathered reach hg hr ρ hρ := by
    rw [Diagram.eval_or, Bool.or_eq_true] at hρ
    exact hρ.elim (hr ρ) (found_of_update hg)
  packets w gathered reach packets images hg hr hok x hx ρ' hρ' := by
    obtain ⟨-, ρ, hρ, hmove⟩ := (exists_mem_propagate hnet hne hok).mp ⟨x, hx, rfl, hρ'⟩
    exact ⟨_, .inr (found_of_update hg hρ), hmove⟩

def Phase.Sends (t : net.Id) (ρ : Nat → Bool) : Phase net → Prop
  | .sending xs _ => ∃ x ∈ xs, x.target = t ∧ x.states.eval ρ = true
  | _ => False

abbrev Brings (net : Network p) (t : net.Id) (ρ : Nat → Bool) (content : Table) : Prop :=
  net.Reads (fun _ d => d.eval ρ = true) t content

def Phase.Gathers (t : net.Id) (ρ : Nat → Bool) : Phase net → Prop
  | .draining gathered => gathered.eval ρ = true
  | .counting gathered received => gathered.eval ρ = true ∨ net.Brings t ρ received
  | _ => False

namespace Config

inductive InTransit (c : Config net) (t : net.Id) (ρ : Nat → Bool) : Prop
  | packet {w : net.Id} (h : (c.workers w).phase.Sends t ρ)
  | message {m : Message Table} (hm : m ∈ c.mailboxes t) (hq : m.isQuit = false)
    (hρ : net.Brings t ρ m.content)
  | gathered (h : (c.workers t).phase.Gathers t ρ)

/-- An assignment is on its way to a worker, or the worker has reached it if it may. -/
def Settled (constraint : Constraint n) (c : Config net) (t : net.Id) (ρ : Nat → Bool) : Prop :=
  InTransit c t ρ ∨
    ((net.limitOf constraint t).eval ρ = true → (c.workers t).reach.eval ρ = true)

section Step

variable {c c' : Config net} {w t : net.Id} {ρ : Nat → Bool}

/-- Only the end of a batch changes what a worker has reached. -/
theorem Step.reach_cases (h : Step dir c w c') (v : net.Id) :
    (c'.workers v).reach = (c.workers v).reach ∨ v = w ∧ ∃ gathered,
      (c.workers w).phase = .draining gathered ∧
        c' = c.setWorker w ((c.workers w).finishBatch dir w gathered) := by
  by_cases hv : v = w
  · subst hv
    cases h with
    | launch hp => exact .inl (by simp [reach_launch])
    | finish hp hm => exact .inr ⟨rfl, _, hp, rfl⟩
    | take hp hm hq => exact .inl (by simp [reach_receive])
    | account hp =>
      left
      simp only [workers_setWorker, if_true, WorkerState.receiveCounted]
      split
      · rfl
      · exact reach_receive _ _ _ _
    | withdraw hp | register hp | deliver hp | leave hp | startle hp | fetch hp | depart hp
    | announce hp => exact .inl (by simp)
  · exact .inl (by rw [h.workers_eq hv])

theorem reach_finishBatch (s : WorkerState net) (gathered : Diagram n) :
    (s.finishBatch dir w gathered).reach =
      s.reach.or ((gathered.diff s.reach).and s.restrict) := by
  unfold WorkerState.finishBatch
  rw [reach_propagate]

theorem Step.reach_mono (h : Step dir c w c') {v : net.Id}
    (hv : (c.workers v).reach.eval ρ = true) : (c'.workers v).reach.eval ρ = true := by
  rcases h.reach_cases v with heq | ⟨rfl, gathered, -, rfl⟩
  · rw [heq]
    exact hv
  · rw [workers_setWorker, if_pos rfl, reach_finishBatch, Diagram.eval_or, hv]
    rfl

/-- Packets become messages. -/
theorem InTransit.of_sends (hc : InSlices c) (hs : Step dir c w c') {v : net.Id}
    (h : (c.workers v).phase.Sends t ρ) : InTransit c' t ρ := by
  by_cases hv : v = w
  · subst hv
    cases hs with
    | withdraw hp =>
      rw [hp] at h
      obtain ⟨x, hx, -⟩ := h
      cases hx
    | register hp =>
      rw [hp] at h
      refine @InTransit.packet _ _ _ _ _ _ v ?_
      rw [workers_setWorker, if_pos rfl]
      exact h
    | @deliver x xs hp =>
      have hphase := hc.phase v
      rw [hp] at h hphase
      obtain ⟨y, hy, rfl, hρ⟩ := h
      have hin := (hphase y hy).1
      rcases List.mem_cons.mp hy with rfl | hy
      · refine .message (m := ⟨.data, v, Table.ofDiagram y.states⟩) ?_ rfl
          ⟨y.states, accept_ofDiagram hin, hρ⟩
        simp
      · refine @InTransit.packet _ _ _ _ _ _ v ?_
        rw [workers_setWorker, if_pos rfl]
        exact ⟨y, hy, rfl, hρ⟩
    | launch hp | leave hp | take hp | finish hp | startle hp | fetch hp | account hp | depart hp
    | announce hp =>
      rw [hp] at h
      cases h
  · refine @InTransit.packet _ _ _ _ _ _ v ?_
    rw [hs.workers_eq hv]
    exact h

theorem InTransit.of_message (hs : Step dir c w c') (hc : ∀ m, (c'.workers w).phase ≠ .crashed m)
    {m : Message Table} (hm : m ∈ c.mailboxes t) (hq : m.isQuit = false)
    (hρ : net.Brings t ρ m.content) : InTransit c' t ρ := by
  by_cases hkept : m ∈ c'.mailboxes t
  · exact .message hkept hq hρ
  cases hs with
  | launch | withdraw | register | finish | account | depart => simp [hm] at hkept
  | @deliver x xs hp =>
    by_cases ht : t = x.target <;> simp_all
  | @announce s ts hp =>
    by_cases ht : t = s <;> simp_all
  | @leave first rest hp hfirst hquit =>
    by_cases ht : t = w
    · subst ht
      rw [hfirst] at hm
      rcases List.mem_cons.mp hm with rfl | hm
      · rw [hq] at hquit
        cases hquit
      · simp [hm] at hkept
    · simp [ht, hm] at hkept
  | @take first rest hp hfirst hquit =>
    by_cases ht : t = w
    · subst ht
      rw [hfirst] at hm
      rcases List.mem_cons.mp hm with rfl | hm
      · obtain ⟨d, hd, hdρ⟩ := hρ
        refine .gathered ?_
        rw [workers_setWorker, if_pos rfl, WorkerState.receive_eq hd]
        simp [Phase.Gathers, hdρ]
      · simp [hm] at hkept
    · simp [ht, hm] at hkept
  | startle hp hfirst hquit =>
    rw [workers_setWorker, if_pos rfl] at hc
    exact absurd rfl (hc _)
  | @fetch gathered first rest hp hfirst hquit =>
    by_cases ht : t = w
    · subst ht
      rw [hfirst] at hm
      rcases List.mem_cons.mp hm with rfl | hm
      · refine .gathered ?_
        rw [workers_setWorker, if_pos rfl]
        exact .inr hρ
      · simp [hm] at hkept
    · simp [ht, hm] at hkept

theorem Settled.of_gathers (hb : c.Briefed states constraint) (hin : InSlices c)
    (hs : Step dir c w c') (hc : ∀ m, (c'.workers w).phase ≠ .crashed m)
    (h : (c.workers t).phase.Gathers t ρ) : Settled constraint c' t ρ := by
  by_cases ht : t = w
  · subst ht
    cases hs with
    | @finish gathered hp hm =>
      have hrestrict := hb.restrict t (by rw [hp]; rfl)
      rw [hp] at h
      refine .inr fun hallowed => ?_
      rw [workers_setWorker, if_pos rfl, reach_finishBatch, hrestrict]
      have hg : gathered.eval ρ = true := h
      cases hr : (c.workers t).reach.eval ρ <;> simp [hg, hr, hallowed]
    | startle hp hfirst hquit =>
      rw [workers_setWorker, if_pos rfl] at hc
      exact absurd rfl (hc _)
    | fetch hp hfirst hquit =>
      rw [hp] at h
      refine .inl (.gathered ?_)
      rw [workers_setWorker, if_pos rfl]
      exact .inl h
    | @account gathered received hp =>
      have hphase := hin.phase t
      rw [hp] at h hphase
      obtain ⟨-, d, hd, -⟩ := hphase
      have hread : gathered.eval ρ = true ∨ d.eval ρ = true := by
        refine h.imp_right ?_
        rintro ⟨e, he, heρ⟩
        rw [hd] at he
        cases he
        exact heρ
      refine .inl (.gathered ?_)
      simp only [workers_setWorker, if_true, workers_setCounter] at hc ⊢
      cases hconsume : c.counter.consume.2 with
      | error m =>
        rw [hconsume] at hc
        exact absurd rfl (hc m)
      | ok u =>
        simp only [WorkerState.receiveCounted, WorkerState.receive_eq hd]
        simpa [Phase.Gathers] using hread
    | launch hp | withdraw hp | register hp | deliver hp | leave hp | take hp | depart hp
    | announce hp =>
      rw [hp] at h
      cases h
  · refine .inl (.gathered ?_)
    rw [hs.workers_eq ht]
    exact h

theorem Settled.step (hb : c.Briefed states constraint) (hin : InSlices c)
    (h : Settled constraint c t ρ) (hs : Step dir c w c')
    (hc : ∀ m, (c'.workers w).phase ≠ .crashed m) : Settled constraint c' t ρ := by
  rcases h with htransit | hreached
  · cases htransit with
    | packet h => exact .inl (.of_sends hin hs h)
    | message hm hq hρ => exact .inl (.of_message hs hc hm hq hρ)
    | gathered h => exact .of_gathers hb hin hs hc h
  · exact .inr fun hallowed => hs.reach_mono (hreached hallowed)

end Step

def Reached (c : Config net) (x : p.Point) : Prop :=
  ∃ w, net.stateOf w = x.1 ∧ (c.workers w).reach.eval x.2 = true

def union (c : Config net) : StateSets n p.size :=
  .ofFn fun q => (List.finRange net.slices.length).foldl
    (fun acc s => acc.or (c.workers (net.idOf q s)).reach) (.const false)

/-- What the workers have reached can be read from their tables. -/
theorem reached_eq (c : Config net) : c.reached = .ok c.union := by
  refine Family.collect_eq_ok_iff.mpr fun q => ?_
  simp only [union, Family.get_ofFn, Family.get_map, Table.toDiagram_ofDiagram _ rfl,
    Attempt.ok_bind]
  exact List.foldlM_pure

theorem has_union (c : Config net) (x : p.Point) : c.union.Has x ↔ c.Reached x := by
  rw [StateSets.Has, union, Family.get_ofFn, Diagram.eval_foldl_or]
  constructor
  · rintro (hfalse | ⟨s, -, hs⟩)
    · rw [Diagram.eval_const] at hfalse
      cases hfalse
    · exact ⟨net.idOf x.1 s, stateOf_idOf x.1 s, hs⟩
  · rintro ⟨w, hw, hρ⟩
    refine .inr ⟨net.sliceOf w, List.mem_finRange _, ?_⟩
    rw [← hw, idOf_stateOf]
    exact hρ

/-- A worker has passed a point on: it started from it or has reached it. -/
def Passed (states : StateSets n p.size) (c : Config net) (x : p.Point) : Prop :=
  ∃ w, net.stateOf w = x.1 ∧ ((c.workers w).reach.eval x.2 = true ∨
    (c.workers w).phase.started = true ∧ (net.inputOf states w).eval x.2 = true)

/-- A worker that passes on a point has just made packets of a set with that point. -/
theorem Step.passed_cases {c c' : Config net} {w : net.Id} (hb : c.Briefed states constraint)
    (h : Step dir c w c') {x : p.Point} (hx : c'.Passed states x) : c.Passed states x ∨
      ∃ (s : WorkerState net) (d : Diagram n), c' = c.setWorker w (s.propagate dir w d) ∧
        net.stateOf w = x.1 ∧ d.eval x.2 = true := by
  obtain ⟨v, hv, hρ⟩ := hx
  by_cases hvw : v = w
  · subst hvw
    by_cases hold : (c.workers v).reach.eval x.2 = true
    · exact .inl ⟨v, hv, .inl hold⟩
    rcases hρ with hρ | ⟨-, hρ⟩
    · rcases h.reach_cases v with heq | ⟨-, gathered, -, rfl⟩
      · rw [heq] at hρ
        exact absurd hρ hold
      · rw [workers_setWorker, if_pos rfl, reach_finishBatch, Diagram.eval_or, Bool.or_eq_true] at hρ
        exact .inr ⟨_, _, rfl, hv, hρ.resolve_left hold⟩
    · cases hstarted : (c.workers v).phase.started with
      | true => exact .inl ⟨v, hv, .inr ⟨hstarted, hρ⟩⟩
      | false =>
        cases h with
        | launch hp =>
          rw [hb.launch_eq hp]
          exact .inr ⟨_, _, rfl, hv, hρ⟩
        | withdraw hp | register hp | deliver hp | leave hp | take hp | finish hp | startle hp
        | fetch hp | account hp | depart hp | announce hp =>
          rw [hp] at hstarted
          cases hstarted
  · rw [h.workers_eq hvw] at hρ
    exact .inl ⟨v, hv, hρ⟩

/-- All that is one step away from what has been passed on is settled at its owner. -/
def Complete (dir : Direction) (states : StateSets n p.size) (constraint : Constraint n)
    (c : Config net) : Prop :=
  ∀ x t ρ', c.Passed states x → p.Move dir x (net.stateOf t, ρ') →
    (net.cubeOf t).eval ρ' = true → Settled constraint c t ρ'

theorem Complete.step (hnet : net.Faithful) (hne : p.relation.parts ≠ []) {c c' : Config net}
    {w : net.Id} (hb : c.Briefed states constraint) (hin : InSlices c)
    (h : Complete dir states constraint c) (hs : Step dir c w c')
    (hc : ∀ m, (c'.workers w).phase ≠ .crashed m) : Complete dir states constraint c' := by
  intro x t ρ' hx hmove hcube
  rcases hs.passed_cases hb hx with hold | ⟨s, d, rfl, hw, hd⟩
  · exact (h x t ρ' hold hmove hcube).step hb hin hs hc
  -- The packets for a point that was not passed on before are on their way.
  rw [workers_setWorker, if_pos rfl] at hc
  have hx' : (net.stateOf w, x.2) = x := Prod.ext hw rfl
  rcases s.propagate_cases dir w d with ⟨packets, images, hok, heq⟩ | ⟨-, heq⟩
  · obtain ⟨y, hy, ht, hyρ⟩ := (exists_mem_propagate hnet hne hok).mpr ⟨hcube, x.2, hd, hx' ▸ hmove⟩
    refine .inl (@InTransit.packet _ _ _ _ _ _ w ?_)
    rw [workers_setWorker, if_pos rfl, heq]
    exact ⟨y, hy, ht, hyρ⟩
  · exact absurd (congrArg WorkerState.phase heq) (hc _)

theorem Complete.start (c : Config net) :
    Complete dir states constraint (c.start states constraint) := by
  rintro x t ρ' ⟨w, -, hρ⟩
  rw [workers_start] at hρ
  rcases hρ with hρ | ⟨hstarted, -⟩
  · rw [Diagram.eval_const] at hρ
    cases hρ
  · cases hstarted

theorem Execution.complete (hsafe : Safe net dir states constraint) (hsize : 0 < net.size)
    {c c₀ c' : Config net} {bits : Option Nat} (hreset : c.reset bits = .ok c₀)
    {trace : List (Config net × net.Id)}
    (h : Execution dir (c₀.start states constraint) trace c') (hroom : Roomy trace c') :
    Complete dir states constraint c' := by
  have hnet := hsafe.faithful
  induction h with
  | refl => exact .start c₀
  | @step trace c' c'' w h hw ih =>
    have hnext := h.step hw
    have hin := (h.accounted hnet hsize hreset hroom.init).inSlices
    refine (ih hroom.init).step hnet hsafe.parts_ne_nil (h.briefed hnet) hin (.of_step hw) ?_
    exact (hnext.accounted hnet hsize hreset hroom).phase_ne_crashed
      (hnext.unclashed hsafe hreset) w

/-- Workers reach nothing but what a search finds. -/
theorem Execution.found (hnet : net.Faithful) (hne : p.relation.parts ≠ []) {c c₀ c' : Config net}
    {bits : Option Nat} (hreset : c.reset bits = .ok c₀) {trace : List (Config net × net.Id)}
    (h : Execution dir (c₀.start states constraint) trace c') {x : p.Point}
    (hx : c'.Reached x) : Found dir states constraint x := by
  have hcarries := h.carries hnet (preserves_found hnet hne) (fun w ρ hρ => by
    rw [Diagram.eval_const] at hρ
    cases hρ) hreset
  obtain ⟨w, hw, hρ⟩ := hx
  have hfound := hcarries.reach w x.2 hρ
  rwa [hw] at hfound

/-- When all workers have returned nothing is on its way, so what is reached is closed under
steps. -/
theorem Complete.reached_of_advance (hnet : net.Faithful)
    (hcover : ∀ ρ, ∃ s, (net.cubes s).eval ρ = true) {c : Config net}
    (h : Complete dir states constraint c) (hfinished : c.Finished)
    (hmail : ∀ w, c.mailboxes w = []) {x y : p.Point} (hx : c.Passed states x)
    (hxy : p.Advance dir constraint x y) : c.Reached y := by
  obtain ⟨s, hs⟩ := hcover y.2
  have hstate : net.stateOf (net.idOf y.1 s) = y.1 := stateOf_idOf y.1 s
  have hmove : p.Move dir x (net.stateOf (net.idOf y.1 s), y.2) := by
    rw [hstate]
    exact hxy.1
  have hcube : (net.cubeOf (net.idOf y.1 s)).eval y.2 = true := by
    rw [hnet.cubeOf_eq, sliceOf_idOf]
    exact hs
  rcases h x (net.idOf y.1 s) y.2 hx hmove hcube with htransit | hreached
  · exfalso
    cases htransit with
    | @packet w hw =>
      rw [hfinished w] at hw
      cases hw
    | message hm =>
      rw [hmail] at hm
      cases hm
    | gathered hg =>
      rw [hfinished] at hg
      cases hg
  · refine ⟨net.idOf y.1 s, hstate, hreached ?_⟩
    rw [limitOf, hstate]
    exact hxy.2

/-- When all workers have returned, they have reached what a search finds. -/
theorem Execution.has_union_iff (hsafe : Safe net dir states constraint)
    (hcover : ∀ ρ, ∃ s, (net.cubes s).eval ρ = true) {c c₀ c' : Config net} {bits : Option Nat}
    (hreset : c.reset bits = .ok c₀) {trace : List (Config net × net.Id)}
    (h : Execution dir (c₀.start states constraint) trace c') (hroom : Roomy trace c')
    (hfinished : c'.Finished) (y : p.Point) :
    c'.union.Has y ↔ Found dir states constraint y := by
  have hnet := hsafe.faithful
  rw [has_union]
  refine ⟨h.found hnet hsafe.parts_ne_nil hreset, ?_⟩
  rintro ⟨x, hx, hpath⟩
  obtain ⟨s, -⟩ := hcover y.2
  have hsize : 0 < net.size := (net.idOf y.1 s).pos
  have hcomplete := h.complete hsafe hsize hreset hroom
  have hmail := ((h.accounted hnet hsize hreset hroom).finished hsize hfinished).2.2
  have hpassed : c'.Passed states x := by
    obtain ⟨s, hs⟩ := hcover x.2
    refine ⟨net.idOf x.1 s, stateOf_idOf x.1 s, .inr ⟨by rw [hfinished]; rfl, ?_⟩⟩
    rw [inputOf, Diagram.eval_and, Bool.and_eq_true, stateOf_idOf, sliceOf_idOf]
    exact ⟨hx, hs⟩
  induction hpath with
  | single hxy => exact hcomplete.reached_of_advance hnet hcover hfinished hmail hpassed hxy
  | tail _ hyz ih =>
    obtain ⟨w, hw, hρ⟩ := ih
    exact hcomplete.reached_of_advance hnet hcover hfinished hmail ⟨w, hw, .inl hρ⟩ hyz

theorem Execution.exists_reached_eq (hsafe : Safe net dir states constraint)
    (hcover : ∀ ρ, ∃ s, (net.cubes s).eval ρ = true)
    (hcovers : ∀ q : Fin p.size, constraint.covers q = true) {c c₀ c' : Config net}
    {bits : Option Nat} (hreset : c.reset bits = .ok c₀) {trace : List (Config net × net.Id)}
    (h : Execution dir (c₀.start states constraint) trace c') (hroom : Roomy trace c')
    (hfinished : c'.Finished) :
    ∃ v, c'.reached = .ok v ∧ (p.search dir states constraint).result = .ok v := by
  obtain ⟨v, hv, hhas⟩ := Product.search_exact hsafe.parts_ne_nil hcovers hsafe.admits
  have heq : v = c'.union := StateSets.ext_has fun y =>
    (hhas y).trans (h.has_union_iff hsafe hcover hreset hroom hfinished y).symm
  exact ⟨v, heq ▸ c'.reached_eq, hv⟩

/-- A network between runs: it has not run yet, or its last run has ended. Runs may go in any
direction, start from any sets, and count in any number of bits that have room for what is
counted. -/
inductive Rested (net : Network p) : Config net → Prop
  | idle : Rested net (idle net)
  | run {c c₀ c' : Config net} {bits : Option Nat} {dir : Direction} {states : StateSets n p.size}
    {constraint : Constraint n} {trace : List (Config net × net.Id)} (h : Rested net c)
    (hreset : c.reset bits = .ok c₀)
    (hrun : Execution dir (c₀.start states constraint) trace c') (hroom : Roomy trace c')
    (hfinished : c'.Finished) : Rested net c'

theorem Rested.mailboxes_eq_nil (hnet : net.Faithful) {c : Config net} (h : Rested net c)
    (w : net.Id) : c.mailboxes w = [] := by
  cases h with
  | idle => exact Family.get_replicate _ w
  | run _ hreset hrun hroom hfinished =>
    exact ((hrun.accounted hnet w.pos hreset hroom).finished w.pos hfinished).2.2 w

/-- A network that is driven comes to rest again, with what one search finds. -/
theorem Rested.exists_run_eq {c : Config net} (hc : Rested net c)
    (hsafe : Safe net dir states constraint) (hcover : ∀ ρ, ∃ s, (net.cubes s).eval ρ = true)
    (hcovers : ∀ q : Fin p.size, constraint.covers q = true) {bits : Option Nat}
    (hcapacity : ActiveCounter.Room bits net.capacity) :
    ∃ v c', net.run bits c dir states constraint = .ok (v, c') ∧ Rested net c' ∧
      (p.search dir states constraint).result = .ok v := by
  obtain ⟨c₀, hreset⟩ := exists_reset (hc.mailboxes_eq_nil hsafe.faithful) bits
  have hstart : Execution dir (c₀.start states constraint) [] (c₀.start states constraint) := .refl
  obtain ⟨⟨trace, hrun⟩, hend⟩ := execution_drive hstart
  have hroom := hrun.roomy hsafe.faithful hreset hcapacity
  have hfinished := hrun.finished_of_step_eq_none hsafe hreset hroom hend
  obtain ⟨v, hv, hsearch⟩ := hrun.exists_reached_eq hsafe hcover hcovers hreset hroom hfinished
  refine ⟨v, _, ?_, .run hc hreset hrun hroom hfinished, hsearch⟩
  have hall : (List.range p.size).all constraint.covers = true := by
    simpa [Fin.forall_iff] using hcovers
  have hfailure : ((c₀.start states constraint).drive dir).failure? = none := by
    cases hm : ((c₀.start states constraint).drive dir).failure? with
    | none => rfl
    | some m =>
      obtain ⟨w, hw⟩ := failure?_eq_some hm
      rw [hfinished w] at hw
      cases hw
  unfold Network.run
  rw [hreset, Attempt.ok_bind, hall]
  simp only [Bool.not_true, Bool.false_eq_true, if_false, hfailure, hv]
  rfl

/-- A network with slices over current values, or without slices, can be made. However often it has
run, it can run again, and when all its workers have returned, by whatever interleaving, what they
have reached is read from their tables and is exactly what the sequential strategy finds. This holds
as long as the counter can hold what is counted, and the capacity of the network is enough for
that; so with a counter for the capacity, driving the network gives what the sequential strategy
finds. -/
theorem reached_eq_sequential {numVars : Int} {init : Diagram n} {constraints : List (Diagram n)}
    {method : Method} (hmake : Relation.make numVars init constraints method = .ok p.relation)
    {slices : List Slice} (hslices : Slice.OverCurrent p.relation.numVars slices) :
    ∃ net : Network p, Network.make p slices = .ok net ∧ ∀ c, Rested net c →
      ∀ dir states constraint, p.Admits dir states constraint →
        (∀ q : Fin p.size, constraint.covers q = true) →
        ∀ bits, (∃ c₀, c.reset bits = .ok c₀ ∧
          ∀ trace c', Execution dir (c₀.start states constraint) trace c' →
            (ActiveCounter.Room bits net.capacity → Roomy trace c') ∧
            (Roomy trace c' → c'.Finished → ∃ v, c'.reached = .ok v ∧ ∀ verbose,
              ((Strategy.sequential p verbose).reachable dir states constraint).result = .ok v)) ∧
          (ActiveCounter.Room bits net.capacity → ∃ v c',
            net.run bits c dir states constraint = .ok (v, c') ∧ Rested net c' ∧ ∀ verbose,
              ((Strategy.sequential p verbose).reachable dir states constraint).result = .ok v) := by
  obtain ⟨net, hnet, hfaithful, hcover, hcubes⟩ := exists_make hmake hslices
  refine ⟨net, hnet, fun c hc dir states constraint hadmits hcovers bits => ?_⟩
  have hsafe : Safe net dir states constraint :=
    ⟨Relation.parts_ne_nil hmake, hfaithful, hadmits, fun _ s => (hcubes s).avoidsNext⟩
  refine ⟨?_, fun hcapacity => ?_⟩
  · obtain ⟨c₀, hreset⟩ := exists_reset (hc.mailboxes_eq_nil hfaithful) bits
    refine ⟨c₀, hreset, fun trace c' hrun =>
      ⟨hrun.roomy hfaithful hreset, fun hroom hfinished => ?_⟩⟩
    obtain ⟨v, hv, hsearch⟩ := hrun.exists_reached_eq hsafe hcover hcovers hreset hroom hfinished
    exact ⟨v, hv, fun _ => hsearch⟩
  · obtain ⟨v, c', hrun, hc', hsearch⟩ := hc.exists_run_eq hsafe hcover hcovers hcapacity
    exact ⟨v, c', hrun, hc', fun _ => hsearch⟩

/-- The four workers, with a counter of 64 bits, run twice: from the start, and from what they have
found. -/
theorem reached_eq_sequential_relay : Slice.all [0] = .ok [[⟨0, true⟩], [⟨0, false⟩]] ∧
    ∃ net : Network relay, Network.make relay [[⟨0, true⟩], [⟨0, false⟩]] = .ok net ∧
      ∃ (c₁ c₂ : Config net) (v₁ v₂ : StateSets 2 relay.size),
        net.run (some 64) (idle net) .forward relay.start none = .ok (v₁, c₁) ∧
        net.run (some 64) c₁ .forward v₁ none = .ok (v₂, c₂) ∧
        ((Strategy.sequential relay false).reachable .forward relay.start none).result = .ok v₁ ∧
        ((Strategy.sequential relay false).reachable .forward v₁ none).result = .ok v₂ := by
  have hall : Slice.all [0] = .ok [[⟨0, true⟩], [⟨0, false⟩]] := rfl
  have hslices : Slice.OverCurrent relay.relation.numVars [[⟨0, true⟩], [⟨0, false⟩]] :=
    .inr ⟨[0], List.forall_mem_singleton.mpr ⟨⟨0, by decide⟩, rfl⟩, hall⟩
  obtain ⟨net, hnet, hruns⟩ := @reached_eq_sequential _ relay _ _ _ _ Relation.make_toggle _ hslices
  obtain ⟨net', -, hnet', -, -, hcapacity, -⟩ := exists_relay
  obtain rfl : net = net' := Except.ok.inj (hnet.symm.trans hnet')
  have hadmits : ∀ states, relay.Admits .forward states none := fun _ => ⟨nofun, nofun, nofun⟩
  obtain ⟨v₁, c₁, hrun₁, hc₁, hfirst⟩ := (hruns _ .idle .forward relay.start none (hadmits _)
    (fun _ => rfl) (some 64)).2 hcapacity
  obtain ⟨v₂, c₂, hrun₂, -, hsecond⟩ := (hruns c₁ hc₁ .forward v₁ none (hadmits _)
    (fun _ => rfl) (some 64)).2 hcapacity
  exact ⟨hall, net, hnet, c₁, c₂, v₁, v₂, hrun₁, hrun₂, hfirst false, hsecond false⟩

end Config
end SymbolicLtl.Network
