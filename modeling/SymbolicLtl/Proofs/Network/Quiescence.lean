import SymbolicLtl.Proofs.Network.Books

/-!
The active counter tells when a run is over. The one worker that sees it at zero finds all others
waiting and no states in any mailbox, and tells them to quit; when all have returned nothing is left.
-/
namespace SymbolicLtl.Network

variable {n : Nat} {p : Product n} {net : Network p}

namespace Phase

/-- The phases before the end. Workers are only stopped by a clash of variables. -/
def Working : Phase net → Prop
  | .quitting _ | .returned => False
  | .crashed m => m = .renameClash
  | _ => True

end Phase

namespace Config

def seesEnd (c : Config net) (w : net.Id) : Bool :=
  match (c.workers w).phase with
  | .sending [] _ => match c.counter.done.2 with
    | .ok quiet => quiet
    | .error _ => false
  | _ => false

def QuietBut (c : Config net) (w : net.Id) : Prop :=
  (∀ v, v ≠ w → (c.workers v).phase = .waiting) ∧
    ∀ v, ∀ m ∈ c.mailboxes v, m.isQuit = true

structure Working (c : Config net) : Prop where
  value : 0 < c.counter.value
  phase : ∀ w, (c.workers w).phase.Working
  mail : ∀ w, ∀ m ∈ c.mailboxes w, m.isQuit = false

/-- A worker that has been left alone, told to quit, or has quit after the end. -/
def Follower (c : Config net) (targets : List net.Id) (w : net.Id) : Prop :=
  (w ∈ targets ∧ (c.workers w).phase = .waiting ∧ c.mailboxes w = []) ∨
    (w ∉ targets ∧ (c.workers w).phase = .waiting ∧
      ∃ m : Message Table, m.isQuit = true ∧ c.mailboxes w = [m]) ∨
    (w ∉ targets ∧ (c.workers w).phase = .returned ∧ c.mailboxes w = [])

/-- After the end one worker tells the others to quit. -/
structure Ending (c : Config net) (leader : net.Id) (targets : List net.Id) : Prop where
  value : c.counter.value = 0
  phase : (c.workers leader).phase = .quitting targets ∨
    targets = [] ∧ (c.workers leader).phase = .returned
  mail : c.mailboxes leader = []
  nodup : targets.Nodup
  leader_notMem : leader ∉ targets
  others : ∀ w, w ≠ leader → c.Follower targets w

/-- A worker that is alone on the counter is alone at work. -/
theorem Working.quietBut {c : Config net} (h : Working c) (hb : Books c) {w : net.Id}
    (hactive : (c.workers w).phase.active = 1) (hone : c.counter.value = 1) : c.QuietBut w := by
  have hv := hb.value
  unfold active registered at hv
  have hw := le_totalOf (fun s : WorkerState net => s.phase.active) c.workers w
  refine ⟨fun v hvw => ?_, fun v m hm => ?_⟩
  · have hsum := add_le_totalOf (fun s : WorkerState net => s.phase.active) c.workers hvw
    have hidle : (c.workers v).phase.active = 0 := by omega
    have hphase := h.phase v
    cases hp : (c.workers v).phase <;> simp_all [Phase.active, Phase.Working]
  · have hdata := le_totalOf dataCount c.mailboxes v
    have hnone : dataCount (c.mailboxes v) = 0 := by omega
    have := List.countP_eq_zero.mp hnone m hm
    simpa using this

theorem seesEnd_eq_true {c : Config net} {w : net.Id} (hb : Books c) (h : c.seesEnd w = true) :
    (∃ registered, (c.workers w).phase = .sending [] registered) ∧ c.counter.value = 1 := by
  unfold seesEnd at h
  split at h
  · next registered hp =>
    rw [hb.done_eq hp] at h
    have : c.counter.value - 1 = 0 := by simpa using h
    exact ⟨⟨registered, hp⟩, by omega⟩
  · cases h

theorem Working.of_seesEnd {c : Config net} (h : Working c) (hb : Books c) {w : net.Id}
    (hw : c.seesEnd w = true) : c.QuietBut w := by
  obtain ⟨⟨registered, hp⟩, hone⟩ := seesEnd_eq_true hb hw
  exact h.quietBut hb (by rw [hp]; rfl) hone

namespace Working

variable {c c' : Config net}

theorem setWorker (h : Working c) {w : net.Id} {s : WorkerState net} (hs : s.phase.Working) :
    Working (c.setWorker w s) := by
  refine ⟨h.value, fun v => ?_, h.mail⟩
  rw [workers_setWorker]
  split_ifs
  · exact hs
  · exact h.phase v

theorem setMailbox (h : Working c) {w : net.Id} {b : Mailbox Table}
    (hb : ∀ m ∈ b, m.isQuit = false) : Working (c.setMailbox w b) := by
  refine ⟨h.value, h.phase, fun v => ?_⟩
  rw [mailboxes_setMailbox]
  split_ifs
  · exact hb
  · exact h.mail v

theorem setCounter (h : Working c) {counter : ActiveCounter} (hv : 0 < counter.value) :
    Working (c.setCounter counter) := ⟨hv, h.phase, h.mail⟩

theorem working_propagate (s : WorkerState net) (dir : Direction) (w : net.Id) (d : Diagram n) :
    (s.propagate dir w d).phase.Working := by
  rcases s.propagate_cases dir w d with ⟨packets, images, -, heq⟩ | ⟨-, heq⟩
  · rw [heq]
    trivial
  · rw [heq]
    rfl

/-- Unless a worker sees the end, the work goes on. -/
theorem step {dir : Direction} {states : StateSets n p.size} {constraint : Constraint n}
    {w : net.Id} (h : Working c) (hb : Books c) (hbrief : c.Briefed states constraint)
    (hc : InSlices c) (hs : Step dir c w c') (hb' : Books c') (hend : c.seesEnd w = false) :
    Working c' := by
  have hphase := h.phase w
  cases hs with
  | launch hp =>
    rw [hbrief.launch_eq hp]
    exact h.setWorker (working_propagate _ _ _ _)
  | @withdraw registered hp =>
    have hvalue := h.value
    have hdone := hb.done_eq hp
    simp only [seesEnd, hp, hdone] at hend
    have hne : c.counter.value - 1 ≠ 0 := by simpa using hend
    rw [hdone, hend]
    have hpos : 0 < c.counter.value - 1 := by omega
    exact (h.setCounter hpos).setWorker trivial
  | register hp =>
    have hle := hb'.active_le w
    simp only [workers_setWorker, if_true, counter_setWorker, counter_setCounter, Phase.active,
      Phase.registered] at hle
    have hpos : 0 < c.counter.inc.value := by omega
    exact (h.setCounter hpos).setWorker trivial
  | @deliver x xs hp =>
    refine (h.setMailbox fun m hm => ?_).setWorker trivial
    rcases List.mem_append.mp hm with hold | hnew
    · exact h.mail x.target m hold
    · rw [List.mem_singleton.mp hnew]
      rfl
  | @leave m rest hp hm hq =>
    -- Nobody has been told to quit yet.
    have := h.mail w m (hm ▸ List.mem_cons_self)
    rw [hq] at this
    cases this
  | @take m rest hp hm hq =>
    obtain ⟨d, hd, -⟩ := hc.mail w m (hm ▸ List.mem_cons_self) hq
    rw [WorkerState.receive_eq hd]
    refine (h.setMailbox fun m' hm' => ?_).setWorker trivial
    exact h.mail w m' (hm ▸ List.mem_cons_of_mem _ hm')
  | @finish gathered hp hm =>
    exact h.setWorker (working_propagate _ _ _ _)
  | @startle gathered m rest hp hm hq =>
    have := h.mail w m (hm ▸ List.mem_cons_self)
    rw [hq] at this
    cases this
  | @fetch gathered m rest hp hm hq =>
    refine (h.setMailbox fun m' hm' => ?_).setWorker trivial
    exact h.mail w m' (hm ▸ List.mem_cons_of_mem _ hm')
  | @account gathered received hp =>
    have hin := hc.phase w
    have hle := hb.active_le w
    rw [hp] at hin hle
    obtain ⟨-, d, hd, -⟩ := hin
    rw [hb.consume_eq hp]
    simp only [WorkerState.receiveCounted, WorkerState.receive_eq hd]
    simp only [Phase.active, Phase.registered] at hle
    have hpos : 0 < c.counter.value - 1 := by omega
    exact (h.setCounter hpos).setWorker trivial
  | depart hp =>
    rw [hp] at hphase
    cases hphase
  | announce hp =>
    rw [hp] at hphase
    cases hphase

/-- The worker that sees the end tells all others. -/
theorem ending {dir : Direction} {w : net.Id} (h : Working c) (hb : Books c)
    (hs : Step dir c w c') (hend : c.seesEnd w = true) : Ending c' w (others w) := by
  obtain ⟨hwaiting, hquiet⟩ := h.of_seesEnd hb hend
  obtain ⟨⟨registered, hp⟩, hone⟩ := seesEnd_eq_true hb hend
  have hmail : ∀ v, c.mailboxes v = [] := by
    intro v
    refine List.eq_nil_iff_forall_not_mem.mpr fun m hm => ?_
    have := (h.mail v m hm).symm.trans (hquiet v m hm)
    cases this
  cases hs with
  | withdraw hp' =>
    rw [hb.done_eq hp, hone]
    refine ⟨rfl, .inl ?_, hmail w, (List.nodup_finRange _).filter _, by simp [others], ?_⟩
    · simp [afterDone]
    · intro v hv
      refine .inl ⟨by simp [others, hv], ?_, hmail v⟩
      simp only [workers_setWorker, if_neg hv]
      exact hwaiting v hv
  | launch hp' | register hp' | deliver hp' | leave hp' | take hp' | finish hp' | startle hp'
  | fetch hp' | account hp' | depart hp' | announce hp' =>
    rw [hp] at hp'
    cases hp'

end Working

namespace Ending

variable {c c' : Config net} {leader : net.Id} {targets : List net.Id}

theorem seesEnd_eq_false (h : Ending c leader targets) (w : net.Id) : c.seesEnd w = false := by
  unfold seesEnd
  split
  · next hp =>
    by_cases hw : w = leader
    · subst hw
      rcases h.phase with h | h <;> simp [hp] at h
    · rcases h.others w hw with h | h | h <;> simp [hp] at h
  · rfl

theorem phase_eq (h : Ending c leader targets) (w : net.Id) :
    (w = leader ∧ (c.workers w).phase = .quitting targets) ∨
      (w ≠ leader ∧ (c.workers w).phase = .waiting) ∨ (c.workers w).phase = .returned := by
  by_cases hw : w = leader
  · subst hw
    rcases h.phase with hp | ⟨-, hp⟩
    · exact .inl ⟨rfl, hp⟩
    · exact .inr (.inr hp)
  · rcases h.others w hw with ⟨-, hp, -⟩ | ⟨-, hp, -⟩ | ⟨-, hp, -⟩
    · exact .inr (.inl ⟨hw, hp⟩)
    · exact .inr (.inl ⟨hw, hp⟩)
    · exact .inr (.inr hp)

theorem depart (h : Ending c leader []) : Ending (c.setWorker leader
    { c.workers leader with phase := .returned }) leader [] := by
  refine ⟨h.value, .inr ⟨rfl, by simp⟩, h.mail, h.nodup, h.leader_notMem, fun w hw => ?_⟩
  have hother := h.others w hw
  simpa [Follower, hw] using hother

theorem announce {t : net.Id} {ts : List net.Id} (h : Ending c leader (t :: ts)) :
    Ending ((c.send t ⟨.quit, leader, .blank⟩).setWorker leader
      { c.workers leader with phase := .quitting ts }) leader ts := by
  have hlt : leader ≠ t ∧ leader ∉ ts := by simpa using h.leader_notMem
  have hnodup : t ∉ ts ∧ ts.Nodup := List.nodup_cons.mp h.nodup
  refine ⟨h.value, .inl (by simp), ?_, hnodup.2, hlt.2, fun w hw => ?_⟩
  · rw [mailboxes_setWorker, mailboxes_send, if_neg hlt.1]
    exact h.mail
  · have hother := h.others w hw
    by_cases hwt : w = t
    · subst hwt
      obtain ⟨-, hp, hm⟩ : w ∈ w :: ts ∧ (c.workers w).phase = .waiting ∧ c.mailboxes w = [] := by
        simpa [Follower] using hother
      refine .inr (.inl ⟨hnodup.1, ?_, ⟨.quit, leader, .blank⟩, rfl, ?_⟩)
      · rw [workers_setWorker, if_neg hw]
        exact hp
      · rw [mailboxes_setWorker, mailboxes_send, if_pos rfl, hm]
        rfl
    · simpa [Follower, hw, hwt] using hother

theorem leave (h : Ending c leader targets) {w : net.Id} {m : Message Table}
    {rest : Mailbox Table} (hw : w ≠ leader) (hm : c.mailboxes w = m :: rest) :
    m.isQuit = true ∧ Ending ((c.setMailbox w rest).setWorker w
      { c.workers w with phase := .returned }) leader targets := by
  obtain ⟨hnotMem, hquit, hrest⟩ : w ∉ targets ∧ m.isQuit = true ∧ rest = [] := by
    rcases h.others w hw with ⟨-, -, hnil⟩ | ⟨hnotMem, -, m', hq, hone⟩ | ⟨-, -, hnil⟩
    · rw [hm] at hnil
      cases hnil
    · rw [hm] at hone
      cases hone
      exact ⟨hnotMem, hq, rfl⟩
    · rw [hm] at hnil
      cases hnil
  refine ⟨hquit, h.value, ?_, ?_, h.nodup, h.leader_notMem, fun v hv => ?_⟩
  · rw [workers_setWorker, if_neg hw.symm]
    exact h.phase
  · rw [mailboxes_setWorker, mailboxes_setMailbox, if_neg hw.symm]
    exact h.mail
  · by_cases hvw : v = w
    · subst hvw
      refine .inr (.inr ⟨hnotMem, by simp, ?_⟩)
      rw [mailboxes_setWorker, mailboxes_setMailbox, if_pos rfl, hrest]
    · have hother := h.others v hv
      simpa [Follower, hvw] using hother

theorem step {dir : Direction} {w : net.Id} (h : Ending c leader targets)
    (hs : Step dir c w c') : ∃ targets', Ending c' leader targets' := by
  have hphase := h.phase_eq w
  cases hs with
  | leave hp hm hq =>
    have hw : w ≠ leader := by simpa [hp] using hphase
    exact ⟨targets, (h.leave hw hm).2⟩
  | take hp hm hq =>
    have hw : w ≠ leader := by simpa [hp] using hphase
    have := (h.leave hw hm).1
    rw [hq] at this
    cases this
  | depart hp =>
    obtain ⟨rfl, rfl⟩ : w = leader ∧ [] = targets := by simpa [hp] using hphase
    exact ⟨[], h.depart⟩
  | @announce t ts hp =>
    obtain ⟨rfl, rfl⟩ : w = leader ∧ t :: ts = targets := by simpa [hp] using hphase
    exact ⟨ts, h.announce⟩
  | launch hp | withdraw hp | register hp | deliver hp | finish hp | startle hp | fetch hp
  | account hp =>
    -- After the end no worker is in a phase with such a step.
    simp [hp] at hphase

theorem mailboxes_eq_nil (h : Ending c leader targets)
    (hall : ∀ w, (c.workers w).phase = .returned) (w : net.Id) : c.mailboxes w = [] := by
  by_cases hw : w = leader
  · rw [hw]
    exact h.mail
  · rcases h.others w hw with ⟨-, -, hm⟩ | ⟨-, hp, -⟩ | ⟨-, -, hm⟩
    · exact hm
    · rw [hall w] at hp
      cases hp
    · exact hm

end Ending

def Finished (c : Config net) : Prop := ∀ w, (c.workers w).phase = .returned

/-- Where an execution stands: before the end, which no worker has seen, or after it. -/
structure Accounted (trace : List (Config net × net.Id)) (c : Config net) : Prop where
  books : Books c
  inSlices : InSlices c
  stage : (Working c ∧ (trace.countP fun x => x.1.seesEnd x.2) = 0) ∨
    ∃ leader targets, Ending c leader targets ∧ (trace.countP fun x => x.1.seesEnd x.2) = 1
  quiet : ∀ x ∈ trace, x.1.seesEnd x.2 = true → x.1.QuietBut x.2

theorem Accounted.step {dir : Direction} {states : StateSets n p.size} {constraint : Constraint n}
    {trace : List (Config net × net.Id)} {c c' : Config net} {w : net.Id} (hnet : net.Faithful)
    (hb : c.Briefed states constraint) (h : Accounted trace c) (hs : Step dir c w c')
    (hroom : c'.Fits) : Accounted (trace ++ [(c, w)]) c' := by
  have hbooks := h.books.step hb h.inSlices hs hroom
  refine ⟨hbooks, h.inSlices.step (preserves_slices dir states constraint) hnet hb hs, ?_, ?_⟩
  · rw [List.countP_append, List.countP_singleton]
    rcases h.stage with ⟨hworking, hcount⟩ | ⟨leader, targets, hending, hcount⟩
    · cases hend : c.seesEnd w with
      | true => exact .inr ⟨w, others w, hworking.ending h.books hs hend, by simp [hcount]⟩
      | false =>
        exact .inl ⟨hworking.step h.books hb h.inSlices hs hbooks hend, by simp [hcount]⟩
    · obtain ⟨targets', hending'⟩ := hending.step hs
      exact .inr ⟨leader, targets', hending', by simp [hcount, hending.seesEnd_eq_false]⟩
  · intro x hx hend
    rcases List.mem_append.mp hx with hold | hnew
    · exact h.quiet x hold hend
    · obtain rfl := List.mem_singleton.mp hnew
      rcases h.stage with ⟨hworking, -⟩ | ⟨leader, targets, hending, -⟩
      · exact hworking.of_seesEnd h.books hend
      · rw [hending.seesEnd_eq_false] at hend
        cases hend

theorem counted_start {c c₀ : Config net} {bits : Option Nat} (hreset : c.reset bits = .ok c₀)
    (states : StateSets n p.size) (constraint : Constraint n) :
    (c₀.start states constraint).active = net.size ∧
      (c₀.start states constraint).registered = 0 ∧
      totalOf dataCount (c₀.start states constraint).mailboxes = 0 := by
  have hdata : totalOf dataCount (c₀.start states constraint).mailboxes = 0 := by
    refine totalOf_eq_zero fun w => ?_
    change dataCount (c₀.mailboxes w) = 0
    rw [(reset_eq_ok hreset).2.1]
    rfl
  refine ⟨?_, ?_, hdata⟩
  · exact (totalOf_const fun w => by rw [workers_start]; rfl).trans (Nat.mul_one _)
  · rw [registered, hdata, totalOf_eq_zero fun w => by rw [workers_start]; rfl]

/-- A run starts with all workers at work. -/
theorem Accounted.start (hsize : 0 < net.size) {c c₀ : Config net} {bits : Option Nat}
    (hreset : c.reset bits = .ok c₀) (states : StateSets n p.size) (constraint : Constraint n)
    (hroom : (c₀.start states constraint).Fits) : Accounted [] (c₀.start states constraint) := by
  obtain ⟨hcounter, hmail, htally⟩ := reset_eq_ok hreset
  obtain ⟨hactive, hregistered, hdata⟩ := counted_start hreset states constraint
  have hcounter' : c₀.counter = ⟨net.size, bits⟩ := by
    rw [hcounter]
    refine ActiveCounter.repeat_inc ?_
    rwa [Fits, hactive, hregistered, Config.start, hcounter, ActiveCounter.bits_repeat_inc] at hroom
  have hsent : ∀ w, ((c₀.start states constraint).workers w).tally = .zero := by
    intro w
    rw [workers_start]
    exact htally w
  have hbooks : Books (c₀.start states constraint) := by
    refine ⟨hroom, ?_, ?_⟩
    · rw [hactive, hregistered, Config.start, hcounter']
      simp
    · rw [hdata, totalOf_eq_zero fun w => by rw [hsent w]; rfl,
        totalOf_eq_zero fun w => by rw [hsent w]; rfl,
        totalOf_eq_zero fun w => by rw [workers_start]; rfl]
  refine ⟨hbooks, .start hreset states constraint fun _ => trivial,
    .inl ⟨⟨?_, fun w => ?_, fun w m hm => ?_⟩, rfl⟩, by simp⟩
  · rw [Config.start, hcounter']
    change (0 : Int) < net.size
    omega
  · rw [workers_start]
    trivial
  · change m ∈ c₀.mailboxes w at hm
    rw [hmail] at hm
    cases hm

/-- The counter can hold all that is counted, throughout an execution. -/
def Roomy (trace : List (Config net × net.Id)) (c : Config net) : Prop :=
  (∀ x ∈ trace, x.1.Fits) ∧ c.Fits

theorem Roomy.step {trace : List (Config net × net.Id)} {c c' : Config net} {w : net.Id}
    (h : Roomy trace c) (hc' : c'.Fits) : Roomy (trace ++ [(c, w)]) c' := by
  refine ⟨fun x hx => ?_, hc'⟩
  rcases List.mem_append.mp hx with hold | hnew
  · exact h.1 x hold
  · rw [List.mem_singleton.mp hnew]
    exact h.2

theorem Roomy.init {trace : List (Config net × net.Id)} {c c' : Config net} {w : net.Id}
    (h : Roomy (trace ++ [(c, w)]) c') : Roomy trace c :=
  ⟨fun x hx => h.1 x (List.mem_append_left _ hx),
    h.1 (c, w) (List.mem_append_right _ (List.mem_singleton_self _))⟩

theorem Execution.accounted (hnet : net.Faithful) (hsize : 0 < net.size) {c c₀ c' : Config net}
    {bits : Option Nat} (hreset : c.reset bits = .ok c₀) {dir : Direction}
    {states : StateSets n p.size} {constraint : Constraint n} {trace : List (Config net × net.Id)}
    (h : Execution dir (c₀.start states constraint) trace c') (hroom : Roomy trace c') :
    Accounted trace c' := by
  induction h with
  | refl => exact .start hsize hreset states constraint hroom.2
  | step h hw ih => exact (ih hroom.init).step hnet (h.briefed hnet) (.of_step hw) hroom.2

/-- When all have returned, the end was seen once and nothing is left. -/
theorem Accounted.finished {trace : List (Config net × net.Id)} {c : Config net}
    (h : Accounted trace c) (hsize : 0 < net.size) (hall : c.Finished) :
    (trace.countP fun x => x.1.seesEnd x.2) = 1 ∧ c.counter.value = 0 ∧
      ∀ w, c.mailboxes w = [] := by
  rcases h.stage with ⟨hworking, -⟩ | ⟨leader, targets, hending, hcount⟩
  · have := hworking.phase ⟨0, hsize⟩
    rw [hall] at this
    cases this
  · exact ⟨hcount, hending.value, hending.mailboxes_eq_nil hall⟩

theorem exists_reset {c : Config net} (h : ∀ w, c.mailboxes w = []) (bits : Option Nat) :
    ∃ c₀, c.reset bits = .ok c₀ := by
  have hleft : c.leftover? = none := by simp [leftover?, h]
  simp only [reset, hleft]
  exact ⟨_, rfl⟩

theorem tally_eq (c : Config net) (f : Tally → Nat) (hf : ∀ a b, f (a.add b) = f a + f b)
    (hz : f .zero = 0) : f c.tally = totalOf (fun s => f s.tally) c.workers := by
  have hfold : ∀ (l : List (WorkerState net)) (acc : Tally),
      f (l.foldl (fun acc s => acc.add s.tally) acc) = f acc + sumOf (fun s => f s.tally) l := by
    intro l
    induction l with
    | nil => simp [sumOf]
    | cons s l ih =>
      intro acc
      rw [List.foldl_cons, ih, hf, sumOf, Nat.add_assoc]
  have hmap : ∀ l : List net.Id,
      sumOf (fun s => f s.tally) (l.map c.workers) = sumOf (fun w => f (c.workers w).tally) l := by
    intro l
    induction l with
    | nil => rfl
    | cons w l ih => rw [List.map_cons, sumOf, sumOf, ih]
  rw [tally, hfold, hz, Nat.zero_add, Family.toList_eq, hmap]
  rfl

end Config
end SymbolicLtl.Network
