import OsLab.Sched.Touch
/-!
# Careful steps

What a step ends (`Fallen`) and what it does to the tree of processes
(`TreeStep`). The invariants of the kernel are kept together (`Settled`) by
every step that is `Careful`. Three kinds of step have to be kept out, as
they break the lists or the tree for good:

* a kill that comes to a process which has been killed before and still runs
  on another processor. A process that runs is only marked by its first kill.
  The second one finds it `KILLED`, which is not `RUNNING`, and cleans it up.
* the use of a control block whose last owner has left children behind. They
  are still linked into the list that is set up anew, and the child lists may
  then lead from a process to itself.
* the making of a mutex whose wait list is not empty. The list is set up
  anew, and those that wait on it are lost.
-/

namespace OsLab.Sched

open DList (Rep)
open Relation (ReflTransGen)
open Kernel

namespace Kernel

variable {s s' : Kernel} {L L' : Lists} {R : Slot → List Slot} {c : Cpu} {e : Event} {p x t : Slot}
  {next : Slot} {drops : Slot → List ℕ}

/-! ## A step -/

/-- **The process that a step of the processor is out to end**: its own, when
that exits or has been killed, or the one that it kills. -/
inductive Targets (s : Kernel) (c : Cpu) : Event → Slot → Prop
  | exit {next : Slot} {drops : Slot → List ℕ} :
      Targets s c (.enter c .exit next drops) (s.current c)
  | enter {call : Call} {next : Slot} {drops : Slot → List ℕ}
      (h : s.status (s.current c) = .killed) : Targets s c (.enter c call next drops) (s.current c)
  | resume {next : Slot} {drops : Slot → List ℕ} (h : s.status (s.current c) = .killed) :
      Targets s c (.resume c next drops) (s.current c)
  | kill {pid : ℤ} {i : Fin NUM_MAX_TASK} {next : Slot} {drops : Slot → List ℕ}
      (h : s.status (s.current c) ≠ .killed) (hi : s.status (.user i) ≠ .exited)
      (hpid : (s.pcb (.user i)).pid = pid) (ho : Open s c (.user i)) :
      Targets s c (.enter c (.kill pid) next drops) (.user i)

/-- What a step ends. -/
def Fallen (s : Kernel) (e : Event) (x : Slot) : Prop :=
  ∃ c t, Targets s c e t ∧ (t = s.current c ∧ Exits s c x ∨ Falls s c t x)

/-- **What a step does to the tree.** -/
structure TreeStep (s : Kernel) (e : Event) (s' : Kernel) : Prop where
  tree : ∃ R', Tree s' R'
  stocked : Stocked s'
  ended : ∀ x, s'.status x = .exited → s.status x = .exited ∨ Fallen s e x
  gone : ∀ x, Fallen s e x → s'.status x = .exited
  rooted : Rooted s → (∀ p x, Fallen s e p → Child s p x → Fallen s e x) → Rooted s'
  pids : ∀ x, s'.status x ≠ .exited → (s'.pcb x).pid = s.process_id ∨
    s.status x ≠ .exited ∧ (s'.pcb x).pid = (s.pcb x).pid
  process_id : s.process_id ≤ s'.process_id

/-- The processes of `D` have ended, and nobody else. -/
theorem TreeStep.of_exited {D : Slot → Prop} (htree : ∃ R', Tree s' R') (hst : Stocked s')
    (hparent : ∀ p, (s'.pcb p).parent = (s.pcb p).parent)
    (hpid : ∀ p, (s'.pcb p).pid = (s.pcb p).pid) (hid : s'.process_id = s.process_id)
    (hexit : ∀ x, s'.status x = .exited ↔ s.status x = .exited ∨ D x)
    (hD : ∀ x, D x ↔ Fallen s e x) : TreeStep s e s' where
  tree := htree
  stocked := hst
  ended x hx := ((hexit x).mp hx).imp_right (hD x).mp
  gone x hx := (hexit x).mpr (.inr ((hD x).mpr hx))
  rooted hr hdown p x hx hp := by
    have hc : Child s p x := ⟨fun he => hx.1 ((hexit x).mpr (.inl he)), (hparent x).symm.trans hx.2⟩
    rcases (hexit p).mp hp with he | hd
    · exact hr p x hc he
    · exact hx.1 ((hexit x).mpr (.inr ((hD x).mpr (hdown p x ((hD p).mp hd) hc))))
  pids x hx := .inr ⟨fun he => hx ((hexit x).mpr (.inl he)), hpid x⟩
  process_id := hid.ge

/-- A step of a processor is out to end one process, at most. -/
theorem Targets.unique {c' : Cpu} {t' : Slot}
    (ht : ∀ x y, s.status x ≠ .exited → s.status y ≠ .exited →
    (s.pcb x).pid = (s.pcb y).pid → x = y) (h : Targets s c e t) (h' : Targets s c' e t') : c' = c ∧ t' = t := by
  cases h with
  | exit =>
    cases h' with
    | exit => exact ⟨rfl, rfl⟩
    | enter _ => exact ⟨rfl, rfl⟩
  | enter hk =>
    cases h' with
    | exit => exact ⟨rfl, rfl⟩
    | enter _ => exact ⟨rfl, rfl⟩
    | kill hk' => exact absurd hk hk'
  | resume hk =>
    cases h' with
    | resume _ => exact ⟨rfl, rfl⟩
  | kill hk hl hp =>
    cases h' with
    | enter hk' => exact absurd hk' hk
    | kill _ hl' hp' => exact ⟨rfl, ht _ _ hl' hl (hp'.trans hp.symm)⟩

theorem not_falls_current : ¬ Falls s c (s.current c) x := fun hf => hf.top.1.ne_current rfl

theorem fallen_exit (ht : Tree s R) (h : Targets s c e (s.current c)) :
    Fallen s e x ↔ Exits s c x := by
  refine ⟨fun ⟨c', t', h', hf⟩ => ?_, fun hx => ⟨c, _, h, .inl ⟨rfl, hx⟩⟩⟩
  obtain ⟨rfl, rfl⟩ := h.unique ht.inj h'
  exact hf.elim And.right fun hf => absurd hf not_falls_current

/-- A step that is out to end nobody. -/
theorem not_fallen (h : ∀ c t, ¬ Targets s c e t) : ¬ Fallen s e x := fun ⟨c, t, ht, _⟩ => h c t ht

/-- **A step keeps the tree**, if no control block is used again whose last
owner has left children. -/
theorem post_step_tree (h : Core s L) (ht : Tree s R) (hs : Stocked s) (e : Event)
    (hreuse : ∀ c next drops p, e = .enter c .exec next drops → s.status (s.current c) ≠ .killed →
      s.allocPcb = some p → R p = []) : Yields (TreeStep s e) (s.step e) := by
  have hexit : ∀ {c next drops}, Targets s c e (s.current c) →
      Yields (TreeStep s e) (s.doExit drops c next) := by
    intro c next drops htar
    refine ((post_doExit_felled (h.trim ht) hs).weaken fun _ _ => trivial).mono
      fun s' ⟨s2, L2, L', hf, hsw, ht', hs'⟩ => ?_
    refine .of_exited ⟨_, ht'⟩ hs' (fun p => ?_) (fun p => ?_) ?_ (fun x => ?_) fun x => (fallen_exit ht htar).symm
    · rw [hsw.pcb]
      exact hf.parent p
    · rw [hsw.pcb]
      exact hf.reaped.pid p
    · exact hsw.same.process_id.trans hf.process_id
    · exact (hsw.exited hf.reaped.loose x).trans (hf.reaped.exited x)
  have hkeep : ∀ {c : Cpu} {s' : Kernel}, (∀ c t, ¬ Targets s c e t) →
      Kept (Unlisted L (s.current c)) (Kin (Unlisted L (s.current c))) c s s' → TreeStep s e s' := by
    intro c s' htar hk
    have he := hk.kept.exited fun p => h.unlisted_of_exited (c := c)
    refine .of_exited (D := Nobody) ⟨R, ht.kin hk.kept he⟩ (hs.kin hk.kept he) hk.kept.parent hk.kept.pid
      hk.kept.process_id (fun x => (he x).trans (or_iff_left id).symm) fun x => ?_
    exact iff_of_false id (not_fallen htar)
  cases e with
  | tick d =>
    refine .of_exited (D := Nobody) ⟨R, ht.congr rfl (fun _ => rfl) (fun _ => rfl) rfl fun _ => Iff.rfl⟩
      { hs with } (fun _ => rfl) (fun _ => rfl) rfl
      (fun _ => (or_iff_left id).symm) fun x => iff_of_false id (not_fallen nofun)
  | enter c call next drops =>
    refine .ite (fun _ => trivial) fun _ => .ite (fun hk => hexit (.enter hk)) fun hkill => ?_
    by_cases hexec : call = .exec
    · rw [hexec]
      refine (ht.exec hs (h.current_alive c) fun p => hreuse c next drops p (by rw [hexec]) hkill).mono fun s' hx => ?_
      have hno : ∀ x, ¬ Fallen s (.enter c .exec next drops) x := fun x => not_fallen fun c' t htar => by
        cases htar with
        | enter hk => exact hkill hk
      exact ⟨hx.tree, hx.stocked, fun x he => .inl (hx.ended x he), fun x hf => absurd hf (hno x),
        fun hr _ => hx.rooted hr, hx.pids, hx.process_id⟩
    by_cases hex : call = .exit
    · subst hex
      exact hexit .exit
    by_cases hk : ∃ pid, call = .kill pid
    · obtain ⟨pid, rfl⟩ := hk
      refine ((post_kill_felled (h.trim ht)).weaken fun _ _ => trivial).mono fun s' h' => ?_
      rcases h' with ⟨rfl, hno⟩ | ⟨i, L', hi, hpid, hf⟩
      · refine .of_exited (D := Nobody) ⟨R, ht⟩ hs (fun _ => rfl) (fun _ => rfl) rfl
          (fun _ => (or_iff_left id).symm) fun x => iff_of_false id (not_fallen fun c' t htar => ?_)
        cases htar with
        | enter hk => exact hkill hk
        | kill _ hi hpid _ => exact hno _ hi hpid
      · refine .of_exited ⟨_, hf.tree⟩ (hf.stocked hs) hf.parent hf.reaped.pid hf.process_id hf.reaped.exited
          fun x => ⟨fun hx => ⟨c, _, .kill hkill hi hpid hx.top.1, .inr hx⟩, ?_⟩
        rintro ⟨c', t, htar, hx⟩
        cases htar with
        | enter hk => exact absurd hk hkill
        | kill _ hj hpid' ho =>
          rw [ht.inj _ _ hj hi (hpid'.trans hpid.symm)] at hx ho
          exact hx.resolve_left fun he => ho.ne_current he.1.symm
    refine (kin_frame.perform (away_unlisted h.rep) (fun hn => hn.1 rfl) hexec hex
      fun pid he => hk ⟨pid, he⟩).mono fun s' hk' => hkeep (fun c' t htar => ?_) hk'
    cases htar with
    | exit => exact hex rfl
    | enter hk => exact hkill hk
    | kill => exact hk ⟨_, rfl⟩
  | resume c next drops =>
    refine .ite (fun _ => trivial) fun _ => .ite (fun hk => hexit (.resume hk)) fun hkill => ?_
    refine (kin_frame.proceed (away_unlisted h.rep) (fun hn => hn.1 rfl)).mono
      fun s' hk' => hkeep (fun c' t htar => ?_) hk'
    cases htar with
    | resume hk => exact hkill hk

theorem tree_boot : Tree boot fun _ => [] where
  rep := by
    refine ⟨fun h => ?_, fun _ => List.nodup_nil, fun _ _ _ hp => (List.not_mem_nil hp).elim,
      fun _ _ hp => (List.not_mem_nil hp).elim, fun p _ => by cases p <;> rfl⟩
    cases h with
    | kernel c => exact .inl (List.isChain_pair.mpr ⟨rfl, rfl⟩)
    | user i => exact .inr ⟨rfl, rfl, rfl⟩
  mem p x := by
    refine ⟨fun hx => (List.not_mem_nil hx).elim, fun hc => ?_⟩
    cases x <;> exact nomatch hc.2
  kernel _ := rfl
  user i hi := absurd rfl hi
  older p x hc := by cases x <;> exact nomatch hc.2
  inj x y hx hy he := by
    cases x with
    | user i => exact absurd rfl hx
    | kernel c =>
      cases y with
      | user i => exact absurd rfl hy
      | kernel c' => rw [Fin.ext (Int.ofNat_inj.mp he)]
  fresh x := by
    cases x with
    | user i => exact Int.natCast_pos.mpr Nat.two_pos
    | kernel c => exact Int.ofNat_lt.mpr c.isLt

theorem stocked_boot : Stocked boot where
  ready := ⟨nofun, nofun⟩
  other _ := ⟨nofun, nofun⟩
  wait p hp := by
    cases p with
    | kernel c => exact ⟨nofun, nofun⟩
    | user i => exact absurd rfl hp
  uses q hq := by cases q <;> first | exact absurd rfl hq | exact hq.elim
  children p hp := by
    cases p with
    | kernel c => exact ⟨nofun, nofun⟩
    | user i => exact absurd rfl hp

theorem Targets.cpu (h : Targets s c e t) : e.cpu = some c := by cases h <;> rfl

theorem Targets.alive (h : Targets s c e t) (hc : Core s L) : s.status t ≠ .exited := by
  cases h with
  | exit => exact hc.current_alive c
  | enter _ => exact hc.current_alive c
  | resume _ => exact hc.current_alive c
  | kill _ hi _ _ => exact hi

/-- What ends is below who is to end. -/
theorem Fallen.exists_target (h : Fallen s e x) : ∃ c t, Targets s c e t ∧ Below s t x ∧
    (x = s.current c ∨ Struck s c x) ∧ (t = s.current c ∨ s.status t ≠ .running) := by
  obtain ⟨c, t, ht, ⟨rfl, rfl | ⟨y, hy, hf⟩⟩ | hf⟩ := h
  · exact ⟨c, _, ht, .refl, .inl rfl, .inl rfl⟩
  · exact ⟨c, _, ht, .head hy hf.under, .inr hf.struck, .inl rfl⟩
  · exact ⟨c, t, ht, hf.under, .inr hf.struck, .inr hf.top.2⟩

theorem Fallen.alive (hf : Fallen s e x) (h : Core s L) : s.status x ≠ .exited := by
  obtain ⟨c, t, htar, hb, -⟩ := hf.exists_target
  exact hb.alive (htar.alive h)

/-! ## Careful steps -/

/-- **The steps that keep the lists and the tree.** -/
structure Careful (s : Kernel) (e : Event) : Prop where
  /-- who is to end is not above, and is not itself, a process that has been
  killed and still runs on another processor -/
  spares : ∀ c t, Targets s c e t → ∀ c' ≠ c, s.status (s.current c') = .killed →
    ¬ Below s t (s.current c')
  /-- a new process takes no control block that is still somebody's parent -/
  reuse : ∀ p q, Performs s e p .exec → s.allocPcb = some q → ∀ x, ¬ Child s q x
  /-- nobody waits on a mutex that is made -/
  unused : ∀ p key i, Performs s e p (.mutexInit key) → s.mutexAlloc key = some i →
    ∀ w, (s.links (.node w)).container ≠ some (.mutex i)

section

variable (h : Core s L) (ht : Tree s R) (hc : Careful s e)

include h hc in
/-- What another processor runs does not end in a careful step. -/
theorem Careful.not_fallen {c' : Cpu} (he : e.cpu ≠ some c') : ¬ Fallen s e (s.current c') := by
  intro hf
  obtain ⟨c, t, htar, hb, hx, -⟩ := hf.exists_target
  have hne : c' ≠ c := fun hcc => he (hcc ▸ htar.cpu)
  rcases hx with hx | hx
  · exact hne (h.inj hx)
  · -- it does not run, so it has been killed
    have hkill := (h.active c').1.resolve_left hx.2
    exact hc.spares c t htar c' hne hkill hb

include ht hc in
theorem Careful.children_nil (he : e = .enter c .exec next drops)
    (hkill : s.status (s.current c) ≠ .killed) (hp : s.allocPcb = some p) : R p = [] := by
  refine List.eq_nil_iff_forall_not_mem.mpr fun x hx => ?_
  exact hc.reuse _ p ⟨c, next, drops, he, rfl, hkill⟩ hp x ((ht.mem p x).mp hx)

end

/-! ## The state between two steps -/

/-- **Lists, tree and pids are in order.** -/
structure Settled (s : Kernel) (L : Lists) (R : Slot → List Slot) : Prop where
  core : Core s L
  tree : Tree s R
  stocked : Stocked s
  pids : Pids s

/-- **What a careful step has done**: to the tree, to references, mutexes and pids, and to
semaphores and barriers. -/
structure Advance (s : Kernel) (L : Lists) (e : Event) (s' : Kernel) (L' : Lists) : Prop where
  tree : TreeStep s e s'
  turn : Turn s e s'
  result : Result (Timed s e) s L s' L'
  sema : SemaStep (Performs s e) (Ended s s') (semaView s L) (semaView s' L')
  barrier : BarrierStep (Performs s e) (Ended s s') (barrierView s L) (barrierView s' L')

/-- **A careful step keeps all in order.** -/
theorem Settled.post_step (h : Settled s L R) (hc : Careful s e) :
    Post (Fault (Performs s e) s L) (fun s' => ∃ L' R', Advance s L e s' L' ∧ Settled s' L' R')
      (s.step e) := by
  have htree := post_step_tree h.core h.tree h.stocked e fun c next drops p he hkill hp =>
    hc.children_nil h.tree he hkill hp
  have hstep := Kernel.post_step h.core e fun p key i hp hi =>
    List.eq_nil_iff_forall_not_mem.mpr fun w hw => hc.unused p key i hp hi w (h.core.rep.container _ w hw)
  cases hr : s.step e with
  | error e' =>
    rw [hr] at hstep
    exact hstep
  | ok s' =>
    have ht := htree.of_ok hr
    have hturn := (post_turn h.core h.pids).of_ok hr
    -- what another processor runs has not ended
    obtain ⟨L', hres, hsema, hbar⟩ := hstep.of_ok hr fun c' hne hexit =>
      (ht.ended _ hexit).elim (h.core.current_alive c') (hc.not_fallen h.core hne)
    obtain ⟨R', hR⟩ := ht.tree
    exact ⟨L', R', ⟨ht, hturn, hres, hsema, hbar⟩, hres.core, hR, ht.stocked, hturn.pids⟩

theorem pids_boot : Pids boot := by
  have hlow : ∀ x, (boot.pcb x).pid < NR_CPUS := fun x => by
    cases x with
    | kernel c => exact Int.ofNat_lt.mpr c.isLt
    | user i => exact Int.ofNat_lt.mpr (show 0 < NR_CPUS by decide)
  exact ⟨fun x y hx _ => absurd (hlow x) (not_lt.mpr hx), fun c => rfl, hlow, le_refl _⟩

theorem settled_boot : Settled boot (fun _ => []) fun _ => [] :=
  ⟨core_boot, tree_boot, stocked_boot, pids_boot⟩

end Kernel

variable {Good : Kernel → Event → Prop} {s : Kernel} {e : Event}

/-- **Induction over a run** of careful steps, with the lists that the memory holds. -/
theorem Reach.induct {P : Kernel → Lists → Prop} (h : Reach Good s)
    (hcareful : ∀ s e, Good s e → Careful s e) (hboot : P Sched.boot fun _ => [])
    (hstep : ∀ s e s' L L' R, Good s e → s.step e = .ok s' → Settled s L R → P s L →
      Advance s L e s' L' → P s' L') : ∃ L R, Settled s L R ∧ P s L := by
  induction h with
  | boot => exact ⟨_, _, settled_boot, hboot⟩
  | step _ hg he ih =>
    obtain ⟨L, R, h, hp⟩ := ih
    obtain ⟨L', R', ha, h'⟩ := (h.post_step (hcareful _ _ hg)).of_ok he
    exact ⟨L', R', h', hstep _ _ _ L L' R hg he h hp ha⟩

/-- Enough of `Careful`: nothing else that runs has been killed. -/
def carefulIf (s : Kernel) (e : Event) : Bool :=
  (match e with
    | .enter _ (.mutexInit key) _ _ =>
      decide (∀ i, s.mutexAlloc key = some i → ∀ w, (s.links (.node w)).container ≠ some (.mutex i))
    | .enter _ .exec _ _ => decide (∀ x, s.status x ≠ .exited → (s.pcb x).parent ≠ s.allocPcb)
    | _ => true) &&
  decide (∀ c, e.cpu ≠ some c → s.status (s.current c) ≠ .killed)

/-- The step is out to end the process, as far as one sees. -/
def Kernel.aimsAt (s : Kernel) (e : Event) (t : Slot) : Bool :=
  match e with
  | .tick _ => false
  | .enter c .exit _ _ => decide (t = s.current c)
  | .enter c (.kill pid) _ _ =>
    decide ((s.pcb t).pid = pid ∨ t = s.current c ∧ s.status t = .killed)
  | .enter c _ _ _ | .resume c _ _ => decide (t = s.current c ∧ s.status t = .killed)

/-- Enough for a process not to fall: neither it nor an ancestor is to end. -/
def Kernel.sparesIf (s : Kernel) (e : Event) : ℕ → Slot → Bool
  | 0, _ => false
  | n + 1, p => !s.aimsAt e p && match (s.pcb p).parent with
    | none => true
    | some q => s.sparesIf e n q

theorem Kernel.Targets.aimsAt {c : Cpu} {t : Slot} (h : Targets s c e t) : s.aimsAt e t = true := by
  cases h with
  | exit => simp [Kernel.aimsAt]
  | enter hk =>
    unfold Kernel.aimsAt
    split <;> simp_all
  | resume hk => simp [Kernel.aimsAt, hk]
  | kill _ _ hpid _ => simp [Kernel.aimsAt, hpid]

theorem Kernel.not_fallen_of_sparesIf {n : ℕ} {p : Slot} (hok : s.sparesIf e n p) :
    ¬ Fallen s e p := by
  intro hf
  obtain ⟨c, t, htar, hb, -⟩ := hf.exists_target
  -- up from the process, nobody is to end
  clear hf
  induction n generalizing p with
  | zero => exact nomatch hok
  | succ n ih =>
    rw [sparesIf, Bool.and_eq_true] at hok
    rcases ReflTransGen.cases_tail hb with he | ⟨q, hq, hc⟩
    · rw [he, htar.aimsAt] at hok
      exact nomatch hok.1
    · rw [hc.2] at hok
      exact ih hok.2 hq

theorem careful_of_carefulIf (hok : carefulIf s e) : Careful s e := by
  unfold carefulIf at hok
  rw [Bool.and_eq_true, decide_eq_true_eq] at hok
  obtain ⟨hcall, hkilled⟩ := hok
  refine ⟨fun c t htar c' hne hk _ => ?_, fun p q hp hq x hx => ?_, fun p key i hp hi => ?_⟩
  · refine hkilled c' (fun he => hne ?_) hk
    exact Option.some.inj (he.symm.trans htar.cpu)
  · obtain ⟨c, next, drops, rfl, -⟩ := hp
    exact of_decide_eq_true hcall x hx.1 (hx.2.trans hq.symm)
  · obtain ⟨c, next, drops, rfl, -⟩ := hp
    exact of_decide_eq_true hcall i hi

end OsLab.Sched
