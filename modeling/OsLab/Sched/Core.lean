import OsLab.Sched.Lists
/-!
# Where the processes are

Between two steps each processor runs a process that is on no list, and
every other process is on one list, or has exited (`Core`). While a
processor is in the kernel its own process may already have gone to a
list (`Busy`). This file has the two invariants, how waking, blocking and
the switch keep them, and what a call leaves alone of the counting objects
(`Plain`).

A sleeper that `check_sleeping` has moved to the ready queue is still
`BLOCKED`. The invariants allow for that, and `Queued` says it has not
happened.
-/

namespace OsLab.Sched

open DList (Rep)

namespace Kernel

variable {s s' : Kernel} {L L' : Lists} {c : Cpu} {q : Queue} {p : Slot}

section

variable (s L)

/-! ## The invariants -/

/-- The process is run by a processor. -/
def Active (p : Slot) : Prop :=
  (s.status p = .running ∨ s.status p = .killed) ∧ ∀ q, p ∉ L q

/-- The process is on a list with the status for it, or is no more. -/
def Idle (p : Slot) : Prop :=
  (∃ q, p ∈ L q ∧ (s.status p = .ready ∧ q = .ready ∨ s.status p = .blocked)) ∨
    s.status p = .exited ∧ ∀ q, p ∉ L q

/-- What nobody refers to has nobody waiting, and user processes have pids
of their own. -/
structure Tidy : Prop where
  cond : ∀ i, s.cond_ref i = ∅ → L (.cond i) = []
  sema : ∀ i, s.sema_ref i = ∅ → L (.sema i) = []
  barrier : ∀ i, s.barrier_ref i = ∅ → L (.barrier i) = []
  gone : ∀ p, s.status p = .exited → L (.wait p) = []
  user : ∀ i, s.status (.user i) ≠ .exited → (NR_CPUS : ℤ) ≤ (s.pcb (.user i)).pid
  kernel : ∀ c, (s.pcb (.kernel c)).pid = c ∧ s.status (.kernel c) ≠ .exited
  fresh : (NR_CPUS : ℤ) ≤ s.process_id

/-- **The invariant while processor `c` is in the kernel.** -/
structure Busy (c : Cpu) : Prop where
  rep : Rep s.links L
  inj : Function.Injective s.current
  active : ∀ c' ≠ c, Active s L (s.current c')
  own : Active s L (s.current c) ∨ Idle s L (s.current c)
  idle : ∀ p, (∀ c', s.current c' ≠ p) → Idle s L p
  tidy : Tidy s L

/-- The process has exited and is on no list. -/
def Gone (p : Slot) : Prop := s.status p = .exited ∧ ∀ q, p ∉ L q

/-- The invariant while processor `c` ends processes. It may end those that
others run. -/
structure Loose (c : Cpu) : Prop where
  rep : Rep s.links L
  inj : Function.Injective s.current
  others : ∀ c' ≠ c, Active s L (s.current c') ∨ Gone s L (s.current c')
  own : Active s L (s.current c) ∨ Idle s L (s.current c)
  idle : ∀ p, (∀ c', s.current c' ≠ p) → Idle s L p
  tidy : Tidy s L

/-- **The invariant between two steps.** -/
structure Core : Prop where
  rep : Rep s.links L
  inj : Function.Injective s.current
  active : ∀ c, Active s L (s.current c)
  idle : ∀ p, (∀ c, s.current c ≠ p) → Idle s L p
  tidy : Tidy s L

/-- What is on the ready queue is `READY`. -/
def Queued : Prop := ∀ p ∈ L .ready, s.status p = .ready

end

theorem Core.busy (h : Core s L) (c : Cpu) : Busy s L c where
  rep := h.rep
  inj := h.inj
  active c' _ := h.active c'
  own := .inl (h.active c)
  idle := h.idle
  tidy := h.tidy

theorem Busy.core (h : Busy s L c) (hown : Active s L (s.current c)) : Core s L where
  rep := h.rep
  inj := h.inj
  active c' := by
    by_cases hc : c' = c
    · exact hc ▸ hown
    · exact h.active c' hc
  idle := h.idle
  tidy := h.tidy

theorem Core.current_alive (h : Core s L) (c : Cpu) : s.status (s.current c) ≠ .exited := by
  rcases (h.active c).1 with he | he <;> simp [he]

/-- A process on a list is `READY` or `BLOCKED`. -/
theorem Idle.of_mem (h : Idle s L p) (hp : p ∈ L q) : s.status p = .ready ∨ s.status p = .blocked := by
  rcases h with ⟨q', -, hst⟩ | ⟨-, hfree⟩
  · exact hst.imp_left And.left
  · exact absurd hp (hfree q)

theorem Busy.loose (h : Busy s L c) : Loose s L c :=
  ⟨h.rep, h.inj, fun c' hc => .inl (h.active c' hc), h.own, h.idle, h.tidy⟩

theorem Loose.busy (h : Loose s L c) (ha : ∀ c' ≠ c, s.status (s.current c') ≠ .exited) : Busy s L c :=
  ⟨h.rep, h.inj, fun c' hc => (h.others c' hc).resolve_right fun hg => ha c' hc hg.1, h.own, h.idle,
    h.tidy⟩

theorem Loose.active_or_idle (h : Loose s L c) : Active s L p ∨ Idle s L p := by
  by_cases hc : ∃ c', s.current c' = p
  · obtain ⟨c', rfl⟩ := hc
    by_cases hcc : c' = c
    · exact hcc ▸ h.own
    · exact (h.others c' hcc).imp_right .inr
  · exact .inr (h.idle p fun c' he => hc ⟨c', he⟩)

theorem Loose.status_of_mem (h : Loose s L c) (hp : p ∈ L q) : s.status p = .ready ∨ s.status p = .blocked := by
  rcases h.active_or_idle with ha | hi
  · exact absurd hp (ha.2 q)
  · exact hi.of_mem hp

theorem Loose.ne_exited_of_mem (h : Loose s L c) (hp : p ∈ L q) : s.status p ≠ .exited := by
  rcases h.status_of_mem hp with he | he <;> simp [he]

theorem Busy.ne_exited_of_mem (h : Busy s L c) (hp : p ∈ L q) : s.status p ≠ .exited :=
  h.loose.ne_exited_of_mem hp

/-- A process that has exited is on no list. -/
theorem Busy.free_of_exited (h : Busy s L c) (hp : s.status p = .exited) : ∀ q, p ∉ L q :=
  fun _ hin => h.ne_exited_of_mem hin hp

/-- A process with the status of one that runs is on no list. -/
theorem Busy.free_of_running (h : Busy s L c) (hp : s.status p = .running) : ∀ q, p ∉ L q := by
  intro q hin
  rcases h.loose.status_of_mem hin with he | he <;> simp [he] at hp

/-- **A change and what nobody refers to.** What goes out of use, and those
who end, have nobody waiting for them after the change. -/
theorem Tidy.of (h : Tidy s L) (hnil : ∀ q, q ≠ .ready → q ≠ .sleep → L q = [] → L' q = [])
    (hcond : ∀ i, s'.cond_ref i = ∅ → s.cond_ref i = ∅ ∨ L' (.cond i) = [])
    (hsema : ∀ i, s'.sema_ref i = ∅ → s.sema_ref i = ∅ ∨ L' (.sema i) = [])
    (hbar : ∀ i, s'.barrier_ref i = ∅ → s.barrier_ref i = ∅ ∨ L' (.barrier i) = [])
    (hkept : ∀ p, s.status p = .exited → s'.status p = .exited)
    (hended : ∀ p, s'.status p = .exited → s.status p = .exited ∨ L' (.wait p) = [] ∧ ∀ c, p ≠ .kernel c)
    (hpid : ∀ p, (s'.pcb p).pid = (s.pcb p).pid) (hid : s'.process_id = s.process_id) : Tidy s' L' where
  cond i hi := (hcond i hi).elim (fun hr => hnil _ (by simp) (by simp) (h.cond i hr)) id
  sema i hi := (hsema i hi).elim (fun hr => hnil _ (by simp) (by simp) (h.sema i hr)) id
  barrier i hi := (hbar i hi).elim (fun hr => hnil _ (by simp) (by simp) (h.barrier i hr)) id
  gone p hp := (hended p hp).elim (fun he => hnil _ (by simp) (by simp) (h.gone p he)) And.left
  user i hi := by
    rw [hpid]
    exact h.user i fun he => hi (hkept _ he)
  kernel c := by
    rw [hpid]
    exact ⟨(h.kernel c).1, fun he => (hended _ he).elim (h.kernel c).2 fun hn => hn.2 c rfl⟩
  fresh := hid ▸ h.fresh

/-- The processes stay what they are, and nothing goes out of use. -/
theorem Tidy.congr (h : Tidy s L) (hst : ∀ p, s'.status p = s.status p) (hpid : ∀ p, (s'.pcb p).pid = (s.pcb p).pid)
    (hid : s'.process_id = s.process_id) (hcond : ∀ i, s'.cond_ref i = ∅ → s.cond_ref i = ∅)
    (hsema : ∀ i, s'.sema_ref i = ∅ → s.sema_ref i = ∅) (hbar : ∀ i, s'.barrier_ref i = ∅ → s.barrier_ref i = ∅) :
    Tidy s' L :=
  h.of (fun _ _ _ => id) (fun i hi => .inl (hcond i hi)) (fun i hi => .inl (hsema i hi))
    (fun i hi => .inl (hbar i hi)) (fun p => (hst p).trans) (fun p he => .inl ((hst p).symm.trans he)) hpid hid

/-- **A change that keeps what the processes are.** The process of `c` may
go to a list or exit. -/
theorem Busy.of (h : Busy s L c) (hr : Rep s'.links L') (hcur : s'.current = s.current)
    (hactive : ∀ p, Active s L p → Active s' L' p ∨ Idle s' L' p ∧ ∀ c' ≠ c, s.current c' ≠ p)
    (hidle : ∀ p, Idle s L p → Idle s' L' p) (ht : Tidy s' L') : Busy s' L' c where
  rep := hr
  inj := hcur ▸ h.inj
  active c' hc := by
    rw [hcur]
    exact (hactive _ (h.active c' hc)).resolve_right fun hn => hn.2 c' hc rfl
  own := by
    rw [hcur]
    rcases h.own with ha | hi
    · exact (hactive _ ha).imp_right And.left
    · exact .inr (hidle _ hi)
  idle p hp := hidle p (h.idle p (hcur ▸ hp))
  tidy := ht

/-- A change by which any process may exit. -/
theorem Loose.of (h : Loose s L c) (hr : Rep s'.links L') (hcur : s'.current = s.current)
    (hactive : ∀ p, Active s L p → Active s' L' p ∨ Gone s' L' p)
    (hidle : ∀ p, Idle s L p → Idle s' L' p) (hgone : ∀ p, Gone s L p → Gone s' L' p)
    (ht : Tidy s' L') : Loose s' L' c where
  rep := hr
  inj := hcur ▸ h.inj
  others c' hc := by
    rw [hcur]
    rcases h.others c' hc with ha | hg
    · exact hactive _ ha
    · exact .inr (hgone _ hg)
  own := by
    rw [hcur]
    rcases h.own with ha | hi
    · exact (hactive _ ha).imp_right .inr
    · exact .inr (hidle _ hi)
  idle p hp := hidle p (h.idle p (hcur ▸ hp))
  tidy := ht

/-- The invariant reads the status of the processes, the lists and the
processors alone, besides the references. -/
theorem Busy.congr (h : Busy s L c) (hst : ∀ p, s'.status p = s.status p)
    (hr : Rep s'.links L) (hcur : s'.current = s.current) (ht : Tidy s' L) : Busy s' L c := by
  refine h.of hr hcur (fun p ha => .inl ?_) (fun p hi => ?_) ht
  · unfold Active
    rw [hst]
    exact ha
  · unfold Idle
    rw [hst]
    exact hi

/-! ## Waking -/

theorem Idle.wakes (h : Idle s L p) (hw : Wakes s L s' L') : Idle s' L' p := by
  rcases h with ⟨q, hin, hst⟩ | ⟨hst, hfree⟩
  · rcases hw.place p with ⟨hsame, hmem⟩ | ⟨hready, hin', -⟩
    · exact .inl ⟨q, (hmem q).mpr hin, by rw [hsame]; exact hst⟩
    · exact .inl ⟨.ready, hin', .inl ⟨hready, rfl⟩⟩
  · obtain ⟨hsame, hfree'⟩ := hw.free hfree
    exact .inr ⟨hsame.trans hst, hfree'⟩

theorem Active.wakes (h : Active s L p) (hw : Wakes s L s' L') : Active s' L' p := by
  obtain ⟨hsame, hfree⟩ := hw.free h.2
  exact ⟨by rw [hsame]; exact h.1, hfree⟩

/-- Waking ends nobody and revives nobody. -/
theorem Wakes.exited (hw : Wakes s L s' L') (ha : ∀ q, p ∈ L q → s.status p ≠ .exited) :
    s'.status p = .exited ↔ s.status p = .exited := by
  rcases hw.place p with ⟨hs, -⟩ | ⟨hs, -, q, -, hin⟩
  · rw [hs]
  · exact iff_of_false (by simp [hs]) (ha q hin)

/-- The references may have changed before the waking: what nobody refers to
had no reference before, or has nobody waiting after it. -/
structure Rewired (s s1 : Kernel) (L' : Lists) : Prop where
  pcb : s1.pcb = s.pcb
  current : s1.current = s.current
  process_id : s1.process_id = s.process_id
  time : s1.time = s.time
  cond : ∀ i, s1.cond_ref i = ∅ → s.cond_ref i = ∅ ∨ L' (.cond i) = []
  sema : ∀ i, s1.sema_ref i = ∅ → s.sema_ref i = ∅ ∨ L' (.sema i) = []
  barrier : ∀ i, s1.barrier_ref i = ∅ → s.barrier_ref i = ∅ ∨ L' (.barrier i) = []

variable {s1 : Kernel} {k : Cont} {next : Slot}

theorem Rewired.refl : Rewired s s L' := ⟨rfl, rfl, rfl, rfl, fun _ => .inl, fun _ => .inl, fun _ => .inl⟩

theorem Rewired.status_eq (h : Rewired s s1 L') : s1.status = s.status := by
  unfold status
  rw [h.pcb]

theorem Rewired.active (h : Rewired s s1 L') (ha : Active s L p) : Active s1 L p := by
  unfold Active
  rw [h.status_eq]
  exact ha

theorem Loose.wakes_of (h : Loose s L c) (h1 : Rewired s s1 L') (hw : Wakes s1 L s' L') : Loose s' L' c := by
  have hst := h1.status_eq
  have hexit : ∀ p, s'.status p = .exited ↔ s.status p = .exited := fun p => by
    rw [← hst]
    exact hw.exited fun q hin => hst ▸ h.ne_exited_of_mem hin
  refine h.of hw.rep (hw.current.trans h1.current) (fun p ha => .inl ((h1.active ha).wakes hw)) (fun p hi => ?_)
    (fun p hg => ⟨(hexit p).mpr hg.1, (hw.free hg.2).2⟩) ?_
  · refine Idle.wakes ?_ hw
    unfold Idle
    rw [hst]
    exact hi
  · refine h.tidy.of (fun q hq _ => hw.nil_of_nil hq) ?_ ?_ ?_ (fun p => (hexit p).mpr)
      (fun p he => .inl ((hexit p).mp he)) (fun p => by rw [hw.pcb, h1.pcb])
      (hw.same.process_id.trans h1.process_id)
    all_goals rw [hw.same.objects]
    exacts [h1.cond, h1.sema, h1.barrier]

theorem Busy.wakes_of (h : Busy s L c) (h1 : Rewired s s1 L') (hw : Wakes s1 L s' L') : Busy s' L' c := by
  refine (h.loose.wakes_of h1 hw).busy fun c' hc => ?_
  rw [hw.current, h1.current]
  have ha := h.active c' hc
  rw [(hw.free ha.2).1, h1.status_eq]
  rcases ha.1 with he | he <;> simp [he]

theorem Queued.wakes (h : Queued s L) (hw : Wakes s L s' L') : Queued s' L' := by
  intro p hp
  rcases hw.place p with ⟨hst, hmem⟩ | ⟨hst, -⟩
  · rw [hst]
    exact h p ((hmem _).mp hp)
  · exact hst

/-- Waking moves nobody to the sleep queue, and no clock. -/
theorem Rewired.roused (h : Rewired s s1 L') (hw : Wakes s1 L s' L') (hp : Roused s' L' p) :
    Roused s L p := by
  refine ⟨hw.mem_of_mem (by simp) hp.1, ?_⟩
  have hd := hp.2
  unfold due at hd ⊢
  rw [hw.pcb, hw.same.time, h.pcb, h.time] at hd
  exact hd

/-! ## Blocking -/

/-- **The process of `c` goes to a queue.** What it waits on must be in
use. -/
theorem Busy.block (h : Busy s L c) {m : DList.Mem Queue Slot} (hm : Rep m (upd L q (L q ++ [s.current c])))
    (ht : Tidy s (upd L q (L q ++ [s.current c]))) (hrun : s.status (s.current c) ≠ .exited) :
    Busy ((s.setStatus (s.current c) .blocked).setLinks m) (upd L q (L q ++ [s.current c])) c := by
  have hmem : ∀ p ≠ s.current c, ∀ q', p ∈ upd L q (L q ++ [s.current c]) q' ↔ p ∈ L q' := by
    intro p hp q'
    by_cases hq : q' = q
    · rw [hq, upd_self]
      simp [hp]
    · rw [upd_of_ne hq]
  have hst : ∀ p ≠ s.current c,
      ((s.setStatus (s.current c) .blocked).setLinks m).status p = s.status p :=
    fun p hp => status_setStatus_ne (s := s) _ hp
  have hstc : ((s.setStatus (s.current c) .blocked).setLinks m).status (s.current c) = .blocked :=
    status_setStatus_self (s := s) _
  have hexit : ∀ p, ((s.setStatus (s.current c) .blocked).setLinks m).status p = .exited ↔ s.status p = .exited := by
    intro p
    by_cases hp : p = s.current c
    · rw [hp, hstc]
      exact iff_of_false nofun hrun
    · rw [hst p hp]
  have hpid : ∀ p, (((s.setStatus (s.current c) .blocked).setLinks m).pcb p).pid = (s.pcb p).pid := fun p => by
    show ((s.setStatus (s.current c) .blocked).pcb p).pid = _
    rw [pcb_setStatus]
  refine h.of hm rfl (fun p ha => ?_) (fun p hi => ?_) (ht.of (fun _ _ _ => id) (fun _ => .inl) (fun _ => .inl)
    (fun _ => .inl) (fun p => (hexit p).mpr) (fun p he => .inl ((hexit p).mp he)) hpid rfl)
  · by_cases hp : p = s.current c
    · subst hp
      refine .inr ⟨.inl ⟨q, by rw [upd_self]; simp, .inr hstc⟩, fun c' hc he => hc (h.inj he)⟩
    · refine .inl ⟨by rw [hst p hp]; exact ha.1, fun q' hin => ha.2 q' ((hmem p hp q').mp hin)⟩
  · by_cases hp : p = s.current c
    · subst hp
      exact .inl ⟨q, by rw [upd_self]; simp, .inr hstc⟩
    · unfold Idle
      rw [hst p hp]
      simp only [hmem p hp]
      exact hi

/-- The references allow one more on a queue. -/
theorem Tidy.append (h : Tidy s L)
    (hq : ∀ i, (q = .cond i → s.cond_ref i ≠ ∅) ∧ (q = .sema i → s.sema_ref i ≠ ∅) ∧
      (q = .barrier i → s.barrier_ref i ≠ ∅))
    (hwait : ∀ p', q = .wait p' → s.status p' ≠ .exited) : Tidy s (upd L q (L q ++ [p])) where
  cond i hi := by
    rw [upd_of_ne fun he => (hq i).1 he.symm hi]
    exact h.cond i hi
  sema i hi := by
    rw [upd_of_ne fun he => (hq i).2.1 he.symm hi]
    exact h.sema i hi
  barrier i hi := by
    rw [upd_of_ne fun he => (hq i).2.2 he.symm hi]
    exact h.barrier i hi
  gone p' hp := by
    rw [upd_of_ne fun he => hwait p' he.symm hp]
    exact h.gone p' hp
  user := h.user
  kernel := h.kernel
  fresh := h.fresh

/-! ## The switch -/

theorem Busy.not_active_next (h : Busy s L c) (hs : Switched s L c k next s' L') : ∀ c' ≠ c, s.current c' ≠ next := by
  intro c' hc he
  rcases hs.picked with hin | hin | ⟨hn, -⟩
  · exact (h.active c' hc).2 _ (he ▸ hin)
  · exact (h.active c' hc).2 _ (he ▸ hin)
  · exact hc (h.inj (he.trans hn))

/-- The switch ends nobody and revives nobody. -/
theorem Switched.exited (hs : Switched s L c k next s' L') (h : Loose s L c) (p : Slot) :
    s'.status p = .exited ↔ s.status p = .exited := by
  by_cases hp : p = next
  · refine iff_of_false ?_ ?_
    · rw [hp, hs.running]
      nofun
    · rw [hp]
      rcases hs.picked with hin | hin | ⟨-, hrun⟩
      · exact h.ne_exited_of_mem hin
      · exact h.ne_exited_of_mem hin
      · rw [hrun]
        nofun
  · rcases hs.place p hp with ⟨-, hrun, hready, -⟩ | ⟨-, hst, -⟩
    · rw [hrun, hready]
      exact iff_of_false nofun nofun
    · rw [hst]

/-- **After the switch every processor runs a process again.** -/
theorem Busy.switched (h : Busy s L c)
    (hkill : s.status (s.current c) ≠ .killed) (hs : Switched s L c k next s' L') : Core s' L' := by
  have hother := h.not_active_next hs
  have hidle : ∀ p ≠ next, (∀ c' ≠ c, s.current c' ≠ p) → Idle s' L' p := by
    intro p hp hcur
    rcases hs.place p hp with ⟨-, -, hst, hin⟩ | ⟨hnot, hst, hwhere⟩
    · exact .inl ⟨.ready, hin, .inl ⟨hst, rfl⟩⟩
    have hi : Idle s L p := by
      by_cases hpc : p = s.current c
      · rcases h.own with ha | hi
        · -- it would be running or killed
          rcases ha.1 with hrun | hk
          · exact absurd ⟨hpc, hpc ▸ hrun⟩ hnot
          · exact absurd hk hkill
        · exact hpc ▸ hi
      · refine h.idle p fun c' he => ?_
        by_cases hc : c' = c
        · exact hpc (hc ▸ he.symm)
        · exact hcur c' hc he
    rcases hi with ⟨q, hin, hq⟩ | ⟨hex, hfree⟩
    · rcases hwhere with hmem | ⟨hsleep, hready⟩
      · exact .inl ⟨q, (hmem q).mpr hin, by rw [hst]; exact hq⟩
      · refine .inl ⟨.ready, hready, ?_⟩
        rw [hst]
        have hqs : q = .sleep := h.rep.disjoint _ _ _ hin hsleep.1
        rcases hq with ⟨-, hr⟩ | hb
        · rw [hr] at hqs
          exact nomatch hqs
        · exact .inr hb
    · rcases hwhere with hmem | ⟨hsleep, -⟩
      · exact .inr ⟨hst.trans hex, fun q hin => hfree q ((hmem q).mp hin)⟩
      · exact absurd hsleep.1 (hfree _)
  refine ⟨hs.rep, fun c1 c2 he => ?_, fun c' => ?_, fun p hp => ?_, ?_⟩
  · rw [hs.current] at he
    by_cases h1 : c1 = c
    · by_cases h2 : c2 = c
      · exact h1.trans h2.symm
      · rw [h1, upd_self, upd_of_ne h2] at he
        exact absurd he.symm (hother c2 h2)
    · by_cases h2 : c2 = c
      · rw [h2, upd_self, upd_of_ne h1] at he
        exact absurd he (hother c1 h1)
      · rw [upd_of_ne h1, upd_of_ne h2] at he
        exact h.inj he
  · rw [hs.current]
    by_cases hc : c' = c
    · rw [hc, upd_self]
      exact ⟨.inl hs.running, hs.free⟩
    · rw [upd_of_ne hc]
      have ha := h.active c' hc
      rcases hs.place _ (hother c' hc) with ⟨he, -⟩ | ⟨-, hst, hwhere⟩
      · exact absurd (h.inj he) hc
      · refine ⟨by rw [hst]; exact ha.1, fun q hin => ?_⟩
        rcases hwhere with hmem | ⟨hsleep, -⟩
        · exact ha.2 q ((hmem q).mp hin)
        · exact ha.2 _ hsleep.1
  · have hn : p ≠ next := fun he => hp c (by rw [hs.current, upd_self, he])
    refine hidle p hn fun c' hc he => hp c' ?_
    rw [hs.current, upd_of_ne hc]
    exact he
  · have hexit := hs.exited h.loose
    refine h.tidy.of (fun q h1 h2 hnil => (hs.lists q h1 h2).trans hnil) ?_ ?_ ?_ (fun p => (hexit p).mpr)
      (fun p he => .inl ((hexit p).mp he)) (fun p => by rw [hs.pcb]) hs.same.process_id
    all_goals rw [hs.same.objects]; exact fun _ => .inl

/-- **The switch keeps the ready queue** to those that are `READY`, if it is to the only
sleeper whose time has come. -/
theorem Queued.switched (h : Queued s L) (hs : Switched s L c k next s' L')
    (hnext : ∀ p, Roused s L p → p = next) : Queued s' L' := by
  intro p hp
  have hn : p ≠ next := fun he => hs.free _ (he ▸ hp)
  rcases hs.place p hn with ⟨-, -, hst, -⟩ | ⟨-, hst, hmem | ⟨hroused, -⟩⟩
  · exact hst
  · rw [hst]
    exact h p ((hmem _).mp hp)
  · exact absurd (hnext p hroused) hn

end Kernel

end OsLab.Sched
