import OsLab.Sched.SyncCalls
import OsLab.Sched.Log
/-!
# The end of processes

`cleanup_proc`, `do_kill` and `do_exit`. One relation, `Reaped`, says what
has happened since a call began: the processes of `D` have exited and are
on no list, references have been dropped, and the others are where they
were or have been woken. It composes along the loops and the recursion of
`kill_subprocess`.

Nothing in `do_kill` keeps it from ending a process that another processor
is running, if that has been marked `KILLED` before. The invariant between
steps holds after a step in which this does not happen.
-/

namespace OsLab.Sched

open List

open DList (Rep)

namespace Kernel

variable {s s' : Kernel} {L L' : Lists} {c : Cpu} {q : Queue} {p : Slot} {T : Prop}
variable {called : Slot → Call → Prop} {next : Slot} {D E : Slot → Prop} {drops : Slot → List ℕ} {s1 : Kernel}

/-- **The processes of `D` have ended.** -/
structure Reaped (c : Cpu) (D : Slot → Prop) (s : Kernel) (L : Lists) (s' : Kernel) (L' : Lists) :
    Prop where
  loose : Loose s' L' c
  current : s'.current = s.current
  queued : Queued s L → Queued s' L'
  asleep : ∀ p, Roused s' L' p → Roused s L p
  exited : ∀ p, s'.status p = .exited ↔ s.status p = .exited ∨ D p
  active : ∀ p, Active s L p → ¬ D p → Active s' L' p
  pid : ∀ p, (s'.pcb p).pid = (s.pcb p).pid
  sema : SemaReap D (semaView s L) (semaView s' L')
  barrier : BarrierReap D (barrierView s L) (barrierView s' L')

namespace Reaped

theorem refl (h : Loose s L c) : Reaped c Nobody s L s L :=
  ⟨h, rfl, id, fun _ => id, fun _ => (or_iff_left id).symm, fun _ ha _ => ha, fun _ => rfl,
    .refl _ _, .refl _ _⟩

theorem trans {s'' : Kernel} {L'' : Lists} (h : Reaped c D s L s' L')
    (h' : Reaped c E s' L' s'' L'') : Reaped c (fun p => D p ∨ E p) s L s'' L'' where
  loose := h'.loose
  current := h'.current.trans h.current
  queued hq := h'.queued (h.queued hq)
  asleep p hp := h.asleep p (h'.asleep p hp)
  exited p := by rw [h'.exited, h.exited, or_assoc]
  active p ha hn := h'.active p (h.active p ha fun hd => hn (.inl hd)) fun he => hn (.inr he)
  pid p := (h'.pid p).trans (h.pid p)
  sema := h.sema.trans h'.sema
  barrier := h.barrier.trans h'.barrier

theorem congr (h : Reaped c D s L s' L') (hDE : ∀ p, D p ↔ E p) : Reaped c E s L s' L' := by
  rwa [funext fun p => propext (hDE p)] at h

/-- Objects change, and processes are woken. -/
theorem wakes_of (h : Loose s L c) (hw : Wakes s1 L s' L') (h1 : Rewired s s1 L')
    (hsv : SemaReap Nobody (semaView s L) (semaView s' L'))
    (hbv : BarrierReap Nobody (barrierView s L) (barrierView s' L')) : Reaped c Nobody s L s' L' := by
  have hst := h1.status_eq
  refine ⟨h.wakes_of h1 hw, hw.current.trans h1.current, fun hqd => ?_, fun p => h1.roused hw,
    fun p => ?_, fun p ha _ => (h1.active ha).wakes hw, fun p => by rw [hw.pcb, h1.pcb], hsv, hbv⟩
  · have hqd1 : Queued s1 L := fun p hp => by
      rw [hst]
      exact hqd p hp
    exact hqd1.wakes hw
  · rw [← hst]
    exact (hw.exited fun q hin => hst ▸ h.ne_exited_of_mem hin).trans (or_iff_left id).symm

/-- Objects change, and none goes out of use. -/
theorem objects (h : Loose s L c) (hpcb : s'.pcb = s.pcb) (hr : Rep s'.links L)
    (hcur : s'.current = s.current) (hid : s'.process_id = s.process_id) (htime : s'.time = s.time)
    (hcond : ∀ i, s'.cond_ref i = ∅ → s.cond_ref i = ∅) (hsema : ∀ i, s'.sema_ref i = ∅ → s.sema_ref i = ∅)
    (hbar : ∀ i, s'.barrier_ref i = ∅ → s.barrier_ref i = ∅) (hsv : SemaReap Nobody (semaView s L) (semaView s' L))
    (hbv : BarrierReap Nobody (barrierView s L) (barrierView s' L)) : Reaped c Nobody s L s' L :=
  .wakes_of h (.refl hr) ⟨hpcb, hcur, hid, htime, fun i hi => .inl (hcond i hi), fun i hi => .inl (hsema i hi),
    fun i hi => .inl (hbar i hi)⟩ hsv hbv

end Reaped

/-- What the cleanup functions leave, as a postcondition. -/
def Keeps (c : Cpu) (s : Kernel) (L : Lists) (s' : Kernel) : Prop :=
  ∃ L', Reaped c Nobody s L s' L'

variable {s'' : Kernel} {pid : ℤ} {i : Idx}

theorem Keeps.trans (h : Reaped c Nobody s L s' L') (h' : Keeps c s' L' s'') : Keeps c s L s'' := by
  obtain ⟨L'', h''⟩ := h'
  exact ⟨L'', (h.trans h'').congr fun _ => or_iff_left id⟩

/-! ## The cleanup of the objects -/

/-- A loop each of whose rounds keeps what the cleanup functions keep. -/
theorem post_cleanup {α : Type} {f : Kernel → α → Res} {l : List α} (h : Loose s L c)
    (hf : ∀ s L, Loose s L c → ∀ a, Post Minor (Keeps c s L) (f s a)) : Post Minor (Keeps c s L) (l.foldlM f s) := by
  refine .foldlM (fun s1 a _ h1 => ?_) ⟨L, .refl h⟩
  obtain ⟨L1, h1⟩ := h1
  exact (hf s1 L1 h1.loose a).mono fun s2 h2 => .trans h1 h2

/-- Semaphores and barriers are left alone by the waking of other lists. -/
theorem Wakes.keeps (h : Loose s L c) (hw : Wakes s1 L s' (moveAll L q)) (hn : ¬ Counted q)
    (h1 : Rewired s s1 (moveAll L q)) (hv : semaView s1 L = semaView s L ∧ barrierView s1 L = barrierView s L) :
    Keeps c s L s' := by
  obtain ⟨hs, hb⟩ := views_eq hw.same.objects (fun _ => moveAll_counted hn) fun p => by rw [hw.pcb]
  exact ⟨_, .wakes_of h hw h1 (hs.trans hv.1 ▸ .refl _ _) (hb.trans hv.2 ▸ .refl _ _)⟩

theorem post_keeps_mutexRelease (h : Loose s L c) (i : Idx) : Post Minor (Keeps c s L) (s.mutexRelease i) := by
  unfold mutexRelease
  exact post_unblockList h.rep (by simp) fun s' hw =>
    hw.keeps h id ⟨rfl, rfl, rfl, rfl, fun _ => .inl, fun _ => .inl, fun _ => .inl⟩ ⟨rfl, rfl⟩

/-- **The references of user processes to objects of a kind can be dropped.** -/
def Droppable (c : Cpu) (K : Kind) : Prop :=
  ∀ s L, Loose s L c → ∀ i p, (∀ c', p ≠ .kernel c') → p ∈ K.ref s i →
    Post Minor (Keeps c s L)
      (let s := K.setRef s i ((K.ref s i).erase p)
       if K.ref s i = ∅ then K.destruct s i else .ok s)

variable {K : Kind} {x : Slot}

theorem post_dropRef (hK : Droppable c K) (h : Loose s L c)
    (hpid : (NR_CPUS : ℤ) ≤ pid) (i : Idx) : Post Minor (Keeps c s L) (dropRef K pid s i) := by
  unfold dropRef
  rw [post_bind]
  refine post_getPcbIndex fun p hp => ?_
  refine .ite (fun hin => hK s L h i p (fun c' he => ?_) hin) fun _ => ⟨L, .refl h⟩
  rcases findPcb_spec hp with ⟨c'', -, hc⟩ | ⟨i', hi, -⟩
  · have := c''.isLt
    omega
  · rw [hi] at he
    exact nomatch he

theorem post_cleanupRefs (hK : Droppable c K) (h : Loose s L c)
    (hpid : (NR_CPUS : ℤ) ≤ pid) : Post Minor (Keeps c s L) (cleanupRefs K pid s) :=
  post_cleanup h fun _ _ h i => post_dropRef hK h hpid i

theorem droppable_mutexKind (c : Cpu) : Droppable c mutexKind := by
  intro s L h i p _ _
  have hset : ∀ r, Reaped c Nobody s L (s.setMlockRef i r) L := fun r =>
    .objects h rfl h.rep rfl rfl rfl (fun _ => id) (fun _ => id) (fun _ => id) (.refl _ _) (.refl _ _)
  refine .ite (fun _ => ?_) fun _ => ⟨L, hset _⟩
  show Post Minor _ (mutexDestruct _ i)
  unfold mutexDestruct
  refine (post_keeps_mutexRelease (hset _).loose i).bind fun s2 h2 => ?_
  obtain ⟨L2, h2⟩ := h2
  refine Keeps.trans (hset _) (Keeps.trans h2 ⟨L2, ?_⟩)
  exact .objects h2.loose rfl h2.loose.rep rfl rfl rfl (fun _ => id) (fun _ => id) (fun _ => id)
    (.refl _ _) (.refl _ _)

/-- One round of the first loop of `cleanup_mutexes`. -/
theorem post_releaseHeld (h : Loose s L c) (pid : ℤ) (i : Idx) : Post Minor (Keeps c s L) (s.releaseHeld pid i) := by
  unfold releaseHeld
  exact .ite (fun _ => post_keeps_mutexRelease h i) fun _ => ⟨L, .refl h⟩

theorem post_cleanupMutexes (h : Loose s L c) (hpid : (NR_CPUS : ℤ) ≤ pid) :
    Post Minor (Keeps c s L) (s.cleanupMutexes pid) := by
  unfold cleanupMutexes
  refine (post_cleanup h fun s L h i => post_releaseHeld h pid i).bind fun s1 ⟨L1, h1⟩ => ?_
  exact (post_cleanupRefs (droppable_mutexKind c) h1.loose hpid).mono fun s2 h2 => .trans h1 h2

/-- One reference is dropped, and others remain. -/
theorem droppable_condKind (c : Cpu) : Droppable c condKind := by
  intro s L h i p _ _
  refine .ite (fun hnil => ?_) fun hne => ⟨L, ?_⟩
  · show Post Minor _ (unblockList _ (.cond i))
    exact post_unblockList h.rep (by simp) fun s' hw =>
      hw.keeps h id ⟨rfl, rfl, rfl, rfl, fun _ => ref_moved (by simp), fun _ => .inl, fun _ => .inl⟩ ⟨rfl, rfl⟩
  · have hne' : upd s.cond_ref i ((s.cond_ref i).erase p) i ≠ ∅ := hne
    rw [upd_self] at hne'
    exact .objects h rfl h.rep rfl rfl rfl (fun _ => ref_kept hne') (fun _ => id) (fun _ => id)
      (.refl _ _) (.refl _ _)

/-- The reference of a user process to a semaphore is dropped. -/
theorem semaReap_setRef {v : Sema} (hp : ∀ c', p ≠ .kernel c')
    (hgen : v.gen = (s.semaphores i).gen) (hwait : ∀ j ≠ i, L' (.sema j) = L (.sema j))
    (hsub : ∀ j, ∀ p ∈ L' (.sema j), p ∈ L (.sema j))
    (hlive : (s.sema_ref i).erase p ≠ ∅ → v = s.semaphores i ∧ L' (.sema i) = L (.sema i))
    (hsema : s'.semaphores = upd s.semaphores i v) (href : s'.sema_ref = upd s.sema_ref i ((s.sema_ref i).erase p))
    (hcont : ∀ p, (s'.pcb p).cont = (s.pcb p).cont) : SemaReap Nobody (semaView s L) (semaView s' L') := by
  have hone : ∀ j, (s'.semaphores j).gen = (s.semaphores j).gen ∧ s'.sema_ref j ⊆ s.sema_ref j ∧
      (.kernel 0 ∈ s.sema_ref j → .kernel 0 ∈ s'.sema_ref j) ∧
      (s'.sema_ref j ≠ ∅ → s'.semaphores j = s.semaphores j ∧ L' (.sema j) = L (.sema j)) := by
    intro j
    rw [hsema, href]
    by_cases hji : j = i
    · subst hji
      rw [upd_self, upd_self]
      exact ⟨hgen, Finset.erase_subset _ _, fun hk => Finset.mem_erase.mpr ⟨(hp 0).symm, hk⟩, hlive⟩
    · rw [upd_of_ne hji, upd_of_ne hji]
      exact ⟨rfl, Finset.Subset.refl _, id, fun _ => ⟨rfl, hwait j hji⟩⟩
  exact ⟨fun j => (hone j).1, fun j hj => ((hone j).2.2.2 hj).1, fun j => (hone j).2.1, fun j => (hone j).2.2.1,
    fun j hj _ => ((hone j).2.2.2 hj).2, hsub, fun _ p' _ => hcont p', fun p' _ _ hd => (hcont p').symm.trans hd⟩

theorem droppable_semaKind (c : Cpu) : Droppable c semaKind := by
  intro s L h i p hp _
  refine .ite (fun hnil => ?_) fun hne => ⟨L, ?_⟩
  · have hnil' : upd s.sema_ref i ((s.sema_ref i).erase p) i = ∅ := hnil
    rw [upd_self] at hnil'
    show Post Minor _ (semaphoreDestruct _ i)
    unfold semaphoreDestruct
    refine post_unblockList h.rep (by simp) fun s' hw => ⟨moveAll L (.sema i), ?_⟩
    have hother : ∀ q', q' ≠ .ready → q' ≠ .sema i → moveAll L (.sema i) q' = L q' :=
      fun q' h1 h2 => moveAll_of_ne h1 h2
    refine .wakes_of h hw ⟨rfl, rfl, rfl, rfl, fun _ => .inl,
      fun _ => ref_moved (by simp), fun _ => .inl⟩ ?_ ?_
    · rw [hw.views.1]
      exact semaReap_setRef hp (v := { s.semaphores i with key := -1, count := 0 }) rfl
        (fun j hj => hother _ (by simp) (by simpa using hj)) (fun _ _ => hw.mem_of_mem (by simp))
        (fun hne => absurd hnil' hne) rfl rfl fun _ => rfl
    · have hbv : barrierView s' (moveAll L (.sema i)) = barrierView s L :=
        hw.views.2.trans (barrierView_eq rfl rfl fun _ => hother _ (by simp) (by simp))
      exact hbv ▸ .refl _ _
  · have hne' : upd s.sema_ref i ((s.sema_ref i).erase p) i ≠ ∅ := hne
    rw [upd_self] at hne'
    refine .objects h rfl h.rep rfl rfl rfl (fun _ => id) (fun _ => ref_kept hne') (fun _ => id) ?_ (.refl _ _)
    exact semaReap_setRef hp rfl (fun _ _ => rfl) (fun _ _ => id) (fun _ => ⟨rfl, rfl⟩)
      upd_eq_self.symm rfl fun _ => rfl

/-- The reference of a process to a barrier is dropped. -/
theorem barrierReap_setRef (hwait : ∀ j ≠ i, L' (.barrier j) = L (.barrier j))
    (hsub : ∀ j, ∀ p ∈ L' (.barrier j), p ∈ L (.barrier j))
    (hlive : (s.barrier_ref i).erase p ≠ ∅ → L' (.barrier i) = L (.barrier i)) (hbar : s'.barriers = s.barriers)
    (href : s'.barrier_ref = upd s.barrier_ref i ((s.barrier_ref i).erase p)) :
    BarrierReap Nobody (barrierView s L) (barrierView s' L') := by
  have hone : ∀ j, s'.barrier_ref j ⊆ s.barrier_ref j ∧
      (s'.barrier_ref j ≠ ∅ → L' (.barrier j) = L (.barrier j)) := by
    intro j
    rw [href]
    by_cases hji : j = i
    · subst hji
      rw [upd_self]
      exact ⟨Finset.erase_subset _ _, hlive⟩
    · rw [upd_of_ne hji]
      exact ⟨Finset.Subset.refl _, fun _ => hwait j hji⟩
  refine ⟨hbar, fun j => (hone j).1, fun j hj _ => (hone j).2 hj, fun j hj p' hp' _ => ?_, hsub⟩
  show p' ∈ L' (.barrier j)
  rw [(hone j).2 hj]
  exact hp'

theorem droppable_barrierKind (c : Cpu) : Droppable c barrierKind := by
  intro s L h i p _ _
  refine .ite (fun hnil => ?_) fun hne => ⟨L, ?_⟩
  · have hnil' : upd s.barrier_ref i ((s.barrier_ref i).erase p) i = ∅ := hnil
    rw [upd_self] at hnil'
    show Post Minor _ (unblockList _ (.barrier i))
    refine post_unblockList h.rep (by simp) fun s' hw => ⟨moveAll L (.barrier i), ?_⟩
    have hother : ∀ q', q' ≠ .ready → q' ≠ .barrier i → moveAll L (.barrier i) q' = L q' :=
      fun q' h1 h2 => moveAll_of_ne h1 h2
    refine .wakes_of h hw ⟨rfl, rfl, rfl, rfl, fun _ => .inl, fun _ => .inl,
      fun _ => ref_moved (by simp)⟩ ?_ ?_
    · have hsv : semaView s' (moveAll L (.barrier i)) = semaView s L :=
        hw.views.1.trans (semaView_eq rfl rfl (fun _ => hother _ (by simp) (by simp)) fun _ => rfl)
      exact hsv ▸ .refl _ _
    · rw [hw.views.2]
      exact barrierReap_setRef (fun j hj => hother _ (by simp) (by simpa using hj))
        (fun _ _ => hw.mem_of_mem (by simp)) (fun hne => absurd hnil' hne) rfl rfl
  · have hne' : upd s.barrier_ref i ((s.barrier_ref i).erase p) i ≠ ∅ := hne
    rw [upd_self] at hne'
    refine .objects h rfl h.rep rfl rfl rfl (fun _ => id) (fun _ => id) (fun _ => ref_kept hne') (.refl _ _) ?_
    exact barrierReap_setRef (fun _ _ => rfl) (fun _ _ => id) (fun _ => rfl) rfl rfl

theorem post_unblockOther (h : Loose s L c) (k : ℕ) : Post Minor (Keeps c s L) (s.unblockList (.other k)) :=
  post_unblockList h.rep (by simp) fun _ hw =>
    hw.keeps h id .refl ⟨rfl, rfl⟩

theorem post_cleanupOthers {l : List ℕ} (h : Loose s L c) : Post Minor (Keeps c s L) (s.cleanupOthers l) :=
  post_cleanup h fun _ _ h k => post_unblockOther h k

/-! ## The end of one process -/

theorem Idle.without (h : Idle s L p) (hr : Rep s.links L) {p' : Slot} (hne : p ≠ p') : Idle s (without L p') p := by
  rcases h with ⟨q, hin, hst⟩ | ⟨hst, hfree⟩
  · exact .inl ⟨q, (mem_without hr).mpr ⟨hne, hin⟩, hst⟩
  · exact .inr ⟨hst, fun q hin => hfree q ((mem_without hr).mp hin).2⟩

/-- **The process has left its list, those who wait for it have been woken,
and it has exited.** -/
theorem Reaped.exit {m : DList.Mem Queue Slot} {r : DList.Mem Slot Slot} {s3 : Kernel} (h : Loose s L c)
    (hw : Wakes { s.setLinks m with relation := r } (without L p) s3 L') (hwait : L' (.wait p) = [])
    (hlist : ∀ q, Counted q → L' q = (L q).erase p) (hkernel : ∀ c', p ≠ .kernel c') {owns : Slot → Idx → Bool}
    (hs' : s' = { s3.setStatus p .exited with owns := owns }) : Reaped c (· = p) s L s' L' := by
  have hst : ∀ p' ≠ p, s'.status p' = s3.status p' := fun p' hp' => by
    rw [hs']
    exact status_setStatus_ne (s := s3) _ hp'
  have hstp : s'.status p = .exited := by
    rw [hs']
    exact status_setStatus_self (s := s3) _
  have hpcb : ∀ p', s'.pcb p' = { s.pcb p' with status := s'.status p' } := fun p' => by
    rw [hs']
    refine (pcb_setStatus s3 p .exited p').trans ?_
    rw [hw.pcb]
    rfl
  have hmem : ∀ {p' q}, p' ∈ without L p q ↔ p' ≠ p ∧ p' ∈ L q := mem_without h.rep
  have hfree : ∀ p', (∀ q, p' ∉ without L p q) → ∀ q, p' ∉ L' q := fun _ hf => (hw.free hf).2
  have hgone : Gone s' L' p := ⟨hstp, hfree p fun q hin => (hmem.mp hin).1 rfl⟩
  have hactive : ∀ p' ≠ p, Active s L p' → Active s' L' p' := by
    intro p' hne ha
    have ha2 : Active { s.setLinks m with relation := r } (without L p) p' :=
      ⟨ha.1, fun q hin => ha.2 q (hmem.mp hin).2⟩
    unfold Active
    rw [hst p' hne]
    exact ha2.wakes hw
  have hidle : ∀ p' ≠ p, Idle s L p' → Idle s' L' p' := by
    intro p' hne hi
    have hi2 : Idle { s.setLinks m with relation := r } (without L p) p' := hi.without h.rep hne
    unfold Idle
    rw [hst p' hne]
    exact hi2.wakes hw
  have hexit : ∀ p' ≠ p, s'.status p' = .exited ↔ s.status p' = .exited := fun p' hne => by
    rw [hst p' hne]
    exact hw.exited fun q hin => h.ne_exited_of_mem (hmem.mp hin).2
  have hkept : ∀ p', s.status p' = .exited → s'.status p' = .exited := fun p' he => by
    by_cases hne : p' = p
    · exact hne ▸ hstp
    · exact (hexit p' hne).mpr he
  have hnil : ∀ {q}, q ≠ .ready → L q = [] → L' q = [] := by
    intro q hq hl
    refine hw.nil_of_nil hq ?_
    unfold without
    rw [hl]
    rfl
  have ho := hw.same.objects
  have hcur : s'.current = s.current := hs' ▸ hw.current
  have htime : s'.time = s.time := hs' ▸ hw.same.time
  have hcond : s'.cond_ref = s.cond_ref := hs' ▸ (congrArg Objects.cond_ref ho :)
  have hsema : s'.sema_ref = s.sema_ref := hs' ▸ (congrArg Objects.sema_ref ho :)
  have hbar : s'.barrier_ref = s.barrier_ref := hs' ▸ (congrArg Objects.barrier_ref ho :)
  refine ⟨h.of (hs' ▸ hw.rep) hcur (fun p' ha => ?_) (fun p' hi => ?_)
    (fun p' hg => ⟨hkept p' hg.1, hfree p' fun q hin =>
      hg.2 q (hmem.mp hin).2⟩) (h.tidy.of (fun q hq _ => hnil hq) (fun _ hi => .inl (hcond ▸ hi))
      (fun _ hi => .inl (hsema ▸ hi)) (fun _ hi => .inl (hbar ▸ hi)) hkept (fun p' he => ?_) (fun p' => by rw [hpcb])
      (hs' ▸ hw.same.process_id)), hcur, fun hq p' hp' => ?_, fun p' hp' => ?_,
    fun p' => ?_, fun p' ha hne => hactive p' hne ha, fun p' => by rw [hpcb], 
      .leave (hs' ▸ (congrArg Objects.semaphores ho :)) hsema (fun i => hlist _ trivial)
      (funext fun p' => by show (s'.pcb p').cont = _; rw [hpcb]; rfl), 
      .leave (hs' ▸ (congrArg Objects.barriers ho :)) hbar fun i => hlist _ trivial⟩
  · by_cases hne : p' = p
    · exact .inr (hne ▸ hgone)
    · exact .inl (hactive p' hne ha)
  · by_cases hne : p' = p
    · exact .inr (hne ▸ hgone)
    · exact hidle p' hne hi
  · by_cases hne : p' = p
    · exact .inr ⟨hne ▸ hwait, hne ▸ hkernel⟩
    · exact .inl ((hexit p' hne).mp he)
  · have hne : p' ≠ p := fun he => hgone.2 _ (he ▸ hp')
    have hq2 : Queued { s.setLinks m with relation := r } (without L p) := fun p'' hp'' => hq p'' (hmem.mp hp'').2
    rw [hst p' hne]
    exact hq2.wakes hw p' hp'
  · refine ⟨(hmem.mp (hw.mem_of_mem (by simp) hp'.1)).2, ?_⟩
    have hd := hp'.2
    unfold due at hd ⊢
    rwa [hpcb, htime] at hd
  · by_cases hne : p' = p
    · rw [hne]
      exact ⟨fun _ => .inr rfl, fun _ => hstp⟩
    · rw [hexit p' hne]
      exact (or_iff_left hne).symm

theorem post_release (h : Loose s L c) (hkernel : ∀ c', p ≠ .kernel c') :
    Post Minor (fun s' => ∃ L', Reaped c (· = p) s L s' L')
      (do
        let s ← s.listDestruct p
        let s ← s.relationDestruct p
        let s ← s.unblockList (.wait p)
        s.freePcb p) := by
  rw [post_bind]
  refine post_listDestruct h.rep fun m hm => ?_
  rw [post_bind]
  unfold relationDestruct
  cases DList.destruct (s.setLinks m).relation p with
  | none => trivial
  | some r =>
    rw [post_ok, post_bind]
    refine post_unblockList (s := { s.setLinks m with relation := r }) hm (by simp) fun s3 hw => ?_
    unfold freePcb
    refine .ite (fun _ => trivial) fun _ => ⟨moveAll (without L p) (.wait p), ?_⟩
    exact .exit h hw (moveAll_self (by simp)) (fun _ => moveAll_counted id) hkernel rfl

/-- **`cleanup_proc`.** -/
theorem post_cleanupProc (h : Loose s L c) (hpid : (NR_CPUS : ℤ) ≤ (s.pcb p).pid) :
    Post Minor (fun s' => ∃ L', Reaped c (· = p) s L s' L') (s.cleanupProc drops p) := by
  have hkernel : ∀ c', p ≠ .kernel c' := by
    intro c' he
    rw [he, (h.tidy.kernel c').1] at hpid
    have := c'.isLt
    omega
  unfold cleanupProc
  refine (post_cleanupMutexes h hpid).bind fun s1 ⟨L1, h1⟩ => ?_
  refine (post_cleanupRefs (droppable_barrierKind c) h1.loose hpid).bind fun s2 ⟨L2, h2⟩ => ?_
  refine (post_cleanupRefs (droppable_condKind c) h2.loose hpid).bind fun s3 ⟨L3, h3⟩ => ?_
  refine (post_cleanupRefs (droppable_semaKind c) h3.loose hpid).bind fun s4 ⟨L4, h4⟩ => ?_
  refine (post_cleanupOthers h4.loose).bind fun s5 ⟨L5, h5⟩ => ?_
  refine (post_release h5.loose hkernel).mono fun s6 ⟨L6, h6⟩ => ⟨L6, ?_⟩
  refine (h1.trans (h2.trans (h3.trans (h4.trans (h5.trans h6))))).congr fun p' => ?_
  simp [Nobody]

/-! ## Killing -/

/-- A running process is marked. -/
theorem Reaped.mark (h : Loose s L c) (hrun : s.status p = .running) :
    Reaped c Nobody s L (s.setStatus p .killed) L := by
  have hst : ∀ p' ≠ p, (s.setStatus p .killed).status p' = s.status p' :=
    fun p' hp' => status_setStatus_ne _ hp'
  have hstp : (s.setStatus p .killed).status p = .killed := status_setStatus_self _
  have hpcb : ∀ p', ((s.setStatus p .killed).pcb p').pid = (s.pcb p').pid := fun p' => by rw [pcb_setStatus]
  have hexit : ∀ p', (s.setStatus p .killed).status p' = .exited ↔ s.status p' = .exited := by
    intro p'
    by_cases hne : p' = p
    · rw [hne, hstp, hrun]
      simp
    · rw [hst p' hne]
  have hactive : ∀ p', Active s L p' → Active (s.setStatus p .killed) L p' := by
    intro p' ha
    by_cases hne : p' = p
    · rw [hne] at ha ⊢
      exact ⟨.inr hstp, ha.2⟩
    · exact ⟨by rw [hst p' hne]; exact ha.1, ha.2⟩
  have hview : semaView (s.setStatus p .killed) L = semaView s L :=
    semaView_eq rfl rfl (fun _ => rfl) fun p' => by rw [pcb_setStatus]
  refine ⟨h.of h.rep rfl (fun p' ha => .inl (hactive p' ha)) (fun p' hi => ?_)
    (fun p' hg => ⟨(hexit p').mpr hg.1, hg.2⟩) (h.tidy.of (fun _ _ _ => id) (fun _ => .inl) (fun _ => .inl)
      (fun _ => .inl) (fun p' => (hexit p').mpr) (fun p' he => .inl ((hexit p').mp he)) hpcb rfl),
    rfl, fun hq p' hp' => ?_, fun p' hp' => ⟨hp'.1, (due_setStatus p p' .killed).symm.trans hp'.2⟩,
    fun p' => (hexit p').trans (or_iff_left id).symm,
    fun p' ha _ => hactive p' ha, hpcb, hview ▸ .refl _ _, .refl _ _⟩
  · by_cases hne : p' = p
    · -- a running process is not on a list
      subst hne
      rcases hi with ⟨q, -, ⟨hs, -⟩ | hs⟩ | ⟨hs, -⟩ <;> simp [hs] at hrun
    · unfold Idle
      rw [hst p' hne]
      exact hi
  · by_cases hne : p' = p
    · subst hne
      have := hq p' hp'
      simp [hrun] at this
    · rw [hst p' hne]
      exact hq p' hp'

/-- The processes of `l` have been torn down, not that of the processor. -/
def Killed (c : Cpu) (l : List Teardown) (s : Kernel) (L : Lists) (s' : Kernel) : Prop :=
  ∃ L', Reaped c (TornDown l) s L s' L' ∧ ¬ TornDown l (s.current c)

theorem Killed.refl (h : Loose s L c) : Killed c [] s L s :=
  ⟨L, (Reaped.refl h).congr fun _ => (iff_of_false not_mem_nil id).symm, not_mem_nil⟩

theorem tornDown_append {l l' : List Teardown} : TornDown (l ++ l') x ↔ TornDown l x ∨ TornDown l' x := by
  unfold TornDown
  rw [map_append, mem_append]

theorem tornDown_singleton {r : Teardown} : TornDown [r] x ↔ x = r.slot := by
  unfold TornDown
  rw [map_singleton, mem_singleton]

theorem Killed.trans {l l' : List Teardown} (h : Reaped c (TornDown l) s L s' L')
    (hD : ¬ TornDown l (s.current c)) (h' : Killed c l' s' L' s'') : Killed c (l ++ l') s L s'' := by
  obtain ⟨L'', h'', hE⟩ := h'
  rw [h.current] at hE
  exact ⟨L'', (h.trans h'').congr fun _ => tornDown_append.symm, fun hor =>
    (tornDown_append.mp hor).elim hD hE⟩

/-- **A relation that killing keeps.** `K l` holds of the states before and after those of `l` are
torn down, `Ok` of a state and what is known of it, and `Fit` of a process that may be torn down. -/
structure Kills {σ : Type} (E : Halt → Prop) (c : Cpu) (drops : Slot → List ℕ) (Ok : Kernel → σ → Prop)
    (K : List Teardown → Kernel → σ → Kernel → Prop) (Fit : Kernel → Slot → Prop) : Prop where
  halts : E .loop ∧ E .badList
  refl : ∀ {s x}, Ok s x → K [] s x s
  trans : ∀ {l s x s'}, Ok s x → K l s x s' → (∀ p, Fit s p → Fit s' p) ∧
    ∃ x', Ok s' x' ∧ ∀ l' s'', K l' s' x' s'' → K (l ++ l') s x s''
  mark : ∀ {s x p}, Ok s x → s.status p = .running → K [] s x (s.setStatus p .killed)
  fit : ∀ {s : Kernel} {p}, (NR_CPUS : ℤ) ≤ (s.pcb p).pid → s.current c ≠ p → Fit s p
  cleanup : ∀ {s x p}, Ok s x → Fit s p → Post E (K [⟨c, p, s⟩] s x) (s.cleanupProc drops p)

/-- The walk over the ancestors ends in an answer or does not end. -/
theorem post_isAncestor_any {E : Halt → Prop} (hE : E .loop) (pid : ℤ) (fuel : ℕ) (link : Option Slot) :
    Post E (fun _ => True) (s.isAncestor pid fuel link) := by
  induction fuel generalizing link with
  | zero =>
    cases link with
    | none => trivial
    | some p => exact hE
  | succ fuel ih =>
    cases link with
    | none => trivial
    | some p => exact .ite (fun _ => trivial) fun _ => ih _

/-- A process that is not refused is not the caller. -/
theorem isAncestor_self (h : s.isAncestor pid FUEL (some p) = .ok false) : (s.pcb p).pid ≠ pid := by
  intro he
  rw [show FUEL = NUM_MAX_TASK + NR_CPUS + 1 from rfl, isAncestor, if_pos he] at h
  cases h

theorem findPcb_pid (hlow : (NR_CPUS : ℤ) ≤ pid) (hf : s.findPcb pid = some p) : (s.pcb p).pid = pid := by
  rcases findPcb_spec hf with ⟨c', -, hc⟩ | ⟨i, -, hp, -⟩
  · have := c'.isLt
    omega
  · exact hp

namespace Kills

variable {σ : Type} {E : Halt → Prop} {Ok : Kernel → σ → Prop} {K : List Teardown → Kernel → σ → Kernel → Prop}
  {Fit : Kernel → Slot → Prop} {x : σ} {kill : Kernel → ℤ → Res} {log : Kernel → ℤ → List Teardown}

variable (H : Kills E c drops Ok K Fit)
include H

/-- `kill_subprocess`, from a link on. -/
theorem killFrom (p : Slot)
    (hkill : ∀ s x, Ok s x → ∀ pid, Post E (K (log s pid) s x) (kill s pid)) (fuel : ℕ) (h : Ok s x)
    (link : Option (DList.Node Slot Slot)) :
    Post E (K (killFromLog kill log fuel link s) s x) (killFrom kill p fuel link s) := by
  induction fuel generalizing s x link with
  | zero =>
    rcases link with _ | ⟨p' | child⟩
    · exact H.halts.2
    · exact .ite (fun _ => H.refl h) fun _ => H.halts.2
    · exact H.halts.2
  | succ fuel ih =>
    rcases link with _ | ⟨p' | child⟩
    · exact H.halts.2
    · exact .ite (fun _ => H.refl h) fun _ => H.halts.2
    · rw [Kernel.killFrom, killFromLog]
      have hfirst := hkill s x h (s.pcb child).pid
      cases hr : kill s (s.pcb child).pid with
      | error e => exact hfirst.of_error hr
      | ok s1 =>
        obtain ⟨-, x1, h1, hseq⟩ := H.trans h (hfirst.of_ok hr)
        exact (ih h1 _).mono fun s2 h2 => hseq _ s2 h2

/-- `kill_subprocess` and then `cleanup_proc`. -/
theorem family (hkill : ∀ s x, Ok s x → ∀ pid, Post E (K (log s pid) s x) (kill s pid)) (h : Ok s x) (hp : Fit s p) :
    Post E (K (killFromLog kill log FUEL (s.relation (.head p)).next s ++
      after (s.killSubprocess kill p) fun s => [⟨c, p, s⟩]) s x)
      (s.killSubprocess kill p >>= fun s => s.cleanupProc drops p) := by
  have hsub : Post E _ (s.killSubprocess kill p) := H.killFrom p hkill FUEL h _
  cases hr : s.killSubprocess kill p with
  | error e => exact hsub.of_error hr
  | ok s1 =>
    obtain ⟨hfit, x1, h1, hseq⟩ := H.trans h (hsub.of_ok hr)
    exact (H.cleanup h1 (hfit p hp)).mono fun s2 h2 => hseq _ s2 h2

/-- **`do_kill`.** -/
theorem doKill (depth : ℕ) (s : Kernel) (x : σ) (h : Ok s x) (pid : ℤ) :
    Post E (K (killLog drops c depth s pid) s x) (doKill drops c depth s pid) := by
  induction depth generalizing s x pid with
  | zero => exact H.halts.1
  | succ depth ih =>
    rw [Kernel.doKill, killLog]
    by_cases hlow : pid < NR_CPUS
    · rw [if_pos hlow, if_pos hlow]
      exact H.refl h
    rw [if_neg hlow, if_neg hlow]
    have hwalk := post_isAncestor_any (s := s) H.halts.1 pid FUEL (some (s.current c))
    cases hb : s.isAncestor pid FUEL (some (s.current c)) with
    | error e => exact hwalk.of_error hb
    | ok b =>
      cases b with
      | true => exact H.refl h
      | false =>
        cases hf : s.findPcb pid with
        | none => exact H.refl h
        | some p =>
          have hpid := findPcb_pid (not_lt.mp hlow) hf
          by_cases hrun : s.status p = .running
          · simp only [if_pos hrun]
            exact H.mark h hrun
          simp only [if_neg hrun]
          refine H.family ih h (H.fit (by rw [hpid]; exact not_lt.mp hlow) fun he => isAncestor_self hb ?_)
          rw [he, hpid]

/-- The first part of `do_exit`. -/
theorem killSubprocess (h : Ok s x) (p : Slot) :
    Post E (K (killFromLog (Kernel.doKill drops c FUEL) (killLog drops c FUEL) FUEL (s.relation (.head p)).next s) s x)
      (s.killSubprocess (Kernel.doKill drops c FUEL) p) :=
  H.killFrom p (H.doKill FUEL) FUEL h _

end Kills

/-- What killing does to the lists. -/
theorem kills_reaped (c : Cpu) (drops : Slot → List ℕ) : Kills Minor c drops (fun s L => Loose s L c) (Killed c)
    fun s p => (NR_CPUS : ℤ) ≤ (s.pcb p).pid ∧ s.current c ≠ p where
  halts := ⟨trivial, trivial⟩
  refl := .refl
  trans := by
    rintro l s L s' - ⟨L', h', hD⟩
    refine ⟨fun p hp => ?_, L', h'.loose, fun l' s'' => .trans h' hD⟩
    rw [h'.pid, h'.current]
    exact hp
  mark {s L p} h hrun := by
    have hmark := (Reaped.mark h hrun).congr (E := TornDown []) fun _ => (iff_of_false not_mem_nil id).symm
    exact ⟨L, hmark, not_mem_nil⟩
  fit hlow hne := ⟨hlow, hne⟩
  cleanup {s L p} h hp := by
    refine (post_cleanupProc h hp.1).mono fun s' ⟨L', h'⟩ => ⟨L', ?_, ?_⟩
    · exact h'.congr fun _ => (tornDown_singleton (r := ⟨c, p, s⟩)).symm
    · rw [tornDown_singleton]
      exact hp.2

/-- After a step in which no process of another processor has ended. -/
def Spared (c : Cpu) (s s' : Kernel) : Prop := ∀ c' ≠ c, s'.status (s.current c') ≠ .exited

/-- Those who have ended have ended in this step. -/
theorem Reaped.ended (h : Reaped c D s L s' L') (hb : Busy s L c) (hp : p ∈ L q) (hd : D p) :
    Ended s s' p := ⟨hb.ne_exited_of_mem hp, (h.exited p).mpr (.inr hd)⟩

/-- **The call `do_kill`.** -/
theorem post_kill (h : Core s L) (pid : ℤ) :
    Post Minor (fun s' => Spared c s s' → Outcome called T s L s') (doKill drops c FUEL s pid) := by
  have hb := h.busy c
  refine ((kills_reaped c drops).doKill FUEL s L hb.loose pid).mono fun s' ⟨L', hr, hD⟩ hspared => ?_
  have hbusy : Busy s' L' c := hr.loose.busy (by rw [hr.current]; exact hspared)
  have hact : Active s' L' (s'.current c) := by
    rw [hr.current]
    exact hr.active _ (h.active c) hD
  refine ⟨L', ⟨hbusy.core hact, fun hq _ => hr.queued hq⟩, .reap ?_, .reap ?_⟩
  · exact hr.sema.mono fun i p hp hd => hr.ended hb hp hd
  · exact hr.barrier.mono fun i p hp hd => hr.ended hb hp hd

/-- What `do_exit` has done before and after its switch. -/
theorem post_exit (h : Core s L) :
    Post Minor (fun s' => ∃ s1 L1 L', Reaped c (TornDown (s.exitLog drops c)) s L s1 L1 ∧
      s1.status (s1.current c) = .exited ∧ Switched s1 L1 c .user next s' L') (s.doExit drops c next) := by
  unfold doExit exitLog
  by_cases hlow : s.curPid c < NR_CPUS
  · rw [if_pos hlow, if_pos hlow]
    trivial
  rw [if_neg hlow, if_neg hlow]
  have hkill := (kills_reaped c drops).killSubprocess (h.busy c).loose (s.current c)
  cases hr : s.killSubprocess (doKill drops c FUEL) (s.current c) with
  | error e => exact hkill.of_error hr
  | ok s1 =>
    obtain ⟨L1, h1, -⟩ := hkill.of_ok hr
    have hpid : (NR_CPUS : ℤ) ≤ (s1.pcb (s1.current c)).pid := by
      rw [h1.pid, h1.current]
      exact not_lt.mp hlow
    show Post _ _ (s1.cleanupProc drops (s1.current c) >>= fun s => s.doScheduler c .user next)
    rw [after, post_bind]
    refine (post_cleanupProc h1.loose hpid).mono fun s2 ⟨L2, h2⟩ => ?_
    have hexit : s2.status (s2.current c) = .exited := by
      rw [h2.current]
      exact (h2.exited _).mpr (.inr rfl)
    refine post_doScheduler h2.loose.rep (fun hrun => nomatch hexit.symm.trans hrun) fun s' L' hs => ?_
    refine ⟨s2, L2, L', (h1.trans h2).congr fun x => ?_, hexit, hs⟩
    rw [tornDown_append, tornDown_singleton]

/-- **`do_exit`.** -/
theorem post_doExit (h : Core s L) (hT : T → Picked Nobody next s L) :
    Post Minor (fun s' => Spared c s s' → Outcome called T s L s') (s.doExit drops c next) := by
  have hb := h.busy c
  refine (post_exit h).mono fun s' ⟨s1, L1, L', hr, hexit, hs⟩ hspared => ?_
  have hbusy : Busy s1 L1 c := by
    refine hr.loose.busy fun c' hc he => hspared c' hc ?_
    rw [hr.current] at he
    exact (hs.exited hr.loose _).mpr he
  have hended : ∀ q, ∀ p ∈ L q, TornDown _ p → Ended s s' p := fun q p hp hd =>
    ⟨hb.ne_exited_of_mem hp, (hs.exited hr.loose p).mpr (hr.ended hb hp hd).2⟩
  have hfree : ∀ i, s1.current c ∉ L1 (.sema i) := fun i hin => hr.loose.ne_exited_of_mem hin hexit
  refine ⟨L', ⟨hbusy.switched (fun hk => nomatch hexit.symm.trans hk) hs, fun hq ht => ?_⟩, .reap ?_, .reap ?_⟩
  · exact (hr.queued hq).switched hs fun p hp => hT ht p (.inl (hr.asleep p hp))
  · exact (hr.sema.mono fun i p hp hd => hended _ p hp hd).same (hs.semaSame (by simp) hfree)
  · rw [hs.barrierView_eq]
    exact hr.barrier.mono fun i p hp hd => hended _ p hp hd

end Kernel

end OsLab.Sched
