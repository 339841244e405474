import OsLab.Sched.Tables
import OsLab.Sched.Quiet
import OsLab.Sched.Returns
/-!
# What the end of a process gives back

`cleanup_proc` goes through the tables of the kernel. Whatever the process
referred to, it refers to no longer, and what it held is released, if anyone
refers to it (`Reclaims`). A mutex to which nobody refers is skipped. The same holds of
`do_kill` and `do_exit` for all whom they end (`Returned`).
-/

namespace OsLab.Sched

open Finset

open DList (Rep)

namespace Kernel

variable {s s' s'' : Kernel} {L : Lists} {c : Cpu} {e : Event} {p x next : Slot} {q : Queue} {i : Idx}
  {o : Obj} {drops : Slot → List ℕ} {P P' D D' : Slot → Prop}

/-! ## What leaves the objects alone -/

/-- Objects and pids stay, and nobody ends. -/
structure Still (s s' : Kernel) : Prop where
  objects : s'.toObjects = s.toObjects
  pid : ∀ p, (s'.pcb p).pid = (s.pcb p).pid
  process_id : s'.process_id = s.process_id
  ended : ∀ p, s'.status p = .exited → s.status p = .exited

theorem Still.of_pcb (hobj : s'.toObjects = s.toObjects) (hpcb : s'.pcb = s.pcb)
    (hid : s'.process_id = s.process_id) : Still s s' := by
  refine ⟨hobj, fun p => by rw [hpcb], hid, fun p => ?_⟩
  unfold status
  rw [hpcb]
  exact id

theorem Still.setPcb {pcb : Pcb} (hpid : pcb.pid = (s.pcb p).pid)
    (hst : pcb.status = .exited → s.status p = .exited) : Still s (s.setPcb p pcb) := by
  refine ⟨rfl, pid_setPcb hpid, rfl, fun p' hp' => ?_⟩
  by_cases hp : p' = p
  · rw [hp] at hp' ⊢
    rw [status_setPcb_self] at hp'
    exact hst hp'
  · rwa [status_setPcb_ne hp] at hp'

theorem still_frame : BaseFrame Nobody Still where
  refl _ := .of_pcb rfl rfl rfl
  trans h h' := ⟨h'.objects.trans h.objects, fun p => (h'.pid p).trans (h.pid p),
    h'.process_id.trans h.process_id, fun p hp => h.ended p (h'.ended p hp)⟩
  status _ hst := .setPcb rfl fun he => absurd he hst
  stamp _ := .setPcb rfl id
  links _ _ := .of_pcb rfl rfl rfl
  current _ := .of_pcb rfl rfl rfl

/-- A part of the kernel that leaves the objects alone. -/
theorem still_of {r : Res} (hr : Framed Nobody Still c s r) : Yields (Still s) r :=
  hr.mono fun _ h => h.kept

theorem still_unblockList : Yields (Still s) (s.unblockList q) :=
  still_of (c := 0) (still_frame.unblockList away_nobody)

theorem still_doScheduler {k : Cont} : Yields (Still s) (s.doScheduler c k next) :=
  still_of (still_frame.doScheduler away_nobody id)

/-! ## What is given back -/

/-- A process owns nothing any more. -/
theorem owns_of_upd (h : upd s.owns p (fun _ => false) x i = true) : x ≠ p ∧ s.owns x i = true := by
  obtain ⟨-, hp⟩ | ⟨hne, hp⟩ := upd_eq_cases (rfl : upd s.owns p (fun _ => false) x = _)
  · rw [← hp] at h
    cases h
  · exact ⟨hne, hp ▸ h⟩

/-- The processes of `D` have ended and refer to nothing, and none of them
holds a mutex to which somebody referred. Only those of `P` have given up
references, and a mutex changes only if it was taken with the pid of one of
them, or they are all that referred to it. -/
structure Reclaims (P D : Slot → Prop) (s s' : Kernel) : Prop where
  ref : ∀ o x, x ∈ s'.ref o → x ∈ s.ref o ∧ ¬ D x
  kept : ∀ o x, x ∈ s.ref o → x ∈ s'.ref o ∨ P x
  held : ∀ i, (s'.mlocks i).acquired = true → (s.mlocks i).acquired = true ∧
    (s'.mlocks i).pid = (s.mlocks i).pid ∧
    (s.mlock_ref i ≠ ∅ → s'.mlock_ref i ≠ ∅ ∧ ∀ x, D x → (s.mlocks i).pid ≠ (s.pcb x).pid)
  lock : ∀ i, s'.mlocks i = s.mlocks i ∨ (∃ x, P x ∧ (s.mlocks i).pid = (s.pcb x).pid) ∨
    s.mlock_ref i ≠ ∅ ∧ ∀ x ∈ s.mlock_ref i, P x
  owns : ∀ p i, s'.owns p i = true → s.owns p i = true ∧ ¬ D p
  pid : ∀ p, (s'.pcb p).pid = (s.pcb p).pid
  process_id : s'.process_id = s.process_id
  ended : ∀ p, s'.status p = .exited → s.status p = .exited ∨ D p

namespace Reclaims

theorem of_still (h : Still s s') : Reclaims P Nobody s s' := by
  have href : s'.ref = s.ref := funext fun o => by
    unfold Kernel.ref
    rw [h.objects]
  refine ⟨fun o x hx => ⟨href ▸ hx, id⟩, fun o x hx => .inl (href ▸ hx), fun i hi => ?_,
    fun i => .inl (by rw [h.objects]), fun p i hp => ⟨h.objects ▸ hp, id⟩, h.pid, h.process_id,
    fun p hp => .inl (h.ended p hp)⟩
  rw [h.objects] at hi
  exact ⟨hi, by rw [h.objects], fun hr => ⟨by rw [h.objects]; exact hr, fun _ hx => hx.elim⟩⟩

theorem congr (h : Reclaims P D s s') (hP : ∀ x, P x ↔ P' x) (hD : ∀ x, D x ↔ D' x) : Reclaims P' D' s s' := by
  obtain rfl : P = P' := funext fun x => propext (hP x)
  obtain rfl : D = D' := funext fun x => propext (hD x)
  exact h

theorem trans (h : Reclaims P D s s') (h' : Reclaims P' D' s' s'') :
    Reclaims (fun x => P x ∨ P' x) (fun x => D x ∨ D' x) s s'' where
  ref o x hx := by
    obtain ⟨hx', hD'⟩ := h'.ref o x hx
    obtain ⟨hx, hD⟩ := h.ref o x hx'
    exact ⟨hx, not_or.mpr ⟨hD, hD'⟩⟩
  kept o x hx := by
    rcases h.kept o x hx with hx | hx
    · exact (h'.kept o x hx).imp_right .inr
    · exact .inr (.inl hx)
  held i hi := by
    obtain ⟨ha', hp', hr'⟩ := h'.held i hi
    obtain ⟨ha, hp, hr⟩ := h.held i ha'
    refine ⟨ha, hp'.trans hp, fun hne => ?_⟩
    obtain ⟨hne', hD⟩ := hr hne
    obtain ⟨hne'', hD'⟩ := hr' hne'
    refine ⟨hne'', fun x hx => hx.elim (hD x) fun hx => ?_⟩
    rw [← hp, ← h.pid]
    exact hD' x hx
  lock i := by
    rcases h.lock i with he | ⟨x, hx, hm⟩ | ⟨hne, hall⟩
    · rcases h'.lock i with he' | ⟨x, hx, hm⟩ | ⟨hne, hall⟩
      · exact .inl (he'.trans he)
      · rw [he, h.pid] at hm
        exact .inr (.inl ⟨x, .inr hx, hm⟩)
      · obtain ⟨x, hx⟩ := nonempty_iff_ne_empty.mpr hne
        refine .inr (.inr ⟨ne_empty_of_mem (h.ref (.mutex i) x hx).1, fun y hy => ?_⟩)
        exact (h.kept (.mutex i) y hy).elim (fun hy => .inr (hall y hy)) .inl
    · exact .inr (.inl ⟨x, .inl hx, hm⟩)
    · exact .inr (.inr ⟨hne, fun x hx => .inl (hall x hx)⟩)
  owns p i hp := by
    obtain ⟨hp', hD'⟩ := h'.owns p i hp
    obtain ⟨hp, hD⟩ := h.owns p i hp'
    exact ⟨hp, not_or.mpr ⟨hD, hD'⟩⟩
  pid p := (h'.pid p).trans (h.pid p)
  process_id := h'.process_id.trans h.process_id
  ended p hp := by
    rcases h'.ended p hp with hp | hp
    · exact (h.ended p hp).imp_right .inl
    · exact .inr (.inr hp)

theorem after (h : Reclaims P Nobody s s') (h' : Reclaims P D s' s'') : Reclaims P D s s'' :=
  (h.trans h').congr (fun _ => or_self_iff) fun _ => or_iff_right id

theorem still (h : Reclaims P D s s') (h' : Still s' s'') : Reclaims P D s s'' :=
  (h.trans (of_still h')).congr (fun _ => or_self_iff) fun _ => or_iff_left id

end Reclaims

/-! ## The bitmaps -/

variable {r : Finset Slot} {T : Kind} {O : Idx → Obj}

theorem ref_setMlockRef : (s.setMlockRef i r).ref o = if o = .mutex i then r else s.ref o := by
  cases o <;> simp [Kernel.ref, setMlockRef, upd]

theorem ref_setBarrierRef : (s.setBarrierRef i r).ref o = if o = .barrier i then r else s.ref o := by
  cases o <;> simp [Kernel.ref, setBarrierRef, upd]

theorem ref_setCondRef : (s.setCondRef i r).ref o = if o = .cond i then r else s.ref o := by
  cases o <;> simp [Kernel.ref, setCondRef, upd]

theorem ref_setSemaRef : (s.setSemaRef i r).ref o = if o = .sema i then r else s.ref o := by
  cases o <;> simp [Kernel.ref, setSemaRef, upd]

/-- Nothing changes but the value of an object. -/
theorem Reclaims.value (href : s'.ref = s.ref) (hm : s'.mlocks = s.mlocks) (ho : s'.owns = s.owns)
    (hpcb : s'.pcb = s.pcb) (hid : s'.process_id = s.process_id) : Reclaims P Nobody s s' := by
  refine ⟨fun o x hx => ⟨href ▸ hx, id⟩, fun o x hx => .inl (href ▸ hx), fun i hi => ?_,
    fun i => .inl (by rw [hm]), fun p i hp => ⟨ho ▸ hp, id⟩, fun p => by rw [hpcb], hid,
    fun p hp => .inl ?_⟩
  · rw [hm] at hi
    refine ⟨hi, by rw [hm], fun hr => ⟨?_, fun _ hx => hx.elim⟩⟩
    exact fun he => hr ((congrFun href (.mutex i)).symm.trans he)
  · unfold status at hp ⊢
    rwa [hpcb] at hp

theorem Reclaims.refl : Reclaims P Nobody s s := .value rfl rfl rfl rfl rfl

/-- A reference to an object other than a mutex is dropped. -/
theorem Reclaims.drop (href : ∀ o', s'.ref o' = if o' = o then (s.ref o).erase p else s.ref o')
    (hmutex : ∀ i, o ≠ .mutex i) (hm : s'.mlocks = s.mlocks) (ho : s'.owns = s.owns) (hpcb : s'.pcb = s.pcb)
    (hid : s'.process_id = s.process_id) : Reclaims (· = p) Nobody s s' where
  ref o' x hx := by
    rw [href] at hx
    split_ifs at hx with ho
    · exact ⟨ho ▸ mem_of_mem_erase hx, id⟩
    · exact ⟨hx, id⟩
  kept o' x hx := by
    rw [href]
    split_ifs with ho
    · exact (em (x = p)).symm.imp_left fun hxp => mem_erase.mpr ⟨hxp, ho ▸ hx⟩
    · exact .inl hx
  held i hi := by
    rw [hm] at hi
    refine ⟨hi, by rw [hm], fun hne => ⟨?_, fun _ hx => hx.elim⟩⟩
    have := href (.mutex i)
    rw [if_neg (hmutex i).symm] at this
    exact fun he => hne (this.symm.trans he)
  lock i := .inl (by rw [hm])
  owns p i hp := ⟨ho ▸ hp, id⟩
  pid p := by rw [hpcb]
  process_id := hid
  ended p hp := by
    unfold status at hp ⊢
    rw [hpcb] at hp
    exact .inl hp

/-! ## The cleanup functions -/

/-- The pid is that of one control block. -/
def Only (s : Kernel) (pid : ℤ) (p : Slot) : Prop :=
  (NR_CPUS : ℤ) ≤ pid ∧ ∀ x, (s.pcb x).pid = pid → x = p

variable {pid : ℤ}

theorem Only.congr (h : Only s pid p) (hpid : ∀ x, (s'.pcb x).pid = (s.pcb x).pid) : Only s' pid p :=
  ⟨h.1, fun x hx => h.2 x ((hpid x).symm.trans hx)⟩

theorem reclaims_dropRef (href : ∀ s i, T.ref s i = s.ref (O i)) (hself : ∀ s i r, T.ref (T.setRef s i r) i = r)
    (hset : ∀ s i, Reclaims (· = p) Nobody s (T.setRef s i ((T.ref s i).erase p)))
    (hdestruct : ∀ s i, Yields (Reclaims (· = p) Nobody s) (T.destruct s i))
    (h : Only s pid p) : Yields (fun s' => Reclaims (· = p) Nobody s s' ∧ p ∉ s'.ref (O i))
      (dropRef T pid s i) := by
  unfold dropRef getPcbIndex
  cases hf : s.findPcb pid with
  | none => trivial
  | some p' =>
    obtain rfl := h.2 p' (findPcb_pid h.1 hf)
    refine .ite (fun _ => ?_) fun hp => ?_
    · have hgone : p' ∉ (T.setRef s i ((T.ref s i).erase p')).ref (O i) := by
        rw [← href, hself]
        exact notMem_erase p' _
      refine .ite (fun _ => ?_) fun _ => ⟨hset s i, hgone⟩
      refine (hdestruct _ i).mono fun s' h' => ⟨(hset s i).after h', fun hin => ?_⟩
      exact hgone (h'.ref _ _ hin).1
    · refine ⟨.refl, ?_⟩
      rw [← href]
      exact hp

/-- **A cleanup function**, of which one round does its part. -/
theorem reclaims_cleanupRefs (hdrop : ∀ s i, Only s pid p → Yields
      (fun s' => Reclaims (· = p) Nobody s s' ∧ p ∉ s'.ref (O i)) (dropRef T pid s i)) (h : Only s pid p) :
    Yields (fun s' => Reclaims (· = p) Nobody s s' ∧ ∀ i, p ∉ s'.ref (O i))
      (cleanupRefs T pid s) := by
  have hloop : Yields (fun s' => Reclaims (· = p) Nobody s s' ∧
      ∀ i ∈ List.finRange LOCK_NUM, p ∉ s'.ref (O i)) (cleanupRefs T pid s) := by
    refine .foldlM_all (fun s1 i _ h1 => ?_) .refl
    refine (hdrop s1 i (h.congr h1.pid)).mono fun s2 ⟨h2, hi⟩ => ⟨h1.after h2, hi, fun j hj hin => ?_⟩
    exact hj (h2.ref _ _ hin).1
  exact hloop.mono fun s' ⟨h', hall⟩ => ⟨h', fun i => hall i (List.mem_finRange i)⟩

theorem reclaims_cleanupBarriers (h : Only s pid p) :
    Yields (fun s' => Reclaims (· = p) Nobody s s' ∧ ∀ i, p ∉ s'.ref (.barrier i))
      (s.cleanupBarriers pid) := by
  refine reclaims_cleanupRefs (fun s i => reclaims_dropRef (fun _ _ => rfl) (fun _ _ _ => upd_self)
    (fun s i => ?_) fun s i => still_unblockList.mono fun _ => .of_still) h
  exact .drop (fun _ => ref_setBarrierRef) nofun rfl rfl rfl rfl

theorem reclaims_cleanupConditions (h : Only s pid p) :
    Yields (fun s' => Reclaims (· = p) Nobody s s' ∧ ∀ i, p ∉ s'.ref (.cond i))
      (s.cleanupConditions pid) := by
  refine reclaims_cleanupRefs (fun s i => reclaims_dropRef (fun _ _ => rfl) (fun _ _ _ => upd_self)
    (fun s i => ?_) fun s i => still_unblockList.mono fun _ => .of_still) h
  exact .drop (fun _ => ref_setCondRef) nofun rfl rfl rfl rfl

theorem reclaims_semaphoreDestruct : Yields (Reclaims (· = p) Nobody s) (s.semaphoreDestruct i) := by
  have h1 : Reclaims (· = p) Nobody s (s.setSema i { s.semaphores i with key := -1, count := 0 }) :=
    .value rfl rfl rfl rfl rfl
  exact still_unblockList.mono fun _ h2 => h1.still h2

theorem reclaims_cleanupSemaphores (h : Only s pid p) :
    Yields (fun s' => Reclaims (· = p) Nobody s s' ∧ ∀ i, p ∉ s'.ref (.sema i))
      (s.cleanupSemaphores pid) := by
  refine reclaims_cleanupRefs (fun s i => reclaims_dropRef (fun _ _ => rfl) (fun _ _ _ => upd_self)
    (fun s i => ?_) fun s i => reclaims_semaphoreDestruct) h
  exact .drop (fun _ => ref_setSemaRef) nofun rfl rfl rfl rfl

/-- A mutex is given up. -/
theorem Reclaims.release {m : Mutex} (hm : m.acquired = false)
    (hi : (∃ x, P x ∧ (s.mlocks i).pid = (s.pcb x).pid) ∨ s.mlock_ref i ≠ ∅ ∧ ∀ x ∈ s.mlock_ref i, P x) :
    Reclaims P Nobody s (s.setMlock i m) where
  ref _ _ hx := ⟨hx, id⟩
  kept _ _ hx := .inl hx
  held j hj := by
    by_cases hji : j = i
    · rw [hji] at hj
      exact nomatch hm.symm.trans ((congrArg Mutex.acquired upd_self).symm.trans hj)
    · have hsame : (s.setMlock i m).mlocks j = s.mlocks j := upd_of_ne hji
      rw [hsame] at hj ⊢
      exact ⟨hj, rfl, fun hr => ⟨hr, fun _ hx => hx.elim⟩⟩
  lock j := by
    by_cases hji : j = i
    · exact .inr (hji ▸ hi)
    · exact .inl (upd_of_ne hji)
  owns _ _ hp := ⟨hp, id⟩
  pid _ := rfl
  process_id := rfl
  ended _ hp := .inl hp

theorem reclaims_mutexRelease (hi : ∃ x, P x ∧ (s.mlocks i).pid = (s.pcb x).pid) : Yields
    (fun s' => Reclaims P Nobody s s' ∧ (s'.mlocks i).acquired = false) (s.mutexRelease i) := by
  have h1 : Reclaims P Nobody s (s.setMlock i { s.mlocks i with acquired := false }) :=
    .release rfl (.inl hi)
  refine still_unblockList.mono fun s' h2 => ⟨h1.still h2, ?_⟩
  rw [h2.objects]
  exact congrArg Mutex.acquired upd_self

/-- The last reference to a mutex goes once it is released. -/
theorem Reclaims.dropMutex (hr : r ⊆ s.mlock_ref i)
    (hkept : ∀ x ∈ s.mlock_ref i, x ∈ r ∨ P x) (hfree : r = ∅ → (s.mlocks i).acquired = false) :
    Reclaims P Nobody s (s.setMlockRef i r) where
  ref o x hx := by
    rw [ref_setMlockRef] at hx
    split_ifs at hx with ho
    · exact ⟨ho ▸ hr hx, id⟩
    · exact ⟨hx, id⟩
  kept o x hx := by
    rw [ref_setMlockRef]
    split_ifs with ho
    · rw [ho] at hx
      exact hkept x hx
    · exact .inl hx
  held j hj := by
    refine ⟨hj, rfl, fun hne => ⟨?_, fun _ hx => hx.elim⟩⟩
    by_cases hji : j = i
    · rw [hji] at hj ⊢
      rw [show (s.setMlockRef i r).mlock_ref i = r from upd_self]
      exact fun he => nomatch (hfree he).symm.trans hj
    · rw [show (s.setMlockRef i r).mlock_ref j = s.mlock_ref j from upd_of_ne hji]
      exact hne
  lock _ := .inl rfl
  owns _ _ hp := ⟨hp, id⟩
  pid _ := rfl
  process_id := rfl
  ended _ hp := .inl hp

/-- One round for the mutexes. The references are seen to when the mutex has
been released, so the two are taken together. -/
theorem reclaims_dropMutex (h : Only s pid p) :
    Yields (fun s' => Reclaims (· = p) Nobody s s' ∧ p ∉ s'.ref (.mutex i))
      (dropRef mutexKind pid s i) := by
  unfold dropRef getPcbIndex
  cases hf : s.findPcb pid with
  | none => trivial
  | some p' =>
    obtain rfl := h.2 p' (findPcb_pid h.1 hf)
    refine .ite (fun hin => ?_) fun hp => ⟨.refl, hp⟩
    have hself : ∀ s r, (setMlockRef s i r).mlock_ref i = r := fun s r => upd_self
    have hgone : p' ∉ (s.setMlockRef i ((s.mlock_ref i).erase p')).mlock_ref i := by
      rw [hself]
      exact notMem_erase p' _
    have herase : ∀ x ∈ s.mlock_ref i, x ∈ (s.mlock_ref i).erase p' ∨ x = p' := fun x hx =>
      (em (x = p')).symm.imp_left fun hxp => mem_erase.mpr ⟨hxp, hx⟩
    refine .ite (fun hnil => ?_) fun hsome =>
      ⟨.dropMutex (erase_subset ..) herase fun he => absurd ((hself ..).trans he) hsome, hgone⟩
    have hv : (s.setMlock i { s.mlocks i with acquired := false }).mlocks i =
        { s.mlocks i with acquired := false } := upd_self
    have hlast : ∀ x ∈ s.mlock_ref i, x = p' := fun x hx => (herase x hx).resolve_left fun hx => by
      rw [show (s.mlock_ref i).erase p' = ∅ from (hself ..).symm.trans hnil] at hx
      exact notMem_empty x hx
    have h1 : Reclaims (· = p') Nobody s (s.setMlock i { s.mlocks i with acquired := false }) :=
      .release rfl (.inr ⟨ne_empty_of_mem hin, hlast⟩)
    have h2 := h1.after (Reclaims.dropMutex (i := i) (r := (s.mlock_ref i).erase p')
      (erase_subset p' _) herase fun _ => by rw [hv])
    show Post _ _ (mutexDestruct _ i)
    unfold mutexDestruct
    refine still_unblockList.bind fun s' h3 => ?_
    have hempty : s'.mlock_ref i = ∅ := by
      rw [h3.objects]
      exact hnil
    refine ⟨(h2.still h3).after (.dropMutex (empty_subset _) (fun x hx => ?_) fun _ => ?_), ?_⟩
    · rw [hempty] at hx
      exact absurd hx (notMem_empty x)
    · rw [h3.objects]
      exact congrArg Mutex.acquired hv
    · show p' ∉ (s'.setMlockRef i ∅).mlock_ref i
      rw [hself]
      exact notMem_empty p'

/-- What the pid holds nobody refers to. -/
def Unreferred (s : Kernel) (pid : ℤ) (i : Idx) : Prop :=
  (s.mlocks i).acquired = true → (s.mlocks i).pid = pid → s.mlock_ref i = ∅

theorem Reclaims.unreferred (h : Reclaims P D s s') (hi : Unreferred s pid i) : Unreferred s' pid i := by
  intro ha hp
  obtain ⟨ha', hp', -⟩ := h.held i ha
  refine eq_empty_of_forall_notMem fun x hx => ?_
  have hx' : x ∈ s.mlock_ref i := (h.ref (.mutex i) x hx).1
  rw [hi ha' (hp'.symm.trans hp)] at hx'
  exact notMem_empty x hx'

theorem reclaims_cleanupMutexes (h : Only s pid p) (hpid : (s.pcb p).pid = pid) :
    Yields (fun s' => Reclaims (· = p) Nobody s s' ∧ (∀ i, p ∉ s'.ref (.mutex i)) ∧
      ∀ i, Unreferred s' pid i) (s.cleanupMutexes pid) := by
  -- the first loop releases, the second drops the references
  have hloop : Yields (fun s' => Reclaims (· = p) Nobody s s' ∧
      ∀ i ∈ List.finRange LOCK_NUM, Unreferred s' pid i)
      ((List.finRange LOCK_NUM).foldlM (releaseHeld pid) s) := by
    refine .foldlM_all (fun s1 i _ h1 => .ite (fun hi => ?_) fun hi => ?_) .refl
    · have htaken : (s1.mlocks i).pid = (s1.pcb p).pid := hi.2.2.trans ((h1.pid p).trans hpid).symm
      refine (reclaims_mutexRelease (P := (· = p)) ⟨p, rfl, htaken⟩).mono fun s2 ⟨h2, hfree⟩ =>
        ⟨h1.after h2, fun ha => ?_, fun j => h2.unreferred⟩
      exact nomatch hfree.symm.trans ha
    · refine ⟨h1, fun ha hp => ?_, fun _ => id⟩
      exact not_not.mp fun hne => hi ⟨hne, ha, hp⟩
  refine hloop.bind fun s1 ⟨h1, hall⟩ => ?_
  refine (reclaims_cleanupRefs (fun s i => reclaims_dropMutex) (h.congr h1.pid)).mono fun s2 ⟨h2, hgone⟩ => ?_
  exact ⟨h1.after h2, hgone, fun i => h2.unreferred (hall i (List.mem_finRange i))⟩

/-- **`cleanup_proc`** gives back what the process has. -/
theorem reclaims_cleanupProc (h : Only s (s.pcb p).pid p) :
    Yields (Reclaims (· = p) (· = p) s) (s.cleanupProc drops p) := by
  refine (reclaims_cleanupMutexes h rfl).bind fun s1 ⟨h1, hmutex, hheld⟩ => ?_
  refine (reclaims_cleanupBarriers (h.congr h1.pid)).bind fun s2 ⟨h2, hbarrier⟩ => ?_
  have h12 := h1.after h2
  refine (reclaims_cleanupConditions (h.congr h12.pid)).bind fun s3 ⟨h3, hcond⟩ => ?_
  have h13 := h12.after h3
  refine (reclaims_cleanupSemaphores (h.congr h13.pid)).bind fun s4 ⟨h4, hsema⟩ => ?_
  refine (still_of (c := 0) (still_frame.cleanupOthers away_nobody)).bind fun s5 h5 => ?_
  refine (still_of (c := 0) (still_frame.listDestruct away_nobody)).bind fun s6 h6 => ?_
  unfold relationDestruct
  cases DList.destruct s6.relation p with
  | none => trivial
  | some m =>
    have h7 : Still s6 { s6 with relation := m } := .of_pcb rfl rfl rfl
    refine still_unblockList.bind fun s8 h8 => ?_
    have h58 : Reclaims (· = p) Nobody s4 s8 := (((Reclaims.of_still h5).still h6).still h7).still h8
    have hall : Reclaims (· = p) Nobody s s8 := (h13.after h4).after h58
    -- what is gone stays gone
    have hgone : ∀ o, p ∉ s8.ref o := by
      intro o hin
      have h48 := h58.ref o p hin
      cases o with
      | mutex i => exact hmutex i ((((h2.after h3).after h4).after h58).ref _ p hin).1
      | barrier i => exact hbarrier i (((h3.after h4).after h58).ref _ p hin).1
      | cond i => exact hcond i ((h4.after h58).ref _ p hin).1
      | sema i => exact hsema i h48.1
      | mbox i => exact notMem_empty p hin
      | pipe i => exact notMem_empty p hin
    have hfree : ∀ i, Unreferred s8 (s.pcb p).pid i := fun i =>
      (((h2.after h3).after h4).after h58).unreferred (hheld i)
    refine .ite (fun _ => trivial) fun _ => ⟨fun o x hx => ⟨(hall.ref o x hx).1, ?_⟩, hall.kept,
      fun i hi => ?_, hall.lock, fun x i hx => ?_, fun x => ?_, hall.process_id, fun x hx => ?_⟩
    · rintro rfl
      exact hgone o hx
    · obtain ⟨ha, hpid, hr⟩ := hall.held i hi
      refine ⟨ha, hpid, fun hne => ⟨(hr hne).1, ?_⟩⟩
      rintro x rfl he
      exact (hr hne).1 (hfree i hi (hpid.trans he))
    · obtain ⟨hne, hx⟩ := owns_of_upd hx
      exact ⟨(hall.owns x i hx).1, hne⟩
    · have hset : ((s8.setStatus p .exited).pcb x).pid = (s8.pcb x).pid := by rw [pcb_setStatus]
      exact hset.trans (hall.pid x)
    · by_cases hxp : x = p
      · exact .inr hxp
      · have hset : (s8.setStatus p .exited).status x = s8.status x := status_setStatus_ne _ hxp
        exact .inl ((hall.ended x (hset.symm.trans hx)).resolve_right id)

/-! ## Killing -/

/-- **Pids are given out once.** -/
structure Pids (s : Kernel) : Prop where
  inj : ∀ x y, (NR_CPUS : ℤ) ≤ (s.pcb x).pid → (s.pcb x).pid = (s.pcb y).pid → x = y
  kernel : ∀ c, (s.pcb (.kernel c)).pid = c
  fresh : ∀ x, (s.pcb x).pid < s.process_id
  base : (NR_CPUS : ℤ) ≤ s.process_id

theorem Pids.congr (h : Pids s) (hpid : ∀ x, (s'.pcb x).pid = (s.pcb x).pid)
    (hid : s'.process_id = s.process_id) : Pids s' where
  inj x y hx hxy := by
    rw [hpid] at hx
    rw [hpid, hpid] at hxy
    exact h.inj x y hx hxy
  kernel c := (hpid _).trans (h.kernel c)
  fresh x := by
    rw [hpid, hid]
    exact h.fresh x
  base := hid ▸ h.base

theorem Pids.only (h : Pids s) (hlow : (NR_CPUS : ℤ) ≤ (s.pcb p).pid) : Only s (s.pcb p).pid p :=
  ⟨hlow, fun x hx => (h.inj p x hlow hx.symm).symm⟩

/-- **What the calls of `cleanup_proc` in a log do.** -/
structure Returned (l : List Teardown) (s s' : Kernel) : Prop
    extends Reclaims (TornDown l) (TornDown l) s s' where
  dated : ∀ r ∈ l, (NR_CPUS : ℤ) ≤ r.pid ∧ r.pid = (s.pcb r.slot).pid

theorem Returned.of_still (h : Still s s') : Returned [] s s' :=
  have hnil : ∀ x, Nobody x ↔ TornDown [] x := fun _ => iff_of_false id List.not_mem_nil
  ⟨(Reclaims.of_still h).congr hnil hnil, nofun⟩

theorem Returned.refl : Returned [] s s := .of_still (.of_pcb rfl rfl rfl)

theorem Returned.append {l l' : List Teardown} (h : Returned l s s') (h' : Returned l' s' s'') :
    Returned (l ++ l') s s'' := by
  refine ⟨(h.toReclaims.trans h'.toReclaims).congr (fun _ => tornDown_append.symm) fun _ =>
    tornDown_append.symm, fun r hr => ?_⟩
  rcases List.mem_append.mp hr with hr | hr
  · exact h.dated r hr
  · rw [← h.pid]
    exact h'.dated r hr

theorem returned_cleanupProc (h : Pids s) (hlow : (NR_CPUS : ℤ) ≤ (s.pcb p).pid) :
    Yields (Returned [⟨c, p, s⟩] s) (s.cleanupProc drops p) := by
  have hone : ∀ x, x = p ↔ TornDown [⟨c, p, s⟩] x := fun x =>
    (tornDown_singleton : TornDown [⟨c, p, s⟩] x ↔ x = p).symm
  refine (reclaims_cleanupProc (h.only hlow)).mono fun _ h' => ⟨h'.congr hone hone, fun r hr => ?_⟩
  rw [List.mem_singleton.mp hr]
  exact ⟨hlow, rfl⟩

/-- What killing reclaims. -/
theorem kills_returned (c : Cpu) (drops : Slot → List ℕ) :
    Kills (fun _ => True) c drops (fun s (_ : Unit) => Pids s) (fun l s _ s' => Returned l s s')
    fun s p => (NR_CPUS : ℤ) ≤ (s.pcb p).pid where
  halts := ⟨trivial, trivial⟩
  refl _ := .refl
  trans h h' := ⟨fun p hp => (h'.pid p).symm ▸ hp, (), h.congr h'.pid h'.process_id, fun _ _ => h'.append⟩
  mark _ _ := .of_still (.setPcb rfl nofun)
  fit hlow _ := hlow
  cleanup := returned_cleanupProc

/-- **`do_exit`.** -/
theorem returned_doExit (h : Core s L) (hpids : Pids s) :
    Yields (Returned (s.exitLog drops c) s) (s.doExit drops c next) := by
  unfold doExit exitLog
  by_cases hlow : s.curPid c < NR_CPUS
  · rw [if_pos hlow, if_pos hlow]
    trivial
  rw [if_neg hlow, if_neg hlow]
  have hall := (kills_returned c drops).family ((kills_returned c drops).doKill FUEL) (x := ()) hpids (not_lt.mp hlow)
  cases hr : s.killSubprocess (doKill drops c FUEL) (s.current c) with
  | error e => trivial
  | ok s1 =>
    obtain ⟨L', hreap, -⟩ := ((kills_reaped c drops).killSubprocess (h.busy c).loose (s.current c)).of_ok hr
    rw [hr] at hall
    show Post _ _ (s1.cleanupProc drops (s1.current c) >>= fun s => s.doScheduler c .user next)
    rw [after, hreap.current]
    exact hall.bind fun s2 h2 => still_doScheduler.mono fun s3 h3 => ⟨h2.still h3, h2.dated⟩

end Kernel

end OsLab.Sched
