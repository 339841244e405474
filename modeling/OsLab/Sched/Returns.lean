import OsLab.Sched.Killing
/-!
# A kill returns

In a state with a tree, whose lists have been set up, none of what
`do_kill` goes through halts: the walks over lists and ancestors end, a
process is found by its pid while it is cleaned up, and every list that is
woken has been set up. What has to be said is that a computation has a
result, `Post (fun _ => False)`.
-/

namespace OsLab.Sched

open Finset

open DList (Rep IsSet KeepsHeads)

namespace Kernel

variable {s s' : Kernel} {L : Lists} {R : Slot → List Slot} {c : Cpu} {q : Queue} {p x t : Slot}
  {drops : Slot → List ℕ} {Q : Kernel → Prop} {pid : ℤ} {r : Res}

/-- The computation has a result. -/
abbrev Returns (r : Res) : Prop := Post (fun _ => False) (fun _ => True) r

theorem Returns.and {E : Halt → Prop} (h : Returns r) (h' : Post E Q r) :
    Post (fun _ => False) Q r := (Post.and h h').mono fun _ => And.right

/-! ## Lists -/

theorem returns_listAppend (hr : Rep s.links L) (hp : ∀ q, p ∉ L q) (hset : IsSet s.links q) :
    Post (fun _ => False) (fun s' => Rep s'.links (upd L q (L q ++ [p])) ∧
      KeepsHeads s.links s'.links) (s.listAppend q p) := by
  obtain ⟨m, hm⟩ := hr.exists_append hp hset
  unfold listAppend
  rw [hm]
  exact ⟨hr.append_free hp hm, .append hm⟩

theorem returns_unblockFrom (hq : q ≠ .ready) {fuel : ℕ} (hr : Rep s.links L)
    (hready : IsSet s.links .ready) (hfuel : (L q).length < fuel) :
    Returns (unblockFrom q fuel (some (DList.first q (L q))) s) := by
  induction fuel generalizing s L with
  | zero => omega
  | succ fuel ih =>
    cases hl : L q with
    | nil =>
      rw [DList.first, unblockFrom, if_pos rfl]
      trivial
    | cons p l =>
      have hp : p ∈ L q := by simp [hl]
      obtain ⟨a, b, -, -, hdel, hrep⟩ := hr.delete_mem hp
      have hnodup := hr.nodup q
      rw [hl, List.nodup_cons] at hnodup
      rw [hl, List.erase_cons_head] at hrep
      have hfree : ∀ q', p ∉ upd L q l q' := by
        intro q'
        by_cases hqq : q' = q
        · rw [hqq, upd_self]
          exact hnodup.1
        · rw [upd_of_ne hqq]
          exact fun hin => hqq (hr.disjoint _ _ _ hin hp)
      rw [Returns, DList.first, unblockFrom, hr.node_next (show L q = [] ++ p :: l from hl), post_bind]
      unfold listDelete
      rw [hdel]
      show Returns (doUnblock _ p >>= _)
      rw [Returns, post_bind]
      refine (returns_listAppend (s := (s.setLinks (DList.unlink s.links a b p)).setStatus p .ready) hrep
        hfree (KeepsHeads.unlink _ hready)).mono ?_
      rintro s2 ⟨hr2, hk2⟩
      have hrest : upd (upd L q l) .ready (upd L q l .ready ++ [p]) q = l := by rw [upd_of_ne hq, upd_self]
      have hgo := ih hr2 (hk2 _ (KeepsHeads.unlink _ hready)) (by
        rw [hrest]
        rw [hl, List.length_cons] at hfuel
        omega)
      rw [hrest] at hgo
      exact hgo

theorem returns_unblockList (hr : Rep s.links L) (hq : q ≠ .ready) (hready : IsSet s.links .ready)
    (hset : IsSet s.links q) : Returns (s.unblockList q) := by
  unfold unblockList
  rw [hr.head_next_of_isSet hset]
  exact returns_unblockFrom hq hr hready (length_lt_FUEL (hr.nodup q))

/-! ## The cleanup of the objects -/

/-- What the cleanup of `p` needs. -/
structure Fit (c : Cpu) (p : Slot) (pid : ℤ) (s : Kernel) : Prop where
  loose : ∃ L, Loose s L c
  stocked : Stocked s
  found : s.findPcb pid = some p
  low : (NR_CPUS : ℤ) ≤ pid

theorem findPcb_congr (hpid : ∀ p, (s'.pcb p).pid = (s.pcb p).pid)
    (hexit : ∀ p, s'.status p = .exited ↔ s.status p = .exited) : s'.findPcb pid = s.findPcb pid := by
  unfold findPcb
  simp only [hpid, Ne, hexit]

/-- What is needed stays. -/
theorem Fit.keeps (h : Fit c p pid s) (hkeeps : Post Minor (Keeps c s L) r)
    (hkin : Framed Nobody (Kin Nobody) c s r) : Post Minor (Fit c p pid) r := by
  refine (hkeeps.and hkin).mono fun s' ⟨⟨L', hr⟩, hk⟩ => ?_
  have hexit : ∀ p, s'.status p = .exited ↔ s.status p = .exited := fun p =>
    (hr.exited p).trans (or_iff_left id)
  exact ⟨⟨L', hr.loose⟩, h.stocked.kin hk.kept hexit,
    (findPcb_congr hr.pid hexit).trans h.found, h.low⟩

section

variable (h : Fit c p pid s)
include h

theorem Fit.unblockList (hq : q ≠ .ready) (hset : IsSet s.links q) : Returns (s.unblockList q) := by
  obtain ⟨L, hl⟩ := h.loose
  exact returns_unblockList hl.rep hq h.stocked.ready hset

/-- A loop that keeps what is needed, and each of whose rounds returns. -/
theorem Fit.foldlM {α : Type} {f : Kernel → α → Res} {l : List α} (hf : ∀ s a, Fit c p pid s → Returns (f s a))
    (hkeeps : ∀ s L a, Loose s L c → Post Minor (Keeps c s L) (f s a))
    (hkin : ∀ s a, Framed Nobody (Kin Nobody) c s (f s a)) : Post (fun _ => False) (Fit c p pid) (l.foldlM f s) := by
  refine .foldlM (fun s a _ h => ?_) h
  obtain ⟨L, hl⟩ := h.loose
  exact (hf s a h).and (h.keeps (hkeeps s L a hl) (hkin s a))

/-- The cleanup of one kind of object. -/
theorem Fit.cleanupRefs {K : Kind} (hK : Droppable c K)
    (hkin : ∀ s i, Framed Nobody (Kin Nobody) c s (dropRef K pid s i))
    (hdestruct : ∀ s i, Fit c p pid s → p ∈ K.ref s i → Returns (K.destruct (K.setRef s i ((K.ref s i).erase p)) i)) :
    Post (fun _ => False) (Fit c p pid) (cleanupRefs K pid s) := by
  refine h.foldlM (fun s i h => ?_) (fun s L i hl => post_dropRef hK hl h.low i) hkin
  unfold dropRef getPcbIndex
  rw [h.found]
  refine .ite (fun hin => ?_) fun _ => trivial
  exact .ite (fun _ => hdestruct s i h hin) fun _ => trivial

theorem Fit.cleanupMutexes : Post (fun _ => False) (Fit c p pid) (s.cleanupMutexes pid) := by
  have F := kin_frame (N := Nobody)
  have hrelease : ∀ s i, Fit c p pid s → s.mlock_ref i ≠ ∅ → Returns (s.mutexRelease i) := by
    intro s i h hi
    obtain ⟨L, hl⟩ := h.loose
    exact returns_unblockList (s := s.setMlock i { s.mlocks i with acquired := false }) hl.rep (by simp)
      h.stocked.ready (h.stocked.uses (.mutex i) hi)
  unfold Kernel.cleanupMutexes
  refine Post.bind (h.foldlM (fun s i h => ?_) (fun s L i hl => post_releaseHeld hl pid i) fun s i => ?_)
    fun s1 h1 => ?_
  · exact .ite (fun hi => hrelease s i h hi.1) fun _ => trivial
  · exact .ite (fun _ => F.mutexRelease away_nobody) fun _ => F.same away_nobody
  refine h1.cleanupRefs (droppable_mutexKind c) (fun s i => ?_) fun s i h hin => ?_
  · exact F.dropRef (fun _ _ _ h => F.setMlockRef h fun hr => .inl (ne_empty_of_erase hr))
      (fun _ _ h => F.mutexDestruct h) away_nobody
  · obtain ⟨L, hl⟩ := h.loose
    show Returns (mutexDestruct _ i)
    unfold Kernel.mutexDestruct
    rw [Returns, post_bind]
    refine Post.mono (returns_unblockList (q := .mutex i) hl.rep (by simp) h.stocked.ready ?_)
      fun _ _ => trivial
    exact h.stocked.uses (.mutex i) (ne_empty_of_mem hin)

theorem Fit.cleanupBarriers : Post (fun _ => False) (Fit c p pid) (s.cleanupBarriers pid) := by
  have F := kin_frame (N := Nobody)
  refine h.cleanupRefs (droppable_barrierKind c) (fun s i => ?_) fun s i h hin => ?_
  · exact F.dropRef (fun _ _ _ h => F.setBarrierRef h fun hr => .inl (ne_empty_of_erase hr))
      (fun _ _ h => F.unblockList h) away_nobody
  · obtain ⟨L, hl⟩ := h.loose
    exact returns_unblockList (q := .barrier i) hl.rep (by simp) h.stocked.ready
      (h.stocked.uses (.barrier i) (ne_empty_of_mem hin))

theorem Fit.cleanupConditions : Post (fun _ => False) (Fit c p pid) (s.cleanupConditions pid) := by
  have F := kin_frame (N := Nobody)
  refine h.cleanupRefs (droppable_condKind c) (fun s i => ?_) fun s i h hin => ?_
  · exact F.dropRef (fun _ _ _ h => F.setCondRef h fun hr => .inl (ne_empty_of_erase hr))
      (fun _ _ h => F.unblockList h) away_nobody
  · obtain ⟨L, hl⟩ := h.loose
    exact returns_unblockList (q := .cond i) hl.rep (by simp) h.stocked.ready
      (h.stocked.uses (.cond i) (ne_empty_of_mem hin))

theorem Fit.cleanupSemaphores : Post (fun _ => False) (Fit c p pid) (s.cleanupSemaphores pid) := by
  have F := kin_frame (N := Nobody)
  refine h.cleanupRefs (droppable_semaKind c) (fun s i => ?_) fun s i h hin => ?_
  · exact F.dropRef (fun _ _ _ h => F.setSemaRef h fun hr => .inl (ne_empty_of_erase hr))
      (fun _ _ h => F.semaphoreDestruct h) away_nobody
  · obtain ⟨L, hl⟩ := h.loose
    exact returns_unblockList (q := .sema i) hl.rep (by simp) h.stocked.ready
      (h.stocked.uses (.sema i) (ne_empty_of_mem hin))

theorem Fit.cleanupOthers (l : List ℕ) : Post (fun _ => False) (Fit c p pid) (s.cleanupOthers l) := by
  refine h.foldlM (fun s k h => h.unblockList (by simp) (h.stocked.other k))
    (fun s L k hl => post_unblockOther hl k) fun s k => ?_
  exact kin_frame.unblockList away_nobody

/-! ## Killing -/

end

/-- **`cleanup_proc` returns.** -/
theorem returns_cleanupProc (h : Trim s L R c) (hs : Stocked s) {i : Fin NUM_MAX_TASK}
    (hi : s.status (.user i) ≠ .exited) : Returns (s.cleanupProc drops (.user i)) := by
  have hlow := h.loose.tidy.user i hi
  have hfit : Fit c (.user i) (s.pcb (.user i)).pid s :=
    ⟨⟨L, h.loose⟩, hs, h.tree.findPcb_eq h.loose.tidy hi, hlow⟩
  have F := kin_frame (N := Nobody)
  unfold cleanupProc
  simp only [Returns, post_bind]
  refine (hfit.cleanupMutexes.and (F.cleanupMutexes (c := c) away_nobody)).mono ?_
  rintro s1 ⟨h1, k1⟩
  refine (h1.cleanupBarriers.and (F.cleanupBarriers (c := c) k1.away)).mono ?_
  rintro s2 ⟨h2, k2⟩
  refine (h2.cleanupConditions.and (F.cleanupConditions (c := c) k2.away)).mono ?_
  rintro s3 ⟨h3, k3⟩
  refine (h3.cleanupSemaphores.and (F.cleanupSemaphores (c := c) k3.away)).mono ?_
  rintro s4 ⟨h4, k4⟩
  refine ((h4.cleanupOthers _).and (F.cleanupOthers (c := c) k4.away)).mono ?_
  rintro s5 ⟨h5, k5⟩
  have hk : Kin Nobody s s5 := (((k1.kept.trans k2.kept).trans k3.kept).trans k4.kept).trans k5.kept
  obtain ⟨L5, hl5⟩ := h5.loose
  -- the process leaves its two lists
  obtain ⟨m, hm⟩ := hl5.rep.exists_destruct
  obtain ⟨r, hr⟩ := h.tree.rep.exists_destruct
  unfold listDestruct
  rw [hm]
  show Post _ _ (relationDestruct _ _)
  unfold relationDestruct
  rw [show (s5.setLinks m).relation = s.relation from hk.relation, hr, post_ok]
  -- those who wait for it are woken
  have hrep : Rep m (without L5 (.user i)) := by
    have := post_listDestruct (Q := fun s' => Rep s'.links (without L5 (.user i))) (p := .user i) hl5.rep
      fun m hm => hm
    unfold listDestruct at this
    rw [hm] at this
    exact this
  have hheads : KeepsHeads s5.links m := .destruct hm
  have hwait := hheads _ (h5.stocked.wait (.user i) (hk.alive _ hi))
  have hwake : Returns (({ s5.setLinks m with relation := r } : Kernel).unblockList (.wait (.user i))) :=
    returns_unblockList hrep (by simp) (hheads _ h5.stocked.ready) hwait
  refine (hwake.and (F.unblockList (c := c) away_nobody)).mono fun s8 k8 => ?_
  have hpid : (s8.pcb (.user i)).pid = (s.pcb (.user i)).pid := (k8.kept.pid _).trans (hk.pid _)
  unfold freePcb
  rw [if_neg (by rw [hpid]; exact not_lt.mpr hlow)]
  trivial

/-- How many live processes are younger. -/
def depthOf (s : Kernel) (x : Slot) : ℕ :=
  (Finset.univ.filter fun y => s.status y ≠ .exited ∧ (s.pcb x).pid < (s.pcb y).pid).card

theorem depthOf_lt_FUEL : s.depthOf x < FUEL := card_lt_FUEL

theorem Tree.depthOf_lt (h : Tree s R) (hc : Child s p x) : s.depthOf x < s.depthOf p := by
  have hlt := h.older p x hc
  refine card_lt_card (ssubset_iff_of_subset ?_ |>.mpr ⟨x, ?_, ?_⟩)
  · intro y hy
    simp only [mem_filter, mem_univ, true_and] at hy ⊢
    exact ⟨hy.1, hlt.trans hy.2⟩
  · simp [hc.1, hlt]
  · simp

/-- While processes fall, no subtree gets deeper. -/
theorem depthOf_le (hpid : ∀ p, (s'.pcb p).pid = (s.pcb p).pid)
    (hexit : ∀ y, s.status y = .exited → s'.status y = .exited) (x : Slot) : s'.depthOf x ≤ s.depthOf x := by
  refine card_le_card fun y hy => ?_
  simp only [mem_filter, mem_univ, true_and, hpid] at hy ⊢
  exact ⟨fun he => hy.1 (hexit y he), hy.2⟩

/-- The walk over the ancestors of the caller answers. -/
def Answers (s : Kernel) (c : Cpu) : Prop :=
  ∀ pid, ∃ b, s.isAncestor pid FUEL (some (s.current c)) = .ok b

theorem Answers.felled {D M : Slot → Prop} {L' : Lists} (h : Answers s c)
    (hf : Felled c D M s L R s' L') : Answers s' c := by
  intro pid
  rw [isAncestor_congr hf.parent hf.reaped.pid, hf.reaped.current]
  exact h pid

theorem returns_killFrom {kill : Kernel → ℤ → Res} {pre rest : List Slot} {n fuel : ℕ} (hspec : Fells c kill)
    (hkill : ∀ s L R, Trim s L R c → Stocked s → Answers s c → ∀ x, s.status x ≠ .exited →
      (∃ i, x = .user i) → s.depthOf x < n → Returns (kill s (s.pcb x).pid))
    (h : Trim s L R c) (hs : Stocked s) (ha : Answers s c) (hl : R t = pre ++ rest)
    (hn : ∀ x ∈ rest, s.depthOf x < n) (hfuel : rest.length < fuel) :
    Returns (killFrom kill t fuel (some (DList.first t rest)) s) := by
  induction fuel generalizing s L R pre rest with
  | zero => omega
  | succ fuel ih =>
    cases rest with
    | nil =>
      rw [DList.first, killFrom, if_pos rfl]
      trivial
    | cons x rest =>
      obtain ⟨hx, -⟩ := h.tree.apart_rest hl
      rw [Returns, DList.first, killFrom, h.tree.rep.node_next hl, post_bind]
      have hreturn := hkill s L R h hs ha x hx.1 (h.tree.child_user hx) (hn x List.mem_cons_self)
      refine (hreturn.and (hspec s L R h x hx.1 (h.tree.child_user hx))).mono ?_
      rintro s1 ⟨L1, h1⟩
      obtain ⟨htrim, ⟨pre1, hl1⟩, -⟩ := h1.rest h hl
      refine ih htrim (h1.stocked hs) (ha.felled h1) hl1
        (fun z hz => ?_) (by simpa using hfuel)
      have := depthOf_le h1.reaped.pid (fun y hy => (h1.reaped.exited y).mpr (.inl hy)) z
      have := hn z (List.mem_cons_of_mem _ hz)
      omega

/-- **`do_kill` returns.** -/
theorem returns_doKill {depth : ℕ} (h : Trim s L R c) (hs : Stocked s) (ha : Answers s c)
    (hx : s.status x ≠ .exited) (huser : ∃ i, x = .user i) (hdepth : s.depthOf x < depth) :
    Returns (doKill drops c depth s (s.pcb x).pid) := by
  induction depth generalizing s L R x with
  | zero => omega
  | succ depth ih =>
    obtain ⟨i, rfl⟩ := huser
    have hlow := h.loose.tidy.user i hx
    obtain ⟨b, hb⟩ := ha (s.pcb (.user i)).pid
    rw [doKill, if_neg (not_lt.mpr hlow), h.tree.findPcb_eq h.loose.tidy hx, hb]
    refine .ite (fun _ => trivial) fun _ => .ite (fun _ => trivial) fun hrun => ?_
    have hsub : Returns (s.killSubprocess (doKill drops c depth) (.user i)) := by
      unfold killSubprocess
      rw [h.tree.rep.head_next_of_isSet (hs.children _ hx)]
      refine returns_killFrom (n := depth) fells_doKill
        (fun s L R h hs ha x hx hu hd => ih h hs ha hx hu hd) h hs ha (List.nil_append (R (.user i))).symm (fun z hz => ?_) ?_
      · have := h.tree.depthOf_lt ((h.tree.mem _ z).mp hz)
        omega
      · exact length_lt_FUEL (h.tree.rep.nodup (.user i))
    refine (hsub.and (post_killSubprocess_felled fells_doKill h)).bind ?_
    rintro s1 ⟨L1, h1⟩
    have htrim := h1.trim h (by rintro ⟨z, -, hf⟩; exact hf.struck.1.ne_current rfl)
    refine returns_cleanupProc htrim (h1.stocked hs) fun he => ?_
    -- the process is not below one of its children
    rcases (h1.reaped.exited _).mp he with he | ⟨z, hz, hf⟩
    · exact hx he
    · have := h.tree.older _ _ hz
      have := h.tree.pid_le hf.under
      omega

end Kernel

end OsLab.Sched
