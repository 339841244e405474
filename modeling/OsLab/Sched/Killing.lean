import OsLab.Sched.Tree
/-!
# What a kill ends

`do_kill` ends a process after its children, so what it ends is a part of
the subtree (`Falls`): it goes no further where it is refused, and where a
process runs, which is only marked (`Marks`). This is exact in any state
with a tree, and in particular what other processors run may fall, if it has
been marked before.

The subtrees of two children are apart, so the loop over the children ends
each of them as if it were the first.
-/

namespace OsLab.Sched

open List

open DList (Rep IsSet Avoids KeepsHeads)
open Relation (ReflTransGen)

namespace Kernel

variable {N : Slot → Prop} {s s' s'' : Kernel} {L L' L'' : Lists} {R : Slot → List Slot} {c : Cpu}
  {p x y t : Slot} {next : Slot} {drops : Slot → List ℕ} {D D' M M' : Slot → Prop}

/-! ## Who falls -/

/-- `do_kill` by the processor's process does not refuse the process. -/
def Open (s : Kernel) (c : Cpu) (x : Slot) : Prop :=
  s.isAncestor (s.pcb x).pid FUEL (some (s.current c)) = .ok false

/-- `do_kill` by the processor's process ends the process. -/
def Struck (s : Kernel) (c : Cpu) (x : Slot) : Prop := Open s c x ∧ s.status x ≠ .running

/-- **What falls with `t`.** -/
inductive Falls (s : Kernel) (c : Cpu) (t : Slot) : Slot → Prop
  | self (h : Struck s c t) : Falls s c t t
  | child {p x : Slot} (h : Falls s c t p) (hc : Child s p x) (hx : Struck s c x) : Falls s c t x

/-- What is marked with `t`. -/
def Marks (s : Kernel) (c : Cpu) (t x : Slot) : Prop :=
  (x = t ∨ ∃ p, Falls s c t p ∧ Child s p x) ∧ Open s c x ∧ s.status x = .running

theorem Open.ne_current (h : Open s c x) : s.current c ≠ x := by
  rintro rfl
  unfold Open at h
  have hself : s.isAncestor (s.pcb (s.current c)).pid FUEL (some (s.current c)) = .ok true := if_pos rfl
  exact nomatch hself.symm.trans h

namespace Falls

theorem struck (h : Falls s c t x) : Struck s c x := by
  cases h with
  | self h => exact h
  | child _ _ hx => exact hx

theorem under (h : Falls s c t x) : Below s t x := by
  induction h with
  | self _ => exact .refl
  | child _ hc _ ih => exact ih.tail hc

theorem top (h : Falls s c t x) : Struck s c t := by
  induction h with
  | self h => exact h
  | child _ _ _ ih => exact ih

/-- What falls with a child falls with the process. -/
theorem of_child (ht : Struck s c t) (hc : Child s t x) (h : Falls s c x y) : Falls s c t y := by
  induction h with
  | self hx => exact .child (.self ht) hc hx
  | child _ hc' hy ih => exact .child ih hc' hy

theorem iff_child (ht : Struck s c t) : Falls s c t y ↔ y = t ∨ ∃ x, Child s t x ∧ Falls s c x y := by
  refine ⟨fun h => ?_, ?_⟩
  · induction h with
    | self _ => exact .inl rfl
    | child h hc hx ih =>
      rcases ih with rfl | ⟨x', hx', hf⟩
      · exact .inr ⟨_, hc, .self hx⟩
      · exact .inr ⟨x', hx', .child hf hc hx⟩
  · rintro (rfl | ⟨x, hx, hf⟩)
    · exact .self ht
    · exact hf.of_child ht hx

end Falls

theorem Marks.under (h : Marks s c t x) : Below s t x := by
  rcases h.1 with rfl | ⟨p, hf, hc⟩
  · exact .refl
  · exact hf.under.tail hc

theorem marks_iff_child (ht : Struck s c t) : Marks s c t y ↔ ∃ x, Child s t x ∧ Marks s c x y := by
  constructor
  · rintro ⟨rfl | ⟨p, hf, hc⟩, ho, hrun⟩
    · exact absurd hrun ht.2
    · rcases (Falls.iff_child ht).mp hf with rfl | ⟨x, hx, hfx⟩
      · exact ⟨y, hc, .inl rfl, ho, hrun⟩
      · exact ⟨x, hx, .inr ⟨p, hfx, hc⟩, ho, hrun⟩
  · rintro ⟨x, hx, rfl | ⟨p, hf, hc⟩, ho, hrun⟩
    · exact ⟨.inr ⟨t, .self ht, hx⟩, ho, hrun⟩
    · exact ⟨.inr ⟨p, hf.of_child ht hx, hc⟩, ho, hrun⟩

/-- **A subtree that a change has not touched** falls as before. -/
theorem falls_congr (hcur : s'.current = s.current)
    (hparent : ∀ p, (s'.pcb p).parent = (s.pcb p).parent) (hpid : ∀ p, (s'.pcb p).pid = (s.pcb p).pid)
    (hexit : ∀ y, s.status y = .exited → s'.status y = .exited)
    (hsame : ∀ y, Below s x y → (s'.status y = .exited ↔ s.status y = .exited) ∧
      (s'.status y = .running ↔ s.status y = .running)) (y : Slot) :
    (Falls s' c x y ↔ Falls s c x y) ∧ (Marks s' c x y ↔ Marks s c x y) := by
  have hopen : ∀ z, Open s' c z ↔ Open s c z := fun z => by
    unfold Open
    rw [isAncestor_congr hparent hpid, hpid, hcur]
  have hstruck : ∀ z, Below s x z → (Struck s' c z ↔ Struck s c z) := fun z hz => by
    unfold Struck
    rw [hopen, Ne, (hsame z hz).2]
  have hchild : ∀ p z, Child s' p z → Child s p z := fun p z hz =>
    ⟨fun he => hz.1 (hexit z he), (hparent z).symm.trans hz.2⟩
  have hchild' : ∀ p z, Below s x p → Child s p z → Child s' p z := fun p z hp hz =>
    ⟨fun he => hz.1 ((hsame z (hp.tail hz)).1.mp he), (hparent z).trans hz.2⟩
  have hfalls : ∀ y, Falls s' c x y ↔ Falls s c x y := by
    intro y
    constructor
    · intro h
      induction h with
      | self h => exact .self ((hstruck _ .refl).mp h)
      | child _ hc hx ih =>
        have hc' := hchild _ _ hc
        exact .child ih hc' ((hstruck _ (ih.under.tail hc')).mp hx)
    · intro h
      induction h with
      | self h => exact .self ((hstruck _ .refl).mpr h)
      | child hf hc hx ih => exact .child ih (hchild' _ _ hf.under hc) ((hstruck _ (hf.under.tail hc)).mpr hx)
  refine ⟨hfalls y, fun ⟨h, ho, hrun⟩ => ?_, fun hm => ⟨?_, (hopen y).mpr hm.2.1, ?_⟩⟩
  · have hy : y = x ∨ ∃ p, Falls s c x p ∧ Child s p y :=
      h.imp_right fun ⟨p, hf, hc⟩ => ⟨p, (hfalls p).mp hf, hchild p y hc⟩
    refine ⟨hy, (hopen y).mp ho, (hsame y ?_).2.mp hrun⟩
    rcases hy with rfl | ⟨p, hf, hc⟩
    · exact .refl
    · exact hf.under.tail hc
  · exact hm.1.imp_right fun ⟨p, hf, hc⟩ => ⟨p, (hfalls p).mpr hf, hchild' p y hf.under hc⟩
  · exact (hsame y hm.under).2.mpr hm.2.2

/-! ## What is left -/

open Classical in
/-- The child lists without the processes of `D`. -/
noncomputable def prune (R : Slot → List Slot) (D : Slot → Prop) : Slot → List Slot :=
  fun p => (R p).filter fun x => ¬ D x

theorem mem_prune : x ∈ prune R D p ↔ x ∈ R p ∧ ¬ D x := by
  unfold prune
  simp

theorem prune_of_not (hD : ∀ x ∈ R p, ¬ D x) : prune R D p = R p := by
  unfold prune
  exact filter_eq_self.mpr fun x hx => by simpa using hD x hx

theorem prune_append {l₁ l2 : List Slot} (hl : R p = l₁ ++ l2) (hD : ∀ x ∈ l2, ¬ D x) :
    ∃ l1', prune R D p = l1' ++ l2 := by
  classical
  refine ⟨l₁.filter fun x => ¬ D x, ?_⟩
  unfold prune
  rw [hl, filter_append]
  rw [filter_eq_self.mpr fun x (hx : x ∈ l2) => by simpa using hD x hx]

theorem prune_prune : prune (prune R D) D' = prune R fun x => D x ∨ D' x := by
  funext p
  unfold prune
  rw [filter_filter]
  refine filter_congr fun x _ => ?_
  by_cases hD : D x <;> by_cases hD' : D' x <;> simp [hD, hD']

/-- **`D` have ended and `M` have been marked**, besides what `Reaped` says. -/
structure Felled (c : Cpu) (D M : Slot → Prop) (s : Kernel) (L : Lists) (R : Slot → List Slot)
    (s' : Kernel) (L' : Lists) : Prop where
  reaped : Reaped c D s L s' L'
  tree : Tree s' (prune R D)
  parent : ∀ p, (s'.pcb p).parent = (s.pcb p).parent
  process_id : s'.process_id = s.process_id
  killed : ∀ x, s'.status x = .killed ↔ s.status x = .killed ∧ ¬ D x ∨ M x
  running : ∀ x, s'.status x = .running ↔ s.status x = .running ∧ ¬ D x ∧ ¬ M x
  stocked : Stocked s → Stocked s'

/-- The state while `do_kill` runs. -/
structure Trim (s : Kernel) (L : Lists) (R : Slot → List Slot) (c : Cpu) : Prop where
  loose : Loose s L c
  own : Active s L (s.current c)
  tree : Tree s R

namespace Felled

theorem congr (h : Felled c D M s L R s' L') (hD : ∀ x, D x ↔ D' x) (hM : ∀ x, M x ↔ M' x) :
    Felled c D' M' s L R s' L' := by
  obtain rfl : D = D' := funext fun x => propext (hD x)
  obtain rfl : M = M' := funext fun x => propext (hM x)
  exact h

theorem refl (h : Trim s L R c) : Felled c Nobody Nobody s L R s L where
  reaped := .refl h.loose
  tree := by
    rw [show prune R Nobody = R from funext fun p => prune_of_not fun _ _ => id]
    exact h.tree
  parent _ := rfl
  process_id := rfl
  killed x := by simp [Nobody]
  running x := by simp [Nobody]
  stocked := id

theorem trans (h : Felled c D M s L R s' L') (h' : Felled c D' M' s' L' (prune R D) s'' L'')
    (hM : ∀ x, M x → ¬ D' x) : Felled c (fun x => D x ∨ D' x) (fun x => M x ∨ M' x) s L R s'' L'' where
  reaped := h.reaped.trans h'.reaped
  tree := prune_prune ▸ h'.tree
  parent p := (h'.parent p).trans (h.parent p)
  process_id := h'.process_id.trans h.process_id
  killed x := by
    have := hM x
    rw [h'.killed, h.killed]
    tauto
  running x := by
    rw [h'.running, h.running]
    tauto
  stocked hs := h'.stocked (h.stocked hs)

theorem trim (h : Felled c D M s L R s' L') (ht : Trim s L R c) (hD : ¬ D (s.current c)) :
    Trim s' L' (prune R D) c where
  loose := h.reaped.loose
  own := by
    rw [h.reaped.current]
    exact h.reaped.active _ ht.own hD
  tree := h.tree

/-- A running process is marked. -/
theorem mark (h : Trim s L R c) (hrun : s.status t = .running) :
    Felled c Nobody (· = t) s L R (s.setStatus t .killed) L := by
  have hr := Reaped.mark h.loose hrun
  have hpcb := pcb_setStatus s t .killed
  have hexit : ∀ p, (s.setStatus t .killed).status p = .exited ↔ s.status p = .exited := fun p =>
    (hr.exited p).trans (or_iff_left id)
  have hst : ∀ x, (s.setStatus t .killed).status x = if x = t then .killed else s.status x := by
    intro x
    by_cases hx : x = t
    · rw [hx, status_setStatus_self, if_pos rfl]
    · rw [status_setStatus_ne _ hx, if_neg hx]
  refine ⟨hr, ?_, fun p => by rw [hpcb], rfl, fun x => ?_, fun x => ?_, fun hs => ?_⟩
  · rw [show prune R Nobody = R from funext fun p => prune_of_not fun _ _ => id]
    exact h.tree.congr rfl (fun p => by rw [hpcb]) (fun p => by rw [hpcb]) rfl hexit
  · rw [hst]
    by_cases hx : x = t
    · simp [hx]
    · simp [hx, Nobody]
  · rw [hst]
    by_cases hx : x = t
    · simp [hx]
    · simp [hx, Nobody]
  · exact ⟨hs.ready, hs.other, fun p hp => hs.wait p fun he => hp ((hexit p).mpr he), hs.uses,
      fun p hp => hs.children p fun he => hp ((hexit p).mpr he)⟩

end Felled

/-! ## The end of one process -/

/-- What `cleanup_proc` does besides what `Reaped` says. -/
structure Cut (N : Slot → Prop) (p : Slot) (s s' : Kernel) : Prop where
  relation : DList.destruct s.relation p = some s'.relation
  parent : ∀ x, (s'.pcb x).parent = (s.pcb x).parent
  process_id : s'.process_id = s.process_id
  still : ∀ x ≠ p, N x → s'.status x = s.status x
  heads : KeepsHeads s.links s'.links
  uses : ∀ q, Uses s'.toObjects q → Uses s.toObjects q ∨ IsSet s'.links q

theorem post_cleanupProc_cut (h : Away N s) : Yields (Cut N p s) (s.cleanupProc drops p) := by
  have F := kin_frame (N := N)
  unfold cleanupProc
  simp only [post_bind]
  refine (F.cleanupMutexes (c := 0) h).mono fun s1 h1 => ?_
  refine (F.cleanupBarriers (c := 0) h1.away).mono fun s2 h2 => ?_
  refine (F.cleanupConditions (c := 0) h2.away).mono fun s3 h3 => ?_
  refine (F.cleanupSemaphores (c := 0) h3.away).mono fun s4 h4 => ?_
  refine (F.cleanupOthers (c := 0) h4.away).mono fun s5 h5 => ?_
  refine (F.listDestruct (c := 0) h5.away).mono fun s6 h6 => ?_
  have hk : Kin N s s6 := ((((h1.kept.trans h2.kept).trans h3.kept).trans h4.kept).trans h5.kept).trans h6.kept
  unfold relationDestruct
  rw [hk.relation]
  cases hm : DList.destruct s.relation p with
  | none => trivial
  | some m =>
    refine (F.unblockList (c := 0) (s := { s6 with relation := m }) h6.away).mono fun s8 h8 => ?_
    have hk8 := h8.kept
    refine .ite (fun _ => trivial) fun _ => ⟨?_, fun x => ?_, ?_, fun x hx hN => ?_, ?_, fun q hq => ?_⟩
    · show _ = some s8.relation
      rw [hk8.relation]
      exact hm
    · have hset : ((s8.setStatus p .exited).pcb x).parent = (s8.pcb x).parent := by rw [pcb_setStatus]
      exact hset.trans ((hk8.parent x).trans (hk.parent x))
    · exact hk8.process_id.trans hk.process_id
    · exact (status_setStatus_ne _ hx).trans ((hk8.still x hN).trans (hk.still x hN))
    · exact hk.heads.trans hk8.heads
    · rcases hk8.uses q hq with hu | hset
      · exact (hk.uses q hu).imp_right (hk8.heads q)
      · exact .inr hset

/-- **`cleanup_proc`.** -/
theorem post_cleanupProc_felled (h : Trim s L R c) (hpid : (NR_CPUS : ℤ) ≤ (s.pcb p).pid) :
    Post Minor (fun s' => ∃ L', Felled c (· = p) Nobody s L R s' L') (s.cleanupProc drops p) := by
  have haway : Away (fun x => ∀ q, x ∉ L q) s := fun x hx => h.loose.rep.avoids hx
  refine ((post_cleanupProc h.loose hpid).and (post_cleanupProc_cut haway)).mono
    fun s' ⟨⟨L', hr⟩, hcut⟩ => ⟨L', ?_⟩
  have hexit : ∀ x ≠ p, (s'.status x = .exited ↔ s.status x = .exited) := fun x hx =>
    (hr.exited x).trans (or_iff_left hx)
  have hexitp : s'.status p = .exited := (hr.exited p).mpr (.inr rfl)
  -- a process on a list is run by nobody, and stays so
  have hlisted : ∀ x ≠ p, ¬ (∀ q, x ∉ L q) → ∀ st, st = .killed ∨ st = .running →
      s'.status x ≠ st ∧ s.status x ≠ st := by
    intro x hx hin st hst
    obtain ⟨q, hq⟩ := not_forall_not.mp hin
    have hcur : ∀ c', s.current c' ≠ x := by
      rintro c' rfl
      by_cases hc : c' = c
      · exact h.own.2 q (hc ▸ hq)
      · rcases h.loose.others c' hc with ha | hg
        · exact ha.2 q hq
        · exact hg.2 q hq
    have hidle : Idle s' L' x := hr.loose.idle x (by rw [hr.current]; exact hcur)
    have hold := h.loose.status_of_mem hq
    have hnew : s'.status x = .ready ∨ s'.status x = .blocked ∨ s'.status x = .exited := by
      rcases hidle with ⟨q', -, ⟨hs, -⟩ | hs⟩ | ⟨hs, -⟩
      · exact .inl hs
      · exact .inr (.inl hs)
      · exact .inr (.inr hs)
    rcases hst with rfl | rfl
    · exact ⟨by rcases hnew with he | he | he <;> simp [he], by rcases hold with he | he <;> simp [he]⟩
    · exact ⟨by rcases hnew with he | he | he <;> simp [he], by rcases hold with he | he <;> simp [he]⟩
  have hkeep : ∀ x st, st = .killed ∨ st = .running → (s'.status x = st ↔ s.status x = st ∧ ¬ x = p) := by
    intro x st hst
    by_cases hx : x = p
    · rw [hx, hexitp]
      refine ⟨fun he => ?_, fun he => absurd rfl he.2⟩
      rcases hst with rfl | rfl <;> exact nomatch he
    · refine Iff.trans ?_ (and_iff_left hx).symm
      by_cases hN : ∀ q, x ∉ L q
      · rw [hcut.still x hx hN]
      · have := hlisted x hx hN st hst
        exact ⟨fun he => absurd he this.1, fun he => absurd he this.2⟩
  refine ⟨hr, ?_, hcut.parent, hcut.process_id, fun x => ?_, fun x => ?_, fun hs => ?_⟩
  · have hchild : ∀ q x, Child s' q x ↔ Child s q x ∧ x ≠ p := by
      intro q x
      unfold Child
      rw [hcut.parent]
      by_cases hx : x = p
      · simp [hx, hexitp]
      · simp [hx, hexit x hx]
    have hlive : ∀ x, s'.status x ≠ .exited → s.status x ≠ .exited := fun x hx he =>
      hx ((hr.exited x).mpr (.inl he))
    refine ⟨?_, fun q x => ?_, fun c' => ?_, fun i hi => ?_, fun q x hx => ?_, fun x y hx hy hxy => ?_,
      fun x => ?_⟩
    · -- `p` has left the list of its parent, if it had one
      have herase : prune R (· = p) = fun q => (R q).erase p := by
        funext q
        rw [(h.tree.rep.nodup q).erase_eq_filter]
        unfold prune
        refine filter_congr fun x _ => ?_
        by_cases hx : x = p <;> simp [hx]
      rw [herase]
      by_cases hin : ∃ q, p ∈ R q
      · obtain ⟨q, hq⟩ := hin
        have hrep := h.tree.rep.destruct_mem hq hcut.relation
        refine (funext fun q' => ?_ : (fun q => (R q).erase p) = upd R q ((R q).erase p)) ▸ hrep
        by_cases hqq : q' = q
        · rw [hqq, upd_self]
        · rw [upd_of_ne hqq]
          exact erase_of_not_mem fun hin => hqq (h.tree.rep.disjoint _ _ _ hin hq)
      · have hfree : ∀ q, p ∉ R q := fun q hq => hin ⟨q, hq⟩
        have hsame := h.tree.rep.destruct_free hfree
        rw [hcut.relation] at hsame
        rw [Option.some.inj hsame, funext fun q => erase_of_not_mem (hfree q)]
        exact h.tree.rep
    · rw [mem_prune, h.tree.mem, hchild]
    · rw [hcut.parent]
      exact h.tree.kernel c'
    · rw [hcut.parent]
      exact h.tree.user i (hlive _ hi)
    · rw [hr.pid, hr.pid]
      exact h.tree.older q x ((hchild q x).mp hx).1
    · rw [hr.pid, hr.pid] at hxy
      exact h.tree.inj x y (hlive x hx) (hlive y hy) hxy
    · rw [hr.pid, hcut.process_id]
      exact h.tree.fresh x
  · rw [hkeep x .killed (.inl rfl)]
    exact (or_iff_left id).symm
  · rw [hkeep x .running (.inr rfl)]
    exact and_congr_right fun _ => (and_iff_left id).symm
  · have hlive : ∀ x, s'.status x ≠ .exited → s.status x ≠ .exited := fun x hx he =>
      hx ((hr.exited x).mpr (.inl he))
    refine ⟨hcut.heads _ hs.ready, fun k => hcut.heads _ (hs.other k),
      fun x hx => hcut.heads _ (hs.wait x (hlive x hx)), fun q hq => ?_, fun x hx => ?_⟩
    · exact (hcut.uses q hq).elim (fun hu => hcut.heads q (hs.uses q hu)) id
    · exact (KeepsHeads.destruct hcut.relation) _ (hs.children x (hlive x hx))

/-! ## Killing -/

theorem Tree.child_user (h : Tree s R) (hc : Child s p x) : ∃ i, x = .user i := by
  cases x with
  | kernel c => exact nomatch (h.kernel c).symm.trans hc.2
  | user i => exact ⟨i, rfl⟩

/-- A live process is found by its pid. -/
theorem Tree.findPcb_eq (h : Tree s R) (ht : Tidy s L) {i : Fin NUM_MAX_TASK}
    (hi : s.status (.user i) ≠ .exited) : s.findPcb (s.pcb (.user i)).pid = some (.user i) := by
  have hlow := ht.user i hi
  unfold findPcb
  rw [if_neg (by omega), dif_neg (by omega)]
  cases hf : (List.finRange NUM_MAX_TASK).find? fun j =>
      decide ((s.pcb (.user j)).pid = (s.pcb (.user i)).pid ∧ s.status (.user j) ≠ .exited) with
  | none =>
    have := List.find?_eq_none.mp hf i (mem_finRange i)
    simp [hi] at this
  | some j =>
    have hj := List.find?_some hf
    rw [decide_eq_true_eq] at hj
    rw [Option.map_some, h.inj _ _ hj.2 hi hj.1]

/-- The subtrees of the children that follow are apart from that of the first. -/
theorem Tree.apart_rest {pre rest : List Slot} (h : Tree s R) (hl : R t = pre ++ x :: rest) :
    Child s t x ∧ ∀ z ∈ rest, ∀ y, Below s x y → ¬ Below s z y := by
  have hchild : ∀ z ∈ x :: rest, Child s t z := fun z hz =>
    (h.mem t z).mp (by rw [hl]; exact mem_append_right _ hz)
  have hx := hchild x mem_cons_self
  have hnodup := h.rep.nodup t
  rw [hl, nodup_append] at hnodup
  refine ⟨hx, fun z hz y => h.apart hx (hchild z (mem_cons_of_mem _ hz)) ?_⟩
  rintro rfl
  exact (nodup_cons.mp hnodup.2.1).1 hz

/-- **Once a child is killed, the children that follow are as before.** -/
theorem Felled.rest {pre rest : List Slot} (h : Trim s L R c) (hl : R t = pre ++ x :: rest)
    (h' : Felled c (Falls s c x) (Marks s c x) s L R s' L') :
    Trim s' L' (prune R (Falls s c x)) c ∧ (∃ pre', prune R (Falls s c x) t = pre' ++ rest) ∧
      ∀ z ∈ rest, ∀ y, (Falls s' c z y ↔ Falls s c z y) ∧ (Marks s' c z y ↔ Marks s c z y) := by
  have hapart := (h.tree.apart_rest hl).2
  refine ⟨h'.trim h fun hf => hf.struck.1.ne_current rfl, ?_, fun z hz => ?_⟩
  · refine prune_append (show R t = (pre ++ [x]) ++ rest by simpa using hl) fun z hz hf => ?_
    exact hapart z hz z hf.under .refl
  · refine falls_congr h'.reaped.current h'.parent h'.reaped.pid
      (fun y hy => (h'.reaped.exited y).mpr (.inl hy)) fun y hy => ⟨?_, ?_⟩
    · exact (h'.reaped.exited y).trans (or_iff_left fun hf => hapart z hz y hf.under hy)
    · exact (h'.running y).trans (and_iff_left ⟨fun hf => hapart z hz y hf.under hy,
        fun hm => hapart z hz y hm.under hy⟩)

/-- A kill of a live process does what it is to do. -/
def Fells (c : Cpu) (kill : Kernel → ℤ → Res) : Prop :=
  ∀ s L R, Trim s L R c → ∀ x, s.status x ≠ .exited → (∃ i, x = .user i) →
    Post Minor (fun s' => ∃ L', Felled c (Falls s c x) (Marks s c x) s L R s' L') (kill s (s.pcb x).pid)

variable {kill : Kernel → ℤ → Res}

/-- **The loop over the children.** What is left of the list is `rest`. -/
theorem post_killFrom_felled {pre rest : List Slot} {fuel : ℕ}
    (hkill : Fells c kill) (h : Trim s L R c) (hl : R t = pre ++ rest) :
    Post Minor (fun s' => ∃ L', Felled c (fun y => ∃ x ∈ rest, Falls s c x y)
      (fun y => ∃ x ∈ rest, Marks s c x y) s L R s' L')
      (killFrom kill t fuel (some (DList.first t rest)) s) := by
  induction fuel generalizing s L R pre rest with
  | zero =>
    cases rest with
    | nil =>
      rw [DList.first, killFrom, if_pos rfl]
      exact ⟨L, (Felled.refl h).congr (by simp [Nobody]) (by simp [Nobody])⟩
    | cons x rest => trivial
  | succ fuel ih =>
    cases rest with
    | nil =>
      rw [DList.first, killFrom, if_pos rfl]
      exact ⟨L, (Felled.refl h).congr (by simp [Nobody]) (by simp [Nobody])⟩
    | cons x rest =>
      obtain ⟨hx, hapart⟩ := h.tree.apart_rest hl
      rw [DList.first, killFrom, h.tree.rep.node_next hl, post_bind]
      refine (hkill s L R h x hx.1 (h.tree.child_user hx)).mono ?_
      rintro s1 ⟨L1, h1⟩
      obtain ⟨htrim, ⟨pre1, hl1⟩, hsame⟩ := h1.rest h hl
      refine (ih htrim hl1).mono ?_
      rintro s2 ⟨L2, h2⟩
      refine ⟨L2, (h1.trans h2 ?_).congr (fun y => ?_) fun y => ?_⟩
      · rintro y hm ⟨z, hz, hf⟩
        exact hapart z hz y hm.under ((hsame z hz y).1.mp hf).under
      · rw [exists_mem_cons_iff]
        exact or_congr_right (exists_congr fun z => and_congr_right fun hz => (hsame z hz y).1)
      · rw [exists_mem_cons_iff]
        exact or_congr_right (exists_congr fun z => and_congr_right fun hz => (hsame z hz y).2)

/-- `kill_subprocess`. -/
theorem post_killSubprocess_felled (hkill : Fells c kill) (h : Trim s L R c) :
    Post Minor (fun s' => ∃ L', Felled c (fun y => ∃ x, Child s t x ∧ Falls s c x y)
      (fun y => ∃ x, Child s t x ∧ Marks s c x y) s L R s' L') (s.killSubprocess kill t) := by
  unfold killSubprocess
  cases hset : (s.relation (.head t)).next with
  | none => trivial
  | some link =>
    rw [← hset, h.tree.rep.head_next (by rw [hset]; exact Option.some_ne_none _)]
    refine (post_killFrom_felled hkill h (nil_append (R t)).symm).mono fun s' ⟨L', h'⟩ => ⟨L', ?_⟩
    exact h'.congr (fun y => by simp only [h.tree.mem]) fun y => by simp only [h.tree.mem]

/-- **`do_kill`** ends what falls, and marks what runs. -/
theorem fells_doKill {depth : ℕ} : Fells c (doKill drops c depth) := by
  induction depth with
  | zero => exact fun _ _ _ _ _ _ _ => trivial
  | succ depth ih =>
    rintro s L R h _ hx ⟨i, rfl⟩
    have hlow := h.loose.tidy.user i hx
    rw [doKill, if_neg (not_lt.mpr hlow), h.tree.findPcb_eq h.loose.tidy hx, post_bind]
    cases hb : s.isAncestor (s.pcb (.user i)).pid FUEL (some (s.current c)) with
    | error e => exact (post_isAncestor_any (E := Minor) trivial _ _ _).of_error hb
    | ok b =>
      cases b with
      | true =>
        -- it is refused, and nothing falls
        have hclosed : ¬ Open s c (.user i) := fun ho => by cases hb.symm.trans ho
        refine ⟨L, (Felled.refl h).congr (fun y => ?_) fun y => ?_⟩
        · exact iff_of_false id fun hf => hclosed hf.top.1
        · refine iff_of_false id fun hm => ?_
          rcases hm.1 with rfl | ⟨p, hf, -⟩
          · exact hclosed hm.2.1
          · exact hclosed hf.top.1
      | false =>
        refine .ite (by simp) fun _ => .ite (fun hrun => ⟨L, (Felled.mark h hrun).congr (fun y => ?_) fun y => ?_⟩) fun hrun => ?_
        · exact iff_of_false id fun hf => hf.top.2 hrun
        · refine ⟨fun he => ⟨.inl he, ?_, ?_⟩, fun hm => ?_⟩
          · rw [he]
            exact hb
          · rw [he]
            exact hrun
          · rcases hm.1 with he | ⟨p, hf, -⟩
            · exact he
            · exact absurd hrun hf.top.2
        · have ht : Struck s c (.user i) := ⟨hb, hrun⟩
          refine (post_killSubprocess_felled ih h).bind ?_
          rintro s1 ⟨L1, h1⟩
          -- the process itself is not below a child
          have hself : ∀ z, Child s (.user i) z → ¬ Below s z (.user i) := fun z hz hb => by
            have := h.tree.older _ _ hz
            have := h.tree.pid_le hb
            omega
          have htrim := h1.trim h (by rintro ⟨z, -, hf⟩; exact hf.struck.1.ne_current rfl)
          refine (post_cleanupProc_felled htrim (by rw [h1.reaped.pid]; exact hlow)).mono ?_
          rintro s2 ⟨L2, h2⟩
          refine ⟨L2, (h1.trans h2 ?_).congr (fun y => ?_) fun y => ?_⟩
          · rintro y ⟨z, hz, hm⟩ hy
            exact hself z hz (hy ▸ hm.under)
          · rw [Falls.iff_child ht]
            exact or_comm
          · rw [marks_iff_child ht]
            exact or_iff_left id

theorem Core.trim (h : Core s L) (ht : Tree s R) : Trim s L R c := ⟨(h.busy c).loose, h.active c, ht⟩

/-- **A kill by pid.** There is no such process, or it is killed. -/
theorem post_kill_felled (h : Trim s L R c) {pid : ℤ} :
    Post Minor (fun s' => s' = s ∧ (∀ i, s.status (.user i) ≠ .exited → (s.pcb (.user i)).pid ≠ pid) ∨
      ∃ i L', s.status (.user i) ≠ .exited ∧ (s.pcb (.user i)).pid = pid ∧
        Felled c (Falls s c (.user i)) (Marks s c (.user i)) s L R s' L')
      (doKill drops c FUEL s pid) := by
  by_cases hx : ∃ i, s.status (.user i) ≠ .exited ∧ (s.pcb (.user i)).pid = pid
  · obtain ⟨i, hi, rfl⟩ := hx
    exact (fells_doKill s L R h _ hi ⟨i, rfl⟩).mono fun s' ⟨L', h'⟩ => .inr ⟨i, L', hi, rfl, h'⟩
  · have hno : ∀ i, s.status (.user i) ≠ .exited → (s.pcb (.user i)).pid ≠ pid := fun i hi hp => hx ⟨i, hi, hp⟩
    show Post Minor _ (doKill drops c (NUM_MAX_TASK + NR_CPUS + 1) s pid)
    rw [doKill]
    refine .ite (fun _ => .inl ⟨rfl, hno⟩) fun hlow => ?_
    refine (post_isAncestor_any trivial _ _ _).bind fun b _ => .ite (fun _ => .inl ⟨rfl, hno⟩) fun _ => ?_
    cases hf : s.findPcb pid with
    | none => exact .inl ⟨rfl, hno⟩
    | some p =>
      rcases findPcb_spec hf with ⟨c', -, hc⟩ | ⟨i, rfl, hp, hst⟩
      · have := c'.isLt
        omega
      · exact absurd hp (hno i hst)

/-! ## Exit -/

/-- What ends with the process of a processor. -/
def Exits (s : Kernel) (c : Cpu) (y : Slot) : Prop :=
  y = s.current c ∨ ∃ x, Child s (s.current c) x ∧ Falls s c x y

/-- What is marked then. -/
def ExitMarks (s : Kernel) (c : Cpu) (y : Slot) : Prop :=
  ∃ x, Child s (s.current c) x ∧ Marks s c x y

/-- **`do_exit`** ends the process and what falls with its children. -/
theorem post_doExit_felled (h : Trim s L R c) (hs : Stocked s) :
    Post Minor (fun s' => ∃ s2 L2 L', Felled c (Exits s c) (ExitMarks s c) s L R s2 L2 ∧
      Switched s2 L2 c .user next s' L' ∧ Tree s' (prune R (Exits s c)) ∧ Stocked s')
      (s.doExit drops c next) := by
  unfold doExit
  refine .ite (fun _ => trivial) fun hlow => ?_
  refine (post_killSubprocess_felled fells_doKill h).bind
    fun s1 ⟨L1, h1⟩ => ?_
  have hself : ∀ x, Child s (s.current c) x → ¬ Below s x (s.current c) := fun x hx hb => by
    have := h.tree.older _ _ hx
    have := h.tree.pid_le hb
    omega
  have htrim := h1.trim h fun ⟨x, _, hf⟩ => hf.struck.1.ne_current rfl
  refine (post_cleanupProc_felled htrim ?_).bind fun s2 ⟨L2, h2⟩ => ?_
  · rw [h1.reaped.pid, h1.reaped.current]
    exact not_lt.mp hlow
  have h3 : Felled c (Exits s c) (ExitMarks s c) s L R s2 L2 := by
    refine (h1.trans h2 fun y ⟨x, hx, hm⟩ hy => ?_).congr (fun y => ?_) fun y => or_iff_left id
    · rw [hy, h1.reaped.current] at hm
      exact hself x hx hm.under
    · rw [h1.reaped.current]
      exact or_comm
  have hexit : s2.status (s2.current c) = .exited := by
    rw [h3.reaped.current]
    exact (h3.reaped.exited _).mpr (.inr (.inl rfl))
  -- the lists give who is switched to, the frame what the switch leaves alone
  refine Post.mono (Post.and (post_doScheduler (Q := fun s' => ∃ L', Switched s2 L2 c .user next s' L')
    h3.reaped.loose.rep (fun hrun => nomatch hexit.symm.trans hrun) fun s' L' hsw => ⟨L', hsw⟩)
    ((kin_frame (N := Unlisted L2 (s2.current c))).doScheduler (away_unlisted h3.reaped.loose.rep)
      fun hn => hn.1 rfl))
    fun s' ⟨⟨L', hsw⟩, hk⟩ => ⟨s2, L2, L', h3, hsw, ?_, ?_⟩
  · exact h3.tree.kin hk.kept (hsw.exited h3.reaped.loose)
  · exact (h3.stocked hs).kin hk.kept (hsw.exited h3.reaped.loose)

end Kernel

end OsLab.Sched
