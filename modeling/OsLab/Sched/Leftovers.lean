import OsLab.Sched.Teardown
/-!
# Nothing is left behind

What processes refer to and hold, over whole runs of the kernel with the
mailboxes and pipes. Whoever has ended holds no mutex and refers to nothing,
and an object all of whose users have ended is free (`Reclaimed`), as long as
three kinds of step are kept out (`Orderly`): those that are not `Careful`,
the end of a process that holds a mutex to which nobody refers, and the end of
the last user of a semaphore.
-/

namespace OsLab.Sched

open Kernel Finset List

/-! ## The two tables at the end of a process -/

/-- A pipe in use counts the processes that refer to it. -/
def PipeEntry.Whole (e : PipeEntry) : Prop :=
  if e.used then e.refcnt = e.ref_bitmap.card ∧ e.ref_bitmap ≠ ∅ else e.ref_bitmap = ∅

namespace Tables

variable {t : Tables} {r : Teardown} {l : List Teardown} {p x : Slot} {e : PipeEntry}

theorem mem_dropPipe (h : e.Whole) : x ∈ (dropPipe p e).ref_bitmap ↔ x ∈ e.ref_bitmap ∧ x ≠ p := by
  unfold PipeEntry.Whole at h
  unfold dropPipe
  by_cases hp : e.used ∧ p ∈ e.ref_bitmap
  · rw [if_pos hp.1] at h
    rw [if_pos hp, and_comm, ← mem_erase]
    by_cases hlast : e.refcnt - 1 = 0
    · have hcard := card_erase_of_mem hp.2
      have hnil : e.ref_bitmap.erase p = ∅ := card_eq_zero.mp (by omega)
      rw [if_pos hlast, hnil]
    · rw [if_neg hlast]
  · rw [if_neg hp]
    refine (and_iff_left_of_imp fun hx he => ?_).symm
    by_cases hu : e.used
    · exact hp ⟨hu, he ▸ hx⟩
    · rw [if_neg hu] at h
      rw [h] at hx
      exact notMem_empty x hx

theorem whole_dropPipe (h : e.Whole) : (dropPipe p e).Whole := by
  by_cases hp : e.used ∧ p ∈ e.ref_bitmap
  · have hw := h
    unfold PipeEntry.Whole at hw
    rw [if_pos hp.1] at hw
    unfold dropPipe
    rw [if_pos hp]
    by_cases hlast : e.refcnt - 1 = 0
    · rw [if_pos hlast]
      rfl
    · have hcard := card_erase_of_mem hp.2
      rw [if_neg hlast]
      unfold PipeEntry.Whole
      rw [if_pos hp.1]
      refine ⟨by simp only; omega, fun he => ?_⟩
      simp only at he
      rw [he, card_empty] at hcard
      omega
  · unfold dropPipe
    rwa [if_neg hp]

/-- What the calls of `cleanup_proc` in a log do to the two tables. -/
theorem whole_cleanups (h : ∀ i, (t.pipes i).Whole) (i : Fin PIPE_MAX_COUNT) :
    ((l.foldl cleanup t).pipes i).Whole := by
  induction l generalizing t with
  | nil => exact h i
  | cons r l ih => exact ih fun i => whole_dropPipe (h i)

theorem mem_mbox_cleanups {i : Fin MBOX_NUM} :
    x ∈ (l.foldl cleanup t).mbox_ref i ↔ x ∈ t.mbox_ref i ∧ ¬ TornDown l x := by
  induction l generalizing t with
  | nil => exact (and_iff_left not_mem_nil).symm
  | cons r l ih =>
    have hone : x ∈ (t.cleanup r).mbox_ref i ↔ x ≠ r.slot ∧ x ∈ t.mbox_ref i := mem_erase
    rw [foldl_cons, ih, hone, ← singleton_append, tornDown_append, tornDown_singleton]
    tauto

theorem mem_pipe_cleanups (h : ∀ i, (t.pipes i).Whole) {i : Fin PIPE_MAX_COUNT} :
    x ∈ ((l.foldl cleanup t).pipes i).ref_bitmap ↔ x ∈ (t.pipes i).ref_bitmap ∧ ¬ TornDown l x := by
  induction l generalizing t with
  | nil => exact (and_iff_left not_mem_nil).symm
  | cons r l ih =>
    have hone : x ∈ ((t.cleanup r).pipes i).ref_bitmap ↔ x ∈ (t.pipes i).ref_bitmap ∧ x ≠ r.slot :=
      mem_dropPipe (h i)
    rw [foldl_cons, ih fun i => whole_dropPipe (h i), hone, ← singleton_append, tornDown_append,
      tornDown_singleton]
    tauto

/-! ## The calls -/

theorem doMboxOpen_spec {t' : Tables} {name : Name} (h : t.doMboxOpen p name = .ok t') :
    ∃ i, t.mboxFor name = some i ∧ t'.mbox_ref i = insert p (t.mbox_ref i) ∧
      (∀ j ≠ i, t'.mbox_ref j = t.mbox_ref j) ∧ t'.pipes = t.pipes := by
  unfold doMboxOpen at h
  cases hf : t.mboxFor name with
  | none =>
    rw [hf] at h
    exact nomatch h
  | some i =>
    rw [hf] at h
    obtain rfl := Except.ok.inj h
    exact ⟨i, rfl, upd_self, fun j hj => upd_of_ne hj, rfl⟩

theorem doMboxClose_spec (j : ℤ) : (t.doMboxClose j).pipes = t.pipes ∧
    ∃ i, ((t.doMboxClose j).mbox_ref i = t.mbox_ref i ∨ (t.doMboxClose j).mbox_ref i = ∅) ∧
      ∀ k ≠ i, (t.doMboxClose j).mbox_ref k = t.mbox_ref k := by
  unfold doMboxClose
  dsimp only
  split_ifs
  · exact ⟨rfl, ⟨0, by decide⟩, .inl rfl, fun _ _ => rfl⟩
  · exact ⟨rfl, ⟨0, by decide⟩, .inl rfl, fun _ _ => rfl⟩
  · exact ⟨rfl, _, .inr upd_self, fun k hk => upd_of_ne hk⟩
  · exact ⟨rfl, ⟨0, by decide⟩, .inl rfl, fun _ _ => rfl⟩

/-- A pipe that is opened is whole again, with the caller among those who
refer to it. -/
theorem pipeOpen_spec (h : ∀ i, (t.pipes i).Whole) (p : Slot) (name : Name) : t.pipeOpen p name = t ∨
    ∃ i e, t.pipeFor (name.take (PIPE_NAME_MAX_LEN - 1)) = some i ∧ e.Whole ∧
      e.ref_bitmap = insert p (t.pipes i).ref_bitmap ∧ t.pipeOpen p name = { t with pipes := upd t.pipes i e } := by
  cases hf : t.pipeFor (name.take (PIPE_NAME_MAX_LEN - 1)) with
  | none => simp [pipeOpen, hf]
  | some i =>
    have hw := h i
    unfold PipeEntry.Whole at hw
    by_cases hu : (t.pipes i).used
    · rw [if_pos hu] at hw
      by_cases hp : p ∈ (t.pipes i).ref_bitmap
      · simp [pipeOpen, hf, hu, hp]
      · refine .inr ⟨i, { t.pipes i with
          ref_bitmap := insert p (t.pipes i).ref_bitmap, refcnt := (t.pipes i).refcnt + 1 }, rfl, ?_, rfl,
          by simp [pipeOpen, hf, hu, hp]⟩
        unfold PipeEntry.Whole
        rw [if_pos hu, card_insert_of_notMem hp]
        exact ⟨by rw [hw.1], insert_ne_empty p _⟩
    · rw [if_neg hu] at hw
      refine .inr ⟨i, { used := true, name := name.take (PIPE_NAME_MAX_LEN - 1), ref_bitmap := {p}, refcnt := 1 },
        rfl, ?_, by rw [hw]; rfl, by simp [pipeOpen, hf, hu]⟩
      unfold PipeEntry.Whole
      exact ⟨(card_singleton p).symm, singleton_ne_empty p⟩

end Tables

/-! ## The property -/

namespace World

variable {w w' : World} {m : Move} {e : Event} {c : Cpu} {p x : Slot} {o : Obj} {pid : ℤ} {L : Lists}
  {R : Slot → List Slot}

/-- The object can be allocated. -/
def Free (w : World) (o : Obj) : Prop := w.ref o = ∅ ∧ ∀ i, o = .pipe i → (w.tables.pipes i).used = false

/-- **Whoever has ended has given back what it had.** -/
structure Reclaimed (w : World) : Prop where
  mutex : ∀ pid ∈ w.ended, ∀ i, (w.kernel.mlocks i).acquired = true → (w.kernel.mlocks i).pid ≠ pid
  ref : ∀ x, w.kernel.status x = .exited → ∀ o, x ∉ w.ref o
  free : ∀ o, (∀ pid ∈ w.users o, pid ∈ w.ended) → w.Free o

/-- **The moves that leave nothing behind.** -/
structure Orderly (w : World) (m : Move) : Prop where
  careful : ∀ e, w.event m = some e → Careful w.kernel e
  /-- somebody refers to the mutexes of those who fall -/
  held : ∀ e, w.event m = some e → ∀ x, Fallen w.kernel e x →
    ∀ i, (w.kernel.mlocks i).acquired = true → (w.kernel.mlocks i).pid = (w.kernel.pcb x).pid →
      w.kernel.mlock_ref i ≠ ∅
  /-- a semaphore does not lose its last user -/
  sema : ∀ e, w.event m = some e → ∀ i, ∀ x ∈ w.kernel.sema_ref i, Fallen w.kernel e x →
    ∃ y ∈ w.kernel.sema_ref i, ¬ Fallen w.kernel e y ∧ (w.kernel.pcb y).pid ∈ w.users (.sema i)

/-! ## The invariant -/

/-- **Whoever refers to an object or holds a mutex is alive.** -/
structure Account (w : World) : Prop where
  settled : ∃ L R, Settled w.kernel L R
  live : ∀ o, ∀ x ∈ w.ref o, w.kernel.status x ≠ .exited
  user : ∀ o, (∀ i, o ≠ .sema i) → ∀ x ∈ w.ref o, (w.kernel.pcb x).pid ∈ w.users o
  sema : ∀ i, w.ref (.sema i) ≠ ∅ → ∃ x ∈ w.ref (.sema i), (w.kernel.pcb x).pid ∈ w.users (.sema i)
  held : ∀ i, (w.kernel.mlocks i).acquired = true →
    ∃ x, w.kernel.status x ≠ .exited ∧ (w.kernel.pcb x).pid = (w.kernel.mlocks i).pid
  ended : ∀ pid ∈ w.ended, pid < w.kernel.process_id ∧
    ∀ x, w.kernel.status x ≠ .exited → (w.kernel.pcb x).pid ≠ pid
  pipe : ∀ i, (w.tables.pipes i).Whole

/-- An object that anyone refers to has a user that refers to it. -/
theorem Account.exists_user (h : Account w) (ho : w.ref o ≠ ∅) : ∃ x ∈ w.ref o, (w.kernel.pcb x).pid ∈ w.users o := by
  by_cases hs : ∃ i, o = .sema i
  · obtain ⟨i, rfl⟩ := hs
    exact h.sema i ho
  · obtain ⟨x, hx⟩ := nonempty_iff_ne_empty.mpr ho
    exact ⟨x, hx, h.user o (fun i he => hs ⟨i, he⟩) x hx⟩

theorem Account.reclaimed (h : Account w) : Reclaimed w := by
  refine ⟨fun pid hpid i hi he => ?_, fun x hx o hin => h.live o x hin hx, fun o hall => ?_⟩
  · obtain ⟨x, hx, hxp⟩ := h.held i hi
    exact (h.ended pid hpid).2 x hx (hxp.trans he)
  · have hnil : w.ref o = ∅ := by
      by_contra ho
      obtain ⟨x, hx, hu⟩ := h.exists_user ho
      exact (h.ended _ (hall _ hu)).2 x (h.live o x hx) rfl
    refine ⟨hnil, fun i hi => ?_⟩
    have hw := h.pipe i
    unfold PipeEntry.Whole at hw
    by_contra hused
    rw [if_pos (Bool.eq_true_of_not_eq_false hused)] at hw
    rw [hi] at hnil
    exact hw.2 hnil

/-! ## A move -/

/-- A process has come to refer to an object. -/
theorem mem_refer : pid ∈ w.refer pid o o := by
  unfold refer
  rw [upd_self]
  split_ifs
  · exact Finset.mem_singleton_self pid
  · exact mem_insert_self pid _

theorem subset_refer {o' : Obj} (ho : w.ref o ≠ ∅) : w.users o ⊆ w.refer pid o' o := by
  unfold refer
  by_cases he : o = o'
  · rw [← he, upd_self, if_neg ho]
    exact subset_insert pid _
  · rw [upd_of_ne he]

/-- What a move does to the references: `D` are dropped, an object is
destroyed, or a process comes to refer to one. -/
structure Shift (D : Slot → Prop) (w w' : World) : Prop where
  ref : ∀ o, (∀ x, x ∈ w'.ref o ↔ x ∈ w.ref o ∧ ¬ D x) ∨ w'.ref o = ∅ ∨
    ∃ p r, w'.ref o = insert p r ∧ (∀ x ∈ r, x ∈ w.ref o ∧ ¬ D x ∨ (∃ i, o = .sema i) ∧ x = .kernel 0) ∧
      w'.kernel.status p ≠ .exited ∧ (w'.kernel.pcb p).pid ∈ w'.users o
  users : ∀ o, w.ref o ≠ ∅ → w.users o ⊆ w'.users o
  live : ∀ x, w.kernel.status x ≠ .exited → ¬ D x → w'.kernel.status x ≠ .exited
  pid : ∀ x, w.kernel.status x ≠ .exited → (w'.kernel.pcb x).pid = (w.kernel.pcb x).pid
  sema : ∀ i, ∀ x ∈ w.ref (.sema i), D x →
    ∃ y ∈ w.ref (.sema i), ¬ D y ∧ (w.kernel.pcb y).pid ∈ w.users (.sema i)

variable {D : Slot → Prop}

theorem Shift.live_ref (hs : Shift D w w') (h : Account w) (hc : Core w'.kernel L) (o : Obj)
    (x : Slot) (hx : x ∈ w'.ref o) : w'.kernel.status x ≠ .exited := by
  rcases hs.ref o with hr | hr | ⟨p, r, hr, hold, hp, -⟩
  · obtain ⟨hx, hD⟩ := (hr x).mp hx
    exact hs.live x (h.live o x hx) hD
  · rw [hr] at hx
    exact absurd hx (notMem_empty x)
  · rw [hr] at hx
    rcases mem_insert.mp hx with rfl | hx
    · exact hp
    rcases hold x hx with ⟨hx, hD⟩ | ⟨-, rfl⟩
    · exact hs.live x (h.live o x hx) hD
    · exact (hc.tidy.kernel 0).2

theorem Shift.user_ref (hs : Shift D w w') (h : Account w) (o : Obj) (ho : ∀ i, o ≠ .sema i)
    (x : Slot) (hx : x ∈ w'.ref o) : (w'.kernel.pcb x).pid ∈ w'.users o := by
  have hkept : x ∈ w.ref o → (w'.kernel.pcb x).pid ∈ w'.users o := fun hx => by
    rw [hs.pid x (h.live o x hx)]
    exact hs.users o (ne_empty_of_mem hx) (h.user o ho x hx)
  rcases hs.ref o with hr | hr | ⟨p, r, hr, hold, -, hp⟩
  · exact hkept ((hr x).mp hx).1
  · rw [hr] at hx
    exact absurd hx (notMem_empty x)
  · rw [hr] at hx
    rcases mem_insert.mp hx with rfl | hx
    · exact hp
    rcases hold x hx with ⟨hx, -⟩ | ⟨⟨i, hi⟩, -⟩
    · exact hkept hx
    · exact absurd hi (ho i)

theorem Shift.sema_ref (hs : Shift D w w') (h : Account w) (i : Idx) (hi : w'.ref (.sema i) ≠ ∅) :
    ∃ x ∈ w'.ref (.sema i), (w'.kernel.pcb x).pid ∈ w'.users (.sema i) := by
  rcases hs.ref (.sema i) with hr | hr | ⟨p, r, hr, -, -, hp⟩
  · -- somebody is left who was a user before
    obtain ⟨x, hx⟩ := nonempty_iff_ne_empty.mpr hi
    have hne : w.ref (.sema i) ≠ ∅ := ne_empty_of_mem ((hr x).mp hx).1
    obtain ⟨y, hy, hyD, hyu⟩ : ∃ y ∈ w.ref (.sema i), ¬ D y ∧ (w.kernel.pcb y).pid ∈ w.users (.sema i) := by
      obtain ⟨y, hy, hyu⟩ := h.sema i hne
      by_cases hyD : D y
      · exact hs.sema i y hy hyD
      · exact ⟨y, hy, hyD, hyu⟩
    refine ⟨y, (hr y).mpr ⟨hy, hyD⟩, ?_⟩
    rw [hs.pid y (h.live _ y hy)]
    exact hs.users _ hne hyu
  · exact absurd hr hi
  · refine ⟨p, ?_, hp⟩
    rw [hr]
    exact mem_insert_self p r

theorem subset_usersAfter (ho : w.ref o ≠ ∅) : w.users o ⊆ w.usersAfter e o := by
  unfold usersAfter
  cases e with
  | enter c call next drops =>
    dsimp only
    split_ifs
    · exact Finset.Subset.refl _
    · cases w.kernel.gives call with
      | none => exact Finset.Subset.refl _
      | some o' => exact subset_refer ho
  | _ => exact Finset.Subset.refl _

theorem mem_usersAfter (hc : e.cpu = some c) (hg : w.kernel.given e = some o) :
    w.kernel.curPid c ∈ w.usersAfter e o := by
  unfold given at hg
  unfold usersAfter
  cases e with
  | enter c' call next drops =>
    obtain rfl := Option.some.inj hc
    dsimp only at hg ⊢
    split_ifs at hg ⊢
    rw [hg]
    exact mem_refer
  | tick d => exact nomatch hg
  | resume c' next drops => exact nomatch hg

theorem mem_base (hx : x ∈ w.kernel.base o) : x ∈ w.kernel.ref o ∨ (∃ i, o = .sema i) ∧ x = .kernel 0 := by
  unfold base at hx
  split_ifs at hx
  · cases o with
    | sema i => exact .inr ⟨⟨i, rfl⟩, Finset.mem_singleton.mp hx⟩
    | _ => exact absurd hx (notMem_empty x)
  · exact .inl hx

/-- A step of the kernel, with the two tables. -/
theorem Account.shift (h : Account w) (hcore : Core w.kernel L) (hg : Orderly w m)
    (he : w.event m = some e) {k : Kernel} (ht : Turn w.kernel e k)
    (hfall : ∀ x, TornDown (w.kernel.teardowns e) x ↔ Fallen w.kernel e x) :
    Shift (TornDown (w.kernel.teardowns e)) w ⟨k,
      (w.kernel.teardowns e).foldl Tables.cleanup w.tables, w.usersAfter e,
      w.ended ++ (w.kernel.teardowns e).map Teardown.pid⟩ := by
  have hlive : ∀ x, w.kernel.status x ≠ .exited → ¬ TornDown (w.kernel.teardowns e) x →
      k.status x ≠ .exited := fun x hx hD he => (ht.ended x he).elim hx hD
  refine ⟨fun o => ?_, fun o ho => subset_usersAfter ho, hlive, ht.pid, fun i x hx hD => ?_⟩
  · cases o
    case mbox i => exact .inl fun x => Tables.mem_mbox_cleanups
    case pipe i => exact .inl fun x => Tables.mem_pipe_cleanups h.pipe
    -- the tables of the kernel
    all_goals
      refine (ht.ref _).imp_right (Or.imp_right fun ⟨c, hc, hno, hgiven, hr⟩ => ?_)
      have hnobody : ∀ x, ¬ TornDown (w.kernel.teardowns e) x := by
        rw [hno]
        exact fun x => not_mem_nil
      have hown := hcore.current_alive c
      refine ⟨_, _, hr, fun x hx => (mem_base hx).imp_left fun hx => ⟨hx, hnobody x⟩, hlive _ hown (hnobody _), ?_⟩
      rw [ht.pid _ hown]
      exact mem_usersAfter hc hgiven
  · obtain ⟨y, hy, hn, hu⟩ := hg.sema e he i x hx ((hfall x).mp hD)
    exact ⟨y, hy, fun hd => hn ((hfall y).mp hd), hu⟩

theorem of_schedStep (hw : w.schedStep e = .ok w') : ∃ k, w.kernel.step e = .ok k ∧ w' = ⟨k,
    (w.kernel.teardowns e).foldl Tables.cleanup w.tables, w.usersAfter e,
    w.ended ++ (w.kernel.teardowns e).map Teardown.pid⟩ := by
  obtain ⟨k, hk, hw⟩ := exists_of_bind hw
  exact ⟨k, hk, (Except.ok.inj hw).symm⟩

/-- **A step of the kernel.** -/
theorem Account.sched (h : Account w) (hg : Orderly w m) (he : w.event m = some e)
    (hw : w.schedStep e = .ok w') : Account w' := by
  obtain ⟨L, R, hset⟩ := h.settled
  obtain ⟨k, hk, rfl⟩ := of_schedStep hw
  obtain ⟨L', R', ha, hset'⟩ := (hset.post_step (hg.careful e he)).of_ok hk
  have ht := ha.turn
  have hfall : ∀ x, TornDown (w.kernel.teardowns e) x ↔ Fallen w.kernel e x := fun x => ha.tornDown_iff hset
  have hs := h.shift hset.core hg he ht hfall
  refine ⟨⟨L', R', hset'⟩, hs.live_ref h hset'.core, hs.user_ref h, hs.sema_ref h, fun i hi => ?_,
    fun pid hpid => ?_, Tables.whole_cleanups h.pipe⟩
  · rcases ht.held i hi with ⟨ha, hpid, hother⟩ | ⟨c, -, hno, hpid⟩
    · -- the holder has not ended, or the mutex would have been released
      obtain ⟨x, hx, hxp⟩ := h.held i ha
      have hD : ¬ TornDown (w.kernel.teardowns e) x := fun hD =>
        hother (hg.held e he x ((hfall x).mp hD) i ha hxp.symm) x hD hxp.symm
      refine ⟨x, hs.live x hx hD, ?_⟩
      rw [ht.pid x hx]
      exact hxp.trans hpid.symm
    · have hown := hset.core.current_alive c
      refine ⟨w.kernel.current c, hs.live _ hown ?_, (ht.pid _ hown).trans hpid.symm⟩
      rw [hno]
      exact not_mem_nil
  · -- a pid that has ended is below those to come
    have hbelow : pid < w.kernel.process_id ∧ ∀ x, w.kernel.status x ≠ .exited → k.status x ≠ .exited →
        (w.kernel.pcb x).pid ≠ pid := by
      rcases mem_append.mp hpid with hpid | hpid
      · exact ⟨(h.ended pid hpid).1, fun x hx _ => (h.ended pid hpid).2 x hx⟩
      · obtain ⟨r, hr, rfl⟩ := mem_map.mp hpid
        obtain ⟨hlow, hdate⟩ := ht.dated r hr
        rw [hdate] at hlow ⊢
        refine ⟨hset.pids.fresh _, fun x _ hx hxr => hx ?_⟩
        rw [← hset.pids.inj r.slot x hlow hxr.symm]
        exact ht.gone _ (mem_map_of_mem hr)
    have hle := ht.process_id
    refine ⟨lt_of_lt_of_le hbelow.1 hle, fun x hx => ?_⟩
    by_cases hold : w.kernel.status x = .exited
    · rw [ht.fresh x hx hold]
      exact hbelow.1.ne'
    · rw [ht.pid x hold]
      exact hbelow.2 x hold hx

variable {t : Tables} {u : Obj → Finset ℤ}

/-- An object of the two tables changes, and its users with it. -/
theorem Account.of_tables (h : Account w) (o : Obj) (hmbox : ∀ i, o ≠ .mbox i → t.mbox_ref i = w.tables.mbox_ref i)
    (hpipe : ∀ i, o ≠ .pipe i → (t.pipes i).ref_bitmap = (w.tables.pipes i).ref_bitmap)
    (ho : (⟨w.kernel, t, u, w.ended⟩ : World).ref o = w.ref o ∨ (⟨w.kernel, t, u, w.ended⟩ : World).ref o = ∅ ∨
      (⟨w.kernel, t, u, w.ended⟩ : World).ref o = insert p (w.ref o) ∧ w.kernel.status p ≠ .exited ∧
        (w.kernel.pcb p).pid ∈ u o) (hu : ∀ o, w.ref o ≠ ∅ → w.users o ⊆ u o) (hwhole : ∀ i, (t.pipes i).Whole) :
    Account ⟨w.kernel, t, u, w.ended⟩ := by
  have hsame : ∀ o' ≠ o, (⟨w.kernel, t, u, w.ended⟩ : World).ref o' = w.ref o' := fun o' ho => by
    cases o' with
    | mbox i => exact hmbox i ho.symm
    | pipe i => exact hpipe i ho.symm
    | _ => rfl
  have hs : Shift Nobody w ⟨w.kernel, t, u, w.ended⟩ := by
    refine ⟨fun o' => ?_, hu, fun _ hx _ => hx, fun _ _ => rfl, fun _ _ _ hx => hx.elim⟩
    by_cases he : o' = o
    · rw [he]
      rcases ho with hr | hr | ⟨hr, hp⟩
      · exact .inl fun x => by rw [hr]; exact (and_iff_left id).symm
      · exact .inr (.inl hr)
      · exact .inr (.inr ⟨p, w.ref o, hr, fun x hx => .inl ⟨hx, id⟩, hp⟩)
    · exact .inl fun x => by rw [hsame o' he]; exact (and_iff_left id).symm
  obtain ⟨L, R, hset⟩ := h.settled
  exact ⟨⟨L, R, hset⟩, hs.live_ref h hset.core, hs.user_ref h, hs.sema_ref h, h.held, h.ended, hwhole⟩

/-- **A call that has to do with the two tables.** -/
theorem Account.table (h : Account w) {call : TableCall}
    (hw : w.tableStep (w.kernel.current c) (w.kernel.curPid c) call = .ok w') : Account w' := by
  obtain ⟨L, R, hset⟩ := h.settled
  have hown := hset.core.current_alive c
  cases call with
  | mboxOpen name =>
    obtain ⟨t, ht, hw⟩ := exists_of_bind hw
    obtain ⟨i, hf, href, hother, hpipes⟩ := Tables.doMboxOpen_spec ht
    rw [hf] at hw
    obtain rfl := Except.ok.inj hw
    exact h.of_tables (.mbox i) (fun j hj => hother j fun he => hj (he ▸ rfl)) (fun j _ => by rw [hpipes])
      (.inr (.inr ⟨href, hown, mem_refer⟩)) (fun o ho => subset_refer ho) fun j => hpipes ▸ h.pipe j
  | mboxClose mbox_idx =>
    obtain rfl := Except.ok.inj hw
    obtain ⟨hpipes, i, href, hother⟩ := Tables.doMboxClose_spec (t := w.tables) mbox_idx
    exact h.of_tables (p := w.kernel.current c) (.mbox i) (fun j hj => hother j fun he => hj (he ▸ rfl))
      (fun j _ => by rw [hpipes]) (href.imp_right .inl) (fun o _ => Finset.Subset.refl _) fun j => hpipes ▸ h.pipe j
  | pipeOpen name =>
    obtain rfl := Except.ok.inj hw
    have husers : ∀ o, w.ref o ≠ ∅ → w.users o ⊆ ((w.tables.pipeFor (name.take (PIPE_NAME_MAX_LEN - 1))).elim
        w.users fun i => w.refer (w.kernel.curPid c) (.pipe i)) o := fun o ho => by
      cases w.tables.pipeFor (name.take (PIPE_NAME_MAX_LEN - 1)) with
      | none => exact Finset.Subset.refl _
      | some i => exact subset_refer ho
    rcases Tables.pipeOpen_spec h.pipe (w.kernel.current c) name with hsame | ⟨i, e, hf, hwhole, hbits, heq⟩
    · rw [hsame]
      exact h.of_tables (p := w.kernel.current c) (.mutex 0) (fun _ _ => rfl) (fun _ _ => rfl) (.inl rfl) husers h.pipe
    · have hself : upd w.tables.pipes i e i = e := upd_self
      rw [heq]
      refine h.of_tables (.pipe i) (fun _ _ => rfl) (fun j hj => ?_) (.inr (.inr ⟨?_, hown, ?_⟩)) husers fun j => ?_
      · exact congrArg PipeEntry.ref_bitmap (upd_of_ne fun he => hj (he ▸ rfl))
      · exact (congrArg PipeEntry.ref_bitmap hself).trans hbits
      · rw [hf]
        exact mem_refer
      · show (upd w.tables.pipes i e j).Whole
        by_cases hj : j = i
        · rw [hj, hself]
          exact hwhole
        · rw [upd_of_ne hj]
          exact h.pipe j

/-- **A move.** -/
theorem Account.step (h : Account w) (hg : Orderly w m) (hw : w.step m = .ok w') : Account w' := by
  cases m with
  | sched e => exact h.sched hg rfl hw
  | table c call next drops =>
    rw [World.step] at hw
    by_cases hk : w.kernel.status (w.kernel.current c) = .killed
    · rw [if_pos hk] at hw
      exact h.sched hg (if_pos hk) hw
    rw [if_neg hk] at hw
    split_ifs at hw
    unfold getPcbIndex at hw
    cases hf : w.kernel.findPcb (w.kernel.curPid c) with
    | none =>
      rw [hf] at hw
      exact nomatch hw
    | some p =>
      obtain ⟨L, R, hset⟩ := h.settled
      rw [hf, hset.core.findPcb_current hset.pids hf] at hw
      exact h.table hw

theorem account_boot : Account boot := by
  have hnil : ∀ o, boot.ref o = ∅ := fun o => by cases o <;> rfl
  refine ⟨⟨_, _, settled_boot⟩,
    fun o x hx => ?_, fun o _ x hx => ?_, fun i hi => absurd (hnil _) hi, fun i hi => (nomatch hi),
    fun _ hp => (nomatch hp), fun i => rfl⟩
  · rw [hnil] at hx
    exact absurd hx (notMem_empty x)
  · rw [hnil] at hx
    exact absurd hx (notMem_empty x)

/-- **Whoever has ended has given back what it had**, in every state of a run
whose moves are all `Orderly`. -/
theorem reclaimed_of_orderly (h : Reach Orderly w) : Reclaimed w := by
  have hinv : Account w := by
    induction h with
    | boot => exact account_boot
    | step _ hg hm ih => exact ih.step hg hm
  exact hinv.reclaimed

/-! ## Runs -/

/-- The world a list of moves leads to. -/
def run (w : World) (ms : List Move) : Except Halt World := ms.foldlM World.step w

/-- Enough of `Orderly`: somebody refers to every mutex that is held, and nobody falls who refers
to a semaphore. -/
def orderlyIf (w : World) (m : Move) : Bool :=
  match w.event m with
  | none => true
  | some e =>
    carefulIf w.kernel e &&
    decide (∀ i, (w.kernel.mlocks i).acquired = true → w.kernel.mlock_ref i ≠ ∅) &&
    decide (∀ i, ∀ x ∈ w.kernel.sema_ref i, w.kernel.sparesIf e 4 x)

theorem orderly_of_orderlyIf (hok : orderlyIf w m) : Orderly w m := by
  have hall : ∀ e, w.event m = some e → Careful w.kernel e ∧
      (∀ i, (w.kernel.mlocks i).acquired = true → w.kernel.mlock_ref i ≠ ∅) ∧
      ∀ i, ∀ x ∈ w.kernel.sema_ref i, ¬ Fallen w.kernel e x := fun e he => by
    unfold orderlyIf at hok
    rw [he] at hok
    simp only [Bool.and_eq_true, decide_eq_true_eq] at hok
    obtain ⟨⟨hcareful, hheld⟩, hsema⟩ := hok
    exact ⟨careful_of_carefulIf hcareful, hheld, fun i x hx => not_fallen_of_sparesIf (hsema i x hx)⟩
  exact ⟨fun e he => (hall e he).1, fun e he x _ i hi _ => (hall e he).2.1 i hi,
    fun e he i x hx hf => absurd hf ((hall e he).2.2 i x hx)⟩

/-- A list of moves can be made, each of which is `Orderly`. -/
def admits (w : World) : List Move → Bool
  | [] => true
  | m :: ms =>
    match w.step m with
    | .ok w' => orderlyIf w m && w'.admits ms
    | .error _ => false

theorem Reach.of_admits {ms : List Move} (hw : Reach Orderly w) (hms : w.admits ms) :
    ∃ w', w.run ms = .ok w' ∧ Reach Orderly w' := by
  induction ms generalizing w with
  | nil => exact ⟨w, rfl, hw⟩
  | cons m ms ih =>
    unfold admits at hms
    cases he : w.step m with
    | error _ =>
      rw [he] at hms
      exact nomatch hms
    | ok w1 =>
      rw [he, Bool.and_eq_true] at hms
      obtain ⟨w', hrun, hr⟩ := ih (hw.step (orderly_of_orderlyIf hms.1) he) hms.2
      refine ⟨w', ?_, hr⟩
      unfold run
      rw [foldlM_cons, he]
      exact hrun

/-- A list of moves leads to a world as `ok` wants it. -/
theorem exists_of_run (ms : List Move) {Q : World → Prop} [DecidablePred Q] (h : (match boot.run ms with
      | .ok w => decide (Q w) | .error _ => false) = true) : ∃ w, boot.run ms = .ok w ∧ Q w := by
  cases hr : boot.run ms with
  | ok w =>
    rw [hr] at h
    exact ⟨w, rfl, of_decide_eq_true h⟩
  | error _ =>
    rw [hr] at h
    exact nomatch h

/-- A process makes one object of each of five kinds, takes the mutex and
exits. -/
def farewell : List Move :=
  [.sched (.call 0 .exec (.user 0)), .sched (.call 0 .yield (.user 0)),
    .sched (.call 0 (.mutexInit 7) (.user 0)), .sched (.call 0 (.mutexAcquire 0) (.user 0)),
    .sched (.call 0 (.condInit 8) (.user 0)), .sched (.call 0 (.barrierInit 9 2) (.user 0)),
    .table 0 (.mboxOpen [97]) (.user 0) fun _ => [], .table 0 (.pipeOpen [98]) (.user 0) fun _ => [],
    .sched (.call 0 .exit (.kernel 0))]

theorem reclaimed_farewell : ∃ w, boot.run farewell = .ok w ∧ w.ended = [2] ∧
    w.users (.mutex 0) = {2} ∧ w.users (.mbox ⟨0, by decide⟩) = {2} ∧ Reclaimed w := by
  obtain ⟨w, hw, hr⟩ := Reach.of_admits .boot (show boot.admits farewell by decide +kernel)
  obtain ⟨w', hw', hend, hmutex, hmbox⟩ := exists_of_run farewell
    (Q := fun w => w.ended = [2] ∧ w.users (.mutex 0) = {2} ∧ w.users (.mbox ⟨0, by decide⟩) = {2}) (by decide +kernel)
  obtain rfl : w' = w := Except.ok.inj (hw'.symm.trans hw)
  exact ⟨w', hw, hend, hmutex, hmbox, reclaimed_of_orderly hr⟩

/-- A process makes a semaphore and exits. -/
def keepSemaphore : List Move :=
  [.sched (.call 0 .exec (.user 0)), .sched (.call 0 .yield (.user 0)),
    .sched (.call 0 (.semaInit 7 1) (.user 0)), .sched (.call 0 .exit (.kernel 0))]

/-- A process takes a mutex that nobody has made, and exits. -/
def keepMutex : List Move :=
  [.sched (.call 0 .exec (.user 0)), .sched (.call 0 .yield (.user 0)),
    .sched (.call 0 (.mutexAcquire 0) (.user 0)), .sched (.call 0 .exit (.kernel 0))]

/-- A process that runs is killed twice, and goes on to take a mutex. -/
def takeAfter : List Move :=
  pair.map .sched ++ [.sched (.call 0 (.kill 3) (.user 0)), .sched (.call 0 (.kill 3) (.user 0)),
    .sched (.call 0 (.mutexInit 7) (.user 0)), .sched (.call 1 (.mutexAcquire 0) (.user 1))]

/-- **Three ways to leave something behind.** A semaphore whose only user has
exited is not free, and a mutex is held by a process that has ended. -/
theorem not_reclaimed :
    (∃ w, boot.run keepSemaphore = .ok w ∧ w.users (.sema 0) = {2} ∧ w.ended = [2] ∧ ¬ Reclaimed w) ∧
    (∃ w, boot.run keepMutex = .ok w ∧ w.ended = [2] ∧ (w.kernel.mlocks 0).pid = 2 ∧ ¬ Reclaimed w) ∧
    ∃ w, boot.run takeAfter = .ok w ∧ w.ended = [3] ∧ (w.kernel.mlocks 0).pid = 3 ∧ ¬ Reclaimed w := by
  refine ⟨?_, ?_, ?_⟩
  · obtain ⟨w, hw, husers, hend, href⟩ := exists_of_run keepSemaphore
      (Q := fun w => w.users (.sema 0) = {2} ∧ w.ended = [2] ∧ w.ref (.sema 0) ≠ ∅) (by decide +kernel)
    refine ⟨w, hw, husers, hend, fun h => href (h.free (.sema 0) ?_).1⟩
    rw [husers, hend]
    decide
  · obtain ⟨w, hw, hend, hpid, hheld⟩ := exists_of_run keepMutex
      (Q := fun w => w.ended = [2] ∧ (w.kernel.mlocks 0).pid = 2 ∧ (w.kernel.mlocks 0).acquired = true)
      (by decide +kernel)
    exact ⟨w, hw, hend, hpid, fun h => h.mutex 2 (by rw [hend]; decide) 0 hheld hpid⟩
  · obtain ⟨w, hw, hend, hpid, hheld⟩ := exists_of_run takeAfter
      (Q := fun w => w.ended = [3] ∧ (w.kernel.mlocks 0).pid = 3 ∧ (w.kernel.mlocks 0).acquired = true)
      (by decide +kernel)
    exact ⟨w, hw, hend, hpid, fun h => h.mutex 3 (by rw [hend]; decide) 0 hheld hpid⟩

end World

/-- Two processes refer to a mutex. -/
def share : List Event :=
  pair ++ [.call 0 (.mutexInit 7) (.user 0), .call 1 (.mutexInit 7) (.user 1),
    .call 1 (.mutexAcquire 0) (.user 1)]

end OsLab.Sched
