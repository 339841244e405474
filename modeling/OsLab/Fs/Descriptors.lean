import OsLab.Fs.Pins
/-!
# Descriptors

The functions on inodes, directories and paths leave the descriptors and the processes alone,
whatever the blocks hold and however they end. Only `do_open`, `do_close` and the three calls on a
descriptor touch them, and those in one line each. -/

namespace OsLab

open Prog

/-- **The program leaves descriptors and processes alone.** -/
abbrev SparesFds {α : Type} (p : FSM α) : Prop := Confines (fun _ => True) SameFds p

variable {α : Type} {pid k : ℕ} {m : Mem}

theorem Opens.sparesFds {p : FSM α} (h : Opens .inodes 3 p) : SparesFds p := fun m =>
  mwp_mono (h.confines m) (fun _ _ hm => hm) fun _ _ => trivial

theorem sparesFds_inodeOpen : SparesFds (inodeOpen k) := opens_open.sparesFds

theorem sparesFds_inodeUnlock : SparesFds (inodeUnlock k) := opens_inodeUnlock.sparesFds

section Mwp

variable {E : Halt → Prop}

@[simp] theorem mwp_getMem {Q : Mem → Mem → Prop} : getMem.mwp E Q m ↔ Q m m := Iff.rfl

@[simp] theorem mwp_getInode {Q : Inode → Mem → Prop} : (getInode k).mwp E Q m ↔ Q (m.inodes k) m :=
  Iff.rfl

end Mwp

/-! ## Opening -/

/-- What `do_open` does to the descriptors: nothing, and it answers `-1`; or a descriptor that was
free takes a free place of the process's table. -/
def OpensFd (pid : ℕ) (readable writable : Bool) (m : Mem) (r : ℤ) (m' : Mem) : Prop :=
  r = -1 ∧ SameFds m m' ∨
    ∃ fd f k : ℕ, r = fd ∧ (m.fdesc_array f).valid = false ∧ ((m.procs pid).fd_table fd) = none ∧
      m'.fdesc_array = upd m.fdesc_array f ⟨k, true, 0, 0, readable, writable⟩ ∧
      m'.procs = upd m.procs pid { m.procs pid with fd_table := upd (m.procs pid).fd_table fd (some f) }

theorem mwp_openFd_fds {readable writable : Bool} {r : Option ℕ} :
    (openFd pid readable writable r).mwp (fun _ => True) (OpensFd pid readable writable m) m := by
  cases r with
  | none => exact .inl ⟨rfl, Std.Refl.refl m⟩
  | some k =>
    have hclose : ∀ {m1}, SameFds m m1 → (do inodeClose k; pure (-1 : ℤ) : FSM ℤ).mwp (fun _ => True)
        (OpensFd pid readable writable m) m1 := by
      intro m1 h1
      rw [mwp_bind]
      exact opens_inodeClose.sparesFds.mwp fun _ m2 h2 => .inl ⟨rfl, Trans.trans h1 h2⟩
    unfold openFd
    rw [mwp_bind]
    refine sparesFds_inodeOpen.mwp fun _ m1 h1 => ?_
    rw [mwp_bind, mwp_getInode]
    split
    · exact hclose h1
    rw [mwp_bind, mwp_getMem]
    split
    · exact hclose h1
    next fd hfd =>
      split
      · next f hf =>
        have hnone := List.find?_some hfd
        have hfree := List.find?_some hf
        simp only [mwp_bind]
        refine sparesFds_inodeUnlock.mwp fun _ m2 h2 => .inr ⟨fd, f, k, rfl, ?_, ?_, ?_, ?_⟩
        · rw [← h1.fdescs]
          simpa using hfree
        · rw [← h1.procs]
          exact Option.isNone_iff_eq_none.mp hnone
        · rw [h2.fdescs, ← h1.fdescs]
        · rw [h2.procs, ← h1.procs]
      · exact hclose h1

/-- **`do_open` and the descriptors.** -/
theorem mwp_doOpen_fds {path : Name} {mode : ℕ} : (doOpen pid path mode).mwp (fun _ => True)
    (OpensFd pid (readableMode mode) (writableMode mode) m) m := by
  rw [doOpen_eq, mwp_bind]
  refine opens_openInode.sparesFds.mwp fun r m1 h1 => mwp_post mwp_openFd_fds ?_
  rintro a m2 (⟨ha, h2⟩ | ⟨fd, f, k, ha, hfree, hnone, hfds, hprocs⟩)
  · exact .inl ⟨ha, Trans.trans h1 h2⟩
  · rw [h1.fdescs] at hfree hfds
    rw [h1.procs] at hnone hprocs
    exact .inr ⟨fd, f, k, ha, hfree, hnone, hfds, hprocs⟩

end OsLab
