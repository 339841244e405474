import OsLab.Sched.Frame
/-!
# What leaves the mutexes alone

Most of the kernel does nothing to the mutexes, to who has taken them and
to the pids (`Quiet`), as all the changes that `OsLab.Sched.Frame` goes
through are of this kind.
-/

namespace OsLab.Sched

namespace Kernel

variable {s s' : Kernel} {c : Cpu} {q : Queue} {p next : Slot} {pcb : Pcb}

/-- **Mutexes, ownership and pids stay.** -/
structure Quiet (s s' : Kernel) : Prop where
  mlocks : s'.mlocks = s.mlocks
  owns : s'.owns = s.owns
  pid : ∀ p, (s'.pcb p).pid = (s.pcb p).pid

namespace Quiet

theorem refl : Quiet s s := ⟨rfl, rfl, fun _ => rfl⟩

theorem trans {s'' : Kernel} (h : Quiet s s') (h' : Quiet s' s'') : Quiet s s'' where
  mlocks := h'.mlocks.trans h.mlocks
  owns := h'.owns.trans h.owns
  pid p := (h'.pid p).trans (h.pid p)

end Quiet

theorem pid_setPcb (hp : pcb.pid = (s.pcb p).pid) (p' : Slot) : ((s.setPcb p pcb).pcb p').pid = (s.pcb p').pid := by
  by_cases h : p' = p
  · rw [h]
    exact (congrArg Pcb.pid upd_self).trans hp
  · exact congrArg Pcb.pid (upd_of_ne h)

theorem quiet_setPcb (hp : pcb.pid = (s.pcb p).pid) : Quiet s (s.setPcb p pcb) := ⟨rfl, rfl, pid_setPcb hp⟩

theorem quiet_frame : Frame Nobody Quiet where
  refl _ := .refl
  trans := .trans
  status _ _ := quiet_setPcb rfl
  stamp _ := quiet_setPcb rfl
  links _ _ := ⟨rfl, rfl, fun _ => rfl⟩
  current _ := ⟨rfl, rfl, fun _ => rfl⟩
  objects hm _ ho _ := ⟨hm, ho, fun _ => rfl⟩

/-- A part of the kernel is quiet. -/
theorem quiet_of {r : Res} (hr : Framed Nobody Quiet c s r) : Yields (Quiet s) r := hr.mono fun _ h => h.kept

theorem quiet_unblockList : Yields (Quiet s) (s.unblockList q) :=
  quiet_of (c := 0) (quiet_frame.unblockList away_nobody)

theorem quiet_doScheduler {k : Cont} : Yields (Quiet s) (s.doScheduler c k next) :=
  quiet_of (quiet_frame.doScheduler away_nobody id)

end Kernel

end OsLab.Sched
