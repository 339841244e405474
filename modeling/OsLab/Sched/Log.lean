import OsLab.Sched.Step
/-!
# The calls of `cleanup_proc`

Which processes a step tears down, in their order, each with the state in
which `cleanup_proc` is called. This follows `do_kill` and `do_exit` through
the same branches and states.
-/

namespace OsLab.Sched

/-- A call of `cleanup_proc`: by which processor, for whom, and in what
state. -/
structure Teardown where
  cpu : Cpu
  slot : Slot
  state : Kernel

/-- The process is known by its pid, as its control block is used again. -/
def Teardown.pid (r : Teardown) : ℤ := (r.state.pcb r.slot).pid

namespace Kernel

/-- What follows if a part of the kernel returns. -/
def after (r : Res) (f : Kernel → List Teardown) : List Teardown :=
  match r with
  | .ok s => f s
  | .error _ => []

/-- Those of `kill_subprocess`, from a link of the child list on. -/
def killFromLog (kill : Kernel → ℤ → Res) (log : Kernel → ℤ → List Teardown) :
    (fuel : ℕ) → Option (DList.Node Slot Slot) → Kernel → List Teardown
  | fuel + 1, some (.node child), s =>
    log s (s.pcb child).pid ++
      after (kill s (s.pcb child).pid)
        (killFromLog kill log fuel (s.relation (.node child)).next)
  | _, _, _ => []

/-- Those of `do_kill`. -/
def killLog (drops : Slot → List ℕ) (c : Cpu) : (depth : ℕ) → Kernel → ℤ → List Teardown
  | 0, _, _ => []
  | depth + 1, s, pid =>
    if pid < NR_CPUS then []
    else
      match s.isAncestor pid FUEL (some (s.current c)), s.findPcb pid with
      | .ok false, some p =>
        if s.status p = .running then []
        else
          killFromLog (doKill drops c depth) (killLog drops c depth) FUEL (s.relation (.head p)).next s ++
            after (s.killSubprocess (doKill drops c depth) p) fun s => [⟨c, p, s⟩]
      | _, _ => []

/-- Those of `do_exit`. -/
def exitLog (drops : Slot → List ℕ) (s : Kernel) (c : Cpu) : List Teardown :=
  if s.curPid c < NR_CPUS then []
  else
    killFromLog (doKill drops c FUEL) (killLog drops c FUEL) FUEL
        (s.relation (.head (s.current c))).next s ++
      after (s.killSubprocess (doKill drops c FUEL) (s.current c)) fun s => [⟨c, s.current c, s⟩]

/-- **The calls of `cleanup_proc` in a step**, up to where the kernel halts if
it does. -/
def teardowns (s : Kernel) : Event → List Teardown
  | .tick _ => []
  | .enter c call _ drops =>
    if (s.pcb (s.current c)).cont ≠ .user then []
    else if s.status (s.current c) = .killed then s.exitLog drops c
    else
      match call with
      | .exit => s.exitLog drops c
      | .kill pid => killLog drops c FUEL s pid
      | _ => []
  | .resume c _ drops =>
    if (s.pcb (s.current c)).cont = .user then []
    else if s.status (s.current c) = .killed then s.exitLog drops c
    else []

/-- The process is torn down. -/
def TornDown (l : List Teardown) (x : Slot) : Prop := x ∈ l.map Teardown.slot

end Kernel

end OsLab.Sched
