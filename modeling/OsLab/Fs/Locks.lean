import OsLab.Fs.Tree.Runs
/-!
# A call that waits for itself

Resolving a path has one slot locked at a time, so it never waits. The calls that keep a directory
locked while they look a name up in it wait for themselves where the name is the directory's own,
and `do_ln`, which keeps its source locked, where the destination goes through the source. `do_rm`
and `do_rmdir` refuse `.` and `..` first, and `do_ls` and `do_cd` lock nothing twice. -/

namespace OsLab

open Prog

variable {s t : FS} {pid : ℕ} {c : FsCall}

end OsLab
