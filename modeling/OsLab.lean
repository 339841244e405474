import OsLab.Fs.Balanced
import OsLab.Fs.Locks
import OsLab.Fs.Runs.Whole
import OsLab.Fs.Runs.WorkingDirs
import OsLab.Fs.Runs.Opening
import OsLab.Fs.Stale
import OsLab.PageCache.Refinement
import OsLab.Kmalloc.Misuse
import OsLab.Mm.Faults
import OsLab.Mailbox.Whole
import OsLab.Mailbox.Wakeup
import OsLab.Mailbox.Lifetime
import OsLab.Net.Rings
import OsLab.Net.Robust
import OsLab.Sched.Placement
import OsLab.Sched.Semaphores
import OsLab.Sched.Barriers
import OsLab.Sched.Mutexes
import OsLab.Sched.Family
import OsLab.Sched.Leftovers
import OsLab.Sched.Keys
import OsLab.Sched.Cmd
import OsLab.Libs.List
