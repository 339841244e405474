import OsLab.Fs.Model.Remake
import OsLab.Fs.Tree.Live
/-!
# Runs of calls

The calls of processes, executed one at a time. A call is `Proper` where it meets none of the known
defects: it starts at a directory that is there, it does not remove one of two names of a file, and
reference counts are far from their end. Such a call leaves the file system in order, and `Effect`
says what is seen of it. -/

namespace OsLab

open Prog Bytes

variable {s t : FS} {ino ino' : ℕ → Option DiskInode} {T T' : Shape} {num num' : ℕ → ℕ}
  {E E' : Multiset Ref} {v v' : View} {k n m i c pid : ℕ} {nm path : Name} {d : DiskInode}
  {nd : Node} {r : ℤ × Bytes} {p : FSM ℤ}

/-! ## Calls -/

inductive FsCall
  | open (path : Name) (mode : ℕ)
  | read (fd : ℤ) (length : UInt32)
  | write (fd : ℤ) (buff : Bytes) (length : UInt32)
  | lseek (fd offset : ℤ) (whence : ℕ)
  | close (fd : ℤ)
  | mkdir (path : Name)
  | rmdir (path : Name)
  | ln (src_path dst_path : Name)
  | rm (path : Name)
  | ls (path : Name) (verbose : Bool)
  | cd (path : Name)

/-- A call that answers with a number. -/
def answer (p : FSM ℤ) : FSM (ℤ × Bytes) := do
  let r ← p
  pure (r, fill 0)

/-- The call, made by the process `pid`: its answer, and the bytes that a read copies out. -/
def FsCall.prog (pid : ℕ) : FsCall → FSM (ℤ × Bytes)
  | .open path mode => answer (doOpen pid path mode)
  | read fd length => do
    let (total, dest) ← doRead pid fd length
    pure (total, dest)
  | write fd buff length => do
    let total ← doWrite pid fd buff length
    pure (total, fill 0)
  | lseek fd offset whence => answer (doLseek pid fd offset whence)
  | close fd => answer (doClose pid fd)
  | mkdir path => answer (doMkdir pid path)
  | rmdir path => answer (doRmdir pid path)
  | ln src_path dst_path => answer (doLn pid src_path dst_path)
  | rm path => answer (doRm pid path)
  | ls path verbose => answer (doLs pid path verbose)
  | cd path => answer (doCd pid path)

/-- One call of a process, from state to state. -/
def Steps (s : FS) (pid : ℕ) (c : FsCall) (r : ℤ × Bytes) (t : FS) : Prop :=
  (c.prog pid).exec s = .ok (r, t)

/-! ## Calls that meet no known defect -/

/-- A directory that entries lead to. -/
def LiveDir (v : View) (n : ℕ) : Prop := Reach v n ∧ v.IsDir n

/-- The path starts at a directory that is there. -/
def StartsLive (s : FS) (pid : ℕ) (path : Name) : Prop :=
  LiveDir (viewAt s) (startInode s.mem pid path)

/-- The file that a path names, if any, has no other name. -/
def SoleName (v : View) (start : ℕ) (path : Name) : Prop :=
  ∀ q name i m, Parent v.dirs start path q name → v.Has q i (Name.trunc name) m → ¬ v.IsDir m →
    ∀ x j nm, Reach v x → 2 ≤ j → v.Has x j nm m → x = q ∧ j = i

/-- No slot is within `c` references of the end of its count. -/
def RoomAt (c : ℕ) (m : Mem) : Prop :=
  ∀ k < NINODE, (m.inodes k).d.type ≠ 0 → (m.inodes k).ref_count.toNat + c ≤ 65535

/-- **The call meets no known defect.** -/
def FsCall.Proper (pid : ℕ) (s : FS) : FsCall → Prop
  | .open path _ => StartsLive s pid path ∧ RoomAt 10 s.mem
  | read _ _ => True
  | write _ _ _ => True
  | lseek _ _ _ => True
  | close _ => True
  | mkdir path => StartsLive s pid path ∧ RoomAt 10 s.mem
  | rmdir path => StartsLive s pid path ∧ RoomAt 10 s.mem
  | ln src_path dst_path => StartsLive s pid src_path ∧ StartsLive s pid dst_path ∧ RoomAt 10 s.mem
  | rm path => StartsLive s pid path ∧ RoomAt 10 s.mem ∧
      SoleName (viewAt s) (startInode s.mem pid path) path
  | ls path _ => StartsLive s pid path ∧ RoomAt 10 s.mem
  | cd path => StartsLive s pid path ∧ RoomAt 10 s.mem

/-- **The call waits for a lock of its own.** A directory is locked while its last name is looked up
in it, and `do_ln` has its source locked while it resolves the destination. -/
def FsCall.WaitsForSelf (pid : ℕ) (s : FS) : FsCall → Prop
  | .open path mode => writableMode mode = true ∧
      NamesItself (viewAt s) (startInode s.mem pid path) path
  | mkdir path => NamesItself (viewAt s) (startInode s.mem pid path) path
  | ln src_path dst_path =>
      PassesSource (viewAt s) (startInode s.mem pid src_path) src_path
        (startInode s.mem pid dst_path) dst_path
  | _ => False

/-! ## What is seen of a call -/

/-- The inode that a descriptor was opened for. -/
def numAt (s : FS) (f : ℕ) : ℕ := (s.mem.inodes (s.mem.fdesc_array f).inode).d.inode_num.toNat

/-- The live directories are the same. -/
def SameDirs (v v' : View) : Prop := ∀ x, LiveDir v' x ↔ LiveDir v x

/-- A path names a new inode. -/
def MadeAt (v : View) (start : ℕ) (path : Name) (type : UInt16) (v' : View) : Prop :=
  ∃ q name i n, LiveDir v q ∧ Parent v.dirs start path q name ∧
    NewEntry v v' q i (Name.trunc name) n type ∧
    ∀ x, LiveDir v' x ↔ LiveDir v x ∨ type = FS_TYPE_DIR ∧ x = n

/-- A path named an inode that is gone. -/
def GoneAt (v : View) (start : ℕ) (path : Name) (isdir : Bool) (v' : View) : Prop :=
  ∃ q name i m, LiveDir v q ∧ Parent v.dirs start path q name ∧ isDots name = false ∧
    GoneEntry v v' q i (Name.trunc name) m isdir ∧ ∀ x, LiveDir v' x ↔ LiveDir v x ∧ x ≠ m

/-- A path names a file that another path led to. -/
def NamedAt (v : View) (src_start : ℕ) (src_path : Name) (start : ℕ) (path : Name)
    (v' : View) : Prop :=
  ∃ q name i m nd, LiveDir v q ∧ Parent v.dirs start path q name ∧
    Walk v.dirs src_start (components src_path) m ∧
    v m = some nd ∧ nd.type ≠ FS_TYPE_DIR ∧ (∀ j a, ¬ v.Has q j (Name.trunc name) a) ∧
      Adds v v' q i (Name.trunc name) m ∧
    SameDirs v v'

/-- **What is seen of a call.** -/
def FsCall.Effect (pid : ℕ) (s : FS) (r : ℤ × Bytes) (t : FS) : FsCall → Prop
  | .open path mode => cwds t.mem = cwds s.mem ∧
      (viewAt t = viewAt s ∨ MadeAt (viewAt s) (startInode s.mem pid path) path FS_TYPE_FILE
      (viewAt t)) ∧
      ((∀ m, ¬ Walk (viewAt s).dirs (startInode s.mem pid path) (components path) m) →
        (writableMode mode = true →
        ∀ q name, ¬ Parent (viewAt s).dirs (startInode s.mem pid path) path q name) →
        r.1 = -1 ∧ viewAt t = viewAt s)
  | read fd length => cwds t.mem = cwds s.mem ∧ viewAt t = viewAt s ∧
      match fdOf s.mem pid fd with
      | none => r = (0, fill 0)
      | some f => ∃ nd, viewAt s (numAt s f) = some nd ∧
          ∃ a : ℕ, r.1 = a ∧ a ≤ min length.toNat (nd.size.toNat - (s.mem.fdesc_array f).rpos.toNat)
  | write fd buff length => cwds t.mem = cwds s.mem ∧ SameDirs (viewAt s) (viewAt t) ∧
      match fdOf s.mem pid fd with
      | none => r.1 = 0 ∧ viewAt t = viewAt s
      | some f => ∃ a : ℕ, r.1 = a ∧ a ≤ length.toNat ∧ ∃ nd nd', viewAt s (numAt s f) = some nd ∧
          viewAt t = upd (viewAt s) (numAt s f) (some nd') ∧
          NodeWrote buff (s.mem.fdesc_array f).wpos.toNat a nd nd'
  | lseek _ _ _ => cwds t.mem = cwds s.mem ∧ viewAt t = viewAt s
  | close _ => cwds t.mem = cwds s.mem ∧
      (viewAt t = viewAt s ∨ ∃ n nd, viewAt s n = some nd ∧ nd.link_count = 0 ∧
      viewAt t = upd (viewAt s) n none ∧
        SameDirs (viewAt s) (viewAt t))
  | mkdir path => cwds t.mem = cwds s.mem ∧
      (viewAt t = viewAt s ∨ MadeAt (viewAt s) (startInode s.mem pid path) path FS_TYPE_DIR
      (viewAt t))
  | rmdir path => cwds t.mem = cwds s.mem ∧
      ((r.1 ≠ 0 ∧ viewAt t = viewAt s) ∨
        r.1 = 0 ∧ GoneAt (viewAt s) (startInode s.mem pid path) path true (viewAt t))
  | ln src_path dst_path => cwds t.mem = cwds s.mem ∧
      ((r.1 ≠ 0 ∧ viewAt t = viewAt s) ∨
        r.1 = 0 ∧ NamedAt (viewAt s) (startInode s.mem pid src_path) src_path
        (startInode s.mem pid dst_path) dst_path (viewAt t))
  | rm path => cwds t.mem = cwds s.mem ∧
      ((r.1 ≠ 0 ∧ viewAt t = viewAt s) ∨
        r.1 = 0 ∧ GoneAt (viewAt s) (startInode s.mem pid path) path false (viewAt t))
  | ls _ _ => cwds t.mem = cwds s.mem ∧ viewAt t = viewAt s
  | cd path => viewAt t = viewAt s ∧
      (cwds t.mem = cwds s.mem ∨ ∃ m, cwds t.mem = upd (cwds s.mem) pid m ∧ Reach (viewAt s) m ∧
        Walk (viewAt s).dirs (startInode s.mem pid path) (components path) m)

/-- **The file system is in order**, between two calls, with references `E` that no descriptor
holds. -/
def FsHeld (E : Multiset Ref) (s : FS) : Prop := ∃ ino T num, FsOk s ino T num E

/-- `do_ls` is the one call that may keep references. -/
def FsCall.keepsRefs : FsCall → Bool
  | ls _ _ => false
  | _ => true

section Between

variable (h : FsOk s ino T num E)

include h

/-- The directories of the tree are the live ones. -/
theorem FsAt.liveDir_iff : LiveDir (viewAt s) n ↔ n ∈ T.dirs := by
  rw [h.viewAt_eq]
  exact h.tree.mem_iff.symm

theorem FsAt.room (hroom : RoomAt c s.mem) (hc : c ≤ 65535) : Room c (fdRefs s.mem num + E) := by
  rintro ⟨k, n⟩
  by_cases hk : (k, n) ∈ fdRefs s.mem num + E
  · have hcache := h.inv.inodes.cache
    rw [← hcache.count hk]
    exact hroom k (hcache.bound hk) (h.hasInode hk).1
  · rw [Multiset.count_eq_zero_of_notMem hk]
    omega

theorem FsAt.lastName (hsole : SoleName (viewAt s) n path) :
    LastName (viewOf s.disk ino) T n path := by
  rw [h.viewAt_eq] at hsole
  intro q name i m _ hp he hm x j nm hx hj hxe
  exact hsole q name i m hp he hm x j nm ((h.tree.mem_iff.mp hx).1) hj hxe

theorem FsAt.numAt_eq (hf : k ∈ validFds s.mem) : numAt s k = num k :=
  h.inv.inodes.cache.num (Multiset.mem_add.mpr (.inl (mem_fdRefs hf)))

end Between

theorem exec_of_answer (hs : (answer p).exec s = .ok (r, t)) : p.exec s = .ok (r.1, t) := by
  obtain ⟨a, u, hx, hr⟩ := exists_of_exec_bind hs
  cases hr
  exact hx

/-- A call that answers with a number leaves what its program leaves. -/
theorem wp_answer {H : Halt → Prop} {Q : ℤ × Bytes → FS → Prop} :
    wp H (answer p) Q s ↔ wp H p (fun a t => Q (a, fill 0) t) s := by
  unfold answer
  rw [wp_bind]
  exact Iff.rfl

/-- The tree is the same, so the live directories are. -/
theorem IsTree.sameDirs {v v' : View} (h : IsTree v T) (h' : IsTree v' T) :
    SameDirs v v' := fun _ =>
  h'.mem_iff.symm.trans h.mem_iff

theorem FsAt.sameDirs (h : FsOk s ino T num E) (ht : FsOk t ino' T num' E') :
    SameDirs (viewAt s) (viewAt t) := by
  rw [h.viewAt_eq, ht.viewAt_eq]
  exact h.tree.sameDirs ht.tree

/-- What a call leaves: the references that no descriptor holds are the same, but for `do_ls`. -/
def FsCall.After (c : FsCall) (E : Multiset Ref) (pid : ℕ) (s : FS) (r : ℤ × Bytes)
    (t : FS) : Prop :=
  (∃ E', FsHeld E' t ∧ (c.keepsRefs = true → E' = E)) ∧ c.Effect pid s r t

/-- **A proper call leaves the file system in order**, and waits for itself only where it says. -/
theorem FsHeld.wp_call (h : FsHeld E s) {c : FsCall} (hc : c.Proper pid s) :
    wp (Stops (c.WaitsForSelf pid s)) (c.prog pid) (c.After E pid s) s := by
  obtain ⟨ino, T, num, h⟩ := h
  have hview := h.viewAt_eq
  unfold FsCall.WaitsForSelf
  rw [hview]
  have hroom : RoomAt 10 s.mem → Room 3 (fdRefs s.mem num + E) :=
    fun hr => (h.room hr (by decide)).mono (by decide)
  have hlive : ∀ {n}, LiveDir (viewAt s) n → n ∈ T.dirs := h.liveDir_iff.mp
  have hafter : ∀ {t ino' T' num' r}, FsOk t ino' T' num' E → c.Effect pid s r t →
    c.After E pid s r t := fun ht he =>
    ⟨⟨E, ⟨_, _, _, ht⟩, fun _ => rfl⟩, he⟩
  cases c with
  | «open» path mode =>
    refine wp_answer.mpr (wp_mono (h.wp_doOpen (hroom hc.2) (hlive hc.1) fun hw hn => ⟨hw, hn⟩) ?_)
    rintro a t ⟨ino', num', ht, hcwd, heff, hnone⟩
    refine hafter ht ?_
    rw [FsCall.Effect, ht.viewAt_eq, hview]
    refine ⟨hcwd, heff.imp_right ?_, hnone⟩
    rintro ⟨q, name, i, n, hq, hp, hnew⟩
    refine ⟨q, name, i, n, h.tree.mem_iff.mp hq, hp, hnew,
      fun x => (h.tree.sameDirs ht.tree x).trans (or_iff_left ?_).symm⟩
    exact fun hd => absurd hd.1 (by decide)
  | read fd length =>
    refine wp_then h.wp_doRead ?_
    rintro ⟨a, dest⟩ t ⟨ino', ht, hsame, hcwd, hres⟩
    refine hafter ht ?_
    rw [FsCall.Effect, ht.viewAt_eq, hview]
    refine ⟨hcwd, hsame, ?_⟩
    cases hf : fdOf s.mem pid fd with
    | none =>
      rw [hf] at hres
      cases hres
      rfl
    | some f =>
      rw [hf] at hres
      obtain ⟨nd, hnd, hle⟩ := hres
      refine ⟨nd, ?_, a, rfl, hle⟩
      rw [h.numAt_eq (h.valid_of_fdOf hf)]
      exact hnd
  | write fd buff length =>
    refine wp_then h.wp_doWrite ?_
    rintro a t ⟨ino', ht, hcwd, hres⟩
    refine hafter ht ⟨hcwd, h.sameDirs ht, ?_⟩
    rw [ht.viewAt_eq, hview]
    cases hf : fdOf s.mem pid fd with
    | none =>
      rw [hf] at hres
      exact ⟨congrArg Int.ofNat hres.1, hres.2⟩
    | some f =>
      rw [hf] at hres
      obtain ⟨hle, nd, nd', hnd, hnd', hw⟩ := hres
      refine ⟨a, rfl, hle, nd, nd', ?_⟩
      rw [h.numAt_eq (h.valid_of_fdOf hf)]
      exact ⟨hnd, hnd', hw⟩
  | lseek fd offset whence =>
    refine wp_answer.mpr (wp_mono h.wp_doLseek ?_)
    rintro a t ⟨ht, hdisk, hcwd⟩
    refine hafter ht ?_
    rw [FsCall.Effect, ht.viewAt_eq, hview, hdisk]
    exact ⟨hcwd, rfl⟩
  | close fd =>
    refine wp_answer.mpr (wp_mono h.wp_doClose ?_)
    rintro a t ⟨ino', ht, hcwd, heff⟩
    refine hafter ht ?_
    rw [FsCall.Effect, ht.viewAt_eq, hview]
    refine ⟨hcwd, heff.imp_right ?_⟩
    rintro ⟨n, nd, hnd, hl, hgone⟩
    exact ⟨n, nd, hnd, hl, hgone, h.tree.sameDirs ht.tree⟩
  | mkdir path =>
    refine wp_answer.mpr (wp_mono (h.wp_doMkdir (hroom hc.2) (hlive hc.1) id) ?_)
    rintro a t ⟨ino', T', ht, hprocs, heff⟩
    refine hafter ht ?_
    rw [FsCall.Effect, ht.viewAt_eq, hview]
    refine ⟨cwds_congr hprocs, heff.imp (fun hs => hs.2) ?_⟩
    rintro ⟨q, name, i, n, hq, hp, rfl, hnew⟩
    refine ⟨q, name, i, n, h.tree.mem_iff.mp hq, hp, hnew, fun x => ?_⟩
    rw [LiveDir, LiveDir, ← ht.tree.mem_iff, ← h.tree.mem_iff, or_comm]
    exact or_congr (and_iff_right rfl).symm Iff.rfl
  | rmdir path =>
    refine wp_answer.mpr (wp_mono (h.wp_doRmdir (hroom hc.2) (hlive hc.1)) ?_)
    rintro a t ⟨ino', T', ht, hcwd, heff⟩
    refine hafter ht ?_
    rw [FsCall.Effect, ht.viewAt_eq, hview]
    refine ⟨hcwd, heff.imp (fun hs => ⟨hs.1, hs.2.2⟩) ?_⟩
    rintro ⟨hr, q, name, i, m, hq, hp, rfl, hdots, hgone⟩
    refine ⟨hr, q, name, i, m, h.tree.mem_iff.mp hq, hp, hdots, hgone, fun x => ?_⟩
    rw [LiveDir, LiveDir, ← ht.tree.mem_iff, ← h.tree.mem_iff]
    exact Iff.rfl
  | ln src_path dst_path =>
    refine wp_answer.mpr (wp_mono (h.wp_doLn ((h.room hc.2.2 (by decide)).mono (by decide))
      (hlive hc.1) (hlive hc.2.1) id) ?_)
    rintro a t ⟨ino', ht, hcwd, heff⟩
    refine hafter ht ?_
    rw [FsCall.Effect, ht.viewAt_eq, hview]
    refine ⟨hcwd, heff.imp_right ?_⟩
    rintro ⟨hr, q, name, i, m, nd, hq, hp, hw, hv, hfile, hnew, hadds⟩
    exact ⟨hr, q, name, i, m, nd, h.tree.mem_iff.mp hq, hp, hw, hv, hfile, hnew, hadds,
      h.tree.sameDirs ht.tree⟩
  | rm path =>
    refine wp_answer.mpr (wp_mono (h.wp_doRm (hroom hc.2.1) (hlive hc.1) (h.lastName hc.2.2)) ?_)
    rintro a t ⟨ino', ht, hcwd, heff⟩
    refine hafter ht ?_
    rw [FsCall.Effect, ht.viewAt_eq, hview]
    refine ⟨hcwd, heff.imp_right ?_⟩
    rintro ⟨hr, q, name, i, m, hq, hp, hdots, hgone⟩
    refine ⟨hr, q, name, i, m, h.tree.mem_iff.mp hq, hp, hdots, hgone,
      fun x => (h.tree.sameDirs ht.tree x).trans (and_iff_left_of_imp ?_).symm⟩
    -- what is gone was no directory
    rintro ⟨-, nd, hv, ht⟩ rfl
    obtain ⟨nd', hv', hkind⟩ := hgone.node
    cases hv.symm.trans hv'
    exact absurd (hkind.mp ht) (by decide)
  | ls path verbose =>
    refine wp_answer.mpr (wp_mono (h.wp_doLs (h.room hc.2 (by decide)) (hlive hc.1)) ?_)
    rintro a t ⟨j, k, n, -, ht, hsame, hcwd⟩
    refine ⟨⟨_, ⟨ino, T, num, ht⟩, nofun⟩, ?_⟩
    rw [FsCall.Effect, ht.viewAt_eq, hview]
    exact ⟨hcwd, hsame⟩
  | cd path =>
    refine wp_answer.mpr (wp_mono (h.wp_doCd (hroom hc.2) (hlive hc.1)) ?_)
    rintro a t ⟨ht, hsame, heff⟩
    refine hafter ht ?_
    rw [FsCall.Effect, ht.viewAt_eq, hview]
    refine ⟨hsame, heff.imp_right ?_⟩
    rintro ⟨m, hcwd, hm, hw⟩
    exact ⟨m, hcwd, h.tree.reach.mpr hm, hw⟩

/-- **A proper call that returned.** -/
theorem FsHeld.step (h : FsHeld E s) {c : FsCall} (hc : c.Proper pid s) (hs : Steps s pid c r t) :
    c.After E pid s r t :=
  wp_ok (h.wp_call hc) hs

/-! ## Runs -/

/-- **A run of calls**, each of which meets `P` where it starts. -/
inductive Run (P : ℕ → FsCall → FS → Prop) (s : FS) : FS → Prop
  | nil : Run P s s
  | snoc {t u : FS} {pid : ℕ} {c : FsCall} {r : ℤ × Bytes} (hrun : Run P s t) (hp : P pid c t)
      (hs : Steps t pid c r u) : Run P s u

/-- Calls one after the other, with their answers. -/
def script : List (ℕ × FsCall) → FSM (List (ℤ × Bytes))
  | [] => pure []
  | (pid, c) :: calls => do
    let r ← c.prog pid
    let rs ← script calls
    pure (r :: rs)

variable {P : ℕ → FsCall → FS → Prop} {rs : List (ℤ × Bytes)} {names : List Name} {name : Name}

/-- Calls one after the other are a run. -/
theorem Run.of_script {u : FS} {calls : List (ℕ × FsCall)}
    (hP : ∀ x ∈ calls, ∀ t, P x.1 x.2 t) (hrun : Run P s t)
    (hx : (script calls).exec t = .ok (rs, u)) : Run P s u := by
  induction calls generalizing t rs with
  | nil =>
    cases hx
    exact hrun
  | cons x calls ih =>
    obtain ⟨pid, c⟩ := x
    unfold script at hx
    obtain ⟨r, t', hc, hx⟩ := exists_of_exec_bind hx
    obtain ⟨rs', u', hrest, hx⟩ := exists_of_exec_bind hx
    cases hx
    exact ih (fun x hx => hP x (List.mem_cons_of_mem _ hx))
      (hrun.snoc (hP _ List.mem_cons_self t) hc) hrest

theorem steps_of_script {c : FsCall} (hx : (script [(pid, c)]).exec s = .ok (rs, t)) :
    ∃ r, rs = [r] ∧ Steps s pid c r t := by
  obtain ⟨r, t', hc, hx⟩ := exists_of_exec_bind hx
  cases hx
  exact ⟨r, rfl, hc⟩

/-- **Memory as `init_fs` finds it**: nothing is cached or open, and every process works in the root
directory. -/
structure Booted (m : Mem) : Prop where
  idle : Idle m
  root : ∀ pid, cwds m pid = ROOT_INODE

/-- A card that was formatted after booting. -/
def Formatted (s : FS) : Prop := ∃ s₀ : FS, Booted s₀.mem ∧ doMkfs.exec s₀ = .ok (0, s)

attribute [local irreducible] doMkfs in
theorem Formatted.held (h : Formatted s) :
    FsHeld 0 s ∧ RootOnly (viewAt s) ∧ ∀ pid, cwds s.mem pid = 1 := by
  obtain ⟨s0, hboot, hx⟩ := h
  obtain ⟨-, hprocs, hfds, -, ino, hinv, hroot⟩ := wp_ok hboot.idle.wp_doMkfs hx
  have hok := hinv.formatted hroot hboot.idle hprocs hfds
  refine ⟨⟨ino, _, _, hok⟩, ?_, fun pid => ?_⟩
  · rw [hok.viewAt_eq]
    exact hroot
  · rw [cwds_congr hprocs]
    exact hboot.root pid

/-- With no other references than the descriptors', counts are far from their end. -/
theorem FsHeld.roomAt (h : FsHeld 0 s) : RoomAt 10 s.mem := by
  obtain ⟨ino, T, num, h⟩ := h
  intro k hk htype
  have hcache := h.inv.inodes.cache
  obtain ⟨n, hn, -⟩ := hcache.ref_of_type hk htype
  rw [hcache.count hn, add_zero]
  have hle := (Multiset.count_le_card (k, n) (fdRefs s.mem num)).trans card_fdRefs_le
  unfold NUM_FDESCS at hle
  omega

/-! ## Walks stay in the tree -/

theorem Reach.walk (h : Reach v n) (hw : Walk v.dirs n names m) : Reach v m := by
  induction hw with
  | nil => exact h
  | cons hes he _ ih => exact ih (.entry h ⟨_, hes, he⟩)

theorem Reach.parent {start q : ℕ} (h : LiveDir v start) (hp : Parent v.dirs start path q name) :
    LiveDir v q := by
  cases hp with
  | last hcomp hw hes =>
    obtain ⟨nd, hv, ht, -⟩ := View.dirs_eq_some.mp hes
    exact ⟨h.1.walk hw, nd, hv, ht⟩
  | here => exact h

namespace FsHeld

variable (h : FsHeld E s)
include h

theorem liveDir_root : LiveDir (viewAt s) 1 := by
  obtain ⟨ino, T, num, h⟩ := h
  exact h.liveDir_iff.mpr h.tree.root

/-- Entries of live directories name live inodes. -/
theorem live (hn : LiveDir (viewAt s) n) (he : (viewAt s).Has n i nm m) :
    ∃ nd, viewAt s m = some nd := by
  obtain ⟨ino, T, num, h⟩ := h
  rw [h.viewAt_eq] at hn he ⊢
  obtain ⟨nd, hv, -⟩ := (h.tree.entry (h.tree.mem_iff.mpr hn) he).2
  exact ⟨nd, hv⟩

/-- The first two entries name directories. -/
theorem two_le (hn : LiveDir (viewAt s) n) (he : (viewAt s).Has n i nm m)
    (hm : ¬ (viewAt s).IsDir m) : 2 ≤ i := by
  obtain ⟨ino, T, num, h⟩ := h
  rw [h.viewAt_eq] at hn he hm
  have hn := h.tree.mem_iff.mpr hn
  by_contra hi
  rcases (by omega : i = 0 ∨ i = 1) with rfl | rfl
  · obtain ⟨-, rfl⟩ := he.unique (h.tree.dot hn)
    exact hm (h.tree.dir hn)
  · obtain ⟨-, rfl⟩ := he.unique (h.tree.dotdot hn)
    exact hm (h.tree.dir (h.tree.par_mem hn))

theorem startInode_eq_one (habs : path.headD 0 = 47) : startInode s.mem pid path = 1 := by
  obtain ⟨ino, T, num, h⟩ := h
  rw [h.startInode_eq, if_pos habs]

theorem startsLive (hcwd : path.headD 0 = 47 ∨ LiveDir (viewAt s) (cwds s.mem pid)) :
    StartsLive s pid path := by
  have hroot := h.liveDir_root
  obtain ⟨ino, T, num, h⟩ := h
  unfold StartsLive
  rw [h.startInode_eq]
  split
  · exact hroot
  · next habs => exact hcwd.resolve_left habs

end FsHeld

/-! ## Files with one name -/

/-- **No inode is named twice**, besides `.` and `..`. -/
def Single (v : View) : Prop :=
  ∀ x j nm y i nm' m, LiveDir v x → LiveDir v y → 2 ≤ j → 2 ≤ i → v.Has x j nm m → v.Has y i nm' m →
    x = y ∧ j = i

theorem Single.mono (h : Single v) (hdirs : ∀ x, LiveDir v' x → LiveDir v x)
    (hhas : ∀ x j nm m, LiveDir v' x → 2 ≤ j → v'.Has x j nm m → v.Has x j nm m) : Single v' :=
  fun x j nm y i nm' m hx hy hj hi he he' =>
    h x j nm y i nm' m (hdirs x hx) (hdirs y hy) hj hi (hhas x j nm m hx hj he)
      (hhas y i nm' m hy hi he')

theorem Single.soleName (h : Single (viewAt s)) (hs : FsHeld E s) (hstart : LiveDir (viewAt s) n) :
    SoleName (viewAt s) n path := by
  intro q name i m hp he hm x j nm hx hj hxe
  have hq := Reach.parent hstart hp
  exact h x j nm q i _ m ⟨hx, hxe.isDir⟩ hq hj (hs.two_le hq he hm) hxe he

theorem MadeAt.single {type : UInt16} (h : MadeAt (viewAt s) n path type v') (hs : FsHeld E s)
    (hv : Single (viewAt s)) :
    Single v' := by
  obtain ⟨q, name, i, n, hq, -, hnew, hdirs⟩ := h
  -- an entry of the new view is an old one, or the one that names the new inode
  have hold : ∀ {x j nm m}, LiveDir v' x → 2 ≤ j → v'.Has x j nm m →
      LiveDir (viewAt s) x ∧ (viewAt s).Has x j nm m ∨ x = q ∧ j = i ∧ m = n := by
    intro x j nm m hx hj he
    rcases (hdirs x).mp hx with hx | ⟨ht, rfl⟩
    · have hxn : x ≠ n := by
        rintro rfl
        obtain ⟨-, nd, hnd, -⟩ := hx
        rw [hnew.fresh] at hnd
        cases hnd
      rcases (hnew.adds.has hxn).mp he with he | ⟨rfl, rfl, -, rfl⟩
      · exact .inl ⟨hx, he⟩
      · exact .inr ⟨rfl, rfl, rfl⟩
    · rcases (hnew.dots ht j nm m).mp he with ⟨rfl, -⟩ | ⟨rfl, -⟩ <;> omega
  have hfresh : ∀ {x j nm}, LiveDir (viewAt s) x → ¬ (viewAt s).Has x j nm n := by
    intro x j nm hx he
    obtain ⟨nd, hnd⟩ := hs.live hx he
    rw [hnew.fresh] at hnd
    cases hnd
  intro x j nm y k nm' m hx hy hj hk he he'
  rcases hold hx hj he with ⟨hx, he⟩ | ⟨rfl, rfl, rfl⟩ <;>
    rcases hold hy hk he' with ⟨hy, he'⟩ | ⟨rfl, rfl, hm⟩
  · exact hv x j nm y k nm' m hx hy hj hk he he'
  · exact absurd (hm ▸ he) (hfresh hx)
  · exact absurd he' (hfresh hy)
  · exact ⟨rfl, rfl⟩

theorem GoneAt.single {isdir : Bool} (h : GoneAt v n path isdir v') (hv : Single v) :
    Single v' := by
  obtain ⟨q, name, i, m, hq, -, -, hgone, hdirs⟩ := h
  refine hv.mono (fun x hx => ((hdirs x).mp hx).1) fun x j nm a hx _ he => ?_
  exact ((hgone.frees.has ((hdirs x).mp hx).2).mp he).1

/-- A change of an inode that is no live directory. -/
theorem Single.upd {x : Option Node} (hv : Single v) (hn : ¬ LiveDir v n)
    (hdirs : SameDirs v (upd v n x)) :
    Single (upd v n x) := by
  refine hv.mono (fun y hy => (hdirs y).mp hy) fun y j nm m hy _ he => ?_
  have hyn : y ≠ n := by
    rintro rfl
    exact hn ((hdirs y).mp hy)
  exact (View.has_congr (upd_of_ne hyn)).mp he

theorem FsHeld.file_of_fd {fd : ℤ} {f : ℕ} (h : FsHeld E s) (hf : fdOf s.mem pid fd = some f) :
    ¬ LiveDir (viewAt s) (numAt s f) := by
  obtain ⟨ino, T, num, h⟩ := h
  have hvalid := h.valid_of_fdOf hf
  rintro ⟨-, nd, hnd, ht⟩
  rw [h.viewAt_eq, h.numAt_eq hvalid] at hnd
  obtain ⟨d, hd, htype, -⟩ := h.files f hvalid
  rw [viewOf_some hd] at hnd
  cases hnd
  rw [show d.type = FS_TYPE_DIR from ht] at htype
  exact absurd htype (by decide)

theorem FsHeld.links (h : FsHeld E s) (hn : LiveDir (viewAt s) n) (hnd : viewAt s n = some nd) :
    nd.link_count ≠ 0 := by
  obtain ⟨ino, T, num, h⟩ := h
  rw [h.viewAt_eq] at hnd
  obtain ⟨nd', hnd', -, hl⟩ := h.tree.node (h.liveDir_iff.mp hn)
  cases hnd.symm.trans hnd'
  exact hl

/-- **Without `do_ln`, no inode is ever named twice.** -/
theorem FsCall.Effect.single {c : FsCall} (he : c.Effect pid s r t) (h : FsHeld E s)
    (hv : Single (viewAt s)) (hln : ∀ src dst, c ≠ .ln src dst) : Single (viewAt t) := by
  have hsame : viewAt t = viewAt s → Single (viewAt t) := fun heq => by rw [heq]; exact hv
  cases c with
  | «open» path mode => exact he.2.1.elim hsame fun hm => hm.single h hv
  | read fd length => exact hsame he.2.1
  | write fd buff length =>
    obtain ⟨-, hdirs, hres⟩ := he
    cases hf : fdOf s.mem pid fd with
    | none =>
      rw [hf] at hres
      exact hsame hres.2
    | some f =>
      rw [hf] at hres
      obtain ⟨-, -, -, -, nd', -, hview, -⟩ := hres
      rw [hview] at hdirs ⊢
      exact hv.upd (h.file_of_fd hf) hdirs
  | lseek fd offset whence => exact hsame he.2
  | close fd =>
    rcases he.2 with heq | ⟨n, nd, hnd, hl, hview, hdirs⟩
    · exact hsame heq
    · rw [hview] at hdirs ⊢
      exact hv.upd (fun hn => h.links hn hnd hl) hdirs
  | mkdir path => exact he.2.elim hsame fun hm => hm.single h hv
  | rmdir path => exact he.2.elim (fun hs => hsame hs.2) fun hg => hg.2.single hv
  | ln src_path dst_path => exact absurd rfl (hln src_path dst_path)
  | rm path => exact he.2.elim (fun hs => hsame hs.2) fun hg => hg.2.single hv
  | ls path verbose => exact hsame he.2
  | cd path => exact hsame he.1

/-- In a new root directory, only `.` and `..` lead anywhere. -/
theorem RootOnly.not_walk (h : RootOnly v) (hdots : isDots name = false) :
    ¬ Walk v.dirs 1 (name :: names) m := by
  intro hw
  cases hw with
  | @cons _ a _ i es _ _ hes he _ =>
    obtain ⟨nd, hv, ht, -, hroot⟩ := h.root
    rw [View.dirs_of_node hv ht, hroot] at hes
    cases hes
    unfold isDots at hdots
    rw [Bool.or_eq_false_iff] at hdots
    have hname : Name.trunc name = dotName ∨ Name.trunc name = dotDotName := by
      rcases i with _ | _ | i
      · exact .inl (Prod.mk.inj (Option.some.inj (Option.some.inj he))).1.symm
      · exact .inr (Prod.mk.inj (Option.some.inj (Option.some.inj he))).1.symm
      · cases he
    rcases hname with hn | hn
    · exact absurd (filenameEq_iff.mpr (hn.trans (by decide))) (Bool.eq_false_iff.mp hdots.1)
    · exact absurd (filenameEq_iff.mpr (hn.trans (by decide))) (Bool.eq_false_iff.mp hdots.2)

theorem RootOnly.single (h : RootOnly v) : Single v := by
  intro x j nm y i nm' m hx hy hj hi he he'
  have hx := h.isTree.mem_iff.mpr hx
  obtain ⟨nd, hv, ht, -, hes⟩ := h.root
  have hdirs := View.dirs_of_node hv ht
  cases hx
  have hlt := ((View.has_iff hdirs).mp he).lt
  rw [hes, List.length_cons, List.length_singleton] at hlt
  omega

/-! ## Proper runs -/

/-- The file system is in order after a run of proper calls. -/
theorem Run.held (hs : Formatted s) (hrun : Run (fun pid c t => c.Proper pid t) s t) :
    ∃ E, FsHeld E t := by
  induction hrun with
  | nil => exact ⟨0, hs.held.1⟩
  | snoc _ hp hstep ih =>
    obtain ⟨E, h⟩ := ih
    obtain ⟨⟨E', h', -⟩, -⟩ := h.step hp hstep
    exact ⟨E', h'⟩

/-- The call goes by absolute paths, gives no file a second name and keeps no reference. -/
def FsCall.Absolute : FsCall → Prop
  | .open path _ | mkdir path | rmdir path | rm path | cd path => path.headD 0 = 47
  | ln _ _ | ls _ _ => False
  | _ => True

/-- What calls by absolute paths keep: no reference but the descriptors', and no second name. -/
structure Clean (s : FS) : Prop where
  held : FsHeld 0 s
  single : Single (viewAt s)

/-- Such calls are proper wherever they are made. -/
theorem Clean.proper {c : FsCall} (h : Clean s) (hc : c.Absolute) : c.Proper pid s := by
  have hstart : ∀ {path : Name}, path.headD 0 = 47 → StartsLive s pid path :=
    fun hp => h.held.startsLive (.inl hp)
  have hroom := h.held.roomAt
  cases c with
  | «open» path _ | mkdir path | rmdir path | cd path => exact ⟨hstart hc, hroom⟩
  | rm path => exact ⟨hstart hc, hroom, h.single.soleName h.held (hstart hc)⟩
  | ln _ _ | ls _ _ => exact hc.elim
  | _ => trivial

theorem Clean.step {c : FsCall} (h : Clean s) (hc : c.Absolute) (hs : Steps s pid c r t) :
    Clean t := by
  obtain ⟨⟨E', hheld, hE⟩, heff⟩ := h.held.step (h.proper hc) hs
  have hkeeps : c.keepsRefs = true := by cases c <;> first | rfl | exact hc.elim
  have hln : ∀ src dst, c ≠ .ln src dst := by
    rintro src dst rfl
    exact hc
  rw [hE hkeeps] at hheld
  exact ⟨hheld, heff.single h.held h.single hln⟩

theorem Run.clean (hrun : Run (fun _ c _ => c.Absolute) s t) (hs : Formatted s) : Clean t := by
  induction hrun with
  | nil => exact ⟨hs.held.1, hs.held.2.1.single⟩
  | snoc _ hc hstep ih => exact ih.step hc hstep

/-- A run by absolute paths is a proper one. -/
theorem Run.proper (hrun : Run (fun _ c _ => c.Absolute) s t) (hs : Formatted s) :
    Run (fun pid c t => c.Proper pid t) s t := by
  induction hrun with
  | nil => exact .nil
  | snoc hrun hc hstep ih => exact ih.snoc ((hrun.clean hs).proper hc) hstep

/-! ## A run to look at -/

/-- Nothing in memory. -/
def bareMem : Mem where
  superblock := mkfsSuperblock
  inodes _ := Inode.cleared
  dcache_table _ := []
  dcache_enabled := false
  fdesc_array _ := ⟨0, false, 0, 0, false, false⟩
  procs _ := ⟨1, fun _ => none⟩
  kmallocs _ := true
  full := false

/-- A card of zeros, with nothing in memory. -/
def zeroCard : FS := ⟨bareMem, fun _ => fill 0⟩

theorem booted_bareMem : Booted bareMem :=
  ⟨⟨fun _ _ => ⟨0, rfl⟩, fun _ _ => rfl, fun _ _ => rfl⟩, fun _ => rfl⟩

theorem exec_doMkfs_zeros (m : Mem) :
    doMkfs.exec ⟨m, fun _ => fill 0⟩ = makeRoot.exec ⟨formatMem m, fun _ => fill 0⟩ := by
  have hblank : blank (fun _ => fill 0) = fun _ => fill 0 := funext fun i => ite_self (fill 0)
  rw [exec_doMkfs, hblank]

attribute [local irreducible] doMkfs in
/-- Calls on a new file system that return, with a test of what they leave, are a run to such a
state. -/
theorem exists_run_of_booted {m : Mem} (hm : Booted m) (calls : List (ℕ × FsCall))
    (test : List (ℤ × Bytes) → FS → Bool) (hP : ∀ x ∈ calls, ∀ t, P x.1 x.2 t)
    (h : returns ((makeRoot >>= fun _ => script calls).exec ⟨formatMem m, fun _ => fill 0⟩)
      test = true) :
    ∃ s t rs, Formatted s ∧ Run P s t ∧ (script calls).exec s = .ok (rs, t) ∧ test rs t = true := by
  obtain ⟨rs, t, hx, htest⟩ := exists_of_returns h
  obtain ⟨a, s, hroot, hcalls⟩ := exists_of_exec_bind hx
  have hmkfs := (exec_doMkfs_zeros m).trans hroot
  obtain ⟨rfl, -⟩ := wp_ok hm.idle.wp_doMkfs hmkfs
  exact ⟨s, t, rs, ⟨_, hm, hmkfs⟩, .of_script hP .nil hcalls, hcalls, htest⟩

theorem exists_run (calls : List (ℕ × FsCall)) (test : List (ℤ × Bytes) → FS → Bool)
    (hP : ∀ x ∈ calls, ∀ t, P x.1 x.2 t)
    (h : returns ((makeRoot >>= fun _ => script calls).exec zeroCard) test = true) :
    ∃ s t rs, Formatted s ∧ Run P s t ∧ (script calls).exec s = .ok (rs, t) ∧ test rs t = true :=
  exists_run_of_booted booted_bareMem calls test hP h

/-- The inodes that entries of a name lead to. -/
def namedBy (es : Entries) (nm : Name) : List ℕ :=
  es.filterMap fun e => e.bind fun x => if x.1 = nm then some x.2 else none

/-- An entry of a state whose root is known is one of those. -/
theorem mem_namedBy {es : Entries} (hes : (nodesAt s).dirs 1 = some es)
    (he : (viewAt s).Has 1 i nm m) : m ∈ namedBy es nm := by
  have he := (View.has_iff hes).mp ((View.has_congr (viewAt_root s)).mp he)
  exact List.mem_filterMap.mpr ⟨_, List.mem_of_getElem? he, by simp⟩

/-- And so is where a name leads from there. -/
theorem walk_namedBy {es : Entries} (hes : (nodesAt s).dirs 1 = some es)
    (hw : Walk (viewAt s).dirs 1 [name] m) :
    m ∈ namedBy es (Name.trunc name) := by
  cases hw with
  | cons hes' he hw =>
    cases hw
    exact mem_namedBy hes ⟨_, hes', he⟩

/-- Where the root's entries all name the root, nothing else is reached. -/
theorem reach_root {es : Entries} (hes : (nodesAt s).dirs 1 = some es)
    (hall : ∀ i nm m, HasEntry es i nm m → m = 1) (hr : Reach (viewAt s) n) : n = 1 := by
  induction hr with
  | root => rfl
  | @entry n i m nm _ he ih =>
    subst ih
    rw [View.has_congr (viewAt_root s), View.has_iff hes] at he
    exact hall i nm m he

end OsLab
