import OsLab.Fs.Tree.Runs
/-!
# Working directories

`cwd_inode` is a number and no reference. A process may go to a file, and the directory that it
works in may be removed. Where neither happens, every working directory is a live directory along
every run, so that every call starts at a directory that is there. -/

namespace OsLab

open Prog Bytes

variable {s t : FS} {pid : ℕ} {r : ℤ × Bytes} {n : ℕ}

/-- The calls that go to, make or remove a directory, or name a file. -/
def FsCall.isNaming : FsCall → Bool
  | cd _ => true
  | mkdir _ => true
  | rmdir _ => true
  | .open _ _ => true
  | rm _ => true
  | _ => false

/-- **The call takes no working directory away**: it goes to a directory, and removes none that a
process works in. -/
def FsCall.SparesCwds (pid : ℕ) (s : FS) : FsCall → Prop
  | cd path => ∀ m, Walk (viewAt s).dirs (startInode s.mem pid path) (components path) m →
      (viewAt s).IsDir m
  | rmdir path => ∀ q name i m, Parent (viewAt s).dirs (startInode s.mem pid path) path q name →
      isDots name = false →
      (viewAt s).Has q i (Name.trunc name) m → (viewAt s).IsDir m →
        (∀ j nm a, 2 ≤ j → ¬ (viewAt s).Has m j nm a) →
      ∀ pid', cwds s.mem pid' ≠ m
  | _ => True

/-- Every process works in a live directory. -/
def CwdsLive (s : FS) : Prop := ∀ pid, LiveDir (viewAt s) (cwds s.mem pid)

variable {c : FsCall}

/-- **One call.** -/
theorem FsCall.Effect.cwdsLive (he : c.Effect pid s r t) (h : CwdsLive s) (hc : c.SparesCwds pid s)
    (hname : c.isNaming = true) : CwdsLive t := by
  intro pid'
  have hsame : cwds t.mem = cwds s.mem → viewAt t = viewAt s →
    LiveDir (viewAt t) (cwds t.mem pid') := fun hcwd hv => by
    rw [hcwd, hv]
    exact h pid'
  have hmade : ∀ {path type}, cwds t.mem = cwds s.mem →
    MadeAt (viewAt s) (startInode s.mem pid path) path type (viewAt t) →
      LiveDir (viewAt t) (cwds t.mem pid') := by
    rintro path type hcwd ⟨_, _, _, n, _, _, _, hdirs⟩
    rw [hcwd]
    exact (hdirs _).mpr (.inl (h pid'))
  cases c with
  | «open» path mode => exact he.2.1.elim (hsame he.1) (hmade he.1)
  | mkdir path => exact he.2.elim (hsame he.1) (hmade he.1)
  | rmdir path =>
    rcases he.2 with ⟨-, hv⟩ | ⟨-, q, name, i, m, hq, hp, hdots, hgone, hdirs⟩
    · exact hsame he.1 hv
    · -- the directory that goes was empty, and nobody's
      rw [he.1]
      refine (hdirs _).mpr ⟨h pid', ?_⟩
      obtain ⟨nd, hnd, hkind⟩ := hgone.node
      exact hc q name i m hp hdots hgone.frees.was ⟨nd, hnd, hkind.mpr rfl⟩ (hgone.empty rfl) pid'
  | rm path =>
    rcases he.2 with ⟨-, hv⟩ | ⟨-, q, name, i, m, hq, hp, hdots, hgone, hdirs⟩
    · exact hsame he.1 hv
    · rw [he.1]
      refine (hdirs _).mpr ⟨h pid', ?_⟩
      rintro rfl
      obtain ⟨-, nd, hnd, ht⟩ := h pid'
      obtain ⟨nd', hnd', hkind⟩ := hgone.node
      cases hnd.symm.trans hnd'
      exact absurd (hkind.mp ht) (by decide)
  | cd path =>
    obtain ⟨hv, hcwd | ⟨m, hcwd, hm, hw⟩⟩ := he
    · exact hsame hcwd hv
    · rw [hcwd, hv, upd_apply]
      split
      · exact ⟨hm, hc m hw⟩
      · exact h pid'
  | _ => cases hname

/-- What these runs keep. -/
structure Housed (s : FS) : Prop where
  held : FsHeld 0 s
  single : Single (viewAt s)
  cwds : CwdsLive s

theorem Formatted.housed (h : Formatted s) : Housed s := by
  obtain ⟨hheld, hroot, hcwd⟩ := h.held
  refine ⟨hheld, hroot.single, fun pid => ?_⟩
  rw [hcwd pid]
  exact hheld.liveDir_root

/-- A call that spares the working directories, and what it does. -/
theorem Housed.step (h : Housed s) (hname : c.isNaming = true) (hc : c.SparesCwds pid s)
    (hs : Steps s pid c r t) : Housed t ∧ c.Effect pid s r t := by
  have hstart : ∀ path, StartsLive s pid path := fun path => h.held.startsLive (.inr (h.cwds pid))
  have hroom := h.held.roomAt
  have hproper : c.Proper pid s := by
    cases c with
    | «open» path _ | mkdir path | rmdir path | cd path => exact ⟨hstart path, hroom⟩
    | rm path => exact ⟨hstart path, hroom, h.single.soleName h.held (hstart path)⟩
    | ln _ _ | ls _ _ => cases hname
    | _ => trivial
  obtain ⟨⟨E', hheld, hE⟩, heff⟩ := h.held.step hproper hs
  have hkeeps : c.keepsRefs = true := by cases c <;> first | rfl | cases hname
  have hln : ∀ src dst, c ≠ .ln src dst := by
    rintro src dst rfl
    cases hname
  rw [hE hkeeps] at hheld
  exact ⟨⟨hheld, heff.single h.held h.single hln, heff.cwdsLive h.cwds hc hname⟩, heff⟩

/-- **Every working directory is a live directory**, in every run from a format in which no process
goes to anything but a directory, and no directory is removed that a process works in. -/
theorem cwd_live (hs : Formatted s)
    (hrun : Run (fun pid c s => c.isNaming = true ∧ c.SparesCwds pid s) s t) (pid : ℕ) :
    LiveDir (viewAt t) (cwds t.mem pid) := by
  have hhoused : Housed t := by
    induction hrun with
    | nil => exact hs.housed
    | snoc _ hp hstep ih => exact (ih.step hp.1 hp.2 hstep).1
  exact hhoused.cwds pid

/-- Of two directories in the root, a process goes to the first and another process removes the
second. -/
theorem cwd_live_cd : ∃ s t, Formatted s ∧ Run
    (fun pid c s => c.isNaming = true ∧ c.SparesCwds pid s) s t ∧
    cwds t.mem 1 = 2 ∧ (nodesAt t).dirs 1 = some
      [some (dotName, 1), some (dotDotName, 1), some (ascii "a", 2), none] ∧
    LiveDir (viewAt t) (cwds t.mem 1) := by
  let es : Entries := [some (dotName, 1), some (dotDotName, 1), some (ascii "a", 2),
    some (ascii "b", 3)]
  obtain ⟨s, _, _, hs, -, hnil, htest⟩ := exists_run (P := fun _ _ _ => True) []
    (fun _ s => returns (((FsCall.mkdir (ascii "/a")).prog 1).exec s) fun _ t1 =>
      returns (((FsCall.mkdir (ascii "/b")).prog 2).exec t1) fun _ t2 =>
      decide ((nodesAt t2).dirs 1 = some es ∧ (inodeAt t2 2).type = FS_TYPE_DIR ∧
        startInode t2.mem 1 (ascii "/a") = 1) &&
      returns (((FsCall.cd (ascii "/a")).prog 1).exec t2) fun _ t3 =>
      decide ((nodesAt t3).dirs 1 = some es ∧ startInode t3.mem 2 (ascii "/b") = 1 ∧
        cwds t3.mem 1 = 2) &&
      returns (((FsCall.rmdir (ascii "/b")).prog 2).exec t3) fun _ t4 =>
      decide (cwds t4.mem 1 = 2 ∧
        (nodesAt t4).dirs 1 = some [some (dotName, 1), some (dotDotName, 1), some (ascii "a", 2),
        none])) (by simp)
    (by decide +kernel)
  cases hnil
  obtain ⟨_, t1, h1, htest⟩ := exists_of_returns htest
  obtain ⟨_, t2, h2, htest⟩ := exists_of_returns htest
  obtain ⟨hat2, htest⟩ := Bool.and_eq_true_iff.mp htest
  obtain ⟨_, t3, h3, htest⟩ := exists_of_returns htest
  obtain ⟨hat3, htest⟩ := Bool.and_eq_true_iff.mp htest
  obtain ⟨_, t4, h4, htest⟩ := exists_of_returns htest
  obtain ⟨hes2, htype, hstart2⟩ := of_decide_eq_true hat2
  obtain ⟨hes3, hstart3, hcwd3⟩ := of_decide_eq_true hat3
  obtain ⟨hset1, heff1⟩ := hs.housed.step (c := .mkdir (ascii "/a")) rfl trivial h1
  obtain ⟨hset2, heff2⟩ := hset1.step (c := .mkdir (ascii "/b")) rfl trivial h2
  have hcd : (FsCall.cd (ascii "/a")).SparesCwds 1 t2 := by
    intro m hw
    rw [hstart2, (by decide : components (ascii "/a") = [ascii "a"])] at hw
    obtain rfl : m = 2 := List.mem_singleton.mp (walk_namedBy hes2 hw)
    have hreach : Reach (nodesAt t2) 2 := .entry (i := 2) .root ((View.has_iff hes2).mpr rfl)
    refine ⟨nodeOf t2.disk (inodeAt t2 2), (if_pos (.inl hreach)).trans (if_neg ?_), htype⟩
    rw [htype]
    decide
  obtain ⟨hset3, hview, hcwds⟩ := hset2.step (c := .cd (ascii "/a")) rfl hcd h3
  have hrmdir : (FsCall.rmdir (ascii "/b")).SparesCwds 2 t3 := by
    intro q name i m hpar _ he _ _ pid'
    rw [hstart3] at hpar
    obtain ⟨rfl, rfl⟩ := hpar.of_single (by decide : _ = [ascii "b"]) (by decide)
    obtain rfl : m = 3 := List.mem_singleton.mp (mem_namedBy hes3 he)
    -- the others are in the root still
    by_cases hpid : pid' = 1
    · rw [hpid, hcwd3]
      decide
    · have hroot : cwds t3.mem pid' = 1 := by
        rcases hcwds with hcwds | ⟨_, hcwds, -⟩
        · rw [hcwds, heff2.1, heff1.1, hs.held.2.2]
        · rw [hcwds, upd_of_ne hpid, heff2.1, heff1.1, hs.held.2.2]
      rw [hroot]
      decide
  have hrun : Run (fun pid c s => c.isNaming = true ∧ c.SparesCwds pid s) s t4 :=
    .snoc (.snoc (.snoc (.snoc .nil (c := .mkdir _) ⟨rfl, trivial⟩ h1) (c := .mkdir _) ⟨rfl,
      trivial⟩ h2) ⟨rfl, hcd⟩ h3)
      ⟨rfl, hrmdir⟩ h4
  obtain ⟨hcwd4, hes4⟩ := of_decide_eq_true htest
  exact ⟨s, t4, hs, hrun, hcwd4, hes4, cwd_live hs hrun 1⟩

/-- **A directory that a process works in is removed**, and the process works in an inode that is
gone. -/
theorem cwd_dead : ∃ s t, Formatted s ∧ Run (fun _ c _ => c.isNaming = true) s t ∧
    ¬ LiveDir (viewAt t) (cwds t.mem 1) := by
  obtain ⟨s, t, rs, hs, hrun, -, htest⟩ := exists_run (P := fun _ c _ => c.isNaming = true)
    [(1, .mkdir (ascii "/a")), (1, .cd (ascii "/a")), (2, .rmdir (ascii "/a"))]
    (fun _ t => decide (cwds t.mem 1 = 2 ∧ (nodesAt t).dirs 1 = some [some (dotName, 1),
      some (dotDotName, 1), none]))
    (by simp [FsCall.isNaming]) (by decide +kernel)
  obtain ⟨hcwd, hes⟩ := of_decide_eq_true htest
  refine ⟨s, t, hs, hrun, fun hlive => ?_⟩
  have hroot : cwds t.mem 1 = 1 := reach_root hes (fun i nm m he => ?_) hlive.1
  · rw [hcwd] at hroot
    exact absurd hroot (by decide)
  · rcases i with _ | _ | _ | i <;> simp [HasEntry] at he
    · exact he.2.symm
    · exact he.2.symm

end OsLab
