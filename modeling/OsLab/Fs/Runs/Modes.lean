import OsLab.Fs.Tree.Runs
/-!
# Open modes

`do_open` decodes its mode by masks that overlap, and neither `do_read` nor `do_write` looks at the
flags that it sets. So the mode that a descriptor was opened with is no part of the state; the run
keeps it beside the state. A mode is respected as long as a call would not have used what the mode
withholds. -/

namespace OsLab

open Prog Bytes

variable {s t u : FS} {E : Multiset Ref} {pid : ℕ} {r : ℤ × Bytes}

def O_RDONLY : ℕ := 1
def O_WRONLY : ℕ := 2

/-- The modes that the descriptors of the processes were opened with. -/
abbrev Modes := ℕ → ℤ → Option ℕ

/-- The modes after a call that answered `a`. -/
def FsCall.modes (M : Modes) (pid : ℕ) (a : ℤ) : FsCall → Modes
  | .open _ mode => if 0 ≤ a then upd M pid (upd (M pid) a (some mode)) else M
  | close fd => upd M pid (upd (M pid) fd none)
  | _ => M

/-- **A run of calls, with the modes of the descriptors.** -/
inductive ModeRun (P : Modes → ℕ → FsCall → FS → Prop) (s : FS) : Modes → FS → Prop
  | nil : ModeRun P s (fun _ _ => none) s
  | snoc {M : Modes} {t u : FS} {pid : ℕ} {c : FsCall} {r : ℤ × Bytes} (hrun : ModeRun P s M t)
      (hp : P M pid c t)
      (hs : Steps t pid c r u) : ModeRun P s (c.modes M pid r.1) u

/-- **The call respects the mode**: a name that is not there is not made by opening it for reading,
a descriptor opened for reading changes no inode, and one opened for writing shows no bytes. -/
def FsCall.Respects (M : Modes) (pid : ℕ) (s : FS) (r : ℤ × Bytes) (t : FS) : FsCall → Prop
  | .open path mode => mode = O_RDONLY →
      (∀ m, ¬ Walk (viewAt s).dirs (startInode s.mem pid path) (components path) m) → r.1 = -1 ∧
      viewAt t = viewAt s
  | write fd _ _ => M pid fd = some O_RDONLY → viewAt t = viewAt s
  | read fd _ => M pid fd = some O_WRONLY → r.1 = 0
  | _ => True

/-- **The call does not use what the mode withholds**: what is opened for reading is there, or its
directory is not; what is written to a descriptor opened for reading is there already; and where one
opened for writing is read, there is nothing. -/
def FsCall.WithinMode (M : Modes) (pid : ℕ) (s : FS) : FsCall → Prop
  | .open path mode => mode = O_RDONLY →
      (∃ m, Walk (viewAt s).dirs (startInode s.mem pid path) (components path) m) ∨
        ∀ q name, ¬ Parent (viewAt s).dirs (startInode s.mem pid path) path q name
  | write fd buff length => M pid fd = some O_RDONLY → ∀ f nd, fdOf s.mem pid fd = some f →
      viewAt s (numAt s f) = some nd →
      (s.mem.fdesc_array f).wpos.toNat + length.toNat ≤ nd.size.toNat ∧
        ∀ x < length.toNat, buff x = nd.bytes ((s.mem.fdesc_array f).wpos.toNat + x)
  | read fd length => M pid fd = some O_WRONLY → ∀ f nd, fdOf s.mem pid fd = some f →
      viewAt s (numAt s f) = some nd →
      length = 0 ∨ nd.size ≤ (s.mem.fdesc_array f).rpos
  | _ => True

variable {M : Modes} {P : Modes → ℕ → FsCall → FS → Prop}

/-- **One call.** -/
theorem FsCall.Effect.respects {c : FsCall} (he : c.Effect pid s r t) (hc : c.WithinMode M pid s) :
    c.Respects M pid s r t := by
  cases c with
  | «open» path mode =>
    intro hmode hnone
    rcases hc hmode with ⟨m, hm⟩ | hparent
    · exact absurd hm (hnone m)
    · exact he.2.2 hnone fun _ => hparent
  | write fd buff length =>
    intro hmode
    obtain ⟨-, -, hres⟩ := he
    cases hf : fdOf s.mem pid fd with
    | none =>
      rw [hf] at hres
      exact hres.2
    | some f =>
      rw [hf] at hres
      obtain ⟨a, -, hle, nd, nd', hnd, hview, hw⟩ := hres
      obtain ⟨hsize, hsame⟩ := hc hmode f nd hf hnd
      -- what is written is there already
      have heq := hw.eq_of_same (by omega) fun x hx => hsame x (by omega)
      rw [hview, heq, ← hnd, upd_eq_self]
  | read fd length =>
    intro hmode
    obtain ⟨-, -, hres⟩ := he
    cases hf : fdOf s.mem pid fd with
    | none =>
      rw [hf] at hres
      rw [hres]
    | some f =>
      rw [hf] at hres
      obtain ⟨nd, hnd, a, ha, hle⟩ := hres
      have hzero : a = 0 := by
        rcases hc hmode f nd hf hnd with rfl | hpos
        · rw [UInt32.toNat_zero, Nat.zero_min] at hle
          omega
        · rw [UInt32.le_iff_toNat_le] at hpos
          omega
      rw [ha, hzero]
      rfl
  | _ => trivial

theorem ModeRun.held (hP : ∀ M pid c t, P M pid c t → c.Proper pid t)
    (hs : Formatted s) (hrun : ModeRun P s M t) : ∃ E, FsHeld E t := by
  induction hrun with
  | nil => exact ⟨0, hs.held.1⟩
  | snoc _ hp hstep ih =>
    obtain ⟨E, h⟩ := ih
    obtain ⟨⟨E', h', -⟩, -⟩ := h.step (hP _ _ _ _ hp) hstep
    exact ⟨E', h'⟩

/-- **Open modes are respected** by every call of every run from a format whose calls meet no other
defect and do not use what a mode withholds. -/
theorem modes_respected {M : Modes} {c : FsCall} (hs : Formatted s)
    (hrun : ModeRun (fun M pid c s => c.Proper pid s ∧ c.WithinMode M pid s) s M t)
    (hc : c.Proper pid t ∧ c.WithinMode M pid t) (hstep : Steps t pid c r u) :
    c.Respects M pid t r u := by
  obtain ⟨E, h⟩ := hrun.held (fun _ _ _ _ hp => hp.1) hs
  exact (h.step hc.1 hstep).2.respects hc.2

/-- The modes after calls with their answers. -/
def modesAfter : Modes → List (ℕ × FsCall) → List (ℤ × Bytes) → Modes
  | M, (pid, c) :: calls, r :: rs => modesAfter (c.modes M pid r.1) calls rs
  | M, _, _ => M

theorem ModeRun.of_script {calls : List (ℕ × FsCall)} {rs : List (ℤ × Bytes)}
    (hP : ∀ M, ∀ x ∈ calls, ∀ t, P M x.1 x.2 t) (hrun : ModeRun P s M t)
    (hx : (script calls).exec t = .ok (rs, u)) :
    ModeRun P s (modesAfter M calls rs) u := by
  induction calls generalizing t M rs with
  | nil =>
    cases hx
    exact hrun
  | cons x calls ih =>
    obtain ⟨pid, c⟩ := x
    unfold script at hx
    obtain ⟨r, t', hc, hx⟩ := exists_of_exec_bind hx
    obtain ⟨rs', u', hrest, hx⟩ := exists_of_exec_bind hx
    cases hx
    exact ih (fun M x hx => hP M x (List.mem_cons_of_mem _ hx))
      (hrun.snoc (hP M _ List.mem_cons_self t) hc) hrest

/-- A byte to write. -/
def oneByte : Bytes := fun _ => 1

/-- A process makes a file and writes a byte. It opens the file for reading too, and writes the byte
there again. -/
theorem modes_respected_rewrite : ∃ s t u M r, Formatted s ∧
    ModeRun (fun M pid c s => c.Proper pid s ∧ c.WithinMode M pid s) s M t ∧ M 1 0 = some O_WRONLY ∧
      M 1 1 = some O_RDONLY ∧
    Steps t 1 (.write 1 oneByte 1) r u ∧ r.1 = 1 ∧ viewAt u = viewAt t := by
  obtain ⟨s, _, _, hs, -, hnil, htest⟩ := exists_run (P := fun _ _ _ => True) []
    (fun _ s => returns (((FsCall.open (ascii "/x") O_WRONLY).prog 1).exec s) fun r1 t1 =>
    decide (r1.1 = 0) &&
      returns (((FsCall.write 0 oneByte 1).prog 1).exec t1) fun _ t2 =>
      decide ((nodesAt t2).dirs 1 = some [some (dotName, 1), some (dotDotName, 1),
        some (ascii "x", 2)]) &&
      returns (((FsCall.open (ascii "/x") O_RDONLY).prog 1).exec t2) fun r3 t3 =>
      decide (r3.1 = 1 ∧ fdOf t3.mem 1 1 = some 1 ∧ numAt t3 1 = 2 ∧
        (t3.mem.fdesc_array 1).wpos = 0 ∧
        (cachedAt t3.mem 2).isSome = true ∧ (nodesAt t3 2).map
          (fun nd => (nd.size, nd.bytes 0)) = some (1, 1)) &&
      returns (((FsCall.write 1 oneByte 1).prog 1).exec t3) fun r _ => decide (r.1 = 1)) (by simp)
        (by decide +kernel)
  cases hnil
  obtain ⟨r1, t1, h1, htest⟩ := exists_of_returns htest
  obtain ⟨hr1, htest⟩ := Bool.and_eq_true_iff.mp htest
  obtain ⟨r2, t2, h2, htest⟩ := exists_of_returns htest
  obtain ⟨hes, htest⟩ := Bool.and_eq_true_iff.mp htest
  obtain ⟨r3, t3, h3, htest⟩ := exists_of_returns htest
  obtain ⟨hat, htest⟩ := Bool.and_eq_true_iff.mp htest
  obtain ⟨r, u, hstep, hr⟩ := exists_of_returns htest
  have hr1 := of_decide_eq_true hr1
  have hes := of_decide_eq_true hes
  obtain ⟨hr3, hfd, hnum, hwpos, hcached, hnode⟩ := of_decide_eq_true hat
  have hclean0 : Clean s := ⟨hs.held.1, hs.held.2.1.single⟩
  have hclean1 := hclean0.step (c := .open (ascii "/x") O_WRONLY) rfl h1
  have hclean2 := hclean1.step (c := .write 0 oneByte 1) trivial h2
  have hclean3 := hclean2.step (c := .open (ascii "/x") O_RDONLY) rfl h3
  -- the file is there when it is opened for reading
  have hwalk : Walk (viewAt t2).dirs (startInode t2.mem 1 (ascii "/x"))
      (components (ascii "/x")) 2 := by
    rw [hclean2.held.startInode_eq_one rfl, (by decide : components (ascii "/x") = [ascii "x"])]
    exact .cons (i := 2) ((dirs_viewAt_root t2).trans hes) rfl (.nil 2)
  have hrun1 : ModeRun (fun M pid c s => c.Proper pid s ∧ c.WithinMode M pid s) s _ t1 :=
    .snoc .nil (c := .open (ascii "/x") O_WRONLY) ⟨hclean0.proper rfl,
      fun hmode => absurd hmode (by decide)⟩ h1
  have hrun2 := hrun1.snoc (c := .write 0 oneByte 1) ⟨hclean1.proper trivial, fun hmode => ?_⟩ h2
  have hrun3 := hrun2.snoc (c := .open (ascii "/x") O_RDONLY) ⟨hclean2.proper rfl,
    fun _ => .inl ⟨2, hwalk⟩⟩ h3
  · have hwithin : ∀ M, (FsCall.write 1 oneByte 1).WithinMode M 1 t3 := by
      intro _ _ f nd hf hnd
      cases hfd.symm.trans hf
      rw [hnum, viewAt_cached hcached] at hnd
      rw [hnd] at hnode
      obtain ⟨hsize, hbyte⟩ := Prod.mk.inj (Option.some.inj hnode)
      rw [hwpos, hsize]
      refine ⟨by decide, fun x hx => ?_⟩
      obtain rfl : x = 0 := Nat.lt_one_iff.mp hx
      exact hbyte.symm
    refine ⟨s, t3, u, _, r, hs, hrun3, ?_, ?_, hstep, of_decide_eq_true hr,
      modes_respected hs hrun3 (c := .write 1 oneByte 1) ⟨trivial, hwithin _⟩ hstep ?_⟩
    all_goals
      simp only [FsCall.modes, hr1, hr3]
      decide
  · rw [FsCall.modes, hr1] at hmode
    exact absurd hmode (by decide)

/-- **No mode is respected.** On a new file system, opening a name for reading makes it; a
descriptor opened for reading is written to; and one opened for writing is read. -/
theorem modes_ignored : (∃ s u r, Formatted s ∧ Steps s 1 (.open (ascii "/x") O_RDONLY) r u ∧
      ¬ (FsCall.open (ascii "/x") O_RDONLY).Respects (fun _ _ => none) 1 s r u) ∧
    (∃ s t u M r, Formatted s ∧ ModeRun (fun _ _ _ _ => True) s M t ∧
      Steps t 1 (.write 0 oneByte 1) r u ∧
      ¬ (FsCall.write 0 oneByte 1).Respects M 1 t r u) ∧
    ∃ s t u M r, Formatted s ∧ ModeRun (fun _ _ _ _ => True) s M t ∧ Steps t 1 (.read 0 1) r u ∧
      ¬ (FsCall.read 0 1).Respects M 1 t r u := by
  refine ⟨?_, ?_, ?_⟩
  · obtain ⟨s, u, rs, hs, -, hx, htest⟩ := exists_run
      (P := fun _ _ _ => True) [(1, .open (ascii "/x") O_RDONLY)]
      (fun rs _ => decide (rs.map Prod.fst = [0])) (fun _ _ _ => trivial) (by decide +kernel)
    obtain ⟨r, rfl, hstep⟩ := steps_of_script hx
    have hr : r.1 = 0 := List.head_eq_of_cons_eq (of_decide_eq_true htest)
    refine ⟨s, u, r, hs, hstep, fun hresp => ?_⟩
    obtain ⟨⟨ino, T, num, h⟩, hroot, -⟩ := hs.held
    have hstart : startInode s.mem 1 (ascii "/x") = 1 := h.startInode_eq
    have hcomp : components (ascii "/x") = [ascii "x"] := by decide
    refine absurd ((hresp rfl fun m => ?_).1.symm.trans hr) (by decide)
    rw [hstart, hcomp]
    exact hroot.not_walk (by decide)
  · obtain ⟨s, t, rs, hs, -, hx, htest⟩ := exists_run
      (P := fun _ _ _ => True) [(1, .open (ascii "/x") O_RDONLY)]
      (fun rs t => decide (modesAfter (fun _ _ => none) [(1, .open (ascii "/x") O_RDONLY)] rs 1 0 =
        some O_RDONLY ∧
        (cachedAt t.mem 2).isSome ∧ (nodesAt t 2).map (·.size) = some 0) &&
        returns (((FsCall.write 0 oneByte 1).prog 1).exec t) fun _ u =>
          decide ((cachedAt u.mem 2).isSome ∧ (nodesAt u 2).map (·.size) = some 1))
      (fun _ _ _ => trivial) (by decide +kernel)
    rw [Bool.and_eq_true] at htest
    obtain ⟨hmode, hlive, hsize⟩ := of_decide_eq_true htest.1
    obtain ⟨r, u, hstep, hafter⟩ := exists_of_returns htest.2
    obtain ⟨hlive', hsize'⟩ := of_decide_eq_true hafter
    refine ⟨s, t, u, _, r, hs, .of_script (fun _ _ _ _ => trivial) .nil hx, hstep, fun hresp => ?_⟩
    have hsame := congrFun (hresp hmode) 2
    rw [viewAt_cached hlive, viewAt_cached hlive'] at hsame
    rw [hsame, hsize] at hsize'
    exact absurd hsize' (by decide)
  · obtain ⟨s, t, rs, hs, -, hx, htest⟩ := exists_run (P := fun _ _ _ => True)
      [(1, .open (ascii "/x") O_WRONLY), (1, .write 0 oneByte 1)]
      (fun rs t => decide (modesAfter (fun _ _ => none) [(1, .open (ascii "/x") O_WRONLY),
        (1, .write 0 oneByte 1)] rs 1 0 =
        some O_WRONLY) && returns (((FsCall.read 0 1).prog 1).exec t) fun r _ => decide (r.1 = 1))
      (fun _ _ _ => trivial) (by decide +kernel)
    rw [Bool.and_eq_true] at htest
    obtain ⟨r, u, hstep, hread⟩ := exists_of_returns htest.2
    refine ⟨s, t, u, _, r, hs, .of_script (fun _ _ _ _ => trivial) .nil hx, hstep, fun hresp => ?_⟩
    exact absurd ((of_decide_eq_true hread).symm.trans (hresp (of_decide_eq_true htest.1)))
      (by decide)

end OsLab
