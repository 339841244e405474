import OsLab.Sched.Careful
/-!
# The tree of processes along runs

The runs in which the processes stay one family (`Kindly`). A process that ends takes its subtree
with it, except for what runs on another processor: that is only marked, and outlives its parent. A
kill of a process that runs, in turn, marks that process and none of its children. Where neither
happens, the ancestors of a process are live processes up to one of the kernel's, and a kill is one
of a subtree. -/

namespace OsLab.Sched

open DList (Rep)
open Relation (ReflTransGen)
open Kernel

namespace Kernel

variable {s s' : Kernel} {L L' : Lists} {R : Slot → List Slot} {c : Cpu} {e : Event} {p x t : Slot}
  {next : Slot} {drops : Slot → List ℕ}

/-! ## Steps that leave no orphan -/

/-- **The steps that keep the family together.** -/
structure Kindly (s : Kernel) (e : Event) : Prop where
  /-- what another processor runs is below who is to end only if it is that
  process itself, has no children and has not been killed before -/
  spares : ∀ c t, Targets s c e t → ∀ c' ≠ c, Below s t (s.current c') →
    s.current c' = t ∧ s.status t = .running ∧ ∀ x, ¬ Child s t x
  /-- nobody waits on a mutex that is made -/
  unused : ∀ p key i, Performs s e p (.mutexInit key) → s.mutexAlloc key = some i →
    ∀ w, (s.links (.node w)).container ≠ some (.mutex i)

/-- What runs is run by a processor. -/
theorem Core.exists_current (h : Core s L) (hp : s.status p = .running) : ∃ c, s.current c = p := by
  by_contra hno
  rcases h.idle p fun c he => hno ⟨c, he⟩ with ⟨q, -, ⟨hst, -⟩ | hst⟩ | ⟨hst, -⟩
  all_goals exact nomatch hp.symm.trans hst

/-- The ancestors of a live process are alive. -/
theorem Rooted.above (h : Rooted s) (hb : Below s t x) (hx : s.status x ≠ .exited) : s.status t ≠ .exited := by
  rcases ReflTransGen.cases_head hb with rfl | ⟨p, hc, -⟩
  · exact hx
  · exact h t p hc

/-- **`do_kill` refuses the caller and its ancestors**, and nobody else. -/
theorem Tree.open_iff (h : Tree s R) (hroot : Rooted s) (hc : s.status (s.current c) ≠ .exited)
    (hx : s.status x ≠ .exited) : Open s c x ↔ ¬ Below s x (s.current c) := by
  obtain ⟨b, hb, hspec⟩ := h.isAncestor_eq hroot hc s.rank_lt_FUEL
  have hbelow : b = true ↔ Below s x (s.current c) := by
    refine hspec.trans ⟨fun ⟨a, ha, hpid⟩ => ?_, fun hb => ⟨x, hb, rfl⟩⟩
    rw [h.inj x a hx (hroot.above ha hc) hpid.symm]
    exact ha
  unfold Open
  rw [hb, ← hbelow]
  cases b <;> simp

theorem falls_of_below (hb : Below s t x) (hstruck : ∀ y, Below s t y → Struck s c y) : Falls s c t x := by
  induction hb with
  | refl => exact .self (hstruck _ .refl)
  | tail hb hc ih => exact .child ih hc (hstruck _ (hb.tail hc))

/-- Who is to end is the caller, or nobody above it. -/
theorem Targets.self_or_open (h : Targets s c e t) : t = s.current c ∨ Open s c t := by
  cases h with
  | exit => exact .inl rfl
  | enter _ => exact .inl rfl
  | resume _ => exact .inl rfl
  | kill _ _ _ ho => exact .inr ho

section

variable (h : Core s L) (ht : Tree s R) (hroot : Rooted s) (hk : Kindly s e)

include h ht hroot hk in
/-- In a kindly step who is to end is only marked, or nothing below it runs
but the caller. -/
theorem Kindly.struck (htar : Targets s c e t) (hrun : t = s.current c ∨ s.status t ≠ .running)
    (hb : Below s t x) (hx : x ≠ s.current c) : Struck s c x := by
  have halive := hb.alive (htar.alive h)
  refine ⟨(ht.open_iff hroot (h.current_alive c) halive).mpr fun hup => ?_, fun hst => ?_⟩
  · -- it is not above the caller
    rcases htar.self_or_open with rfl | ho
    · rcases ReflTransGen.cases_tail hb with rfl | ⟨p, hp, hc⟩
      · exact hx rfl
      · exact ht.not_below_child hc (hup.trans hp)
    · exact (ht.open_iff hroot (h.current_alive c) (htar.alive h)).mp ho (hb.trans hup)
  · -- and no other processor runs it
    obtain ⟨c', rfl⟩ := h.exists_current hst
    have hne : c' ≠ c := fun hcc => hx (hcc ▸ rfl)
    obtain ⟨heq, hst', -⟩ := hk.spares c t htar c' hne hb
    rcases hrun with rfl | hrun
    · exact hne (h.inj heq)
    · exact hrun hst'

include h ht hroot hk in
/-- **What ends in a kindly step is a subtree**: that of who is to end. -/
theorem Kindly.fallen_of_below (htar : Targets s c e t)
    (hrun : t = s.current c ∨ s.status t ≠ .running) (hb : Below s t x) : Fallen s e x := by
  refine ⟨c, t, htar, ?_⟩
  rcases htar.self_or_open with rfl | ho
  · refine .inl ⟨rfl, ?_⟩
    rcases ReflTransGen.cases_head hb with rfl | ⟨y, hy, hby⟩
    · exact .inl rfl
    · refine .inr ⟨y, hy, falls_of_below hby fun z hz => ?_⟩
      refine hk.struck h ht hroot htar (.inl rfl) (.head hy hz) ?_
      rintro rfl
      exact ht.not_below_child hy hz
  · refine .inr (falls_of_below hb fun z hz => hk.struck h ht hroot htar hrun hz ?_)
    rintro rfl
    exact (ht.open_iff hroot (h.current_alive c) (htar.alive h)).mp ho hz

include h ht hroot hk in
/-- So nobody is left behind. -/
theorem Kindly.fallen_child (hf : Fallen s e p) (hc : Child s p x) : Fallen s e x := by
  obtain ⟨c, t, htar, hb, -, hrun⟩ := hf.exists_target
  exact hk.fallen_of_below h ht hroot htar hrun (hb.tail hc)

end

/-! ## Runs -/

/-- The state between the steps of a run that keeps the family together. -/
structure Together (s : Kernel) (L : Lists) (R : Slot → List Slot) : Prop extends Settled s L R where
  rooted : Rooted s

/-- A kindly step is careful: a control block is free for use once its children are gone. -/
theorem Together.careful (h : Together s L R) (hk : Kindly s e) : Careful s e where
  spares c t htar c' hne hkill hb := by
    obtain ⟨heq, hrun, -⟩ := hk.spares c t htar c' hne hb
    rw [heq, hrun] at hkill
    exact nomatch hkill
  reuse p q _ hq x hx := h.rooted q x hx (allocPcb_spec hq).2
  unused := hk.unused

theorem Together.step (h : Together s L R) (hk : Kindly s e) (he : s.step e = .ok s') :
    ∃ L' R', Together s' L' R' := by
  obtain ⟨L', R', ha, h'⟩ := (h.post_step (h.careful hk)).of_ok he
  exact ⟨L', R', h', ha.tree.rooted h.rooted fun p x hf hc =>
    hk.fallen_child h.core h.tree h.rooted hf hc⟩

theorem together_of_kindly (h : Reach Kindly s) : ∃ L R, Together s L R := by
  induction h with
  | boot =>
    refine ⟨_, _, settled_boot, fun p x hc => ?_⟩
    cases x <;> exact nomatch hc.2
  | step _ hk he ih =>
    obtain ⟨L, R, h⟩ := ih
    exact h.step hk he

/-! ## The family -/

/-- **Every live process has a live parent**, whose list of children is the
one it is on, and the kernel's processes are above all. -/
structure Family (s : Kernel) : Prop where
  parent : ∃ R, Rep s.relation R ∧ ∀ i, s.status (.user i) ≠ .exited →
    ∃ p, (s.pcb (.user i)).parent = some p ∧ s.status p ≠ .exited ∧ ∀ q, .user i ∈ R q ↔ q = p
  root : ∀ x, s.status x ≠ .exited → ∃ c, Below s (.kernel c) x
  /-- the walk of `do_kill` ends, and finds the caller and its ancestors -/
  walk : ∀ c pid, ∃ b, s.isAncestor pid FUEL (some (s.current c)) = .ok b ∧
    (b = true ↔ ∃ a, Below s a (s.current c) ∧ (s.pcb a).pid = pid)

/-- The processes below `t` have ended or are marked, and to the others
nothing has happened. -/
def KillsBelow (s : Kernel) (t : Slot) (s' : Kernel) : Prop :=
  ∀ x, (Below s t x → s'.status x = .exited ∨ s'.status x = .killed) ∧
    (¬ Below s t x → (s'.status x = .exited ↔ s.status x = .exited) ∧
      (s'.status x = .killed ↔ s.status x = .killed))

theorem Together.family (h : Together s L R) : Family s where
  parent := by
    refine ⟨R, h.tree.rep, fun i hi => ?_⟩
    obtain ⟨p, hp⟩ := h.tree.user i hi
    refine ⟨p, hp, h.rooted p _ ⟨hi, hp⟩, fun q => ?_⟩
    rw [h.tree.mem]
    exact ⟨fun hc => Option.some.inj (hc.2.symm.trans hp), fun hq => ⟨hi, hq ▸ hp⟩⟩
  root _ hx := h.tree.reaches_kernel h.rooted hx
  walk c pid := h.tree.isAncestor_eq h.rooted (h.core.current_alive c) s.rank_lt_FUEL

/-- `do_kill` leaves all as it is for the caller and its ancestors. -/
theorem Together.doKill_refused (h : Together s L R) {pid : ℤ}
    (ha : ∃ a, Below s a (s.current c) ∧ (s.pcb a).pid = pid) : doKill drops c FUEL s pid = .ok s := by
  obtain ⟨b, hb, hspec⟩ := h.family.walk c pid
  rw [hspec.mpr ha] at hb
  show doKill drops c (NUM_MAX_TASK + NR_CPUS + 1) s pid = .ok s
  rw [doKill, hb]
  split <;> rfl

/-- **A kindly kill is one of a subtree.** -/
theorem Together.doKill_eq (h : Together s L R) {i : Fin NUM_MAX_TASK}
    (hi : s.status (.user i) ≠ .exited) (hup : ¬ Below s (.user i) (s.current c))
    (hcaller : s.status (s.current c) ≠ .killed) (hk : Kindly s (.enter c (.kill (s.pcb (.user i)).pid) next drops)) :
    ∃ s', doKill drops c FUEL s (s.pcb (.user i)).pid = .ok s' ∧ KillsBelow s (.user i) s' := by
  have htrim : Trim s L R c := h.core.trim h.tree
  have hanswers : Answers s c := fun pid => by
    obtain ⟨b, hb, -⟩ := h.family.walk c pid
    exact ⟨b, hb⟩
  have hreturn : Returns (doKill drops c FUEL s (s.pcb (.user i)).pid) :=
    returns_doKill htrim h.stocked hanswers hi ⟨i, rfl⟩ s.depthOf_lt_FUEL
  have hspec : Post Minor _ (doKill drops c FUEL s (s.pcb (.user i)).pid) :=
    fells_doKill _ _ _ htrim _ hi ⟨i, rfl⟩
  cases hr : doKill drops c FUEL s (s.pcb (.user i)).pid with
  | error e =>
    rw [hr] at hreturn
    exact hreturn.elim
  | ok s' =>
    rw [hr] at hspec
    obtain ⟨L', hf⟩ := hspec
    have ho : Open s c (.user i) := (h.tree.open_iff h.rooted (h.core.current_alive c) hi).mpr hup
    have htar : Targets s c (.enter c (.kill (s.pcb (.user i)).pid) next drops) (.user i) :=
      .kill hcaller hi rfl ho
    refine ⟨s', rfl, fun x => ⟨fun hb => ?_, fun hb => ?_⟩⟩
    · by_cases hrun : s.status (.user i) = .running
      · -- it runs and has no children
        obtain ⟨c', hc'⟩ := h.core.exists_current hrun
        have hne : c' ≠ c := by
          rintro rfl
          exact ho.ne_current hc'
        obtain ⟨-, -, hleaf⟩ := hk.spares c _ htar c' hne (hc' ▸ .refl)
        obtain rfl : x = .user i := by
          rcases ReflTransGen.cases_head hb with he | ⟨y, hy, -⟩
          · exact he.symm
          · exact absurd hy (hleaf y)
        exact .inr ((hf.killed _).mpr (.inr ⟨.inl rfl, ho, hrun⟩))
      · refine .inl ((hf.reaped.exited x).mpr (.inr (falls_of_below hb fun z hz => ?_)))
        refine hk.struck h.core h.tree h.rooted htar (.inr hrun) hz ?_
        rintro rfl
        exact hup hz
    · have hfalls : ¬ Falls s c (.user i) x := fun hx => hb hx.under
      have hmarks : ¬ Marks s c (.user i) x := fun hx => hb hx.under
      refine ⟨(hf.reaped.exited x).trans (or_iff_left hfalls), (hf.killed x).trans ?_⟩
      rw [or_iff_left hmarks, and_iff_left hfalls]

end Kernel

/-- Enough of `Kindly`: the other processors run the kernel's processes. -/
def kindlyIf (s : Kernel) (e : Event) : Bool :=
  match e with
  | .tick _ => true
  | .enter _ (.mutexInit _) _ _ => false
  | .enter c _ _ _ | .resume c _ _ => decide (∀ c' ≠ c, s.current c' ≠ s.current c ∧
      (∃ k, s.current c' = .kernel k) ∧ (s.pcb (s.current c')).parent = none)

theorem kindly_of_kindlyIf {s : Kernel} {e : Event} (hok : kindlyIf s e) : Kindly s e where
  spares c t htar c' hne hb := by
    have hothers : ∀ c' ≠ c, s.current c' ≠ s.current c ∧ (∃ k, s.current c' = .kernel k) ∧
        (s.pcb (s.current c')).parent = none := by
      unfold kindlyIf at hok
      split at hok
      · exact nomatch htar
      · exact nomatch hok
      · obtain rfl := Option.some.inj htar.cpu
        exact of_decide_eq_true hok
      · obtain rfl := Option.some.inj htar.cpu
        exact of_decide_eq_true hok
    obtain ⟨hcur, ⟨k, hk⟩, hroot⟩ := hothers c' hne
    rcases ReflTransGen.cases_tail hb with he | ⟨p, -, hc⟩
    · -- the target is not one of the kernel's, unless it is the caller
      cases htar with
      | kill _ _ _ _ => exact nomatch hk.symm.trans he
      | _ => exact absurd he hcur
    · exact nomatch hroot.symm.trans hc.2
  unused p key i hp := by
    obtain ⟨c, next, drops, rfl, -⟩ := hp
    exact nomatch hok

/-- One processor runs a process that has a child, and then another one. -/
def clan : List Event :=
  [.call 0 .exec (.user 0), .call 0 .exec (.user 0), .call 0 .yield (.user 0), .call 0 .exec (.user 0),
    .call 0 .yield (.user 1)]

/-- A process exits while another processor runs its child. -/
def orphaned : List Event := pair ++ [.call 0 .exit (.kernel 0)]

end OsLab.Sched
