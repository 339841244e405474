import OsLab.Sched.Careful
/-!
# Who is torn down, and when

The calls of `cleanup_proc` that a step makes (`Kernel.teardowns`), in their
order, each with the state in which it is made; and over a run, all of them
(`Ran`). A process is torn down once, and not while another processor runs
it, as long as the steps are `Careful`.
-/

namespace OsLab.Sched

open List

open DList (Rep)
open Relation (ReflTransGen)

/-- **Nobody else runs the process.** If it has been killed, it tears itself
down. -/
def Teardown.Proper (r : Teardown) : Prop :=
  (r.slot = r.state.current r.cpu ∨ ∀ c, r.state.current c ≠ r.slot) ∧
    (r.state.status r.slot = .killed → r.slot = r.state.current r.cpu)

instance : DecidablePred Teardown.Proper := fun _ => inferInstanceAs (Decidable (_ ∧ _))

namespace Kernel

variable {s s' : Kernel} {L L' : Lists} {R : Slot → List Slot} {c : Cpu} {e : Event} {p x t : Slot}
  {next : Slot} {drops : Slot → List ℕ} {D D' M : Slot → Prop} {l l' : List Teardown} {r : Teardown}

/-! ## What a kill tears down -/

/-- The process is alive when it is torn down, and otherwise as it was. -/
structure Record (s : Kernel) (c : Cpu) (r : Teardown) : Prop where
  cpu : r.cpu = c
  alive : r.state.status r.slot ≠ .exited
  current : r.state.current = s.current
  pid : r.pid = (s.pcb r.slot).pid
  killed : r.state.status r.slot = .killed → s.status r.slot = .killed

/-- Processes of `D` are torn down, each once. -/
structure Logged (s : Kernel) (c : Cpu) (D : Slot → Prop) (l : List Teardown) : Prop where
  nodup : (l.map Teardown.slot).Nodup
  mem : ∀ r ∈ l, D r.slot
  record : ∀ r ∈ l, Record s c r

namespace Logged

theorem nil : Logged s c D [] := ⟨nodup_nil, nofun, nofun⟩

theorem mono (h : Logged s c D l) (hD : ∀ x, D x → D' x) : Logged s c D' l :=
  ⟨h.nodup, fun r hr => hD _ (h.mem r hr), h.record⟩

theorem ite {P : Prop} [Decidable P] (h : P → Logged s c D l) (h' : ¬ P → Logged s c D l') :
    Logged s c D (if P then l else l') := by
  split
  · exact h ‹_›
  · exact h' ‹_›

/-- Those of `D` are torn down, and then those of `D'`. -/
theorem append (h : Logged s c D l) (hf : Felled c D M s L R s' L') (h' : Logged s' c D' l')
    (hD : ∀ x, D' x → ¬ D x) (hM : ∀ x, D' x → ¬ M x) : Logged s c (fun x => D x ∨ D' x) (l ++ l') where
  nodup := by
    rw [map_append, nodup_append]
    refine ⟨h.nodup, h'.nodup, fun a ha b hb hab => ?_⟩
    obtain ⟨r, hr, rfl⟩ := mem_map.mp ha
    obtain ⟨r', hr', rfl⟩ := mem_map.mp hb
    exact hD _ (h'.mem r' hr') (hab ▸ h.mem r hr)
  mem r hr := (mem_append.mp hr).imp (h.mem r) (h'.mem r)
  record r hr := by
    rcases mem_append.mp hr with hr | hr
    · exact h.record r hr
    · obtain ⟨hcpu, halive, hcur, hpid, hkill⟩ := h'.record r hr
      refine ⟨hcpu, halive, hcur.trans hf.reaped.current, hpid.trans (hf.reaped.pid _), fun hk => ?_⟩
      exact (((hf.killed _).mp (hkill hk)).resolve_right (hM _ (h'.mem r hr))).1

end Logged

section

variable {kill : Kernel → ℤ → Res} {log : Kernel → ℤ → List Teardown} (hkill : Fells c kill)
  (hlog : ∀ {s L R x}, Trim s L R c → s.status x ≠ .exited → (∃ i, x = .user i) →
    Logged s c (Falls s c x) (log s (s.pcb x).pid))
include hkill hlog

/-- The loop over the children. -/
theorem logged_killFromLog {pre rest : List Slot} (fuel : ℕ) (h : Trim s L R c) (hl : R t = pre ++ rest) :
    Logged s c (fun y => ∃ x ∈ rest, Falls s c x y)
      (killFromLog kill log fuel (some (DList.first t rest)) s) := by
  induction fuel generalizing s L R pre rest with
  | zero =>
    cases rest with
    | nil => exact .nil
    | cons x rest => exact .nil
  | succ fuel ih =>
    cases rest with
    | nil => exact .nil
    | cons x rest =>
      obtain ⟨hx, hapart⟩ := h.tree.apart_rest hl
      have hfirst := hlog h hx.1 (h.tree.child_user hx)
      rw [DList.first, killFromLog, h.tree.rep.node_next hl]
      cases hr : kill s (s.pcb x).pid with
      | error _ =>
        rw [after, append_nil]
        exact hfirst.mono fun y hy => ⟨x, mem_cons_self, hy⟩
      | ok s1 =>
        obtain ⟨L1, h1⟩ := (hkill s L R h x hx.1 (h.tree.child_user hx)).of_ok hr
        obtain ⟨htrim, ⟨pre1, hl1⟩, hsame⟩ := h1.rest h hl
        have hrest : Logged s1 c (fun y => ∃ z ∈ rest, Falls s c z y) _ := (ih htrim hl1).mono (by
          rintro y ⟨z, hz, hy⟩
          exact ⟨z, hz, (hsame z hz y).1.mp hy⟩)
        refine (hfirst.append h1 hrest ?_ ?_).mono fun y hy => (exists_mem_cons_iff ..).mpr hy
        · rintro y ⟨z, hz, hy⟩ hf
          exact hapart z hz y hf.under hy.under
        · rintro y ⟨z, hz, hy⟩ hm
          exact hapart z hz y hm.under hy.under

/-- `kill_subprocess` and then `cleanup_proc`. -/
theorem logged_family (h : Trim s L R c) (ht : s.status t ≠ .exited) {who : Kernel → Slot}
    (hwho : ∀ s', s'.current = s.current → who s' = t) :
    Logged s c (fun y => y = t ∨ ∃ x, Child s t x ∧ Falls s c x y)
      (killFromLog kill log FUEL (s.relation (.head t)).next s ++
        after (s.killSubprocess kill t) fun s => [⟨c, who s, s⟩]) := by
  have hbelow : ∀ z, Child s t z → ¬ Below s z t := fun z hz => h.tree.not_below_child hz
  have hloop : Logged s c (fun y => ∃ x, Child s t x ∧ Falls s c x y)
      (killFromLog kill log FUEL (s.relation (.head t)).next s) := by
    cases hset : (s.relation (.head t)).next with
    | none => exact .nil
    | some link =>
      rw [← hset, h.tree.rep.head_next (by rw [hset]; exact Option.some_ne_none _)]
      refine (logged_killFromLog hkill hlog FUEL h (nil_append (R t)).symm).mono fun y hy => ?_
      simpa only [h.tree.mem] using hy
  cases hr : s.killSubprocess kill t with
  | error _ =>
    rw [after, append_nil]
    exact hloop.mono fun y => .inr
  | ok s1 =>
    obtain ⟨L1, h1⟩ := (post_killSubprocess_felled hkill h).of_ok hr
    have hself : Logged s1 c (· = t) [⟨c, t, s1⟩] := by
      refine ⟨nodup_singleton _, fun r hr => ?_, fun r hr => ?_⟩
      · rw [mem_singleton.mp hr]
      · rw [mem_singleton.mp hr]
        refine ⟨rfl, fun he => ?_, rfl, rfl, id⟩
        rcases (h1.reaped.exited t).mp he with he | ⟨z, hz, hf⟩
        · exact ht he
        · exact hbelow z hz hf.under
    rw [after, hwho s1 h1.reaped.current]
    refine (hloop.append h1 hself ?_ ?_).mono fun y => Or.symm
    · rintro y rfl ⟨z, hz, hf⟩
      exact hbelow z hz hf.under
    · rintro y rfl ⟨z, hz, hm⟩
      exact hbelow z hz hm.under

end

/-- **`do_kill`.** -/
theorem logged_killLog {depth : ℕ} (h : Trim s L R c) (hx : s.status x ≠ .exited)
    (huser : ∃ i, x = .user i) : Logged s c (Falls s c x) (killLog drops c depth s (s.pcb x).pid) := by
  induction depth generalizing s L R x with
  | zero => exact .nil
  | succ depth ih =>
    obtain ⟨i, rfl⟩ := huser
    have hlow := h.loose.tidy.user i hx
    rw [killLog, if_neg (not_lt.mpr hlow), h.tree.findPcb_eq h.loose.tidy hx]
    split
    · rename_i p ho hp
      obtain rfl := Option.some.inj hp
      split
      · exact .nil
      · rename_i hrun
        refine (logged_family fells_doKill ih h hx fun _ _ => rfl).mono fun y hy => ?_
        exact (Falls.iff_child ⟨ho, hrun⟩).mpr hy
    · exact .nil

/-- A kill by pid. -/
theorem logged_kill (h : Core s L) (ht : Tree s R) {pid : ℤ} (hkill : s.status (s.current c) ≠ .killed) :
    Logged s c (Fallen s (.enter c (.kill pid) next drops)) (killLog drops c FUEL s pid) := by
  by_cases hx : ∃ i, s.status (.user i) ≠ .exited ∧ (s.pcb (.user i)).pid = pid
  · obtain ⟨i, hi, rfl⟩ := hx
    exact (logged_killLog (h.trim ht) hi ⟨i, rfl⟩).mono fun y hy =>
      ⟨c, _, .kill hkill hi rfl hy.top.1, .inr hy⟩
  · show Logged s c _ (killLog drops c (NUM_MAX_TASK + NR_CPUS + 1) s pid)
    rw [killLog]
    refine .ite (fun _ => .nil) fun hlow => ?_
    split
    · rename_i p _ hf
      rcases findPcb_spec hf with ⟨c', -, hc⟩ | ⟨i, rfl, hp, hst⟩
      · have := c'.isLt
        omega
      · exact absurd ⟨i, hst, hp⟩ hx
    · exact .nil

/-- **A step** tears down what ends in it, each process once. -/
theorem logged_teardowns (h : Core s L) (ht : Tree s R) :
    ∃ c, (∀ c', e.cpu = some c' → c' = c) ∧ Logged s c (Fallen s e) (s.teardowns e) := by
  have hexit : ∀ {c drops}, Targets s c e (s.current c) →
      Logged s c (Fallen s e) (s.exitLog drops c) := by
    intro c drops htar
    unfold exitLog
    refine .ite (fun _ => .nil) fun _ => ?_
    refine (logged_family fells_doKill logged_killLog (h.trim ht) (h.current_alive c)
      fun s' hs' => by rw [hs']).mono fun y hy => ?_
    exact (fallen_exit ht htar).mpr hy
  cases e with
  | tick d => exact ⟨0, nofun, .nil⟩
  | enter c call next drops =>
    refine ⟨c, fun c' he => (Option.some.inj he).symm, ?_⟩
    refine .ite (fun _ => .nil) fun _ => .ite (fun hk => hexit (.enter hk)) fun hk => ?_
    cases call with
    | exit => exact hexit .exit
    | kill pid => exact logged_kill h ht hk
    | _ => exact .nil
  | resume c next drops =>
    refine ⟨c, fun c' he => (Option.some.inj he).symm, ?_⟩
    exact .ite (fun _ => .nil) fun _ => .ite (fun hk => hexit (.resume hk)) fun _ => .nil

section

variable (h : Core s L) (ht : Tree s R)
include h ht

/-- **Who is torn down in a step that returns is who falls in it.** -/
theorem TreeStep.tornDown_iff (hstep : TreeStep s e s') (hturn : Turn s e s') :
    TornDown (s.teardowns e) x ↔ Fallen s e x := by
  refine ⟨fun hx => ?_, fun hf => ?_⟩
  · obtain ⟨c, -, hlog⟩ := logged_teardowns (e := e) h ht
    obtain ⟨r, hr, rfl⟩ := mem_map.mp hx
    exact hlog.mem r hr
  · exact (hturn.ended x (hstep.gone x hf)).resolve_left (hf.alive h)

/-- What a careful step tears down is run by nobody else. -/
theorem Careful.proper (hc : Careful s e) (hr : r ∈ s.teardowns e) : r.Proper := by
  obtain ⟨c, hcpu, hlog⟩ := logged_teardowns h ht
  obtain ⟨hc', -, hcur, -, hkilled⟩ := hlog.record r hr
  have hothers : ∀ c' ≠ c, s.current c' ≠ r.slot := fun c' hne he =>
    hc.not_fallen h (fun hcc => hne (hcpu c' hcc)) (he ▸ hlog.mem r hr)
  unfold Teardown.Proper
  rw [hcur, hc']
  by_cases hown : r.slot = s.current c
  · exact ⟨.inl hown, fun _ => hown⟩
  · have hnobody : ∀ c', s.current c' ≠ r.slot := fun c' he => by
      by_cases hcc : c' = c
      · exact hown (hcc ▸ he.symm)
      · exact hothers c' hcc he
    refine ⟨.inr hnobody, fun hk => ?_⟩
    -- what is run by nobody is not `KILLED`
    rcases h.idle r.slot hnobody with ⟨q, -, ⟨hst, -⟩ | hst⟩ | ⟨hst, -⟩
    all_goals exact nomatch hst.symm.trans (hkilled hk)

end

variable {o : Obj}

/-- What a careful step tears down is what falls. -/
theorem Advance.tornDown_iff (h : Advance s L e s' L') (hs : Settled s L R) :
    TornDown (s.teardowns e) x ↔ Fallen s e x := h.tree.tornDown_iff hs.core hs.tree h.turn

/-- Whoever has ended has fallen. -/
theorem Advance.fallen (h : Advance s L e s' L') (hx : Ended s s' x) : Fallen s e x :=
  (h.tree.ended x hx.2).resolve_left hx.1

/-- **An object that is in use when somebody has fallen** is referred to by somebody who has
not. -/
theorem Advance.stays (h : Advance s L e s' L') (hs : Settled s L R) (ho : s'.ref o ≠ ∅)
    (hp : Fallen s e p) : ∃ x ∈ s.ref o, ¬ Fallen s e x := by
  rcases h.turn.ref o with hr | hr | ⟨c, -, hno, -⟩
  · obtain ⟨x, hx⟩ := Finset.nonempty_iff_ne_empty.mpr ho
    obtain ⟨hx, hkept⟩ := (hr x).mp hx
    exact ⟨x, hx, fun hf => hkept ((h.tornDown_iff hs).mpr hf)⟩
  · exact absurd hr ho
  · -- nobody falls in an init call
    have hgone := (h.tornDown_iff hs).mpr hp
    rw [hno] at hgone
    exact absurd hgone not_mem_nil

/-! ## Runs -/

/-- The state between the steps of a run, with the calls of `cleanup_proc` so
far. -/
structure Once (log : List Teardown) (s : Kernel) (L : Lists) (R : Slot → List Slot) : Prop
    extends Settled s L R where
  nodup : (log.map Teardown.pid).Nodup
  proper : ∀ r ∈ log, r.Proper
  /-- nobody alive has the pid of one that was torn down -/
  gone : ∀ r ∈ log, r.pid < s.process_id ∧ ∀ x, s.status x ≠ .exited → (s.pcb x).pid ≠ r.pid

end Kernel

open Kernel

/-- The runs from `boot` all of whose steps are `Good`, with the calls of
`cleanup_proc` in them. -/
inductive Ran (Good : Kernel → Event → Prop) : List Teardown → Kernel → Prop
  | boot : Ran Good [] boot
  | step {log : List Teardown} {s s' : Kernel} {e : Event} (hs : Ran Good log s) (hg : Good s e)
      (he : s.step e = .ok s') : Ran Good (log ++ s.teardowns e) s'

namespace Kernel

variable {log : List Teardown}

/-- Further calls of `cleanup_proc`, whatever becomes of the step. -/
theorem Once.extend (h : Once log s L R) (hc : Careful s e) :
    ((log ++ s.teardowns e).map Teardown.pid).Nodup ∧ ∀ r ∈ log ++ s.teardowns e, r.Proper := by
  refine ⟨?_, fun r hr => (mem_append.mp hr).elim (h.proper r) (hc.proper h.core h.tree)⟩
  obtain ⟨c, -, hlog⟩ := logged_teardowns h.core h.tree
  have hlive : ∀ r ∈ s.teardowns e, s.status r.slot ≠ .exited := fun r hr => (hlog.mem r hr).alive h.core
  rw [map_append, nodup_append]
  refine ⟨h.nodup, ?_, fun a ha b hb hab => ?_⟩
  · -- two processes of one pid are one
    rw [nodup_map_iff_inj_on hlog.nodup.of_map]
    intro r hr r' hr' he
    rw [(hlog.record r hr).pid, (hlog.record r' hr').pid] at he
    exact inj_on_of_nodup_map hlog.nodup hr hr' (h.tree.inj _ _ (hlive r hr) (hlive r' hr') he)
  · obtain ⟨r, hr, rfl⟩ := mem_map.mp ha
    obtain ⟨r', hr', rfl⟩ := mem_map.mp hb
    rw [(hlog.record r' hr').pid] at hab
    exact (h.gone r hr).2 _ (hlive r' hr') hab.symm

theorem Once.step (h : Once log s L R) (hc : Careful s e) (he : s.step e = .ok s') :
    ∃ L' R', Once (log ++ s.teardowns e) s' L' R' := by
  obtain ⟨L', R', ha, h'⟩ := (h.post_step hc).of_ok he
  have hstep := ha.tree
  obtain ⟨hnodup, hproper⟩ := h.extend hc
  refine ⟨L', R', h', hnodup, hproper, fun r hr => ?_⟩
  -- a pid that is free now was free before, or is new
  have hfree : r.pid < s.process_id → (∀ x, s.status x ≠ .exited → s'.status x ≠ .exited →
      (s.pcb x).pid ≠ r.pid) → r.pid < s'.process_id ∧
        ∀ x, s'.status x ≠ .exited → (s'.pcb x).pid ≠ r.pid := by
    intro hlt hold
    refine ⟨lt_of_lt_of_le hlt hstep.process_id, fun x hx => ?_⟩
    rcases hstep.pids x hx with hnew | ⟨hlive, hsame⟩
    · omega
    · rw [hsame]
      exact hold x hlive hx
  rcases mem_append.mp hr with hr | hr
  · exact hfree (h.gone r hr).1 fun x hx _ => (h.gone r hr).2 x hx
  · obtain ⟨c, -, hlog⟩ := logged_teardowns h.core h.tree
    have hfall := hlog.mem r hr
    rw [(hlog.record r hr).pid] at hfree ⊢
    refine hfree (h.tree.fresh _) fun x hx hx' hpid => ?_
    rw [h.tree.inj _ _ hx (hfall.alive h.core) hpid] at hx'
    exact hx' (hstep.gone _ hfall)

theorem once_of_careful (h : Ran Careful log s) : ∃ L R, Once log s L R := by
  induction h with
  | boot => exact ⟨_, _, settled_boot, nodup_nil, nofun, nofun⟩
  | step _ hc he ih =>
    obtain ⟨L, R, h⟩ := ih
    exact h.step hc he

end Kernel

/-- **A process is torn down once**, and by its own processor or while no
processor runs it, in every run whose steps are careful. -/
theorem torn_down_once {log : List Teardown} {s : Kernel} {e : Event} (h : Ran Careful log s)
    (he : Careful s e) : ((log ++ s.teardowns e).map Teardown.pid).Nodup ∧
      ∀ r ∈ log ++ s.teardowns e, r.Proper := by
  obtain ⟨L, R, ho⟩ := once_of_careful h
  exact ho.extend he

/-! ## Some runs -/

/-- The calls of `cleanup_proc` while a list of steps is taken. -/
def Kernel.runLog (s : Kernel) : List Event → List Teardown
  | [] => []
  | e :: es => s.teardowns e ++ after (s.step e) fun s' => s'.runLog es

variable {s : Kernel}

theorem Ran.of_admits {Good : Kernel → Event → Prop} {ok : Kernel → Event → Bool}
    (hok : ∀ s e, ok s e → Good s e) {log : List Teardown}
    (hs : Ran Good log s) {es : List Event} (hes : s.admits ok es) :
    ∃ s', s.run es = .ok s' ∧ Ran Good (log ++ s.runLog es) s' := by
  induction es generalizing s log with
  | nil =>
    refine ⟨s, rfl, ?_⟩
    rw [runLog, append_nil]
    exact hs
  | cons e es ih =>
    obtain ⟨s1, he, hes⟩ := of_admits hes
    obtain ⟨s', hrun, hr⟩ := ih (hs.step (hok s e hes.1) he) hes.2
    refine ⟨s', ?_, ?_⟩
    · unfold run
      rw [foldlM_cons, he]
      exact hrun
    · rw [append_assoc] at hr
      rw [runLog, he]
      exact hr

/-- A process that runs is killed, and exits when it next enters the kernel;
its parent follows. -/
def killOnce : List Event :=
  pair ++ [.call 0 (.kill 3) (.user 0), .call 1 .yield (.kernel 1)]

theorem torn_down_once_killOnce : ∃ log s, boot.run killOnce = .ok s ∧ Ran Careful log s ∧
    log.map Teardown.pid = [3] ∧ ((log ++ s.teardowns (.call 0 .exit (.kernel 0))).map Teardown.pid).Nodup ∧
    ∀ r ∈ log ++ s.teardowns (.call 0 .exit (.kernel 0)), r.Proper := by
  obtain ⟨s, hs, hr⟩ := Ran.of_admits (fun _ _ => careful_of_carefulIf) .boot
    (show boot.admits carefulIf killOnce by decide +kernel)
  have hrun : boot.leadsTo (fun s => decide (carefulIf s (.call 0 .exit (.kernel 0)) = true)) killOnce := by
    decide +kernel
  have hlog : (boot.runLog killOnce).map Teardown.pid = [3] := by decide +kernel
  exact ⟨_, s, hs, hr, hlog, torn_down_once hr (careful_of_carefulIf (of_leadsTo hs hrun))⟩

/-- A process (pid 3) exits while another processor runs its child (pid 4). Its
control block is used again by pid 5, which has the children 6 and 7. They are
lost from its list when pid 4 exits, and go on when pid 5 exits. Pid 7 has a
child 8, which runs, and then a child 9, which gets the control block that 6
and 7 have as their parent. As pid 6 ends, pid 7 is back on that list: it is a
child of its child. -/
def entangle : List Event :=
  [.call 0 .exec (.kernel 0), .call 0 .exec (.kernel 0), .call 0 .yield (.user 1),
    .call 0 .exec (.user 1), .call 1 .yield (.user 2), .call 0 .exit (.user 0),
    .call 0 .exec (.user 0), .call 0 .yield (.user 1), .call 0 .exec (.user 1),
    .call 0 .exec (.user 1), .call 1 .yield (.kernel 1), .call 0 .yield (.user 4),
    .call 0 .exec (.user 4), .call 0 .yield (.user 1), .back 0, .call 0 .exit (.user 4), .back 0,
    .call 0 .exec (.user 4), .back 1, .call 1 .yield (.user 2), .call 0 .yield (.user 0), .back 0,
    .call 0 (.kill 6) (.user 0)]

/-- A process that runs is killed twice. -/
def killAgain : List Event :=
  pair ++ [.call 0 (.kill 3) (.user 0), .call 0 (.kill 3) (.user 0)]

/-- **The two ways in which a process is torn down while it runs.** After the
first it is torn down again when it exits. -/
theorem not_torn_down_once :
    (∃ log s, Ran (fun _ _ => True) log s ∧ boot.run killAgain = .ok s ∧ (∃ r ∈ log, ¬ r.Proper) ∧
      ¬ ((log ++ s.teardowns (.call 1 .exit (.kernel 1))).map Teardown.pid).Nodup) ∧
    ∃ log s, Ran (fun _ _ => True) log s ∧ boot.run entangle = .ok s ∧ (∀ r ∈ log, r.Proper) ∧
      ∃ r ∈ s.teardowns (.call 0 (.kill 7) (.user 0)), ¬ r.Proper := by
  have hran : ∀ {es}, boot.admits (fun _ _ => true) es →
      ∃ s, boot.run es = .ok s ∧ Ran (fun _ _ => True) (boot.runLog es) s := fun hes =>
    Ran.of_admits (fun _ _ _ => trivial) .boot hes
  refine ⟨?_, ?_⟩
  · have hok : boot.admits (fun _ _ => true) killAgain := by decide +kernel
    obtain ⟨s, hs, hr⟩ := hran hok
    have hlog : (boot.runLog killAgain).map Teardown.pid = [3] ∧
        ∃ r ∈ boot.runLog killAgain, ¬ r.Proper := by decide +kernel
    have hrun : boot.leadsTo (fun s => decide
        ((s.teardowns (.call 1 .exit (.kernel 1))).map Teardown.pid = [3])) killAgain := by decide +kernel
    refine ⟨_, s, hr, hs, hlog.2, ?_⟩
    rw [map_append, hlog.1, of_leadsTo hs hrun]
    decide
  · have hok : boot.admits (fun _ _ => true) entangle := by decide +kernel
    obtain ⟨s, hs, hr⟩ := hran hok
    have hlog : ∀ r ∈ boot.runLog entangle, r.Proper := by decide +kernel
    have hrun : boot.leadsTo (fun s => decide
        (∃ r ∈ s.teardowns (.call 0 (.kill 7) (.user 0)), ¬ r.Proper)) entangle := by decide +kernel
    exact ⟨_, s, hr, hs, hlog, of_leadsTo hs hrun⟩

end OsLab.Sched
