import OsLab.Fs.Tree.Runs
/-!
# Paths and their components

`path_resolve` scans a string; what it does depends on the components only. `follow` is the walk
along a list of names, each looked up in the directory before it. `path_resolve_entry` is the walk
along all components, as programs, whatever the state. `path_resolve_parent` is the walk along all
but the last, and then looks whether it came to a directory. The empty path alone is answered before
any of this. -/

namespace OsLab

open Prog Bytes List

variable {s t u : FS} {pid k : ℕ} {path name rest : Name} {skip_last : Bool}

/-! ## Components -/

/-- **The maximal slash-free substrings of a string, each cut to a name's length.** A string ends at
its first zero byte. -/
def slashFree (path : Name) : List Name :=
  (((path.takeWhile (· ≠ 0)).splitOn 47).filter (· ≠ [])).map (·.take MAX_FILE_NAME)

theorem slashFree_cons_slash : slashFree (47 :: path) = slashFree path := by
  unfold slashFree
  rw [takeWhile_cons_of_pos (by decide), splitOn_eq_splitOnP, splitOnP_cons_eq_if_modifyHead,
    splitOn_eq_splitOnP]
  simp

/-- Slashes in front are skipped. -/
theorem slashFree_dropWhile (path : Name) :
    slashFree (path.dropWhile (· = 47)) = slashFree path := by
  induction path with
  | nil => rfl
  | cons c path ih =>
    by_cases hc : c = 47
    · subst hc
      rw [dropWhile_cons_of_pos (by decide), ih, slashFree_cons_slash]
    · rw [dropWhile_cons_of_neg (by simpa using hc)]

theorem slashFree_of_strEnd (h : strEnd path = true) : slashFree path = [] := by
  cases path with
  | nil => decide
  | cons c path =>
    obtain rfl : c = 0 := of_decide_eq_true h
    unfold slashFree
    rw [takeWhile_cons_of_neg (by decide)]
    decide

theorem strEnd_of_ne_nil (h : slashFree path ≠ []) : strEnd path = false :=
  Bool.eq_false_of_not_eq_true fun hend => h (slashFree_of_strEnd hend)

/-- The first component, and those after it. -/
theorem slashFree_append {w : Name} (hw : w ≠ []) (hfree : ∀ c ∈ w, c ≠ 47 ∧ c ≠ 0)
    (hrest : ∀ c ∈ rest.head?, c = 47 ∨ c = 0) :
    slashFree (w ++ rest) = w.take MAX_FILE_NAME :: slashFree rest := by
  have hzero : (w ++ rest).takeWhile (· ≠ 0) = w ++ rest.takeWhile (· ≠ 0) := by
    rw [takeWhile_append_of_pos]
    intro c hc
    simpa using (hfree c hc).2
  have hslash : ∀ c ∈ w, (c == 47) = false := fun c hc => by simpa using (hfree c hc).1
  unfold slashFree
  rw [hzero]
  cases rest with
  | nil =>
    rw [takeWhile_nil, append_nil, splitOn_eq_splitOnP, splitOnP_eq_singleton hslash]
    simp [hw]
  | cons c rest =>
    rcases hrest c (by simp) with rfl | rfl
    · rw [takeWhile_cons_of_pos (by decide), splitOn_eq_splitOnP, splitOn_eq_splitOnP,
        splitOnP_append_cons_of_forall_mem hslash _ (by decide), splitOnP_cons_eq_if_modifyHead]
      simp [hw]
    · rw [takeWhile_cons_of_neg (by decide), append_nil, splitOn_eq_splitOnP,
        splitOnP_eq_singleton hslash]
      simp [hw]

/-- **`path_shift` takes the components off one by one.** -/
theorem components_eq_slashFree (path : Name) : components path = slashFree path := by
  generalize hn : path.length = n
  induction n using Nat.strong_induction_on generalizing path with
  | _ n ih =>
    rw [← slashFree_dropWhile]
    cases hs : pathShift path with
    | none =>
      rw [components_of_none hs, slashFree_of_strEnd]
      unfold pathShift at hs
      dsimp only at hs
      split at hs
      · assumption
      · cases hs
    | some c =>
      obtain ⟨name, rest⟩ := c
      have hlt := (pathShift_some hs).1
      have hne := (pathShift_some hs).2.2.2.2
      rw [components_of_some hs, ih rest.length (by omega) rest rfl]
      unfold pathShift at hs
      dsimp only at hs
      split at hs
      · cases hs
      · cases hs
        generalize path.dropWhile (fun c => decide (c = 47)) = tail at hne ⊢
        rw [slashFree_dropWhile]
        -- the string is its first component and what follows
        have hsplit := takeWhile_append_dropWhile (p := fun c : UInt8 => decide (c ≠ 47 ∧ c ≠ 0))
          (l := tail)
        have hfirst := List.head?_dropWhile_not (fun c : UInt8 => decide (c ≠ 47 ∧ c ≠ 0)) tail
        have hfree : ∀ c ∈ tail.takeWhile (fun c => decide (c ≠ 47 ∧ c ≠ 0)),
          c ≠ 47 ∧ c ≠ 0 := fun c hc => by
          simpa using mem_takeWhile_imp hc
        generalize tail.takeWhile (fun c => decide (c ≠ 47 ∧ c ≠ 0)) = w at *
        generalize tail.dropWhile (fun c => decide (c ≠ 47 ∧ c ≠ 0)) = after at *
        subst hsplit
        rw [drop_left]
        refine (slashFree_append ?_ hfree ?_).symm
        · rintro rfl
          exact hne rfl
        · intro c hc
          rw [Option.mem_def.mp hc] at hfirst
          by_contra hno
          rw [not_or] at hno
          exact absurd hfirst (by simp [hno])

/-! ## Following names -/

/-- One name: the inode of that name in the directory in slot `cur`, whose reference is given back.
-/
def enter (cur : ℕ) (name : Name) : FSM (Option ℕ) := do
  inodeOpen cur
  let i ← getInode cur
  if i.d.type ≠ FS_TYPE_DIR then
    inodeClose cur
    pure none
  else
    let next ← dirLookup cur name
    inodeClose cur
    pure (next.map (·.1))

/-- **Follow names one by one.** -/
def follow : (names : List Name) → (cur : ℕ) → FSM (Option ℕ)
  | [], cur => pure (some cur)
  | name :: names, cur => do
    let r ← enter cur name
    match r with
    | none => pure none
    | some next => follow names next

/-- What is reached is answered with a name, if it is a directory. -/
def parentAt (cur : ℕ) (name : Name) : FSM (Option (ℕ × Name)) := do
  inodeOpen cur
  let i ← getInode cur
  if i.d.type ≠ FS_TYPE_DIR then
    inodeClose cur
    pure none
  else
    inodeUnlock cur
    pure (some (cur, name))

/-- The next step after an inode was entered. -/
def Step.ofEntered : Option ℕ → Step
  | none => .stop none
  | some k => .next k

theorem resolveStep_go (h : (skip_last && strEnd path) = false) (cur : ℕ) (name : Name) :
    resolveStep skip_last cur name path = (do
      let r ← enter cur name
      pure (Step.ofEntered r)) := by
  unfold resolveStep enter
  simp only [bind_assoc, h]
  refine bind_congr fun _ => bind_congr fun i => ?_
  split
  · rw [bind_assoc]
    rfl
  · simp only [Bool.false_eq_true, if_false, bind_assoc]
    exact bind_congr fun next => by cases next <;> rfl

theorem resolveStep_last (h : strEnd path = true) (cur : ℕ) (name : Name) :
    resolveStep true cur name path = (do
      let r ← parentAt cur name
      pure (.stop r)) := by
  unfold resolveStep parentAt
  simp only [bind_assoc, h]
  refine bind_congr fun _ => bind_congr fun i => ?_
  split
  · rw [bind_assoc]
    rfl
  · simp only [Bool.and_self, if_true, bind_assoc]
    rfl

/-- The loop of `path_resolve` follows the components. -/
theorem resolveFrom_entry (fuel cur : ℕ) (name : Name) (h : path.length < fuel) :
    (do
      let r ← resolveFrom false fuel cur path name
      pure (r.map (·.1))) = follow (components path) cur := by
  induction fuel generalizing path cur name with
  | zero => exact absurd h (by omega)
  | succ fuel ih =>
    rw [resolveFrom_succ]
    cases hs : pathShift path with
    | none =>
      rw [components_of_none hs]
      rfl
    | some c =>
      obtain ⟨first, rest⟩ := c
      have hlt := (pathShift_some hs).1
      rw [components_of_some hs, follow]
      simp only [resolveStep_go (Bool.false_and _), bind_assoc, pure_bind]
      refine bind_congr fun r => ?_
      cases r with
      | none => rfl
      | some next => exact ih next first (by omega)

/-- The loop of `path_resolve` follows all components but the last. -/
theorem resolveFrom_parent (fuel cur : ℕ) (name : Name) (h : path.length < fuel) :
    resolveFrom true fuel cur path name =
      (match (components path).getLast? with
      | none => do
        inodeDeref cur
        pure none
      | some last => do
        let r ← follow (components path).dropLast cur
        match r with
        | none => pure none
        | some k => parentAt k last) := by
  induction fuel generalizing path cur name with
  | zero => exact absurd h (by omega)
  | succ fuel ih =>
    rw [resolveFrom_succ]
    cases hs : pathShift path with
    | none =>
      rw [components_of_none hs]
      rfl
    | some c =>
      obtain ⟨first, rest⟩ := c
      obtain ⟨hlt, hslash, -⟩ := pathShift_some hs
      rw [components_of_some hs]
      cases hend : strEnd rest with
      | true =>
        -- the last component
        rw [components_of_none ((pathShift_rest hslash).mpr hend)]
        simp only [resolveStep_last hend, bind_assoc, pure_bind, List.getLast?_singleton,
          dropLast_singleton, follow]
        exact bind_pure _
      | false =>
        have hne : components rest ≠ [] := by
          cases hr : pathShift rest with
          | none =>
            rw [(pathShift_rest hslash).mp hr] at hend
            cases hend
          | some d => exact components_of_some hr ▸ cons_ne_nil _ _
        have hlast := List.getLast?_eq_some_getLast hne
        rw [List.getLast?_cons_of_ne_nil hne, hlast, dropLast_cons_of_ne_nil hne]
        simp only [follow, resolveStep_go (show (true && strEnd rest) = false from hend),
          bind_assoc, pure_bind]
        refine bind_congr fun r => ?_
        cases r with
        | none => rfl
        | some next =>
          have hrec := ih next first (show rest.length < fuel by omega)
          rw [hlast] at hrec
          exact hrec

/-! ## Resolving -/

/-- Take a reference to where the path starts: the root if it begins with a slash, the caller's
working directory if not. -/
def startRef (pid : ℕ) (path : Name) : FSM ℕ := do
  let m ← getMem
  inodeRef (startInode m pid path)

/-- Follow names from there. -/
def followStart (pid : ℕ) (path : Name) (names : List Name) : FSM (Option ℕ) := do
  let cur ← startRef pid path
  follow names cur

/-- The directory of a path: what all components but the last lead to, with the last; nothing, where
there is none. -/
def followParent (pid : ℕ) (path : Name) : FSM (Option (ℕ × Name)) :=
  match (slashFree path).getLast? with
  | none => do
    let cur ← startRef pid path
    inodeDeref cur
    pure none
  | some last => do
    let r ← followStart pid path (slashFree path).dropLast
    pure (r.map (·, last))

theorem pathResolve_start :
    pathResolve pid path skip_last = (do
      let cur ← startRef pid path
      if strEnd path then pure (some (cur, []))
      else resolveFrom skip_last (path.length + 1) cur path []) := by
  rw [pathResolve_eq, startRef, bind_assoc]

/-- **`path_resolve_entry` follows the components**, in every state. -/
theorem pathResolveEntry_eq :
    pathResolveEntry pid path = followStart pid path (slashFree path) := by
  unfold pathResolveEntry followStart
  rw [pathResolve_start]
  simp only [bind_assoc]
  refine bind_congr fun cur => ?_
  rw [← components_eq_slashFree]
  split
  · next hend =>
    have hnone : pathShift path = none := by
      cases path with
      | nil => rfl
      | cons c path =>
        obtain rfl : c = 0 := of_decide_eq_true hend
        rfl
    rw [components_of_none hnone]
    rfl
  · exact resolveFrom_entry _ cur [] (Nat.lt_succ_self _)

theorem pathResolveParent_of_end (hend : strEnd path = true) : pathResolveParent pid path = (do
    let cur ← startRef pid path
    pure (some (cur, []))) := by
  unfold pathResolveParent
  rw [pathResolve_start]
  simp only [hend, if_true]

theorem pathResolveParent_of_nil (hend : strEnd path = false) (hcomp : slashFree path = []) :
    pathResolveParent pid path = followParent pid path := by
  unfold pathResolveParent followParent
  rw [pathResolve_start, hcomp]
  simp only [hend, Bool.false_eq_true, if_false]
  refine bind_congr fun cur => ?_
  rw [resolveFrom_parent _ cur [] (Nat.lt_succ_self _), components_eq_slashFree, hcomp]
  rfl

variable {last : Name} {type : UInt16}

theorem pathResolveParent_of_last (hlast : (slashFree path).getLast? = some last) :
    pathResolveParent pid path = (do
      let r ← followStart pid path (slashFree path).dropLast
      match r with
      | none => pure none
      | some k => parentAt k last) := by
  have hend := strEnd_of_ne_nil (ne_nil_of_mem (mem_of_getLast? hlast))
  unfold pathResolveParent followStart
  rw [pathResolve_start]
  simp only [hend, Bool.false_eq_true, if_false, bind_assoc]
  refine bind_congr fun cur => ?_
  rw [resolveFrom_parent _ cur [] (Nat.lt_succ_self _), components_eq_slashFree, hlast]

/-- What a program answers, or how it halts. -/
def outcome {α : Type} (p : FSM α) (s : FS) : Except Halt α := (p.exec s).map Prod.fst

/-- The calls that may make an entry for their path. -/
def FsCall.Makes (path : Name) : FsCall → Prop
  | .open p _ => p = path
  | mkdir p => p = path
  | _ => False

/-- **Resolution depends on the components only**: entry and directory are what following the
components comes to, a directory comes with a name, and no call makes an entry without one. -/
structure ResolvesByComponents (pid : ℕ) (path : Name) (s : FS) : Prop where
  entry : outcome (pathResolveEntry pid path) s = outcome (followStart pid path (slashFree path)) s
  parent : outcome (pathResolveParent pid path) s = outcome (followParent pid path) s
  named : ∀ k name t, (pathResolveParent pid path).exec s = .ok (some (k, name), t) → name ≠ []
  made : ∀ E c r t, FsHeld E s → FsCall.Makes path c → c.Proper pid s → Steps s pid c r t →
    ∀ x i m, LiveDir (viewAt t) x → (viewAt t).Has x i [] m → LiveDir (viewAt s) x ∧
    (viewAt s).Has x i [] m

/-- **The path is not empty, and all but the last of its components lead to a directory**, if they
lead anywhere. -/
def EndsAtDir (pid : ℕ) (path : Name) (s : FS) : Prop :=
  ∀ k u, (followStart pid path (slashFree path).dropLast).exec s = .ok (some k, u) →
    strEnd path = false ∧
    (slashFree path ≠ [] → ∃ v, (inodeOpen k).exec u = .ok ((), v) ∧
      (v.mem.inodes k).d.type = FS_TYPE_DIR)

theorem outcome_eq_ok {α : Type} {p : FSM α} {a : α} :
    outcome p s = .ok a ↔ ∃ t, p.exec s = .ok (a, t) := by
  unfold outcome
  cases hx : p.exec s with
  | error e => exact ⟨nofun, fun ⟨_, h⟩ => nomatch h⟩
  | ok x =>
    obtain ⟨b, t⟩ := x
    constructor
    · intro h
      cases h
      exact ⟨t, rfl⟩
    · rintro ⟨_, h⟩
      cases h
      rfl

/-- What a program goes on to answer is what its first part left goes on to answer. -/
theorem outcome_bind_of_ok {α β : Type} {p : FSM α} {f : α → FSM β} {a : α}
    (hx : p.exec s = .ok (a, t)) :
    outcome (p >>= f) s = outcome (f a) t := by
  unfold outcome
  rw [exec_bind_of_ok hx]

theorem outcome_bind_of_error {α β : Type} {p : FSM α} {f : α → FSM β} {e : Halt}
    (hx : p.exec s = .error e) :
    outcome (p >>= f) s = .error e := by
  unfold outcome
  rw [exec_bind, hx]
  rfl

theorem locked_of_inodeOpen (hx : (inodeOpen k).exec s = .ok ((), t)) :
    (t.mem.inodes k).locked = true := by
  refine wp_ok (E := fun _ => True) (Q := fun _ t => (t.mem.inodes k).locked = true) ?_ hx
  unfold inodeOpen mutexAcquire
  simp only [wp_bind, wp_getInode, wp_asserts, wp_modifyInode, Store.setInode_inodes, upd_self]
  split
  · split
    · simp
    · -- the inode is loaded
      simp only [wp_bind, wp_getSuperblock, wp_blockOpen, wp_blockData, wp_modifyInode,
        wp_blockClose, wp_getInode,
        wp_asserts, Store.setInode_inodes, upd_self]
      split
      · trivial
      · trivial
  · trivial

/-- What is reached is answered exactly where it is a directory. -/
theorem parentAt_some_iff : outcome (parentAt k last) u = .ok (some (k, last)) ↔
    ∃ v, (inodeOpen k).exec u = .ok ((), v) ∧ (v.mem.inodes k).d.type = FS_TYPE_DIR := by
  rw [outcome_eq_ok]
  unfold parentAt
  constructor
  · rintro ⟨t, hx⟩
    obtain ⟨_, v, hopen, hx⟩ := exists_of_exec_bind hx
    obtain ⟨i, v', hget, hx⟩ := exists_of_exec_bind hx
    cases hget
    refine ⟨v, hopen, ?_⟩
    by_contra htype
    rw [if_pos htype] at hx
    obtain ⟨_, w, -, hx⟩ := exists_of_exec_bind hx
    cases hx
  · rintro ⟨v, hopen, htype⟩
    have hlocked := locked_of_inodeOpen hopen
    rw [exec_bind_of_ok hopen]
    refine ⟨v.setInode k { v.mem.inodes k with locked := false }, ?_⟩
    have hgoal : wp (fun _ => False) (do
        let i ← getInode k
        if i.d.type ≠ FS_TYPE_DIR then
          inodeClose k
          pure none
        else
          inodeUnlock k
          pure (some (k, last)))
        (fun r t => r = some (k, last) ∧ t = v.setInode k { v.mem.inodes k with
          locked := false }) v := by
      rw [wp_bind, wp_getInode, if_neg (not_not.mpr htype)]
      unfold inodeUnlock
      simp only [wp_bind, wp_getInode, wp_asserts, hlocked, if_true, wp_modifyInode]
      exact ⟨rfl, rfl⟩
    obtain ⟨r, t, hx, rfl, rfl⟩ := exists_of_wp hgoal
    exact hx

theorem resolve_parent_iff :
    outcome (pathResolveParent pid path) s = outcome (followParent pid path) s ↔
      EndsAtDir pid path s := by
  cases hlast : (slashFree path).getLast? with
  | none =>
    have hnil : slashFree path = [] := List.getLast?_eq_none_iff.mp hlast
    cases hend : strEnd path with
    | false =>
      rw [pathResolveParent_of_nil hend hnil]
      exact ⟨fun _ k u _ => ⟨hend, fun hne => absurd hnil hne⟩, fun _ => rfl⟩
    | true =>
      -- the working directory is answered, with no name
      unfold EndsAtDir followStart
      rw [pathResolveParent_of_end hend, followParent, hlast, hend, hnil]
      cases href : (startRef pid path).exec s with
      | error e =>
        rw [outcome_bind_of_error href, outcome_bind_of_error href]
        refine ⟨fun _ k u hx => ?_, fun _ => rfl⟩
        obtain ⟨cur, v, hv, -⟩ := exists_of_exec_bind hx
        rw [href] at hv
        cases hv
      | ok x =>
        obtain ⟨cur, v⟩ := x
        rw [outcome_bind_of_ok href, outcome_bind_of_ok href]
        constructor
        · intro heq
          have hcur : outcome (pure (some (cur, [])) : FSM (Option (ℕ × Name))) v = .ok
            (some (cur, [])) := rfl
          obtain ⟨w, hw⟩ := outcome_eq_ok.mp (heq.symm.trans hcur)
          obtain ⟨_, w', -, hnone⟩ := exists_of_exec_bind hw
          cases hnone
        · intro hall
          exact absurd (hall cur v (exec_bind_of_ok href)).1 (by decide)
  | some last =>
    have hne := ne_nil_of_mem (mem_of_getLast? hlast)
    unfold EndsAtDir
    rw [pathResolveParent_of_last hlast, followParent, hlast]
    dsimp only
    cases hx : (followStart pid path (slashFree path).dropLast).exec s with
    | error e =>
      rw [outcome_bind_of_error hx, outcome_bind_of_error hx]
      exact ⟨fun _ => nofun, fun _ => rfl⟩
    | ok x =>
      obtain ⟨r, v⟩ := x
      rw [outcome_bind_of_ok hx, outcome_bind_of_ok hx]
      cases r with
      | none => exact ⟨fun _ => nofun, fun _ => rfl⟩
      | some k =>
        refine parentAt_some_iff.trans ⟨fun hdir k' u hu => ?_, fun hall => (hall k v rfl).2 hne⟩
        cases hu
        exact ⟨strEnd_of_ne_nil hne, fun _ => hdir⟩

/-! ## Names of entries -/

/-- A component is a name, and stays one when it is stored. -/
theorem ne_nil_of_mem_components {fuel : ℕ} (h : name ∈ comps fuel path) :
    Name.trunc name = name ∧ name ≠ [] := by
  induction fuel generalizing path with
  | zero => cases h
  | succ fuel ih =>
    unfold comps at h
    cases hs : pathShift path with
    | none =>
      rw [hs] at h
      cases h
    | some c =>
      obtain ⟨first, rest⟩ := c
      rw [hs] at h
      rcases mem_cons.mp h with rfl | h
      · obtain ⟨-, -, hfits, -, hne⟩ := pathShift_some hs
        exact ⟨hfits.trunc_eq, hne⟩
      · exact ih h

theorem Parent.ne_nil {dirs : ℕ → Option Entries} {start m : ℕ} (h : Parent dirs start path m name)
    (hend : strEnd path = false) : Name.trunc name ≠ [] := by
  cases h with
  | last hcomp _ _ =>
    have hmem : name ∈ components path := by
      rw [hcomp]
      exact mem_append_right _ (mem_singleton_self name)
    obtain ⟨htrunc, hne⟩ := ne_nil_of_mem_components hmem
    rw [htrunc]
    exact hne
  | here hend' =>
    rw [hend] at hend'
    cases hend'

/-- A new entry has its path's name. -/
theorem MadeAt.unnamed {v v' : View} {start x i m : ℕ} (h : MadeAt v start path type v')
    (hend : strEnd path = false) (hx : LiveDir v' x) (he : v'.Has x i [] m) :
    LiveDir v x ∧ v.Has x i [] m := by
  obtain ⟨q, name, j, n, hq, hp, hnew, hdirs⟩ := h
  by_cases hxn : x = n
  · -- the new directory has its two entries
    subst hxn
    obtain ⟨nd, hnd, hkind, -⟩ := hnew.node
    obtain ⟨nd', hnd', hdir⟩ := hx.2
    cases hnd.symm.trans hnd'
    rcases (hnew.dots (hkind.symm.trans hdir) i [] m).mp he with
      ⟨-, hnm, -⟩ | ⟨-, hnm, -⟩ <;> cases hnm
  · rcases (hnew.adds.has hxn).mp he with he | ⟨-, -, hnm, -⟩
    · exact ⟨((hdirs x).mp hx).resolve_right fun hr => hxn hr.2, he⟩
    · exact absurd hnm.symm (hp.ne_nil hend)

theorem exists_startRef_of_create {r : Option ℕ}
    (h : (pathCreate pid path type).exec s = .ok (r, t)) :
    ∃ cur v, (startRef pid path).exec s = .ok (cur, v) := by
  rw [pathCreate_eq] at h
  obtain ⟨_, _, hp, -⟩ := exists_of_exec_bind h
  unfold pathResolveParent at hp
  rw [pathResolve_start] at hp
  obtain ⟨cur, v, hv, -⟩ := exists_of_exec_bind hp
  exact ⟨cur, v, hv⟩

/-- A call that may make an entry starts where the path does. -/
theorem FsCall.Makes.exists_startRef {c : FsCall} {r : ℤ × Bytes} (hc : FsCall.Makes path c)
    (hs : Steps s pid c r t) :
    ∃ cur v, (startRef pid path).exec s = .ok (cur, v) := by
  cases c with
  | «open» p mode =>
    obtain rfl : p = path := hc
    obtain ⟨_, _, hopen, -⟩ := exists_of_exec_bind hs
    rw [doOpen_eq] at hopen
    obtain ⟨_, _, hinode, -⟩ := exists_of_exec_bind hopen
    unfold openInode at hinode
    cases hw : writableMode mode with
    | true =>
      rw [hw] at hinode
      obtain ⟨_, _, hcreate, -⟩ := exists_of_exec_bind hinode
      exact exists_startRef_of_create hcreate
    | false =>
      rw [hw] at hinode
      have hentry : (pathResolveEntry pid p).exec s = _ := hinode
      rw [pathResolveEntry_eq] at hentry
      obtain ⟨cur, v, hv, -⟩ := exists_of_exec_bind hentry
      exact ⟨cur, v, hv⟩
  | mkdir p =>
    obtain rfl : p = path := hc
    obtain ⟨_, _, hmkdir, -⟩ := exists_of_exec_bind hs
    obtain ⟨_, _, hcreate, -⟩ := exists_of_exec_bind hmkdir
    exact exists_startRef_of_create hcreate
  | _ => exact hc.elim

/-- A path that is answered with a start is not empty. -/
theorem EndsAtDir.not_strEnd {cur : ℕ} (h : EndsAtDir pid path s)
    (hx : (startRef pid path).exec s = .ok (cur, t)) :
    strEnd path = false := by
  refine Bool.eq_false_of_not_eq_true fun hend => ?_
  unfold EndsAtDir followStart at h
  rw [slashFree_of_strEnd hend, hend] at h
  exact absurd (h cur t (exec_bind_of_ok hx)).1 (by decide)

/-- **Path resolution depends on the components exactly where the path is not empty and ends in a
directory.** In every state. -/
theorem resolvesByComponents_iff (pid : ℕ) (path : Name) (s : FS) :
    ResolvesByComponents pid path s ↔ EndsAtDir pid path s := by
  refine ⟨fun h => resolve_parent_iff.mp h.parent, fun h => ?_⟩
  have hparent := resolve_parent_iff.mpr h
  refine ⟨by rw [pathResolveEntry_eq], hparent, fun k name t hx => ?_,
    fun E c r t hheld hc hproper hs x i m hx he => ?_⟩
  · obtain ⟨v, hv⟩ := outcome_eq_ok.mp (hparent.symm.trans (outcome_eq_ok.mpr ⟨t, hx⟩))
    unfold followParent at hv
    split at hv
    · obtain ⟨_, _, -, hv⟩ := exists_of_exec_bind hv
      obtain ⟨_, _, -, hv⟩ := exists_of_exec_bind hv
      cases hv
    · next last hlast =>
      obtain ⟨o, _, -, hv⟩ := exists_of_exec_bind hv
      have hmem : last ∈ components path := by
        rw [components_eq_slashFree]
        exact mem_of_getLast? hlast
      cases o with
      | none => cases hv
      | some k' =>
        cases hv
        exact (ne_nil_of_mem_components hmem).2
  · obtain ⟨cur, v, hstart⟩ := hc.exists_startRef hs
    have hend := h.not_strEnd hstart
    have heff := (hheld.step hproper hs).2
    have hsame : viewAt t = viewAt s → LiveDir (viewAt s) x ∧
      (viewAt s).Has x i [] m := fun hv => by
      rw [hv] at hx he
      exact ⟨hx, he⟩
    cases c with
    | «open» p mode =>
      obtain rfl : p = path := hc
      exact heff.2.1.elim hsame fun hm => hm.unnamed hend hx he
    | mkdir p =>
      obtain rfl : p = path := hc
      exact heff.2.elim hsame fun hm => hm.unnamed hend hx he
    | _ => exact hc.elim

/-- **The empty path is a directory with no name**: `do_mkdir` of it makes an entry without one in
the working directory. -/
theorem empty_path_named_nothing :
    ∃ s t r, Formatted s ∧ ¬ ResolvesByComponents 1 [] s ∧ Steps s 1 (.mkdir []) r t ∧
    (viewAt t).Has 1 2 [] 2 := by
  obtain ⟨s, t, rs, hs, -, hx, htest⟩ := exists_run (P := fun _ _ _ => True) [(1, .mkdir [])]
    (fun _ t => decide ((nodesAt t).dirs 1 = some [some (dotName, 1), some (dotDotName, 1),
    some ([], 2)]))
    (fun _ _ _ => trivial) (by decide +kernel)
  obtain ⟨r, rfl, hstep⟩ := steps_of_script hx
  refine ⟨s, t, r, hs, fun h => ?_, hstep,
    (View.has_congr (viewAt_root t)).mpr ⟨_, of_decide_eq_true htest, rfl⟩⟩
  obtain ⟨cur, v, hstart⟩ := FsCall.Makes.exists_startRef (c := .mkdir []) rfl hstep
  have hcode : outcome (pathResolveParent 1 []) s = .ok (some (cur, [])) := by
    rw [pathResolveParent_of_end rfl, outcome_bind_of_ok hstart]
    rfl
  obtain ⟨w, hw⟩ := outcome_eq_ok.mp (h.parent.symm.trans hcode)
  obtain ⟨_, _, -, hw⟩ := exists_of_exec_bind hw
  obtain ⟨_, _, -, hw⟩ := exists_of_exec_bind hw
  cases hw

end OsLab
