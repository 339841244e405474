import OsLab.Sched.Touch
/-!
# The keys of objects

What the init calls of `kernel/locking/` do with keys, over any run of init calls, destroy calls and
the cleanup at an exit, with anything between them that leaves bitmaps and keys alone.
`do_barrier_init` looks for a key that it never stores. -/

namespace OsLab.Sched

namespace Kernel

/-- The key of an object. -/
def keyOf (s : Kernel) : Obj → ℤ
  | .mutex i => (s.mlocks i).key
  | .cond i => s.cond_key i
  | .sema i => (s.semaphores i).key
  | .barrier i => (s.barriers i).key
  | _ => 0

/-- `cleanup_proc`, as far as the objects go. -/
def cleanupObjects (pid : ℤ) (s : Kernel) : Res := do
  let s ← s.cleanupMutexes pid
  let s ← s.cleanupBarriers pid
  let s ← s.cleanupConditions pid
  s.cleanupSemaphores pid

/-- The init calls, and the objects each is for. -/
inductive Names : Call → ℤ → Obj → Prop
  | mutex (key i) : Names (.mutexInit key) key (.mutex i)
  | cond (key i) : Names (.condInit key) key (.cond i)
  | sema (key init i) : Names (.semaInit key init) key (.sema i)
  | barrier (key goal i) : Names (.barrierInit key goal) key (.barrier i)

/-- A step, with the object and the key of an init call. -/
inductive KeyStep (s : Kernel) : Option (Obj × ℤ) → Kernel → Prop
  | init {s'} (c call next drops key o) (hcall : Names call key o) (ho : s.gives call = some o)
      (h : s.perform c next drops call = .ok s') : KeyStep s (some (o, key)) s'
  | condDestroy {s'} (i) (h : s.doConditionDestroy i = .ok s') : KeyStep s none s'
  | semaDestroy {s'} (i) (h : s.doSemaphoreDestroy i = .ok s') : KeyStep s none s'
  | barrierDestroy {s'} (i) (h : s.doBarrierDestroy i = .ok s') : KeyStep s none s'
  | exit {s'} (pid) (h : s.cleanupObjects pid = .ok s') : KeyStep s none s'
  | rest {s'} (h : ∀ o, s'.ref o = s.ref o ∧ s'.keyOf o = s.keyOf o) : KeyStep s none s'

/-- The keys with which an object has been asked for since it is in use. -/
def log (asked : Obj → List ℤ) (g : Option (Obj × ℤ)) (s' : Kernel) (o : Obj) : List ℤ :=
  if s'.ref o = ∅ then []
  else match g with
    | some (o', key) => if o' = o then key :: asked o else asked o
    | none => asked o

/-- The states reached by steps whose init calls are `Good`. -/
inductive KeyReach (Good : Kernel → (Obj → List ℤ) → Obj × ℤ → Prop) : Kernel → (Obj → List ℤ) → Prop
  | boot : KeyReach Good boot fun _ => []
  | step {s s' asked g} (h : KeyReach Good s asked) (hs : KeyStep s g s') (hg : ∀ a ∈ g, Good s asked a) :
      KeyReach Good s' (log asked g s')

/-! ## What keeps keys -/

variable {s s' s'' : Kernel} {c : Cpu} {p next : Slot} {i : Idx} {o : Obj} {key : ℤ} {drops : Slot → List ℕ}
  {call : Call} {asked : Obj → List ℤ}

/-- No object comes into use, those in use keep their keys, and barriers always do. -/
structure KeepsKeys (s s' : Kernel) : Prop where
  live : ∀ o, s'.ref o ≠ ∅ → s.ref o ≠ ∅ ∧ s'.keyOf o = s.keyOf o
  barrier : ∀ i, (s'.barriers i).key = (s.barriers i).key

namespace KeepsKeys

theorem trans (h : KeepsKeys s s') (h' : KeepsKeys s' s'') : KeepsKeys s s'' :=
  ⟨fun o ho => ⟨(h.live o (h'.live o ho).1).1, (h'.live o ho).2.trans (h.live o (h'.live o ho).1).2⟩,
    fun i => (h'.barrier i).trans (h.barrier i)⟩

/-- The references to one object change. -/
theorem of_ref {r : Finset Slot} (href : ∀ o', s'.ref o' = if o' = o then r else s.ref o') (hr : r ≠ ∅ → s.ref o ≠ ∅)
    (hkey : s'.keyOf = s.keyOf) : KeepsKeys s s' := by
  refine ⟨fun o' ho' => ⟨?_, congrFun hkey o'⟩, fun i => congrFun hkey (.barrier i)⟩
  rw [href] at ho'
  split_ifs at ho' with h
  · exact h ▸ hr ho'
  · exact ho'

theorem of_eq (href : s'.ref = s.ref) (hkey : s'.keyOf = s.keyOf) : KeepsKeys s s' :=
  ⟨fun o ho => ⟨href ▸ ho, congrFun hkey o⟩, fun i => congrFun hkey (.barrier i)⟩

theorem still (h : KeepsKeys s s') (h' : Still s' s'') : KeepsKeys s s'' :=
  h.trans (of_eq (Touches.ref_still h') (funext fun o => by cases o <;> simp only [keyOf, h'.objects]))

theorem refl : KeepsKeys s s := of_eq rfl rfl

end KeepsKeys

theorem keepsKeys_cleanupRefs {T : Kind} (hset : ∀ s i p, KeepsKeys s (T.setRef s i ((T.ref s i).erase p)))
    (hdestruct : ∀ s i, T.ref s i = ∅ → Yields (KeepsKeys s) (T.destruct s i)) (pid : ℤ) :
    Yields (KeepsKeys s) (cleanupRefs T pid s) := by
  refine Post.foldlM (fun s1 i _ h1 => post_index fun p => .ite (fun _ => ?_) fun _ => h1) .refl
  have h2 := h1.trans (hset s1 i p)
  exact .ite (fun h0 => (hdestruct _ i h0).mono fun _ h3 => h2.trans h3) fun _ => h2

theorem keepsKeys_mutexRelease : Yields (KeepsKeys s) (s.mutexRelease i) := by
  refine still_unblockList.mono fun _ h =>
    (KeepsKeys.of_eq (funext fun o => by cases o <;> rfl) (funext fun o => ?_)).still h
  cases o with
  | mutex j => by_cases hj : j = i <;> simp [keyOf, setMlock, upd, hj]
  | _ => rfl

/-- The semaphore loses its key once it is not in use. -/
theorem keepsKeys_semaphoreDestruct (h0 : s.sema_ref i = ∅) : Yields (KeepsKeys s) (s.semaphoreDestruct i) := by
  have h1 : KeepsKeys s (s.setSema i { s.semaphores i with key := -1, count := 0 }) := ⟨fun o ho => ?_, fun _ => rfl⟩
  · exact still_unblockList.mono fun _ => h1.still
  rw [ref_setSema] at ho
  refine ⟨ho, ?_⟩
  cases o with
  | sema j =>
    have hj : j ≠ i := by
      rintro rfl
      exact ho h0
    exact congrArg Sema.key (upd_of_ne hj)
  | _ => rfl

theorem keepsKeys_cleanupObjects {pid : ℤ} : Yields (KeepsKeys s) (s.cleanupObjects pid) := by
  have hm : Yields (KeepsKeys s) (s.cleanupMutexes pid) := by
    refine Post.bind (Q := KeepsKeys s)
      (.foldlM (fun s1 i _ h1 => .ite (fun _ => ?_) fun _ => h1) .refl) fun s1 h1 => ?_
    · exact keepsKeys_mutexRelease.mono fun _ => h1.trans
    refine (keepsKeys_cleanupRefs
      (fun _ _ _ => .of_ref (fun _ => ref_setMlockRef) ne_empty_of_erase rfl) (fun s i _ => ?_)
      pid).mono fun _ => h1.trans
    exact keepsKeys_mutexRelease.bind fun _ h2 => h2.trans
      (.of_ref (fun _ => ref_setMlockRef) (fun h => absurd rfl h) rfl)
  refine hm.bind fun s1 h1 => Post.bind (Q := KeepsKeys s) ?_ fun s2 h2 => Post.bind
    (Q := KeepsKeys s) ?_ fun s3 h3 => ?_
  · exact (keepsKeys_cleanupRefs (fun _ _ _ => .of_ref (fun _ => ref_setBarrierRef) ne_empty_of_erase rfl)
      (fun _ _ _ => still_unblockList.mono fun _ => KeepsKeys.refl.still) pid).mono fun _ => h1.trans
  · exact (keepsKeys_cleanupRefs (fun _ _ _ => .of_ref (fun _ => ref_setCondRef) ne_empty_of_erase rfl)
      (fun _ _ _ => still_unblockList.mono fun _ => KeepsKeys.refl.still) pid).mono fun _ => h2.trans
  · exact (keepsKeys_cleanupRefs (fun _ _ _ => .of_ref (fun _ => ref_setSemaRef) ne_empty_of_erase rfl)
      (fun _ _ => keepsKeys_semaphoreDestruct) pid).mono fun _ => h3.trans

/-- **A step that is not an init call.** -/
theorem KeyStep.keepsKeys (h : KeyStep s none s') : KeepsKeys s s' := by
  cases h with
  | condDestroy i h =>
    refine Post.of_ok (?_ : Yields (KeepsKeys s) (s.doConditionDestroy i)) h
    refine .index (fun _ => .refl) fun i _ => .ite (fun _ => .refl) fun _ => still_unblockList.mono fun _ => ?_
    exact (KeepsKeys.of_ref (fun _ => ref_setCondRef) (fun h => absurd rfl h) rfl).still
  | semaDestroy i h =>
    refine Post.of_ok (?_ : Yields (KeepsKeys s) (s.doSemaphoreDestroy i)) h
    refine .index (fun _ => trivial) fun i _ => .ite (fun _ => .refl) fun _ => ?_
    exact (keepsKeys_semaphoreDestruct upd_self).mono fun _ =>
      (KeepsKeys.of_ref (fun _ => ref_setSemaRef) (fun h => absurd rfl h) rfl).trans
  | barrierDestroy i h =>
    refine Post.of_ok (?_ : Yields (KeepsKeys s) (s.doBarrierDestroy i)) h
    refine .index (fun _ => .refl) fun i _ => .ite (fun _ => .refl) fun _ => still_unblockList.mono fun _ => ?_
    exact (KeepsKeys.of_ref (fun _ => ref_setBarrierRef) (fun h => absurd rfl h) rfl).still
  | exit pid h => exact keepsKeys_cleanupObjects.of_ok h
  | rest h => exact .of_eq (funext fun o => (h o).1) (funext fun o => (h o).2)

/-! ## The init calls -/

/-- An object in use, with other references. -/
def withRef (s : Kernel) : Obj → Finset Slot → Kernel
  | .mutex i, r => s.setMlockRef i r
  | .cond i, r => s.setCondRef i r
  | .sema i, r => s.setSemaRef i r
  | .barrier i, r => s.setBarrierRef i r
  | _, _ => s

/-- The object begins, with nobody on its list, for the process `p`. -/
def withNew (s : Kernel) (p : Slot) : Call → Obj → Kernel
  | .mutexInit key, .mutex i => { s with
      mlocks := upd s.mlocks i ⟨false, -1, key⟩, mlock_ref := upd s.mlock_ref i {p},
      links := DList.init s.links (.mutex i) }
  | .condInit key, .cond i => { s with
      cond_key := upd s.cond_key i key, cond_ref := upd s.cond_ref i {p}, links := DList.init s.links (.cond i) }
  | .semaInit key init, .sema i => { s with
      semaphores := upd s.semaphores i
        { key := key, count := wrap init, gen := (s.semaphores i).gen + 1, init := wrap init },
      sema_ref := upd s.sema_ref i {p, .kernel 0}, links := DList.init s.links (.sema i) }
  | .barrierInit _ goal, .barrier i => { s with
      barriers := upd s.barriers i ⟨(s.barriers i).key, goal, 0⟩, barrier_ref := upd s.barrier_ref i {p},
      links := DList.init s.links (.barrier i) }
  | _, _ => s

theorem findKey_key {ref : Idx → Finset Slot} {k : Idx → ℤ} (hf : findKey ref k key = some i) : k i = key := by
  have := List.find?_some hf
  rw [decide_eq_true_eq] at this
  exact this.2

/-- **An init call** refers to an object in use under its key, or begins one that is free, if none
is. -/
def Inits (s : Kernel) (call : Call) (key : ℤ) (o : Obj) (s' : Kernel) : Prop :=
  s.ref o ≠ ∅ ∧ s.keyOf o = key ∧ (∃ p, s' = s.withRef o (insert p (s.ref o))) ∨
  (∀ o', Names call key o' → s.ref o' ≠ ∅ → s.keyOf o' ≠ key) ∧ s.ref o = ∅ ∧ ∃ p, s' = s.withNew p call o

theorem inits_perform {o0 : Obj} (hcall : Names call key o0) :
    Yields (fun s' => ∃ o, s.gives call = some o ∧ Names call key o ∧ Inits s call key o s')
      (s.perform c next drops call) := by
  cases hcall with
  | mutex key i =>
    refine post_index fun p => .init trivial (fun j hk => ⟨.mutex j, by simp [gives, *], .mutex key j, ?_⟩)
      fun j hk hf => ⟨.mutex j, by simp [gives, *], .mutex key j, ?_⟩
    · exact .inl ⟨findKey_spec hk, findKey_key hk, p, rfl⟩
    · refine .inr ⟨by rintro _ ⟨⟩; exact findKey_none hk _, findFree_spec hf, p, ?_⟩
      simp [mutexInit, setMlock, setLinks, setMlockRef, withNew, findFree_spec hf]
  | cond key i =>
    refine .init trivial (fun j hk => post_index fun p => ⟨.cond j, by simp [gives, *], .cond key j, ?_⟩)
      fun j hk hf => post_index fun p => ⟨.cond j, by simp [gives, *], .cond key j, ?_⟩
    · exact .inl ⟨findKey_spec hk, findKey_key hk, p, rfl⟩
    · refine .inr ⟨by rintro _ ⟨⟩; exact findKey_none hk _, findFree_spec hf, p, ?_⟩
      simp [conditionInit, setLinks, setCondRef, withNew, findFree_spec hf]
  | sema key init i =>
    refine .init trivial (fun j hk => post_index fun p => ⟨.sema j, by simp [gives, *], .sema key init j, ?_⟩)
      fun j hk hf => post_index fun p => ⟨.sema j, by simp [gives, *], .sema key init j, ?_⟩
    · exact .inl ⟨findKey_spec hk, findKey_key hk, p, rfl⟩
    · refine .inr ⟨by rintro _ ⟨⟩; exact findKey_none hk _, findFree_spec hf, p, ?_⟩
      simp [semaphoreAlloc, setSema, setLinks, setSemaRef, withNew]
  | barrier key goal i =>
    refine post_index fun p => .init trivial (fun j hk => ⟨.barrier j, by simp [gives, *], .barrier key goal j, ?_⟩)
      fun j hk hf => ⟨.barrier j, by simp [gives, *], .barrier key goal j, ?_⟩
    · exact .inl ⟨findKey_spec hk, findKey_key hk, p, rfl⟩
    · refine .inr ⟨by rintro _ ⟨⟩; exact findKey_none hk _, findFree_spec hf, p, ?_⟩
      simp [barrierInit, setBarrier, setLinks, setBarrierRef, withNew, findFree_spec hf]

/-- The kinds of objects with keys. -/
def kind : Obj → ℕ
  | .mutex _ => 0
  | .cond _ => 1
  | .sema _ => 2
  | .barrier _ => 3
  | _ => 4

theorem Names.of_kind {o' : Obj} (h : Names call key o) (hk : kind o' = kind o) : Names call key o' := by
  cases h <;> cases o' <;> first | constructor | cases hk

/-- The call is for one object, which is then in use under the key. A barrier keeps the key it has.
-/
theorem Inits.spec (hcall : Names call key o) (h : Inits s call key o s') : s'.ref o ≠ ∅ ∧
    s'.keyOf o = (if kind o < 3 then key else s.keyOf o) ∧
    ∀ o' ≠ o, s'.ref o' = s.ref o' ∧ s'.keyOf o' = s.keyOf o' := by
  rcases h with ⟨-, rfl, p, rfl⟩ | ⟨-, -, p, rfl⟩
  · refine ⟨?_, ?_, fun o' => ?_⟩
    · cases hcall <;> simp [withRef, Kernel.ref, setMlockRef, setCondRef, setSemaRef, setBarrierRef]
    · cases hcall <;> rfl
    · cases hcall <;> cases o' <;>
        simp +contextual [withRef, Kernel.ref, keyOf, upd, setMlockRef, setCondRef, setSemaRef, setBarrierRef]
  · refine ⟨?_, ?_, fun o' => ?_⟩
    · cases hcall <;> simp [withNew, Kernel.ref]
    · cases hcall <;> simp [withNew, keyOf, kind]
    · cases hcall <;> cases o' <;> simp +contextual [withNew, Kernel.ref, keyOf, upd]

/-! ## Mutexes, conditions and semaphores -/

/-- Two objects of one kind in use have different keys. -/
def Unique (s : Kernel) : Prop :=
  ∀ o o', kind o = kind o' → kind o < 3 → s.ref o ≠ ∅ → s.ref o' ≠ ∅ → s.keyOf o = s.keyOf o' → o = o'

theorem KeepsKeys.unique (h : KeepsKeys s s') (hu : Unique s) : Unique s' := fun o o' hk h3 ho ho' hkey =>
  hu o o' hk h3 (h.live o ho).1 (h.live o' ho').1 ((h.live o ho).2.symm.trans (hkey.trans (h.live o' ho').2))

theorem Inits.unique (hcall : Names call key o) (h : Inits s call key o s') (hu : Unique s) : Unique s' := by
  obtain ⟨-, hkey, hother⟩ := h.spec hcall
  -- no other object of the kind has the key
  have hnew : kind o < 3 → ∀ a ≠ o, kind a = kind o → s'.ref a ≠ ∅ → s'.keyOf a ≠ s'.keyOf o := by
    intro h3 a hao hk ha hab
    rw [(hother a hao).1] at ha
    rw [(hother a hao).2, hkey, if_pos h3] at hab
    rcases h with ⟨hlive, hold, -⟩ | ⟨hnone, -⟩
    · exact hao (hu a o hk (hk ▸ h3) ha hlive (hab.trans hold.symm))
    · exact hnone a (hcall.of_kind hk) ha hab
  intro a b hk h3 ha hb hab
  by_cases hao : a = o
  · by_contra hne
    exact hnew (hao ▸ h3) b (fun hbo => hne (hao.trans hbo.symm)) (hao ▸ hk.symm) hb (hao ▸ hab.symm)
  by_cases hbo : b = o
  · exact absurd (hbo ▸ hab) (hnew (hbo ▸ hk ▸ h3) a hao (hbo ▸ hk) ha)
  rw [(hother a hao).1] at ha
  rw [(hother b hbo).1] at hb
  rw [(hother a hao).2, (hother b hbo).2] at hab
  exact hu a b hk h3 ha hb hab

theorem KeyStep.inits {a : Obj × ℤ} (h : KeyStep s (some a) s') :
    ∃ call, Names call a.2 a.1 ∧ Inits s call a.2 a.1 s' := by
  cases h with
  | init c call next drops key o hcall ho h =>
    obtain ⟨o', ho', hcall', hi⟩ := (inits_perform hcall).of_ok h
    obtain rfl := Option.some.inj (ho'.symm.trans ho)
    exact ⟨call, hcall, hi⟩

theorem KeyReach.unique {Good : Kernel → (Obj → List ℤ) → Obj × ℤ → Prop} (h : KeyReach Good s asked) : Unique s := by
  induction h with
  | boot => exact fun o _ _ _ ho => absurd (by cases o <;> rfl) ho
  | @step _ _ _ g _ hs _ ih =>
    cases g with
    | none => exact hs.keepsKeys.unique ih
    | some a =>
      obtain ⟨call, hcall, hi⟩ := hs.inits
      exact hi.unique hcall ih

/-- **Keys name mutexes, conditions and semaphores.** An init call under a key in use refers to that
object and changes nothing else; under any other key it begins an object that was free, and no other
changes. -/
theorem keys_name_objects (h : KeyReach (fun _ _ _ => True) s asked) : Unique s ∧
    ∀ c next drops call key o0 s', Names call key o0 → kind o0 < 3 → s.perform c next drops call = .ok s' →
      (∀ o, kind o = kind o0 → s.ref o ≠ ∅ → s.keyOf o = key →
        s.gives call = some o ∧ ∃ p, s' = s.withRef o (insert p (s.ref o))) ∧
      ((∀ o, kind o = kind o0 → s.ref o ≠ ∅ → s.keyOf o ≠ key) →
        ∃ o p, s.gives call = some o ∧ kind o = kind o0 ∧ s.ref o = ∅ ∧ s' = s.withNew p call o) := by
  refine ⟨h.unique, fun c next drops call key o0 s' hcall h3 hs => ?_⟩
  obtain ⟨o, ho, hcall', hi⟩ := (inits_perform hcall).of_ok hs
  have hk : kind o = kind o0 := by cases hcall' <;> cases hcall <;> rfl
  rcases hi with ⟨hlive, hkey, hp⟩ | ⟨hnone, hfree, p, hp⟩
  · refine ⟨fun o' hk' hlive' hkey' => ?_, fun hno => absurd hkey (hno o hk hlive)⟩
    obtain rfl := h.unique o o' (hk.trans hk'.symm) (hk ▸ h3) hlive hlive' (hkey.trans hkey'.symm)
    exact ⟨ho, hp⟩
  · refine ⟨fun o' hk' hlive' hkey' => absurd hkey' (hnone o' (hcall.of_kind hk') hlive'), fun _ => ?_⟩
    exact ⟨o, p, ho, hk, hfree, hp⟩

/-- An init call after which its processor runs its first process. -/
theorem KeyStep.of_init {call : Call} {key : ℤ} {o : Obj} (c : Cpu) (hcall : Names call key o)
    (ho : s.gives call = some o) (h : s.perform c (.kernel c) (fun _ => []) call = .ok s') :
    KeyStep s (some (o, key)) s' :=
  .init c call _ _ key o hcall ho h

/-- A step of a run that may make any init call. -/
theorem KeyReach.snoc {asked : Obj → List ℤ} {g : Option (Obj × ℤ)}
    (h : KeyReach (fun _ _ _ => True) s asked) (hs : KeyStep s g s') :
    KeyReach (fun _ _ _ => True) s' (log asked g s') :=
  .step h hs fun _ _ => trivial

/-- Two keys, the second asked for twice, and the slot of the first used again for a third after its
process has gone. A further call under a key in use has the slot of that key, and one under another
key a free slot. -/
theorem keys_name_objects_recycled : ∃ s asked, KeyReach (fun _ _ _ => True) s asked ∧ Unique s ∧
    (s.mlock_ref 0 ≠ ∅ ∧ (s.mlocks 0).key = 9) ∧ (s.mlock_ref 1 ≠ ∅ ∧ (s.mlocks 1).key = 4) ∧
    (∃ s' p, s.perform 0 (.kernel 0) (fun _ => []) (.mutexInit 9) = .ok s' ∧
      s.gives (.mutexInit 9) = some (.mutex 0) ∧ s' = s.withRef (.mutex 0) (insert p (s.mlock_ref 0))) ∧
    ∃ s' o p, s.perform 0 (.kernel 0) (fun _ => []) (.mutexInit 6) = .ok s' ∧
      s.gives (.mutexInit 6) = some o ∧ kind o = 0 ∧ s.ref o = ∅ ∧ s' = s.withNew p (.mutexInit 6) o := by
  have h1 := KeyReach.boot.snoc (.of_init 0 (.mutex 5 0) (by decide) rfl)
  have h2 := h1.snoc (.of_init 1 (.mutex 4 1) (by decide) rfl)
  have h3 := h2.snoc (.of_init 1 (.mutex 4 1) (by decide) rfl)
  have h4 := h3.snoc (.exit 0 rfl)
  have h5 := h4.snoc (.of_init 1 (.mutex 9 0) (by decide) rfl)
  obtain ⟨hu, hcall⟩ := keys_name_objects h5
  refine ⟨_, _, h5, hu, by decide, by decide, ?_, ?_⟩
  · obtain ⟨hg, p, hs'⟩ := (hcall 0 (.kernel 0) (fun _ => []) (.mutexInit 9) 9 (.mutex 0) _ (.mutex 9 0) (by decide)
      rfl).1 (.mutex 0) rfl (by decide) (by decide)
    exact ⟨_, p, rfl, hg, hs'⟩
  · obtain ⟨o, p, hnew⟩ := (hcall 0 (.kernel 0) (fun _ => []) (.mutexInit 6) 6 (.mutex 0) _ (.mutex 6 0) (by decide)
      rfl).2 (by rintro (i | i | i | i | i | i) hk <;> first | exact absurd hk (by decide) | (revert i; decide))
    exact ⟨_, o, p, rfl, hnew⟩

/-! ## Barriers -/

/-- Two calls have had the same barrier, while it is in use, exactly if they gave the same key, and
no two barriers in use have one key. -/
def Shared (s : Kernel) (asked : Obj → List ℤ) : Prop :=
  (∀ i j, ∀ k ∈ asked (.barrier i), ∀ k' ∈ asked (.barrier j), i = j ↔ k = k') ∧
  ∀ i j, s.barrier_ref i ≠ ∅ → s.barrier_ref j ≠ ∅ → (s.barriers i).key = (s.barriers j).key → i = j

/-- A barrier is asked for while none is in use, or with the key 0 while those in use were asked for
with it. -/
def Agrees (s : Kernel) (asked : Obj → List ℤ) (a : Obj × ℤ) : Prop :=
  ∀ i, a.1 = .barrier i → (∀ j, s.barrier_ref j = ∅) ∨ a.2 = 0 ∧ ∀ j, ∀ k ∈ asked (.barrier j), k = 0

/-- Every barrier has the key 0, and those in use have been asked for. -/
def Zeroed (s : Kernel) (asked : Obj → List ℤ) : Prop :=
  ∀ i, (s.barriers i).key = 0 ∧ (s.barrier_ref i ≠ ∅ ↔ ∃ k, k ∈ asked (.barrier i))

/-- At most one barrier is in use, and it was asked for with one key. -/
def One (asked : Obj → List ℤ) : Prop :=
  ∀ i j, ∀ k ∈ asked (.barrier i), ∀ k' ∈ asked (.barrier j), i = j ∧ k = k'

theorem Zeroed.shared_iff (h : Zeroed s asked) : Shared s asked ↔ One asked := by
  constructor
  · intro hs i j k hk k' hk'
    have hij := hs.2 i j ((h i).2.mpr ⟨k, hk⟩) ((h j).2.mpr ⟨k', hk'⟩) ((h i).1.trans (h j).1.symm)
    exact ⟨hij, (hs.1 i j k hk k' hk').mp hij⟩
  · refine fun ho => ⟨fun i j k hk k' hk' => iff_of_true (ho i j k hk k' hk').1
      (ho i j k hk k' hk').2, fun i j hi hj _ => ?_⟩
    obtain ⟨k, hk⟩ := (h i).2.mp hi
    obtain ⟨k', hk'⟩ := (h j).2.mp hj
    exact (ho i j k hk k' hk').1

variable {g : Option (Obj × ℤ)} {k : ℤ}

theorem mem_log : k ∈ log asked g s' o ↔ s'.ref o ≠ ∅ ∧ (g = some (o, k) ∨ k ∈ asked o) := by
  unfold log
  by_cases h0 : s'.ref o = ∅
  · simp [h0]
  rcases g with _ | ⟨o', key⟩
  · simp [h0]
  · by_cases ho : o' = o
    · simp [h0, ho, eq_comm]
    · simp [h0, ho]

/-- What a step does to an object other than that of its init call. -/
theorem KeyStep.other (hs : KeyStep s g s') (hg : ∀ k, g ≠ some (o, k)) :
    (s'.ref o ≠ ∅ → s.ref o ≠ ∅) ∧ ∀ i, o = .barrier i → s'.keyOf o = s.keyOf o := by
  cases g with
  | none => exact ⟨fun ho => (hs.keepsKeys.live o ho).1, by rintro i rfl; exact hs.keepsKeys.barrier i⟩
  | some a =>
    obtain ⟨call, hcall, hi⟩ := hs.inits
    obtain ⟨href, hkey⟩ := (hi.spec hcall).2.2 o fun ho => hg a.2 (by rw [ho])
    exact ⟨fun ho => href ▸ ho, fun _ _ => hkey⟩

theorem Zeroed.step (h : Zeroed s asked) (hs : KeyStep s g s') : Zeroed s' (log asked g s') := by
  intro i
  simp only [mem_log, exists_and_left, exists_or]
  by_cases hg : ∃ k, g = some (.barrier i, k)
  · obtain ⟨k, rfl⟩ := hg
    obtain ⟨call, hcall, hi⟩ := hs.inits
    exact ⟨(hi.spec hcall).2.1.trans (h i).1, fun hi => ⟨hi, .inl ⟨k, rfl⟩⟩, And.left⟩
  · obtain ⟨hlive, hkey⟩ := hs.other (not_exists.mp hg)
    exact ⟨(hkey i rfl).trans (h i).1, fun hi => ⟨hi, .inr ((h i).2.mp (hlive hi))⟩, And.left⟩

/-- **One step** keeps at most one barrier with one key exactly if it agrees. -/
theorem Zeroed.one_iff (h : Zeroed s asked) (ho : One asked) (hs : KeyStep s g s') :
    One (log asked g s') ↔ ∀ a ∈ g, Agrees s asked a := by
  by_cases hg : ∃ i key, g = some (.barrier i, key)
  · obtain ⟨i, key, rfl⟩ := hg
    obtain ⟨call, hcall, hi⟩ := hs.inits
    obtain ⟨hlive, -, hother⟩ := hi.spec hcall
    have hmem : ∀ j k, k ∈ log asked (some (.barrier i, key)) s' (.barrier j) ↔ j = i ∧ k = key ∨ k ∈ asked (.barrier j) := by
      intro j k
      rw [mem_log, Option.some.injEq, Prod.mk.injEq, Obj.barrier.injEq, eq_comm (a := i), eq_comm (a := key)]
      refine and_iff_right_of_imp fun hk => ?_
      by_cases hji : j = i
      · exact hji ▸ hlive
      · rw [(hother (.barrier j) (by simpa using hji)).1]
        exact (h j).2.mpr ⟨k, hk.resolve_left fun hj => hji hj.1⟩
    -- whether it agrees or not is whether those in use are the one asked for, with its key
    have hone : One (log asked (some (.barrier i, key)) s') ↔ ∀ j, ∀ k ∈ asked (.barrier j), j = i ∧ k = key := by
      refine ⟨fun h' j k hk => h' j i k ((hmem j k).mpr (.inr hk)) key ((hmem i key).mpr (.inl ⟨rfl, rfl⟩)), fun hall => ?_⟩
      have hsame : ∀ j k, k ∈ log asked (some (.barrier i, key)) s' (.barrier j) → j = i ∧ k = key := fun j k hk =>
        ((hmem j k).mp hk).elim id (hall j k)
      exact fun a b k hk k' hk' => ⟨(hsame a k hk).1.trans (hsame b k' hk').1.symm, (hsame a k hk).2.trans (hsame b k' hk').2.symm⟩
    rw [hone]
    constructor
    · rintro hall _ ⟨⟩ _ ⟨⟩
      refine or_iff_not_imp_left.mpr fun hnone => ?_
      obtain ⟨j, hj⟩ := not_forall.mp hnone
      obtain ⟨k, hk⟩ := (h j).2.mp hj
      obtain ⟨rfl, -⟩ := hall j k hk
      have hkey : key = 0 := by
        rcases hi with ⟨-, hkey, -⟩ | ⟨-, hfree, -⟩
        · exact hkey.symm.trans (h j).1
        · exact absurd hfree hj
      exact ⟨hkey, fun j k hk => (hall j k hk).2.trans hkey⟩
    · intro hagree j k hk
      have hj := (h j).2.mpr ⟨k, hk⟩
      rcases hagree _ rfl i rfl with hnone | ⟨hkey, hzero⟩
      · exact absurd (hnone j) hj
      rcases hi with ⟨hi, -⟩ | ⟨hno, -⟩
      · obtain ⟨k', hk'⟩ := (h i).2.mp hi
        exact ⟨(ho j i k hk k' hk').1, (hzero j k hk).trans hkey.symm⟩
      · exact absurd ((h j).1.trans hkey.symm) (hno (.barrier j) (hcall.of_kind rfl) hj)
  · have hsub : ∀ {j k}, k ∈ log asked g s' (.barrier j) → k ∈ asked (.barrier j) := fun {j k} hk =>
      (mem_log.mp hk).2.resolve_left fun hj => hg ⟨j, k, hj⟩
    refine iff_of_true (fun i j k hk k' hk' => ho i j k (hsub hk) k' (hsub hk')) ?_
    rintro ⟨_, key⟩ ha i rfl
    exact absurd ⟨i, key, ha⟩ hg

theorem KeyReach.one (h : KeyReach Agrees s asked) : Zeroed s asked ∧ One asked := by
  induction h with
  | boot => exact ⟨fun _ => ⟨rfl, iff_of_false (absurd rfl) nofun⟩, nofun⟩
  | step _ hs hg ih => exact ⟨ih.1.step hs, (ih.1.one_iff ih.2 hs).mpr hg⟩

/-- **Barriers are shared by key in a run whose init calls agree**, and a further step keeps them so
exactly if it agrees. -/
theorem barriers_shared_iff (h : KeyReach Agrees s asked) : Shared s asked ∧
    ∀ g s', KeyStep s g s' → (Shared s' (log asked g s') ↔ ∀ a ∈ g, Agrees s asked a) :=
  ⟨h.one.1.shared_iff.mpr h.one.2, fun _ _ hs => (h.one.1.step hs).shared_iff.trans (h.one.1.one_iff h.one.2 hs)⟩

/-- A barrier asked for with the key 7 and destroyed, then one asked for with the key 0 by two
processes. They have the same one; a further call with the key 7 would not agree. -/
theorem barriers_shared_zero : ∃ s asked, KeyReach Agrees s asked ∧ asked (.barrier 0) = [0, 0] ∧
    s.barrier_ref 0 = {.kernel 0, .kernel 1} ∧ Shared s asked ∧
    ∃ s', KeyStep s (some (.barrier 1, 7)) s' ∧ ¬ Shared s' (log asked (some (.barrier 1, 7)) s') := by
  have h1 : KeyReach Agrees _ _ := .step .boot (.of_init 0 (.barrier 7 2 0) (by decide) rfl)
    fun _ _ _ _ => .inl (by decide)
  have h2 : KeyReach Agrees _ _ := .step h1 (.barrierDestroy 0 rfl) (by simp)
  have h3 : KeyReach Agrees _ _ :=
    .step h2 (.of_init 0 (.barrier 0 2 0) (by decide) rfl) fun _ _ _ _ => .inl (by decide)
  have h4 : KeyReach Agrees _ _ := .step h3 (.of_init 1 (.barrier 0 2 0) (by decide) rfl)
    (by rintro _ ⟨⟩ _ -; exact .inr ⟨rfl, by decide⟩)
  obtain ⟨hshared, hiff⟩ := barriers_shared_iff h4
  refine ⟨_, _, h4, by decide, by decide, hshared, _, .of_init 0 (.barrier 7 2 1) (by decide) rfl, fun h => ?_⟩
  rcases (hiff _ _ (.of_init 0 (.barrier 7 2 1) (by decide) rfl)).mp h _ rfl 1 rfl with hnone | ⟨hkey, -⟩
  · exact absurd (hnone 0) (by decide)
  · exact absurd hkey (by decide)

/-- **Two calls with one key have two barriers**, which both have the key 0. -/
theorem barriers_not_shared : ∃ s asked, KeyReach (fun _ _ _ => True) s asked ∧ ¬ Shared s asked := by
  have h1 := KeyReach.boot.snoc (.of_init 0 (.barrier 7 2 0) (by decide) rfl)
  have h2 := h1.snoc (.of_init 0 (.barrier 7 2 1) (by decide) rfl)
  exact ⟨_, _, h2, fun h => absurd (h.2 0 1 (by decide) (by decide) rfl) (by decide)⟩

end Kernel
end OsLab.Sched
