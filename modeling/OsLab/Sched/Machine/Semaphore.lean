import OsLab.Sched.Step
/-!
# The semaphores, without the scheduler

What the semaphores are of the kernel: the objects, who refers to them, who
waits on each, and which processes are inside `do_semaphore_down`
(`SemaView`). `SemaStep` is what one step of the kernel can do to them. A
process can be taken off a wait list when it is ended, and nothing counts
it back in.

`SemaInv` is the balance of count and wait list. It is kept by every step
but three: a semaphore made with a negative value, an up at the largest
`int`, and the end of a process that waits.
-/

namespace OsLab.Sched

open Finset

/-- What a step of the kernel can change of the semaphores. -/
structure SemaView where
  sema : Idx → Sema
  ref : Idx → Finset Slot
  wait : Idx → List Slot
  cont : Slot → Cont

/-- Nothing but the place of other processes in the kernel. -/
structure SemaSame (A B : SemaView) : Prop where
  sema : B.sema = A.sema
  ref : B.ref = A.ref
  wait : B.wait = A.wait
  cont : ∀ i, ∀ p ∈ A.wait i, B.cont p = A.cont p
  down : ∀ p i g, B.cont p = .down i g → A.cont p = .down i g

theorem SemaSame.refl (A : SemaView) : SemaSame A A := ⟨rfl, rfl, rfl, fun _ _ _ => rfl, fun _ _ _ h => h⟩

theorem SemaSame.trans {A B C : SemaView} (h : SemaSame A B) (h' : SemaSame B C) : SemaSame A C where
  sema := h'.sema.trans h.sema
  ref := h'.ref.trans h.ref
  wait := h'.wait.trans h.wait
  cont i p hp := by rw [h'.cont i p (by rw [h.wait]; exact hp), h.cont i p hp]
  down p i g hd := h.down p i g (h'.down p i g hd)

/-- Processes end. They drop their references, and leave the wait lists. -/
structure SemaReap (ended : Slot → Prop) (A B : SemaView) : Prop where
  gen : ∀ i, (B.sema i).gen = (A.sema i).gen
  sema : ∀ i, B.ref i ≠ ∅ → B.sema i = A.sema i
  ref : ∀ i, B.ref i ⊆ A.ref i
  root : ∀ i, .kernel 0 ∈ A.ref i → .kernel 0 ∈ B.ref i
  wait : ∀ i, B.ref i ≠ ∅ → (∀ p ∈ A.wait i, ¬ ended p) → B.wait i = A.wait i
  sub : ∀ i, ∀ p ∈ B.wait i, p ∈ A.wait i
  cont : ∀ i, ∀ p ∈ B.wait i, B.cont p = A.cont p
  down : ∀ p i g, B.cont p = .down i g → A.cont p = .down i g

theorem SemaReap.refl (ended : Slot → Prop) (A : SemaView) : SemaReap ended A A :=
  ⟨fun _ => rfl, fun _ _ => rfl, fun _ => Finset.Subset.refl _, fun _ => id, fun _ _ _ => rfl,
    fun _ _ => id, fun _ _ _ => rfl, fun _ _ _ => id⟩

/-- One process ends, and leaves its list. -/
theorem SemaReap.leave {A B : SemaView} {p : Slot} (hsema : B.sema = A.sema) (href : B.ref = A.ref)
    (hwait : ∀ i, B.wait i = (A.wait i).erase p) (hcont : B.cont = A.cont) : SemaReap (· = p) A B where
  gen i := by rw [hsema]
  sema i _ := by rw [hsema]
  ref i := by rw [href]
  root i hi := href ▸ hi
  wait i _ hnot := (hwait i).trans (List.erase_of_not_mem fun hin => hnot p hin rfl)
  sub i p' hp' := List.mem_of_mem_erase (hwait i ▸ hp')
  cont _ _ _ := by rw [hcont]
  down _ _ _ hd := hcont ▸ hd

section

variable {A B : SemaView} {D : Slot → Prop} (h : SemaReap D A B)
include h

variable {E : Slot → Prop} {C : SemaView}

theorem SemaReap.trans (h' : SemaReap E B C) : SemaReap (fun p => D p ∨ E p) A C where
  gen i := (h'.gen i).trans (h.gen i)
  sema i hi := by
    have hB : B.ref i ≠ ∅ := fun he => hi (subset_empty.mp (he ▸ h'.ref i))
    rw [h'.sema i hi, h.sema i hB]
  ref i := (h'.ref i).trans (h.ref i)
  root i hi := h'.root i (h.root i hi)
  wait i hi hnot := by
    have hB : B.ref i ≠ ∅ := fun he => hi (subset_empty.mp (he ▸ h'.ref i))
    have hw := h.wait i hB fun p hp hd => hnot p hp (.inl hd)
    rw [h'.wait i hi fun p hp he => hnot p (hw ▸ hp) (.inr he), hw]
  sub i p hp := h.sub i p (h'.sub i p hp)
  cont i p hp := (h'.cont i p hp).trans (h.cont i p (h'.sub i p hp))
  down p i g hd := h.down p i g (h'.down p i g hd)

/-- A change that leaves the semaphores alone may follow. -/
theorem SemaReap.same (h' : SemaSame B C) : SemaReap D A C where
  gen i := by
    rw [h'.sema]
    exact h.gen i
  sema i hi := by
    rw [h'.ref] at hi
    rw [h'.sema]
    exact h.sema i hi
  ref i := by
    rw [h'.ref]
    exact h.ref i
  root i := by
    rw [h'.ref]
    exact h.root i
  wait i hi hnot := by
    rw [h'.ref] at hi
    rw [h'.wait]
    exact h.wait i hi hnot
  sub i p hp := by
    rw [h'.wait] at hp
    exact h.sub i p hp
  cont i p hp := by
    rw [h'.wait] at hp
    exact (h'.cont i p hp).trans (h.cont i p hp)
  down p i g hd := h.down p i g (h'.down p i g hd)

theorem SemaReap.mono (hDE : ∀ i, ∀ p ∈ A.wait i, D p → E p) : SemaReap E A B :=
  { h with wait := fun i hi hnot => h.wait i hi fun p hp hd => hnot p hp (hDE i p hp hd) }

end

/-- The least value that is not an `int`. -/
def INT_END : ℤ := 2 ^ 31

/-- **A step of the kernel, for the semaphores.** The calls that are made
in it are `called`, and the processes that end in it `ended`. -/
inductive SemaStep (called : Slot → Call → Prop) (ended : Slot → Prop) (A B : SemaView) : Prop
  | same (h : SemaSame A B)
  /-- `do_semaphore_init` of a new one -/
  | init (i : Idx) (r : Finset Slot) (p : Slot) (key init : ℤ)
      (hcall : called p (.semaInit key init)) (hnew : ∀ j, A.ref j ≠ ∅ → (A.sema j).key ≠ key)
      (hfree : A.ref i = ∅) (hnil : A.wait i = []) (hroot : .kernel 0 ∈ r)
      (hsema : B.sema = upd A.sema i
        { key := key, count := wrap init, gen := (A.sema i).gen + 1, init := wrap init })
      (href : B.ref = upd A.ref i r) (hwait : B.wait = A.wait) (hcont : B.cont = A.cont)
  /-- `do_semaphore_init` of one that there is -/
  | join (i : Idx) (r : Finset Slot) (hlive : A.ref i ≠ ∅) (hr : A.ref i ⊆ r)
      (hsema : B.sema = A.sema) (href : B.ref = upd A.ref i r) (hwait : B.wait = A.wait)
      (hcont : B.cont = A.cont)
  /-- `do_semaphore_down` that passes -/
  | pass (i : Idx) (hlive : A.ref i ≠ ∅) (hcount : 0 ≤ wrap ((A.sema i).count - 1))
      (hsema : B.sema = upd A.sema i
        { A.sema i with
          count := wrap ((A.sema i).count - 1)
          downs := (A.sema i).downs + 1
          done := (A.sema i).done + 1 })
      (href : B.ref = A.ref) (hwait : B.wait = A.wait) (hcont : B.cont = A.cont)
  /-- `do_semaphore_down` that waits -/
  | hold (i : Idx) (p : Slot) (hlive : A.ref i ≠ ∅) (hcount : wrap ((A.sema i).count - 1) < 0)
      (hfree : ∀ j, p ∉ A.wait j) (huser : A.cont p = .user)
      (hsema : B.sema = upd A.sema i
        { A.sema i with
          count := wrap ((A.sema i).count - 1)
          downs := (A.sema i).downs + 1 })
      (href : B.ref = A.ref) (hwait : B.wait = upd A.wait i (A.wait i ++ [p]))
      (hcont : B.cont = upd A.cont p (.down i (A.sema i).gen))
  /-- `do_semaphore_up` with nobody to wake -/
  | rise (i : Idx) (j : ℤ) (p : Slot) (hcall : called p (.semaUp j)) (hj : index j = some i)
      (hlive : A.ref i ≠ ∅) (hcount : 0 < wrap ((A.sema i).count + 1))
      (hsema : B.sema = upd A.sema i
        { A.sema i with
          count := wrap ((A.sema i).count + 1)
          ups := (A.sema i).ups + 1 })
      (href : B.ref = A.ref) (hwait : B.wait = A.wait) (hcont : B.cont = A.cont)
  /-- `do_semaphore_up` that wakes the first -/
  | wake (i : Idx) (j : ℤ) (p : Slot) (w : Slot) (l : List Slot) (hcall : called p (.semaUp j))
      (hj : index j = some i) (hlive : A.ref i ≠ ∅) (hcount : wrap ((A.sema i).count + 1) ≤ 0)
      (hw : A.wait i = w :: l)
      (hsema : B.sema = upd A.sema i
        { A.sema i with
          count := wrap ((A.sema i).count + 1)
          ups := (A.sema i).ups + 1 })
      (href : B.ref = A.ref) (hwait : B.wait = upd A.wait i l) (hcont : B.cont = A.cont)
  /-- `do_semaphore_destroy` -/
  | destroy (i : Idx) (hsema : B.sema = upd A.sema i { A.sema i with key := -1, count := 0 })
      (href : B.ref = upd A.ref i ∅) (hwait : B.wait = upd A.wait i []) (hcont : B.cont = A.cont)
  /-- the return from `do_semaphore_down` of a process that waited -/
  | finish (i : Idx) (p : Slot) (g : ℕ) (hp : A.cont p = .down i g) (hfree : ∀ j, p ∉ A.wait j)
      (hsema : B.sema = if (A.sema i).gen = g then
        upd A.sema i { A.sema i with done := (A.sema i).done + 1 } else A.sema)
      (href : B.ref = A.ref) (hwait : B.wait = A.wait) (hcont : B.cont = upd A.cont p .user)
  /-- processes end -/
  | reap (h : SemaReap ended A B)

/-! ## The balance -/

/-- The processes inside `do_semaphore_down`, for one use of the slot. -/
def inside (A : SemaView) (i : Idx) (g : ℕ) : Finset Slot :=
  Finset.univ.filter fun p => A.cont p = .down i g

/-- **Count and wait list of a semaphore agree**, and downs that have
returned leave room for those that have not. -/
structure Balanced (A : SemaView) (i : Idx) : Prop where
  root : .kernel 0 ∈ A.ref i
  nodup : (A.wait i).Nodup
  waits : ∀ p ∈ A.wait i, A.cont p = .down i (A.sema i).gen
  neg : (A.sema i).count < 0 → ((A.wait i).length : ℤ) = -(A.sema i).count
  nonneg : 0 ≤ (A.sema i).count → A.wait i = []
  range : (A.sema i).count < INT_END
  total : (A.sema i).count = (A.sema i).init + (A.sema i).ups - (A.sema i).downs
  done : (A.sema i).done + (inside A i (A.sema i).gen).card ≤ (A.sema i).downs

structure SemaInv (A : SemaView) : Prop where
  gen : ∀ p i g, A.cont p = .down i g → g ≤ (A.sema i).gen
  live : ∀ i, A.ref i ≠ ∅ → Balanced A i

theorem wrap_eq {x : ℤ} (h1 : -2 ^ 31 ≤ x) (h2 : x < 2 ^ 31) : wrap x = x := by
  unfold wrap
  omega

variable {A B : SemaView} {i : Idx} {called : Slot → Call → Prop} {ended : Slot → Prop}

section

variable (h : Balanced A i)
include h

/-- A count is small when it is negative: there are few processes. -/
theorem Balanced.lower : -(FUEL : ℤ) < (A.sema i).count := by
  by_contra hlow
  have hneg : (A.sema i).count < 0 := by
    have : (FUEL : ℤ) = 35 := rfl
    omega
  have hlen := h.neg hneg
  have hcard : Fintype.card Slot = 34 := by decide
  have := h.nodup.length_le_card
  have : (FUEL : ℤ) = 35 := rfl
  omega

theorem Balanced.wrap_pred : wrap ((A.sema i).count - 1) = (A.sema i).count - 1 := by
  have hlow := h.lower
  have hhigh := h.range
  have : (FUEL : ℤ) = 35 := rfl
  unfold INT_END at hhigh
  exact wrap_eq (by omega) (by omega)

theorem Balanced.wrap_succ (hmax : (A.sema i).count ≠ INT_END - 1) :
    wrap ((A.sema i).count + 1) = (A.sema i).count + 1 := by
  have hlow := h.lower
  have hhigh := h.range
  have : (FUEL : ℤ) = 35 := rfl
  unfold INT_END at hhigh hmax
  exact wrap_eq (by omega) (by omega)

/-- Those that wait are inside. -/
theorem Balanced.waiting_le : (A.wait i).length ≤ (inside A i (A.sema i).gen).card := by
  classical
  rw [← List.toFinset_card_of_nodup h.nodup]
  refine card_le_card fun p hp => ?_
  rw [inside, mem_filter]
  exact ⟨mem_univ p, h.waits p (List.mem_toFinset.mp hp)⟩

/-- **No more downs return than there are units.** -/
theorem Balanced.done_le : ((A.sema i).done : ℤ) ≤ (A.sema i).init + (A.sema i).ups := by
  have hdone := h.done
  have hwait := h.waiting_le
  have htotal := h.total
  by_cases hneg : (A.sema i).count < 0
  · have := h.neg hneg
    omega
  · omega

end

/-- What the numbers of a semaphore say, with `n` processes waiting and `m` inside. -/
def Sema.Sums (v : Sema) (n m : ℕ) : Prop :=
  n = (-v.count).toNat ∧ v.count < INT_END ∧ v.count = v.init + v.ups - v.downs ∧ v.done + m ≤ v.downs

variable {v : Sema} {p : Slot} {r : Finset Slot} {w : List Slot} {n m : ℕ}

theorem Balanced.sums (h : Balanced A i) :
    (A.sema i).Sums (A.wait i).length (inside A i (A.sema i).gen).card := by
  refine ⟨?_, h.range, h.total, h.done⟩
  by_cases hneg : (A.sema i).count < 0
  · have := h.neg hneg
    omega
  · rw [h.nonneg (not_lt.mp hneg), List.length_nil]
    omega

/-- **The balance of one semaphore**, from what is stored and who waits. -/
theorem Balanced.of_sums (hv : A.sema i = v) (hw : A.wait i = w) (hm : (inside A i v.gen).card ≤ m)
    (hroot : .kernel 0 ∈ A.ref i) (hnodup : w.Nodup) (hwaits : ∀ p ∈ w, A.cont p = .down i v.gen)
    (hs : v.Sums w.length m) : Balanced A i := by
  subst hv hw
  obtain ⟨hlen, hrange, htotal, hdone⟩ := hs
  exact ⟨hroot, hnodup, hwaits, fun _ => by omega, fun _ => List.eq_nil_of_length_eq_zero (by omega), hrange, htotal,
    by omega⟩

theorem inside_le (hdown : ∀ p, B.cont p = .down i n → A.cont p = .down i n) :
    (inside B i n).card ≤ (inside A i n).card := by
  refine card_le_card fun p hp => ?_
  rw [inside, mem_filter] at hp ⊢
  exact ⟨hp.1, hdown p hp.2⟩

/-- The balance of one semaphore reads that one alone. -/
theorem Balanced.congr (h : Balanced A i) (hsema : B.sema i = A.sema i)
    (hroot : .kernel 0 ∈ A.ref i → .kernel 0 ∈ B.ref i) (hwait : B.wait i = A.wait i)
    (hcont : ∀ p ∈ A.wait i, B.cont p = A.cont p)
    (hdown : ∀ p, B.cont p = .down i (A.sema i).gen → A.cont p = .down i (A.sema i).gen) : Balanced B i :=
  .of_sums hsema hwait (inside_le hdown) (hroot h.root) h.nodup (fun p hp => (hcont p hp).trans (h.waits p hp)) h.sums

theorem SemaInv.same (h : SemaInv A) (hs : SemaSame A B) : SemaInv B where
  gen p i g hp := by
    rw [hs.sema]
    exact h.gen p i g (hs.down p i g hp)
  live i hi := by
    rw [hs.ref] at hi
    refine (h.live i hi).congr (by rw [hs.sema]) (by rw [hs.ref]; exact id) (by rw [hs.wait]) (hs.cont i) ?_
    exact fun p => hs.down p i _

/-- What the kernel has to avoid for the balance. -/
structure SemaGood (called : Slot → Call → Prop) (ended : Slot → Prop) (A B : SemaView) : Prop where
  init : ∀ p key init, called p (.semaInit key init) → (∀ i, A.ref i ≠ ∅ → (A.sema i).key ≠ key) →
    0 ≤ wrap init
  up : ∀ p j i, called p (.semaUp j) → index j = some i → A.ref i ≠ ∅ →
    (A.sema i).count ≠ INT_END - 1
  waiting : ∀ i, B.ref i ≠ ∅ → ∀ p ∈ A.wait i, ¬ ended p

/-! ## One semaphore changes -/

/-- Nobody moves but into or out of the semaphore `i`, and nobody who waits. -/
def MovesAt (i : Idx) (A B : SemaView) : Prop :=
  ∀ p, B.cont p = A.cont p ∨ (∀ j, p ∉ A.wait j) ∧ ∀ j g, B.cont p = .down j g → j = i

theorem MovesAt.none (hcont : B.cont = A.cont) : MovesAt i A B := fun p => .inl (congrFun hcont p)

theorem MovesAt.one {k : Cont} (hcont : B.cont = upd A.cont p k) (hfree : ∀ j, p ∉ A.wait j)
    (hk : ∀ j g, k = .down j g → j = i) : MovesAt i A B := by
  intro p'
  rw [hcont]
  by_cases he : p' = p
  · subst he
    rw [upd_self]
    exact .inr ⟨hfree, hk⟩
  · exact .inl (upd_of_ne he)

/-- **The balance of the others is kept.** -/
theorem SemaInv.change (h : SemaInv A) (hsema : B.sema = upd A.sema i v) (href : B.ref = upd A.ref i r)
    (hwait : B.wait = upd A.wait i w) (hmove : MovesAt i A B) (hgen : ∀ p g, B.cont p = .down i g → g ≤ v.gen)
    (hi : r ≠ ∅ → Balanced B i) : SemaInv B := by
  have hdown : ∀ j ≠ i, ∀ p g, B.cont p = .down j g → A.cont p = .down j g := fun j hj p g hp => by
    rcases hmove p with he | he
    · rwa [he] at hp
    · exact absurd (he.2 j g hp) hj
  refine ⟨fun p j g hp => ?_, fun j hj => ?_⟩
  · rw [hsema]
    by_cases hji : j = i
    · subst hji
      rw [upd_self]
      exact hgen p g hp
    · rw [upd_of_ne hji]
      exact h.gen p j g (hdown j hji p g hp)
  · by_cases hji : j = i
    · subst hji
      rw [href, upd_self] at hj
      exact hi hj
    · rw [href, upd_of_ne hji] at hj
      refine (h.live j hj).congr (by rw [hsema, upd_of_ne hji]) (by rw [href, upd_of_ne hji]; exact id)
        (by rw [hwait, upd_of_ne hji]) (fun p hp => ?_) fun p => hdown j hji p _
      exact (hmove p).resolve_right fun he => he.1 j hp

/-- **A new semaphore is balanced.** -/
theorem SemaInv.init (h : SemaInv A) (hnil : A.wait i = []) (hroot : .kernel 0 ∈ r) (hpos : 0 ≤ v.count)
    (hrange : v.count < INT_END) (hinit : v.count = v.init) (hgen : v.gen = (A.sema i).gen + 1)
    (hzero : v.ups = 0 ∧ v.downs = 0 ∧ v.done = 0) (hsema : B.sema = upd A.sema i v)
    (href : B.ref = upd A.ref i r) (hwait : B.wait = A.wait) (hcont : B.cont = A.cont) : SemaInv B := by
  have hold : ∀ p g, B.cont p = .down i g → g ≤ (A.sema i).gen := fun p g hp => h.gen p i g (hcont ▸ hp)
  refine h.change hsema href (hwait.trans upd_eq_self.symm) (.none hcont)
    (fun p g hp => by have := hold p g hp; omega) fun _ => ?_
  -- nobody is inside yet, since the number of this use is new
  have hnone : inside B i v.gen = ∅ := by
    refine eq_empty_of_forall_notMem fun p hp => ?_
    have := hold p _ (mem_filter.mp hp).2
    omega
  refine .of_sums (m := 0) (by rw [hsema, upd_self]) (hwait ▸ hnil) (by rw [hnone, card_empty])
    (by rw [href, upd_self]; exact hroot) List.nodup_nil nofun ⟨?_, hrange, ?_, ?_⟩
  · rw [List.length_nil]
    omega
  · omega
  · omega

/-- One semaphore changes its numbers and its wait list, and the processes stay where they are. -/
theorem SemaInv.upd_sema (h : SemaInv A) (hlive : A.ref i ≠ ∅) (hsema : B.sema = upd A.sema i v)
    (hgen : v.gen = (A.sema i).gen) (href : B.ref = A.ref) (hwait : B.wait = upd A.wait i w)
    (hcont : B.cont = A.cont) (hsub : w.Sublist (A.wait i))
    (hs : v.Sums w.length (inside A i (A.sema i).gen).card) : SemaInv B := by
  have hb := h.live i hlive
  refine h.change hsema (href.trans upd_eq_self.symm) hwait (.none hcont)
    (fun p g hp => hgen ▸ h.gen p i g (hcont ▸ hp)) fun _ => ?_
  refine .of_sums (by rw [hsema, upd_self]) (by rw [hwait, upd_self]) ?_ (href ▸ hb.root) (hb.nodup.sublist hsub)
    (fun p hp => ?_) hs
  · exact hgen ▸ inside_le fun p => by rw [hcont]; exact id
  · rw [hcont, hgen]
    exact hb.waits p (hsub.subset hp)

/-- **One process more waits.** -/
theorem SemaInv.hold (h : SemaInv A) (hlive : A.ref i ≠ ∅)
    (hcount : (A.sema i).count - 1 < 0) (hfree : ∀ j, p ∉ A.wait j)
    (hsema : B.sema = upd A.sema i { A.sema i with count := (A.sema i).count - 1, downs := (A.sema i).downs + 1 })
    (href : B.ref = A.ref) (hwait : B.wait = upd A.wait i (A.wait i ++ [p]))
    (hcont : B.cont = upd A.cont p (.down i (A.sema i).gen)) : SemaInv B := by
  have hb := h.live i hlive
  have hkept : ∀ p' ≠ p, B.cont p' = A.cont p' := fun p' hp' => by rw [hcont, upd_of_ne hp']
  have hself : B.cont p = .down i (A.sema i).gen := by rw [hcont, upd_self]
  refine h.change hsema (href.trans upd_eq_self.symm) hwait (.one hcont hfree fun j g hk => ?_)
    (fun p' g hp' => ?_) fun _ => ?_
  · injection hk with hij
    exact hij.symm
  · by_cases he : p' = p
    · rw [he, hself] at hp'
      injection hp' with _ hg
      exact hg.ge
    · exact h.gen p' i g (hkept p' he ▸ hp')
  have hin : inside B i (A.sema i).gen ⊆ insert p (inside A i (A.sema i).gen) := fun p' hp' => by
    refine mem_insert.mpr (or_iff_not_imp_left.mpr fun he => ?_)
    rw [inside, mem_filter, hkept p' he] at hp'
    exact mem_filter.mpr hp'
  refine .of_sums ((congrFun hsema i).trans upd_self) ((congrFun hwait i).trans upd_self)
    ((card_le_card hin).trans (card_insert_le _ _)) (href ▸ hb.root) ?_ (fun p' hp' => ?_) ?_
  · exact List.nodup_append.mpr ⟨hb.nodup, List.nodup_singleton p, fun a ha b hb' he => by
      rw [List.mem_singleton.mp hb'] at he
      exact hfree i (he ▸ ha)⟩
  · by_cases he : p' = p
    · rw [he, hself]
    · rw [hkept p' he]
      rw [List.mem_append, List.mem_singleton] at hp'
      exact hb.waits p' (hp'.resolve_right he)
  · obtain ⟨hlen, hrange, htotal, hdone⟩ := hb.sums
    rw [List.length_append, List.length_singleton]
    refine ⟨?_, ?_, ?_, ?_⟩ <;> dsimp only <;> omega

/-- **A process that waited returns.** -/
theorem SemaInv.finish (h : SemaInv A) (hp : A.cont p = .down i (A.sema i).gen) (hfree : ∀ j, p ∉ A.wait j)
    (hsema : B.sema = upd A.sema i { A.sema i with done := (A.sema i).done + 1 })
    (href : B.ref = A.ref) (hwait : B.wait = A.wait) (hcont : B.cont = upd A.cont p .user) : SemaInv B := by
  have hkept : ∀ p' ≠ p, B.cont p' = A.cont p' := fun p' hp' => by rw [hcont, upd_of_ne hp']
  have hself : B.cont p = .user := by rw [hcont, upd_self]
  refine h.change hsema (href.trans upd_eq_self.symm) (hwait.trans upd_eq_self.symm)
    (.one hcont hfree nofun) (fun p' g hp' => ?_) fun hlive => ?_
  · by_cases he : p' = p
    · rw [he, hself] at hp'
      exact nomatch hp'
    · exact h.gen p' i g (hkept p' he ▸ hp')
  have hb := h.live i hlive
  have hin : inside B i (A.sema i).gen ⊆ (inside A i (A.sema i).gen).erase p := fun p' hp' => by
    rw [inside, mem_filter] at hp'
    by_cases he : p' = p
    · rw [he, hself] at hp'
      exact nomatch hp'.2
    · rw [hkept p' he] at hp'
      exact mem_erase.mpr ⟨he, mem_filter.mpr hp'⟩
  have hmem : p ∈ inside A i (A.sema i).gen := mem_filter.mpr ⟨mem_univ p, hp⟩
  have hpos := card_pos.mpr ⟨p, hmem⟩
  refine .of_sums ((congrFun hsema i).trans upd_self) (congrFun hwait i) (card_erase_of_mem hmem ▸ card_le_card hin)
    (href ▸ hb.root) hb.nodup (fun p' hp' => ?_) ?_
  · rw [hkept p' fun he => hfree i (he ▸ hp')]
    exact hb.waits p' hp'
  · obtain ⟨hlen, hrange, htotal, hdone⟩ := hb.sums
    refine ⟨hlen, hrange, htotal, ?_⟩
    dsimp only
    omega

/-- **The balance is kept.** -/
theorem SemaInv.step (h : SemaInv A) (hs : SemaStep called ended A B)
    (hg : SemaGood called ended A B) : SemaInv B := by
  cases hs with
  | same hs => exact h.same hs
  | init i r p key init hcall hnew hfree hnil hroot hsema href hwait hcont =>
    refine h.init hnil hroot (hg.init p key init hcall hnew) ?_ rfl rfl ⟨rfl, rfl, rfl⟩ hsema href hwait hcont
    show wrap init < INT_END
    unfold wrap INT_END
    omega
  | join i r hlive hr hsema href hwait hcont =>
    refine h.change (hsema.trans upd_eq_self.symm) href (hwait.trans upd_eq_self.symm) (.none hcont)
      (fun p g hp => h.gen p i g (hcont ▸ hp)) fun _ => ?_
    refine (h.live i hlive).congr (by rw [hsema]) (fun h0 => ?_) (by rw [hwait]) (fun p _ => by rw [hcont])
      fun p => by rw [hcont]; exact id
    rw [href, upd_self]
    exact hr h0
  | pass i hlive hcount hsema href hwait hcont =>
    have hb := h.live i hlive
    rw [hb.wrap_pred] at hcount hsema
    obtain ⟨hlen, hrange, htotal, hdone⟩ := hb.sums
    refine h.upd_sema hlive hsema rfl href (hwait.trans upd_eq_self.symm) hcont (.refl _) ⟨?_, ?_, ?_, ?_⟩ <;>
      dsimp only <;> omega
  | hold i p hlive hcount hfree huser hsema href hwait hcont =>
    rw [(h.live i hlive).wrap_pred] at hcount hsema
    exact h.hold hlive hcount hfree hsema href hwait hcont
  | rise i j p hcall hj hlive hcount hsema href hwait hcont =>
    have hb := h.live i hlive
    have hmax := hg.up p j i hcall hj hlive
    rw [hb.wrap_succ hmax] at hcount hsema
    obtain ⟨hlen, hrange, htotal, hdone⟩ := hb.sums
    refine h.upd_sema hlive hsema rfl href (hwait.trans upd_eq_self.symm) hcont (.refl _) ⟨?_, ?_, ?_, ?_⟩ <;>
      dsimp only <;> omega
  | wake i j p w l hcall hj hlive hcount hw hsema href hwait hcont =>
    have hb := h.live i hlive
    have hmax := hg.up p j i hcall hj hlive
    rw [hb.wrap_succ hmax] at hcount hsema
    obtain ⟨hlen, hrange, htotal, hdone⟩ := hb.sums
    rw [hw, List.length_cons] at hlen
    refine h.upd_sema hlive hsema rfl href hwait hcont (hw ▸ List.sublist_cons_self w l) ⟨?_, ?_, ?_, ?_⟩ <;>
      dsimp only <;> omega
  | destroy i hsema href hwait hcont =>
    exact h.change hsema href hwait (.none hcont) (fun p g hp => h.gen p i g (hcont ▸ hp)) (absurd rfl)
  | finish i p g hp hfree hsema href hwait hcont =>
    by_cases hg : (A.sema i).gen = g
    · rw [if_pos hg] at hsema
      exact h.finish (hg ▸ hp) hfree hsema href hwait hcont
    · rw [if_neg hg] at hsema
      refine h.same ⟨hsema, href, hwait, fun j p' hp' => ?_, fun p' j g' hp' => ?_⟩
      · have hne : p' ≠ p := fun he => hfree j (he ▸ hp')
        rw [hcont, upd_of_ne hne]
      · by_cases he : p' = p
        · rw [he, hcont, upd_self] at hp'
          exact nomatch hp'
        · rw [hcont, upd_of_ne he] at hp'
          exact hp'
  | reap hr =>
    refine ⟨fun p i g hp => ?_, fun i hi => ?_⟩
    · rw [hr.gen]
      exact h.gen p i g (hr.down p i g hp)
    · have hi' : A.ref i ≠ ∅ := fun he => hi (subset_empty.mp (he ▸ hr.ref i))
      have hw := hr.wait i hi (hg.waiting i hi)
      exact (h.live i hi').congr (hr.sema i hi) (hr.root i) hw (hw ▸ hr.cont i) fun p => hr.down p i _

end OsLab.Sched
