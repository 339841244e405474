import Mathlib.Logic.Function.Iterate
import Mathlib.Order.Nat
/-!
# Page frames

`kernel/mm/pageframe.c`: the frames are handed out in runs of consecutive ones, searched for
from a cursor that goes round. A frame in use has the first frame of its run (`attrs[id].start`).
The cursor and the starts are addresses of frames, which are kept as the frames' indices. The
groups have room, so that `shrink_pagegroup` evicts nothing.

The search makes as many probes as there are frames. A run that ends at the last frame leaves
the cursor behind it, where one probe is lost, so that the last frame is not looked at.
-/

namespace OsLab.Mm

def PAGE_SIZE : ℕ := 4096
def NR_CPUS : ℕ := 2
def INIT_KERNEL_STACK : ℕ := 0xffffffc052000000
def FREEMEM_KERNEL : ℕ := INIT_KERNEL_STACK + PAGE_SIZE * NR_CPUS
def ALLMEM_KERNEL : ℕ := 0xffffffc060000000
@[irreducible] def MAX_PAGE_NUM : ℕ := (ALLMEM_KERNEL - FREEMEM_KERNEL) / PAGE_SIZE

def pageframeId2addr (id : ℕ) : ℕ := FREEMEM_KERNEL + id * PAGE_SIZE

structure Frames where
  cur_kernel_mem : ℕ
  start : ℕ → Option ℕ

/-- The frames from `a` to `b` get a start. -/
def Frames.mark (f : Frames) (a b : ℕ) (start : Option ℕ) : Frames :=
  { f with start := fun j => if a ≤ j ∧ j < b then start else f.start j }

/-- The inner loop of `alloc_pageframe`. -/
def available (f : Frames) (id num_page : ℕ) : Bool :=
  (List.range num_page).all fun i => decide (id + i < MAX_PAGE_NUM) && f.start (id + i) == none

/-- The loop of `alloc_pageframe`; `none` is `err_halt`. -/
def allocLoop (num_page : ℕ) : (fuel : ℕ) → Frames → Option (ℕ × Frames)
  | 0, _ => none
  | fuel + 1, f =>
    let id := f.cur_kernel_mem
    if available f id num_page then
      some (id, { f with cur_kernel_mem := id + num_page }.mark id (id + num_page) (some id))
    else
      allocLoop num_page fuel { f with cur_kernel_mem := if MAX_PAGE_NUM ≤ id + 1 then 0 else id + 1 }

def allocPageframe (num_page : ℕ) (f : Frames) : Option (ℕ × Frames) :=
  allocLoop num_page MAX_PAGE_NUM f

/-- The loop of `free_pageframe`. Each round frees a frame, so it ends. -/
def freeLoop (entry : ℕ) : (fuel i : ℕ) → Frames → Frames
  | 0, _, f => f
  | fuel + 1, i, f =>
    if f.start i = some entry then
      freeLoop entry fuel ((i + 1) % MAX_PAGE_NUM) (f.mark i (i + 1) none)
    else f

/-- `free_pageframe` of an address in frame `id`; `none` is a failed assertion. -/
def freePageframe (id : ℕ) (f : Frames) : Option Frames :=
  match f.start id with
  | none => none
  | some entry =>
    if id < MAX_PAGE_NUM ∧ entry ≤ id then some (freeLoop entry (MAX_PAGE_NUM + 1) entry f) else none

theorem max_eq : MAX_PAGE_NUM = 57342 := by
  unfold MAX_PAGE_NUM
  decide +kernel

/-! ## The search -/

/-- The `n` frames from `id` on are free. -/
def Fits (f : Frames) (id n : ℕ) : Prop := ∀ i < n, id + i < MAX_PAGE_NUM ∧ f.start (id + i) = none

variable {f : Frames}

theorem available_iff {id n : ℕ} : available f id n = true ↔ Fits f id n := by
  simp [available, Fits]

theorem fits_iff {id n : ℕ} (hn : 1 ≤ n) :
    Fits f id n ↔ id + n ≤ MAX_PAGE_NUM ∧ ∀ j, id ≤ j → j < id + n → f.start j = none := by
  constructor
  · intro h
    have hlast := (h (n - 1) (by omega)).1
    refine ⟨by omega, fun j h1 h2 => ?_⟩
    obtain ⟨i, rfl⟩ := Nat.exists_eq_add_of_le h1
    exact (h i (by omega)).2
  · intro ⟨hin, hfree⟩ i hi
    exact ⟨by omega, hfree _ (by omega) (by omega)⟩

/-- Where the cursor goes. -/
def next (c : ℕ) : ℕ := if MAX_PAGE_NUM ≤ c + 1 then 0 else c + 1

/-- What a search that finds a run leaves. -/
def Frames.take (f : Frames) (id n : ℕ) : Frames :=
  { f with cur_kernel_mem := id + n }.mark id (id + n) (some id)

theorem allocLoop_of_fits {n fuel : ℕ} (h : Fits f f.cur_kernel_mem n) :
    allocLoop n (fuel + 1) f = some (f.cur_kernel_mem, f.take f.cur_kernel_mem n) :=
  if_pos (available_iff.mpr h)

/-- **The search takes the first run that fits**, of as many as it has probes for. -/
theorem allocLoop_spec (n fuel : ℕ) (f : Frames) :
    (allocLoop n fuel f = none ∧ ∀ k < fuel, ¬ Fits f (next^[k] f.cur_kernel_mem) n) ∨
    ∃ k < fuel, ∃ id, next^[k] f.cur_kernel_mem = id ∧ Fits f id n ∧
      allocLoop n fuel f = some (id, f.take id n) := by
  induction fuel generalizing f with
  | zero => exact .inl ⟨rfl, nofun⟩
  | succ fuel ih =>
    by_cases hfit : Fits f f.cur_kernel_mem n
    · exact .inr ⟨0, Nat.succ_pos _, _, rfl, hfit, allocLoop_of_fits hfit⟩
    have hstep : allocLoop n (fuel + 1) f =
        allocLoop n fuel { f with cur_kernel_mem := next f.cur_kernel_mem } :=
      if_neg fun ha => hfit (available_iff.mp ha)
    rw [hstep]
    rcases ih { f with cur_kernel_mem := next f.cur_kernel_mem } with ⟨hnone, hall⟩ | ⟨k, hk, hsome⟩
    · refine .inl ⟨hnone, fun k hk => ?_⟩
      cases k with
      | zero => exact hfit
      | succ k => exact hall k (by omega)
    · exact .inr ⟨k + 1, Nat.succ_lt_succ hk, hsome⟩

theorem iterate_next {c k : ℕ} (h : c + k < MAX_PAGE_NUM) : next^[k] c = c + k := by
  induction k with
  | zero => rfl
  | succ k ih =>
    rw [Function.iterate_succ_apply', ih (by omega), next, if_neg (by omega)]
    rfl

/-- **Every frame but one is looked at**: the last one, when the cursor is behind it. -/
theorem probed {c id : ℕ} (hc : c ≤ MAX_PAGE_NUM) (hid : id < MAX_PAGE_NUM) :
    (∃ k < MAX_PAGE_NUM, next^[k] c = id) ∨ c = MAX_PAGE_NUM ∧ id = MAX_PAGE_NUM - 1 := by
  by_cases hle : c ≤ id
  · refine .inl ⟨id - c, by omega, ?_⟩
    rw [iterate_next (by omega)]
    omega
  by_cases hlast : c = MAX_PAGE_NUM ∧ id = MAX_PAGE_NUM - 1
  · exact .inr hlast
  -- to the end, round to the first frame, and on to this one
  have hround : next^[MAX_PAGE_NUM - 1 - c + 1] c = 0 := by
    by_cases hend : c = MAX_PAGE_NUM
    · rw [show MAX_PAGE_NUM - 1 - c = 0 by omega]
      exact if_pos (by omega)
    · rw [Function.iterate_succ_apply', iterate_next (by omega), next, if_pos (by omega)]
  refine .inl ⟨id + (MAX_PAGE_NUM - 1 - c + 1), by omega, ?_⟩
  rw [Function.iterate_add_apply, hround, iterate_next (by omega), Nat.zero_add]

/-! ## Runs of frames -/

inductive Step : Frames → Frames → Prop
  | alloc (f f' : Frames) (n id : ℕ) (hn : 1 ≤ n) (h : allocPageframe n f = some (id, f')) : Step f f'
  | free (f f' : Frames) (id : ℕ) (h : freePageframe id f = some f') : Step f f'

/-- At boot every frame is free. -/
def boot : Frames := ⟨0, fun _ => none⟩

/-- The frames of each live run are consecutive, and the cursor is at most behind the last frame. -/
structure Table (f : Frames) : Prop where
  cursor : f.cur_kernel_mem ≤ MAX_PAGE_NUM
  runs : ∀ a, ∃ b ≤ MAX_PAGE_NUM, ∀ j, f.start j = some a ↔ a ≤ j ∧ j < b

/-- The run that begins at `a` is free. -/
def Frames.drop (f : Frames) (a : ℕ) : Frames :=
  { f with start := fun j => if f.start j = some a then none else f.start j }

/-- **The loop of `free_pageframe`** goes to the end of the run. -/
theorem freeLoop_eq {a b i x fuel : ℕ} (hb : b ≤ MAX_PAGE_NUM)
    (hrun : ∀ j, f.start j = some a ↔ i ≤ j ∧ j < b) (hx : i < b → x = i) (hfuel : b < fuel + i) :
    freeLoop a fuel x f = f.drop a := by
  induction fuel generalizing i x f with
  | zero =>
    have hnone : ∀ j, f.start j ≠ some a := fun j hj => by
      have := (hrun j).mp hj
      omega
    simp only [freeLoop, Frames.drop, if_neg (hnone _)]
  | succ fuel ih =>
    unfold freeLoop
    by_cases hi : i < b
    · obtain rfl := hx hi
      rw [if_pos ((hrun x).mpr ⟨le_rfl, hi⟩)]
      have hmark : ∀ j, (f.mark x (x + 1) none).start j = if j = x then none else f.start j := by
        intro j
        exact if_congr (by omega) rfl rfl
      rw [ih (i := x + 1) (fun j => ?_) (fun h => Nat.mod_eq_of_lt (by omega)) (by omega)]
      · refine congrArg (Frames.mk f.cur_kernel_mem) (funext fun j => ?_)
        rw [hmark]
        by_cases hj : j = x
        · rw [if_pos hj, if_neg nofun, hj, if_pos ((hrun x).mpr ⟨le_rfl, hi⟩)]
        · rw [if_neg hj]
      · rw [hmark]
        by_cases hj : j = x
        · rw [if_pos hj]
          exact ⟨nofun, fun h => by omega⟩
        · rw [if_neg hj, hrun]
          omega
    · have hnone : ∀ j, f.start j ≠ some a := fun j hj => by
        have := (hrun j).mp hj
        omega
      simp only [Frames.drop, if_neg (hnone _)]

namespace Table

variable {f f' : Frames} {id n a : ℕ}

/-- **`free_pageframe` of any frame of a run frees the run.** -/
theorem free (h : Table f) (ha : f.start id = some a) : freePageframe id f = some (f.drop a) := by
  obtain ⟨b, hb, hrun⟩ := h.runs a
  have hid := (hrun id).mp ha
  rw [freePageframe, ha]
  exact (if_pos ⟨by omega, hid.1⟩).trans
    (congrArg some (freeLoop_eq hb hrun (fun _ => rfl) (by omega)))

theorem take (h : Table f) (hn : 1 ≤ n) (hfit : Fits f id n) : Table (f.take id n) := by
  obtain ⟨hin, hfree⟩ := (fits_iff hn).mp hfit
  refine ⟨hin, fun a => ?_⟩
  by_cases ha : a = id
  · refine ⟨id + n, hin, fun j => ?_⟩
    show (if id ≤ j ∧ j < id + n then some id else f.start j) = some a ↔ _
    subst ha
    by_cases hj : a ≤ j ∧ j < a + n
    · simp [hj]
    · rw [if_neg hj]
      refine ⟨fun hs => ?_, fun hs => absurd hs hj⟩
      obtain ⟨b, -, hrun⟩ := h.runs a
      have := (hrun j).mp hs
      exact absurd ((hrun a).mpr (by omega)) (by rw [hfree a le_rfl (by omega)]; nofun)
  · obtain ⟨b, hb, hrun⟩ := h.runs a
    refine ⟨b, hb, fun j => ?_⟩
    rw [← hrun]
    show (if id ≤ j ∧ j < id + n then some id else f.start j) = some a ↔ _
    by_cases hj : id ≤ j ∧ j < id + n
    · simp [hj, hfree j hj.1 hj.2, Ne.symm ha]
    · rw [if_neg hj]

theorem step (h : Table f) (hstep : Step f f') : Table f' := by
  cases hstep with
  | alloc n id hn ha =>
    rcases allocLoop_spec n MAX_PAGE_NUM f with ⟨hnone, -⟩ | ⟨k, -, x, -, hfit, hsome⟩
    · exact absurd (hnone.symm.trans ha) nofun
    · obtain ⟨-, rfl⟩ := Prod.mk.inj (Option.some.inj (hsome.symm.trans ha))
      exact h.take hn hfit
  | free id hf =>
    cases ha : f.start id with
    | none =>
      rw [freePageframe, ha] at hf
      cases hf
    | some a =>
      obtain rfl := Option.some.inj ((h.free ha).symm.trans hf)
      refine ⟨h.cursor, fun x => ?_⟩
      by_cases hx : x = a
      · refine ⟨0, Nat.zero_le _, fun j => ⟨fun hj => ?_, by omega⟩⟩
        by_cases he : f.start j = some a <;> simp [Frames.drop, he, hx] at hj
      · obtain ⟨b, hb, hrun⟩ := h.runs x
        refine ⟨b, hb, fun j => ?_⟩
        rw [← hrun]
        by_cases he : f.start j = some a <;> simp [Frames.drop, he, Ne.symm hx]

theorem run (hrun : Relation.ReflTransGen Step boot f) : Table f := by
  induction hrun with
  | refl => exact ⟨Nat.zero_le _, fun a => ⟨0, Nat.zero_le _, fun j => ⟨nofun, by omega⟩⟩⟩
  | tail _ hstep ih => exact ih.step hstep

end Table

/-! ## The allocator is exact, but for the last frame -/

/-- What allocating and freeing promise in a state: a request gets frames that were free, at an
address in the managed range; freeing a frame frees its run and no other frame; and a request
fails only if no run of frames is large enough. -/
structure Exact (f : Frames) : Prop where
  alloc : ∀ {n id f'}, 1 ≤ n → allocPageframe n f = some (id, f') →
    PAGE_SIZE ∣ pageframeId2addr id ∧ id + n ≤ MAX_PAGE_NUM ∧
    (∀ j, id ≤ j → j < id + n → f.start j = none) ∧
    ∀ j, f'.start j = if id ≤ j ∧ j < id + n then some id else f.start j
  free : ∀ {id a}, f.start id = some a → ∃ f', freePageframe id f = some f' ∧
    ∀ j, f'.start j = if f.start j = some a then none else f.start j
  complete : ∀ {n}, 1 ≤ n → allocPageframe n f = none →
    ¬ ∃ id, id + n ≤ MAX_PAGE_NUM ∧ ∀ j, id ≤ j → j < id + n → f.start j = none

/-- The cursor is behind the last frame, and only that frame is free. -/
def Stranded (f : Frames) : Prop :=
  f.cur_kernel_mem = MAX_PAGE_NUM ∧ ∀ j < MAX_PAGE_NUM, f.start j = none ↔ j = MAX_PAGE_NUM - 1

/-- No probe is at the last frame. -/
theorem Stranded.alloc (h : Stranded f) : allocPageframe 1 f = none := by
  have hmax := max_eq
  rcases allocLoop_spec 1 MAX_PAGE_NUM f with ⟨hnone, -⟩ | ⟨k, hk, id, he, hfit, -⟩
  · exact hnone
  · have hfree := hfit 0 Nat.one_pos
    have hlast : id = MAX_PAGE_NUM - 1 := (h.2 id hfree.1).mp hfree.2
    rw [h.1] at he
    cases k with
    | zero =>
      rw [Function.iterate_zero_apply] at he
      omega
    | succ k =>
      rw [Function.iterate_succ_apply, next, if_pos (by omega), iterate_next (by omega)] at he
      omega

/-- **Frame allocation is exact** in every state of every run in which the last frame is not
stranded. -/
theorem exact_iff {f : Frames} (hrun : Relation.ReflTransGen Step boot f) :
    Exact f ↔ ¬ Stranded f := by
  have h := Table.run hrun
  have hmax := max_eq
  constructor
  · intro hexact hs
    refine hexact.complete le_rfl hs.alloc ⟨MAX_PAGE_NUM - 1, by omega, fun j h1 h2 => ?_⟩
    exact (hs.2 j (by omega)).mpr (by omega)
  intro hno
  refine ⟨fun {n id f'} hn ha => ?_, fun {id a} ha => ⟨_, h.free ha, fun j => rfl⟩,
    fun {n} hn ha => ?_⟩
  · rcases allocLoop_spec n MAX_PAGE_NUM f with ⟨hnone, -⟩ | ⟨k, -, x, -, hfit, hsome⟩
    · exact absurd (hnone.symm.trans ha) nofun
    · obtain ⟨rfl, rfl⟩ := Prod.mk.inj (Option.some.inj (hsome.symm.trans ha))
      obtain ⟨hin, hfree⟩ := (fits_iff hn).mp hfit
      exact ⟨Nat.dvd_add (by decide) (Nat.dvd_mul_left ..), hin, hfree, fun j => rfl⟩
  · rintro ⟨id, hid⟩
    have hmiss : ∀ k < MAX_PAGE_NUM, ¬ Fits f (next^[k] f.cur_kernel_mem) n := by
      rcases allocLoop_spec n MAX_PAGE_NUM f with ⟨-, hmiss⟩ | ⟨_, _, _, _, _, hsome⟩
      · exact hmiss
      · exact absurd (hsome.symm.trans ha) nofun
    have hlast : ∀ x, Fits f x n → f.cur_kernel_mem = MAX_PAGE_NUM ∧ x = MAX_PAGE_NUM - 1 := by
      intro x hx
      have hlt := (hx 0 (by omega)).1
      refine (probed h.cursor hlt).resolve_left ?_
      rintro ⟨k, hk, rfl⟩
      exact hmiss k hk hx
    obtain ⟨hcur, rfl⟩ := hlast id ((fits_iff hn).mpr hid)
    obtain rfl : n = 1 := by omega
    refine hno ⟨hcur, fun j hj => ⟨fun hz => ?_, fun he => hid.2 j (by omega) (by omega)⟩⟩
    refine (hlast j fun i hi => ?_).2
    obtain rfl : i = 0 := by omega
    exact ⟨hj, hz⟩

/-- Frames that fit at the cursor are those given. -/
theorem allocPageframe_of_fits {n : ℕ} (hfit : Fits f f.cur_kernel_mem n) :
    allocPageframe n f = some (f.cur_kernel_mem, f.take f.cur_kernel_mem n) := by
  rw [allocPageframe, max_eq]
  exact allocLoop_of_fits hfit

/-- Three frames and two more are taken, and the first run is freed by the address of its second
frame. -/
theorem exact_freed : ∃ f, Relation.ReflTransGen Step boot f ∧ (∀ j < 3, f.start j = none) ∧
    f.start 3 = some 3 ∧
    f.start 4 = some 3 ∧ Exact f := by
  have hmax := max_eq
  have h₁ := allocPageframe_of_fits (f := boot) (n := 3) fun i hi => ⟨show 0 + i < _ by omega, rfl⟩
  have h₂ := allocPageframe_of_fits (f := boot.take 0 3) (n := 2) fun i hi =>
    ⟨show 3 + i < _ by omega, if_neg (show ¬ (0 ≤ 3 + i ∧ 3 + i < 3) by omega)⟩
  have hrun := (Relation.ReflTransGen.single (Step.alloc _ _ 3 _ (by decide) h₁)).tail
    (.alloc _ _ 2 _ (by decide) h₂)
  have hrun' := hrun.tail (.free _ _ 1 ((Table.run hrun).free (by decide : _ = some 0)))
  refine ⟨_, hrun', by decide, by decide, by decide, (exact_iff hrun').mpr fun hs => ?_⟩
  have hcur : 5 = MAX_PAGE_NUM := hs.1
  omega

/-- **The last frame is stranded.** All frames but the last are taken, then the last one, and the
last is freed: the next request for a frame halts the kernel. -/
theorem exact_fails : ∃ f, Relation.ReflTransGen Step boot f ∧ allocPageframe 1 f = none ∧
    f.start (MAX_PAGE_NUM - 1) = none := by
  have hmax := max_eq
  obtain ⟨m, hm⟩ : ∃ m, MAX_PAGE_NUM = m + 1 := ⟨57341, hmax⟩
  have h₁ := allocPageframe_of_fits (f := boot) (n := m) fun i hi => ⟨show 0 + i < _ by omega, rfl⟩
  have h₂ := allocPageframe_of_fits (f := boot.take 0 m) (n := 1) fun i hi =>
    ⟨show 0 + m + i < _ by omega, if_neg (show ¬ (0 ≤ 0 + m + i ∧ 0 + m + i < 0 + m) by omega)⟩
  have hrun := (Relation.ReflTransGen.single (Step.alloc _ _ m _ (by omega) h₁)).tail
    (.alloc _ _ 1 _ le_rfl h₂)
  have hlast : ((boot.take 0 m).take (0 + m) 1).start m = some (0 + m) := if_pos (by omega)
  have hfree := (Table.run hrun).free hlast
  have hs : ∀ j < m + 1, (((boot.take 0 m).take (0 + m) 1).drop (0 + m)).start j = none ↔ j = m := by
    intro j hj
    simp only [Frames.take, Frames.mark, Frames.drop]
    grind
  refine ⟨_, hrun.tail (.free _ _ m hfree),
    Stranded.alloc ⟨?_, fun j hj => (hs j (by omega)).trans (by omega)⟩,
    (hs _ (by omega)).mpr (by omega)⟩
  rw [hm]
  show 0 + m + 1 = _
  omega

end OsLab.Mm
