import OsLab.Sched.Careful
/-!
# Queues and status

Whether each process is where its status says (`Agree`). It is not after
`check_sleeping` has woken a process that the scheduler does not pick at
once: it is `BLOCKED` in the ready queue. It is in all states of runs in
which whoever is woken is picked, and whose steps are careful.
-/

namespace OsLab.Sched

open DList (Rep)
open Kernel

/-- The process is where its status says: run by one processor and on no
list, once in the ready queue, or once on one other list. -/
def Placed (s : Kernel) (L : Lists) (p : Slot) : Prop :=
  match s.status p with
  | .running | .killed => (∃! c, s.current c = p) ∧ ∀ q, p ∉ L q
  | .ready => (L .ready).count p = 1 ∧ ∀ q ≠ .ready, p ∉ L q
  | .blocked => ∃ q, q ≠ .ready ∧ (L q).count p = 1 ∧ ∀ q' ≠ q, p ∉ L q'
  | .exited => ∀ q, p ∉ L q

/-- **The memory holds lists, and every process is in its place.** -/
def Agree (s : Kernel) : Prop := ∃ L, Rep s.links L ∧ ∀ p, Placed s L p

/-- **The steps that keep queues and status.** -/
structure Timely (s : Kernel) (e : Event) : Prop extends Careful s e where
  /-- whoever is woken is picked -/
  picked : Timed s e

variable {s s' : Kernel} {L L' : Lists} {p : Slot}

theorem Kernel.Core.placed (h : Core s L) (hq : Queued s L) (p : Slot) : Placed s L p := by
  unfold Placed
  by_cases hc : ∃ c, s.current c = p
  · obtain ⟨c, rfl⟩ := hc
    have hone : ∃! c', s.current c' = s.current c := ⟨c, rfl, fun c' he => h.inj he⟩
    obtain ⟨hst | hst, hfree⟩ := h.active c
    · rw [hst]
      exact ⟨hone, hfree⟩
    · rw [hst]
      exact ⟨hone, hfree⟩
  · rcases h.idle p fun c he => hc ⟨c, he⟩ with ⟨q, hp, ⟨hst, rfl⟩ | hst⟩ | ⟨hst, hfree⟩
    · rw [hst]
      exact h.rep.count_of_mem hp
    · rw [hst]
      refine ⟨q, fun he => ?_, h.rep.count_of_mem hp⟩
      rw [he] at hp
      exact nomatch hst.symm.trans (hq p hp)
    · rw [hst]
      exact hfree

variable {e : Event}

/-- Enough of `Timely`. -/
def timelyIf (s : Kernel) (e : Event) : Bool :=
  carefulIf s e &&
  match s.pick e with
  | none => true
  | some next =>
    decide (∀ p, (s.links (.node p)).container = some .sleep ∧ s.due p = true → p = next) &&
    match e with
    | .enter c (.sleep 0) _ _ => decide (s.current c = next)
    | _ => true

theorem timely_of_timelyIf (hok : timelyIf s e) : Timely s e := by
  unfold timelyIf at hok
  rw [Bool.and_eq_true] at hok
  refine ⟨careful_of_carefulIf hok.1, fun next hn p hp => ?_⟩
  have hpick := hok.2
  rw [hn, Bool.and_eq_true, decide_eq_true_eq] at hpick
  rcases hp with hp | ⟨c, n, drops, rfl, rfl, -⟩
  · exact hpick.1 p hp
  · exact of_decide_eq_true hpick.2

/-- A process is started, sleeps, and is picked when its time has come, while other processors
go on. -/
def nap : List Event :=
  [.call 0 .exec (.user 0), .call 0 .yield (.user 0), .call 0 (.sleep 3) (.kernel 0),
    .call 1 .yield (.kernel 1), .tick 5, .back 0, .back 1, .call 0 .yield (.user 0)]

/-- What is `BLOCKED` is not in the ready queue. -/
theorem Agree.not_ready (h : Agree s) (hp : s.status p = .blocked) : (s.links (.node p)).container ≠ some .ready := by
  obtain ⟨L, hr, hpl⟩ := h
  have hplace := hpl p
  unfold Placed at hplace
  rw [hp] at hplace
  obtain ⟨q, hq, hone, -⟩ := hplace
  have hin : p ∈ L q := List.count_pos_iff.mp (by omega)
  rw [hr.container q p hin]
  exact fun he => hq (Option.some.inj he)

/-- What waits on a list is reached from its head. -/
theorem Agree.head_next (h : Agree s) (hp : s.status p = .blocked) {q : Queue}
    (hq : (s.links (.node p)).container = some q) : (s.links (.head q)).next ≠ some (.head q) := by
  obtain ⟨L, hr, hpl⟩ := h
  have hplace := hpl p
  unfold Placed at hplace
  rw [hp] at hplace
  obtain ⟨q', -, hone, -⟩ := hplace
  have hin : p ∈ L q' := List.count_pos_iff.mp (by omega)
  obtain rfl : q' = q := Option.some.inj ((hr.container q' p hin).symm.trans hq)
  intro hnext
  have hfirst := hr.head_next (by rw [hnext]; nofun)
  rw [hnext] at hfirst
  cases hL : L q' with
  | nil => simp [hL] at hin
  | cons a l =>
    rw [hL] at hfirst
    exact nomatch hfirst

/-- What runs is run by one processor. -/
theorem Agree.one_cpu (h : Agree s) (hp : s.status p = .running) {c c' : Cpu} (hc : s.current c = p)
    (hc' : s.current c' = p) : c = c' := by
  obtain ⟨L, -, hpl⟩ := h
  have hplace := hpl p
  unfold Placed at hplace
  rw [hp] at hplace
  exact hplace.1.unique hc hc'

/-- A process wakes up while the processors are busy with others. -/
def oversleep : List Event :=
  [.call 0 .exec (.user 0), .call 0 .yield (.user 0), .call 0 (.sleep 3) (.kernel 0), .tick 5,
    .call 1 .yield (.kernel 1)]

/-- A process that runs is killed twice, and its control block is used
again. -/
def killTwice : List Event :=
  pair ++ [.call 0 (.kill 3) (.user 0), .call 0 (.kill 3) (.user 0), .call 0 .exec (.user 0),
    .call 0 .yield (.user 1)]

/-- The only process that refers to a mutex exits. Others go on with its
index, and one of them waits when the index is given out again. -/
def staleMutex : List Event :=
  pair ++ [.call 1 (.mutexInit 7) (.user 1), .call 1 .exit (.kernel 1),
    .call 0 (.mutexAcquire 0) (.user 0), .call 0 .exec (.user 0), .back 1,
    .call 1 .yield (.user 1), .call 1 (.mutexAcquire 0) (.kernel 1), .call 0 (.mutexInit 9) (.user 0)]

end OsLab.Sched
