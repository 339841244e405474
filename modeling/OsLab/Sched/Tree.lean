import OsLab.Sched.Frame
import OsLab.Sched.Runs
/-!
# The tree of processes

A live process knows its parent, and its parent has it on the list of its
children (`Tree`). A parent is older than its children, so there are no
cycles. Three calls change the tree: `do_exec` adds a leaf, and `do_exit`
and `do_kill` take away a subtree; the others leave it alone (`Kin`).

A control block is used again for another process. If the last owner has
left children behind, they become children of a stranger; `do_exec` keeps
the tree if it does not pick such a control block.
-/

namespace OsLab.Sched

open DList (Rep IsSet Avoids KeepsHeads)
open Relation (ReflTransGen)

namespace Kernel

variable {N : Slot → Prop} {s s' : Kernel} {L : Lists} {R : Slot → List Slot} {c : Cpu}
  {p x t : Slot}

/-- `x` is alive, and `p` is its parent. -/
def Child (s : Kernel) (p x : Slot) : Prop := s.status x ≠ .exited ∧ (s.pcb x).parent = some p

/-- `x` is `t` or a descendant of it. -/
abbrev Below (s : Kernel) (t x : Slot) : Prop := ReflTransGen (Child s) t x

/-- **The tree of processes**, with the children of each. -/
structure Tree (s : Kernel) (R : Slot → List Slot) : Prop where
  rep : Rep s.relation R
  mem : ∀ p x, x ∈ R p ↔ Child s p x
  kernel : ∀ c, (s.pcb (.kernel c)).parent = none
  user : ∀ i, s.status (.user i) ≠ .exited → ∃ p, (s.pcb (.user i)).parent = some p
  older : ∀ p x, Child s p x → (s.pcb p).pid < (s.pcb x).pid
  inj : ∀ x y, s.status x ≠ .exited → s.status y ≠ .exited → (s.pcb x).pid = (s.pcb y).pid → x = y
  fresh : ∀ x, (s.pcb x).pid < s.process_id

/-- **Every list that may be used has been set up.** -/
structure Stocked (s : Kernel) : Prop where
  ready : IsSet s.links .ready
  other : ∀ k, IsSet s.links (.other k)
  wait : ∀ p, s.status p ≠ .exited → IsSet s.links (.wait p)
  uses : ∀ q, Uses s.toObjects q → IsSet s.links q
  children : ∀ p, s.status p ≠ .exited → IsSet s.relation p

/-! ## What leaves the tree alone -/

/-- The tree stays, and so does the status of the processes of `N`. -/
structure Kin (N : Slot → Prop) (s s' : Kernel) : Prop where
  relation : s'.relation = s.relation
  parent : ∀ p, (s'.pcb p).parent = (s.pcb p).parent
  pid : ∀ p, (s'.pcb p).pid = (s.pcb p).pid
  process_id : s'.process_id = s.process_id
  still : ∀ p, N p → s'.status p = s.status p
  alive : ∀ p, s.status p ≠ .exited → s'.status p ≠ .exited
  heads : KeepsHeads s.links s'.links
  uses : ∀ q, Uses s'.toObjects q → Uses s.toObjects q ∨ IsSet s'.links q

theorem Kin.trans {s'' : Kernel} (h : Kin N s s') (h' : Kin N s' s'') : Kin N s s'' where
  relation := h'.relation.trans h.relation
  parent p := (h'.parent p).trans (h.parent p)
  pid p := (h'.pid p).trans (h.pid p)
  process_id := h'.process_id.trans h.process_id
  still p hp := (h'.still p hp).trans (h.still p hp)
  alive p hp := h'.alive p (h.alive p hp)
  heads := h.heads.trans h'.heads
  uses q hq := (h'.uses q hq).elim (fun hu => (h.uses q hu).imp_right (h'.heads q)) .inr

/-- Only objects, links and processors change. -/
theorem Kin.of_pcb (hpcb : s'.pcb = s.pcb) (hrel : s'.relation = s.relation)
    (hid : s'.process_id = s.process_id) (hheads : KeepsHeads s.links s'.links)
    (huses : ∀ q, Uses s'.toObjects q → Uses s.toObjects q ∨ IsSet s'.links q) : Kin N s s' := by
  have hst : s'.status = s.status := by
    unfold status
    rw [hpcb]
  exact ⟨hrel, fun p => by rw [hpcb], fun p => by rw [hpcb], hid, fun p _ => by rw [hst],
    fun p => by rw [hst]; exact id, hheads, huses⟩

/-- A control block outside `N` changes, and its process is still alive if it
was. -/
theorem Kin.setPcb {pcb : Pcb} (hN : ¬ N p) (hparent : pcb.parent = (s.pcb p).parent)
    (hpid : pcb.pid = (s.pcb p).pid) (halive : s.status p ≠ .exited → pcb.status ≠ .exited) :
    Kin N s (s.setPcb p pcb) := by
  have hfield : ∀ {α : Type} (f : Pcb → α), f pcb = f (s.pcb p) →
      ∀ p', f ((s.setPcb p pcb).pcb p') = f (s.pcb p') := by
    intro α f hf p'
    by_cases hp : p' = p
    · rw [hp]
      exact (congrArg f upd_self).trans hf
    · exact congrArg f (upd_of_ne hp)
  refine ⟨rfl, hfield Pcb.parent hparent, hfield Pcb.pid hpid, rfl, fun p' hp' => ?_, fun p' hp' => ?_,
    .refl _, fun _ => .inl⟩
  · exact status_setPcb_ne fun he => hN (he ▸ hp')
  · by_cases hp : p' = p
    · rw [hp] at hp' ⊢
      rw [status_setPcb_self]
      exact halive hp'
    · rw [status_setPcb_ne hp]
      exact hp'

theorem kin_frame : FullFrame N (Kin N) where
  refl _ := .of_pcb rfl rfl rfl (.refl _) fun _ => .inl
  trans := .trans
  status hN hst := .setPcb hN rfl rfl fun _ => hst
  stamp hN := .setPcb hN rfl rfl id
  links _ hk := .of_pcb rfl rfl rfl hk fun _ => .inl
  current _ := .of_pcb rfl rfl rfl (.refl _) fun _ => .inl
  objects _ _ _ hu := .of_pcb rfl rfl rfl (.refl _) hu
  mutexes hu := .of_pcb rfl rfl rfl (.refl _) hu

theorem Kin.exited (h : Kin N s s') (hN : ∀ p, s.status p = .exited → N p) (p : Slot) :
    s'.status p = .exited ↔ s.status p = .exited := by
  refine ⟨fun hp => ?_, fun hp => (h.still p (hN p hp)).trans hp⟩
  by_contra hne
  exact h.alive p hne hp

/-- The tree is a matter of parents, pids and who is alive. -/
theorem Tree.congr (h : Tree s R) (hrel : s'.relation = s.relation)
    (hparent : ∀ p, (s'.pcb p).parent = (s.pcb p).parent) (hpid : ∀ p, (s'.pcb p).pid = (s.pcb p).pid)
    (hid : s'.process_id = s.process_id)
    (hexit : ∀ p, s'.status p = .exited ↔ s.status p = .exited) : Tree s' R where
  rep := hrel ▸ h.rep
  mem p x := by
    unfold Child
    rw [Ne, hexit, hparent]
    exact h.mem p x
  kernel c := by
    rw [hparent]
    exact h.kernel c
  user i hi := by
    rw [hparent]
    exact h.user i fun he => hi ((hexit _).mpr he)
  older p x hx := by
    rw [hpid, hpid]
    unfold Child at hx
    rw [Ne, hexit, hparent] at hx
    exact h.older p x hx
  inj x y hx hy he := by
    rw [hpid, hpid] at he
    exact h.inj x y (fun hx' => hx ((hexit _).mpr hx')) (fun hy' => hy ((hexit _).mpr hy')) he
  fresh x := by
    rw [hpid, hid]
    exact h.fresh x

theorem Tree.kin (h : Tree s R) (hk : Kin N s s')
    (hexit : ∀ p, s'.status p = .exited ↔ s.status p = .exited) : Tree s' R :=
  h.congr hk.relation hk.parent hk.pid hk.process_id hexit

theorem Stocked.kin (h : Stocked s) (hk : Kin N s s')
    (hexit : ∀ p, s'.status p = .exited ↔ s.status p = .exited) : Stocked s' where
  ready := hk.heads _ h.ready
  other k := hk.heads _ (h.other k)
  wait p hp := hk.heads _ (h.wait p fun he => hp ((hexit p).mpr he))
  uses q hq := (hk.uses q hq).elim (fun hu => hk.heads q (h.uses q hu)) id
  children p hp := by
    rw [hk.relation]
    exact h.children p fun he => hp ((hexit p).mpr he)

/-- The processes that no list has, but the caller's. -/
def Unlisted (L : Lists) (own : Slot) (p : Slot) : Prop := p ≠ own ∧ ∀ q, p ∉ L q

theorem away_unlisted {own : Slot} (hr : Rep s.links L) : Away (Unlisted L own) s := fun _ hp => hr.avoids hp.2

/-- In a call of a live process nothing that has exited is touched. -/
theorem Core.unlisted_of_exited (h : Core s L) (hp : s.status p = .exited) : Unlisted L (s.current c) p := by
  refine ⟨?_, (h.busy c).free_of_exited hp⟩
  rintro rfl
  rcases (h.active c).1 with he | he <;> exact nomatch he.symm.trans hp

/-! ## Ancestors -/

/-- No live process has lost its parent. -/
def Rooted (s : Kernel) : Prop := ∀ p x, Child s p x → s.status p ≠ .exited

theorem Below.alive (h : Below s t x) (ht : s.status t ≠ .exited) : s.status x ≠ .exited := by
  induction h with
  | refl => exact ht
  | tail _ hc _ => exact hc.1

theorem Tree.pid_le (h : Tree s R) (hb : Below s t x) : (s.pcb t).pid ≤ (s.pcb x).pid := by
  induction hb with
  | refl => exact le_refl _
  | tail _ hc ih => exact ih.trans (h.older _ _ hc).le

/-- Nothing is below its own child. -/
theorem Tree.not_below_child (h : Tree s R) (hc : Child s p x) : ¬ Below s x p := fun hb => by
  have := h.older _ _ hc
  have := h.pid_le hb
  omega

/-- The way up from a process is one. -/
theorem below_total {t' : Slot} (h : Below s t x) (h' : Below s t' x) : Below s t t' ∨ Below s t' t := by
  have hone : Relator.RightUnique (Function.swap (Child s)) := fun x p p' hp hp' =>
    Option.some.inj (hp.2.symm.trans hp'.2)
  rcases ReflTransGen.total_of_right_unique hone (Relation.reflTransGen_swap.mpr h)
    (Relation.reflTransGen_swap.mpr h') with hb | hb
  · exact .inr (Relation.reflTransGen_swap.mp hb)
  · exact .inl (Relation.reflTransGen_swap.mp hb)

/-- The subtrees of two children of a process are apart. -/
theorem Tree.apart (h : Tree s R) {x' y : Slot} (hx : Child s p x) (hx' : Child s p x') (hne : x ≠ x')
    (hy : Below s x y) : ¬ Below s x' y := by
  intro hy'
  -- the lower of the two is a child of `p`, so the upper is `p` or above it
  have key : ∀ {a b : Slot}, Child s p a → Child s p b → a ≠ b → ¬ Below s a b := by
    intro a b ha hb hab hbelow
    rcases ReflTransGen.cases_tail hbelow with he | ⟨p', hp', hc⟩
    · exact hab he.symm
    · obtain rfl : p' = p := Option.some.inj (hc.2.symm.trans hb.2)
      have := h.pid_le hp'
      have := h.older _ _ ha
      omega
  rcases below_total hy hy' with hb | hb
  · exact key hx hx' hne hb
  · exact key hx' hx hne.symm hb

/-- How many live processes are older. -/
def rank (s : Kernel) (x : Slot) : ℕ :=
  (Finset.univ.filter fun y => s.status y ≠ .exited ∧ (s.pcb y).pid < (s.pcb x).pid).card

theorem rank_lt_FUEL : s.rank x < FUEL := card_lt_FUEL

theorem Tree.rank_lt (h : Tree s R) (hp : s.status p ≠ .exited) (hc : Child s p x) : s.rank p < s.rank x := by
  have hlt := h.older p x hc
  refine Finset.card_lt_card (Finset.ssubset_iff_of_subset ?_ |>.mpr ⟨p, ?_, ?_⟩)
  · intro y hy
    simp only [Finset.mem_filter, Finset.mem_univ, true_and] at hy ⊢
    exact ⟨hy.1, hy.2.trans hlt⟩
  · simp [hp, hlt]
  · simp

/-- **The walk over the ancestors** answers, and finds those above. -/
theorem Tree.isAncestor_eq (h : Tree s R) (hroot : Rooted s) {pid : ℤ} {fuel : ℕ}
    (hx : s.status x ≠ .exited) (hfuel : s.rank x < fuel) : ∃ b, s.isAncestor pid fuel (some x) = .ok b ∧
      (b = true ↔ ∃ a, Below s a x ∧ (s.pcb a).pid = pid) := by
  induction fuel generalizing x with
  | zero => omega
  | succ fuel ih =>
    unfold isAncestor
    by_cases hpid : (s.pcb x).pid = pid
    · rw [if_pos hpid]
      exact ⟨true, rfl, fun _ => ⟨x, .refl, hpid⟩, fun _ => rfl⟩
    · rw [if_neg hpid]
      have hself : ∀ a, Below s a x → (s.pcb a).pid = pid → ∃ p, Child s p x ∧ Below s a p := by
        intro a ha hap
        rcases ReflTransGen.cases_tail ha with rfl | ⟨p, hp, hc⟩
        · exact absurd hap hpid
        · exact ⟨p, hc, hp⟩
      cases hp : (s.pcb x).parent with
      | none =>
        refine ⟨false, ?_, by simp, ?_⟩
        · cases fuel <;> rfl
        · rintro ⟨a, ha, hap⟩
          obtain ⟨p, hc, -⟩ := hself a ha hap
          cases hp.symm.trans hc.2
      | some p =>
        have hc : Child s p x := ⟨hx, hp⟩
        have hlive := hroot p x hc
        have hrank := h.rank_lt hlive hc
        obtain ⟨b, hb, hspec⟩ := ih hlive (by omega)
        refine ⟨b, hb, hspec.trans ⟨Exists.imp fun a => And.imp_left (·.tail hc), ?_⟩⟩
        rintro ⟨a, ha, hap⟩
        obtain ⟨p', hc', hb'⟩ := hself a ha hap
        obtain rfl : p' = p := Option.some.inj (hc'.2.symm.trans hp)
        exact ⟨a, hb', hap⟩

/-- The walk reads parents and pids alone. -/
theorem isAncestor_congr (hparent : ∀ p, (s'.pcb p).parent = (s.pcb p).parent)
    (hpid : ∀ p, (s'.pcb p).pid = (s.pcb p).pid) (pid : ℤ) (fuel : ℕ) (link : Option Slot) :
    s'.isAncestor pid fuel link = s.isAncestor pid fuel link := by
  induction fuel generalizing link with
  | zero => cases link <;> rfl
  | succ fuel ih =>
    cases link with
    | none => rfl
    | some p =>
      unfold isAncestor
      rw [hpid, hparent, ih]

/-- **Every live process is below one of the kernel's.** -/
theorem Tree.reaches_kernel (h : Tree s R) (hroot : Rooted s) (hx : s.status x ≠ .exited) :
    ∃ c, Below s (.kernel c) x := by
  -- from parent to parent, each older than the last
  induction hn : s.rank x using Nat.strong_induction_on generalizing x with
  | _ n ih =>
    cases x with
    | kernel c => exact ⟨c, .refl⟩
    | user i =>
      obtain ⟨p, hp⟩ := h.user i hx
      have hc : Child s p (.user i) := ⟨hx, hp⟩
      have hlive := hroot p _ hc
      have hlt := h.rank_lt hlive hc
      obtain ⟨c, hb⟩ := ih _ (hn ▸ hlt) hlive rfl
      exact ⟨c, hb.tail hc⟩

/-! ## A new process -/

variable {par : Slot}

/-- **A leaf is added**, in a control block that nobody's parent had. -/
theorem Tree.graft (h : Tree s R) (hpar : par ≠ p) (huser : ∀ c, p ≠ .kernel c)
    (hexit : s.status p = .exited) (hnil : R p = []) (hsame : ∀ x ≠ p, s'.pcb x = s.pcb x)
    (hst : s'.status p ≠ .exited) (hparent : (s'.pcb p).parent = some par)
    (hpid : (s'.pcb p).pid = s.process_id) (hid : s'.process_id = s.process_id + 1)
    (hrep : Rep s'.relation (upd R par (R par ++ [p]))) : Tree s' (upd R par (R par ++ [p])) := by
  have hfree : ∀ q, p ∉ R q := fun q hin => ((h.mem q p).mp hin).1 hexit
  have hsame' : ∀ x ≠ p, s'.status x = s.status x := fun x hx => by
    unfold status
    rw [hsame x hx]
  have hchild : ∀ q x, x ≠ p → (Child s' q x ↔ Child s q x) := fun q x hx => by
    unfold Child
    rw [hsame' x hx, hsame x hx]
  refine ⟨hrep, fun q x => ?_, fun c => ?_, fun i hi => ?_, fun q x hx => ?_, fun x y hx hy hxy => ?_,
    fun x => ?_⟩
  · by_cases hx : x = p
    · have hp : Child s' q p ↔ q = par :=
        ⟨fun hc => Option.some.inj (hc.2.symm.trans hparent), fun hq => ⟨hst, hq ▸ hparent⟩⟩
      rw [hx, hp]
      by_cases hq : q = par
      · rw [hq, upd_self]
        simp
      · rw [upd_of_ne hq]
        exact ⟨fun hin => absurd hin (hfree q), fun hq' => absurd hq' hq⟩
    · rw [hchild q x hx, ← h.mem q x]
      by_cases hq : q = par
      · rw [hq, upd_self]
        simp [hx]
      · rw [upd_of_ne hq]
  · rw [hsame _ (huser c).symm]
    exact h.kernel c
  · by_cases hx : Slot.user i = p
    · exact ⟨par, hx ▸ hparent⟩
    · rw [hsame' _ hx] at hi
      rw [hsame _ hx]
      exact h.user i hi
  · by_cases hxp : x = p
    · subst hxp
      obtain rfl : q = par := Option.some.inj (hx.2.symm.trans hparent)
      rw [hpid, hsame q hpar]
      exact h.fresh q
    · have hc := (hchild q x hxp).mp hx
      have hq : q ≠ p := by
        rintro rfl
        have hin := (h.mem q x).mpr hc
        rw [hnil] at hin
        exact List.not_mem_nil hin
      rw [hsame x hxp, hsame q hq]
      exact h.older q x hc
  · have hnew : ∀ y ≠ p, (s'.pcb y).pid ≠ (s'.pcb p).pid := fun y hy => by
      have := h.fresh y
      rw [hpid, hsame y hy]
      omega
    by_cases hxp : x = p
    · by_contra hne
      exact hnew y (fun hyp => hne (hxp.trans hyp.symm)) (hxp ▸ hxy.symm)
    · by_cases hyp : y = p
      · exact absurd (hyp ▸ hxy) (hnew x hxp)
      · rw [hsame' x hxp] at hx
        rw [hsame' y hyp] at hy
        rw [hsame x hxp, hsame y hyp] at hxy
        exact h.inj x y hx hy hxy
  · have := h.fresh x
    rw [hid]
    by_cases hxp : x = p
    · rw [hxp, hpid]
      omega
    · rw [hsame x hxp]
      omega

/-- The child lists once a control block has been set up again. -/
theorem Tree.rep_constructPcb (h : Tree s R) (hexit : s.status p = .exited) (hnil : R p = []) :
    Rep (s.constructPcb p).relation R := by
  have hfree : ∀ q, p ∉ R q := fun q hin => ((h.mem q p).mp hin).1 hexit
  show Rep (DList.init (upd (upd s.relation (.node p) .null) (.head p) .null) p) R
  rw [h.rep.upd_null hfree]
  unfold DList.init
  rw [upd_self, upd_idem]
  exact h.rep.set_head hnil rfl rfl

theorem Stocked.constructPcb (h : Stocked s) (p : Slot) : Stocked (s.constructPcb p) := by
  have hlinks : ∀ q, IsSet s.links q ∨ q = .wait p → IsSet (s.constructPcb p).links q := fun _ =>
    DList.isSet_reset
  have hlive : ∀ {p'}, (s.constructPcb p).status p' ≠ .exited → s.status p' ≠ .exited ∨ p' = p := by
    intro p' hp'
    refine or_iff_not_imp_right.mpr fun hpp he => hp' ?_
    exact (congrArg Pcb.status (upd_of_ne hpp)).trans he
  refine ⟨hlinks _ (.inl h.ready), fun k => hlinks _ (.inl (h.other k)), fun p' hp' => hlinks _ ?_,
    fun q hq => hlinks q (.inl (h.uses q hq)), fun p' hp' => DList.isSet_reset ?_⟩
  · exact (hlive hp').imp (h.wait p') fun he => by rw [he]
  · exact (hlive hp').imp_left (h.children p')

/-- A new process below a live one has not lost its parent. -/
theorem Rooted.graft (h : Rooted s) (hpar : par ≠ p) (hlive : s.status par ≠ .exited)
    (hsame : ∀ x ≠ p, s'.pcb x = s.pcb x) (hst : s'.status p ≠ .exited)
    (hparent : (s'.pcb p).parent = some par) : Rooted s' := by
  have hsame' : ∀ x ≠ p, s'.status x = s.status x := fun x hx => by
    unfold status
    rw [hsame x hx]
  intro q x hx
  by_cases hq : q = p
  · rw [hq]
    exact hst
  rw [hsame' q hq]
  by_cases hxp : x = p
  · subst hxp
    obtain rfl : q = par := Option.some.inj (hx.2.symm.trans hparent)
    exact hlive
  · unfold Child at hx
    rw [hsame' x hxp, hsame x hxp] at hx
    exact h q x hx

/-- What `do_exec` has done: a leaf has come to the tree, if anything. -/
structure Execed (s s' : Kernel) : Prop where
  tree : ∃ R', Tree s' R'
  stocked : Stocked s'
  ended : ∀ x, s'.status x = .exited → s.status x = .exited
  rooted : Rooted s → Rooted s'
  pids : ∀ x, s'.status x ≠ .exited → (s'.pcb x).pid = s.process_id ∨
    s.status x ≠ .exited ∧ (s'.pcb x).pid = (s.pcb x).pid
  process_id : s.process_id ≤ s'.process_id

/-- **`do_exec`** adds a leaf, if it does not pick a control block whose last
owner has left children. -/
theorem Tree.exec (h : Tree s R) (hst : Stocked s) (hown : s.status (s.current c) ≠ .exited)
    (hreuse : ∀ p, s.allocPcb = some p → R p = []) : Yields (Execed s) (s.doExec c) := by
  unfold doExec
  cases hf : s.allocPcb with
  | none => exact ⟨⟨R, h⟩, hst, fun _ => id, id, fun _ hx => .inr ⟨hx, rfl⟩, le_refl _⟩
  | some p =>
    obtain ⟨⟨i, hi⟩, hexit⟩ := allocPcb_spec hf
    have hrep := h.rep_constructPcb hexit (hreuse p hf)
    have hfree : ∀ q, p ∉ R q := fun q hin => ((h.mem q p).mp hin).1 hexit
    have hne : s.current c ≠ p := fun he => hown (he ▸ hexit)
    refine .ite (fun _ => trivial) fun _ => post_bind.mpr ?_
    unfold listAppend
    cases hm : DList.append (s.constructPcb p).links .ready p with
    | none => trivial
    | some m =>
      show Post _ _ (attachSubprocess _ (s.current c) p)
      unfold attachSubprocess
      cases he : DList.append ((s.constructPcb p).setLinks m).relation (s.current c) p with
      | none => trivial
      | some r =>
        show Execed s (((s.constructPcb p).setLinks m).setParent r (s.current c) p)
        generalize hs' : ((s.constructPcb p).setLinks m).setParent r (s.current c) p = s'
        have hpcb : s'.pcb p =
            { pid := s.process_id, status := .ready, parent := some (s.current c) } := by
          rw [← hs']
          refine upd_self.trans ?_
          show ({ upd s.pcb p _ p with parent := _ } : Pcb) = _
          rw [upd_self]
        have hsame : ∀ x ≠ p, s'.pcb x = s.pcb x := fun x hx => by
          rw [← hs']
          exact (upd_of_ne hx).trans (upd_of_ne hx)
        have hstatus : ∀ x ≠ p, s'.status x = s.status x := fun x hx => by
          unfold status
          rw [hsame x hx]
        have hlive : s'.status p ≠ .exited := by
          unfold status
          rw [hpcb]
          nofun
        have hid : s'.process_id = s.process_id + 1 := by rw [← hs']; rfl
        have hrel : Rep s'.relation (upd R (s.current c) (R (s.current c) ++ [p])) := by
          rw [← hs']
          exact hrep.append_free hfree he
        refine ⟨⟨_, h.graft hne (fun c' hk => ?_) hexit (hreuse p hf) hsame hlive (by rw [hpcb])
          (by rw [hpcb]) hid hrel⟩, ?_, fun x hx => ?_, fun hr => ?_, fun x hx => ?_, by omega⟩
        · rw [hi] at hk
          exact nomatch hk
        · have hs := hst.constructPcb p
          have hkeep : KeepsHeads (s.constructPcb p).links m := .append hm
          have hkeep' : KeepsHeads (s.constructPcb p).relation r := .append he
          have hnew : ∀ {p'}, s'.status p' ≠ .exited → (s.constructPcb p).status p' ≠ .exited := by
            intro p' hp' hex
            by_cases hpp : p' = p
            · rw [hpp] at hex
              exact nomatch (congrArg Pcb.status upd_self).symm.trans hex
            · rw [hstatus p' hpp] at hp'
              exact hp' ((congrArg Pcb.status (upd_of_ne hpp)).symm.trans hex)
          refine hs' ▸ ⟨hkeep _ hs.ready, fun k => hkeep _ (hs.other k), fun p' hp' =>
            hkeep _ (hs.wait p' (hnew (hs' ▸ hp'))), fun q hq => hkeep q (hs.uses q hq), fun p' hp' =>
            hkeep' _ (hs.children p' (hnew (hs' ▸ hp')))⟩
        · by_cases hxp : x = p
          · exact absurd (hxp ▸ hx) hlive
          · rw [← hstatus x hxp]
            exact hx
        · exact hr.graft hne hown hsame hlive (by rw [hpcb])
        · by_cases hxp : x = p
          · rw [hxp, hpcb]
            exact .inl rfl
          · rw [hstatus x hxp] at hx
            rw [hsame x hxp]
            exact .inr ⟨hx, rfl⟩

end Kernel

end OsLab.Sched
