import OsLab.Common.DList
import Mathlib.Data.Fintype.Basic
/-!
# The kernel's lists

The calls of `libs/list.c` in any order, on any heads and nodes.
`Common.DList` has the functions that the subsystems use. The two that
work at the other end of a list are here, as their mirror images.

What a list is for is a sequence. `Spec` says what each call does to the
sequences, and every run of the calls does the same to the links.
-/

namespace OsLab.Libs

open List DList

variable {H P : Type} [DecidableEq H] [DecidableEq P]

/-! ## The calls -/

/-- Put a node at the beginning. One that is on a list already stays there. -/
def prepend (m : DList.Mem H P) (h : H) (p : P) : Option (DList.Mem H P) :=
  (holding m p).bind fun held =>
    if held then some m
    else (m (.head h)).next.map fun first =>
      setNext (setPrev (upd m (.node p) ⟨some first, some (.head h), some h⟩) first (.node p))
        (.head h) (.node p)

/-- Take the last node of a list. -/
def pop (m : DList.Mem H P) (h : H) : Option (Option P × DList.Mem H P) :=
  match (m (.head h)).prev with
  | some (.node p) => (m (.node p)).prev.map fun a =>
    (some p, upd (setNext (setPrev m (.head h) a) a (.head h)) (.node p) .null)
  | some (.head h') => if h' = h then some (none, m) else none
  | none => none

/-- The loop of `list_size`. -/
def sizeFrom (m : DList.Mem H P) (h : H) :
    (fuel : ℕ) → Option (DList.Node H P) → (size : ℕ) → Option ℕ
  | fuel + 1, some (.node p), size => sizeFrom m h fuel (m (.node p)).next (size + 1)
  | _, some (.head h'), size => if h' = h then some size else none
  | _, _, _ => none

inductive Call (H P : Type)
  | init (h : H)
  | prepend (h : H) (p : P)
  | append (h : H) (p : P)
  | shift (h : H)
  | pop (h : H)
  | delete (p : P)
  | nodeDestruct (p : P)

/-- The node that a call returns, if any, and the memory after it. -/
def Call.run (m : DList.Mem H P) : Call H P → Option (Option P × DList.Mem H P)
  | .init h => some (none, DList.init m h)
  | .prepend h p => (Libs.prepend m h p).map (none, ·)
  | .append h p => (DList.append m h p).map (none, ·)
  | .shift h => DList.shift m h
  | .pop h => Libs.pop m h
  | .delete p => (DList.delete m p).map (none, ·)
  | .nodeDestruct p => (destruct m p).map (none, ·)

/-- One call after the other, with what they return. -/
def run (m : DList.Mem H P) : List (Call H P) → Option (List (Option P) × DList.Mem H P)
  | [] => some ([], m)
  | c :: cs => (c.run m).bind fun (r, m) => (run m cs).map fun (rs, m) => (r :: rs, m)

/-! ## Sequences -/

/-- A sequence for each head, once it has been set up. -/
abbrev Seqs (H P : Type) := H → Option (List P)

def nodes (S : Seqs H P) (h : H) : List P := (S h).getD []

def Held (S : Seqs H P) (p : P) : Prop := ∃ h, p ∈ nodes S h

instance [Fintype H] (S : Seqs H P) (p : P) : Decidable (Held S p) :=
  inferInstanceAs (Decidable (∃ h, p ∈ nodes S h))

/-- **What a call is for.** A head is set up once, before it is used, and
`list_delete` asserts that the node is on a list. -/
inductive Spec (S : Seqs H P) : Call H P → Option P → Seqs H P → Prop
  | init {h} (hfresh : S h = none) : Spec S (.init h) none (upd S h (some []))
  | prepend {h p l} (hl : S h = some l) (hp : ¬Held S p) : Spec S (.prepend h p) none (upd S h (some (p :: l)))
  | append {h p l} (hl : S h = some l) (hp : ¬Held S p) : Spec S (.append h p) none (upd S h (some (l ++ [p])))
  | prependHeld {h p} (hp : Held S p) : Spec S (.prepend h p) none S
  | appendHeld {h p} (hp : Held S p) : Spec S (.append h p) none S
  | shift {h p l} (hl : S h = some (p :: l)) : Spec S (.shift h) (some p) (upd S h (some l))
  | shiftEmpty {h} (hl : S h = some []) : Spec S (.shift h) none S
  | pop {h p l} (hl : S h = some (l ++ [p])) : Spec S (.pop h) (some p) (upd S h (some l))
  | popEmpty {h} (hl : S h = some []) : Spec S (.pop h) none S
  | delete {h p l} (hl : S h = some l) (hp : p ∈ l) : Spec S (.delete p) none (upd S h (some (l.erase p)))
  | nodeDestruct {h p l} (hl : S h = some l) (hp : p ∈ l) : Spec S (.nodeDestruct p) none (upd S h (some (l.erase p)))
  | nodeDestructFree {p} (hp : ¬Held S p) : Spec S (.nodeDestruct p) none S

inductive Runs : Seqs H P → List (Call H P) → List (Option P) → Seqs H P → Prop
  | nil {S} : Runs S [] [] S
  | cons {S c r S' cs rs T} (hc : Spec S c r S') (hcs : Runs S' cs rs T) : Runs S (c :: cs) (r :: rs) T

variable {m m' : DList.Mem H P} {L : H → List P} {S S' : Seqs H P} {h : H} {p : P} {l : List P}

/-! ## At the end of a list, and at the beginning -/

theorem exists_append (hr : Rep m L) (hp : ∀ h, p ∉ L h) (hset : IsSet m h) :
    ∃ m', append m h p = some m' ∧ Rep m' (upd L h (L h ++ [p])) ∧ KeepsHeads m m' := by
  obtain ⟨m', hm⟩ := hr.exists_append hp hset
  exact ⟨m', hm, hr.append_free hp hm, .append hm⟩

theorem shift_of_empty (hr : Rep m L) (hset : IsSet m h) (hl : L h = []) :
    shift m h = some (none, m) := by
  simp [shift, hr.head_next_of_isSet hset, hl, first]

theorem exists_shift (hr : Rep m L) (hset : IsSet m h) (hl : L h = p :: l) :
    ∃ m', shift m h = some (some p, m') ∧ Rep m' (upd L h l) ∧ KeepsHeads m m' := by
  have hm : shift m h = some (some p, unlink m (.head h) (first h l) p) := by
    rw [shift, hr.head_next_of_isSet hset, hl, first]
    simp only [hr.node_next (show L h = [] ++ p :: l from hl), Option.map_some]
  refine ⟨_, hm, ?_, .unlink⟩
  rcases hr.shift_spec hm with ⟨-, hnone, -⟩ | ⟨q, l', hl', -, hrep⟩
  · exact nomatch hnone
  · exact (cons.inj (hl.symm.trans hl')).2 ▸ hrep

theorem mirror_upd {x : DList.Node H P} {k : Links H P} :
    mirror (upd m x k) = upd (mirror m) x ⟨k.prev, k.next, k.container⟩ := by
  funext y
  unfold mirror
  rw [upd_apply, upd_apply]
  split <;> rfl

theorem mirror_setNext {a b : DList.Node H P} : mirror (setNext m a b) = setPrev (mirror m) a b :=
  mirror_upd

theorem mirror_setPrev {a b : DList.Node H P} : mirror (setPrev m a b) = setNext (mirror m) a b :=
  mirror_upd

theorem prepend_eq : prepend m h p = (append (mirror m) h p).map mirror := by
  have hhold : holding (mirror m) p = holding m p := by
    unfold holding mirror
    grind
  unfold prepend append
  rw [hhold]
  cases holding m p with
  | none => rfl
  | some held =>
    cases held with
    | true => rfl
    | false =>
      refine Eq.trans (Option.map_congr fun first _ => ?_) (Option.map_map ..).symm
      rw [Function.comp, mirror_setPrev, mirror_setNext, mirror_upd]
      rfl

theorem pop_eq : pop m h = (shift (mirror m) h).map (Prod.map id mirror) := by
  unfold pop shift
  rw [show (mirror m (.head h)).next = (m (.head h)).prev from rfl]
  rcases (m (.head h)).prev with _ | h' | p
  · rfl
  · dsimp only
    split <;> rfl
  · refine Eq.trans (Option.map_congr fun a _ => ?_) (Option.map_map ..).symm
    rw [Function.comp, Prod.map, unlink, mirror_upd, mirror_setPrev, mirror_setNext]
    rfl

omit [DecidableEq P] in
/-- The mirror image of a change to one list. -/
theorem rep_mirror_upd (hr : Rep m' (upd (fun h => (L h).reverse) h l)) :
    Rep (mirror m') (upd L h l.reverse) := by
  have heq : (fun h' => (upd (fun h => (L h).reverse) h l h').reverse) = upd L h l.reverse := by
    funext h'
    rw [upd_apply, upd_apply]
    split <;> simp
  exact heq ▸ hr.mirror

theorem exists_prepend (hr : Rep m L) (hp : ∀ h, p ∉ L h) (hset : IsSet m h) :
    ∃ m', prepend m h p = some m' ∧ Rep m' (upd L h (p :: L h)) ∧ KeepsHeads m m' := by
  obtain ⟨m', hm, hr', hkeep⟩ :=
    exists_append hr.mirror (fun h hin => hp h (mem_reverse.mp hin)) hset.symm
  refine ⟨mirror m', by rw [prepend_eq, hm]; rfl, ?_, fun h hs => (hkeep h hs.symm).symm⟩
  simpa using rep_mirror_upd hr'

theorem exists_pop (hr : Rep m L) (hset : IsSet m h) (hl : L h = l ++ [p]) :
    ∃ m', pop m h = some (some p, m') ∧ Rep m' (upd L h l) ∧ KeepsHeads m m' := by
  obtain ⟨m', hm, hr', hkeep⟩ := exists_shift hr.mirror hset.symm (p := p) (l := l.reverse)
    (by simp [hl])
  refine ⟨mirror m', by rw [pop_eq, hm]; rfl, ?_, fun h hs => (hkeep h hs.symm).symm⟩
  simpa using rep_mirror_upd hr'

/-! ## The calls do what they are for -/

/-- The links are those of the sequences. -/
structure Refines (m : DList.Mem H P) (S : Seqs H P) : Prop where
  rep : Rep m (nodes S)
  set : ∀ {h l}, S h = some l → IsSet m h

omit [DecidableEq H] [DecidableEq P] in
theorem nodes_of_eq (hl : S h = some l) : nodes S h = l := by rw [nodes, hl, Option.getD_some]

/-- A node that is on a list stays where it is. -/
theorem Refines.put_held (hR : Refines m S) (hp : Held S p) (h : H) :
    prepend m h p = some m ∧ append m h p = some m := by
  obtain ⟨h', hp⟩ := hp
  rw [prepend, append, hR.rep.holding_mem hp]
  exact ⟨rfl, rfl⟩

omit [DecidableEq P] in
/-- One list changes. -/
theorem Refines.change (hR : Refines m S) (hrep : Rep m' (upd (nodes S) h l))
    (hkeep : KeepsHeads m m') (hset : IsSet m' h) : Refines m' (upd S h (some l)) := by
  have hnodes : nodes (upd S h (some l)) = upd (nodes S) h l := by
    funext h'
    unfold nodes
    rw [upd_apply, upd_apply]
    split <;> rfl
  refine ⟨hnodes ▸ hrep, fun {h' l'} hl => ?_⟩
  rcases upd_eq_cases hl with ⟨rfl, -⟩ | ⟨-, hl⟩
  · exact hset
  · exact hkeep h' (hR.set hl)

theorem Spec.run {c : Call H P} {r : Option P} (hs : Spec S c r S') (hR : Refines m S) :
    ∃ m', c.run m = some (r, m') ∧ Refines m' S' := by
  have hfree : ∀ {p}, ¬Held S p → ∀ h, p ∉ nodes S h := fun hp h hin => hp ⟨h, hin⟩
  -- what is left when one list has changed
  have hchange : ∀ {h l l' m₁}, S h = some l → Rep m₁ (upd (nodes S) h l') → KeepsHeads m m₁ →
      Refines m₁ (upd S h (some l')) := fun hl hrep hkeep => hR.change hrep hkeep (hkeep _ (hR.set hl))
  cases hs with
  | @init h hfresh =>
    have hnil : nodes S h = [] := by rw [nodes, hfresh, Option.getD_none]
    refine ⟨_, rfl, hR.change ?_ .init (isSet_init h)⟩
    rw [← hnil, upd_eq_self]
    exact hR.rep.init_empty hnil
  | prepend hl hp =>
    obtain ⟨m', hm, hrep, hkeep⟩ := exists_prepend hR.rep (hfree hp) (hR.set hl)
    rw [nodes_of_eq hl] at hrep
    exact ⟨m', by rw [Call.run, hm]; rfl, hchange hl hrep hkeep⟩
  | append hl hp =>
    obtain ⟨m', hm, hrep, hkeep⟩ := exists_append hR.rep (hfree hp) (hR.set hl)
    rw [nodes_of_eq hl] at hrep
    exact ⟨m', by rw [Call.run, hm]; rfl, hchange hl hrep hkeep⟩
  | prependHeld hp => exact ⟨m, by rw [Call.run, (hR.put_held hp _).1]; rfl, hR⟩
  | appendHeld hp => exact ⟨m, by rw [Call.run, (hR.put_held hp _).2]; rfl, hR⟩
  | shift hl =>
    obtain ⟨m', hm, hrep, hkeep⟩ := exists_shift hR.rep (hR.set hl) (nodes_of_eq hl)
    exact ⟨m', hm, hchange hl hrep hkeep⟩
  | shiftEmpty hl => exact ⟨m, shift_of_empty hR.rep (hR.set hl) (nodes_of_eq hl), hR⟩
  | pop hl =>
    obtain ⟨m', hm, hrep, hkeep⟩ := exists_pop hR.rep (hR.set hl) (nodes_of_eq hl)
    exact ⟨m', hm, hchange hl hrep hkeep⟩
  | @popEmpty h hl =>
    refine ⟨m, ?_, hR⟩
    rw [Call.run, pop_eq, shift_of_empty hR.rep.mirror (hR.set hl).symm (by rw [nodes_of_eq hl]; rfl)]
    rfl
  | delete hl hp =>
    rw [← nodes_of_eq hl] at hp ⊢
    obtain ⟨a, b, -, -, hm, hrep⟩ := hR.rep.delete_mem hp
    exact ⟨_, by rw [Call.run, hm]; rfl, hchange hl hrep .unlink⟩
  | nodeDestruct hl hp =>
    rw [← nodes_of_eq hl] at hp ⊢
    obtain ⟨m', hm⟩ := hR.rep.exists_destruct
    exact ⟨m', by rw [Call.run, hm]; rfl, hchange hl (hR.rep.destruct_mem hp hm) (.destruct hm)⟩
  | nodeDestructFree hp => exact ⟨m, by rw [Call.run, hR.rep.destruct_free (hfree hp)]; rfl, hR⟩

theorem Runs.run {cs : List (Call H P)} {rs : List (Option P)} (hs : Runs S cs rs S')
    (hR : Refines m S) :
    ∃ m', run m cs = some (rs, m') ∧ Refines m' S' := by
  induction hs generalizing m with
  | nil => exact ⟨m, rfl, hR⟩
  | cons hc _ ih =>
    obtain ⟨m₁, hm₁, hR₁⟩ := hc.run hR
    obtain ⟨m₂, hm₂, hR₂⟩ := ih hR₁
    exact ⟨m₂, by simp only [Libs.run, hm₁, hm₂, Option.bind_some, Option.map_some], hR₂⟩

omit [DecidableEq P] in
/-- `list_size` counts the nodes. -/
theorem sizeFrom_eq {fuel : ℕ} {x : Option (DList.Node H P)} {n : ℕ}
    (hx : nodesFrom m h fuel x = some l) :
    sizeFrom m h fuel x n = some (n + l.length) := by
  fun_induction sizeFrom m h fuel x n generalizing l with
  | case1 size fuel p ih =>
    obtain ⟨l', hl', rfl⟩ := Option.map_eq_some_iff.mp hx
    rw [ih hl', length_cons, Nat.add_right_comm, Nat.add_assoc]
  | case2 fuel h' => simp_all [nodesFrom]
  | case3 fuel h' => simp_all [nodesFrom]
  | case4 fuel h' => simp_all [nodesFrom]

/-- **The intrusive lists are sequences.** -/
theorem runs_sequences {cs : List (Call H P)} {rs : List (Option P)} {S : Seqs H P}
    (hs : Runs (fun _ => none) cs rs S) : ∃ m, run (fun _ => .null) cs = some (rs, m) ∧
      (∀ h l, S h = some l → l.Nodup ∧
        ∀ fuel > l.length, nodesFrom m h fuel (m (.head h)).next = some l ∧
        nodesFrom (mirror m) h fuel (m (.head h)).prev = some l.reverse ∧
        sizeFrom m h fuel (m (.head h)).next 0 = some l.length) ∧
      (∀ p h, (m (.node p)).container = some h ↔ p ∈ nodes S h) ∧
      (∀ p h h', p ∈ nodes S h → p ∈ nodes S h' → h = h') ∧
      ∀ p, Held S p → ∀ h, prepend m h p = some m ∧ append m h p = some m := by
  obtain ⟨m, hm, hR⟩ := hs.run (m := fun _ => .null)
    ⟨⟨fun h => .inr ⟨rfl, rfl, rfl⟩, fun h => nodup_nil, nofun, nofun, fun p _ => rfl⟩, nofun⟩
  refine ⟨m, hm, fun h l hl => ?_, fun p h => ⟨fun hc => ?_, hR.rep.container h p⟩,
    fun p h h' => hR.rep.disjoint h h' p, fun p hp => hR.put_held hp⟩
  · have hn := nodes_of_eq hl
    refine ⟨hn ▸ hR.rep.nodup h, fun fuel hf => ?_⟩
    have hfwd := hR.rep.nodesFrom_eq (hR.set hl).1 (by rwa [hn])
    have hback := hR.rep.mirror.nodesFrom_eq (hR.set hl).2 (by rwa [hn, length_reverse])
    rw [hn] at hfwd hback
    exact ⟨hfwd, hback, (sizeFrom_eq hfwd).trans (by rw [Nat.zero_add])⟩
  · by_cases hp : Held S p
    · obtain ⟨h', hp⟩ := hp
      rwa [← Option.some.inj ((hR.rep.container h' p hp).symm.trans hc)]
    · rw [hR.rep.free p fun h hin => hp ⟨h, hin⟩] at hc
      exact nomatch hc

/-- Calls of each kind on two lists. -/
def mixed : List (Call Bool ℕ) :=
  [.init false, .init true, .append false 1, .prepend false 2, .append false 3, .append true 4,
    .prepend false 4, .delete 1, .pop false, .append false 5, .shift true, .pop true,
    .nodeDestruct 9]

theorem runs_sequences_mixed : ∃ m, run (fun _ => .null) mixed =
      some ([none, none, none, none, none, none, none, none, some 3, none, some 4, none, none], m) ∧
    nodesFrom m false 3 (m (.head false)).next = some [2, 5] ∧
    nodesFrom (mirror m) false 3 (m (.head false)).prev = some [5, 2] ∧
    sizeFrom m false 3 (m (.head false)).next 0 = some 2 ∧ nodesFrom m true 1 (m (.head true)).next = some [] ∧
    (m (.node 5)).container = some false ∧ ∀ h, (m (.node 3)).container ≠ some h := by
  have hruns : Runs (fun _ => none) mixed
      [none, none, none, none, none, none, none, none, some 3, none, some 4, none, none] _ :=
    .cons (.init rfl) <| .cons (.init rfl) <| .cons (.append (l := []) rfl (by decide)) <|
      .cons (.prepend (l := [1]) rfl (by decide)) <| .cons (.append (l := [2, 1]) rfl (by decide)) <|
      .cons (.append (l := []) rfl (by decide)) <| .cons (.prependHeld (by decide)) <|
      .cons (.delete (h := false) (l := [2, 1, 3]) rfl (by decide)) <| .cons (.pop (l := [2]) rfl) <|
      .cons (.append (l := [2]) rfl (by decide)) <| .cons (.shift (l := []) rfl) <| .cons (.popEmpty rfl) <|
      .cons (.nodeDestructFree (by decide)) .nil
  obtain ⟨m, hm, hl, hc, -⟩ := runs_sequences hruns
  obtain ⟨-, hfalse⟩ := hl false [2, 5] rfl
  obtain ⟨hnext, hprev, hsize⟩ := hfalse 3 (by decide)
  refine ⟨m, hm, hnext, hprev, hsize, ((hl true [] rfl).2 1 (by decide)).1,
    (hc 5 false).mpr (by decide), ?_⟩
  intro h
  rw [Ne, hc 3 h]
  revert h
  decide

end OsLab.Libs
