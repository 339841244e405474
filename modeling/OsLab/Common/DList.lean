import OsLab.Common.Update
import Mathlib.Data.List.Chain
import Mathlib.Data.List.Nodup
/-!
# Doubly linked lists in memory

Circular lists with a head, whose links are stored in the nodes. A node
records the list that holds it. The operations work on the links alone;
one that follows a null link, or finds a node half linked, has no result.

`Rep` says which lists the memory holds, and each operation is the one on
lists of nodes. Heads are of type `H` and nodes of type `P`, and a node is
on at most one list.
-/

namespace OsLab.DList

open List

/-- What a link points to. -/
inductive Node (H P : Type)
  | head (h : H)
  | node (p : P)
  deriving DecidableEq

@[ext] structure Links (H P : Type) where
  next : Option (Node H P)
  prev : Option (Node H P)
  container : Option H

abbrev Mem (H P : Type) := Node H P → Links H P

variable {H P : Type} {r : Option P} {fuel : ℕ} {l : List P} {h' : H}

/-- All links null. -/
def Links.null : Links H P := ⟨none, none, none⟩

/-! ## The operations -/

/-- Whether a node is on a list. It is linked both ways and knows its
list, or none of these. -/
def holding (m : Mem H P) (p : P) : Option Bool :=
  let l := m (.node p)
  if l.next.isSome = l.prev.isSome ∧ l.next.isSome = l.container.isSome then some l.next.isSome
  else none

section Operations

variable [DecidableEq H] [DecidableEq P] (m : Mem H P)

def setNext (a b : Node H P) : Mem H P := upd m a { m a with next := some b }

def setPrev (a b : Node H P) : Mem H P := upd m a { m a with prev := some b }

/-- An empty list. -/
def init (h : H) : Mem H P :=
  upd m (.head h) { m (.head h) with next := some (.head h), prev := some (.head h) }

/-- Put a node at the end. One that is on a list already stays there. -/
def append (h : H) (p : P) : Option (Mem H P) :=
  (holding m p).bind fun held =>
    if held then some m
    else (m (.head h)).prev.map fun last =>
      setPrev (setNext (upd m (.node p) ⟨some (.head h), some last, some h⟩) last (.node p))
        (.head h) (.node p)

/-- Close the gap between two nodes, and null the links of the one between
them. -/
def unlink (a b : Node H P) (p : P) : Mem H P :=
  upd (setPrev (setNext m a b) b a) (.node p) .null

/-- Take a node off its list. -/
def delete (p : P) : Option (Mem H P) :=
  (holding m p).bind fun held =>
    if held then
      (m (.node p)).prev.bind fun a => (m (.node p)).next.map fun b => unlink m a b p
    else none

/-- Take a node off its list if it is on one. -/
def destruct (p : P) : Option (Mem H P) :=
  (holding m p).bind fun held => if held then delete m p else some m

/-- Take the first node of a list. -/
def shift (h : H) : Option (Option P × Mem H P) :=
  match (m (.head h)).next with
  | some (.node p) => (m (.node p)).next.map fun b => (some p, unlink m (.head h) b p)
  | some (.head h') => if h' = h then some (none, m) else none
  | none => none

/-- The nodes from a link to the head. -/
def nodesFrom (m : Mem H P) (h : H) : (fuel : ℕ) → Option (Node H P) → Option (List P)
  | fuel + 1, some (.node p) => (nodesFrom m h fuel (m (.node p)).next).map (p :: ·)
  | _, some (.head h') => if h' = h then some [] else none
  | _, _ => none

end Operations

/-! ## What the links become -/

section Links

variable [DecidableEq H] [DecidableEq P] (m : Mem H P) {h : H} {a b x last : Node H P} {p : P}

theorem setNext_next : (setNext m a b x).next = if x = a then some b else (m x).next := by
  rw [setNext, upd_apply]
  split <;> rfl

theorem setNext_prev : (setNext m a b x).prev = (m x).prev := by
  rw [setNext, upd_apply]
  split <;> simp [*]

theorem setNext_container : (setNext m a b x).container = (m x).container := by
  rw [setNext, upd_apply]
  split <;> simp [*]

theorem setPrev_next : (setPrev m a b x).next = (m x).next := by
  rw [setPrev, upd_apply]
  split <;> simp [*]

theorem setPrev_prev : (setPrev m a b x).prev = if x = a then some b else (m x).prev := by
  rw [setPrev, upd_apply]
  split <;> rfl

theorem setPrev_container : (setPrev m a b x).container = (m x).container := by
  rw [setPrev, upd_apply]
  split <;> simp [*]

theorem unlink_next (hp : x ≠ .node p) :
    (unlink m a b p x).next = if x = a then some b else (m x).next := by
  rw [unlink, upd_of_ne hp, setPrev_next, setNext_next]

theorem unlink_prev (hp : x ≠ .node p) :
    (unlink m a b p x).prev = if x = b then some a else (m x).prev := by
  rw [unlink, upd_of_ne hp, setPrev_prev, setNext_prev]

theorem unlink_container (hp : x ≠ .node p) : (unlink m a b p x).container = (m x).container := by
  rw [unlink, upd_of_ne hp, setPrev_container, setNext_container]

theorem unlink_self : unlink m a b p (.node p) = .null := upd_self

/-- The memory after a node is put between `last` and the head. -/
def putLast (m : Mem H P) (h : H) (last : Node H P) (p : P) : Mem H P :=
  setPrev (setNext (upd m (.node p) ⟨some (.head h), some last, some h⟩) last (.node p))
    (.head h) (.node p)

theorem putLast_next (hp : x ≠ .node p) :
    (putLast m h last p x).next = if x = last then some (.node p) else (m x).next := by
  rw [putLast, setPrev_next, setNext_next, upd_of_ne hp]

theorem putLast_prev (hp : x ≠ .node p) :
    (putLast m h last p x).prev = if x = .head h then some (.node p) else (m x).prev := by
  rw [putLast, setPrev_prev, setNext_prev, upd_of_ne hp]

theorem putLast_container (hp : x ≠ .node p) :
    (putLast m h last p x).container = (m x).container := by
  rw [putLast, setPrev_container, setNext_container, upd_of_ne hp]

theorem putLast_self (hl : last ≠ .node p) :
    putLast m h last p (.node p) = ⟨some (.head h), some last, some h⟩ := by
  rw [putLast, setPrev, upd_of_ne (by simp), setNext, upd_of_ne hl.symm, upd_self]

variable {m} {m' : Mem H P}

theorem append_cases (he : append m h p = some m') :
    m' = m ∨ ∃ last, (m (.head h)).prev = some last ∧ m' = putLast m h last p := by
  obtain ⟨held, -, he⟩ := Option.bind_eq_some_iff.mp he
  split_ifs at he
  · exact .inl (Option.some.inj he).symm
  · obtain ⟨last, hlast, rfl⟩ := Option.map_eq_some_iff.mp he
    exact .inr ⟨last, hlast, rfl⟩

theorem delete_cases (he : delete m p = some m') :
    ∃ a b, (m (.node p)).prev = some a ∧ (m (.node p)).next = some b ∧ m' = unlink m a b p := by
  obtain ⟨held, -, he⟩ := Option.bind_eq_some_iff.mp he
  split_ifs at he
  obtain ⟨a, ha, he⟩ := Option.bind_eq_some_iff.mp he
  obtain ⟨b, hb, rfl⟩ := Option.map_eq_some_iff.mp he
  exact ⟨a, b, ha, hb, rfl⟩

theorem destruct_cases (he : destruct m p = some m') : m' = m ∨ delete m p = some m' := by
  obtain ⟨held, -, he⟩ := Option.bind_eq_some_iff.mp he
  split_ifs at he
  · exact .inr he
  · exact .inl (Option.some.inj he).symm

theorem shift_cases (he : shift m h = some (r, m')) :
    (m (.head h)).next = some (.head h) ∧ r = none ∧ m' = m ∨ ∃ p b, (m (.head h)).next = some (.node p) ∧
      (m (.node p)).next = some b ∧ r = some p ∧ m' = unlink m (.head h) b p := by
  unfold shift at he
  split at he
  · next p hn =>
    obtain ⟨b, hb, he⟩ := Option.map_eq_some_iff.mp he
    obtain ⟨rfl, rfl⟩ := Prod.mk.inj he
    exact .inr ⟨p, b, hn, hb, rfl, rfl⟩
  · next h' hn =>
    split_ifs at he with hh
    obtain ⟨rfl, rfl⟩ := Prod.mk.inj (Option.some.inj he)
    exact .inl ⟨hh ▸ hn, rfl, rfl⟩
  · cases he

omit [DecidableEq P] in
theorem nodesFrom_head (he : nodesFrom m h fuel (some (.head h')) = some l) : l = [] := by
  cases fuel <;> exact (Option.some.inj (Option.ite_none_right_eq_some.mp he).2).symm

end Links

/-! ## Lists in memory -/

def Linked (m : Mem H P) (a b : Node H P) : Prop := (m a).next = some b ∧ (m b).prev = some a

/-- The links lead from the head through `l` and back, both ways. -/
def IsList (m : Mem H P) (h : H) (l : List P) : Prop :=
  List.IsChain (Linked m) (.head h :: (l.map .node ++ [.head h]))

/-- What the link before the nodes `l` of a list points to, if they are its
last. -/
def first (h : H) : List P → Node H P
  | [] => .head h
  | p :: _ => .node p

theorem mem_of_first {h : H} {p : P} (he : some (first h l) = some (.node p)) : p ∈ l := by
  cases l with
  | nil => exact nomatch he
  | cons q l => exact Node.node.inj (Option.some.inj he) ▸ mem_cons_self

/-- **The lists that the memory holds.** A head that has not been set up
has null links. -/
structure Rep (m : Mem H P) (L : H → List P) : Prop where
  list : ∀ h, IsList m h (L h) ∨ L h = [] ∧ (m (.head h)).next = none ∧ (m (.head h)).prev = none
  nodup : ∀ h, (L h).Nodup
  disjoint : ∀ h h' p, p ∈ L h → p ∈ L h' → h = h'
  container : ∀ h p, p ∈ L h → (m (.node p)).container = some h
  free : ∀ p, (∀ h, p ∉ L h) → m (.node p) = .null

variable {m : Mem H P} {h : H} {p : P} {L : H → List P} {m' : Mem H P}

section

variable [DecidableEq H] [DecidableEq P] {a b x y : Node H P} (hxy : Linked m x y)
  (hx : x ≠ .node p) (hy : y ≠ .node p)
include hxy hx hy

/-- A link that has nothing to do with the node stays as the node goes. -/
theorem Linked.unlink (ha : (m a).next = some (.node p)) (hb : (m b).prev = some (.node p)) :
    Linked (unlink m a b p) x y := by
  refine ⟨?_, ?_⟩
  · rw [unlink_next m hx, if_neg]
    · exact hxy.1
    · rintro rfl
      exact hy (Option.some.inj (hxy.1.symm.trans ha))
  · rw [unlink_prev m hy, if_neg]
    · exact hxy.2
    · rintro rfl
      exact hx (Option.some.inj (hxy.2.symm.trans hb))

/-- A link other than the last one stays as the node comes. -/
theorem Linked.putLast (ha : (m a).next = some (.head h)) (hyh : y ≠ .head h) :
    Linked (putLast m h a p) x y := by
  refine ⟨?_, ?_⟩
  · rw [putLast_next m hx, if_neg]
    · exact hxy.1
    · rintro rfl
      exact hyh (Option.some.inj (hxy.1.symm.trans ha))
  · rw [putLast_prev m hy, if_neg hyh]
    exact hxy.2

end

variable {l : List P}

theorem IsList.congr (hl : IsList m h l)
    (hhead : m' (.head h) = m (.head h)) (hnode : ∀ p ∈ l, m' (.node p) = m (.node p)) :
    IsList m' h l := by
  have hsame : ∀ x ∈ Node.head h :: (l.map Node.node ++ [.head h]), m' x = m x := by
    intro x hx
    simp only [mem_cons, mem_append, mem_map, not_mem_nil, or_false] at hx
    rcases hx with rfl | ⟨p, hp, rfl⟩ | rfl
    · exact hhead
    · exact hnode p hp
    · exact hhead
  refine hl.imp_of_mem_imp fun x y hx hy hxy => ?_
  unfold Linked
  rw [hsame x hx, hsame y hy]
  exact hxy

/-- The last node of a list, or its head. -/
theorem exists_last (h : H) : ∃ A a, Node.head h :: l.map Node.node = A ++ [a] :=
  ⟨_, _, (dropLast_concat_getLast (cons_ne_nil _ _)).symm⟩

theorem IsList.last {A : List (Node H P)} {a : Node H P} (hl : IsList m h l)
    (hA : Node.head h :: l.map Node.node = A ++ [a]) :
    List.IsChain (Linked m) (A ++ [a]) ∧ Linked m a (.head h) := by
  have heq : Node.head h :: (l.map Node.node ++ [.head h]) = A ++ [a, .head h] := by
    rw [← cons_append, hA, append_assoc]
    rfl
  have hchain : List.IsChain (Linked m) (A ++ [a, .head h]) := heq ▸ hl
  rw [isChain_append_cons_cons] at hchain
  exact ⟨hchain.1, hchain.2.1⟩

/-- The two neighbours of a node. -/
theorem IsList.neighbours {l₁ l2 : List P} (hl : IsList m h (l₁ ++ p :: l2)) :
    ∃ A a b B, .head h :: l₁.map .node = A ++ [a] ∧ l2.map .node ++ [.head h] = b :: B ∧
      List.IsChain (Linked m) (A ++ [a]) ∧ Linked m a (.node p) ∧ Linked m (.node p) b ∧
      List.IsChain (Linked m) (b :: B) := by
  obtain ⟨A, a, hA⟩ := exists_last h
  obtain ⟨b, B, hB⟩ : ∃ b B, l2.map Node.node ++ [.head h] = b :: B := by
    cases l2 with
    | nil => exact ⟨_, _, rfl⟩
    | cons q l2 => exact ⟨_, _, rfl⟩
  have hchain : List.IsChain (Linked m) (A ++ a :: .node p :: b :: B) := by
    have he : Node.head h :: ((l₁ ++ p :: l2).map Node.node ++ [.head h]) =
        A ++ a :: .node p :: b :: B := by
      rw [map_append, map_cons, append_assoc, cons_append, hB,
        ← cons_append, hA, append_assoc]
      rfl
    exact he ▸ hl
  rw [isChain_append_cons_cons, isChain_cons_cons] at hchain
  exact ⟨A, a, b, B, hA, hB, hchain.1, hchain.2.1, hchain.2.2.1, hchain.2.2.2⟩

namespace Rep

variable {m : Mem H P} {L : H → List P} {h : H} {p : P}

section

variable (hr : Rep m L)
include hr

theorem holding_free (hp : ∀ h, p ∉ L h) : holding m p = some false := by
  unfold holding
  rw [hr.free p hp]
  rfl

theorem isList_of_mem (hp : p ∈ L h) : IsList m h (L h) := by
  refine (hr.list h).resolve_right fun hnil => ?_
  rw [hnil.1] at hp
  exact not_mem_nil hp

theorem holding_mem (hp : p ∈ L h) : holding m p = some true := by
  obtain ⟨l₁, l2, hl⟩ := append_of_mem hp
  have hlist := hr.isList_of_mem hp
  rw [hl] at hlist
  obtain ⟨A, a, b, B, -, -, -, ha, hb, -⟩ := hlist.neighbours
  unfold holding
  simp only [ha.2, hb.1, hr.container h p hp, Option.isSome_some, and_self, if_true]

/-- A node is on one list, once. -/
theorem count_of_mem [DecidableEq P] (hp : p ∈ L h) : (L h).count p = 1 ∧ ∀ h' ≠ h, p ∉ L h' :=
  ⟨count_eq_one_of_mem (hr.nodup h) hp, fun h' hne hp' => hne (hr.disjoint h' h p hp' hp)⟩

/-- The first link of a list. -/
theorem head_next (hset : (m (.head h)).next ≠ none) :
    (m (.head h)).next = some (first h (L h)) := by
  have hlist := (hr.list h).resolve_right fun hnull => hset hnull.2.1
  cases hl : L h with
  | nil =>
    rw [hl] at hlist
    exact (isChain_cons_cons.mp hlist).1.1
  | cons p l =>
    rw [hl] at hlist
    exact (isChain_cons_cons.mp hlist).1.1

/-- The link after a node of a list. -/
theorem node_next {l₁ l2 : List P} (hl : L h = l₁ ++ p :: l2) :
    (m (.node p)).next = some (first h l2) := by
  have hlist := hr.isList_of_mem (h := h) (p := p) (by simp [hl])
  rw [hl] at hlist
  obtain ⟨A, a, b, B, -, hB, -, -, hb, -⟩ := hlist.neighbours
  rw [hb.1]
  cases l2 with
  | nil => exact congrArg some (List.cons.inj hB).1.symm
  | cons q l2 => exact congrArg some (List.cons.inj hB).1.symm

/-- **The links list the nodes.** -/
theorem nodesFrom_eq [DecidableEq H] (hset : (m (.head h)).next ≠ none)
    (hfuel : (L h).length < fuel) : nodesFrom m h fuel (m (.head h)).next = some (L h) := by
  have hlist := (hr.list h).resolve_right fun hnull => hset hnull.2.1
  -- along the chain, from any of its nodes
  have key : ∀ (l : List P) (x : Node H P) (fuel : ℕ), l.length < fuel →
      List.IsChain (Linked m) (x :: (l.map Node.node ++ [.head h])) →
      nodesFrom m h fuel (m x).next = some l := by
    intro l
    induction l with
    | nil =>
      intro x fuel hf hc
      rw [(isChain_cons_cons.mp hc).1.1]
      obtain ⟨f, rfl⟩ : ∃ f, fuel = f + 1 := ⟨fuel - 1, by omega⟩
      simp [nodesFrom]
    | cons q l ih =>
      intro x fuel hf hc
      rw [map_cons, cons_append, isChain_cons_cons] at hc
      rw [hc.1.1]
      obtain ⟨f, rfl⟩ : ∃ f, fuel = f + 1 := ⟨fuel - 1, by omega⟩
      simp only [nodesFrom]
      rw [ih (.node q) f (by simpa using hf) hc.2]
      rfl
  exact key (L h) (.head h) fuel hfuel hlist

/-! ## The operations on lists -/

end

section Operations

variable [DecidableEq H] [DecidableEq P] {m' : Mem H P} (hr : Rep m L)
include hr

/-- **One list changes.** It takes in no node of another list, and what it
lets go is free. -/
theorem of_update {l' : List P} (hlist : IsList m' h l')
    (hnodup : l'.Nodup) (hin : ∀ q ∈ l', q ∈ L h ∨ ∀ h', q ∉ L h')
    (hcont : ∀ q ∈ l', (m' (.node q)).container = some h)
    (hsame : ∀ x, x ≠ .head h → (∀ q, q ∈ L h ∨ q ∈ l' → x ≠ .node q) → m' x = m x)
    (hfreed : ∀ q ∈ L h, q ∉ l' → m' (.node q) = .null) : Rep m' (upd L h l') := by
  have hhead : ∀ h' ≠ h, m' (.head h') = m (.head h') :=
    fun h' hh' => hsame _ (by simpa using hh') nofun
  have hother : ∀ q, q ∉ L h → q ∉ l' → m' (.node q) = m (.node q) := fun q h1 h2 =>
    hsame _ nofun fun q' hq' he => by
      rw [← Node.node.inj he] at hq'
      exact hq'.elim h1 h2
  have hout : ∀ {h' q}, h' ≠ h → q ∈ L h' → q ∉ L h ∧ q ∉ l' := by
    intro h' q hh' hq
    have hqh : q ∉ L h := fun hin' => hh' (hr.disjoint h' h q hq hin')
    exact ⟨hqh, fun hl => (hin q hl).elim hqh fun hnone => hnone h' hq⟩
  refine ⟨fun h' => ?_, fun h' => ?_, fun h₁ h₂ q h1 h2 => ?_, fun h' q hq => ?_, fun q hq => ?_⟩
  · by_cases hh' : h' = h
    · rw [hh', upd_self]
      exact .inl hlist
    · rw [upd_of_ne hh', hhead h' hh']
      refine (hr.list h').imp_left fun hl => hl.congr (hhead h' hh') fun q hq => ?_
      exact hother q (hout hh' hq).1 (hout hh' hq).2
  · by_cases hh' : h' = h
    · rw [hh', upd_self]
      exact hnodup
    · rw [upd_of_ne hh']
      exact hr.nodup h'
  · by_cases hh1 : h₁ = h
    · by_cases hh2 : h₂ = h
      · rw [hh1, hh2]
      · rw [hh1, upd_self] at h1
        rw [upd_of_ne hh2] at h2
        exact absurd h1 (hout hh2 h2).2
    · rw [upd_of_ne hh1] at h1
      by_cases hh2 : h₂ = h
      · rw [hh2, upd_self] at h2
        exact absurd h2 (hout hh1 h1).2
      · rw [upd_of_ne hh2] at h2
        exact hr.disjoint h₁ h₂ q h1 h2
  · by_cases hh' : h' = h
    · rw [hh', upd_self] at hq
      rw [hh']
      exact hcont q hq
    · rw [upd_of_ne hh'] at hq
      rw [hother q (hout hh' hq).1 (hout hh' hq).2]
      exact hr.container h' q hq
  · have hl' : q ∉ l' := by
      have := hq h
      rwa [upd_self] at this
    by_cases hqh : q ∈ L h
    · exact hfreed q hqh hl'
    · rw [hother q hqh hl']
      refine hr.free q fun h' => ?_
      by_cases hh' : h' = h
      · rwa [hh']
      · have := hq h'
        rwa [upd_of_ne hh'] at this

/-- **A free node is put at the end of a list.** -/
theorem append_free (hp : ∀ h, p ∉ L h) (he : append m h p = some m') :
    Rep m' (upd L h (L h ++ [p])) := by
  unfold append at he
  rw [hr.holding_free hp] at he
  simp only [Option.bind_some, Bool.false_eq_true, if_false] at he
  -- the head has been set up, since its links are not null
  have hlist : IsList m h (L h) := by
    refine (hr.list h).resolve_right fun hnull => ?_
    rw [hnull.2.2] at he
    cases he
  obtain ⟨A, a, hA⟩ := exists_last h
  obtain ⟨hchain, hlast⟩ := hlist.last hA
  have hmem : ∀ x ∈ A ++ [a], x = .head h ∨ ∃ q ∈ L h, x = .node q := by
    intro x hx
    rw [← hA, mem_cons, mem_map] at hx
    exact hx.imp_right (Exists.imp fun q => And.imp_right Eq.symm)
  have hne : ∀ x ∈ A ++ [a], x ≠ .node p := by
    intro x hx hxp
    rcases hmem x hx with h1 | ⟨q, hq, h1⟩
    · cases h1.symm.trans hxp
    · exact hp h (Node.node.inj (h1.symm.trans hxp) ▸ hq)
  have hap : a ≠ .node p := hne a (by simp)
  rw [hlast.2, Option.map_some] at he
  obtain rfl : putLast m h a p = m' := Option.some.inj he
  have hself := putLast_self m (h := h) hap
  refine hr.of_update ?_ ?_ (fun q hq => ?_) (fun q hq => ?_) (fun x h1 h2 => ?_) fun q h1 h2 => ?_
  · have heq : Node.head h :: ((L h ++ [p]).map Node.node ++ [.head h]) = A ++ a :: .node p :: [.head h] := by
      rw [map_append, map_singleton, append_assoc, ← cons_append, hA,
        append_assoc]
      rfl
    unfold IsList
    rw [heq, isChain_append_cons_cons, isChain_cons_cons]
    refine ⟨hchain.imp_of_mem_tail_imp fun x y hx hy hxy => ?_,
      ⟨(putLast_next m hap).trans (if_pos rfl), by rw [hself]⟩,
      ⟨by rw [hself], (putLast_prev m (x := .head h) (by simp)).trans (if_pos rfl)⟩, .singleton _⟩
    refine hxy.putLast (hne x hx) (hne y (mem_of_mem_tail hy)) hlast.1 ?_
    rintro rfl
    rw [← hA, tail_cons] at hy
    simp at hy
  · refine nodup_append.mpr ⟨hr.nodup h, nodup_singleton p, fun x hx y hy => ?_⟩
    rw [mem_singleton.mp hy]
    rintro rfl
    exact hp h hx
  · rw [mem_append, mem_singleton] at hq
    refine hq.imp_right fun hqp => ?_
    rw [hqp]
    exact hp
  · by_cases hqp : q = p
    · rw [hqp, hself]
    · rw [putLast_container m (by simpa using hqp)]
      rw [mem_append, mem_singleton] at hq
      exact hr.container h q (hq.resolve_right hqp)
  · have hxp : x ≠ .node p := h2 p (.inr (by simp))
    have hxa : x ≠ a := by
      rintro rfl
      rcases hmem x (by simp) with h3 | ⟨q, hq, h3⟩
      · exact h1 h3
      · exact h2 q (.inl hq) h3
    refine Links.ext ?_ ?_ (putLast_container m hxp)
    · rw [putLast_next m hxp, if_neg hxa]
    · rw [putLast_prev m hxp, if_neg h1]
  · exact absurd (mem_append_left _ h1) h2

/-- **A node is taken off its list.** -/
theorem delete_mem (hp : p ∈ L h) :
    ∃ a b, (m (.node p)).prev = some a ∧ (m (.node p)).next = some b ∧
      delete m p = some (unlink m a b p) ∧ Rep (unlink m a b p) (upd L h ((L h).erase p)) := by
  obtain ⟨l₁, l2, hl⟩ := append_of_mem hp
  have hlist := hr.isList_of_mem hp
  rw [hl] at hlist
  obtain ⟨A, a, b, B, hA, hB, hchA, ha, hb, hchB⟩ := hlist.neighbours
  have herase : ∀ {q}, q ∈ (L h).erase p ↔ q ≠ p ∧ q ∈ L h := (hr.nodup h).mem_erase_iff
  have hsplit : (L h).erase p = l₁ ++ l2 := by
    have hpl : p ∉ l₁ := fun hin => (nodup_append.mp (hl ▸ hr.nodup h)).2.2 p hin p mem_cons_self rfl
    rw [hl, erase_append_right _ hpl, erase_cons_head]
  -- what stands on either side of the node
  have hmem : ∀ x, x ∈ A ++ [a] ∨ x ∈ b :: B → x = .head h ∨ ∃ q ∈ (L h).erase p, x = .node q := by
    intro x hx
    rw [← hA, ← hB] at hx
    simp only [hsplit, mem_cons, mem_append, mem_map, not_mem_nil, or_false] at hx ⊢
    grind
  have hne : ∀ x, x ∈ A ++ [a] ∨ x ∈ b :: B → x ≠ .node p := by
    intro x hx hxp
    rcases hmem x hx with h1 | ⟨q, hq, h1⟩
    · exact nomatch h1.symm.trans hxp
    · exact (herase.mp hq).1 (Node.node.inj (h1.symm.trans hxp))
  have haA : a ∈ A ++ [a] ∨ a ∈ b :: B := by simp
  have hbB : b ∈ A ++ [a] ∨ b ∈ b :: B := by simp
  have hkeep : ∀ {l}, (∀ x ∈ l, x ≠ .node p) → List.IsChain (Linked m) l →
    List.IsChain (Linked (unlink m a b p)) l :=
    fun hl hc => hc.imp_of_mem_imp fun x y hx hy hxy => hxy.unlink (hl x hx) (hl y hy) ha.1 hb.2
  refine ⟨a, b, ha.2, hb.1, ?_, ?_⟩
  · unfold delete
    rw [hr.holding_mem hp]
    simp only [Option.bind_some, if_true, ha.2, hb.1, Option.map_some]
  refine hr.of_update ?_ ((hr.nodup h).erase p) (fun q hq => .inl (herase.mp hq).2) (fun q hq => ?_)
    (fun x h1 h2 => ?_) fun q h1 h2 => ?_
  · have heq : Node.head h :: (((L h).erase p).map Node.node ++ [.head h]) = A ++ a :: b :: B := by
      rw [hsplit, map_append, append_assoc, hB, ← cons_append, hA, append_assoc]
      rfl
    unfold IsList
    rw [heq, isChain_append_cons_cons]
    exact ⟨hkeep (fun x hx => hne x (.inl hx)) hchA, ⟨(unlink_next m (hne a haA)).trans (if_pos rfl),
      (unlink_prev m (hne b hbB)).trans (if_pos rfl)⟩, hkeep (fun x hx => hne x (.inr hx)) hchB⟩
  · rw [unlink_container m (by simpa using (herase.mp hq).1)]
    exact hr.container h q (herase.mp hq).2
  · have hxp : x ≠ .node p := h2 p (.inl hp)
    have hother : ∀ {y}, y ∈ A ++ [a] ∨ y ∈ b :: B → x ≠ y := by
      rintro _ hy rfl
      rcases hmem x hy with h3 | ⟨q, hq, h3⟩
      · exact h1 h3
      · exact h2 q (.inr hq) h3
    refine Links.ext ?_ ?_ (unlink_container m hxp)
    · rw [unlink_next m hxp, if_neg (hother haA)]
    · rw [unlink_prev m hxp, if_neg (hother hbB)]
  · obtain rfl : q = p := by
      by_contra hqp
      exact h2 (herase.mpr ⟨hqp, h1⟩)
    exact unlink_self m

theorem destruct_mem (hp : p ∈ L h) (he : destruct m p = some m') :
    Rep m' (upd L h ((L h).erase p)) := by
  obtain ⟨a, b, -, -, hdel, hr'⟩ := hr.delete_mem hp
  unfold destruct at he
  rw [hr.holding_mem hp] at he
  simp only [Option.bind_some, if_true, hdel] at he
  exact Option.some.inj he ▸ hr'

theorem destruct_free (hp : ∀ h, p ∉ L h) : destruct m p = some m := by
  unfold destruct
  rw [hr.holding_free hp]
  rfl

/-- **The first node of a list is taken.** -/
theorem shift_spec (he : shift m h = some (r, m')) :
    L h = [] ∧ r = none ∧ m' = m ∨ ∃ p l, L h = p :: l ∧ r = some p ∧ Rep m' (upd L h l) := by
  rcases shift_cases he with ⟨hn, rfl, rfl⟩ | ⟨p, b, hn, hb, rfl, rfl⟩
  · have hnext := hn.symm.trans (hr.head_next (hn ▸ Option.some_ne_none _))
    cases hl : L h with
    | nil => exact .inl ⟨rfl, rfl, rfl⟩
    | cons p l =>
      rw [hl] at hnext
      exact nomatch hnext
  · have hnext := hn.symm.trans (hr.head_next (hn ▸ Option.some_ne_none _))
    cases hl : L h with
    | nil =>
      rw [hl] at hnext
      exact nomatch hnext
    | cons q l =>
      rw [hl] at hnext
      obtain rfl : p = q := Node.node.inj (Option.some.inj hnext)
      have hp : p ∈ L h := by simp [hl]
      have hlist := hr.isList_of_mem hp
      obtain ⟨a, b', ha, hb', -, hr'⟩ := hr.delete_mem hp
      -- its predecessor is the head
      rw [hl] at hlist hr'
      obtain rfl : a = .head h := Option.some.inj (ha.symm.trans (isChain_cons_cons.mp hlist).1.2)
      obtain rfl : b' = b := Option.some.inj (hb'.symm.trans hb)
      rw [erase_cons_head] at hr'
      exact .inr ⟨p, l, rfl, rfl, hr'⟩

/-- The head of an empty list is set up anew. -/
theorem set_head {l : Links H P} (hnil : L h = []) (hnext : l.next = some (.head h))
    (hprev : l.prev = some (.head h)) : Rep (upd m (.head h) l) L := by
  have hupd : upd L h [] = L := by
    rw [← hnil]
    exact upd_eq_self
  rw [← hupd]
  refine hr.of_update ?_ nodup_nil (by simp) (by simp) (fun x hx _ => upd_of_ne hx) ?_
  · unfold IsList
    simp [Linked, hnext, hprev]
  · rw [hnil]
    simp

/-- **An empty list is set up anew.** -/
theorem init_empty (hnil : L h = []) : Rep (init m h) L := hr.set_head hnil rfl rfl

/-- A free node's links are null already. -/
theorem upd_null (hp : ∀ h, p ∉ L h) : upd m (.node p) .null = m := by
  rw [← hr.free p hp]
  exact upd_eq_self

end Operations

end Rep

/-! ## The mirror -/

/-- The links the other way round. -/
def mirror (m : Mem H P) : Mem H P := fun x => ⟨(m x).prev, (m x).next, (m x).container⟩

theorem IsList.mirror (hl : IsList m h l) : IsList (mirror m) h l.reverse := by
  have heq : Node.head h :: (l.reverse.map .node ++ [.head h]) =
      (Node.head h :: (l.map .node ++ [.head h])).reverse := by simp
  rw [IsList, heq, isChain_reverse]
  exact hl.imp fun _ _ hlink => hlink.symm

/-- **The mirror holds the reversed lists.** -/
theorem Rep.mirror (hr : Rep m L) : Rep (mirror m) fun h => (L h).reverse where
  list h := (hr.list h).imp .mirror fun ⟨hnil, hnext, hprev⟩ => ⟨congrArg reverse hnil,
    hprev, hnext⟩
  nodup h := nodup_reverse.mpr (hr.nodup h)
  disjoint h h' p hp hp' := hr.disjoint h h' p (mem_reverse.mp hp) (mem_reverse.mp hp')
  container h p hp := hr.container h p (mem_reverse.mp hp)
  free p hp := by
    rw [DList.mirror, hr.free p fun h hin => hp h (mem_reverse.mpr hin)]
    rfl

/-! ## Nodes that no link leads to -/

/-- No link leads to the node, whatever else the memory holds. -/
def Avoids (m : Mem H P) (p : P) : Prop :=
  ∀ x, (m x).next ≠ some (.node p) ∧ (m x).prev ≠ some (.node p)

/-- A link forward to a node leads to the lists. -/
theorem Rep.next_ne (hr : Rep m L) (hp : ∀ h, p ∉ L h) (x : Node H P) :
    (m x).next ≠ some (.node p) := by
  intro hn
  cases x with
  | head h =>
    refine hp h (mem_of_first (h := h) ?_)
    rw [← hn, hr.head_next (hn ▸ Option.some_ne_none _)]
  | node y =>
    by_cases hy : ∃ h, y ∈ L h
    · obtain ⟨h, hy⟩ := hy
      obtain ⟨l₁, l2, hl⟩ := append_of_mem hy
      have hin : p ∈ l2 := mem_of_first (h := h) (by rw [← hn, hr.node_next hl])
      exact hp h (by simp [hl, hin])
    · rw [hr.free y fun h hin => hy ⟨h, hin⟩] at hn
      exact nomatch hn

/-- No link leads to a free node. -/
theorem Rep.avoids (hr : Rep m L) (hp : ∀ h, p ∉ L h) : Avoids m p := fun x =>
  ⟨hr.next_ne hp x, hr.mirror.next_ne (fun h hin => hp h (mem_reverse.mp hin)) x⟩

namespace Avoids

variable [DecidableEq H] [DecidableEq P] {m m' : Mem H P} {h : H} {p q : P} {x : Node H P}

section

variable (hm : Avoids m p)
include hm

theorem upd {l : Links H P} (hl : l.next ≠ some (.node p) ∧ l.prev ≠ some (.node p)) :
    Avoids (upd m x l) p := by
  intro y
  by_cases hy : y = x
  · rw [hy, upd_self]
    exact hl
  · rw [upd_of_ne hy]
    exact hm y

theorem setNext {a b : Node H P} (hb : b ≠ .node p) : Avoids (setNext m a b) p :=
  hm.upd ⟨fun he => hb (Option.some.inj he), (hm a).2⟩

theorem setPrev {a b : Node H P} (hb : b ≠ .node p) : Avoids (setPrev m a b) p :=
  hm.upd ⟨(hm a).1, fun he => hb (Option.some.inj he)⟩

theorem init : Avoids (init m h) p := hm.upd ⟨by simp, by simp⟩

theorem unlink {a b : Node H P} (ha : a ≠ .node p) (hb : b ≠ .node p) : Avoids (unlink m a b q) p :=
  ((hm.setNext hb).setPrev ha).upd ⟨nofun, nofun⟩

theorem append (hq : q ≠ p) (he : append m h q = some m') : Avoids m' p := by
  rcases append_cases he with rfl | ⟨last, hlast, rfl⟩
  · exact hm
  · have hl : last ≠ .node p := fun hl => (hm (.head h)).2 (hl ▸ hlast)
    have hq' : (.node q : Node H P) ≠ .node p := by simpa using hq
    exact ((hm.upd ⟨by simp, fun hp => hl (Option.some.inj hp)⟩).setNext hq').setPrev hq'

theorem delete (he : delete m q = some m') : Avoids m' p := by
  obtain ⟨a, b, ha, hb, rfl⟩ := delete_cases he
  exact hm.unlink (fun h => (hm _).2 (h ▸ ha)) fun h => (hm _).1 (h ▸ hb)

theorem destruct (he : destruct m q = some m') : Avoids m' p := by
  rcases destruct_cases he with rfl | he
  · exact hm
  · exact hm.delete he

theorem shift (he : shift m h = some (r, m')) : Avoids m' p ∧ r ≠ some p := by
  rcases shift_cases he with ⟨-, rfl, rfl⟩ | ⟨a, b, hn, hb, rfl, rfl⟩
  · exact ⟨hm, nofun⟩
  · refine ⟨hm.unlink (by simp) fun h => (hm _).1 (h ▸ hb), fun ha => (hm _).1 (hn.trans ?_)⟩
    rw [Option.some.inj ha]

end

omit [DecidableEq P] in
theorem nodesFrom (hm : Avoids m p) {x : Option (Node H P)} (hx : x ≠ some (.node p))
    (he : nodesFrom m h fuel x = some l) : p ∉ l := by
  induction fuel generalizing x l with
  | zero =>
    rcases x with _ | ⟨h' | a⟩
    · exact nomatch he
    · exact nodesFrom_head he ▸ not_mem_nil
    · exact nomatch he
  | succ fuel ih =>
    rcases x with _ | ⟨h' | a⟩
    · exact nomatch he
    · exact nodesFrom_head he ▸ not_mem_nil
    · obtain ⟨l', hl', rfl⟩ := Option.map_eq_some_iff.mp he
      exact not_mem_cons_of_ne_of_not_mem (fun ha => hx (by rw [ha])) (ih (hm _).1 hl')

end Avoids

/-! ## Heads that have been set up -/

/-- The links of the head are not null. -/
def IsSet (m : Mem H P) (h : H) : Prop := (m (.head h)).next ≠ none ∧ (m (.head h)).prev ≠ none

/-- The heads that have been set up stay so. -/
def KeepsHeads (m m' : Mem H P) : Prop := ∀ h, IsSet m h → IsSet m' h

theorem Rep.head_next_of_isSet (hr : Rep m L)
    (hset : IsSet m h) : (m (.head h)).next = some (first h (L h)) := hr.head_next hset.1

namespace KeepsHeads

variable {m m' : Mem H P}

theorem refl (m : Mem H P) : KeepsHeads m m := fun _ => id

theorem trans {m'' : Mem H P} (hm : KeepsHeads m m') (hm' : KeepsHeads m' m'') : KeepsHeads m m'' :=
  fun h hset => hm' h (hm h hset)

end KeepsHeads

variable [DecidableEq H] [DecidableEq P]

/-- A free node can be put on a list that has been set up. -/
theorem Rep.exists_append (hr : Rep m L) (hp : ∀ h, p ∉ L h) (hset : IsSet m h) :
    ∃ m', append m h p = some m' := by
  obtain ⟨last, hlast⟩ := Option.ne_none_iff_exists'.mp hset.2
  unfold append
  rw [hr.holding_free hp, Option.bind_some, if_neg Bool.false_ne_true, hlast]
  exact ⟨_, rfl⟩

/-- A node can be taken off whatever list it is on. -/
theorem Rep.exists_destruct (hr : Rep m L) : ∃ m', destruct m p = some m' := by
  by_cases hp : ∃ h, p ∈ L h
  · obtain ⟨h, hp⟩ := hp
    obtain ⟨a, b, -, -, hdel, -⟩ := hr.delete_mem hp
    unfold destruct
    rw [hr.holding_mem hp, Option.bind_some, if_pos rfl, hdel]
    exact ⟨_, rfl⟩
  · exact ⟨m, hr.destruct_free fun h hin => hp ⟨h, hin⟩⟩

theorem isSet_init (h : H) : IsSet (init m h) h := by
  unfold IsSet init
  rw [upd_self]
  exact ⟨Option.some_ne_none _, Option.some_ne_none _⟩

/-- A node and a head are zeroed, and the head is set up. -/
theorem isSet_reset (hset : IsSet m h ∨ h = h') :
    IsSet (init (upd (upd m (.node p) .null) (.head h') .null) h') h := by
  by_cases hh : h = h'
  · rw [hh]
    exact isSet_init _
  · have h1 : (.head h : Node H P) ≠ .head h' := fun he => hh (Node.head.inj he)
    have h2 : (.head h : Node H P) ≠ .node p := nofun
    unfold IsSet init
    rw [upd_of_ne h1, upd_of_ne h1, upd_of_ne h2]
    exact hset.resolve_right hh

namespace KeepsHeads

variable {m m' : Mem H P} {h : H} {p : P} {a b : Node H P} {l : Links H P}

/-- One place changes. If it is a head that was set up, it still is. -/
theorem upd {x : Node H P}
    (hl : ∀ h, x = .head h → (m x).next ≠ none ∧ (m x).prev ≠ none → l.next ≠ none ∧ l.prev ≠ none) :
    KeepsHeads m (upd m x l) := by
  intro h hset
  unfold IsSet
  by_cases hx : .head h = x
  · rw [hx, upd_self]
    exact hl h hx.symm (hx ▸ hset)
  · rw [upd_of_ne hx]
    exact hset

theorem upd_node : KeepsHeads m (OsLab.upd m (.node p) l) := .upd nofun

theorem setNext : KeepsHeads m (setNext m a b) :=
  .upd fun _ _ hset => ⟨Option.some_ne_none _, hset.2⟩

theorem setPrev : KeepsHeads m (setPrev m a b) :=
  .upd fun _ _ hset => ⟨hset.1, Option.some_ne_none _⟩

theorem init : KeepsHeads m (init m h) :=
  .upd fun _ _ _ => ⟨Option.some_ne_none _, Option.some_ne_none _⟩

theorem unlink : KeepsHeads m (unlink m a b p) := (setNext.trans setPrev).trans upd_node

theorem append (he : append m h p = some m') : KeepsHeads m m' := by
  rcases append_cases he with rfl | ⟨last, -, rfl⟩
  · exact refl m'
  · exact (upd_node.trans setNext).trans setPrev

theorem delete (he : delete m p = some m') : KeepsHeads m m' := by
  obtain ⟨a, b, -, -, rfl⟩ := delete_cases he
  exact unlink

theorem destruct (he : destruct m p = some m') : KeepsHeads m m' := by
  rcases destruct_cases he with rfl | he
  · exact refl m'
  · exact delete he

theorem shift (he : shift m h = some (r, m')) : KeepsHeads m m' := by
  rcases shift_cases he with ⟨-, -, rfl⟩ | ⟨a, b, -, -, -, rfl⟩
  · exact refl m'
  · exact unlink

end KeepsHeads

end OsLab.DList
