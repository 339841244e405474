import OsLab.Fs.Blocks.Data
/-!
# Freeing a file

`inode_delete` walks the pointers of an inode and frees every block it
meets. The inode stops owning its blocks before the walk: they are loose
from then on, and each `block_free` takes one of them away. `Freeing`
says which pointers the walk is done with.
-/

namespace OsLab

open Prog Bytes

variable {s t u : FS} {ino : ℕ → Option DiskInode} {n k b N : ℕ} {d : DiskInode} {E : Halt → Prop}
  {l p : Loc} {done done' : Loc → Prop} {each : ℕ → FSM Unit}

/-! ## The pointers under a pointer -/

/-- The entry of the index block at `p` that leads to the pointer. -/
def Loc.entryOf : (p l : Loc) → Option (Fin 1024)
  | .ind, .indEnt j => some j
  | .dbl, .dblEnt i | .dbl, .leaf i _ => some i
  | .dblEnt i, .leaf i' j => if i' = i then some j else none
  | _, _ => none

/-- The pointer `p`, and those it leads to. -/
def Loc.Under (p l : Loc) : Prop := l = p ∨ (p.entryOf l).isSome

/-- The entries of the index block at `p`. -/
structure Loc.Entries (p : Loc) (ent : Fin 1024 → Loc) : Prop where
  up : ∀ j, (ent j).up = some (p, j)
  under : ∀ j l, (ent j).Under l ↔ p.entryOf l = some j

theorem Loc.entryOf_self : p.entryOf p = none := by cases p <;> rfl

theorem Loc.under_iff (hp : ∀ l, p.entryOf l = none) : p.Under l ↔ l = p := by simp [Under, hp]

theorem Loc.entries_ind : Loc.ind.Entries .indEnt :=
  ⟨fun _ => rfl, fun j l => by cases l <;> simp [Under, entryOf]⟩

theorem Loc.entries_dbl : Loc.dbl.Entries .dblEnt :=
  ⟨fun _ => rfl, fun j l => by cases l <;> simp [Under, entryOf]⟩

theorem Loc.entries_dblEnt {i : Fin 1024} : (Loc.dblEnt i).Entries (.leaf i) :=
  ⟨fun _ => rfl, fun j l => by cases l <;> simp [Under, entryOf]⟩

/-- A null pointer leads nowhere. -/
theorem ptr_under {disk : ℕ → Block} (hl : p.Under l) (hp : ptr disk d p = none) :
    ptr disk d l = none := by
  rcases hl with rfl | hl
  · exact hp
  · cases p <;> cases l <;> grind [Loc.entryOf, ptr, entry]

/-- One more entry. -/
theorem exists_lt_succ {m : ℕ} (hm : m < N) {P : Fin N → Prop} :
    (∃ i : Fin N, i < m + 1 ∧ P i) ↔ (∃ i : Fin N, i < m ∧ P i) ∨ P ⟨m, hm⟩ := by
  constructor
  · rintro ⟨i, hi, hp⟩
    by_cases him : i.val = m
    · exact .inr ((Fin.ext him : i = ⟨m, hm⟩) ▸ hp)
    · exact .inl ⟨i, by omega, hp⟩
  · rintro (⟨i, hi, hp⟩ | hp)
    · exact ⟨i, by omega, hp⟩
    · exact ⟨_, Nat.lt_succ_self m, hp⟩

/-! ## What is freed -/

/-- The blocks of the inode that are still to be freed. -/
def Pending (s : FS) (d : DiskInode) (done : Loc → Prop) (b : ℕ) : Prop :=
  ∃ l, ¬ done l ∧ ptr s.disk d l = some b

/-- The walk that started at `s` is done with some pointers. -/
structure Freeing (ino : ℕ → Option DiskInode) (k n : ℕ) (s : FS) (d : DiskInode)
    (done : Loc → Prop) (t : FS) : Prop where
  inv : BlockInv t (upd ino n none) (Pending s d done)
  disk : ∀ b, ¬ (1 ≤ b ∧ b < 33) → t.disk b = s.disk b
  mem : t.mem = { s.mem with
    inodes := upd s.mem.inodes k { s.mem.inodes k with d := (t.mem.inodes k).d }
    superblock := { s.mem.superblock with used_block := t.mem.superblock.used_block } }
  card : (takenBits t.disk).card ≤ (takenBits s.disk).card
  top : ∀ l, l.up = none → ¬ done l → (t.mem.inodes k).d.top l = d.top l

namespace Freeing

/-- **The inode lets go of its blocks.** -/
theorem start (h : BlockInv s ino fun _ => False) (hd : ino n = some d)
    (hk : (s.mem.inodes k).d = d) : Freeing ino k n s d (fun _ => False) s := by
  refine ⟨⟨h.geo, ?_, h.used⟩, fun _ _ => rfl, ?_, le_rfl, fun l _ _ => by rw [hk]⟩
  · have hin : ∀ a : ℕ × Loc, a.1 = n → ptrs s.disk (upd ino n none) a = none := by
      rintro ⟨m, l⟩ rfl
      unfold ptrs
      rw [upd_self]
      rfl
    have hout : ∀ a : ℕ × Loc, ¬ a.1 = n → ptrs s.disk (upd ino n none) a = ptrs s.disk ino a := by
      rintro ⟨m, l⟩ hm
      unfold ptrs
      rw [upd_of_ne hm]
    refine (h.owners.drop (fun a => a.1 = n) hin hout).congr (fun _ => Iff.rfl) (fun _ => rfl)
      fun b => ?_
    unfold Pending
    constructor
    · rintro ⟨l, -, hl⟩
      exact .inr ⟨(n, l), rfl, by rw [ptrs_of_some hd, hl]⟩
    · rintro (hf | ⟨⟨m, l⟩, rfl, hl⟩)
      · exact hf.elim
      · exact ⟨l, not_false, by rw [← ptrs_of_some hd, hl]⟩
  · rw [upd_eq_self]

variable (h : Freeing ino k n s d done t)
include h

/-- Pointers that hold nothing need no work. -/
theorem weaken (hle : ∀ l, done l → done' l)
    (hnone : ∀ l, done' l → ¬ done l → ptr s.disk d l = none) : Freeing ino k n s d done' t := by
  refine ⟨⟨h.inv.geo, h.inv.owners.congr (fun _ => Iff.rfl) (fun _ => rfl) fun b => ?_, h.inv.used⟩,
    h.disk, h.mem, h.card, fun l hl hnot => h.top l hl fun hdone => hnot (hle l hdone)⟩
  unfold Pending
  constructor
  · rintro ⟨l, hnot, hp⟩
    exact ⟨l, fun hdone => hnot (hle l hdone), hp⟩
  · rintro ⟨l, hnot, hp⟩
    refine ⟨l, fun hdone => ?_, hp⟩
    rw [hnone l hdone hnot] at hp
    cases hp

theorem congr (hiff : ∀ l, done l ↔ done' l) : Freeing ino k n s d done' t :=
  funext (fun l => propext (hiff l)) ▸ h

/-- A null pointer needs no work. -/
theorem skip (hp : ptr s.disk d p = none) : Freeing ino k n s d (fun l => done l ∨ p.Under l) t :=
  h.weaken (fun _ => .inl) fun _ hl hn => ptr_under (hl.resolve_left hn) hp

/-- The inode's own pointers may be overwritten once done. -/
theorem modify {d' : DiskInode}
    (hd' : ∀ l, l.up = none → ¬ done l → d'.top l = (t.mem.inodes k).d.top l) :
    Freeing ino k n s d done (t.setInode k { t.mem.inodes k with d := d' }) := by
  refine ⟨{ h.inv with }, h.disk, ?_, h.card, fun l hl hnot => ?_⟩
  · have hmem := h.mem
    unfold Store.setInode
    simp only [upd_self]
    rw [hmem]
    simp only [upd_self, upd_idem]
  · simp only [Store.setInode_inodes, upd_self]
    rw [hd' l hl hnot, h.top l hl hnot]

/-- **One block is freed.** -/
theorem wp_blockFree (hs : BlockInv s ino fun _ => False)
    (hd : ino n = some d) (hnot : ¬ done l) (hp : ptr s.disk d l = some b) :
    wp E (blockFree b) (fun _ u => Freeing ino k n s d (fun l' => done l' ∨ l' = l) u) t := by
  have hloose : Pending s d done b := ⟨l, hnot, hp⟩
  have htaken : Taken t.disk b := (h.inv.owners.taken_iff b).mpr (.inr hloose)
  obtain ⟨h1, h2, h3⟩ := htaken
  have hb : b - DATA < NDATA := by omega
  have hcard := card_takenBits_freeBit hb h3
  refine OsLab.wp_blockFree h.inv.geo ⟨h1, h2, h3⟩ ⟨⟨h.inv.geo.set_used_block _, ?_, ?_⟩, ?_,
    ?_, ?_, ?_⟩
  · refine (h.inv.owners.free hloose).congr (fun x => ?_) (fun a => ?_) fun x => ?_
    · rw [taken_freeBit, Nat.add_sub_cancel' h1]
    · -- the map is no index block
      unfold ptrs
      cases hm : upd ino n none a.1 with
      | none => rfl
      | some dm =>
        simp only [Option.bind_some]
        refine congrFun (ptr_congr fun l' c _ hc => ?_) a.2
        have hin : Taken t.disk c := h.inv.taken hm hc
        have := hin.1
        unfold freeBit
        rw [upd_of_ne]
        unfold DATA at this
        unfold NDATA at hb
        omega
    · constructor
      · rintro ⟨l', hnot', hp'⟩
        have hne : l' ≠ l := fun he => hnot' (.inr he)
        refine ⟨?_, l', fun hdone => hnot' (.inl hdone), hp'⟩
        rintro rfl
        exact hne (hs.inj hd hd hp' hp).2
      · rintro ⟨hne, l', hnot', hp'⟩
        refine ⟨l', ?_, hp'⟩
        rintro (hdone | rfl)
        · exact hnot' hdone
        · exact hne (Option.some.inj (hp'.symm.trans hp))
  · have hused := h.inv.used
    have hsub : (t.mem.superblock.used_block - 1).toNat = t.mem.superblock.used_block.toNat - 1 := by
      rw [UInt32.toNat_sub_of_le]
      · rfl
      · rw [UInt32.le_iff_toNat_le, hused, UInt32.toNat_one]
        omega
    change (t.mem.superblock.used_block - 1).toNat = (takenBits (freeBit t.disk (b - DATA))).card
    rw [hsub, hused]
    omega
  · intro c hc
    have hne : c ≠ 1 + (b - DATA) / 32768 := by
      unfold NDATA at hb
      omega
    rw [← h.disk c hc]
    exact upd_of_ne hne
  · exact congrArg (fun m : Mem => { m with
      superblock := { m.superblock with used_block := t.mem.superblock.used_block - 1 } }) h.mem
  · have := h.card
    change (takenBits (freeBit t.disk (b - DATA))).card ≤ _
    omega
  · intro l' hl' hnot'
    exact h.top l' hl' fun hdone => hnot' (.inl hdone)

/-- A pointer to data. -/
theorem wp_freeLeaf (hs : BlockInv s ino fun _ => False) (hd : ino n = some d)
    (hleaf : ∀ l, p.entryOf l = none) (hnot : ∀ l, p.Under l → ¬ done l)
    (hp : ptr s.disk d p = some b) :
    wp E (blockFree b) (fun _ u => Freeing ino k n s d (fun l => done l ∨ p.Under l) u) t :=
  wp_mono (h.wp_blockFree hs hd (hnot p (.inl rfl)) hp) fun _ _ hu => hu.congr fun l =>
    by rw [Loc.under_iff hleaf]

end Freeing

/-! ## The walk -/

/-- A rule for the loop over an index block: what holds with `j` entries
done holds with one more. -/
theorem wp_freeEntries {blk : ℕ} {P : ℕ → FS → Prop} (h0 : P 0 t)
    (hstep : ∀ j < N, ∀ u, P j u → wp E (match ptrVal (word (u.disk blk) j) with
      | some b => each b
      | none => pure ()) (fun _ u' => P (j + 1) u') u) : wp E (freeEntries blk N each) (fun _ u => P N u) t := by
  induction N with
  | zero => exact h0
  | succ N ih =>
    unfold freeEntries
    refine wp_then (ih fun j hj => hstep j (by omega)) ?_
    rintro _ u hu
    simp only [wp_bind, wp_blockData]
    exact hstep N (by omega) u hu

-- a loop over an index block is dealt with by its rule, never by running it
attribute [local irreducible] freeEntries

section Walk

variable (hs : BlockInv s ino fun _ => False) (hd : ino n = some d)

include hs hd

/-- A block of the inode is not in the map. -/
theorem Freeing.disk_ptr (h : Freeing ino k n s d done t) (hp : ptr s.disk d l = some b) :
    t.disk b = s.disk b := by
  refine h.disk b fun hmap => ?_
  have := (hs.taken hd hp).1
  unfold DATA at this
  omega

section

variable {p : Loc} (h : Freeing ino k n s d done t) (hnot : ∀ l, p.Under l → ¬ done l)
  {ent : Fin 1024 → Loc}
include h hnot

/-- **An index block** is freed after what it names. -/
theorem wp_freeUnder (hent : p.Entries ent) (hp : ptr s.disk d p = some b)
    (heach : ∀ {j done u b}, Freeing ino k n s d done u → (∀ l, (ent j).Under l → ¬ done l) →
      ptr s.disk d (ent j) = some b →
      wp E (each b) (fun _ u => Freeing ino k n s d (fun l => done l ∨ (ent j).Under l) u) u) :
    wp E (do
      blockOpen b
      freeEntries b NUM_INDIRECT_BLOCKS each
      blockClose b
      blockFree b) (fun _ u => Freeing ino k n s d (fun l => done l ∨ p.Under l) u) t := by
  have hN : NUM_INDIRECT_BLOCKS = 1024 := rfl
  generalize NUM_INDIRECT_BLOCKS = N at hN ⊢
  simp only [wp_bind, wp_blockOpen]
  refine wp_mono (wp_freeEntries (P := fun m u => Freeing ino k n s d (fun l => done l ∨
    ∃ j : Fin 1024, j < m ∧ p.entryOf l = some j) u) (h.congr fun l => by simp)
    fun m hm u hu => ?_) ?_
  · rw [hN] at hm
    have hptr : ptrVal (word (u.disk b) m) = ptr s.disk d (ent ⟨m, hm⟩) := by
      rw [ptr_of_up (hent.up ⟨m, hm⟩), hp, hu.disk_ptr hs hd hp]
      rfl
    have hmore : ∀ l, ((done l ∨ ∃ j : Fin 1024, j < m ∧ p.entryOf l = some j) ∨ (ent ⟨m, hm⟩).Under l) ↔
        done l ∨ ∃ j : Fin 1024, j < m + 1 ∧ p.entryOf l = some j := fun l => by
      rw [hent.under, exists_lt_succ hm, or_assoc]
    rw [hptr]
    cases hp' : ptr s.disk d (ent ⟨m, hm⟩) with
    | none => exact (hu.skip hp').congr hmore
    | some b' =>
      refine wp_mono (heach hu (fun l hl => ?_) hp') fun _ u' hu' => hu'.congr hmore
      rw [hent.under] at hl
      rintro (hdone | ⟨j, hj, he⟩)
      · exact hnot l (.inr (by rw [hl]; rfl)) hdone
      · rw [← Option.some.inj (hl.symm.trans he)] at hj
        exact lt_irrefl _ hj
  · rintro _ u hu
    simp only [wp_blockClose]
    refine wp_mono (hu.wp_blockFree hs hd (l := p) ?_ hp) fun _ u' hu' => hu'.congr fun l => ?_
    · rintro (hdone | ⟨j, -, he⟩)
      · exact hnot p (.inl rfl) hdone
      · cases Loc.entryOf_self.symm.trans he
    · rw [or_assoc, or_comm (b := l = p)]
      simp only [hN, Fin.is_lt, true_and, Loc.Under, Option.isSome_iff_exists]

/-- An index block of data blocks. -/
theorem wp_freeIndex (hent : p.Entries ent) (hleaf : ∀ j l, (ent j).entryOf l = none)
    (hp : ptr s.disk d p = some b) :
    wp E (freeIndex b) (fun _ u => Freeing ino k n s d (fun l => done l ∨ p.Under l) u) t :=
  wp_freeUnder hs hd h hnot hent hp fun hu hnot hp => hu.wp_freeLeaf hs hd (hleaf _) hnot hp

omit hs hd in
/-- **A pointer of the inode**, which is cleared in the end. -/
theorem wp_freeTop (hup : p.up = none) {walk : ℕ → FSM Unit} {f : DiskInode → DiskInode}
    (hf : ∀ e l, l ≠ p → (f e).top l = e.top l) (hwalk : ∀ {b}, ptr s.disk d p = some b →
      wp E (walk b) (fun _ u => Freeing ino k n s d (fun l => done l ∨ p.Under l) u) t) :
    wp E (match ptrVal ((t.mem.inodes k).d.top p) with
      | some b => walk b >>= fun _ => modifyDisk k f
      | none => pure ()) (fun _ u => Freeing ino k n s d (fun l => done l ∨ p.Under l) u) t := by
  have htop : ptr s.disk d p = ptrVal (d.top p) := ptr_top hup
  rw [h.top p hup (hnot p (.inl rfl)), ← htop]
  cases hp : ptr s.disk d p with
  | none => exact h.skip hp
  | some b =>
    refine wp_then (hwalk hp) fun _ u hu => ?_
    simp only [wp_modifyDisk]
    exact hu.modify fun l _ hn => hf _ l fun he => hn (.inr (.inl he))

end

/-- The direct blocks. -/
theorem wp_freeDirect (h : Freeing ino k n s d (fun _ => False) t) (hN : N ≤ 10) :
    wp E (freeDirect k N)
      (fun _ u => Freeing ino k n s d (fun l => ∃ i : Fin 10, i < N ∧ l = .direct i) u) t := by
  induction N with
  | zero => exact h.congr fun l => by simp
  | succ N ih =>
    have hlt : N < 10 := by omega
    have hleaf : ∀ l, (Loc.direct ⟨N, hlt⟩).entryOf l = none := fun l => by cases l <;> rfl
    unfold freeDirect
    refine wp_then (ih (by omega)) fun _ u hu => ?_
    simp only [wp_bind, wp_getInode]
    rw [dif_pos hlt]
    have hnot : ∀ l, (Loc.direct ⟨N, hlt⟩).Under l → ¬ ∃ i : Fin 10, i < N ∧ l = .direct i := by
      rintro l hl ⟨i, hi, rfl⟩
      rw [Loc.direct.inj ((Loc.under_iff hleaf).mp hl)] at hi
      exact lt_irrefl _ hi
    refine wp_mono (wp_freeTop hu hnot rfl (fun e l hl => ?_) fun hp => hu.wp_freeLeaf hs hd hleaf hnot hp)
      fun _ u' hu' => hu'.congr fun l => by rw [exists_lt_succ hlt, Loc.under_iff hleaf]
    cases l with
    | direct i => exact upd_of_ne fun he => hl (congrArg _ he)
    | _ => rfl

section

variable (h : Freeing ino k n s d done t)
include h

/-- The blocks under the indirect pointer. -/
theorem wp_freeIndirect (hnot : ∀ l, Loc.ind.Under l → ¬ done l) :
    wp E (freeIndirect k) (fun _ u => Freeing ino k n s d (fun l => done l ∨ Loc.ind.Under l) u) t := by
  unfold freeIndirect
  simp only [wp_bind, wp_getInode]
  refine wp_freeTop h hnot rfl (fun e l hl => ?_) fun hp =>
    wp_freeIndex hs hd h hnot Loc.entries_ind (fun j l => by cases l <;> rfl) hp
  cases l with
  | ind => exact absurd rfl hl
  | _ => rfl

/-- The blocks under the double indirect pointer. -/
theorem wp_freeDoubleIndirect (hnot : ∀ l, Loc.dbl.Under l → ¬ done l) :
    wp E (freeDoubleIndirect k) (fun _ u => Freeing ino k n s d (fun l => done l ∨ Loc.dbl.Under l) u) t := by
  unfold freeDoubleIndirect
  simp only [wp_bind, wp_getInode, ← bind_assoc]
  refine wp_freeTop h hnot rfl (fun e l hl => ?_) fun hp => ?_
  · cases l with
    | dbl => exact absurd rfl hl
    | _ => rfl
  · simp only [bind_assoc]
    exact wp_freeUnder hs hd h hnot Loc.entries_dbl hp fun hu hnot hp =>
      wp_freeIndex hs hd hu hnot Loc.entries_dblEnt (fun j l => by cases l <;> rfl) hp

end

end Walk

/-- The inode in slot `k` is gone, and its blocks are free. -/
structure Deleted (ino : ℕ → Option DiskInode) (k n : ℕ) (s t : FS) : Prop where
  inv : BlockInv t (upd ino n none) fun _ => False
  disk : ∀ b, ¬ (1 ≤ b ∧ b < 33) → t.disk b = s.disk b
  card : (takenBits t.disk).card ≤ (takenBits s.disk).card
  mem : ∃ d' : DiskInode, d'.type = 0 ∧ t.mem = { s.mem with
    inodes := upd s.mem.inodes k { s.mem.inodes k with d := d', valid := false }
    superblock := { s.mem.superblock with
      used_block := t.mem.superblock.used_block
      used_inode := s.mem.superblock.used_inode - 1 } }

/-- **`inode_delete`** gives back every block of the inode. -/
theorem wp_inodeDelete (hs : BlockInv s ino fun _ => False) (hd : ino n = some d)
    (hk : (s.mem.inodes k).d = d) :
    wp E (inodeDelete k) (fun _ t => Deleted ino k n s t) s := by
  unfold inodeDelete
  simp only [wp_bind]
  refine wp_mono (wp_freeDirect hs hd (.start hs hd hk) (by decide)) ?_
  rintro _ t1 h1
  refine wp_mono (wp_freeIndirect hs hd h1 ?_) ?_
  · rintro l hl ⟨i, -, rfl⟩
    rcases hl with hl | hl <;> cases hl
  rintro _ t2 h2
  refine wp_mono (wp_freeDoubleIndirect hs hd h2 ?_) ?_
  · rintro l hl (⟨i, -, rfl⟩ | hl')
    · rcases hl with hl | hl <;> cases hl
    · cases l <;> simp [Loc.Under, Loc.entryOf] at hl hl'
  · rintro _ t3 h3
    simp only [wp_modifyInode, wp_modifySuperblock]
    have hall : ∀ l : Loc, ((∃ i : Fin 10, i < NUM_DIRECT_BLOCKS ∧ l = .direct i) ∨ Loc.ind.Under l) ∨
        Loc.dbl.Under l := by
      intro l
      cases l with
      | direct i => exact .inl (.inl ⟨i, i.isLt, rfl⟩)
      | ind => exact .inl (.inr (.inl rfl))
      | indEnt j => exact .inl (.inr (.inr rfl))
      | dbl => exact .inr (.inl rfl)
      | dblEnt i => exact .inr (.inr rfl)
      | leaf i j => exact .inr (.inr rfl)
    refine ⟨⟨h3.inv.geo.set_used_inode _, h3.inv.owners.congr (fun _ => Iff.rfl) (fun _ => rfl) ?_,
      h3.inv.used⟩, h3.disk, h3.card, ⟨{ (t3.mem.inodes k).d with type := 0 }, rfl, ?_⟩⟩
    · intro b
      refine ⟨False.elim, ?_⟩
      rintro ⟨l, hnot, -⟩
      exact hnot (hall l)
    · unfold Store.setSuper Store.setInode
      simp only
      rw [h3.mem]
      simp only [upd_self, upd_idem]

end OsLab
