import OsLab.Fs.Blocks.Map
import OsLab.Common.Owners
/-!
# The pointers of an inode

The pointers under an inode form a tree of three levels: those in the
inode, the entries of the two index blocks it names, and the entries of
the index blocks these name. `Loc` names a pointer by its place in the
tree and `ptr` is the block it holds. A file's block has the pointer
`dataLoc` of its number; where that holds none, the file has a hole.
-/

namespace OsLab

open Bytes

/-- The place of a pointer. -/
inductive Loc
  | direct (i : Fin 10)
  | ind
  | indEnt (j : Fin 1024)
  | dbl
  | dblEnt (j : Fin 1024)
  | leaf (i j : Fin 1024)
  deriving DecidableEq

namespace Loc

/-- The pointer is to an index block. -/
def isIndex : Loc → Bool
  | ind => true
  | dbl => true
  | dblEnt _ => true
  | direct _ => false
  | indEnt _ => false
  | leaf _ _ => false

/-- The index block an entry is in, and its index there. -/
def up : Loc → Option (Loc × Fin 1024)
  | indEnt j => some (ind, j)
  | dblEnt j => some (dbl, j)
  | leaf i j => some (dblEnt i, j)
  | direct _ => none
  | ind => none
  | dbl => none

section

variable {j : Fin 1024} {l p : Loc} (h : l.up = some (p, j))
include h

theorem isIndex_of_up : p.isIndex = true := by cases l <;> cases h <;> rfl

theorem ne_of_up : l ≠ p := by cases l <;> cases h <;> nofun

theorem up_inj {l' : Loc} (h' : l'.up = some (p, j)) : l = l' := by
  cases l <;> cases h <;> cases l' <;> cases h' <;> rfl

end

/-- The place of a file's block. -/
def data (i : ℕ) : Option Loc :=
  if h : i < 10 then some (direct ⟨i, h⟩)
  else if h : i - 10 < 1024 then some (indEnt ⟨i - 10, h⟩)
  else if h : (i - 1034) / 1024 < 1024 then
    some (leaf ⟨(i - 1034) / 1024, h⟩ ⟨(i - 1034) % 1024, Nat.mod_lt _ (by omega)⟩)
  else none

variable {i : ℕ} {l : Loc}

theorem data_not_index (h : data i = some l) : l.isIndex = false := by
  unfold data at h
  split_ifs at h
  all_goals
    obtain rfl := Option.some.inj h
    rfl

/-- The block of the file that a place is for. -/
def index : Loc → ℕ
  | direct i => i
  | indEnt j => 10 + j
  | leaf i j => 1034 + 1024 * i + j
  | _ => 0

theorem index_data (h : data i = some l) : l.index = i := by
  unfold data at h
  split_ifs at h
  all_goals
    obtain rfl := Option.some.inj h
    simp only [index]
    try omega

/-- Different blocks of a file have different places. -/
theorem data_inj {i' : ℕ} (h : data i = some l) (h' : data i' = some l) : i = i' :=
  (index_data h).symm.trans (index_data h')

theorem exists_data (h : i < 1049610) : ∃ l, data i = some l := by
  unfold data
  split
  · exact ⟨_, rfl⟩
  · split
    · exact ⟨_, rfl⟩
    · rw [dif_pos (by omega)]
      exact ⟨_, rfl⟩

end Loc

/-! ## What a pointer holds -/

/-- The word of a pointer that is in the inode itself. -/
def DiskInode.top (d : DiskInode) : Loc → UInt32
  | .direct i => d.direct i
  | .ind => d.indirect
  | .dbl => d.double_indirect
  | .indEnt _ => ptrNone
  | .dblEnt _ => ptrNone
  | .leaf _ _ => ptrNone

/-- Entry `j` of the index block a pointer holds. -/
def entry (disk : ℕ → Block) (o : Option ℕ) (j : Fin 1024) : Option ℕ :=
  o.bind fun b => ptrVal (word (disk b) j)

/-- The block a pointer holds, if any. -/
def ptr (disk : ℕ → Block) (d : DiskInode) : Loc → Option ℕ
  | .direct i => ptrVal (d.direct i)
  | .ind => ptrVal d.indirect
  | .dbl => ptrVal d.double_indirect
  | .indEnt j => entry disk (ptrVal d.indirect) j
  | .dblEnt j => entry disk (ptrVal d.double_indirect) j
  | .leaf i j => entry disk (entry disk (ptrVal d.double_indirect) i) j

variable {disk disk' : ℕ → Block} {d : DiskInode} {l p : Loc} {j : Fin 1024} {b : ℕ}

theorem ptr_of_up (h : l.up = some (p, j)) : ptr disk d l = entry disk (ptr disk d p) j := by
  cases l <;> cases h <;> rfl

theorem ptr_top (h : l.up = none) : ptr disk d l = ptrVal (d.top l) := by
  cases l <;> cases h <;> rfl

/-- **The tree determines the pointers.** -/
theorem ptr_unique {q : Loc → Option ℕ} (htop : ∀ l, l.up = none → q l = ptrVal (d.top l))
    (hup : ∀ l p j, l.up = some (p, j) → q l = entry disk (q p) j) : ptr disk d = q := by
  funext l
  cases l with
  | direct i => exact (htop (.direct i) rfl).symm
  | ind => exact (htop .ind rfl).symm
  | dbl => exact (htop .dbl rfl).symm
  | indEnt j =>
    rw [hup (.indEnt j) .ind j rfl, htop .ind rfl]
    rfl
  | dblEnt j =>
    rw [hup (.dblEnt j) .dbl j rfl, htop .dbl rfl]
    rfl
  | leaf i j =>
    rw [hup (.leaf i j) (.dblEnt i) j rfl, hup (.dblEnt i) .dbl i rfl, htop .dbl rfl]
    rfl

/-- A card that has the same index blocks has the same pointers. -/
theorem ptr_congr (h : ∀ l b, l.isIndex = true → ptr disk d l = some b → disk' b = disk b) :
    ptr disk' d = ptr disk d := by
  refine ptr_unique (fun l hl => ptr_top hl) fun l p j hl => ?_
  rw [ptr_of_up hl]
  unfold entry
  cases hp : ptr disk d p with
  | none => rfl
  | some b => simp only [Option.bind_some, h p b (Loc.isIndex_of_up hl) hp]

/-! ## Attaching a block -/

/-- An inode with another pointer of its own. -/
def DiskInode.setTop (d : DiskInode) (l : Loc) (w : UInt32) : DiskInode :=
  match l with
  | .direct i => { d with direct := upd d.direct i w }
  | .ind => { d with indirect := w }
  | .dbl => { d with double_indirect := w }
  | .indEnt _ => d
  | .dblEnt _ => d
  | .leaf _ _ => d

theorem top_setTop {w : UInt32} (hl : l.up = none) {l' : Loc} :
    (d.setTop l w).top l' = if l' = l then w else d.top l' := by
  cases l <;> cases hl <;> cases l' <;> simp [DiskInode.setTop, DiskInode.top, upd_apply]

/-- A block whose every entry is empty, if it is to be an index block. -/
def FreshFor (l : Loc) (blk : Block) : Prop :=
  l.isIndex = true → ∀ j : Fin 1024, ptrVal (word blk j) = none

theorem freshFor_fill_zero (h : l.isIndex = false) : FreshFor l (fill 0) := by
  intro h'
  rw [h] at h'
  cases h'

theorem freshFor_fill_ff : FreshFor l (fill 0xff) := by
  intro _ j
  rw [word_fill_ff]
  rfl

/-- **A block attached to the inode itself.** -/
theorem ptr_setTop (hl : l.up = none) (hnone : ptr disk d l = none) (hb : b < 2 ^ 31)
    (hsame : ∀ l b, l.isIndex = true → ptr disk d l = some b → disk' b = disk b)
    (hfresh : FreshFor l (disk' b)) :
    ptr disk' (d.setTop l (UInt32.ofNat b)) = upd (ptr disk d) l (some b) := by
  refine ptr_unique ?_ ?_
  · intro l' hl'
    rw [top_setTop hl, upd_apply]
    split
    · exact (ptrVal_ofNat hb).symm
    · exact ptr_top hl'
  · intro l' p j hl'
    have hne : l' ≠ l := by
      rintro rfl
      rw [hl] at hl'
      cases hl'
    rw [upd_of_ne hne, ptr_of_up hl', upd_apply]
    by_cases hpl : p = l
    · -- nothing was under the pointer, and nothing is in the new block
      subst hpl
      rw [if_pos rfl, hnone]
      exact (hfresh (Loc.isIndex_of_up hl') j).symm
    · rw [if_neg hpl]
      unfold entry
      cases hp : ptr disk d p with
      | none => rfl
      | some c => simp only [Option.bind_some, hsame p c (Loc.isIndex_of_up hl') hp]

/-- **A block attached to an entry of an index block.** -/
theorem ptr_setEntry {blk : ℕ} (hl : l.up = some (p, j)) (hp : ptr disk d p = some blk)
    (hnone : ptr disk d l = none) (hb : b < 2 ^ 31)
    (honly : ∀ l', ptr disk d l' = some blk → l' = p)
    (hsame : ∀ l c, l.isIndex = true → ptr disk d l = some c → c ≠ blk → disk' c = disk c)
    (hword : ∀ i : Fin 1024, word (disk' blk) i = if i = j then UInt32.ofNat b else word (disk blk)
      i) (hfresh : FreshFor l (disk' b)) : ptr disk' d = upd (ptr disk d) l (some b) := by
  refine ptr_unique ?_ ?_
  · intro l' hl'
    have hne : l' ≠ l := by
      rintro rfl
      rw [hl] at hl'
      cases hl'
    rw [upd_of_ne hne]
    exact ptr_top hl'
  · intro l' p' j' hl'
    by_cases hpl : p' = l
    · -- under the new pointer
      subst hpl
      have hne : l' ≠ p' := Loc.ne_of_up hl'
      rw [upd_of_ne hne, upd_self, ptr_of_up hl', hnone]
      exact (hfresh (Loc.isIndex_of_up hl') j').symm
    · rw [upd_of_ne hpl]
      by_cases hpp : p' = p
      · subst hpp
        rw [hp]
        simp only [entry, Option.bind_some, hword]
        by_cases hjj : j' = j
        · subst hjj
          obtain rfl := Loc.up_inj hl' hl
          rw [upd_self, if_pos rfl, ptrVal_ofNat hb]
        · have hne : l' ≠ l := by
            rintro rfl
            rw [hl] at hl'
            exact hjj (Prod.mk.inj (Option.some.inj hl')).2.symm
          rw [upd_of_ne hne, if_neg hjj, ptr_of_up hl', hp]
          rfl
      · have hne : l' ≠ l := by
          rintro rfl
          rw [hl] at hl'
          exact hpp (Prod.mk.inj (Option.some.inj hl')).1.symm
        rw [upd_of_ne hne, ptr_of_up hl']
        unfold entry
        cases hc : ptr disk d p' with
        | none => rfl
        | some c =>
          have hcb : c ≠ blk := by
            rintro rfl
            exact hpp (honly p' hc)
          simp only [Option.bind_some, hsame p' c (Loc.isIndex_of_up hl') hc hcb]

/-! ## The blocks of a file -/

/-- The data block of a file's block. -/
def blockAt (disk : ℕ → Block) (d : DiskInode) (i : ℕ) : Option ℕ := (Loc.data i).bind (ptr disk d)

/-- The contents of a file's block. A hole is full of zeros. -/
def fileBlock (disk : ℕ → Block) (d : DiskInode) (i : ℕ) : Block :=
  match blockAt disk d i with
  | some b => disk b
  | none => fill 0

/-- The byte at a position of a file. -/
def byteAt (disk : ℕ → Block) (d : DiskInode) (p : ℕ) : UInt8 :=
  fileBlock disk d (p / 4096) (p % 4096)

/-- A card that has the same blocks under an inode has the same file. -/
theorem fileBlock_congr (h : ∀ l b, ptr disk d l = some b → disk' b = disk b) (i : ℕ) :
    fileBlock disk' d i = fileBlock disk d i := by
  have hptr : ptr disk' d = ptr disk d := ptr_congr fun l b _ => h l b
  unfold fileBlock blockAt
  rw [hptr]
  cases hd : Loc.data i with
  | none => rfl
  | some l =>
    cases hp : ptr disk d l with
    | none => simp [hp]
    | some b => simp [hp, h l b hp]

end OsLab
