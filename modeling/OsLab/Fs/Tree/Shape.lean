import OsLab.Fs.Dirs.Lookup
import Mathlib.Data.Set.Card
/-!
# The directory tree

The namespace, over what can be seen of the inodes. The directories of the tree, with the parent and
the depth of each, are its `Shape`; `IsTree` says that entries and links agree with it: a directory
begins with `.` and `..`, is named once, in its parent, and its link count is one more than its
sub-directories (two more for the root); a file that is named has one link.

A change of the namespace adds or frees one entry of one directory (`Adds`, `Frees`). What is named
then is a file, or a directory that joins or leaves the tree. -/

namespace OsLab

/-- The inode is a directory. -/
def View.IsDir (v : View) (m : ℕ) : Prop := ∃ nd, v m = some nd ∧ nd.type = FS_TYPE_DIR

/-- Entry `i` of directory `n` names inode `m`. -/
def View.Has (v : View) (n i : ℕ) (nm : Name) (m : ℕ) : Prop :=
  ∃ es, v.dirs n = some es ∧ HasEntry es i nm m

/-- The entries of a directory that name a sub-directory. -/
def View.subs (v : View) (n : ℕ) : Set ℕ := {i | 2 ≤ i ∧ ∃ nm m, v.Has n i nm m ∧ v.IsDir m}

/-- The directories of a tree, with their parents and depths. -/
structure Shape where
  dirs : Set ℕ
  par : ℕ → ℕ
  depth : ℕ → ℕ

/-- The shape with a new directory. -/
def Shape.join (T : Shape) (c p : ℕ) : Shape :=
  ⟨insert c T.dirs, upd T.par c p, upd T.depth c (T.depth p + 1)⟩

/-- The shape without a directory. -/
def Shape.leave (T : Shape) (c : ℕ) : Shape := ⟨T.dirs \ {c}, T.par, T.depth⟩

/-- An entry of the tree other than `.` and `..` names the inode. -/
def Named (v : View) (T : Shape) (m : ℕ) : Prop := ∃ n ∈ T.dirs, ∃ i nm, 2 ≤ i ∧ v.Has n i nm m

/-- **The namespace is a tree.** -/
structure IsTree (v : View) (T : Shape) : Prop where
  root : 1 ∈ T.dirs
  par_root : T.par 1 = 1
  dir : ∀ {n}, n ∈ T.dirs → v.IsDir n
  dot : ∀ {n}, n ∈ T.dirs → v.Has n 0 dotName n
  dotdot : ∀ {n}, n ∈ T.dirs → v.Has n 1 dotDotName (T.par n)
  par_mem : ∀ {n}, n ∈ T.dirs → T.par n ∈ T.dirs
  depth_lt : ∀ {n}, n ∈ T.dirs → n ≠ 1 → T.depth (T.par n) < T.depth n
  live : ∀ {n i nm m}, n ∈ T.dirs → 2 ≤ i → v.Has n i nm m → ∃ nd, v m = some nd
  child : ∀ {n i nm m}, n ∈ T.dirs → 2 ≤ i → v.Has n i nm m → v.IsDir m → m ∈ T.dirs ∧ m ≠ 1 ∧
    T.par m = n
  file : ∀ {n i nm m nd}, n ∈ T.dirs → 2 ≤ i → v.Has n i nm m → v m = some nd →
    nd.type ≠ FS_TYPE_DIR → nd.link_count = 1
  named : ∀ {n}, n ∈ T.dirs → n ≠ 1 → ∃ i nm, 2 ≤ i ∧ v.Has (T.par n) i nm n
  once : ∀ {n i j nm nm' m}, n ∈ T.dirs → 2 ≤ i → 2 ≤ j → v.Has n i nm m → v.Has n j nm' m →
    m ∈ T.dirs → i = j
  links : ∀ {n nd}, n ∈ T.dirs → v n = some nd →
    nd.link_count.toNat = (v.subs n).ncard + if n = 1 then 2 else 1

/-- Inodes outside the tree have no links, and are held by a reference. -/
def Accounted (v : View) (T : Shape) (R : Multiset Ref) : Prop :=
  ∀ m nd, v m = some nd → m ∈ T.dirs ∨ Named v T m ∨ nd.link_count = 0 ∧ ∃ k, (k, m) ∈ R

variable {v v' : View} {T : Shape} {n m p c i : ℕ} {nd nd' : Node} {es : Entries} {nm nm' : Name}

theorem View.dirs_eq_some :
    v.dirs n = some es ↔ ∃ nd, v n = some nd ∧ nd.type = FS_TYPE_DIR ∧ nd.entries = es := by
  unfold View.dirs
  cases v n with
  | none => simp
  | some nd => by_cases h : nd.type = FS_TYPE_DIR <;> simp [h]

theorem View.Has.isDir (h : v.Has n i nm m) : v.IsDir n := by
  obtain ⟨es, hes, -⟩ := h
  obtain ⟨nd, hv, ht, -⟩ := View.dirs_eq_some.mp hes
  exact ⟨nd, hv, ht⟩

/-- The entry of an index is one. -/
theorem View.Has.unique {m' : ℕ} (h : v.Has n i nm m) (h' : v.Has n i nm' m') :
    nm = nm' ∧ m = m' := by
  obtain ⟨es, hes, he⟩ := h
  obtain ⟨es', hes', he'⟩ := h'
  cases hes.symm.trans hes'
  have := he.symm.trans he'
  simp only [Option.some.injEq, Prod.mk.injEq] at this
  exact this

theorem View.has_iff (hes : v.dirs n = some es) : v.Has n i nm m ↔ HasEntry es i nm m := by
  constructor
  · rintro ⟨es', hes', he⟩
    cases hes.symm.trans hes'
    exact he
  · exact fun he => ⟨es, hes, he⟩

theorem View.has_congr (h : v' n = v n) : v'.Has n i nm m ↔ v.Has n i nm m := by
  unfold View.Has View.dirs
  rw [h]

theorem View.subs_finite : (v.subs n).Finite := by
  cases hes : v.dirs n with
  | none =>
    refine Set.Finite.subset Set.finite_empty ?_
    rintro i ⟨-, nm, m, ⟨es, hes', -⟩, -⟩
    rw [hes] at hes'
    cases hes'
  | some es =>
    refine (Set.finite_Iio es.length).subset ?_
    rintro i ⟨-, nm, m, hh, -⟩
    exact ((View.has_iff hes).mp hh).lt

namespace IsTree

/-! ## What a tree has -/

variable (h : IsTree v T)
include h

theorem node (hn : n ∈ T.dirs) :
    ∃ nd, v n = some nd ∧ nd.type = FS_TYPE_DIR ∧ nd.link_count ≠ 0 := by
  obtain ⟨nd, hv, ht⟩ := h.dir hn
  refine ⟨nd, hv, ht, fun hz => ?_⟩
  have hlinks := h.links hn hv
  rw [hz] at hlinks
  change 0 = _ at hlinks
  split at hlinks <;> omega

/-- What an entry of the tree names is in the tree or a named file, and has links. -/
theorem entry (hn : n ∈ T.dirs) (he : v.Has n i nm m) :
    (m ∈ T.dirs ∨ Named v T m) ∧ ∃ nd, v m = some nd ∧ nd.link_count ≠ 0 := by
  have hdir : m ∈ T.dirs → (m ∈ T.dirs ∨ Named v T m) ∧ ∃ nd, v m = some nd ∧
      nd.link_count ≠ 0 := by
    intro hm
    obtain ⟨nd, hv, -, hl⟩ := h.node hm
    exact ⟨.inl hm, nd, hv, hl⟩
  by_cases hi : 2 ≤ i
  · obtain ⟨nd, hv⟩ := h.live hn hi he
    by_cases ht : nd.type = FS_TYPE_DIR
    · exact hdir (h.child hn hi he ⟨nd, hv, ht⟩).1
    · refine ⟨.inr ⟨n, hn, i, nm, hi, he⟩, nd, hv, ?_⟩
      rw [h.file hn hi he hv ht]
      decide
  · rcases (by omega : i = 0 ∨ i = 1) with rfl | rfl
    · obtain ⟨-, rfl⟩ := he.unique (h.dot hn)
      exact hdir hn
    · obtain ⟨-, rfl⟩ := he.unique (h.dotdot hn)
      exact hdir (h.par_mem hn)

theorem mem_of_named (hm : Named v T m) (hd : v.IsDir m) : m ∈ T.dirs := by
  obtain ⟨n, hn, i, nm, hi, he⟩ := hm
  exact (h.child hn hi he hd).1

/-- What a change keeps: entries of the directories of the tree are the same, and so are the types
and links of the inodes that they name. -/
theorem congr (hhas : ∀ {n i nm m}, n ∈ T.dirs → (v'.Has n i nm m ↔ v.Has n i nm m))
    (hnode : ∀ {m}, m ∈ T.dirs ∨ Named v T m → ∃ nd nd', v m = some nd ∧ v' m = some nd' ∧
      nd'.type = nd.type ∧
      nd'.link_count = nd.link_count) : IsTree v' T := by
  have hdir : ∀ {m}, m ∈ T.dirs ∨ Named v T m → (v'.IsDir m ↔ v.IsDir m) := by
    intro m hm
    obtain ⟨nd, nd', hv, hv', ht, -⟩ := hnode hm
    unfold View.IsDir
    simp [hv, hv', ht]
  have hsubs : ∀ {n}, n ∈ T.dirs → v'.subs n = v.subs n := by
    intro n hn
    ext i
    refine and_congr_right fun hi => exists_congr fun nm => exists_congr fun m => ?_
    rw [hhas hn]
    exact and_congr_right fun he => hdir (.inr ⟨n, hn, i, nm, hi, he⟩)
  refine ⟨h.root, h.par_root, fun hn => (hdir (.inl hn)).mpr (h.dir hn),
    fun hn => (hhas hn).mpr (h.dot hn),
    fun hn => (hhas hn).mpr (h.dotdot hn), h.par_mem, h.depth_lt, fun hn hi he => ?_,
      fun hn hi he hd => ?_,
    fun {n i nm m nd} hn hi he hv ht => ?_, fun hn h1 => ?_, fun hn hi hj he he' => ?_,
      fun {n nd} hn hv => ?_⟩
  · rw [hhas hn] at he
    obtain ⟨nd, nd', -, hv', -⟩ := hnode (.inr ⟨_, hn, _, _, hi, he⟩)
    exact ⟨nd', hv'⟩
  · rw [hhas hn] at he
    exact h.child hn hi he ((hdir (.inr ⟨_, hn, _, _, hi, he⟩)).mp hd)
  · rw [hhas hn] at he
    obtain ⟨nd0, nd', hv0, hv', htype, hlink⟩ := hnode (.inr ⟨_, hn, _, _, hi, he⟩)
    obtain rfl : nd = nd' := Option.some.inj (hv.symm.trans hv')
    rw [hlink]
    exact h.file hn hi he hv0 fun hd => ht (htype.trans hd)
  · obtain ⟨i, nm, hi, he⟩ := h.named hn h1
    exact ⟨i, nm, hi, (hhas (h.par_mem hn)).mpr he⟩
  · rw [hhas hn] at he he'
    exact h.once hn hi hj he he'
  · obtain ⟨nd0, nd', hv0, hv', -, hlink⟩ := hnode (.inl hn)
    obtain rfl : nd = nd' := Option.some.inj (hv.symm.trans hv')
    rw [hlink, hsubs hn]
    exact h.links hn hv0

end IsTree

/-! ## One more entry -/

/-- Entry `i` of directory `p` was free, and names inode `m` now. -/
structure Adds (v v' : View) (p i : ℕ) (nm : Name) (m : ℕ) : Prop where
  two : 2 ≤ i
  ne : m ≠ p
  free : ∀ nm' a, ¬ v.Has p i nm' a
  has : ∀ {x j nm' a}, x ≠ m →
    (v'.Has x j nm' a ↔ v.Has x j nm' a ∨ x = p ∧ j = i ∧ nm' = nm ∧ a = m)
  dir : v'.IsDir p ↔ v.IsDir p
  other : ∀ x, x ≠ p → x ≠ m → v' x = v x

theorem View.dirs_of_node (hv : v n = some nd) (ht : nd.type = FS_TYPE_DIR) :
    v.dirs n = some nd.entries :=
  View.dirs_eq_some.mpr ⟨nd, hv, ht, rfl⟩

/-- Only the directory `p`, which stays one, and the inode `m` change. -/
structure Near (v v' : View) (p m : ℕ) : Prop where
  dir : v'.IsDir p ↔ v.IsDir p
  other : ∀ x, x ≠ p → x ≠ m → v' x = v x

namespace Near

variable {a : ℕ} {nda : Node} (hn : Near v v' p m) (ham : a ≠ m)

include hn ham

theorem isDir : v'.IsDir a ↔ v.IsDir a := by
  by_cases hap : a = p
  · rw [hap]
    exact hn.dir
  · unfold View.IsDir
    rw [hn.other a hap ham]

theorem live (hvp' : v' p = some nd') (hv : ∃ nd, v a = some nd) : ∃ nd, v' a = some nd := by
  by_cases hap : a = p
  · exact ⟨nd', hap ▸ hvp'⟩
  · rw [hn.other a hap ham]
    exact hv

theorem file (hp : v.IsDir p) (hv : v' a = some nda) (ht : nda.type ≠ FS_TYPE_DIR) :
    v a = some nda := by
  rw [← hn.other a ?_ ham]
  · exact hv
  rintro rfl
  obtain ⟨nd1, hv1, ht1⟩ := hn.dir.mpr hp
  cases hv.symm.trans hv1
  exact ht ht1

end Near

theorem View.subs_congr {x : ℕ}
    (h : ∀ j nm a, 2 ≤ j → (v'.Has x j nm a ∧ v'.IsDir a ↔ v.Has x j nm a ∧ v.IsDir a)) :
    v'.subs x = v.subs x := by
  ext j
  exact and_congr_right fun hj => exists_congr fun nm => exists_congr fun a => h j nm a hj

/-- A free entry of a directory was written. -/
theorem Adds.of_put (hv : v p = some nd) (ht : nd.type = FS_TYPE_DIR) (hv' : v' p = some nd')
    (ht' : nd'.type = FS_TYPE_DIR) (hle : i ≤ nd.entries.length)
    (hfree : ∀ nm' a, ¬ HasEntry nd.entries i nm' a)
    (hes : nd'.entries = putEntry nd.entries i (some (nm, m))) (htwo : 2 ≤ i) (hne : m ≠ p)
    (hother : ∀ x, x ≠ p → x ≠ m → v' x = v x) : Adds v v' p i nm m := by
  have hdirs := View.dirs_of_node hv ht
  have hdirs' := View.dirs_of_node hv' ht'
  refine ⟨htwo, hne, fun nm' a he => hfree nm' a ((View.has_iff hdirs).mp he),
    fun {x j nm' a} hx => ?_,
    ⟨fun _ => ⟨nd, hv, ht⟩, fun _ => ⟨nd', hv', ht'⟩⟩, hother⟩
  by_cases hxp : x = p
  · subst hxp
    rw [View.has_iff hdirs', View.has_iff hdirs, hes, hasEntry_putEntry hle, or_comm]
    refine or_congr ⟨fun he => he.2, fun he => ⟨?_, he⟩⟩ ?_
    · rintro rfl
      exact hfree nm' a he
    · simp [eq_comm]
  · rw [View.has_congr (hother x hxp hx)]
    simp [hxp]

/-- Entry `i` of directory `p` named inode `m`, and is free now. -/
structure Frees (v v' : View) (p i : ℕ) (nm : Name) (m : ℕ) : Prop where
  two : 2 ≤ i
  ne : m ≠ p
  was : v.Has p i nm m
  has : ∀ {x j nm' a}, x ≠ m → (v'.Has x j nm' a ↔ v.Has x j nm' a ∧ ¬ (x = p ∧ j = i))
  dir : v'.IsDir p ↔ v.IsDir p
  other : ∀ x, x ≠ p → x ≠ m → v' x = v x

/-- An entry of a directory was freed. -/
theorem Frees.of_put (hv : v p = some nd) (ht : nd.type = FS_TYPE_DIR) (hv' : v' p = some nd')
    (ht' : nd'.type = FS_TYPE_DIR) (hwas : HasEntry nd.entries i nm m)
    (hes : nd'.entries = putEntry nd.entries i none) (htwo : 2 ≤ i) (hne : m ≠ p)
    (hother : ∀ x, x ≠ p → x ≠ m → v' x = v x) : Frees v v' p i nm m := by
  have hdirs := View.dirs_of_node hv ht
  have hdirs' := View.dirs_of_node hv' ht'
  refine ⟨htwo, hne, (View.has_iff hdirs).mpr hwas, fun {x j nm' a} hx => ?_,
    ⟨fun _ => ⟨nd, hv, ht⟩, fun _ => ⟨nd', hv', ht'⟩⟩, hother⟩
  by_cases hxp : x = p
  · subst hxp
    rw [View.has_iff hdirs', View.has_iff hdirs, hes, hasEntry_putEntry hwas.lt.le]
    simp [and_comm]
  · rw [View.has_congr (hother x hxp hx)]
    simp [hxp]

namespace Frees

variable (hf : Frees v v' p i nm m)

include hf

theorem near : Near v v' p m := ⟨hf.dir, hf.other⟩

variable {x : ℕ}

theorem isDir (hx : x ≠ m) : v'.IsDir x ↔ v.IsDir x := hf.near.isDir hx

/-- An entry that does not name `m` is kept. -/
theorem keep {j a : ℕ} (hx : x ≠ m) (h : v.Has x j nm' a) (ham : a ≠ m) : v'.Has x j nm' a := by
  refine (hf.has hx).mpr ⟨h, ?_⟩
  rintro ⟨rfl, rfl⟩
  exact ham (h.unique hf.was).2

/-- The sub-directories of a directory that has none at `m`. -/
theorem subs_eq (hx : x ≠ m)
    (hentry : ∀ {j nm' a}, 2 ≤ j → v'.Has x j nm' a → a ≠ m ∧ v.Has x j nm' a)
    (hm : ∀ {j nm'}, 2 ≤ j → v.Has x j nm' m → ¬ v.IsDir m) : v'.subs x = v.subs x := by
  refine View.subs_congr fun j nm' a hj => ⟨?_, ?_⟩
  · rintro ⟨he, hd⟩
    obtain ⟨ham, he⟩ := hentry hj he
    exact ⟨he, (hf.isDir ham).mp hd⟩
  · rintro ⟨he, hd⟩
    have ham : a ≠ m := by
      rintro rfl
      exact hm hj he hd
    exact ⟨hf.keep hx he ham, (hf.isDir ham).mpr hd⟩

/-- The directory has one sub-directory less. -/
theorem ncard_subs (hd : v.IsDir m)
    (hentry : ∀ {j nm' a}, 2 ≤ j → v'.Has p j nm' a → a ≠ m ∧ v.Has p j nm' a) (honce : ∀ {j nm'},
      2 ≤ j → v.Has p j nm' m → j = i) : (v.subs p).ncard = (v'.subs p).ncard + 1 := by
  have hsubs : v.subs p = insert i (v'.subs p) := by
    ext j
    simp only [View.subs, Set.mem_ofPred_eq, Set.mem_insert_iff]
    constructor
    · rintro ⟨hj, nm', a, he, hd⟩
      by_cases ham : a = m
      · exact .inl (honce hj (ham ▸ he))
      · exact .inr ⟨hj, nm', a, hf.keep hf.ne.symm he ham, (hf.isDir ham).mpr hd⟩
    · rintro (rfl | ⟨hj, nm', a, he, hd⟩)
      · exact ⟨hf.two, nm, m, hf.was, hd⟩
      · obtain ⟨ham, he⟩ := hentry hj he
        exact ⟨hj, nm', a, he, (hf.isDir ham).mp hd⟩
  have hi : i ∉ v'.subs p := by
    rintro ⟨-, nm', a, he, -⟩
    exact ((hf.has hf.ne.symm).mp he).2 ⟨rfl, rfl⟩
  rw [hsubs, Set.ncard_insert_of_notMem hi v'.subs_finite]

end Frees

namespace Adds

variable (ha : Adds v v' p i nm m)

include ha

theorem near : Near v v' p m := ⟨ha.dir, ha.other⟩

variable {x : ℕ} {nm' : Name}

theorem isDir (hx : x ≠ m) : v'.IsDir x ↔ v.IsDir x := ha.near.isDir hx

theorem keep {j a : ℕ} (hx : x ≠ m) (h : v.Has x j nm' a) : v'.Has x j nm' a :=
  (ha.has hx).mpr (.inl h)

/-- An entry that is not the new one was there. -/
theorem old {j a : ℕ} (hx : x ≠ m) (h : v'.Has x j nm' a) (ham : a ≠ m) : v.Has x j nm' a := by
  rcases (ha.has hx).mp h with h | ⟨-, -, -, rfl⟩
  · exact h
  · exact absurd rfl ham

/-- The other way round, the entry is freed. -/
theorem frees : Frees v' v p i nm m := by
  refine ⟨ha.two, ha.ne, (ha.has ha.ne.symm).mpr (.inr ⟨rfl, rfl, rfl, rfl⟩),
    fun hx => ⟨fun he => ⟨ha.keep hx he, ?_⟩, ?_⟩,
    ha.dir.symm, fun x hxp hxm => (ha.other x hxp hxm).symm⟩
  · rintro ⟨rfl, rfl⟩
    exact ha.free _ _ he
  · rintro ⟨he, hne⟩
    exact ((ha.has hx).mp he).resolve_right fun hnew => hne ⟨hnew.1, hnew.2.1⟩

end Adds

namespace IsTree

/-- **A file is named by one more entry.** It is new, or it was a file already. -/
theorem addFile (h : IsTree v T) (ha : Adds v v' p i nm m) (hp : p ∈ T.dirs) (hvp : v p = some nd)
    (hvp' : v' p = some nd') (hlink : nd'.link_count = nd.link_count) {ndm : Node}
    (hvm : v' m = some ndm) (hfile : ndm.type ≠ FS_TYPE_DIR) (hone : ndm.link_count = 1)
    (hold : ¬ v.IsDir m) : IsTree v' T := by
  have hmT : ∀ {x}, x ∈ T.dirs → x ≠ m := by
    rintro x hx rfl
    exact hold (h.dir hx)
  have hnew : ¬ v'.IsDir m := by
    rintro ⟨nd1, hv1, ht1⟩
    cases hvm.symm.trans hv1
    exact hfile ht1
  refine ⟨h.root, h.par_root, fun hx => (ha.isDir (hmT hx)).mpr (h.dir hx),
    fun hx => ha.keep (hmT hx) (h.dot hx),
    fun hx => ha.keep (hmT hx) (h.dotdot hx), h.par_mem, h.depth_lt, fun {x j nm' a} hx hj he => ?_,
    fun {x j nm' a} hx hj he hd => ?_, fun {x j nm' a nda} hx hj he hv ht => ?_, fun hx h1 => ?_,
    fun {x j j' nm1 nm2 a} hx hj hj' he he' haT => ?_, fun {x ndx} hx hv => ?_⟩
  · by_cases ham : a = m
    · exact ⟨ndm, ham ▸ hvm⟩
    · exact ha.near.live ham hvp' (h.live hx hj (ha.old (hmT hx) he ham))
  · have ham : a ≠ m := by
      rintro rfl
      exact hnew hd
    exact h.child hx hj (ha.old (hmT hx) he ham) ((ha.isDir ham).mp hd)
  · by_cases ham : a = m
    · subst ham
      cases hvm.symm.trans hv
      exact hone
    · exact h.file hx hj (ha.old (hmT hx) he ham) (ha.near.file ham (h.dir hp) hv ht) ht
  · obtain ⟨j, nm', hj, he⟩ := h.named hx h1
    exact ⟨j, nm', hj, ha.keep (hmT (h.par_mem hx)) he⟩
  · have ham := hmT haT
    exact h.once hx hj hj' (ha.old (hmT hx) he ham) (ha.old (hmT hx) he' ham) haT
  · have hsubs : v'.subs x = v.subs x := by
      refine View.subs_congr fun j nm' a hj => ?_
      by_cases ham : a = m
      · rw [ham]
        exact ⟨fun hd => absurd hd.2 hnew, fun hd => absurd hd.2 hold⟩
      · rw [ha.isDir ham]
        exact and_congr_left fun _ => ⟨fun he => ha.old (hmT hx) he ham, ha.keep (hmT hx)⟩
    rw [hsubs]
    by_cases hxp : x = p
    · subst hxp
      cases hv.symm.trans hvp'
      rw [hlink]
      exact h.links hx hvp
    · rw [ha.other x hxp (hmT hx)] at hv
      exact h.links hx hv

/-- **A new directory joins the tree.** -/
theorem addDir (h : IsTree v T) (ha : Adds v v' p i nm c) (hp : p ∈ T.dirs) (hvp : v p = some nd)
    (hvp' : v' p = some nd') (hlink : nd'.link_count.toNat = nd.link_count.toNat + 1)
    (hnew : v c = none) {ndc : Node} (hvc : v' c = some ndc) (htype : ndc.type = FS_TYPE_DIR)
    (hone : ndc.link_count = 1) (hdots : ∀ j nm' a, v'.Has c j nm' a ↔ j = 0 ∧ nm' = dotName ∧
      a = c ∨ j = 1 ∧ nm' = dotDotName ∧ a = p) :
    IsTree v' (T.join c p) := by
  have hcT : ∀ {x}, x ∈ T.dirs → x ≠ c := by
    rintro x hx rfl
    obtain ⟨nd1, hv1, -⟩ := h.dir hx
    rw [hnew] at hv1
    cases hv1
  -- nothing in the tree named the new inode
  have hunnamed : ∀ {x j nm'}, x ∈ T.dirs → ¬ v.Has x j nm' c := by
    intro x j nm' hx he
    obtain ⟨-, nd1, hv1, -⟩ := h.entry hx he
    rw [hnew] at hv1
    cases hv1
  have hcdir : v'.IsDir c := ⟨ndc, hvc, htype⟩
  have h1c : (1 : ℕ) ≠ c := hcT h.root
  have hpc : p ≠ c := hcT hp
  have hpar : ∀ {x}, x ∈ T.dirs → (T.join c p).par x = T.par x := fun hx => upd_of_ne (hcT hx)
  have hdepth : ∀ {x}, x ∈ T.dirs → (T.join c p).depth x = T.depth x := fun hx => upd_of_ne (hcT hx)
  have hparc : (T.join c p).par c = p := upd_self
  have hbare : ∀ {j nm' a}, 2 ≤ j → ¬ v'.Has c j nm' a := by
    intro j nm' a hj he
    rcases (hdots j nm' a).mp he with ⟨rfl, -⟩ | ⟨rfl, -⟩ <;> omega
  have hcsubs : v'.subs c = ∅ := by
    ext j
    simp only [View.subs, Set.mem_ofPred_eq, Set.mem_empty_iff_false, iff_false, not_and,
      not_exists]
    exact fun hj nm' a he => absurd he (hbare hj)
  -- an entry of an old directory is the new one or was there
  have hentry : ∀ {x j nm' a}, x ∈ T.dirs → v'.Has x j nm' a → x = p ∧ j = i ∧ a = c ∨ a ≠ c ∧
      v.Has x j nm' a := by
    intro x j nm' a hx he
    rcases (ha.has (hcT hx)).mp he with he | ⟨rfl, rfl, -, rfl⟩
    · refine .inr ⟨?_, he⟩
      rintro rfl
      exact hunnamed hx he
    · exact .inl ⟨rfl, rfl, rfl⟩
  have hkeep : ∀ {x j nm' a}, x ∈ T.dirs → v.Has x j nm' a → a ≠ c ∧ v'.Has x j nm' a := by
    refine fun hx he => ⟨?_, ha.keep (hcT hx) he⟩
    rintro rfl
    exact hunnamed hx he
  refine ⟨.inr h.root, ?_, ?_, ?_, ?_, ?_, ?_, ?_, ?_, ?_, ?_, ?_, ?_⟩
  · rw [hpar h.root]
    exact h.par_root
  · rintro x (rfl | hx)
    · exact hcdir
    · exact (ha.isDir (hcT hx)).mpr (h.dir hx)
  · rintro x (rfl | hx)
    · exact (hdots _ _ _).mpr (.inl ⟨rfl, rfl, rfl⟩)
    · exact ha.keep (hcT hx) (h.dot hx)
  · rintro x (rfl | hx)
    · rw [hparc]
      exact (hdots _ _ _).mpr (.inr ⟨rfl, rfl, rfl⟩)
    · rw [hpar hx]
      exact ha.keep (hcT hx) (h.dotdot hx)
  · rintro x (rfl | hx)
    · rw [hparc]
      exact .inr hp
    · rw [hpar hx]
      exact .inr (h.par_mem hx)
  · rintro x (rfl | hx) hx1
    · rw [hparc, hdepth hp]
      simp only [Shape.join, upd_self]
      omega
    · rw [hpar hx, hdepth hx, hdepth (h.par_mem hx)]
      exact h.depth_lt hx hx1
  · rintro x j nm' a (rfl | hx) hj he
    · exact absurd he (hbare hj)
    · rcases hentry hx he with ⟨-, -, rfl⟩ | ⟨hac, he⟩
      · exact ⟨ndc, hvc⟩
      · exact ha.near.live hac hvp' (h.live hx hj he)
  · rintro x j nm' a (rfl | hx) hj he hd
    · exact absurd he (hbare hj)
    · rcases hentry hx he with ⟨rfl, -, rfl⟩ | ⟨hac, he⟩
      · exact ⟨.inl rfl, h1c.symm, hparc⟩
      · obtain ⟨haT, ha1, hpa⟩ := h.child hx hj he ((ha.isDir hac).mp hd)
        exact ⟨.inr haT, ha1, by rw [hpar haT]; exact hpa⟩
  · rintro x j nm' a nda (rfl | hx) hj he hv ht
    · exact absurd he (hbare hj)
    · rcases hentry hx he with ⟨-, -, rfl⟩ | ⟨hac, he⟩
      · cases hvc.symm.trans hv
        exact absurd htype ht
      · exact h.file hx hj he (ha.near.file hac (h.dir hp) hv ht) ht
  · rintro x (rfl | hx) hx1
    · rw [hparc]
      exact ⟨i, nm, ha.two, (ha.has hpc).mpr (.inr ⟨rfl, rfl, rfl, rfl⟩)⟩
    · obtain ⟨j, nm', hj, he⟩ := h.named hx hx1
      rw [hpar hx]
      exact ⟨j, nm', hj, ha.keep (hcT (h.par_mem hx)) he⟩
  · rintro x j j' nm1 nm2 a (rfl | hx) hj hj' he he' haT
    · exact absurd he (hbare hj)
    · rcases hentry hx he with ⟨-, rfl, rfl⟩ | ⟨hac, he⟩
      · rcases hentry hx he' with ⟨-, rfl, -⟩ | ⟨hac, -⟩
        · rfl
        · exact absurd rfl hac
      · rcases hentry hx he' with ⟨-, -, rfl⟩ | ⟨-, he'⟩
        · exact absurd rfl hac
        · exact h.once hx hj hj' he he' (haT.resolve_left hac)
  · rintro x ndx (rfl | hx) hv
    · cases hvc.symm.trans hv
      rw [hone, hcsubs, Set.ncard_empty, if_neg h1c.symm]
      rfl
    · by_cases hxp : x = p
      · subst hxp
        cases hv.symm.trans hvp'
        have hsubs := ha.frees.ncard_subs hcdir (fun _ => hkeep hx) fun _ he =>
          (hentry hx he).elim (fun hnew => hnew.2.1) fun hold => absurd rfl hold.1
        rw [hlink, h.links hx hvp, hsubs]
        omega
      · rw [ha.other x hxp (hcT hx)] at hv
        rw [← ha.frees.subs_eq (hcT hx) (fun _ => hkeep hx) fun _ he => (hentry hx he).elim
          (fun hnew => absurd hnew.1 hxp) fun hold => absurd rfl hold.1]
        exact h.links hx hv

/-- Sub-directories are different inodes, so a link count is far from its bound. -/
theorem links_lt (h : IsTree v T) (hrange : ∀ m nd, v m = some nd → m < NUM_INODES)
    (hn : n ∈ T.dirs) (hv : v n = some nd) :
    nd.link_count.toNat < 65535 := by
  have hname : ∀ i ∈ v.subs n, ∃ m, 2 ≤ i ∧ ∃ nm, v.Has n i nm m ∧ v.IsDir m := by
    rintro i ⟨hi, nm, m, he, hd⟩
    exact ⟨m, hi, nm, he, hd⟩
  choose! f hf using hname
  have hcard : (v.subs n).ncard ≤ NUM_INODES := by
    have hle := Set.ncard_le_ncard_of_injOn (s := v.subs n) (t := Set.Iio NUM_INODES) f
      (fun i hi => ?_)
      (fun i hi j hj he => ?_) (Set.finite_Iio _)
    · rwa [Set.ncard_eq_toFinset_card' (Set.Iio NUM_INODES), Set.toFinset_Iio, Nat.card_Iio] at hle
    · obtain ⟨-, nm, -, nd', hv', -⟩ := hf i hi
      exact hrange _ nd' hv'
    · obtain ⟨h2, nm, hhas, hd⟩ := hf i hi
      obtain ⟨h2', nm', hhas', -⟩ := hf j hj
      rw [← he] at hhas'
      exact h.once hn h2 h2' hhas hhas' (h.child hn h2 hhas hd).1
  rw [h.links hn hv]
  unfold NUM_INODES at hcard
  split <;> omega

end IsTree

/-! ## One entry less -/

namespace IsTree

/-- **An entry is freed**, and the directory that it named, if it was one, leaves the tree. What is
left to show is that nothing else in the tree leads to the inode, and the links. -/
theorem remove (h : IsTree v T) (hf : Frees v v' p i nm m) (hp : p ∈ T.dirs)
    (hvp' : v' p = some nd') (hm1 : m ≠ 1) (hpar : ∀ {x}, x ∈ (T.leave m).dirs → T.par x ≠ m)
    (hentry : ∀ {x j nm' a}, x ∈ (T.leave m).dirs → 2 ≤ j → v'.Has x j nm' a → a ≠ m ∧
      v.Has x j nm' a)
    (hlinks : ∀ {x nd}, x ∈ (T.leave m).dirs → v' x = some nd →
      nd.link_count.toNat = (v'.subs x).ncard + if x = 1 then 2 else 1) : IsTree v'
        (T.leave m) := by
  refine ⟨⟨h.root, hm1.symm⟩, h.par_root, fun hx => (hf.isDir hx.2).mpr (h.dir hx.1),
    fun hx => hf.keep hx.2 (h.dot hx.1) hx.2, fun hx => hf.keep hx.2 (h.dotdot hx.1) (hpar hx),
    fun hx => ⟨h.par_mem hx.1, hpar hx⟩, fun hx => h.depth_lt hx.1, fun {x j nm' a} hx hj he => ?_,
    fun {x j nm' a} hx hj he hd => ?_, fun {x j nm' a nda} hx hj he hv ht => ?_,
      fun {x} hx h1 => ?_,
    fun {x j j' nm1 nm2 a} hx hj hj' he he' haT => ?_, hlinks⟩
  · obtain ⟨ham, he⟩ := hentry hx hj he
    exact hf.near.live ham hvp' (h.live hx.1 hj he)
  · obtain ⟨ham, he⟩ := hentry hx hj he
    obtain ⟨haT, ha1, hpa⟩ := h.child hx.1 hj he ((hf.isDir ham).mp hd)
    exact ⟨⟨haT, ham⟩, ha1, hpa⟩
  · obtain ⟨ham, he⟩ := hentry hx hj he
    exact h.file hx.1 hj he (hf.near.file ham (h.dir hp) hv ht) ht
  · obtain ⟨j, nm', hj, he⟩ := h.named hx.1 h1
    exact ⟨j, nm', hj, hf.keep (hpar hx) he hx.2⟩
  · exact h.once hx.1 hj hj' (hentry hx hj he).2 (hentry hx hj' he').2 haT.1

/-- **A file loses its only name.** -/
theorem removeFile (h : IsTree v T) (hf : Frees v v' p i nm m) (hp : p ∈ T.dirs)
    (hvp : v p = some nd) (hvp' : v' p = some nd') (hlink : nd'.link_count = nd.link_count)
    (hfile : ¬ v.IsDir m)
    (honly : ∀ {x j nm'}, x ∈ T.dirs → 2 ≤ j → v.Has x j nm' m → x = p ∧ j = i) : IsTree v' T := by
  have hmT : ∀ {x}, x ∈ T.dirs → x ≠ m := by
    rintro x hx rfl
    exact hfile (h.dir hx)
  have hleave : T.leave m = T := by
    unfold Shape.leave
    rw [Set.sdiff_singleton_eq_self fun hm => hmT hm rfl]
  -- no entry names the file any more
  have hentry : ∀ {x j nm' a}, x ∈ (T.leave m).dirs → 2 ≤ j → v'.Has x j nm' a → a ≠ m ∧
      v.Has x j nm' a := by
    intro x j nm' a hx hj he
    obtain ⟨he, hne⟩ := (hf.has hx.2).mp he
    refine ⟨?_, he⟩
    rintro rfl
    exact hne (honly hx.1 hj he)
  rw [← hleave]
  refine h.remove hf hp hvp' (hmT h.root).symm (fun hx => hmT (h.par_mem hx.1)) hentry
    fun {x ndx} hx hv => ?_
  rw [hf.subs_eq hx.2 (hentry hx) fun _ _ => hfile]
  by_cases hxp : x = p
  · subst hxp
    cases hv.symm.trans hvp'
    rw [hlink]
    exact h.links hx.1 hvp
  · rw [hf.other x hxp hx.2] at hv
    exact h.links hx.1 hv

/-- **An empty directory leaves the tree.** -/
theorem removeDir (h : IsTree v T) (hf : Frees v v' p i nm c) (hp : p ∈ T.dirs)
    (hvp : v p = some nd) (hvp' : v' p = some nd')
    (hlink : nd'.link_count.toNat + 1 = nd.link_count.toNat) (hdir : v.IsDir c)
    (hempty : ∀ j nm' a, 2 ≤ j → ¬ v.Has c j nm' a) : IsTree v' (T.leave c) := by
  obtain ⟨hcT, hc1, hparc⟩ := h.child hp hf.two hf.was hdir
  have hentry : ∀ {x j nm' a}, x ∈ (T.leave c).dirs → 2 ≤ j → v'.Has x j nm' a → a ≠ c ∧
      v.Has x j nm' a := by
    rintro x j nm' a ⟨hxT, hxc⟩ hj he
    obtain ⟨he, hnot⟩ := (hf.has hxc).mp he
    refine ⟨?_, he⟩
    rintro rfl
    obtain ⟨-, -, hpx⟩ := h.child hxT hj he hdir
    obtain rfl : p = x := hparc.symm.trans hpx
    exact hnot ⟨rfl, h.once hxT hj hf.two he hf.was hcT⟩
  refine h.remove hf hp hvp' hc1 (fun {x} hx hpx => ?_) hentry fun {x ndx} hx hv => ?_
  · -- no other directory has the one that leaves as its parent
    by_cases hx1 : x = 1
    · rw [hx1, h.par_root] at hpx
      exact hc1 hpx.symm
    · obtain ⟨j, nm', hj, he⟩ := h.named hx.1 hx1
      rw [hpx] at he
      exact hempty j nm' x hj he
  · obtain ⟨hxT, hxc⟩ := id hx
    by_cases hxp : x = p
    · subst hxp
      cases hv.symm.trans hvp'
      have hsubs := hf.ncard_subs hdir (hentry hx) fun hj he => h.once hxT hj hf.two he hf.was hcT
      have hlinks := h.links hxT hvp
      omega
    · rw [hf.other x hxp hxc] at hv
      rw [hf.subs_eq hxc (hentry hx) fun hj he hd =>
        hxp ((h.child hxT hj he hd).2.2.symm.trans hparc)]
      exact h.links hxT hv

/-- An inode outside the tree may change, come and go. -/
theorem outside (h : IsTree v T) (hm : m ∉ T.dirs) (hun : ¬ Named v T m)
    (hother : ∀ x, x ≠ m → v' x = v x) : IsTree v' T := by
  refine h.congr (fun hn => View.has_congr (hother _ fun he => hm (he ▸ hn))) fun {a} ha => ?_
  have ham : a ≠ m := by
    rintro rfl
    exact ha.elim hm hun
  have hlive : ∃ nd, v a = some nd := by
    rcases ha with ha | ⟨n, hn, i, nm, hi, he⟩
    · obtain ⟨nd, hv, -⟩ := h.dir ha
      exact ⟨nd, hv⟩
    · exact h.live hn hi he
  obtain ⟨nd, hv⟩ := hlive
  exact ⟨nd, nd, hv, by rw [hother a ham]; exact hv, rfl, rfl⟩

end IsTree

end OsLab
