import OsLab.Fs.Dirs.Link
/-!
# Paths

A path is the list of its components, and resolving it is a walk along entries (`Walk`).
`path_resolve` follows the walk one component at a time, holding a reference to where it is. It
changes nothing: the inodes it passes all have links, so dropping the reference to one writes it
back at most. -/

namespace OsLab

open Prog Bytes List

/-! ## Components -/

/-- The components of a path, at most `fuel` of them. -/
def comps : (fuel : ℕ) → Name → List Name
  | 0, _ => []
  | fuel + 1, path =>
    match pathShift path with
    | none => []
    | some (name, rest) => name :: comps fuel rest

/-- **The components of a path.** -/
def components (path : Name) : List Name := comps (path.length + 1) path

variable {path : Name}

theorem pathShift_some {name rest : Name} (h : pathShift path = some (name, rest)) :
    rest.length < path.length ∧ rest.dropWhile (· = 47) = rest ∧ name.Fits ∧ (47 : UInt8) ∉ name ∧
      name ≠ [] := by
  unfold pathShift at h
  dsimp only at h
  have hle := dropWhile_suffix (fun c : UInt8 => decide (c = 47)) (l := path) |>.length_le
  have hfirst := head_dropWhile_not (fun c : UInt8 => decide (c = 47)) (l := path)
  generalize path.dropWhile (fun c => decide (c = 47)) = tail at h hle hfirst
  split at h
  · cases h
  · next hend =>
    cases h
    cases tail with
    | nil => exact absurd (by decide) hend
    | cons c cs =>
      have hc0 : c ≠ 0 := by simpa [strEnd] using hend
      have hc47 : c ≠ 47 := of_decide_eq_false (hfirst (by simp))
      have hlen : 0 < ((c :: cs).takeWhile fun c => decide (c ≠ 47 ∧ c ≠ 0)).length := by
        simp [hc0, hc47]
      have hall : ∀ x ∈ ((c :: cs).takeWhile fun c => decide (c ≠ 47 ∧ c ≠ 0)).take MAX_FILE_NAME,
          x ≠ 47 ∧ x ≠ 0 := by
        intro x hx
        simpa using mem_takeWhile_imp (mem_of_mem_take hx)
      refine ⟨?_, ?_, ⟨length_take_le _ _, fun hx => (hall 0 hx).2 rfl⟩,
        fun hx => (hall 47 hx).1 rfl, fun he => ?_⟩
      · have h1 := (dropWhile_suffix (fun c : UInt8 => decide (c = 47))
          (l := (c :: cs).drop ((c :: cs).takeWhile fun c =>
          decide (c ≠ 47 ∧ c ≠ 0)).length)).length_le
        rw [length_drop] at h1
        have hpos : 0 < (c :: cs).length := Nat.succ_pos _
        omega
      · exact dropWhile_eq_self_iff.mpr fun hl => dropWhile_get_zero_not _ _ hl
      · rw [take_eq_nil_iff] at he
        rcases he with he | he
        · cases he
        · rw [he] at hlen
          exact absurd hlen (by decide)

/-- The rest of a path begins with a component or is at its end. -/
theorem pathShift_rest (h : path.dropWhile (· = 47) = path) :
    pathShift path = none ↔ strEnd path = true := by
  unfold pathShift
  dsimp only
  rw [h]
  split <;> simp [*]

theorem comps_of_le {fuel : ℕ} (h : path.length < fuel) : comps fuel path = components path := by
  have hstep : ∀ (a b : ℕ) (path : Name), path.length < a → path.length < b →
      comps a path = comps b path := by
    intro a
    induction a with
    | zero => exact fun _ _ h => absurd h (by omega)
    | succ a ih =>
      intro b path ha hb
      obtain ⟨b, rfl⟩ : ∃ b', b = b' + 1 := ⟨b - 1, by omega⟩
      unfold comps
      cases hs : pathShift path with
      | none => rfl
      | some c =>
        obtain ⟨name, rest⟩ := c
        have hlt := (pathShift_some hs).1
        simp only [ih b rest (by omega) (by omega)]
  exact hstep _ _ path h (Nat.lt_succ_self _)

theorem components_of_none (h : pathShift path = none) : components path = [] := by
  unfold components comps
  rw [h]

theorem components_of_some {name rest : Name} (h : pathShift path = some (name, rest)) :
    components path = name :: components rest := by
  unfold components
  rw [comps, h]
  simp only [comps_of_le (pathShift_some h).1]
  rfl

/-! ## Walks -/

/-- **A walk along entries**, one for each name. -/
inductive Walk (dirs : ℕ → Option Entries) : ℕ → List Name → ℕ → Prop
  | nil (n : ℕ) : Walk dirs n [] n
  | cons {n m o i : ℕ} {es : Entries} {name : Name} {names : List Name} (hes : dirs n = some es)
      (he : HasEntry es i (Name.trunc name) m) (hw : Walk dirs m names o) :
      Walk dirs n (name :: names) o

variable {dirs : ℕ → Option Entries} {names : List Name} {pid : ℕ}

/-- Where names differ, a walk ends in one place. -/
theorem Walk.unique (hd : ∀ n es, dirs n = some es → NamesDistinct es) {n a b : ℕ}
    (ha : Walk dirs n names a) (hb : Walk dirs n names b) : a = b := by
  induction ha with
  | nil =>
    cases hb
    rfl
  | cons hes he _ ih =>
    cases hb with
    | cons hes' he' hw' =>
      cases hes.symm.trans hes'
      obtain rfl := hd _ _ hes _ _ _ _ _ he he'
      cases he.symm.trans he'
      exact ih hw'

variable {s t u : FS} {ino : ℕ → Option DiskInode} {R : Multiset Ref} {L : Finset ℕ} {p : Option ℕ}
  {k n m i cur : ℕ} {d : DiskInode} {nm name path : Name} {es : Entries} {skip : Bool} {W : Prop}

/-! ## One component -/

/-- A set of inodes that have links, and with a directory all that its entries name. -/
def Hereditary (disk : ℕ → Block) (ino : ℕ → Option DiskInode) (G : ℕ → Prop) : Prop :=
  ∀ n, G n → ∃ d, ino n = some d ∧ d.link_count ≠ 0 ∧
    (d.type = FS_TYPE_DIR → ∀ i nm m, HasEntry (entriesOf disk d) i nm m → G m)

variable {G : ℕ → Prop}

section

variable (h : Hereditary s.disk ino G)
include h

theorem Hereditary.links (hn : G n) : ∃ d, ino n = some d ∧ d.link_count ≠ 0 := by
  obtain ⟨d, hd, hl, -⟩ := h n hn
  exact ⟨d, hd, hl⟩

theorem Hereditary.closed (hn : G n) (hd : ino n = some d) (ht : d.type = FS_TYPE_DIR) :
    Closed ino (entriesOf s.disk d) := by
  intro i nm m he
  obtain ⟨d', hd', -, hall⟩ := h n hn
  cases hd.symm.trans hd'
  exact h.links (hall ht i nm m he)

theorem Hereditary.of_spares (hs : Spares ino ∅ s t) : Hereditary t.disk ino G := by
  intro n hn
  obtain ⟨d, hd, hl, hall⟩ := h n hn
  refine ⟨d, hd, hl, fun ht i nm m he => hall ht i nm m ?_⟩
  rw [hs.entriesOf_eq (Set.notMem_empty n) hd] at he
  exact he

theorem Hereditary.dropped (hn : G n) (R : Multiset Ref) : dropped ino n R = ino := by
  obtain ⟨d, hd, hl⟩ := h.links hn
  exact dropped_of_links hd hl

end

theorem dirsOf_spares (h : Spares ino ∅ s t) : dirsOf t.disk ino = dirsOf s.disk ino :=
  funext fun _ => h.dirsOf_eq (Set.notMem_empty _) rfl

/-- What one component leads to. -/
def Stepped (ino : ℕ → Option DiskInode) (R : Multiset Ref) (L : Finset ℕ) (G : ℕ → Prop)
    (cur n : ℕ) (name : Name) (last : Bool) (s : FS) (r : Step) (t : FS) : Prop :=
  Spares ino ∅ s t ∧
    match r with
    | .stop none => FsInv t ino R L none ∧
        ∀ es, dirsOf s.disk ino n = some es → last = false ∧
        ∀ i m, ¬ HasEntry es i (Name.trunc name) m
    | .stop (some (k, nm)) => FsInv t ino ((cur, n) ::ₘ R) L none ∧ k = cur ∧ nm = name ∧
        last = true ∧
        ∃ es, dirsOf s.disk ino n = some es
    | .next k => last = false ∧ ∃ es i m p, dirsOf s.disk ino n = some es ∧
        HasEntry es i (Name.trunc name) m ∧ G m ∧
        (p = none ∨ p = some k) ∧ FsInv t ino ((k, m) ::ₘ R) L p

/-- **One component of `path_resolve`.** -/
theorem wp_resolveStep (hG : Hereditary s.disk ino G) (hn : G n) (hroom : Room 2 R)
    (h : FsInv s ino ((cur, n) ::ₘ R) L p) (hp : p = none ∨ p = some cur) (hW : cur ∈ L → W) :
    wp (Stops W) (resolveStep skip cur name path)
      (Stepped ino R L G cur n name (skip && strEnd path) s) s := by
  have hcur := Multiset.mem_cons_self (cur, n) R
  obtain ⟨d, hd, hlink⟩ := hG.links hn
  unfold resolveStep
  refine wp_then (h.wp_inodeOpen hcur hp hW) ?_
  rintro _ t ⟨hfree, ht, hsp, hdisk⟩
  have hclose : ∀ {t : FS} (a : Step), FsInv t ino ((cur, n) ::ₘ R) (insert cur L) none →
      wp (Stops W) (do inodeClose cur; pure a)
      (fun r u => r = a ∧ FsInv u ino R L none ∧ Spares ino ∅ t u) t := by
    intro t a ht
    refine wp_then (ht.wp_closeLinked hfree hd hlink) ?_
    exact fun _ u hu => ⟨rfl, hu⟩
  rw [wp_bind, wp_getInode, ht.slot hcur hd]
  split
  · next hfile =>
    refine wp_mono (hclose _ ht) ?_
    rintro _ u ⟨rfl, hu, hsu⟩
    refine ⟨hsp.andThen hsu, hu, fun es hes => ?_⟩
    obtain ⟨d', hd', hdir, -⟩ := dirsOf_eq_some.mp hes
    cases hd.symm.trans hd'
    exact absurd hdir hfile
  · next hdir =>
    rw [not_not] at hdir
    split
    · next hlast =>
      refine wp_then (ht.wp_inodeUnlock (Finset.mem_insert_self cur L)) ?_
      rintro _ u ⟨hu, hsu, -⟩
      rw [Finset.erase_insert hfree] at hu
      exact ⟨hsp.andThen hsu, hu, rfl, rfl, hlast, _, dirsOf_of_dir hd hdir⟩
    · next hlast =>
      rw [Bool.not_eq_true] at hlast
      have hclosed : Closed ino (entriesOf t.disk d) := by
        rw [hdisk]
        exact hG.closed hn hd hdir
      refine wp_then (wp_dirLookup ht hcur hd hdir hclosed hroom.cons) ?_
      rintro r u ⟨hdisk', hsu, hres⟩
      rw [hdisk] at hres
      have hall := hsp.andThen hsu
      rcases r with _ | ⟨next, offset⟩
      · obtain ⟨hnone, hu⟩ := hres
        refine wp_mono (hclose _ hu) ?_
        rintro _ v ⟨rfl, hv, hsv⟩
        refine ⟨hall.andThen hsv, hv, fun es hes => ⟨hlast, ?_⟩⟩
        rw [dirsOf_of_dir hd hdir] at hes
        cases hes
        exact hnone
      · obtain ⟨i, m, -, he, hu⟩ := hres
        have hm : G m := by
          obtain ⟨d', hd', -, hents⟩ := hG n hn
          cases hd.symm.trans hd'
          exact hents hdir i _ m he
        rw [wp_bind]
        rw [Multiset.cons_swap] at hu
        refine wp_mono (hu.wp_closeLinked hfree hd hlink) ?_
        rintro _ v ⟨hv, hsv⟩
        exact ⟨hall.andThen hsv, hlast, _, i, m, _, dirsOf_of_dir hd hdir, he, hm, pend_or _ _, hv⟩

/-! ## The whole path -/

/-- Where `path_resolve` ends: at the end of the walk, or, where it stops before the last component,
at the directory the last component is to be looked up in. -/
def Resolved (ino : ℕ → Option DiskInode) (R : Multiset Ref) (L : Finset ℕ) (G : ℕ → Prop) (n : ℕ)
    (names : List Name) (skip : Bool) (s : FS) (r : Option (ℕ × Name)) (t : FS) : Prop :=
  Spares ino ∅ s t ∧
    match r with
    | none => FsInv t ino R L none ∧
        if skip then ∀ init last m es, names = init ++ [last] → Walk (dirsOf s.disk ino) n init m →
          dirsOf s.disk ino m ≠ some es
        else ∀ m, ¬ Walk (dirsOf s.disk ino) n names m
    | some (k, nm) => ∃ m p, G m ∧ (p = none ∨ p = some k) ∧ FsInv t ino ((k, m) ::ₘ R) L p ∧
        if skip then ∃ init es, names = init ++ [nm] ∧ Walk (dirsOf s.disk ino) n init m ∧
        dirsOf s.disk ino m = some es ∧ p = none
        else Walk (dirsOf s.disk ino) n names m

theorem FsInv.names_distinct (h : FsInv s ino R L p) (hes : dirsOf s.disk ino n = some es) :
    NamesDistinct es := by
  obtain ⟨d, hd, ht, rfl⟩ := dirsOf_eq_some.mp hes
  exact (h.dirs hd ht).names

/-- The first step of a walk is the entry of that name. -/
theorem Walk.uncons (h : FsInv s ino R L p) {o : ℕ} (hes : dirsOf s.disk ino n = some es)
    (he : HasEntry es i (Name.trunc name) m) (hw : Walk (dirsOf s.disk ino) n (name :: names) o) :
    Walk (dirsOf s.disk ino) m names o := by
  cases hw with
  | cons hes' he' hw' =>
    cases hes.symm.trans hes'
    obtain rfl := h.names_distinct hes _ _ _ _ _ he he'
    cases he.symm.trans he'
    exact hw'

/-- Some of the names, but not all, lead to an inode. -/
def Passes (dirs : ℕ → Option Entries) (n : ℕ) (names : List Name) (m : ℕ) : Prop :=
  ∃ init rest, names = init ++ rest ∧ rest ≠ [] ∧ Walk dirs n init m

theorem Passes.cons (hes : dirs n = some es) (he : HasEntry es i (Name.trunc name) m)
    (h : Passes dirs m names k) :
    Passes dirs n (name :: names) k := by
  obtain ⟨init, rest, rfl, hne, hw⟩ := h
  exact ⟨name :: init, rest, rfl, hne, .cons hes he hw⟩

/-- **The loop of `path_resolve`** waits for itself only where it passes an inode whose slot is
locked. -/
theorem wp_resolveFrom (hL : ∀ k ∈ L, ∃ m, (k, m) ∈ R) (hroom : Room 2 R) (skip : Bool) (fuel : ℕ)
    (hG : Hereditary s.disk ino G) (hn : G n) (h : FsInv s ino ((cur, n) ::ₘ R) L p)
    (hp : p = none ∨ p = some cur)
    (hW : ∀ k m, k ∈ L → (k, m) ∈ R → Passes (dirsOf s.disk ino) n (components path) m → W)
    (hfuel : path.length < fuel) :
    wp (Stops W) (resolveFrom skip fuel cur path nm)
      (Resolved ino R L G n (components path) skip s) s := by
  induction fuel generalizing s cur n path nm p with
  | zero => exact absurd hfuel (by omega)
  | succ fuel ih =>
    -- a locked slot has another reference
    have hcur : cur ∈ L → (cur, n) ∈ R := by
      intro hl
      obtain ⟨m, hm⟩ := hL cur hl
      obtain rfl : m = n := (h.inodes.cache.num (Multiset.mem_cons_of_mem hm)).symm.trans
        (h.inodes.cache.num (Multiset.mem_cons_self _ _))
      exact hm
    rw [resolveFrom_succ]
    cases hs : pathShift path with
    | none =>
      rw [components_of_none hs]
      cases skip with
      | false => exact ⟨.refl s, n, p, hn, hp, h, .nil n⟩
      | true =>
        simp only [if_true, wp_bind]
        refine wp_mono (h.wp_inodeDeref hcur fun _ => hG.links hn) ?_
        · rintro _ t ⟨ht, hst⟩
          rw [hG.dropped hn, pendWithout_or hp] at ht
          refine ⟨hst, ht, fun init last m es he => ?_⟩
          simp at he
    | some c =>
      obtain ⟨name, rest⟩ := c
      obtain ⟨hlt, hrest, -⟩ := pathShift_some hs
      rw [components_of_some hs] at hW ⊢
      simp only [wp_bind]
      refine wp_mono (wp_resolveStep hG hn hroom h hp fun hl => ?_) ?_
      · exact hW cur n hl (hcur hl) ⟨[], _, rfl, List.cons_ne_nil _ _, .nil n⟩
      rintro r t ⟨hsp, hres⟩
      have hend : strEnd rest = true ↔ components rest = [] := by
        rw [← pathShift_rest hrest]
        constructor
        · exact components_of_none
        · intro hc
          cases hs' : pathShift rest with
          | none => rfl
          | some c =>
            rw [show components _ = c.1 :: components c.2 from components_of_some hs'] at hc
            cases hc
      rcases r with (_ | ⟨k, nm'⟩) | k
      · obtain ⟨ht, hnone⟩ := hres
        refine ⟨hsp, ht, ?_⟩
        cases skip with
        | false =>
          intro o hw
          cases hw with
          | cons hes he _ => exact (hnone _ hes).2 _ _ he
        | true =>
          intro init last m es he hw hes
          rcases init with _ | ⟨a, init⟩
          · -- the directory is where the walk is
            cases hw
            have hcomp : components rest = [] := (List.cons.inj he).2
            have := (hnone es hes).1
            rw [hend.mpr hcomp] at this
            cases this
          · obtain ⟨rfl, -⟩ := List.cons.inj he
            cases hw with
            | cons hes' he' _ => exact (hnone _ hes').2 _ _ he'
      · obtain ⟨ht, rfl, rfl, hlast, es, hes⟩ := hres
        rw [Bool.and_eq_true] at hlast
        obtain ⟨rfl, hlast⟩ := hlast
        refine ⟨hsp, n, none, hn, .inl rfl, ht, [], es, ?_, .nil n, hes, rfl⟩
        rw [hend.mp hlast]
        rfl
      · obtain ⟨hlast, es, i, m, p', hes, he, hm, hp', ht⟩ := hres
        refine wp_mono (ih (hG.of_spares hsp) hm ht hp' (fun k o hk ho hpass => ?_) (by omega)) ?_
        · rw [dirsOf_spares hsp] at hpass
          exact hW k o hk ho (hpass.cons hes he)
        rintro r u ⟨hsu, hres⟩
        rw [dirsOf_spares hsp] at hres
        refine ⟨hsp.andThen hsu, ?_⟩
        rcases r with _ | ⟨k', nm'⟩
        · obtain ⟨hu, hno⟩ := hres
          refine ⟨hu, ?_⟩
          cases skip with
          | false => exact fun o hw => hno o (hw.uncons h hes he)
          | true =>
            intro init last o es' heq hw hes'
            rcases init with _ | ⟨a, init⟩
            · have hcomp : components rest = [] := (List.cons.inj heq).2
              rw [Bool.true_and, hend.mpr hcomp] at hlast
              cases hlast
            · obtain ⟨rfl, heq'⟩ := List.cons.inj heq
              exact hno init last o es' heq' (hw.uncons h hes he) hes'
        · obtain ⟨o, p'', ho, hp'', hu, hwalk⟩ := hres
          refine ⟨o, p'', ho, hp'', hu, ?_⟩
          cases skip with
          | false => exact .cons hes he hwalk
          | true =>
            obtain ⟨init, es', heq, hw, hes', hpn⟩ := hwalk
            exact ⟨name :: init, es', by rw [heq]; rfl, .cons hes he hw, hes', hpn⟩

/-- **`path_resolve_entry`** ends at the end of the walk. -/
theorem wp_pathResolveEntry (hL : ∀ k ∈ L, ∃ m, (k, m) ∈ R) (hroom : Room 3 R)
    (hG : Hereditary s.disk ino G) (hn : G (startInode s.mem pid path)) (h : FsInv s ino R L none)
    (hW : ∀ k m, k ∈ L → (k, m) ∈ R →
      Passes (dirsOf s.disk ino) (startInode s.mem pid path) (components path) m → W) :
    wp (Stops W) (pathResolveEntry pid path) (fun r t => Spares ino ∅ s t ∧
      match r with
      | none => FsInv t ino R L none ∧
        ∀ m, ¬ Walk (dirsOf s.disk ino) (startInode s.mem pid path) (components path) m
      | some k => ∃ m p, G m ∧ (p = none ∨ p = some k) ∧ FsInv t ino ((k, m) ::ₘ R) L p ∧
          Walk (dirsOf s.disk ino) (startInode s.mem pid path) (components path) m) s := by
  obtain ⟨d, hd, -⟩ := hG.links hn
  unfold pathResolveEntry
  rw [wp_bind, pathResolve_eq]
  simp only [wp_bind, wp_getMem]
  refine wp_mono (h.wp_inodeRef hd (hroom.mono (by omega))) ?_
  rintro cur t ⟨ht, hsp, hdisk⟩
  have hp := pend_or ((cur, startInode s.mem pid path) ∈ R) cur
  split
  · next hend =>
    refine ⟨hsp, _, _, hn, hp, ht, ?_⟩
    have hcomp : components path = [] := by
      refine components_of_none ?_
      unfold pathShift
      cases path with
      | nil => rfl
      | cons c cs =>
        have hc : c = 0 := by simpa [strEnd] using hend
        subst hc
        rfl
    rw [hcomp]
    exact .nil _
  · rw [← dirsOf_spares hsp] at hW
    refine wp_mono (wp_resolveFrom hL (hroom.mono (by omega)) false _ (hG.of_spares hsp) hn ht hp hW
      (Nat.lt_succ_self _)) ?_
    rintro r u ⟨hsu, hres⟩
    rw [dirsOf_spares hsp] at hres
    refine ⟨hsp.andThen hsu, ?_⟩
    rcases r with _ | ⟨k, nm⟩
    · exact hres
    · obtain ⟨m, p, hm, hpm, hu, hw⟩ := hres
      exact ⟨m, p, hm, hpm, hu, hw⟩

/-- The directory and the name that a path with its last component left off stands for: the last
component in the directory where the others lead, and for the path `""` no name in the directory it
starts at. -/
inductive Parent (dirs : ℕ → Option Entries) (start : ℕ) (path : Name) : ℕ → Name → Prop
  | last {init : List Name} {name : Name} {m : ℕ} {es : Entries}
      (hcomp : components path = init ++ [name])
      (hw : Walk dirs start init m) (hes : dirs m = some es) : Parent dirs start path m name
  | here (hend : strEnd path = true) : Parent dirs start path start []

/-- The directory of a path with one component is where it starts. -/
theorem Parent.of_single {dirs : ℕ → Option Entries} {start q : ℕ} {path nm name : Name}
    (h : Parent dirs start path q nm) (hcomp : components path = [name])
    (hend : strEnd path = false) : q = start ∧ nm = name := by
  cases h with
  | here hend' => exact absurd (hend.symm.trans hend') Bool.false_ne_true
  | last hlast hw _ =>
    rw [hcomp] at hlast
    obtain ⟨rfl, hname⟩ := List.append_inj' (show [] ++ [_] = _ from hlast) rfl
    cases hname
    cases hw
    exact ⟨rfl, rfl⟩

/-- **`path_resolve_parent`** ends at the directory of the last component. -/
theorem wp_pathResolveParent (hL : ∀ k ∈ L, ∃ m, (k, m) ∈ R) (hroom : Room 3 R)
    (hG : Hereditary s.disk ino G) (hn : G (startInode s.mem pid path)) (h : FsInv s ino R L none)
    (hW : ∀ k m, k ∈ L → (k, m) ∈ R →
      Passes (dirsOf s.disk ino) (startInode s.mem pid path) (components path) m → W) :
    wp (Stops W) (pathResolveParent pid path) (fun r t => Spares ino ∅ s t ∧
      match r with
      | none => FsInv t ino R L none ∧
        ∀ m name, ¬ Parent (dirsOf s.disk ino) (startInode s.mem pid path) path m name
      | some (k, name) => ∃ m p, G m ∧ (p = none ∨ p = some k) ∧ FsInv t ino ((k, m) ::ₘ R) L p ∧
          Parent (dirsOf s.disk ino) (startInode s.mem pid path) path m name) s := by
  obtain ⟨d, hd, -⟩ := hG.links hn
  unfold pathResolveParent
  rw [pathResolve_eq]
  simp only [wp_bind, wp_getMem]
  refine wp_mono (h.wp_inodeRef hd (hroom.mono (by omega))) ?_
  rintro cur t ⟨ht, hsp, hdisk⟩
  have hp := pend_or ((cur, startInode s.mem pid path) ∈ R) cur
  split
  · next hend => exact ⟨hsp, _, _, hn, hp, ht, .here hend⟩
  · next hend =>
    rw [← dirsOf_spares hsp] at hW
    refine wp_mono (wp_resolveFrom hL (hroom.mono (by omega)) true _ (hG.of_spares hsp) hn ht hp hW
      (Nat.lt_succ_self _)) ?_
    rintro r u ⟨hsu, hres⟩
    rw [dirsOf_spares hsp] at hres
    refine ⟨hsp.andThen hsu, ?_⟩
    rcases r with _ | ⟨k, nm⟩
    · refine ⟨hres.1, ?_⟩
      rintro m name (⟨hcomp, hw, hes⟩ | ⟨hend'⟩)
      · exact hres.2 _ _ _ _ hcomp hw hes
      · exact hend hend'
    · obtain ⟨m, p, hm, hpm, hu, init, es, hcomp, hw, hes, hpn⟩ := hres
      exact ⟨m, p, hm, hpm, hu, .last hcomp hw hes⟩

end OsLab
