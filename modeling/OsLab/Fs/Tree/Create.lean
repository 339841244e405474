import OsLab.Fs.Dirs.Update
import OsLab.Fs.Dirs.Paths
import OsLab.Fs.Tree.Shape
/-!
# Creating

`path_create` follows the source: the new inode gets its link and, when it is a directory, its two
entries; then its name is put in the parent. When there is no room for an entry the new inode is
dropped with no links, and nothing can be seen of the attempt. -/

namespace OsLab

open Prog Bytes Multiset Finset

variable {s t u : FS} {ino ino' : ℕ → Option DiskInode} {R : Multiset Ref} {L : Finset ℕ}
  {k c n m q i : ℕ} {d d' dn dq : DiskInode} {name : Name} {type : UInt16} {T : Shape} {v v' : View}
  {W : Prop}

/-! ## Giving up -/

/-- **A creation is given up**: the new inode is gone. -/
theorem wp_createFail (h : FsInv s ino ((c, n) ::ₘ (k, q) ::ₘ R) (insert c (insert k L)) none)
    (hc : c ∉ insert k L) (hk : k ∉ L) (hn : ino n = some dn)
    (hunheld : ∀ x ∈ (k, q) ::ₘ R, x.2 ≠ n) (hq : ino q = some dq) (hlink : dq.link_count ≠ 0) :
    wp (Stops W) (createFail c k)
      (fun r t => r = none ∧ FsInv t (upd ino n none) R L none ∧
        Keeps ino {n} s (upd ino n none) t) s := by
  have hqn : q ≠ n := hunheld _ (mem_cons_self (k, q) R)
  unfold createFail
  refine wp_then (h.wp_setLinks (mem_cons_self _ _) hn rfl) ?_
  rintro _ t ⟨ht, hkt, -⟩
  refine wp_then (ht.wp_inodeClose (mem_insert_self c _)) ?_
  rintro _ u ⟨hu, hsu⟩
  rw [dropped_of_free hunheld upd_self rfl, upd_idem, erase_insert hc] at hu
  refine wp_then (hu.wp_closeLinked hk ((upd_of_ne hqn).trans hq) hlink) ?_
  rintro _ w ⟨hw, hsw⟩
  refine ⟨rfl, hw, ⟨?_, fun m hm => upd_of_ne hm⟩⟩
  have htu := hkt.spares.trans (hsu.mono (Set.empty_subset {n})) fun m dm hm hdm =>
    (hkt.same m hm).trans hdm
  exact htu.trans (hsw.mono (Set.empty_subset {n})) fun m dm hm hdm => (upd_of_ne hm).trans hdm

/-! ## The two entries of a directory -/

variable {es : Entries} {nm : Name} {p : Option ℕ}

theorem FirstFree.eq_length (h : FirstFree es i) (hall : ∀ j < es.length, es[j]? ≠ some none) :
    i = es.length := by
  by_contra hne
  have hlt : i < es.length := lt_of_le_of_ne h.le hne
  exact hall i hlt (h.free hlt)

/-- What `.` and `..` make of a new directory. -/
structure Dotted (ino : ℕ → Option DiskInode) (R : Multiset Ref) (L : Finset ℕ) (n q : ℕ) (s : FS)
    (d : DiskInode) (r : Bool) (t : FS) (d' : DiskInode) : Prop where
  inv : FsInv t (upd ino n (some d')) R L none
  spares : Spares ino {n} s t
  type : d'.type = d.type
  link_count : d'.link_count = d.link_count
  done : r = true → entriesOf t.disk d' = [some (dotName, n), some (dotDotName, q)]

theorem wp_linkDots (h : FsInv s ino R L none) (hk : (k, n) ∈ R) (hlock : k ∈ L)
    (hd : ino n = some d) (htype : d.type = FS_TYPE_DIR) (hempty : entriesOf s.disk d = [])
    (hlink : d.link_count ≠ 0) (hq : q ≠ 0 ∧ q < NUM_INODES) (hroom : Room 1 R) :
    wp (Stops W) (linkDots k n q) (fun r t => ∃ d', Dotted ino R L n q s d r t d') s := by
  have hn : n ≠ 0 ∧ n < NUM_INODES := by
    obtain ⟨h1, h2, -⟩ := h.inodes.cache.range hd
    exact ⟨by omega, h2⟩
  unfold linkDots
  refine wp_then (wp_dirLink h hk hlock hd htype ?_ hroom dotName hn) ?_
  · rw [hempty]
    exact fun j nm m he => absurd he.lt (Nat.not_lt_zero j)
  rintro r t ⟨d1, hl⟩
  split
  · exact ⟨d1, hl.inv, hl.spares, hl.type, hl.link_count, nofun⟩
  · next hr =>
    rw [not_not] at hr
    obtain ⟨-, i, hfree, hes⟩ := hl.done hr
    rw [hempty] at hes hfree
    obtain rfl : i = 0 := Nat.le_zero.mp hfree.le
    have hone : entriesOf t.disk d1 = [some (dotName, n)] := hes
    refine wp_then (wp_dirLink hl.inv hk hlock upd_self
      (hl.type.trans htype) ?_ hroom dotDotName hq) ?_
    · rw [hone]
      intro j nm m he
      obtain rfl : j = 0 := Nat.lt_one_iff.mp he.lt
      simp only [HasEntry, List.getElem?_cons_zero, Option.some.injEq, Prod.mk.injEq] at he
      obtain ⟨-, rfl⟩ := he
      exact ⟨d1, upd_self, by rw [hl.link_count]; exact hlink⟩
    · rintro r' u ⟨d2, hl2⟩
      have hinv := hl2.inv
      rw [upd_idem] at hinv
      refine ⟨d2, hinv, hl.spares.trans hl2.spares fun m dm hm hdm => (upd_of_ne hm).trans hdm,
        hl2.type.trans hl.type, hl2.link_count.trans hl.link_count, fun hr' => ?_⟩
      obtain ⟨-, j, hfree2, hes2⟩ := hl2.done (of_decide_eq_true hr')
      rw [hone] at hes2 hfree2
      obtain rfl := hfree2.eq_length fun j hj => by
        obtain rfl : j = 0 := Nat.lt_one_iff.mp hj
        simp
      exact hes2

/-! ## Naming the new inode -/

/-- What a directory of the tree has for `path_create`. -/
structure Parental (s : FS) (ino : ℕ → Option DiskInode) (q : ℕ) (dq : DiskInode) : Prop where
  live : ino q = some dq
  dir : dq.type = FS_TYPE_DIR
  links : dq.link_count ≠ 0
  room : dq.link_count + 1 ≠ 0
  closed : Closed ino (entriesOf s.disk dq)
  two : ∀ i, FirstFree (entriesOf s.disk dq) i → 2 ≤ i

/-- The end of `path_create`: the parent, now `d'`, names the new inode in its first free entry, or
it stores what it stored and the new inode is gone. -/
def CreateEnd (ino : ℕ → Option DiskInode) (R : Multiset Ref) (L : Finset ℕ) (type : UInt16)
    (c n q : ℕ) (name : Name) (s : FS) (dq : DiskInode) (r : Option ℕ) (t : FS)
    (d' : DiskInode) : Prop :=
  (r = none ∧ FsInv t (upd (upd ino q (some d')) n none) R L none ∧
    Keeps ino {q, n} s (upd (upd ino q (some d')) n none) t ∧ nodeOf t.disk d' = nodeOf s.disk dq) ∨
  (r = some c ∧ FsInv t (upd ino q (some d')) ((c, n) ::ₘ R) L none ∧
    Keeps ino {q} s (upd ino q (some d')) t ∧
    d'.type = dq.type ∧ d'.link_count =
      (if type = FS_TYPE_DIR then dq.link_count + 1 else dq.link_count) ∧
    (∀ i m, ¬ HasEntry (entriesOf s.disk dq) i (Name.trunc name) m) ∧
    ∃ i, FirstFree (entriesOf s.disk dq) i ∧
      entriesOf t.disk d' = putEntry (entriesOf s.disk dq) i (some (Name.trunc name, n)))

/-- **The new inode is named**, or given up. -/
theorem wp_createLink (h : FsInv s ino ((c, n) ::ₘ (k, q) ::ₘ R) (insert c (insert k L)) none)
    (hc : c ∉ insert k L) (hk : k ∉ L) (hn : ino n = some dn)
    (hunheld : ∀ x ∈ (k, q) ::ₘ R, x.2 ≠ n) (hq : Parental s ino q dq) (hroom : Room 3 R) :
    wp (Stops W) (createLink type k name c n)
      (fun r t => ∃ d', CreateEnd ino R L type c n q name s dq r t d') s := by
  have hkR : (k, q) ∈ (c, n) ::ₘ (k, q) ::ₘ R := mem_cons_of_mem (mem_cons_self _ _)
  have hkL : k ∈ insert c (insert k L) := mem_insert_of_mem (mem_insert_self k L)
  have hqn : q ≠ n := hunheld _ (mem_cons_self (k, q) R)
  have hck : c ≠ k := fun he => hc (by rw [he]; exact mem_insert_self k L)
  obtain ⟨hn1, hn2, -⟩ := h.inodes.cache.range hn
  unfold createLink
  refine wp_then (wp_dirLink h hkR hkL hq.live hq.dir hq.closed hroom.cons.cons name ⟨by omega,
    hn2⟩) ?_
  rintro r t ⟨d', hl⟩
  have hkeeps : Keeps ino {q} s (upd ino q (some d')) t := .of_upd hl.spares rfl
  split
  · next hr =>
    refine wp_mono (wp_createFail hl.inv hc hk
      ((upd_of_ne (Ne.symm hqn)).trans hn) hunheld upd_self ?_) ?_
    · rw [hl.link_count]
      exact hq.links
    · rintro r' u ⟨rfl, hu, hku⟩
      refine ⟨d', .inl ⟨rfl, hu, (hkeeps.mono (by simp)).trans (hku.mono (by simp)), ?_⟩⟩
      rw [← hl.failed hr]
      exact (hku.spares.others q d' hqn upd_self).nodeOf_eq
  · next hr =>
    rw [not_not] at hr
    obtain ⟨hnew, i, hfree, hes⟩ := hl.done hr
    -- the parent of a directory gets one more link, and the parent of a file is left alone
    let count := if type = FS_TYPE_DIR then dq.link_count + 1 else dq.link_count
    have hcount : count ≠ 0 := by
      simp only [count]
      split
      · exact hq.room
      · exact hq.links
    have hparent : wp (Stops W) (if type = FS_TYPE_DIR then
          modifyDisk k fun d => { d with link_count := d.link_count + 1 } else pure ())
        (fun _ u => FsInv u (upd ino q (some { d' with link_count := count }))
          ((c, n) ::ₘ (k, q) ::ₘ R)
            (insert c (insert k L)) none ∧
          Keeps ino {q} s (upd ino q (some { d' with link_count := count })) u ∧
            u.disk = t.disk) t := by
      split
      · next hT =>
        refine wp_mono (hl.inv.wp_setLinks hkR upd_self rfl) ?_
        rintro _ u ⟨hu, hku, hdisk⟩
        have hc' : count = d'.link_count + 1 := by rw [hl.link_count]; exact if_pos hT
        rw [upd_idem, ← hc'] at hu hku
        exact ⟨hu, hkeeps.trans hku, hdisk⟩
      · next hT =>
        have hc' : count = d'.link_count := by rw [hl.link_count]; exact if_neg hT
        have hd' : { d' with link_count := count } = d' := by rw [hc']
        rw [hd']
        exact ⟨hl.inv, hkeeps, rfl⟩
    refine wp_ite_then hparent ?_
    rintro _ w ⟨hw, hkw, hdisk⟩
    rw [Multiset.cons_swap, Finset.insert_comm] at hw
    refine wp_then (hw.wp_closeLinked (by simp [Ne.symm hck, hk]) upd_self hcount) ?_
    rintro _ u ⟨hu, hsu⟩
    refine wp_then (hu.wp_inodeUnlock (mem_insert_self c L)) ?_
    rintro _ x ⟨hx, hsx, -⟩
    rw [erase_insert fun hcL => hc (mem_insert_of_mem hcL)] at hx
    have hwx := hsu.andThen hsx
    refine ⟨{ d' with link_count := count },
      .inr ⟨rfl, hx, hkw.trans (.of_spares (hwx.mono (Set.empty_subset _))),
      hl.type, rfl, hnew, i, hfree, ?_⟩⟩
    rw [hwx.entriesOf_eq (Set.notMem_empty q) upd_self, hdisk, entriesOf_links]
    exact hes

/-! ## A new inode and its entry -/

/-- Entry `i` of directory `q` names the new inode `n`, which has one link. A directory has its two
entries, and counts in its parent. -/
structure NewEntry (v v' : View) (q i : ℕ) (nm : Name) (n : ℕ) (type : UInt16) : Prop where
  adds : Adds v v' q i nm n
  fresh : v n = none
  unnamed : ∀ j a, ¬ v.Has q j nm a
  parent : ∃ nd nd', v q = some nd ∧ v' q = some nd' ∧
    nd'.link_count = if type = FS_TYPE_DIR then nd.link_count + 1 else nd.link_count
  node : ∃ nd, v' n = some nd ∧ nd.type = type ∧ nd.link_count = 1 ∧
    (type ≠ FS_TYPE_DIR → nd.size = 0)
  dots : type = FS_TYPE_DIR → ∀ j nm' a, v'.Has n j nm' a ↔ j = 0 ∧ nm' = dotName ∧ a = n ∨ j = 1 ∧
    nm' = dotDotName ∧ a = q
  longer : ∀ {nd nd'}, v q = some nd → v' q = some nd' → nd.entries.length ≤ nd'.entries.length

/-- What `path_create` may change: the parent, and numbers that were free. -/
def atCreate (ino : ℕ → Option DiskInode) (q : ℕ) : Set ℕ := {m | m = q ∨ ino m = none}

/-- What `path_create` comes to in directory `q`: nothing that can be seen, or a reference to the
inode of that name and type, which was there or is new. -/
def Created (ino : ℕ → Option DiskInode) (R : Multiset Ref) (L : Finset ℕ) (type : UInt16) (q : ℕ)
    (name : Name) (s : FS) (r : Option ℕ) (t : FS) : Prop :=
  ∃ ino', Keeps ino (atCreate ino q) s ino' t ∧
    match r with
    | none => FsInv t ino' R L none ∧ viewOf t.disk ino' = viewOf s.disk ino
    | some c => ∃ m, FsInv t ino' ((c, m) ::ₘ R) L none ∧
        ((viewOf t.disk ino' = viewOf s.disk ino ∧
            ∃ i nd, (viewOf s.disk ino).Has q i (Name.trunc name) m ∧
            viewOf s.disk ino m = some nd ∧ nd.type = type) ∨
          ∃ i, NewEntry (viewOf s.disk ino) (viewOf t.disk ino') q i (Name.trunc name) m type)

/-- The two entries are written for a directory only. -/
theorem wp_createDots (h : FsInv s ino R L none) (hk : (k, n) ∈ R) (hlock : k ∈ L)
    (hd : ino n = some d) (htype : d.type = type) (hempty : entriesOf s.disk d = [])
    (hlink : d.link_count ≠ 0) (hq : q ≠ 0 ∧ q < NUM_INODES) (hroom : Room 1 R) :
    wp (Stops W) (if type = FS_TYPE_DIR then linkDots k n q else pure true) (fun r t => ∃ d',
      FsInv t (upd ino n (some d')) R L none ∧ Keeps ino {n} s (upd ino n (some d')) t ∧
        d'.type = type ∧
        d'.link_count = d.link_count ∧
        (r = true → type = FS_TYPE_DIR →
          entriesOf t.disk d' = [some (dotName, n), some (dotDotName, q)]) ∧
        (type ≠ FS_TYPE_DIR → d'.size = d.size)) s := by
  split
  · next hT =>
    refine wp_mono (wp_linkDots h hk hlock hd (htype.trans hT) hempty hlink hq hroom) ?_
    rintro r t ⟨d', hdot⟩
    exact ⟨d', hdot.inv, .of_upd hdot.spares rfl, hdot.type.trans htype, hdot.link_count,
      fun hr _ => hdot.done hr,
      fun hne => absurd hT hne⟩
  · next hT =>
    refine ⟨d, ?_, ?_, htype, rfl, fun _ hT' => absurd hT' hT, fun _ => rfl⟩
    · rw [← hd, upd_eq_self]
      exact h
    · rw [← hd, upd_eq_self]
      exact .refl s

theorem hasEntry_dots (hes : es = [some (dotName, n), some (dotDotName, q)]) {j a : ℕ} :
    HasEntry es j nm a ↔ j = 0 ∧ nm = dotName ∧ a = n ∨ j = 1 ∧ nm = dotDotName ∧ a = q := by
  subst hes
  unfold HasEntry
  rcases j with _ | _ | j <;> simp [eq_comm]

/-- **`path_create` with a new inode**, whose number stays used. -/
theorem wp_createNew (hnew : FsInv.New ino ((k, q) ::ₘ R) (insert k L) type n s c t) (hk : k ∉ L)
    (hq : Parental s ino q dq) (hqnum : q ≠ 0 ∧ q < NUM_INODES) (hroom : Room 3 R) :
    wp (Stops W) (createNew type k name c)
      (fun r u => Created ino R L type q name s r u ∧ Seen u.disk n) t := by
  have hcR : (c, n) ∈ (c, n) ::ₘ (k, q) ::ₘ R := mem_cons_self _ _
  have hkR : (k, q) ∈ (c, n) ::ₘ (k, q) ::ₘ R := mem_cons_of_mem (mem_cons_self _ _)
  have hqn : q ≠ n := hnew.unheld _ (mem_cons_self (k, q) R)
  have hmay : ({n} : Set ℕ) ⊆ atCreate ino q := by
    rintro m rfl
    exact .inr hnew.fresh
  have hmay' : ({q, n} : Set ℕ) ⊆ atCreate ino q := by
    rintro m (rfl | rfl)
    · exact .inl rfl
    · exact .inr hnew.fresh
  unfold createNew
  refine wp_then (hnew.inv.wp_inodeOpen hcR (.inr rfl) fun hl =>
    absurd rfl (hnew.inv.inodes.cache.loaded_of_lock hl)) ?_
  rintro _ t1 ⟨hc, h1, hs1, -⟩
  refine wp_then (h1.wp_setLinks hcR upd_self rfl) ?_
  rintro _ t2 ⟨h2, hk2, -⟩
  rw [upd_idem] at h2 hk2
  generalize hd1 : { newInode type n with link_count := 1 } = d1 at h2 hk2
  have hq2 : upd ino n (some d1) q = some dq := (upd_of_ne hqn).trans hq.live
  have hkeeps2 : Keeps ino {n} s (upd ino n (some d1)) t2 :=
    (hnew.keeps.trans (.of_spares (hs1.mono (Set.empty_subset _)))).trans hk2
  rw [wp_bind, wp_getInode, h2.slot hcR upd_self, (h2.inodes.cache.range upd_self).2.2.1, wp_bind,
    wp_getInode,
    h2.slot hkR hq2, (h2.inodes.cache.range hq2).2.2.1]
  refine wp_ite_then (wp_createDots h2 hcR (mem_insert_self c _) upd_self
    (by rw [← hd1]; rfl) ?_ ?_ hqnum
    hroom.cons.cons) ?_
  · rw [← hd1, entriesOf_links, FsInv.entriesOf_newInode]
  · rw [← hd1]
    show (1 : UInt16) ≠ 0
    decide
  rintro dots t3 ⟨d3, h3, hk3, htype3, hlink3, hdots, hsize⟩
  rw [upd_idem] at h3 hk3
  have hq3 : upd ino n (some d3) q = some dq := (upd_of_ne hqn).trans hq.live
  have hkeeps3 : Keeps ino {n} s (upd ino n (some d3)) t3 := hkeeps2.trans hk3
  have hseen3 : Seen t3.disk n := h3.seen upd_self
  have hone : d3.link_count = 1 := by rw [hlink3, ← hd1]
  have hes3 : entriesOf t3.disk dq = entriesOf s.disk dq := hkeeps3.spares.entriesOf_eq hqn hq.live
  have hnode3 : nodeOf t3.disk dq = nodeOf s.disk dq :=
    (hkeeps3.spares.others q dq hqn hq.live).nodeOf_eq
  dsimp only
  split
  · refine wp_mono (wp_createFail h3 hc hk upd_self hnew.unheld hq3 hq.links) ?_
    rintro r u ⟨rfl, hu, hku⟩
    rw [upd_idem] at hu hku
    have hkeeps : Keeps ino {n} s (upd ino n none) u := hkeeps3.trans hku
    refine ⟨⟨_, hkeeps.mono hmay, hu, funext fun m => ?_⟩, hku.spares.seen n hseen3⟩
    by_cases hm : m = n
    · rw [hm, viewOf_none upd_self, viewOf_none hnew.fresh]
    · exact hkeeps.viewOf_eq hm
  · next hdone =>
    have hclosed3 : Closed (upd ino n (some d3)) (entriesOf t3.disk dq) := by
      rw [hes3]
      intro j nm m he
      obtain ⟨dm, hdm, hl⟩ := hq.closed j nm m he
      refine ⟨dm, ?_, hl⟩
      rw [upd_of_ne]
      · exact hdm
      · rintro rfl
        rw [hnew.fresh] at hdm
        cases hdm
    have hpar : Parental t3 (upd ino n (some d3)) q dq :=
      ⟨hq3, hq.dir, hq.links, hq.room, hclosed3, hes3 ▸ hq.two⟩
    refine wp_mono (wp_createLink h3 hc hk upd_self hnew.unheld hpar hroom) ?_
    rintro r u ⟨d', ⟨rfl, hu, hku, hnode⟩ | ⟨rfl, hu, hku, htype', hlink', hfresh, i, hfree, hes⟩⟩
    · have hkeeps := (hkeeps3.mono (by simp)).trans hku
      refine ⟨⟨_, hkeeps.mono hmay', hu, funext fun m => ?_⟩, hku.spares.seen n hseen3⟩
      by_cases hm : m = n
      · rw [hm, viewOf_none upd_self, viewOf_none hnew.fresh]
      by_cases hmq : m = q
      · rw [hmq, viewOf_some ((upd_of_ne hqn).trans upd_self), viewOf_some hq.live, hnode, hnode3]
      · exact hkeeps.viewOf_eq (by simp [hm, hmq])
    · have hku' : Keeps _ {q, n} _ _ _ := hku.mono (by simp)
      have hkeeps := (hkeeps3.mono (by simp)).trans hku'
      refine ⟨⟨_, hkeeps.mono hmay', n, hu, .inr ⟨i, ?_⟩⟩, hku.spares.seen n hseen3⟩
      rw [hes3] at hes hfree hfresh
      have hn' : upd (upd ino n (some d3)) q (some d') n = some d3 :=
        (upd_of_ne (Ne.symm hqn)).trans upd_self
      have hvq : viewOf s.disk ino q = some (nodeOf s.disk dq) := viewOf_some hq.live
      have hvq' : viewOf u.disk (upd (upd ino n (some d3)) q (some d')) q = some
        (nodeOf u.disk d') :=
        viewOf_some upd_self
      have hvn' : viewOf u.disk (upd (upd ino n (some d3)) q (some d')) n = some
        (nodeOf u.disk d3) := viewOf_some hn'
      refine ⟨?_, viewOf_none hnew.fresh, fun j a he => ?_, ⟨_, _, hvq, hvq', hlink'⟩,
        ⟨_, hvn', htype3, hone, fun hne => ?_⟩, fun hT j nm' a => ?_, fun {nd nd'} hnd hnd' => ?_⟩
      · refine Adds.of_put hvq hq.dir hvq' (htype'.trans hq.dir) hfree.le
          (fun _ _ => hfree.not_hasEntry) hes
          (hq.two i hfree) (Ne.symm hqn) fun x hxq hxn => hkeeps.viewOf_eq (by simp [hxq, hxn])
      · exact hfresh j a ((View.has_iff (View.dirs_of_node hvq hq.dir)).mp he)
      · change d3.size = 0
        rw [hsize hne, ← hd1]
        rfl
      · rw [View.has_iff (View.dirs_of_node hvn' (htype3.trans hT))]
        -- nothing after the two entries touched the new directory
        refine hasEntry_dots ?_
        have hd := hdots (by simpa using hdone) hT
        rw [← hd]
        exact (hku.spares.others n d3 (Ne.symm hqn) upd_self).entriesOf_eq
      · cases hvq.symm.trans hnd
        cases hvq'.symm.trans hnd'
        change (entriesOf s.disk dq).length ≤ (entriesOf u.disk d').length
        rw [hes, length_putEntry hfree.le]
        exact le_max_left _ _

/-! ## In the parent -/

/-- **`path_create` where the entry is there.** -/
theorem wp_createFound {dm : DiskInode} (h : FsInv s ino ((c, m) ::ₘ (k, q) ::ₘ R) (insert k L) p)
    (hp : p = none ∨ p = some c) (hk : k ∉ L) (hm : ino m = some dm) (hlinkm : dm.link_count ≠ 0)
    (hq : ino q = some dq) (hlink : dq.link_count ≠ 0) (hW : c ∈ insert k L → W) :
    wp (Stops W) (createFound type k c) (fun r t => Spares ino ∅ s t ∧
      match r with
      | none => FsInv t ino R L none
      | some c' => c' = c ∧ FsInv t ino ((c, m) ::ₘ R) L none ∧ dm.type = type) s := by
  unfold createFound
  refine wp_then (h.wp_inodeOpen (mem_cons_self _ _) hp hW) ?_
  rintro _ t ⟨hc, ht, hst, -⟩
  have hck : c ≠ k := fun he => hc (by rw [he]; exact mem_insert_self k L)
  rw [wp_bind, wp_getInode, ht.slot (mem_cons_self _ _) hm]
  split
  · refine wp_then (ht.wp_closeLinked hc hm hlinkm) ?_
    rintro _ u ⟨hu, hsu⟩
    refine wp_then (hu.wp_closeLinked hk hq hlink) ?_
    rintro _ w ⟨hw, hsw⟩
    exact ⟨(hst.andThen hsu).andThen hsw, hw⟩
  · next htype =>
    rw [not_not] at htype
    refine wp_then (ht.wp_inodeUnlock (mem_insert_self c _)) ?_
    rintro _ u ⟨hu, hsu, -⟩
    rw [erase_insert hc, Multiset.cons_swap] at hu
    refine wp_then (hu.wp_closeLinked hk hq hlink) ?_
    rintro _ w ⟨hw, hsw⟩
    exact ⟨(hst.andThen hsu).andThen hsw, rfl, hw, htype⟩

theorem viewOf_spares (h : Spares ino ∅ s t) : viewOf t.disk ino = viewOf s.disk ino :=
  funext fun _ => h.viewOf_eq (Set.notMem_empty _) rfl

theorem Created.of_spares {r : Option ℕ} (hs : Spares ino ∅ s t)
    (h : Created ino R L type q name t r u) :
    Created ino R L type q name s r u := by
  obtain ⟨ino', hk, hres⟩ := h
  rw [viewOf_spares hs] at hres
  exact ⟨ino', (Keeps.of_spares (hs.mono (Set.empty_subset _))).trans hk, hres⟩

theorem Parental.of_spares (h : Parental s ino q dq) (hs : Spares ino ∅ s t) :
    Parental t ino q dq := by
  have hes := hs.entriesOf_eq (Set.notMem_empty q) h.live
  exact ⟨h.live, h.dir, h.links, h.room, by rw [hes]; exact h.closed, by rw [hes]; exact h.two⟩

/-- A number is used that was not. -/
def UsesNumber (s t : FS) : Prop := ∃ n, ¬ Seen s.disk n ∧ Seen t.disk n

/-- **`path_create` in its directory.** Where the name is not there a number is used, whether or not
the name is made. The call waits for itself only if the name is the directory's own. -/
theorem wp_createIn (h : FsInv s ino ((k, q) ::ₘ R) {k} none) (hq : Parental s ino q dq)
    (htype : type = FS_TYPE_FILE ∨ type = FS_TYPE_DIR) (hroom : Room 3 R)
    (hW : ∀ i, (viewOf s.disk ino).Has q i (Name.trunc name) q → W) :
    wp (Stops W) (createIn type k name) (fun r t => Created ino R ∅ type q name s r t ∧
      ((∀ i m, ¬ (viewOf s.disk ino).Has q i (Name.trunc name) m) → UsesNumber s t)) s := by
  have hkR := mem_cons_self (k, q) R
  obtain ⟨hq1, hq2, -⟩ := h.inodes.cache.range hq.live
  have hvq : viewOf s.disk ino q = some (nodeOf s.disk dq) := viewOf_some hq.live
  unfold createIn
  refine wp_then (wp_dirLookup h hkR hq.live hq.dir hq.closed (hroom.cons.mono (by omega))) ?_
  rintro (_ | ⟨c, offset⟩) t ⟨hdisk, hsp, hres⟩
  · obtain ⟨-, ht⟩ := hres
    refine wp_then (ht.wp_inodeAlloc htype) ?_
    rintro c u ⟨n, hnew⟩
    refine wp_mono (wp_createNew hnew (notMem_empty k) (hq.of_spares hsp) ⟨by omega, hq2⟩ hroom) ?_
    exact fun r w hw => ⟨hw.1.of_spares hsp,
      fun _ => ⟨n, fun hs => (hsp.seen n hs).2 hnew.unseen, hw.2⟩⟩
  · obtain ⟨i, m, -, he, ht⟩ := hres
    obtain ⟨dm, hdm, hlm⟩ := hq.closed i _ m he
    have hhas := (View.has_iff (View.dirs_of_node hvq hq.dir)).mpr he
    refine wp_mono (wp_createFound ht (pend_or _ _) (notMem_empty k) hdm hlm hq.live hq.links
      fun hc => ?_) ?_
    · obtain rfl : c = k := Finset.mem_singleton.mp hc
      obtain rfl : m = q := ht.inodes.cache.one (mem_cons_self _ _) (mem_cons_of_mem hkR)
      exact hW i hhas
    · rintro r u ⟨hsu, hres⟩
      have hall := hsp.andThen hsu
      refine ⟨⟨ino, .of_spares (hall.mono (Set.empty_subset _)), ?_⟩,
        fun hno => absurd hhas (hno i m)⟩
      match r, hres with
      | none, hu => exact ⟨hu, viewOf_spares hall⟩
      | some c', ⟨hc', hu, htm⟩ =>
        subst hc'
        exact ⟨m, hu, .inl ⟨viewOf_spares hall, i, nodeOf s.disk dm, hhas, viewOf_some hdm, htm⟩⟩

/-! ## In the tree -/

section Tree

variable (h : IsTree (viewOf s.disk ino) T)

include h

/-- The inodes of the tree have links, and their entries lead to inodes of the tree. -/
theorem IsTree.hereditary :
    Hereditary s.disk ino fun n => n ∈ T.dirs ∨ Named (viewOf s.disk ino) T n := by
  have hlive : ∀ {n nd}, viewOf s.disk ino n = some nd → ∃ d, ino n = some d ∧
      nodeOf s.disk d = nd := by
    intro n nd hv
    exact Option.map_eq_some_iff.mp hv
  have hdir : ∀ n, n ∈ T.dirs → ∃ d, ino n = some d ∧ d.link_count ≠ 0 ∧ (d.type = FS_TYPE_DIR →
      ∀ i nm m, HasEntry (entriesOf s.disk d) i nm m → m ∈ T.dirs ∨
      Named (viewOf s.disk ino) T m) := by
    intro n hn
    obtain ⟨nd, hv, ht, hl⟩ := h.node hn
    obtain ⟨d, hd, rfl⟩ := hlive hv
    exact ⟨d, hd, hl, fun _ i nm m he =>
      (h.entry hn ((View.has_iff (View.dirs_of_node hv ht)).mpr he)).1⟩
  rintro n (hn | hn)
  · exact hdir n hn
  · obtain ⟨q, hq, i, nm, hi, he⟩ := hn
    obtain ⟨nd, hv⟩ := h.live hq hi he
    obtain ⟨d, hd, rfl⟩ := hlive hv
    by_cases ht : d.type = FS_TYPE_DIR
    · exact hdir n (h.child hq hi he ⟨_, hv, ht⟩).1
    · refine ⟨d, hd, ?_, fun hT => absurd hT ht⟩
      have hone : d.link_count = 1 := h.file hq hi he hv ht
      rw [hone]
      decide

/-- A directory of the tree may be created in. -/
theorem IsTree.parental (hinv : FsInv s ino R L p) (hq : q ∈ T.dirs) :
    ∃ dq, Parental s ino q dq := by
  obtain ⟨nd, hv, ht, hl⟩ := h.node hq
  obtain ⟨d, hd, rfl⟩ := Option.map_eq_some_iff.mp hv
  have hdirs := View.dirs_of_node hv ht
  refine ⟨d, hd, ht, hl, ?_, h.hereditary.closed (.inl hq) hd ht, fun i hi => ?_⟩
  · have hlt := h.links_lt (fun m nd hm => ?_) hq hv
    · intro hz
      have hlt' : d.link_count.toNat < 65535 := hlt
      have hsum := congrArg UInt16.toNat hz
      rw [UInt16.toNat_add] at hsum
      change (d.link_count.toNat + 1) % 65536 = 0 at hsum
      omega
    · obtain ⟨dm, hdm, -⟩ := Option.map_eq_some_iff.mp hm
      exact (hinv.inodes.cache.range hdm).2.1
  · by_contra hlt
    rcases (by omega : i = 0 ∨ i = 1) with rfl | rfl
    · exact hi.not_hasEntry ((View.has_iff hdirs).mp (h.dot hq))
    · exact hi.not_hasEntry ((View.has_iff hdirs).mp (h.dotdot hq))

variable {path : Name} {pid : ℕ}

/-- The directory of a path that starts in the tree is in the tree. -/
theorem IsTree.parent_mem {start : ℕ} (hstart : start ∈ T.dirs)
    (hq : q ∈ T.dirs ∨ Named (viewOf s.disk ino) T q)
    (hp : Parent (dirsOf s.disk ino) start path q name) : q ∈ T.dirs := by
  cases hp with
  | here => exact hstart
  | last _ _ hes =>
    obtain ⟨d, hd, ht, -⟩ := dirsOf_eq_some.mp hes
    exact hq.elim id fun hn => h.mem_of_named hn ⟨_, viewOf_some hd, ht⟩

variable (hinv : FsInv s ino R ∅ none) (hroom : Room 3 R)
  (hstart : startInode s.mem pid path ∈ T.dirs)
include hinv hroom hstart

/-- A directory is looked for, locked and worked in. -/
theorem IsTree.wp_lookIn {α : Type} {a : α} {f : ℕ → Name → FSM α} {Q : α → FS → Prop}
        (hnone : ∀ t, Spares ino ∅ s t → FsInv t ino R ∅ none →
      (∀ q name, ¬ Parent (dirsOf s.disk ino) (startInode s.mem pid path) path q name) → Q a t)
    (hsome : ∀ k q name t, Spares ino ∅ s t → FsInv t ino ((k, q) ::ₘ R) {k} none → q ∈ T.dirs →
      Parent (dirsOf s.disk ino) (startInode s.mem pid path) path q name →
        wp (Stops W) (f k name) Q t) :
    wp (Stops W) (lookIn pid path a f) Q s := by
  unfold lookIn
  refine wp_then (wp_pathResolveParent (fun k hk => absurd hk (notMem_empty k)) hroom h.hereditary
    (.inl hstart) hinv
    fun k _ hk => absurd hk (notMem_empty k)) ?_
  rintro (_ | ⟨k, name⟩) t ⟨hst, hres⟩
  · exact hnone t hst hres.1 hres.2
  · obtain ⟨q, p, hG, hp, ht, hpar⟩ := hres
    refine wp_then (ht.wp_inodeOpen (mem_cons_self _ _) hp fun hk => absurd hk (notMem_empty k)) ?_
    rintro _ u ⟨-, hu, hsu, -⟩
    exact hsome k q name u (hst.andThen hsu) hu (h.parent_mem hstart hG hpar) hpar

/-- The last name of a path is that of its own directory: `.`, or `..` in the root. -/
def NamesItself (v : View) (start : ℕ) (path : Name) : Prop :=
  ∃ q name i, Parent v.dirs start path q name ∧ v.Has q i (Name.trunc name) q

/-- **`path_create`.** -/
theorem IsTree.wp_pathCreate (htype : type = FS_TYPE_FILE ∨ type = FS_TYPE_DIR)
    (hW : NamesItself (viewOf s.disk ino) (startInode s.mem pid path) path → W) :
    wp (Stops W) (pathCreate pid path type) (fun r t =>
      (r = none ∧ Spares ino ∅ s t ∧ FsInv t ino R ∅ none ∧
        ∀ q name, ¬ Parent (dirsOf s.disk ino) (startInode s.mem pid path) path q name) ∨
      ∃ q name, q ∈ T.dirs ∧ Parent (dirsOf s.disk ino) (startInode s.mem pid path) path q name ∧
        Created ino R ∅ type q name s r t ∧
        ((∀ i m, ¬ (viewOf s.disk ino).Has q i (Name.trunc name) m) → UsesNumber s t)) s := by
  rw [pathCreate_eq]
  refine h.wp_lookIn hinv hroom hstart (fun t hst ht hno => .inl ⟨rfl, hst, ht, hno⟩)
    fun k q name t hst ht hq hpar => ?_
  obtain ⟨dq, hpq⟩ := h.parental hinv hq
  refine wp_mono (wp_createIn ht (hpq.of_spares hst) htype hroom fun i he => ?_) ?_
  · rw [viewOf_spares hst] at he
    exact hW ⟨q, name, i, hpar, he⟩
  rintro r u ⟨hu, huses⟩
  refine .inr ⟨q, name, hq, hpar, hu.of_spares hst, fun hno => ?_⟩
  obtain ⟨n, hn, hn'⟩ := huses (by rw [viewOf_spares hst]; exact hno)
  exact ⟨n, fun hs => hn (hst.seen n hs), hn'⟩

end Tree

/-- **The tree after a creation.** -/
theorem IsTree.newEntry (h : IsTree v T) (hq : q ∈ T.dirs) (hnew : NewEntry v v' q i nm n type)
    (hrange : ∀ m nd, v m = some nd → m < NUM_INODES) :
    IsTree v' (if type = FS_TYPE_DIR then T.join n q else T) := by
  obtain ⟨nd, nd', hvq, hvq', hlink⟩ := hnew.parent
  obtain ⟨ndn, hvn, htn, hone, -⟩ := hnew.node
  split at hlink
  · next hT =>
    rw [if_pos hT]
    have hlt := h.links_lt hrange hq hvq
    refine h.addDir hnew.adds hq hvq hvq' ?_ hnew.fresh hvn (htn.trans hT) hone (hnew.dots hT)
    rw [hlink, UInt16.toNat_add]
    change (nd.link_count.toNat + 1) % 65536 = _
    omega
  · next hT =>
    rw [if_neg hT]
    refine h.addFile hnew.adds hq hvq hvq' hlink hvn (fun hd => hT (htn.symm.trans hd)) hone ?_
    rintro ⟨nd1, hv1, -⟩
    rw [hnew.fresh] at hv1
    cases hv1

end OsLab
