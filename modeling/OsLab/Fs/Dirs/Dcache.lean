import OsLab.Fs.Dirs.Entries
/-!
# The dentry cache tells the truth

`DcacheOk` relates the dentry cache to the directories: an entry of the cache whose directory is
live is the entry that the directory stores at that offset; a key is there once, and in its own
bucket; and while the cache is off it is empty. Entries may be dropped at any time. They are added
for what a directory stores, and an entry that is about to change is taken out.

The directories are given as a function (`dirs`), so that this part does not depend on how they are
stored. -/

namespace OsLab

open Prog List

/-- What an entry of the cache is found by. -/
def DcacheEntry.key (e : DcacheEntry) : ℕ × Name := (e.parent_inode, e.dentry.name)

/-- **The dentry cache tells the truth** about the directories `dirs`. Numbers that were never used
(`seen`) are in no entry. -/
structure DcacheOk (m : Mem) (dirs : ℕ → Option Entries) (seen : ℕ → Prop) : Prop where
  bucket : ∀ {b e}, e ∈ m.dcache_table b → b = dcacheHash e.parent_inode e.dentry.name
  fits : ∀ {b e}, e ∈ m.dcache_table b → e.dentry.name.Fits
  stored : ∀ {b e es}, e ∈ m.dcache_table b → dirs e.parent_inode = some es →
    ∃ i, e.offset = 32 * i ∧ HasEntry es i e.dentry.name e.dentry.inode_num.toNat
  once : ∀ b, ((m.dcache_table b).map DcacheEntry.key).Nodup
  known : ∀ {b e}, e ∈ m.dcache_table b → seen e.parent_inode
  off : m.dcache_enabled = false → ∀ b, m.dcache_table b = []

/-- Only the dentry cache's buckets and the state of the allocator changed. -/
def DcacheOnly (s t : FS) : Prop := ∃ table q, t = s.setDcache table q

theorem DcacheOnly.refl (s : FS) : DcacheOnly s s := ⟨s.mem.dcache_table, s.mem.kmallocs, rfl⟩

theorem DcacheOnly.disk {s t : FS} (h : DcacheOnly s t) : t.disk = s.disk := by
  obtain ⟨_, _, rfl⟩ := h
  rfl

theorem DcacheOnly.trans {s t u : FS} (h : DcacheOnly s t) (h' : DcacheOnly t u) :
    DcacheOnly s u := by
  obtain ⟨t1, q1, rfl⟩ := h
  obtain ⟨t2, q2, rfl⟩ := h'
  exact ⟨t2, q2, rfl⟩

theorem DcacheEntry.matches_iff {e : DcacheEntry} (he : e.dentry.name.Fits) (parent : ℕ)
    (name : Name) :
    e.matches parent name = true ↔ e.key = (parent, Name.trunc name) := by
  unfold DcacheEntry.matches key
  rw [Bool.and_eq_true, decide_eq_true_iff, filenameEq_iff, he.trunc_eq, Prod.mk.injEq]

theorem dcacheHash_trunc (parent : ℕ) (name : Name) :
    dcacheHash parent (Name.trunc name) = dcacheHash parent name := by
  unfold dcacheHash
  rw [Name.trunc_trunc]

namespace DcacheOk

variable {m m' : Mem} {dirs dirs' : ℕ → Option Entries} {seen seen' : ℕ → Prop}
  {parent offset i : ℕ} {name : Name} {es : Entries} {s : FS} {E : Halt → Prop}

/-- The same cache, for directories that store at least as much. -/
theorem mono (h : DcacheOk m dirs seen) (htable : m'.dcache_table = m.dcache_table)
    (henabled : m'.dcache_enabled = m.dcache_enabled) (hseen : ∀ n, seen n → seen' n)
    (hdirs : ∀ n es', seen n → dirs' n = some es' → ∃ es, dirs n = some es ∧
      ∀ i nm a, HasEntry es i nm a → HasEntry es' i nm a) :
    DcacheOk m' dirs' seen' := by
  refine ⟨?_, ?_, ?_, ?_, ?_, ?_⟩
  · rw [htable]
    exact h.bucket
  · rw [htable]
    exact h.fits
  · rw [htable]
    intro b e es' he hes'
    obtain ⟨es, hes, hall⟩ := hdirs _ es' (h.known he) hes'
    obtain ⟨i, hi, hentry⟩ := h.stored he hes
    exact ⟨i, hi, hall i _ _ hentry⟩
  · rw [htable]
    exact h.once
  · rw [htable]
    exact fun he => hseen _ (h.known he)
  · rw [htable, henabled]
    exact h.off

variable {l : List DcacheEntry}

/-- One bucket is replaced by a part of it with other entries of the same keys. -/
theorem of_bucket (h : DcacheOk m dirs seen) {b : ℕ}
    (htable : m'.dcache_table = upd m.dcache_table b l)
    (henabled : m'.dcache_enabled = m.dcache_enabled) (hon : m.dcache_enabled = true)
    (hl : ∀ e ∈ l, b = dcacheHash e.parent_inode e.dentry.name ∧ e.dentry.name.Fits ∧
      seen e.parent_inode ∧
      ∀ es, dirs e.parent_inode = some es → ∃ i, e.offset = 32 * i ∧
        HasEntry es i e.dentry.name e.dentry.inode_num.toNat)
    (honce : (l.map DcacheEntry.key).Nodup) : DcacheOk m' dirs seen := by
  have hmem : ∀ {c e}, e ∈ m'.dcache_table c → c = b ∧ e ∈ l ∨ c ≠ b ∧ e ∈ m.dcache_table c := by
    intro c e he
    rw [htable] at he
    by_cases hc : c = b
    · rw [hc, upd_self] at he
      exact .inl ⟨hc, he⟩
    · rw [upd_of_ne hc] at he
      exact .inr ⟨hc, he⟩
  refine ⟨fun {c e} he => ?_, fun {c e} he => ?_, fun {c e es} he hes => ?_, fun c => ?_,
    fun {c e} he => ?_, ?_⟩
  · rcases hmem he with ⟨rfl, he⟩ | ⟨-, he⟩
    · exact (hl e he).1
    · exact h.bucket he
  · rcases hmem he with ⟨rfl, he⟩ | ⟨-, he⟩
    · exact (hl e he).2.1
    · exact h.fits he
  · rcases hmem he with ⟨rfl, he⟩ | ⟨-, he⟩
    · exact (hl e he).2.2.2 es hes
    · exact h.stored he hes
  · rw [htable, upd_apply]
    split
    · exact honce
    · exact h.once c
  · rcases hmem he with ⟨rfl, he⟩ | ⟨-, he⟩
    · exact (hl e he).2.2.1
    · exact h.known he
  · rw [henabled, hon]
    nofun

/-! ## Finding -/

/-- **What the cache answers is stored.** -/
theorem get (h : DcacheOk s.mem dirs seen) (hes : dirs parent = some es)
    {Q : Option (Dentry × ℕ) → FS → Prop}
    (hsome : ∀ e i, HasEntry es i (Name.trunc name) e.inode_num.toNat → Q (some (e, 32 * i)) s)
    (hnone : Q none s) :
    wp E (dcacheGet parent name) Q s := by
  unfold dcacheGet
  rw [wp_bind, wp_getMem]
  split
  · cases hf : (s.mem.dcache_table (dcacheHash parent name)).find? (·.matches parent name) with
    | none => exact hnone
    | some e =>
      have hmem := mem_of_find?_eq_some hf
      have hkey := (DcacheEntry.matches_iff (h.fits hmem) _ _).mp
        (by simpa using List.find?_some hf)
      obtain ⟨hp, hn⟩ := Prod.mk.inj hkey
      rw [← hp] at hes
      obtain ⟨i, hi, hentry⟩ := h.stored hmem hes
      rw [hn] at hentry
      simp only [Option.map_some, wp_pure, hi]
      exact hsome e.dentry i hentry
  · exact hnone

/-! ## Adding -/

theorem dcacheUpdate_spec (parent offset : ℕ) {entry : Dentry} (hl : ∀ e ∈ l, e.dentry.name.Fits)
    (he : entry.name.Fits) :
    match dcacheUpdate parent entry offset l with
    | some l' => l'.map DcacheEntry.key = l.map DcacheEntry.key ∧
        ∀ e ∈ l', e ∈ l ∨ e = ⟨parent, offset, entry⟩
    | none => (parent, entry.name) ∉ l.map DcacheEntry.key := by
  induction l with
  | nil => exact not_mem_nil
  | cons a l ih =>
    have iha := ih fun e hmem => hl e (mem_cons_of_mem a hmem)
    have hkey := DcacheEntry.matches_iff (hl a mem_cons_self) parent entry.name
    rw [he.trunc_eq] at hkey
    unfold dcacheUpdate
    by_cases ha : a.matches parent entry.name = true
    · rw [if_pos ha]
      obtain ⟨hp, hn⟩ := Prod.mk.inj (hkey.mp ha)
      refine ⟨?_, ?_⟩
      · simp [DcacheEntry.key, hn]
      · intro e hmem
        rcases mem_cons.mp hmem with rfl | hmem
        · exact .inr (by rw [← hp])
        · exact .inl (mem_cons_of_mem a hmem)
    · rw [if_neg ha]
      cases hu : dcacheUpdate parent entry offset l with
      | none =>
        rw [hu] at iha
        simp only [Option.map_none, map_cons, mem_cons, not_or]
        exact ⟨fun hk => ha (hkey.mpr hk.symm), iha⟩
      | some l' =>
        rw [hu] at iha
        refine ⟨by simp [iha.1], ?_⟩
        intro e hmem
        rcases mem_cons.mp hmem with rfl | hmem
        · exact .inl mem_cons_self
        · rcases iha.2 e hmem with hmem | rfl
          · exact .inl (mem_cons_of_mem a hmem)
          · exact .inr rfl

/-- **An entry that is stored may be added.** -/
theorem put (h : DcacheOk s.mem dirs seen) (hseen : seen parent) (entry : Dentry)
    (hfits : entry.name.Fits)
    (hes : ∀ es, dirs parent = some es → HasEntry es i entry.name entry.inode_num.toNat) :
    wp E (dcachePut parent entry (32 * i))
      (fun _ t => DcacheOk t.mem dirs seen ∧ DcacheOnly s t) s := by
  unfold dcachePut
  rw [wp_bind, wp_getMem]
  split
  · exact ⟨h, .refl s⟩
  · split
    · next hon =>
      have hspec := dcacheUpdate_spec parent (32 * i)
        (fun e he => h.fits (b := dcacheHash parent entry.name) he) hfits
      dsimp only
      cases hu : dcacheUpdate parent entry (32 * i)
        (s.mem.dcache_table (dcacheHash parent entry.name)) with
      | some l =>
        rw [hu] at hspec
        refine ⟨h.of_bucket rfl rfl hon (fun e he => ?_) ?_, ⟨_, s.mem.kmallocs, rfl⟩⟩
        · rcases hspec.2 e he with he | rfl
          · exact ⟨h.bucket he, h.fits he, h.known he, fun es hes => h.stored he hes⟩
          · exact ⟨rfl, hfits, hseen, fun es hp => ⟨i, rfl, hes es hp⟩⟩
        · rw [hspec.1]
          exact h.once _
      | none =>
        rw [hu] at hspec
        unfold kmalloc
        simp only [wp_bind, wp_getMem, wp_setMem, wp_pure]
        split
        · refine ⟨h.of_bucket rfl rfl hon (fun e he => ?_) ?_, ⟨_, _, rfl⟩⟩
          · rcases mem_cons.mp he with rfl | he
            · exact ⟨rfl, hfits, hseen, fun es hp => ⟨i, rfl, hes es hp⟩⟩
            · exact ⟨h.bucket he, h.fits he, h.known he, fun es hes => h.stored he hes⟩
          · exact nodup_cons.mpr ⟨hspec, h.once _⟩
        · exact ⟨h.mono rfl rfl (fun _ => id) fun n es _ he => ⟨es, he, fun _ _ _ => id⟩,
            ⟨_, _, rfl⟩⟩
    · exact ⟨h, .refl s⟩

/-! ## Taking out -/

/-- **An entry is taken out of the cache** before its directory is looked at without it. -/
theorem remove (h : DcacheOk s.mem dirs seen) (hes : dirs parent = some es)
    {es' : Entries}
    (hkeep : ∀ j nm a, nm ≠ Name.trunc name → HasEntry es j nm a → HasEntry es' j nm a) :
    wp E (dcacheRemove parent name)
      (fun _ t => DcacheOk t.mem (upd dirs parent (some es')) seen ∧ DcacheOnly s t) s := by
  unfold dcacheRemove
  rw [wp_bind, wp_getMem]
  split
  · next hon =>
    unfold modifyBucket
    rw [wp_modifyMem]
    refine ⟨?_, ⟨_, s.mem.kmallocs, rfl⟩⟩
    -- what is left in the bucket has another key
    have hleft : ∀ {b e}, e ∈ upd s.mem.dcache_table (dcacheHash parent name)
        ((s.mem.dcache_table (dcacheHash parent name)).eraseP (·.matches parent name)) b →
        e ∈ s.mem.dcache_table b ∧ e.key ≠ (parent, Name.trunc name) := by
      intro b e he
      by_cases hb : b = dcacheHash parent name
      · subst hb
        rw [upd_self] at he
        have hmem := mem_of_mem_eraseP he
        refine ⟨hmem, fun hkey => ?_⟩
        have hmatch := (DcacheEntry.matches_iff (h.fits hmem) _ _).mpr hkey
        obtain ⟨a, l₁, l2, hl1, ha, hsplit, herase⟩ :=
          exists_of_eraseP (p := fun e : DcacheEntry => e.matches parent name) hmem hmatch
        have honce := h.once (dcacheHash parent name)
        rw [hsplit, map_append, map_cons] at honce
        have hakey := (DcacheEntry.matches_iff (h.fits (e := a) (by rw [hsplit]; simp)) _ _).mp ha
        rw [herase, mem_append] at he
        have hnot := (nodup_middle.mp honce)
        rw [nodup_cons, ← map_append] at hnot
        refine hnot.1 ?_
        rw [hakey, ← hkey]
        exact mem_map_of_mem (mem_append.mpr he)
      · rw [upd_of_ne hb] at he
        refine ⟨he, fun hkey => hb ?_⟩
        obtain ⟨hp, hn⟩ := Prod.mk.inj hkey
        rw [h.bucket he, hp, hn, dcacheHash_trunc]
    refine ⟨fun he => h.bucket (hleft he).1, fun he => h.fits (hleft he).1,
      fun {b e es1} he hes1 => ?_, fun b => ?_,
      fun he => h.known (hleft he).1, fun hoff => ?_⟩
    · obtain ⟨hmem, hkey⟩ := hleft he
      by_cases hp : e.parent_inode = parent
      · rw [hp, upd_self] at hes1
        cases hes1
        rw [← hp] at hes
        obtain ⟨i, hi, hentry⟩ := h.stored hmem hes
        refine ⟨i, hi, hkeep _ _ _ (fun hn => hkey ?_) hentry⟩
        unfold DcacheEntry.key
        rw [hp, hn]
      · rw [upd_of_ne hp] at hes1
        exact h.stored hmem hes1
    · simp only [upd_apply]
      split
      · next hb =>
        exact (h.once _).sublist (List.Sublist.map _ eraseP_sublist)
      · exact h.once b
    · rw [hon] at hoff
      cases hoff
  · next hon =>
    have hempty := h.off (by simpa using hon)
    refine ⟨⟨?_, ?_, ?_, h.once, ?_, h.off⟩, .refl s⟩ <;>
    · intro b e
      simp only [hempty, not_mem_nil, false_implies, implies_true]

/-- **A directory's entries are taken out.** -/
theorem invalidate (h : DcacheOk s.mem dirs seen) (hdirs : ∀ n, n ≠ parent → dirs' n = dirs n) :
    wp E (dcacheInvalidate parent) (fun _ t => DcacheOk t.mem dirs' seen ∧ DcacheOnly s t) s := by
  unfold dcacheInvalidate
  rw [wp_modifyMem]
  split
  · next hon =>
    refine ⟨?_, ⟨_, s.mem.kmallocs, rfl⟩⟩
    have hleft : ∀ {b e}, e ∈ (s.mem.dcache_table b).filter
      (fun e => decide (e.parent_inode ≠ parent)) →
        e ∈ s.mem.dcache_table b ∧ e.parent_inode ≠ parent := by
      intro b e he
      simpa using mem_filter.mp he
    refine ⟨fun he => h.bucket (hleft he).1, fun he => h.fits (hleft he).1,
      fun {b e es1} he hes1 => ?_, fun b => ?_,
      fun he => h.known (hleft he).1, fun hoff => ?_⟩
    · rw [hdirs _ (hleft he).2] at hes1
      exact h.stored (hleft he).1 hes1
    · exact (h.once b).sublist (List.Sublist.map _ filter_sublist)
    · rw [hon] at hoff
      cases hoff
  · next hon =>
    have hempty := h.off (by simpa using hon)
    refine ⟨⟨?_, ?_, ?_, h.once, ?_, h.off⟩, .refl s⟩ <;>
    · intro b e
      simp only [hempty, not_mem_nil, false_implies, implies_true]

/-- An empty cache tells the truth about any directories. -/
theorem of_empty (h : ∀ b, m.dcache_table b = []) : DcacheOk m dirs seen := by
  refine ⟨?_, ?_, ?_, fun b => ?_, ?_, fun _ => h⟩
  · simp [h]
  · simp [h]
  · simp [h]
  · simp [h]
  · simp [h]

end DcacheOk

end OsLab
