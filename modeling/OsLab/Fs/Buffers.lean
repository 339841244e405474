import OsLab.Fs.Model.Buffers
/-!
# The buffers are transparent

A block's bytes are those of the buffer that has it, and the store's where
no buffer does (`Rep`). Every operation keeps that and does to the bytes
what it does to the flat array, so whole sequences do
(`Shows.run`). A block can always be opened while fewer than eight others
are: a buffer that cannot be taken is one that somebody holds, and no two
buffers have one block.
-/

namespace OsLab.Buffers

open Finset List

variable {σ : Type} {S : BlockStore σ}

/-! ## The layer -/

namespace Layer

/-- **The layer has the bytes of a flat array.** -/
structure Rep (S : BlockStore σ) (l : Layer σ) (bytes : ℕ → Block) : Prop where
  distinct : ∀ {i j}, (l.blocks i).valid = true → (l.blocks j).valid = true →
    (l.blocks i).block_num = (l.blocks j).block_num → i = j
  cached : ∀ {i}, (l.blocks i).valid = true → bytes (l.blocks i).block_num = (l.blocks i).data
  stored : ∀ {n}, (∀ i, (l.blocks i).valid = true → (l.blocks i).block_num ≠ n) →
    bytes n = S.holds l.store n

variable {l l' : Layer σ} {i j : Ptr} {n : ℕ} {bytes : ℕ → Block}

theorem find_some (h : l.find n = some i) :
    (l.blocks i).valid = true ∧ (l.blocks i).block_num = n := by
  have := List.find?_some h
  simpa using this

theorem find_none (h : l.find n = none) (i : Ptr) (hv : (l.blocks i).valid = true) :
    (l.blocks i).block_num ≠ n := by
  have := List.find?_eq_none.mp h i (mem_finRange i)
  simpa [hv] using this

theorem free_some (h : l.free = some i) : (l.blocks i).valid = false ∨ (l.blocks i).refcnt = 0 := by
  have := List.find?_some h
  simpa using this

theorem free_none (h : l.free = none) (i : Ptr) :
    (l.blocks i).valid = true ∧ (l.blocks i).refcnt ≠ 0 := by
  have := List.find?_eq_none.mp h i (mem_finRange i)
  simpa using this

@[simp] theorem setBlock_self (b : Buffer) : (l.setBlock i b).blocks i = b := upd_self

theorem setBlock_of_ne (b : Buffer) (h : j ≠ i) : (l.setBlock i b).blocks j = l.blocks j :=
  upd_of_ne h

/-- A buffer that keeps its block, with the bytes the array has there. -/
theorem Rep.setBlock (h : Rep S l bytes) {bytes' : ℕ → Block} {b : Buffer}
    (hb : b.valid = (l.blocks i).valid) (hn : b.block_num = (l.blocks i).block_num)
    (hd : b.valid = true → bytes' b.block_num = b.data)
    (hother : ∀ m, b.valid = true → m ≠ b.block_num → bytes' m = bytes m)
    (hinv : b.valid = false → bytes' = bytes) : Rep S (l.setBlock i b) bytes' := by
  have hvalid : ∀ k, ((l.setBlock i b).blocks k).valid = (l.blocks k).valid := by
    intro k
    by_cases hk : k = i
    · rw [hk, setBlock_self, hb]
    · rw [setBlock_of_ne b hk]
  have hnum : ∀ k, ((l.setBlock i b).blocks k).block_num = (l.blocks k).block_num := by
    intro k
    by_cases hk : k = i
    · rw [hk, setBlock_self, hn]
    · rw [setBlock_of_ne b hk]
  refine ⟨?_, ?_, ?_⟩
  · intro j k hj hk hjk
    rw [hvalid] at hj hk
    rw [hnum, hnum] at hjk
    exact h.distinct hj hk hjk
  · intro k hk
    by_cases hki : k = i
    · subst hki
      rw [setBlock_self] at hk ⊢
      exact hd hk
    · rw [setBlock_of_ne b hki] at hk ⊢
      rw [← h.cached hk]
      cases hbv : b.valid with
      | false => rw [hinv hbv]
      | true =>
        refine hother _ hbv fun heq => hki (h.distinct hk (hb ▸ hbv) ?_)
        rw [heq, hn]
  · intro m hm
    have hm' : ∀ k, (l.blocks k).valid = true → (l.blocks k).block_num ≠ m := by
      intro k hk
      rw [← hnum k]
      exact hm k (by rw [hvalid]; exact hk)
    show bytes' m = S.holds l.store m
    rw [← h.stored hm']
    cases hbv : b.valid with
    | false => rw [hinv hbv]
    | true => exact hother m hbv fun heq => hm' i (hb ▸ hbv) (by rw [heq, hn])

/-- Only the reference count changes. -/
theorem Rep.setRefcnt (h : Rep S l bytes) (c : ℕ) :
    Rep S (l.setBlock i { l.blocks i with refcnt := c }) bytes :=
  Rep.setBlock h rfl rfl (fun hv => h.cached hv) (fun _ _ _ => rfl) fun _ => rfl

/-- The bytes of an opened block are changed. -/
theorem Rep.modify (h : Rep S l bytes) (hv : (l.blocks i).valid = true) (f : Block → Block) :
    Rep S (l.modify i f)
      (upd bytes (l.blocks i).block_num (f (bytes (l.blocks i).block_num))) := by
  refine Rep.setBlock h rfl rfl (fun _ => ?_) (fun m _ hm => upd_of_ne hm) fun hv' => ?_
  · show upd bytes (l.blocks i).block_num _ (l.blocks i).block_num = f (l.blocks i).data
    rw [upd_self, h.cached hv]
  · exact absurd (hv.symm.trans hv') (by decide)

/-- A buffer is written back and loaded with a block that no buffer has. -/
theorem Rep.load (h : Rep S l bytes)
    (hn : ∀ k, (l.blocks k).valid = true → (l.blocks k).block_num ≠ n) :
    Rep S (l.load S i n) bytes := by
  -- the store under the buffers, once the old block is written back
  let t := if (l.blocks i).valid then S.write l.store (l.blocks i).block_num (l.blocks i).data
    else l.store
  have hself : (l.load S i n).blocks i = ⟨true, n, 1, (S.read t n).1⟩ := upd_self
  have hne : ∀ {k}, k ≠ i → (l.load S i n).blocks k = l.blocks k := fun hk => upd_of_ne hk
  have hholds : ∀ m, (∀ k, k ≠ i → (l.blocks k).valid = true → (l.blocks k).block_num ≠ m) →
      S.holds t m = bytes m := by
    intro m hm
    by_cases hv : (l.blocks i).valid = true
    · have ht : t = S.write l.store (l.blocks i).block_num (l.blocks i).data := if_pos hv
      rw [ht, S.holds_write]
      by_cases hmi : m = (l.blocks i).block_num
      · rw [hmi, upd_self, h.cached hv]
      · rw [upd_of_ne hmi]
        refine (h.stored fun k hk => ?_).symm
        by_cases hki : k = i
        · rw [hki]
          exact Ne.symm hmi
        · exact hm k hki hk
    · have ht : t = l.store := if_neg hv
      rw [ht]
      refine (h.stored fun k hk => hm k ?_ hk).symm
      rintro rfl
      exact hv hk
  refine ⟨?_, ?_, ?_⟩
  · intro j k hj hk hjk
    by_cases hji : j = i
    · by_cases hki : k = i
      · rw [hji, hki]
      · rw [hji, hself, hne hki] at hjk
        rw [hne hki] at hk
        exact absurd hjk.symm (hn k hk)
    · by_cases hki : k = i
      · rw [hki, hself, hne hji] at hjk
        rw [hne hji] at hj
        exact absurd hjk (hn j hj)
      · rw [hne hji, hne hki] at hjk
        rw [hne hji] at hj
        rw [hne hki] at hk
        exact h.distinct hj hk hjk
  · intro k hk
    by_cases hki : k = i
    · subst hki
      rw [hself]
      show bytes n = (S.read t n).1
      rw [S.read_fst]
      exact (hholds n fun k _ hk => hn k hk).symm
    · rw [hne hki] at hk ⊢
      exact h.cached hk
  · intro m hm
    show bytes m = S.holds (S.read t n).2 m
    rw [S.holds_read]
    refine (hholds m fun k hki hk => ?_).symm
    have := hm k
    rw [hne hki] at this
    exact this hk

/-- What an opened block's user gets. -/
structure Opened (S : BlockStore σ) (bytes : ℕ → Block) (l : Layer σ) (n : ℕ) (i : Ptr)
    (l' : Layer σ) :
    Prop where
  rep : Rep S l' bytes
  valid : (l'.blocks i).valid = true
  num : (l'.blocks i).block_num = n
  refcnt : ∀ k, (l'.blocks k).refcnt = (l.blocks k).refcnt + if k = i then 1 else 0
  /-- A buffer that somebody holds keeps its block. -/
  keeps : ∀ k, (l.blocks k).valid = true → (l.blocks k).refcnt ≠ 0 →
    (l'.blocks k).valid = true ∧ (l'.blocks k).block_num = (l.blocks k).block_num

theorem Opened.data (h : Opened S bytes l n i l') : (l'.blocks i).data = bytes n := by
  rw [← h.rep.cached h.valid, h.num]

/-- A block that a buffer has is opened there. -/
theorem Rep.opened_of_find (h : Rep S l bytes) (hf : l.find n = some i) :
    Opened S bytes l n i (l.setBlock i { l.blocks i with refcnt := (l.blocks i).refcnt + 1 }) := by
  obtain ⟨hv, hn⟩ := find_some hf
  refine ⟨h.setRefcnt _, ?_, ?_, fun k => ?_, fun k hk _ => ?_⟩
  · rw [setBlock_self]
    exact hv
  · rw [setBlock_self]
    exact hn
  · by_cases hki : k = i
    · rw [hki, setBlock_self, if_pos rfl]
    · rw [setBlock_of_ne _ hki, if_neg hki, Nat.add_zero]
  · by_cases hki : k = i
    · subst hki
      rw [setBlock_self]
      exact ⟨hk, rfl⟩
    · rw [setBlock_of_ne _ hki]
      exact ⟨hk, rfl⟩

/-- A block that none has is loaded into a buffer that nobody holds. -/
theorem Rep.opened_of_free (h : Rep S l bytes) (hf : l.find n = none)
    (hr : (l.blocks i).refcnt = 0) :
    Opened S bytes l n i (l.load S i n) := by
  have hself : ∀ {P : Buffer → Prop}, (∀ d, P ⟨true, n, 1, d⟩) → P ((l.load S i n).blocks i) := by
    intro P hP
    have : (l.load S i n).blocks i = ⟨true, n, 1, _⟩ := upd_self
    rw [this]
    exact hP _
  have hne : ∀ {k}, k ≠ i → (l.load S i n).blocks k = l.blocks k := fun hk => upd_of_ne hk
  refine ⟨h.load (find_none hf), ?_, ?_, fun k => ?_, fun k hk hc => ?_⟩
  · exact hself (P := fun b => b.valid = true) fun _ => rfl
  · exact hself (P := fun b => b.block_num = n) fun _ => rfl
  · by_cases hki : k = i
    · rw [hki, if_pos rfl, hr]
      exact hself (P := fun b => b.refcnt = 0 + 1) fun _ => rfl
    · rw [hne hki, if_neg hki, Nat.add_zero]
  · have hki : k ≠ i := by
      rintro rfl
      exact hc hr
    rw [hne hki]
    exact ⟨hk, rfl⟩

/-- **A block can be opened** where a buffer has it or one is free. -/
theorem Rep.blockOpen (h : Rep S l bytes)
    (hr : ∀ k, (l.blocks k).valid = false → (l.blocks k).refcnt = 0) (hfree : l.find n = none →
      l.free ≠ none) : ∃ i l', l.blockOpen S n = .ok (i, l') ∧ Opened S bytes l n i l' := by
  unfold Layer.blockOpen
  cases hf : l.find n with
  | some i => exact ⟨i, _, rfl, h.opened_of_find hf⟩
  | none =>
    cases hg : l.free with
    | none => exact absurd hg (hfree hf)
    | some i =>
      refine ⟨i, _, rfl, h.opened_of_free hf ?_⟩
      rcases free_some hg with hv | hc
      · exact hr i hv
      · exact hc

/-! ## Flushing -/

theorem blocks_writeBack {S : BlockIo σ} (l : Layer σ) (i : Ptr) :
    (l.writeBack S i).blocks = l.blocks := by
  unfold writeBack
  dsimp only
  split <;> rfl

theorem blocks_foldl {S : BlockIo σ} (is : List Ptr) (l : Layer σ) :
    (is.foldl (writeBack S) l).blocks = l.blocks := by
  induction is generalizing l with
  | nil => rfl
  | cons i is ih => rw [foldl_cons, ih, blocks_writeBack]

@[simp] theorem blocks_flush {S : BlockIo σ} (l : Layer σ) : (l.flush S).blocks = l.blocks :=
  blocks_foldl _ l

theorem Rep.writeBack (h : Rep S l bytes) (i : Ptr) :
    Rep S (l.writeBack S i) bytes ∧ (∀ n, S.holds l.store n = bytes n →
      S.holds (l.writeBack S i).store n = bytes n) ∧
      ((l.blocks i).valid = true → S.holds (l.writeBack S i).store (l.blocks i).block_num =
        bytes (l.blocks i).block_num) := by
  by_cases hv : (l.blocks i).valid = true
  · have heq : l.writeBack S i =
        { l with store := S.write l.store (l.blocks i).block_num (l.blocks i).data } := if_pos hv
    have hholds : ∀ n, S.holds (l.writeBack S i).store n =
        upd (S.holds l.store) (l.blocks i).block_num (l.blocks i).data n := by
      intro n
      rw [heq]
      show S.holds (S.write _ _ _) n = _
      rw [S.holds_write]
    have hself : S.holds (l.writeBack S i).store (l.blocks i).block_num =
        bytes (l.blocks i).block_num := by
      rw [hholds, upd_self, h.cached hv]
    refine ⟨⟨?_, ?_, ?_⟩, fun n hn => ?_, fun _ => hself⟩
    · intro j k
      rw [blocks_writeBack]
      exact h.distinct
    · intro k
      rw [blocks_writeBack]
      exact h.cached
    · intro n hn
      rw [blocks_writeBack] at hn
      rw [hholds, upd_of_ne (hn i hv).symm]
      exact h.stored hn
    · by_cases hni : n = (l.blocks i).block_num
      · rw [hni]
        exact hself
      · rw [hholds, upd_of_ne hni, hn]
  · have heq : l.writeBack S i = l := if_neg hv
    rw [heq]
    exact ⟨h, fun n hn => hn, fun hv' => absurd hv' hv⟩

/-- Once the buffers of a list are written back, the store has the bytes
of their blocks. -/
theorem Rep.foldl (is : List Ptr) (h : Rep S l bytes) :
    Rep S (is.foldl (Layer.writeBack S) l) bytes ∧
      (∀ n, S.holds l.store n = bytes n → S.holds (is.foldl (Layer.writeBack S) l).store n = bytes n) ∧
      ∀ i ∈ is, (l.blocks i).valid = true →
        S.holds (is.foldl (Layer.writeBack S) l).store (l.blocks i).block_num =
          bytes (l.blocks i).block_num := by
  induction is generalizing l with
  | nil => exact ⟨h, fun n hn => hn, nofun⟩
  | cons i is ih =>
    obtain ⟨hrep, hkeep, hi⟩ := Rep.writeBack h i
    obtain ⟨hrep', hkeep', his⟩ := ih hrep
    refine ⟨hrep', fun n hn => hkeep' n (hkeep n hn), fun j hj hv => ?_⟩
    rcases List.mem_cons.mp hj with rfl | hj
    · exact hkeep' _ (hi hv)
    · have := his j hj
      rw [blocks_writeBack] at this
      exact this hv

/-- **After a flush the store has the bytes of every block.** -/
theorem Rep.holds_flush (h : Rep S l bytes) (n : ℕ) : S.holds (l.flush S).store n = bytes n := by
  obtain ⟨-, hkeep, his⟩ := Rep.foldl (List.finRange BLOCK_CONCURRENCY) h
  by_cases hex : ∃ i, (l.blocks i).valid = true ∧ (l.blocks i).block_num = n
  · obtain ⟨i, hv, rfl⟩ := hex
    exact his i (mem_finRange i) hv
  · refine hkeep n (h.stored fun i hv hn => hex ⟨i, hv, hn⟩).symm

end Layer

/-! ## Sessions -/

/-- **The session is one on the flat array.** -/
structure Shows (S : BlockStore σ) (s : Session σ) (F : Flat) : Prop where
  rep : Layer.Rep S s.layer F.bytes
  opened : (s.held.map fun i => (s.layer.blocks i).block_num) = F.opened
  valid : ∀ i ∈ s.held, (s.layer.blocks i).valid = true
  refcnt : ∀ i, (s.layer.blocks i).refcnt = s.held.count i

namespace Shows

variable {s s' : Session σ} {F F' : Flat} {op : Op} {out : Option Block} {n j : ℕ} {i : Ptr}

theorem refcnt_of_invalid (h : Shows S s F) (hv : (s.layer.blocks i).valid = false) :
    (s.layer.blocks i).refcnt = 0 := by
  rw [h.refcnt]
  refine count_eq_zero.mpr fun hi => ?_
  exact absurd ((h.valid i hi).symm.trans hv) (by decide)

/-- While fewer than eight other blocks are open, a buffer is free. -/
theorem free_ne_none (h : Shows S s F) (hfits : F.Fits n) (hf : s.layer.find n = none) :
    s.layer.free ≠ none := by
  intro hg
  have hheld : ∀ i, i ∈ s.held := by
    intro i
    by_contra hi
    refine (Layer.free_none hg i).2 ?_
    rw [h.refcnt, count_eq_zero.mpr hi]
  -- the eight buffers have eight different blocks, all open, and `n` is none of them
  let num : Ptr → ℕ := fun i => (s.layer.blocks i).block_num
  have hinj : Function.Injective num := fun i k =>
    h.rep.distinct (Layer.free_none hg i).1 (Layer.free_none hg k).1
  have hsub : insert n (Finset.univ.image num) ⊆ (n :: F.opened).toFinset := by
    intro m hm
    rw [mem_toFinset, List.mem_cons]
    rcases mem_insert.mp hm with rfl | hm
    · exact .inl rfl
    · obtain ⟨i, -, rfl⟩ := mem_image.mp hm
      right
      rw [← h.opened]
      exact mem_map.mpr ⟨i, hheld i, rfl⟩
  have hn : n ∉ Finset.univ.image num := by
    intro hm
    obtain ⟨i, -, hi⟩ := mem_image.mp hm
    exact Layer.find_none hf i (Layer.free_none hg i).1 hi
  have hcard := card_le_card hsub
  rw [card_insert_of_notMem hn, card_image_of_injective _ hinj, card_univ,
    Fintype.card_fin] at hcard
  have : (n :: F.opened).toFinset.card ≤ BLOCK_CONCURRENCY := hfits
  omega

/-- What an operation does to the array, it does to the session. -/
def Follows (S : BlockStore σ) (s : Session σ) (op : Op) (out : Option Block) (F' : Flat) : Prop :=
  ∃ s', s.step S op = .ok (out, s') ∧ Shows S s' F' ∧
    ∀ i, (s.layer.blocks i).refcnt ≠ 0 →
      (s'.layer.blocks i).valid = true ∧
        (s'.layer.blocks i).block_num = (s.layer.blocks i).block_num

theorem valid_of_refcnt (h : Shows S s F) (hc : (s.layer.blocks i).refcnt ≠ 0) :
    (s.layer.blocks i).valid = true := by
  by_contra hv
  exact hc (h.refcnt_of_invalid (by simpa using hv))

theorem exists_opened (h : Shows S s F) (hfits : F.Fits n) :
    ∃ i l', s.layer.blockOpen S n = .ok (i, l') ∧ Layer.Opened S F.bytes s.layer n i l' :=
  Layer.Rep.blockOpen h.rep (fun _ hv => h.refcnt_of_invalid hv) (h.free_ne_none hfits)

theorem blockOpen (h : Shows S s F) (hfits : F.Fits n) :
    Follows S s (.blockOpen n) (some (F.bytes n)) { F with opened := F.opened ++ [n] } := by
  obtain ⟨i, l', hok, ho⟩ := h.exists_opened hfits
  refine ⟨⟨l', s.held ++ [i]⟩, ?_, ⟨ho.rep, ?_, ?_, fun k => ?_⟩, fun k hc =>
    ho.keeps k (h.valid_of_refcnt hc) hc⟩
  · simp only [Session.step, hok]
    show Except.ok (some (l'.blocks i).data, _) = _
    rw [ho.data]
  · rw [map_append, List.map_singleton, ho.num, ← h.opened]
    congr 1
    refine map_congr_left fun k hk => ?_
    exact (ho.keeps k (h.valid k hk) (by rw [h.refcnt]; exact (count_pos_iff.mpr hk).ne')).2
  · intro k hk
    rcases mem_append.mp hk with hk | hk
    · exact (ho.keeps k (h.valid k hk) (by rw [h.refcnt]; exact (count_pos_iff.mpr hk).ne')).1
    · rw [List.mem_singleton.mp hk]
      exact ho.valid
  · rw [ho.refcnt, h.refcnt, count_append, count_singleton]
    by_cases hk : k = i
    · subst hk
      simp
    · rw [if_neg hk, if_neg (by simpa using Ne.symm hk)]

theorem getElem?_held (h : Shows S s F) (hj : F.opened[j]? = some n) :
    ∃ i, s.held[j]? = some i ∧ i ∈ s.held ∧ (s.layer.blocks i).block_num = n := by
  rw [← h.opened, List.getElem?_map] at hj
  obtain ⟨i, hi, rfl⟩ := Option.map_eq_some_iff.mp hj
  exact ⟨i, hi, mem_of_getElem? hi, rfl⟩

theorem blocks_modify_of (l : Layer σ) (i k : Ptr) (f : Block → Block) :
    ((l.modify i f).blocks k).valid = (l.blocks k).valid ∧
      ((l.modify i f).blocks k).block_num = (l.blocks k).block_num ∧
      ((l.modify i f).blocks k).refcnt = (l.blocks k).refcnt := by
  unfold Layer.modify
  by_cases hk : k = i
  · rw [hk, Layer.setBlock_self]
    exact ⟨rfl, rfl, rfl⟩
  · rw [Layer.setBlock_of_ne _ hk]
    exact ⟨rfl, rfl, rfl⟩

theorem modify (h : Shows S s F) (hj : F.opened[j]? = some n) (f : Block → Block) :
    Follows S s (.modify j f) none { F with bytes := upd F.bytes n (f (F.bytes n)) } := by
  obtain ⟨i, hi, hmem, rfl⟩ := h.getElem?_held hj
  have hb := fun k => blocks_modify_of s.layer i k f
  refine ⟨{ s with layer := s.layer.modify i f }, ?_, ⟨?_, ?_, fun k hk => ?_, fun k => ?_⟩,
    fun k hc => ?_⟩
  · simp only [Session.step, hi]
  · exact Layer.Rep.modify h.rep (h.valid i hmem) f
  · rw [← h.opened]
    exact map_congr_left fun k _ => (hb k).2.1
  · rw [(hb k).1]
    exact h.valid k hk
  · rw [(hb k).2.2]
    exact h.refcnt k
  · rw [(hb k).1, (hb k).2.1]
    exact ⟨h.valid_of_refcnt hc, rfl⟩

/-- Closing changes the reference count of one buffer. -/
theorem blocks_close (l : Layer σ) (i k : Ptr) (c : ℕ) :
    ((l.setBlock i { l.blocks i with refcnt := c }).blocks k).valid = (l.blocks k).valid ∧
      ((l.setBlock i { l.blocks i with refcnt := c }).blocks k).block_num = (l.blocks k).block_num := by
  by_cases hk : k = i
  · rw [hk, Layer.setBlock_self]
    exact ⟨rfl, rfl⟩
  · rw [Layer.setBlock_of_ne _ hk]
    exact ⟨rfl, rfl⟩

theorem blockClose (h : Shows S s F) (hj : F.opened[j]? = some n) :
    Follows S s (.blockClose j) none { F with opened := F.opened.eraseIdx j } := by
  obtain ⟨i, hi, hmem, rfl⟩ := h.getElem?_held hj
  have hpos : (s.layer.blocks i).refcnt ≠ 0 := by
    rw [h.refcnt]
    exact (count_pos_iff.mpr hmem).ne'
  obtain ⟨hlt, hget⟩ := List.getElem?_eq_some_iff.mp hi
  have hb := fun k => blocks_close s.layer i k ((s.layer.blocks i).refcnt - 1)
  have hsub : ∀ k ∈ s.held.eraseIdx j, k ∈ s.held := fun k hk => (eraseIdx_sublist _ _).mem hk
  refine ⟨⟨s.layer.setBlock i { s.layer.blocks i with refcnt := (s.layer.blocks i).refcnt - 1 },
    s.held.eraseIdx j⟩, ?_, ⟨Layer.Rep.setRefcnt h.rep _, ?_, fun k hk => ?_, fun k => ?_⟩,
    fun k hc => ?_⟩
  · simp only [Session.step, hi, Layer.blockClose, if_neg hpos]
    rfl
  · rw [← h.opened, eraseIdx_map]
    exact map_congr_left fun k _ => (hb k).2
  · rw [(hb k).1]
    exact h.valid k (hsub k hk)
  · -- the occurrence that goes is the buffer's own
    have hcount : s.held.count k = (s.held.eraseIdx j).count k + if k = i then 1 else 0 := by
      rw [← (getElem_cons_eraseIdx_perm hlt).count_eq k, hget, count_cons]
      by_cases hk : k = i
      · subst hk
        simp
      · rw [if_neg hk, if_neg (by simpa using Ne.symm hk)]
    by_cases hk : k = i
    · subst hk
      rw [Layer.setBlock_self]
      show (s.layer.blocks k).refcnt - 1 = _
      rw [h.refcnt, hcount, if_pos rfl, Nat.add_sub_cancel]
    · rw [Layer.setBlock_of_ne _ hk, h.refcnt, hcount, if_neg hk, Nat.add_zero]
  · rw [(hb k).1, (hb k).2]
    exact ⟨h.valid_of_refcnt hc, rfl⟩

/-- `block_memset` opens, fills and closes, and leaves nothing open. -/
theorem blockMemset (h : Shows S s F) (hfits : F.Fits n) (val : UInt8) :
    Follows S s (.blockMemset n val) none { F with bytes := upd F.bytes n (Bytes.fill val) } := by
  obtain ⟨i, l', hok, ho⟩ := h.exists_opened hfits
  let l₁ := l'.modify i fun _ => Bytes.fill val
  have hm := fun k => blocks_modify_of l' i k fun _ => Bytes.fill val
  have hrefcnt : (l₁.blocks i).refcnt = (s.layer.blocks i).refcnt + 1 := by
    rw [(hm i).2.2, ho.refcnt, if_pos rfl]
  let l2 := l₁.setBlock i { l₁.blocks i with refcnt := (l₁.blocks i).refcnt - 1 }
  have hc := fun k => blocks_close l₁ i k ((l₁.blocks i).refcnt - 1)
  have hrep : Layer.Rep S l2 (upd F.bytes n (Bytes.fill val)) := by
    have := Layer.Rep.modify ho.rep ho.valid fun _ => Bytes.fill val
    rw [ho.num] at this
    exact this.setRefcnt _
  have hvalid : ∀ k, (l2.blocks k).valid = (l'.blocks k).valid := fun k => (hc k).1.trans (hm k).1
  have hnum : ∀ k, (l2.blocks k).block_num = (l'.blocks k).block_num :=
    fun k => (hc k).2.trans (hm k).2.1
  have hkeeps : ∀ k, (s.layer.blocks k).refcnt ≠ 0 →
      (l2.blocks k).valid = true ∧ (l2.blocks k).block_num = (s.layer.blocks k).block_num := by
    intro k hk
    rw [hvalid, hnum]
    exact ho.keeps k (h.valid_of_refcnt hk) hk
  have hheld : ∀ k ∈ s.held, (s.layer.blocks k).refcnt ≠ 0 := by
    intro k hk
    rw [h.refcnt]
    exact (count_pos_iff.mpr hk).ne'
  refine ⟨{ s with layer := l2 }, ?_,
    ⟨hrep, ?_, fun k hk => (hkeeps k (hheld k hk)).1, fun k => ?_⟩,
    hkeeps⟩
  · have hclose : l₁.blockClose i = .ok l2 := if_neg (by rw [hrefcnt]; exact Nat.succ_ne_zero _)
    simp only [Session.step, Layer.blockMemset, hok]
    show (l₁.blockClose i >>= fun l => Except.ok (none, { s with layer := l })) = _
    rw [hclose]
    rfl
  · rw [← h.opened]
    exact map_congr_left fun k hk => (hkeeps k (hheld k hk)).2
  · rw [← h.refcnt]
    by_cases hk : k = i
    · subst hk
      show (l2.blocks k).refcnt = _
      rw [Layer.setBlock_self]
      show (l₁.blocks k).refcnt - 1 = _
      rw [hrefcnt, Nat.add_sub_cancel]
    · show (l2.blocks k).refcnt = _
      rw [Layer.setBlock_of_ne _ hk, (hm k).2.2, ho.refcnt, if_neg hk, Nat.add_zero]

theorem flush (h : Shows S s F) : Follows S s .flush none F := by
  refine ⟨{ s with layer := s.layer.flush S }, rfl, ⟨?_, ?_, ?_, ?_⟩, fun i hc => ?_⟩
  · exact (Layer.Rep.foldl _ h.rep).1
  · rw [Layer.blocks_flush]
    exact h.opened
  · rw [Layer.blocks_flush]
    exact h.valid
  · rw [Layer.blocks_flush]
    exact h.refcnt
  · rw [Layer.blocks_flush]
    exact ⟨h.valid_of_refcnt hc, rfl⟩

/-- **One operation.** -/
theorem step (h : Shows S s F) (hF : F.step op = some (out, F')) : Follows S s op out F' := by
  cases op with
  | blockOpen n =>
    simp only [Flat.step] at hF
    split at hF
    · next hfits =>
      cases hF
      exact h.blockOpen hfits
    · cases hF
  | modify j f =>
    obtain ⟨n, hj, hn⟩ := Option.map_eq_some_iff.mp hF
    cases hn
    exact h.modify hj f
  | blockClose j =>
    obtain ⟨n, hj, hn⟩ := Option.map_eq_some_iff.mp hF
    cases hn
    exact h.blockClose hj
  | blockMemset n val =>
    simp only [Flat.step] at hF
    split at hF
    · next hfits =>
      cases hF
      exact h.blockMemset hfits val
    · cases hF
  | flush =>
    cases hF
    exact h.flush

/-- **A sequence of operations** shows what it shows on the array. -/
theorem run {ops : List Op} {outs : List (Option Block)} (h : Shows S s F)
    (hF : F.run ops = some (outs, F')) : ∃ s', s.run S ops = .ok (outs, s') ∧ Shows S s' F' := by
  induction ops generalizing s F outs with
  | nil =>
    cases hF
    exact ⟨s, rfl, h⟩
  | cons op ops ih =>
    obtain ⟨⟨out, F1⟩, hstep, hrest⟩ := Option.bind_eq_some_iff.mp hF
    obtain ⟨⟨outs', F2⟩, hrun, hlast⟩ := Option.bind_eq_some_iff.mp hrest
    cases hlast
    obtain ⟨s1, hs1, h1, -⟩ := h.step hstep
    obtain ⟨s2, hs2, h2⟩ := ih h1 hrun
    refine ⟨s2, ?_, h2⟩
    simp only [Session.run, hs1]
    show (s1.run S ops >>= fun r => Except.ok (out :: r.1, r.2)) = _
    rw [hs2]
    rfl

theorem start (t : σ) : Shows S (.start t) ⟨S.holds t, []⟩ :=
  ⟨⟨nofun, nofun, fun _ => rfl⟩, rfl, nofun, fun _ => rfl⟩

end Shows

/-- **The buffers are transparent.** Any operations whose users keep to
eight blocks at once, and to the blocks they have open, return, and each
opened block shows what was last left in it. No two buffers have one
block, a buffer that somebody holds keeps its block whatever comes next,
and after a flush the store has the bytes of every block. No block may have
`2 ^ 31` opens without a close: its `int` would wrap. -/
theorem buffers_transparent (S : BlockStore σ) (t : σ) (ops : List Op) (outs : List (Option Block))
    (F : Flat) (h : Flat.run ⟨S.holds t, []⟩ ops = some (outs, F)) :
    ∃ s, (Session.start t).run S ops = .ok (outs, s) ∧
      (∀ i j, (s.layer.blocks i).valid = true → (s.layer.blocks j).valid = true →
        (s.layer.blocks i).block_num = (s.layer.blocks j).block_num → i = j) ∧
      (∀ op out F', F.step op = some (out, F') → ∃ s', s.step S op = .ok (out, s') ∧
        ∀ i, (s.layer.blocks i).refcnt ≠ 0 → (s'.layer.blocks i).valid = true ∧
          (s'.layer.blocks i).block_num = (s.layer.blocks i).block_num) ∧
      ∀ n, S.holds (s.layer.flush S).store n = F.bytes n := by
  obtain ⟨s, hs, hshows⟩ := (Shows.start t).run h
  refine ⟨s, hs, fun i j => hshows.rep.distinct, fun op out F' hF => ?_, fun n => ?_⟩
  · obtain ⟨s', hs', -, hkeeps⟩ := hshows.step hF
    exact ⟨s', hs', hkeeps⟩
  · exact Layer.Rep.holds_flush hshows.rep n

/-- A store that is an array. -/
def arrayStore : BlockStore (ℕ → Block) where
  holds t := t
  read t n := (t n, t)
  write t n b := upd t n b
  read_fst _ _ := rfl
  holds_read _ _ := rfl
  holds_write _ _ _ := rfl

/-- Two users of one block, and a block that is opened, filled and opened
again. -/
def twoUsers : List Op :=
  [.blockOpen 3, .blockOpen 3, .modify 1 (fun b => upd b 0 7), .blockClose 0, .blockMemset 5 1,
  .blockOpen 5]

theorem buffers_transparent_twoUsers :
    ∃ s, (Session.start fun _ => Bytes.fill 0).run arrayStore twoUsers =
        .ok ([some (Bytes.fill 0), some (Bytes.fill 0), none, none, none, some (Bytes.fill 1)], s) ∧
      arrayStore.holds (s.layer.flush arrayStore).store 3 = upd (Bytes.fill 0) 0 7 := by
  obtain ⟨s, hs, -, -, hflush⟩ := buffers_transparent arrayStore (fun _ => Bytes.fill 0) twoUsers
    [some (Bytes.fill 0), some (Bytes.fill 0), none, none, none, some (Bytes.fill 1)] _ rfl
  exact ⟨s, hs, hflush 3⟩

end OsLab.Buffers
