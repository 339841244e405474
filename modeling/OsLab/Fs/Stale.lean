import OsLab.Fs.Config
/-!
# What an earlier configuration leaves in the buffer

The static buffer of `etc_vm_parse` is neither cleared before the file is read into it nor
terminated behind the file. As long as the parser stays within the bytes of the file they decide
alone. Where it reads on, it reads what an earlier file left there.
-/

namespace OsLab

open Bytes List

/-! ## Reading on -/

/-- A read that does not run off its text. -/
def Inside {α : Type} (x : Except Fault α) : Prop := x ≠ .error .outside

/-- The bytes of a text decide, whatever follows. -/
def Decides {α : Type} (F : List UInt8 → Except Fault α) (text : List UInt8) : Prop :=
  ∃ x, Inside x ∧ ∀ rest, F (text ++ rest) = x

/-- Bytes that do not end a line can follow, as many as there may be, and take the read off their
end. -/
def ReadsOn {α : Type} (F : List UInt8 → Except Fault α) (text : List UInt8) : Prop :=
  ∀ k, ∃ rest, rest.length = k ∧ Line rest ∧ ¬ Inside (F (text ++ rest))

variable {α : Type} {F : List UInt8 → Except Fault α} {text l line rest : List UInt8}
  {dest : CacheConfig} {size n : ℕ}

theorem Decides.inside (h : Decides F text) : Inside (F text) := by
  obtain ⟨x, hx, hF⟩ := h
  rwa [← append_nil text, hF]

theorem Decides.append_eq (h : Decides F text) : F (text ++ rest) = F text := by
  obtain ⟨x, -, hF⟩ := h
  rw [hF, ← hF [], append_nil]

theorem ReadsOn.not_inside (h : ReadsOn F text) : ¬ Inside (F text) := by
  obtain ⟨rest, hlen, -, hout⟩ := h 0
  rwa [length_eq_zero_iff.mp hlen, append_nil] at hout

/-- A byte takes a reader to another one. -/
def PassesOn {σ : Type} (G : σ → List UInt8 → Except Fault α) (q : σ) (b : UInt8) : Prop :=
  ∃ q', ∀ t, G q (b :: t) = G q' t

/-- A byte is the last one that is read, or takes the reader to another one. -/
abbrev Takes {σ : Type} (G : σ → List UInt8 → Except Fault α) (q : σ) (b : UInt8) : Prop :=
  Decides (G q) [b] ∨ b ≠ 0 ∧ PassesOn G q b

/-- **Readers that go from one to another with each byte** are settled by a text or read on. -/
theorem settled_or_readsOn {σ : Type} {G : σ → List UInt8 → Except Fault α}
    (hnil : ∀ q, G q [] = .error .outside) (hcons : ∀ q b, Takes G q b)
    (hmore : ∀ q, ∃ b, (b ≠ 10 ∧ b ≠ 0) ∧ PassesOn G q b) (q : σ) (text : List UInt8) :
    Decides (G q) text ∨ 0 ∉ text ∧ ReadsOn (G q) text := by
  induction text generalizing q with
  | nil =>
    refine .inr ⟨not_mem_nil, fun k => ?_⟩
    induction k generalizing q with
    | zero => exact ⟨[], rfl, nofun, fun h => h (hnil q)⟩
    | succ k ih =>
      obtain ⟨b, hb, q', hq⟩ := hmore q
      obtain ⟨rest, hlen, hline, hout⟩ := ih q'
      exact ⟨b :: rest, congrArg (· + 1) hlen, forall_mem_cons.mpr ⟨hb, hline⟩, by rwa [nil_append, hq]⟩
  | cons b text ih =>
    obtain ⟨x, hx, hq⟩ | ⟨hb, q', hq⟩ := hcons q b
    · exact .inl ⟨x, hx, fun rest => hq _⟩
    · simp only [Decides, ReadsOn, cons_append, hq, mem_cons, not_or]
      exact (ih q').imp_right fun ho => ⟨⟨hb.symm, ho.1⟩, ho.2⟩

/-! ## The second line -/

/-- Where the parser stands in the second line. -/
inductive Freq
  /-- before the rest of `write_back_freq = ` -/
  | key (c : UInt8) (literal : List UInt8) (h : Line (c :: literal))
  | start
  | sign (negative : Bool)
  /-- behind a first `0` -/
  | zero (negative : Bool)
  | digits (base : ℤ) (negative : Bool) (ret : ℤ)

/-- What `parseFreq` does from there on. -/
def Freq.read (dest : CacheConfig) : Freq → List UInt8 → Except Fault (ℤ × CacheConfig)
  | key c literal _, text => do
    if ← startsWith text (c :: literal) then
      return (0, { dest with write_back_freq := ← atoi (text.drop (literal.length + 1)) })
    else return (-1, dest)
  | start, text => set (atol text)
  | sign negative, text => set (atolUnsigned negative text)
  | zero negative, text => set (atolUnsigned negative (48 :: text))
  | digits base negative ret, text => set (atolLoop base negative text ret)
where
  set (x : Except Fault ℤ) : Except Fault (ℤ × CacheConfig) := do
    return (0, { dest with write_back_freq := ← x.map (·.bmod (2 ^ 32)) })

namespace Freq

theorem read_key {c : UInt8} {literal : List UInt8} (h : Line (c :: literal)) :
    PassesOn (read dest) (.key c literal h) c := by
  have hc : ¬ (c = 0 ∨ c ≠ c) := by simp [(h c mem_cons_self).2]
  cases literal with
  | nil =>
    refine ⟨.start, fun t => ?_⟩
    rw [read, startsWith, if_neg hc]
    cases t <;> rfl
  | cons c' literal =>
    refine ⟨.key c' literal (forall_mem_cons.mp h).2, fun t => ?_⟩
    rw [read, startsWith, if_neg hc]
    rfl

theorem read_digits (base : ℤ) (negative : Bool) (ret : ℤ) (b : UInt8) :
    Takes (read dest) (.digits base negative ret) b := by
  have hread : ∀ t, read dest (.digits base negative ret) (b :: t) =
    read.set dest (atolLoop base negative (b :: t) ret) := fun t => rfl
  simp only [Takes, Decides, PassesOn, singleton_append, hread, atolLoop]
  by_cases hb : b = 0
  · exact .inl ⟨.ok _, by rintro ⟨⟩, fun t => by rw [if_pos hb]; rfl⟩
  · cases digitValue base b with
    | none => exact .inl ⟨.ok _, by rintro ⟨⟩, fun t => by rw [if_neg hb]; rfl⟩
    | some v => exact .inr ⟨hb, .digits base negative (ret * base + v), fun t => by rw [if_neg hb]; rfl⟩

/-- Readers that read a byte in the same way. -/
theorem read_congr {q q' : Freq} {b : UInt8} (hq : Takes (read dest) q' b)
    (h : ∀ t, read dest q (b :: t) = read dest q' (b :: t)) : Takes (read dest) q b := by
  simpa only [Takes, Decides, PassesOn, singleton_append, h] using hq

theorem read_sign (negative : Bool) (b : UInt8) : Takes (read dest) (.sign negative) b := by
  by_cases hb : b = 48
  · subst hb
    exact .inr ⟨by decide, .zero negative, fun t => rfl⟩
  · refine read_congr (read_digits 10 negative 0 b) fun t => congrArg (read.set dest) ?_
    cases t <;> simp [atolUnsigned, hb]

theorem read_cons (q : Freq) (b : UInt8) : Takes (read dest) q b := by
  cases q with
  | key c literal h =>
    by_cases hb : b = 0 ∨ b ≠ c
    · refine .inl ⟨.ok (-1, dest), by rintro ⟨⟩, fun t => ?_⟩
      rw [singleton_append, read, startsWith, if_pos hb]
      rfl
    · obtain ⟨h0, rfl⟩ : b ≠ 0 ∧ b = c := by simpa using hb
      exact .inr ⟨h0, read_key h⟩
  | start =>
    by_cases hspace : isspace b
    · exact .inl ⟨.error .hangs, by rintro ⟨⟩, fun t => congrArg (read.set dest) (if_pos hspace)⟩
    by_cases hplus : b = 43
    · subst hplus
      exact .inr ⟨by decide, .sign false, fun t => rfl⟩
    by_cases hminus : b = 45
    · subst hminus
      exact .inr ⟨by decide, .sign true, fun t => rfl⟩
    by_cases hdigit : isdigit b
    · exact read_congr (read_sign false b) fun t => congrArg (read.set dest) (by simp [atol, *])
    · exact .inl ⟨read.set dest (.ok 0), by rintro ⟨⟩, fun t => congrArg (read.set dest) (by simp [atol, *])⟩
  | sign negative => exact read_sign negative b
  | zero negative =>
    by_cases hb : b = 120 ∨ b = 88
    · exact .inr ⟨by grind, .digits 16 negative 0, fun t => congrArg (read.set dest) (if_pos ⟨rfl, hb⟩)⟩
    · exact read_congr (read_digits 10 negative 0 b) fun t => congrArg (read.set dest) (if_neg (by simp [hb]))
  | digits base negative ret => exact read_digits base negative ret b

theorem read_more (q : Freq) : ∃ b : UInt8, (b ≠ 10 ∧ b ≠ 0) ∧ PassesOn (read dest) q b := by
  cases q with
  | key c literal h => exact ⟨c, h c mem_cons_self, read_key h⟩
  | start => exact ⟨48, by decide, .zero false, fun t => rfl⟩
  | sign negative => exact ⟨48, by decide, .zero negative, fun t => rfl⟩
  | zero negative => exact ⟨120, by decide, .digits 16 negative 0, fun t => rfl⟩
  | digits base negative ret => exact ⟨48, by decide, .digits base negative (ret * base + 0), fun t => rfl⟩

end Freq

/-- **The second line settles the parse, or the parser reads on.** -/
theorem parseFreq_cases (line : List UInt8) (dest : CacheConfig) :
    Decides (parseFreq · dest) line ∨ 0 ∉ line ∧ ReadsOn (parseFreq · dest) line := by
  refine settled_or_readsOn (G := Freq.read dest) (fun q => ?_) Freq.read_cons Freq.read_more
    (.key 119 (ascii "rite_back_freq = ") (by decide +kernel)) line
  cases q <;> rfl

/-! ## The whole text -/

theorem strlen_open (h : 0 ∉ text) : strlen text = .error .outside := by
  induction text with
  | nil => rfl
  | cons b text ih =>
    rw [mem_cons, not_or] at h
    rw [strlen, if_neg (Ne.symm h.1), ih h.2]
    rfl

/-- **A text that ends is refused on its first line, or its second line decides**, whatever follows.
-/
theorem parseText_ended (h : 0 ∈ text) :
    (∀ rest, parseText (text ++ rest) size dest = .ok (-1, dest)) ∨
    ∃ o ≤ size, ∃ dest', ∀ rest, parseText (text ++ rest) size dest = parseFreq ((text ++ rest).drop o) dest' := by
  obtain ⟨l, r, rfl, hl⟩ := eq_append_cons_of_mem h
  simp only [append_assoc, cons_append, parseText_line hl]
  split_ifs
  · exact .inr ⟨_, min_le_right .., _, fun rest => rfl⟩
  · exact .inr ⟨_, min_le_right .., _, fun rest => rfl⟩
  · exact .inl fun rest => rfl

/-- **The bytes of the file settle the parse, or the parser reads on.** -/
theorem parseText_cases (text : List UInt8) (dest : CacheConfig) :
    Decides (parseText · text.length dest) text ∨ ReadsOn (parseText · text.length dest) text := by
  by_cases hend : 0 ∈ text
  · obtain hno | ⟨o, ho, dest', hfreq⟩ := parseText_ended hend
    · exact .inl ⟨.ok (-1, dest), nofun, hno⟩
    · simp only [Decides, ReadsOn, hfreq, drop_append_of_le_length ho]
      exact (parseFreq_cases (text.drop o) dest').imp_right And.right
  · refine .inr fun k => ⟨replicate k 48, length_replicate, fun b hb => eq_of_mem_replicate hb ▸ by decide, ?_⟩
    have hopen : 0 ∉ text ++ replicate k 48 := by simp [hend]
    simp only [parseText, strlen_open hopen]
    exact fun hi => hi rfl

theorem inside_parseText (h : 0 ∈ text.drop size) (dest : CacheConfig) :
    Inside (parseText text size dest) := by
  rw [← append_nil text]
  obtain hno | ⟨o, ho, dest', hfreq⟩ := parseText_ended (mem_of_mem_drop h)
  · rw [hno]
    nofun
  · rw [← Nat.add_sub_cancel' ho, ← drop_drop] at h
    rw [hfreq, append_nil]
    exact ((parseFreq_cases _ dest').resolve_right fun hon => hon.1 (mem_of_mem_drop h)).inside

/-! ## The buffer -/

/-- The buffer with the first bytes of a file read into it. -/
def loaded (buffer : Bytes) (file : List UInt8) : Bytes := fun i =>
  if i < min file.length 1024 then file.getD i 0 else buffer i

/-- `etc_vm_parse` of a file, over what the buffer holds. -/
def vmParse (buffer : Bytes) (file : List UInt8) (dest : CacheConfig) :
    Except Fault (ℤ × CacheConfig) :=
  parseVm (loaded buffer file) (min file.length 1024) dest

open Prog in
/-- **`etc_vm_parse` parses the bytes of the file**, as many as could be read. -/
theorem wp_etcVmParse {s : FS} {ino : ℕ → Option DiskInode} {R : Multiset Ref} {L : Finset ℕ}
    {k : ℕ} {d : DiskInode} {H : Halt → Prop} (h : InodeInv s ino R L none) (hk : (k, n) ∈ R)
    (hd : ino n = some d) (htype : d.type ≠ FS_TYPE_DEV) {buffer : Bytes} :
    wp H (etcVmParse buffer k dest) (fun r t => ∃ m ≤ min 1024 d.size.toNat,
      (m < min 1024 d.size.toNat → t.mem.full = true) ∧
      r = vmParse buffer ((range m).map (byteAt s.disk d)) dest) s := by
  refine wp_then (wp_inodeRead h hk hd htype buffer 0 1024) ?_
  rintro ⟨m, buffer'⟩ t ⟨d', hr⟩
  have hin := hr.inside (Nat.zero_le _) (by decide)
  have hle : m ≤ min 1024 d.size.toNat := hin.le
  refine ⟨m, hle, hin.short, ?_⟩
  have hbuf : buffer' = loaded buffer ((range m).map (byteAt s.disk d)) := by
    funext i
    have hb := hin.bytes i
    simp only [Nat.zero_le, true_and, Nat.sub_zero, Nat.zero_add] at hb
    rw [hb, loaded, length_map, length_range, min_eq_left (by omega)]
    split_ifs with hi
    · simp [hi]
    · rfl
  rw [vmParse, length_map, length_range, min_eq_left (by omega), ← hbuf]

/-- **The buffers that earlier calls leave**, each of which returned. -/
inductive VmBuffer : Bytes → Prop
  /-- no call yet -/
  | boot : VmBuffer (fill 0)
  /-- one more file, whose lines are ended in place -/
  | call {buffer : Bytes} {file : List UInt8} {dest : CacheConfig} {r : ℤ × CacheConfig} :
      VmBuffer buffer → vmParse buffer file dest = .ok r →
      VmBuffer (splitLines (loaded buffer file) (min file.length 1024))

/-- The bytes of a file as the parser sees them. -/
def cutLines (file : List UInt8) : List UInt8 :=
  (range file.length).map (splitLines (fun i => file.getD i 0) file.length)

variable {file : List UInt8} {buffer : Bytes}

theorem length_cutLines : (cutLines file).length = file.length := by simp [cutLines]

theorem vmParse_eq (h : file.length ≤ 1024) : vmParse buffer file dest = parseText (cutLines file ++
    (range (1024 - file.length)).map fun i => buffer (file.length + i)) (cutLines file).length dest := by
  rw [vmParse, parseVm_eq, min_eq_left h, length_cutLines, textAt, Nat.sub_zero]
  conv_lhs => rw [← Nat.add_sub_cancel' h, range_add, map_append, map_map]
  congr 2 <;> refine map_congr_left fun i hi => ?_
  · rw [mem_range] at hi
    simp [splitLines, loaded, hi, h]
  · simp [splitLines, loaded, h]

theorem vmParse_whole (h : 1024 ≤ file.length) (b₁ b₂ : Bytes) (dest : CacheConfig) :
    vmParse b₁ file dest = vmParse b₂ file dest := by
  have htext : textAt (splitLines (loaded b₁ file) 1024) 0 = textAt (splitLines (loaded b₂ file) 1024) 0 := by
    refine map_congr_left fun i hi => ?_
    rw [mem_range] at hi
    simp [splitLines, loaded, h, hi]
  rw [vmParse, vmParse, min_eq_right h, parseVm_eq, parseVm_eq, htext]

theorem textAt_cons (b : Bytes) : textAt b 0 = b 0 :: (range 1023).map (b ∘ Nat.succ) := by
  rw [textAt, Nat.sub_zero, range_succ_eq_map, map_cons, map_map, Nat.zero_add]
  congr 2
  funext i
  simp

/-- **An earlier call can leave any bytes without a line's end** behind the first one. -/
theorem exists_vmBuffer (hn : 0 < n) (hle : n ≤ 1024) (hlen : rest.length = 1024 - n)
    (hline : Line rest) :
    ∃ b, VmBuffer b ∧ (range (1024 - n)).map (fun i => b (n + i)) = rest := by
  obtain ⟨m, rfl⟩ := Nat.exists_eq_succ_of_ne_zero hn.ne'
  -- its first line is empty, so that it is refused at once
  generalize hfile : 0 :: (replicate m 48 ++ rest) = file
  have hlen' : file.length = 1024 := by
    simp [← hfile, hlen]
    omega
  have hparse : vmParse (fill 0) file ⟨.writeBack, 0⟩ = .ok (-1, ⟨.writeBack, 0⟩) := by
    rw [vmParse, parseVm_eq, textAt_cons, show splitLines (loaded (fill 0) file) _ 0 = 0 from ?_]
    · rfl
    · simp [splitLines, loaded, ← hfile]
  refine ⟨_, .call .boot hparse, ext_getElem (by simp [hlen]) fun i h1 h2 => ?_⟩
  have hget : loaded (fill 0) file (m + 1 + i) = rest[i] := by
    rw [loaded, if_pos (by omega), Nat.add_right_comm]
    simp [← hfile, h2]
  rw [getElem_map, getElem_range, splitLines, hget, if_neg (by simp [hline _ (getElem_mem h2)])]

set_option maxRecDepth 20000

theorem exists_vmBuffer_policy (dest : CacheConfig) (p : CachePolicy) :
    ∃ b, VmBuffer b ∧ vmParse b [] dest = .ok (-1, { dest with policy := p }) := by
  have hparse : ∃ r, vmParse (fill 0) (ascii ("page_cache_policy = " ++ p.name)) dest = .ok r := by
    cases p <;> exact ⟨_, rfl⟩
  obtain ⟨r, hr⟩ := hparse
  refine ⟨_, .call .boot hr, ?_⟩
  cases p <;> rfl

/-- **Parsing the configuration depends on the file alone** exactly where the file fills the buffer
or the parser stays within the bytes of the file. -/
theorem vmParse_depends_iff (file : List UInt8) (dest : CacheConfig) :
    (∀ b₁ b₂, VmBuffer b₁ → VmBuffer b₂ → vmParse b₁ file dest = vmParse b₂ file dest) ↔
      1024 ≤ file.length ∨ Inside (parseText (cutLines file) file.length dest) := by
  obtain hle | hlt := le_or_gt 1024 file.length
  · exact ⟨fun _ => .inl hle, fun _ b₁ b₂ _ _ => vmParse_whole hle b₁ b₂ dest⟩
  rw [or_iff_right hlt.not_ge, ← length_cutLines]
  obtain hset | hon := parseText_cases (cutLines file) dest
  · refine ⟨fun _ => hset.inside, fun _ b₁ b₂ _ _ => ?_⟩
    rw [vmParse_eq hlt.le, vmParse_eq hlt.le]
    exact hset.append_eq.trans hset.append_eq.symm
  refine ⟨fun h => ?_, fun hin => absurd hin hon.not_inside⟩
  obtain rfl | hne := eq_or_ne file []
  · -- an empty file takes over the policy of the file before
    obtain ⟨b, hb, hback⟩ := exists_vmBuffer_policy dest .writeBack
    obtain ⟨c, hc, hthrough⟩ := exists_vmBuffer_policy dest .writeThrough
    have heq := h b c hb hc
    rw [hback, hthrough] at heq
    simp at heq
  · obtain ⟨rest, hlen, hline, hout⟩ := hon (1024 - file.length)
    obtain ⟨b, hb, hmap⟩ := exists_vmBuffer (length_pos_of_ne_nil hne) hlt.le hlen hline
    have heq := h b (fill 0) hb .boot
    rw [vmParse_eq hlt.le, vmParse_eq hlt.le, hmap] at heq
    simp only [heq] at hout
    refine absurd (inside_parseText ?_ dest) hout
    rw [drop_left, mem_map]
    exact ⟨0, mem_range.mpr (by omega), rfl⟩

/-- **A number that is not ended goes on in what the file before has left.** -/
theorem vmParse_stale : ∃ b, VmBuffer b ∧
    vmParse b (ascii "page_cache_policy = write back\nwrite_back_freq = 3") ⟨.writeBack, 0⟩ = .ok
      (0, ⟨.writeBack, 35⟩) ∧
    vmParse (fill 0) (ascii "page_cache_policy = write back\nwrite_back_freq = 3") ⟨.writeBack, 0⟩ =
      .ok (0, ⟨.writeBack, 3⟩) := by
  have hparse : vmParse (fill 0) (ascii "page_cache_policy = write back\nwrite_back_freq = 15\n")
    ⟨.writeBack, 0⟩ =
    .ok (0, ⟨.writeBack, 15⟩) := rfl
  exact ⟨_, .call .boot hparse, rfl, rfl⟩

end OsLab
