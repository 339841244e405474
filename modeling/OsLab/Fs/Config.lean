import OsLab.Fs.Model.Etc
import OsLab.Fs.Runs.Sizes
import Mathlib.Data.Nat.Digits.Defs
/-!
# The configuration of the page cache and of the dentry cache

`etc_vm_reset` does not cut the file off behind the text it writes. `etc_vm_parse` reads the
configuration back from its two lines whatever follows them. `etc_fs_parse` sets the dentry cache on
the first line before it looks at the second. -/

namespace OsLab

open Prog Bytes List

/-! ## Decimal numbers -/

theorem ascii_append (a b : String) : ascii (a ++ b) = ascii a ++ ascii b := by simp [ascii]

theorem ascii_repr (n : ℕ) :
    ascii n.repr = (Nat.toDigits 10 n).map fun c => UInt8.ofNat c.toNat := by
  simp [ascii, Nat.repr]

theorem digitValue_digitChar : ∀ v < 10, UInt8.ofNat (Nat.digitChar v).toNat ≠ 0 ∧
    digitValue 10 (UInt8.ofNat (Nat.digitChar v).toNat) = some (v : ℤ) := by
  decide

/-- **The loop of `atol` reads the digits of a number**, which go before what follows them. -/
theorem atolLoop_repr (negative : Bool) (n : ℕ) (text : List UInt8) :
    ∃ e : ℕ, ∀ ret : ℤ, atolLoop 10 negative (ascii n.repr ++ text) ret =
      atolLoop 10 negative text (ret * 10 ^ e + n) := by
  induction n using Nat.strongRecOn generalizing text with
  | ind n ih =>
    by_cases hn : n < 10
    · obtain ⟨hne, hv⟩ := digitValue_digitChar n hn
      refine ⟨1, fun ret => ?_⟩
      rw [ascii_repr, Nat.toDigits_of_lt_base hn, map_singleton, singleton_append, atolLoop,
        if_neg hne, hv, pow_one]
    · obtain ⟨hne, hv⟩ := digitValue_digitChar (n % 10) (by omega)
      obtain ⟨e, he⟩ := ih (n / 10) (by omega)
        (UInt8.ofNat (Nat.digitChar (n % 10)).toNat :: text)
      refine ⟨e + 1, fun ret => ?_⟩
      have hdigits : ascii n.repr ++ text =
          ascii (n / 10).repr ++ UInt8.ofNat (Nat.digitChar (n % 10)).toNat :: text := by
        rw [ascii_repr, ascii_repr, Nat.toDigits_of_base_le (by decide) (not_lt.mp hn)]
        simp
      rw [hdigits, he, atolLoop, if_neg hne, hv]
      have hsplit : (n : ℤ) = 10 * ((n / 10 : ℕ) : ℤ) + ((n % 10 : ℕ) : ℤ) := by omega
      have hvalue : (ret * 10 ^ e + ((n / 10 : ℕ) : ℤ)) * 10 + ((n % 10 : ℕ) : ℤ) = ret * 10 ^ (e + 1) + n := by
        rw [hsplit]
        ring
      exact congrArg (atolLoop 10 negative text) hvalue

theorem isdigit_of_mem_repr {n : ℕ} {b : UInt8} (hb : b ∈ ascii n.repr) : isdigit b = true := by
  rw [ascii_repr, mem_map] at hb
  obtain ⟨c, hc, rfl⟩ := hb
  have hd := Nat.isDigit_of_mem_toDigits (by decide) (by decide) hc
  simp only [Char.isDigit, Bool.and_eq_true, decide_eq_true_eq, ge_iff_le,
    UInt32.le_iff_toNat_le] at hd
  have hall : ∀ k < 58, 48 ≤ k → isdigit (UInt8.ofNat k) = true := by decide
  exact hall c.toNat (Nat.lt_succ_of_le hd.2) hd.1

/-- **`atol` reads back an unsigned number**, up to the byte that ends it. -/
theorem atolUnsigned_repr (negative : Bool) (n : ℕ) (text : List UInt8) :
    atolUnsigned negative (ascii n.repr ++ 0 :: text) = .ok (if negative then -(n : ℤ) else n) := by
  obtain ⟨e, he⟩ := atolLoop_repr negative n (0 :: text)
  have hloop : atolLoop 10 negative (ascii n.repr ++ 0 :: text) 0 = .ok (if negative then -(n : ℤ) else n) := by
    rw [he, atolLoop, if_pos rfl, zero_mul, zero_add]
  -- the second byte is a digit or the end
  cases hrepr : ascii n.repr with
  | nil =>
    rw [ascii_repr, map_eq_nil_iff] at hrepr
    exact absurd hrepr Nat.toDigits_ne_nil
  | cons b rest =>
    obtain ⟨x, l, hl, hx⟩ : ∃ x l, rest ++ 0 :: text = x :: l ∧ x ≠ 120 ∧ x ≠ 88 := by
      cases rest with
      | nil => exact ⟨0, text, rfl, by decide, by decide⟩
      | cons x l =>
        have hd : isdigit x = true := isdigit_of_mem_repr (n := n) (by simp [hrepr])
        refine ⟨x, l ++ 0 :: text, rfl, ?_, ?_⟩ <;> rintro rfl <;> exact absurd hd (by decide)
    rw [hrepr, cons_append, hl] at hloop
    rw [cons_append, hl, atolUnsigned, if_neg (by simp [hx]), hloop]

variable {v : ℤ} {l text : List UInt8} {buffer : Bytes} {size k : ℕ} {m : Mem}

/-- **`atoi` reads back what `%d` prints.** -/
theorem atoi_toString (hlo : -2 ^ 31 ≤ v) (hhi : v < 2 ^ 31) (text : List UInt8) :
    atoi (ascii (toString v) ++ 0 :: text) = .ok v := by
  have hatol : atol (ascii (toString v) ++ 0 :: text) = .ok v := by
    cases v with
    | ofNat n =>
      show atol (ascii n.repr ++ 0 :: text) = _
      have hval := atolUnsigned_repr false n text
      cases hrepr : ascii n.repr with
      | nil =>
        rw [ascii_repr, map_eq_nil_iff] at hrepr
        exact absurd hrepr Nat.toDigits_ne_nil
      | cons b rest =>
        have hd : isdigit b = true := isdigit_of_mem_repr (n := n) (by simp [hrepr])
        have hother : isspace b = false ∧ b ≠ 43 ∧ b ≠ 45 := by
          unfold isdigit at hd
          unfold isspace
          grind
        rw [hrepr, cons_append] at hval
        rw [cons_append, atol, if_neg (by simp [hother.1]), if_neg hother.2.1, if_neg hother.2.2,
          if_pos hd, hval]
        rfl
    | negSucc n =>
      have htext : ascii (toString (Int.negSucc n)) = 45 :: ascii (n + 1).repr := by
        show ascii ("-" ++ (n + 1).repr) = _
        rw [ascii_append]
        rfl
      rw [htext, cons_append, atol, if_neg (by decide), if_neg (by decide), if_pos rfl,
        atolUnsigned_repr]
      rfl
  have hint : v.bmod (2 ^ 32) = v := Int.bmod_eq_of_le (by simpa using hlo) (by simpa using hhi)
  rw [atoi, hatol, Except.map, hint]

/-! ## Lines -/

/-- The bytes of a line: none of them ends it. -/
def Line (l : List UInt8) : Prop := ∀ b ∈ l, b ≠ 10 ∧ b ≠ 0

instance (l : List UInt8) : Decidable (Line l) := inferInstanceAs (Decidable (∀ b ∈ l, _))

theorem strlen_line (hl : 0 ∉ l) : strlen (l ++ 0 :: text) = .ok l.length := by
  induction l with
  | nil => rfl
  | cons b l ih =>
    rw [mem_cons, not_or] at hl
    rw [cons_append, strlen, if_neg (Ne.symm hl.1), ih hl.2]
    rfl

theorem startsWith_line (hl : 0 ∉ l) (text : List UInt8) : startsWith (l ++ text) l = .ok true := by
  induction l with
  | nil => cases text <;> rfl
  | cons b l ih =>
    rw [mem_cons, not_or] at hl
    rw [cons_append, startsWith, if_neg (by simp [Ne.symm hl.1]), ih hl.2]

theorem line_toString (v : ℤ) : Line (ascii (toString v)) := by
  have hdigits : ∀ n : ℕ, Line (ascii n.repr) := by
    intro n b hb
    have hd := isdigit_of_mem_repr hb
    unfold isdigit at hd
    grind
  cases v with
  | ofNat n => exact hdigits n
  | negSucc n =>
    intro b hb
    have htext : ascii (toString (Int.negSucc n)) = 45 :: ascii (n + 1).repr := by
      show ascii ("-" ++ (n + 1).repr) = _
      rw [ascii_append]
      rfl
    rw [htext, mem_cons] at hb
    rcases hb with rfl | hb
    · decide
    · exact hdigits _ b hb

theorem length_toString_le (hlo : -2 ^ 31 ≤ v) (hhi : v < 2 ^ 31) :
    (ascii (toString v)).length ≤ 11 := by
  have hascii : ∀ t : String, (ascii t).length = t.length :=
    fun t => by simp [ascii, String.length_toList]
  rw [hascii]
  cases v with
  | ofNat n =>
    have := Nat.repr_length n 10 (by decide) (by simp only [Int.ofNat_eq_natCast] at hhi; omega)
    show n.repr.length ≤ 11
    omega
  | negSucc n =>
    have := Nat.repr_length (n + 1) 10 (by decide) (by omega)
    show ("-" ++ (n + 1).repr).length ≤ 11
    rw [String.length_append]
    have hminus : "-".length = 1 := rfl
    omega

theorem textAt_drop (buffer : Bytes) (o : ℕ) : textAt buffer o = (textAt buffer 0).drop o := by
  refine ext_getElem (by simp [textAt]) fun i h1 h2 => ?_
  simp [textAt]

/-- **What the parser sees of a text of two lines**, and of what follows it. -/
theorem textAt_lines {l0 l₁ : List UInt8} (h0 : Line l0) (h1 : Line l₁)
    (hne : l0 ≠ []) (hsize : (l0 ++ 10 :: l₁ ++ [10]).length ≤ size) (hle : size ≤ 1024)
    (hbuf : ∀ i (hi : i < (l0 ++ 10 :: l₁ ++ [10]).length), buffer i = (l0 ++ 10 :: l₁ ++ [10])[i]) :
    ∃ rest, textAt (splitLines buffer size) 0 = l0 ++ 0 :: (l₁ ++ 0 :: rest) := by
  have hend : ∀ l, Line l → l.map (fun b => if b = 10 ∨ b = 0 then (0 : UInt8) else b) = l := by
    intro l hl
    refine (map_congr_left fun b hb => ?_).trans (map_id l)
    rw [if_neg (by simp [hl b hb])]
    rfl
  generalize ht : l0 ++ 10 :: l₁ ++ [10] = t at hsize hbuf
  have hmap : t.map (fun b => if b = 10 ∨ b = 0 then (0 : UInt8) else b) = l0 ++ 0 :: l₁ ++ [0] := by
    rw [← ht]
    simp only [map_append, map_cons, map_nil, hend l0 h0, hend l₁ h1]
    rfl
  have hfirst : t[0]? ≠ some 10 ∧ t[0]? ≠ some 0 := by
    obtain ⟨b, l, rfl⟩ := exists_cons_of_ne_nil hne
    have hb := h0 b (mem_cons_self ..)
    rw [← ht]
    simpa using hb
  have htake : (textAt (splitLines buffer size) 0).take t.length = l0 ++ 0 :: l₁ ++ [0] := by
    rw [← hmap]
    refine ext_getElem (by simp [textAt]; omega) fun i hi1 hi2 => ?_
    have hi : i < t.length := by simpa using hi2
    simp only [textAt, getElem_take, getElem_map, getElem_range, zero_add, splitLines, hbuf i hi]
    by_cases hi0 : i = 0
    · subst hi0
      rw [List.getElem?_eq_getElem hi] at hfirst
      have hb : t[0] ≠ 10 ∧ t[0] ≠ 0 := by simpa using hfirst
      simp [hb]
    · have hlt : 1 ≤ i ∧ i < size := by omega
      simp [hlt]
  refine ⟨(textAt (splitLines buffer size) 0).drop t.length, ?_⟩
  have hwhole := take_append_drop t.length (textAt (splitLines buffer size) 0)
  rw [htake] at hwhole
  exact hwhole.symm.trans (by simp)

theorem startsWith_ended (hl : 0 ∉ l) {literal rest : List UInt8} (h : 0 ∉ literal) :
    startsWith (l ++ 0 :: rest) literal = .ok (literal.isPrefixOf l) := by
  induction literal generalizing l with
  | nil => cases l <;> rfl
  | cons c literal ih =>
    cases l with
    | nil => rfl
    | cons b l =>
      rw [mem_cons, not_or] at h hl
      rw [cons_append, startsWith, isPrefixOf_cons_cons]
      by_cases hb : c = b
      · rw [if_neg (by simp [hb, Ne.symm hl.1]), ih hl.2 h.2]
        simp [hb]
      · rw [if_pos (.inr (Ne.symm hb))]
        simp [hb]

/-- `etc_vm_parse` of a text, of which the file has the first `size` bytes. -/
def parseText (text : List UInt8) (size : ℕ) (dest : CacheConfig) :
    Except Fault (ℤ × CacheConfig) := do
  let line1 := text.drop (min ((← strlen text) + 1) size)
  if ← startsWith text (ascii "page_cache_policy = write back") then
    parseFreq line1 { dest with policy := .writeBack }
  else if ← startsWith text (ascii "page_cache_policy = write through") then
    parseFreq line1 { dest with policy := .writeThrough }
  else return (-1, dest)

theorem parseVm_eq (buffer : Bytes) (size : ℕ) (dest : CacheConfig) :
    parseVm buffer size dest = parseText (textAt (splitLines buffer size) 0) size dest := by
  simp only [parseVm, parseText, textAt_drop _ (min _ _)]

/-- A text whose first line ends. -/
theorem parseText_line (hl : 0 ∉ l) (rest : List UInt8) (size : ℕ) (dest : CacheConfig) :
    parseText (l ++ 0 :: rest) size dest =
      if (ascii "page_cache_policy = write back").isPrefixOf l then
        parseFreq ((l ++ 0 :: rest).drop (min (l.length + 1) size)) { dest with policy := .writeBack }
      else if (ascii "page_cache_policy = write through").isPrefixOf l then
        parseFreq ((l ++ 0 :: rest).drop (min (l.length + 1) size)) { dest with policy := .writeThrough }
      else .ok (-1, dest) := by
  rw [parseText, strlen_line hl, startsWith_ended hl (by decide), startsWith_ended hl (by decide)]
  rfl

/-! ## The round trip -/

/-- **The parser reads a configuration back** from its text, whatever follows. -/
theorem parseVm_text (config dest : CacheConfig)
    (hlo : -2 ^ 31 ≤ config.write_back_freq) (hhi : config.write_back_freq < 2 ^ 31)
    (htext : text = ascii ("page_cache_policy = " ++ config.policy.name ++ "\nwrite_back_freq = " ++
      toString config.write_back_freq ++ "\n")) (hsize : text.length ≤ size) (hle : size ≤ 1024)
    (hbuf : ∀ i (hi : i < text.length), buffer i = text[i]) :
    parseVm buffer size dest = .ok (0, config) := by
  have hfreq := atoi_toString hlo hhi
  obtain ⟨policy, freq⟩ := config
  generalize h0 : ascii ("page_cache_policy = " ++ policy.name) = l0
  have hl0 : Line l0 := by
    rw [← h0]
    cases policy <;> decide +kernel
  have hl1 : Line (ascii "write_back_freq = " ++ ascii (toString freq)) := by
    intro b hb
    rcases mem_append.mp hb with hb | hb
    · exact (by decide +kernel : Line (ascii "write_back_freq = ")) b hb
    · exact line_toString freq b hb
  have hlines : text = l0 ++ 10 :: (ascii "write_back_freq = " ++ ascii (toString freq)) ++ [10] := by
    have hkey : ascii "\nwrite_back_freq = " = 10 :: ascii "write_back_freq = " := rfl
    have hnl : ascii "\n" = [10] := rfl
    rw [htext, ascii_append, ascii_append, ascii_append, h0, hkey, hnl]
    simp
  have hne : l0 ≠ [] := by
    rw [← h0]
    cases policy <;> decide +kernel
  subst hlines
  obtain ⟨rest, hrest⟩ := textAt_lines hl0 hl1 hne hsize hle hbuf
  have hmin : min (l0.length + 1) size = l0.length + 1 := by
    simp only [length_append, length_cons] at hsize
    omega
  have hline1 : (l0 ++ 0 :: (ascii "write_back_freq = " ++ ascii (toString freq) ++ 0 :: rest)).drop
    (l0.length + 1) =
      ascii "write_back_freq = " ++ (ascii (toString freq) ++ 0 :: rest) := by
    rw [drop_append, append_assoc]
    simp
  have hlast : ∀ dest : CacheConfig,
    parseFreq (ascii "write_back_freq = " ++ (ascii (toString freq) ++ 0 :: rest)) dest =
      .ok (0, { dest with write_back_freq := freq }) := by
    intro dest
    rw [parseFreq, startsWith_line (by decide), drop_left' (by decide), hfreq]
    rfl
  rw [parseVm_eq, hrest, parseText_line fun hmem => (hl0 0 hmem).2 rfl, hmin, hline1, hlast, hlast]
  subst h0
  cases policy <;> rfl

section RoundTrip

variable {s : FS} {ino : ℕ → Option DiskInode} {R : Multiset Ref} {L : Finset ℕ} {k n : ℕ}
  {d : DiskInode}

/-- **The configuration round-trips.** After `etc_vm_reset` has written it over a file of any
length and content, `etc_vm_parse` returns 0 and the same configuration. There is room for the
first block of the file. -/
theorem etcVm_roundTrip (h : InodeInv s ino R L none) (hk : (k, n) ∈ R) (hlock : k ∈ L)
    (hd : ino n = some d) (htype : d.type = FS_TYPE_FILE)
    (hroom : (takenBits s.disk).card + need s.disk d 0 ≤ NDATA) (config dest : CacheConfig)
    (buffer : Bytes) (hlo : -2 ^ 31 ≤ config.write_back_freq)
    (hhi : config.write_back_freq < 2 ^ 31) : ∃ t u, (etcVmReset config k).exec s = .ok ((), t) ∧
      (etcVmParse buffer k dest).exec t = .ok (.ok (0, config), u) := by
  have hdev : d.type ≠ FS_TYPE_DEV := by
    rw [htype]
    decide
  generalize htext :
    ascii ("page_cache_policy = " ++ config.policy.name ++ "\nwrite_back_freq = " ++
    toString config.write_back_freq ++ "\n") = text
  have hlen : 0 < text.length ∧ text.length ≤ 1024 := by
    have hfreq := length_toString_le hlo hhi
    have hpolicy : (ascii config.policy.name).length ≤ 13 := by cases config.policy <;> decide
    have hfirst : (ascii "page_cache_policy = ").length = 20 := by decide
    have hsecond : (ascii "\nwrite_back_freq = ").length = 19 := by decide
    have hlast : (ascii "\n").length = 1 := by decide
    rw [← htext, ascii_append, ascii_append, ascii_append, ascii_append]
    simp only [length_append]
    omega
  -- the text is written
  have hwrite := wp_and (wp_inodeWrite_block (H := fun _ => False) h hk hd hdev hlock
    (fun i => text.getD i 0) hlen.1
    (by omega : 0 % 4096 + _ ≤ _) (by omega))
    (wp_inodeWrite_any (H := fun _ => False) h hk hd hdev hlock
      (fun i => text.getD i 0) text.length (by decide : 0 < 2 ^ 32))
  obtain ⟨r, t, hx, ⟨d', hfile, hall⟩, -, hbegin, -⟩ := exists_of_wp hwrite
  obtain rfl : r = text.length := by
    rcases hall with hr | ⟨hr, -⟩
    · exact hr
    · have := hbegin.mpr ⟨hlen.1, hroom⟩
      omega
  -- and read again: its block is there
  have hsize := hfile.size
  have hread := wp_inodeRead (H := fun _ => False) hfile.inv hk upd_self
    (hfile.type ▸ hdev) buffer 0 1024
  obtain ⟨⟨size, buffer'⟩, u, hy, d'', hr⟩ := exists_of_wp hread
  have hin := hr.inside (Nat.zero_le _) (by decide)
  obtain ⟨hgot, -, -⟩ := hin.idle fun p _ hp => by
    have hblock : p / 4096 = 0 := by omega
    rw [hblock]
    exact hfile.mapped 0 le_rfl (by omega)
  refine ⟨t, u, ?_, ?_⟩
  · rw [etcVmReset, htext, writeText, exec_bind_of_ok hx]
    rfl
  · rw [etcVmParse, exec_bind_of_ok hy]
    show Except.ok (parseVm buffer' size dest, u) = _
    have hgot' : size = min 1024 (d'.size.toNat - 0) := hgot
    rw [parseVm_text config dest hlo hhi htext.symm (by omega) (by omega) fun i hi => ?_]
    have hb := hin.bytes i
    have hf := hfile.bytes i
    rw [if_pos (by omega)] at hf
    rw [show (size, buffer').2 = buffer' from rfl, if_pos (by simp only; omega), Nat.sub_zero, zero_add, hf] at hb
    rw [hb]
    simp [hi]

end RoundTrip

/-- A file of two hundred nines gets a configuration. -/
theorem etcVm_roundTrip_longer : ∃ s k t u, (s.mem.inodes k).d.size.toNat = 200 ∧
    (etcVmReset ⟨.writeThrough, -5⟩ k).exec s = .ok ((), t) ∧
    (etcVmParse (fill 0) k ⟨.writeBack, 0⟩).exec t = .ok (.ok (0, ⟨.writeThrough, -5⟩), u) := by
  obtain ⟨s₀, ino, R, L, k, n, d, h, htest⟩ := exists_lockedFile_of
    (fun k u => returns ((inodeWrite k (fill 57) 0 200).exec u) fun r _ => decide (r = 200))
    (by decide +kernel)
  obtain ⟨r, s, hx, hr⟩ := exists_of_returns htest
  obtain rfl := of_decide_eq_true hr
  have hdev : d.type ≠ FS_TYPE_DEV := by
    rw [h.type]
    decide
  obtain ⟨-, -, hwrote⟩ := wp_ok
    (wp_inodeWrite_any (H := fun _ => False) h.inv h.ref h.inode hdev h.lock (fill 57) 200
    (by decide : 0 < 2 ^ 32)) hx
  obtain ⟨d', hfile⟩ := hwrote (by decide)
  have hroom : (takenBits s.disk).card + need s.disk d' 0 ≤ NDATA := by
    have hneed : need s.disk d' 0 = 0 := hfile.mapped 0 le_rfl (by decide)
    have hcard : (takenBits s.disk).card ≤ (Finset.range NDATA).card := Finset.card_filter_le _ _
    rw [hneed, Nat.add_zero]
    rwa [Finset.card_range] at hcard
  obtain ⟨t, u, ht, hu⟩ := etcVm_roundTrip hfile.inv h.ref h.lock upd_self
    (hfile.type.trans h.type) hroom
    ⟨.writeThrough, -5⟩ ⟨.writeBack, 0⟩ (fill 0) (by decide) (by decide)
  refine ⟨s, k, t, u, ?_, ht, hu⟩
  rw [hfile.inv.slot h.ref upd_self, hfile.size, h.empty]
  rfl

/-! ## The dentry cache -/

/-- What a call of `etc_fs_parse` that returned `r` is to do. -/
structure AllOrNothing (text : List UInt8) (m m' : Mem) (r : ℤ) : Prop where
  nothing : r = -1 → m'.dcache_enabled = m.dcache_enabled ∧ m'.dcache_table = m.dcache_table
  enabled : r = 0 → fsToggle (fsLine text) = some m'.dcache_enabled
  emptied : r = 0 → m'.dcache_enabled ≠ m.dcache_enabled ∨ m'.dcache_enabled = false ∨
    fsFlush (fsLine2 text) = some true → ∀ b, m'.dcache_table b = []

/-- The first line changes the dentry cache, and the second is refused. -/
def HalfApplied (text : List UInt8) (m : Mem) : Prop :=
  fsFlush (fsLine2 text) = none ∧ ∃ enable, fsToggle (fsLine text) = some enable ∧
    (enable ≠ m.dcache_enabled ∨ enable = false ∧ ∃ b, m.dcache_table b ≠ [])

/-- What `etc_fs_parse` reads of the file. -/
def fsRead (buffer : Bytes) (k : ℕ) (s : FS) : List UInt8 :=
  match (inodeRead k buffer 0 127).exec s with
  | .ok ((size, buffer), _) => fsText buffer (min size 127)
  | .error _ => []

/-- The dentry cache that `dcache_set_enabled` leaves. -/
theorem mwp_dcacheSetEnabled {E : Halt → Prop} {Q : Unit → Mem → Prop} {enable : Bool}
    (h : ∀ m' : Mem, m'.dcache_enabled = enable → (m'.dcache_table =
      if enable = true ∧ m.dcache_enabled = true then m.dcache_table else fun _ => []) → Q () m') :
    (dcacheSetEnabled enable).mwp E Q m := by
  show (if !enable || m.dcache_enabled != enable then dcacheReset else pure ()).mwp E Q _
  split
  case isTrue hreset => exact h _ rfl (if_neg (by cases enable <;> simp_all)).symm
  case isFalse hkeep => exact h _ rfl (if_pos (by cases enable <;> simp_all)).symm

/-- A flush empties the cache, and the text that is written back leaves it as it is. -/
theorem mwp_flush {Q : ℤ → Mem → Prop} {flush : Bool}
    (h : ∀ m' : Mem, m'.dcache_enabled = m.dcache_enabled →
      (m'.dcache_table = if flush = true then fun _ => [] else m.dcache_table) → Q 0 m') :
    (if flush then dcacheReset >>= fun _ => etcFsReset k >>= fun _ => pure 0
      else etcFsReset k >>= fun _ => pure 0).mwp NotBuffers Q m := by
  have hopens : Opens .data 3 (etcFsReset k) := opens_getMem.bind fun _ => opens_writeText
  have hreset : ∀ m', m'.dcache_enabled = m.dcache_enabled →
      (m'.dcache_table = if flush = true then fun _ => [] else m.dcache_table) →
      (etcFsReset k >>= fun _ => pure 0).mwp NotBuffers Q m' := by
    intro m' he ht
    refine mwp_bind.mpr (hopens.confines.mwp fun _ m'' (hd : DataOnly m' m'') => ?_)
    exact h m'' (hd.dcache_enabled.trans he) (hd.dcache_table.trans ht)
  cases flush with
  | false => exact hreset m rfl rfl
  | true => exact hreset { m with dcache_table := fun _ => [] } rfl rfl

theorem mwp_parseFs {m0 : Mem} (he : m.dcache_enabled = m0.dcache_enabled)
    (ht : m.dcache_table = m0.dcache_table) :
    (parseFs k text).mwp NotBuffers (fun r m' => AllOrNothing text m0 m' r ↔ ¬ HalfApplied text m0) m := by
  unfold parseFs
  cases htoggle : fsToggle (fsLine text) with
  | none =>
    refine iff_of_true ⟨fun _ => ⟨he, ht⟩, nofun, nofun⟩ ?_
    rintro ⟨-, enable, h, -⟩
    rw [htoggle] at h
    cases h
  | some enable =>
    refine mwp_bind.mpr (mwp_dcacheSetEnabled fun m' he' ht' => ?_)
    rw [he, ht] at ht'
    cases hflush : fsFlush (fsLine2 text) with
    | none =>
      -- the cache is as `dcache_set_enabled` left it
      show AllOrNothing text m0 m' (-1) ↔ _
      constructor
      · rintro ⟨hnothing, -, -⟩ ⟨-, enable', h, hchanged⟩
        obtain rfl : enable = enable' := Option.some.inj (htoggle.symm.trans h)
        obtain ⟨hsame, htable⟩ := hnothing rfl
        rcases hchanged with hne | ⟨rfl, b, hb⟩
        · exact hne (he'.symm.trans hsame)
        · rw [← htable, ht'] at hb
          exact hb rfl
      · intro hhalf
        refine ⟨fun _ => ?_, nofun, nofun⟩
        have hsame : enable = m0.dcache_enabled := by
          by_contra hne
          exact hhalf ⟨hflush, enable, htoggle, .inl hne⟩
        refine ⟨he'.trans hsame, ht'.trans ?_⟩
        cases enable with
        | true => exact if_pos ⟨rfl, hsame.symm⟩
        | false =>
          funext b
          by_contra hb
          exact hhalf ⟨hflush, false, htoggle, .inr ⟨rfl, b, fun h => hb h.symm⟩⟩
    | some flush =>
      have hno : ¬ HalfApplied text m0 := fun hhalf => nomatch hflush.symm.trans hhalf.1
      refine mwp_flush fun m'' he'' ht'' => ?_
      refine iff_of_true ⟨nofun, fun _ => ?_, fun _ hempty b => ?_⟩ hno
      · rw [htoggle, he'', he']
      · rw [ht'']
        split
        case isTrue => rfl
        case isFalse hf =>
          rw [ht', if_neg]
          rintro ⟨rfl, hon⟩
          rcases hempty with hne | hoff | hfl
          · exact hne (he''.trans (he'.trans hon.symm))
          · rw [he'', he'] at hoff
            cases hoff
          · rw [hflush] at hfl
            exact hf (Option.some.inj hfl)

/-- **Parsing the dentry configuration is all or nothing exactly where a first line that changes the
cache is not followed by a second that is refused.** -/
theorem etcFsParse_allOrNothing_iff {buffer : Bytes} {k : ℕ} {s t : FS} {r : ℤ}
    (h : (etcFsParse buffer (some k)).exec s = .ok (r, t)) :
    AllOrNothing (fsRead buffer k s) s.mem t.mem r ↔ ¬ HalfApplied (fsRead buffer k s) s.mem := by
  obtain ⟨⟨size, buffer'⟩, u, hread, hrest⟩ := exists_of_exec_bind h
  have hdata : DataOnly s.mem u.mem :=
    wp_ok (wp_of_mwp ((opens_inodeRead (S := .data)).confines s.mem)) hread
  have htext : fsRead buffer k s = fsText buffer' (min size 127) := by rw [fsRead, hread]
  have hparse : (if size = 0 then pure (-1) else parseFs k (fsText buffer' (min size 127))) =
      parseFs k (fsText buffer' (min size 127)) := by
    split
    case isTrue hzero => rw [hzero]; rfl
    case isFalse => rfl
  rw [htext]
  exact wp_ok (wp_of_mwp (mwp_parseFs hdata.dcache_enabled hdata.dcache_table))
    ((congrArg (exec · u) hparse).symm.trans hrest)

/-- A file gets this text while the dentry cache is on, and is parsed. -/
theorem exists_etcFsParse (text : Name) (test : ℕ → FS → ℤ → Mem → Bool)
    (h : returns ((makeRoot >>= fun _ => script [(1, .open (ascii "/f") 3)]).exec zeroCard) (fun _ t =>
      decide ((t.mem.fdesc_array 0).valid = true) && returns ((inodeOpen (t.mem.fdesc_array 0).inode).exec t) fun _ u =>
        decide ((u.mem.inodes (t.mem.fdesc_array 0).inode).d.size = 0) &&
        returns ((dcacheSetEnabled true >>= fun _ => writeText (t.mem.fdesc_array 0).inode text).exec u) fun _ v =>
          v.mem.dcache_enabled &&
          returns ((etcFsParse (fill 0) (some (t.mem.fdesc_array 0).inode)).exec v) fun r w =>
            test (t.mem.fdesc_array 0).inode v r w.mem) = true) :
    ∃ s t k r, s.mem.dcache_enabled = true ∧ (etcFsParse (fill 0) (some k)).exec s = .ok (r, t) ∧
      test k s r t.mem = true := by
  obtain ⟨u, -, -, -, k, -, -, -, hu⟩ := exists_lockedFile_of (fun k u =>
    returns ((dcacheSetEnabled true >>= fun _ => writeText k text).exec u) fun _ v => v.mem.dcache_enabled &&
      returns ((etcFsParse (fill 0) (some k)).exec v) fun r w => test k v r w.mem) h
  obtain ⟨-, s, -, hs⟩ := exists_of_returns hu
  obtain ⟨hon, hparse⟩ := Bool.and_eq_true_iff.mp hs
  obtain ⟨r, t, hx, ht⟩ := exists_of_returns hparse
  exact ⟨s, t, k, r, hon, hx, ht⟩

/-- A text that turns the cache off and asks for a flush. -/
theorem etcFsParse_allOrNothing_off : ∃ s t k, s.mem.dcache_enabled = true ∧
    (etcFsParse (fill 0) (some k)).exec s = .ok (0, t) ∧ t.mem.dcache_enabled = false ∧
    AllOrNothing (fsRead (fill 0) k s) s.mem t.mem 0 := by
  obtain ⟨s, t, k, r, hon, hx, htest⟩ := exists_etcFsParse (ascii "dentry_cache = off\nflush = 1\n")
    (fun k s r m => decide (r = 0 ∧ m.dcache_enabled = false ∧
    fsFlush (fsLine2 (fsRead (fill 0) k s)) = some true))
    (by decide +kernel)
  obtain ⟨rfl, hoff, hflush⟩ := of_decide_eq_true htest
  refine ⟨s, t, k, hon, hx, hoff, (etcFsParse_allOrNothing_iff hx).mpr fun hhalf => ?_⟩
  exact absurd (hflush.symm.trans hhalf.1) (by simp)

/-- **A text that is refused turns the cache off**: `flush = 2` is no flag. -/
theorem etcFsParse_halfApplied : ∃ s t k, (etcFsParse (fill 0) (some k)).exec s = .ok (-1, t) ∧
    s.mem.dcache_enabled = true ∧ t.mem.dcache_enabled = false := by
  obtain ⟨s, t, k, r, hon, hx, hr⟩ := exists_etcFsParse (ascii "dentry_cache = off\nflush = 2\n")
    (fun _ _ r m => decide (r = -1 ∧ m.dcache_enabled = false)) (by decide +kernel)
  obtain ⟨rfl, hoff⟩ := of_decide_eq_true hr
  exact ⟨s, t, k, hx, hon, hoff⟩

end OsLab
