import Kolibri.KernelHeap.Blocks

/-!
# `alloc_kernel_space` and `free_kernel_space`

Between two calls every free block is in the list of its size.
-/

namespace Kolibri.KernelHeap

open LinkedLists Tiling FreeList Function List
open UserHeap (memBlockFree memBlockUsed pageAlign)

def Valid (h : Space) (chain spare : List Node) : Prop := Inv h chain spare none fun n => calcIndex (h.size n)

variable {h h' : Space} {chain spare : List Node} {cls : Node → Nat} {n : Nat}

theorem Inv.valid (I : Inv h chain spare none cls) (S : Sized h chain cls) : Valid h chain spare := by
  obtain ⟨members, L⟩ := I.listed
  refine ⟨I.path, I.tiles, I.fits, ⟨members, L.congr (fun j m _ => ?_) (fun _ _ _ => .rfl) (fun _ _ => ⟨rfl, rfl⟩) rfl⟩,
    I.flags, I.ends, I.apart, I.heapFree, I.spares, I.nodup, I.blocks, I.limbo, fun m _ _ => calcIndex_lt (h.size m)⟩
  refine and_congr_right fun hm => and_congr_right fun hf => ?_
  rw [S m hm hf.1]

theorem Valid.members_short (V : Valid h chain spare) {members : Node → List Node}
    (L : Listed h members (InFree h chain none fun n => calcIndex (h.size n)) (InUsed h chain none)) {a : Node}
    (ha : IsHead a) : (members a).length < scanFuel := by
  refine length_lt_scanFuel (L.rings.nodup a ha) fun m hm => ?_
  have hmem : m ∈ chain := by
    cases ha with
    | free hi => exact ((L.free _ m hi).mp hm).1
    | used hi => exact ((L.used _ m hi).mp hm).1
  obtain ⟨d, hd, -, -, rfl⟩ := V.blocks m (mem_append_left _ hmem)
  exact ⟨d, hd, rfl⟩

/-! ## Finding a block -/

theorem smallIndex_eq (hpos : 0 < n) (hmod : n % 4096 = 0) (hlt : n < 2 ^ 32) : smallIndex n = calcIndex n := by
  unfold smallIndex calcIndex
  generalize hecx : (n / 4096 + 2 ^ 32 - 1) % 2 ^ 32 = ecx
  simp only
  split_ifs <;> omega

theorem get_small_block_spec (V : Valid h chain spare) (hpos : 0 < n) (hmod : n % 4096 = 0) (hlt : n < 2 ^ 32) :
    (∃ i, getSmallBlock h n = some (.null, i) ∧ ∀ m ∈ chain, h.flags m = memBlockFree → h.size m < n) ∨
    ∃ x ∈ chain, getSmallBlock h n = some (x, calcIndex (h.size x)) ∧ h.flags x = memBlockFree ∧ n ≤ h.size x := by
  obtain ⟨members, L⟩ := V.listed
  have hindex : ∀ m ∈ chain, h.flags m = memBlockFree → m ∈ members (.freeHead (calcIndex (h.size m))) :=
    fun m hm hf => (L.free _ m (calcIndex_lt _)).mpr ⟨hm, ⟨hf, by simp⟩, rfl⟩
  have hbit : ∀ m ∈ chain, h.flags m = memBlockFree → MaskBit h.memBlockMask (calcIndex (h.size m)) :=
    fun m hm hf => (L.mask _ (calcIndex_lt _)).mpr (ne_nil_of_mem (hindex m hm hf))
  have hsize : ∀ m ∈ chain, 0 < h.size m ∧ h.size m % 4096 = 0 ∧ h.size m < 2 ^ 32 := by
    intro m hm
    obtain ⟨-, h1, h2, h3, h4⟩ := V.mem_spec hm
    have hfits := V.fits
    have hstart : heapStart = 0x80820000 := rfl
    exact ⟨h1, h2, by omega⟩
  rw [getSmallBlock, smallIndex_eq hpos hmod hlt]
  rcases find_list_spec h (calcIndex_lt n) with ⟨hnone, hno⟩ | ⟨i, hsome, hlo, hi, hset, hmin⟩
  · refine .inl ⟨0, by rw [hnone, findBlock], fun m hm hf => ?_⟩
    by_contra hge
    obtain ⟨-, -, hm32⟩ := hsize m hm
    exact hno _ (calcIndex_mono hpos hmod (by omega) hm32) (calcIndex_lt _) (hbit m hm hf)
  rw [hsome]
  simp only [findBlock, scan_head L (.free hi) _ (V.members_short L (.free hi)), Option.map_some]
  cases hfind : (members (.freeHead i)).find? fun edi => decide (n ≤ h.size edi) with
  | some x =>
    obtain ⟨hx, hf, hcls⟩ := (L.free i x hi).mp (mem_of_find?_eq_some hfind)
    have hle : n ≤ h.size x := by simpa using List.find?_some hfind
    exact .inr ⟨x, hx, by rw [← hcls]; rfl, hf.1, hle⟩
  | none =>
    -- Only in the last list can all blocks be too small.
    refine .inl ⟨i, rfl, fun m hm hf => ?_⟩
    have hsmall : ∀ y ∈ members (.freeHead i), h.size y < n := by simpa using List.find?_eq_none.mp hfind
    by_contra hge
    obtain ⟨hmpos, hmmod, hm32⟩ := hsize m hm
    have hclass := calcIndex_mono hpos hmod (by omega : n ≤ h.size m) hm32
    rcases Nat.lt_trichotomy (calcIndex (h.size m)) i with hj | hj | hj
    · exact hmin _ hclass hj (hbit m hm hf)
    · exact hge (hsmall m (hj ▸ hindex m hm hf))
    · obtain ⟨y, hy⟩ := exists_mem_of_ne_nil _ ((L.mask i hi).mp hset)
      obtain ⟨hyc, -, hcls⟩ := (L.free i y hi).mp hy
      obtain ⟨hypos, hymod, hy32⟩ := hsize y hyc
      have hylt := hsmall y hy
      have hjlt := calcIndex_lt (h.size m)
      have hyspec := (calcIndex_spec hypos hymod hy32).1
      have hnspec := (calcIndex_spec hpos hmod hlt).1
      simp only at hcls
      omega

theorem find_used_spec (V : Valid h chain spare) (a : Nat) :
    (findUsed h a = some .null ∧ ∀ m ∈ chain, h.flags m = memBlockUsed → h.base m ≠ a) ∨
    ∃ x ∈ chain, findUsed h a = some x ∧ h.flags x = memBlockUsed ∧ h.base x = a := by
  obtain ⟨members, L⟩ := V.listed
  have hi := usedIndex_lt a
  unfold findUsed
  simp only [scan_head L (.used hi) _ (V.members_short L (.used hi)), Option.map_some]
  cases hfind : (members (.usedHead (usedIndex a))).find? fun esi => decide (h.base esi = a) with
  | some x =>
    obtain ⟨hx, hu, -⟩ := (L.used _ x hi).mp (mem_of_find?_eq_some hfind)
    have hbase : h.base x = a := by simpa using List.find?_some hfind
    exact .inr ⟨x, hx, rfl, hu.1, hbase⟩
  | none =>
    refine .inl ⟨rfl, fun m hm hu hbase => ?_⟩
    have hno : ∀ y ∈ members (.usedHead (usedIndex a)), h.base y ≠ a := by simpa using List.find?_eq_none.mp hfind
    exact hno m ((L.used _ m hi).mpr ⟨hm, ⟨hu, by simp⟩, by rw [hbase]⟩) hbase

/-! ## `alloc_kernel_space` -/

theorem Valid.size_le_heapFree (V : Valid h chain spare) {m : Node} (hm : m ∈ chain) (hf : h.flags m = memBlockFree) :
    h.size m ≤ h.heapFree := by
  obtain ⟨l1, l2, rfl⟩ := append_of_mem hm
  have hsum := V.heapFree
  have hw : weight h none m = h.size m := by simp [weight, hf]
  simp only [map_append, map_cons, sum_append, sum_cons, hw] at hsum
  omega

@[simp] theorem addToUsed_size (h : Space) (x : Node) : (addToUsed h x).size = h.size := rfl

@[simp] theorem addToUsed_base (h : Space) (x : Node) : (addToUsed h x).base = h.base := rfl

@[simp] theorem addToUsed_heapSize (h : Space) (x : Node) : (addToUsed h x).heapSize = h.heapSize := rfl

@[simp] theorem addToUsed_heapFree (h : Space) (x : Node) :
    (addToUsed h x).heapFree = (h.heapFree + 2 ^ 32 - h.size x) % 2 ^ 32 := rfl

@[simp] theorem addToUsed_flags_self (h : Space) (x : Node) : (addToUsed h x).flags x = memBlockUsed := update_self ..

theorem Valid.take_block (V : Valid h chain spare) {x : Node} (hx : x ∈ chain) (hf : h.flags x = memBlockFree)
    (hh : h' = addToUsed (clearIfEmpty (listDel h x) (calcIndex (h.size x))) x) :
    Valid h' chain spare ∧ h'.base x = h.base x ∧ h'.heapSize = h.heapSize ∧ h'.heapFree + h.size x = h.heapFree ∧
      ∀ a s, Alloc h' chain none a s ↔ Alloc h chain none a s ∨ a = h.base x ∧ s = h.size x := by
  have hle := V.size_le_heapFree hx hf
  have hlt := V.heapFree_le
  obtain ⟨I, halloc⟩ := V.unlink_free hx hf
  obtain ⟨I', halloc'⟩ := I.link_used
  subst hh
  simp only [halloc] at halloc'
  rw [clear_if_empty_eq] at I' halloc' ⊢
  refine ⟨I', rfl, rfl, ?_, halloc'⟩
  rw [addToUsed_heapFree]
  show (h.heapFree + 2 ^ 32 - h.size x) % 2 ^ 32 + h.size x = h.heapFree
  omega

theorem Valid.take_part (V : Valid h chain spare) {x y : Node} (hx : x ∈ chain) (hf : h.flags x = memBlockFree)
    (hpos : 0 < n) (hmod : n % 4096 = 0) (hlt : n < h.size x) (hy : h.nextMemblock = y) (hnull : y ≠ .null)
    {h₁ : Space} (hh1 : h₁ = splitBlock h y x n)
    (hh : h' = addToUsed (moveBlock h₁ x (calcIndex (h.size x)) (calcIndex (h₁.size x))) y) :
    ∃ chain' spare', Valid h' chain' spare' ∧ h'.base y = h.base x ∧ h'.heapSize = h.heapSize ∧
      h'.heapFree + n = h.heapFree ∧
      ∀ a s, Alloc h' chain' none a s ↔ Alloc h chain none a s ∨ a = h.base x ∧ s = n := by
  have hle := V.size_le_heapFree hx hf
  have hmax := V.heapFree_le
  obtain ⟨l1, l2, rfl⟩ := append_of_mem hx
  have hspares := V.spares
  cases spare with
  | nil => exact absurd (hy.symm.trans hspares.1) hnull
  | cons y' spare =>
  obtain rfl : y = y' := hy.symm.trans hspares.1
  have hxy : x ≠ y := fun he => V.spare_notMem mem_cons_self (he ▸ hx)
  obtain ⟨I, halloc, hbase, hsize, hother⟩ := V.split hf hpos hmod hlt
  rw [← hh1] at I halloc hbase hsize hother
  have hflags : h₁.flags = h.flags := by rw [hh1]; rfl
  have hxfree : Free h₁ (some y) x := ⟨by rw [hflags, hf], by simpa using Ne.symm hxy⟩
  obtain ⟨I', halloc', hsize', hbase', hflags', hheap', hhf'⟩ := I.move_block (by simp) hxfree (calcIndex_lt (h₁.size x))
  obtain ⟨I'', halloc''⟩ := I'.link_used
  rw [← hh] at I'' halloc''
  have hsame : h'.size = h₁.size := by rw [hh, addToUsed_size, hsize']
  refine ⟨_, _, I''.valid fun m hm hmf => ?_, ?_, ?_, ?_, fun a s => ?_⟩
  · have hmy : m ≠ y := by
      rintro rfl
      rw [hh, addToUsed_flags_self] at hmf
      exact free_ne_used hmf.symm
    rw [hsame]
    by_cases hmx : m = x
    · rw [hmx, update_self]
    · rw [update_of_ne hmx, hother m hmx hmy]
  · rw [hh, addToUsed_base, hbase', hbase]
  · rw [hh, addToUsed_heapSize, hheap', hh1]
    rfl
  · have hold : h₁.heapFree = h.heapFree := by rw [hh1]; rfl
    rw [hh, addToUsed_heapFree, hhf', hsize', hsize, hold]
    omega
  · rw [halloc'', halloc', halloc, hbase', hbase, hsize', hsize]

theorem alloc_kernel_space_spec (V : Valid h chain spare) (size : BitVec 32)
    (hn : pageAlign ((size.toNat + 4095) % 2 ^ 32) = n) (hpos : n ≠ 0) :
    (allocKernelSpace h size = some (h, 0) ∧
      (h.nextMemblock ≠ .null → ∀ m ∈ chain, h.flags m = memBlockFree → h.size m < n)) ∨
    ∃ h' chain' spare', ∃ x ∈ chain, allocKernelSpace h size = some (h', h.base x) ∧
      h.flags x = memBlockFree ∧ n ≤ h.size x ∧ Valid h' chain' spare' ∧ h'.heapSize = h.heapSize ∧
      h'.heapFree + n = h.heapFree ∧ ∀ a s, Alloc h' chain' none a s ↔ Alloc h chain none a s ∨ a = h.base x ∧ s = n := by
  have hmod : n % 4096 = 0 := by rw [← hn, pageAlign]; omega
  have hlt : n < 2 ^ 32 := by rw [← hn, pageAlign]; omega
  unfold allocKernelSpace
  rw [hn]
  simp only
  by_cases hfree : n > h.heapFree
  · rw [if_pos hfree]
    refine .inl ⟨rfl, fun _ m hm hf => ?_⟩
    have hle := V.size_le_heapFree hm hf
    omega
  rw [if_neg hfree]
  rcases get_small_block_spec V (by omega) hmod hlt with ⟨i, hget, hsmall⟩ | ⟨x, hx, hget, hf, hle⟩
  · rw [hget]
    exact .inl ⟨rfl, fun _ => hsmall⟩
  have hxne := (V.mem_block_ne hx).1
  rw [hget]
  simp only [Option.map_some, if_neg hxne, if_neg (not_not.mpr hf)]
  by_cases hexact : h.size x = n
  · rw [if_pos hexact]
    generalize hh : addToUsed (clearIfEmpty (listDel h x) (calcIndex (h.size x))) x = h'
    obtain ⟨V', hbase, hheap, hhf, halloc⟩ := V.take_block hx hf hh.symm
    rw [hexact] at hhf halloc
    exact .inr ⟨h', chain, spare, x, hx, by rw [hbase], hf, hle, V', hheap, hhf, halloc⟩
  rw [if_neg hexact]
  by_cases hnull : h.nextMemblock = .null
  · rw [if_pos hnull]
    exact .inl ⟨rfl, fun hne => absurd hnull hne⟩
  rw [if_neg hnull]
  generalize hy : h.nextMemblock = y at hnull ⊢
  generalize hh1 : splitBlock h y x n = h₁
  generalize hh : addToUsed (moveBlock h₁ x (calcIndex (h.size x)) (calcIndex (h₁.size x))) y = h'
  obtain ⟨chain', spare', V', hbase, hheap, hhf, halloc⟩ :=
    V.take_part hx hf (by omega) hmod (by omega) hy hnull hh1.symm hh.symm
  exact .inr ⟨h', chain', spare', x, hx, by rw [hbase], hf, hle, V', hheap, hhf, halloc⟩

/-! ## `free_kernel_space` -/

theorem Inv.give_back {x : Node} (I : Inv h chain spare (some x) cls) (S : Sized h chain cls)
    (hx : h.flags x ≠ memBlockFree) (hnext : h.flags (h.nextBlock x) ≠ memBlockFree)
    (hh : h' = if h.flags (h.prevBlock x) ≠ memBlockFree then
      addBlock { h with flags := update h.flags x memBlockFree } x (calcIndex (h.size x))
      else mergePrev h x (h.prevBlock x)) :
    ∃ chain' spare', Valid h' chain' spare' ∧ h'.heapSize = h.heapSize ∧
      ∀ a s, Alloc h' chain' none a s ↔ Alloc h chain (some x) a s := by
  by_cases hprev : h.flags (h.prevBlock x) = memBlockFree
  · rw [if_neg (not_not.mpr hprev)] at hh
    obtain ⟨chain', spare', cls', I', S', halloc, hheap⟩ := I.merge_prev S hx hnext hprev
    rw [← hh] at I' S' hheap halloc
    exact ⟨chain', spare', I'.valid S', hheap, halloc⟩
  rw [if_pos hprev] at hh
  obtain ⟨I', halloc⟩ := I.link_free (calcIndex_lt (h.size x)) hnext hprev hh
  refine ⟨chain, spare, I'.valid fun m hm hf => ?_, by rw [hh]; rfl, halloc⟩
  have hsize : h'.size = h.size := by rw [hh]; rfl
  rw [hsize]
  by_cases hmx : m = x
  · rw [hmx, update_self]
  · have hflags : h'.flags m = h.flags m := by rw [hh]; exact update_of_ne hmx _ _
    rw [update_of_ne hmx]
    exact S m hm (hflags.symm.trans hf)

theorem free_kernel_space_spec (V : Valid h chain spare) (base : BitVec 32) :
    (freeKernelSpace h base = some (h, 0) ∧ ∀ s, ¬ Alloc h chain none base.toNat s) ∨
    ∃ h' chain' spare', freeKernelSpace h base = some (h', -1) ∧ Valid h' chain' spare' ∧ h'.heapSize = h.heapSize ∧
      (∃ s, Alloc h chain none base.toNat s) ∧
      ∀ a s, Alloc h' chain' none a s ↔ Alloc h chain none a s ∧ a ≠ base.toNat := by
  unfold freeKernelSpace delFromUsed
  rcases find_used_spec V base.toNat with ⟨hfind, hno⟩ | ⟨x, hx, hfind, hu, hbase⟩
  · rw [hfind]
    refine .inl ⟨rfl, ?_⟩
    rintro s ⟨m, hm, hmu, hmb, -⟩
    exact hno m hm hmu.1 hmb
  rw [hfind]
  have hxne := (V.mem_block_ne hx).1
  have hnofree : h.flags x ≠ memBlockFree := fun he => free_ne_used (he.symm.trans hu)
  simp only [Option.map_some, if_neg hxne, if_neg (not_not.mpr hu)]
  generalize hh1 : ({ listDel _ x with heapFree := _ } : Space) = h₁
  obtain ⟨I, halloc⟩ := V.unlink_used hx hu _ hh1.symm
  have S : Sized h₁ chain fun n => calcIndex (h.size n) := by
    subst hh1
    exact fun _ _ _ => rfl
  have hflags : h₁.flags x ≠ memBlockFree := by
    subst hh1
    exact hnofree
  have hheap : h₁.heapSize = h.heapSize := by
    subst hh1
    rfl
  obtain ⟨chain2, spare2, I2, S2, halloc2, hx2, hnext2, hheap2⟩ := I.merge_next S hflags
  generalize mergeNext h₁ x = h₂ at *
  obtain ⟨chain', spare', V', hheap', halloc'⟩ := I2.give_back S2 hx2 hnext2 rfl
  refine .inr ⟨_, chain', spare', ?_, V', by rw [hheap', hheap2, hheap], ⟨h.size x, x, hx, ⟨hu, by simp⟩, hbase, rfl⟩,
    fun a s => ?_⟩
  · split_ifs <;> rfl
  · rw [halloc', halloc2, halloc, hbase]

end Kolibri.KernelHeap
