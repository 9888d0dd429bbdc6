import Kolibri.Lib.Ring
import Kolibri.Lib.Run
import Kolibri.Paging

/-! # The ring buffers of sockets (`network/socket.inc`, `core/memory.inc`)

The area of a ring is twice as long as its buffer, and both halves are mapped to the same pages. Every
access goes through the page tables.
-/

namespace Kolibri.SocketRing

open Paging Run Function List BitVec Nat

def socketBufferSize : BitVec 32 := 4096 * 8

structure Ring where
  startPtr : BitVec 32
  endPtr : BitVec 32
  readPtr : BitVec 32
  writePtr : BitVec 32
  size : BitVec 32
  pageTabs : Nat → BitVec 32
  mem : Nat → BitVec 8

/-! ## `create_ring_buffer` -/

/-- The loop: each page is mapped at `edi` and once more `edx` entries behind. -/
def mapTwice (edx : Nat) : Nat → (Nat → BitVec 32) → Nat → BitVec 32 → Nat → BitVec 32
  | 0, pageTabs, _, _ => pageTabs
  | ecx + 1, pageTabs, edi, eax =>
    mapTwice edx ecx (update (update pageTabs edi eax) (edi + edx) eax) (edi + 1) (eax + 0x1000)

structure Answers (size : BitVec 32) where
  space : BitVec 32
  space_page : space.toNat % 4096 = 0
  space_fits : space.toNat + 2 * size.toNat ≤ 2 ^ 32
  pages : BitVec 32
  pages_page : pages.toNat % 4096 = 0
  pages_fit : pages.toNat + size.toNat ≤ 2 ^ 32

variable (pageTabs : Nat → BitVec 32)

def createRingBuffer (size flags : BitVec 32) (a : Answers size) : Option ((Nat → BitVec 32) × BitVec 32) :=
  if size = 0 then none
  else if a.space = 0 then none
  else if a.pages = 0 then none
  else
    let ecx := (size >>> 12).toNat
    some (mapTwice ecx ecx pageTabs (a.space >>> 12).toNat (a.pages ||| flags), a.space)

def socketRingCreate (mem : Nat → BitVec 8) (a : Answers socketBufferSize) :
    Option Ring := do
  let (pageTabs, eax) ← createRingBuffer pageTabs socketBufferSize pgSwr a
  some { startPtr := eax, writePtr := eax, readPtr := eax, size := 0, endPtr := eax + socketBufferSize, pageTabs, mem }

/-! ## Access through the page tables -/

def physical (a : BitVec 32) : Nat :=
  frame (pageTabs (a.toNat / 4096)) * 4096 + a.toNat % 4096

def moved (ecx : BitVec 32) : Nat :=
  (ecx &&& 1).toNat + 2 * (ecx >>> 1 &&& 1).toNat + 4 * (ecx >>> 1 >>> 1).toNat

def Ring.copyTo (s : Ring) : BitVec 32 → List (BitVec 8) → Nat → BitVec 8
  | _, [] => s.mem
  | edi, x :: xs => { s with mem := update s.mem (physical s.pageTabs edi) x }.copyTo (edi + 1) xs

variable (s : Ring)

def Ring.copyFrom (esi : BitVec 32) (n : Nat) : List (BitVec 8) :=
  (List.range n).map fun i => s.mem (physical s.pageTabs (esi + BitVec.ofNat 32 i))

/-! ## The calls -/

def Ring.wrap (ptr : BitVec 32) : BitVec 32 := if ptr < s.endPtr then ptr else ptr - socketBufferSize

def socketRingWrite (data : List (BitVec 8)) : Ring × BitVec 32 :=
  let edi := socketBufferSize - s.size
  let ecx := BitVec.ofNat 32 data.length
  let ecx := if ecx ≤ edi then ecx else edi
  ({ s with
      writePtr := s.wrap (s.writePtr + ecx)
      size := s.size + ecx
      mem := s.copyTo s.writePtr (data.take (moved ecx)) }, ecx)

def socketRingRead (ecx edx : BitVec 32) : BitVec 32 × List (BitVec 8) :=
  let esi := s.readPtr + edx
  -- `jle` after the addition of `size` to the negative offset
  if (-edx).toInt + s.size.toInt ≤ 0 then (0, [])
  else
    let edx := -edx + s.size
    let ecx := if ecx > edx then edx else ecx
    (ecx, s.copyFrom esi (moved ecx))

def socketRingFree (ecx : BitVec 32) : Ring × BitVec 32 :=
  let size := s.size - ecx
  if s.size < ecx then ({ s with size := size + ecx }, 0)
  else ({ s with size, readPtr := s.wrap (s.readPtr + ecx) }, ecx)

inductive Call
  | write (data : List (BitVec 8))
  | read (ecx edx : BitVec 32)
  | free (ecx : BitVec 32)

structure Reply where
  ecx : BitVec 32
  bytes : List (BitVec 8)

def step : Call → Ring × Reply
  | .write data =>
    let (s, ecx) := socketRingWrite s data
    (s, ⟨ecx, []⟩)
  | .read ecx edx =>
    let (ecx, bytes) := socketRingRead s ecx edx
    (s, ⟨ecx, bytes⟩)
  | .free ecx =>
    let (s, ecx) := socketRingFree s ecx
    (s, ⟨ecx, []⟩)

/-! ## A bounded queue -/

def capacity : Nat := 32768

def queueStep (q : List (BitVec 8)) : Call → List (BitVec 8) × Reply
  | .write data =>
    let stored := data.take (capacity - q.length)
    (q ++ stored, ⟨BitVec.ofNat 32 stored.length, []⟩)
  | .read ecx edx =>
    let bytes := (q.drop edx.toNat).take ecx.toNat
    (q, ⟨BitVec.ofNat 32 bytes.length, bytes⟩)
  | .free ecx => if ecx.toNat ≤ q.length then (q.drop ecx.toNat, ⟨ecx, []⟩) else (q, ⟨0, []⟩)

def Call.Admissible : Call → Prop
  | .write data => data.length < 2 ^ 32
  | .read _ edx => edx.toNat < 2 ^ 31
  | .free _ => True

/-! ## The two halves -/

theorem mapTwice_of_lt (edx : Nat) {ecx : Nat} (pageTabs : Nat → BitVec 32) {edi p : Nat} (eax : BitVec 32)
    (h : p < edi ∨ edi + ecx ≤ p ∧ p < edi + edx) : mapTwice edx ecx pageTabs edi eax p = pageTabs p := by
  induction ecx generalizing pageTabs edi eax with
  | zero => rfl
  | succ ecx ih =>
    rw [mapTwice, ih _ _ (by omega), update_of_ne (by omega), update_of_ne (by omega)]

theorem mapTwice_apply {edx ecx : Nat} (hle : ecx ≤ edx) (pageTabs : Nat → BitVec 32) (edi : Nat) (eax : BitVec 32)
    {i : Nat} (hi : i < ecx) :
    mapTwice edx ecx pageTabs edi eax (edi + i) = eax + BitVec.ofNat 32 (0x1000 * i) ∧
      mapTwice edx ecx pageTabs edi eax (edi + edx + i) = eax + BitVec.ofNat 32 (0x1000 * i) := by
  induction ecx generalizing pageTabs edi eax i with
  | zero => omega
  | succ ecx ih =>
    rw [mapTwice]
    cases i with
    | zero =>
      rw [mapTwice_of_lt _ _ _ (by omega), mapTwice_of_lt _ _ _ (by omega), update_of_ne (by omega), Nat.add_zero,
        Nat.add_zero, update_self, update_self, Nat.mul_zero, BitVec.add_zero]
      exact ⟨rfl, rfl⟩
    | succ i =>
      have hnext := ih (by omega) (update (update pageTabs edi eax) (edi + edx) eax) (edi + 1) (eax + 0x1000)
        (show i < ecx by omega)
      rw [BitVec.add_assoc, show (0x1000 : BitVec 32) = BitVec.ofNat 32 0x1000 from rfl, ← BitVec.ofNat_add,
        show 0x1000 + 0x1000 * i = 0x1000 * (i + 1) by omega] at hnext
      rwa [show edi + (i + 1) = edi + 1 + i by omega, show edi + edx + (i + 1) = edi + 1 + edx + i by omega]

theorem frame_entry {pages flags : BitVec 32} (hpages : pages.toNat % 4096 = 0) (hflags : flags.toNat < 4096) {i : Nat}
    (hfit : pages.toNat + 0x1000 * i + 0x1000 ≤ 2 ^ 32) :
    frame ((pages ||| flags) + BitVec.ofNat 32 (0x1000 * i)) * 4096 = pages.toNat + 0x1000 * i := by
  obtain ⟨k, hk⟩ := dvd_of_mod_eq_zero hpages
  have hor : (pages ||| flags).toNat = pages.toNat + flags.toNat := by
    rw [toNat_or, hk]
    exact (two_pow_add_eq_or_of_lt (i := 12) hflags k).symm
  rw [frame, toNat_add, hor, toNat_ofNat]
  omega

/-- Byte `i` of the area is the one of the buffer that has the rest of `i`. -/
structure Mapped (base : Nat) (s : Ring) : Prop where
  fits : s.startPtr.toNat + 2 * capacity ≤ 2 ^ 32
  endPtr : s.endPtr = s.startPtr + socketBufferSize
  physical : ∀ i < 2 * capacity, physical s.pageTabs (s.startPtr + BitVec.ofNat 32 i) = base + i % capacity

variable {a : Answers socketBufferSize} {mem : Nat → BitVec 8} {pageTabs : Nat → BitVec 32}

theorem socketRingCreate_mapped {s : Ring} (h : socketRingCreate pageTabs mem a = some s) :
    Mapped a.pages.toNat s ∧ s.readPtr = s.startPtr ∧ s.writePtr = s.startPtr ∧ s.size = 0 := by
  have hspace : a.space.toNat + 65536 ≤ 2 ^ 32 := a.space_fits
  have hpages : a.pages.toNat + 32768 ≤ 2 ^ 32 := a.pages_fit
  have hspace0 := a.space_page
  have hpages0 := a.pages_page
  unfold socketRingCreate createRingBuffer at h
  split_ifs at h <;> cases h
  refine ⟨⟨hspace, rfl, fun i hi => ?_⟩, rfl, rfl, rfl⟩
  change i < 65536 at hi
  have haddr : (a.space + BitVec.ofNat 32 i).toNat = a.space.toNat + i := by
    rw [toNat_add, toNat_ofNat]
    omega
  have hpage : (a.space >>> 12).toNat = a.space.toNat / 4096 := by
    rw [toNat_ushiftRight, shiftRight_eq_div_pow]
  unfold SocketRing.physical
  rw [haddr, hpage]
  change frame (mapTwice 8 8 _ _ _ _) * 4096 + _ = a.pages.toNat + i % 32768
  -- The page is one of the first half or the same one of the second half.
  have hentry := @mapTwice_apply 8 8 le_rfl pageTabs (a.space.toNat / 4096) (a.pages ||| pgSwr) (i / 4096 % 8) (by omega)
  have hframe := @frame_entry a.pages pgSwr hpages0 (by decide) (i / 4096 % 8) (by omega)
  rcases lt_or_ge i 32768 with hlow | hhigh
  · rw [show (a.space.toNat + i) / 4096 = a.space.toNat / 4096 + i / 4096 % 8 by omega, hentry.1, hframe]
    omega
  · rw [show (a.space.toNat + i) / 4096 = a.space.toNat / 4096 + 8 + i / 4096 % 8 by omega, hentry.2, hframe]
    omega

/-! ## Copies -/

theorem moved_eq (ecx : BitVec 32) : moved ecx = ecx.toNat := by
  have hbit (x : BitVec 32) : (x &&& 1).toNat = x.toNat % 2 := by
    rw [toNat_and]
    exact and_one_is_mod x.toNat
  have hhalf (x : BitVec 32) : (x >>> 1).toNat = x.toNat / 2 := by
    rw [toNat_ushiftRight, shiftRight_eq_div_pow]
  simp only [moved, hbit, hhalf]
  omega

section Copies

variable {base : Nat} {s : Ring}

def Ring.cell (s : Ring) (base i : Nat) : BitVec 8 := s.mem (base + i)

theorem ofNat_add_toNat (a e : BitVec 32) (w : Nat) : a + BitVec.ofNat 32 w + e = a + BitVec.ofNat 32 (w + e.toNat) := by
  rw [ofNat_add, ofNat_toNat, setWidth_eq, add_assoc]

theorem copyTo_cell (h : Mapped base s) {w : Nat} {xs : List (BitVec 8)} (hfit : w + xs.length ≤ 2 * capacity) :
    (fun i => s.copyTo (s.startPtr + BitVec.ofNat 32 w) xs (base + i)) = Ring.put capacity (s.cell base) w xs := by
  induction xs generalizing s w with
  | nil => rfl
  | cons x xs ih =>
    rw [length_cons] at hfit
    have hcell : { s with mem := update s.mem (base + w % capacity) x }.cell base =
        update (s.cell base) (w % capacity) x := by
      funext i
      change update s.mem (base + w % capacity) x (base + i) = _
      by_cases hi : i = w % capacity
      · rw [hi, update_self, update_self]
      · rw [update_of_ne hi, update_of_ne (by omega)]
        rfl
    have hnext := @ih { s with mem := update s.mem (base + w % capacity) x } ⟨h.fits, h.endPtr, h.physical⟩ (w + 1)
      (by omega)
    rw [Ring.copyTo, h.physical w (by omega), ofNat_add_toNat, Ring.put, ← hcell]
    exact hnext

variable {w : Nat}

theorem copyFrom_cell (h : Mapped base s) {n : Nat} (hfit : w + n ≤ 2 * capacity) :
    s.copyFrom (s.startPtr + BitVec.ofNat 32 w) n = (List.range n).map fun i => s.cell base ((w + i) % capacity) := by
  unfold Ring.copyFrom Ring.cell
  refine map_congr_left fun i hi => ?_
  rw [mem_range] at hi
  rw [add_assoc, ← ofNat_add, h.physical (w + i) (by omega)]

theorem wrap_eq (h : Mapped base s) (hw : w < 2 * capacity) :
    s.wrap (s.startPtr + BitVec.ofNat 32 w) = s.startPtr + BitVec.ofNat 32 (w % capacity) := by
  have hfits : s.startPtr.toNat + 65536 ≤ 2 ^ 32 := h.fits
  change w < 65536 at hw
  have hsize : socketBufferSize.toNat = 32768 := rfl
  change _ = s.startPtr + BitVec.ofNat 32 (w % 32768)
  unfold Ring.wrap
  rw [h.endPtr]
  apply eq_of_toNat_eq
  split_ifs with hlt
  · rw [lt_def, toNat_add, toNat_add, toNat_ofNat, hsize] at hlt
    rw [toNat_add, toNat_add, toNat_ofNat, toNat_ofNat]
    omega
  · rw [lt_def, toNat_add, toNat_add, toNat_ofNat, hsize] at hlt
    rw [toNat_sub, toNat_add, toNat_add, toNat_ofNat, toNat_ofNat, hsize]
    omega

end Copies

/-! ## The ring is a queue -/

structure Represents (base : Nat) (s : Ring) (q : List (BitVec 8)) : Prop where
  mapped : Mapped base s
  size : s.size.toNat = q.length
  stands : ∃ r < capacity, s.readPtr = s.startPtr + BitVec.ofNat 32 r ∧
    s.writePtr = s.startPtr + BitVec.ofNat 32 ((r + q.length) % capacity) ∧ Ring.Holds capacity (s.cell base) r q

section Steps

variable {base : Nat} {s : Ring} {q : List (BitVec 8)}

theorem Represents.length_le (h : Represents base s q) : q.length ≤ capacity := by
  obtain ⟨r, -, -, -, hq⟩ := h.stands
  exact hq.length_le

theorem represents_create (h : socketRingCreate pageTabs mem a = some s) : Represents a.pages.toNat s [] := by
  obtain ⟨hmapped, hread, hwrite, hsize⟩ := socketRingCreate_mapped h
  refine ⟨hmapped, by rw [hsize]; rfl, 0, by decide, ?_, ?_, Ring.holds_nil ..⟩
  · rw [hread, BitVec.add_zero]
  · exact hwrite.trans (BitVec.add_zero _).symm

theorem toNat_room (h : Represents base s q) : (socketBufferSize - s.size).toNat = capacity - q.length := by
  have hle : s.size ≤ socketBufferSize := by
    rw [le_def, h.size]
    exact h.length_le
  rw [toNat_sub_of_le hle, h.size]
  rfl

variable {data : List (BitVec 8)} {edx : BitVec 32}

variable (h : Represents base s q)
include h

theorem toNat_stored (hdata : data.length < 2 ^ 32) :
    (if BitVec.ofNat 32 data.length ≤ socketBufferSize - s.size then BitVec.ofNat 32 data.length
      else socketBufferSize - s.size).toNat = (data.take (capacity - q.length)).length := by
  have hlen : (BitVec.ofNat 32 data.length).toNat = data.length := by
    rw [toNat_ofNat, mod_eq_of_lt hdata]
  rw [length_take]
  split_ifs with hfit
  · rw [le_def, hlen, toNat_room h] at hfit
    rw [hlen, min_eq_right hfit]
  · rw [le_def, hlen, toNat_room h] at hfit
    rw [toNat_room h, min_eq_left (by omega)]

theorem write_refines (hdata : data.length < 2 ^ 32) :
    Represents base (socketRingWrite s data).1 (q ++ data.take (capacity - q.length)) ∧
      (socketRingWrite s data).2 = BitVec.ofNat 32 (data.take (capacity - q.length)).length := by
  have hcount := toNat_stored h hdata
  have hsize := h.size
  have hle : q.length ≤ 32768 := h.length_le
  obtain ⟨r, hr, hread, hwrite, hq⟩ := h.stands
  unfold socketRingWrite
  dsimp only
  generalize (if BitVec.ofNat 32 data.length ≤ socketBufferSize - s.size then BitVec.ofNat 32 data.length
    else socketBufferSize - s.size) = ecx at hcount ⊢
  have hstored : data.take (moved ecx) = data.take (capacity - q.length) := by
    rw [moved_eq, hcount, length_take, take_eq_take_iff]
    omega
  have hstored_le : (data.take (capacity - q.length)).length ≤ 32768 - q.length := length_take_le ..
  rw [hstored]
  generalize data.take (capacity - q.length) = stored at hcount hstored_le ⊢
  have hecx : ecx = BitVec.ofNat 32 stored.length := by
    rw [← hcount, ofNat_toNat, setWidth_eq]
  have hbelow : (r + q.length) % capacity + stored.length < 2 * capacity := by
    have : (r + q.length) % capacity < 32768 := mod_lt _ (by decide)
    change _ < 65536
    omega
  refine ⟨⟨⟨h.mapped.fits, h.mapped.endPtr, h.mapped.physical⟩, ?_, r, hr, hread, ?_, ?_⟩, hecx⟩
  · rw [toNat_add, hsize, hcount, length_append]
    omega
  · change s.wrap (s.writePtr + ecx) = _
    rw [hwrite, ofNat_add_toNat, hcount, wrap_eq h.mapped hbelow, mod_add_mod, length_append, add_assoc]
  · have hcopy := @copyTo_cell base s h.mapped ((r + q.length) % capacity) stored (by omega)
    have hput := @Ring.Holds.put _ _ _ _ _ stored hq (by change q.length + stored.length ≤ 32768; omega)
    rw [← hwrite, Ring.put_congr (mod_modEq _ _)] at hcopy
    rwa [← hcopy] at hput

theorem free_refines (ecx : BitVec 32) :
    Represents base (socketRingFree s ecx).1 (queueStep q (.free ecx)).1 ∧
      (socketRingFree s ecx).2 = (queueStep q (.free ecx)).2.ecx := by
  have hsize := h.size
  have hle : q.length ≤ 32768 := h.length_le
  obtain ⟨r, hr, hread, hwrite, hq⟩ := h.stands
  unfold socketRingFree queueStep
  dsimp only
  by_cases hlt : s.size < ecx
  · have hmore : ¬ ecx.toNat ≤ q.length := by
      rw [lt_def, hsize] at hlt
      omega
    rw [if_pos hlt, if_neg hmore, sub_add_cancel]
    exact ⟨h, rfl⟩
  have hmost : ecx.toNat ≤ q.length := by
    rw [lt_def, hsize] at hlt
    omega
  rw [if_neg hlt, if_pos hmost]
  have hbelow : r + ecx.toNat < 2 * capacity := by
    change r < 32768 at hr
    change _ < 65536
    omega
  refine ⟨⟨⟨h.mapped.fits, h.mapped.endPtr, h.mapped.physical⟩, ?_, (r + ecx.toNat) % capacity,
    Nat.mod_lt _ (by decide), ?_, ?_, ?_⟩, rfl⟩
  · rw [toNat_sub_of_le (by rwa [le_def, hsize]), hsize, length_drop]
  · change s.wrap (s.readPtr + ecx) = _
    rw [hread, ofNat_add_toNat, wrap_eq h.mapped hbelow]
  · rw [Nat.mod_add_mod, length_drop, Nat.add_assoc, Nat.add_sub_cancel' hmost]
    exact hwrite
  · exact Ring.holds_mod.mpr (hq.drop ecx.toNat)

theorem no_data_iff (hedx : edx.toNat < 2 ^ 31) : (-edx).toInt + s.size.toInt ≤ 0 ↔ q.length ≤ edx.toNat := by
  have hle : q.length ≤ 32768 := h.length_le
  have hoffset : edx.toInt = edx.toNat := toInt_eq_toNat_of_lt (by omega)
  have hsize : s.size.toInt = q.length := by
    rw [toInt_eq_toNat_of_lt (by rw [h.size]; omega), h.size]
  have hne : edx ≠ BitVec.intMin 32 := by
    rintro rfl
    exact absurd hedx (by decide)
  rw [toInt_neg_of_ne_intMin hne, hoffset, hsize]
  omega

theorem read_refines (ecx : BitVec 32) (hedx : edx.toNat < 2 ^ 31) :
    socketRingRead s ecx edx = (BitVec.ofNat 32 ((q.drop edx.toNat).take ecx.toNat).length,
      (q.drop edx.toNat).take ecx.toNat) := by
  have hle : q.length ≤ 32768 := h.length_le
  obtain ⟨r, hr, hread, -, hq⟩ := h.stands
  unfold socketRingRead
  dsimp only
  by_cases hdata : q.length ≤ edx.toNat
  · rw [if_pos ((no_data_iff h hedx).mpr hdata), drop_of_length_le hdata, take_nil]
    rfl
  rw [if_neg (mt (no_data_iff h hedx).mp hdata)]
  have hleft : (-edx + s.size).toNat = q.length - edx.toNat := by
    rw [neg_add_eq_sub, toNat_sub_of_le (by rw [le_def, h.size]; omega), h.size]
  have hcount : (if ecx > -edx + s.size then -edx + s.size else ecx).toNat =
      ((q.drop edx.toNat).take ecx.toNat).length := by
    rw [length_take, length_drop]
    split_ifs with hmore
    · rw [gt_iff_lt, lt_def, hleft] at hmore
      omega
    · rw [gt_iff_lt, lt_def, hleft] at hmore
      omega
  generalize (if ecx > -edx + s.size then -edx + s.size else ecx) = n at hcount ⊢
  have hn : n.toNat ≤ ecx.toNat ∧ edx.toNat + n.toNat ≤ q.length := by
    rw [length_take, length_drop] at hcount
    omega
  have hfit : r + edx.toNat + n.toNat ≤ 2 * capacity := by
    change r < 32768 at hr
    change _ ≤ 65536
    omega
  have hbytes : (q.drop edx.toNat).take n.toNat = (q.drop edx.toNat).take ecx.toNat := by
    rw [hcount, length_take, take_eq_take_iff]
    omega
  rw [← hcount, ofNat_toNat, setWidth_eq, moved_eq, hread, ofNat_add_toNat,
    copyFrom_cell h.mapped hfit, hq.read hn.2, hbytes]

theorem step_refines {call : Call} (hcall : call.Admissible) :
    Represents base (step s call).1 (queueStep q call).1 ∧ (step s call).2 = (queueStep q call).2 := by
  cases call with
  | write data =>
    obtain ⟨hring, hecx⟩ := write_refines h hcall
    refine ⟨hring, ?_⟩
    change Reply.mk (socketRingWrite s data).2 [] = _
    rw [hecx]
    rfl
  | read ecx edx =>
    refine ⟨h, ?_⟩
    change Reply.mk (socketRingRead s ecx edx).1 (socketRingRead s ecx edx).2 = _
    rw [read_refines h ecx hcall]
    rfl
  | free ecx =>
    obtain ⟨hring, hecx⟩ := free_refines h ecx
    refine ⟨hring, ?_⟩
    change Reply.mk (socketRingFree s ecx).2 [] = _
    rw [hecx, queueStep]
    split_ifs <;> rfl

end Steps

/-- **The ring buffer of a socket is a bounded queue** in every run. -/
theorem socket_ring_is_queue {pageTabs : Nat → BitVec 32} {mem : Nat → BitVec 8} {a : Answers socketBufferSize}
    {s : Ring} (hcreate : socketRingCreate pageTabs mem a = some s) (calls : List Call)
    (hcalls : ∀ call ∈ calls, call.Admissible) :
    (trace step s calls).map Run.Call.output = (trace queueStep [] calls).map Run.Call.output ∧
      (final step s calls).size.toNat = (final queueStep [] calls).length ∧
      (final queueStep [] calls).length ≤ capacity := by
  have hstep (s : Ring) (q : List (BitVec 8)) (call : Call) (h : Represents a.pages.toNat s q)
      (hcall : call.Admissible) := step_refines h hcall
  obtain ⟨hfinal, houtputs⟩ := simulates hstep (represents_create hcreate) hcalls
  exact ⟨houtputs, hfinal.size, hfinal.length_le⟩

def sampleAnswers : Answers socketBufferSize where
  space := 0x80800000
  space_page := by decide
  space_fits := by decide
  pages := 0x100000
  pages_page := by decide
  pages_fit := by decide

def sampleCalls : List Call := [.write [1, 2, 3], .read 8 1, .free 2]

theorem socket_ring_is_queue_sample : ∃ s, socketRingCreate (fun _ => 0) (fun _ => 0) sampleAnswers = some s ∧
    (trace step s sampleCalls).map (fun c => c.output.bytes) = [[], [2, 3], []] ∧
    (final step s sampleCalls).size.toNat = 1 := by
  obtain ⟨s, hs⟩ : ∃ s, socketRingCreate (fun _ => 0) (fun _ => 0) sampleAnswers = some s := ⟨_, rfl⟩
  have hcalls : ∀ call ∈ sampleCalls, call.Admissible := by
    simp [sampleCalls, Call.Admissible]
  obtain ⟨hout, hsize, -⟩ := socket_ring_is_queue hs sampleCalls hcalls
  refine ⟨s, hs, ?_, hsize⟩
  have hbytes := congrArg (List.map Reply.bytes) hout
  exact hbytes

end Kolibri.SocketRing
