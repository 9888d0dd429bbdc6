import Kolibri.Lib.Bytes
import Kolibri.Lib.Run

/-! # Reservation of I/O ports (`port_area.rs`)

A count, and from offset 16 on one record of 16 bytes for each range. A port is enabled if its bit is clear.
-/

namespace Kolibri.PortArea

open Bytes Run Function List BitVec Nat

/-! ## Code -/

structure Entry where
  tid : BitVec 32
  start : BitVec 32
  stop : BitVec 32
  deriving DecidableEq

def entrySize : Nat := 16
def maxReserved : BitVec 32 := 255

def entryAt (ports : Nat → BitVec 8) (i : Nat) : Entry where
  tid := readU32 ports (i * entrySize)
  start := readU32 ports (i * entrySize + 4)
  stop := readU32 ports (i * entrySize + 8)

def ioMapSetBit (port clearAccess : BitVec 32) (ioMap : Nat → BitVec 8) : Nat → BitVec 8 :=
  let byteIndex := (port >>> 3).toNat
  let mask := (1 : BitVec 8) <<< (port &&& 7).toNat
  let cur := ioMap byteIndex
  update ioMap byteIndex (if clearAccess = 0 then cur &&& ~~~ mask else cur ||| mask)

/-- The port wraps, so 2^32 rounds are always enough. -/
def setRange (clearAccess stop : BitVec 32) : Nat → BitVec 32 → (Nat → BitVec 8) → Nat → BitVec 8
  | 0, _, ioMap => ioMap
  | n + 1, port, ioMap =>
    let ioMap := ioMapSetBit port clearAccess ioMap
    if port = stop then ioMap else setRange clearAccess stop n (port + 1) ioMap

variable (start stop : BitVec 32)

def enableRange (ioMap : Nat → BitVec 8) : Nat → BitVec 8 :=
  setRange 0 stop (2 ^ 32) start ioMap

def disableRange (ioMap : Nat → BitVec 8) : Nat → BitVec 8 :=
  setRange 1 stop (2 ^ 32) start ioMap

def overlaps (ports : Nat → BitVec 8) (start stop : BitVec 32) : Nat → Bool
  | 0 => false
  | eax + 1 =>
    let ent := entryAt ports (eax + 1)
    if start ≤ ent.stop ∧ ent.start ≤ stop then true else overlaps ports start stop eax

structure Result where
  ports : Nat → BitVec 8
  ioMap : Nat → BitVec 8
  eax : BitVec 32

variable (ports : Nat → BitVec 8)

def reservePortArea (tid : BitVec 32)
    (ioMap : Nat → BitVec 8) : Result :=
  if stop < start then ⟨ports, ioMap, 1⟩
  else if 65536 ≤ stop then ⟨ports, ioMap, 1⟩
  else
    let count := readU32 ports 0
    if count ≠ 0 ∧ (maxReserved ≤ count ∨ overlaps ports start stop count.toNat) then ⟨ports, ioMap, 1⟩
    else
      let ioMap := enableRange start stop ioMap
      let newCount := count + 1
      let ports := writeU32 ports 0 newCount
      let ent := newCount.toNat * entrySize
      let ports := writeU32 ports ent tid
      let ports := writeU32 ports (ent + 4) start
      let ports := writeU32 ports (ent + 8) stop
      ⟨ports, ioMap, 0⟩

def findEntry (ports : Nat → BitVec 8) (e : Entry) : Nat → Option Nat
  | 0 => none
  | eax + 1 => if entryAt ports (eax + 1) = e then some (eax + 1) else findEntry ports e eax

def compact (edi bytes : Nat) : Nat → BitVec 8 :=
  (List.range bytes).foldl (fun p i => update p (edi + i) (p (edi + entrySize + i))) ports

def freePortArea (tid : BitVec 32)
    (ioMap : Nat → BitVec 8) : Result :=
  match findEntry ports ⟨tid, start, stop⟩ (readU32 ports 0).toNat with
  | none => ⟨ports, ioMap, 1⟩
  | some eax =>
    let bytes := (256 - BitVec.ofNat 32 eax).toNat * entrySize
    let ports := compact ports (eax * entrySize) bytes
    let ports := writeU32 ports 0 (readU32 ports 0 - 1)
    ⟨ports, disableRange start stop ioMap, 0⟩

def rFPortArea (op start stop : BitVec 32) (ports : Nat → BitVec 8) (tid : BitVec 32)
    (ioMap : Nat → BitVec 8) : Result :=
  if op ≠ 0 then freePortArea start stop ports tid ioMap else reservePortArea start stop ports tid ioMap

/-! ## Runs -/

structure State where
  ports : Nat → BitVec 8
  ioMap : BitVec 32 → Nat → BitVec 8

structure Request where
  op : BitVec 32
  tid : BitVec 32
  start : BitVec 32
  stop : BitVec 32

def step (s : State) (r : Request) : State × BitVec 32 :=
  let result := rFPortArea r.op r.start r.stop s.ports r.tid (s.ioMap r.tid)
  (⟨result.ports, update s.ioMap r.tid result.ioMap⟩, result.eax)

def entries : List Entry :=
  (List.range (readU32 ports 0).toNat).map fun i => entryAt ports (i + 1)

def Entry.Covers (e : Entry) (port : Nat) : Prop := e.start.toNat ≤ port ∧ port ≤ e.stop.toNat

def Entry.Apart (e e' : Entry) : Prop := e.stop.toNat < e'.start.toNat ∨ e'.stop.toNat < e.start.toNat

def Entry.Valid (e : Entry) : Prop := e.start.toNat ≤ e.stop.toNat ∧ e.stop.toNat < 65536

def enabled (ioMap : Nat → BitVec 8) (port : Nat) : Prop := (ioMap (port / 8)).getLsbD (port % 8) = false

structure Safe (s : State) : Prop where
  count : (entries s.ports).length ≤ 255
  valid : ∀ e ∈ entries s.ports, e.Valid
  apart : (entries s.ports).Pairwise Entry.Apart
  exact : ∀ tid port, port < 65536 → (enabled (s.ioMap tid) port ↔ ∃ e ∈ entries s.ports, e.tid = tid ∧ e.Covers port)

def Initial (s : State) : Prop :=
  readU32 s.ports 0 = 0 ∧ ∀ tid port, port < 65536 → ¬ enabled (s.ioMap tid) port

/-! ## Bitmaps -/

theorem io_map_set_bit_spec (port c : BitVec 32) (ioMap : Nat → BitVec 8) (q : Nat) :
    enabled (ioMapSetBit port c ioMap) q ↔ if q = port.toNat then c = 0 else enabled ioMap q := by
  have hindex : (port >>> 3).toNat = port.toNat / 8 := by
    rw [toNat_ushiftRight, shiftRight_eq_div_pow]
  have hbit : (port &&& 7).toNat = port.toNat % 8 := by
    rw [toNat_and]
    exact and_two_pow_sub_one_eq_mod port.toNat 3
  have hmask : ∀ j < 8, ((1 : BitVec 8) <<< (port.toNat % 8)).getLsbD j = decide (j = port.toNat % 8) := by
    intro j hj
    rw [getLsbD_shiftLeft]
    by_cases hlt : j < port.toNat % 8
    · simp [hlt, hlt.ne]
    have hone : (1 : BitVec 8).getLsbD (j - port.toNat % 8) = decide (j - port.toNat % 8 = 0) := by
      rw [show (1 : BitVec 8) = 1#8 from rfl, getLsbD_one]
      simp
    rw [hone]
    by_cases heq : j = port.toNat % 8
    · simp [heq, mod_lt]
    · have : ¬ j - port.toNat % 8 = 0 := by omega
      simp [heq, this]
  unfold enabled ioMapSetBit
  simp only [hindex, hbit]
  generalize (1 : BitVec 8) <<< (port.toNat % 8) = mask at hmask ⊢
  by_cases hbyte : q / 8 = port.toNat / 8
  · rw [hbyte, update_self]
    have hlt : q % 8 < 8 := by omega
    have hq := hmask (q % 8) hlt
    have hsame : q % 8 = port.toNat % 8 ↔ q = port.toNat := by omega
    simp only [hsame] at hq
    by_cases hc : c = 0
    · rw [if_pos hc, getLsbD_and, getLsbD_not, hq]
      by_cases hport : q = port.toNat <;> simp [hport, hlt, hc]
    rw [if_neg hc, getLsbD_or, hq]
    by_cases hport : q = port.toNat
    · simp only [hport, decide_true, Bool.or_true, if_true]
      exact ⟨fun h => (by cases h), fun h => absurd h hc⟩
    · simp [hport]
  · have hport : ¬ q = port.toNat := by rintro rfl; exact hbyte rfl
    rw [update_of_ne hbyte, if_neg hport]

theorem set_range_spec (c stop : BitVec 32) (q : Nat) : ∀ (n : Nat) (port : BitVec 32) (ioMap : Nat → BitVec 8),
    port.toNat ≤ stop.toNat → stop.toNat - port.toNat < n → (enabled (setRange c stop n port ioMap) q ↔
        if port.toNat ≤ q ∧ q ≤ stop.toNat then c = 0 else enabled ioMap q) := by
  intro n
  induction n with
  | zero => omega
  | succ n ih =>
    intro port ioMap hle hn
    unfold setRange
    split_ifs with heq hq hq
    · subst heq
      rw [io_map_set_bit_spec, if_pos (by omega)]
    · subst heq
      rw [io_map_set_bit_spec, if_neg (by omega)]
    all_goals
      have hlt : port.toNat < stop.toNat :=
        lt_of_le_of_ne hle fun h => heq (eq_of_toNat_eq h)
      have hnext : (port + 1).toNat = port.toNat + 1 := by bv_omega
      rw [ih (port + 1) _ (by omega) (by omega), hnext, io_map_set_bit_spec]
    · by_cases hfirst : q = port.toNat
      · rw [if_neg (by omega), if_pos hfirst]
      · rw [if_pos (by omega)]
    · rw [if_neg (by omega), if_neg (by omega)]

variable {start stop : BitVec 32} {e : Entry} {ports : Nat → BitVec 8} {k : Nat} {s : State} {r : Request}

theorem enable_range_spec (h : start.toNat ≤ stop.toNat) (ioMap : Nat → BitVec 8) (q : Nat) :
    enabled (enableRange start stop ioMap) q ↔ (start.toNat ≤ q ∧ q ≤ stop.toNat) ∨ enabled ioMap q := by
  rw [enableRange, set_range_spec 0 stop q _ _ _ h (by omega)]
  split_ifs with hq
  · simp [hq]
  · simp [hq]

theorem disable_range_spec (h : start.toNat ≤ stop.toNat) (ioMap : Nat → BitVec 8) (q : Nat) :
    enabled (disableRange start stop ioMap) q ↔ ¬ (start.toNat ≤ q ∧ q ≤ stop.toNat) ∧ enabled ioMap q := by
  rw [disableRange, set_range_spec 1 stop q _ _ _ h (by omega)]
  split_ifs with hq
  · simp [hq]
  · simp [hq]

/-! ## The table -/

theorem length_entries (ports : Nat → BitVec 8) : (entries ports).length = (readU32 ports 0).toNat := by
  simp [entries]

theorem mem_entries : e ∈ entries ports ↔ ∃ i < (readU32 ports 0).toNat, entryAt ports (i + 1) = e := by
  simp [entries]

theorem entryAt_congr {ports' : Nat → BitVec 8} {i j : Nat}
    (h : ∀ o < entrySize, ports' (j * entrySize + o) = ports (i * entrySize + o)) :
    entryAt ports' j = entryAt ports i := by
  unfold entrySize at h
  simp only [entryAt, entrySize, Entry.mk.injEq]
  refine ⟨readU32_congr fun o ho => h o (by omega), readU32_congr fun o ho => ?_, readU32_congr fun o ho => ?_⟩
  · simpa only [add_assoc] using h (4 + o) (by omega)
  · simpa only [add_assoc] using h (8 + o) (by omega)

theorem overlaps_eq_true_iff (ports : Nat → BitVec 8) (start stop : BitVec 32) (n : Nat) :
    overlaps ports start stop n = true ↔
      ∃ i < n, start.toNat ≤ (entryAt ports (i + 1)).stop.toNat ∧ (entryAt ports (i + 1)).start.toNat ≤ stop.toNat := by
  induction n with
  | zero => simp [overlaps]
  | succ n ih =>
    simp only [overlaps, le_def]
    split_ifs with h
    · exact iff_of_true rfl ⟨n, by omega, h⟩
    rw [ih]
    constructor
    · rintro ⟨i, hi, hover⟩
      exact ⟨i, by omega, hover⟩
    rintro ⟨i, hi, hover⟩
    refine ⟨i, ?_, hover⟩
    rcases lt_or_ge i n with hlt | hge
    · exact hlt
    · obtain rfl : i = n := by omega
      exact absurd hover h

theorem find_entry_eq_none_iff (ports : Nat → BitVec 8) (e : Entry) (n : Nat) :
    findEntry ports e n = none ↔ ∀ i < n, entryAt ports (i + 1) ≠ e := by
  induction n with
  | zero => simp [findEntry]
  | succ n ih =>
    unfold findEntry
    split_ifs with h
    · simp only [false_iff, not_forall]
      exact ⟨n, by omega, not_not.mpr h⟩
    · rw [ih, forall_lt_succ_right]
      exact ⟨fun hall => ⟨hall, h⟩, fun hall => hall.1⟩

theorem find_entry_spec {n : Nat} (h : findEntry ports e n = some k) : 1 ≤ k ∧ k ≤ n ∧ entryAt ports k = e := by
  induction n with
  | zero => cases h
  | succ n ih =>
    unfold findEntry at h
    split_ifs at h with heq
    · cases h
      exact ⟨by omega, le_rfl, heq⟩
    · obtain ⟨h1, h2, h3⟩ := ih h
      exact ⟨h1, by omega, h3⟩

theorem compact_apply (ports : Nat → BitVec 8) (edi n o : Nat) :
    compact ports edi n o = if edi ≤ o ∧ o < edi + n then ports (o + entrySize) else ports o := by
  unfold compact
  induction n generalizing o with
  | zero => rw [range_zero, foldl_nil, if_neg (by omega)]
  | succ n ih =>
    rw [range_succ, foldl_append, foldl_cons, foldl_nil]
    by_cases ho : o = edi + n
    · subst ho
      rw [update_self, ih, if_neg (by unfold entrySize; omega), if_pos (by omega)]
      congr 1
      omega
    · rw [update_of_ne ho, ih]
      by_cases hin : edi ≤ o ∧ o < edi + n
      · rw [if_pos hin, if_pos (by omega)]
      · rw [if_neg hin, if_neg (by omega)]

/-! ## Reserving -/

structure Reservable (ports : Nat → BitVec 8) (start stop : BitVec 32) : Prop where
  ordered : start.toNat ≤ stop.toNat
  bound : stop.toNat < 65536
  room : (entries ports).length < 255
  apart : ∀ e ∈ entries ports, ¬ (start.toNat ≤ e.stop.toNat ∧ e.start.toNat ≤ stop.toNat)

theorem entries_append (ports : Nat → BitVec 8) (e : Entry) (h : (entries ports).length < 255) :
    entries (writeU32 (writeU32 (writeU32 (writeU32 ports 0 (readU32 ports 0 + 1))
      ((readU32 ports 0 + 1).toNat * entrySize) e.tid) ((readU32 ports 0 + 1).toNat * entrySize + 4) e.start)
      ((readU32 ports 0 + 1).toNat * entrySize + 8) e.stop) = entries ports ++ [e] := by
  rw [length_entries] at h
  have hcount : (readU32 ports 0 + 1).toNat = (readU32 ports 0).toNat + 1 := by bv_omega
  generalize hent : (readU32 ports 0 + 1).toNat * entrySize = ent
  have hent' : ent = ((readU32 ports 0).toNat + 1) * 16 := by rw [← hent, hcount]; rfl
  generalize hnew : writeU32 (writeU32 (writeU32 (writeU32 ports 0 (readU32 ports 0 + 1)) ent e.tid)
    (ent + 4) e.start) (ent + 8) e.stop = new
  have hzero : readU32 new 0 = readU32 ports 0 + 1 := by
    rw [← hnew, readU32_writeU32_of_disjoint _ _ (by omega), readU32_writeU32_of_disjoint _ _ (by omega),
      readU32_writeU32_of_disjoint _ _ (by omega), readU32_writeU32_self]
  have hold : ∀ i < (readU32 ports 0).toNat, entryAt new (i + 1) = entryAt ports (i + 1) := by
    intro i hi
    refine entryAt_congr fun o ho => ?_
    rw [← hnew]
    unfold entrySize at ho ⊢
    unfold writeU32
    repeat rw [if_neg (by omega)]
  have hlast : entryAt new ((readU32 ports 0).toNat + 1) = e := by
    have h0 : readU32 new ent = e.tid := by
      rw [← hnew, readU32_writeU32_of_disjoint _ _ (by omega), readU32_writeU32_of_disjoint _ _ (by omega),
        readU32_writeU32_self]
    have h4 : readU32 new (ent + 4) = e.start := by
      rw [← hnew, readU32_writeU32_of_disjoint _ _ (by omega), readU32_writeU32_self]
    have h8 : readU32 new (ent + 8) = e.stop := by rw [← hnew, readU32_writeU32_self]
    have hoff : ((readU32 ports 0).toNat + 1) * entrySize = ent := hent'.symm
    simp [entryAt, hoff, h0, h4, h8]
  rw [entries, hzero, hcount, range_succ, map_append, map_singleton, hlast, entries]
  congr 1
  exact map_congr_left fun i hi => hold i (mem_range.mp hi)

theorem reserve_port_area_spec (start stop : BitVec 32) (ports : Nat → BitVec 8) (tid : BitVec 32)
    (ioMap : Nat → BitVec 8) :
    (¬ Reservable ports start stop ∧ reservePortArea start stop ports tid ioMap = ⟨ports, ioMap, 1⟩) ∨
    (Reservable ports start stop ∧ ∃ ports', entries ports' = entries ports ++ [⟨tid, start, stop⟩] ∧
      reservePortArea start stop ports tid ioMap = ⟨ports', enableRange start stop ioMap, 0⟩) := by
  unfold reservePortArea
  dsimp only
  split_ifs with hlt hge hfull
  · exact .inl ⟨fun h => absurd h.ordered (not_le.mpr hlt), rfl⟩
  · exact .inl ⟨fun h => absurd h.bound (not_lt.mpr hge), rfl⟩
  · refine .inl ⟨fun h => ?_, rfl⟩
    obtain ⟨-, hmax | hover⟩ := hfull
    · have hroom := h.room
      rw [length_entries] at hroom
      exact absurd hroom (not_lt.mpr hmax)
    · obtain ⟨i, hi, hover⟩ := (overlaps_eq_true_iff ..).mp hover
      exact h.apart _ (mem_entries.mpr ⟨i, hi, rfl⟩) hover
  · refine .inr ?_
    have hfree : Reservable ports start stop := by
      refine ⟨not_lt.mp hlt, not_le.mp hge, ?_, ?_⟩
      · rw [length_entries]
        rcases Nat.eq_zero_or_pos (readU32 ports 0).toNat with hzero | hpos
        · omega
        · have hne : readU32 ports 0 ≠ 0 := by rintro h0; rw [h0] at hpos; exact absurd hpos (by decide)
          exact not_le.mp fun h => hfull ⟨hne, .inl h⟩
      · intro e he hover
        obtain ⟨i, hi, rfl⟩ := mem_entries.mp he
        have hne : readU32 ports 0 ≠ 0 := by rintro h0; rw [h0] at hi; exact absurd hi (by simp)
        exact hfull ⟨hne, .inr ((overlaps_eq_true_iff ..).mpr ⟨i, hi, hover⟩)⟩
    exact ⟨hfree, _, entries_append ports ⟨tid, start, stop⟩ hfree.room, rfl⟩

/-! ## Freeing -/

theorem entries_erase (ports : Nat → BitVec 8) (hk : 1 ≤ k) (hle : k ≤ (entries ports).length)
    (hcount : (entries ports).length ≤ 255) :
    entries (writeU32 (compact ports (k * entrySize) ((256 - BitVec.ofNat 32 k).toNat * entrySize)) 0
      (readU32 (compact ports (k * entrySize) ((256 - BitVec.ofNat 32 k).toNat * entrySize)) 0 - 1)) =
      (entries ports).eraseIdx (k - 1) := by
  rw [length_entries] at hle hcount
  have hbytes : (256 - BitVec.ofNat 32 k).toNat = 256 - k := by
    bv_omega
  rw [hbytes]
  generalize hmoved : compact ports (k * entrySize) ((256 - k) * entrySize) = moved
  have hbyte : ∀ o, moved o = if k * 16 ≤ o ∧ o < 4096 then ports (o + 16) else ports o := by
    intro o
    rw [← hmoved, compact_apply]
    unfold entrySize
    rw [show k * 16 + (256 - k) * 16 = 4096 by omega]
  have hzero : readU32 moved 0 = readU32 ports 0 := readU32_congr fun i hi => by rw [hbyte, if_neg (by omega)]
  rw [hzero]
  generalize hnew : writeU32 moved 0 (readU32 ports 0 - 1) = new
  have hcount' : (readU32 new 0).toNat = (readU32 ports 0).toNat - 1 := by
    rw [← hnew, readU32_writeU32_self, toNat_sub_of_le (by rw [le_def]; exact (show 1 ≤ _ by omega))]
    rfl
  have hentry : ∀ i, 1 ≤ i → i ≤ 255 → entryAt new i = entryAt ports (if i < k then i else i + 1) := by
    intro i hi hmax
    refine entryAt_congr fun o ho => ?_
    unfold entrySize at ho ⊢
    rw [← hnew, writeU32, if_neg (by omega), hbyte]
    split_ifs
    · omega
    · congr 1; omega
    · rfl
    · omega
  apply ext_getElem
  · rw [length_eraseIdx_of_lt (by rw [length_entries]; omega), length_entries, length_entries, hcount']
  intro i hi hi'
  rw [length_entries, hcount'] at hi
  rw [getElem_eraseIdx]
  simp only [entries, getElem_map, getElem_range]
  rw [hentry (i + 1) (by omega) (by omega)]
  by_cases hlt : i + 1 < k
  · rw [if_pos hlt, dif_pos (by omega)]
  · rw [if_neg hlt, dif_neg (by omega)]

theorem free_port_area_spec (start stop : BitVec 32) (ports : Nat → BitVec 8) (tid : BitVec 32)
    (ioMap : Nat → BitVec 8) (hcount : (entries ports).length ≤ 255) :
    (⟨tid, start, stop⟩ ∉ entries ports ∧ freePortArea start stop ports tid ioMap = ⟨ports, ioMap, 1⟩) ∨
    (∃ k, ∃ hk : k < (entries ports).length, (entries ports)[k] = ⟨tid, start, stop⟩ ∧
      ∃ ports', entries ports' = (entries ports).eraseIdx k ∧
        freePortArea start stop ports tid ioMap = ⟨ports', disableRange start stop ioMap, 0⟩) := by
  unfold freePortArea
  cases hfind : findEntry ports ⟨tid, start, stop⟩ (readU32 ports 0).toNat with
  | none =>
    refine .inl ⟨fun hmem => ?_, rfl⟩
    obtain ⟨i, hi, heq⟩ := mem_entries.mp hmem
    exact (find_entry_eq_none_iff ..).mp hfind i hi heq
  | some eax =>
    obtain ⟨h1, hle, heq⟩ := find_entry_spec hfind
    have hlt : eax - 1 < (entries ports).length := by rw [length_entries]; omega
    refine .inr ⟨eax - 1, hlt, ?_, _, entries_erase ports h1 (by omega) hcount, rfl⟩
    simp [entries, getElem_map, getElem_range, Nat.sub_add_cancel h1, heq]

/-! ## Every history -/

theorem Initial.safe (h : Initial s) : Safe s := by
  have hnil : entries s.ports = [] := by
    rw [entries, h.1]
    rfl
  refine ⟨by simp [hnil], by simp [hnil], by simp [hnil], fun tid port hport => ?_⟩
  simp [hnil, h.2 tid port hport]

theorem Safe.nodup (h : Safe s) : (entries s.ports).Nodup := by
  refine h.apart.imp_of_mem fun {e e'} he _ hapart heq => ?_
  subst heq
  have hvalid := (h.valid e he).1
  unfold Entry.Apart at hapart
  omega

theorem Safe.covers_unique (h : Safe s) {e' : Entry} {port : Nat} (he : e ∈ entries s.ports)
    (he' : e' ∈ entries s.ports) (hc : e.Covers port) (hc' : e'.Covers port) : e = e' := by
  by_contra hne
  have hsymm : Std.Symm Entry.Apart := ⟨fun _ _ hxy => hxy.symm⟩
  have hapart := h.apart.forall he he' hne
  unfold Entry.Covers at hc hc'
  unfold Entry.Apart at hapart
  omega

theorem step_reserve_safe (h : Safe s) (hop : r.op = 0) : Safe (step s r).1 := by
  obtain ⟨-, heq⟩ | ⟨hfree, ports', hentries, heq⟩ :=
    reserve_port_area_spec r.start r.stop s.ports r.tid (s.ioMap r.tid)
  · simp only [step, rFPortArea, hop, ne_eq, not_true_eq_false, if_false, heq, update_eq_self]
    exact h
  simp only [step, rFPortArea, hop, ne_eq, not_true_eq_false, if_false, heq]
  have hcount := hfree.room
  refine ⟨?_, ?_, ?_, ?_⟩
  · rw [hentries, length_append, length_singleton]
    omega
  · rw [hentries]
    intro e he
    rcases mem_append.mp he with he | he
    · exact h.valid e he
    · rw [mem_singleton.mp he]
      exact ⟨hfree.ordered, hfree.bound⟩
  · rw [hentries, pairwise_append]
    refine ⟨h.apart, pairwise_singleton .., fun e he e' he' => ?_⟩
    rw [mem_singleton.mp he']
    have := hfree.apart e he
    unfold Entry.Apart
    dsimp only
    omega
  · intro tid port hport
    simp only [hentries, mem_append, mem_singleton, or_and_right, exists_or, exists_eq_left]
    rw [← h.exact tid port hport]
    by_cases htid : tid = r.tid
    · subst htid
      rw [update_self, enable_range_spec hfree.ordered]
      simp only [Entry.Covers, true_and]
      exact or_comm
    · simp [update_of_ne htid, Ne.symm htid]

theorem step_free_safe (h : Safe s) (hop : r.op ≠ 0) : Safe (step s r).1 := by
  obtain ⟨-, heq⟩ | ⟨k, hk, hat, ports', hentries, heq⟩ :=
    free_port_area_spec r.start r.stop s.ports r.tid (s.ioMap r.tid) h.count
  · simp only [step, rFPortArea, if_pos hop, heq, update_eq_self]
    exact h
  simp only [step, rFPortArea, if_pos hop, heq]
  have hmem : (⟨r.tid, r.start, r.stop⟩ : Entry) ∈ entries s.ports := hat ▸ getElem_mem hk
  have hsub : (entries ports').Sublist (entries s.ports) := hentries ▸ eraseIdx_sublist ..
  -- The entry is in the table only once.
  have hrest : ∀ e, e ∈ entries ports' ↔ e ≠ ⟨r.tid, r.start, r.stop⟩ ∧ e ∈ entries s.ports := by
    intro e
    rw [hentries, ← h.nodup.erase_getElem k hk, hat, h.nodup.mem_erase_iff]
  refine ⟨hsub.length_le.trans h.count, fun e he => h.valid e (hsub.subset he), h.apart.sublist hsub, ?_⟩
  intro tid port hport
  simp only [hrest]
  have hexact := h.exact tid port hport
  have hvalid := (h.valid _ hmem).1
  by_cases htid : tid = r.tid
  · subst htid
    rw [update_self, disable_range_spec hvalid, hexact]
    constructor
    · rintro ⟨hout, e, he, htid, hcovers⟩
      refine ⟨e, ⟨?_, he⟩, htid, hcovers⟩
      rintro rfl
      exact hout hcovers
    · rintro ⟨e, ⟨hne, he⟩, htid, hcovers⟩
      exact ⟨fun hin => hne (h.covers_unique he hmem hcovers hin), e, he, htid, hcovers⟩
  · rw [update_of_ne htid, hexact]
    constructor
    · rintro ⟨e, he, htid', hcovers⟩
      refine ⟨e, ⟨?_, he⟩, htid', hcovers⟩
      rintro rfl
      exact htid htid'.symm
    · rintro ⟨e, ⟨-, he⟩, htid', hcovers⟩
      exact ⟨e, he, htid', hcovers⟩

theorem step_safe (h : Safe s) (r : Request) : Safe (step s r).1 := by
  by_cases hop : r.op = 0
  · exact step_reserve_safe h hop
  · exact step_free_safe h hop

theorem step_refused (h : Safe s) (heax : (step s r).2 = 1) : (step s r).1 = s := by
  by_cases hop : r.op = 0
  · obtain ⟨-, heq⟩ | ⟨-, ports', -, heq⟩ :=
      reserve_port_area_spec r.start r.stop s.ports r.tid (s.ioMap r.tid)
    all_goals simp only [step, rFPortArea, hop, ne_eq, not_true_eq_false, if_false, heq, update_eq_self] at heax ⊢
    exact absurd heax (by decide)
  · obtain ⟨-, heq⟩ | ⟨k, hk, -, ports', -, heq⟩ :=
      free_port_area_spec r.start r.stop s.ports r.tid (s.ioMap r.tid) h.count
    all_goals simp only [step, rFPortArea, if_pos hop, heq, update_eq_self] at heax ⊢
    exact absurd heax (by decide)

theorem step_free_iff (h : Safe s) (hop : r.op ≠ 0) :
    (step s r).2 = 0 ↔ ⟨r.tid, r.start, r.stop⟩ ∈ entries s.ports := by
  obtain ⟨hnot, heq⟩ | ⟨k, hk, hat, ports', -, heq⟩ :=
    free_port_area_spec r.start r.stop s.ports r.tid (s.ioMap r.tid) h.count
  · simp only [step, rFPortArea, if_pos hop, heq]
    exact ⟨fun h => absurd h (by decide), fun hmem => absurd hmem hnot⟩
  · simp only [step, rFPortArea, if_pos hop, heq, true_iff]
    exact hat ▸ getElem_mem hk

/-- **The table and the bitmaps agree** after every history, and the next request respects this. -/
theorem r_f_port_area_consistent (s : State) (hs : Initial s) (rs : List Request) (r : Request) :
    Safe (final step s rs) ∧ ((step (final step s rs) r).2 = 1 → (step (final step s rs) r).1 = final step s rs) ∧
      (r.op ≠ 0 → ((step (final step s rs) r).2 = 0 ↔
        ⟨r.tid, r.start, r.stop⟩ ∈ entries (final step s rs).ports)) := by
  have hstep : ∀ (s : State) (r : Request), Safe s → True → Safe (step s r).1 := fun _ r h _ => step_safe h r
  have hsafe : Safe (final step s rs) := final_inv hstep hs.safe (allowed_of_forall s fun _ _ => trivial)
  exact ⟨hsafe, step_refused hsafe, step_free_iff hsafe⟩

def freshPorts : State := ⟨fun _ => 0, fun _ _ => 0xff⟩

theorem freshPorts_initial : Initial freshPorts := by
  refine ⟨by decide, fun tid port _ => ?_⟩
  have hall : ∀ j < 8, (0xff : BitVec 8).getLsbD j = true := by decide
  unfold enabled
  rw [show freshPorts.ioMap tid (port / 8) = 0xff from rfl, hall _ (by omega)]
  decide

theorem r_f_port_area_consistent_keyboard :
    Safe (final step freshPorts [⟨0, 1, 0x60, 0x64⟩, ⟨0, 2, 0x64, 0x64⟩]) ∧
      entries (final step freshPorts [⟨0, 1, 0x60, 0x64⟩, ⟨0, 2, 0x64, 0x64⟩]).ports = [⟨1, 0x60, 0x64⟩] ∧
      (step (final step freshPorts [⟨0, 1, 0x60, 0x64⟩, ⟨0, 2, 0x64, 0x64⟩]) ⟨1, 2, 0x60, 0x64⟩).2 ≠ 0 := by
  have h := r_f_port_area_consistent freshPorts freshPorts_initial
    [⟨0, 1, 0x60, 0x64⟩, ⟨0, 2, 0x64, 0x64⟩] ⟨1, 2, 0x60, 0x64⟩
  have hentries : entries (final step freshPorts [⟨0, 1, 0x60, 0x64⟩, ⟨0, 2, 0x64, 0x64⟩]).ports =
      [⟨1, 0x60, 0x64⟩] := by decide +kernel
  refine ⟨h.1, hentries, fun hzero => ?_⟩
  have hmem := (h.2.2 (by decide)).mp hzero
  exact absurd hmem (by decide)

end Kolibri.PortArea
