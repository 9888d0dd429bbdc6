import Kolibri.Lib.Bytes
import Kolibri.Lib.CallStack

/-! # The partition scan (`disk_scan_partitions`, `partition.rs`)

The loop has its state on the stack: the start of the extended partition, the counter, and the `ebp` of the
caller. The driver may answer anything to each read.
-/

namespace Kolibri.Partitions

open Bytes CallStack

/-! ## Code -/

def maxNumPartitions : BitVec 32 := 256

structure Disk where
  sectorSize : BitVec 32
  capacity : BitVec 64

/-- Is the global buffer free, is there memory for another one, what does a read deliver, is there a valid GPT. -/
structure World where
  globalBufferFree : Bool
  kernelAlloc : Bool
  read : Nat → BitVec 32 → BitVec 32 × (Nat → BitVec 8)
  scanGpt : Bool

structure Log where
  reads : List (BitVec 32)
  partitions : List (BitVec 64 × BitVec 64)

structure Machine where
  stack : Stack
  ebp : BitVec 32

variable (d : Disk) (buffer : Nat → BitVec 8) (entry : Nat)

def bootable : BitVec 8 := buffer entry

def partitionType : BitVec 8 := buffer (entry + 4)

def firstAbsSector : BitVec 32 := readU32 buffer (entry + 8)

def entryLength : BitVec 32 := readU32 buffer (entry + 12)

def isPartitionTableEntry (ebp : BitVec 32) : Bool :=
  if bootable buffer entry &&& 0x7F ≠ 0 then false
  else
    let sum := ebp.toNat + (firstAbsSector buffer entry).toNat + (entryLength buffer entry).toNat
    decide (sum / 2 < d.capacity.toNat)

def isProtectiveMbr (ecx : Nat) : Bool :=
  let length := entryLength buffer ecx
  buffer (ecx - 2) == 0 && buffer (ecx - 1) == 0 && bootable buffer ecx == 0 && partitionType buffer ecx == 0xEE &&
    firstAbsSector buffer ecx == 1 && (length == 0xFFFFFFFF || length == 0xFFFFFFFF + d.capacity.setWidth 32) &&
    (List.range 48).all fun i => buffer (ecx + 16 + i) == 0

def isExtendedPartitionType (ty : BitVec 8) : Bool := ty == 0x05 || ty == 0x0f || ty == 0xc5 || ty == 0xd5

inductive EntryKind
  | ignored
  | extended (first : BitVec 32)
  | normal (start length : BitVec 64)

def entryKind (ebp : BitVec 32) (entry : Nat) : EntryKind :=
  if !isPartitionTableEntry d buffer entry ebp then .ignored
  else if partitionType buffer entry = 0 then .ignored
  else if isExtendedPartitionType (partitionType buffer entry) then .extended (firstAbsSector buffer entry)
  else .normal (ebp.setWidth 64 + (firstAbsSector buffer entry).setWidth 64) ((entryLength buffer entry).setWidth 64)

/-- The start of an extended partition goes to the top of the stack. -/
def processPartitionTableEntry (r : Machine × Log) (entry : Nat) : Machine × Log :=
  match entryKind d buffer r.1.ebp entry with
  | .ignored => r
  | .extended first => ({ r.1 with stack := r.1.stack.setTop first }, r.2)
  | .normal start length => (r.1, { r.2 with partitions := r.2.partitions ++ [(start, length)] })

def tableEntries : List Nat := [0x1be, 0x1ce, 0x1de, 0x1ee]

/-- Steps 6 to 10: what a sector is taken for. -/
inductive SectorKind
  | failed
  | notMbr
  | gpt
  | mbr
  deriving DecidableEq

def sectorKind (scanGpt : Bool) (ecx ebp : BitVec 32) : SectorKind :=
  if ecx - 1 ≠ 0 then .failed
  else if ¬ (buffer 0x1fe = 0x55 ∧ buffer 0x1ff = 0xaa) then .notMbr
  else if ebp ≠ 0 then .mbr
  else if isProtectiveMbr d buffer 0x1be && scanGpt then .gpt
  else if !tableEntries.all fun entry => isPartitionTableEntry d buffer entry ebp then .notMbr
  else if !tableEntries.all fun entry => partitionType buffer entry == 0 then .mbr
  else if buffer 0 = 0xEB ∨ buffer 0 = 0xE9 then .notMbr
  else .mbr

/-- Steps 12 and 13, and whether the loop goes on. -/
def processMbr (m : Machine) (log : Log) : Machine × Log × Bool :=
  let (m, log) := tableEntries.foldl (processPartitionTableEntry d buffer) ({ m with stack := m.stack.push 0 }, log)
  let ebp := m.stack.top
  let stack := m.stack.pop
  if ebp = 0 then (⟨stack, ebp⟩, log, false)
  else
    let eax := stack.top
    let stack := stack.pop
    if 2 ^ 32 ≤ ebp.toNat + eax.toNat then (⟨stack, ebp + eax⟩, log, false)
    else
      let ebp := ebp + eax
      let eax := if eax = 0 then ebp else eax
      let count := stack.top - 1
      (⟨(stack.setTop count).push eax, ebp⟩, log, count != 0)

/-- Step 14. -/
def done (m : Machine) : Machine :=
  let stack := m.stack.pop.pop
  ⟨stack.pop, stack.top⟩

/-- Step 11. -/
def addWholeMedia (log : Log) : Log := { log with partitions := log.partitions ++ [(0, d.capacity)] }

def newMbr (w : World) : Nat → Machine → Log → Option (Machine × Log)
  | 0, _, _ => none
  | n + 1, m, log =>
    let (ecx, buffer) := w.read log.reads.length m.ebp
    -- The driver overwrites the number of sectors on the stack.
    let stack := (m.stack.push 1).setTop ecx
    let m := { m with stack := stack.pop }
    let log := { log with reads := log.reads ++ [m.ebp] }
    match sectorKind d buffer w.scanGpt stack.top m.ebp with
    | .failed | .gpt => some (done m, log)
    | .notMbr => some (done m, addWholeMedia d log)
    | .mbr =>
      let (m, log, more) := processMbr d buffer m log
      if more then newMbr w n m log else some (done m, log)

def loopFuel : Nat := 2 ^ 32

def diskScanPartitions (w : World) (m : Machine) : Option (Machine × Log) :=
  if d.sectorSize = 512 ∧ w.globalBufferFree ∨ w.kernelAlloc then
    let stack := (m.stack.push m.ebp).push maxNumPartitions
    let m : Machine := ⟨stack.push 0, 0⟩
    if d.sectorSize < 512 then some (done m, addWholeMedia d ⟨[], []⟩)
    else newMbr d w loopFuel m ⟨[], []⟩
  else some (m, ⟨[], []⟩)

/-! ## What the scan should do -/

def Returns (w : World) (m : Machine) : Prop :=
  ∃ m' log, diskScanPartitions d w m = some (m', log) ∧ log.reads.length ≤ 256 ∧
    m'.stack.esp = m.stack.esp ∧ m'.ebp = m.ebp ∧ m'.stack.top = m.stack.top

def extendedEntry (sector : BitVec 32) : BitVec 32 :=
  tableEntries.foldl (fun slot entry =>
    match entryKind d buffer sector entry with
    | .extended first => first
    | _ => slot) 0

/-- No EBR of the next `n` is 2^32 sectors or more from the start of the disk. -/
def ChainFits (w : World) : Nat → Nat → BitVec 32 → BitVec 32 → Prop
  | 0, _, _, _ => True
  | n + 1, k, sector, extended =>
    let (ecx, buffer) := w.read k sector
    let first := extendedEntry d buffer sector
    sectorKind d buffer w.scanGpt ecx sector = .mbr → first ≠ 0 → first.toNat + extended.toNat < 2 ^ 32 ∧
        ChainFits w n (k + 1) (first + extended) (if extended = 0 then first + extended else extended)

/-! ## One round -/

variable {d buffer} {w : World} {m : Machine} {log : Log} {slot : BitVec 32} {xs : List (BitVec 32)}

theorem process_entry_spec (h : Holds m.stack (slot :: xs)) (hlen : xs.length < 2 ^ 29) (entry : Nat) :
    ∃ stack log', processPartitionTableEntry d buffer (m, log) entry = (⟨stack, m.ebp⟩, log') ∧
      stack.esp = m.stack.esp ∧ log'.reads = log.reads ∧
      Holds stack ((match entryKind d buffer m.ebp entry with
        | .extended first => first
        | _ => slot) :: xs) := by
  unfold processPartitionTableEntry
  cases entryKind d buffer m.ebp entry with
  | ignored => exact ⟨m.stack, log, rfl, rfl, rfl, h⟩
  | extended first => exact ⟨_, log, rfl, rfl, rfl, h.setTop first hlen⟩
  | normal start length => exact ⟨m.stack, _, rfl, rfl, rfl, h⟩

theorem process_entries_spec (h : Holds m.stack (slot :: xs)) (hlen : xs.length < 2 ^ 29) (entries : List Nat) :
    ∃ stack log', entries.foldl (processPartitionTableEntry d buffer) (m, log) = (⟨stack, m.ebp⟩, log') ∧
      stack.esp = m.stack.esp ∧ log'.reads = log.reads ∧
      Holds stack (entries.foldl (fun slot entry =>
        match entryKind d buffer m.ebp entry with
        | .extended first => first
        | _ => slot) slot :: xs) := by
  induction entries generalizing m log slot with
  | nil => exact ⟨m.stack, log, rfl, rfl, rfl, h⟩
  | cons entry entries ih =>
    obtain ⟨stack, log', hrun, hesp, hreads, hstack⟩ := @process_entry_spec d buffer m log slot xs h hlen entry
    obtain ⟨stack', log'', hrun', hesp', hreads', hstack'⟩ := @ih ⟨stack, m.ebp⟩ log' _ hstack
    refine ⟨stack', log'', ?_, hesp'.trans hesp, hreads'.trans hreads, hstack'⟩
    rw [List.foldl_cons, hrun, hrun']

inductive Round (m : Machine) (first extended count ebp ret : BitVec 32) : Machine → Bool → Prop
  | last {m' : Machine} (hfirst : first = 0) (hesp : m'.stack.esp = m.stack.esp)
    (hstack : Holds m'.stack [extended, count, ebp, ret]) : Round m first extended count ebp ret m' false
  | far {m' : Machine} (hfirst : first ≠ 0) (hfar : 2 ^ 32 ≤ first.toNat + extended.toNat)
    (hesp : m'.stack.esp = m.stack.esp + 4) : Round m first extended count ebp ret m' false
  | next {m' : Machine} (hfirst : first ≠ 0) (hnear : first.toNat + extended.toNat < 2 ^ 32)
    (hesp : m'.stack.esp = m.stack.esp) (hebp : m'.ebp = first + extended)
    (hstack : Holds m'.stack [if extended = 0 then first + extended else extended, count - 1, ebp, ret]) :
    Round m first extended count ebp ret m' (count - 1 != 0)

theorem process_mbr_spec {extended count ebp ret : BitVec 32} (h : Holds m.stack [extended, count, ebp, ret]) :
    ∃ m' log' more, processMbr d buffer m log = (m', log', more) ∧ log'.reads = log.reads ∧
      Round m (extendedEntry d buffer m.ebp) extended count ebp ret m' more := by
  obtain ⟨stack, log', hrun, hesp, hreads, hstack⟩ := @process_entries_spec d buffer
    { m with stack := m.stack.push 0 } log 0 _ (h.push 0 (by simp)) (by simp) tableEntries
  have hslot : stack.top = extendedEntry d buffer m.ebp := hstack.top
  have hpop := hstack.pop
  have hback : stack.pop.esp = m.stack.esp := by
    rw [pop_esp, hesp]
    exact BitVec.sub_add_cancel _ _
  unfold processMbr
  simp only [hrun, hslot, hpop.top, hpop.pop.top]
  by_cases hzero : extendedEntry d buffer m.ebp = 0
  · rw [if_pos hzero]
    exact ⟨_, _, _, rfl, hreads, .last hzero hback hpop⟩
  rw [if_neg hzero]
  by_cases hfar : 2 ^ 32 ≤ (extendedEntry d buffer m.ebp).toNat + extended.toNat
  · -- The extended partition has been popped already.
    rw [if_pos hfar]
    exact ⟨_, _, _, rfl, hreads, .far hzero hfar (by rw [pop_esp, hback])⟩
  rw [if_neg hfar]
  refine ⟨_, _, _, rfl, hreads, .next hzero (by omega) ?_ rfl ?_⟩
  · rw [push_esp, setTop_esp, pop_esp, hback]
    exact BitVec.add_sub_cancel _ _
  · exact (hpop.pop.setTop _ (by simp)).push _ (by simp)

theorem done_of_holds {extended count ebp ret : BitVec 32} (h : Holds m.stack [extended, count, ebp, ret]) :
    (done m).stack.esp = m.stack.esp + 12 ∧ (done m).ebp = ebp ∧ (done m).stack.top = ret := by
  refine ⟨?_, h.pop.pop.top, h.pop.pop.pop.top⟩
  simp only [done, pop_esp, BitVec.add_assoc]
  rfl

/-! ## The loop -/

def EndsIf (fits : Prop) (m m' : Machine) (ebp ret : BitVec 32) : Prop :=
  (fits → m'.stack.esp = m.stack.esp + 12 ∧ m'.ebp = ebp ∧ m'.stack.top = ret) ∧
    (¬ fits → m'.stack.esp = m.stack.esp + 16)

theorem ends_of_holds {extended count ebp ret : BitVec 32} {m' : Machine} {fits : Prop} (hfits : fits)
    (h : Holds m'.stack [extended, count, ebp, ret]) (hesp : m'.stack.esp = m.stack.esp) :
    EndsIf fits m (done m') ebp ret :=
  ⟨fun _ => hesp ▸ done_of_holds h, fun hnot => absurd hfits hnot⟩

theorem new_mbr_spec {ebp ret : BitVec 32} (n fuel : Nat) (m : Machine) (log : Log) (extended count : BitVec 32)
    (hcount : count.toNat = n) (hpos : 0 < n) (hfuel : n ≤ fuel) (h : Holds m.stack [extended, count, ebp, ret]) :
    ∃ m' log', newMbr d w fuel m log = some (m', log') ∧ log'.reads.length ≤ log.reads.length + n ∧
      EndsIf (ChainFits d w n log.reads.length m.ebp extended) m m' ebp ret := by
  induction n generalizing fuel m log extended count with
  | zero => omega
  | succ n ih =>
    obtain ⟨fuel, rfl⟩ := Nat.exists_eq_add_of_le' hfuel
    rw [← Nat.add_assoc]
    unfold newMbr ChainFits
    rcases w.read log.reads.length m.ebp with ⟨ecx, buffer⟩
    have hpushed : Holds ((m.stack.push 1).setTop ecx) [ecx, extended, count, ebp, ret] :=
      (h.push 1 (by simp)).setTop ecx (by simp)
    have hesp : ((m.stack.push 1).setTop ecx).pop.esp = m.stack.esp := BitVec.sub_add_cancel _ _
    simp only [hpushed.top]
    have hstack := hpushed.pop
    generalize ((m.stack.push 1).setTop ecx).pop = stack at hstack hesp
    cases hkind : sectorKind d buffer w.scanGpt ecx m.ebp with
    | failed => exact ⟨_, _, rfl, by simp, ends_of_holds (by simp) hstack hesp⟩
    | gpt => exact ⟨_, _, rfl, by simp, ends_of_holds (by simp) hstack hesp⟩
    | notMbr => exact ⟨_, _, rfl, by simp [addWholeMedia], ends_of_holds (by simp) hstack hesp⟩
    | mbr =>
      obtain ⟨m1, log1, more, hrun, hreads, hround⟩ := @process_mbr_spec d buffer ⟨stack, m.ebp⟩
        { log with reads := log.reads ++ [m.ebp] } _ _ _ _ hstack
      change Round _ (extendedEntry d buffer m.ebp) _ _ _ _ _ _ at hround
      simp only [hrun, forall_const]
      have hlen : log1.reads.length = log.reads.length + 1 := by simp [hreads]
      cases hround with
      | last hfirst hesp1 hstack1 =>
        refine ⟨_, _, rfl, by omega, ends_of_holds (fun hne => absurd hfirst hne) hstack1 (hesp1.trans hesp)⟩
      | far hfirst hfar hesp1 =>
        refine ⟨_, _, rfl, by omega, fun hfits => ?_, fun _ => ?_⟩
        · have := (hfits hfirst).1
          omega
        · simp only [done, pop_esp, hesp1, hesp, BitVec.add_assoc]
          rfl
      | next hfirst hnear hesp1 hebp hstack1 =>
        have hnext : (count - 1).toNat = n := by
          rw [BitVec.toNat_sub_of_le (by rw [BitVec.le_def]; exact (show 1 ≤ _ by omega)), hcount]
          rfl
        simp only [hfirst, ne_eq, not_false_eq_true, forall_const, hnear, true_and]
        by_cases hlast : count - 1 = 0
        · -- The counter has come to 0.
          have hn : n = 0 := by rw [← hnext, hlast]; rfl
          subst hn
          rw [if_neg (by rw [hlast]; decide)]
          exact ⟨_, _, rfl, by omega, ends_of_holds trivial hstack1 (hesp1.trans hesp)⟩
        rw [if_pos (by simpa using hlast)]
        have hn : 0 < n := by
          rw [← hnext]
          exact Nat.pos_of_ne_zero fun h0 => hlast (BitVec.eq_of_toNat_eq h0)
        obtain ⟨m', log', hrun', hreads', hends⟩ := ih (fuel + n) m1 log1 _ _ hnext hn (by omega) hstack1
        refine ⟨m', log', hrun', by omega, ?_⟩
        rwa [hebp, hlen, EndsIf, hesp1, hesp] at hends

def ScanFits (d : Disk) (w : World) : Prop :=
  (d.sectorSize = 512 ∧ w.globalBufferFree ∨ w.kernelAlloc) → 512 ≤ d.sectorSize → ChainFits d w 256 0 0 0

theorem disk_scan_partitions_spec (d : Disk) (w : World) (m : Machine) :
    ∃ m' log, diskScanPartitions d w m = some (m', log) ∧ log.reads.length ≤ 256 ∧
      (ScanFits d w → m'.stack.esp = m.stack.esp ∧ m'.ebp = m.ebp ∧ m'.stack.top = m.stack.top) ∧
      (¬ ScanFits d w → m'.stack.esp = m.stack.esp + 4) := by
  unfold diskScanPartitions ScanFits
  by_cases hbuffer : d.sectorSize = 512 ∧ w.globalBufferFree ∨ w.kernelAlloc
  · have htop : Holds m.stack [m.stack.top] := ⟨rfl, trivial⟩
    have hframe : Holds (((m.stack.push m.ebp).push maxNumPartitions).push 0)
        [0, maxNumPartitions, m.ebp, m.stack.top] :=
      ((htop.push m.ebp (by simp)).push maxNumPartitions (by simp)).push 0 (by simp)
    have hesp : (((m.stack.push m.ebp).push maxNumPartitions).push 0).esp + 12 = m.stack.esp := by
      simp only [push_esp]
      bv_omega
    simp only [hbuffer, if_true, true_implies]
    generalize ((m.stack.push m.ebp).push maxNumPartitions).push 0 = stack at hframe hesp
    by_cases hsmall : d.sectorSize < 512
    · rw [if_pos hsmall]
      have hnot : ¬ 512 ≤ d.sectorSize := by rw [BitVec.not_le]; exact hsmall
      obtain ⟨h1, h2, h3⟩ := @done_of_holds ⟨stack, 0⟩ _ _ _ _ hframe
      exact ⟨_, _, rfl, by simp [addWholeMedia], fun _ => ⟨h1.trans hesp, h2, h3⟩,
        fun hfar => absurd (fun hle => absurd hle hnot) hfar⟩
    rw [if_neg hsmall]
    have hle : 512 ≤ d.sectorSize := by rw [← BitVec.not_lt]; exact hsmall
    obtain ⟨m', log', hrun, hreads, hgood, hbad⟩ := @new_mbr_spec d w _ _ 256 loopFuel ⟨stack, 0⟩ ⟨[], []⟩ 0
      maxNumPartitions rfl (by decide) (by decide) hframe
    refine ⟨m', log', hrun, by simpa using hreads, fun hfits => ?_, fun hfar => ?_⟩
    · obtain ⟨h1, h2, h3⟩ := hgood (hfits hle)
      exact ⟨h1.trans hesp, h2, h3⟩
    · rw [hbad fun hfits => hfar fun _ => hfits, ← hesp, BitVec.add_assoc]
      rfl
  · rw [if_neg hbuffer]
    exact ⟨_, _, rfl, by simp, fun _ => ⟨rfl, rfl, rfl⟩, fun hfar => absurd (fun h => absurd h hbuffer) hfar⟩

/-- **The scan returns to its caller** exactly if no EBR of the chain is out of reach. -/
theorem disk_scan_partitions_returns_iff (d : Disk) (w : World) (m : Machine) : Returns d w m ↔ ScanFits d w := by
  obtain ⟨m', log, hrun, hreads, hgood, hbad⟩ := disk_scan_partitions_spec d w m
  unfold Returns
  rw [hrun]
  constructor
  · rintro ⟨_, _, heq, -, hesp, -⟩
    cases heq
    by_contra hfar
    rw [hbad hfar] at hesp
    exact absurd (add_eq_left.mp hesp) (by decide)
  · exact fun hfits => ⟨m', log, rfl, hreads, hgood hfits⟩

def farExtended : World where
  globalBufferFree := true
  kernelAlloc := true
  read _ _ := (1, fun i =>
    if i = 0x1c2 then 0x05 else if i = 0x1c9 then 0x80 else if i = 0x1ca then 0x01
    else if i = 0x1fe then 0x55 else if i = 0x1ff then 0xaa else 0)
  scanGpt := false

/-- The second EBR is at 2^32, and the scan takes its return address for `ebp`. -/
theorem disk_scan_partitions_lost : ¬ ∀ (d : Disk) (w : World) (m : Machine), Returns d w m := by
  intro h
  obtain ⟨m', log, hrun, -, hesp, -⟩ := h ⟨512, 2 ^ 33⟩ farExtended ⟨⟨0x1000, fun _ => 7⟩, 9⟩
  have hwrong : (diskScanPartitions ⟨512, 2 ^ 33⟩ farExtended ⟨⟨0x1000, fun _ => 7⟩, 9⟩).map
      (fun r => (r.1.stack.esp, r.1.ebp)) = some (0x1004, 7) := by decide +kernel
  rw [hrun] at hwrong
  have hfar : m'.stack.esp = 0x1004 := congrArg Prod.fst (Option.some.inj hwrong)
  rw [hfar] at hesp
  exact absurd hesp (by decide)

end Kolibri.Partitions
