import Kolibri.Lib.Run
import Kolibri.Network.IPv4

/-! # Reassembly of fragments (`ipv4_input`)

A run is any sequence of packets, ticks of the timer and writes of other code to the buffers.
-/

namespace Kolibri.Network

open Memory Run Function

/-! ## Runs -/

inductive Event
  /-- A packet, with the bytes from its header on. -/
  | receive (p : Packet) (bytes : List (BitVec 8))
  /-- Other code writes to buffers. -/
  | other (a : BitVec 32) (bytes : List (BitVec 8))
  | tick

def ipv4DecreaseFragmentTtls (net : Net) : Net :=
  { net with fragments := fun i =>
      let slot := net.fragments i
      if slot.ttl = 0 then slot else { slot with ttl := slot.ttl - 1 } }

def step (net : Net) : Event → Net × Option Outcome
  | .receive p bytes =>
    let r := ipv4Input { net with mem := storeBytes net.mem p.edx bytes } p
    (r.1, some r.2)
  | .other a bytes => ({ net with mem := storeBytes net.mem a bytes }, none)
  | .tick => (ipv4DecreaseFragmentTtls net, none)

def RebuildsInside (r : Rebuild) : Prop :=
  ∀ n, ∀ w ∈ rebuildPacketLoop r.mem n r.first, w.1 < r.size.toNat

def StepInside (net : Net) (e : Event) : Prop := ∀ r, (step net e).2 = some (.rebuilt r) → RebuildsInside r

/-! ## Which fragments fit -/

def chain (mem : Mem) : Nat → BitVec 32 → List (BitVec 32)
  | 0, _ => []
  | n + 1, edx => edx :: if nextPtr mem edx = -1 then [] else chain mem n (nextPtr mem edx)

theorem rebuild_eq_flatMap (mem : Mem) (n : Nat) (edx : BitVec 32) :
    rebuildPacketLoop mem n edx = (chain mem n edx).flatMap (copyFragment mem) := by
  induction n generalizing edx with
  | zero => rfl
  | succ n ih =>
    simp only [rebuildPacketLoop, chain, List.flatMap_cons]
    split
    · rfl
    · rw [ih]

/-- The first one is copied with its header. -/
def EntryFits (mem : Mem) (limit : Nat) (header : BitVec 32) : Prop :=
  if fragmentOffset mem header = 0 then (totalLength mem header).toNat ≤ limit
  else totalLength mem header = headerSize mem header ∨
    (headerSize mem header).toNat < (totalLength mem header).toNat ∧
      (fragmentOffset mem header).toNat + (totalLength mem header).toNat ≤ limit

/-- No fragment of the chain ends behind the one that completes it. -/
def Meets (net : Net) : Event → Prop
  | .receive p bytes => ∀ r, (step net (.receive p bytes)).2 = some (.rebuilt r) →
      ∀ n, ∀ buffer ∈ chain r.mem n r.first, EntryFits r.mem (fragmentEnd r.mem p.edx).toNat (entryHeader buffer)
  | _ => True

theorem range_offsets_lt_iff (lo n limit : Nat) (f : Nat → BitVec 8) :
    (∀ w ∈ (List.range n).map fun i => (lo + i, f i), w.1 < limit) ↔ n = 0 ∨ lo + n ≤ limit := by
  simp only [List.mem_map, List.mem_range, forall_exists_index, and_imp, forall_apply_eq_imp_iff₂]
  constructor
  · intro h
    rcases Nat.eq_zero_or_pos n with hn | hn
    · exact .inl hn
    · have := h (n - 1) (by omega)
      omega
  · rintro (rfl | h) i hi <;> omega

theorem copy_fragment_inside_iff (mem : Mem) (limit : BitVec 16) (buffer : BitVec 32) :
    (∀ w ∈ copyFragment mem buffer, w.1 < limit.toNat) ↔ EntryFits mem limit.toNat (entryHeader buffer) := by
  unfold copyFragment EntryFits
  generalize entryHeader buffer = header
  dsimp only
  split
  · have hrange := range_offsets_lt_iff 0 (totalLength mem header).toNat limit.toNat
      fun i => mem (header + BitVec.ofNat 32 i)
    simp only [Nat.zero_add] at hrange
    rw [hrange]
    omega
  rw [range_offsets_lt_iff]
  have hsame : totalLength mem header = headerSize mem header ↔
      (totalLength mem header).toNat = (headerSize mem header).toNat := BitVec.toNat_inj.symm
  rw [hsame, BitVec.toNat_sub]
  -- With a header longer than the packet the count wraps, and the copy leaves every buffer of this size.
  omega

theorem ipv4_input_size {net : Net} {p : Packet} {r : Rebuild} (hr : (ipv4Input net p).2 = .rebuilt r) :
    r.size = fragmentEnd r.mem p.edx := by
  obtain hc | hc | ⟨net', edi, hc | hc | hc⟩ := ipv4_input_cases net p
  · exact absurd (hc.symm.trans hr) (by simp)
  · exact absurd (hc.symm.trans hr) (by simp)
  · rw [hc] at hr
    obtain h | h | ⟨h, -⟩ := has_fragments_cases net' p edi
    all_goals exact absurd (h.symm.trans hr) (by simp)
  · rw [hc] at hr
    obtain h | ⟨r', h, hsize⟩ | ⟨h, -⟩ := is_last_fragment_cases net' p edi
    · exact absurd (h.symm.trans hr) (by simp)
    · cases h.symm.trans hr
      exact hsize
    · exact absurd (h.symm.trans hr) (by simp)
  · rw [hc] at hr
    obtain h | ⟨_, _, _, h⟩ := handle_it_cases net' p.edx edi
    all_goals exact absurd (h.symm.trans hr) (by simp)

theorem rebuilds_inside_iff (r : Rebuild) :
    RebuildsInside r ↔ ∀ n, ∀ buffer ∈ chain r.mem n r.first, EntryFits r.mem r.size.toNat (entryHeader buffer) := by
  simp only [RebuildsInside, rebuild_eq_flatMap, List.mem_flatMap, forall_exists_index, and_imp]
  constructor
  · intro h n buffer hbuffer
    rw [← copy_fragment_inside_iff]
    exact fun w hw => h n w buffer hbuffer hw
  · intro h n w buffer hbuffer hw
    exact (copy_fragment_inside_iff ..).mpr (h n buffer hbuffer) w hw

theorem step_inside_iff (net : Net) (e : Event) : StepInside net e ↔ Meets net e := by
  cases e with
  | receive p bytes =>
    refine forall_congr' fun r => forall_congr' fun hr => ?_
    have hsize := ipv4_input_size (Option.some.inj hr)
    rw [rebuilds_inside_iff, hsize]
  | other a bytes => simp [StepInside, step, Meets]
  | tick => simp [StepInside, step, Meets]

/-- **Reassembly stays in its buffer** along a run exactly if no fragment ends behind the one that completes
its chain. -/
theorem rebuild_inside_iff (net : Net) (es : List Event) :
    Allowed step StepInside net es ↔ Allowed step Meets net es := by
  induction es generalizing net with
  | nil => exact Iff.rfl
  | cons e es ih => simp [Allowed, step_inside_iff, ih]

/-! ## A fragment behind the last one -/

def udpFragment (flagsOffset : List (BitVec 8)) (checksum : List (BitVec 8)) : List (BitVec 8) :=
  [0x45, 0x00, 0x00, 0x1c, 0x00, 0x07] ++ flagsOffset ++ [0x40, 0x11] ++ checksum ++
    [0xc0, 0xa8, 0x00, 0x01, 0xc0, 0xa8, 0x00, 0x02, 1, 2, 3, 4, 5, 6, 7, 8]

def threeFragments : List Event :=
  [.receive (etherPacket 0x80200000 28) (udpFragment [0x20, 0x00] [0xd9, 0x76]),
    .receive (etherPacket 0x80201000 28) (udpFragment [0x20, 0x64] [0xd9, 0x12]),
    .receive (etherPacket 0x80202000 28) (udpFragment [0x00, 0x02] [0xf9, 0x74])]

def rebuildOf (o : Option Outcome) : Option (BitVec 16 × List (Nat × BitVec 8)) :=
  match o with
  | some (.rebuilt r) => some (r.size, rebuildPacketLoop r.mem 2 r.first)
  | _ => none

theorem rebuild_beyond_buffer : ¬ ∀ es : List Event, Allowed step StepInside oneDevice es := by
  intro h
  obtain ⟨-, -, hlast, -⟩ := h threeFragments
  have hrun : ((rebuildOf (step (final step oneDevice (threeFragments.take 2)) threeFragments[2]).2).map fun r =>
      (r.1, decide ((820, 1) ∈ r.2))) = some (44, true) := by decide +kernel
  obtain ⟨⟨size, bytes⟩, hr, heq⟩ := Option.map_eq_some_iff.mp hrun
  unfold rebuildOf at hr
  split at hr
  · next r hstep =>
    cases hr
    simp only [Prod.mk.injEq, decide_eq_true_eq] at heq
    have hinside := hlast r hstep 2 _ heq.2
    rw [heq.1] at hinside
    revert hinside
    decide
  · cases hr

end Kolibri.Network
