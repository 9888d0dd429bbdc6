import Kolibri.Lib.Memory

/-! # `ipv4_input` (`network/IPv4.inc`)

A counter is found by `edi`, which is the number of a device times four, or what is left in `edi` if the
chain of a slot is broken. The bytes that the rebuild loop writes are told by their offset in what
`kernel_alloc` gives.
-/

namespace Kolibri.Network

open Memory Function

/-! ## Data -/

def ipv4MaxFragments : Nat := 64
def sizeofNetBuff : BitVec 32 := 24
def sizeofFragmentEntry : BitVec 32 := 14
def ipProtoIcmp : BitVec 8 := 1
def ipProtoTcp : BitVec 8 := 6
def ipProtoUdp : BitVec 8 := 17
def afInet4 : BitVec 32 := 2

structure FragmentSlot where
  ttl : BitVec 16
  id : BitVec 16
  srcIp : BitVec 32
  dstIp : BitVec 32
  ptr : BitVec 32

structure Socket where
  ptr : BitVec 32
  domain : BitVec 32
  protocol : BitVec 32

structure Net where
  mem : Mem
  fragments : Fin ipv4MaxFragments → FragmentSlot
  deviceList : List (BitVec 32)
  address : BitVec 32 → BitVec 32
  broadcast : BitVec 32 → BitVec 32
  packetsRx : BitVec 32 → BitVec 32
  packetsDumped : BitVec 32 → BitVec 32
  sockets : List Socket

structure Packet where
  buffer : BitVec 32
  ebx : BitVec 32
  edx : BitVec 32
  ecx : BitVec 32
  kernelAlloc : BitVec 32 → BitVec 32

inductive Handler
  | tcp
  | udp
  | icmp
  | raw (socket : BitVec 32)
  deriving DecidableEq

structure Rebuild where
  mem : Mem
  first : BitVec 32
  size : BitVec 16

inductive Outcome
  | invalidDevice
  | dumped
  | queued
  | passed (handler : Handler) (esi ecx : BitVec 32)
  | rebuilt (r : Rebuild)
  /-- The chain of a slot has no end. -/
  | endless

/-! ## Header fields -/

variable (mem : Mem) (header : BitVec 32)

def headerSize : BitVec 16 := ((mem header).setWidth 16 &&& 0xF) <<< 2

def totalLength : BitVec 16 := swap16 (load16 mem (header + 2))

def fragmentOffset : BitVec 16 := swap16 (load16 mem (header + 6)) <<< 3

def prevPtr (buffer : BitVec 32) : BitVec 32 := load32 mem (buffer + sizeofNetBuff)

def nextPtr (buffer : BitVec 32) : BitVec 32 := load32 mem (buffer + sizeofNetBuff + 4)

def entryHeader (buffer : BitVec 32) : BitVec 32 := buffer + sizeofNetBuff + sizeofFragmentEntry

/-! ## The checksum -/

def adc (x y : BitVec 8) (carry : Bool) : BitVec 8 × Bool :=
  (x + y + (BitVec.ofBool carry).setWidth 8, decide (256 ≤ x.toNat + y.toNat + carry.toNat))

structure Sum where
  bl : BitVec 8
  bh : BitVec 8
  carry : Bool

def addPair (ptr : BitVec 32) (s : Sum) (i : BitVec 32) : Sum :=
  let (bl, carry) := adc s.bl (mem (ptr + (i + 1))) s.carry
  let (bh, carry) := adc s.bh (mem (ptr + i)) carry
  ⟨bl, bh, carry⟩

def ipv4Checksum (ptr : BitVec 32) : Mem × Bool :=
  let s := [0, 2, 4, 6, 8, 12, 14, 16, 18].foldl (addPair mem ptr) ⟨0, 0, false⟩
  let ebx := (s.bh ++ s.bl).setWidth 32 + (BitVec.ofBool s.carry).setWidth 32
  let ebx := (ebx &&& 0xffff) + ebx >>> 16
  let ebx := ebx + ebx >>> 16
  -- `not` does not change the flags, so `jnz` still sees the addition.
  let bx := ~~~ (ebx.setWidth 16)
  let bx := swap16 (if ebx = 0 then bx - 1 else bx)
  let field := bx - load16 mem (ptr + 10)
  (store16 mem (ptr + 10) field, field = 0)

/-! ## Devices and addresses -/

variable (net : Net)

def netPtrToNum4 (ebx : BitVec 32) : Option (BitVec 32) :=
  if ebx = 0 then none else (net.deviceList.findIdx? (· == ebx)).map fun i => BitVec.ofNat 32 (4 * i)

def ipOk (edi eax : BitVec 32) : Bool :=
  eax == net.address edi || eax == net.broadcast edi || eax == 0xffffffff ||
    eax &&& 0x0fffffff == 224 || net.address edi == 0

def dump (edi : BitVec 32) : Net × Outcome :=
  ({ net with packetsDumped := update net.packetsDumped edi (net.packetsDumped edi + 1) }, .dumped)

/-! ## Packets that are not fragmented -/

def findHandler (al : BitVec 8) : Option Handler :=
  if al = ipProtoTcp then some .tcp
  else if al = ipProtoUdp then some .udp
  else if al = ipProtoIcmp then some .icmp
  else (net.sockets.find? fun s => s.domain == afInet4 && s.protocol == al.setWidth 32).map (.raw ·.ptr)

def handleIt (edx edi : BitVec 32) : Net × Outcome :=
  let esi := (headerSize net.mem edx).setWidth 32
  let ecx := (totalLength net.mem edx).setWidth 32 - esi
  let esi := esi + edx
  match findHandler net (net.mem (edx + 9)) with
  | none => dump net edi
  -- A raw socket gets the header too.
  | some (.raw socket) => (net, .passed (.raw socket) edx (ecx + esi - edx))
  | some handler => (net, .passed handler esi ecx)

/-! ## Fragments -/

/-- The slot is found by its keys alone, also if it is not in use. -/
def ipv4FindFragmentSlot (edx : BitVec 32) : Option (Fin ipv4MaxFragments) :=
  (List.finRange ipv4MaxFragments).find? fun i =>
    (net.fragments i).id == load16 net.mem (edx + 4) && (net.fragments i).srcIp == load32 net.mem (edx + 12) &&
      (net.fragments i).dstIp == load32 net.mem (edx + 16)

inductive Walk (α : Type)
  | last (a : α)
  | broken (edi : BitVec 32)
  | endless

def findLastEntry (mem : Mem) : Nat → BitVec 32 → BitVec 32 → Walk (BitVec 32)
  | 0, _, _ => .endless
  | n + 1, edi, esi =>
    if edi ≠ prevPtr mem esi then .broken edi
    else if nextPtr mem esi = -1 then .last esi
    else findLastEntry mem n esi (nextPtr mem esi)

def countBytes (mem : Mem) : Nat → BitVec 32 → BitVec 32 → BitVec 16 → Walk (BitVec 32 × BitVec 16)
  | 0, _, _, _ => .endless
  | n + 1, edi, esi, ax =>
    if prevPtr mem esi ≠ edi then .broken edi
    else
      let ax := ax + totalLength mem (entryHeader esi) - headerSize mem (entryHeader esi)
      if nextPtr mem esi = -1 then .last (esi, ax)
      else countBytes mem n esi (nextPtr mem esi) ax

def linkEntry (prev buffer owner : BitVec 32) : Mem :=
  let mem := store32 mem (buffer + sizeofNetBuff + 4) (-1)
  let mem := store32 mem (buffer + sizeofNetBuff) prev
  store32 mem (buffer + sizeofNetBuff + 8) owner

def appendEntry (last buffer owner : BitVec 32) : Mem :=
  linkEntry (store32 mem (last + sizeofNetBuff + 4) buffer) last buffer owner

def walkFuel : Nat := 2 ^ 32 + 1

variable (p : Packet) (edi : BitVec 32)

def isFirstFragment : Net × Outcome :=
  match (List.finRange ipv4MaxFragments).find? fun i => (net.fragments i).ttl == 0 with
  | none => dump net edi
  | some i =>
    let slot :=
      { ttl := 15
        id := load16 net.mem (p.edx + 4)
        srcIp := load32 net.mem (p.edx + 12)
        dstIp := load32 net.mem (p.edx + 16)
        ptr := p.buffer }
    ({ net with fragments := update net.fragments i slot, mem := linkEntry net.mem (-1) p.buffer p.ebx }, .queued)

def hasFragments : Net × Outcome :=
  if fragmentOffset net.mem p.edx = 0 then isFirstFragment net p edi
  else
    match ipv4FindFragmentSlot net p.edx with
    | none => dump net edi
    | some i =>
      let net := { net with fragments := update net.fragments i { net.fragments i with ttl := 15 } }
      match findLastEntry net.mem walkFuel (-1) (net.fragments i).ptr with
      | .broken edi => dump net edi
      | .endless => (net, .endless)
      | .last last => ({ net with mem := appendEntry net.mem last p.buffer p.ebx }, .queued)

/-- The slot is kept as it is, and so are its links to buffers that are freed now. -/
def isLastFragment : Net × Outcome :=
  match ipv4FindFragmentSlot net p.edx with
  | none => dump net edi
  | some i =>
    match countBytes net.mem walkFuel (-1) (net.fragments i).ptr 0 with
    | .broken _ => dump net edi
    | .endless => (net, .endless)
    | .last (last, ax) =>
      let net := { net with mem := appendEntry net.mem last p.buffer p.ebx }
      let cx := totalLength net.mem p.edx
      let ax := ax + cx
      let cx := cx + fragmentOffset net.mem p.edx
      if ax ≠ cx then dump net edi
      else if p.kernelAlloc (ax.setWidth 32) = 0 then dump net edi
      else ((dump net edi).1, .rebuilt ⟨net.mem, (net.fragments i).ptr, ax⟩)

def copyFragment (edx : BitVec 32) : List (Nat × BitVec 8) :=
  let esi := entryHeader edx
  let cx := fragmentOffset mem esi
  let bx := headerSize mem esi
  let size := totalLength mem esi
  if cx = 0 then (List.range size.toNat).map fun i => (i, mem (esi + BitVec.ofNat 32 i))
  else
    (List.range (size - bx).toNat).map fun i =>
      (cx.toNat + bx.toNat + i, mem (esi + bx.setWidth 32 + BitVec.ofNat 32 i))

def rebuildPacketLoop (mem : Mem) : Nat → BitVec 32 → List (Nat × BitVec 8)
  | 0, _ => []
  | n + 1, edx =>
    copyFragment mem edx ++ if nextPtr mem edx = -1 then [] else rebuildPacketLoop mem n (nextPtr mem edx)

/-! ## The whole call -/

def accepts : Option (BitVec 32) :=
  match netPtrToNum4 net p.ebx with
  | none => none
  | some edi =>
    if (ipv4Checksum net.mem p.edx).2 && ipOk net edi (load32 net.mem (p.edx + 16)) then some edi else none

def ipv4Input : Net × Outcome :=
  match netPtrToNum4 net p.ebx with
  | none => (net, .invalidDevice)
  | some edi =>
    let (mem, ok) := ipv4Checksum net.mem p.edx
    let net := { net with mem }
    if !ok then dump net edi
    else if !ipOk net edi (load32 net.mem (p.edx + 16)) then dump net edi
    else
      let net := { net with packetsRx := update net.packetsRx edi (net.packetsRx edi + 1) }
      let flags := load16 net.mem (p.edx + 6)
      if flags &&& 0x20 ≠ 0 then hasFragments net p edi
      else if flags &&& 0xff1f ≠ 0 then isLastFragment net p edi
      else handleIt net p.edx edi

/-! ## What a call comes to -/

theorem has_fragments_cases :
    (hasFragments net p edi).2 = .dumped ∨ (hasFragments net p edi).2 = .queued ∨
      (hasFragments net p edi).2 = .endless ∧ ∃ mem esi, findLastEntry mem walkFuel (-1) esi = .endless := by
  unfold hasFragments isFirstFragment dump
  split
  · split
    · exact .inl rfl
    · exact .inr (.inl rfl)
  split
  · exact .inl rfl
  dsimp only
  split
  · exact .inl rfl
  · next hwalk => exact .inr (.inr ⟨rfl, _, _, hwalk⟩)
  · exact .inr (.inl rfl)

def fragmentEnd : BitVec 16 := totalLength mem header + fragmentOffset mem header

theorem is_last_fragment_cases :
    (isLastFragment net p edi).2 = .dumped ∨
      (∃ r, (isLastFragment net p edi).2 = .rebuilt r ∧ r.size = fragmentEnd r.mem p.edx) ∨
      (isLastFragment net p edi).2 = .endless ∧ ∃ mem esi, countBytes mem walkFuel (-1) esi 0 = .endless := by
  unfold isLastFragment dump
  split
  · exact .inl rfl
  split
  · exact .inl rfl
  · next hwalk => exact .inr (.inr ⟨rfl, _, _, hwalk⟩)
  · dsimp only
    split
    · exact .inl rfl
    · next hsize =>
      split
      · exact .inl rfl
      · exact .inr (.inl ⟨_, rfl, not_not.mp hsize⟩)

theorem ipv4_input_cases :
    (ipv4Input net p).2 = .invalidDevice ∨ (ipv4Input net p).2 = .dumped ∨
      ∃ net' edi, ipv4Input net p = hasFragments net' p edi ∨ ipv4Input net p = isLastFragment net' p edi ∨
        ipv4Input net p = handleIt net' p.edx edi := by
  unfold ipv4Input
  split
  · exact .inl rfl
  refine .inr ?_
  dsimp only
  split
  · exact .inl rfl
  split
  · exact .inl rfl
  right
  split
  · exact ⟨_, _, .inl rfl⟩
  · split
    · exact ⟨_, _, .inr (.inl rfl)⟩
    · exact ⟨_, _, .inr (.inr rfl)⟩

/-! ## What the checksum leaves -/

theorem checksum_mem_of_ne (ptr : BitVec 32) {i : Nat} (hi : i < 10 ∨ 12 ≤ i) (hlt : i < 2 ^ 16) :
    (ipv4Checksum mem ptr).1 (ptr + BitVec.ofNat 32 i) = mem (ptr + BitVec.ofNat 32 i) :=
  store16_offset hlt (by decide : 10 < 2 ^ 16) (by omega)

theorem checksum_fields (ptr : BitVec 32) :
    headerSize (ipv4Checksum mem ptr).1 ptr = headerSize mem ptr ∧
      totalLength (ipv4Checksum mem ptr).1 ptr = totalLength mem ptr ∧
      load16 (ipv4Checksum mem ptr).1 (ptr + 6) = load16 mem (ptr + 6) ∧
      (ipv4Checksum mem ptr).1 (ptr + 9) = mem (ptr + 9) ∧
      load32 (ipv4Checksum mem ptr).1 (ptr + 16) = load32 mem (ptr + 16) := by
  have hbyte := fun i hi hlt => checksum_mem_of_ne mem ptr (i := i) hi hlt
  have h0 : (ipv4Checksum mem ptr).1 ptr = mem ptr := by simpa using hbyte 0 (by decide) (by decide)
  have hsum : ∀ i j : BitVec 32, ptr + i + j = ptr + (i + j) := fun i j => BitVec.add_assoc ..
  refine ⟨?_, ?_, ?_, hbyte 9 (by decide) (by decide), ?_⟩
  · rw [headerSize, h0]
    rfl
  · simp only [totalLength, load16, hsum]
    rw [show (2 : BitVec 32) + 1 = BitVec.ofNat 32 3 by decide, show (2 : BitVec 32) = BitVec.ofNat 32 2 by decide,
      hbyte 2 (by decide) (by decide), hbyte 3 (by decide) (by decide)]
  · simp only [load16, hsum]
    rw [show (6 : BitVec 32) + 1 = BitVec.ofNat 32 7 by decide, show (6 : BitVec 32) = BitVec.ofNat 32 6 by decide,
      hbyte 6 (by decide) (by decide), hbyte 7 (by decide) (by decide)]
  · simp only [load32, hsum]
    rw [show (16 : BitVec 32) + 3 = BitVec.ofNat 32 19 by decide, show (16 : BitVec 32) + 2 = BitVec.ofNat 32 18 by decide,
      show (16 : BitVec 32) + 1 = BitVec.ofNat 32 17 by decide, show (16 : BitVec 32) = BitVec.ofNat 32 16 by decide,
      hbyte 16 (by decide) (by decide), hbyte 17 (by decide) (by decide), hbyte 18 (by decide) (by decide),
      hbyte 19 (by decide) (by decide)]

/-! ## What is handed on -/

def Unfragmented (edx : BitVec 32) : Prop :=
  load16 mem (edx + 6) &&& 0x20 = 0 ∧ load16 mem (edx + 6) &&& 0xff1f = 0
  deriving Decidable

def IsFor (h : Handler) : Prop :=
  accepts net p ≠ none ∧ Unfragmented net.mem p.edx ∧ findHandler net (net.mem (p.edx + 9)) = some h

def handed (edx : BitVec 32) : Handler → BitVec 32 × BitVec 32
  | .raw _ => (edx, (totalLength mem edx).setWidth 32)
  | _ => ((headerSize mem edx).setWidth 32 + edx,
      (totalLength mem edx).setWidth 32 - (headerSize mem edx).setWidth 32)

theorem handle_it_hands (edx edi : BitVec 32) {g : Handler}
    (hfind : findHandler net (net.mem (edx + 9)) = some g) :
    (handleIt net edx edi).2 = .passed g (handed net.mem edx g).1 (handed net.mem edx g).2 := by
  -- For a raw socket the header is added to the length again.
  have hraw : ∀ a b : BitVec 32, a - b + (b + edx) - edx = a := fun a b => by
    rw [← BitVec.add_assoc, BitVec.sub_add_cancel, BitVec.add_sub_cancel]
  simp only [handleIt, hfind]
  cases g with
  | raw socket => simp only [handed, hraw]
  | _ => rfl

theorem handle_it_spec (edx edi : BitVec 32) (h : Handler) (esi ecx : BitVec 32) :
    (handleIt net edx edi).2 = .passed h esi ecx ↔
      findHandler net (net.mem (edx + 9)) = some h ∧ handed net.mem edx h = (esi, ecx) := by
  cases hfind : findHandler net (net.mem (edx + 9)) with
  | none =>
    simp only [handleIt, hfind, dump]
    simp
  | some g =>
    rw [handle_it_hands net edx edi hfind]
    constructor
    · intro heq
      cases heq
      exact ⟨rfl, rfl⟩
    · rintro ⟨heq, hhanded⟩
      cases heq
      rw [hhanded]

theorem handle_it_cases (edx edi : BitVec 32) :
    (handleIt net edx edi).2 = .dumped ∨ ∃ h esi ecx, (handleIt net edx edi).2 = .passed h esi ecx := by
  cases hfind : findHandler net (net.mem (edx + 9)) with
  | none =>
    simp only [handleIt, hfind]
    exact .inl rfl
  | some g => exact .inr ⟨_, _, _, handle_it_hands net edx edi hfind⟩

theorem ipv4_input_passed (h : Handler) (esi ecx : BitVec 32) :
    (ipv4Input net p).2 = .passed h esi ecx ↔ IsFor net p h ∧ handed net.mem p.edx h = (esi, ecx) := by
  obtain ⟨hheader, htotal, hflags, hproto, haddress⟩ := checksum_fields net.mem p.edx
  unfold ipv4Input IsFor accepts Unfragmented
  cases netPtrToNum4 net p.ebx with
  | none => simp
  | some edi =>
    rcases hcheck : ipv4Checksum net.mem p.edx with ⟨mem, ok⟩
    rw [hcheck] at hheader htotal hflags hproto haddress
    dsimp only at hheader htotal hflags hproto haddress
    have hhanded : handed mem p.edx h = handed net.mem p.edx h := by
      cases h <;> simp [handed, hheader, htotal]
    have hip : ipOk { net with mem } edi (load32 mem (p.edx + 16)) = ipOk net edi (load32 net.mem (p.edx + 16)) := by
      rw [haddress]; rfl
    simp only [hip, hflags]
    cases ok with
    | false => simp [dump]
    | true =>
      cases ipOk net edi (load32 net.mem (p.edx + 16)) with
      | false => simp [dump]
      | true =>
        simp only [Bool.not_true, Bool.false_eq_true, if_false, Bool.and_self, if_true]
        split
        · next hmore =>
          refine ⟨fun heq => ?_, fun hfor => absurd hfor.1.2.1.1 hmore⟩
          obtain hc | hc | ⟨hc, -⟩ := has_fragments_cases _ p edi
          all_goals exact absurd (hc.symm.trans heq) (by simp)
        next hmore =>
        split
        · next hlast =>
          refine ⟨fun heq => ?_, fun hfor => absurd hfor.1.2.1.2 hlast⟩
          obtain hc | ⟨r, hc, -⟩ | ⟨hc, -⟩ := is_last_fragment_cases _ p edi
          all_goals exact absurd (hc.symm.trans heq) (by simp)
        next hlast =>
        rw [handle_it_spec]
        simp only [not_not] at hmore hlast
        change findHandler net (mem (p.edx + 9)) = some h ∧ handed mem p.edx h = _ ↔ _
        rw [hproto, hhanded]
        exact ⟨fun hfor => ⟨⟨by simp, ⟨hmore, hlast⟩, hfor.1⟩, hfor.2⟩, fun hfor => ⟨hfor.1.2.2, hfor.2⟩⟩

/-- The range is part of the `ecx` bytes of the packet. -/
def Within (esi ecx : BitVec 32) : Prop :=
  p.edx.toNat ≤ esi.toNat ∧ esi.toNat + ecx.toNat ≤ p.edx.toNat + p.ecx.toNat

/-- For all but raw sockets the header is part of the bytes. -/
def LengthsFit (mem : Mem) : Handler → Prop
  | .raw _ => (totalLength mem p.edx).toNat ≤ p.ecx.toNat
  | _ => (headerSize mem p.edx).toNat ≤ (totalLength mem p.edx).toNat ∧ (totalLength mem p.edx).toNat ≤ p.ecx.toNat

theorem handed_within_iff {p : Packet} (hp : p.edx.toNat + p.ecx.toNat < 2 ^ 32) (mem : Mem) (h : Handler) :
    Within p (handed mem p.edx h).1 (handed mem p.edx h).2 ↔ LengthsFit p mem h := by
  cases h with
  | raw socket =>
    simp only [handed, Within, LengthsFit, BitVec.toNat_setWidth]
    omega
  | _ =>
    simp only [handed, Within, LengthsFit, BitVec.toNat_setWidth, BitVec.toNat_add, BitVec.toNat_sub]
    omega

/-- **What is handed on lies in the packet** exactly if the lengths of its header do. -/
theorem ipv4_input_within_iff (net : Net) (p : Packet) (hp : p.edx.toNat + p.ecx.toNat < 2 ^ 32) :
    (∀ h esi ecx, (ipv4Input net p).2 = .passed h esi ecx → Within p esi ecx) ↔
      ∀ h, IsFor net p h → LengthsFit p net.mem h := by
  constructor
  · intro hwithin h hfor
    rw [← handed_within_iff hp]
    exact hwithin h _ _ ((ipv4_input_passed ..).mpr ⟨hfor, rfl⟩)
  · intro hfit h esi ecx hpassed
    obtain ⟨hfor, heq⟩ := (ipv4_input_passed ..).mp hpassed
    have hwithin := (handed_within_iff hp net.mem h).mpr (hfit h hfor)
    rwa [heq] at hwithin

/-! ## Packets on one device -/

def oneDevice : Net where
  mem _ := 0
  fragments _ := ⟨0, 0, 0, 0, 0⟩
  deviceList := [0x80100000]
  address _ := 0
  broadcast _ := 0
  packetsRx _ := 0
  packetsDumped _ := 0
  sockets := []

def etherPacket (buffer size : BitVec 32) : Packet where
  buffer
  ebx := 0x80100000
  edx := entryHeader buffer
  ecx := size
  kernelAlloc _ := 0x80300000

def deliver (buffer : BitVec 32) (bytes : List (BitVec 8)) : Net :=
  { net with mem := storeBytes net.mem (entryHeader buffer) bytes }

def tcpPacket : List (BitVec 8) :=
  [0x45, 0x00, 0x00, 0x18, 0x00, 0x00, 0x00, 0x00, 0x40, 0x06, 0xf9, 0x8c, 0xc0, 0xa8, 0x00, 0x01, 0xc0, 0xa8,
    0x00, 0x02, 1, 2, 3, 4]

theorem ipv4_input_within_tcp :
    (etherPacket 0x80200000 24).edx.toNat + (etherPacket 0x80200000 24).ecx.toNat < 2 ^ 32 ∧
    ∀ h esi ecx, (ipv4Input (deliver oneDevice 0x80200000 tcpPacket) (etherPacket 0x80200000 24)).2 =
      .passed h esi ecx → Within (etherPacket 0x80200000 24) esi ecx := by
  refine ⟨by decide, (ipv4_input_within_iff _ (etherPacket 0x80200000 24) (by decide)).mpr fun h _ => ?_⟩
  cases h with
  | raw socket => simp only [LengthsFit]; decide +kernel
  | _ => simp only [LengthsFit]; decide +kernel

def longTotal : List (BitVec 8) :=
  [0x45, 0x00, 0xff, 0xff, 0x00, 0x00, 0x00, 0x00, 0x40, 0x06, 0xf9, 0xa4, 0xc0, 0xa8, 0x00, 0x01, 0xc0, 0xa8,
    0x00, 0x02]

/-- TCP gets 65515 bytes of a packet that has none. -/
theorem ipv4_input_beyond_packet :
    ¬ ∀ (net : Net) (p : Packet), p.edx.toNat + p.ecx.toNat < 2 ^ 32 →
      ∀ h esi ecx, (ipv4Input net p).2 = .passed h esi ecx → Within p esi ecx := by
  intro h
  have hpassed : (ipv4Input (deliver oneDevice 0x80200000 longTotal) (etherPacket 0x80200000 20)).2 =
      .passed .tcp (entryHeader 0x80200000 + 20) 65515 := by
    rw [ipv4_input_passed]
    refine ⟨⟨?_, ?_, ?_⟩, ?_⟩
    all_goals decide +kernel
  have hwithin := h _ _ (by decide) _ _ _ hpassed
  revert hwithin
  simp only [Within]
  decide

end Kolibri.Network
