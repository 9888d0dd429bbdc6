import Kolibri.Lib.CheckedLoop

/-! # The unpacker (`unpack.rs`)

Addresses are relative to `unpacked`, and every one of the destination that is read or written is recorded.
-/

namespace Kolibri.Unpack

open Function CheckedLoop

/-! ## Range decoder -/

structure Rd where
  src : Nat
  code : BitVec 32
  range : BitVec 32

structure Dec where
  rd : Rd
  probs : Nat → BitVec 32

variable (packed : Nat → BitVec 8)

def readU32Le (i : Nat) : BitVec 32 :=
  packed (i + 3) ++ packed (i + 2) ++ packed (i + 1) ++ packed i

def rdInit (src : Nat) : Rd := ⟨src + 4, readU32Le packed src, 0xFFFFFFFF⟩

def rdNorm (rd : Rd) : Rd :=
  if rd.range < 0x1000000 then ⟨rd.src + 1, rd.code <<< 8 ||| (packed rd.src).setWidth 32, rd.range <<< 8⟩ else rd

def decodeBit (prob : Nat) (d : Dec) : Nat × Dec :=
  let p := d.probs prob
  let bound := (d.rd.range >>> 11) * p
  if d.rd.code < bound then
    (0, ⟨rdNorm packed { d.rd with range := bound }, update d.probs prob (p + ((2048 - p) >>> 5))⟩)
  else
    (1, ⟨rdNorm packed { d.rd with range := d.rd.range - bound, code := d.rd.code - bound },
      update d.probs prob (p - (p >>> 5))⟩)

/-- The loop of `decode_bit_tree`: symbols with a leading one. -/
def bitTreeLoop (packed : Nat → BitVec 8) (probs : Nat) : Nat → Nat → Dec → Nat × Dec
  | 0, symbol, d => (symbol, d)
  | n + 1, symbol, d =>
    let (bit, d) := decodeBit packed (probs + symbol) d
    bitTreeLoop packed probs n (2 * symbol + bit) d

def decodeBitTree (probs levels : Nat) (d : Dec) : Nat × Dec :=
  let (symbol, d) := bitTreeLoop packed probs levels 1 d
  (symbol - 2 ^ levels, d)

def revBitTreeLoop (packed : Nat → BitVec 8) (probs : Nat) : Nat → Nat → BitVec 32 → Dec → BitVec 32 × Dec
  | 0, _, acc, d => (acc, d)
  | n + 1, symbol, acc, d =>
    let (bit, d) := decodeBit packed (probs + symbol) d
    revBitTreeLoop packed probs n (2 * symbol + bit) (acc >>> 1 ||| BitVec.ofNat 32 bit <<< 31) d

def decodeRevBitTree (probs levels : Nat) (d : Dec) : BitVec 32 × Dec :=
  let (acc, d) := revBitTreeLoop packed probs levels 1 0 d
  (acc >>> (32 - levels), d)

def decodeDirectBits (packed : Nat → BitVec 8) : Nat → BitVec 32 → Dec → BitVec 32 × Dec
  | 0, result, d => (result, d)
  | n + 1, result, d =>
    let range := d.rd.range >>> 1
    if range ≤ d.rd.code then
      decodeDirectBits packed n (result <<< 1 ||| 1)
        { d with rd := rdNorm packed { d.rd with range := range, code := d.rd.code - range } }
    else decodeDirectBits packed n (result <<< 1) { d with rd := rdNorm packed { d.rd with range := range } }

def lenChoice : Nat := 0
def lenChoice2 : Nat := 1
def lenLow : Nat := 2
def lenMid : Nat := lenLow + 16 * 8
def lenHigh : Nat := lenMid + 16 * 8

def decodeLen (enc posState : Nat) (d : Dec) : Nat × Dec :=
  let (bit, d) := decodeBit packed (enc + lenChoice) d
  if bit = 0 then decodeBitTree packed (enc + lenLow + posState * 8) 3 d
  else
    let (bit, d) := decodeBit packed (enc + lenChoice2) d
    if bit = 0 then
      let (len, d) := decodeBitTree packed (enc + lenMid + posState * 8) 3 d
      (8 + len, d)
    else
      let (len, d) := decodeBitTree packed (enc + lenHigh) 8 d
      (8 + 8 + len, d)

def literalLoop (packed : Nat → BitVec 8) (probs : Nat) : Nat → Nat → Dec → Nat × Dec
  | 0, symbol, d => (symbol, d)
  | n + 1, symbol, d =>
    if symbol < 0x100 then
      let (bit, d) := decodeBit packed (probs + symbol) d
      literalLoop packed probs n (2 * symbol + bit) d
    else (symbol, d)

def decodeLiteral (probs : Nat) (d : Dec) : BitVec 8 × Dec :=
  let (symbol, d) := literalLoop packed probs 8 1 d
  (BitVec.ofNat 8 symbol, d)

def literalMatchedLoop (packed : Nat → BitVec 8) (probs : Nat) : Nat → Nat → BitVec 8 → Dec → Nat × Dec
  | 0, symbol, _, d => (symbol, d)
  | n + 1, symbol, matchByte, d =>
    let matchBit := ((matchByte >>> 7) &&& 1).toNat
    let (bit, d) := decodeBit packed (probs + (0x100 + matchBit * 0x100 + symbol)) d
    let symbol := 2 * symbol + bit
    if 0x100 ≤ symbol then (symbol, d)
    else if matchBit ≠ symbol % 2 then literalLoop packed probs 8 symbol d
    else literalMatchedLoop packed probs n symbol (matchByte <<< 1) d

def decodeLiteralMatched (probs : Nat) (matchByte : BitVec 8) (d : Dec) : BitVec 8 × Dec :=
  let (symbol, d) := literalMatchedLoop packed probs 8 1 matchByte d
  (BitVec.ofNat 8 symbol, d)

/-! ## What comes next in the stream -/

def isMatch : Nat := 0
def isRep : Nat := isMatch + 12 * 16
def isRepG0 : Nat := isRep + 12
def isRepG1 : Nat := isRepG0 + 12
def isRepG2 : Nat := isRepG1 + 12
def isRep0Long : Nat := isRepG2 + 12
def posSlot : Nat := isRep0Long + 12 * 16
def specPos : Nat := posSlot + 4 * 64
def align : Nat := specPos + 128 - 14
def lEncoder : Nat := align + 16
def repLEncoder : Nat := lEncoder + 514
def literal : Nat := repLEncoder + 514

structure Coder where
  dec : Dec
  state : Nat
  rep0 : BitVec 32
  rep1 : BitVec 32
  rep2 : BitVec 32
  rep3 : BitVec 32

inductive Packet where
  /-- With `matched`, the byte at distance `rep0` was needed. -/
  | literal (byte : BitVec 8) (matched : Bool)
  | shortRep
  /-- `len` bytes from distance `rep0`. -/
  | copy (len : Nat)
  | stop

def newMatch (posState : Nat) (c : Coder) : Packet × Coder :=
  let state := if c.state < 7 then 7 else 10
  let (len, d) := decodeLen packed lEncoder posState c.dec
  let posSlotIndex := if len < 3 then len else 3
  let (slot, d) := decodeBitTree packed (posSlot + posSlotIndex * 64) 6 d
  let (rep0, d) :=
    if slot < 4 then (BitVec.ofNat 32 slot, d)
    else
      let dist : BitVec 32 := BitVec.ofNat 32 (2 + slot % 2) <<< (slot / 2 - 1)
      if slot < 14 then
        let (extra, d) := decodeRevBitTree packed (specPos + dist.toNat - slot) (slot / 2 - 1) d
        (dist + extra, d)
      else
        let (direct, d) := decodeDirectBits packed (slot / 2 - 1 - 4) 0 d
        let (low, d) := decodeRevBitTree packed align 4 d
        (dist + direct <<< 4 + low, d)
  let rep0 := rep0 + 1
  let c : Coder := ⟨d, state, rep0, c.rep0, c.rep1, c.rep2⟩
  if rep0 = 0 then (.stop, c) else (.copy (len + 2), c)

def repMatch (posState : Nat) (c : Coder) : Packet × Coder :=
  let state := if c.state < 7 then 8 else 11
  let (len, d) := decodeLen packed repLEncoder posState c.dec
  (.copy (len + 2), { c with dec := d, state := state })

/-- One round of the decoding loop. `matchByte` is the byte at distance `rep0`. -/
def nextPacket (posState : Nat) (prev matchByte : BitVec 8) (c : Coder) : Packet × Coder :=
  let (bit, d) := decodeBit packed (isMatch + c.state * 16 + posState) c.dec
  if bit = 0 then
    let lit := literal + (prev >>> 5).toNat * 768
    let state := if c.state < 4 then 0 else if c.state < 10 then c.state - 3 else c.state - 6
    if c.state < 7 then
      let (al, d) := decodeLiteral packed lit d
      (.literal al false, { c with dec := d, state := state })
    else
      let (al, d) := decodeLiteralMatched packed lit matchByte d
      (.literal al true, { c with dec := d, state := state })
  else
    let (bit, d) := decodeBit packed (isRep + c.state) d
    if bit = 0 then newMatch packed posState { c with dec := d }
    else
      let (bit, d) := decodeBit packed (isRepG0 + c.state) d
      if bit = 0 then
        let (bit, d) := decodeBit packed (isRep0Long + c.state * 16 + posState) d
        if bit = 0 then (.shortRep, { c with dec := d, state := if c.state < 7 then 9 else 11 })
        else repMatch packed posState { c with dec := d }
      else
        let (bit, d) := decodeBit packed (isRepG1 + c.state) d
        if bit = 0 then repMatch packed posState { c with dec := d, rep0 := c.rep1, rep1 := c.rep0 }
        else
          let (bit, d) := decodeBit packed (isRepG2 + c.state) d
          if bit = 0 then
            repMatch packed posState { c with dec := d, rep0 := c.rep2, rep1 := c.rep0, rep2 := c.rep1 }
          else
            repMatch packed posState
              { c with dec := d, rep0 := c.rep3, rep1 := c.rep0, rep2 := c.rep1, rep3 := c.rep2 }

/-! ## The destination -/

structure Dest where
  mem : BitVec 32 → BitVec 8
  touched : List (BitVec 32)

def Dest.load (t : Dest) (i : BitVec 32) : BitVec 8 × Dest := (t.mem i, { t with touched := i :: t.touched })

def Dest.store (t : Dest) (i : BitVec 32) (b : BitVec 8) : Dest := ⟨update t.mem i b, i :: t.touched⟩

def copyMatch : Nat → BitVec 32 → BitVec 32 → Dest → Dest
  | 0, _, _, t => t
  | n + 1, d, s, t =>
    let (b, t) := t.load s
    copyMatch n (d + 1) (s + 1) (t.store d b)

structure Lz where
  coder : Coder
  dest : Dest
  edi : BitVec 32
  prev : BitVec 8

def Lz.packet (base : BitVec 32) (s : Lz) : Packet × Coder :=
  nextPacket packed ((base + s.edi).toNat % 4) s.prev (s.dest.mem (s.edi - s.coder.rep0)) s.coder

/-- One round of the loop: it goes on or it ends. -/
def lzmaRound (base destLen : BitVec 32) (s : Lz) : Lz ⊕ Lz :=
  if base + s.edi < base + destLen then
    match s.packet packed base with
    | (.literal al matched, c) =>
      let t := if matched then (s.dest.load (s.edi - s.coder.rep0)).2 else s.dest
      .inl ⟨c, t.store s.edi al, s.edi + 1, al⟩
    | (.shortRep, c) =>
      let (al, t) := s.dest.load (s.edi - s.coder.rep0)
      .inl ⟨c, t.store s.edi al, s.edi + 1, al⟩
    | (.copy len, c) =>
      let t := copyMatch len s.edi (s.edi - c.rep0) s.dest
      let edi := s.edi + BitVec.ofNat 32 len
      let (prev, t) := t.load (edi - 1)
      .inl ⟨c, t, edi, prev⟩
    | (.stop, c) => .inr { s with coder := c }
  else .inr s

def startCoder (src : Nat) : Coder := ⟨⟨rdInit packed src, fun _ => 1024⟩, 0, 1, 1, 1, 1⟩

/-! ## Filters -/

/-- `shr ax, 8`, `ror eax, 16`, `xchg al, ah`. -/
def fasmLoadRel32 (raw : BitVec 32) : BitVec 32 :=
  let eax := (raw &&& 0xFFFF0000) ||| ((raw &&& 0xFFFF) >>> 8)
  let eax := eax.rotateRight 16
  (eax &&& 0xFFFF0000) ||| ((eax &&& 0xFF) <<< 8) ||| ((eax >>> 8) &&& 0xFF)

def patchedRel32 (raw esi : BitVec 32) : BitVec 32 := fasmLoadRel32 raw - esi

def patchRel32 (esi : BitVec 32) (t : Dest) : Dest :=
  let (b0, t) := t.load esi
  let (b1, t) := t.load (esi + 1)
  let (b2, t) := t.load (esi + 2)
  let (b3, t) := t.load (esi + 3)
  let eax := patchedRel32 (b3 ++ b2 ++ b1 ++ b0) (esi + 4)
  let t := t.store esi (eax.extractLsb' 0 8)
  let t := t.store (esi + 1) (eax.extractLsb' 8 8)
  let t := t.store (esi + 2) (eax.extractLsb' 16 8)
  t.store (esi + 3) (eax.extractLsb' 24 8)

structure Filter where
  dest : Dest
  esi : BitVec 32
  left : BitVec 32
  /-- The byte before was 0F. -/
  afterEscape : Bool

/-- E8, E9, or the second byte of a conditional jump. -/
def Filter.opcode (s : Filter) : Prop :=
  let al := s.dest.mem s.esi
  al = 0xE8 ∨ al = 0xE9 ∨ (s.afterEscape = true ∧ 0x80 ≤ al ∧ al < 0x90)
  deriving Decidable

/-- One byte of the scan of both filters. With `jcc` the bytes 0F 80 to 0F 8F count as well. -/
def filterRound (jcc : Bool) (dl : BitVec 8) (s : Filter) : Filter ⊕ Dest :=
  let (al, t) := s.dest.load s.esi
  if s.opcode then
    let (b, t) := t.load (s.esi + 1)
    if b ≠ dl then .inl ⟨t, s.esi + 1, s.left, false⟩
    else
      let t := patchRel32 (s.esi + 1) t
      if s.left - 1 = 0 then .inr t else .inl ⟨t, s.esi + 5, s.left - 1, false⟩
  else .inl ⟨t, s.esi + 1, s.left, jcc && al = 0x0F⟩

def applyE8 (jcc : Bool) (packed : Nat → BitVec 8) (src fuel : Nat) (t : Dest) : Option Dest :=
  let count := readU32Le packed src
  if count = 0 then some t else run (filterRound jcc (packed (src + 4))) fuel ⟨t, 0, count, false⟩

def applyE8C1 (src fuel : Nat) (t : Dest) : Option Dest := applyE8 false packed src fuel t

def applyE8Ctr1 (src fuel : Nat) (t : Dest) : Option Dest := applyE8 true packed src fuel t

def applyFilter (fl : BitVec 8) (packed : Nat → BitVec 8) (src fuel : Nat) (t : Dest) : Option Dest :=
  if fl &&& 0x80 ≠ 0 then applyE8Ctr1 packed src fuel t
  else if fl &&& 0x40 ≠ 0 then applyE8C1 packed src fuel t
  else some t

def destLenOf : BitVec 32 := readU32Le packed 4

def Accepted (fl : BitVec 8) : Prop := fl &&& 0xC0 ≠ 0xC0 ∧ fl &&& 0x3F = 1
  deriving Decidable

/-- `none` means that the fuel does not suffice. -/
def unpack (base : BitVec 32) (fuel : Nat) (t : Dest) : Option Dest :=
  let fl := packed 8
  if Accepted fl then
    match run (lzmaRound packed base (destLenOf packed)) fuel ⟨startCoder packed 12, t, 0, 0⟩ with
    | none => none
    | some s => applyFilter fl packed s.coder.dec.rd.src fuel s.dest
  else some t

end Kolibri.Unpack
