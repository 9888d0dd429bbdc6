import Kolibri.Unpack.Frame
import Kolibri.Lib.Stretch

/-! # The second unpacker that the tests compare `unpack` with (`unpack_fasm_oracle` in `unpack.rs`) -/

namespace Kolibri.Unpack.Oracle

open Function CheckedLoop BitVec

variable (packed : Nat → BitVec 8)

/-! ## `OracleCoder`, which has the fields of `Rd` -/

def new (stream : Nat) : Rd := ⟨stream + 4, readU32Le packed stream, ~~~0⟩

def renormalize (rc : Rd) : Rd :=
  if rc.range < 1 <<< 24 then ⟨rc.src + 1, rc.code <<< 8 ||| (packed rc.src).setWidth 32, rc.range <<< 8⟩ else rc

def bit (slot : Nat) (d : Dec) : Bool × Dec :=
  let prob := d.probs slot
  let bound := (d.rd.range >>> 11) * prob
  if bound ≤ d.rd.code then
    (true, ⟨renormalize packed { d.rd with range := d.rd.range - bound, code := d.rd.code - bound },
      update d.probs slot (prob - (prob >>> 5))⟩)
  else
    (false, ⟨renormalize packed { d.rd with range := bound }, update d.probs slot (prob + ((2048 - prob) >>> 5))⟩)

def treeLoop (base : Nat) : Nat → Nat → Dec → Nat × Dec
  | 0, v, d => (v, d)
  | n + 1, v, d =>
    let (one, d) := bit packed (base + v) d
    treeLoop base n (2 * v + one.toNat) d

def tree (base bits : Nat) (d : Dec) : Nat × Dec :=
  let (v, d) := treeLoop packed base bits 1 d
  (v - 2 ^ bits, d)

def revTreeLoop (base : Nat) : Nat → Nat → Nat → BitVec 32 → Dec → BitVec 32 × Dec
  | 0, _, _, out, d => (out, d)
  | n + 1, i, v, out, d =>
    let (one, d) := bit packed (base + v) d
    revTreeLoop base n (i + 1) (2 * v + one.toNat) (out ||| BitVec.ofNat 32 one.toNat <<< i) d

def revTree (base bits : Nat) (d : Dec) : BitVec 32 × Dec := revTreeLoop packed base bits 0 1 0 d

def direct : Nat → BitVec 32 → Dec → BitVec 32 × Dec
  | 0, acc, d => (acc, d)
  | n + 1, acc, d =>
    let range := d.rd.range >>> 1
    let acc := acc <<< 1
    let (code, acc) := if range ≤ d.rd.code then (d.rd.code - range, acc ||| 1) else (d.rd.code, acc)
    direct n acc { d with rd := renormalize packed ⟨d.rd.src, code, range⟩ }

def len (enc pos : Nat) (d : Dec) : Nat × Dec :=
  let (one, d) := bit packed enc d
  if !one then tree packed (enc + (2 + pos * 8)) 3 d
  else
    let (one, d) := bit packed (enc + 1) d
    if !one then (tree packed (enc + (130 + pos * 8)) 3 d).map (8 + ·) id
    else (tree packed (enc + 258) 8 d).map (16 + ·) id

/-- `while s < 256`, at most 8 times. -/
def litLoop (probs : Nat) : Nat → Nat → Dec → Nat × Dec
  | 0, s, d => (s, d)
  | n + 1, s, d =>
    if s < 256 then
      let (one, d) := bit packed (probs + s) d
      litLoop probs n (2 * s + one.toNat) d
    else (s, d)

def lit (probs : Nat) (d : Dec) : BitVec 8 × Dec := (litLoop packed probs 8 1 d).map (BitVec.ofNat 8) id

def litMatchLoop (probs : Nat) : Nat → Nat → BitVec 8 → Dec → Nat × Dec
  | 0, s, _, d => (s, d)
  | n + 1, s, m, d =>
    let mb := (m >>> 7) &&& 1
    let (one, d) := bit packed (probs + (256 + mb.toNat * 256 + s)) d
    let s := 2 * s + one.toNat
    if 256 ≤ s then (s, d)
    else if mb ≠ BitVec.ofNat 8 s &&& 1 then litLoop packed probs 8 s d
    else litMatchLoop probs n s (m <<< 1) d

def litMatch (probs : Nat) (m : BitVec 8) (d : Dec) : BitVec 8 × Dec :=
  (litMatchLoop packed probs 8 1 m d).map (BitVec.ofNat 8) id

/-! ## The loop -/

abbrev Bytes := BitVec 32 → BitVec 8

structure State where
  coder : Coder
  mem : Bytes
  d : BitVec 32
  prev : BitVec 8

def State.copy (s : State) (ln : Nat) : State :=
  let move := fun (mem : Bytes) (i : Nat) =>
    update mem (s.d + BitVec.ofNat 32 i) (mem (s.d - s.coder.rep0 + BitVec.ofNat 32 i))
  let mem := (List.range ln).foldl move s.mem
  let d := s.d + BitVec.ofNat 32 ln
  { s with mem := mem, d := d, prev := mem (d - 1) }

def distance (slot : Nat) (d : Dec) : BitVec 32 × Dec :=
  if 4 ≤ slot then
    let dist : BitVec 32 := BitVec.ofNat 32 (2 + slot % 2) <<< (slot / 2 - 1)
    if slot < 14 then
      let (extra, d) := revTree packed (specPos + dist.toNat - slot) (slot / 2 - 1) d
      (dist + extra, d)
    else
      let (high, d) := direct packed (slot / 2 - 1 - 4) 0 d
      let dist := dist + high <<< 4
      let (low, d) := revTree packed align 4 d
      (dist + low, d)
  else (BitVec.ofNat 32 slot, d)

/-- The branch of a new distance. -/
def newDistance (ps : Nat) (s : State) (d : Dec) : State ⊕ State :=
  let st := if s.coder.state < 7 then 7 else 10
  let (ln, d) := len packed lEncoder ps d
  let psi := if ln < 3 then ln else 3
  let (slot, d) := tree packed (posSlot + psi * 64) 6 d
  let (r0, d) := distance packed slot d
  let r0 := r0 + 1
  let s := { s with coder := ⟨d, st, r0, s.coder.rep0, s.coder.rep1, s.coder.rep2⟩ }
  if r0 = 0 then .inr s else .inl (s.copy (ln + 2))

/-- What follows the choice of one of the last four distances. -/
def oldDistance (ps : Nat) (s : State) (c : Coder) : State :=
  let st := if c.state < 7 then 8 else 11
  let (ln, d) := len packed repLEncoder ps c.dec
  State.copy { s with coder := { c with dec := d, state := st } } (ln + 2)

def round (base destLen : BitVec 32) (s : State) : State ⊕ State :=
  if base + s.d < base + destLen then
    let ps := (base + s.d).toNat % 4
    let c := s.coder
    let st := c.state
    let (one, d) := bit packed (st * 16 + ps) c.dec
    if !one then
      let probs := literal + (s.prev >>> 5).toNat * 768
      let (b, d) := if st < 7 then lit packed probs d else litMatch packed probs (s.mem (s.d - c.rep0)) d
      let st := if st < 4 then 0 else if st < 10 then st - 3 else st - 6
      .inl ⟨{ c with dec := d, state := st }, update s.mem s.d b, s.d + 1, b⟩
    else
      let (one, d) := bit packed (isRep + st) d
      if !one then newDistance packed ps s d
      else
        let (one, d) := bit packed (isRepG0 + st) d
        if !one then
          let (one, d) := bit packed (isRep0Long + st * 16 + ps) d
          if !one then
            let b := s.mem (s.d - c.rep0)
            .inl ⟨{ c with dec := d, state := if st < 7 then 9 else 11 }, update s.mem s.d b, s.d + 1, b⟩
          else .inl (oldDistance packed ps s { c with dec := d })
        else
          let (one, d) := bit packed (isRepG1 + st) d
          if !one then .inl (oldDistance packed ps s { c with dec := d, rep0 := c.rep1, rep1 := c.rep0 })
          else
            let (one, d) := bit packed (isRepG2 + st) d
            if !one then
              .inl (oldDistance packed ps s { c with dec := d, rep0 := c.rep2, rep1 := c.rep0, rep2 := c.rep1 })
            else
              .inl (oldDistance packed ps s
                { c with dec := d, rep0 := c.rep3, rep1 := c.rep0, rep2 := c.rep1, rep3 := c.rep2 })
  else .inr s

/-! ## The filters -/

/-- `cur` is already behind the four bytes in the source. -/
def patch (cur : BitVec 32) (mem : Bytes) : Bytes :=
  let raw := mem (cur + 3) ++ mem (cur + 2) ++ mem (cur + 1) ++ mem cur
  let patched := fasmLoadRel32 raw - (cur + 4)
  let mem := update mem cur (patched.extractLsb' 0 8)
  let mem := update mem (cur + 1) (patched.extractLsb' 8 8)
  let mem := update mem (cur + 2) (patched.extractLsb' 16 8)
  update mem (cur + 3) (patched.extractLsb' 24 8)

/-- With `escaped` the inner loop of `oracle_filter_c2` reads the next byte, behind a 0F. -/
structure Scan where
  mem : Bytes
  cur : BitVec 32
  remain : BitVec 32
  escaped : Bool

/-- From `*cur != key` on. -/
def Scan.key (s : Scan) (key : BitVec 8) : Scan :=
  if s.mem s.cur ≠ key then { s with escaped := false } else ⟨patch s.cur s.mem, s.cur + 4, s.remain - 1, false⟩

/-- From `b != 0xE8 && b != 0xE9` on. -/
def Scan.call (s : Scan) (b key : BitVec 8) : Scan :=
  if b ≠ 0xE8 ∧ b ≠ 0xE9 then { s with escaped := false } else s.key key

def filterC1 (key : BitVec 8) (s : Scan) : Scan ⊕ Bytes :=
  if s.remain ≠ 0 then .inl (Scan.call { s with cur := s.cur + 1 } (s.mem s.cur) key) else .inr s.mem

def filterC2 (key : BitVec 8) (s : Scan) : Scan ⊕ Bytes :=
  if s.escaped ∨ s.remain ≠ 0 then
    let b := s.mem s.cur
    let s := { s with cur := s.cur + 1 }
    if s.escaped ∧ 0x80 ≤ b then .inl (if b < 0x90 then s.key key else s.call b key)
    else .inl (if b ≠ 0x0F then s.call b key else { s with escaped := true })
  else .inr s.mem

def filter (step : BitVec 8 → Scan → Scan ⊕ Bytes) (src fuel : Nat) (mem : Bytes) : Option Bytes :=
  if readU32Le packed src = 0 then some mem
  else run (step (packed (src + 4))) fuel ⟨mem, 0, readU32Le packed src, false⟩

def filters (fl : BitVec 8) (src fuel : Nat) (mem : Bytes) : Option Bytes :=
  if fl &&& 0x80 ≠ 0 then filter packed filterC2 src fuel mem
  else if fl &&& 0x40 ≠ 0 then filter packed filterC1 src fuel mem
  else some mem

/-- `none` means that the fuel does not suffice. -/
def unpackFasmOracle (base : BitVec 32) (fuel : Nat) (mem : Bytes) : Option Bytes :=
  let fl := packed 8
  if fl &&& 0xC0 = 0xC0 then some mem
  else if fl &&& ~~~0xC0 ≠ 1 then some mem
  else
    let start : Coder := ⟨⟨new packed 12, fun _ => 1024⟩, 0, 1, 1, 1, 1⟩
    (run (round packed base (readU32Le packed 4)) fuel ⟨start, mem, 0, 0⟩).bind fun s =>
      filters packed fl s.coder.dec.rd.src fuel s.mem

/-! ## The decoders agree -/

variable {packed}

theorem bit_eq (slot : Nat) (d : Dec) :
    decodeBit packed slot d = ((bit packed slot d).1.toNat, (bit packed slot d).2) := by
  unfold decodeBit bit
  dsimp only
  split_ifs with hlt hle hle
  · bv_omega
  · rfl
  · rfl
  · bv_omega

theorem tree_eq (base bits : Nat) (d : Dec) : decodeBitTree packed base bits d = tree packed base bits d := by
  have hloop : ∀ n v d, bitTreeLoop packed base n v d = treeLoop packed base n v d := by
    intro n
    induction n with
    | zero => exact fun _ _ => rfl
    | succ n ih =>
      intro v d
      rw [bitTreeLoop, bit_eq, treeLoop]
      exact ih _ _
  rw [decodeBitTree, hloop, tree]

theorem direct_eq (n : Nat) (acc : BitVec 32) (d : Dec) : decodeDirectBits packed n acc d = direct packed n acc d := by
  induction n generalizing acc d with
  | zero => rfl
  | succ n ih =>
    rw [decodeDirectBits, direct]
    split_ifs
    · exact ih _ _
    · exact ih _ _

theorem len_eq (enc pos : Nat) (d : Dec) : decodeLen packed enc pos d = len packed enc pos d := by
  have hmid : enc + lenMid + pos * 8 = enc + (130 + pos * 8) := by
    rw [lenMid, lenLow]
    omega
  have hlow : enc + lenLow + pos * 8 = enc + (2 + pos * 8) := Nat.add_assoc ..
  have hhigh : enc + lenHigh = enc + 258 := rfl
  unfold decodeLen len
  simp [bit_eq, tree_eq, hlow, hmid, hhigh, lenChoice, lenChoice2, Bool.toNat_eq_zero, Prod.map, id]

theorem litLoop_eq (probs n s : Nat) (d : Dec) : literalLoop packed probs n s d = litLoop packed probs n s d := by
  induction n generalizing s d with
  | zero => rfl
  | succ n ih =>
    rw [literalLoop, litLoop, bit_eq]
    simp only [ih]

theorem lit_eq (probs : Nat) (d : Dec) : decodeLiteral packed probs d = lit packed probs d := by
  rw [decodeLiteral, litLoop_eq]
  rfl

theorem litMatch_eq (probs : Nat) (m : BitVec 8) (d : Dec) :
    decodeLiteralMatched packed probs m d = litMatch packed probs m d := by
  have hloop : ∀ n s m d, literalMatchedLoop packed probs n s m d = litMatchLoop packed probs n s m d := by
    intro n
    induction n with
    | zero => exact fun _ _ _ => rfl
    | succ n ih =>
      intro s m d
      have hbit : ∀ v : Nat, ((m >>> 7) &&& 1).toNat = v % 2 ↔ (m >>> 7) &&& 1 = BitVec.ofNat 8 v &&& 1 := by
        intro v
        rw [← toNat_inj]
        simp [Nat.and_one_is_mod]
      rw [literalMatchedLoop, litMatchLoop, bit_eq]
      simp only [ih, litLoop_eq, ne_eq, hbit]
  rw [decodeLiteralMatched, hloop]
  rfl

theorem revTreeLoop_eq (base n i v : Nat) (out : BitVec 32) (d : Dec) (hi : i + n ≤ 32)
    (hout : ∀ k, i ≤ k → out.getLsbD k = false) :
    revBitTreeLoop packed base n v (out <<< (32 - i)) d =
        ((revTreeLoop packed base n i v out d).1 <<< (32 - (i + n)), (revTreeLoop packed base n i v out d).2) ∧
      ∀ k, i + n ≤ k → (revTreeLoop packed base n i v out d).1.getLsbD k = false := by
  induction n generalizing i v out d with
  | zero => exact ⟨rfl, hout⟩
  | succ n ih =>
    rw [revBitTreeLoop, bit_eq, revTreeLoop]
    obtain ⟨one, d⟩ := bit packed (base + v) d
    dsimp only
    have hacc : (out <<< (32 - i)) >>> 1 ||| BitVec.ofNat 32 one.toNat <<< 31 =
        (out ||| BitVec.ofNat 32 one.toNat <<< i) <<< (32 - (i + 1)) := by
      apply eq_of_getLsbD_eq
      intro k hk
      simp only [getLsbD_or, getLsbD_ushiftRight, getLsbD_shiftLeft]
      grind
    have hnext : ∀ k, i + 1 ≤ k → (out ||| BitVec.ofNat 32 one.toNat <<< i).getLsbD k = false := by
      intro k hk
      rw [getLsbD_or, hout k (by omega), getLsbD_shiftLeft]
      cases one <;> grind
    rw [hacc, show i + (n + 1) = i + 1 + n by omega]
    exact ih (i + 1) _ _ _ (by omega) hnext

theorem revTree_eq (base bits : Nat) (d : Dec) (h : bits ≤ 32) :
    decodeRevBitTree packed base bits d = revTree packed base bits d := by
  obtain ⟨hloop, hout⟩ := @revTreeLoop_eq packed base bits 0 1 0 d (by omega) (by simp)
  rw [show (0 : BitVec 32) <<< (32 - 0) = 0 from rfl] at hloop
  rw [decodeRevBitTree, hloop, revTree]
  refine Prod.ext ?_ rfl
  ext k hk
  simp only [getLsbD_ushiftRight, getLsbD_shiftLeft]
  grind

theorem distance_eq (slot : Nat) (d : Dec) :
    (if slot < 4 then (BitVec.ofNat 32 slot, d)
    else
      let dist : BitVec 32 := BitVec.ofNat 32 (2 + slot % 2) <<< (slot / 2 - 1)
      if slot < 14 then
        let (extra, d) := decodeRevBitTree packed (specPos + dist.toNat - slot) (slot / 2 - 1) d
        (dist + extra, d)
      else
        let (direct, d) := decodeDirectBits packed (slot / 2 - 1 - 4) 0 d
        let (low, d) := decodeRevBitTree packed align 4 d
        (dist + direct <<< 4 + low, d)) = distance packed slot d := by
  unfold distance
  by_cases h4 : slot < 4
  · rw [if_pos h4, if_neg (by omega)]
  rw [if_neg h4, if_pos (Nat.le_of_not_lt h4), direct_eq]
  simp only [revTree_eq _ 4 _ (by omega : 4 ≤ 32)]
  by_cases h14 : slot < 14
  · rw [if_pos h14, if_pos h14, revTree_eq _ _ _ (by omega)]
  · rw [if_neg h14, if_neg h14]

def ofLz (s : Lz) : State := ⟨s.coder, s.dest.mem, s.edi, s.prev⟩

theorem copyMatch_mem (n i : Nat) (d src : BitVec 32) (t : Dest) :
    (copyMatch n (d + BitVec.ofNat 32 i) (src + BitVec.ofNat 32 i) t).mem = (List.range' i n).foldl
        (fun mem i => update mem (d + BitVec.ofNat 32 i) (mem (src + BitVec.ofNat 32 i))) t.mem := by
  induction n generalizing i t with
  | zero => rfl
  | succ n ih =>
    have hnext : ∀ a : BitVec 32, a + BitVec.ofNat 32 i + 1 = a + BitVec.ofNat 32 (i + 1) :=
      fun a => (Stretch.add_ofNat_succ a i).symm
    rw [copyMatch, List.range'_succ, List.foldl_cons, hnext, hnext]
    exact ih (i + 1) _

theorem copy_eq (s : Lz) (c : Coder) (len : Nat) :
    State.copy { ofLz s with coder := c } len =
      ⟨c, (copyMatch len s.edi (s.edi - c.rep0) s.dest).mem, s.edi + BitVec.ofNat 32 len,
        (copyMatch len s.edi (s.edi - c.rep0) s.dest).mem (s.edi + BitVec.ofNat 32 len - 1)⟩ := by
  have hmem := copyMatch_mem len 0 s.edi (s.edi - c.rep0) s.dest
  rw [BitVec.add_zero, BitVec.add_zero, ← List.range_eq_range'] at hmem
  rw [hmem]
  rfl

/-- What a packet does to the destination. -/
def effect (s : State) : Packet × Coder → State ⊕ State
  | (.literal b _, c) => .inl ⟨c, update s.mem s.d b, s.d + 1, b⟩
  | (.shortRep, c) => .inl ⟨c, update s.mem s.d (s.mem (s.d - s.coder.rep0)), s.d + 1, s.mem (s.d - s.coder.rep0)⟩
  | (.copy len, c) => .inl (State.copy { s with coder := c } len)
  | (.stop, c) => .inr { s with coder := c }

theorem lzmaRound_effect {base destLen : BitVec 32} {s : Lz} (h : base + s.edi < base + destLen) :
    (lzmaRound packed base destLen s).map ofLz ofLz = effect (ofLz s) (s.packet packed base) := by
  rw [lzmaRound, if_pos h]
  obtain ⟨p, c⟩ := s.packet packed base
  cases p with
  | literal b matched => cases matched <;> rfl
  | shortRep => rfl
  | copy len => exact congrArg Sum.inl (copy_eq s c len).symm
  | stop => rfl

theorem newDistance_eq (ps : Nat) (s : State) (d : Dec) :
    newDistance packed ps s d = effect s (newMatch packed ps { s.coder with dec := d }) := by
  unfold newDistance newMatch
  rw [len_eq]
  obtain ⟨ln, d⟩ := len packed lEncoder ps d
  dsimp only
  rw [tree_eq]
  obtain ⟨slot, d⟩ := tree packed _ 6 d
  have hdist := @distance_eq packed slot d
  rw [hdist]
  obtain ⟨r0, d⟩ := distance packed slot d
  by_cases hzero : r0 + 1 = 0
  · rw [if_pos hzero, if_pos hzero]
    rfl
  · rw [if_neg hzero, if_neg hzero]
    rfl

theorem oldDistance_eq (ps : Nat) (s : State) (c : Coder) :
    .inl (oldDistance packed ps s c) = effect s (repMatch packed ps c) := by
  rw [oldDistance, repMatch, len_eq]
  rfl

theorem round_effect {base destLen : BitVec 32} {s : State} (h : base + s.d < base + destLen) :
    round packed base destLen s =
      effect s (nextPacket packed ((base + s.d).toNat % 4) s.prev (s.mem (s.d - s.coder.rep0)) s.coder) := by
  rw [round, if_pos h, nextPacket]
  simp only [bit_eq, lit_eq, litMatch_eq, Bool.toNat_eq_zero, Bool.not_eq_true', newDistance_eq, oldDistance_eq,
    apply_ite (effect s), isMatch, Nat.zero_add]
  refine if_congr Iff.rfl ?_ rfl
  by_cases hplain : s.coder.state < 7
  · simp only [if_pos hplain]
    rfl
  · simp only [if_neg hplain]
    rfl

theorem round_eq (base destLen : BitVec 32) (s : Lz) :
    round packed base destLen (ofLz s) = (lzmaRound packed base destLen s).map ofLz ofLz := by
  by_cases hmore : base + s.edi < base + destLen
  · rw [lzmaRound_effect hmore, round_effect hmore]
    rfl
  · rw [lzmaRound, if_neg hmore]
    exact if_neg hmore

/-! ## The filters agree -/

def ofFilter (s : Filter) : Scan := ⟨s.dest.mem, s.esi, s.left, s.afterEscape⟩

/-- The byte before is remembered only for the two byte jumps. -/
def Going (jcc : Bool) (s : Filter) : Prop := s.left ≠ 0 ∧ (s.afterEscape = true → jcc = true)

/-- A byte of the scan, as the second unpacker comes out of it. -/
def after (jcc : Bool) (dl : BitVec 8) (s : Filter) : Scan :=
  if s.opcode then Scan.key ⟨s.dest.mem, s.esi + 1, s.left, false⟩ dl
  else ⟨s.dest.mem, s.esi + 1, s.left, jcc && s.dest.mem s.esi = 0x0F⟩

variable {jcc : Bool} {dl fl : BitVec 8} {s s1 : Filter} {src fuel fuel' : Nat} {mem mem' : Bytes} {t t' : Dest}

theorem after_next (hs : Going jcc s) (h : filterRound jcc dl s = .inl s1) :
    Going jcc s1 ∧ after jcc dl s = ofFilter s1 := by
  have hend : s.esi + 1 + 4 = s.esi + 5 := by rw [add_assoc]; rfl
  unfold filterRound at h
  dsimp only [Dest.load] at h
  unfold after Scan.key
  split_ifs at h ⊢ with hop hkey hlast
  · cases h
    exact ⟨⟨hs.1, Bool.noConfusion⟩, rfl⟩
  · cases h
    exact ⟨⟨hlast, Bool.noConfusion⟩, by rw [hend]; rfl⟩
  · cases h
    exact ⟨⟨hs.1, fun he => (Bool.and_eq_true_iff.mp he).1⟩, rfl⟩

theorem after_last (h : filterRound jcc dl s = .inr t) : ∃ cur, after jcc dl s = ⟨t.mem, cur, 0, false⟩ := by
  unfold filterRound at h
  dsimp only [Dest.load] at h
  unfold after Scan.key
  split_ifs at h ⊢ with hop hkey hlast
  cases h
  exact ⟨_, by rw [hlast]; rfl⟩

theorem scan_ends {step : Scan → Scan ⊕ Bytes}
    (hstep : ∀ s, Going jcc s → step (ofFilter s) = .inl (after jcc dl s))
    (hstop : ∀ mem cur, step ⟨mem, cur, 0, false⟩ = .inr mem) (hs : Going jcc s)
    (h : run (filterRound jcc dl) fuel s = some t) : run step (fuel + 1) (ofFilter s) = some t.mem := by
  refine run_simulates (Going jcc) ofFilter Dest.mem ?_ ?_ hs h
  · intro s s1 hs hround
    obtain ⟨hs1, hafter⟩ := after_next hs hround
    exact ⟨hs1, by rw [hstep s hs, hafter]⟩
  intro s t hs hround
  obtain ⟨cur, hafter⟩ := after_last hround
  rw [run, hstep s hs, hafter]
  change run step 1 _ = _
  rw [run, hstop]

/-- A byte that is no two byte jump. -/
theorem call_eq (s : Filter) (h : ¬(s.afterEscape = true ∧ 0x80 ≤ s.dest.mem s.esi ∧ s.dest.mem s.esi < 0x90))
    (hescape : (jcc && s.dest.mem s.esi = 0x0F) = false) :
    Scan.call ⟨s.dest.mem, s.esi + 1, s.left, s.afterEscape⟩ (s.dest.mem s.esi) dl = after jcc dl s := by
  have hop : s.opcode ↔ ¬(s.dest.mem s.esi ≠ 0xE8 ∧ s.dest.mem s.esi ≠ 0xE9) := by
    unfold Filter.opcode
    tauto
  unfold Scan.call after
  simp only [hop, ite_not, hescape]
  rfl

theorem filterC1_eq (hs : Going false s) : filterC1 dl (ofFilter s) = .inl (after false dl s) :=
  (if_pos hs.1).trans (congrArg Sum.inl (call_eq s (fun h => Bool.noConfusion (hs.2 h.1)) rfl))

theorem filterC2_eq (hs : Going true s) : filterC2 dl (ofFilter s) = .inl (after true dl s) := by
  unfold ofFilter filterC2
  dsimp only
  rw [if_pos (.inr hs.1)]
  by_cases hjcc : s.afterEscape = true ∧ 0x80 ≤ s.dest.mem s.esi ∧ s.dest.mem s.esi < 0x90
  · rw [if_pos ⟨hjcc.1, hjcc.2.1⟩, if_pos hjcc.2.2, after, if_pos (.inr (.inr hjcc))]
    rfl
  by_cases hescape : s.dest.mem s.esi = 0x0F
  · have hop : ¬s.opcode := by
      unfold Filter.opcode
      rw [hescape]
      simp
    rw [if_neg (by rw [hescape]; simp), if_neg (not_not.mpr hescape), after, if_neg hop, decide_eq_true hescape]
    rfl
  · rw [if_pos hescape, ← @call_eq true dl s hjcc (decide_eq_false hescape)]
    split_ifs with hhigh hlow
    · exact absurd ⟨hhigh.1, hhigh.2, hlow⟩ hjcc
    · rfl
    · rfl

theorem filter_mono {step : BitVec 8 → Scan → Scan ⊕ Bytes} (h : filter packed step src fuel mem = some mem')
    (hle : fuel ≤ fuel') : filter packed step src fuel' mem = some mem' := by
  unfold filter at h ⊢
  split_ifs at h ⊢
  · exact h
  · exact run_mono h hle

theorem filters_mono (h : filters packed fl src fuel mem = some mem') (hle : fuel ≤ fuel') :
    filters packed fl src fuel' mem = some mem' := by
  unfold filters at h ⊢
  split_ifs at h ⊢
  · exact filter_mono h hle
  · exact filter_mono h hle
  · exact h

theorem filter_ends {step : BitVec 8 → Scan → Scan ⊕ Bytes}
    (hstep : ∀ dl s, Going jcc s → step dl (ofFilter s) = .inl (after jcc dl s))
    (hstop : ∀ dl mem cur, step dl ⟨mem, cur, 0, false⟩ = .inr mem) (h : applyE8 jcc packed src fuel t = some t') :
    filter packed step src (fuel + 1) t.mem = some t'.mem := by
  unfold applyE8 at h
  unfold filter
  dsimp only at h ⊢
  split_ifs at h ⊢ with hzero
  · cases h
    rfl
  · exact scan_ends (hstep _) (hstop _) ⟨hzero, Bool.noConfusion⟩ h

theorem filters_ends (h : applyFilter fl packed src fuel t = some t') :
    filters packed fl src (fuel + 1) t.mem = some t'.mem := by
  unfold applyFilter at h
  unfold filters
  split_ifs at h ⊢
  · exact filter_ends (fun _ _ => filterC2_eq) (fun _ _ _ => rfl) h
  · exact filter_ends (fun _ _ => filterC1_eq) (fun _ _ _ => rfl) h
  · cases h
    rfl

theorem unpackFasmOracle_eq (base : BitVec 32) :
    unpackFasmOracle packed base fuel mem = if Accepted (packed 8) then
        (run (round packed base (destLenOf packed)) fuel ⟨startCoder packed 12, mem, 0, 0⟩).bind fun s =>
          filters packed (packed 8) s.coder.dec.rd.src fuel s.mem
      else some mem := by
  unfold unpackFasmOracle
  by_cases h : packed 8 &&& 0xC0 = 0xC0
  · rw [if_pos h, if_neg fun ha => ha.1 h]
  by_cases h' : packed 8 &&& ~~~0xC0 = 1
  · rw [if_neg h, if_neg (not_not.mpr h'), if_pos ⟨h, h'⟩]
    rfl
  · rw [if_neg h, if_pos h', if_neg fun ha => h' ha.2]

theorem lzma_ends {base destLen : BitVec 32} {s s' : Lz} (h : run (lzmaRound packed base destLen) fuel s = some s') :
    run (round packed base destLen) (fuel + 1) (ofLz s) = some (ofLz s') := by
  refine run_simulates (fun _ => True) ofLz ofLz ?_ ?_ trivial h
  · intro s s1 _ hs
    exact ⟨trivial, by rw [round_eq, hs]; rfl⟩
  · intro s s1 _ hs
    rw [run, round_eq, hs]
    rfl

theorem unpackFasmOracle_mono {base : BitVec 32} (h : unpackFasmOracle packed base fuel mem = some mem')
    (hle : fuel ≤ fuel') : unpackFasmOracle packed base fuel' mem = some mem' := by
  rw [unpackFasmOracle_eq] at h ⊢
  split_ifs at h ⊢
  · obtain ⟨s, hs, hfilter⟩ := Option.bind_eq_some_iff.mp h
    exact Option.bind_eq_some_iff.mpr ⟨s, run_mono hs hle, filters_mono hfilter hle⟩
  · exact h

/-- Whenever `unpack` ends, the second unpacker ends, and always with the bytes of `unpack`. -/
theorem unpack_eq_oracle (packed : Nat → BitVec 8) (base : BitVec 32) (t t' : Dest) (fuel : Nat)
    (h : unpack packed base fuel t = some t') :
    (∃ fuel', unpackFasmOracle packed base fuel' t.mem = some t'.mem) ∧
      ∀ fuel' mem, unpackFasmOracle packed base fuel' t.mem = some mem → mem = t'.mem := by
  have hends : unpackFasmOracle packed base (fuel + 1) t.mem = some t'.mem := by
    rw [unpackFasmOracle_eq]
    unfold unpack at h
    dsimp only at h
    split_ifs at h ⊢
    · split at h
      · cases h
      · next s hrun =>
        exact Option.bind_eq_some_iff.mpr ⟨ofLz s, lzma_ends hrun, filters_ends h⟩
    · cases h
      rfl
  refine ⟨⟨fuel + 1, hends⟩, fun fuel' mem hmem => ?_⟩
  have hmax := unpackFasmOracle_mono hmem (le_max_left fuel' (fuel + 1))
  rw [unpackFasmOracle_mono hends (le_max_right fuel' (fuel + 1))] at hmax
  exact (Option.some.inj hmax).symm

theorem unpack_eq_oracle_literal :
    ∃ t', unpack (oneByteStream 0) 0 2 ⟨fun _ => 7, []⟩ = some t' ∧
      ∃ fuel', unpackFasmOracle (oneByteStream 0) 0 fuel' (fun _ => 7) = some t'.mem :=
  ⟨_, rfl, (unpack_eq_oracle (oneByteStream 0) 0 ⟨fun _ => 7, []⟩ _ 2 rfl).1⟩

end Kolibri.Unpack.Oracle
