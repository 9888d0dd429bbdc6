import Kolibri.Lib.BinarySearch
import Kolibri.Lib.Bytes

/-! # Names in a directory of one block (`fs/xfs.asm`, `xfs_hash_lookup.rs`, `xfs_hashname.rs`)

Entries with their names, then the leaf table, sorted by hash, and a tail. Offsets are relative to `cur_dirblock`.
-/

namespace Kolibri.Xfs

open Bytes BinarySearch List

/-! ## Code -/

def errorFileNotFound : BitVec 32 := 5
def errorFsFail : BitVec 32 := 9

structure Xfs where
  dirBlockSize : BitVec 32
  dirBlockMagic : BitVec 32

def xfsHashname (name : List (BitVec 8)) : BitVec 32 :=
  name.foldl (fun eax byte => eax.rotateLeft 7 ^^^ byte.setWidth 32) 0

def loadBe (block : Nat → BitVec 8) (off : Nat) : BitVec 32 :=
  block off ++ block (off + 1) ++ block (off + 2) ++ block (off + 3)

def xfsGetAddrByHash (block : Nat → BitVec 8) (hash : BitVec 32) : Nat → Nat → Nat → Option (BitVec 32)
  | 0, _, _ => none
  | fuel + 1, cur, remaining =>
    if remaining = 0 then none
    else
      let mid := remaining / 2
      let entry := cur + mid * 8
      let entryHash := loadBe block entry
      if hash < entryHash then xfsGetAddrByHash block hash fuel cur mid
      else if entryHash < hash then xfsGetAddrByHash block hash fuel (entry + 8) (remaining - mid - 1)
      else some (loadBe block (entry + 4))

def searchFuel : Nat := 2 ^ 32 + 1

def lookupBlock (fs : Xfs) (block : Nat → BitVec 8) (name : List (BitVec 8)) : Except (BitVec 32) (BitVec 64) :=
  if readU32 block 0 ≠ fs.dirBlockMagic then .error errorFsFail
  else
    let ecx := loadBe block (fs.dirBlockSize - 8).toNat
    let ebx := fs.dirBlockSize - (ecx * 8 + 8)
    match xfsGetAddrByHash block (xfsHashname name) searchFuel ebx.toNat ecx.toNat with
    | none => .error errorFileNotFound
    | some eax => .ok (loadBe block (eax * 8).toNat ++ loadBe block ((eax * 8).toNat + 4))

/-! ## Directories -/

structure DirEntry where
  name : List (BitVec 8)
  inode : BitVec 64
  address : BitVec 32

def leafBase (fs : Xfs) (n : Nat) : Nat := fs.dirBlockSize.toNat - 8 * (n + 1)

def leafHash (fs : Xfs) (n : Nat) (block : Nat → BitVec 8) (i : Nat) : BitVec 32 := loadBe block (leafBase fs n + 8 * i)

def leafAddress (fs : Xfs) (n : Nat) (block : Nat → BitVec 8) (i : Nat) : BitVec 32 :=
  loadBe block (leafBase fs n + 8 * i + 4)

structure Stored (fs : Xfs) (n : Nat) (block : Nat → BitVec 8) (e : DirEntry) : Prop where
  inside : 8 * e.address.toNat + 9 + e.name.length ≤ leafBase fs n
  inode : loadBe block (8 * e.address.toNat) ++ loadBe block (8 * e.address.toNat + 4) = e.inode
  namelen : (block (8 * e.address.toNat + 8)).toNat = e.name.length
  name : ∀ i (hi : i < e.name.length), block (8 * e.address.toNat + 9 + i) = e.name[i]

structure IsDirectory (fs : Xfs) (block : Nat → BitVec 8) (entries : List DirEntry) : Prop where
  magic : readU32 block 0 = fs.dirBlockMagic
  size : 8 * (entries.length + 1) + 4 ≤ fs.dirBlockSize.toNat
  count : (loadBe block (fs.dirBlockSize.toNat - 8)).toNat = entries.length
  names : (entries.map DirEntry.name).Nodup
  stored : ∀ e ∈ entries, Stored fs entries.length block e
  leaves : List.Perm
    ((List.range entries.length).map fun i =>
      (leafHash fs entries.length block i, leafAddress fs entries.length block i))
    (entries.map fun e => (xfsHashname e.name, e.address))
  sorted : ∀ j < entries.length, ∀ i ≤ j, leafHash fs entries.length block i ≤ leafHash fs entries.length block j

def LookupRight (fs : Xfs) (block : Nat → BitVec 8) (entries : List DirEntry) (name : List (BitVec 8)) : Prop :=
  (∀ e ∈ entries, e.name = name → lookupBlock fs block name = .ok e.inode) ∧
    ((∀ e ∈ entries, e.name ≠ name) → lookupBlock fs block name = .error errorFileNotFound)

/-! ## The search -/

variable {fs : Xfs} {block block' : Nat → BitVec 8} {entries : List DirEntry} {name : List (BitVec 8)}

def findLeaf (fs : Xfs) (n : Nat) (block : Nat → BitVec 8) (hash : BitVec 32) : Option Nat :=
  search (fun i => (leafHash fs n block i).toNat) hash.toNat searchFuel 0 n

theorem get_addr_by_hash_eq (block : Nat → BitVec 8) (hash : BitVec 32) (base fuel lo n : Nat) :
    xfsGetAddrByHash block hash fuel (base + 8 * lo) n =
      (search (fun i => (loadBe block (base + 8 * i)).toNat) hash.toNat fuel lo n).map fun i =>
        loadBe block (base + 8 * i + 4) := by
  induction fuel generalizing lo n with
  | zero => rfl
  | succ fuel ih =>
    have hentry : base + 8 * lo + n / 2 * 8 = base + 8 * (lo + n / 2) := by omega
    have hnext : base + 8 * (lo + n / 2) + 8 = base + 8 * (lo + n / 2 + 1) := by omega
    unfold xfsGetAddrByHash search
    simp only [hentry, hnext, ih, BitVec.lt_def]
    split_ifs <;> rfl

/-! ## The leaf table alone can be read -/

structure XfsHashLookupResult where
  eax : BitVec 32
  zf : BitVec 32

def loadBeU32 (mem : Nat → Option (BitVec 8)) (p : Nat) : Option (BitVec 32) := do
  return (← mem p) ++ (← mem (p + 1)) ++ (← mem (p + 2)) ++ (← mem (p + 3))

/-- A fault ends the search, and so does the end of the fuel. -/
def xfsGetAddrByHashIn (mem : Nat → Option (BitVec 8)) (hash : BitVec 32) :
    Nat → Nat → Nat → Option XfsHashLookupResult
  | 0, _, _ => none
  | fuel + 1, cur, remaining =>
    if remaining = 0 then some ⟨errorFileNotFound, 0⟩
    else do
      let mid := remaining / 2
      let entry := cur + mid * 8
      let entryHash ← loadBeU32 mem entry
      if hash < entryHash then xfsGetAddrByHashIn mem hash fuel cur mid
      else if entryHash < hash then xfsGetAddrByHashIn mem hash fuel (entry + 8) (remaining - mid - 1)
      else return ⟨← loadBeU32 mem (entry + 4), 1⟩

def XfsHashLookupResult.of : Option (BitVec 32) → XfsHashLookupResult
  | none => ⟨errorFileNotFound, 0⟩
  | some address => ⟨address, 1⟩

theorem loadBeU32_eq {mem : Nat → Option (BitVec 8)} {off : Nat}
    (h : ∀ i < 4, mem (off + i) = some (block (off + i))) :
    loadBeU32 mem off = some (loadBe block off) := by
  have h0 : mem off = some (block off) := h 0 (by omega)
  simp [loadBeU32, loadBe, h0, h 1 (by omega), h 2 (by omega), h 3 (by omega)]

theorem get_addr_by_hash_in_eq {mem : Nat → Option (BitVec 8)} {hash : BitVec 32} {base len fuel cur n : Nat}
    (htable : ∀ a, base ≤ a → a < base + 8 * len → mem a = some (block a)) (hfuel : n < fuel) (hcur : base ≤ cur)
    (hend : cur + 8 * n ≤ base + 8 * len) :
    xfsGetAddrByHashIn mem hash fuel cur n = some (.of (xfsGetAddrByHash block hash fuel cur n)) := by
  induction fuel generalizing cur n with
  | zero => omega
  | succ fuel ih =>
    unfold xfsGetAddrByHashIn xfsGetAddrByHash
    by_cases hzero : n = 0
    · simp [hzero, XfsHashLookupResult.of]
    rw [if_neg hzero, if_neg hzero]
    dsimp only
    rw [loadBeU32_eq fun i hi => htable _ (by omega) (by omega),
      loadBeU32_eq fun i hi => htable _ (by omega) (by omega)]
    dsimp only [Option.bind_eq_bind, Option.bind_some]
    split_ifs
    · exact ih (by omega) hcur (by omega)
    · exact ih (by omega) (by omega) (by omega)
    · rfl

/-- **The leaf search** ends without a fault, whatever else can be read, and finds a hash exactly if it is there. -/
theorem xfs_get_addr_by_hash_correct (mem : Nat → Option (BitVec 8)) (block : Nat → BitVec 8) (hash : BitVec 32)
    (base : Nat) (len : BitVec 32) {fuel : Nat} (hfuel : len.toNat < fuel)
    (htable : ∀ a, base ≤ a → a < base + 8 * len.toNat → mem a = some (block a))
    (hsorted : ∀ j < len.toNat, ∀ i ≤ j, loadBe block (base + 8 * i) ≤ loadBe block (base + 8 * j)) :
    ∃ r, xfsGetAddrByHashIn mem hash fuel base len.toNat = some r ∧
      (r.zf = 1 ↔ ∃ i < len.toNat, loadBe block (base + 8 * i) = hash) ∧
      (r.zf = 1 → ∃ i < len.toNat, loadBe block (base + 8 * i) = hash ∧ r.eax = loadBe block (base + 8 * i + 4)) := by
  refine ⟨_, get_addr_by_hash_in_eq htable hfuel le_rfl le_rfl, ?_⟩
  have heq := get_addr_by_hash_eq block hash base fuel 0 len.toNat
  rw [mul_zero, add_zero] at heq
  rw [heq]
  cases hfind : search (fun i => (loadBe block (base + 8 * i)).toNat) hash.toNat fuel 0 len.toNat with
  | none =>
    have hmissed := search_none (fun i j _ hij hj => hsorted j (by omega) i hij) hfuel hfind
    have hnot : ¬ ∃ i < len.toNat, loadBe block (base + 8 * i) = hash := by
      rintro ⟨i, hi, hhash⟩
      exact hmissed i (by omega) (by omega) (congrArg BitVec.toNat hhash)
    simp [XfsHashLookupResult.of, hnot]
  | some i =>
    obtain ⟨-, hi, hkey⟩ := search_some hfind
    have hhash : loadBe block (base + 8 * i) = hash := BitVec.eq_of_toNat_eq hkey
    rw [zero_add] at hi
    exact ⟨⟨fun _ => ⟨i, hi, hhash⟩, fun _ => rfl⟩, fun _ => ⟨i, hi, hhash, rfl⟩⟩

theorem xfs_get_addr_by_hash_twice : ∃ r,
    xfsGetAddrByHashIn (fun a => if a < 16 then some (if a % 8 = 3 then 7 else 0) else none) 7 3 0 2 = some r ∧
      r.zf = 1 := by
  let block : Nat → BitVec 8 := fun a => if a % 8 = 3 then 7 else 0
  obtain ⟨r, hr, hzf, -⟩ := xfs_get_addr_by_hash_correct
    (fun a => if a < 16 then some (block a) else none) block 7 0 2 (show 2 < 3 by decide)
    (fun a _ ha => if_pos ha) (by decide +kernel)
  exact ⟨r, hr, hzf.mpr ⟨0, by decide, by decide⟩⟩

section

variable (h : IsDirectory fs block entries)
include h

theorem IsDirectory.base :
    (fs.dirBlockSize - (loadBe block (fs.dirBlockSize - 8).toNat * 8 + 8)).toNat = leafBase fs entries.length := by
  have hsize := h.size
  have hcount := h.count
  have height : (fs.dirBlockSize - 8).toNat = fs.dirBlockSize.toNat - 8 := by bv_omega
  rw [height]
  generalize loadBe block (fs.dirBlockSize.toNat - 8) = ecx at hcount
  unfold leafBase
  bv_omega

theorem lookup_block_eq (name : List (BitVec 8)) :
    lookupBlock fs block name = match findLeaf fs entries.length block (xfsHashname name) with
      | none => .error errorFileNotFound
      | some i =>
        .ok (loadBe block (leafAddress fs entries.length block i * 8).toNat ++
          loadBe block ((leafAddress fs entries.length block i * 8).toNat + 4)) := by
  have height : (fs.dirBlockSize - 8).toNat = fs.dirBlockSize.toNat - 8 := by
    have := h.size
    bv_omega
  unfold lookupBlock
  rw [if_neg (not_not.mpr h.magic)]
  dsimp only
  rw [h.base, height, h.count]
  have hsearch : xfsGetAddrByHash block (xfsHashname name) searchFuel (leafBase fs entries.length) entries.length =
      (findLeaf fs entries.length block (xfsHashname name)).map (leafAddress fs entries.length block) :=
    get_addr_by_hash_eq block (xfsHashname name) (leafBase fs entries.length) searchFuel 0 entries.length
  rw [hsearch]
  cases findLeaf fs entries.length block (xfsHashname name) <;> rfl

theorem IsDirectory.leaf_of_entry {e : DirEntry} (he : e ∈ entries) :
    ∃ i < entries.length, leafHash fs entries.length block i = xfsHashname e.name ∧
      leafAddress fs entries.length block i = e.address := by
  have hmem := h.leaves.mem_iff.mpr (mem_map_of_mem he)
  obtain ⟨i, hi, heq⟩ := mem_map.mp hmem
  exact ⟨i, mem_range.mp hi, (Prod.mk.inj heq).1, (Prod.mk.inj heq).2⟩

theorem IsDirectory.entry_of_leaf {i : Nat} (hi : i < entries.length) :
    ∃ e ∈ entries, leafHash fs entries.length block i = xfsHashname e.name ∧
      leafAddress fs entries.length block i = e.address := by
  have hmem := h.leaves.mem_iff.mp (mem_map_of_mem (mem_range.mpr hi))
  obtain ⟨e, he, heq⟩ := mem_map.mp hmem
  exact ⟨e, he, (Prod.mk.inj heq).1.symm, (Prod.mk.inj heq).2.symm⟩

theorem IsDirectory.inode_of_leaf {i : Nat} {e : DirEntry} (he : e ∈ entries)
    (haddress : leafAddress fs entries.length block i = e.address) :
    loadBe block (leafAddress fs entries.length block i * 8).toNat ++
      loadBe block ((leafAddress fs entries.length block i * 8).toNat + 4) = e.inode := by
  have hstored := h.stored e he
  have hinside := hstored.inside
  unfold leafBase at hinside
  have hoff : (e.address * 8).toNat = 8 * e.address.toNat := by bv_omega
  rw [haddress, hoff, hstored.inode]

end

theorem find_leaf_some {n p : Nat} {hash : BitVec 32} (h : findLeaf fs n block hash = some p) :
    p < n ∧ leafHash fs n block p = hash := by
  obtain ⟨-, hlt, hkey⟩ := search_some h
  exact ⟨by omega, BitVec.eq_of_toNat_eq hkey⟩

theorem IsDirectory.find_leaf_none_iff (h : IsDirectory fs block entries) (hash : BitVec 32) :
    findLeaf fs entries.length block hash = none ↔ ∀ e ∈ entries, xfsHashname e.name ≠ hash := by
  have hfuel : entries.length < searchFuel := by
    have := h.size
    unfold searchFuel
    omega
  constructor
  · intro hnone e he
    obtain ⟨i, hi, hhash, -⟩ := h.leaf_of_entry he
    rw [← hhash]
    intro heq
    have hmissed := search_none (fun i j _ hij hj => h.sorted j (by omega) i hij) hfuel hnone i (by omega) (by omega)
    exact hmissed (congrArg BitVec.toNat heq)
  intro hall
  by_contra hsome
  obtain ⟨i, hi⟩ := Option.ne_none_iff_exists'.mp hsome
  obtain ⟨hlt, hkey⟩ := find_leaf_some hi
  obtain ⟨e, he, hhash, -⟩ := h.entry_of_leaf hlt
  exact hall e he (hhash.symm.trans hkey)

/-! ## Two leaves change places -/

def swapLeaves (fs : Xfs) (n p q : Nat) (block : Nat → BitVec 8) : Nat → BitVec 8 := fun o =>
  if leafBase fs n + 8 * p + 4 ≤ o ∧ o < leafBase fs n + 8 * p + 8 then block (o + 8 * q - 8 * p)
  else if leafBase fs n + 8 * q + 4 ≤ o ∧ o < leafBase fs n + 8 * q + 8 then block (o + 8 * p - 8 * q)
  else block o

theorem loadBe_congr {off off' : Nat} (h : ∀ i < 4, block' (off' + i) = block (off + i)) :
    loadBe block' off' = loadBe block off := by
  have h0 : block' off' = block off := h 0 (by omega)
  rw [loadBe, loadBe, h0, h 1 (by omega), h 2 (by omega), h 3 (by omega)]

theorem swapLeaves_outside (fs : Xfs) {n p q o : Nat} (block : Nat → BitVec 8)
    (h : ∀ i, i = p ∨ i = q → o < leafBase fs n + 8 * i + 4 ∨ leafBase fs n + 8 * i + 8 ≤ o) :
    swapLeaves fs n p q block o = block o := by
  have hp := h p (.inl rfl)
  have hq := h q (.inr rfl)
  rw [swapLeaves, if_neg (by omega), if_neg (by omega)]

theorem swapLeaves_hash (fs : Xfs) (n p q : Nat) (block : Nat → BitVec 8) (i : Nat) :
    leafHash fs n (swapLeaves fs n p q block) i = leafHash fs n block i :=
  loadBe_congr fun j hj => swapLeaves_outside fs block fun k _ => by omega

theorem swapLeaves_find (fs : Xfs) (n p q : Nat) (block : Nat → BitVec 8) (hash : BitVec 32) :
    findLeaf fs n (swapLeaves fs n p q block) hash = findLeaf fs n block hash :=
  search_congr fun i _ _ => by rw [swapLeaves_hash]

theorem swapLeaves_address (fs : Xfs) (n p q : Nat) (block : Nat → BitVec 8) (i : Nat) :
    leafAddress fs n (swapLeaves fs n p q block) i = leafAddress fs n block (Equiv.swap p q i) := by
  refine loadBe_congr fun j hj => ?_
  unfold swapLeaves
  by_cases hp : i = p
  · subst hp
    rw [if_pos (by omega), Equiv.swap_apply_left]
    congr 1
    omega
  by_cases hq : i = q
  · subst hq
    rw [if_neg (by omega), if_pos (by omega), Equiv.swap_apply_right]
    congr 1
    omega
  · rw [if_neg (by omega), if_neg (by omega), Equiv.swap_apply_of_ne_of_ne hp hq]

theorem perm_range_swap {n p q : Nat} (hp : p < n) (hq : q < n) :
    List.Perm ((List.range n).map (Equiv.swap p q)) (List.range n) := by
  rw [perm_ext_iff_of_nodup (nodup_range.map (Equiv.swap p q).injective) nodup_range]
  intro i
  simp only [mem_map, mem_range]
  constructor
  · rintro ⟨j, hj, rfl⟩
    rw [Equiv.swap_apply_def]
    split_ifs <;> assumption
  · intro hi
    refine ⟨Equiv.swap p q i, ?_, Equiv.swap_apply_self ..⟩
    rw [Equiv.swap_apply_def]
    split_ifs <;> assumption

theorem IsDirectory.swap (h : IsDirectory fs block entries) {p q : Nat} (hp : p < entries.length)
    (hq : q < entries.length)
    (hhash : leafHash fs entries.length block p = leafHash fs entries.length block q) :
    IsDirectory fs (swapLeaves fs entries.length p q block) entries := by
  have hsize := h.size
  have hfront : ∀ o < leafBase fs entries.length, swapLeaves fs entries.length p q block o = block o :=
    fun o ho => swapLeaves_outside fs block fun i _ => by omega
  have hkeys : ∀ i, leafHash fs entries.length block (Equiv.swap p q i) = leafHash fs entries.length block i := by
    intro i
    rw [Equiv.swap_apply_def]
    split_ifs with h1 h2
    · rw [h1, hhash]
    · rw [h2, hhash]
    · rfl
  have hbase : leafBase fs entries.length + 8 * (entries.length + 1) = fs.dirBlockSize.toNat := by
    unfold leafBase
    omega
  refine ⟨?_, hsize, ?_, h.names, fun e he => ?_, ?_, ?_⟩
  · rw [← h.magic]
    exact readU32_congr fun i hi => hfront _ (by omega)
  · have htail : ∀ i < 4, swapLeaves fs entries.length p q block (fs.dirBlockSize.toNat - 8 + i) =
        block (fs.dirBlockSize.toNat - 8 + i) := by
      intro i hi
      refine swapLeaves_outside fs block ?_
      rintro j (rfl | rfl) <;> omega
    rw [loadBe_congr htail, h.count]
  · obtain ⟨hinside, hinode, hlen, hname⟩ := h.stored e he
    refine ⟨hinside, ?_, ?_, fun i hi => ?_⟩
    · rw [← hinode, loadBe_congr fun i hi => hfront _ (by omega), loadBe_congr fun i hi => hfront _ (by omega)]
    · rw [← hlen, hfront _ (by omega)]
    · rw [← hname i hi, hfront _ (by omega)]
  · refine List.Perm.trans ?_ h.leaves
    have hmap : (fun i => (leafHash fs entries.length (swapLeaves fs entries.length p q block) i,
        leafAddress fs entries.length (swapLeaves fs entries.length p q block) i)) =
        (fun i => (leafHash fs entries.length block i, leafAddress fs entries.length block i)) ∘ Equiv.swap p q := by
      funext i
      simp [Function.comp_apply, swapLeaves_hash, swapLeaves_address, hkeys]
    rw [hmap, ← map_map]
    exact (perm_range_swap hp hq).map _
  · intro j hj i hij
    rw [swapLeaves_hash, swapLeaves_hash]
    exact h.sorted j hj i hij

/-! ## Lookup by name -/

/-- Every entry with the hash of the name leads to the inode of the entry with this name. -/
def HashDecides (entries : List DirEntry) (name : List (BitVec 8)) : Prop :=
  ∀ e ∈ entries, xfsHashname e.name = xfsHashname name → ∃ e' ∈ entries, e'.name = name ∧ e'.inode = e.inode

theorem IsDirectory.name_unique (h : IsDirectory fs block entries) {e e' : DirEntry} (he : e ∈ entries)
    (he' : e' ∈ entries) (hname : e.name = e'.name) : e = e' :=
  inj_on_of_nodup_map h.names he he' hname

/-- **The lookup is right** in every directory with these entries exactly if the hash decides. -/
theorem lookup_block_right_iff (fs : Xfs) (entries : List DirEntry) (name : List (BitVec 8))
    (hex : ∃ block, IsDirectory fs block entries) :
    (∀ block, IsDirectory fs block entries → LookupRight fs block entries name) ↔ HashDecides entries name := by
  constructor
  · intro hall e he hhash
    obtain ⟨block, h⟩ := hex
    obtain ⟨q, hq, hqhash, hqaddress⟩ := h.leaf_of_entry he
    have hsome : findLeaf fs entries.length block (xfsHashname name) ≠ none :=
      fun hnone => (h.find_leaf_none_iff _).mp hnone e he hhash
    obtain ⟨p, hp⟩ := Option.ne_none_iff_exists'.mp hsome
    obtain ⟨hlt, hkey⟩ := find_leaf_some hp
    -- The leaf of `e` goes to the place where the search stops.
    have hswap := h.swap hlt hq (hkey.trans (hhash.symm.trans hqhash.symm))
    have haddress : leafAddress fs entries.length (swapLeaves fs entries.length p q block) p = e.address := by
      rw [swapLeaves_address, Equiv.swap_apply_left, hqaddress]
    have hlookup := lookup_block_eq hswap name
    rw [swapLeaves_find, hp] at hlookup
    dsimp only at hlookup
    rw [hswap.inode_of_leaf he haddress] at hlookup
    obtain ⟨hfound, hmissing⟩ := hall _ hswap
    by_cases hname : ∀ x ∈ entries, x.name ≠ name
    · have := hmissing hname
      rw [hlookup] at this
      cases this
    push Not at hname
    obtain ⟨e', he', hname⟩ := hname
    refine ⟨e', he', hname, ?_⟩
    have := hfound e' he' hname
    rw [hlookup] at this
    injection this with this
    exact this.symm
  · intro hdecides block h
    unfold LookupRight
    rw [lookup_block_eq h name]
    cases hfind : findLeaf fs entries.length block (xfsHashname name) with
    | none =>
      have hnone := (h.find_leaf_none_iff _).mp hfind
      refine ⟨fun e he hname => ?_, fun _ => rfl⟩
      exact absurd (congrArg xfsHashname hname) (hnone e he)
    | some p =>
      obtain ⟨hlt, hkey⟩ := find_leaf_some hfind
      obtain ⟨e, he, hhash, haddress⟩ := h.entry_of_leaf hlt
      obtain ⟨e', he', hname', hinode⟩ := hdecides e he (hhash.symm.trans hkey)
      dsimp only
      rw [h.inode_of_leaf he haddress]
      refine ⟨fun x hx hname => ?_, fun hnone => absurd hname' (hnone e' he')⟩
      rw [h.name_unique hx he' (hname.trans hname'.symm), hinode]

/-! ## A small block -/

def smallFs : Xfs := ⟨96, 0x42443258⟩

def smallBlock (entries leaves : List (BitVec 8)) : Nat → BitVec 8 := fun i =>
  if i < 16 then [0x58, 0x32, 0x44, 0x42].getD i 0
  else if i + leaves.length < 92 then entries.getD (i - 16) 0
  else leaves.getD (i + leaves.length - 92) 0

def pairEntries : List DirEntry := [⟨[0x61], 7, 2⟩, ⟨[0x62], 9, 4⟩]

def pairBlock : Nat → BitVec 8 :=
  smallBlock [0, 0, 0, 0, 0, 0, 0, 7, 1, 0x61, 0, 0, 0, 0, 0, 0, 0, 0, 0, 0, 0, 0, 0, 9, 1, 0x62]
    [0, 0, 0, 0x61, 0, 0, 0, 2, 0, 0, 0, 0x62, 0, 0, 0, 4, 0, 0, 0, 2]

theorem pair_block_directory : IsDirectory smallFs pairBlock pairEntries := by
  refine ⟨by decide +kernel, by decide, by decide +kernel, by decide, ?_, by decide +kernel, by decide +kernel⟩
  have hfirst : Stored smallFs 2 pairBlock ⟨[0x61], 7, 2⟩ :=
    ⟨by decide +kernel, by decide +kernel, by decide +kernel, by decide +kernel⟩
  have hsecond : Stored smallFs 2 pairBlock ⟨[0x62], 9, 4⟩ :=
    ⟨by decide +kernel, by decide +kernel, by decide +kernel, by decide +kernel⟩
  intro e he
  rcases mem_pair.mp he with rfl | rfl
  · exact hfirst
  · exact hsecond

theorem lookup_block_right_pair : LookupRight smallFs pairBlock pairEntries [0x62] :=
  (lookup_block_right_iff smallFs pairEntries [0x62] ⟨pairBlock, pair_block_directory⟩).mpr
    (by unfold HashDecides; decide +kernel) pairBlock pair_block_directory

/-- `aaaaa`, whose hash is the hash of `Aaaac`. -/
def singleEntry : List DirEntry := [⟨[0x61, 0x61, 0x61, 0x61, 0x61], 7, 2⟩]

def singleBlock : Nat → BitVec 8 :=
  smallBlock [0, 0, 0, 0, 0, 0, 0, 7, 5, 0x61, 0x61, 0x61, 0x61, 0x61] [0x1c, 0x38, 0x70, 0xe7, 0, 0, 0, 2, 0, 0, 0, 1]

theorem single_block_directory : IsDirectory smallFs singleBlock singleEntry := by
  refine ⟨by decide +kernel, by decide, by decide +kernel, by decide, ?_, by decide +kernel, by decide +kernel⟩
  intro e he
  rw [mem_singleton.mp he]
  exact ⟨by decide +kernel, by decide +kernel, by decide +kernel, by decide +kernel⟩

/-- The name does not exist, and the lookup gives the inode of another name. -/
theorem lookup_block_finds_other_name :
    ¬ ∀ (fs : Xfs) (block : Nat → BitVec 8) (entries : List DirEntry) (name : List (BitVec 8)),
      IsDirectory fs block entries → LookupRight fs block entries name := by
  intro hall
  have hmissing := (hall smallFs singleBlock singleEntry [0x41, 0x61, 0x61, 0x61, 0x63] single_block_directory).2
    (by decide)
  have hfound : lookupBlock smallFs singleBlock [0x41, 0x61, 0x61, 0x61, 0x63] = .ok 7 := by decide +kernel
  rw [hfound] at hmissing
  cases hmissing

end Kolibri.Xfs
