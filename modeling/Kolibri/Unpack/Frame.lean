import Kolibri.Unpack.Code

/-! # What the unpacker touches, against an unpacker that checks -/

namespace Kolibri.Unpack

open CheckedLoop

variable {packed : Nat → BitVec 8} {base destLen : BitVec 32}

def Dest.Clean (destLen : BitVec 32) (t : Dest) : Prop := ∀ i ∈ t.touched, i < destLen

variable {i : BitVec 32} {t : Dest} {c : Coder} {posState : Nat}

theorem Dest.clean_load : (t.load i).2.Clean destLen ↔ i < destLen ∧ t.Clean destLen :=
  List.forall_mem_cons

theorem Dest.clean_store {b : BitVec 8} : (t.store i b).Clean destLen ↔ i < destLen ∧ t.Clean destLen :=
  List.forall_mem_cons

/-! ## Stretches of the destination -/

theorem stretch_inside_iff {len : Nat} (hlen : 0 < len) :
    (∀ k < len, i + BitVec.ofNat 32 k < destLen) ↔ i.toNat + len ≤ destLen.toNat := by
  constructor
  · intro h
    by_contra hlong
    -- The first index behind the end is met.
    have hbehind := h (destLen.toNat - i.toNat) (by omega)
    bv_omega
  · intro h k hk
    bv_omega

theorem clean_copyMatch {n : Nat} {d s : BitVec 32} :
    (copyMatch n d s t).Clean destLen ↔ t.Clean destLen ∧
      (∀ k < n, d + BitVec.ofNat 32 k < destLen) ∧ ∀ k < n, s + BitVec.ofNat 32 k < destLen := by
  have hshift : ∀ (a : BitVec 32) (m : Nat), (∀ k < m + 1, a + BitVec.ofNat 32 k < destLen) ↔
      a < destLen ∧ ∀ k < m, a + 1 + BitVec.ofNat 32 k < destLen := by
    intro a m
    have hnext : ∀ k, a + BitVec.ofNat 32 (k + 1) = a + 1 + BitVec.ofNat 32 k := by
      intro k
      rw [Nat.add_comm, BitVec.ofNat_add, BitVec.add_assoc]
      rfl
    constructor
    · intro h
      refine ⟨by simpa using h 0 (by omega), fun k hk => ?_⟩
      rw [← hnext]
      exact h (k + 1) (by omega)
    rintro ⟨h0, h⟩ k hk
    cases k with
    | zero => simpa using h0
    | succ k =>
      rw [hnext]
      exact h k (by omega)
  induction n generalizing d s t with
  | zero => simp [copyMatch]
  | succ n ih =>
    refine ih.trans ?_
    change ((t.load s).2.store d _).Clean destLen ∧ _ ↔ _
    rw [Dest.clean_store, Dest.clean_load, hshift, hshift]
    tauto

/-! ## Rounds of the decoder -/

inductive Packet.Long : Packet × Coder → Prop
  | literal {b : BitVec 8} {matched : Bool} {c : Coder} : Packet.Long (.literal b matched, c)
  | shortRep {c : Coder} : Packet.Long (.shortRep, c)
  | copy {len : Nat} {c : Coder} : Packet.Long (.copy (len + 2), c)
  | stop {c : Coder} : Packet.Long (.stop, c)

theorem Packet.long_ite {b : Prop} [Decidable b] {p q : Packet × Coder} (hp : Packet.Long p) (hq : Packet.Long q) :
    Packet.Long (if b then p else q) := by
  split
  · exact hp
  · exact hq

theorem newMatch_long : Packet.Long (newMatch packed posState c) := by
  unfold newMatch
  generalize (if _ < 4 then _ else _ : BitVec 32 × Dec) = r
  exact Packet.long_ite .stop .copy

theorem repMatch_long : Packet.Long (repMatch packed posState c) := .copy

theorem nextPacket_long {prev matchByte : BitVec 8} : Packet.Long (nextPacket packed posState prev matchByte c) := by
  apply Packet.long_ite
  · exact Packet.long_ite .literal .literal
  apply Packet.long_ite newMatch_long
  apply Packet.long_ite
  · exact Packet.long_ite .shortRep repMatch_long
  exact Packet.long_ite repMatch_long (Packet.long_ite repMatch_long repMatch_long)

/-- The checks that the code lacks. -/
def Packet.Fits (destLen edi rep0 : BitVec 32) : Packet × Coder → Prop
  | (.literal _ matched, _) => matched = true → edi - rep0 < destLen
  | (.shortRep, _) => edi - rep0 < destLen
  | (.copy len, c) => edi.toNat + len ≤ destLen.toNat ∧ (edi - c.rep0).toNat + len ≤ destLen.toNat
  | (.stop, _) => True

instance (destLen edi rep0 : BitVec 32) (p : Packet × Coder) : Decidable (Packet.Fits destLen edi rep0 p) :=
  match p with
  | (.literal _ matched, _) => inferInstanceAs (Decidable (matched = true → _))
  | (.shortRep, _) => inferInstanceAs (Decidable (_ < _))
  | (.copy _, _) => inferInstanceAs (Decidable (_ ∧ _))
  | (.stop, _) => isTrue trivial

def Lz.Fits (packed : Nat → BitVec 8) (base destLen : BitVec 32) (s : Lz) : Prop :=
  base + s.edi < base + destLen → Packet.Fits destLen s.edi s.coder.rep0 (s.packet packed base)

instance (packed : Nat → BitVec 8) (base destLen : BitVec 32) : DecidablePred (Lz.Fits packed base destLen) :=
  fun _ => inferInstanceAs (Decidable (_ → _))

theorem lt_of_address_lt {edi : BitVec 32} (hle : edi ≤ destLen) (h : base + edi < base + destLen) : edi < destLen := by
  bv_omega

theorem lzmaRound_spec {s : Lz} :
    (∃ s', lzmaRound packed base destLen s = .inl s' ∧ base + s.edi < base + destLen ∧
      (s'.dest.Clean destLen → s.dest.Clean destLen) ∧
      (s.edi < destLen → (s'.dest.Clean destLen ↔ s.dest.Clean destLen ∧ s.Fits packed base destLen)) ∧
      (s.edi < destLen → s.Fits packed base destLen → s.edi < s'.edi ∧ s'.edi ≤ destLen)) ∨
    ∃ s', lzmaRound packed base destLen s = .inr s' ∧ s'.dest = s.dest ∧ s.Fits packed base destLen := by
  by_cases hmore : base + s.edi < base + destLen
  · have hfits : s.Fits packed base destLen ↔
        Packet.Fits destLen s.edi s.coder.rep0 (s.packet packed base) := ⟨fun h => h hmore, fun h _ => h⟩
    simp only [lzmaRound, if_pos hmore, hfits]
    have hlong : Packet.Long (s.packet packed base) := nextPacket_long
    generalize s.packet packed base = pc at hlong ⊢
    obtain ⟨p, c⟩ := pc
    cases p with
    | literal al matched =>
      refine .inl ⟨_, rfl, hmore, ?_, ?_, ?_⟩
      · rw [Dest.clean_store]
        cases matched with
        | false => exact fun h => h.2
        | true => exact fun h => (Dest.clean_load.mp h.2).2
      · intro hlt
        rw [Dest.clean_store]
        cases matched with
        | false => simp [Packet.Fits, hlt]
        | true =>
          simp only [if_true, Dest.clean_load, Packet.Fits, hlt, true_and, forall_const]
          tauto
      · intro hlt _
        exact ⟨by bv_omega, by bv_omega⟩
    | shortRep =>
      refine .inl ⟨_, rfl, hmore, ?_, ?_, ?_⟩
      · rw [Dest.clean_store, Dest.clean_load]
        exact fun h => h.2.2
      · intro hlt
        rw [Dest.clean_store, Dest.clean_load]
        simp only [Packet.Fits, hlt, true_and]
        tauto
      · intro hlt _
        exact ⟨by bv_omega, by bv_omega⟩
    | copy len =>
      have hlen : 2 ≤ len := by
        cases hlong
        omega
      refine .inl ⟨_, rfl, hmore, ?_, ?_, ?_⟩
      · rw [Dest.clean_load, clean_copyMatch]
        exact fun h => h.2.1
      · intro hlt
        rw [Dest.clean_load, clean_copyMatch, stretch_inside_iff (by omega), stretch_inside_iff (by omega)]
        simp only [Packet.Fits]
        constructor
        · tauto
        · rintro ⟨hclean, hwrite, hread⟩
          refine ⟨?_, hclean, hwrite, hread⟩
          bv_omega
      · rintro hlt ⟨hwrite, -⟩
        exact ⟨by bv_omega, by bv_omega⟩
    | stop => exact .inr ⟨_, rfl, rfl, trivial⟩
  · refine .inr ⟨s, ?_, rfl, fun h => absurd h hmore⟩
    simp [lzmaRound, if_neg hmore]

theorem lzma_guards (packed : Nat → BitVec 8) (base destLen : BitVec 32) :
    Guards (Lz.Fits packed base destLen) (lzmaRound packed base destLen) (fun s => s.edi ≤ destLen)
      (fun s => s.dest.Clean destLen) (fun s => s.dest.Clean destLen) fun s => destLen.toNat - s.edi.toNat := by
  refine ⟨?_, ?_, ?_, ?_, ?_, ?_⟩
  · intro s s' hle hclean hfits hround
    obtain ⟨s'', hs'', hmore, -, hiff, hprogress⟩ | ⟨s'', hs'', -⟩ := @lzmaRound_spec packed base destLen s
    · obtain rfl : s'' = s' := Sum.inl.inj (hs''.symm.trans hround)
      have hlt := lt_of_address_lt hle hmore
      obtain ⟨hup, hle'⟩ := hprogress hlt hfits
      exact ⟨hle', (hiff hlt).mpr ⟨hclean, hfits⟩, by bv_omega⟩
    · rw [hs''] at hround
      cases hround
  · intro s r hle hclean hfits hround
    obtain ⟨s'', hs'', -⟩ | ⟨s'', hs'', hdest, -⟩ := @lzmaRound_spec packed base destLen s
    · rw [hs''] at hround
      cases hround
    · obtain rfl : s'' = r := Sum.inr.inj (hs''.symm.trans hround)
      rwa [hdest]
  · intro s s' hle hfails hround
    obtain ⟨s'', hs'', hmore, -, hiff, -⟩ | ⟨s'', hs'', -⟩ := @lzmaRound_spec packed base destLen s
    · obtain rfl : s'' = s' := Sum.inl.inj (hs''.symm.trans hround)
      exact fun hclean => hfails ((hiff (lt_of_address_lt hle hmore)).mp hclean).2
    · rw [hs''] at hround
      cases hround
  · intro s r hle hfails hround
    obtain ⟨s'', hs'', -⟩ | ⟨s'', hs'', -, hfits⟩ := @lzmaRound_spec packed base destLen s
    · rw [hs''] at hround
      cases hround
    · exact absurd hfits hfails
  · intro s s' hdirty hround
    obtain ⟨s'', hs'', -, hmono, -⟩ | ⟨s'', hs'', -⟩ := @lzmaRound_spec packed base destLen s
    · obtain rfl : s'' = s' := Sum.inl.inj (hs''.symm.trans hround)
      exact fun hclean => hdirty (hmono hclean)
    · rw [hs''] at hround
      cases hround
  · intro s r hdirty hround
    obtain ⟨s'', hs'', -⟩ | ⟨s'', hs'', hdest, -⟩ := @lzmaRound_spec packed base destLen s
    · rw [hs''] at hround
      cases hround
    · obtain rfl : s'' = r := Sum.inr.inj (hs''.symm.trans hround)
      rwa [hdest]

theorem lzma_clean_iff {c : Coder} {t : Dest} {s : Lz} (ht : t.Clean destLen) :
    (∃ f, run (lzmaRound packed base destLen) f ⟨c, t, 0, 0⟩ = some s) ∧ s.dest.Clean destLen ↔
      runChecked (Lz.Fits packed base destLen) (lzmaRound packed base destLen) (destLen.toNat + 1) ⟨c, t, 0, 0⟩ =
        some s :=
  (lzma_guards packed base destLen).clean_iff (s := ⟨c, t, 0, 0⟩) (Nat.zero_le _) ht

/-! ## Bytes of the filter -/

/-- The checks that the filters lack. -/
def Filter.Fits (dl : BitVec 8) (destLen : BitVec 32) (s : Filter) : Prop :=
  s.esi < destLen ∧ (s.opcode → s.esi.toNat + 1 < destLen.toNat ∧
      (s.dest.mem (s.esi + 1) = dl → s.esi.toNat + 5 ≤ destLen.toNat))

instance (dl : BitVec 8) (destLen : BitVec 32) : DecidablePred (Filter.Fits dl destLen) :=
  fun _ => inferInstanceAs (Decidable (_ ∧ _))

theorem clean_patchRel32 {esi : BitVec 32} :
    (patchRel32 esi t).Clean destLen ↔ t.Clean destLen ∧ esi < destLen ∧ esi + 1 < destLen ∧ esi + 2 < destLen ∧
      esi + 3 < destLen := by
  unfold patchRel32
  simp only [Dest.clean_store, Dest.clean_load]
  tauto

theorem filterRound_spec (jcc : Bool) (dl : BitVec 8) (destLen : BitVec 32) (s : Filter) :
    (∃ s', filterRound jcc dl s = .inl s' ∧ (s'.dest.Clean destLen ↔ s.dest.Clean destLen ∧ s.Fits dl destLen) ∧
      (s.Fits dl destLen → s.esi < s'.esi ∧ s'.esi ≤ destLen)) ∨
    ∃ t, filterRound jcc dl s = .inr t ∧ (t.Clean destLen ↔ s.dest.Clean destLen ∧ s.Fits dl destLen) := by
  unfold filterRound Filter.Fits
  dsimp only [Dest.load]
  by_cases hop : s.opcode
  · rw [if_pos hop]
    by_cases hdl : s.dest.mem (s.esi + 1) = dl
    · rw [if_neg (not_not.mpr hdl)]
      have hclean : ∀ t : Dest, t = ⟨s.dest.mem, (s.esi + 1) :: s.esi :: s.dest.touched⟩ →
          ((patchRel32 (s.esi + 1) t).Clean destLen ↔ s.dest.Clean destLen ∧ s.esi < destLen ∧
            (s.opcode → s.esi.toNat + 1 < destLen.toNat ∧
              (s.dest.mem (s.esi + 1) = dl → s.esi.toNat + 5 ≤ destLen.toNat))) := by
        rintro t rfl
        rw [clean_patchRel32]
        change (∀ i ∈ _ :: _ :: _, i < destLen) ∧ _ ↔ _
        rw [List.forall_mem_cons, List.forall_mem_cons]
        constructor
        · rintro ⟨⟨h1, h0, hs⟩, -, h2, h3, h4⟩
          exact ⟨hs, h0, fun _ => ⟨by bv_omega, fun _ => by bv_omega⟩⟩
        · rintro ⟨hs, h0, h⟩
          obtain ⟨h1, h5⟩ := h hop
          have h5 := h5 hdl
          exact ⟨⟨by bv_omega, h0, hs⟩, by bv_omega, by bv_omega, by bv_omega, by bv_omega⟩
      split
      · exact .inr ⟨_, rfl, hclean _ rfl⟩
      · refine .inl ⟨_, rfl, hclean _ rfl, ?_⟩
        rintro ⟨h0, h⟩
        have h5 := (h hop).2 hdl
        exact ⟨by bv_omega, by bv_omega⟩
    · rw [if_pos hdl]
      refine .inl ⟨_, rfl, ?_, ?_⟩
      · change (∀ i ∈ _ :: _ :: _, i < destLen) ↔ _
        rw [List.forall_mem_cons, List.forall_mem_cons]
        constructor
        · rintro ⟨h1, h0, hs⟩
          exact ⟨hs, h0, fun _ => ⟨by bv_omega, fun h => absurd h hdl⟩⟩
        · rintro ⟨hs, h0, h⟩
          have h1 := (h hop).1
          exact ⟨by bv_omega, h0, hs⟩
      · rintro ⟨h0, -⟩
        exact ⟨by bv_omega, by bv_omega⟩
  · rw [if_neg hop]
    refine .inl ⟨_, rfl, ?_, ?_⟩
    · change (∀ i ∈ _ :: _, i < destLen) ↔ _
      rw [List.forall_mem_cons]
      constructor
      · rintro ⟨h0, hs⟩
        exact ⟨hs, h0, fun h => absurd h hop⟩
      · rintro ⟨hs, h0, -⟩
        exact ⟨h0, hs⟩
    · rintro ⟨h0, -⟩
      exact ⟨by bv_omega, by bv_omega⟩

theorem filter_guards (jcc : Bool) (dl : BitVec 8) (destLen : BitVec 32) :
    Guards (Filter.Fits dl destLen) (filterRound jcc dl) (fun _ => True) (fun s => s.dest.Clean destLen)
      (fun t => t.Clean destLen) fun s => destLen.toNat - s.esi.toNat := by
  have hcont : ∀ s s', filterRound jcc dl s = .inl s' →
      (s'.dest.Clean destLen ↔ s.dest.Clean destLen ∧ s.Fits dl destLen) ∧
        (s.Fits dl destLen → s.esi < s'.esi ∧ s'.esi ≤ destLen) := by
    intro s s' hround
    obtain ⟨s'', hs'', hiff, hprogress⟩ | ⟨t, ht, -⟩ := filterRound_spec jcc dl destLen s
    · obtain rfl : s'' = s' := Sum.inl.inj (hs''.symm.trans hround)
      exact ⟨hiff, hprogress⟩
    · rw [ht] at hround
      cases hround
  have hend : ∀ s t, filterRound jcc dl s = .inr t →
      (t.Clean destLen ↔ s.dest.Clean destLen ∧ s.Fits dl destLen) := by
    intro s t hround
    obtain ⟨s'', hs'', -⟩ | ⟨t', ht', hiff⟩ := filterRound_spec jcc dl destLen s
    · rw [hs''] at hround
      cases hround
    · obtain rfl : t' = t := Sum.inr.inj (ht'.symm.trans hround)
      exact hiff
  refine ⟨?_, ?_, ?_, ?_, ?_, ?_⟩
  · intro s s' _ hclean hfits hround
    obtain ⟨hiff, hprogress⟩ := hcont s s' hround
    obtain ⟨hup, hle⟩ := hprogress hfits
    exact ⟨trivial, hiff.mpr ⟨hclean, hfits⟩, by bv_omega⟩
  · exact fun s t _ hclean hfits hround => (hend s t hround).mpr ⟨hclean, hfits⟩
  · exact fun s s' _ hfails hround hclean => hfails ((hcont s s' hround).1.mp hclean).2
  · exact fun s t _ hfails hround hclean => hfails ((hend s t hround).mp hclean).2
  · exact fun s s' hdirty hround hclean => hdirty ((hcont s s' hround).1.mp hclean).1
  · exact fun s t hdirty hround hclean => hdirty ((hend s t hround).mp hclean).1

/-! ## The whole unpacker -/

def checkedE8 (jcc : Bool) (packed : Nat → BitVec 8) (destLen : BitVec 32) (src : Nat) (t : Dest) : Option Dest :=
  let count := readU32Le packed src
  let dl := packed (src + 4)
  if count = 0 then some t
  else runChecked (Filter.Fits dl destLen) (filterRound jcc dl) (destLen.toNat + 1) ⟨t, 0, count, false⟩

def checkedFilter (fl : BitVec 8) (packed : Nat → BitVec 8) (destLen : BitVec 32) (src : Nat) (t : Dest) :
    Option Dest :=
  if fl &&& 0x80 ≠ 0 then checkedE8 true packed destLen src t
  else if fl &&& 0x40 ≠ 0 then checkedE8 false packed destLen src t
  else some t

/-- The unpacker that gives up before it would leave the destination. -/
def checkedUnpack (packed : Nat → BitVec 8) (base : BitVec 32) (t : Dest) : Option Dest :=
  let fl := packed 8
  let destLen := destLenOf packed
  if Accepted fl then
    match runChecked (Lz.Fits packed base destLen) (lzmaRound packed base destLen) (destLen.toNat + 1)
        ⟨startCoder packed 12, t, 0, 0⟩ with
    | none => none
    | some s => checkedFilter fl packed destLen s.coder.dec.rd.src s.dest
  else some t

section Filters

variable {jcc : Bool} {fl : BitVec 8} {src fuel fuel' : Nat} {t t' : Dest}

theorem applyE8_mono (h : applyE8 jcc packed src fuel t = some t') (hle : fuel ≤ fuel') :
    applyE8 jcc packed src fuel' t = some t' := by
  unfold applyE8 at h ⊢
  dsimp only at h ⊢
  split at h
  · next h0 => rw [if_pos h0, h]
  · next h0 => rw [if_neg h0, run_mono h hle]

theorem clean_of_applyE8 (h : applyE8 jcc packed src fuel t = some t') (hclean : t'.Clean destLen) :
    t.Clean destLen := by
  unfold applyE8 at h
  dsimp only at h
  split at h
  · rwa [Option.some.inj h]
  · by_contra hdirty
    exact (filter_guards jcc _ destLen).not_clean_end hdirty h hclean

theorem applyE8_clean_iff (ht : t.Clean destLen) :
    (∃ fuel, applyE8 jcc packed src fuel t = some t') ∧ t'.Clean destLen ↔
      checkedE8 jcc packed destLen src t = some t' := by
  unfold applyE8 checkedE8
  by_cases h0 : readU32Le packed src = 0
  · simp only [if_pos h0, exists_const, Option.some.injEq]
    constructor
    · exact fun h => h.1
    · rintro rfl
      exact ⟨rfl, ht⟩
  · simp only [if_neg h0]
    exact (filter_guards jcc _ destLen).clean_iff trivial ht

theorem applyFilter_mono (h : applyFilter fl packed src fuel t = some t') (hle : fuel ≤ fuel') :
    applyFilter fl packed src fuel' t = some t' := by
  unfold applyFilter at h ⊢
  split_ifs at h ⊢
  · exact applyE8_mono h hle
  · exact applyE8_mono h hle
  · exact h

theorem clean_of_applyFilter (h : applyFilter fl packed src fuel t = some t') (hclean : t'.Clean destLen) :
    t.Clean destLen := by
  unfold applyFilter at h
  split_ifs at h
  · exact clean_of_applyE8 h hclean
  · exact clean_of_applyE8 h hclean
  · rwa [Option.some.inj h]

theorem applyFilter_clean_iff (ht : t.Clean destLen) :
    (∃ fuel, applyFilter fl packed src fuel t = some t') ∧ t'.Clean destLen ↔
      checkedFilter fl packed destLen src t = some t' := by
  unfold applyFilter checkedFilter
  split_ifs
  · exact applyE8_clean_iff ht
  · exact applyE8_clean_iff ht
  · rw [exists_const, Option.some.injEq]
    constructor
    · exact fun h => h.1
    · rintro rfl
      exact ⟨rfl, ht⟩

end Filters

theorem unpack_clean_iff {mem : BitVec 32 → BitVec 8} {t' : Dest} :
    (∃ fuel, unpack packed base fuel ⟨mem, []⟩ = some t') ∧ t'.Clean (destLenOf packed) ↔
      checkedUnpack packed base ⟨mem, []⟩ = some t' := by
  have hempty : Dest.Clean (destLenOf packed) ⟨mem, []⟩ := fun i hi => absurd hi List.not_mem_nil
  unfold unpack checkedUnpack
  by_cases ha : Accepted (packed 8)
  · simp only [if_pos ha]
    have hlzma := fun s => @lzma_clean_iff packed base (destLenOf packed) (startCoder packed 12) ⟨mem, []⟩ s hempty
    constructor
    · rintro ⟨⟨fuel, h⟩, hclean⟩
      cases hrun : run (lzmaRound packed base (destLenOf packed)) fuel ⟨startCoder packed 12, ⟨mem, []⟩, 0, 0⟩ with
      | none =>
        rw [hrun] at h
        cases h
      | some s =>
        rw [hrun] at h
        have hs : s.dest.Clean (destLenOf packed) := clean_of_applyFilter h hclean
        rw [(hlzma s).mp ⟨⟨fuel, hrun⟩, hs⟩]
        exact (applyFilter_clean_iff hs).mp ⟨⟨fuel, h⟩, hclean⟩
    intro h
    split at h
    · cases h
    next s hchecked =>
    obtain ⟨⟨fuel, hrun⟩, hs⟩ := (hlzma s).mpr hchecked
    obtain ⟨⟨fuel', hfilter⟩, hclean⟩ := (applyFilter_clean_iff hs).mpr h
    -- The fuel must do for both loops.
    refine ⟨⟨max fuel fuel', ?_⟩, hclean⟩
    rw [run_mono hrun (Nat.le_max_left fuel fuel')]
    exact applyFilter_mono hfilter (Nat.le_max_right fuel fuel')
  · simp only [if_neg ha, exists_const, Option.some.injEq]
    constructor
    · exact fun h => h.1
    · rintro rfl
      exact ⟨rfl, hempty⟩

/-- Exactly the streams that pass the checks are unpacked inside the destination. -/
theorem unpack_stays_inside_iff (packed : Nat → BitVec 8) (base : BitVec 32) (mem : BitVec 32 → BitVec 8) :
    (∃ fuel t', unpack packed base fuel ⟨mem, []⟩ = some t' ∧ ∀ i ∈ t'.touched, i < destLenOf packed) ↔
      (checkedUnpack packed base ⟨mem, []⟩).isSome := by
  rw [Option.isSome_iff_exists]
  constructor
  · rintro ⟨fuel, t', h, hclean⟩
    exact ⟨t', unpack_clean_iff.mp ⟨⟨fuel, h⟩, hclean⟩⟩
  · rintro ⟨t', h⟩
    obtain ⟨⟨fuel, h⟩, hclean⟩ := unpack_clean_iff.mpr h
    exact ⟨fuel, t', h, hclean⟩

/-- A header with one byte to unpack and four bytes of code. -/
def oneByteStream (code : BitVec 32) (i : Nat) : BitVec 8 :=
  match i with
  | 4 => 1
  | 8 => 1
  | 12 => code.extractLsb' 0 8
  | 13 => code.extractLsb' 8 8
  | 14 => code.extractLsb' 16 8
  | 15 => code.extractLsb' 24 8
  | _ => 0

/-- The first packet repeats the byte before the destination. -/
theorem unpack_reads_before_start :
    ¬ ∀ (packed : Nat → BitVec 8) (base : BitVec 32) (mem : BitVec 32 → BitVec 8), Accepted (packed 8) →
      ∃ fuel t', unpack packed base fuel ⟨mem, []⟩ = some t' ∧ ∀ i ∈ t'.touched, i < destLenOf packed := by
  intro h
  obtain ⟨fuel, t', h, hclean⟩ := h (oneByteStream 0xBFFFFC00) 0 (fun _ => 0) (by decide)
  have hchecked := unpack_clean_iff.mp ⟨⟨fuel, h⟩, hclean⟩
  cases hchecked

example : (checkedUnpack (oneByteStream 0) 0 ⟨fun _ => 0, []⟩).isSome := by decide +kernel

end Kolibri.Unpack
