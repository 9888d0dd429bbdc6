import Kolibri.Fs.FatShortNames

/-! # Legal short names

Letters and spaces, unless a byte behind a tilde is counted up to one that no name has.
-/

namespace Kolibri.Fat

open List

/-! ## The places that are read and written -/

def findPlaces (name : List (BitVec 8)) : Nat → List Int
  | 0 => []
  | i + 1 => i :: if name.getD i 0 = tilde then [] else findPlaces name i

/-- The last place is the one in front of the buffer, see `contentEnd`. -/
def scanPlaces (name : List (BitVec 8)) : Nat → List Int
  | 0 => [-1]
  | p + 1 => p :: if name.getD p 0 ≠ space then [] else scanPlaces name p

def zerofillPlaces (start : Nat) : List Int := ((List.range 8).filter (start ≤ ·)).map Int.ofNat

def expandPlaces (name : List (BitVec 8)) : Nat → Nat → List Int
  | 0, _ => []
  | fuel + 1, pos => pos :: if name.getD pos 0 = space then [] else expandPlaces name fuel (pos + 1)

def walkPlaces (name : List (BitVec 8)) : Nat → Nat → List Int
  | 0, _ => [-1]
  | edi + 1, spaceCount =>
    let b := name.getD edi 0
    edi ::
      if b = tilde then
        if spaceCount = 0 then
          if edi = 1 ∨ edi = 0 then [] else (edi - 1) :: edi :: zerofillPlaces (edi + 1)
        else expandPlaces name 8 (edi + 1)
      else if b = space then walkPlaces name edi (spaceCount + 1)
      else if b ≠ nine then zerofillPlaces (edi + 1)
      else walkPlaces name edi spaceCount

def nextPlaces (name : List (BitVec 8)) : List Int :=
  findPlaces name 8 ++ match findTilde name 8 with
    | none =>
      if name.getD 6 0 = space ∧ name.getD 7 0 = space then
        let pos : Int := contentEnd name 6
        6 :: 7 :: scanPlaces name 6 ++ [pos, pos + 1]
      else [6, 7]
    | some _ => walkPlaces name 8 0

def rewindPlaces : Nat → Nat → List Int
  | 0, _ => []
  | n + 1, ebx => (8 + n) :: (ebx - 1) :: rewindPlaces n (ebx - 1)

def charPlaces (s : GenState) (al : BitVec 8) : List Int :=
  if 0x80 ≤ al then []
  else if ¬ fatShortCharOk al then []
  else if al = dot then
    if ¬ s.dotSeen then []
    else
      let ebx := s.saved + s.edi - 8
      rewindPlaces (s.edi - 8) (if 8 ≤ ebx then 8 else ebx)
  else if s.bl ≠ 0 then [(s.edi : Int)] else []

def loopPlaces (s : GenState) : List (BitVec 8) → List Int
  | [] => []
  | al :: src => if al = 0 then [] else charPlaces s al ++ loopPlaces (genChar s al) src

def genPlaces (src : List (BitVec 8)) : List Int :=
  let start : GenState := ⟨List.replicate 12 space, 0, 8, false, false, 0⟩
  let s := genLoop start src
  (List.range 12).map Int.ofNat ++ loopPlaces start src ++ if s.lossy then nextPlaces s.out else []

def Inside (places : List Int) : Prop := ∀ i ∈ places, 0 ≤ i ∧ i < 12
  deriving Decidable

variable {name src : List (BitVec 8)} {edi spaceCount : Nat} {s : GenState} {p : Plain}

theorem inside_cons {i : Int} {l : List Int} : Inside (i :: l) ↔ (0 ≤ i ∧ i < 12) ∧ Inside l := forall_mem_cons

theorem inside_append {l r : List Int} : Inside (l ++ r) ↔ Inside l ∧ Inside r := forall_mem_append

theorem findPlaces_inside {i : Nat} (hi : i ≤ 8) : Inside (findPlaces name i) := by
  induction i with
  | zero => exact forall_mem_nil _
  | succ i ih =>
    unfold findPlaces
    split_ifs
    · exact inside_cons.mpr ⟨by omega, forall_mem_nil _⟩
    · exact inside_cons.mpr ⟨by omega, ih (by omega)⟩

theorem scanPlaces_inside_iff {q : Nat} (hq : q ≤ 8) :
    Inside (scanPlaces name q) ↔ ∃ i < q, name.getD i 0 ≠ space := by
  induction q with
  | zero => exact iff_of_false (by simp [scanPlaces, Inside]) (by simp)
  | succ q ih =>
    unfold scanPlaces
    rw [inside_cons]
    split_ifs with hspace
    · exact iff_of_true ⟨by omega, forall_mem_nil _⟩ ⟨q, by omega, hspace⟩
    · rw [ih (by omega), and_iff_right (by omega)]
      refine exists_congr fun i => ⟨fun ⟨hi, hne⟩ => ⟨by omega, hne⟩, fun ⟨hi, hne⟩ => ⟨?_, hne⟩⟩
      have hiq : i ≠ q := fun h => hspace (h ▸ hne)
      omega

theorem zerofillPlaces_inside (start : Nat) : Inside (zerofillPlaces start) := by
  intro i hi
  simp only [zerofillPlaces, mem_map, mem_filter, mem_range] at hi
  obtain ⟨k, ⟨hk, -⟩, rfl⟩ := hi
  exact ⟨Int.natCast_nonneg k, Int.ofNat_lt.mpr (hk.trans (by decide))⟩

theorem expandPlaces_inside {q : Nat} (hq : q < 8) (hspace : name.getD q 0 = space) (fuel : Nat) {pos : Nat}
    (hpos : pos ≤ q) : Inside (expandPlaces name fuel pos) := by
  induction fuel generalizing pos with
  | zero => exact forall_mem_nil _
  | succ fuel ih =>
    unfold expandPlaces
    split_ifs with hstop
    · exact inside_cons.mpr ⟨by omega, forall_mem_nil _⟩
    · have hne : pos ≠ q := fun h => hstop (h ▸ hspace)
      exact inside_cons.mpr ⟨by omega, ih (by omega)⟩

/-- There is a tilde on the left, and a space on the right if one was counted. -/
theorem walkPlaces_inside (hedi : edi ≤ 8) (htilde : ∃ i < edi, name.getD i 0 = tilde)
    (hspaces : spaceCount = 0 ∨ ∃ q < 8, edi ≤ q ∧ name.getD q 0 = space) :
    Inside (walkPlaces name edi spaceCount) := by
  induction edi generalizing spaceCount with
  | zero =>
    obtain ⟨i, hi, -⟩ := htilde
    omega
  | succ edi ih =>
    have hleft (hne : name.getD edi 0 ≠ tilde) : ∃ i < edi, name.getD i 0 = tilde := by
      obtain ⟨i, hi, heq⟩ := htilde
      have hiedi : i ≠ edi := fun h => hne (h ▸ heq)
      exact ⟨i, by omega, heq⟩
    unfold walkPlaces
    rw [inside_cons]
    refine ⟨by omega, ?_⟩
    split_ifs with hb hzero hfirst hspace hnine
    · exact forall_mem_nil _
    · exact inside_cons.mpr ⟨by omega, inside_cons.mpr ⟨by omega, zerofillPlaces_inside _⟩⟩
    · obtain ⟨q, hq, hle, heq⟩ := hspaces.resolve_left hzero
      exact expandPlaces_inside hq heq _ hle
    · exact ih (by omega) (hleft hb) (.inr ⟨edi, by omega, le_rfl, hspace⟩)
    · exact zerofillPlaces_inside _
    · exact ih (by omega) (hleft hb) (hspaces.imp_right fun ⟨q, hq, hle, heq⟩ => ⟨q, hq, by omega, heq⟩)

theorem findTilde_some {i q : Nat} (h : findTilde name q = some i) : i < q ∧ name.getD i 0 = tilde := by
  induction q with
  | zero => cases h
  | succ q ih =>
    unfold findTilde at h
    split_ifs at h with hq
    · obtain rfl := Option.some.inj h
      exact ⟨by omega, hq⟩
    · exact (ih h).imp_left (by omega)

theorem contentEnd_le (name : List (BitVec 8)) (q : Nat) : contentEnd name q ≤ q := by
  induction q with
  | zero => exact Nat.le_refl _
  | succ q ih =>
    unfold contentEnd
    split_ifs <;> omega

theorem nextPlaces_inside_iff (name : List (BitVec 8)) :
    Inside (nextPlaces name) ↔ ∃ i < 8, name.getD i 0 ≠ space := by
  unfold nextPlaces
  rw [inside_append, and_iff_right (findPlaces_inside le_rfl)]
  cases hfind : findTilde name 8 with
  | none =>
    dsimp only
    split_ifs with hboth
    · have hend := contentEnd_le name 6
      simp only [inside_append, inside_cons, cons_append, scanPlaces_inside_iff (show 6 ≤ 8 by omega)]
      constructor
      · rintro ⟨-, -, ⟨i, hi, hne⟩, -⟩
        exact ⟨i, by omega, hne⟩
      · rintro ⟨i, hi, hne⟩
        have hsix : i ≠ 6 := fun h => hne (h ▸ hboth.1)
        have hseven : i ≠ 7 := fun h => hne (h ▸ hboth.2)
        exact ⟨by omega, by omega, ⟨i, by omega, hne⟩, by omega, by omega, forall_mem_nil _⟩
    · rcases not_and_or.mp hboth with h | h
      · exact iff_of_true (by decide) ⟨6, by omega, h⟩
      · exact iff_of_true (by decide) ⟨7, by omega, h⟩
  | some i =>
    obtain ⟨hi, htilde⟩ := findTilde_some hfind
    refine iff_of_true (walkPlaces_inside le_rfl ⟨i, hi, htilde⟩ (.inl rfl)) ⟨i, hi, ?_⟩
    rw [htilde]
    decide

theorem rewindPlaces_inside {q ebx : Nat} (hq : q ≤ 3) (hle : q ≤ ebx) (hebx : ebx ≤ 8) :
    Inside (rewindPlaces q ebx) := by
  induction q generalizing ebx with
  | zero => exact forall_mem_nil _
  | succ q ih =>
    exact inside_cons.mpr ⟨by omega, inside_cons.mpr ⟨by omega, ih (by omega) (by omega) (by omega)⟩⟩

theorem charPlaces_inside (h : Sim s p) (al : BitVec 8) : Inside (charPlaces s al) := by
  unfold charPlaces
  cases hext : p.ext with
  | none =>
    obtain ⟨hedi, hbl⟩ := h.before_dot hext
    have hseen : s.dotSeen = false := by rw [h.dotSeen, hext]; rfl
    rw [hseen]
    split_ifs
    all_goals first | exact forall_mem_nil _ | exact inside_cons.mpr ⟨by omega, forall_mem_nil _⟩ | contradiction
  | some e =>
    obtain ⟨hedi, hbl, hsaved, hle, -⟩ := h.behind_dot e hext
    dsimp only
    split_ifs
    all_goals first
      | exact forall_mem_nil _
      | exact inside_cons.mpr ⟨by omega, forall_mem_nil _⟩
      | exact rewindPlaces_inside (by omega) (by omega) (by omega)

theorem loopPlaces_inside (h : Sim s p) (src : List (BitVec 8)) : Inside (loopPlaces s src) := by
  induction src generalizing s p with
  | nil => exact forall_mem_nil _
  | cons al src ih =>
    unfold loopPlaces
    split_ifs
    · exact forall_mem_nil _
    · exact inside_append.mpr ⟨charPlaces_inside h al, ih (genChar_sim h al)⟩

/-! ## The next name -/

variable {l ext : List (BitVec 8)}

theorem pad_injective {l' : List (BitVec 8)} (hl : ∀ c ∈ l, Letter c) (hlen : l.length ≤ 8) (hl' : ∀ c ∈ l', Letter c)
    (hlen' : l'.length ≤ 8) (h : pad 8 l = pad 8 l') : l = l' := by
  have hletters := letters_pad hl hlen []
  rwa [h, letters_pad hl' hlen', eq_comm] at hletters

/-- The next name is legal if the byte that is counted up stays legal. -/
theorem fatNextShortName_legal_iff (l : List (BitVec 8)) (hl : ∀ c ∈ l, Legal c) (hlen : l.length ≤ 8)
    (ext : List (BitVec 8)) :
    ((fatNextShortName (pad 8 l ++ ext)).1 = true → ∃ l', (fatNextShortName (pad 8 l ++ ext)).2 = pad 8 l' ++ ext ∧
        l'.length ≤ 8 ∧ ∀ c ∈ l', Legal c) ↔ CountsTo Legal l := by
  have hletters := fun c hc => (hl c hc).letter
  obtain ⟨ok, l', hnext, h⟩ := next_spec hletters hlen ext
  rw [hnext, ← h.forall_iff (by decide) (by decide) (by decide) hl]
  constructor
  · intro hlegal
    cases ok with
    | false =>
      cases h
      exact hl
    | true =>
      obtain ⟨l'', heq, hlen'', hl''⟩ := hlegal rfl
      rwa [pad_injective (h.letters hletters) (h.length_le hlen) (fun c hc => (hl'' c hc).letter) hlen''
        (append_cancel_right heq)]
  · exact fun hl' _ => ⟨l', rfl, h.length_le hlen, hl'⟩

theorem fatNextShortName_legal_one : CountsTo Legal [0x41, tilde, one] ∧
    ∃ l', (fatNextShortName (pad 8 [0x41, tilde, one] ++ [space, space, space])).2 = pad 8 l' ++ [space, space, space] ∧
      l'.length ≤ 8 ∧ ∀ c ∈ l', Legal c := by
  have hcounts : CountsTo Legal [0x41, tilde, one] := fun _ => by decide +kernel
  exact ⟨hcounts, (fatNextShortName_legal_iff [0x41, tilde, one] (by decide +kernel) (by decide) _).mpr hcounts
    (by decide +kernel)⟩

/-- `A~Z` becomes `A~[00000`, and no name has a bracket. -/
theorem fatNextShortName_bracket : ¬ ∀ l ext : List (BitVec 8), (∀ c ∈ l, Legal c) → l.length ≤ 8 → ext.length = 3 →
    (fatNextShortName (pad 8 l ++ ext)).1 = true → ∃ l', (fatNextShortName (pad 8 l ++ ext)).2 = pad 8 l' ++ ext ∧
      l'.length ≤ 8 ∧ ∀ c ∈ l', Legal c := by
  intro hall
  obtain ⟨l', heq, -, hl'⟩ := hall [0x41, tilde, 0x5A] [space, space, space] (by decide +kernel) (by decide) rfl
    (by decide)
  have hmem : (0x5B : BitVec 8) ∈ pad 8 l' ++ [space, space, space] := by
    rw [← heq]
    decide
  have hl : (0x5B : BitVec 8) ∈ l' := by simpa [pad, space] using hmem
  exact absurd (hl' _ hl) (by decide)

/-! ## The first name -/

/-- Characters of a short name, and spaces behind them. -/
def Field (n : Nat) (field : List (BitVec 8)) : Prop :=
  ∃ l, field = pad n l ∧ l.length ≤ n ∧ ∀ c ∈ l, Short c

structure WellFormed (src : List (BitVec 8)) : Prop where
  inside : Inside (genPlaces src)
  last : (fatGenShortName src).getD 11 0 = space
  base : Field 8 ((fatGenShortName src).take 8)
  ext : Field 3 (((fatGenShortName src).drop 8).take 3)
  first : src.takeWhile (· ≠ 0) ≠ [] → (fatGenShortName src).getD 0 0 ≠ space

/-- A character was left out or the base has one. -/
def Plain.Seen (p : Plain) : Prop := p.lossy = true ∨ p.base ≠ []

theorem char_seen (h : p.ext = none ∨ p.Seen) (al : BitVec 8) : (p.char al).Seen := by
  unfold Plain.char Plain.Seen at *
  cases hext : p.ext with
  | none => split_ifs <;> simp_all
  | some e =>
    have hseen := h.resolve_left (by simp [hext])
    dsimp only
    split_ifs <;> simp [hseen]

theorem plain_seen (hsrc : src.takeWhile (· ≠ 0) ≠ []) : (plain src).Seen := by
  have hrest : ∀ (l : List (BitVec 8)) (p : Plain), p.Seen → (l.foldl Plain.char p).Seen := by
    intro l
    induction l with
    | nil => exact fun p h => h
    | cons al l ih => exact fun p h => ih _ (char_seen (.inr h) al)
  obtain ⟨al, l, hl⟩ := exists_cons_of_ne_nil hsrc
  rw [plain, hl]
  exact hrest l _ (char_seen (.inl rfl) al)

theorem Next.ne_nil {l' : List (BitVec 8)} {ok : Bool} (h : Next l ok l') : l' ≠ [] := by
  cases h <;> simp

/-- What is left in the buffer is well formed if its base is. -/
theorem wellFormed_of_out (l' : List (BitVec 8)) (hout : fatGenShortName src =
      pad 8 l' ++ (pad 3 ((plain src).ext.getD []) ++ [space])) (hl : ∀ c ∈ l', Short c) (hlen : l'.length ≤ 8)
    (hfirst : src.takeWhile (· ≠ 0) ≠ [] → l' ≠ []) (hinside : Inside (genPlaces src)) : WellFormed src := by
  have hsim := genLoop_sim sim_start src
  have hext : ((plain src).ext.getD []).length ≤ 3 ∧ ∀ c ∈ (plain src).ext.getD [], Short c := by
    cases hext : (plain src).ext with
    | none => exact ⟨by decide, forall_mem_nil _⟩
    | some e =>
      obtain ⟨-, -, -, hle, hshort⟩ := hsim.behind_dot e hext
      exact ⟨hle, hshort⟩
  refine ⟨hinside, ?_, ⟨l', ?_, hlen, hl⟩, ⟨_, ?_, hext⟩, fun hsrc => ?_⟩ <;> rw [hout]
  · rw [getD_append_right _ _ _ _ (by rw [pad_length hlen]; omega), pad_length hlen,
      getD_append_right _ _ _ _ (by rw [pad_length hext.1]), pad_length hext.1]
    rfl
  · exact take_left' (pad_length hlen)
  · rw [drop_left' (pad_length hlen), take_left' (pad_length hext.1)]
  · obtain ⟨x, xs, rfl⟩ := exists_cons_of_ne_nil (hfirst hsrc)
    rintro rfl
    exact absurd (hl space (by simp)) (by decide +kernel)

theorem exists_ne_space_iff (hl : ∀ c ∈ l, Short c) : (∃ i < 8, (pad 8 l ++ ext).getD i 0 ≠ space) ↔ l ≠ [] := by
  cases l with
  | nil =>
    refine iff_of_false ?_ (by simp)
    rintro ⟨i, hi, hne⟩
    rw [getD_append _ _ _ _ hi] at hne
    exact hne (getD_replicate _ hi)
  | cons x l =>
    refine iff_of_true ⟨0, by omega, ?_⟩ (by simp)
    rintro rfl
    exact absurd (hl space (by simp)) (by decide +kernel)

/-- No character was left out, or there is a letter and the byte that is counted up stays one. -/
theorem fatGenShortName_wellFormed_iff (src : List (BitVec 8)) : WellFormed src ↔
    (plain src).lossy = false ∨ baseName src ≠ [] ∧ CountsTo Short (baseName src) := by
  have hsim := genLoop_sim sim_start src
  have hletters : ∀ c ∈ baseName src, Letter c := fun c hc => (hsim.base c hc).1.letter
  have hfill : Inside ((List.range 12).map Int.ofNat) := by decide
  have hloop := loopPlaces_inside sim_start src
  cases hlossy : (plain src).lossy with
  | false =>
    refine iff_of_true ?_ (.inl rfl)
    have hkept := hsim.lossy.trans hlossy
    refine wellFormed_of_out (baseName src) ?_ hsim.base hsim.base_le (fun hsrc => ?_) ?_
    · rw [fatGenShortName, hkept, if_neg Bool.false_ne_true, hsim.out]
      rfl
    · exact (plain_seen hsrc).resolve_left (by simp [hlossy])
    · rw [genPlaces, hkept, if_neg Bool.false_ne_true, append_nil]
      exact inside_append.mpr ⟨hfill, hloop⟩
  | true =>
    have hkept := hsim.lossy.trans hlossy
    obtain ⟨ok, l', hnext, h⟩ := next_spec hletters hsim.base_le (pad 3 ((plain src).ext.getD []) ++ [space])
    have hout : fatGenShortName src = pad 8 l' ++ (pad 3 ((plain src).ext.getD []) ++ [space]) := by
      rw [fatGenShortName, hkept, if_pos rfl, hsim.out]
      exact congrArg Prod.snd hnext
    have hplaces : Inside (genPlaces src) ↔ baseName src ≠ [] := by
      rw [genPlaces, hkept, if_pos rfl, hsim.out, inside_append, inside_append,
        and_iff_right (And.intro hfill hloop), nextPlaces_inside_iff]
      exact exists_ne_space_iff hsim.base
    rw [← h.forall_iff (by decide +kernel) (by decide +kernel) (by decide +kernel) hsim.base, ← hplaces]
    constructor
    · rintro ⟨hinside, -, ⟨l'', hbase, hlen, hshort⟩, -, -⟩
      rw [hout, take_left' (pad_length (h.length_le hsim.base_le))] at hbase
      rw [pad_injective (h.letters hletters) (h.length_le hsim.base_le) (fun c hc => (hshort c hc).1.letter) hlen hbase]
      exact .inr ⟨hinside, hshort⟩
    · rintro (hfalse | ⟨hinside, hshort⟩)
      · cases hfalse
      · exact wellFormed_of_out l' hout hshort (h.length_le hsim.base_le) (fun _ => h.ne_nil) hinside

/-- With `+` nothing is left of the source. -/
theorem fatGenShortName_leaves_buffer : ¬ ∀ src : List (BitVec 8), WellFormed src := fun hall =>
  absurd (hall [0x2B]).inside (by decide +kernel)

end Kolibri.Fat
