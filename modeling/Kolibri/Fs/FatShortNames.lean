import Kolibri.Fs.FatNameRuns

/-! # Short names for long ones

The buffer of `fat_gen_short_name` is compared with a plain description of the base.
-/

namespace Kolibri.Fat

open List

/-! ## The base of a short name -/

/-- The 8.3 form so far, and if a character was left out. -/
structure Plain where
  base : List (BitVec 8)
  /-- `none` before the first dot. -/
  ext : Option (List (BitVec 8))
  lossy : Bool

/-- A later dot makes the extension a part of the base. -/
def Plain.char (p : Plain) (al : BitVec 8) : Plain :=
  if 0x80 ≤ al ∨ fatShortCharOk al = false then { p with lossy := true }
  else if al = dot then
    match p.ext with
    | none => if p.base = [] then { p with lossy := true } else { p with ext := some [] }
    | some e => ⟨p.base.take (8 - e.length) ++ e, some [], true⟩
  else
    match p.ext with
    | none =>
      if p.base.length < 8 then { p with base := p.base ++ [cp866ToUpper al] } else { p with lossy := true }
    | some e => if e.length < 3 then { p with ext := some (e ++ [cp866ToUpper al]) } else { p with lossy := true }

def plain (src : List (BitVec 8)) : Plain := (src.takeWhile (· ≠ 0)).foldl Plain.char ⟨[], none, false⟩

def baseName (src : List (BitVec 8)) : List (BitVec 8) := (plain src).base

/-! ## The buffer holds it -/

variable {e : List (BitVec 8)} {c : BitVec 8} {p : Plain} {s : GenState}

theorem rewind_eq (b rest e t : List (BitVec 8)) (hlen : b.length + rest.length = 8) (he : e.length ≤ rest.length) :
    rewind e.length (b ++ rest ++ (e ++ t)) (b.length + e.length) =
      b ++ (e ++ rest.drop e.length) ++ (List.replicate e.length space ++ t) := by
  induction e using List.reverseRecOn generalizing rest t with
  | nil => simp [rewind]
  | append_singleton e c ih =>
    rw [length_append, length_singleton] at he ⊢
    obtain ⟨x, r, hdrop⟩ := exists_cons_of_length_pos
      (show 0 < (rest.drop e.length).length by rw [length_drop]; omega)
    have hrest : rest = rest.take e.length ++ x :: r := by rw [← hdrop, take_append_drop]
    have htake : (rest.take e.length).length = e.length := by rw [length_take]; omega
    have hnext : rest.drop (e.length + 1) = r := by rw [← drop_drop, hdrop, drop_one, tail_cons]
    have hbr : (b ++ rest).length = 8 := by rw [length_append, hlen]
    -- The last byte of the extension is the first to move.
    have hget : (b ++ rest ++ (e ++ [c] ++ t)).getD (8 + e.length) 0 = c := by
      have := getD_append_length (b ++ rest ++ e) t c 0
      rw [length_append, hbr] at this
      simpa using this
    have hset1 : (b ++ rest ++ (e ++ [c] ++ t)).set (b.length + e.length) c =
        b ++ (rest.take e.length ++ c :: r) ++ (e ++ [c] ++ t) := by
      have := set_append_length (b ++ rest.take e.length) (r ++ (e ++ [c] ++ t)) x c
      rw [length_append, htake] at this
      rw [show b ++ rest ++ (e ++ [c] ++ t) = b ++ rest.take e.length ++ x :: (r ++ (e ++ [c] ++ t)) by
        conv_lhs => rw [hrest]
        simp, this]
      simp
    have hlen1 : (b ++ (rest.take e.length ++ c :: r)).length = 8 := by
      have hr := congrArg List.length hrest
      rw [length_append, length_append, htake, length_cons]
      rw [length_append, htake, length_cons] at hr
      omega
    have hset2 : (b ++ (rest.take e.length ++ c :: r) ++ (e ++ [c] ++ t)).set (8 + e.length) space =
        b ++ (rest.take e.length ++ c :: r) ++ (e ++ space :: t) := by
      have := set_append_length (b ++ (rest.take e.length ++ c :: r) ++ e) t c space
      rw [length_append, hlen1] at this
      simpa using this
    rw [rewind, hget, show b.length + (e.length + 1) - 1 = b.length + e.length by omega, hset1, hset2, ih]
    · rw [drop_left' htake, hnext, replicate_succ']
      simp
    · rw [length_append] at hlen1
      exact hlen1
    · rw [length_append, htake]
      omega

/-- A character that a short name can have, in upper case. -/
def Legal (c : BitVec 8) : Prop := fatShortCharOk c = true ∧ cp866ToUpper c = c
  deriving Decidable

/-- A legal character that does not begin the extension. -/
def Short (c : BitVec 8) : Prop := Legal c ∧ c ≠ dot
  deriving Decidable

theorem Legal.letter (h : Legal c) : Letter c := by
  revert c
  decide +kernel

structure Sim (s : GenState) (p : Plain) : Prop where
  out : s.out = pad 8 p.base ++ (pad 3 (p.ext.getD []) ++ [space])
  lossy : s.lossy = p.lossy
  dotSeen : s.dotSeen = p.ext.isSome
  base_le : p.base.length ≤ 8
  base : ∀ c ∈ p.base, Short c
  before_dot : p.ext = none → s.edi = p.base.length ∧ s.bl = 8 - p.base.length
  behind_dot : ∀ e, p.ext = some e →
    s.edi = 8 + e.length ∧ s.bl = 3 - e.length ∧ s.saved = p.base.length ∧ e.length ≤ 3 ∧ ∀ c ∈ e, Short c

theorem short_upper {al : BitVec 8} (hok : fatShortCharOk al = true) (hdot : al ≠ dot) : Short (cp866ToUpper al) := by
  revert al
  decide +kernel

theorem Sim.set_lossy (h : Sim s p) : Sim { s with lossy := true } { p with lossy := true } :=
  ⟨h.out, rfl, h.dotSeen, h.base_le, h.base, h.before_dot, h.behind_dot⟩

theorem Sim.first_dot (h : Sim s p) (hext : p.ext = none) :
    Sim { s with saved := s.edi, dotSeen := true, edi := 8, bl := 3 } { p with ext := some [] } := by
  refine ⟨?_, h.lossy, rfl, h.base_le, h.base, (fun he => by cases he), fun e he => ?_⟩
  · rw [h.out, hext]
    rfl
  · obtain rfl : [] = e := Option.some.inj he
    exact ⟨rfl, rfl, (h.before_dot hext).1, Nat.zero_le _, forall_mem_nil _⟩

theorem Sim.later_dot (h : Sim s p) (hext : p.ext = some e) :
    let ebx := if 8 ≤ s.saved + s.edi - 8 then 8 else s.saved + s.edi - 8
    Sim { out := rewind (s.edi - 8) s.out ebx, edi := 8, bl := 3, lossy := true, dotSeen := true, saved := ebx }
      ⟨p.base.take (8 - e.length) ++ e, some [], true⟩ := by
  obtain ⟨hedi, -, hsaved, hle, hletters⟩ := h.behind_dot e hext
  have hbase := h.base_le
  -- What stays of the base, and where the extension ends behind it.
  have htake : (p.base.take (8 - e.length)).length = min (8 - e.length) p.base.length := length_take ..
  have hebx : (if 8 ≤ s.saved + s.edi - 8 then 8 else s.saved + s.edi - 8) =
      (p.base.take (8 - e.length)).length + e.length := by
    rw [htake, hedi, hsaved]
    split_ifs <;> omega
  have hsplit : pad 8 p.base =
      p.base.take (8 - e.length) ++ (p.base.drop (8 - e.length) ++ List.replicate (8 - p.base.length) space) := by
    rw [← append_assoc, take_append_drop]
    rfl
  have hdrop : (p.base.drop (8 - e.length) ++ List.replicate (8 - p.base.length) space).drop e.length =
      List.replicate (8 - ((p.base.take (8 - e.length)).length + e.length)) space := by
    by_cases hfit : p.base.length ≤ 8 - e.length
    · rw [drop_of_length_le hfit, nil_append, drop_replicate, htake]
      congr 1
      omega
    · rw [drop_append, drop_of_length_le (by rw [length_drop]; omega), drop_replicate, length_drop, htake, nil_append]
      congr 1
      omega
  have hrewind := rewind_eq (p.base.take (8 - e.length))
    (p.base.drop (8 - e.length) ++ List.replicate (8 - p.base.length) space) e
    (List.replicate (3 - e.length) space ++ [space])
    (by rw [length_append, length_drop, length_replicate, htake]; omega)
    (by rw [length_append, length_drop, length_replicate]; omega)
  intro ebx
  refine ⟨?_, rfl, rfl, ?_, ?_, (fun he => by cases he), fun e' he => ?_⟩
  · have hout : s.out = p.base.take (8 - e.length) ++
        (p.base.drop (8 - e.length) ++ List.replicate (8 - p.base.length) space) ++
        (e ++ (List.replicate (3 - e.length) space ++ [space])) := by
      rw [h.out, hext, hsplit]
      simp [pad]
    have hn : s.edi - 8 = e.length := by omega
    change rewind (s.edi - 8) s.out (if 8 ≤ s.saved + s.edi - 8 then 8 else s.saved + s.edi - 8) = _
    rw [hebx, hn, hout, hrewind, hdrop]
    unfold pad
    rw [length_append]
    have hthree : List.replicate e.length space ++ (List.replicate (3 - e.length) space ++ [space]) =
        List.replicate 3 space ++ [space] := by
      rw [← append_assoc, ← replicate_add, Nat.add_sub_cancel' hle]
    rw [hthree]
    simp
  · rw [length_append, htake]
    omega
  · exact forall_mem_append.mpr ⟨fun c hc => h.base c (mem_of_mem_take hc), hletters⟩
  · obtain rfl : [] = e' := Option.some.inj he
    refine ⟨rfl, rfl, ?_, Nat.zero_le _, forall_mem_nil _⟩
    rw [length_append]
    exact hebx

theorem Sim.store_base (h : Sim s p) (hext : p.ext = none) (hc : Short c)
    (hroom : p.base.length < 8) :
    Sim { s with bl := s.bl - 1, out := s.out.set s.edi c, edi := s.edi + 1 } { p with base := p.base ++ [c] } := by
  obtain ⟨hedi, hbl⟩ := h.before_dot hext
  refine ⟨?_, h.lossy, h.dotSeen, ?_, forall_mem_append.mpr ⟨h.base, forall_mem_singleton.mpr hc⟩, fun _ => ?_, fun e he => ?_⟩
  · change s.out.set s.edi c = _
    rw [h.out, hedi, set_pad c hroom]
  · rw [length_append, length_singleton]
    omega
  · change s.edi + 1 = _ ∧ s.bl - 1 = _
    rw [length_append, length_singleton]
    omega
  · rw [hext] at he
    cases he

theorem Sim.store_ext (h : Sim s p) (hext : p.ext = some e) (hc : Short c)
    (hroom : e.length < 3) :
    Sim { s with bl := s.bl - 1, out := s.out.set s.edi c, edi := s.edi + 1 }
      { p with ext := some (e ++ [c]) } := by
  obtain ⟨hedi, hbl, hsaved, -, hletters⟩ := h.behind_dot e hext
  refine ⟨?_, h.lossy, ?_, h.base_le, h.base, (fun he => by cases he), fun e' he => ?_⟩
  · change s.out.set s.edi c = pad 8 p.base ++ (pad 3 (e ++ [c]) ++ [space])
    rw [h.out, hext, hedi, Option.getD_some, set_append_right _ _ (by rw [pad_length h.base_le]; omega),
      pad_length h.base_le, Nat.add_sub_cancel_left, set_pad c hroom]
  · change s.dotSeen = true
    rw [h.dotSeen, hext]
    rfl
  · obtain rfl : e ++ [c] = e' := Option.some.inj he
    change s.edi + 1 = _ ∧ s.bl - 1 = _ ∧ s.saved = _ ∧ _
    rw [length_append, length_singleton]
    exact ⟨by omega, by omega, hsaved, by omega, forall_mem_append.mpr ⟨hletters, forall_mem_singleton.mpr hc⟩⟩

theorem genChar_sim (h : Sim s p) (al : BitVec 8) : Sim (genChar s al) (p.char al) := by
  unfold genChar Plain.char
  by_cases hhigh : 0x80 ≤ al
  · rw [if_pos hhigh, if_pos (.inl hhigh)]
    exact h.set_lossy
  by_cases hok : fatShortCharOk al = true
  · have hkept : ¬ (0x80 ≤ al ∨ fatShortCharOk al = false) := by
      rw [hok]
      exact not_or_intro hhigh (by decide)
    rw [if_neg hhigh, if_neg (not_not.mpr hok), if_neg hkept]
    by_cases hdot : al = dot
    · rw [if_pos hdot, if_pos hdot]
      cases hext : p.ext with
      | none =>
        have hseen : s.dotSeen = false := by
          rw [h.dotSeen, hext]
          rfl
        rw [if_pos (by rw [hseen]; decide)]
        have hbl := (h.before_dot hext).2
        have hle := h.base_le
        by_cases hempty : p.base = []
        · rw [if_pos (by rw [hbl, hempty]; rfl)]
          simp only [hempty, if_true]
          have := h.set_lossy
          rwa [hext, hempty] at this
        · have hpos := length_pos_iff.mpr hempty
          rw [if_neg (by omega)]
          simp only [hempty, if_false]
          exact h.first_dot hext
      | some e =>
        have hseen : s.dotSeen = true := by
          rw [h.dotSeen, hext]
          rfl
        rw [if_neg (by rw [hseen]; decide)]
        exact h.later_dot hext
    · have hletter := short_upper hok hdot
      rw [if_neg hdot, if_neg hdot]
      cases hext : p.ext with
      | none =>
        have hbl := (h.before_dot hext).2
        have hle := h.base_le
        by_cases hroom : p.base.length < 8
        · rw [if_pos (by omega), if_pos hroom]
          have := h.store_base hext hletter hroom
          rwa [hext] at this
        · rw [if_neg (by omega), if_neg hroom]
          have := h.set_lossy
          rwa [hext] at this
      | some e =>
        obtain ⟨-, hbl, -, hle, -⟩ := h.behind_dot e hext
        dsimp only
        by_cases hroom : e.length < 3
        · rw [if_pos (by omega), if_pos hroom]
          exact h.store_ext hext hletter hroom
        · rw [if_neg (by omega), if_neg hroom]
          have := h.set_lossy
          rwa [hext] at this
  · rw [if_neg hhigh, if_pos hok, if_pos (.inr (by simpa using hok))]
    exact h.set_lossy

theorem genLoop_sim (h : Sim s p) (src : List (BitVec 8)) :
    Sim (genLoop s src) ((src.takeWhile (· ≠ 0)).foldl Plain.char p) := by
  induction src generalizing s p with
  | nil => exact h
  | cons al src ih =>
    unfold genLoop
    by_cases hal : al = 0
    · rw [if_pos hal, takeWhile_cons_of_neg (by simpa using hal)]
      exact h
    · rw [if_neg hal, takeWhile_cons_of_pos (by simpa using hal), foldl_cons]
      exact ih (genChar_sim h al)

theorem sim_start : Sim ⟨List.replicate 12 space, 0, 8, false, false, 0⟩ ⟨[], none, false⟩ :=
  ⟨rfl, rfl, rfl, Nat.zero_le _, forall_mem_nil _, fun _ => ⟨rfl, rfl⟩, fun e he => by cases he⟩

/-! ## The search for a free name -/

theorem gen_short_name_spec (src : List (BitVec 8)) : ∃ l ext, fatGenShortName src = pad 8 l ++ ext ∧ l.length ≤ 8 ∧
    (∀ c ∈ l, Letter c) ∧ (Numberable l ↔ Numberable (baseName src)) := by
  have hsim := genLoop_sim sim_start src
  change Sim _ (plain src) at hsim
  have hletters : ∀ c ∈ (plain src).base, Letter c := fun c hc => (hsim.base c hc).1.letter
  unfold fatGenShortName
  dsimp only
  split
  · obtain ⟨ok, l', hnext, h⟩ := next_spec hletters hsim.base_le (pad 3 ((plain src).ext.getD []) ++ [space])
    rw [hsim.out, hnext]
    exact ⟨l', _, rfl, h.length_le hsim.base_le, h.letters hletters, h.numberable_iff hletters⟩
  · exact ⟨_, _, hsim.out, hsim.base_le, hletters, Iff.rfl⟩

def LoopEnds (exists_ : List (BitVec 8) → Bool) (name : List (BitVec 8)) : Prop :=
  ∃ fuel, testShortNameLoop exists_ fuel name ≠ none

theorem loop_ends_of_candidates (exists_ : List (BitVec 8) → Bool) {name : List (BitVec 8)} {k : Nat}
    (hlast : (fatNextShortName (candidate name k)).1 = false) : testShortNameLoop exists_ (k + 1) name ≠ none := by
  induction k generalizing name with
  | zero =>
    change (fatNextShortName name).1 = false at hlast
    unfold testShortNameLoop
    dsimp only
    rw [hlast, if_neg Bool.false_ne_true]
    split <;> simp
  | succ k ih =>
    unfold testShortNameLoop
    dsimp only
    split_ifs
    · exact ih hlast
    · simp
    · simp

/-- **The search for a short name ends** exactly if the base can be numbered. -/
theorem short_name_search_ends_iff (src : List (BitVec 8)) :
    (Exhausts (fatGenShortName src) ∧ ∀ exists_, LoopEnds exists_ (fatGenShortName src)) ↔
      Numberable (baseName src) := by
  obtain ⟨l, ext, hgen, hlen, hl, hnum⟩ := gen_short_name_spec src
  have hiff : Exhausts (fatGenShortName src) ↔ Numberable (baseName src) := by
    rw [hgen, exhausts_iff ext hl hlen, hnum]
  rw [← hiff]
  refine and_iff_left_of_imp fun hex exists_ => ?_
  obtain ⟨k, -, hlast, -⟩ := hex
  exact ⟨k + 1, loop_ends_of_candidates exists_ hlast⟩

/-- `~`, for which the candidates stop at `~9999999` and stay there. -/
theorem short_name_search_stuck : ¬ ∀ src : List (BitVec 8), (∀ c ∈ src, c ≠ 0) →
    Exhausts (fatGenShortName src) ∧ ∀ exists_, LoopEnds exists_ (fatGenShortName src) := by
  intro hall
  obtain ⟨⟨k, -, hlast, -⟩, -⟩ := hall [tilde] (by decide)
  have hgen : fatGenShortName [tilde] = pad 8 [tilde] ++ List.replicate 4 space := by decide
  rw [hgen, next_forever _ (by decide) (by decide) (not_numberable_tilde (by simp)) k] at hlast
  cases hlast

end Kolibri.Fat
