import Kolibri.Lib.Memory

/-! # Words that are patched in place -/

namespace Kolibri.Memory

open BitVec List

variable {m m' : Mem} {a b x : BitVec 32}

/-! ## Bytes of a word -/

def Within (a : BitVec 32) (len : Nat) (x : BitVec 32) : Prop := (x - a).toNat < len
  deriving Decidable

def Apart (a b : BitVec 32) : Prop := 4 ≤ (a - b).toNat ∧ 4 ≤ (b - a).toNat
  deriving Decidable

theorem Apart.symm (h : Apart a b) : Apart b a := ⟨h.2, h.1⟩

theorem Apart.not_within (h : Apart a b) (hx : Within a 4 x) : ¬ Within b 4 x := by
  unfold Apart at h
  unfold Within at *
  bv_omega

theorem apart_of_not_within (h : ∀ x, Within a 4 x → ¬ Within b 4 x) : Apart a b := by
  have hself : ∀ c : BitVec 32, Within c 4 c := fun c => by simp [Within]
  exact ⟨Nat.not_lt.mp (h a (hself a)), Nat.not_lt.mp fun hb => h b hb (hself b)⟩

theorem within_add (a : BitVec 32) {i len : Nat} (hi : i < len) (hlen : len ≤ 2 ^ 32) :
    Within a len (a + BitVec.ofNat 32 i) := by
  unfold Within
  bv_omega

theorem within_word_cases (h : Within a 4 x) : x = a ∨ x = a + 1 ∨ x = a + 2 ∨ x = a + 3 := by
  unfold Within at h
  bv_omega

theorem load32_congr (h : ∀ x, Within a 4 x → m' x = m x) : load32 m' a = load32 m a := by
  unfold load32 Within at *
  rw [h a (by bv_omega), h (a + 1) (by bv_omega), h (a + 2) (by bv_omega), h (a + 3) (by bv_omega)]

theorem load16_congr (h : ∀ x, Within a 2 x → m' x = m x) : load16 m' a = load16 m a := by
  unfold load16 Within at *
  rw [h a (by bv_omega), h (a + 1) (by bv_omega)]

theorem byte_of_load32 (m : Mem) (a : BitVec 32) :
    m a = (load32 m a).extractLsb' 0 8 ∧ m (a + 1) = (load32 m a).extractLsb' 8 8 ∧
      m (a + 2) = (load32 m a).extractLsb' 16 8 ∧ m (a + 3) = (load32 m a).extractLsb' 24 8 := by
  refine ⟨?_, ?_, ?_, ?_⟩ <;>
  · ext i hi
    simp only [load32, getLsbD_extractLsb', getLsbD_append, hi, decide_true, Bool.true_and]
    grind

theorem eq_of_load32 (h : load32 m' a = load32 m a) (hx : Within a 4 x) : m' x = m x := by
  obtain ⟨h0, h1, h2, h3⟩ := byte_of_load32 m a
  obtain ⟨h0', h1', h2', h3'⟩ := byte_of_load32 m' a
  rw [h] at h0' h1' h2' h3'
  rcases within_word_cases hx with rfl | rfl | rfl | rfl
  · rw [h0', h0]
  · rw [h1', h1]
  · rw [h2', h2]
  · rw [h3', h3]

theorem store32_outside (m : Mem) (w : BitVec 32) (h : ¬ Within a 4 x) : store32 m a w x = m x := by
  apply storeBytes_of_ne
  intro i hi heq
  exact h (heq ▸ within_add a hi (by decide))

theorem load32_store32 (m : Mem) (a w : BitVec 32) : load32 (store32 m a w) a = w := by
  have h1 : a ≠ a + 1 ∧ a ≠ a + 2 ∧ a ≠ a + 3 := by refine ⟨?_, ?_, ?_⟩ <;> bv_omega
  have h2 : a + 1 ≠ a + 2 ∧ a + 1 ≠ a + 3 ∧ a + 2 ≠ a + 3 := by refine ⟨?_, ?_, ?_⟩ <;> bv_omega
  have hnext : a + 1 + 1 = a + 2 ∧ a + 2 + 1 = a + 3 := by constructor <;> bv_omega
  unfold load32 store32
  simp only [storeBytes, hnext, Function.update_self, ne_eq, h1, h2, not_false_eq_true, Function.update_of_ne]
  apply eq_of_getLsbD_eq
  intro i hi
  simp only [getLsbD_append, getLsbD_extractLsb']
  split_ifs <;> simp <;> grind

/-! ## Patches -/

def patchAdd (m : Mem) (a v : BitVec 32) : Mem := store32 m a (load32 m a + v)

theorem patchAdd_outside (m : Mem) (v : BitVec 32) (h : ¬ Within a 4 x) : patchAdd m a v x = m x :=
  store32_outside m _ h

theorem load32_patchAdd (m : Mem) (a v : BitVec 32) : load32 (patchAdd m a v) a = load32 m a + v :=
  load32_store32 m a _

theorem load32_patchAdd_apart (m : Mem) (v : BitVec 32) (h : Apart a b) : load32 (patchAdd m a v) b = load32 m b :=
  load32_congr fun _ hx => patchAdd_outside m v (h.symm.not_within hx)

abbrev Patch := BitVec 32 × BitVec 32

def applyPatches (m : Mem) (ps : List Patch) : Mem := ps.foldl (fun m p => patchAdd m p.1 p.2) m

@[simp]
theorem applyPatches_nil (m : Mem) : applyPatches m [] = m := rfl

@[simp]
theorem applyPatches_cons (m : Mem) (p : Patch) (ps : List Patch) :
    applyPatches m (p :: ps) = applyPatches (patchAdd m p.1 p.2) ps := rfl

theorem applyPatches_append (m : Mem) (ps qs : List Patch) :
    applyPatches m (ps ++ qs) = applyPatches (applyPatches m ps) qs :=
  foldl_append

theorem applyPatches_outside (m : Mem) {ps : List Patch} (h : ∀ p ∈ ps, ¬ Within p.1 4 x) :
    applyPatches m ps x = m x := by
  induction ps generalizing m with
  | nil => rfl
  | cons p ps ih =>
    rw [applyPatches_cons, ih _ fun q hq => h q (mem_cons_of_mem _ hq)]
    exact patchAdd_outside m _ (h p mem_cons_self)

theorem load32_applyPatches_apart (m : Mem) {ps : List Patch} (h : ∀ p ∈ ps, Apart p.1 a) :
    load32 (applyPatches m ps) a = load32 m a :=
  load32_congr fun _ hx => applyPatches_outside m fun p hp => (h p hp).symm.not_within hx

theorem load32_applyPatches (m : Mem) {ps : List Patch} {p : Patch}
    (hps : ps.Pairwise fun p q => Apart p.1 q.1) (hp : p ∈ ps) :
    load32 (applyPatches m ps) p.1 = load32 m p.1 + p.2 := by
  induction ps generalizing m with
  | nil => cases hp
  | cons q ps ih =>
    obtain ⟨hhead, htail⟩ := pairwise_cons.mp hps
    rw [applyPatches_cons]
    rcases mem_cons.mp hp with rfl | hp
    · rw [load32_applyPatches_apart _ fun r hr => (hhead r hr).symm, load32_patchAdd]
    · rw [ih _ htail hp, load32_patchAdd_apart _ _ (hhead p hp)]

theorem patchAdd_zero (m : Mem) (a : BitVec 32) : patchAdd m a 0 = m := by
  funext x
  by_cases hx : Within a 4 x
  · exact eq_of_load32 (by rw [load32_patchAdd]; exact add_zero _) hx
  · exact patchAdd_outside m 0 hx

theorem applyPatches_zero (m : Mem) {ps : List Patch} (h : ∀ p ∈ ps, p.2 = 0) : applyPatches m ps = m := by
  induction ps with
  | nil => rfl
  | cons p ps ih =>
    rw [applyPatches_cons, h p mem_cons_self, patchAdd_zero, ih fun q hq => h q (mem_cons_of_mem _ hq)]

/-! ## Another view of the memory -/

def view (m : Mem) (base : BitVec 32) : Mem := fun k => m (base + k)

theorem load32_view (m : Mem) (base a : BitVec 32) : load32 (view m base) a = load32 m (base + a) := by
  unfold load32 view
  simp only [add_assoc]

theorem view_patchAdd (m : Mem) (base a v : BitVec 32) :
    view (patchAdd m (base + a) v) base = patchAdd (view m base) a v := by
  funext k
  by_cases hk : Within a 4 k
  · refine eq_of_load32 ?_ hk
    rw [load32_view, load32_patchAdd, load32_patchAdd, load32_view]
  have hk' : ¬ Within (base + a) 4 (base + k) := by
    unfold Within at *
    rwa [show base + k - (base + a) = k - a by bv_omega]
  rw [patchAdd_outside _ _ hk]
  exact patchAdd_outside m v hk'

theorem view_applyPatches (m : Mem) (base : BitVec 32) (ps : List Patch) :
    view (applyPatches m (ps.map fun p => (base + p.1, p.2))) base = applyPatches (view m base) ps := by
  induction ps generalizing m with
  | nil => rfl
  | cons p ps ih => rw [map_cons, applyPatches_cons, ih, view_patchAdd, applyPatches_cons]

theorem applyPatches_congr {ps : List Patch} {s : Set (BitVec 32)} (hps : ∀ p ∈ ps, ∀ x, Within p.1 4 x → x ∈ s)
    (h : ∀ x ∈ s, m' x = m x) : ∀ x ∈ s, applyPatches m' ps x = applyPatches m ps x := by
  induction ps generalizing m m' with
  | nil => exact h
  | cons p ps ih =>
    rw [applyPatches_cons, applyPatches_cons]
    apply ih fun q hq => hps q (mem_cons_of_mem _ hq)
    intro x hx
    by_cases hword : Within p.1 4 x
    · refine eq_of_load32 ?_ hword
      rw [load32_patchAdd, load32_patchAdd, load32_congr fun y hy => h y (hps p mem_cons_self y hy)]
    · rw [patchAdd_outside _ _ hword, patchAdd_outside _ _ hword, h x hx]

/-! ## Loops with a pointer -/

section Loop

variable {σ : Type*}

def forEach (stride : BitVec 32) (body : BitVec 32 → σ → σ) : Nat → BitVec 32 → σ → σ
  | 0, _, s => s
  | n + 1, p, s => forEach stride body n (p + stride) (body p s)

theorem forEach_succ (stride : BitVec 32) (body : BitVec 32 → σ → σ) (n : Nat) (p : BitVec 32) (s : σ) :
    forEach stride body (n + 1) p s = body (p + stride * BitVec.ofNat 32 n) (forEach stride body n p s) := by
  induction n generalizing p s with
  | zero => simp [forEach]
  | succ n ih =>
    have hnext : stride * BitVec.ofNat 32 (n + 1) = stride + stride * BitVec.ofNat 32 n := by
      rw [Nat.add_comm, ofNat_add, mul_add]
      simp
    rw [forEach, ih, forEach, hnext, add_assoc]

theorem forEach_rule {stride p : BitVec 32} {body : BitVec 32 → σ → σ} {n : Nat} {s : σ} (P : Nat → σ → Prop)
    (hinit : P 0 s) (hstep : ∀ i < n, ∀ s, P i s → P (i + 1) (body (p + stride * BitVec.ofNat 32 i) s)) :
    P n (forEach stride body n p s) := by
  induction n with
  | zero => exact hinit
  | succ n ih =>
    rw [forEach_succ]
    exact hstep n (by omega) _ (ih fun i hi => hstep i (by omega))

theorem forEach_patches {stride p : BitVec 32} {body : BitVec 32 → Mem → Mem} {n : Nat} {m : Mem}
    (K : Mem → Prop) (patch : Nat → List Patch) (hinit : K m)
    (hstep : ∀ i < n, ∀ m, K m → body (p + stride * BitVec.ofNat 32 i) m = applyPatches m (patch i) ∧
      K (applyPatches m (patch i))) :
    forEach stride body n p m = applyPatches m ((List.range n).flatMap patch) ∧ K (forEach stride body n p m) := by
  apply forEach_rule fun i m' => m' = applyPatches m ((List.range i).flatMap patch) ∧ K m'
  · exact ⟨rfl, hinit⟩
  · rintro i hi m' ⟨heq, hkept⟩
    obtain ⟨hbody, hnext⟩ := hstep i hi m' hkept
    rw [hbody, range_succ, flatMap_append, flatMap_singleton, applyPatches_append, ← heq]
    exact ⟨rfl, hnext⟩

end Loop

end Kolibri.Memory
