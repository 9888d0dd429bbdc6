import Kolibri.Lib.Run
import Kolibri.Slab.Layout

/-! # Threads that take and give back blocks

`slab_alloc` runs under the mutex of its pool, `slab_free` under no lock. Threads are interleaved at every access
to memory. Any double words of a block may be written by its owner, and any of a new page until its list of free
blocks is well formed.
-/

namespace Kolibri.Slab

open Function

/-- The next instruction of a thread, with its registers. -/
inductive Pc
  | idle
  /-- Step 1. -/
  | takeLock
  /-- Step 2b. -/
  | pageLoop (edx : BitVec 32)
  /-- Step 2d. -/
  | readHead (edx : BitVec 32)
  /-- Step 2e. -/
  | readNext (edx eax : BitVec 32)
  /-- Step 2f. -/
  | exchange (edx eax ecx : BitVec 32)
  /-- Step 4. -/
  | newPage (eax : BitVec 32)
  /-- Step 5. -/
  | link (edx eax : BitVec 32)
  /-- Steps 6 and 7. -/
  | setUp (page : BitVec 32)
  /-- Step 3. -/
  | leave (eax : BitVec 32)
  | freeRead (ecx : BitVec 32)
  | freeWrite (ecx eax : BitVec 32)
  | freeExchange (ecx eax : BitVec 32)
  deriving DecidableEq

def Pc.inside : Pc → Bool
  | pageLoop _ | readHead _ | readNext _ _ | exchange _ _ _ | newPage _ | link _ _ | setUp _ | leave _ => true
  | idle | takeLock | freeRead _ | freeWrite _ _ | freeExchange _ _ => false

def Pc.Handles (b : BitVec 32) : Pc → Prop
  | leave eax => eax = b ∧ b ≠ 0
  | freeRead ecx | freeWrite ecx _ | freeExchange ecx _ => ecx = b
  | _ => False

inductive Call
  | alloc (block : BitVec 32)
  | free (block : BitVec 32)
  deriving DecidableEq

def Held (b : BitVec 32) : List Call → Prop
  | [] => False
  | .alloc c :: log => c = b ∨ Held b log
  | .free c :: log => c ≠ b ∧ Held b log

structure State (τ : Type) where
  words : Words
  pc : τ → Pc
  /-- The thread that has the mutex. -/
  lock : Option τ
  /-- The pages that are set up, and their blocks. -/
  pages : List (BitVec 32)
  blocks : List (BitVec 32)
  log : List Call

variable {τ : Type} (s : State τ)

def State.store (a v : BitVec 32) : State τ := { s with words := update s.words a v }

@[simp] theorem store_words (a v : BitVec 32) : (s.store a v).words = update s.words a v := rfl

@[simp] theorem store_pages (a v : BitVec 32) : (s.store a v).pages = s.pages := rfl

@[simp] theorem store_blocks (a v : BitVec 32) : (s.store a v).blocks = s.blocks := rfl

variable [DecidableEq τ]

def State.goto (t : τ) (pc : Pc) : State τ := { s with pc := update s.pc t pc }

@[simp] theorem goto_words (t : τ) (pc : Pc) : (s.goto t pc).words = s.words := rfl

@[simp] theorem goto_lock (t : τ) (pc : Pc) : (s.goto t pc).lock = s.lock := rfl

@[simp] theorem goto_pages (t : τ) (pc : Pc) : (s.goto t pc).pages = s.pages := rfl

@[simp] theorem goto_blocks (t : τ) (pc : Pc) : (s.goto t pc).blocks = s.blocks := rfl

@[simp] theorem goto_log (t : τ) (pc : Pc) : (s.goto t pc).log = s.log := rfl

@[simp] theorem goto_pc_self (t : τ) (pc : Pc) : (s.goto t pc).pc t = pc := update_self ..

theorem goto_pc_of_ne {t u : τ} (h : u ≠ t) (pc : Pc) : (s.goto t pc).pc u = s.pc u :=
  update_of_ne h ..

/-- Where `slab_free` looks for the head of the list. -/
def headOf (block : BitVec 32) : BitVec 32 :=
  let edx := block ||| 0xFFF#32
  edx + 1#32 - 8#32

/-- One access to memory. `pool` is the address of the mutex. -/
def State.go (pool : BitVec 32) (s : State τ) (t : τ) : State τ :=
  match s.pc t with
  | .takeLock => { s with lock := some t }.goto t (.pageLoop pool)
  | .pageLoop edx =>
    let eax := edx
    let edx := s.words (edx - 4#32)
    s.goto t (if edx = 0 then .newPage eax else .readHead (edx + 0x1000#32))
  | .readHead edx =>
    let eax := s.words (edx - 8#32)
    s.goto t (if eax = 0 then .pageLoop edx else .readNext edx eax)
  | .readNext edx eax => s.goto t (.exchange edx eax (s.words eax))
  | .exchange edx eax ecx =>
    if s.words (edx - 8#32) = eax then (s.store (edx - 8#32) ecx).goto t (.leave eax)
    else s.goto t (.readHead edx)
  | .link edx eax => (s.store (edx - 4#32) eax).goto t (.setUp eax)
  | .leave eax =>
    { s with lock := none, log := if eax = 0 then s.log else .alloc eax :: s.log }.goto t .idle
  | .freeRead ecx => s.goto t (.freeWrite ecx (s.words (headOf ecx)))
  | .freeWrite ecx eax => (s.store ecx eax).goto t (.freeExchange ecx eax)
  | .freeExchange ecx eax =>
    if s.words (headOf ecx) = eax then (s.store (headOf ecx) ecx).goto t .idle
    else s.goto t (.freeRead ecx)
  | .idle | .newPage _ | .setUp _ => s

inductive Event (τ : Type)
  | alloc (t : τ)
  | free (t : τ) (block : BitVec 32)
  | go (t : τ)
  /-- What `kernel_alloc` returns. -/
  | kernelAlloc (t : τ) (page : BitVec 32)
  | setUpWrite (t : τ) (a v : BitVec 32)
  /-- The page is set up with these blocks on its list. -/
  | setUpDone (t : τ) (free : List (BitVec 32))
  /-- The owner of a block writes to it. -/
  | write (block a v : BitVec 32)

def step (pool : BitVec 32) (s : State τ) : Event τ → State τ × Unit
  | .alloc t => (s.goto t .takeLock, ())
  | .free t block => ({ s with log := .free block :: s.log }.goto t (.freeRead block), ())
  | .go t => (s.go pool t, ())
  | .kernelAlloc t page =>
    match s.pc t with
    | .newPage eax => (s.goto t (if page = 0 then .leave 0 else .link eax page), ())
    | _ => (s, ())
  | .setUpWrite _ a v => (s.store a v, ())
  | .setUpDone t free =>
    match s.pc t with
    | .setUp page =>
      ({ s with pages := page :: s.pages, blocks := page :: free ++ s.blocks }.goto t (.leave page), ())
    | _ => (s, ())
  | .write _ a v => (s.store a v, ())

/-! ## Pages and blocks -/

def InPage (page a : BitVec 32) : Prop := page.toNat ≤ a.toNat ∧ a.toNat < page.toNat + 0x1000

variable (size : Nat)

/-- A block lies before the service double words of its page. -/
def BlockOf (page b : BitVec 32) : Prop := page.toNat ≤ b.toNat ∧ b.toNat + size ≤ page.toNat + 0xFF8

def InBlock (b a : BitVec 32) : Prop := b.toNat ≤ a.toNat ∧ a.toNat < b.toNat + size

def Apart (b c : BitVec 32) : Prop := b.toNat + size ≤ c.toNat ∨ c.toNat + size ≤ b.toNat

structure PageOk (pool page : BitVec 32) : Prop where
  ne_zero : page ≠ 0
  aligned : page.toNat % 0x1000 = 0
  pool : ¬ InPage page (pool - 4#32)

/-- Callers free and write to their own blocks only. `kernel_alloc` returns pages that are not in use. -/
def Enabled (pool : BitVec 32) (s : State τ) : Event τ → Prop
  | .alloc t => s.pc t = .idle
  | .free t block => s.pc t = .idle ∧ Held block s.log
  | .go t => s.pc t = .takeLock → s.lock = none
  | .kernelAlloc t page => (∃ eax, s.pc t = .newPage eax) ∧ (page = 0 ∨ PageOk pool page ∧ page ∉ s.pages)
  | .setUpWrite t a _ => ∃ page, s.pc t = .setUp page ∧ InPage page a
  | .setUpDone t free => ∃ page, s.pc t = .setUp page ∧ s.words (page + 0xFFC#32) = 0 ∧ FreeList s.words page free ∧
      (∀ b ∈ page :: free, BlockOf size page b) ∧ (page :: free).Pairwise (Apart size)
  | .write block a _ => Held block s.log ∧ InBlock size block a

def Alternates (log : List Call) : Prop :=
  ∀ b l₁ l₂ l₃, log = l₁ ++ .alloc b :: l₂ ++ .alloc b :: l₃ → .free b ∈ l₂

/-- The pointer to the next page is right before it. -/
def IsEnd (pool : BitVec 32) (pages : List (BitVec 32)) (e : BitVec 32) : Prop :=
  e = pool ∨ ∃ p ∈ pages, e = p + 0x1000#32

structure Start (pool : BitVec 32) (s : State τ) : Prop where
  idle : ∀ t, s.pc t = .idle
  unlocked : s.lock = none
  page : ∀ p ∈ s.pages, PageOk pool p
  linked : ∀ e, IsEnd pool s.pages e → s.words (e - 4#32) = 0 ∨ s.words (e - 4#32) ∈ s.pages
  block : ∀ b ∈ s.blocks, ∃ p ∈ s.pages, BlockOf size p b
  apart : ∀ b ∈ s.blocks, ∀ c ∈ s.blocks, b ≠ c → Apart size b c
  lists : ∀ p ∈ s.pages, ∃ free, FreeList s.words p free ∧
    ∀ b ∈ free, b ∈ s.blocks ∧ BlockOf size p b ∧ ¬ Held b s.log
  placed : ∀ b ∈ s.blocks, Held b s.log ∨ ∃ p ∈ s.pages, ∃ free, FreeList s.words p free ∧ b ∈ free
  held : ∀ b, Held b s.log → b ∈ s.blocks
  log : Alternates s.log

/-- A block that has an owner is on no list, and one that has none is on a list or in a call. -/
structure Good (s : State τ) : Prop where
  lists : ∀ p ∈ s.pages, ∃ free, FreeList s.words p free ∧ free.Nodup
  returned : Alternates s.log
  owned : ∀ b, Held b s.log → ∀ p ∈ s.pages, ∀ free, FreeList s.words p free → b ∉ free
  kept : ∀ b ∈ s.blocks, Held b s.log ∨ (∃ p ∈ s.pages, ∃ free, FreeList s.words p free ∧ b ∈ free) ∨
    ∃ t, (s.pc t).Handles b

end Kolibri.Slab
