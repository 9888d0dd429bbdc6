import Kolibri.Lib.ShiftingWalk

/-! # Aging of the ARP table (`ARP.inc`)

An entry whose time runs out is deleted: all slots behind it move up.
-/

namespace Kolibri.Arp

open ShiftingWalk List

def arpStaticEntry : BitVec 16 := -1
def arpTableSize : Nat := 20

structure Entry where
  ip : BitVec 32
  mac : BitVec 48
  status : BitVec 16
  ttl : BitVec 16
  deriving DecidableEq

def Entry.empty : Entry := ⟨0, 0, 0, 0⟩

structure Table where
  slots : List Entry
  arpEntries : Nat
  deriving DecidableEq

def Table.entries (t : Table) : List Entry := t.slots.take t.arpEntries

structure Table.Sound (t : Table) : Prop where
  size : t.slots.length = arpTableSize
  count : t.arpEntries ≤ arpTableSize
  spare : ∀ e ∈ t.slots.drop t.arpEntries, e.ttl = 0 ∨ e.ttl = arpStaticEntry

variable {e : Entry} {done rest : List Entry} {n : Nat} {t : Table}

end Kolibri.Arp
