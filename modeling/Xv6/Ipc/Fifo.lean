import Xv6.Ipc.Pipe
import Xv6.Proc.SleepInv

/-! A pipe is a queue: the ring of `data` with its two wrapping counters, and the processes that
write and read it in any order. -/

namespace Xv6.Ipc

open Function List
open Sleep (Pos Mutex Moves step_moves)
open Wait (Slot)

def Pipe.bytes (d : Pipe) : List UInt8 := d.accepted.map Prod.snd

/-- The counters count the bytes that went in and came out, at most `PIPESIZE` of them are in
between, and those are in `data`. -/
structure Fifo (d : Pipe) : Prop where
  nread : d.nread = d.delivered.length % 2 ^ 32
  nwrite : d.nwrite = d.bytes.length % 2 ^ 32
  le : d.delivered.length ≤ d.bytes.length
  room : d.bytes.length ≤ d.delivered.length + PIPESIZE
  delivered : d.delivered = d.bytes.take d.delivered.length
  ring : ∀ k, d.delivered.length ≤ k → k < d.bytes.length →
    d.bytes[k]? = some (d.data (k % PIPESIZE))

theorem fifo_alloc (data : Nat → UInt8) : Fifo (Pipe.alloc data) where
  nread := rfl
  nwrite := rfl
  le := Nat.le_refl _
  room := Nat.zero_le _
  delivered := rfl
  ring k _ hk := absurd hk (Nat.not_lt_zero k)

def Pipe.count (d : Pipe) : Nat := (d.nwrite + (2 ^ 32 - d.nread)) % 2 ^ 32

/-- The bytes in `data`, from `nread` up to `nwrite`. -/
def Pipe.content (d : Pipe) : List UInt8 :=
  (range d.count).map fun k => d.data ((d.nread + k) % 2 ^ 32 % PIPESIZE)

variable {d : Pipe}

theorem Fifo.count_eq (h : Fifo d) : d.count = d.bytes.length - d.delivered.length := by
  have hle := h.le
  have hroom := h.room
  unfold Pipe.count
  rw [h.nread, h.nwrite]
  simp only [PIPESIZE] at hroom
  omega

theorem Fifo.isEmpty_iff (h : Fifo d) : d.isEmpty = true ↔ d.bytes.length = d.delivered.length := by
  have hle := h.le
  have hroom := h.room
  unfold Pipe.isEmpty
  rw [beq_iff_eq, h.nread, h.nwrite]
  simp only [PIPESIZE] at hroom
  omega

theorem Fifo.isFull_iff (h : Fifo d) :
    d.isFull = true ↔ d.bytes.length = d.delivered.length + PIPESIZE := by
  have hle := h.le
  have hroom := h.room
  unfold Pipe.isFull
  rw [beq_iff_eq, h.nread, h.nwrite]
  simp only [PIPESIZE] at hroom ⊢
  omega

theorem Fifo.nwrite_index (h : Fifo d) : d.nwrite % PIPESIZE = d.bytes.length % PIPESIZE := by
  rw [h.nwrite]
  exact Nat.mod_mod_of_dvd _ (by decide)

theorem Fifo.nread_index (h : Fifo d) (k : Nat) :
    (d.nread + k) % 2 ^ 32 % PIPESIZE = (d.delivered.length + k) % PIPESIZE := by
  rw [h.nread, Nat.mod_add_mod]
  exact Nat.mod_mod_of_dvd _ (by decide)

theorem Fifo.content_eq (h : Fifo d) : d.content = d.bytes.drop d.delivered.length := by
  refine ext_getElem? fun k => ?_
  rw [getElem?_drop]
  by_cases hk : k < d.count
  · have hlt : d.delivered.length + k < d.bytes.length := by
      rw [h.count_eq] at hk
      omega
    rw [h.ring _ (Nat.le_add_right _ _) hlt, Pipe.content, getElem?_map,
      getElem?_range hk, Option.map_some, h.nread_index]
  · have hge : d.bytes.length ≤ d.delivered.length + k := by
      rw [h.count_eq] at hk
      omega
    rw [getElem?_eq_none hge, getElem?_eq_none]
    simp only [Pipe.content, length_map, length_range]
    omega

theorem Fifo.delivered_append (h : Fifo d) : d.delivered ++ d.content = d.bytes := by
  rw [h.content_eq]
  nth_rewrite 1 [h.delivered]
  exact take_append_drop _ _

theorem Pipe.bytes_store (d : Pipe) (id : Nat) (ch : UInt8) :
    (d.store id ch).bytes = d.bytes ++ [ch] := by
  simp [Pipe.bytes, Pipe.store]

theorem Fifo.store (h : Fifo d) (hfull : d.isFull = false) (id : Nat) (ch : UInt8) :
    Fifo (d.store id ch) := by
  have hroom : d.bytes.length < d.delivered.length + PIPESIZE := by
    have hne : ¬d.bytes.length = d.delivered.length + PIPESIZE := fun he => by
      rw [h.isFull_iff.mpr he] at hfull
      cases hfull
    have := h.room
    omega
  have hle := h.le
  constructor
  · exact h.nread
  · rw [Pipe.bytes_store, length_append, length_singleton]
    simp [Pipe.store, h.nwrite, Nat.mod_add_mod]
  · rw [Pipe.bytes_store, length_append, length_singleton]
    exact Nat.le_succ_of_le hle
  · rw [Pipe.bytes_store, length_append, length_singleton]
    exact hroom
  · rw [Pipe.bytes_store]
    exact h.delivered.trans (take_append_of_le_length hle).symm
  · intro k hk hlt
    rw [Pipe.bytes_store] at hlt ⊢
    rw [length_append, length_singleton] at hlt
    have hk : d.delivered.length ≤ k := hk
    simp only [Pipe.store, h.nwrite_index]
    rcases Nat.lt_succ_iff_lt_or_eq.mp hlt with hlt | rfl
    · -- The slot of an earlier byte is another one, since fewer than `PIPESIZE` lie between.
      have hne : k % PIPESIZE ≠ d.bytes.length % PIPESIZE := by
        simp only [PIPESIZE] at hroom ⊢
        omega
      rw [update_of_ne hne, getElem?_append_left hlt]
      exact h.ring k hk hlt
    · simp

theorem Fifo.consume (h : Fifo d) (hempty : d.isEmpty = false) : Fifo d.consume := by
  have hlt : d.delivered.length < d.bytes.length := by
    have hne : ¬d.bytes.length = d.delivered.length := fun he => by
      rw [h.isEmpty_iff.mpr he] at hempty
      cases hempty
    have := h.le
    omega
  have hlen : d.consume.delivered.length = d.delivered.length + 1 := by simp [Pipe.consume]
  have hbytes : d.consume.bytes = d.bytes := rfl
  constructor
  · rw [hlen]
    simp [Pipe.consume, h.nread, Nat.mod_add_mod]
  · exact h.nwrite
  · rw [hlen, hbytes]
    exact hlt
  · rw [hlen, hbytes]
    have := h.room
    omega
  · have hnext := h.ring _ (Nat.le_refl _) hlt
    have hindex : d.nread % PIPESIZE = d.delivered.length % PIPESIZE := by
      rw [h.nread]
      exact Nat.mod_mod_of_dvd _ (by decide)
    rw [hlen, hbytes, take_add_one, hnext, ← hindex, ← h.delivered]
    rfl
  · intro k hk hlt
    rw [hlen] at hk
    exact h.ring k (by omega) hlt

theorem Fifo.close (h : Fifo d) (writable : Bool) : Fifo (d.close writable) := by
  cases writable <;> exact ⟨h.nread, h.nwrite, h.le, h.room, h.delivered, h.ring⟩

theorem Fifo.free (h : Fifo d) : Fifo d.free := by
  unfold Pipe.free
  split
  · exact ⟨h.nread, h.nwrite, h.le, h.room, h.delivered, h.ring⟩
  · exact h

end Xv6.Ipc
