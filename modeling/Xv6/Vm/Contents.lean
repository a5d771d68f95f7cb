import Xv6.Lib.Store
import Xv6.Vm.Space

/-! What user memory holds: a page byte by byte, and the bytes below the size of an address space
as one store. -/

namespace Xv6.Vm

open Finset

variable {L : Layout} {k k' : Kmem} {t t' : Table} {rest : Multiset Nat} {sz : Nat}

namespace Page

variable {page : Page} {off c i : Nat}

theorem byte_zero (off : Nat) : (fill 0).byte off = 0 := by
  simp [byte, fill]

theorem byte_setByte (page : Page) (off c i : Nat) :
    (page.setByte off c).byte i = if i = off then c % 256 else page.byte i := by
  have hset : page.setByte off c =
      Function.update page (off / 8) (setDigit 256 (page (off / 8)) (off % 8) (c % 256)) := rfl
  unfold byte
  by_cases hw : i / 8 = off / 8
  · rw [hset, hw, Function.update_self, digit_setDigit (Nat.mod_lt _ (by decide))]
    by_cases hi : i = off
    · rw [if_pos hi, if_pos (by rw [hi])]
    · rw [if_neg hi, if_neg (by omega)]
  · rw [hset, Function.update_of_ne hw, if_neg fun hi => hw (by rw [hi])]

theorem byte_setBytes {bs : List Nat} (hbs : ∀ b ∈ bs, b < 256) (page : Page) (off : Nat) :
    (page.setBytes off bs).byte = put page.byte off bs := by
  induction bs generalizing page off with
  | nil => rw [setBytes, put_nil]
  | cons b bs ih =>
    have hone : (page.setByte off b).byte = put page.byte off [b] := by
      funext i
      rw [byte_setByte, Nat.mod_eq_of_lt (hbs b List.mem_cons_self)]
      split
      case isTrue hi => rw [hi, put_head]
      case isFalse hi =>
        refine (put_outside ?_).symm
        rw [List.length_singleton]
        omega
    rw [setBytes, ih (fun c hc => hbs c (List.mem_cons_of_mem _ hc)), hone, ← put_cons]

end Page

def userByte (k : Kmem) (pte : Nat → Nat) (va : Nat) : Nat :=
  (k.mem (pte2pa (pte (va / PGSIZE)))).byte (va % PGSIZE)

/-- The pages below `sz` hold `bytes`, which are zeros from there on. -/
structure Holds (k : Kmem) (pte : Nat → Nat) (sz : Nat) (bytes : Nat → Nat) : Prop where
  read : ∀ va, va / PGSIZE < npages sz → userByte k pte va = bytes va
  zero : ∀ va, npages sz ≤ va / PGSIZE → bytes va = 0

variable {pte pte' : Nat → Nat} {bytes : Nat → Nat}

theorem Holds.congr (h : Holds k pte sz bytes)
    (hp : ∀ v < npages sz, k'.mem (pte2pa (pte' v)) = k.mem (pte2pa (pte v))) :
    Holds k' pte' sz bytes :=
  ⟨fun va hva => by rw [userByte, hp _ hva]; exact h.read va hva, h.zero⟩

theorem Holds.grow {sz' perm : Nat} (h : Holds k pte sz bytes) (hle : sz ≤ sz')
    (hold : ∀ v < npages sz, k'.mem (pte2pa (pte v)) = k.mem (pte2pa (pte v)))
    (hfill : Filled pte pte' (npages sz) (npages sz' - npages sz) perm)
    (hz : Zeroed k' pte' (npages sz) (npages sz' - npages sz)) : Holds k' pte' sz' bytes := by
  have hmono := npages_mono hle
  refine ⟨fun va hva => ?_, fun va hva => h.zero va (by omega)⟩
  unfold userByte
  by_cases hlt : va / PGSIZE < npages sz
  · rw [hfill.other _ (by omega), hold _ hlt]
    exact h.read va hlt
  · rw [hz _ (by omega) (by omega), Page.byte_zero, h.zero va (by omega)]

theorem Space.page_inj {v w : Nat} (h : Space L k t rest) (hv : v < UPAGES) (hw : w < UPAGES)
    (hv0 : t.pte v ≠ 0) (hw0 : t.pte w ≠ 0) (he : pte2pa (t.pte v) = pte2pa (t.pte w)) : v = w := by
  have hnd : (userPages t.pte).Nodup := by
    have := h.own.nodup
    rw [Multiset.nodup_add, Multiset.nodup_add, Multiset.nodup_add] at this
    exact this.1.2.1.1
  refine own_inj (a := pte2pa (t.pte v)) hnd (mem_range.mpr hv) (mem_range.mpr hw) ?_ ?_
  · exact if_pos (h.valid v hv0)
  · rw [he]
    exact if_pos (h.valid w hw0)

theorem Holds.write {v off : Nat} {bs : List Nat} (h : Holds k t.pte sz bytes)
    (hsp : Space L k t rest) (hfull : ∀ w < npages sz, t.pte w ≠ 0) (hsz : npages sz ≤ UPAGES)
    (hv : v < npages sz) (hoff : off + bs.length ≤ PGSIZE) (hbs : ∀ b ∈ bs, b < 256) :
    Holds (k.setPage (pte2pa (t.pte v)) ((k.mem (pte2pa (t.pte v))).setBytes off bs)) t.pte sz
      (put bytes (v * PGSIZE + off) bs) := by
  have hout : ∀ va, va / PGSIZE ≠ v → put bytes (v * PGSIZE + off) bs va = bytes va := by
    refine fun va hw => put_outside ?_
    simp only [PGSIZE] at *
    omega
  refine ⟨fun va hva => ?_, fun va hva => by rw [hout va (by omega), h.zero va hva]⟩
  by_cases hw : va / PGSIZE = v
  · have hread := h.read va hva
    obtain ⟨x, rfl⟩ : ∃ x, va = v * PGSIZE + x := ⟨va % PGSIZE, by rw [← hw, Nat.div_add_mod']⟩
    have hx : (v * PGSIZE + x) % PGSIZE = x := by simp only [PGSIZE] at *; omega
    rw [userByte, hw, hx] at hread
    rw [userByte, hw, hx, put_add, Kmem.setPage_same, Page.byte_setBytes hbs]
    exact put_congr hread
  · have hne : pte2pa (t.pte (va / PGSIZE)) ≠ pte2pa (t.pte v) := fun he =>
      hw (hsp.page_inj (by omega) (by omega) (hfull _ hva) (hfull v hv) he)
    rw [hout va hw, ← h.read va hva, userByte, userByte, Kmem.setPage_of_ne hne]

end Xv6.Vm
