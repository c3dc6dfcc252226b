import Mathlib.Algebra.Ring.Nat
import Mathlib.Data.List.Basic

/-! Saturating arithmetic on 32-bit words, read through `toNat`. -/

namespace PureSsh.Lib

def satAdd (a b : UInt32) : UInt32 := UInt32.ofNat (min (a.toNat+b.toNat) (2^32-1))
def satSub (a b : UInt32) : UInt32 := UInt32.ofNat (a.toNat-b.toNat)
def satMul (a b : UInt32) : UInt32 := UInt32.ofNat (min (a.toNat*b.toNat) (2^32-1))

theorem toNat_ofNat_of_lt {n : Nat} (h : n<2^32) : (UInt32.ofNat n).toNat=n := by
  rw [UInt32.toNat_ofNat']
  exact Nat.mod_eq_of_lt h

@[simp] theorem satAdd_toNat (a b : UInt32) : (satAdd a b).toNat=min (a.toNat+b.toNat) (2^32-1) :=
  toNat_ofNat_of_lt (by omega)

theorem satAdd_toNat_of_lt {a b : UInt32} (h : a.toNat+b.toNat<2^32) :
    (satAdd a b).toNat=a.toNat+b.toNat := by
  rw [satAdd_toNat]
  omega

@[simp] theorem satSub_toNat (a b : UInt32) : (satSub a b).toNat=a.toNat-b.toNat := by
  have ha := a.toNat_lt
  exact toNat_ofNat_of_lt (by omega)

end PureSsh.Lib
