import Mathlib.Data.Nat.Digits.Lemmas
import PureSsh.Lib.Bytes

/-! Numbers as text, in a radix of at most ten. -/

namespace PureSsh.Lib.Numeral
open List

def digit (d : Nat) : UInt8 := UInt8.ofNat (48+d)

def print (radix n : Nat) : Bytes :=
  if n=0 then [digit 0] else ((Nat.digits radix n).map digit).reverse

def value (radix : Nat) (b : UInt8) : Option Nat :=
  if 48≤b.toNat ∧ b.toNat<48+radix then some (b.toNat-48) else none

def scan (radix : Nat) : Bytes → Nat → Option Nat
  | [], acc => some acc
  | b::bs, acc => (value radix b).bind fun d => scan radix bs (acc*radix+d)

/- `from_str_radix` without a sign. -/
def parseDigits (radix bound : Nat) (s : Bytes) : Option Nat :=
  if s=[] then none else (scan radix s 0).filter (· < bound)

/- Of an unsigned type: one `+` is allowed. -/
def parse (radix bound : Nat) : Bytes → Option Nat
  | 43::s => parseDigits radix bound s
  | s => parseDigits radix bound s

/- Of a signed type with values from `-bound`. -/
def parseInt (bound : Nat) : Bytes → Option Int
  | 45::s => (parseDigits 10 (bound+1) s).map fun n : Nat => -(n : Int)
  | 43::s => (parseDigits 10 bound s).map Int.ofNat
  | s => (parseDigits 10 bound s).map Int.ofNat

def printInt (n : Int) : Bytes :=
  if n<0 then 45::print 10 n.natAbs else print 10 n.natAbs

/-- Digits are not taken for a sign. -/
theorem unsigned {radix bound : Nat} {s : Bytes} (h : ∀ b∈s, 48≤b.toNat) :
    parse radix bound s=parseDigits radix bound s ∧
      parseInt bound s=(parseDigits 10 bound s).map Int.ofNat := by
  cases s with
  | nil => exact ⟨rfl,rfl⟩
  | cons b s =>
    have hb := h b mem_cons_self
    have hplus : b≠43 := by
      rintro rfl
      exact absurd hb (by decide)
    have hminus : b≠45 := by
      rintro rfl
      exact absurd hb (by decide)
    rw [parse,parseInt]
    · exact ⟨rfl,rfl⟩
    · simpa using hminus
    · simpa using hplus
    · simpa using hplus

section RoundTrip

variable {radix : Nat} (hlow : 1<radix) (hhigh : radix≤10)
include hlow hhigh

omit hlow in
theorem value_digit {d : Nat} (hd : d<radix) : value radix (digit d)=some d := by
  have hnat : (digit d).toNat=48+d := by
    rw [digit,UInt8.toNat_ofNat',Nat.mod_eq_of_lt (by omega)]
  rw [value,hnat,if_pos (by omega),Nat.add_sub_cancel_left]

omit hlow in
theorem scan_digits {ds : List Nat} (hds : ∀ d∈ds, d<radix) (rest : Bytes) (acc : Nat) :
    scan radix ((ds.map digit).reverse++rest) acc =
      scan radix rest (acc*radix^ds.length+Nat.ofDigits radix ds) := by
  induction ds generalizing rest with
  | nil => simp
  | cons d ds ih =>
    rw [map_cons,reverse_cons,append_assoc,
      ih (fun e he => hds e (mem_cons_of_mem d he)),singleton_append,scan,
      value_digit hhigh (hds d mem_cons_self),Option.bind_some,Nat.ofDigits_cons,length_cons]
    congr 1
    ring

theorem scan_print (n : Nat) (rest : Bytes) :
    scan radix (print radix n++rest) 0=scan radix rest n := by
  rw [print]
  split
  next hn =>
    rw [singleton_append,scan,value_digit hhigh (by omega),Option.bind_some,hn,Nat.zero_mul]
  next hn =>
    rw [scan_digits hhigh (fun d => Nat.digits_lt_base hlow),Nat.ofDigits_digits,Nat.zero_mul,
      Nat.zero_add]

theorem scan_zeros (k : Nat) (rest : Bytes) :
    scan radix (replicate k (digit 0)++rest) 0=scan radix rest 0 := by
  induction k with
  | zero => rfl
  | succ k ih =>
    rw [replicate_succ,cons_append,scan,value_digit hhigh (by omega),
      Option.bind_some,Nat.zero_mul,ih]

omit hlow hhigh in
theorem print_ne_nil (n : Nat) : print radix n≠[] := by
  rw [print]
  split
  · simp
  next hn => simp [Nat.digits_eq_nil_iff_eq_zero,hn]

theorem mem_print {n : Nat} {b : UInt8} (h : b∈print radix n) : 48≤b.toNat ∧ b.toNat<58 := by
  have hdigit (d : Nat) (hd : d<radix) : 48≤(digit d).toNat ∧ (digit d).toNat<58 := by
    rw [digit,UInt8.toNat_ofNat']
    omega
  rw [print] at h
  split at h
  · rw [mem_singleton.1 h]
    exact hdigit 0 (by omega)
  · obtain ⟨d,hd,rfl⟩ := mem_map.1 (mem_reverse.1 h)
    exact hdigit d (Nat.digits_lt_base hlow hd)

omit hhigh in
theorem length_print {n k : Nat} (hk : 0<k) (hn : n<radix^k) : (print radix n).length≤k := by
  rw [print]
  split
  · exact hk
  · rw [length_reverse,length_map]
    exact (Nat.digits_length_le_iff hlow n).2 hn

theorem parseDigits_print {n bound : Nat} (hn : n<bound) (k : Nat) :
    parseDigits radix bound (replicate k (digit 0)++print radix n)=some n := by
  have hne : replicate k (digit 0)++print radix n≠[] :=
    append_ne_nil_of_right_ne_nil _ (print_ne_nil n)
  have hscan := scan_print hlow hhigh n []
  rw [append_nil] at hscan
  rw [parseDigits,if_neg hne,scan_zeros hlow hhigh,hscan,scan]
  simpa using hn

theorem parse_print {n bound : Nat} (hn : n<bound) (k : Nat) :
    parse radix bound (replicate k (digit 0)++print radix n)=some n := by
  rw [← parseDigits_print hlow hhigh hn k]
  refine (unsigned fun b hb => ?_).1
  rcases mem_append.1 hb with hb | hb
  · rw [eq_of_mem_replicate hb]
    decide
  · exact (mem_print hlow hhigh hb).1

end RoundTrip

theorem parseInt_printInt {n : Int} {bound : Nat} (hlow : -(bound : Int)≤n) (hhigh : n<bound) :
    parseInt bound (printInt n)=some n := by
  rw [printInt]
  split
  next hn =>
    have hback : parseDigits 10 (bound+1) (print 10 n.natAbs)=some n.natAbs :=
      parseDigits_print (by decide) (by decide) (by omega) 0
    rw [parseInt,hback,Option.map_some]
    congr 1
    omega
  next hn =>
    have hback : parseDigits 10 bound (print 10 n.natAbs)=some n.natAbs :=
      parseDigits_print (by decide) (by decide) (by omega) 0
    have hsign : ∀ b∈print 10 n.natAbs, 48≤b.toNat :=
      fun b hb => (mem_print (by decide) (by decide) hb).1
    rw [(@unsigned 10 bound _ hsign).2,hback,Option.map_some]
    congr 1
    exact Int.natAbs_of_nonneg (by omega)

end PureSsh.Lib.Numeral
