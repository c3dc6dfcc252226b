import Mathlib.Algebra.Ring.Nat
import Mathlib.Data.List.Basic

/-! Byte strings: text constants, big-endian words and the decoding of UTF-8. -/

namespace PureSsh.Lib
open List

abbrev Bytes := List UInt8

/- The bytes of a text constant whose characters all lie below U+0080. -/
def ascii (s : String) : Bytes := s.toList.map fun c => UInt8.ofNat c.toNat

def be32 (v : UInt32) : Bytes :=
  [UInt8.ofNat (v.toNat/2^24),UInt8.ofNat (v.toNat/2^16),
   UInt8.ofNat (v.toNat/2^8),UInt8.ofNat v.toNat]

def ofBe32 (a b c d : UInt8) : UInt32 :=
  UInt32.ofNat (a.toNat*2^24+b.toNat*2^16+c.toNat*2^8+d.toNat)

@[simp] theorem be32_length (v : UInt32) : (be32 v).length=4 := rfl

theorem ofBe32_toNat (a b c d : UInt8) : (ofBe32 a b c d).toNat =
      a.toNat*2^24+b.toNat*2^16+c.toNat*2^8+d.toNat := by
  have ha := a.toNat_lt
  have hb := b.toNat_lt
  have hc := c.toNat_lt
  have hd := d.toNat_lt
  rw [ofBe32,UInt32.toNat_ofNat']
  omega

theorem ofBe32_be32 (v : UInt32) : ofBe32 (UInt8.ofNat (v.toNat/2^24)) (UInt8.ofNat (v.toNat/2^16))
      (UInt8.ofNat (v.toNat/2^8)) (UInt8.ofNat v.toNat)=v := by
  have hv := v.toNat_lt
  apply UInt32.toNat_inj.1
  rw [ofBe32_toNat]
  simp only [UInt8.toNat_ofNat']
  omega

theorem be32_ofBe32 (a b c d : UInt8) : be32 (ofBe32 a b c d)=[a,b,c,d] := by
  have hb := b.toNat_lt
  have hc := c.toNat_lt
  have hd := d.toNat_lt
  have hbyte : ∀ (x : UInt8) (n : Nat), n%256=x.toNat → UInt8.ofNat n=x := by
    intro x n hn
    apply UInt8.toNat_inj.1
    rw [UInt8.toNat_ofNat']
    exact hn
  have ha := a.toNat_lt
  rw [be32,ofBe32_toNat,hbyte a _ (by omega),hbyte b _ (by omega),hbyte c _ (by omega),
    hbyte d _ (by omega)]

def be64 (v : UInt64) : Bytes :=
  be32 (UInt32.ofNat (v.toNat/2^32))++be32 (UInt32.ofNat v.toNat)

def ofBe64 (a b c d e f g h : UInt8) : UInt64 :=
  UInt64.ofNat ((ofBe32 a b c d).toNat*2^32+(ofBe32 e f g h).toNat)

@[simp] theorem be64_length (v : UInt64) : (be64 v).length=8 := rfl

theorem ofBe64_be64 {v : UInt64} {a b c d e f g h : UInt8} (hv : be64 v=[a,b,c,d,e,f,g,h]) :
    ofBe64 a b c d e f g h=v := by
  have hlt := v.toNat_lt
  simp only [be64,be32,cons_append,nil_append,cons.injEq] at hv
  obtain ⟨rfl,rfl,rfl,rfl,rfl,rfl,rfl,rfl,-⟩ := hv
  rw [ofBe64,ofBe32_be32,ofBe32_be32,UInt32.toNat_ofNat',UInt32.toNat_ofNat']
  apply UInt64.toNat_inj.1
  rw [UInt64.toNat_ofNat']
  omega

/- What the first byte of a UTF-8 sequence announces: a whole character, an ill-formed
   sequence, or `k` more bytes of which the next lies in `lo..hi`. -/
inductive Utf8Lead where
  | char (c : Nat)
  | bad
  | more (k lo hi acc : Nat)

def utf8Lead (b : UInt8) : Utf8Lead :=
  let n := b.toNat
  if n<0x80 then .char n
  else if n<0xC2 then .bad
  else if n<0xE0 then .more 1 0x80 0xBF (n%32)
  else if n<0xF0 then
    .more 2 (if n=0xE0 then 0xA0 else 0x80) (if n=0xED then 0x9F else 0xBF) (n%16)
  else if n<0xF5 then
    .more 3 (if n=0xF0 then 0x90 else 0x80) (if n=0xF4 then 0x8F else 0xBF) (n%8)
  else .bad

/- The units of a byte string: a code point, or `none` for each maximal ill-formed part.
   The state holds what an unfinished sequence still expects. -/
def utf8Scan : Option (Nat × Nat × Nat × Nat) → Bytes → List (Option Nat)
  | none, [] => []
  | some _, [] => [none]
  | none, b::bs => match utf8Lead b with
    | .char c => some c::utf8Scan none bs
    | .bad => none::utf8Scan none bs
    | .more k lo hi acc => utf8Scan (some (k,lo,hi,acc)) bs
  | some (k,lo,hi,acc), b::bs =>
    if lo≤b.toNat ∧ b.toNat≤hi then
      if k=1 then some (acc*64+b.toNat%64)::utf8Scan none bs
      else utf8Scan (some (k-1,0x80,0xBF,acc*64+b.toNat%64)) bs
    else match utf8Lead b with
      | .char c => none::some c::utf8Scan none bs
      | .bad => none::none::utf8Scan none bs
      | .more k lo hi acc => none::utf8Scan (some (k,lo,hi,acc)) bs

def validUtf8 (bs : Bytes) : Bool := (utf8Scan none bs).all Option.isSome

/- The characters of a byte string, with U+FFFD for each ill-formed part. -/
def utf8Lossy (bs : Bytes) : List Nat := (utf8Scan none bs).map (Option.getD · 0xFFFD)

/-- The pieces between separators have none. -/
theorem forall_of_mem_splitOnP {α : Type} {p : α → Bool} {l part : List α}
    (h : part∈l.splitOnP p) : ∀ x∈part, p x=false := by
  induction l generalizing part with
  | nil =>
    rw [splitOnP_nil,mem_singleton] at h
    rw [h]
    exact fun x hx => absurd hx not_mem_nil
  | cons a l ih =>
    rw [splitOnP_cons_eq_if_modifyHead] at h
    cases hsplit : l.splitOnP p with
    | nil => exact absurd hsplit (splitOnP_ne_nil _ _)
    | cons first rest =>
      rw [hsplit] at ih h
      split at h
      · rcases mem_cons.1 h with rfl | h
        · exact fun x hx => absurd hx not_mem_nil
        · exact ih h
      · next ha =>
        rw [modifyHead_cons,mem_cons] at h
        rcases h with rfl | h
        · exact forall_mem_cons.2 ⟨Bool.eq_false_iff.2 ha,ih mem_cons_self⟩
        · exact ih (mem_cons_of_mem first h)

theorem subset_intercalate {α : Type} {sep part : List α} {ls : List (List α)} (h : part∈ls) :
    part ⊆ sep.intercalate ls := by
  induction ls with
  | nil => cases h
  | cons l ls ih =>
    by_cases hne : ls=[]
    · subst hne
      rw [intercalate_singleton,mem_singleton.1 h]
      exact List.Subset.refl l
    · rw [intercalate_cons_of_ne_nil hne]
      rcases mem_cons.1 h with rfl | h
      · exact fun x hx => mem_append_left _ (mem_append_left _ hx)
      · exact fun x hx => mem_append_right _ (ih h hx)

theorem subset_of_mem_splitOn {α : Type} [BEq α] [LawfulBEq α] {sep : α} {l part : List α}
    (h : part∈l.splitOn sep) : part ⊆ l := by
  have hsub : part ⊆ [sep].intercalate (l.splitOn sep) := subset_intercalate h
  rwa [intercalate_splitOn] at hsub

theorem not_mem_of_mem_splitOn {α : Type} [BEq α] [LawfulBEq α] {sep : α} {l part : List α}
    (h : part∈l.splitOn sep) : sep∉part := by
  rw [splitOn_eq_splitOnP] at h
  intro hmem
  have := forall_of_mem_splitOnP h sep hmem
  simp at this

theorem validUtf8_append {a : Bytes} (h : ∀ b∈a, b.toNat<0x80) (bs : Bytes) :
    validUtf8 (a++bs)=validUtf8 bs := by
  induction a with
  | nil => rfl
  | cons b a ih =>
    have hlead : utf8Lead b = .char b.toNat := by
      simp only [utf8Lead,if_pos (h b mem_cons_self)]
    rw [← ih fun c hc => h c (mem_cons_of_mem b hc),cons_append,validUtf8,utf8Scan,hlead]
    rfl

example : validUtf8 [0xC0,0x80]=false ∧ validUtf8 [0xED,0xA0,0x80]=false ∧
    validUtf8 [0xF0,0x9F,0x98,0x80]=true ∧
    utf8Lossy [0x41,0xE2,0x82,0x42]=[0x41,0xFFFD,0x42] := by decide

end PureSsh.Lib
