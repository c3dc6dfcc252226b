import PureSsh.Lib.Bytes

/-! Text as a list of characters, with the operations of Rust's `str`. -/

namespace PureSsh.Lib
open List

abbrev Text := List Char

variable {acc hi k lo : Nat} {b : UInt8}

theorem utf8Scan_lead (h : utf8Lead b = .more k lo hi acc) (bs : Bytes) :
    utf8Scan none (b::bs)=utf8Scan (some (k,lo,hi,acc)) bs := by
  rw [utf8Scan,h]

theorem utf8Scan_last (h : lo≤b.toNat ∧ b.toNat≤hi) (bs : Bytes) :
    utf8Scan (some (1,lo,hi,acc)) (b::bs)=some (acc*64+b.toNat%64)::utf8Scan none bs := by
  rw [utf8Scan,if_pos h,if_pos rfl]

theorem utf8Scan_next (hk : k≠1) (h : lo≤b.toNat ∧ b.toNat≤hi) (bs : Bytes) :
    utf8Scan (some (k,lo,hi,acc)) (b::bs) =
      utf8Scan (some (k-1,0x80,0xBF,acc*64+b.toNat%64)) bs := by
  rw [utf8Scan,if_pos h,if_neg hk]

theorem utf8Scan_encodeChar (c : Char) (bs : Bytes) :
    utf8Scan none (String.utf8EncodeChar c++bs)=some c.toNat::utf8Scan none bs := by
  have hvalid : c.val.toNat<0xD800 ∨ 0xDFFF<c.val.toNat ∧ c.val.toNat<0x110000 := c.valid
  have hbyte : ∀ n<256, (UInt8.ofNat n).toNat=n := fun n hn => by
    rw [UInt8.toNat_ofNat',Nat.mod_eq_of_lt hn]
  simp only [String.utf8EncodeChar,Char.toNat]
  generalize c.val.toNat=v at *
  split
  · next h1 =>
    simp only [cons_append,nil_append,utf8Scan,utf8Lead,hbyte v (by omega),
      if_pos (show v<0x80 by omega)]
  split
  · next h1 h2 =>
    have hlead : utf8Lead (UInt8.ofNat (v/64%32+192)) = .more 1 0x80 0xBF ((v/64%32+192)%32) := by
      simp only [utf8Lead,hbyte (v/64%32+192) (by omega)]
      rw [if_neg (by omega),if_neg (by omega),if_pos (by omega)]
    have hb := hbyte (v%64+128) (by omega)
    rw [cons_append,cons_append,nil_append,utf8Scan_lead hlead,utf8Scan_last (by omega),hb]
    congr 2
    omega
  split
  · next h1 h2 h3 =>
    have hlead : utf8Lead (UInt8.ofNat (v/4096%16+224)) =
        .more 2 (if v/4096%16+224=0xE0 then 0xA0 else 0x80)
          (if v/4096%16+224=0xED then 0x9F else 0xBF) ((v/4096%16+224)%16) := by
      simp only [utf8Lead,hbyte (v/4096%16+224) (by omega)]
      rw [if_neg (by omega),if_neg (by omega),if_neg (by omega),if_pos (by omega)]
    have hb := hbyte (v/64%64+128) (by omega)
    have hc := hbyte (v%64+128) (by omega)
    rw [cons_append,cons_append,cons_append,nil_append,
      utf8Scan_lead hlead,utf8Scan_next (by decide) (by constructor <;> split <;> omega),
      utf8Scan_last (by omega),hb,hc]
    congr 2
    omega
  · next h1 h2 h3 =>
    have hlead : utf8Lead (UInt8.ofNat (v/262144%8+240)) =
        .more 3 (if v/262144%8+240=0xF0 then 0x90 else 0x80)
          (if v/262144%8+240=0xF4 then 0x8F else 0xBF) ((v/262144%8+240)%8) := by
      simp only [utf8Lead,hbyte (v/262144%8+240) (by omega)]
      rw [if_neg (by omega),if_neg (by omega),if_neg (by omega),if_neg (by omega),if_pos (by omega)]
    have hb := hbyte (v/4096%64+128) (by omega)
    have hc := hbyte (v/64%64+128) (by omega)
    have hd := hbyte (v%64+128) (by omega)
    rw [cons_append,cons_append,cons_append,cons_append,nil_append,
      utf8Scan_lead hlead,utf8Scan_next (by decide) (by constructor <;> split <;> omega),
      utf8Scan_next (by decide) (by omega),utf8Scan_last (by omega),hb,hc,hd]
    congr 2
    omega

namespace Text

/-- The `White_Space` property. -/
def isWhitespace (c : Char) : Bool :=
  let n := c.toNat
  (9≤n && n≤13) || n==0x20 || n==0x85 || n==0xA0 || n==0x1680 ||
    (0x2000≤n && n≤0x200A) || n==0x2028 || n==0x2029 || n==0x202F || n==0x205F ||
    n==0x3000

/-- The general category `Cc`. -/
def isControl (c : Char) : Bool := c.toNat<0x20 || (0x7F≤c.toNat && c.toNat≤0x9F)

def bytes (t : Text) : Bytes := t.flatMap String.utf8EncodeChar

/- `len` -/
def byteLen (t : Text) : Nat := t.bytes.length

/- `String::from_utf8_lossy` -/
def ofUtf8Lossy (bs : Bytes) : Text := (utf8Lossy bs).map Char.ofNat

/- `str::from_utf8` -/
def ofUtf8 (bs : Bytes) : Option Text := if validUtf8 bs then some (ofUtf8Lossy bs) else none

def trim (t : Text) : Text :=
  ((t.dropWhile isWhitespace).reverse.dropWhile isWhitespace).reverse

/- `split_whitespace` -/
def words (t : Text) : List Text := (t.splitOnP isWhitespace).filter (· ≠ [])

/- `join` -/
def join (sep : Text) : List Text → Text
  | [] => []
  | [t] => t
  | t::ts => t++sep++join sep ts

/- What stands before and after the first `c`. -/
def splitFirst (c : Char) : Text → Option (Text × Text)
  | [] => none
  | x::t => if x=c then some ([],t) else (splitFirst c t).map fun p => (x::p.1,p.2)

/- What stands before and after the last `c`. -/
def splitLast (c : Char) : Text → Option (Text × Text)
  | [] => none
  | x::t => match splitLast c t with
    | some (a,b) => some (x::a,b)
    | none => if x=c then some ([],t) else none

/- `to_ascii_lowercase` -/
def lower (t : Text) : Text := t.map Char.toLower

/- `eq_ignore_ascii_case` -/
def sameAsciiCase (a b : Text) : Bool := a.map Char.toLower==b.map Char.toLower

def decimal (n : UInt16) : Text := Nat.toDigits 10 n.toNat

/- `parse::<u16>`, which takes a leading plus sign. -/
def parseU16 (t : Text) : Option UInt16 :=
  let digits := if t.head?=some '+' then t.tail else t
  if digits≠[] ∧ digits.all Char.isDigit ∧ Nat.ofDigitChars 10 digits 0<2^16 then
    some (UInt16.ofNat (Nat.ofDigitChars 10 digits 0))
  else none

theorem bytes_injective : Function.Injective bytes := by
  intro a b h
  have henc : a.utf8Encode=b.utf8Encode := congrArg toByteArray h
  have hdec := congrArg ByteArray.utf8Decode? henc
  rw [utf8Decode?_utf8Encode,utf8Decode?_utf8Encode] at hdec
  simpa using hdec

variable {a b t : Text} {c : Char} {n : UInt16}

@[simp] theorem bytes_inj : a.bytes=b.bytes ↔ a=b := bytes_injective.eq_iff

theorem utf8Scan_bytes (t : Text) : utf8Scan none t.bytes=t.map fun c => some c.toNat := by
  induction t with
  | nil => rfl
  | cons c t ih => rw [bytes,flatMap_cons,utf8Scan_encodeChar,map_cons,← ih]; rfl

theorem ofUtf8Lossy_bytes (t : Text) : ofUtf8Lossy t.bytes=t := by
  rw [ofUtf8Lossy,utf8Lossy,utf8Scan_bytes,map_map,map_map]
  conv_rhs => rw [← map_id t]
  exact map_congr_left fun c _ => Char.ofNat_toNat c

theorem ofUtf8_bytes (t : Text) : ofUtf8 t.bytes=some t := by
  rw [ofUtf8,if_pos,ofUtf8Lossy_bytes]
  simp [validUtf8,utf8Scan_bytes]

theorem splitLast_eq_none : splitLast c t=none ↔ c∉t := by
  induction t with
  | nil => simp [splitLast]
  | cons x t ih =>
    rw [splitLast]
    cases hs : splitLast c t with
    | some p =>
      have hmem : c∈t := by
        by_contra hc
        simp [ih.2 hc] at hs
      simp [hmem]
    | none =>
      have hmem := ih.1 hs
      by_cases hx : x=c
      · simp [hx]
      · simp [hx,hmem,Ne.symm hx]

theorem splitLast_append (h : c∉b) (a : Text) : splitLast c (a++c::b)=some (a,b) := by
  induction a with
  | nil => simp [splitLast,splitLast_eq_none.2 h]
  | cons x a ih => simp [splitLast,ih]

theorem splitLast_eq_some (h : splitLast c t=some (a,b)) : t=a++c::b ∧ c∉b := by
  induction t generalizing a with
  | nil => cases h
  | cons x t ih =>
    rw [splitLast] at h
    cases hs : splitLast c t with
    | some p =>
      simp only [hs,Option.some.injEq,Prod.mk.injEq] at h
      obtain ⟨rfl,rfl⟩ := h
      obtain ⟨rfl,hb⟩ := ih hs
      exact ⟨rfl,hb⟩
    | none =>
      simp only [hs] at h
      split at h
      · next hx =>
        cases h
        exact ⟨by rw [hx]; rfl,splitLast_eq_none.1 hs⟩
      · cases h

theorem splitFirst_append (h : c∉a) (b : Text) : splitFirst c (a++c::b)=some (a,b) := by
  induction a with
  | nil => simp [splitFirst]
  | cons x a ih =>
    rw [mem_cons,not_or] at h
    simp [splitFirst,Ne.symm h.1,ih h.2]

theorem splitFirst_eq_some (h : splitFirst c t=some (a,b)) : t=a++c::b ∧ c∉a := by
  induction t generalizing a with
  | nil => cases h
  | cons x t ih =>
    rw [splitFirst] at h
    split at h
    · next hx =>
      cases h
      exact ⟨by rw [hx]; rfl,not_mem_nil⟩
    · next hx =>
      cases hs : splitFirst c t with
      | none => simp [hs] at h
      | some p =>
        simp only [hs,Option.map_some,Option.some.injEq,Prod.mk.injEq] at h
        obtain ⟨rfl,rfl⟩ := h
        obtain ⟨rfl,hp⟩ := ih hs
        refine ⟨rfl,?_⟩
        rw [mem_cons,not_or]
        exact ⟨Ne.symm hx,hp⟩

theorem isDigit_of_mem_decimal (h : c∈decimal n) : c.isDigit :=
  Nat.isDigit_of_mem_toDigits (by decide) (by decide) h

theorem not_mem_decimal (h : c.isDigit=false) : c∉decimal n := by
  intro hc
  rw [isDigit_of_mem_decimal hc] at h
  cases h

theorem parseU16_decimal (n : UInt16) : parseU16 (decimal n)=some n := by
  have hhead : (decimal n).head?≠some '+' := by
    intro h
    exact not_mem_decimal (c := '+') rfl (mem_of_mem_head? (by rw [h]; rfl))
  have hvalue : Nat.ofDigitChars 10 (decimal n) 0=n.toNat := Nat.ofDigitChars_ten_toDigits
  have hdigits : (decimal n).all Char.isDigit=true := by
    rw [all_eq_true]
    exact fun c hc => isDigit_of_mem_decimal hc
  have hlt : Nat.ofDigitChars 10 (decimal n) 0<2^16 := hvalue ▸ n.toNat_lt
  simp only [parseU16,if_neg hhead]
  rw [if_pos ⟨Nat.toDigits_ne_nil,hdigits,hlt⟩,hvalue,UInt16.ofNat_toNat]

theorem decimal_injective : Function.Injective decimal := by
  intro a b h
  have := congrArg parseU16 h
  rwa [parseU16_decimal,parseU16_decimal,Option.some.injEq] at this

theorem sameAsciiCase_refl (a : Text) : sameAsciiCase a a=true := beq_self_eq_true _

theorem sameAsciiCase_comm : sameAsciiCase a b=true ↔ sameAsciiCase b a=true := by
  rw [sameAsciiCase,sameAsciiCase,beq_iff_eq,beq_iff_eq]
  exact eq_comm

theorem sameAsciiCase_length (h : sameAsciiCase a b=true) : a.length=b.length := by
  have := congrArg length (beq_iff_eq.1 h)
  simpa using this

end Text
end PureSsh.Lib
