import PureSsh.Format
import PureSsh.Lib.Lines

/-! The base64 codec of `key/base64.rs`. -/

namespace PureSsh.Base64
open Lib List Text

/- The alphabet, for values below 64. -/
def symbol (v : Nat) : Char :=
  if v<26 then Char.ofNat (65+v)
  else if v<52 then Char.ofNat (71+v)
  else if v<62 then Char.ofNat (v-4)
  else if v=62 then '+'
  else '/'

inductive Symbol where
  | blank | invalid | padding
  | value (v : Nat)
  deriving DecidableEq, Repr

def classify (c : UInt8) : Symbol :=
  let n := c.toNat
  if n=32 ∨ n=13 ∨ n=10 ∨ n=9 then .blank
  else if 65≤n ∧ n≤90 then .value (n-65)
  else if 97≤n ∧ n≤122 then .value (n-71)
  else if 48≤n ∧ n≤57 then .value (n+4)
  else if n=43 then .value 62
  else if n=47 then .value 63
  else if n=61 then .padding
  else .invalid

/- The three bytes of a group of four values. -/
def byte₁ (a b : Nat) : UInt8 := UInt8.ofNat (a*4+b/16)
def byte₂ (b c : Nat) : UInt8 := UInt8.ofNat (b%16*16+c/4)
def byte₃ (c d : Nat) : UInt8 := UInt8.ofNat (c%4*64+d)

/- The input ended inside a group. -/
def finish (out : Bytes) : List Nat → Result Bytes
  | [] => .ok out
  | [a,b] => .ok (out++[byte₁ a b])
  | [a,b,c] => .ok (out++[byte₁ a b,byte₂ b c])
  | _ => .error (.format "base64: truncated group")

/- `group` holds the values of the current group, `padding` counts its padding. A group with padding
   is the last one: what follows it is not looked at. -/
def decodeFrom (out : Bytes) (group : List Nat) (padding : Nat) : Bytes → Result Bytes
  | [] => finish out group
  | c::input =>
    let push (v padding : Nat) : Result Bytes :=
      match group with
      | [a,b,d] =>
        let out := out++[byte₁ a b]++(if padding<2 then [byte₂ b d] else []) ++
          if padding<1 then [byte₃ d v] else []
        if padding≠0 then .ok out else decodeFrom out [] padding input
      | _ => decodeFrom out (group++[v]) padding input
    match classify c with
    | .blank => decodeFrom out group padding input
    | .invalid => .error (.format "base64: invalid character")
    | .padding =>
      if padding+1>2 then .error (.format "base64: too much padding") else push 0 (padding+1)
    | .value v =>
      if padding≠0 then .error (.format "base64: data after padding") else push v padding

def decode (input : Bytes) : Result Bytes := decodeFrom [] [] 0 input

def encode : Bytes → Text
  | a::b::c::rest =>
    [symbol (a.toNat/4),symbol (a.toNat%4*16+b.toNat/16),
      symbol (b.toNat%16*4+c.toNat/64),symbol (c.toNat%64)]++encode rest
  | [a,b] =>
    [symbol (a.toNat/4),symbol (a.toNat%4*16+b.toNat/16),symbol (b.toNat%16*4),'=']
  | [a] => [symbol (a.toNat/4),symbol (a.toNat%4*16),'=','=']
  | [] => []

/- The byte of a symbol. -/
def code (v : Nat) : UInt8 := UInt8.ofNat (symbol v).toNat

/- The values of the symbols that encode a byte string. -/
def sextets : Bytes → List Nat
  | a::b::c::rest =>
    a.toNat/4::(a.toNat%4*16+b.toNat/16)::(b.toNat%16*4+c.toNat/64)::c.toNat%64::sextets rest
  | [a,b] => [a.toNat/4,a.toNat%4*16+b.toNat/16,b.toNat%16*4]
  | [a] => [a.toNat/4,a.toNat%4*16]
  | [] => []

/- The whole bytes of a row of values. -/
def pack : List Nat → Bytes
  | a::b::c::d::vs => byte₁ a b::byte₂ b c::byte₃ c d::pack vs
  | [a,b,c] => [byte₁ a b,byte₂ b c]
  | [a,b] => [byte₁ a b]
  | [_] => []
  | [] => []

/- How much padding completes the last group of `n` symbols. -/
def missing (n : Nat) : Nat := (4-n%4)%4

/- Every symbol is one byte, read back as its value. -/
theorem symbol_spec : ∀ v<64, String.utf8EncodeChar (symbol v)=[code v] ∧
    classify (code v) = .value v ∧ symbol v∉['|','-','='] ∧ isWhitespace (symbol v)=false := by
  decide

variable {v m : Nat} {out bs : Bytes} {x : Char} {vs : List Nat}

theorem decodeFrom_code {group : List Nat} (hv : v<64) (hgroup : group.length<3) (rest : Bytes) :
    decodeFrom out group 0 (code v::rest)=decodeFrom out (group++[v]) 0 rest := by
  rw [decodeFrom,(symbol_spec v hv).2.1]
  match group, hgroup with
  | [], _ => rfl
  | [_], _ => rfl
  | [_,_], _ => rfl

theorem decodeFrom_last_code {a b c : Nat} (hv : v<64) (rest : Bytes) :
    decodeFrom out [a,b,c] 0 (code v::rest) =
      decodeFrom (out++[byte₁ a b,byte₂ b c,byte₃ c v]) [] 0 rest := by
  rw [decodeFrom,(symbol_spec v hv).2.1]
  simp

/-- Symbols alone, or with the padding that completes them, decode to the bytes they hold. -/
theorem decodeFrom_codes (hvs : ∀ v∈vs, v<64) {k : Nat} (hk : k=0 ∨ k=missing vs.length)
    (out : Bytes) : (vs.length%4=1 ∧
      ∃ e, decodeFrom out [] 0 (vs.map code++replicate k 61) = .error e) ∨ vs.length%4≠1 ∧
      decodeFrom out [] 0 (vs.map code++replicate k 61) = .ok (out++pack vs) := by
  have hpad : classify 61 = .padding := by decide
  fun_induction pack vs generalizing out with
  | case1 a b c d vs ih =>
    simp only [mem_cons,forall_eq_or_imp] at hvs
    obtain ⟨ha,hb,hc,hd,hvs⟩ := hvs
    have hmod : (a::b::c::d::vs).length%4=vs.length%4 := by
      simp only [length_cons]
      omega
    rw [missing,hmod] at hk
    simp only [hmod,map_cons,cons_append]
    rw [decodeFrom_code ha (by decide),decodeFrom_code hb (by simp),decodeFrom_code hc (by simp)]
    simp only [nil_append,cons_append]
    rw [decodeFrom_last_code hd]
    simpa using ih hvs hk (out++[byte₁ a b,byte₂ b c,byte₃ c d])
  | case2 a b c =>
    simp only [mem_cons,forall_eq_or_imp,not_mem_nil,false_implies,implies_true,and_true] at hvs
    obtain ⟨ha,hb,hc⟩ := hvs
    simp only [map_cons,cons_append]
    rw [decodeFrom_code ha (by decide),decodeFrom_code hb (by simp),decodeFrom_code hc (by simp)]
    obtain rfl | rfl := hk <;> simp [missing,decodeFrom,finish,hpad]
  | case3 a b =>
    simp only [mem_cons,forall_eq_or_imp,not_mem_nil,false_implies,implies_true,and_true] at hvs
    simp only [map_cons,cons_append]
    rw [decodeFrom_code hvs.1 (by decide),decodeFrom_code hvs.2 (by simp)]
    obtain rfl | rfl := hk <;> simp [missing,decodeFrom,finish,hpad]
  | case4 a =>
    rw [map_cons,cons_append,decodeFrom_code (hvs a (by simp)) (by decide)]
    obtain rfl | rfl := hk <;> simp [missing,decodeFrom,finish,hpad]
  | case5 => obtain rfl | rfl := hk <;> exact .inr ⟨by simp,by simp [missing,decodeFrom,finish]⟩

theorem byte₁_group (a : UInt8) (hm : m<16) : byte₁ (a.toNat/4) (a.toNat%4*16+m)=a := by
  have ha := a.toNat_lt
  rw [byte₁,UInt8.ofNat_eq_iff_mod_eq_toNat]
  omega

theorem byte₂_group (a b : UInt8) (hm : m<4) :
    byte₂ (a.toNat%4*16+b.toNat/16) (b.toNat%16*4+m)=b := by
  have hb := b.toNat_lt
  rw [byte₂,UInt8.ofNat_eq_iff_mod_eq_toNat]
  omega

theorem byte₃_group (b c : UInt8) : byte₃ (b.toNat%16*4+c.toNat/64) (c.toNat%64)=c := by
  have hc := c.toNat_lt
  rw [byte₃,UInt8.ofNat_eq_iff_mod_eq_toNat]
  omega

/-- The encoding is a row of symbols, completed by padding, that holds the bytes. -/
theorem encode_eq (bs : Bytes) : (∀ v∈sextets bs, v<64) ∧ (sextets bs).length%4≠1 ∧
    pack (sextets bs)=bs ∧
    encode bs=(sextets bs).map symbol++replicate (missing (sextets bs).length) '=' := by
  fun_induction encode bs with
  | case1 a b c rest ih =>
    obtain ⟨hlt,hlen,hpack,hencode⟩ := ih
    have ha := a.toNat_lt
    have hb := b.toNat_lt
    have hc := c.toNat_lt
    have hmod : (sextets (a::b::c::rest)).length%4=(sextets rest).length%4 := by
      simp only [sextets,length_cons]
      omega
    rw [missing,hmod]
    refine ⟨?_,hlen,?_,?_⟩
    · simp only [sextets,mem_cons,forall_eq_or_imp]
      exact ⟨by omega,by omega,by omega,by omega,hlt⟩
    · simp only [sextets,pack,byte₁_group a (show b.toNat/16<16 by omega),
        byte₂_group a b (show c.toNat/64<4 by omega),byte₃_group,hpack]
    · rw [hencode]
      rfl
  | case2 a b =>
    have ha := a.toNat_lt
    have hb := b.toNat_lt
    have h₂ := byte₂_group a b (m := 0) (by omega)
    rw [Nat.add_zero] at h₂
    refine ⟨?_,by simp [sextets],?_,rfl⟩
    · simp only [sextets,mem_cons,not_mem_nil,or_false]
      omega
    · simp only [sextets,pack,byte₁_group a (show b.toNat/16<16 by omega),h₂]
  | case3 a =>
    have ha := a.toNat_lt
    have h₁ := byte₁_group a (m := 0) (by omega)
    rw [Nat.add_zero] at h₁
    refine ⟨?_,by simp [sextets],?_,rfl⟩
    · simp only [sextets,mem_cons,not_mem_nil,or_false]
      omega
    · simp only [sextets,pack,h₁]
  | case4 => exact ⟨by simp [sextets],by simp [sextets],rfl,rfl⟩

theorem mem_encode (hx : x∈encode bs) : (∃ v<64, x=symbol v) ∨ x = '=' := by
  obtain ⟨hlt,-,-,hencode⟩ := encode_eq bs
  rw [hencode,mem_append] at hx
  obtain hx | hx := hx
  · obtain ⟨v,hv,rfl⟩ := mem_map.1 hx
    exact .inl ⟨v,hlt v hv,rfl⟩
  · exact .inr (eq_of_mem_replicate hx)

theorem not_mem_encode (hx : x∈['|','-']) (bs : Bytes) : x∉encode bs := by
  intro hmem
  obtain ⟨v,hv,rfl⟩ | rfl := mem_encode hmem
  · exact (symbol_spec v hv).2.2.1 (mem_of_mem_take (i := 2) hx)
  · exact absurd hx (by decide)

theorem bar_not_mem_encode (bs : Bytes) : '|' ∉ encode bs := not_mem_encode (by decide) bs

theorem dash_not_mem_encode (bs : Bytes) : '-' ∉ encode bs := not_mem_encode (by decide) bs

theorem solid_encode (hx : x∈encode bs) : isWhitespace x=false := by
  obtain ⟨v,hv,rfl⟩ | rfl := mem_encode hx
  · exact (symbol_spec v hv).2.2.2
  · decide

theorem encode_ne_nil (h : bs≠[]) : encode bs≠[] := by
  fun_cases encode bs with
  | case4 => exact absurd rfl h
  | _ => simp

theorem bytes_symbols (hvs : ∀ v∈vs, v<64) : bytes (vs.map symbol)=vs.map code := by
  induction vs with
  | nil => rfl
  | cons v vs ih =>
    obtain ⟨hv,hvs⟩ := forall_mem_cons.1 hvs
    rw [map_cons,bytes,flatMap_cons,(symbol_spec v hv).1]
    exact congrArg (code v :: ·) (ih hvs)

theorem bytes_encode (bs : Bytes) : (encode bs).bytes =
    (sextets bs).map code++replicate (missing (sextets bs).length) 61 := by
  obtain ⟨hlt,-,-,hencode⟩ := encode_eq bs
  have hpad : ∀ n, bytes (replicate n '=')=replicate n 61 := by
    intro n
    induction n with
    | zero => rfl
    | succ n ih => exact congrArg (61 :: ·) ih
  rw [hencode,bytes,flatMap_append]
  exact congrArg₂ (· ++ ·) (bytes_symbols hlt) (hpad _)

/-- Decoding takes back the symbols of an encoding, with or without their padding. -/
theorem decode_sextets (bs : Bytes) {k : Nat} (hk : k=0 ∨ k=missing (sextets bs).length) :
    decode ((sextets bs).map code++replicate k 61) = .ok bs := by
  obtain ⟨hlt,hlen,hpack,-⟩ := encode_eq bs
  obtain ⟨hone,-⟩ | ⟨-,hok⟩ := decodeFrom_codes hlt hk []
  · exact absurd hone hlen
  · rwa [hpack] at hok

theorem decode_encode (bs : Bytes) : decode (encode bs).bytes = .ok bs := by
  rw [bytes_encode]
  exact decode_sextets bs (.inr rfl)

section Blanks

def isSolid (c : UInt8) : Bool := classify c ≠ .blank

theorem decodeFrom_filter (out : Bytes) (group : List Nat) (padding : Nat) (input : Bytes) :
    decodeFrom out group padding (input.filter isSolid)=decodeFrom out group padding input := by
  induction input generalizing out group padding with
  | nil => rfl
  | cons c input ih =>
    cases hc : classify c with
    | blank =>
      rw [filter_cons_of_neg (by simp [isSolid,hc]),ih]
      simp only [decodeFrom,hc]
    | invalid | padding | value =>
      rw [filter_cons_of_pos (by simp [isSolid,hc])]
      simp only [decodeFrom,hc,ih]

theorem filter_bytes {t : Text}
    (h : ∀ c∈t, ∀ b∈String.utf8EncodeChar c, isSolid b = !isWhitespace c) :
    t.bytes.filter isSolid=bytes (t.filter (!isWhitespace ·)) := by
  induction t with
  | nil => rfl
  | cons c t ih =>
    obtain ⟨hc,ht⟩ := forall_mem_cons.1 h
    rw [bytes,flatMap_cons,filter_append]
    refine (congrArg (_ ++ ·) (ih ht)).trans ?_
    cases hblank : isWhitespace c with
    | true =>
      rw [filter_eq_nil_iff.2 (by simpa [hblank] using hc),filter_cons_of_neg (by simp [hblank])]
      rfl
    | false =>
      rw [filter_eq_self.2 (by simpa [hblank] using hc),filter_cons_of_pos (by simp [hblank])]
      rfl

/-- An encoding may be broken into lines. -/
theorem decode_wrap (bs : Bytes) (width : Nat) :
    decode (bytes ('\n' :: (encode bs).wrap width)) = .ok bs := by
  have hend : ∀ b∈String.utf8EncodeChar '\n', isSolid b = !isWhitespace '\n' := by
    decide +kernel
  have hpad : ∀ b∈String.utf8EncodeChar '=', isSolid b = !isWhitespace '=' := by
    decide +kernel
  have hclass : ∀ c ∈ '\n' :: (encode bs).wrap width, ∀ b∈String.utf8EncodeChar c,
      isSolid b = !isWhitespace c := by
    intro c hc
    obtain rfl | hc := mem_cons.1 hc
    · exact hend
    obtain hc | rfl := mem_wrapFrom hc
    · obtain ⟨v,hv,rfl⟩ | rfl := mem_encode hc
      · obtain ⟨hone,hvalue,-,hsolid⟩ := symbol_spec v hv
        simp [hone,isSolid,hvalue,hsolid]
      · exact hpad
    · exact hend
  rw [decode,← decodeFrom_filter,filter_bytes hclass,filter_cons_of_neg (by decide),
    wrap,filter_wrapFrom fun c hc => solid_encode hc]
  exact decode_encode bs

end Blanks

section Exact

/- The lowest `w` bits of a number, the highest of them first. -/
def bits (w v : Nat) : List Bool := (range w).map fun i => v.testBit (w-1-i)

/-- Symbols, with nothing behind them but the padding that completes their last group. -/
def Closed (input : Bytes) (vs : List Nat) : Prop :=
  (∀ v∈vs, v<64) ∧ (input.filter isSolid=vs.map code ∨
    input.filter isSolid=vs.map code++replicate (missing vs.length) 61)

/-- The result holds the whole bytes of the bits that the symbols stand for. -/
def Exact (input y : Bytes) : Prop :=
  ∃ vs, Closed input vs ∧ vs.length%4≠1 ∧ y.length=6*vs.length/8 ∧
    y.flatMap (fun b => bits 8 b.toNat)=(vs.flatMap (bits 6)).take (8*y.length)

theorem bits_bytes (a : Nat) {b : Nat} (hb : b<64) :
    bits 8 (byte₁ a b).toNat=bits 6 a++(bits 6 b).take 2 ∧
    bits 8 (byte₂ a b).toNat=(bits 6 a).drop 2++(bits 6 b).take 4 ∧
    bits 8 (byte₃ a b).toNat=(bits 6 a).drop 4++bits 6 b := by
  simp only [bits,byte₁,byte₂,byte₃,UInt8.toNat_ofNat',range_succ,range_zero,
    Nat.testBit_eq_decide_div_mod_eq]
  simp only [nil_append,cons_append,map_cons,map_nil,take_succ_cons,
    take_zero,drop_succ_cons,drop_zero,cons.injEq,decide_eq_decide,and_true]
  omega

theorem pack_exact (hvs : ∀ v∈vs, v<64) : (pack vs).length=6*vs.length/8 ∧
    (pack vs).flatMap (fun b => bits 8 b.toNat) =
      (vs.flatMap (bits 6)).take (8*(pack vs).length) := by
  fun_induction pack vs with
  | case1 a b c d vs ih =>
    simp only [mem_cons,forall_eq_or_imp] at hvs
    obtain ⟨-,hb,hc,hd,hvs⟩ := hvs
    obtain ⟨hlen,hbits⟩ := ih hvs
    refine ⟨by simp only [length_cons]; omega,?_⟩
    simp only [flatMap_cons,(bits_bytes a hb).1,
      (bits_bytes b hc).2.1,(bits_bytes c hd).2.2,hbits]
    rfl
  | case2 a b c =>
    simp only [mem_cons,forall_eq_or_imp] at hvs
    refine ⟨by simp,?_⟩
    simp only [flatMap_cons,(bits_bytes a hvs.2.1).1,(bits_bytes b hvs.2.2.1).2.1]
    rfl
  | case3 a b =>
    simp only [mem_cons,forall_eq_or_imp] at hvs
    refine ⟨by simp,?_⟩
    simp only [flatMap_cons,(bits_bytes a hvs.2.1).1]
    rfl
  | case4 | case5 => simp

/-- An encoding is taken back, with or without its padding and whatever blanks stand in it. What
is decoded is exact if nothing else follows the symbols. -/
theorem decode_exact_iff (input : Bytes) : (∀ bs, input.filter isSolid=(encode bs).bytes ∨
      input.filter isSolid=bytes ((encode bs).filter (· ≠ '=')) → decode input = .ok bs) ∧
    ∀ y, decode input = .ok y → (Exact input y ↔ ∃ vs, Closed input vs) := by
  constructor
  · intro bs h
    obtain ⟨hlt,-,-,hencode⟩ := encode_eq bs
    have hbare : (encode bs).filter (· ≠ '=')=(sextets bs).map symbol := by
      rw [hencode,filter_append,filter_eq_self.2,filter_eq_nil_iff.2,append_nil]
      · simp +contextual
      · intro x hx
        obtain ⟨v,hv,rfl⟩ := mem_map.1 hx
        simpa using fun h => (symbol_spec v (hlt v hv)).2.2.1 (by simp [h])
    rw [hbare,bytes_symbols hlt,bytes_encode] at h
    rw [decode,← decodeFrom_filter]
    obtain h | h := h
    · rw [h]
      exact decode_sextets bs (.inr rfl)
    · rw [h,← append_nil (map code _)]
      exact decode_sextets bs (.inl rfl)
  · intro y h
    refine ⟨fun ⟨vs,hclosed,_⟩ => ⟨vs,hclosed⟩,?_⟩
    rintro ⟨vs,hlt,hinput⟩
    obtain ⟨k,hk,hinput'⟩ : ∃ k, (k=0 ∨ k=missing vs.length) ∧
        input.filter isSolid=vs.map code++replicate k 61 := by
      obtain hinput | hinput := hinput
      · exact ⟨0,.inl rfl,by simpa using hinput⟩
      · exact ⟨_,.inr rfl,hinput⟩
    rw [decode,← decodeFrom_filter,hinput'] at h
    obtain ⟨-,e,herr⟩ | ⟨hlen,hok⟩ := decodeFrom_codes hlt hk []
    · cases h.symm.trans herr
    · cases h.symm.trans hok
      exact ⟨vs,⟨hlt,hinput⟩,hlen,pack_exact hlt⟩

/-- Two signs of padding are read as a byte, and what follows a padded group is not looked at. -/
theorem decode_takes_bare_padding : decode (ascii "==") = .ok [0] ∧ ¬Exact (ascii "==") [0] ∧
    decode (ascii "Zg==!") = .ok (ascii "f") := by
  refine ⟨by decide,?_,by decide⟩
  rintro ⟨vs,⟨hlt,hinput⟩,-⟩
  cases vs with
  | nil => revert hinput; decide
  | cons v vs =>
    have hcode : code v=61 := by
      obtain h | h := hinput <;> exact (cons.inj h).1.symm
    have hvalue := (symbol_spec v (hlt v mem_cons_self)).2.1
    rw [hcode] at hvalue
    cases hvalue

end Exact

end PureSsh.Base64
