import PureSsh.Lib.Text

/-! Well-formed UTF-8: it is what encoding gives, and ASCII bytes cut it into well-formed parts. -/

namespace PureSsh.Lib
open List Text

def Utf8Whole (us : List (Option Nat)) : Prop := us.all Option.isSome=true

variable {acc hi k lo : Nat} {bs : Bytes} {b : UInt8}

/-- Inside a sequence, a well-formed text goes on with a byte of the expected range. -/
theorem utf8Whole_more (h : Utf8Whole (utf8Scan (some (k,lo,hi,acc)) bs)) :
    ∃ b rest, bs=b::rest ∧ lo≤b.toNat ∧ b.toNat≤hi ∧ Utf8Whole (if k=1 then utf8Scan none rest
        else utf8Scan (some (k-1,0x80,0xBF,acc*64+b.toNat%64)) rest) := by
  cases bs with
  | nil => simp [Utf8Whole,utf8Scan] at h
  | cons b rest =>
    rw [utf8Scan] at h
    split at h
    · next hb =>
      refine ⟨b,rest,rfl,hb.1,hb.2,?_⟩
      split at h
      · next hk => simpa [Utf8Whole,hk] using h
      · next hk => simpa [hk] using h
    · cases hlead : utf8Lead b <;> simp [Utf8Whole,hlead] at h

theorem exists_char {v : Nat} (hv : v.isValidChar) : ∃ c : Char, c.val.toNat=v :=
  ⟨Char.ofNatAux v hv,rfl⟩

theorem uint8_ofNat_eq {n : Nat} (h : n=b.toNat) : UInt8.ofNat n=b := by
  rw [h,UInt8.ofNat_toNat]

/- The encodings by their length. -/
section Encode
variable {c : Char} {b₀ b₁ b₂ b₃ : UInt8}

theorem utf8EncodeChar_two (h : c.val.toNat=b₀.toNat%32*64+b₁.toNat%64)
    (h₀ : 0xC2≤b₀.toNat ∧ b₀.toNat<0xE0) (h₁ : 0x80≤b₁.toNat ∧ b₁.toNat≤0xBF) :
    String.utf8EncodeChar c=[b₀,b₁] := by
  simp only [String.utf8EncodeChar]
  rw [if_neg (by omega),if_pos (by omega),uint8_ofNat_eq (b := b₀) (by omega),
    uint8_ofNat_eq (b := b₁) (by omega)]

theorem utf8EncodeChar_three (h : c.val.toNat=(b₀.toNat%16*64+b₁.toNat%64)*64+b₂.toNat%64)
    (h₀ : 0xE0≤b₀.toNat ∧ b₀.toNat<0xF0)
    (h₁ : (if b₀.toNat=0xE0 then 0xA0 else 0x80)≤b₁.toNat ∧ b₁.toNat≤0xBF)
    (h₂ : 0x80≤b₂.toNat ∧ b₂.toNat≤0xBF) : String.utf8EncodeChar c=[b₀,b₁,b₂] := by
  have hlow : 0x80≤b₁.toNat ∧ (b₀.toNat=0xE0 → 0xA0≤b₁.toNat) := by
    split at h₁ <;> omega
  simp only [String.utf8EncodeChar]
  rw [if_neg (by omega),if_neg (by omega),if_pos (by omega),
    uint8_ofNat_eq (b := b₀) (by omega),uint8_ofNat_eq (b := b₁) (by omega),
    uint8_ofNat_eq (b := b₂) (by omega)]

theorem utf8EncodeChar_four (h : c.val.toNat =
      ((b₀.toNat%8*64+b₁.toNat%64)*64+b₂.toNat%64)*64+b₃.toNat%64)
    (h₀ : 0xF0≤b₀.toNat ∧ b₀.toNat<0xF5)
    (h₁ : (if b₀.toNat=0xF0 then 0x90 else 0x80)≤b₁.toNat ∧ b₁.toNat≤0xBF)
    (h₂ : 0x80≤b₂.toNat ∧ b₂.toNat≤0xBF) (h₃ : 0x80≤b₃.toNat ∧ b₃.toNat≤0xBF) :
    String.utf8EncodeChar c=[b₀,b₁,b₂,b₃] := by
  have hlow : 0x80≤b₁.toNat ∧ (b₀.toNat=0xF0 → 0x90≤b₁.toNat) := by
    split at h₁ <;> omega
  simp only [String.utf8EncodeChar]
  rw [if_neg (by omega),if_neg (by omega),if_neg (by omega),
    uint8_ofNat_eq (b := b₀) (by omega),uint8_ofNat_eq (b := b₁) (by omega),
    uint8_ofNat_eq (b := b₂) (by omega),uint8_ofNat_eq (b := b₃) (by omega)]

end Encode

/-- A well-formed text is empty or starts with an encoded character. -/
theorem exists_utf8EncodeChar (h : Utf8Whole (utf8Scan none bs)) (hne : bs≠[]) :
    ∃ c rest, bs=String.utf8EncodeChar c++rest ∧ Utf8Whole (utf8Scan none rest) := by
  cases bs with
  | nil => exact absurd rfl hne
  | cons b₀ bs =>
    rw [utf8Scan] at h
    by_cases h1 : b₀.toNat<0x80
    · obtain ⟨c,hc⟩ := exists_char (v := b₀.toNat) (.inl (by omega))
      refine ⟨c,bs,?_,by simpa [utf8Lead,h1,Utf8Whole] using h⟩
      simp only [String.utf8EncodeChar,hc]
      rw [if_pos (by omega),UInt8.ofNat_toNat]
      rfl
    by_cases hbad : b₀.toNat<0xC2
    · simp [utf8Lead,h1,hbad,Utf8Whole] at h
    by_cases h2 : b₀.toNat<0xE0
    · simp only [utf8Lead,if_neg h1,if_neg hbad,if_pos h2] at h
      obtain ⟨b₁,rest,rfl,hlo,hhi,hrest⟩ := utf8Whole_more h
      obtain ⟨c,hc⟩ := exists_char (v := b₀.toNat%32*64+b₁.toNat%64) (.inl (by omega))
      refine ⟨c,rest,?_,by simpa using hrest⟩
      rw [utf8EncodeChar_two hc ⟨by omega,h2⟩ ⟨hlo,hhi⟩]
      rfl
    by_cases h3 : b₀.toNat<0xF0
    · simp only [utf8Lead,if_neg h1,if_neg hbad,if_neg h2,if_pos h3] at h
      obtain ⟨b₁,rest,rfl,hlo,hhi,hrest⟩ := utf8Whole_more h
      obtain ⟨b₂,rest,rfl,hlo₂,hhi₂,hrest⟩ := utf8Whole_more (by simpa using hrest)
      have hhigh : b₁.toNat≤0xBF ∧ (b₀.toNat=0xED → b₁.toNat≤0x9F) := by
        split at hhi <;> omega
      have hlow : 0x80≤b₁.toNat := by split at hlo <;> omega
      -- the range of the second byte keeps the surrogates out
      obtain ⟨c,hc⟩ := exists_char (v := (b₀.toNat%16*64+b₁.toNat%64)*64+b₂.toNat%64) (by
          by_cases hed : b₀.toNat<0xEE
          · exact .inl (by omega)
          · exact .inr (by omega))
      refine ⟨c,rest,?_,by simpa using hrest⟩
      rw [utf8EncodeChar_three hc ⟨by omega,h3⟩ ⟨hlo,hhigh.1⟩ ⟨hlo₂,hhi₂⟩]
      rfl
    by_cases h4 : b₀.toNat<0xF5
    · simp only [utf8Lead,if_neg h1,if_neg hbad,if_neg h2,if_neg h3,if_pos h4] at h
      obtain ⟨b₁,rest,rfl,hlo,hhi,hrest⟩ := utf8Whole_more h
      obtain ⟨b₂,rest,rfl,hlo₂,hhi₂,hrest⟩ := utf8Whole_more (by simpa using hrest)
      obtain ⟨b₃,rest,rfl,hlo₃,hhi₃,hrest⟩ := utf8Whole_more (by simpa using hrest)
      have hhigh : b₁.toNat≤0xBF ∧ (b₀.toNat=0xF4 → b₁.toNat≤0x8F) := by
        split at hhi <;> omega
      have hlow : 0x80≤b₁.toNat ∧ (b₀.toNat=0xF0 → 0x90≤b₁.toNat) := by
        split at hlo <;> omega
      obtain ⟨c,hc⟩ := exists_char
        (v := ((b₀.toNat%8*64+b₁.toNat%64)*64+b₂.toNat%64)*64+b₃.toNat%64)
        (.inr (by omega))
      refine ⟨c,rest,?_,by simpa using hrest⟩
      rw [utf8EncodeChar_four hc ⟨by omega,h4⟩ ⟨hlo,hhigh.1⟩ ⟨hlo₂,hhi₂⟩ ⟨hlo₃,hhi₃⟩]
      rfl
    · simp [utf8Lead,h1,h2,h3,h4,Utf8Whole] at h

theorem exists_text (h : validUtf8 bs=true) : ∃ t : Text, bs=t.bytes := by
  induction hlen : bs.length using Nat.strong_induction_on generalizing bs with
  | _ n ih =>
    by_cases hne : bs=[]
    · exact ⟨[],by rw [hne]; rfl⟩
    · obtain ⟨c,rest,rfl,hrest⟩ := exists_utf8EncodeChar h hne
      have hshort : rest.length<n := by
        have hpos : 0<(String.utf8EncodeChar c).length := by
          rw [String.length_utf8EncodeChar]
          exact Char.utf8Size_pos c
        rw [← hlen,length_append]
        omega
      obtain ⟨t,rfl⟩ := ih _ hshort hrest rfl
      exact ⟨c::t,rfl⟩

theorem bytes_ofUtf8Lossy (h : validUtf8 bs=true) : (ofUtf8Lossy bs).bytes=bs := by
  obtain ⟨t,rfl⟩ := exists_text h
  rw [ofUtf8Lossy_bytes]

theorem validUtf8_bytes (t : Text) : validUtf8 t.bytes=true := by
  simp [validUtf8,utf8Scan_bytes]

/- The last byte still missing, everything from `acc` on is a character beyond ASCII. -/
def CharRow (acc : Nat) : Prop := 2≤acc ∧ (acc<0x360 ∨ 0x380≤acc) ∧ acc<0x4400

/- A state that can only end in such a character. -/
def Sane (e : Nat × Nat × Nat × Nat) : Prop :=
  0x80≤e.2.1 ∧ e.2.2.1≤0xBF ∧
    (e.1=1 ∧ CharRow e.2.2.2 ∨
     e.1=2 ∧ (∀ b, e.2.1≤b → b≤e.2.2.1 → CharRow (e.2.2.2*64+b%64)) ∨
     e.1=3 ∧ ∀ b, e.2.1≤b → b≤e.2.2.1 → ∀ b', 0x80≤b' → b'≤0xBF →
       CharRow ((e.2.2.2*64+b%64)*64+b'%64))

/- What a state expects is never ASCII. -/
def BeyondAscii (st : Option (Nat × Nat × Nat × Nat)) : Prop := ∀ e∈st, Sane e

theorem beyondAscii_none : BeyondAscii none := by
  rintro _ ⟨⟩

theorem Sane.next (h : Sane (k,lo,hi,acc)) (hk : k≠1) (hb : lo≤b.toNat ∧ b.toNat≤hi) :
    Sane (k-1,0x80,0xBF,acc*64+b.toNat%64) := by
  obtain ⟨-,-,⟨rfl,-⟩ | ⟨rfl,hrow⟩ | ⟨rfl,hrow⟩⟩ := h
  · exact absurd rfl hk
  · exact ⟨le_refl _,le_refl _,.inl ⟨rfl,hrow _ hb.1 hb.2⟩⟩
  · exact ⟨le_refl _,le_refl _,.inr (.inl ⟨rfl,fun b' => hrow _ hb.1 hb.2 b'⟩)⟩

/- A byte outside a sequence: what it completes, and the state it leads to. -/
def utf8Fresh (b : UInt8) : List (Option Nat) × Option (Nat × Nat × Nat × Nat) :=
  match utf8Lead b with
  | .char c => ([some c],none)
  | .bad => ([none],none)
  | .more k lo hi acc => ([],some (k,lo,hi,acc))

def utf8Step : Option (Nat × Nat × Nat × Nat) → UInt8 →
    List (Option Nat) × Option (Nat × Nat × Nat × Nat)
  | none, b => utf8Fresh b
  | some (k,lo,hi,acc), b =>
    if lo≤b.toNat ∧ b.toNat≤hi then
      if k=1 then ([some (acc*64+b.toNat%64)],none)
      else ([],some (k-1,0x80,0xBF,acc*64+b.toNat%64))
    else (none::(utf8Fresh b).1,(utf8Fresh b).2)

variable {st : Option (Nat × Nat × Nat × Nat)}

theorem utf8Scan_cons (st : Option (Nat × Nat × Nat × Nat)) (b : UInt8) (bs : Bytes) :
    utf8Scan st (b::bs)=(utf8Step st b).1++utf8Scan (utf8Step st b).2 bs := by
  cases st with
  | none =>
    rw [utf8Scan,utf8Step,utf8Fresh]
    cases utf8Lead b <;> rfl
  | some e =>
    rw [utf8Scan,utf8Step]
    split
    · split <;> rfl
    · rw [utf8Fresh]
      cases utf8Lead b <;> rfl

theorem sane_lead (h : utf8Lead b = .more k lo hi acc) : Sane (k,lo,hi,acc) := by
  simp only [utf8Lead] at h
  split at h
  · cases h
  split at h
  · cases h
  split at h
  · cases h
    exact ⟨le_refl _,le_refl _,.inl ⟨rfl,by simp only [CharRow]; omega⟩⟩
  split at h
  · cases h
    refine ⟨by dsimp only; split <;> omega,by dsimp only; split <;> omega,.inr (.inl ⟨rfl,?_⟩)⟩
    intro b hlo hhi
    simp only [CharRow] at *
    split at hlo <;> split at hhi <;> omega
  split at h
  · cases h
    refine ⟨by dsimp only; split <;> omega,by dsimp only; split <;> omega,.inr (.inr ⟨rfl,?_⟩)⟩
    intro b hlo hhi b' hlo' hhi'
    simp only [CharRow] at *
    split at hlo <;> split at hhi <;> omega
  · cases h

theorem utf8Lead_char {c : Nat} (h : utf8Lead b = .char c) : b.toNat=c ∧ c<0x80 := by
  simp only [utf8Lead] at h
  split_ifs at h with hlt
  cases h
  exact ⟨rfl,hlt⟩

theorem utf8Fresh_sane (b : UInt8) :
    BeyondAscii (utf8Fresh b).2 ∧ ∀ v, some v∈(utf8Fresh b).1 → b.toNat=v ∧ v<0x80 := by
  unfold utf8Fresh
  cases hlead : utf8Lead b with
  | char c => exact ⟨beyondAscii_none,by simpa using utf8Lead_char hlead⟩
  | bad => exact ⟨beyondAscii_none,by simp⟩
  | more k lo hi acc =>
    refine ⟨?_,by simp⟩
    rintro _ ⟨⟩
    exact sane_lead hlead

theorem BeyondAscii.step (hst : BeyondAscii st) (b : UInt8) :
    BeyondAscii (utf8Step st b).2 ∧ ∀ v, some v∈(utf8Step st b).1 →
      b.toNat=v ∧ v<0x80 ∨ 0x80≤v ∧ v.isValidChar := by
  obtain ⟨hfresh,hascii⟩ := utf8Fresh_sane b
  cases st with
  | none => exact ⟨hfresh,fun v hv => .inl (hascii v hv)⟩
  | some e =>
    obtain ⟨k,lo,hi,acc⟩ := e
    have hsane := hst _ rfl
    rw [utf8Step]
    split_ifs with hb hk
    · subst hk
      obtain ⟨-,-,⟨-,hrow⟩ | ⟨hk,-⟩ | ⟨hk,-⟩⟩ := hsane
      · refine ⟨beyondAscii_none,fun v hv => .inr ?_⟩
        simp only [mem_singleton,Option.some.injEq] at hv
        simp only [CharRow] at hrow
        omega
      · cases hk
      · cases hk
    · refine ⟨?_,by simp⟩
      rintro _ ⟨⟩
      exact hsane.next hk hb
    · exact ⟨hfresh,fun v hv => .inl (hascii v (by simpa using hv))⟩

/-- An ASCII byte ends whatever was begun and starts afresh. -/
theorem utf8Scan_ascii (hst : BeyondAscii st) (hb : b.toNat<0x80) (a bs : Bytes) :
    utf8Scan st (a++b::bs)=utf8Scan st a++some b.toNat::utf8Scan none bs := by
  have hlead : utf8Lead b = .char b.toNat := by simp only [utf8Lead,if_pos hb]
  induction a generalizing st with
  | nil =>
    cases st with
    | none => simp [utf8Scan,hlead]
    | some e =>
      obtain ⟨k,lo,hi,acc⟩ := e
      have hlo : 0x80≤lo := (hst _ rfl).1
      have hout : ¬(lo≤b.toNat ∧ b.toNat≤hi) := by omega
      simp [utf8Scan,hlead,hout]
  | cons x a ih =>
    rw [cons_append,utf8Scan_cons,ih (hst.step x).1,utf8Scan_cons,append_assoc]

theorem validUtf8_ascii (hb : b.toNat<0x80) (a bs : Bytes) :
    validUtf8 (a++b::bs)=(validUtf8 a && validUtf8 bs) := by
  simp [validUtf8,utf8Scan_ascii beyondAscii_none hb]

section Lossy

theorem utf8Scan_mem (hst : BeyondAscii st) {v : Nat} (h : some v∈utf8Scan st bs) :
    (∃ b∈bs, b.toNat=v ∧ v<0x80) ∨ 0x80≤v ∧ v.isValidChar := by
  induction bs generalizing st with
  | nil => cases st <;> simp [utf8Scan] at h
  | cons x bs ih =>
    obtain ⟨hnext,hout⟩ := hst.step x
    rw [utf8Scan_cons,mem_append] at h
    rcases h with h | h
    · exact (hout v h).imp_left fun hx => ⟨x,mem_cons_self,hx⟩
    · exact (ih hnext h).imp_left (Exists.imp fun b => And.imp_left (mem_cons_of_mem x))

theorem utf8Scan_ne_nil (hne : bs≠[]) : utf8Scan none bs≠[] := by
  have hsome : ∀ (bs : Bytes) e, utf8Scan (some e) bs≠[] := by
    intro bs
    induction bs with
    | nil => simp [utf8Scan]
    | cons x bs ih =>
      rintro ⟨k,lo,hi,acc⟩
      rw [utf8Scan_cons,utf8Step]
      split_ifs <;> simp [ih]
  obtain ⟨x,bs,rfl⟩ := exists_cons_of_ne_nil hne
  rw [utf8Scan]
  cases utf8Lead x <;> simp [hsome]

theorem mem_utf8EncodeChar {c : Char} (h : b∈String.utf8EncodeChar c) (hb : b.toNat<0x80) :
    c.toNat=b.toNat := by
  have hbyte : ∀ n, (UInt8.ofNat n).toNat=n%256 := fun n => UInt8.toNat_ofNat'
  simp only [String.utf8EncodeChar,Char.toNat] at h ⊢
  split at h
  · rw [mem_singleton] at h
    rw [h,hbyte]
    omega
  split at h
  · simp only [mem_cons,not_mem_nil,or_false] at h
    rcases h with rfl | rfl <;> rw [hbyte] at hb <;> omega
  split at h
  · simp only [mem_cons,not_mem_nil,or_false] at h
    rcases h with rfl | rfl | rfl <;> rw [hbyte] at hb <;> omega
  · simp only [mem_cons,not_mem_nil,or_false] at h
    rcases h with rfl | rfl | rfl | rfl <;> rw [hbyte] at hb <;> omega

/-- An ASCII byte stands where it stood, between two parts read by themselves. -/
theorem lossy_ascii (hb : b.toNat<0x80) (a bs : Bytes) : (ofUtf8Lossy (a++b::bs)).bytes =
      (ofUtf8Lossy a).bytes++b::(ofUtf8Lossy bs).bytes := by
  have hchar : String.utf8EncodeChar (Char.ofNat b.toNat)=[b] := by
    have hval : (Char.ofNat b.toNat).val.toNat=b.toNat := by
      rw [Char.ofNat,dif_pos (show b.toNat.isValidChar from .inl (by omega))]
      rfl
    rw [String.utf8EncodeChar]
    simp only [hval]
    rw [if_pos (by omega),UInt8.ofNat_toNat]
  simp only [ofUtf8Lossy,utf8Lossy,utf8Scan_ascii beyondAscii_none hb,bytes,map_append,
    map_cons,flatMap_append,flatMap_cons,Option.getD_some,hchar,singleton_append]

theorem mem_lossy (hb : b.toNat<0x80) : b∈(ofUtf8Lossy bs).bytes ↔ b∈bs := by
  constructor
  · intro h
    obtain ⟨c,hc,hbc⟩ := mem_flatMap.1 h
    have hcb := mem_utf8EncodeChar hbc hb
    obtain ⟨v,hv,rfl⟩ := mem_map.1 hc
    obtain ⟨u,hu,rfl⟩ := mem_map.1 hv
    have hvalue : ∀ v : Nat, v.isValidChar → (Char.ofNat v).toNat=v := by
      intro v hv
      rw [Char.ofNat,dif_pos hv]
      rfl
    cases u with
    | none =>
      rw [Option.getD_none,hvalue _ (.inr (by decide))] at hcb
      omega
    | some v =>
      rw [Option.getD_some] at hcb
      rcases utf8Scan_mem beyondAscii_none hu with ⟨b',hb',rfl,hlt⟩ | ⟨hge,hvalid⟩
      · rw [hvalue _ (.inl (by omega))] at hcb
        rwa [← UInt8.toNat_inj.1 hcb]
      · rw [hvalue _ hvalid] at hcb
        omega
  · intro h
    obtain ⟨a,bs',rfl⟩ := append_of_mem h
    rw [lossy_ascii hb]
    exact mem_append_right _ mem_cons_self

theorem lossy_eq_nil : (ofUtf8Lossy bs).bytes=[] ↔ bs=[] := by
  constructor
  · intro h
    by_contra hne
    obtain ⟨u,us,hu⟩ := exists_cons_of_ne_nil (utf8Scan_ne_nil hne)
    have hempty : String.utf8EncodeChar (Char.ofNat (u.getD 0xFFFD))=[] := by
      rw [ofUtf8Lossy,utf8Lossy,hu] at h
      exact (append_eq_nil_iff.1 h).1
    have hlen := congrArg length hempty
    rw [String.length_utf8EncodeChar] at hlen
    exact absurd hlen (Nat.ne_of_gt (Char.utf8Size_pos _))
  · rintro rfl
    rfl

end Lossy

end PureSsh.Lib
