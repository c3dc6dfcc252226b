import PureSsh.Transport.Packet

/-! What one codec encodes the other decodes, however the bytes arrive. -/

namespace PureSsh.Transport
open Lib List Proc PacketCodec Checked
variable {P : Primitives}

/-! Padding. -/

variable {bs pad bodyLen n : Nat} {buf payload f plain : Bytes} {c : SshCipher P} {mac : SshMac}
  {seq : UInt32} {g : GcmState}

theorem growPadding_spec {unit : Nat} (hbs : 0<bs) (fuel : Nat) (hal : bs ∣ unit+pad)
    (hfuel : minTotalLen≤unit+pad+fuel) :
    bs ∣ unit+growPadding unit bs fuel pad ∧ pad≤growPadding unit bs fuel pad ∧
      minTotalLen≤unit+growPadding unit bs fuel pad ∧
      growPadding unit bs fuel pad≤ max pad (minTotalLen+bs) := by
  induction fuel generalizing pad with
  | zero => exact ⟨hal,Nat.le_refl _,hfuel,Nat.le_max_left _ _⟩
  | succ fuel ih =>
    rw [growPadding]
    split
    · next hlt =>
      have hal' : bs ∣ unit+(pad+bs) := by
        rw [← Nat.add_assoc]
        exact Nat.dvd_add hal (Nat.dvd_refl bs)
      obtain ⟨h1,h2,h3,h4⟩ := ih hal' (by omega)
      exact ⟨h1,by omega,h3,by omega⟩
    · next hge => exact ⟨hal,Nat.le_refl _,by omega,Nat.le_max_left _ _⟩

/- What the receiver checks about the padding. -/
structure Padded (len blockSize : Nat) (encryptsLength : Bool) (pad : Nat) : Prop where
  four : 4≤pad
  small : pad≤40
  aligned : blockSize ∣ (if encryptsLength then 4 else 0)+(1+len+pad)
  total : encryptsLength=true → minTotalLen≤4+(1+len+pad)

theorem paddingFor_spec (len : Nat) (hbs : bs=8 ∨ bs=16) (enc : Bool) :
    Padded len bs enc (paddingFor len bs enc) := by
  have hmax : max bs 8=bs := by omega
  simp only [paddingFor,hmax]
  generalize hunit : (if enc=true then 4+1+len else 1+len)=unit
  generalize hpad : (if bs-unit%bs<4 then bs-unit%bs+bs else bs-unit%bs)=pad
  have hbound : bs ∣ unit+pad ∧ 4≤pad ∧ pad≤20 := by
    split at hpad <;> rcases hbs with rfl | rfl <;> omega
  obtain ⟨hal,hfour,hsmall⟩ := hbound
  cases enc with
  | false =>
    refine ⟨hfour,by simp only [Bool.false_eq_true,if_false]; omega,?_,by simp⟩
    simpa [← hunit] using hal
  | true =>
    have hu : 4+1+len=unit := hunit
    obtain ⟨h1,h2,h3,h4⟩ := growPadding_spec (by omega) minTotalLen hal (Nat.le_add_left _ _)
    simp only [if_true,hu]
    have hsum : 4+(1+len+growPadding unit bs minTotalLen pad) =
        unit+growPadding unit bs minTotalLen pad := by
      omega
    refine ⟨by omega,?_,by rwa [if_pos rfl,hsum],fun _ => by rwa [hsum]⟩
    simp only [minTotalLen] at h4 ⊢
    omega

/-! The plaintext of a frame. -/

theorem lengthField_of_take {v : UInt32} (h : buf.take 4=be32 v) : lengthField buf = .ok v := by
  match buf, h with
  | a::b::c::d::_, h =>
    obtain ⟨rfl,rfl,rfl,rfl⟩ := h
    exact congrArg Except.ok (ofBe32_be32 v)

/- What `payloadAt` reads, from the byte with the length of the padding on. -/
def unpad (body : Bytes) : Result Bytes :=
  match body with
  | [] => .error (.panic "index out of bounds")
  | p::_ =>
    let padLen := p.toNat
    if ¬(4≤padLen ∧ padLen≤255) then .error .badPadding
    else if padLen+1>body.length then .error .badPadding
    else .ok ((body.take (body.length-padLen)).drop 1)

section Slices
variable {b : Bytes} {hi : Nat}

theorem slice_eq {lo : Nat} (h : lo≤hi) (h' : hi≤b.length) :
    slice b lo hi = .ok ((b.take hi).drop lo) := if_pos ⟨h,h'⟩

theorem slice_zero (h : hi≤b.length) : slice b 0 hi = .ok (b.take hi) :=
  slice_eq (Nat.zero_le hi) h

theorem byteAt_drop {rest : Bytes} {x : UInt8} {i : Nat} (h : b.drop i=x::rest) :
    byteAt b i = .ok x := by
  have hx : b[i]?=some x := by
    have := congrArg (·[0]?) h
    rwa [getElem?_drop] at this
  rw [byteAt,hx]

theorem payloadAt_eq (plain : Bytes) (pos : Nat) : payloadAt plain pos=unpad (plain.drop pos) := by
  rw [payloadAt]
  cases hdrop : plain.drop pos with
  | nil =>
    have hnone : plain[pos]?=none := getElem?_eq_none (drop_eq_nil_iff.1 hdrop)
    rw [byteAt,hnone]
    rfl
  | cons p rest =>
    have hlen := congrArg length hdrop
    rw [length_drop] at hlen
    rw [byteAt_drop hdrop,except_ok_bind,unpad]
    dsimp only
    by_cases hpad : 4≤p.toNat ∧ p.toNat≤255
    · rw [if_neg (not_not.2 hpad),if_neg (not_not.2 hpad)]
      by_cases hfit : pos+1+p.toNat>plain.length
      · rw [if_pos hfit,if_pos (by omega)]
      · rw [if_neg hfit,if_neg (by omega),sub,if_pos (by omega),except_ok_bind,
          slice_eq (by omega) (by omega),← hdrop,drop_take,drop_take,drop_drop,length_drop]
        congr 2
        omega
    · rw [if_pos hpad,if_pos hpad]

theorem cleartextPayload_eq (h : 4+n≤buf.length) (hn : 12≤n) :
    cleartextPayload buf n=payloadAt (buf.take (4+n)) 4 := by
  have hbyte : byteAt (buf.take (4+n)) 4=byteAt buf 4 := by
    rw [byteAt,byteAt,getElem?_take_of_lt (by omega)]
  have hlen : (buf.take (4+n)).length=4+n := length_take_of_le h
  rw [cleartextPayload,payloadAt,hbyte,hlen]
  cases byteAt buf 4 with
  | error e => rfl
  | ok pad =>
    rw [except_ok_bind,except_ok_bind]
    dsimp only
    split
    · rfl
    by_cases hfit : pad.toNat+1>n
    · rw [if_pos hfit,if_pos (by omega)]
    · rw [if_neg hfit,if_neg (by omega),sub,if_pos (by omega),except_ok_bind,except_ok_bind,
        if_neg (by omega),slice_eq (by omega) (by omega),slice_eq (by omega) (by omega),
        take_take,Nat.min_eq_left (by omega)]

end Slices

theorem toNat_le_max {v : UInt32} (h : ¬v>maxPacketLen) : v.toNat≤ maxPacketLen.toNat :=
  UInt32.le_iff_toNat_le.1 (UInt32.not_lt.1 h)

theorem add32_four {v : UInt32} (h : ¬v>maxPacketLen) :
    add32 v 4 = .ok (v+4) ∧ (v+4).toNat=4+v.toNat := by
  have hv := toNat_le_max h
  have hmax : maxPacketLen.toNat=262144 := rfl
  have h4 : (4 : UInt32).toNat=4 := rfl
  refine ⟨if_pos (by omega),?_⟩
  rw [UInt32.toNat_add]
  omega

structure Plain (payload frame : Bytes) (bodyLen : Nat) : Prop where
  length : frame.length=4+bodyLen
  field : frame.take 4=be32 (UInt32.ofNat bodyLen)
  bound : bodyLen≤ maxPacketLen.toNat
  body : unpad (frame.drop 4) = .ok payload

theorem Plain.lengthField {frame : Bytes} (h : Plain payload frame bodyLen)
    (hbuf : buf.take 4=frame.take 4) :
    ∃ v : UInt32, lengthField buf = .ok v ∧ v.toNat=bodyLen ∧ ¬v>maxPacketLen := by
  have hlt : bodyLen<2^32 := Nat.lt_of_le_of_lt h.bound (by decide)
  have hv : (UInt32.ofNat bodyLen).toNat=bodyLen := by
    exact Nat.mod_eq_of_lt hlt
  refine ⟨UInt32.ofNat bodyLen,lengthField_of_take (hbuf.trans h.field),hv,?_⟩
  rw [gt_iff_lt,UInt32.lt_iff_toNat_lt,hv]
  exact Nat.not_lt.2 h.bound

theorem unpad_padded (payload : Bytes) {padding : Bytes} (h4 : 4≤padding.length)
    (h40 : padding.length≤40) :
    unpad (UInt8.ofNat padding.length::(payload++padding)) = .ok payload := by
  have hp : (UInt8.ofNat padding.length).toNat=padding.length := by
    rw [UInt8.toNat_ofNat']
    omega
  have hlen : (UInt8.ofNat padding.length::(payload++padding)).length-padding.length =
      payload.length+1 := by
    simp only [length_cons,length_append]
    omega
  simp only [unpad,hp,hlen]
  rw [if_neg (by omega)]
  simp

theorem plainFrame_ok (hlen : payload.length< maxEncodablePayload) (h4 : 4≤pad) (h40 : pad≤40)
    (rng : Rng) : ∃ frame rng', plainFrame payload pad rng=(.ok frame,rng') ∧
        Plain payload frame (1+payload.length+pad) := by
  refine ⟨_,_,rfl,?_⟩
  have hfill : ((range pad).map rng).length=pad := by simp
  have hmax : maxEncodablePayload+256=maxPacketLen.toNat := by decide
  constructor
  · simp only [length_append,length_cons,be32_length]
    omega
  · exact take_of_length_le (Nat.le_of_eq (be32_length _))
  · omega
  · have h4' : 4≤((range pad).map rng).length := by omega
    have hun := unpad_padded payload h4' (by omega)
    rwa [hfill] at hun

theorem take_of_front (h : buf <+: f) (hn : n≤buf.length) : buf.take n=f.take n := by
  obtain ⟨rest,rfl⟩ := h
  rw [take_append_of_le_length hn]

/- The front of the buffer, whether the frame has arrived in part or in whole. -/
theorem front_of_either (h : buf <+: f ∨ f <+: buf) (hn : n≤buf.length) (hf : n≤f.length) :
    buf.take n=f.take n := by
  rcases h with h | h
  · exact take_of_front h hn
  · exact (take_of_front h hf).symm

theorem parts_of_front {a b tag : Bytes} (ha : a.length=4) (hb : b.length=bodyLen)
    (hf : f=a++b++tag) (hbuf : buf <+: f ∨ f <+: buf) :
    f.length=4+bodyLen+tag.length ∧ (4≤buf.length → buf.take 4=a) ∧
      (f.length≤buf.length → buf.take (4+bodyLen)=a++b ∧
        (buf.take f.length).drop (4+bodyLen)=tag) := by
  have hab : (a++b).length=4+bodyLen := by rw [length_append,ha,hb]
  have hlen : f.length=4+bodyLen+tag.length := by rw [hf,length_append,hab]
  refine ⟨hlen,fun h4 => ?_,fun hge => ⟨?_,?_⟩⟩
  · rw [front_of_either hbuf h4 (by omega),hf,append_assoc]
    exact take_left' ha
  · rw [front_of_either hbuf (by omega) (by omega),hf]
    exact take_left' hab
  · rw [front_of_either hbuf hge (Nat.le_refl _),take_length,hf]
    exact drop_left' hab

/-! Cleartext. -/

theorem decodeCleartext_eq (h : Plain payload f bodyLen) (htotal : minTotalLen≤4+bodyLen)
    (hal : 8 ∣ 4+bodyLen) (hbuf : buf <+: f ∨ f <+: buf) :
    decodeCleartext buf=if buf.length<f.length then .ok none
      else .ok (some (payload,f.length)) := by
  have hlen := h.length
  unfold decodeCleartext
  by_cases h5 : buf.length<5
  · rw [if_pos h5,if_pos (by omega)]
  obtain ⟨v,hv,hvn,hle⟩ := h.lengthField (front_of_either hbuf (by omega) (by omega))
  obtain ⟨hadd,hsum⟩ := add32_four hle
  rw [if_neg h5,hv,except_ok_bind,if_neg hle,hadd]
  simp only [hvn,hsum,except_ok_bind]
  rw [if_neg (by omega),if_neg (by simpa [blockSizeDefault] using Nat.mod_eq_zero_of_dvd hal),
    ← hlen]
  split
  · rfl
  · next hge =>
    rw [minTotalLen] at htotal
    rw [cleartextPayload_eq (by omega) (by omega),payloadAt_eq,
      front_of_either hbuf (by omega) (by omega),take_of_length_le (by omega),h.body]
    rfl

/-! Block and stream ciphers. -/

theorem SshMac.compute_length (hP : P.Lawful) (m : SshMac) (seq : UInt32) (msg : Bytes) :
    (m.compute P seq msg).length=m.tagLen := by
  cases m with
  | hmac digest key tagLen etm h =>
    simp only [compute,length_take,hP.hmac_length]
    exact Nat.min_eq_left h
  | umac64 key etm => exact hP.umac64_length _ _ _
  | umac128 key etm => exact hP.umac128_length _ _ _

theorem SshMac.verify_compute (m : SshMac) (seq : UInt32) (msg : Bytes) :
    m.verify P seq msg (m.compute P seq msg) = .ok () := if_pos rfl

namespace SshCipher
variable (hP : P.Lawful) {c : SshCipher P}
include hP

theorem blockSize_cases (c : SshCipher P) : c.blockSize=8 ∨ c.blockSize=16 := by
  cases c with
  | cbc c => exact hP.cbc_blockSize c
  | _ => exact .inr rfl

theorem decryptBlocks_encryptBlocks (hc : c.isAead=false) {b : Bytes}
    (hal : c.blockSize ∣ b.length) : ∃ e c', encryptBlocks b c=(.ok e,c') ∧
      decryptBlocks e c=(.ok b,c') ∧ e.length=b.length ∧ c'.isAead=false ∧
      c'.blockSize=c.blockSize := by
  cases c with
  | ctr c =>
    refine ⟨_,_,rfl,?_,hP.ctr_length c b,rfl,rfl⟩
    change (Except.ok _,SshCipher.ctr _)=_
    rw [hP.ctr_twice]
  | cbc c =>
    obtain ⟨e,c',henc,hdec⟩ := hP.cbc_decrypt_encrypt c b hal
    obtain ⟨hlen,hbs⟩ := hP.cbc_decrypt_length c e b c' hdec
    refine ⟨e,.cbc c',?_,?_,hlen.symm,rfl,hbs⟩
    · simp only [encryptBlocks,runCbc,henc]
    · simp only [decryptBlocks,runCbc,hdec]
  | gcm g => cases hc
  | chachaPoly g => cases hc

/- Decryption composes over consecutive runs of blocks. -/
theorem decryptBlocks_append (hc : c.isAead=false) {x y p : Bytes} {c' : SshCipher P}
    (hx : c.blockSize ∣ x.length) (hy : c.blockSize ∣ y.length)
    (h : decryptBlocks (x++y) c=(.ok p,c')) : ∃ p₁ c₁ p₂,
      decryptBlocks x c=(.ok p₁,c₁) ∧ decryptBlocks y c₁=(.ok p₂,c') ∧ p=p₁++p₂ ∧
      p₁.length=x.length ∧ c₁.blockSize=c.blockSize ∧ c₁.isAead=false := by
  cases c with
  | ctr c =>
    change (Except.ok _,SshCipher.ctr _)=_ at h
    rw [hP.ctr_append] at h
    cases h
    exact ⟨_,_,_,rfl,rfl,rfl,hP.ctr_length c x,rfl,rfl⟩
  | cbc c =>
    simp only [decryptBlocks,runCbc,hP.cbc_decrypt_append c x y hx hy] at h
    rcases h₁ : P.cbcDecrypt c x with _ | ⟨p₁,c₁⟩
    · simp [h₁] at h
    rcases h₂ : P.cbcDecrypt c₁ y with _ | ⟨p₂,c₂⟩
    · simp [h₁,h₂] at h
    simp only [h₁,h₂,Option.bind_some] at h
    obtain ⟨rfl,rfl⟩ := h
    obtain ⟨hlen,hbs⟩ := hP.cbc_decrypt_length c x p₁ c₁ h₁
    refine ⟨p₁,.cbc c₁,p₂,?_,?_,rfl,hlen,hbs,rfl⟩
    · simp only [decryptBlocks,runCbc,h₁]
    · simp only [decryptBlocks,runCbc,h₂]
  | gcm g => cases hc
  | chachaPoly g => cases hc

end SshCipher

theorem decodeStreamEtm_eq {e : Bytes} {c' : SshCipher P} (hP : P.Lawful)
    (h : Plain payload plain bodyLen) (hal : c.blockSize ∣ bodyLen) (hmin : c.blockSize≤bodyLen)
    (hdec : SshCipher.decryptBlocks e c=(.ok (plain.drop 4),c')) (he : e.length=bodyLen)
    (hf : f=plain.take 4++e++mac.compute P seq (plain.take 4++e))
    (hbuf : buf <+: f ∨ f <+: buf) :
    decodeStreamEtm seq buf mac c=if buf.length<f.length then (.ok none,c)
      else (.ok (some (payload,f.length)),c') := by
  have hfour : (plain.take 4).length=4 := by rw [h.field]; rfl
  obtain ⟨hflen,hfront,hparts⟩ := parts_of_front hfour he hf hbuf
  rw [SshMac.compute_length hP] at hflen
  unfold decodeStreamEtm
  rw [get_bind]
  by_cases h4 : buf.length<4
  · rw [if_pos h4,if_pos (by omega)]
    rfl
  obtain ⟨v,hv,hvn,hle⟩ := h.lengthField (hfront (by omega))
  rw [if_neg h4,hv,lift_ok_bind,if_neg hle]
  simp only [hvn,← hflen]
  rw [if_neg (by simpa using Nat.mod_eq_zero_of_dvd hal),if_neg (by omega)]
  split
  · rfl
  · next hge =>
    obtain ⟨hbody,htag⟩ := hparts (by omega)
    rw [slice_zero (by omega),lift_ok_bind,slice_eq (by omega) (by omega),lift_ok_bind,
      slice_eq (by omega) (by omega),hbody,htag,SshMac.verify_compute,lift_ok_bind,lift_ok_bind,
      drop_left' hfour,bind_of_ok hdec,payloadAt_eq,drop_zero,h.body]
    rfl

/- An encrypt-and-MAC frame `f`: `e` is the encrypted plaintext, `first` its decrypted first
   block and `c₁` the cipher after that block. -/
structure EamFrame (seq : UInt32) (mac : SshMac) (payload plain e f first rest : Bytes)
    (bodyLen : Nat) (c c₁ c' : SshCipher P) : Prop where
  shape : Plain payload plain bodyLen
  aligned : c.blockSize ∣ 4+bodyLen
  total : minTotalLen≤4+bodyLen
  length : e.length=4+bodyLen
  frame : f=e++mac.compute P seq plain
  split : plain=first++rest
  first_length : first.length=c.blockSize
  blockSize : c₁.blockSize=c.blockSize
  bound : 8≤c.blockSize ∧ c.blockSize≤16
  decrypt_first : SshCipher.decryptBlocks (e.take c.blockSize) c=(.ok first,c₁)
  decrypt_rest : if 4+bodyLen>c.blockSize then
    SshCipher.decryptBlocks (e.drop c.blockSize) c₁=(.ok rest,c') else rest=[] ∧ c₁=c'

namespace EamFrame
variable {seq : UInt32} {mac : SshMac} {payload plain e f first rest : Bytes}
  {bodyLen : Nat} {c c₁ c' : SshCipher P}

theorem decodeAfterFirst_eq (hP : P.Lawful)
    (h : EamFrame seq mac payload plain e f first rest bodyLen c c₁ c') {buf : Bytes}
    (hbuf : buf <+: f ∨ f <+: buf) (isCbc : Bool) :
    decodeAfterFirst seq buf mac c.blockSize isCbc first (c₁,none) =
      if buf.length<f.length then (.ok none,(c₁,some first))
      else (.ok (some (payload,f.length)),(c',none)) := by
  have hbs := h.bound
  have htotal := h.total
  have hflen : f.length=4+bodyLen+mac.tagLen := by
    rw [h.frame,length_append,h.length,SshMac.compute_length hP]
  have hfirst : first.take 4=plain.take 4 := by
    rw [h.split,take_append_of_le_length (by rw [h.first_length]; omega)]
  obtain ⟨v,hv,hvn,hle⟩ := h.shape.lengthField hfirst
  have herr : lengthErr v c.blockSize=none := by
    rw [lengthErr,if_neg hle,hvn,
      if_neg (by simpa using Nat.mod_eq_zero_of_dvd h.aligned),if_neg (by omega)]
  unfold decodeAfterFirst
  rw [hv,lift_ok_bind]
  simp only [herr,hvn,← hflen]
  by_cases hshort : buf.length<f.length
  · rw [if_pos hshort,if_pos hshort]
    rfl
  · rw [if_neg hshort,if_neg hshort]
    have hetake : buf.take (4+bodyLen)=e := by
      rw [front_of_either hbuf (by omega) (by omega),h.frame,
        take_append_of_le_length (Nat.le_of_eq h.length.symm),
        take_of_length_le (Nat.le_of_eq h.length)]
    have htag : (buf.take f.length).drop (4+bodyLen)=mac.compute P seq plain := by
      rw [front_of_either hbuf (by omega) (by omega),take_of_length_le (by omega),h.frame]
      exact drop_left' h.length
    have hrest : decryptRest buf c.blockSize (4+bodyLen) (c₁,none)=(.ok rest,(c',none)) := by
      have hd := h.decrypt_rest
      rw [decryptRest]
      by_cases hgt : 4+bodyLen>c.blockSize
      · rw [if_pos hgt] at hd ⊢
        rw [slice_eq (by omega) (by omega),lift_ok_bind,hetake]
        exact onFst_of hd none
      · rw [if_neg hgt] at hd ⊢
        rw [hd.1,hd.2]
        rfl
    rw [bind_of_ok hrest,← h.split,slice_eq (by omega) (by omega),lift_ok_bind,htag,
      SshMac.verify_compute,lift_ok_bind,payloadAt_eq,h.shape.body]
    rfl

/-- The first block is decrypted once, whenever it arrives, and never again. -/
theorem reads (hP : P.Lawful) (h : EamFrame seq mac payload plain e f first rest bodyLen c c₁ c') :
    Framing.Reads (fun buf => decodeStreamEam seq buf mac) (c,none) f payload (c',none) := by
  have hbs := h.bound
  have htotal := h.total
  have hmin : minTotalLen=16 := rfl
  have hflen : 16≤f.length := by
    rw [h.frame,length_append,h.length]
    omega
  have hstep : ∀ t, t=(c,none) ∨ t=(c₁,some first) → ∀ buf, buf <+: f ∨ f <+: buf →
      decodeStreamEam seq buf mac t =
        if buf.length<c.blockSize then (.ok none,t)
        else if buf.length<f.length then (.ok none,(c₁,some first))
        else (.ok (some (payload,f.length)),(c',none)) := by
    rintro t ht buf hbuf
    have htb : t.1.blockSize=c.blockSize := by
      rcases ht with rfl | rfl
      · rfl
      · exact h.blockSize
    unfold decodeStreamEam
    rw [get_bind]
    simp only [htb]
    by_cases hshort : buf.length<c.blockSize
    · rw [if_pos hshort,if_pos hshort]
      rfl
    · rw [if_neg hshort,if_neg hshort]
      have hafter := h.decodeAfterFirst_eq hP hbuf
      rcases ht with rfl | rfl
      · have hfront : buf.take c.blockSize=e.take c.blockSize := by
          rw [front_of_either hbuf (by omega) (by omega),h.frame,
            take_append_of_le_length (by rw [h.length]; omega)]
        rw [slice_zero (Nat.not_lt.1 hshort),hfront]
        exact (bind_of_ok (onFst_of h.decrypt_first none) _).trans (hafter _)
      · exact hafter _
  refine ⟨fun t => t=(c,none) ∨ t=(c₁,some first),.inl rfl,?_,?_⟩
  · intro t buf ht hpre hlt
    have hst := hstep t ht buf (.inl hpre)
    by_cases hshort : buf.length<c.blockSize
    · exact ⟨t,hst.trans (if_pos hshort),ht⟩
    · exact ⟨_,hst.trans ((if_neg hshort).trans (if_pos hlt)),.inr rfl⟩
  · intro t tail ht
    have hge : ¬(f++tail).length<f.length := by
      rw [length_append]
      omega
    have hge' : ¬(f++tail).length<c.blockSize := by
      omega
    exact (hstep t ht _ (.inr (prefix_append _ _))).trans ((if_neg hge').trans (if_neg hge))

end EamFrame

/-! AEAD ciphers. -/

def GcmState.next (g : GcmState) : GcmState := { g with invocation := g.invocation+1 }

theorem GcmState.step_ok (h : g.invocation.toNat+1<2^64) : GcmState.step g=(.ok (),g.next) := by
  rw [GcmState.step,get_bind,if_pos h]
  rfl

theorem GcmState.seal_ok (h : g.invocation.toNat+1<2^64) (aad b : Bytes) :
    GcmState.seal P aad b g=(.ok (P.gcmEncrypt g.key g.nonce aad b),g.next) := by
  rw [GcmState.seal,get_bind,bind_of_ok (GcmState.step_ok h)]
  rfl

theorem GcmState.open_seal (hP : P.Lawful) (h : g.invocation.toNat+1<2^64) (aad b : Bytes) :
    GcmState.open P aad (P.gcmEncrypt g.key g.nonce aad b).1
      (P.gcmEncrypt g.key g.nonce aad b).2 g=(.ok b,g.next) := by
  rw [GcmState.open,get_bind,
    if_neg (not_not_intro (hP.gcm_length g.key g.nonce aad b).2),hP.gcm_decrypt_encrypt]
  change (GcmState.step >>= fun _ => pure b) g=_
  rw [bind_of_ok (GcmState.step_ok h)]
  rfl

theorem decodeGcm_eq (hP : P.Lawful) (h : Plain payload plain bodyLen) (hal : 16 ∣ bodyLen)
    (hmin : 16≤bodyLen) (hg : g.invocation.toNat+1<2^64)
    (hf : f=plain.take 4++(P.gcmEncrypt g.key g.nonce (plain.take 4) (plain.drop 4)).1 ++
      (P.gcmEncrypt g.key g.nonce (plain.take 4) (plain.drop 4)).2) (hbuf : buf <+: f ∨ f <+: buf) :
    decodeGcm buf (SshCipher.gcm g : SshCipher P)=if buf.length<f.length then (.ok none,.gcm g)
      else (.ok (some (payload,f.length)),.gcm g.next) := by
  obtain ⟨hbodyLen,htagLen⟩ := hP.gcm_length g.key g.nonce (plain.take 4) (plain.drop 4)
  generalize hout : P.gcmEncrypt g.key g.nonce (plain.take 4) (plain.drop 4)=out at *
  have hfour : (plain.take 4).length=4 := by rw [h.field]; rfl
  have hdrop : (plain.drop 4).length=bodyLen := by rw [length_drop,h.length]; omega
  obtain ⟨hflen,hfront,hparts⟩ := parts_of_front hfour (hbodyLen.trans hdrop) hf hbuf
  rw [htagLen] at hflen
  unfold decodeGcm
  by_cases h4 : buf.length<4
  · rw [if_pos h4,if_pos (by omega)]
    rfl
  have hb4 := hfront (by omega)
  obtain ⟨v,hv,hvn,hle⟩ := h.lengthField hb4
  rw [if_neg h4,hv,lift_ok_bind,if_neg hle]
  simp only [hvn,← hflen]
  rw [if_neg (by simpa using Nat.mod_eq_zero_of_dvd hal),if_neg (by omega)]
  split
  · rfl
  · next hge =>
    obtain ⟨hbody,htag⟩ := hparts (by omega)
    have hopen : SshCipher.aeadOpenLenAad (plain.take 4) out.1 out.2 (.gcm g : SshCipher P) =
        (.ok (plain.drop 4),.gcm g.next) := by
      simp only [SshCipher.aeadOpenLenAad,← hout,GcmState.open_seal hP hg]
    rw [slice_zero (by omega),lift_ok_bind,slice_eq (by omega) (by omega),lift_ok_bind,
      slice_eq (by omega) (by omega),lift_ok_bind,hb4,hbody,drop_left' hfour,htag,
      bind_of_ok hopen,payloadAt_eq,drop_zero,h.body]
    rfl

theorem decodeChachapoly_eq {c : ChaChaPoly} (hP : P.Lawful) (h : Plain payload plain bodyLen)
    (hal : 8 ∣ bodyLen) (hmin : 8≤bodyLen) (hf : f=c.xorLength P seq.toUInt64 (plain.take 4) ++
      c.xorPayload P seq.toUInt64 (plain.drop 4) ++
      c.tag P seq.toUInt64 (c.xorLength P seq.toUInt64 (plain.take 4))
        (c.xorPayload P seq.toUInt64 (plain.drop 4))) (hbuf : buf <+: f ∨ f <+: buf) :
    decodeChachapoly seq buf (.chachaPoly c : SshCipher P) =
      if buf.length<f.length then .ok none else .ok (some (payload,f.length)) := by
  have hfour : (plain.take 4).length=4 := by rw [h.field]; rfl
  have hdrop : (plain.drop 4).length=bodyLen := by rw [length_drop,h.length]; omega
  have hel : (c.xorLength P seq.toUInt64 (plain.take 4)).length=4 :=
    (hP.chacha_length _ _ _ _).trans hfour
  have hep : (c.xorPayload P seq.toUInt64 (plain.drop 4)).length=bodyLen :=
    (hP.chacha_length _ _ _ _).trans hdrop
  have hxl : c.xorLength P seq.toUInt64 (c.xorLength P seq.toUInt64 (plain.take 4)) =
      plain.take 4 := hP.chacha_twice _ _ _ _
  have hxp : c.xorPayload P seq.toUInt64 (c.xorPayload P seq.toUInt64 (plain.drop 4)) =
      plain.drop 4 := hP.chacha_twice _ _ _ _
  have htl : (c.tag P seq.toUInt64 (c.xorLength P seq.toUInt64 (plain.take 4))
      (c.xorPayload P seq.toUInt64 (plain.drop 4))).length=16 := hP.poly1305_length _ _
  generalize c.xorLength P seq.toUInt64 (plain.take 4)=el at *
  generalize c.xorPayload P seq.toUInt64 (plain.drop 4)=ep at *
  obtain ⟨hflen,hfront,hparts⟩ := parts_of_front hel hep hf hbuf
  rw [htl] at hflen
  unfold decodeChachapoly
  by_cases h4 : buf.length<4
  · rw [if_pos h4,if_pos (by omega)]
    rfl
  have hb4 := hfront (by omega)
  have hxor : (.chachaPoly c : SshCipher P).cpXorLength seq.toUInt64 (buf.take 4) =
      .ok (plain.take 4) := by
    rw [hb4]
    exact congrArg Except.ok hxl
  have htake : (plain.take 4).take 4=plain.take 4 := take_of_length_le (by omega)
  obtain ⟨v,hv,hvn,hle⟩ := h.lengthField htake
  rw [if_neg h4,slice_zero (by omega),except_ok_bind,hxor,except_ok_bind,hv,except_ok_bind,
    if_neg hle]
  simp only [hvn,← hflen]
  rw [if_neg (by simpa using Nat.mod_eq_zero_of_dvd hal),if_neg (by omega)]
  split
  · rfl
  · next hge =>
    obtain ⟨hbody,htag⟩ := hparts (by omega)
    have hverify : (.chachaPoly c : SshCipher P).cpVerifyTag seq.toUInt64 el ep
        (c.tag P seq.toUInt64 el ep) = .ok () := by
      change c.verifyTag P seq.toUInt64 el ep _=_
      rw [ChaChaPoly.verifyTag,if_neg (not_not_intro htl),if_pos rfl]
    have hpay : (.chachaPoly c : SshCipher P).cpXorPayload seq.toUInt64 ep =
        .ok (plain.drop 4) := congrArg Except.ok hxp
    rw [except_ok_bind,slice_eq (by omega) (by omega),except_ok_bind,
      slice_eq (by omega) (by omega),except_ok_bind,hb4,hbody,drop_left' hel,htag,hverify,
      except_ok_bind,hpay,except_ok_bind,payloadAt_eq,drop_zero,h.body]
    rfl

/-! What each framing encodes, it decodes. -/

theorem not_within (hlen : payload.length< maxEncodablePayload) :
    (!payloadWithinLimit payload.length)=false := by
  simp [payloadWithinLimit,hlen]

theorem encodeCleartext_ok (hlen : payload.length< maxEncodablePayload) (rng : Rng) :
    ∃ f rng', encodeCleartext payload rng=(.ok f,rng') ∧
      ∀ buf, buf <+: f ∨ f <+: buf → decodeCleartext buf =
        if buf.length<f.length then .ok none else .ok (some (payload,f.length)) := by
  have hpad := paddingFor_spec payload.length
    (.inl rfl : blockSizeDefault=8 ∨ blockSizeDefault=16) true
  have htotal := hpad.total rfl
  obtain ⟨f,rng',hf,hplain⟩ := plainFrame_ok hlen hpad.four hpad.small rng
  refine ⟨f,rng',?_,fun buf hbuf => decodeCleartext_eq hplain htotal ?_ hbuf⟩
  · rw [encodeCleartext,not_within hlen,if_neg Bool.false_ne_true]
    exact (congrFun (if_neg (by omega)) rng).trans hf
  · simpa [blockSizeDefault] using hpad.aligned

theorem encodeStream_start {rng rng' : Rng} (seq : UInt32)
    (hlen : payload.length< maxEncodablePayload)
    (hpad : Padded payload.length c.blockSize (!mac.etm)
      (paddingFor payload.length c.blockSize (!mac.etm)))
    (hf : plainFrame payload (paddingFor payload.length c.blockSize (!mac.etm)) rng =
      (.ok plain,rng')) : encodeStream seq payload mac (c,rng)=(if mac.etm then do
        let body ← onFst (SshCipher.encryptBlocks (plain.drop 4))
        return plain.take 4++body++mac.compute P seq (plain.take 4++body) else do
        let frame ← onFst (SshCipher.encryptBlocks plain) return frame++mac.compute P seq plain :
        Proc Error (SshCipher P × Rng) Bytes) (c,rng') := by
  have hshort : ¬((!mac.etm && decide (1+payload.length +
      paddingFor payload.length c.blockSize (!mac.etm)+4< minTotalLen))=true) := by
    simp only [Bool.and_eq_true,decide_eq_true_eq,not_and]
    intro hm
    have htotal := hpad.total hm
    omega
  rw [encodeStream,not_within hlen]
  exact (congrFun (if_neg hshort) _).trans (bind_of_ok (onSnd_of hf c) _)

theorem encodeStream_ok (hP : P.Lawful) (hlen : payload.length< maxEncodablePayload)
    (hc : c.isAead=false) (mac : SshMac) (seq : UInt32) (rng : Rng) : ∃ f c' rng',
      encodeStream seq payload mac (c,rng)=(.ok f,(c',rng')) ∧ c'.isAead=false ∧
      Framing.Reads (fun buf => decodeStream seq buf mac) (c,none) f payload (c',none) := by
  have hbs := c.blockSize_cases hP
  have hpad := paddingFor_spec payload.length hbs (!mac.etm)
  obtain ⟨plain,rng',hf,hplain⟩ := plainFrame_ok hlen hpad.four hpad.small rng
  have hal := hpad.aligned
  have htotal := hpad.total
  have hstart := encodeStream_start seq hlen hpad hf
  generalize hbl : 1+payload.length+paddingFor payload.length c.blockSize (!mac.etm) =
    bodyLen at hplain hal htotal
  cases hm : mac.etm with
  | true =>
    simp only [hm,Bool.not_true,Bool.false_eq_true,if_false,Nat.zero_add] at hal
    have hdrop : (plain.drop 4).length=bodyLen := by
      rw [length_drop,hplain.length]
      omega
    obtain ⟨e,c',henc,hdec,helen,hc',hbs'⟩ :=
      SshCipher.decryptBlocks_encryptBlocks hP hc (hdrop.symm ▸ hal)
    refine ⟨plain.take 4++e++mac.compute P seq (plain.take 4++e),c',rng',?_,hc',?_⟩
    · rw [hstart,if_pos hm,bind_of_ok (onFst_of henc rng')]
      rfl
    · have hreads : Framing.Reads (fun buf => decodeStreamEtm seq buf mac) c
          (plain.take 4++e++mac.compute P seq (plain.take 4++e)) payload c' :=
        .of_eq fun buf hbuf => decodeStreamEtm_eq hP hplain hal
          (Nat.le_of_dvd (by omega) hal) hdec (helen.trans hdrop) rfl hbuf
      refine hreads.embed _ (fun x => (x,(none : Option Bytes))) fun buf x => ?_
      simp only [decodeStream,hm,if_true,onFst,zoom_apply]
  | false =>
    have htotal := htotal (by rw [hm]; rfl)
    simp only [hm] at hal
    have hmin : minTotalLen=16 := rfl
    obtain ⟨e,c',henc,hdec,helen,hc',hbs'⟩ :=
      SshCipher.decryptBlocks_encryptBlocks hP hc (hplain.length.symm ▸ hal)
    rw [hplain.length] at helen
    have htake : (e.take c.blockSize).length=c.blockSize := by
      rw [length_take]
      omega
    have hdrop : c.blockSize ∣ (e.drop c.blockSize).length := by
      rw [length_drop,helen]
      exact Nat.dvd_sub hal (Nat.dvd_refl _)
    have hsplit := hdec
    rw [← take_append_drop c.blockSize e] at hsplit
    obtain ⟨first,c₁,rest,hfirst,hrest,hplit,hflen,hbs₁,-⟩ :=
      SshCipher.decryptBlocks_append hP hc (htake.symm ▸ Nat.dvd_refl _) hdrop hsplit
    refine ⟨e++mac.compute P seq plain,c',rng',?_,hc',?_⟩
    · rw [hstart,if_neg (by simp [hm]),bind_of_ok (onFst_of henc rng')]
      rfl
    · have hframe : EamFrame seq mac payload plain e (e++mac.compute P seq plain) first rest
          bodyLen c c₁ c' := by
        refine ⟨hplain,hal,htotal,helen,rfl,hplit,hflen.trans htake,hbs₁,by omega,hfirst,?_⟩
        split
        · exact hrest
        · next hgt =>
          have heq : e.take c.blockSize=e := take_of_length_le (by omega)
          rw [heq,hdec] at hfirst
          obtain ⟨hp,rfl⟩ := Prod.mk.inj hfirst
          rw [Except.ok.inj hp] at hplit
          exact ⟨self_eq_append_right.1 hplit,rfl⟩
      refine (hframe.reads hP).embed _ id fun buf x => ?_
      simp only [decodeStream,hm,Bool.false_eq_true,if_false,id]

theorem encodeGcm_ok (hP : P.Lawful) (hlen : payload.length< maxEncodablePayload)
    (hg : g.invocation.toNat+1<2^64) (rng : Rng) : ∃ f rng',
      encodeGcm payload ((.gcm g : SshCipher P),rng)=(.ok f,(.gcm g.next,rng')) ∧
      Framing.Reads decodeGcm (.gcm g : SshCipher P) f payload (.gcm g.next) := by
  have hpad := paddingFor_spec payload.length (.inr rfl : 16=8 ∨ 16=16) false
  obtain ⟨plain,rng',hf,hplain⟩ := plainFrame_ok hlen hpad.four hpad.small rng
  have hal : 16 ∣ 1+payload.length+paddingFor payload.length 16 false := by
    simpa using hpad.aligned
  refine ⟨_,rng',?_,.of_eq fun buf hbuf => decodeGcm_eq hP hplain hal
    (Nat.le_of_dvd (by omega) hal) hg rfl hbuf⟩
  have hframe := onSnd_of hf (.gcm g : SshCipher P)
  have hseal : (onFst (SshCipher.aeadSealLenAad (plain.take 4) (plain.drop 4)) :
      Proc Error (SshCipher P × Rng) (Bytes × Bytes)) (.gcm g,rng') =
      (.ok (P.gcmEncrypt g.key g.nonce (plain.take 4) (plain.drop 4)),(.gcm g.next,rng')) := by
    simp only [onFst,zoom_apply,SshCipher.aeadSealLenAad,GcmState.seal_ok hg]
  rw [encodeGcm,not_within hlen,if_neg Bool.false_ne_true,bind_of_ok hframe,bind_of_ok hseal]
  rfl

theorem encodeChachapoly_ok (hP : P.Lawful) (hlen : payload.length< maxEncodablePayload)
    (c : ChaChaPoly) (seq : UInt32) (rng : Rng) :
    ∃ f rng', encodeChachapoly seq payload (.chachaPoly c : SshCipher P) rng=(.ok f,rng') ∧
      ∀ buf, buf <+: f ∨ f <+: buf → decodeChachapoly seq buf (.chachaPoly c : SshCipher P) =
          if buf.length<f.length then .ok none else .ok (some (payload,f.length)) := by
  have hpad := paddingFor_spec payload.length (.inl rfl : 8=8 ∨ 8=16) false
  obtain ⟨plain,rng',hf,hplain⟩ := plainFrame_ok hlen hpad.four hpad.small rng
  have hal : 8 ∣ 1+payload.length+paddingFor payload.length 8 false := by
    simpa using hpad.aligned
  refine ⟨_,rng',?_,fun buf hbuf => decodeChachapoly_eq hP hplain hal
    (Nat.le_of_dvd (by omega) hal) rfl hbuf⟩
  rw [encodeChachapoly,not_within hlen,if_neg Bool.false_ne_true,bind_of_ok hf]
  rfl

/-! The codec. -/

/- A slot that can still send `n` packets: the cipher is of the slot's family and the counter
   of AES-GCM has room. -/
def CipherSlot.Ready (n : Nat) : CipherSlot P → Prop
  | .none => True
  | .stream cipher _ => cipher.isAead=false
  | .gcm (.gcm g) => g.invocation.toNat+n<2^64
  | .chachaPoly (.chachaPoly _) => True
  | _ => False

/- The receiver's slot is in the state of the sender's, no block is pending and neither side
   compresses. -/
structure InSync (c d : PacketCodec P) : Prop where
  slot : d.inbound=c.outbound
  seq : d.seqIn=c.seqOut
  pending : d.pendingFirstBlock=none
  plain : c.outboundCompress.compressing=false
  plain' : d.inboundDecompress.decompressing=false

namespace PacketCodec

theorem decodeFrame_nil (hP : P.Lawful) (d : PacketCodec P) : decodeFrame [] d=(.ok none,d) := by
  cases hin : d.inbound with
  | none => simp only [decodeFrame,get_bind,hin]; rfl
  | stream cipher mac =>
    have hpos : (0 : Nat)<cipher.blockSize := by
      have := cipher.blockSize_cases hP
      omega
    have hdec : decodeStream d.seqIn [] mac (cipher,d.pendingFirstBlock) =
        (.ok none,(cipher,d.pendingFirstBlock)) := by
      unfold decodeStream
      split
      · rfl
      · exact congrFun (if_pos hpos) _
    simp only [decodeFrame,get_bind,hin,zoom_apply,hdec]
    rw [← hin]
  | gcm cipher =>
    have hdec : decodeGcm [] cipher=(.ok none,cipher) := rfl
    simp only [decodeFrame,get_bind,hin,zoom_apply,hdec]
    rw [← hin]
  | chachaPoly cipher => simp only [decodeFrame,get_bind,hin]; rfl

variable {c d d' : PacketCodec P} {n : Nat} {payload f : Bytes}

/- What `encodeFrame` makes of a short payload, `decodeFrame` reads. -/
theorem encodeFrame_reads (hP : P.Lawful) (hs : InSync c d) (hr : c.outbound.Ready (n+1))
    (hlen : payload.length< maxEncodablePayload) (rng : Rng) : ∃ f slot rng',
      encodeFrame payload (c,rng)=(.ok f,({ c with outbound := slot },rng')) ∧
      Framing.Reads decodeFrame d f payload { d with inbound := slot } ∧ slot.Ready n := by
  obtain ⟨hslot,hseq,hpend,-,-⟩ := hs
  cases hout : c.outbound with
  | none =>
    obtain ⟨f,rng',henc,hdec⟩ := encodeCleartext_ok hlen rng
    refine ⟨f,.none,rng',?_,.of_eq fun buf hbuf => ?_,trivial⟩
    · simp only [encodeFrame,get_bind,hout,onSnd,zoom_apply,henc]
      rw [← hout]
    · simp only [decodeFrame,get_bind,hslot,hout,hdec buf hbuf]
      rw [← hout,← hslot]
      split <;> rfl
  | stream cipher mac =>
    rw [hout] at hr hslot
    obtain ⟨f,c',rng',henc,hc',hreads⟩ := encodeStream_ok hP hlen hr mac c.seqOut rng
    refine ⟨f,.stream c' mac,rng',?_,?_,hc'⟩
    · simp only [encodeFrame,get_bind,hout,zoom_apply,henc]
    · have hemb := hreads.embed decodeFrame
        (fun x => { d with inbound := .stream x.1 mac, pendingFirstBlock := x.2 })
        (fun buf x => by simp only [decodeFrame,get_bind,zoom_apply,hseq])
      simpa only [← hslot,← hpend] using hemb
  | gcm cipher =>
    rw [hout] at hr hslot
    cases cipher with
    | gcm g =>
      have hg : g.invocation.toNat+(n+1)<2^64 := hr
      have hg₁ : g.invocation.toNat+1<2^64 := by omega
      obtain ⟨f,rng',henc,hreads⟩ := encodeGcm_ok hP hlen hg₁ rng
      refine ⟨f,.gcm (.gcm g.next),rng',?_,?_,?_⟩
      · simp only [encodeFrame,get_bind,hout,zoom_apply,henc]
      · have hemb := hreads.embed decodeFrame (fun x => { d with inbound := .gcm x })
          (fun buf x => by simp only [decodeFrame,get_bind,zoom_apply])
        simpa only [← hslot] using hemb
      · have hnext : g.next.invocation.toNat=g.invocation.toNat+1 := by
          change (g.invocation.toNat+1)%2^64=_
          omega
        change g.next.invocation.toNat+n<2^64
        omega
    | _ => exact hr.elim
  | chachaPoly cipher =>
    rw [hout] at hr hslot
    cases cipher with
    | chachaPoly k =>
      obtain ⟨f,rng',henc,hdec⟩ := encodeChachapoly_ok hP hlen k c.seqOut rng
      rw [← hseq] at hdec
      refine ⟨f,.chachaPoly (.chachaPoly k),rng',?_,.of_eq fun buf hbuf => ?_,trivial⟩
      · simp only [encodeFrame,get_bind,hout,onSnd,zoom_apply,henc]
        rw [← hout]
      · simp only [decodeFrame,get_bind,hslot,hdec buf hbuf]
        rw [← hslot]
        split <;> rfl
    | _ => exact hr.elim

/- `decode` together with the sequence number it leaves behind. -/
def poll (buf : Bytes) : Proc Error (PacketCodec P) (Option ((Bytes × UInt32) × Nat)) := do
  match ← decode buf with
  | none => return none
  | some (payload,consumed) =>
    let c ← get
    return some ((payload,c.seqIn),consumed)

/- The frames of a list of payloads; beside each one its payload and the sequence number
   after it. -/
def encodeAll : List Bytes → Proc Error (PacketCodec P × Rng) (List (Bytes × (Bytes × UInt32)))
  | [] => return []
  | payload::payloads => do
    let frame ← encode payload
    let (c,_) ← get
    let frames ← encodeAll payloads
    return (frame,(payload,c.seqOut))::frames

def received (d : PacketCodec P) (n : Nat) : PacketCodec P :=
  { d with seqIn := d.seqIn+1, bytesIn := addBytes d.bytesIn n }

theorem decode_reads (h : Framing.Reads decodeFrame d f payload d')
    (hplain : d'.inboundDecompress.decompressing=false) :
    Framing.Reads decode d f payload (d'.received f.length) := by
  refine h.follow decode ?_ ?_
  · intro buf t t' ht
    rw [decode,bind_of_ok ht]
    rfl
  · intro buf t ht
    have hfrom : fromFrame payload (d'.received f.length)=(.ok payload,d'.received f.length) := by
      exact congrFun (if_neg (by rw [received,hplain]; exact Bool.false_ne_true)) _
    rw [decode,bind_of_ok ht]
    exact bind_of_ok hfrom _

theorem poll_reads (h : Framing.Reads decode d f payload d') :
    Framing.Reads poll d f (payload,d'.seqIn) d' := by
  refine h.follow poll ?_ ?_
  · intro buf t t' ht
    rw [poll,bind_of_ok ht]
    rfl
  · intro buf t ht
    rw [poll,bind_of_ok ht]
    rfl

theorem poll_nil (hP : P.Lawful) (d : PacketCodec P) : poll [] d=(.ok none,d) := by
  have hdec : decode [] d=(.ok none,d) := by
    rw [decode,bind_of_ok (decodeFrame_nil hP d)]
    rfl
  rw [poll,bind_of_ok hdec]
  rfl

/- One packet keeps the two codecs in step. -/
theorem encode_reads (hP : P.Lawful) (hs : InSync c d) (hr : c.outbound.Ready (n+1))
    (hlen : payload.length< maxEncodablePayload) (rng : Rng) : ∃ f c' rng' d',
      encode payload (c,rng)=(.ok f,(c',rng')) ∧
      Framing.Reads poll d f (payload,c'.seqOut) d' ∧ InSync c' d' ∧ c'.outbound.Ready n := by
  obtain ⟨f,slot,rng',henc,hreads,hready⟩ := encodeFrame_reads hP hs hr hlen rng
  have hto : (onFst (toFrame payload) : Proc Error (PacketCodec P × Rng) Bytes) (c,rng) =
      (.ok payload,(c,rng)) := by
    refine onFst_of ?_ rng
    exact congrFun (if_neg (by rw [hs.plain]; exact Bool.false_ne_true)) _
  refine ⟨f,{ c with outbound := slot, seqOut := c.seqOut+1,
                      bytesOut := addBytes c.bytesOut f.length },rng',
    { d with inbound := slot }.received f.length,?_,?_,?_,hready⟩
  · rw [encode,bind_of_ok hto,bind_of_ok henc]
    rfl
  · have hpoll := poll_reads (decode_reads hreads hs.plain')
    have hseq : ({ d with inbound := slot }.received f.length).seqIn=c.seqOut+1 :=
      congrArg (· + 1) hs.seq
    rwa [hseq] at hpoll
  · exact ⟨rfl,congrArg (· + 1) hs.seq,hs.pending,hs.plain,hs.plain'⟩

theorem encodeAll_reads (hP : P.Lawful) {payloads : List Bytes} (hs : InSync c d)
    (hr : c.outbound.Ready payloads.length) (hlen : ∀ p∈payloads, p.length< maxEncodablePayload)
    (rng : Rng) : ∃ frames s',
      encodeAll payloads (c,rng)=(.ok frames,s') ∧ frames.map (·.2.1)=payloads ∧
      Framing.ReadsAll poll d frames := by
  induction payloads generalizing c d rng with
  | nil => exact ⟨[],_,rfl,rfl,poll_nil hP d⟩
  | cons p ps ih =>
    obtain ⟨f,c',rng',d',henc,hreads,hs',hr'⟩ :=
      encode_reads hP hs hr (hlen p mem_cons_self) rng
    obtain ⟨frames,s',hrest,hmap,hall⟩ :=
      ih hs' hr' (fun q hq => hlen q (mem_cons_of_mem p hq)) rng'
    refine ⟨(f,(p,c'.seqOut))::frames,s',?_,by simp [hmap],d',hreads,hall⟩
    rw [encodeAll,bind_of_ok henc]
    exact bind_of_ok hrest _

end PacketCodec

/-- Whatever padding is drawn and however the bytes arrive: the receiver asks for more on every
proper prefix of a frame and then returns its payload, uses exactly its bytes and has the
sender's sequence number. -/
theorem decode_encode_chunked (hP : P.Lawful) {c d : PacketCodec P} (hs : InSync c d)
    {payloads : List Bytes} (hr : c.outbound.Ready payloads.length)
    (hlen : ∀ p∈payloads, p.length< maxEncodablePayload) (rng : Rng) :
    ∃ frames s', encodeAll payloads (c,rng)=(.ok frames,s') ∧ frames.map (·.2.1)=payloads ∧
      ∀ incs : List Bytes, incs.flatten <+: (frames.map Prod.fst).flatten →
        Framing.receive poll incs [] d = .ok (Framing.expected frames 0 (incs.map length)) := by
  obtain ⟨frames,s',henc,hmap,hall⟩ := encodeAll_reads hP hs hr hlen rng
  exact ⟨frames,s',henc,hmap,fun incs hincs => Framing.receive_eq_expected hall hincs⟩

/- Triple DES with a truncated encrypt-and-MAC tag, in both directions. -/
def tdesSlot : CipherSlot Primitives.null :=
  .stream (.cbc (Primitives.null.tdesCbcNew (replicate 24 5) [1,2,3,4,5,6,7,8]))
    (.hmac .sha1 [] 12 false (by decide))

theorem decode_encode_chunked_tdes : ∃ frames s', encodeAll [[1,2,3],[]]
      ({ new with outbound := tdesSlot },fun _ => 7)=(.ok frames,s') ∧
    frames.map (·.2.1)=[[1,2,3],[]] ∧
    ∀ incs : List Bytes, incs.flatten <+: (frames.map Prod.fst).flatten →
      Framing.receive poll incs []
        ({ new with inbound := tdesSlot } : PacketCodec Primitives.null) =
          .ok (Framing.expected frames 0 (incs.map length)) := by
  have hs : InSync ({ new with outbound := tdesSlot } : PacketCodec Primitives.null)
      { new with inbound := tdesSlot } := ⟨rfl,rfl,rfl,rfl,rfl⟩
  have hr : tdesSlot.Ready [[1,2,3],([] : Bytes)].length := rfl
  exact decode_encode_chunked Primitives.null_lawful hs hr (by decide) _

end PureSsh.Transport
