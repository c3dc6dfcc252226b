import PureSsh.Transport.RoundTrip

/-! No input makes a decoder of `hazmat/transport/packet.rs` panic: every index, slice and
subtraction it checks is in bounds. -/

namespace PureSsh.Transport
open Lib List Proc Checked
variable {P : Primitives}

/- All that is assumed of the ciphers: they work in place, on blocks of 8 or 16 bytes. What they
   make of the bytes is up to the peer. The inflater returns an error or some bytes. -/
structure Primitives.InPlace (P : Primitives) : Prop where
  ctr_length : ∀ s b, (P.ctrApplyKeystream s b).1.length=b.length
  cbc_blockSize : ∀ s, P.cbcBlockSize s=8 ∨ P.cbcBlockSize s=16
  cbc_decrypt_length : ∀ s c b s', P.cbcDecrypt s c=some (b,s') →
    b.length=c.length ∧ P.cbcBlockSize s'=P.cbcBlockSize s
  gcm_decrypt_length : ∀ k n aad c tag b, P.gcmDecrypt k n aad c tag=some b →
    b.length=c.length
  chacha_length : ∀ k n i b, (P.chachaApplyKeystream k n i b).length=b.length
  inflate_no_panic : ∀ b s msg, (P.inflateStep b s).1 ≠ .error (.panic msg)

namespace CipherSlot

def tagLen : CipherSlot P → Nat
  | .none => 0
  | .stream _ mac => mac.tagLen
  | .gcm _ | .chachaPoly _ => 16

/- How many bytes a decoder waits for before it reads the length field. -/
def headLen : CipherSlot P → Nat
  | .none => 5
  | .stream cipher mac => if mac.etm then 4 else cipher.blockSize
  | .gcm _ | .chachaPoly _ => 4

/- A bad length of an encrypt-and-MAC packet under CBC is not reported at once. -/
def HoldsBack (n : UInt32) : CipherSlot P → Prop
  | .stream cipher mac =>
    mac.etm=false ∧ cipher.isCbc=true ∧ (lengthErr n cipher.blockSize).isSome=true
  | _ => False

end CipherSlot

/- The first block of an encrypt-and-MAC packet, decrypted, and the cipher after it. -/
def SshCipher.firstBlock (cipher : SshCipher P) (buf : Bytes) :
    Option Bytes → Result Bytes × SshCipher P
  | some b => (.ok b,cipher)
  | none => decryptBlocks (buf.take cipher.blockSize) cipher

/- The length field as the decoder of the slot reads it. -/
def PacketCodec.announced (c : PacketCodec P) (buf : Bytes) : Result UInt32 :=
  match c.inbound with
  | .none | .gcm _ => lengthField buf
  | .stream cipher mac =>
    if mac.etm then lengthField buf
    else (cipher.firstBlock buf c.pendingFirstBlock).1 >>= lengthField
  | .chachaPoly cipher => cipher.cpXorLength c.seqIn.toUInt64 (buf.take 4) >>= lengthField

/- A packet of that length behind its length field, as the decoder decrypts it. -/
def PacketCodec.opened (c : PacketCodec P) (buf : Bytes) (n : UInt32) : Result Bytes :=
  let body := (buf.take (4+n.toNat)).drop 4
  match c.inbound with
  | .none => .ok body
  | .stream cipher mac =>
    if mac.etm then (cipher.decryptBlocks body).1
    else do
      let first ← (cipher.firstBlock buf c.pendingFirstBlock).1
      let rest ← (decryptRest buf cipher.blockSize (4+n.toNat)
        ((cipher.firstBlock buf c.pendingFirstBlock).2,none)).1
      return (first++rest).drop 4
  | .gcm cipher => (cipher.aeadOpenLenAad (buf.take 4) body
      ((buf.take (4+n.toNat+16)).drop (4+n.toNat))).1
  | .chachaPoly cipher => cipher.cpXorPayload c.seqIn.toUInt64 body

/- A first block kept for an encrypt-and-MAC packet is one block long. -/
def PacketCodec.PendingOk (c : PacketCodec P) : Prop :=
  ∀ cipher mac b, c.inbound = .stream cipher mac → mac.etm=false →
    c.pendingFirstBlock=some b → b.length=cipher.blockSize

/- What a decoder may say about a buffer. `framed` is a payload as it stood in its frame, between the
   byte with the length of the padding and the padding. -/
inductive Decoded (slot : CipherSlot P) (announced : Result UInt32) (opened : UInt32 → Result Bytes)
    (buf : Bytes) : Result (Option (Bytes × Nat)) → Prop
  | failed (e : Error) (noPanic : ∀ msg, e ≠ .panic msg) :
      Decoded slot announced opened buf (.error e)
  | short (h : buf.length<slot.headLen) : Decoded slot announced opened buf (.ok none)
  | more (n : UInt32) (ann : announced = .ok n)
      (h : buf.length<4+n.toNat+slot.tagLen ∨ slot.HoldsBack n ∧ buf.length< maxPacketLen.toNat) :
      Decoded slot announced opened buf (.ok none)
  | framed (n : UInt32) (pad : UInt8) (payload padding : Bytes) (ann : announced = .ok n)
      (limit : n.toNat≤ maxPacketLen.toNat) (complete : 4+n.toNat+slot.tagLen≤buf.length)
      (least : 8≤n.toNat) (low : 4≤pad.toNat) (body : opened n = .ok (pad::(payload++padding)))
      (padded : padding.length=pad.toNat) (filled : payload.length+pad.toNat+1=n.toNat) :
      Decoded slot announced opened buf (.ok (some (payload,4+n.toNat+slot.tagLen)))

section Facts
variable {slot : CipherSlot P} {announced : Result UInt32} {opened : UInt32 → Result Bytes}
  {buf : Bytes}

theorem lengthField_ok {b : Bytes} (h : 4≤b.length) : ∃ n, lengthField b = .ok n := by
  rcases b with _ | ⟨a,_ | ⟨b,_ | ⟨c,_ | ⟨d,rest⟩⟩⟩⟩
  · simp at h
  · simp at h
  · simp at h
  · simp at h
  · exact ⟨_,rfl⟩

variable {n : UInt32} {mac : SshMac} {blockSize : Nat} {c : PacketCodec P}

theorem Decoded.unpadded {body : Bytes} (ann : announced = .ok n)
    (limit : n.toNat≤ maxPacketLen.toNat) (complete : 4+n.toNat+slot.tagLen≤buf.length)
    (least : 8≤n.toNat) (hopened : opened n = .ok body) (hbody : body.length=n.toNat) :
    Decoded slot announced opened buf
      ((unpad body).map fun payload => some (payload,4+n.toNat+slot.tagLen)) := by
  cases body with
  | nil =>
    rw [← hbody] at least
    exact absurd least (by decide)
  | cons p rest =>
    rw [unpad]
    split
    · exact .failed _ (by simp)
    next hpad =>
    split
    · exact .failed _ (by simp)
    next hfit =>
    rw [length_cons] at hbody hfit
    have hpayload : ((p::rest).take ((p::rest).length-p.toNat)).drop 1=rest.take (rest.length-p.toNat) := by
      rw [length_cons,show rest.length+1-p.toNat=rest.length-p.toNat+1 by omega]
      rfl
    dsimp only [Except.map]
    rw [hpayload]
    refine .framed n p _ (rest.drop (rest.length-p.toNat)) ann limit complete least
      (not_not.1 hpad).1 ?_ ?_ ?_
    · rw [take_append_drop,hopened]
    · rw [length_drop]
      omega
    · rw [length_take]
      omega

theorem lift_bind_pure {σ α β : Type} (r : Result α) (f : α → β) (s : σ) :
    (lift r >>= fun a => (pure (f a) : Proc Error σ β)) s=(r.map f,s) := by
  cases r <;> rfl

theorem length_body {k : Nat} (h : 4+k≤buf.length) : ((buf.take (4+k)).drop 4).length=k := by
  rw [length_drop,length_take,Nat.min_eq_left h,Nat.add_sub_cancel_left]

theorem SshMac.verify_cases (mac : SshMac) (seq : UInt32) (msg tag : Bytes) :
    mac.verify P seq msg tag = .ok () ∨ mac.verify P seq msg tag = .error .badMac := by
  rw [SshMac.verify]
  split
  · exact .inl rfl
  · exact .inr rfl

theorem decodeCleartext_decoded : Decoded (.none : CipherSlot P) (lengthField buf)
      (fun n => .ok ((buf.take (4+n.toNat)).drop 4)) buf (decodeCleartext buf) := by
  rw [decodeCleartext]
  split
  · next hlt => exact .short hlt
  next hhead =>
  obtain ⟨n,hn⟩ := lengthField_ok (show 4≤buf.length by omega)
  rw [hn,except_ok_bind]
  split
  · exact .failed _ (by simp)
  next hmax =>
  dsimp only
  split
  · exact .failed _ (by simp)
  next hmin =>
  rw [(add32_four hmax).1,except_ok_bind]
  split
  · exact .failed _ (by simp)
  split
  · next hlt => exact .more n rfl (.inl hlt)
  next htotal =>
  rw [minTotalLen] at hmin
  rw [cleartextPayload_eq (Nat.not_lt.1 htotal) (by omega),payloadAt_eq]
  exact Decoded.unpadded rfl (toNat_le_max hmax) (Nat.not_lt.1 htotal) (by omega) rfl
    (length_body (Nat.not_lt.1 htotal))

variable {cipher : SshCipher P}

theorem blockSize_eq (hP : P.InPlace) (c : SshCipher P) : c.blockSize=8 ∨ c.blockSize=16 := by
  cases c with
  | cbc s => exact hP.cbc_blockSize s
  | ctr s => exact .inr rfl
  | gcm g => exact .inr rfl
  | chachaPoly k => exact .inr rfl

/-- Decryption gives as many bytes back, or an error, and never changes the block size. -/
theorem decryptBlocks_cases (hP : P.InPlace) (b : Bytes) (c : SshCipher P) :
    (∃ out c', SshCipher.decryptBlocks b c=(.ok out,c') ∧ out.length=b.length ∧
      c'.blockSize=c.blockSize) ∨
    ∃ e, SshCipher.decryptBlocks b c=(.error e,c) ∧ ∀ msg, e ≠ .panic msg := by
  cases c with
  | ctr s => exact .inl ⟨_,_,rfl,hP.ctr_length s b,rfl⟩
  | gcm g => exact .inr ⟨_,rfl,by simp⟩
  | chachaPoly k => exact .inr ⟨_,rfl,by simp⟩
  | cbc s =>
    change (∃ out c', SshCipher.runCbc P.cbcDecrypt s b=(.ok out,c') ∧ _) ∨
      ∃ e, SshCipher.runCbc P.cbcDecrypt s b=(.error e,_) ∧ _
    cases hdec : P.cbcDecrypt s b with
    | none =>
      rw [SshCipher.runCbc,hdec]
      exact .inr ⟨_,rfl,by simp⟩
    | some x =>
      obtain ⟨hlen,hsize⟩ := hP.cbc_decrypt_length s b x.1 x.2 hdec
      rw [SshCipher.runCbc,hdec]
      exact .inl ⟨_,_,rfl,hlen,hsize⟩

theorem decodeStreamEtm_decoded (hP : P.InPlace) (hetm : mac.etm=true) (seq : UInt32) :
    Decoded (.stream cipher mac) (lengthField buf)
      (fun n => (cipher.decryptBlocks ((buf.take (4+n.toNat)).drop 4)).1) buf
      (decodeStreamEtm seq buf mac cipher).1 := by
  rw [decodeStreamEtm,get_bind]
  split
  · next hlt => exact .short (by rw [CipherSlot.headLen,if_pos hetm]; exact hlt)
  next hhead =>
  obtain ⟨n,hn⟩ := lengthField_ok (Nat.not_lt.1 hhead)
  rw [hn,lift_ok_bind]
  split
  · exact .failed _ (by simp)
  next hmax =>
  dsimp only
  split
  · exact .failed _ (by simp)
  split
  · exact .failed _ (by simp)
  next hblock =>
  split
  · next hlt => exact .more n rfl (.inl hlt)
  next htotal =>
  rw [slice_zero (by omega),lift_ok_bind,slice_eq (by omega) (by omega),lift_ok_bind,
    slice_eq (by omega) (by omega)]
  rcases SshMac.verify_cases (P := P) mac seq (buf.take (4+n.toNat))
    ((buf.take (4+n.toNat+mac.tagLen)).drop (4+n.toNat)) with hok | hbad
  · rw [hok,lift_ok_bind,lift_ok_bind]
    rcases decryptBlocks_cases hP ((buf.take (4+n.toNat)).drop 4) cipher with
      ⟨out,c',hdec,hlen,-⟩ | ⟨e,hdec,he⟩
    · rw [bind_of_ok hdec,lift_bind_pure,payloadAt_eq,drop_zero]
      have hsize := blockSize_eq hP cipher
      exact Decoded.unpadded rfl (toNat_le_max hmax) (Nat.not_lt.1 htotal) (by omega)
        (by rw [hdec]) (hlen.trans (length_body (by omega)))
    · rw [bind_of_error hdec]
      exact .failed e he
  · rw [hbad]
    exact .failed _ (by simp)

theorem GcmState.step_cases (g : GcmState) : GcmState.step g=(.ok (),g.next) ∨
      GcmState.step g=(.error (.crypto "aes-gcm invocation counter exhausted"),g) := by
  by_cases h : g.invocation.toNat+1<2^64
  · exact .inl (GcmState.step_ok h)
  · right
    rw [GcmState.step,get_bind,if_neg h]
    rfl

theorem GcmState.open_cases (hP : P.InPlace) (aad b tag : Bytes) (g : GcmState) :
    (∃ out g', GcmState.open P aad b tag g=(.ok out,g') ∧ out.length=b.length) ∨
    ∃ e g', GcmState.open P aad b tag g=(.error e,g') ∧ ∀ msg, e ≠ .panic msg := by
  by_cases htag : tag.length≠16
  · rw [GcmState.open,get_bind,if_pos htag]
    exact .inr ⟨_,_,rfl,by simp⟩
  cases hdec : P.gcmDecrypt g.key g.nonce aad b tag with
  | none =>
    rw [GcmState.open,get_bind,if_neg htag,hdec]
    exact .inr ⟨_,_,rfl,by simp⟩
  | some out =>
    have hopen : GcmState.open P aad b tag g =
        (GcmState.step >>= fun _ => (pure out : Proc Error GcmState Bytes)) g := by
      rw [GcmState.open,get_bind,if_neg htag,hdec]
      rfl
    rw [hopen]
    rcases GcmState.step_cases g with hok | hfull
    · rw [bind_of_ok hok]
      exact .inl ⟨out,_,rfl,hP.gcm_decrypt_length _ _ _ _ _ _ hdec⟩
    · rw [bind_of_error hfull]
      exact .inr ⟨_,_,rfl,by simp⟩

theorem aeadOpenLenAad_cases (hP : P.InPlace) (aad b tag : Bytes) (c : SshCipher P) :
    (∃ out c', SshCipher.aeadOpenLenAad aad b tag c=(.ok out,c') ∧ out.length=b.length) ∨
    ∃ e c', SshCipher.aeadOpenLenAad aad b tag c=(.error e,c') ∧ ∀ msg, e ≠ .panic msg := by
  cases c with
  | ctr s => exact .inr ⟨_,_,rfl,by simp⟩
  | cbc s => exact .inr ⟨_,_,rfl,by simp⟩
  | chachaPoly k => exact .inr ⟨_,_,rfl,by simp⟩
  | gcm g =>
    rw [SshCipher.aeadOpenLenAad]
    rcases GcmState.open_cases hP aad b tag g with ⟨out,g',hopen,hlen⟩ | ⟨e,g',hopen,he⟩
    · rw [hopen]
      exact .inl ⟨out,_,rfl,hlen⟩
    · rw [hopen]
      exact .inr ⟨e,_,rfl,he⟩

theorem decodeGcm_decoded (hP : P.InPlace) :
    Decoded (.gcm cipher) (lengthField buf) (fun n => (cipher.aeadOpenLenAad (buf.take 4)
      ((buf.take (4+n.toNat)).drop 4) ((buf.take (4+n.toNat+16)).drop (4+n.toNat))).1) buf
      (decodeGcm buf cipher).1 := by
  rw [decodeGcm]
  split
  · next hlt => exact .short hlt
  next hhead =>
  obtain ⟨n,hn⟩ := lengthField_ok (Nat.not_lt.1 hhead)
  rw [hn,lift_ok_bind]
  split
  · exact .failed _ (by simp)
  next hmax =>
  dsimp only
  split
  · exact .failed _ (by simp)
  split
  · exact .failed _ (by simp)
  next hblock =>
  split
  · next hlt => exact .more n rfl (.inl hlt)
  next htotal =>
  rw [slice_zero (by omega),lift_ok_bind,slice_eq (by omega) (by omega),lift_ok_bind,
    slice_eq (by omega) (by omega),lift_ok_bind]
  rcases aeadOpenLenAad_cases hP (buf.take 4) ((buf.take (4+n.toNat)).drop 4)
    ((buf.take (4+n.toNat+16)).drop (4+n.toNat)) cipher with
    ⟨out,c',hopen,hlen⟩ | ⟨e,c',hopen,he⟩
  · rw [bind_of_ok hopen,lift_bind_pure,payloadAt_eq,drop_zero]
    exact Decoded.unpadded rfl (toNat_le_max hmax) (Nat.not_lt.1 htotal) (by omega)
      (by rw [hopen]) (hlen.trans (length_body (by omega)))
  · rw [bind_of_error hopen]
    exact .failed e he

theorem verifyTag_cases (k : ChaChaPoly) (seq : UInt64) (encLen encPayload tag : Bytes) :
    k.verifyTag P seq encLen encPayload tag = .ok () ∨
      ∃ e, k.verifyTag P seq encLen encPayload tag = .error e ∧ ∀ msg, e ≠ .panic msg := by
  rw [ChaChaPoly.verifyTag]
  split
  · exact .inr ⟨_,rfl,by simp⟩
  split
  · exact .inl rfl
  · exact .inr ⟨_,rfl,by simp⟩

theorem decodeChachapoly_decoded (hP : P.InPlace) (seq : UInt32) : Decoded (.chachaPoly cipher)
      (cipher.cpXorLength seq.toUInt64 (buf.take 4) >>= lengthField)
      (fun n => cipher.cpXorPayload seq.toUInt64 ((buf.take (4+n.toNat)).drop 4)) buf
      (decodeChachapoly seq buf cipher) := by
  rw [decodeChachapoly]
  split
  · next hlt => exact .short hlt
  next hhead =>
  rw [slice_zero (by omega),except_ok_bind]
  cases cipher with
  | ctr s => exact .failed _ (by simp)
  | cbc s => exact .failed _ (by simp)
  | gcm g => exact .failed _ (by simp)
  | chachaPoly k =>
    have hxor : (SshCipher.chachaPoly k : SshCipher P).cpXorLength seq.toUInt64 (buf.take 4) =
        .ok (k.xorLength P seq.toUInt64 (buf.take 4)) := rfl
    have hfour : 4≤(k.xorLength P seq.toUInt64 (buf.take 4)).length := by
      rw [ChaChaPoly.xorLength,hP.chacha_length,length_take]
      omega
    obtain ⟨n,hn⟩ := lengthField_ok hfour
    rw [hxor,except_ok_bind,except_ok_bind,hn,except_ok_bind]
    split
    · exact .failed _ (by simp)
    next hmax =>
    dsimp only
    split
    · exact .failed _ (by simp)
    split
    · exact .failed _ (by simp)
    next hblock =>
    split
    · next hlt => exact .more n rfl (.inl hlt)
    next htotal =>
    rw [except_ok_bind,slice_eq (by omega) (by omega),except_ok_bind,
      slice_eq (by omega) (by omega),except_ok_bind,SshCipher.cpVerifyTag,SshCipher.withChaCha]
    rcases verifyTag_cases (P := P) k seq.toUInt64 (buf.take 4) ((buf.take (4+n.toNat)).drop 4)
      ((buf.take (4+n.toNat+16)).drop (4+n.toNat)) with hok | ⟨e,hbad,he⟩
    · rw [hok]
      simp only [payloadAt_eq,drop_zero]
      have hbody : (k.xorPayload P seq.toUInt64 ((buf.take (4+n.toNat)).drop 4)).length =
          n.toNat := by
        rw [ChaChaPoly.xorPayload,hP.chacha_length]
        exact length_body (by omega)
      exact Decoded.unpadded rfl (toNat_le_max hmax) (Nat.not_lt.1 htotal) (by omega) rfl hbody
    · rw [hbad]
      exact .failed e he

/- What `decode_stream` without encrypt-then-MAC leaves behind besides its answer. -/
structure EamLeft (blockSize : Nat) (s : SshCipher P × Option Bytes) : Prop where
  size : s.1.blockSize=blockSize
  pending : ∀ b, s.2=some b → b.length=blockSize

theorem decryptRest_cases (hP : P.InPlace) {stop : Nat} (hbuf : stop≤buf.length)
    (hstop : blockSize≤ stop) (c : SshCipher P) :
    (∃ rest c', decryptRest buf blockSize stop (c,none)=(.ok rest,(c',none)) ∧
      blockSize+rest.length=stop ∧ c'.blockSize=c.blockSize) ∨
    ∃ e, decryptRest buf blockSize stop (c,none)=(.error e,(c,none)) ∧ ∀ msg, e ≠ .panic msg := by
  rw [decryptRest]
  split
  · rw [slice_eq hstop hbuf,lift_ok_bind]
    rcases decryptBlocks_cases hP ((buf.take stop).drop blockSize) c with
      ⟨out,c',hdec,hlen,hsize⟩ | ⟨e,hdec,he⟩
    · left
      refine ⟨out,c',onFst_of hdec none,?_,hsize⟩
      rw [hlen,length_drop,length_take]
      omega
    · right
      exact ⟨e,onFst_of hdec none,he⟩
  · left
    refine ⟨[],c,rfl,?_,rfl⟩
    rw [length_nil]
    omega

theorem lengthErr_none (h : lengthErr n blockSize=none) :
    n.toNat≤ maxPacketLen.toNat ∧ (4+n.toNat)%blockSize=0 ∧ 16≤4+n.toNat := by
  rw [lengthErr] at h
  split at h
  · cases h
  next hmax =>
  split at h
  · cases h
  next halign =>
  split at h
  · cases h
  next hmin =>
  exact ⟨toNat_le_max hmax,not_not.1 halign,Nat.not_lt.1 hmin⟩

theorem decodeAfterFirst_decoded (hP : P.InPlace) (hetm : mac.etm=false) (seq : UInt32)
    {first : Bytes} (hfirst : first.length=cipher.blockSize) {c : SshCipher P}
    (hc : c.blockSize=cipher.blockSize) : Decoded (.stream cipher mac) (lengthField first)
        (fun n => do
          let rest ← (decryptRest buf cipher.blockSize (4+n.toNat) (c,none)).1
          return (first++rest).drop 4) buf
        (decodeAfterFirst seq buf mac cipher.blockSize cipher.isCbc first (c,none)).1 ∧
      EamLeft cipher.blockSize
        (decodeAfterFirst seq buf mac cipher.blockSize cipher.isCbc first (c,none)).2 := by
  have hsize := blockSize_eq hP cipher
  obtain ⟨n,hn⟩ := lengthField_ok (show 4≤first.length by omega)
  have hkept : EamLeft cipher.blockSize (c,some first) := by
    refine ⟨hc,?_⟩
    rintro b ⟨⟩
    exact hfirst
  have hnone : ∀ {c' : SshCipher P}, c'.blockSize=cipher.blockSize →
      EamLeft cipher.blockSize (c',none) := by
    intro c' hc'
    refine ⟨hc',?_⟩
    rintro b ⟨⟩
  rw [decodeAfterFirst,hn,lift_ok_bind]
  cases hlen : lengthErr n cipher.blockSize with
  | some msg =>
    split
    · next hcbc =>
      split
      · next hlt =>
        refine ⟨.more n rfl (.inr ⟨⟨hetm,hcbc,?_⟩,hlt⟩),hkept⟩
        rw [hlen]
        rfl
      · exact ⟨.failed _ (by simp),hnone hc⟩
    · exact ⟨.failed _ (by simp),hnone hc⟩
  | none =>
    obtain ⟨hmax,halign,hmin⟩ := lengthErr_none hlen
    dsimp only
    split
    · next hlt => exact ⟨.more n rfl (.inl hlt),hkept⟩
    next htotal =>
    rcases decryptRest_cases hP (show 4+n.toNat≤buf.length by omega)
      (show cipher.blockSize≤4+n.toNat by omega) c with
      ⟨rest,c',hrest,hlength,hc'⟩ | ⟨e,hrest,he⟩
    · rw [bind_of_ok hrest,slice_eq (by omega) (by omega),lift_ok_bind]
      rcases SshMac.verify_cases (P := P) mac seq (first++rest)
        ((buf.take (4+n.toNat+mac.tagLen)).drop (4+n.toNat)) with hok | hbad
      · rw [hok,lift_ok_bind,lift_bind_pure,payloadAt_eq]
        have hbody : ((first++rest).drop 4).length=n.toNat := by
          rw [length_drop,length_append]
          omega
        exact ⟨Decoded.unpadded rfl hmax (Nat.not_lt.1 htotal) (by omega) (by rw [hrest]; rfl) hbody,
          hnone (hc'.trans hc)⟩
      · rw [hbad]
        exact ⟨.failed _ (by simp),hnone (hc'.trans hc)⟩
    · rw [bind_of_error hrest]
      exact ⟨.failed e he,hnone hc⟩

theorem decodeStreamEam_decoded (hP : P.InPlace) (hetm : mac.etm=false) (seq : UInt32)
    {pending : Option Bytes} (hpending : ∀ b, pending=some b → b.length=cipher.blockSize)
    (buf : Bytes) :
    Decoded (.stream cipher mac) ((cipher.firstBlock buf pending).1 >>= lengthField) (fun n => do
          let first ← (cipher.firstBlock buf pending).1
          let rest ← (decryptRest buf cipher.blockSize (4+n.toNat)
            ((cipher.firstBlock buf pending).2,none)).1
          return (first++rest).drop 4) buf
        (decodeStreamEam seq buf mac (cipher,pending)).1 ∧
      EamLeft cipher.blockSize (decodeStreamEam seq buf mac (cipher,pending)).2 := by
  have hhead : (CipherSlot.stream cipher mac).headLen=cipher.blockSize := by
    rw [CipherSlot.headLen,hetm]
    rfl
  rw [decodeStreamEam,get_bind]
  dsimp only
  split
  · next hlt =>
    refine ⟨.short ?_,rfl,hpending⟩
    rw [hhead]
    exact hlt
  next hlong =>
  cases pending with
  | some b => exact decodeAfterFirst_decoded hP hetm seq (hpending b rfl) rfl
  | none =>
    have hset : (onSnd (set none) : Proc Error (SshCipher P × Option Bytes) Unit)
        (cipher,none)=(.ok (),(cipher,none)) := rfl
    rw [bind_of_ok hset,slice_zero (Nat.not_lt.1 hlong)]
    dsimp only
    rw [lift_ok_bind]
    rcases decryptBlocks_cases hP (buf.take cipher.blockSize) cipher with
      ⟨out,c',hdec,hlen,hsize⟩ | ⟨e,hdec,he⟩
    · have hfirst : out.length=cipher.blockSize := by
        rw [hlen,length_take]
        omega
      rw [SshCipher.firstBlock,hdec,bind_of_ok (onFst_of hdec none)]
      exact decodeAfterFirst_decoded hP hetm seq hfirst hsize
    · rw [bind_of_error (onFst_of hdec none)]
      exact ⟨.failed e he,rfl,hpending⟩

/-- Whatever the slot, the buffer and the ciphers, the answer is one of the allowed ones, and a
first block that is kept is one block long. -/
theorem decodeFrame_decoded (hP : P.InPlace) (hc : c.PendingOk) (buf : Bytes) :
    Decoded c.inbound (c.announced buf) (c.opened buf) buf (PacketCodec.decodeFrame buf c).1 ∧
      (PacketCodec.decodeFrame buf c).2.PendingOk := by
  unfold PacketCodec.opened
  rw [PacketCodec.decodeFrame,get_bind,PacketCodec.announced]
  cases hslot : c.inbound with
  | none => exact ⟨decodeCleartext_decoded,hc⟩
  | gcm g =>
    refine ⟨decodeGcm_decoded hP,?_⟩
    rintro cipher mac b ⟨⟩
  | chachaPoly k => exact ⟨decodeChachapoly_decoded hP c.seqIn,hc⟩
  | stream cipher mac =>
    dsimp only
    rw [decodeStream]
    cases hetm : mac.etm with
    | true =>
      refine ⟨decodeStreamEtm_decoded hP hetm c.seqIn,?_⟩
      rintro cipher' mac' b ⟨⟩ heam
      exact absurd (hetm.symm.trans heam) (by decide)
    | false =>
      have hpending : ∀ b, c.pendingFirstBlock=some b → b.length=cipher.blockSize :=
        fun b => hc cipher mac b hslot hetm
      have hboth := decodeStreamEam_decoded hP hetm c.seqIn hpending buf
      refine ⟨hboth.1,?_⟩
      rintro cipher' mac' b ⟨⟩-hb
      exact (hboth.2.pending b hb).trans hboth.2.size.symm

theorem fromFrame_cases (hP : P.InPlace) (framed : Bytes) (c : PacketCodec P) :
    ∃ r d, PacketCodec.fromFrame framed c=(r,{ c with inboundDecompress := d }) ∧
      (∀ msg, r ≠ .error (.panic msg)) ∧
      (c.inboundDecompress.decompressing=false → r = .ok framed) := by
  rw [PacketCodec.fromFrame,get_bind]
  split
  · next hon =>
    rw [zoom_apply]
    refine ⟨_,_,rfl,?_,fun hoff => absurd (hon.symm.trans hoff) (by decide)⟩
    intro msg
    cases c.inboundDecompress with
    | none => simp [Decompress.decompress]
    | zlib d => exact hP.inflate_no_panic framed d msg
    | zlibOpenSsh inner =>
      cases inner with
      | none => simp [Decompress.decompress]
      | some d => exact hP.inflate_no_panic framed d msg
  · exact ⟨.ok framed,c.inboundDecompress,rfl,by simp,fun _ => rfl⟩

theorem decodeFrame_decompress (buf : Bytes) (c : PacketCodec P) :
    (PacketCodec.decodeFrame buf c).2.inboundDecompress=c.inboundDecompress := by
  rw [PacketCodec.decodeFrame,get_bind]
  cases c.inbound with
  | none => rfl
  | stream cipher mac => rfl
  | gcm cipher => rfl
  | chachaPoly cipher => rfl

/- After a frame only its payload is left to inflate. -/
theorem decode_framed (hP : P.InPlace) {framed : Bytes} {consumed : Nat} {c₁ : PacketCodec P}
    (h : PacketCodec.decodeFrame buf c=(.ok (some (framed,consumed)),c₁))
    (hpending : c₁.PendingOk) : (PacketCodec.decode buf c).2.PendingOk ∧
    ((∃ e, (PacketCodec.decode buf c).1 = .error e ∧ ∀ msg, e ≠ .panic msg) ∨
      ∃ payload, (PacketCodec.decode buf c).1 = .ok (some (payload,consumed)) ∧
        (c.inboundDecompress.decompressing=false → payload=framed)) := by
  have hsame := decodeFrame_decompress buf c
  rw [h] at hsame
  rw [PacketCodec.decode,bind_of_ok h]
  dsimp only
  rw [modify_bind]
  obtain ⟨r,d,hfrom,hpanic,hoff⟩ := fromFrame_cases hP framed
    { c₁ with seqIn := c₁.seqIn+1, bytesIn := addBytes c₁.bytesIn consumed }
  cases r with
  | error e =>
    rw [bind_of_error hfrom]
    exact ⟨hpending,.inl ⟨e,rfl,fun msg he => hpanic msg (congrArg Except.error he)⟩⟩
  | ok payload =>
    rw [bind_of_ok hfrom]
    refine ⟨hpending,.inr ⟨payload,rfl,fun hnot => ?_⟩⟩
    exact Except.ok.inj (hoff ((congrArg Decompress.decompressing hsame).trans hnot))

end Facts

/-- `decode` never panics, says "more" only about a buffer that is shorter than what it needs next,
and otherwise returns a frame that lies in the buffer: decrypted, it is the length of the padding, a
payload and the padding. What is returned is that payload, inflated if compression is on. -/
theorem decode_safe (hP : P.InPlace) {c : PacketCodec P} (hc : c.PendingOk) (buf : Bytes) :
    (∀ msg, (PacketCodec.decode buf c).1 ≠ .error (.panic msg)) ∧
    (PacketCodec.decode buf c).2.PendingOk ∧ ((PacketCodec.decode buf c).1 = .ok none →
      buf.length<c.inbound.headLen ∨ ∃ n, c.announced buf = .ok n ∧
        (buf.length<4+n.toNat+c.inbound.tagLen ∨
          c.inbound.HoldsBack n ∧ buf.length< maxPacketLen.toNat)) ∧
    (∀ payload consumed, (PacketCodec.decode buf c).1 = .ok (some (payload,consumed)) →
      ∃ (n : UInt32) (pad : UInt8) (framed padding : Bytes), c.announced buf = .ok n ∧
        n.toNat≤ maxPacketLen.toNat ∧ consumed=4+n.toNat+c.inbound.tagLen ∧ consumed≤buf.length ∧
        12≤consumed ∧ (PacketCodec.decodeFrame buf c).1 = .ok (some (framed,consumed)) ∧
        c.opened buf n = .ok (pad::(framed++padding)) ∧ padding.length=pad.toNat ∧
        4≤pad.toNat ∧ pad.toNat≤255 ∧ framed.length+pad.toNat+1=n.toNat ∧
        (c.inboundDecompress.decompressing=false → payload=framed)) := by
  obtain ⟨hdecoded,hpending⟩ := decodeFrame_decoded hP hc buf
  rcases hframe : PacketCodec.decodeFrame buf c with ⟨r,c₁⟩
  rw [hframe] at hdecoded hpending
  cases hdecoded with
  | failed e noPanic =>
    have hdec : PacketCodec.decode buf c=(.error e,c₁) := bind_of_error hframe _
    rw [hdec]
    exact ⟨fun msg h => noPanic msg (Except.error.inj h),hpending,by simp,by simp⟩
  | short h =>
    have hdec : PacketCodec.decode buf c=(.ok none,c₁) := bind_of_ok hframe _
    rw [hdec]
    exact ⟨by simp,hpending,fun _ => .inl h,by simp⟩
  | more n ann h =>
    have hdec : PacketCodec.decode buf c=(.ok none,c₁) := bind_of_ok hframe _
    rw [hdec]
    exact ⟨by simp,hpending,fun _ => .inr ⟨n,ann,h⟩,by simp⟩
  | framed n pad framed padding ann limit complete least low body padded filled =>
    obtain ⟨hpending',hanswer⟩ := decode_framed hP hframe hpending
    rcases hanswer with ⟨e,hdec,noPanic⟩ | ⟨payload,hdec,hplain⟩
    · rw [hdec]
      exact ⟨fun msg h => noPanic msg (Except.error.inj h),hpending',by simp,by simp⟩
    · rw [hdec]
      refine ⟨by simp,hpending',by simp,?_⟩
      rintro payload' consumed ⟨⟩
      exact ⟨n,pad,framed,padding,ann,limit,rfl,complete,by omega,rfl,body,padded,low,
        Nat.le_of_lt_succ pad.toNat_lt,filled,hplain⟩

theorem Primitives.null_inPlace : null.InPlace where
  ctr_length := null_lawful.ctr_length
  cbc_blockSize := null_lawful.cbc_blockSize
  cbc_decrypt_length := null_lawful.cbc_decrypt_length
  gcm_decrypt_length := by
    rintro k n aad c tag b ⟨⟩
    rfl
  chacha_length := null_lawful.chacha_length
  inflate_no_panic := by
    intro b s msg
    simp only [Primitives.null]
    split
    · simp
    · simp

/- An encrypt-and-MAC codec that has kept the first block of a packet of 28 bytes. -/
def keptCodec : PacketCodec Primitives.null :=
  { PacketCodec.new with
    inbound := .stream (.ctr ()) (.umac64 [] false)
    pendingFirstBlock := some ([0,0,0,28,4]++replicate 11 20) }

theorem keptCodec_pendingOk : keptCodec.PendingOk := by
  rintro cipher mac b ⟨⟩ - ⟨⟩
  rfl

/-- The rest of the packet comes with its tag. -/
theorem decode_safe_kept :
    (PacketCodec.decode (replicate 40 0) keptCodec).1 = .ok (some (replicate 11 20++replicate 12 0,40)) ∧
      ∃ (n : UInt32) (pad : UInt8) (framed padding : Bytes),
        keptCodec.announced (replicate 40 0) = .ok n ∧ n.toNat≤ maxPacketLen.toNat ∧
        40=4+n.toNat+8 ∧ 40≤(replicate 40 (0 : UInt8)).length ∧ 12≤40 ∧
        (PacketCodec.decodeFrame (replicate 40 0) keptCodec).1 = .ok (some (framed,40)) ∧
        keptCodec.opened (replicate 40 0) n = .ok (pad::(framed++padding)) ∧
        padding.length=pad.toNat ∧ 4≤pad.toNat ∧ pad.toNat≤255 ∧
        framed.length+pad.toNat+1=n.toNat ∧
        (keptCodec.inboundDecompress.decompressing=false →
          replicate 11 20++replicate 12 0=framed) := by
  have hdec : (PacketCodec.decode (replicate 40 0) keptCodec).1 =
      .ok (some (replicate 11 20++replicate 12 0,40)) := by decide
  exact ⟨hdec,(decode_safe Primitives.null_inPlace keptCodec_pendingOk _).2.2.2 _ _ hdec⟩

/- A compressed payload of two bytes that inflates to one. -/
def zlibCodec : PacketCodec Primitives.null :=
  { PacketCodec.new with inboundDecompress := .zlib () }

def zlibFrame : Bytes := [0,0,0,12,9,255,20]++replicate 9 0

/-- Four bytes that announce an empty frame are all of it, and still count as too few; and an
inflated payload does not fill its frame. -/
theorem decode_bounds_fail :
    ((PacketCodec.decode [0,0,0,0] (PacketCodec.new : PacketCodec Primitives.null)).1 = .ok none ∧
      (PacketCodec.new : PacketCodec Primitives.null).announced [0,0,0,0] = .ok 0 ∧
      ¬ [(0 : UInt8),0,0,0].length<4+(0 : UInt32).toNat+0) ∧
    (PacketCodec.decode zlibFrame zlibCodec).1 = .ok (some ([20],16)) ∧
      zlibCodec.announced zlibFrame = .ok 12 ∧ zlibFrame[4]?=some 9 ∧
      [(20 : UInt8)].length+(9 : UInt8).toNat+1≠(12 : UInt32).toNat :=
  ⟨⟨by decide,by decide,by decide⟩,by decide,by decide,
    by decide,by decide⟩

end PureSsh.Transport
