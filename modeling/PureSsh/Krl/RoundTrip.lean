import PureSsh.Krl.Format

/-! Reading back a revocation list that was written. -/

namespace PureSsh.Revocation
open Lib Reader Writer List Text

theorem perm_sortSerials (l : List UInt64) : (sortSerials l).Perm l := perm_insertionSort _ l

theorem perm_sortRanges (l : List (UInt64 × UInt64)) : (sortRanges l).Perm l :=
  perm_insertionSort _ l

theorem perm_sortBlobs {α : Type} (blob : α → Bytes) (l : List α) : (sortBlobs blob l).Perm l :=
  perm_insertionSort _ l

theorem readU8_takes : Takes readU8 := by
  intro r x h
  cases r with
  | nil => cases h
  | cons b r =>
    cases h
    exact Nat.lt_succ_self _

theorem readU64_takes : Takes readU64 := by
  intro r x h
  unfold readU64 at h
  split at h
  · cases h
    simp only [length_cons]
    omega
  · cases h

theorem readKeyId_takes : Takes readKeyId := by
  refine readString_takes.bind fun x y hy => ?_
  cases hid : ofUtf8 x.1 with
  | none =>
    simp only [hid] at hy
    cases hy
  | some s =>
    simp only [hid] at hy
    cases hy
    exact le_rfl

theorem readHash_takes (n : Nat) : Takes (readHash n) := by
  refine readString_takes.bind fun x y hy => ?_
  by_cases hlen : x.1.length=n
  · simp only [dif_pos hlen] at hy
    cases hy
    exact le_rfl
  · simp only [dif_neg hlen] at hy
    cases hy

variable {α : Type} {put : α → UInt8 → Bytes → Result α}

theorem readSection_takes (a : α) : Takes (readSection put a) := by
  refine readU8_takes.bind fun x y hy => ?_
  obtain ⟨⟨body,r⟩,hbody,hy⟩ := except_bind_eq_ok.1 hy
  cases hput : put a x.1 body with
  | error e =>
    simp only [hput] at hy
    cases hy
  | ok a' =>
    simp only [hput] at hy
    cases hy
    exact (readString_takes _ _ hbody).le

theorem readSection_writeSection {s : UInt8 × Bytes} (hlen : s.2.length<2^32) (a : α)
    (rest : Bytes) :
    readSection put a (writeSection s++rest)=(put a s.1 s.2).map (·,rest) := by
  rw [readSection,writeSection,cons_append,readU8_cons,except_ok_bind,
    readString_writeString hlen,except_ok_bind]

theorem readWhile_writeSection {sections : List (UInt8 × Bytes)}
    (hlen : ∀ s∈sections, s.2.length<2^32) (a : α) :
    readWhile .hang (readSection put) a (sections.flatMap writeSection) =
      sections.foldlM (fun a s => put a s.1 s.2) a :=
  readWhile_flatMap readSection_takes
    (fun s hs a rest => readSection_writeSection (hlen s hs) a rest) fun _ _ => cons_ne_nil _ _

theorem foldlM_optional {β : Type} {l : List β} {ty : UInt8} {body : Bytes} {a a' : α}
    (hnil : l=[] → a=a') (hput : put a ty body = .ok a') :
    (if l.isEmpty then [] else [(ty,body)]).foldlM (fun a s => put a s.1 s.2) a = .ok a' := by
  cases l with
  | nil => exact congrArg _ (hnil rfl)
  | cons b l =>
    rw [isEmpty_cons,if_neg Bool.false_ne_true,foldlM_cons,hput]
    rfl

variable (bits : Bytes) (b : Bitmap) (idx : UInt64)

/-- The bytes that a bitmap is written as; it stays as it is if they are too many. -/
def Bitmap.rewritten : Bitmap :=
  if h : (mpintBody b.1).length≤ maxBitmapBytes then ⟨mpintBody b.1,h⟩ else b

/-- A bitmap of the largest size with its first bit set: a sign byte makes it too large. -/
def Bitmap.Full : Prop :=
  b.1.length=maxBitmapBytes ∧ ∃ h∈b.1.head?, h &&& 0x80≠0

instance (b : Bitmap) : Decidable b.Full := inferInstanceAs (Decidable (_ ∧ _))

theorem dropWhile_of_topBit {bits : Bytes} {b : UInt8} (hb : b∈bits.head?)
    (htop : b &&& 0x80≠0) : bits.dropWhile (· == 0)=bits := by
  cases bits with
  | nil => cases hb
  | cons c m =>
    obtain rfl : c=b := Option.some.inj hb
    have hne : c≠0 := by
      rintro rfl
      exact htop rfl
    simp [hne]

theorem mpintBody_fits_iff : (mpintBody b.1).length≤ maxBitmapBytes ↔ ¬b.Full := by
  obtain ⟨bits,hlen⟩ := b
  have hsuffix : bits.dropWhile (· == 0) <:+ bits := dropWhile_suffix _
  rw [mpintBody,Bitmap.Full]
  cases hm : bits.dropWhile (· == 0) with
  | nil =>
    refine ⟨?_,fun _ => Nat.zero_le _⟩
    rintro-⟨-,c,hc,htop⟩
    rw [dropWhile_of_topBit hc htop] at hm
    rw [hm] at hc
    cases hc
  | cons c m =>
    rw [hm] at hsuffix
    have hle : (c::m).length≤bits.length := hsuffix.length_le
    by_cases htop : c &&& 0x80≠0
    · -- the sign byte fits unless no leading zero made room for it
      dsimp only
      rw [if_pos htop]
      simp only [length_cons] at hle ⊢
      constructor
      · rintro hfit ⟨hfull,d,hd,htop'⟩
        rw [dropWhile_of_topBit hd htop'] at hm
        simp only [hm,length_cons] at hfull
        omega
      · intro hnot
        by_contra hbig
        have heq : c::m=bits := hsuffix.eq_of_length (by simp only [length_cons]; omega)
        subst heq
        exact hnot ⟨by simp only [length_cons] at hle hlen ⊢; omega,c,rfl,htop⟩
    · dsimp only
      rw [if_neg htop]
      refine ⟨?_,fun _ => hle.trans hlen⟩
      rintro-⟨-,d,hd,htop'⟩
      rw [dropWhile_of_topBit hd htop'] at hm
      obtain rfl : c=d := by simpa [hm] using hd
      exact htop htop'

theorem mpintBody_length_le : (mpintBody bits).length≤bits.length+1 := by
  have hle : (bits.dropWhile (· == 0)).length≤bits.length := (dropWhile_suffix _).length_le
  rw [mpintBody]
  cases hm : bits.dropWhile (· == 0) with
  | nil => exact Nat.zero_le _
  | cons b m =>
    rw [hm] at hle
    dsimp only
    split
    · simpa using hle
    · exact hle.trans (Nat.le_succ _)

theorem bitIsSet_zero_cons : bitIsSet (0::bits) idx=bitIsSet bits idx := by
  simp only [bitIsSet,length_cons]
  generalize (idx/8).toNat=k
  rcases Nat.lt_trichotomy k bits.length with hlt | rfl | hgt
  · have hidx : bits.length+1-1-k=bits.length-1-k+1 := by omega
    rw [if_neg (by omega),if_neg (by omega),hidx,getD_cons_succ]
  · simp
  · rw [if_pos (by omega),if_pos (by omega)]

theorem bitIsSet_dropWhile : bitIsSet (bits.dropWhile (· == 0)) idx=bitIsSet bits idx := by
  induction bits with
  | nil => rfl
  | cons b bits ih =>
    by_cases hb : b=0
    · subst hb
      rw [bitIsSet_zero_cons,← ih]
      rfl
    · rw [dropWhile_cons_of_neg (by simpa using hb)]

theorem bitIsSet_mpintBody : bitIsSet (mpintBody bits) idx=bitIsSet bits idx := by
  rw [← bitIsSet_dropWhile bits,mpintBody]
  cases bits.dropWhile (· == 0) with
  | nil => rfl
  | cons b m =>
    dsimp only
    split
    · exact bitIsSet_zero_cons _ _
    · rfl

theorem bitIsSet_rewritten : bitIsSet b.rewritten.1 idx=bitIsSet b.1 idx := by
  rw [Bitmap.rewritten]
  split
  · exact bitIsSet_mpintBody b.1 idx
  · rfl

section Subsections
variable (rev : CaRevocation)

theorem parse_serialList (serials : List UInt64) :
    parseSubsection rev certSerialList (serials.flatMap be64) =
      .ok { rev with serials := rev.serials++serials } := by
  rw [parseSubsection,readRun_flatMap readU64_takes _ fun v _ => readU64_be64 v]
  rfl

theorem parse_serialRange (lo hi : UInt64) :
    parseSubsection rev certSerialRange (be64 lo++be64 hi) =
      .ok { rev with serialRanges := rev.serialRanges++[(lo,hi)] } := by
  have hhi : readU64 (be64 hi) = .ok (hi,[]) := by simpa using readU64_be64 hi []
  rw [parseSubsection,if_pos rfl]
  simp only [readU64_be64,except_ok_bind,hhi]
  rfl

theorem parse_serialBitmap (offset : UInt64) {bits : Bytes} (hlen : bits.length<2^32) :
    parseSubsection rev certSerialBitmap (be64 offset++writeString bits) =
      if h : bits.length≤ maxBitmapBytes then
        .ok { rev with serialBitmaps := rev.serialBitmaps++[(offset,⟨bits,h⟩)] }
      else .error (.format "krl: serial bitmap too large") := by
  rw [parseSubsection,if_neg (by decide),if_neg (by decide),if_pos rfl,readU64_be64,except_ok_bind]
  dsimp only
  rw [readString_writeString_end hlen,except_ok_bind]
  split
  · rfl
  · rfl

theorem parse_writtenBitmap (p : UInt64 × Bitmap) :
    parseSubsection rev certSerialBitmap (be64 p.1++writeMpint p.2.1)=if ¬p.2.Full then
        .ok { rev with serialBitmaps := rev.serialBitmaps++[(p.1,p.2.rewritten)] }
      else .error (.format "krl: serial bitmap too large") := by
  have hlen := (mpintBody_length_le p.2.1).trans (Nat.succ_le_succ p.2.2)
  rw [writeMpint,parse_serialBitmap rev p.1 (hlen.trans_lt (by decide))]
  by_cases hfull : p.2.Full
  · rw [dif_neg (mt (mpintBody_fits_iff p.2).1 (not_not.2 hfull)),if_neg (not_not.2 hfull)]
  · have hfits := (mpintBody_fits_iff p.2).2 hfull
    rw [dif_pos hfits,if_pos hfull,Bitmap.rewritten,dif_pos hfits]

theorem parse_keyIds {keyIds : List Text} (hlen : ∀ id∈keyIds, id.bytes.length<2^32) :
    parseSubsection rev certKeyId (keyIds.flatMap fun id => writeString id.bytes) =
      .ok { rev with keyIds := rev.keyIds++keyIds } := by
  rw [parseSubsection,readRun_flatMap readKeyId_takes]
  · rfl
  · intro id hid rest
    rw [readKeyId,readString_writeString (hlen id hid),except_ok_bind]
    simp only [ofUtf8_bytes]
    rfl

end Subsections

namespace CaRevocation

/-- A block as it reads back: sorted, its bitmaps in their shortest form. -/
def rewritten (ca : CaRevocation) : CaRevocation where
  caKeyBlob := ca.caKeyBlob
  serials := sortSerials ca.serials
  serialRanges := sortRanges ca.serialRanges
  serialBitmaps := ca.serialBitmaps.map fun p => (p.1,p.2.rewritten)
  keyIds := sortBlobs bytes ca.keyIds

theorem covers_rewritten (ca : CaRevocation) (serial : UInt64) (keyId : Text) :
    ca.rewritten.covers serial keyId=ca.covers serial keyId := by
  have hserials : (sortSerials ca.serials).contains serial=ca.serials.contains serial :=
    (perm_sortSerials ca.serials).contains_eq
  have hranges (q : UInt64 × UInt64 → Bool) :
      (sortRanges ca.serialRanges).any q=ca.serialRanges.any q :=
    (perm_sortRanges ca.serialRanges).any_eq
  have hids : (sortBlobs bytes ca.keyIds).contains keyId=ca.keyIds.contains keyId :=
    (perm_sortBlobs bytes ca.keyIds).contains_eq
  rw [covers,covers,rewritten]
  simp only [any_map,Function.comp_def,bitIsSet_rewritten,hserials,hranges,hids]

/-- No bitmap that the parser refuses once it is written. -/
def Writable (ca : CaRevocation) : Prop := ∀ p∈ca.serialBitmaps, ¬p.2.Full

instance (ca : CaRevocation) : Decidable ca.Writable := inferInstanceAs (Decidable (∀ _∈_, _))

/-- The bytes that `to_bytes` needs for a block. -/
def size (ca : CaRevocation) : Nat :=
  8+ca.caKeyBlob.length +
  (if ca.serials.isEmpty then 0 else 5+8*ca.serials.length) +
  21*ca.serialRanges.length +
  (ca.serialBitmaps.map fun p => 17+(mpintBody p.2.1).length).sum +
  (if ca.keyIds.isEmpty then 0 else 5+(ca.keyIds.map fun id => 4+id.byteLen).sum)

theorem foldlM_serials (rev : CaRevocation) (serials : List UInt64) :
    (if serials.isEmpty then [] else [(certSerialList,(sortSerials serials).flatMap be64)]).foldlM
        (fun rev s => parseSubsection rev s.1 s.2) rev =
      .ok { rev with serials := rev.serials++sortSerials serials } :=
  foldlM_optional (by rintro rfl; simp [sortSerials]) (parse_serialList rev _)

theorem foldlM_ranges (rev : CaRevocation) (ranges : List (UInt64 × UInt64)) :
    (ranges.map fun (lo,hi) => (certSerialRange,be64 lo++be64 hi)).foldlM
        (fun rev s => parseSubsection rev s.1 s.2) rev =
      .ok { rev with serialRanges := rev.serialRanges++ranges } := by
  induction ranges generalizing rev with
  | nil => simp [pure,Except.pure]
  | cons r ranges ih =>
    rw [map_cons,foldlM_cons,parse_serialRange,except_ok_bind,ih]
    simp

theorem foldlM_bitmaps (rev : CaRevocation) (bitmaps : List (UInt64 × Bitmap)) :
    (bitmaps.map fun (offset,bits) => (certSerialBitmap,be64 offset++writeMpint bits.1)).foldlM
        (fun rev s => parseSubsection rev s.1 s.2) rev =
      if ∀ p∈bitmaps, ¬p.2.Full then .ok { rev with
        serialBitmaps := rev.serialBitmaps++bitmaps.map fun p => (p.1,p.2.rewritten) }
      else .error (.format "krl: serial bitmap too large") := by
  induction bitmaps generalizing rev with
  | nil => simp [pure,Except.pure]
  | cons p bitmaps ih =>
    rw [map_cons,foldlM_cons,parse_writtenBitmap]
    by_cases hfull : p.2.Full
    · rw [if_neg (not_not.2 hfull),if_neg fun h => h p mem_cons_self hfull]
      rfl
    · rw [if_pos hfull,except_ok_bind,ih]
      by_cases hrest : ∀ q∈bitmaps, ¬q.2.Full
      · have hall : ∀ q∈p::bitmaps, ¬q.2.Full := forall_mem_cons.2 ⟨hfull,hrest⟩
        rw [if_pos hrest,if_pos hall]
        simp
      · rw [if_neg hrest,if_neg fun h => hrest (forall_mem_cons.1 h).2]

theorem foldlM_keyIds (rev : CaRevocation) {keyIds : List Text}
    (hlen : ∀ id∈keyIds, id.bytes.length<2^32) : (if keyIds.isEmpty then []
      else [(certKeyId,(sortBlobs bytes keyIds).flatMap fun id => writeString id.bytes)]).foldlM
        (fun rev s => parseSubsection rev s.1 s.2) rev =
      .ok { rev with keyIds := rev.keyIds++sortBlobs bytes keyIds } := by
  have hsorted : ∀ id∈sortBlobs bytes keyIds, id.bytes.length<2^32 :=
    fun id hid => hlen id ((perm_sortBlobs _ _).mem_iff.1 hid)
  exact foldlM_optional (by rintro rfl; simp [sortBlobs]) (parse_keyIds rev hsorted)

variable {ca : CaRevocation}

theorem foldlM_subsections (hlen : ∀ id∈ca.keyIds, id.bytes.length<2^32) :
    ca.subsections.foldlM (fun rev s => parseSubsection rev s.1 s.2) (.forCa ca.caKeyBlob) =
      if ca.Writable then .ok ca.rewritten
      else .error (.format "krl: serial bitmap too large") := by
  rw [subsections,List.foldlM_append,List.foldlM_append,List.foldlM_append,foldlM_serials,
    except_ok_bind,foldlM_ranges,except_ok_bind,foldlM_bitmaps]
  by_cases hw : ca.Writable
  · rw [if_pos hw,if_pos (show ∀ p∈ca.serialBitmaps, _ from hw),except_ok_bind,foldlM_keyIds _ hlen]
    simp [forCa,rewritten]
  · rw [if_neg hw,if_neg (show ¬ ∀ p∈ca.serialBitmaps, _ from hw)]
    rfl

theorem body_length (ca : CaRevocation) : ca.body.length=ca.size := by
  have hserials : ((if ca.serials.isEmpty then []
      else [(certSerialList,(sortSerials ca.serials).flatMap be64)]).flatMap writeSection).length =
      if ca.serials.isEmpty then 0 else 5+8*ca.serials.length := by
    split
    · rfl
    · simp [writeSection,writeString_length,(perm_sortSerials ca.serials).length_eq]
      omega
  have hranges : (((sortRanges ca.serialRanges).map fun (lo,hi) =>
      (certSerialRange,be64 lo++be64 hi)).flatMap writeSection).length =
      21*ca.serialRanges.length := by
    simp [Function.comp_def,writeSection,writeString_length,Nat.mul_comm,
      (perm_sortRanges ca.serialRanges).length_eq]
  have hbitmaps : ((ca.serialBitmaps.map fun (offset,bits) =>
      (certSerialBitmap,be64 offset++writeMpint bits.1)).flatMap writeSection).length =
      (ca.serialBitmaps.map fun p => 17+(mpintBody p.2.1).length).sum := by
    rw [length_flatMap,map_map]
    congr 2
    funext p
    simp [writeSection,writeMpint,writeString_length]
    omega
  have hids : ((if ca.keyIds.isEmpty then [] else [(certKeyId,
      (sortBlobs bytes ca.keyIds).flatMap fun id => writeString id.bytes)]).flatMap
        writeSection).length =
      if ca.keyIds.isEmpty then 0 else 5+(ca.keyIds.map fun id => 4+id.byteLen).sum := by
    split
    · rfl
    · have hperm := ((perm_sortBlobs bytes ca.keyIds).map fun id => 4+id.byteLen).sum_nat
      simp only [byteLen] at hperm
      simp [writeSection,writeString_length,byteLen,hperm]
      omega
  rw [body,subsections,size]
  simp only [flatMap_append,length_append,hranges,hbitmaps,writeString_length,length_nil]
  omega

theorem subsection_length_lt {s : UInt8 × Bytes} (hs : s∈ca.subsections) : s.2.length<ca.size := by
  have hle := length_le_flatMap (f := writeSection) hs
  rw [← body_length,body]
  simp only [writeSection,length_cons,writeString_length,length_append] at hle ⊢
  omega

theorem keyId_length_lt {id : Text} (hid : id∈ca.keyIds) : id.bytes.length<ca.size := by
  have hsub : (certKeyId,(sortBlobs bytes ca.keyIds).flatMap fun id => writeString id.bytes) ∈
      ca.subsections := by
    have hne : ¬ca.keyIds.isEmpty=true := by
      rw [List.isEmpty_iff]
      exact ne_nil_of_mem hid
    rw [subsections,mem_append,if_neg hne]
    exact .inr (mem_singleton_self _)
  have hle := length_le_flatMap (f := fun id => writeString id.bytes)
    ((perm_sortBlobs bytes ca.keyIds).mem_iff.2 hid)
  have hlt := subsection_length_lt hsub
  dsimp only at hlt
  rw [writeString_length] at hle
  omega

end CaRevocation

namespace Krl
variable (krl : Krl)

/-- A list as it reads back. -/
def rewritten (d : Krl) : Krl where
  version := d.version
  comment := d.comment
  certRevocations := d.certRevocations.map CaRevocation.rewritten
  explicitKeys := sortBlobs id d.explicitKeys
  fpSha1 := sortBlobs (·.1) d.fpSha1
  fpSha256 := sortBlobs (·.1) d.fpSha256

def Writable (d : Krl) : Prop := ∀ ca∈d.certRevocations, ca.Writable

instance (d : Krl) : Decidable d.Writable := inferInstanceAs (Decidable (∀ _∈_, _))

/-- Every length that `to_bytes` writes fits in 32 bits. -/
structure Fits (d : Krl) : Prop where
  comment : d.comment.byteLen<2^32
  certRevocations : ∀ ca∈d.certRevocations, ca.size<2^32
  explicitKeys : (d.explicitKeys.map fun key => 4+key.length).sum<2^32
  fpSha1 : 24*d.fpSha1.length<2^32
  fpSha256 : 36*d.fpSha256.length<2^32

theorem parseCertificates_body {ca : CaRevocation} (hsize : ca.size<2^32) :
    krl.parseCertificates ca.body=if ca.Writable then
        .ok { krl with certRevocations := krl.certRevocations++[ca.rewritten] }
      else .error (.format "krl: serial bitmap too large") := by
  have hblob : ca.caKeyBlob.length<2^32 := by
    rw [CaRevocation.size] at hsize
    omega
  rw [parseCertificates,CaRevocation.body,append_assoc,readString_writeString hblob,except_ok_bind]
  dsimp only
  rw [readString_writeString (by decide),except_ok_bind]
  rw [readWhile_writeSection fun s hs => (CaRevocation.subsection_length_lt hs).trans hsize,
    CaRevocation.foldlM_subsections fun id hid => (CaRevocation.keyId_length_lt hid).trans hsize]
  split <;> rfl

theorem foldlM_certificates {cas : List CaRevocation} (hsize : ∀ ca∈cas, ca.size<2^32) :
    (cas.map fun ca => (sectionCertificates,ca.body)).foldlM
        (fun krl s => parseSection krl s.1 s.2) krl=if ∀ ca∈cas, ca.Writable then
        .ok { krl with
          certRevocations := krl.certRevocations++cas.map CaRevocation.rewritten }
      else .error (.format "krl: serial bitmap too large") := by
  induction cas generalizing krl with
  | nil => simp [pure,Except.pure]
  | cons ca cas ih =>
    rw [map_cons,foldlM_cons]
    rw [parseSection,if_pos rfl,parseCertificates_body _ (hsize ca mem_cons_self)]
    by_cases hca : ca.Writable
    · rw [if_pos hca,except_ok_bind,ih _ fun ca' h => hsize ca' (mem_cons_of_mem _ h)]
      by_cases hrest : ∀ ca'∈cas, ca'.Writable
      · have hall : ∀ ca'∈ca::cas, ca'.Writable := forall_mem_cons.2 ⟨hca,hrest⟩
        rw [if_pos hrest,if_pos hall]
        simp
      · rw [if_neg hrest,if_neg fun h => hrest (forall_mem_cons.1 h).2]
    · rw [if_neg hca,if_neg fun h => hca (forall_mem_cons.1 h).1]
      rfl

theorem foldlM_explicitKeys {keys : List Bytes} (hlen : ∀ key∈keys, key.length<2^32) :
    (blobSection id sectionExplicitKey keys).foldlM (fun krl s => parseSection krl s.1 s.2) krl =
      .ok { krl with explicitKeys := krl.explicitKeys++keys } := by
  refine foldlM_optional (by rintro rfl; simp) ?_
  rw [parseSection,parseBlobList,readRun_flatMap readString_takes]
  · rfl
  · exact fun key hkey rest => readString_writeString (hlen key hkey) rest

variable {n : Nat} {d : Krl}

theorem readHash_writeString (hn : n<2^32) (h : Hash n) (rest : Bytes) :
    readHash n (writeString h.1++rest) = .ok (h,rest) := by
  rw [readHash,readString_writeString (by rw [h.2]; exact hn),except_ok_bind]
  dsimp only
  rw [dif_pos h.2]
  rfl

theorem parseHashList_flatMap (hn : n<2^32) (hashes out : List (Hash n)) :
    parseHashList n (hashes.flatMap fun h => writeString h.1) out = .ok (out++hashes) :=
  readRun_flatMap (readHash_takes n) _ fun h _ rest => readHash_writeString hn h rest

theorem foldlM_fpSha1 (hashes : List (Hash 20)) :
    (blobSection (·.1) sectionFingerprintSha1 hashes).foldlM
        (fun krl s => parseSection krl s.1 s.2) krl =
      .ok { krl with fpSha1 := krl.fpSha1++hashes } := by
  refine foldlM_optional (by rintro rfl; simp) ?_
  rw [parseSection,parseHashList_flatMap (by decide)]
  rfl

theorem foldlM_fpSha256 (hashes : List (Hash 32)) :
    (blobSection (·.1) sectionFingerprintSha256 hashes).foldlM
        (fun krl s => parseSection krl s.1 s.2) krl =
      .ok { krl with fpSha256 := krl.fpSha256++hashes } := by
  refine foldlM_optional (by rintro rfl; simp) ?_
  rw [parseSection,parseHashList_flatMap (by decide)]
  rfl

theorem parse_header {version generatedDate : UInt64} {comment : Text}
    (hcomment : comment.byteLen<2^32) {sections : List (UInt8 × Bytes)}
    (hlen : ∀ s∈sections, s.2.length<2^32) :
    parse (header version generatedDate comment++sections.flatMap writeSection) =
      sections.foldlM (fun krl s => parseSection krl s.1 s.2) { new with version, comment } := by
  simp only [header,append_assoc]
  rw [parse,readU64_be64,except_ok_bind]
  dsimp only
  rw [if_neg (not_not.2 rfl),readU32_be32,except_ok_bind]
  rw [if_neg (not_not.2 rfl),readU64_be64,except_ok_bind]
  rw [readU64_be64,except_ok_bind]
  rw [readU64_be64,except_ok_bind]
  rw [readString_writeString (by decide),except_ok_bind]
  rw [readString_writeString hcomment,except_ok_bind]
  rw [ofUtf8Lossy_bytes,readWhile_writeSection hlen]

theorem hash_size (hashes : List (Hash n)) :
    (hashes.map fun h => 4+h.1.length).sum=(4+n)*hashes.length := by
  induction hashes with
  | nil => rfl
  | cons h hashes ih =>
    rw [map_cons,sum_cons,ih,h.2,length_cons,Nat.mul_add_one,Nat.add_comm]

theorem section_length_lt (h : d.Fits) {s : UInt8 × Bytes} (hs : s∈d.sections) :
    s.2.length<2^32 := by
  have hblobs : ∀ {α : Type} {blob : α → Bytes} {ty : UInt8} {l : List α},
      (l.map fun a => 4+(blob a).length).sum<2^32 →
      s∈blobSection blob ty (sortBlobs blob l) → s.2.length<2^32 := by
    intro α blob ty l hsum hmem
    rw [blobSection] at hmem
    split at hmem
    · cases hmem
    · have hperm := ((perm_sortBlobs blob l).map fun a => 4+(blob a).length).sum_nat
      rw [mem_singleton.1 hmem,length_flatMap]
      simp only [writeString_length]
      omega
  rw [sections] at hs
  simp only [mem_append,mem_map] at hs
  obtain ((⟨ca,hca,rfl⟩ | hkeys) | hsha1) | hsha256 := hs
  · rw [CaRevocation.body_length]
    exact h.certRevocations ca hca
  · exact hblobs h.explicitKeys hkeys
  · exact hblobs (by rw [hash_size]; exact h.fpSha1) hsha1
  · exact hblobs (by rw [hash_size]; exact h.fpSha256) hsha256

/-- What was written is read back, unless a bitmap has become too large. -/
theorem parse_toBytes (h : d.Fits) (generatedDate : UInt64) : parse (d.toBytes generatedDate) =
      if d.Writable then .ok d.rewritten else .error (.format "krl: serial bitmap too large") := by
  have hkeys : ∀ key∈sortBlobs id d.explicitKeys, key.length<2^32 := by
    intro key hkey
    have hle := length_le_flatMap (f := writeString) ((perm_sortBlobs id _).mem_iff.1 hkey)
    have hsum := h.explicitKeys
    rw [length_flatMap] at hle
    simp only [writeString_length] at hle
    omega
  rw [toBytes,parse_header h.comment fun s hs => section_length_lt h hs,sections,
    List.foldlM_append,List.foldlM_append,List.foldlM_append,
    foldlM_certificates _ h.certRevocations]
  by_cases hw : d.Writable
  · rw [if_pos hw,if_pos (show ∀ ca∈d.certRevocations, _ from hw),except_ok_bind,
      foldlM_explicitKeys _ hkeys,except_ok_bind,foldlM_fpSha1,except_ok_bind,foldlM_fpSha256]
    simp [new,rewritten]
  · rw [if_neg hw,if_neg (show ¬ ∀ ca∈d.certRevocations, _ from hw)]
    rfl

theorem isRevokedCert_rewritten (d : Krl) (ca : Bytes) (serial : UInt64) (keyId : Text) :
    d.rewritten.isRevokedCert ca serial keyId=d.isRevokedCert ca serial keyId := by
  simp only [isRevokedCert,rewritten,any_map,Function.comp_def,CaRevocation.covers_rewritten]
  rfl

variable (D : Digests)

/-- The empty lists need no test of their own. -/
theorem isRevokedKey_eq (d : Krl) (blob : Bytes) : d.isRevokedKey D blob =
    (d.explicitKeys.contains blob || d.fpSha1.contains (D.sha1 blob) ||
      d.fpSha256.contains (D.sha256 blob)) := by
  have hany : ∀ {n : Nat} (l : List (Hash n)) (h : Hash n),
      (!l.isEmpty && l.any (· == h))=l.contains h := by
    intro n l h
    rw [any_beq']
    cases l <;> simp
  rw [isRevokedKey,hany,hany,any_beq']

theorem isRevokedKey_rewritten (d : Krl) (blob : Bytes) :
    d.rewritten.isRevokedKey D blob=d.isRevokedKey D blob := by
  rw [isRevokedKey_eq,isRevokedKey_eq,rewritten]
  rw [(perm_sortBlobs _ d.explicitKeys).contains_eq,(perm_sortBlobs _ d.fpSha1).contains_eq,
    (perm_sortBlobs _ d.fpSha256).contains_eq]

theorem contains_pushNew {α : Type} [BEq α] [LawfulBEq α] (l : List α) (a x : α) :
    (pushNew l a).contains x=(l.contains x || x==a) := by
  rw [pushNew,Bool.eq_iff_iff]
  split
  · next h =>
    simp only [Bool.or_eq_true,beq_iff_eq] at h ⊢
    exact ⟨.inl,fun hx => hx.elim id fun heq => heq ▸ h⟩
  · simp

theorem contains_foldl_pushNew {α : Type} [BEq α] [LawfulBEq α] (l more : List α) (x : α) :
    (more.foldl pushNew l).contains x=(l.contains x || more.contains x) := by
  induction more generalizing l with
  | nil => simp
  | cons a more ih =>
    rw [foldl_cons,ih,contains_pushNew,contains_cons,Bool.or_assoc]

/-- Merging appends the blocks and adds the keys and the hashes that are new. -/
theorem merge_eq (a b : Krl) : a.merge b =
    { a with
      certRevocations := a.certRevocations++b.certRevocations
      explicitKeys := b.explicitKeys.foldl pushNew a.explicitKeys
      fpSha1 := b.fpSha1.foldl pushNew a.fpSha1
      fpSha256 := b.fpSha256.foldl pushNew a.fpSha256 } := by
  have hkeys : ∀ (l : List Bytes) (k : Krl),
      l.foldl revokeKey k = { k with explicitKeys := l.foldl pushNew k.explicitKeys } := by
    intro l
    induction l with
    | nil => exact fun _ => rfl
    | cons x l ih => exact fun k => ih (k.revokeKey x)
  have hsha1 : ∀ (l : List (Hash 20)) (k : Krl),
      l.foldl revokeSha1 k = { k with fpSha1 := l.foldl pushNew k.fpSha1 } := by
    intro l
    induction l with
    | nil => exact fun _ => rfl
    | cons x l ih => exact fun k => ih (k.revokeSha1 x)
  have hsha256 : ∀ (l : List (Hash 32)) (k : Krl),
      l.foldl revokeSha256 k = { k with fpSha256 := l.foldl pushNew k.fpSha256 } := by
    intro l
    induction l with
    | nil => exact fun _ => rfl
    | cons x l ih => exact fun k => ih (k.revokeSha256 x)
  rw [merge,hkeys,hsha1,hsha256]

theorem isRevokedCert_merge (a b : Krl) (ca : Bytes) (serial : UInt64) (keyId : Text) :
    (a.merge b).isRevokedCert ca serial keyId =
      (a.isRevokedCert ca serial keyId || b.isRevokedCert ca serial keyId) := by
  rw [merge_eq]
  exact any_append

theorem isRevokedKey_merge (a b : Krl) (blob : Bytes) :
    (a.merge b).isRevokedKey D blob=(a.isRevokedKey D blob || b.isRevokedKey D blob) := by
  rw [isRevokedKey_eq,isRevokedKey_eq,isRevokedKey_eq,merge_eq]
  simp only [contains_foldl_pushNew]
  cases a.explicitKeys.contains blob <;> cases a.fpSha1.contains (D.sha1 blob) <;>
    cases b.explicitKeys.contains blob <;> cases b.fpSha1.contains (D.sha1 blob) <;> simp

/-- The list that is read back answers as the one that was written. -/
def ReadsBack (d : Krl) (generatedDate : UInt64) : Prop :=
  ∃ d', parse (d.toBytes generatedDate) = .ok d' ∧
    (∀ ca serial keyId, d'.isRevokedCert ca serial keyId=d.isRevokedCert ca serial keyId) ∧
    ∀ blob, d'.isRevokedKey D blob=d.isRevokedKey D blob

theorem readsBack_iff (h : d.Fits) (generatedDate : UInt64) :
    d.ReadsBack D generatedDate ↔ d.Writable := by
  rw [ReadsBack,parse_toBytes h]
  constructor
  · rintro ⟨d',hparse,-⟩
    by_contra hw
    rw [if_neg hw] at hparse
    cases hparse
  · intro hw
    exact ⟨d.rewritten,if_pos hw,d.isRevokedCert_rewritten,d.isRevokedKey_rewritten D⟩

/-- A list that fits the format reads back with the same answers exactly unless one of its bitmaps
has the largest size and its first bit set; and merging two lists revokes what either does. -/
theorem krl_faithful_iff (D : Digests) (d a b : Krl) (generatedDate : UInt64) :
    (d.Fits → (d.ReadsBack D generatedDate ↔ ∀ ca∈d.certRevocations, ∀ p∈ca.serialBitmaps,
        ¬(p.2.1.length=maxBitmapBytes ∧ ∃ b∈p.2.1.head?, b &&& 0x80≠0))) ∧
    (∀ ca serial keyId, (a.merge b).isRevokedCert ca serial keyId =
      (a.isRevokedCert ca serial keyId || b.isRevokedCert ca serial keyId)) ∧
    ∀ blob, (a.merge b).isRevokedKey D blob=(a.isRevokedKey D blob || b.isRevokedKey D blob) :=
  ⟨fun h => readsBack_iff D h generatedDate,isRevokedCert_merge a b,isRevokedKey_merge D a b⟩

/-- A range of serials, a key ID and a key. -/
theorem krl_faithful_range :
    (((new.revokeCertSerials [1] 7 3).revokeCertKeyId [1] ['a']).revokeKey [9,9]).ReadsBack
      zeroDigests 5 := by
  refine ((krl_faithful_iff zeroDigests _ new new 5).1 ?_).2 (by decide)
  exact ⟨by decide,by decide,by decide,by decide,by decide⟩

/-- A list with one bitmap. -/
def bitmapList : Krl :=
  { new with certRevocations := [{ CaRevocation.forCa [] with serialBitmaps := [(0,b)] }] }

/-- The file that lists the bitmap as it is, without a sign byte. -/
def bitmapFile : Bytes :=
  header 0 0 []++[(sectionCertificates,writeString []++(writeString [] ++
    [(certSerialBitmap,be64 0++writeString b.1)].flatMap writeSection))].flatMap writeSection

theorem parse_bitmapFile : parse (bitmapFile b) = .ok (bitmapList b) := by
  have hb : b.1.length≤1048576 := b.2
  have hsub : (be64 0++writeString b.1).length=12+b.1.length := by
    rw [length_append,be64_length,writeString_length]
    omega
  have hsubs : ∀ s∈[(certSerialBitmap,be64 0++writeString b.1)], s.2.length<2^32 := by
    intro s hs
    rw [mem_singleton.1 hs,hsub]
    omega
  have hsections : ∀ s∈[(sectionCertificates,writeString []++(writeString [] ++
      [(certSerialBitmap,be64 0++writeString b.1)].flatMap writeSection))],
      s.2.length<2^32 := by
    intro s hs
    rw [mem_singleton.1 hs]
    simp only [flatMap_cons,flatMap_nil,writeSection,
      length_append,writeString_length,length_cons,hsub,length_nil]
    omega
  rw [bitmapFile,parse_header (by decide) hsections,foldlM_cons]
  rw [parseSection,parseCertificates,readString_writeString (by decide),except_ok_bind]
  dsimp only
  rw [readString_writeString (by decide),except_ok_bind]
  rw [readWhile_writeSection hsubs,foldlM_cons]
  rw [parse_serialBitmap _ _ (by omega),dif_pos b.2]
  rfl

theorem bitmapList_fits : (bitmapList b).Fits := by
  have hzero : 0<2^32 := by decide
  refine ⟨hzero,fun ca hca => ?_,hzero,hzero,hzero⟩
  obtain rfl := mem_singleton.1 hca
  have hb : b.1.length≤1048576 := b.2
  have hlen := mpintBody_length_le b.1
  simp only [CaRevocation.size,CaRevocation.forCa,map_cons,map_nil,sum_cons,
    sum_nil,isEmpty_nil,if_true,length_nil]
  omega

def fullBitmap : Bitmap := ⟨replicate maxBitmapBytes 0xFF,(length_replicate).le⟩

theorem fullBitmap_full : fullBitmap.Full := by
  refine ⟨length_replicate,0xFF,?_,by decide⟩
  rfl

/-- The parser accepts a bitmap of 2²³ ones, and refuses the list once it is written again. -/
theorem full_bitmap_not_read_back :
    ¬ ∀ (D : Digests) (file : Bytes) (d : Krl) (generatedDate : UInt64),
      parse file = .ok d → d.ReadsBack D generatedDate := by
  intro h
  have hread := h zeroDigests _ _ 0 (parse_bitmapFile fullBitmap)
  rw [readsBack_iff zeroDigests (bitmapList_fits fullBitmap)] at hread
  exact hread _ (mem_singleton_self _) (0,fullBitmap) (mem_singleton_self _) fullBitmap_full

end Krl

end PureSsh.Revocation
