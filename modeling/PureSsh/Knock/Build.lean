import PureSsh.Knock.Wire
import PureSsh.Lib.Words

/-! The KNOCK datagrams that `KnockFields::build` makes and what `Knock::parse` takes of them
(`knock/wire.rs`). -/

namespace PureSsh.Knocking
open Lib Reader Writer

/-- `[u8; 32]` -/
abbrev Array32 := { raw : Bytes // raw.length=32 }

structure KnockFields where
  user : Text
  keyFp : Array32
  sig1 : Bytes
  nonce : UInt64
  ephC : Array32
  hostFp : Option Array32

namespace KnockFields

def flags (f : KnockFields) : UInt8 := if f.hostFp.isNone then flagNeedHostkey else 0

def hostFpBytes (f : KnockFields) : Bytes := f.hostFp.elim zeros Subtype.val

/- Everything in front of the padding. -/
def head (f : KnockFields) : Bytes :=
  [version,typeKnock,f.flags,UInt8.ofNat f.user.bytes.length]++f.user.bytes++f.keyFp.1 ++
    writeStr16 f.sig1++be64 f.nonce++f.ephC.1++f.hostFpBytes

/- The bytes that sig2 covers. -/
def padded (f : KnockFields) (pad : Nat) : Bytes :=
  f.head++be16 (UInt16.ofNat pad)++List.replicate pad 0

variable (C : Crypto)

/- The loop of `build`, with the number of tries that are left; each has coins of its own. A
   subtraction below zero is a panic. -/
def buildFrom (f : KnockFields) (signer : C.HostKey) (coins : Nat → C.Coins) (minLen : Nat) :
    (tries sig2Estimate : Nat) → Result Bytes
  | 0, _ => .error (.crypto "knock: could not size the datagram")
  | tries+1, sig2Estimate => do
    let unpadded := f.head.length+2+2+sig2Estimate
    let pad := minLen-unpadded
    let sig2 ← sign C signer (coins tries) nsKnock (f.padded pad)
    let out := f.padded pad++writeStr16 sig2
    if out.length>maxDatagram then
      if pad=0 then .error (.unsupported "knock: key too large for one datagram")
      else buildFrom f signer coins minLen tries (sig2Estimate+(out.length-maxDatagram))
    else if out.length< minLen then
      if sig2Estimate< minLen-out.length then .error (.panic "subtract with overflow")
      else buildFrom f signer coins minLen tries (sig2Estimate-(minLen-out.length))
    else .ok out

def build (f : KnockFields) (signer : C.HostKey) (coins : Nat → C.Coins) (minLen : Nat) :
    Result Bytes :=
  if f.user=[] ∨ f.user.bytes.length>maxUserLen then
    .error (.config "knock: user name must be 1..=64 bytes")
  else buildFrom C f signer coins (min minLen maxDatagram) 4 f.sig1.length

end KnockFields

section Reading
variable {r s : Bytes} {α : Type} {y : Result α}

theorem be16_length (v : UInt16) : (be16 v).length=2 := rfl

theorem writeStr16_length (s : Bytes) : (writeStr16 s).length=2+s.length := by
  rw [writeStr16,List.length_append,be16_length]

theorem readStr16_be16 {n : Nat} (hn : n<2^16) (hs : s.length=n) :
    readStr16 (be16 (UInt16.ofNat n)++(s++r)) = .ok (s,r) := by
  have hlen : (UInt8.ofNat (n/2^8)).toNat*2^8+(UInt8.ofNat n).toNat=n := by
    rw [UInt8.toNat_ofNat',UInt8.toNat_ofNat']
    omega
  have hread : readU16 (be16 (UInt16.ofNat n)++(s++r)) = .ok (n,s++r) := by
    rw [be16,UInt16.toNat_ofNat_of_lt' hn]
    simp only [readU16,List.cons_append,List.nil_append,hlen]
  rw [readStr16,hread,except_ok_bind]
  exact take_append hs r

theorem str16_then (h : s.length<2^16) {f : Bytes × Bytes → Result α} (hf : f (s,r)=y) :
    (readStr16 (writeStr16 s++r) >>= f)=y := by
  rw [writeStr16,List.append_assoc,readStr16_be16 h rfl,except_ok_bind,hf]

theorem array_then (a : Array32) {f : Bytes × Bytes → Result α} (hf : f (a.1,r)=y) :
    (take 32 (a.1++r) >>= f)=y := by
  rw [take_append a.2,except_ok_bind,hf]

theorem nonce_then (v : UInt64) {f : UInt64 × Bytes → Result α} (hf : f (v,r)=y) :
    (readU64 (be64 v++r) >>= f)=y := by
  have hread : readU64 (be64 v++r) = .ok (v,r) := Reader.readU64_be64 v r
  rw [hread,except_ok_bind,hf]

end Reading

theorem contains_nul_iff (t : Text) : t.bytes.contains 0=true ↔ '\x00' ∈ t := by
  rw [List.contains_iff_mem]
  refine ⟨fun h => Text.mem_of_mem_bytes h (by decide),fun h => ?_⟩
  exact List.mem_flatMap.2 ⟨'\x00',h,by decide +kernel⟩

namespace KnockFields
variable {f : KnockFields}

/- What the datagram says, for a signature over its padded bytes. -/
def knock (f : KnockFields) (pad : Nat) (sig2 : Bytes) : Knock where
  flags := f.flags
  user := f.user.bytes
  keyFp := f.keyFp.1
  sig1 := f.sig1
  nonce := f.nonce
  ephC := f.ephC.1
  hostFp := f.hostFpBytes
  signed := f.padded pad
  sig2 := sig2

theorem hostFpBytes_length (f : KnockFields) : f.hostFpBytes.length=32 := by
  rw [hostFpBytes]
  cases f.hostFp with
  | none => rfl
  | some a => exact a.2

theorem padded_length (f : KnockFields) (pad : Nat) :
    (f.padded pad).length=f.head.length+2+pad := by
  rw [padded,List.length_append,List.length_append,List.length_replicate,be16_length]

theorem parseTail_built (f : KnockFields) (pad : Nat) (sig2 : Bytes) (hsig1 : f.sig1.length<2^16)
    (hpad : pad<2^16) (hsig2 : sig2.length<2^16) :
    Knock.parseTail (f.padded pad++writeStr16 sig2) f.flags f.user.bytes
      (f.keyFp.1++(writeStr16 f.sig1++(be64 f.nonce++(f.ephC.1++(f.hostFpBytes ++
        (be16 (UInt16.ofNat pad)++(List.replicate pad 0++writeStr16 sig2))))))) =
      .ok (f.knock pad sig2) := by
  have hhost : ¬(Knock.needHostkey f.flags=true ∧ f.hostFpBytes≠zeros) := by
    rw [flags,hostFpBytes]
    cases f.hostFp with
    | none => exact fun h => h.2 rfl
    | some a => exact fun h => absurd h.1 (show ¬Knock.needHostkey 0=true by decide)
  have hzero : ¬(List.replicate pad (0 : UInt8)).any (· != 0)=true := by
    simp
  have hsigned : (f.padded pad++writeStr16 sig2).take
      ((f.padded pad++writeStr16 sig2).length-(writeStr16 sig2).length)=f.padded pad := by
    rw [List.length_append,Nat.add_sub_cancel,List.take_left]
  apply array_then f.keyFp
  apply str16_then hsig1
  apply nonce_then
  apply array_then f.ephC
  apply array_then ⟨f.hostFpBytes,f.hostFpBytes_length⟩
  dsimp only
  rw [if_neg hhost,readStr16_be16 hpad List.length_replicate,except_ok_bind]
  dsimp only
  rw [if_neg hzero,hsigned,← List.append_nil (writeStr16 sig2)]
  apply str16_then hsig2
  rfl

/-- The parser takes a datagram that was built unless the user name has a NUL in it. -/
theorem parse_built {pad : Nat} {sig2 : Bytes} (huser : f.user≠[])
    (hlong : f.user.bytes.length≤ maxUserLen)
    (hlen : (f.padded pad++writeStr16 sig2).length≤ maxDatagram) :
    Knock.parse (f.padded pad++writeStr16 sig2) =
      if '\x00' ∈ f.user then .error (.format "knock: NUL in user") else .ok (f.knock pad sig2) := by
  have hpos : 0<f.user.bytes.length :=
    List.length_pos_of_ne_nil fun h => huser (Text.bytes_injective h)
  have huserLen : (UInt8.ofNat f.user.bytes.length).toNat=f.user.bytes.length := by
    rw [UInt8.toNat_ofNat',Nat.mod_eq_of_lt]
    exact Nat.lt_of_le_of_lt hlong (by decide)
  have hflags : ¬(f.flags &&& ~~~flagNeedHostkey≠0) := by
    rw [flags]
    split <;> decide
  have hparts := hlen
  simp only [padded,head,List.length_append,writeStr16_length,List.length_replicate,maxDatagram]
    at hparts
  rw [Knock.parse,if_neg (Nat.not_lt.2 hlen)]
  simp only [padded,head,List.append_assoc,List.cons_append,List.nil_append]
  rw [readU8_cons,except_ok_bind]
  dsimp only
  rw [if_neg (not_not_intro rfl),readU8_cons,except_ok_bind]
  dsimp only
  rw [if_neg (not_not_intro rfl),readU8_cons,except_ok_bind]
  dsimp only
  rw [if_neg hflags,readU8_cons,except_ok_bind]
  dsimp only
  rw [huserLen,if_neg (by omega),take_append rfl,except_ok_bind]
  dsimp only
  rw [validUtf8_bytes,if_neg (by decide)]
  by_cases hnul : '\x00' ∈ f.user
  · rw [if_pos ((contains_nul_iff _).2 hnul),if_pos hnul]
  · rw [if_neg (mt (contains_nul_iff _).1 hnul),if_neg hnul]
    have htail := parseTail_built f pad sig2 (by omega) (by omega) (by omega)
    simpa only [padded,head,List.append_assoc,List.cons_append,List.nil_append] using htail

variable {C : Crypto} {signer : C.HostKey} {coins : Nat → C.Coins} {minLen tries sig2Estimate : Nat}

/-- What the loop returns is of the right size and has a signature over all that is in front of it. -/
theorem buildFrom_eq_ok {d : Bytes}
    (h : buildFrom C f signer coins minLen tries sig2Estimate = .ok d) :
    minLen≤d.length ∧ d.length≤ maxDatagram ∧ ∃ pad sig2, d=f.padded pad++writeStr16 sig2 ∧
      ∃ try_, sign C signer (coins try_) nsKnock (f.padded pad) = .ok sig2 := by
  induction tries generalizing sig2Estimate with
  | zero => cases h
  | succ tries ih =>
    obtain ⟨sig2,hsig2,h⟩ := except_bind_eq_ok.1 h
    dsimp only at h
    split at h
    · split at h
      · cases h
      · exact ih h
    · next hmax =>
      split at h
      · split at h
        · cases h
        · exact ih h
      · next hmin =>
        cases h
        exact ⟨Nat.le_of_not_lt hmin,Nat.le_of_not_lt hmax,_,sig2,rfl,tries,hsig2⟩

/-- The estimate never falls below zero: a datagram that came out too short is short by no more than
the estimate. -/
theorem buildFrom_panic {msg : String}
    (h : buildFrom C f signer coins minLen tries sig2Estimate = .error (.panic msg)) :
    ∃ try_ message, sign C signer (coins try_) nsKnock message = .error (.panic msg) := by
  induction tries generalizing sig2Estimate with
  | zero => cases h
  | succ tries ih =>
    rw [buildFrom] at h
    cases hsig2 : sign C signer (coins tries) nsKnock
        (f.padded (minLen-(f.head.length+2+2+sig2Estimate))) with
    | error e =>
      rw [hsig2] at h
      cases h
      exact ⟨tries,_,hsig2⟩
    | ok sig2 =>
      rw [hsig2,except_ok_bind] at h
      dsimp only at h
      split at h
      · split at h
        · cases h
        · exact ih h
      · split at h
        · next hmin =>
          rw [List.length_append,padded_length,writeStr16_length] at hmin
          rw [if_neg (by rw [List.length_append,padded_length,writeStr16_length]; omega)] at h
          exact ih h
        · cases h

/-- The parser reads a datagram as the fields, with a signature of the signer over all that stands
in front of it. -/
def Carries (f : KnockFields) (signer : C.HostKey) (coins : Nat → C.Coins) (d : Bytes) : Prop :=
  ∃ pad sig2 try_, sign C signer (coins try_) nsKnock (f.padded pad) = .ok sig2 ∧
    Knock.parse d = .ok (f.knock pad sig2)

/-- A KNOCK that was built has the size asked for and is taken by the parser, with the fields it was
built from, exactly when the user name has no NUL in it; the sizing loop never subtracts below
zero. -/
theorem built_knock_parses_iff (f : KnockFields) (signer : C.HostKey) (coins : Nat → C.Coins)
    (minLen : Nat) : (∀ d, build C f signer coins minLen = .ok d →
      min minLen maxDatagram≤d.length ∧ d.length≤ maxDatagram ∧
        (f.Carries signer coins d ↔ '\x00' ∉ f.user)) ∧
      ∀ msg, build C f signer coins minLen = .error (.panic msg) →
        ∃ try_ message, sign C signer (coins try_) nsKnock message = .error (.panic msg) := by
  constructor
  · intro d h
    rw [build] at h
    split at h
    · cases h
    · next huser =>
      obtain ⟨hne,hlong⟩ := not_or.1 huser
      obtain ⟨hmin,hmax,pad,sig2,rfl,try_,hsig2⟩ := buildFrom_eq_ok h
      have hparse := parse_built hne (Nat.le_of_not_lt hlong) hmax
      refine ⟨hmin,hmax,?_,fun hnul => ⟨pad,sig2,try_,hsig2,hparse.trans (if_neg hnul)⟩⟩
      rintro ⟨pad',sig2',try',-,hknock⟩ hnul
      cases hknock.symm.trans (hparse.trans (if_pos hnul))
  · intro msg h
    rw [build] at h
    split at h
    · cases h
    · exact buildFrom_panic h

/- A signer of empty signatures. -/
def blankCrypto : Crypto where
  HostKey := Unit
  Ephemeral := Unit
  Coins := Unit
  sha256 _ := zeros
  sha512 _ := []
  publicBlob _ := []
  sign _ _ _ := .ok []
  verifyByName _ _ _ _ := .ok ()
  ephGenerate _ := ()
  ephPublic _ := zeros
  diffieHellman _ _ := some []
  hkdfExtract _ _ := []
  hkdfExpand _ _ _ := []

def fieldsOf (user : Text) : KnockFields where
  user := user
  keyFp := ⟨zeros,rfl⟩
  sig1 := []
  nonce := 0
  ephC := ⟨zeros,rfl⟩
  hostFp := none

def datagramOf (user : Text) : Bytes :=
  ((build blankCrypto (fieldsOf user) () (fun _ => ()) 200).toOption).getD []

theorem built_knock_parses_alice :
    build blankCrypto (fieldsOf "alice".toList) () (fun _ => ()) 200 = .ok (datagramOf "alice".toList) ∧
      200≤(datagramOf "alice".toList).length ∧
      Carries (fieldsOf "alice".toList) () (fun _ => ()) (C := blankCrypto)
        (datagramOf "alice".toList) := by
  have hbuild : build blankCrypto (fieldsOf "alice".toList) () (fun _ => ()) 200 =
      .ok (datagramOf "alice".toList) := by
    decide +kernel
  have hnul : '\x00' ∉ (fieldsOf "alice".toList).user := by
    decide +kernel
  have hsize : 200≤ min 200 maxDatagram := by
    decide
  obtain ⟨hmin,-,hcarries⟩ :=
    (built_knock_parses_iff (C := blankCrypto) (fieldsOf "alice".toList) () (fun _ => ()) 200).1 _ hbuild
  exact ⟨hbuild,Nat.le_trans hsize hmin,hcarries.2 hnul⟩

/-- The builder takes a user name that no parser takes. -/
theorem built_knock_with_nul :
    build blankCrypto (fieldsOf ['\x00']) () (fun _ => ()) 200 = .ok (datagramOf ['\x00']) ∧
      Knock.parse (datagramOf ['\x00']) = .error (.format "knock: NUL in user") := by
  decide +kernel

end KnockFields
end PureSsh.Knocking
