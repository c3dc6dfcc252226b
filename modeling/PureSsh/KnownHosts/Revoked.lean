import PureSsh.CertBlob
import PureSsh.KnownHosts.Lookup
import PureSsh.Krl.Format

/-! Revoked host keys (`known_hosts/revoked.rs`): their file, and keys that are written in another
way. -/

namespace PureSsh.KnownHosts
open Lib Revocation

inductive RevokedHostKeys where
  | krl (krl : Krl)
  | keys (keys : List Bytes)

def RevokedHostKeys.isRevokedKey (D : Digests) (revoked : RevokedHostKeys) (blob : Bytes) : Bool :=
  match revoked with
  | .krl list => list.isRevokedKey D blob
  | .keys list => list.any (· == blob)

section Alike
variable (blob blob' : Bytes)

/- No KRL tells the blobs apart. -/
def KrlAlike : Prop := ∀ (D : Digests) (krl : Krl), krl.isRevokedKey D blob=krl.isRevokedKey D blob'

/- No revocation file does. -/
def HostKeysAlike : Prop :=
  ∀ (D : Digests) (revoked : RevokedHostKeys), revoked.isRevokedKey D blob=revoked.isRevokedKey D blob'

/- No `@revoked` line does. -/
def StoreAlike : Prop := ∀ (M : Mac) (s : Store) (host : Text) (port : UInt16) (keyType : Text),
  s.lookup M host port (keyType,blob) = .revoked ↔ s.lookup M host port (keyType,blob') = .revoked

/- A store that revokes one key. -/
def revoking : Store where
  lines := [.entry ⟨some .revoked,.patterns ["db".toList],"ssh-rsa".toList,blob,[]⟩]

theorem lookup_revoking : (revoking blob).lookup Store.constMac "db".toList 22
    ("ssh-rsa".toList,blob')=if blob=blob' then .revoked else .unknown := by
  have hany : ((revoking blob).revokedEntries.any fun e =>
      hostFieldMatches Store.constMac e.hostSpec "db".toList 22 &&
        e.key==("ssh-rsa".toList,blob'))=decide (blob=blob') := by
    have hhost : hostFieldMatches Store.constMac (.patterns ["db".toList]) "db".toList 22=true := by
      decide
    have hone : (revoking blob).revokedEntries=[⟨some .revoked,.patterns ["db".toList],
      "ssh-rsa".toList,blob,[]⟩] := rfl
    rw [hone,List.any_cons,hhost,Bool.eq_iff_iff]
    simp [Entry.key]
  rw [Store.lookup,hany]
  by_cases h : blob=blob'
  · rw [if_pos h,if_pos (decide_eq_true h)]
  · rw [if_neg h,if_neg (by simpa using h)]
    rfl

/-- Each of the lists compares blobs. -/
theorem krlAlike_iff : KrlAlike blob blob' ↔ blob=blob' := by
  refine ⟨fun h => ?_,?_⟩
  · have hlisted := h Krl.zeroDigests (Krl.new.revokeKey blob)
    simpa [Krl.isRevokedKey,Krl.revokeKey,Krl.new,Krl.pushNew] using hlisted
  · rintro rfl _ _
    rfl

theorem hostKeysAlike_iff : HostKeysAlike blob blob' ↔ blob=blob' := by
  refine ⟨fun h => ?_,?_⟩
  · have hlisted := h Krl.zeroDigests (.keys [blob])
    simpa [RevokedHostKeys.isRevokedKey] using hlisted
  · rintro rfl _ _
    rfl

theorem storeAlike_iff : StoreAlike blob blob' ↔ blob=blob' := by
  refine ⟨fun h => ?_,?_⟩
  · have hlisted := h Store.constMac (revoking blob) "db".toList 22 "ssh-rsa".toList
    rw [lookup_revoking,lookup_revoking] at hlisted
    simpa using hlisted
  · rintro rfl _ _ _ _ _
    exact Iff.rfl

variable {blob blob'}

/-- The blobs of one RSA key are revoked alike, by each of the lists, exactly if they write its
integers in the same widths. -/
theorem rsa_revokedAlike_iff {tryNew : Nat → Nat → Bool} {allowRsaSha1 : Bool}
    {name name' : Str} {hash hash' : Rsa.RsaHash} {key : Rsa.PublicKey}
    {k k' : Nat} (h : Rsa.hostKeyVerifyByName tryNew allowRsaSha1 name blob = .ok (hash,key,k))
    (h' : Rsa.hostKeyVerifyByName tryNew allowRsaSha1 name' blob' = .ok (hash',key,k')) :
    (KrlAlike blob blob' ↔ Rsa.widths blob=Rsa.widths blob') ∧
    (HostKeysAlike blob blob' ↔ Rsa.widths blob=Rsa.widths blob') ∧
    (StoreAlike blob blob' ↔ Rsa.widths blob=Rsa.widths blob') := by
  rw [krlAlike_iff,hostKeysAlike_iff,storeAlike_iff,
    Rsa.blob_eq_iff_widths (Rsa.parse_of_verifyByName h) (Rsa.parse_of_verifyByName h')]
  exact ⟨Iff.rfl,Iff.rfl,Iff.rfl⟩

end Alike

namespace Sample
open Writer

/- A key whose modulus is written with `zeros` bytes in front of it. -/
def rsaBlob (zeros : Nat) : Bytes :=
  writeString (ascii "ssh-rsa")++writeString [1,0,1] ++
    writeString (List.replicate zeros 0++128::List.replicate 255 1)

def rsaKey : Rsa.PublicKey where
  modulus := Rsa.ofBeBytes (128::List.replicate 255 1)
  exponent := 65537

def verifyByName (blob : Bytes) : Result (Rsa.RsaHash × Rsa.PublicKey × Nat) :=
  Rsa.hostKeyVerifyByName (fun _ _ => true) false (ascii "rsa-sha2-256") blob

theorem verifyByName_rsaBlob_one : verifyByName (rsaBlob 1) = .ok (.sha256,rsaKey,256) := by
  decide +kernel

theorem verifyByName_rsaBlob_two : verifyByName (rsaBlob 2) = .ok (.sha256,rsaKey,256) := by
  decide +kernel

theorem widths_rsaBlob : Rsa.widths (rsaBlob 1)≠Rsa.widths (rsaBlob 2) := by
  decide +kernel

end Sample

open Sample

/-- One more zero before the modulus, and each of the lists tells the blobs apart. -/
theorem rsa_revokedAlike_twice : verifyByName (rsaBlob 1) = .ok (.sha256,rsaKey,256) ∧
    verifyByName (rsaBlob 2) = .ok (.sha256,rsaKey,256) ∧ ¬KrlAlike (rsaBlob 1) (rsaBlob 2) ∧
    ¬HostKeysAlike (rsaBlob 1) (rsaBlob 2) ∧ ¬StoreAlike (rsaBlob 1) (rsaBlob 2) :=
  have h := rsa_revokedAlike_iff verifyByName_rsaBlob_one verifyByName_rsaBlob_two
  ⟨verifyByName_rsaBlob_one,verifyByName_rsaBlob_two,fun hk => widths_rsaBlob (h.1.1 hk),
    fun hk => widths_rsaBlob (h.2.1.1 hk),fun hk => widths_rsaBlob (h.2.2.1 hk)⟩

/-- The key is revoked as it is usually written, and not with one more zero. -/
theorem reencoded_key_not_revoked : verifyByName (rsaBlob 1) = .ok (.sha256,rsaKey,256) ∧
    verifyByName (rsaBlob 2) = .ok (.sha256,rsaKey,256) ∧
    ((Krl.new.revokeKey (rsaBlob 1)).isRevokedKey Krl.zeroDigests (rsaBlob 1)=true ∧
      (Krl.new.revokeKey (rsaBlob 1)).isRevokedKey Krl.zeroDigests (rsaBlob 2)=false) ∧
    ((RevokedHostKeys.keys [rsaBlob 1]).isRevokedKey Krl.zeroDigests (rsaBlob 1)=true ∧
      (RevokedHostKeys.keys [rsaBlob 1]).isRevokedKey Krl.zeroDigests (rsaBlob 2)=false) ∧
    ((revoking (rsaBlob 1)).lookup Store.constMac "db".toList 22
        ("ssh-rsa".toList,rsaBlob 1) = .revoked ∧
      (revoking (rsaBlob 1)).lookup Store.constMac "db".toList 22
        ("ssh-rsa".toList,rsaBlob 2) = .unknown) := by
  refine ⟨verifyByName_rsaBlob_one,verifyByName_rsaBlob_two,?_⟩
  decide +kernel

section Files
open Cert PublicKeys

/- A certificate stands for the key it certifies. -/
def revokedBlob (blob : Bytes) : Bytes :=
  match CertBlob.parse blob with
  | .ok cert => cert.embeddedPubkeyBlob
  | .error _ => blob

namespace RevokedHostKeys

def parseKeyLine (line : Text) : Result Bytes :=
  match line.words with
  | _::b64::_ => do
    let blob ← Base64.decode b64.bytes
    return revokedBlob blob
  | _ => .error (.format "revoked host keys: bad line")

/- The lines that are not blank or a comment. -/
def keyLines (text : Text) : List Text :=
  (text.lines.map Text.trim).filter fun line => line≠[] ∧ line.head?≠some '#'

/- A list of keys is tried if the file is no KRL. -/
def parse (data : Bytes) : Result RevokedHostKeys :=
  match Krl.parse data with
  | .ok list => .ok (.krl list)
  | .error _ => match Text.ofUtf8 data with
    | none => .error (.format "revoked host keys: not a KRL or key list")
    | some text => do
      let list ← (keyLines text).mapM parseKeyLine
      return .keys list

end RevokedHostKeys

open RevokedHostKeys (parseKeyLine keyLines)

/-- The line has the text of a blob behind a key type. -/
def Spells (line keyType : Text) (blob : Bytes) : Prop :=
  ∃ b64 rest, line.words=keyType::b64::rest ∧ Base64.decode b64.bytes = .ok blob

/-- The blob is a public key or a certificate of the type. -/
def OfType (fromSec1 : FromSec1) (keyType : Text) (blob : Bytes) : Prop :=
  (∃ pk, PublicKey.parseWireBlob fromSec1 blob = .ok pk ∧
    pk.algorithm=PublicKey.lineAlgorithm keyType) ∨
  ∃ cert, CertBlob.parse blob = .ok cert ∧ cert.keyType=CertBlob.lineType keyType

variable {line : Text} {lines : List Text} {key : Bytes} {keys : List Bytes}

theorem parseKeyLine_cases (line : Text) :
    (∃ keyType blob, Spells line keyType blob ∧ parseKeyLine line = .ok (revokedBlob blob)) ∨
    (∃ e, parseKeyLine line = .error e) ∧
      ∀ b64∈line.words[1]?, ∀ blob, Base64.decode b64.bytes ≠ .ok blob := by
  rw [parseKeyLine]
  split
  · next keyType b64 rest hwords =>
    cases hblob : Base64.decode b64.bytes with
    | ok blob => exact .inl ⟨keyType,blob,⟨b64,rest,hwords,hblob⟩,rfl⟩
    | error e =>
      refine .inr ⟨⟨e,rfl⟩,fun b64' hb64 blob h => ?_⟩
      obtain rfl : b64=b64' := by simpa [hwords] using hb64
      cases hblob.symm.trans h
  · next hshort =>
    refine .inr ⟨⟨_,rfl⟩,fun b64 hb64 => ?_⟩
    rcases hwords : line.words with _ | ⟨keyType,_ | ⟨b,rest⟩⟩
    · simp [hwords] at hb64
    · simp [hwords] at hb64
    · exact absurd hwords (hshort _ _ _)

/-- The lines are all read, and so are their keys, or one of them cannot be. -/
theorem mapM_parseKeyLine (lines : List Text) : (∃ keys, lines.mapM parseKeyLine = .ok keys ∧
      ∀ line∈lines, ∃ keyType blob, Spells line keyType blob ∧ revokedBlob blob∈keys) ∨
    (∃ e, lines.mapM parseKeyLine = .error e) ∧
      ∃ line∈lines, ∀ b64∈line.words[1]?, ∀ blob, Base64.decode b64.bytes ≠ .ok blob := by
  induction lines with
  | nil => exact .inl ⟨[],rfl,nofun⟩
  | cons line lines ih =>
    rw [List.mapM_cons]
    obtain ⟨keyType,blob,hspells,hkey⟩ | ⟨⟨e,he⟩,hunread⟩ := parseKeyLine_cases line
    · rw [hkey]
      obtain ⟨keys,hkeys,hlines⟩ | ⟨⟨e,he⟩,l,hl,hunread⟩ := ih
      · refine .inl ⟨revokedBlob blob::keys,by rw [hkeys]; rfl,List.forall_mem_cons.2 ⟨?_,?_⟩⟩
        · exact ⟨keyType,blob,hspells,List.mem_cons_self⟩
        · intro l hl
          obtain ⟨keyType',blob',hspells',hmem⟩ := hlines l hl
          exact ⟨keyType',blob',hspells',List.mem_cons_of_mem _ hmem⟩
      · exact .inr ⟨⟨e,by rw [he]; rfl⟩,l,List.mem_cons_of_mem _ hl,hunread⟩
    · exact .inr ⟨⟨e,by rw [he]; rfl⟩,line,List.mem_cons_self,hunread⟩

theorem Spells.unique {keyType keyType' : Text} {blob blob' : Bytes} (h : Spells line keyType blob)
    (h' : Spells line keyType' blob') : keyType=keyType' ∧ blob=blob' := by
  obtain ⟨b64,rest,hwords,hblob⟩ := h
  obtain ⟨b64',rest',hwords',hblob'⟩ := h'
  cases hwords.symm.trans hwords'
  exact ⟨rfl,Except.ok.inj (hblob.symm.trans hblob')⟩

/-- Every line of a list that loads spells a blob that is then revoked. The blobs are keys or
certificates of the types before them exactly if all lines have such blobs, or the file does not load
as a list: it is a KRL, or no text, or a line has no second word or one that base64 refuses. -/
theorem list_revokes_iff (D : Digests) (fromSec1 : FromSec1) (data : Bytes) :
    (∀ keys, RevokedHostKeys.parse data = .ok (.keys keys) → ∃ text, Text.ofUtf8 data=some text ∧
      ∀ line∈keyLines text, ∃ keyType blob, Spells line keyType blob ∧
        (RevokedHostKeys.keys keys).isRevokedKey D (revokedBlob blob)=true) ∧
    ((∀ keys, RevokedHostKeys.parse data = .ok (.keys keys) → ∃ text, Text.ofUtf8 data=some text ∧
      ∀ line∈keyLines text, ∃ keyType blob, Spells line keyType blob ∧
        OfType fromSec1 keyType blob ∧
        (RevokedHostKeys.keys keys).isRevokedKey D (revokedBlob blob)=true) ↔
      (∃ list, Krl.parse data = .ok list) ∨ ∀ text, Text.ofUtf8 data=some text →
        (∀ line∈keyLines text, ∃ keyType blob, Spells line keyType blob ∧
          OfType fromSec1 keyType blob) ∨
        ∃ line∈keyLines text, ∀ b64∈line.words[1]?, ∀ blob,
          Base64.decode b64.bytes ≠ .ok blob) := by
  rw [RevokedHostKeys.parse]
  cases hkrl : Krl.parse data with
  | ok list => exact ⟨by simp,iff_of_true (by simp) (.inl ⟨list,rfl⟩)⟩
  | error e =>
    cases htext : Text.ofUtf8 data with
    | none => exact ⟨by simp,iff_of_true (by simp) (.inr (by simp))⟩
    | some text =>
      obtain ⟨keys,hkeys,hlines⟩ | ⟨⟨e,he⟩,hunread⟩ := mapM_parseKeyLine (keyLines text)
      · have hrevoked : ∀ line∈keyLines text, ∃ keyType blob, Spells line keyType blob ∧
            (RevokedHostKeys.keys keys).isRevokedKey D (revokedBlob blob)=true := by
          intro line hline
          obtain ⟨keyType,blob,hspells,hmem⟩ := hlines line hline
          exact ⟨keyType,blob,hspells,by simpa [RevokedHostKeys.isRevokedKey] using hmem⟩
        simp only [hkeys,except_ok_bind,pure,Except.pure,Except.ok.injEq,
          RevokedHostKeys.keys.injEq,forall_eq',Option.some.injEq,exists_eq_left']
        refine ⟨hrevoked,fun hall => ?_,fun h line hline => ?_⟩
        · refine .inr (.inl fun line hline => ?_)
          obtain ⟨keyType,blob,hspells,htype,-⟩ := hall line hline
          exact ⟨keyType,blob,hspells,htype⟩
        · obtain ⟨list,⟨⟩⟩ | htyped | ⟨l,hl,hunread⟩ := h
          · obtain ⟨keyType,blob,hspells,hkey⟩ := hrevoked line hline
            obtain ⟨keyType',blob',hspells',htype⟩ := htyped line hline
            obtain ⟨rfl,rfl⟩ := hspells.unique hspells'
            exact ⟨keyType,blob,hspells,htype,hkey⟩
          · obtain ⟨keyType,blob,⟨b64,rest,hwords,hblob⟩,-⟩ := hlines l hl
            exact absurd hblob (hunread b64 (by simp [hwords]) blob)
      · simp only [he]
        exact ⟨by simp,iff_of_true (by simp) (.inr (by simpa using .inr hunread))⟩

/- An ed25519 key of zeros, and its line. -/
def zeroKey : Bytes :=
  Writer.writeString (ascii "ssh-ed25519")++Writer.writeString (List.replicate 32 0)

def zeroLine : Text :=
  "ssh-ed25519 AAAAC3NzaC1lZDI1NTE5AAAAIAAAAAAAAAAAAAAAAAAAAAAAAAAAAAAAAAAAAAAAAAAA".toList

theorem zeroLine_spells : Spells zeroLine "ssh-ed25519".toList zeroKey :=
  ⟨zeroLine.drop 12,[],by decide +kernel,by decide +kernel⟩

theorem list_revokes_zeroKey : RevokedHostKeys.parse zeroLine.bytes = .ok (.keys [zeroKey]) ∧
    ∃ text, Text.ofUtf8 zeroLine.bytes=some text ∧ ∀ line∈keyLines text, ∃ keyType blob,
      Spells line keyType blob ∧ OfType (fun _ _ => false) keyType blob ∧
      (RevokedHostKeys.keys [zeroKey]).isRevokedKey Krl.zeroDigests (revokedBlob blob)=true := by
  have hparse : RevokedHostKeys.parse zeroLine.bytes = .ok (.keys [zeroKey]) := by rfl
  refine ⟨hparse,(list_revokes_iff Krl.zeroDigests (fun _ _ => false) zeroLine.bytes).2.2
    (.inr fun text htext => .inl ?_) _ hparse⟩
  obtain rfl := Option.some.inj ((Text.ofUtf8_bytes zeroLine).symm.trans htext)
  have hline : keyLines zeroLine=[zeroLine] := by decide
  rw [hline,List.forall_mem_singleton]
  exact ⟨_,zeroKey,zeroLine_spells,.inl ⟨_,rfl,by decide⟩⟩

theorem damaged_line_parse :
    RevokedHostKeys.parse (ascii "ssh-ed25519 AAAA") = .ok (.keys [[0,0,0]]) := by
  rfl

/-- Three bytes behind the name of a key type load as a revoked key. -/
theorem damaged_line_loads :
    RevokedHostKeys.parse (ascii "ssh-ed25519 AAAA") = .ok (.keys [[0,0,0]]) ∧
      Spells "ssh-ed25519 AAAA".toList "ssh-ed25519".toList [0,0,0] ∧
      ∀ fromSec1, ¬OfType fromSec1 "ssh-ed25519".toList [0,0,0] := by
  refine ⟨damaged_line_parse,⟨"AAAA".toList,[],by decide,by decide⟩,?_⟩
  rintro fromSec1 (⟨pk,hpk,-⟩ | ⟨cert,hcert,-⟩)
  · cases hpk
  · cases hcert

end Files

end PureSsh.KnownHosts
