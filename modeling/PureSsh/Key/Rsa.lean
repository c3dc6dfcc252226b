import Mathlib.Data.List.DropRight
import Mathlib.Data.Nat.Digits.Lemmas
import PureSsh.Format

/-! RSA public keys on the wire (`hostkey/rsa.rs`). -/

namespace PureSsh.Rsa
open Lib Reader

/- A big-endian number. -/
def ofBeBytes (bytes : Bytes) : Nat := bytes.foldl (fun n b => 256*n+b.toNat) 0

/- Leading zeros go, but one byte is kept. -/
def skipZeros : Bytes → Bytes
  | 0::b::rest => skipZeros (b::rest)
  | bytes => bytes

def mpintToUint (bytes : Bytes) : Result Nat :=
  match bytes with
  | [] => .ok 0
  | b::_ =>
    if b &&& 0x80≠0 then .error (.format "rsa: negative mpint")
    else .ok (ofBeBytes (skipZeros bytes))

def bitLen (n : Nat) : Nat := if n=0 then 0 else n.log2+1

def minRsaModulusBits : Nat := 2048
def maxRsaExponentBits : Nat := 64

def checkRsaExponentMpint (eRaw : Bytes) : Result Unit := do
  let e ← mpintToUint eRaw
  if bitLen e>maxRsaExponentBits then
    .error (.format "rsa: public exponent wider than 64 bits")
  else return ()

structure PublicKey where
  modulus : Nat
  exponent : Nat
  deriving DecidableEq, Repr

/- The two integers of a blob, as they are written. -/
def readParts (blob : Bytes) : Result (Bytes × Bytes) := do
  let (name,r) ← readString blob
  if name≠ascii "ssh-rsa" then .error (.format "rsa: public key type mismatch")
  else
    let (eRaw,r) ← readString r
    let (nRaw,r) ← readString r
    if r≠[] then .error (.format "rsa: public key trailing data") else return (eRaw,nRaw)

/- `tryNew` is the range check of the library that holds the key. -/
def parseRsaPublicBlob (tryNew : Nat → Nat → Bool) (blob : Bytes) : Result (PublicKey × Nat) := do
  let (eRaw,nRaw) ← readParts blob
  checkRsaExponentMpint eRaw
  let e ← mpintToUint eRaw
  let n ← mpintToUint nRaw
  if n=0 then .error (.format "rsa: zero modulus")
  else if bitLen n< minRsaModulusBits then
    .error (.format "rsa: modulus shorter than 2048 bits")
  else if !tryNew n e then .error (.format "rsa: modulus out of accepted range")
  else return (⟨n,e⟩,(bitLen n+7)/8)

inductive RsaHash where
  | sha1
  | sha256
  | sha512
  deriving DecidableEq, Repr

/- The arms of `host_key_verify_by_name` that take an RSA key. -/
def hostKeyVerifyByName (tryNew : Nat → Nat → Bool) (allowRsaSha1 : Bool) (name : Str)
    (blob : Bytes) : Result (RsaHash × PublicKey × Nat) := do
  if name=ascii "ssh-rsa" then
    if !allowRsaSha1 then
      .error (.unsupported "ssh-rsa (SHA-1) is disabled by default; call hostkey::set_allow_rsa_sha1(true) to opt in")
    else return (.sha1,← parseRsaPublicBlob tryNew blob)
  else if name=ascii "rsa-sha2-256" then return (.sha256,← parseRsaPublicBlob tryNew blob)
  else if name=ascii "rsa-sha2-512" then return (.sha512,← parseRsaPublicBlob tryNew blob)
  else .error (.unsupported "host-key algorithm")

section Numbers

theorem ofBeBytes_eq_ofDigits (bytes : Bytes) :
    ofBeBytes bytes=Nat.ofDigits 256 (bytes.reverse.map UInt8.toNat) := by
  induction bytes using List.reverseRecOn with
  | nil => rfl
  | append_singleton bytes b ih =>
    rw [ofBeBytes,List.foldl_append,List.reverse_append,List.reverse_singleton,
      List.singleton_append,List.map_cons,Nat.ofDigits_cons,← ih]
    simp [ofBeBytes,Nat.add_comm]

/-- A number and its width determine the bytes. -/
theorem ofBeBytes_inj {bs bs' : Bytes} (hlen : bs.length=bs'.length)
    (h : ofBeBytes bs=ofBeBytes bs') : bs=bs' := by
  have hdigit : ∀ bytes : Bytes, ∀ d∈bytes.reverse.map UInt8.toNat, d<256 := by
    intro bytes d hd
    obtain ⟨b,-,rfl⟩ := List.mem_map.1 hd
    exact b.toNat_lt
  rw [ofBeBytes_eq_ofDigits,ofBeBytes_eq_ofDigits] at h
  have hmap := Nat.ofDigits_inj_of_len_eq (by decide) (by simpa using hlen) (hdigit bs) (hdigit bs') h
  exact List.reverse_injective (List.map_injective_iff.2 (fun _ _ => UInt8.toNat_inj.1) hmap)

theorem ofBeBytes_skipZeros (bytes : Bytes) : ofBeBytes (skipZeros bytes)=ofBeBytes bytes := by
  induction bytes using skipZeros.induct with
  | case1 b rest ih =>
    rw [skipZeros,ih]
    simp [ofBeBytes]
  | case2 bytes hne => rw [skipZeros.eq_2 _ hne]

theorem ofBeBytes_dropWhile (b : Bytes) : ofBeBytes (b.dropWhile (· == 0))=ofBeBytes b := by
  induction b with
  | nil => rfl
  | cons x b ih =>
    rw [List.dropWhile_cons]
    split
    · next hx =>
      rw [ih,eq_of_beq hx]
      rfl
    · rfl

theorem dropWhile_mpintBody (b : Bytes) :
    (Writer.mpintBody b).dropWhile (· == 0)=b.dropWhile (· == 0) := by
  have hdrop : (b.dropWhile (· == 0)).dropWhile (· == 0)=b.dropWhile (· == 0) :=
    List.dropWhile_idempotent _ b
  rw [Writer.mpintBody]
  cases hm : b.dropWhile (· == 0) with
  | nil => rfl
  | cons x m =>
    rw [hm] at hdrop
    dsimp only
    split
    · rw [List.dropWhile_cons,if_pos (by decide),hdrop]
    · exact hdrop

theorem ofBeBytes_of_mpintToUint {bytes : Bytes} {n : Nat} (h : mpintToUint bytes = .ok n) :
    ofBeBytes bytes=n := by
  rw [mpintToUint.eq_def] at h
  split at h
  · cases h
    rfl
  · split at h
    · cases h
    · rw [ofBeBytes_skipZeros] at h
      exact Except.ok.inj h

end Numbers

section Blobs
open Writer

variable {tryNew : Nat → Nat → Bool} {blob blob' eRaw nRaw : Bytes}

theorem eq_of_readParts (h : readParts blob = .ok (eRaw,nRaw)) :
    blob=writeString (ascii "ssh-rsa")++writeString eRaw++writeString nRaw := by
  obtain ⟨⟨name,r⟩,hname,h⟩ := except_bind_eq_ok.1 h
  dsimp only at h
  split at h
  · cases h
  next heq =>
    obtain ⟨⟨e,r'⟩,he,h⟩ := except_bind_eq_ok.1 h
    obtain ⟨⟨n,r''⟩,hn,h⟩ := except_bind_eq_ok.1 h
    dsimp only at h
    split at h
    · cases h
    next hend =>
      cases h
      have hr' : r'=writeString nRaw++r'' := eq_of_readString hn
      rw [eq_of_readString hname,eq_of_readString he,hr',not_not.1 hend,not_not.1 heq,
        List.append_nil,List.append_assoc]

variable {k : Nat} {key : PublicKey}

theorem parts_of_parse (h : parseRsaPublicBlob tryNew blob = .ok (key,k)) :
    ∃ eRaw nRaw, readParts blob = .ok (eRaw,nRaw) ∧ ofBeBytes eRaw=key.exponent ∧
      ofBeBytes nRaw=key.modulus := by
  obtain ⟨⟨eRaw,nRaw⟩,hparts,h⟩ := except_bind_eq_ok.1 h
  obtain ⟨-,-,h⟩ := except_bind_eq_ok.1 h
  obtain ⟨e,he,h⟩ := except_bind_eq_ok.1 h
  obtain ⟨n,hn,h⟩ := except_bind_eq_ok.1 h
  split at h
  · cases h
  split at h
  · cases h
  split at h
  · cases h
  cases h
  exact ⟨eRaw,nRaw,hparts,ofBeBytes_of_mpintToUint he,ofBeBytes_of_mpintToUint hn⟩

theorem parse_of_verifyByName {allowRsaSha1 : Bool} {name : Str} {hash : RsaHash}
    (h : hostKeyVerifyByName tryNew allowRsaSha1 name blob = .ok (hash,key,k)) :
    parseRsaPublicBlob tryNew blob = .ok (key,k) := by
  have hparse : ∀ hash', (do
      return (hash',← parseRsaPublicBlob tryNew blob) : Result (RsaHash × PublicKey × Nat)) =
        .ok (hash,key,k) → parseRsaPublicBlob tryNew blob = .ok (key,k) := by
    intro hash' h
    obtain ⟨x,hx,h⟩ := except_bind_eq_ok.1 h
    cases h
    exact hx
  rw [hostKeyVerifyByName] at h
  split at h
  · split at h
    · cases h
    · exact hparse _ h
  split at h
  · exact hparse _ h
  split at h
  · exact hparse _ h
  · cases h

/- The number of bytes that a blob spends on the exponent and on the modulus. -/
def widths (blob : Bytes) : Option (Nat × Nat) :=
  (readParts blob).toOption.map fun (e,n) => (e.length,n.length)

/-- Two blobs of one key are equal exactly if they write its integers in the same widths. -/
theorem blob_eq_iff_widths {k' : Nat} (h : parseRsaPublicBlob tryNew blob = .ok (key,k))
    (h' : parseRsaPublicBlob tryNew blob' = .ok (key,k')) :
    blob=blob' ↔ widths blob=widths blob' := by
  obtain ⟨e,n,hparts,he,hn⟩ := parts_of_parse h
  obtain ⟨e',n',hparts',he',hn'⟩ := parts_of_parse h'
  constructor
  · rintro rfl
    rfl
  · intro hwidths
    rw [widths,widths,hparts,hparts'] at hwidths
    have hlens : (e.length,n.length)=(e'.length,n'.length) := Option.some.inj hwidths
    obtain ⟨helen,hnlen⟩ := Prod.mk.inj hlens
    rw [eq_of_readParts hparts,eq_of_readParts hparts',ofBeBytes_inj helen (he.trans he'.symm),
      ofBeBytes_inj hnlen (hn.trans hn'.symm)]

end Blobs

end PureSsh.Rsa
