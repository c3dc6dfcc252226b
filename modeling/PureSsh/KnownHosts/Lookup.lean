import PureSsh.Cert
import PureSsh.KnownHosts.Store

/-! Which host keys and certificates a store accepts, and what `@revoked` lines do to that. -/

namespace PureSsh.KnownHosts
open Lib Cert

/-- What a lookup answers, given the revoked keys of the host and the keys recorded for it and,
off the default port, for the bare host. -/
def verdict (revoked here bare : List Key) (key : Key) : LookupResult :=
  if key∈revoked then .revoked
  else if key∈here then .matched
  else if here≠[] then .mismatch here
  else if key∈bare then .matched
  else .unknown

namespace Store
variable {M : Mac} {host : Text} {port : UInt16} {key : Key} {s : Store}

def plainKey (M : Mac) (host : Text) (port : UInt16) : Slot → Option Key
  | .entry e => if e.marker.isNone && hostFieldMatches M e.hostSpec host port then some e.key
    else none
  | _ => none

/-- The keys of the plain entries that name a host, in the order of the file. -/
def plainKeys (M : Mac) (host : Text) (port : UInt16) (s : Store) : List Key :=
  s.lines.filterMap (plainKey M host port)

/-- The keys that `@revoked` lines name for a host. -/
def revokedKeys (M : Mac) (host : Text) (port : UInt16) (s : Store) : List Key :=
  (s.revokedEntries.filter fun e => hostFieldMatches M e.hostSpec host port).map (·.key)

/-- The keys under the bare host name that a lookup falls back to. -/
def bareKeys (M : Mac) (host : Text) (port : UInt16) (s : Store) : List Key :=
  if port=22 then [] else s.plainKeys M host 22

def caTrusted (M : Mac) (host : Text) (port : UInt16) (ca : Bytes) (s : Store) : Bool :=
  s.lines.any fun
    | .entry e => e.marker==some .certAuthority && e.keyBlob==ca &&
      hostFieldMatches M e.hostSpec host port
    | _ => false

def hasCaFor (M : Mac) (host : Text) (port : UInt16) (c : Certificate) (s : Store) : Bool :=
  s.caTrusted M host port c.signatureKeyBlob ||
    (port != 22 && s.caTrusted M host 22 c.signatureKeyBlob)

def revokesCert (M : Mac) (host : Text) (port : UInt16) (c : Certificate) (s : Store) : Bool :=
  s.revokedEntries.any fun e => hostFieldMatches M e.hostSpec host port &&
    (e.keyBlob==c.signatureKeyBlob || e.keyBlob==c.embeddedPubkeyBlob)

def verifyHostCert (M : Mac) (verify : VerifyByName) (host : Text) (port : UInt16)
    (c : Certificate) (allowedCaAlgos : List Str) (now : Nat) (s : Store) : Result Unit :=
  if s.revokesCert M host port c then .error .hostKeyRejected
  else do
    c.checkType .host
    c.checkValidity now
    c.requireKnownCriticalOptions
    if c.criticalOptions≠[] then .error .certUnknownCriticalOption
    else if s.hasCaFor M host port c then do
      c.verifyCaSignature verify allowedCaAlgos
      c.checkPrincipal host
    else .error .hostKeyRejected

theorem scan_eq (lines : List Slot) (hostMatched : Bool) (expected : List Key) :
    scan M host port key hostMatched expected lines =
      if key∈lines.filterMap (plainKey M host port) then none
      else some (hostMatched || !(lines.filterMap (plainKey M host port)).isEmpty,
        expected++lines.filterMap (plainKey M host port)) := by
  induction lines generalizing hostMatched expected with
  | nil => simp [scan]
  | cons slot lines ih =>
    cases slot with
    | entry e =>
      rw [scan]
      cases hmark : e.marker with
      | some m =>
        have hkey : plainKey M host port (.entry e)=none := by simp [plainKey,hmark]
        rw [List.filterMap_cons_none hkey,← ih]
        rfl
      | none =>
        cases hmatch : hostFieldMatches M e.hostSpec host port with
        | false =>
          have hkey : plainKey M host port (.entry e)=none := by simp [plainKey,hmatch]
          rw [List.filterMap_cons_none hkey,← ih]
          rfl
        | true =>
          have hkey : plainKey M host port (.entry e)=some e.key := by
            simp [plainKey,hmark,hmatch]
          rw [List.filterMap_cons_some hkey,if_neg (by simp),if_neg (by simp)]
          by_cases heq : e.key=key
          · simp [heq]
          · rw [if_neg heq,ih]
            simp [Ne.symm heq]
    | verbatim _ => rw [scan,ih,List.filterMap_cons_none rfl]; nofun
    | raw _ _ => rw [scan,ih,List.filterMap_cons_none rfl]; nofun
    | removed => rw [scan,ih,List.filterMap_cons_none rfl]; nofun

theorem mem_plainKeys : key∈s.plainKeys M host port ↔
    ∃ e, .entry e∈s.lines ∧ e.marker=none ∧ hostFieldMatches M e.hostSpec host port ∧
      e.key=key := by
  rw [plainKeys,List.mem_filterMap]
  constructor
  · rintro ⟨slot,hslot,hkey⟩
    cases slot with
    | entry e =>
      rw [plainKey] at hkey
      split at hkey
      · next h =>
        rw [Bool.and_eq_true,Option.isNone_iff_eq_none] at h
        exact ⟨e,hslot,h.1,h.2,Option.some.inj hkey⟩
      · cases hkey
    | verbatim _ => cases hkey
    | raw _ _ => cases hkey
    | removed => cases hkey
  · rintro ⟨e,he,hmark,hmatch,rfl⟩
    exact ⟨_,he,by simp [plainKey,hmark,hmatch]⟩

theorem plainHostHasKey_iff : s.plainHostHasKey M host key=true ↔ key∈s.plainKeys M host 22 := by
  rw [mem_plainKeys,plainHostHasKey,List.any_eq_true]
  constructor
  · rintro ⟨slot,hslot,h⟩
    cases slot with
    | entry e =>
      simp only [Bool.and_eq_true,Option.isNone_iff_eq_none,beq_iff_eq] at h
      exact ⟨e,hslot,h.1.1,h.2,h.1.2⟩
    | verbatim _ => cases h
    | raw _ _ => cases h
    | removed => cases h
  · rintro ⟨e,he,hmark,hmatch,rfl⟩
    exact ⟨_,he,by simp [hmark,hmatch]⟩

theorem mem_revokedKeys : key∈s.revokedKeys M host port ↔
    s.revokedEntries.any (fun e => hostFieldMatches M e.hostSpec host port && e.key==key) =
      true := by
  simp only [revokedKeys,List.mem_map,List.mem_filter,List.any_eq_true,Bool.and_eq_true,
    beq_iff_eq,and_assoc]

/-- A lookup depends on the keys of the lines that name the host, and on nothing else. -/
theorem lookup_eq_verdict : s.lookup M host port key =
    verdict (s.revokedKeys M host port) (s.plainKeys M host port) (s.bareKeys M host port) key := by
  rw [lookup,verdict,scan_eq]
  by_cases hrev : key∈s.revokedKeys M host port
  · rw [if_pos (mem_revokedKeys.1 hrev),if_pos hrev]
  rw [if_neg (mt mem_revokedKeys.2 hrev),if_neg hrev]
  by_cases hhere : key∈s.plainKeys M host port
  · rw [if_pos hhere,if_pos (show key∈s.lines.filterMap _ from hhere)]
  rw [if_neg hhere,if_neg (show key∉s.lines.filterMap _ from hhere)]
  rw [show s.lines.filterMap (plainKey M host port)=s.plainKeys M host port from rfl]
  cases hkeys : s.plainKeys M host port with
  | cons k ks => simp
  | nil =>
    by_cases hport : port=22
    · simp [bareKeys,hport]
    · simp [bareKeys,hport,plainHostHasKey_iff]

theorem lookup_matched_iff : s.lookup M host port key = .matched ↔
    key∉s.revokedKeys M host port ∧ (key∈s.plainKeys M host port ∨
      s.plainKeys M host port=[] ∧ key∈s.bareKeys M host port) := by
  rw [lookup_eq_verdict,verdict]
  by_cases hrev : key∈s.revokedKeys M host port
  · simp [hrev]
  by_cases hhere : key∈s.plainKeys M host port
  · simp [hrev,hhere]
  rw [if_neg hrev,if_neg hhere]
  by_cases hkeys : s.plainKeys M host port=[]
  · by_cases hbare : key∈s.bareKeys M host port <;> simp [hrev,hkeys,hbare]
  · simp [hhere,hkeys]

/-- The checks of a certificate that do not look at the store. -/
def certChecks (verify : VerifyByName) (host : Text) (c : Certificate) (allowedCaAlgos : List Str)
    (now : Nat) : Prop :=
  c.checkType .host = .ok () ∧ c.checkValidity now = .ok () ∧
    c.requireKnownCriticalOptions = .ok () ∧ c.criticalOptions=[] ∧
    c.verifyCaSignature verify allowedCaAlgos = .ok () ∧ c.checkPrincipal host = .ok ()

theorem verifyHostCert_ok_iff {verify : VerifyByName} {c : Certificate} {allowedCaAlgos : List Str}
    {now : Nat} : s.verifyHostCert M verify host port c allowedCaAlgos now = .ok () ↔
      s.revokesCert M host port c=false ∧ s.hasCaFor M host port c=true ∧
        certChecks verify host c allowedCaAlgos now := by
  rw [verifyHostCert,certChecks]
  cases hrev : s.revokesCert M host port c with
  | true => simp
  | false =>
    simp only [Bool.false_eq_true,if_false,except_bind_eq_ok]
    constructor
    · rintro ⟨⟨⟩,htype,⟨⟩,hvalid,⟨⟩,hknown,h⟩
      split at h
      · cases h
      next hcrit =>
      split at h
      · next hca =>
        obtain ⟨⟨⟩,hsig,hprin⟩ := except_bind_eq_ok.1 h
        exact ⟨trivial,hca,htype,hvalid,hknown,not_not.1 hcrit,hsig,hprin⟩
      · cases h
    · rintro ⟨-,hca,htype,hvalid,hknown,hcrit,hsig,hprin⟩
      refine ⟨(),htype,(),hvalid,(),hknown,?_⟩
      rw [if_neg (not_not.2 hcrit),if_pos hca,hsig]
      exact hprin

/-- The port fallback passes over the `@revoked` lines of the bare host: a key they revoke is
refused for the host exactly unless it is revoked only there and still recorded, for the host and
port or, where these have no line of their own, for the bare host; a certificate with such a key
exactly unless it is otherwise good. -/
theorem revocation_holds_iff (s : Store) (M : Mac) (verify : VerifyByName) (host : Text)
    (port : UInt16) (key : Key) (c : Certificate) (allowedCaAlgos : List Str) (now : Nat) :
    ((key∈s.revokedKeys M host port ∨ port≠22 ∧ key∈s.revokedKeys M host 22 →
        s.lookup M host port key ≠ .matched) ↔
      ¬(port≠22 ∧ key∈s.revokedKeys M host 22 ∧ key∉s.revokedKeys M host port ∧
        (key∈s.plainKeys M host port ∨ s.plainKeys M host port=[] ∧ key∈s.plainKeys M host 22))) ∧
    ((s.revokesCert M host port c ∨ port≠22 ∧ s.revokesCert M host 22 c →
        s.verifyHostCert M verify host port c allowedCaAlgos now ≠ .ok ()) ↔
      ¬(port≠22 ∧ s.revokesCert M host 22 c ∧ s.revokesCert M host port c=false ∧
        s.hasCaFor M host port c ∧ certChecks verify host c allowedCaAlgos now)) := by
  constructor
  · by_cases hport : port=22
    · simp only [ne_eq,lookup_matched_iff,hport]
      tauto
    · simp only [ne_eq,lookup_matched_iff,bareKeys,if_neg hport]
      tauto
  · simp only [ne_eq,verifyHostCert_ok_iff]
    cases hrev : s.revokesCert M host port c
    · simp only [Bool.false_eq_true,false_or,true_and]
      tauto
    · simp

/-- A constant tag will do where no entry is hashed. -/
def constMac : Mac := { mac := fun _ _ => List.replicate 20 0, length_mac := fun _ _ => rfl }

/-- The key of this host is recorded and then revoked, both under its bare name: on another port it
is still accepted. -/
theorem revoked_key_accepted_on_other_port :
    ¬ ∀ (s : Store) (M : Mac) (host : Text) (port : UInt16) (key : Key),
      key∈s.revokedKeys M host port ∨ port≠22 ∧ key∈s.revokedKeys M host 22 →
        s.lookup M host port key ≠ .matched := by
  intro h
  have hrefused := h
    (fromBytes (ascii "db ssh-ed25519 AAAA\n@revoked db ssh-ed25519 AAAA\n")) constMac
    "db".toList 2222 ("ssh-ed25519".toList,[0,0,0])
  revert hrefused
  decide +kernel

end Store
end PureSsh.KnownHosts
