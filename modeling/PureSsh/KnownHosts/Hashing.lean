import Mathlib.Data.Fintype.EquivFin
import PureSsh.KnownHosts.Lookup

/-! Hashed host names, and what hashing a whole store does to its answers. -/

namespace PureSsh.KnownHosts
open Lib Cert List
variable {M : Mac} {salt : Bytes} {name host : Text} {port : UInt16}

/-- No other name has the tag of this one under this salt. -/
def Binding (M : Mac) (salt : Bytes) (name : Text) : Prop :=
  ∀ other : Text, hmac M salt other=hmac M salt name → other=name

theorem parseHashed_encodeHashed :
    parseHashed (encodeHashed M salt name)=some (salt,hmac M salt name) := by
  have hsplit : Text.splitFirst '|' (Base64.encode salt ++ '|' :: Base64.encode (hmac M salt name)) =
      some (Base64.encode salt,Base64.encode (hmac M salt name)) :=
    Text.splitFirst_append (Base64.bar_not_mem_encode salt) _
  have htoken : encodeHashed M salt name = '|' :: '1' :: '|' ::
      (Base64.encode salt ++ '|' :: Base64.encode (hmac M salt name)) := by
    unfold encodeHashed
    simp
  rw [htoken,parseHashed,hsplit]
  simp [Base64.decode_encode,Except.toOption]

/-- A hashed name matches the hosts that are written exactly like it. -/
theorem hostFieldMatches_hashed (hbind : Binding M salt name) :
    hostFieldMatches M (.hashed (encodeHashed M salt name)) host port=true ↔
      formatHost host port=name := by
  simp only [hostFieldMatches,parseHashed_encodeHashed,checkHashed,Bool.and_eq_true,beq_iff_eq]
  constructor
  · rintro ⟨-,h⟩
    exact hbind _ h
  · rintro rfl
    exact ⟨M.length_mac _ _,rfl⟩

theorem formatHost_default : formatHost host 22=host := if_pos rfl

theorem formatHost_length (hport : port≠22) : host.length<(formatHost host port).length := by
  rw [formatHost,if_neg hport,length_append,length_cons]
  omega

/-- A tag that tells some names from each other and from all others. -/
def nameMac (names : List Text) : Mac where
  mac _ msg := replicate 20 (UInt8.ofNat ((names.map Text.bytes).idxOf msg))
  length_mac _ _ := length_replicate

theorem nameMac_binding {names : List Text} (hname : name∈names) (hlen : names.length<256)
    (salt : Bytes) : Binding (nameMac names) salt name := by
  intro other h
  have hlt := idxOf_lt_length_iff.2 (mem_map_of_mem (f := Text.bytes) hname)
  have hle : (names.map Text.bytes).idxOf other.bytes≤_ := idxOf_le_length
  have hmod := congrArg UInt8.toNat ((replicate_inj.1 h).2.resolve_left (by decide))
  rw [length_map] at hlt hle
  rw [UInt8.toNat_ofNat',UInt8.toNat_ofNat',Nat.mod_eq_of_lt (by omega),
    Nat.mod_eq_of_lt (by omega)] at hmod
  exact Text.bytes_injective ((idxOf_inj (mem_map_of_mem hname)).1 hmod.symm).symm

/-- Two stores answer alike exactly when the same keys are revoked, the same keys are recorded, in
the same order, and, where none is, the same keys are found under the bare host. -/
theorem verdict_congr_iff {revoked revoked' here here' bare bare' : List Key} :
    (∀ key, verdict revoked' here' bare' key=verdict revoked here bare key) ↔
      (∀ key, key∈revoked' ↔ key∈revoked) ∧ here'=here ∧
        (here=[] → ∀ key, key∉revoked → (key∈bare' ↔ key∈bare)) := by
  constructor
  · intro h
    have hrevoked : ∀ key, key∈revoked' ↔ key∈revoked := by
      intro key
      have hkey := h key
      by_cases hin' : key∈revoked' <;> by_cases hin : key∈revoked <;>
        simp only [verdict,hin,hin',if_true,if_false] at hkey ⊢ <;> grind
    -- a key on no list tells the recorded keys apart
    have hhere : here'=here := by
      obtain ⟨key,hfresh⟩ :=
        Infinite.exists_notMem_finset (revoked++here++here'++bare++bare').toFinset
      have hkey := h key
      simp only [mem_toFinset,mem_append] at hfresh
      simp only [verdict] at hkey
      grind
    refine ⟨hrevoked,hhere,fun hnil key hkey => ?_⟩
    have hans := h key
    simp only [verdict] at hans
    grind
  · simp only [verdict]
    grind

/-- The texts that the patterns of an entry are hashed as; `none` for an entry that stays. -/
def Entry.hashedNames (e : Entry) : Option (List Text) :=
  match e.hostSpec with
  | .hashed _ => none
  | .patterns pats => (pats.mapM splitHostPort).map fun names => names.map fun n => formatHost n.1 n.2

namespace Store
variable {s : Store} {m : Option Marker} {salts : Nat → Nat → Bytes}

/-- The keys of the lines with a marker that name a host, in the order of the file. -/
def namedOf (M : Mac) (m : Option Marker) (host : Text) (port : UInt16) : Slot → List Key
  | .entry e => if e.marker=m ∧ hostFieldMatches M e.hostSpec host port then [e.key] else []
  | .raw _ (some e) =>
    if m=some .revoked ∧ e.marker=m ∧ hostFieldMatches M e.hostSpec host port then [e.key]
    else []
  | _ => []

def namedKeys (M : Mac) (m : Option Marker) (host : Text) (port : UInt16) (s : Store) : List Key :=
  s.lines.flatMap (namedOf M m host port)

/-- The same with every pattern read as a plain name: an entry counts once for each of its patterns
that is written exactly like the host. -/
def literalOf (M : Mac) (m : Option Marker) (host : Text) (port : UInt16) : Slot → List Key
  | .entry e => match e.hashedNames with
    | some names => if e.marker=m then replicate (names.count (formatHost host port)) e.key
      else []
    | none => namedOf M m host port (.entry e)
  | slot => namedOf M m host port slot

def literalKeys (M : Mac) (m : Option Marker) (host : Text) (port : UInt16) (s : Store) :
    List Key :=
  s.lines.flatMap (literalOf M m host port)

theorem plainKeys_eq_namedKeys : s.plainKeys M host port=s.namedKeys M none host port := by
  rw [plainKeys,filterMap_eq_flatMap_toList]
  refine flatMap_congr fun slot _ => ?_
  cases slot with
  | entry e =>
    rw [plainKey,namedOf]
    cases e.marker <;> cases hostFieldMatches M e.hostSpec host port <;> simp
  | raw line revoked => cases revoked <;> simp [plainKey,namedOf]
  | verbatim _ => rfl
  | removed => rfl

theorem revokedKeys_eq_namedKeys :
    s.revokedKeys M host port=s.namedKeys M (some .revoked) host port := by
  rw [revokedKeys,revokedEntries,namedKeys]
  induction s.lines with
  | nil => rfl
  | cons slot lines ih =>
    rw [flatMap_cons,← ih]
    cases slot with
    | entry e =>
      by_cases hmark : e.marker=some .revoked
      · cases hmatch : hostFieldMatches M e.hostSpec host port <;> simp [namedOf,hmark,hmatch]
      · simp [namedOf,hmark]
    | raw line revoked =>
      cases revoked with
      | none => simp [namedOf]
      | some e =>
        by_cases hmark : e.marker=some .revoked
        · cases hmatch : hostFieldMatches M e.hostSpec host port <;> simp [namedOf,hmark,hmatch]
        · simp [namedOf,hmark]
    | verbatim _ => simp [namedOf]
    | removed => simp [namedOf]

theorem caTrusted_iff {ca : Bytes} : s.caTrusted M host port ca=true ↔
    ca∈(s.namedKeys M (some .certAuthority) host port).map (·.2) := by
  rw [caTrusted,any_eq_true,namedKeys,map_flatMap,mem_flatMap]
  refine exists_congr fun slot => and_congr_right fun _ => ?_
  cases slot with
  | entry e =>
    by_cases hmark : e.marker=some .certAuthority
    · cases hmatch : hostFieldMatches M e.hostSpec host port with
      | false => simp [namedOf,hmatch]
      | true =>
        simp only [hmark,namedOf,hmatch,and_self,if_true,map_cons,
          map_nil,mem_singleton,beq_self_eq_true,Bool.true_and,Bool.and_true,beq_iff_eq]
        exact eq_comm
    · simp [namedOf,hmark]
  | raw line revoked => cases revoked <;> simp [namedOf]
  | verbatim _ => simp [namedOf]
  | removed => simp [namedOf]

/-- Every name that is hashed has a salt under which it is bound. -/
def Bound (M : Mac) (salts : Nat → Nat → Bytes) (s : Store) : Prop :=
  ∀ e i, (Slot.entry e,i)∈s.lines.zipIdx → ∀ names, e.hashedNames=some names →
    ∀ name j, (name,j)∈names.zipIdx → Binding M (salts i j) name

theorem bound_nameMac {names : List Text} (hlen : names.length<256) (h : ∀ name∈s.lines.flatMap (fun
      | .entry e => e.hashedNames.getD [] | _ => []), name∈names) : Bound (nameMac names) salts s := by
  intro e i he names' hsome name j hname
  refine nameMac_binding (h name (mem_flatMap.2 ⟨_,fst_mem_of_mem_zipIdx he,?_⟩)) hlen _
  change name∈e.hashedNames.getD []
  rw [hsome]
  exact fst_mem_of_mem_zipIdx hname

theorem namedOf_hashedEntry {e : Entry} {n : Text × UInt16}
    (hbind : Binding M salt (formatHost n.1 n.2)) : namedOf M m host port (hashedEntry M e salt n) =
      if e.marker=m ∧ formatHost n.1 n.2=formatHost host port then [e.key] else [] := by
  have hmatch : hostFieldMatches M (.hashed (encodeHashed M salt (formatHost n.1 n.2))) host port ↔
      formatHost host port=formatHost n.1 n.2 := hostFieldMatches_hashed hbind
  simp only [hashedEntry,namedOf,hmatch,eq_comm (a := formatHost host port)]
  rfl

/- One entry for each name, with its own salt; the induction moves the index of the first. -/
theorem flatMap_hashedEntry {e : Entry} {salts : Nat → Bytes} {names : List (Text × UInt16)}
    {start : Nat}
    (hbind : ∀ n j, (n,j)∈names.zipIdx start → Binding M (salts j) (formatHost n.1 n.2)) :
    ((names.zipIdx start).map fun (n,j) => hashedEntry M e (salts j) n).flatMap
        (namedOf M m host port)=if e.marker=m then
        replicate ((names.map fun n => formatHost n.1 n.2).count (formatHost host port)) e.key
      else [] := by
  induction names generalizing start with
  | nil => simp
  | cons n names ih =>
    rw [zipIdx_cons,map_cons,flatMap_cons,
      ih fun n' j hj => hbind n' j (by exact mem_cons_of_mem _ hj),
      namedOf_hashedEntry (hbind n start (by exact mem_cons_self)),
      map_cons,count_cons]
    by_cases hmark : e.marker=m
    · by_cases hname : formatHost n.1 n.2=formatHost host port
      · simp [hmark,hname,replicate_succ]
      · simp [hname]
    · simp [hmark]

theorem flatMap_hashSlot {salts : Nat → Bytes} {slot : Slot}
    (hbind : ∀ e, slot = .entry e → ∀ names, e.hashedNames=some names →
      ∀ name j, (name,j)∈names.zipIdx → Binding M (salts j) name) :
    (hashSlot M salts slot).flatMap (namedOf M m host port)=literalOf M m host port slot := by
  cases slot with
  | entry e =>
    rw [hashSlot,literalOf,Entry.hashedNames]
    cases hspec : e.hostSpec with
    | hashed token => simp
    | patterns pats =>
      cases hnames : pats.mapM splitHostPort with
      | none => simp [hnames]
      | some names =>
        simp only [hnames]
        refine flatMap_hashedEntry fun n j hj =>
          hbind e rfl (names.map fun n => formatHost n.1 n.2) ?_ _ j ?_
        · rw [Entry.hashedNames,hspec]
          simp [hnames]
        · rw [zipIdx_map,mem_map]
          exact ⟨(n,j),hj,rfl⟩
  | verbatim _ => simp [hashSlot,literalOf]
  | raw _ _ => simp [hashSlot,literalOf]
  | removed => simp [hashSlot,literalOf]

/-- After hashing, a line names the hosts that its patterns spell out. -/
theorem namedKeys_hashInPlace (hbound : Bound M salts s) :
    (s.hashInPlace M salts).namedKeys M m host port=s.literalKeys M m host port := by
  rw [namedKeys,hashInPlace,flatMap_assoc]
  calc s.lines.zipIdx.flatMap
        (fun p => (hashSlot M (salts p.2) p.1).flatMap (namedOf M m host port))
      = s.lines.zipIdx.flatMap fun p => literalOf M m host port p.1 :=
        flatMap_congr fun p hp =>
          flatMap_hashSlot fun e he => hbound e p.2 (he ▸ hp)
    _=(s.lines.zipIdx.map Prod.fst).flatMap (literalOf M m host port) := by
        rw [flatMap_map]
    _=s.lines.flatMap (literalOf M m host port) := by rw [zipIdx_map_fst]

theorem hasCaFor_iff {c : Certificate} : s.hasCaFor M host port c=true ↔
    c.signatureKeyBlob∈(s.namedKeys M (some .certAuthority) host port).map (·.2) ∨
      port≠22 ∧ c.signatureKeyBlob∈(s.namedKeys M (some .certAuthority) host 22).map (·.2) := by
  rw [hasCaFor,Bool.or_eq_true,Bool.and_eq_true,caTrusted_iff,caTrusted_iff,bne_iff_ne]

theorem revokesCert_iff {c : Certificate} : s.revokesCert M host port c=true ↔
    ∃ key∈s.namedKeys M (some .revoked) host port,
      key.2=c.signatureKeyBlob ∨ key.2=c.embeddedPubkeyBlob := by
  rw [← revokedKeys_eq_namedKeys,revokesCert,any_eq_true,revokedKeys]
  simp only [Bool.and_eq_true,Bool.or_eq_true,beq_iff_eq,mem_map,mem_filter]
  constructor
  · rintro ⟨e,he,hmatch,hblob⟩
    exact ⟨e.key,⟨e,⟨he,hmatch⟩,rfl⟩,hblob⟩
  · rintro ⟨_,⟨e,⟨he,hmatch⟩,rfl⟩,hblob⟩
    exact ⟨e,he,hmatch,hblob⟩

/-- Two ways to name keys, by marker and port, that decide alike: the same keys revoked, the same
keys recorded in the same order, the same certificate authorities, and the same keys under the bare
host where the lookup gets that far. -/
structure SameAnswers (port : UInt16) (after before : Option Marker → UInt16 → List Key) : Prop where
  revoked : ∀ key, key∈after (some .revoked) port ↔ key∈before (some .revoked) port
  recorded : after none port=before none port
  authority : ∀ ca : Bytes,
    (ca∈(after (some .certAuthority) port).map (·.2) ∨
      port≠22 ∧ ca∈(after (some .certAuthority) 22).map (·.2)) ↔
    (ca∈(before (some .certAuthority) port).map (·.2) ∨
      port≠22 ∧ ca∈(before (some .certAuthority) 22).map (·.2))
  bare : port≠22 → before none port=[] → ∀ key, key∉before (some .revoked) port →
    (key∈after none 22 ↔ key∈before none 22)

def signedBy (ca : Bytes) : Certificate where
  embeddedPubkeyBlob := []
  certType := .host
  validPrincipals := []
  validAfter := 0
  validBefore := 0
  criticalOptions := []
  signatureKeyBlob := ca
  signature := []
  signedLen := 0
  raw := []

/-- Two stores decide alike for a host exactly when they name the same keys for it. -/
theorem same_answers_iff {s s' : Store} : (∀ (key : Key) (c : Certificate),
      s'.lookup M host port key=s.lookup M host port key ∧
      s'.hasCaFor M host port c=s.hasCaFor M host port c ∧
      s'.revokesCert M host port c=s.revokesCert M host port c) ↔
    SameAnswers port (fun m q => s'.namedKeys M m host q) fun m q => s.namedKeys M m host q := by
  have hlookup : (∀ key, s'.lookup M host port key=s.lookup M host port key) ↔
      (∀ key, key∈s'.namedKeys M (some .revoked) host port ↔
        key∈s.namedKeys M (some .revoked) host port) ∧
      s'.namedKeys M none host port=s.namedKeys M none host port ∧
      (port≠22 → s.namedKeys M none host port=[] →
        ∀ key, key∉s.namedKeys M (some .revoked) host port →
          (key∈s'.namedKeys M none host 22 ↔ key∈s.namedKeys M none host 22)) := by
    simp only [lookup_eq_verdict,verdict_congr_iff,revokedKeys_eq_namedKeys,bareKeys,
      plainKeys_eq_namedKeys]
    by_cases hport : port=22
    · simp [hport]
    · simp [hport]
  constructor
  · intro h
    obtain ⟨hrevoked,hrecorded,hbare⟩ := hlookup.1 fun key => (h key (signedBy [])).1
    refine ⟨hrevoked,hrecorded,fun ca => ?_,hbare⟩
    have hca := (h ([],[]) (signedBy ca)).2.1
    rwa [Bool.eq_iff_iff,hasCaFor_iff,hasCaFor_iff] at hca
  · intro h key c
    refine ⟨hlookup.2 ⟨h.revoked,h.recorded,h.bare⟩ key,?_,?_⟩
    · rw [Bool.eq_iff_iff,hasCaFor_iff,hasCaFor_iff]
      exact h.authority c.signatureKeyBlob
    · rw [Bool.eq_iff_iff,revokesCert_iff,revokesCert_iff]
      simp only [h.revoked]

/-- Reading every pattern as a plain name finds the keys that the patterns find: the same keys
revoked, the same keys recorded and as often, the same certificate authorities, and the same keys
under the bare host where the lookup gets that far. -/
structure SpelledOut (M : Mac) (host : Text) (port : UInt16) (s : Store) : Prop where
  revoked : ∀ key, key∈s.literalKeys M (some .revoked) host port ↔
    key∈s.namedKeys M (some .revoked) host port
  recorded : s.literalKeys M none host port=s.namedKeys M none host port
  authority : ∀ ca : Bytes,
    (ca∈(s.literalKeys M (some .certAuthority) host port).map (·.2) ∨
      port≠22 ∧ ca∈(s.literalKeys M (some .certAuthority) host 22).map (·.2)) ↔
    (ca∈(s.namedKeys M (some .certAuthority) host port).map (·.2) ∨
      port≠22 ∧ ca∈(s.namedKeys M (some .certAuthority) host 22).map (·.2))
  bare : port≠22 → s.namedKeys M none host port=[] →
    ∀ key, key∉s.namedKeys M (some .revoked) host port →
      (key∈s.literalKeys M none host 22 ↔ key∈s.namedKeys M none host 22)

/-- Hashing reads every pattern as a plain name: the store then gives a host the same answers, to
lookups, about authorities and about revocation, exactly when its names are spelled out. -/
theorem hash_in_place_keeps_trust_iff (s : Store) (M : Mac) (salts : Nat → Nat → Bytes)
    (host : Text) (port : UInt16) (hbound : Bound M salts s) : (∀ (key : Key) (c : Certificate),
      (s.hashInPlace M salts).lookup M host port key=s.lookup M host port key ∧
      (s.hashInPlace M salts).hasCaFor M host port c=s.hasCaFor M host port c ∧
      (s.hashInPlace M salts).revokesCert M host port c=s.revokesCert M host port c) ↔
    SpelledOut M host port s := by
  rw [same_answers_iff]
  simp only [namedKeys_hashInPlace hbound]
  exact ⟨fun h => ⟨h.revoked,h.recorded,h.authority,h.bare⟩,
    fun h => ⟨h.revoked,h.recorded,h.authority,h.bare⟩⟩

def dbFile : Bytes := ascii "db,web ssh-ed25519 AAAA\n@revoked db ssh-ed25519 AAAE\n"
def dbMac : Mac := nameMac ["db".toList,"web".toList]

/-- A key for two names and a revoked one, for a host that is asked for under its own name. -/
theorem hash_in_place_keeps_trust_db : SpelledOut dbMac "db".toList 22 (fromBytes dbFile) ∧
    ∀ (key : Key) (c : Certificate), let s := fromBytes dbFile
      (s.hashInPlace dbMac fun _ _ => [5]).lookup dbMac "db".toList 22 key =
        s.lookup dbMac "db".toList 22 key ∧
      (s.hashInPlace dbMac fun _ _ => [5]).hasCaFor dbMac "db".toList 22 c =
        s.hasCaFor dbMac "db".toList 22 c ∧
      (s.hashInPlace dbMac fun _ _ => [5]).revokesCert dbMac "db".toList 22 c =
        s.revokesCert dbMac "db".toList 22 c := by
  have hsame : ∀ m∈[none,some .revoked,some .certAuthority],
      (fromBytes dbFile).literalKeys dbMac m "db".toList 22 =
        (fromBytes dbFile).namedKeys dbMac m "db".toList 22 := by
    decide +kernel
  have hspelled : SpelledOut dbMac "db".toList 22 (fromBytes dbFile) := by
    refine ⟨fun key => ?_,hsame none (by simp),fun ca => ?_,fun hport => absurd rfl hport⟩
    · rw [hsame (some .revoked) (by simp)]
    · rw [hsame (some .certAuthority) (by simp)]
  refine ⟨hspelled,(hash_in_place_keeps_trust_iff _ dbMac (fun _ _ => [5]) "db".toList 22 ?_).2
    hspelled⟩
  exact bound_nameMac (by decide) (by decide +kernel)

/-- A wildcard is hashed as the text it is: its hosts are unknown afterwards. -/
theorem hash_in_place_forgets_wildcard :
    ¬ ∀ (file : Bytes) (M : Mac) (salts : Nat → Nat → Bytes) (host : Text) (port : UInt16)
      (key : Key), Bound M salts (fromBytes file) →
        ((fromBytes file).hashInPlace M salts).lookup M host port key =
          (fromBytes file).lookup M host port key := by
  intro h
  have hsame := h (ascii "*.example.com ssh-ed25519 AAAA\n") (nameMac ["*.example.com".toList])
    (fun _ _ => [5]) "a.example.com".toList 22 ("ssh-ed25519".toList,[0,0,0])
    (bound_nameMac (by decide) (by decide))
  revert hsame
  decide

end Store

end PureSsh.KnownHosts
