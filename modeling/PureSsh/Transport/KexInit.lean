import PureSsh.Transport.Cipher

/-! `SSH_MSG_KEXINIT` and the negotiation of algorithms (`hazmat/transport/kex.rs`,
`hazmat/transport/kexinit.rs`). -/

namespace PureSsh.Transport
open Lib Reader Writer

def msgKexInit : UInt8 := 20
def msgNewKeys : UInt8 := 21

def strictKexClientMarker : Str := ascii "kex-strict-c-v00@openssh.com"
def strictKexServerMarker : Str := ascii "kex-strict-s-v00@openssh.com"
def extInfoClientMarker : Str := ascii "ext-info-c"
def extInfoServerMarker : Str := ascii "ext-info-s"

def isStrictKexMarker (name : Str) : Bool :=
  name==strictKexClientMarker || name==strictKexServerMarker

def isExtInfoMarker (name : Str) : Bool :=
  name==extInfoClientMarker || name==extInfoServerMarker

inductive Role where
  | client
  | server
  deriving DecidableEq, Repr

structure KexInit where
  cookie : Bytes
  kex : List Str
  serverHostKey : List Str
  ciphersC2s : List Str
  ciphersS2c : List Str
  macsC2s : List Str
  macsS2c : List Str
  compC2s : List Str
  compS2c : List Str
  langC2s : List Str
  langS2c : List Str
  firstKexPacketFollows : Bool
  deriving DecidableEq, Repr

def maxNameLen : Nat := 64

def checkNames : List Bytes → Result (List Str)
  | [] => .ok []
  | entry::rest => do
    if entry.length>maxNameLen then .error (.format "over-long name in name-list")
    else if entry.any fun b => !(0x21≤b && b≤0x7e) then
      .error (.format "non-printable name in name-list")
    else return entry::(← checkNames rest)

def readNameList (r : Bytes) : Result (List Str × Bytes) := do
  let (list,r) ← readString r
  return (← checkNames (NameList.iter list),r)

def writeNameList (names : List Str) : Bytes := writeString (NameList.join names)

namespace KexInit

/- The cookie is an array of 16 bytes in the source. -/
def encode (k : KexInit) : Bytes :=
  msgKexInit::(k.cookie++writeNameList k.kex++writeNameList k.serverHostKey ++
    writeNameList k.ciphersC2s++writeNameList k.ciphersS2c++writeNameList k.macsC2s ++
    writeNameList k.macsS2c++writeNameList k.compC2s++writeNameList k.compS2c ++
    writeNameList k.langC2s++writeNameList k.langS2c++writeBool k.firstKexPacketFollows ++
    be32 0)

def decode (payload : Bytes) : Result KexInit := do
  let (msg,r) ← readU8 payload
  if msg≠msgKexInit then .error (.protocol "expected SSH_MSG_KEXINIT")
  else
    let (cookie,r) ← take 16 r
    let (kex,r) ← readNameList r
    let (serverHostKey,r) ← readNameList r
    let (ciphersC2s,r) ← readNameList r
    let (ciphersS2c,r) ← readNameList r
    let (macsC2s,r) ← readNameList r
    let (macsS2c,r) ← readNameList r
    let (compC2s,r) ← readNameList r
    let (compS2c,r) ← readNameList r
    let (langC2s,r) ← readNameList r
    let (langS2c,r) ← readNameList r
    let (firstKexPacketFollows,r) ← readBool r
    let (_,r) ← readU32 r
    if !r.isEmpty then .error (.format "KEXINIT trailing bytes")
    else return { cookie, kex, serverHostKey, ciphersC2s, ciphersS2c, macsC2s, macsS2c, compC2s,
                  compS2c, langC2s, langS2c, firstKexPacketFollows }

end KexInit

structure NegotiatedOwned where
  kex : Str
  hostKey : Str
  cipherC2s : Str
  cipherS2c : Str
  macC2s : Str
  macS2c : Str
  compC2s : Str
  compS2c : Str
  firstKexPacketFollowsWrongGuess : Bool
  strictKexEnabled : Bool
  extInfoEnabled : Bool
  clientExtInfo : Bool
  serverExtInfo : Bool
  deriving DecidableEq, Repr

/- A marker is no key exchange method. -/
def skipped (category : String) (name : Str) : Bool :=
  category == "kex algorithm" && (isStrictKexMarker name || isExtInfoMarker name)

def pick (category : String) (client server : List Str) : Result Str :=
  match client.find? fun name => !skipped category name && server.contains name with
  | some name => .ok name
  | none => .error (.noMatch category (NameList.join client) (NameList.join server))

def isAeadName (cipher : Str) : Bool := (CipherSpec.byName cipher).any (·.aead)

/- An AEAD cipher has no MAC. -/
def pickMac (category : String) (cipher : Str) (client server : List Str) : Result Str :=
  if isAeadName cipher then .ok [] else pick category client server

def wrongGuess (client server : KexInit) : Bool :=
  (client.firstKexPacketFollows || server.firstKexPacketFollows) &&
    !(client.kex.head? == server.kex.head? &&
      client.serverHostKey.head? == server.serverHostKey.head?)

def negotiate (client server : KexInit) : Result NegotiatedOwned := do
  let kex ← pick "kex algorithm" client.kex server.kex
  let hostKey ← pick "host-key algorithm" client.serverHostKey server.serverHostKey
  let cipherC2s ← pick "cipher c2s" client.ciphersC2s server.ciphersC2s
  let cipherS2c ← pick "cipher s2c" client.ciphersS2c server.ciphersS2c
  let macC2s ← pickMac "mac c2s" cipherC2s client.macsC2s server.macsC2s
  let macS2c ← pickMac "mac s2c" cipherS2c client.macsS2c server.macsS2c
  let compC2s ← pick "compression c2s" client.compC2s server.compC2s
  let compS2c ← pick "compression s2c" client.compS2c server.compS2c
  let clientExt := client.kex.contains extInfoClientMarker
  let serverExt := server.kex.contains extInfoServerMarker
  return {
    kex, hostKey, cipherC2s, cipherS2c, macC2s, macS2c, compC2s, compS2c
    firstKexPacketFollowsWrongGuess := wrongGuess client server
    strictKexEnabled := client.kex.contains strictKexClientMarker &&
      server.kex.contains strictKexServerMarker
    extInfoEnabled := clientExt && serverExt
    clientExtInfo := clientExt
    serverExtInfo := serverExt }

/- A name that the reader takes as it was written. -/
def NameOk (name : Str) : Prop :=
  name≠[] ∧ name.length≤ maxNameLen ∧ ∀ b∈name, 0x21≤b ∧ b≤0x7e ∧ b≠NameList.comma

instance (name : Str) : Decidable (NameOk name) := inferInstanceAs (Decidable (_ ∧ _ ∧ _))

/- A list whose names can be told apart again on the wire. -/
def NamesOk (names : List Str) : Prop :=
  (∀ name∈names, NameOk name) ∧ (NameList.join names).length<2^32

instance (names : List Str) : Decidable (NamesOk names) := inferInstanceAs (Decidable (_ ∧ _))

variable {names : List Str}

theorem iter_join (h : ∀ name∈names, NameOk name) : NameList.iter (NameList.join names)=names := by
  have hcomma : ∀ name∈names, NameList.comma∉name :=
    fun name hn hc => ((h name hn).2.2 _ hc).2.2 rfl
  by_cases hnil : names=[]
  · subst hnil
    rfl
  · rw [NameList.iter,NameList.join,List.splitOn_intercalate _ hcomma hnil,List.filter_eq_self]
    intro name hn
    simpa using (h name hn).1

theorem checkNames_ok (h : ∀ name∈names, NameOk name) : checkNames names = .ok names := by
  induction names with
  | nil => rfl
  | cons name rest ih =>
    obtain ⟨-,hlen,hbytes⟩ := h name List.mem_cons_self
    have hany : (name.any fun b => !(0x21≤b && b≤0x7e))=false := by
      rw [List.any_eq_false]
      intro b hb
      obtain ⟨h1,h2,-⟩ := hbytes b hb
      simp [h1,h2]
    rw [checkNames,if_neg (by omega),hany,ih fun n hn => h n (List.mem_cons_of_mem _ hn)]
    rfl

theorem readNameList_writeNameList (h : NamesOk names) (r : Bytes) :
    readNameList (writeNameList names++r) = .ok (names,r) := by
  rw [readNameList,writeNameList,readString_writeString h.2,except_ok_bind]
  change (checkNames (NameList.iter (NameList.join names)) >>= _)=_
  rw [iter_join h.1,checkNames_ok h.1]
  rfl

/- An advert that reads back as it was written. -/
structure KexInit.WellFormed (k : KexInit) : Prop where
  cookie : k.cookie.length=16
  kex : NamesOk k.kex
  serverHostKey : NamesOk k.serverHostKey
  ciphersC2s : NamesOk k.ciphersC2s
  ciphersS2c : NamesOk k.ciphersS2c
  macsC2s : NamesOk k.macsC2s
  macsS2c : NamesOk k.macsS2c
  compC2s : NamesOk k.compC2s
  compS2c : NamesOk k.compS2c
  langC2s : NamesOk k.langC2s
  langS2c : NamesOk k.langS2c

theorem readNameList_then {α : Type} {r : Bytes} {f : List Str × Bytes → Result α} {y : Result α}
    (h : NamesOk names) (hf : f (names,r)=y) :
    (readNameList (writeNameList names++r) >>= f)=y := by
  rw [readNameList_writeNameList h]
  exact hf

/-- A well-formed advert survives its own encoding. -/
theorem KexInit.decode_encode {k : KexInit} (h : k.WellFormed) : decode k.encode = .ok k := by
  unfold decode encode
  simp only [List.append_assoc]
  rw [readU8_cons,except_ok_bind]
  dsimp only
  rw [if_neg (fun hn => hn rfl),take_append h.cookie,except_ok_bind]
  refine readNameList_then h.kex ?_
  refine readNameList_then h.serverHostKey ?_
  refine readNameList_then h.ciphersC2s (readNameList_then h.ciphersS2c ?_)
  refine readNameList_then h.macsC2s (readNameList_then h.macsS2c ?_)
  refine readNameList_then h.compC2s (readNameList_then h.compS2c ?_)
  refine readNameList_then h.langC2s (readNameList_then h.langS2c ?_)
  dsimp only
  rw [readBool_writeBool,except_ok_bind]
  dsimp only
  rw [readU32_be32_end]
  rfl

end PureSsh.Transport
