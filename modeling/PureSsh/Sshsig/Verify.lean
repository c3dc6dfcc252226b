import PureSsh.Sshsig.AllowedSigners

/-! `ssh-keygen -Y verify` and `-Y check-novalidate` (`bin/ssh-keygen.rs`). -/

namespace PureSsh.Sshsig
open Lib Reader Writer Cert PublicKeys

/-- What reading a path gives, nothing if it cannot be read. -/
abbrev File := Option Bytes

/- The arguments of the command and its standard input. -/
structure Request where
  ns : Option Text
  sigFile : Option File
  stdin : File
  revocation : Option File
  allowedSigners : Option File
  identity : Option Text

/- What ends the command before a verdict. -/
inductive Stop where
  | missing (what : String)
  | unreadable (what : String)
  | signature (e : Error)
  deriving DecidableEq, Repr

/- Why a signature is refused. -/
inductive Refusal where
  | failed (e : Error)
  | revoked
  | noAllowedSigner (identity ns : Text)
  deriving DecidableEq, Repr

inductive Verdict where
  | good (ns : Text) (identity : Option Text) (key : PublicKey)
  | bad (why : Option Refusal)
  deriving DecidableEq, Repr

def Verdict.exitCode : Verdict → Nat
  | .good _ _ _ => 0
  | .bad _ => 255

/- What the entry point of the program makes of the outcome. -/
def exitStatus : Except Stop Verdict → Nat
  | .ok v => v.exitCode
  | .error _ => 255

def require {α : Type} (v : Option α) (what : String) : Except Stop α :=
  match v with
  | some a => .ok a
  | none => .error (.missing what)

def readFile (file : File) (what : String) : Except Stop Bytes :=
  match file with
  | some data => .ok data
  | none => .error (.unreadable what)

/- `read_to_string` also fails on bytes that are not UTF-8. -/
def readToString (file : File) (what : String) : Except Stop Text :=
  match file.bind Text.ofUtf8 with
  | some text => .ok text
  | none => .error (.unreadable what)

def readSignature (file : File) : Except Stop Signature := do
  let text ← readToString file "Couldn't read signature file"
  match Signature.fromArmored text with
  | .ok sig => return sig
  | .error e => .error (.signature e)

def readAllowedSigners (file : File) (localOffset : Int) : Except Stop (List AllowedSigner) := do
  let text ← readToString file "open"
  return (AllowedSigner.parseFile text localOffset).1

section Revoked
variable (C : Crypto)

/- The key of a line of a revocation list: that of a certificate, or a plain one. -/
def listedKey (line : Text) : Option Bytes :=
  match CertBlob.parseOpensshLine line with
  | .ok c => some c.embeddedPubkeyBlob
  | .error _ => match PublicKey.parseAuthorizedKeysLine C.fromSec1 line with
    | .ok pk => some pk.wireBlob
    | .error _ => none

def isRemark (line : Text) : Bool := line.isEmpty || line.head? == some '#'

def listLines (data : Bytes) : List Text := (Text.ofUtf8Lossy data).lines.map Text.trim

/- The certificate of a signature and the key that signs. -/
def certOf (key : Bytes) : Option CertBlob := (CertBlob.parse key).toOption

def plainOf (key : Bytes) : Bytes := (certOf key).elim key (·.embeddedPubkeyBlob)

def krlRevokes (krl : Revocation.Krl) (key : Bytes) : Bool :=
  krl.isRevokedKey C.digests (plainOf key) ||
    (certOf key).any fun c =>
      krl.isRevokedCert c.signatureKeyBlob c.serial c.keyId ||
        krl.isRevokedKey C.digests c.signatureKeyBlob

def listRevokes (data key : Bytes) : Bool :=
  (listLines data).any fun line =>
    !isRemark line && (listedKey C line).any fun listed =>
      listed==plainOf key || (certOf key).any fun c => listed==c.signatureKeyBlob

def revoked (file : File) (key : Bytes) : Except Stop Bool := do
  let data ← readFile file "revocation file"
  match Revocation.Krl.parse data with
  | .ok krl => return krlRevokes C krl key
  | .error _ => return listRevokes C data key

end Revoked

/- The check under the key that the signature carries, and whether that key is revoked. -/
def checkKey (C : Crypto) (r : Request) (sig : Signature) (ns : Text) (digest : Bytes) :
    Except Stop (Except Refusal Unit) :=
  match sig.verify C ns digest with
  | .error e => .ok (.error (.failed e))
  | .ok () => match r.revocation with
    | none => .ok (.ok ())
    | some file => do
      let isRevoked ← revoked C file sig.publicKey
      return if isRevoked then .error .revoked else .ok ()

/- The search for a line of the allowed signers. -/
def checkSigner (C : Crypto) (localOffset now : Int) (r : Request) (sig : Signature) (ns : Text) :
    Except Stop (Except Refusal Text) := do
  let file ← require r.allowedSigners "allowed signers file (-f)"
  let allowed ← readAllowedSigners file localOffset
  let id ← require r.identity "signer identity (-I)"
  return if allowed.any fun s => s.accepts C sig.publicKey id now && s.allowsNamespace ns then
      .ok id
    else .error (.noAllowedSigner id ns)

/- The identity is looked up only for a good signature, and only by `-Y verify`. -/
def identityOf (C : Crypto) (localOffset now : Int) (validate : Bool) (r : Request)
    (sig : Signature) (ns : Text) : Except Refusal Unit → Except Stop (Except Refusal (Option Text))
  | .error e => .ok (.error e)
  | .ok () =>
    if validate then do
      let found ← checkSigner C localOffset now r sig ns
      return some <$> found
    else .ok (.ok none)

def verdict (ns : Text) : Except Refusal (Option Text) → Result PublicKey → Verdict
  | .ok identity, .ok pk => .good ns identity pk
  | .ok _, .error _ => .bad none
  | .error e, _ => .bad (some e)

def verify (C : Crypto) (localOffset now : Int) (validate : Bool) (r : Request) :
    Except Stop Verdict := do
  let ns ← require r.ns "namespace (-n)"
  let sigFile ← require r.sigFile "signature file (-s)"
  let sig ← readSignature sigFile
  let message ← readFile r.stdin "read stdin"
  let result ← checkKey C r sig ns (C.digest sig.hash message)
  let result ← identityOf C localOffset now validate r sig ns result
  return verdict ns result (PublicKey.parseWireBlob C.fromSec1 (plainOf sig.publicKey))

end PureSsh.Sshsig
