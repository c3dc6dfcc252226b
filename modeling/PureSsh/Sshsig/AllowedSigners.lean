import PureSsh.Sshsig.Format

/-! The file of allowed signers (`sshsig.rs`). -/

namespace PureSsh.Sshsig
open Lib Reader Cert

/- The digits `lo..hi` as a number, zero where the text is too short. -/
def digitsAt (digits : Text) (lo hi : Nat) : Int :=
  Nat.ofDigitChars 10 ((digits.take hi).drop lo) 0

/- Days since the epoch. -/
def daysFromCivil (y mo d : Int) : Int :=
  let yy := if mo≤2 then y-1 else y
  let era := yy/400
  let yoe := yy-era*400
  let mp := (mo+9)%12
  let doy := (153*mp+2)/5+d-1
  let doe := yoe*365+yoe/4-yoe/100+doy
  era*146097+doe-719468

/- `YYYYMMDD[HHMM[SS]][Z]` -/
def parseTime (s : Text) (localOffset : Int) : Option Int :=
  let utc := s.getLast?=some 'Z' ∨ s.getLast?=some 'z'
  let digits := if utc then s.dropLast else s
  if !digits.all Char.isDigit || !(digits.length==8 || digits.length==12 || digits.length==14)
  then none
  else
    let mo := digitsAt digits 4 6
    let d := digitsAt digits 6 8
    let h := digitsAt digits 8 10
    let mi := digitsAt digits 10 12
    let sec := digitsAt digits 12 14
    if mo<1 ∨ 12< mo ∨ d<1 ∨ 31<d ∨ 23<h ∨ 59< mi ∨ 60<sec then none
    else
      let t := daysFromCivil (digitsAt digits 0 4) mo d*86400+h*3600+mi*60+sec
      some (if utc then t else t-localOffset)

structure AllowedSigner where
  principals : Text
  certAuthority : Bool
  namespaces : Option Text
  validAfter : Option Int
  validBefore : Option Int
  publicKey : Bytes
  deriving DecidableEq, Repr

/- The loop of `next_token`: white space in quotes does not end a token. -/
def tokenFrom (quoted : Bool) : Text → Text × Text
  | [] => ([],[])
  | c::t =>
    if c ≠ '"' ∧ Text.isWhitespace c ∧ !quoted then ([],c::t)
    else
      let rest := tokenFrom (if c = '"' then !quoted else quoted) t
      (c::rest.1,rest.2)

def nextToken (s : Text) : Option (Text × Text) :=
  match AuthorizedKeys.trimStart s with
  | [] => none
  | c::t => some (tokenFrom false (c::t))

def unquote (s : Text) : Text :=
  match s with
  | '"' :: rest => if rest.getLast?=some '"' then rest.dropLast else s
  | _ => s

def patternListMatches (list name : Text) : Bool :=
  Config.hostMatches ((list.splitOn ',').map fun p => Config.HostPattern.parse (Text.bytes (Text.trim p)))
    name.bytes

/- The options of a list, split at the commas outside quotes; `cur` is what was read of one. -/
def optionsFrom (cur : Text) (quoted : Bool) : Text → List Text
  | [] => if cur=[] then [] else [cur.reverse]
  | c::t =>
    if c = '"' then optionsFrom (c::cur) (!quoted) t
    else if c = ',' ∧ !quoted then cur.reverse::optionsFrom [] quoted t
    else optionsFrom (c::cur) quoted t

def isKeyType (t : Text) : Bool :=
  "ssh-".toList.isPrefixOf t || "ecdsa-".toList.isPrefixOf t || "sk-".toList.isPrefixOf t

/- `name=value` or a name alone. -/
def optionParts (opt : Text) : Text × Option Text :=
  match opt.splitFirst '=' with
  | some (n,v) => (n,some (unquote v))
  | none => (opt,none)

namespace AllowedSigner

def applyOption (localOffset : Int) (signer : AllowedSigner) (opt : Text) : Result AllowedSigner :=
  let (name,value) := optionParts opt
  let name := Text.lower name
  match value with
  | none =>
    if name = "cert-authority".toList then .ok { signer with certAuthority := true }
    else .error (.format "allowed_signers: unknown option")
  | some v =>
    if name = "namespaces".toList then .ok { signer with namespaces := some v }
    else if name = "valid-after".toList then match parseTime v localOffset with
      | some t => .ok { signer with validAfter := some t }
      | none => .error (.format "allowed_signers: bad valid-after")
    else if name = "valid-before".toList then match parseTime v localOffset with
      | some t => .ok { signer with validBefore := some t }
      | none => .error (.format "allowed_signers: bad valid-before")
    else .error (.format "allowed_signers: unknown option")

def parseOptions (localOffset : Int) (signer : AllowedSigner) (opts : Text) :
    Result AllowedSigner :=
  (optionsFrom [] false opts).foldlM (applyOption localOffset) signer

/- The key type, what follows it, and the signer with the options before it. -/
def parseHead (localOffset : Int) (signer : AllowedSigner) (rest : Text) :
    Result (Text × Text × AllowedSigner) :=
  match nextToken rest with
  | none => .error (.format "allowed_signers: missing key")
  | some (tok,rest) =>
    if isKeyType tok then .ok (tok,rest,signer)
    else do
      let signer ← parseOptions localOffset signer tok
      match nextToken rest with
      | none => .error (.format "allowed_signers: missing key")
      | some (tok,rest) => return (tok,rest,signer)

def parseKey (tok rest : Text) (signer : AllowedSigner) : Result AllowedSigner :=
  match nextToken rest with
  | none => .error (.format "allowed_signers: missing key blob")
  | some (b64,_comment) => do
    let blob ← Base64.decode b64.bytes
    let (type,_) ← readString blob
    if type≠tok.bytes then .error (.format "allowed_signers: key type mismatch")
    else return { signer with publicKey := blob }

/- `none` for a blank line or a comment. -/
def parseLine (line : Text) (localOffset : Int) : Result (Option AllowedSigner) :=
  let line := line.trim
  if line=[] ∨ line.head?=some '#' then .ok none
  else match nextToken line with
    | none => .error (.format "allowed_signers")
    | some (principals,rest) => do
      let (tok,rest,signer) ← parseHead localOffset
        { principals := unquote principals, certAuthority := false, namespaces := none
          validAfter := none, validBefore := none, publicKey := [] } rest
      let signer ← parseKey tok rest signer
      return some signer

/- A malformed line is skipped and reported with its number. -/
def parseFile (text : Text) (localOffset : Int) : List AllowedSigner × List (Nat × Error) :=
  let parsed := text.lines.map (parseLine · localOffset)
  (parsed.filterMap fun
    | .ok s => s
    | .error _ => none,
   parsed.zipIdx.filterMap fun
    | (.error e,i) => some (i+1,e)
    | (.ok _,_) => none)

variable (s : AllowedSigner)

def matchesPrincipal (principal : Text) : Bool := patternListMatches s.principals principal

def allowsNamespace (ns : Text) : Bool := s.namespaces.all (patternListMatches · ns)

def validAt (now : Int) : Bool := s.validAfter.all (· ≤ now) && s.validBefore.all (now ≤ ·)

def isKey (publicKey : Bytes) (now : Int) : Bool :=
  !s.certAuthority && s.publicKey==publicKey && s.validAt now

/- `CA_SIGNATURE_DEFAULTS` -/
def caSignatureDefaults : List Str :=
  ["ssh-ed25519","ecdsa-sha2-nistp256","ecdsa-sha2-nistp384","ecdsa-sha2-nistp521",
    "sk-ssh-ed25519@openssh.com","sk-ecdsa-sha2-nistp256@openssh.com",
    "webauthn-sk-ecdsa-sha2-nistp256@openssh.com","rsa-sha2-512","rsa-sha2-256"].map ascii

/- The checks of a certificate against the authority of the line. -/
def certifies (C : Crypto) (cert : CertBlob) (now : Int) : Bool :=
  cert.signatureKeyBlob==s.publicKey && (cert.checkType .user).isOk && decide (0≤now) &&
    (cert.checkValidity now.toNat).isOk && (cert.verifyCaSignature C.verify caSignatureDefaults).isOk

def certifiedPrincipals (C : Crypto) (publicKey : Bytes) (now : Int) : Option (List Text) :=
  if !s.certAuthority || !s.validAt now then none
  else match CertBlob.parse publicKey with
    | .error _ => none
    | .ok cert =>
      if !s.certifies C cert now then none
      else
        let principals := cert.validPrincipals.filter (patternListMatches s.principals ·)
        if principals.isEmpty then none else some principals

def accepts (C : Crypto) (publicKey : Bytes) (principal : Text) (now : Int) : Bool :=
  s.matchesPrincipal principal &&
    (s.isKey publicKey now || (s.certifiedPrincipals C publicKey now).any (·.any (· == principal)))

end AllowedSigner
end PureSsh.Sshsig
