import PureSsh.Cert
import PureSsh.Lib.Numeral

/-! Lines of an `authorized_keys` file and their options (`key/mod.rs`), and what the daemon makes of
them (`bin/sshd.rs`). -/

namespace PureSsh.AuthorizedKeys
open Lib

structure AuthorizedKeyOptions where
  certAuthority : Bool := false
  principals : List Text := []
  command : Option Text := none
  «from» : Option Text := none
  environment : List Text := []
  permitOpen : List Text := []
  permitListen : List Text := []
  expiryTime : Option Text := none
  restrict : Bool := false
  pty : Option Bool := none
  portForwarding : Option Bool := none
  agentForwarding : Option Bool := none
  x11Forwarding : Option Bool := none
  userRc : Option Bool := none
  tunnel : Option Text := none
  noTouchRequired : Bool := false
  verifyRequired : Bool := false
  deriving DecidableEq, Repr

/- What `x` and `no-x` speak of. -/
inductive Permission where
  | pty | portForwarding | agentForwarding | x11Forwarding | userRc
  deriving DecidableEq, Repr

def Permission.ofName (what : Text) : Option Permission :=
  if what = "pty".toList then some .pty
  else if what = "port-forwarding".toList then some .portForwarding
  else if what = "agent-forwarding".toList then some .agentForwarding
  else if what = "x11-forwarding".toList then some .x11Forwarding
  else if what = "user-rc".toList then some .userRc
  else none

namespace AuthorizedKeyOptions
variable (out : AuthorizedKeyOptions)

def setting : Permission → Option Bool
  | .pty => out.pty
  | .portForwarding => out.portForwarding
  | .agentForwarding => out.agentForwarding
  | .x11Forwarding => out.x11Forwarding
  | .userRc => out.userRc

def set (on : Bool) : Permission → AuthorizedKeyOptions
  | .pty => { out with pty := some on }
  | .portForwarding => { out with portForwarding := some on }
  | .agentForwarding => { out with agentForwarding := some on }
  | .x11Forwarding => { out with x11Forwarding := some on }
  | .userRc => { out with userRc := some on }

/- `allows_pty`, `allows_port_forwarding`, `allows_agent_forwarding`, `allows_x11_forwarding` and
`allows_user_rc`. -/
def allows (p : Permission) : Bool := (out.setting p).getD (!out.restrict)

end AuthorizedKeyOptions

/- Where a scanner of the option field is. -/
structure Quoting where
  inQuotes : Bool
  escaped : Bool
  deriving DecidableEq, Repr

def Quoting.start : Quoting := ⟨false,false⟩

def Quoting.step (q : Quoting) (c : Char) : Quoting :=
  if c = '\\' ∧ q.inQuotes=true ∧ q.escaped=false then { q with escaped := true }
  else if c = '"' ∧ q.escaped=false then ⟨!q.inQuotes,false⟩
  else { q with escaped := false }

/- `dequote` without the quotes: a backslash goes if a quote follows. -/
def unescape : Text → Text
  | '\\' :: '"' :: rest => '"' :: unescape rest
  | c::rest => c::unescape rest
  | [] => []

def dequote (v : Text) : Result Text :=
  match v with
  | '"' :: inner =>
    if inner.getLast?=some '"' then .ok (unescape inner.dropLast)
    else .error (.format "authorized_keys: option value must be quoted")
  | _ => .error (.format "authorized_keys: option value must be quoted")

def splitLoop (out : List Text) (cur : Text) (q : Quoting) : Text → Result (List Text)
  | [] =>
    if q.inQuotes then .error (.format "authorized_keys: unterminated quote in options")
    else .ok (out++[cur])
  | c::rest =>
    if c = ',' ∧ q.inQuotes=false then splitLoop (out++[cur]) [] (q.step c) rest
    else splitLoop out (cur++[c]) (q.step c) rest

def splitOptions (list : Text) : Result (List Text) := splitLoop [] [] .start list

/- The line up to `options_field_len`, and what follows. -/
def optionsField (q : Quoting) : Text → Text × Text
  | [] => ([],[])
  | c::rest =>
    if Text.isWhitespace c ∧ q.inQuotes=false then ([],c::rest)
    else
      let r := optionsField (q.step c) rest
      (c::r.1,r.2)

section Options

def flag (value : Option Text) : Result Unit :=
  if value.isSome then .error (.format "authorized_keys: option takes no value") else .ok ()

def need (value : Option Text) : Result Text :=
  match value with
  | some v => .ok v
  | none => .error (.format "authorized_keys: option needs a value")

def splitPrincipals (v : Text) : List Text :=
  ((v.splitOn ',').map Text.trim).filter (· ≠ [])

def tunnelOk (v : Text) : Bool :=
  Text.sameAsciiCase v "any".toList ||
    (Numeral.parse 10 (2^32) v.bytes).any (· < 0x7fffffff)

def unknownOption : Error :=
  .format "authorized_keys: unknown option — refusing rather than silently dropping"

/- The options without a value other than `cert-authority` and `restrict`. -/
def applySwitch (out : AuthorizedKeyOptions) (name : Text) : Result AuthorizedKeyOptions :=
  let on := !("no-".toList.isPrefixOf name)
  let what := if on then name else name.drop 3
  match Permission.ofName what with
  | some p => .ok (out.set on p)
  | none =>
    if what = "touch-required".toList ∧ on=false then .ok { out with noTouchRequired := true }
    else if what = "verify-required".toList ∧ on=true then .ok { out with verifyRequired := true }
    else .error unknownOption

def restrictName : Text := "restrict".toList

def principalsName : Text := "principals".toList

/- One option, its name in lower case. -/
def applyOption (out : AuthorizedKeyOptions) (name : Text) (value : Option Text) :
    Result AuthorizedKeyOptions := do
  if name = "cert-authority".toList then
    flag value
    return { out with certAuthority := true }
  else if name=principalsName then
    return { out with principals := splitPrincipals (← need value) }
  else if name = "command".toList then return { out with command := some (← need value) }
  else if name = "from".toList then return { out with «from» := some (← need value) }
  else if name = "environment".toList then
    let v ← need value
    if !v.contains '=' then .error (.format "authorized_keys: bad environment")
    else return { out with environment := out.environment++[v] }
  else if name = "permitopen".toList then
    return { out with permitOpen := out.permitOpen++[← need value] }
  else if name = "permitlisten".toList then
    return { out with permitListen := out.permitListen++[← need value] }
  else if name = "expiry-time".toList then return { out with expiryTime := some (← need value) }
  else if name = "tunnel".toList then
    let v ← need value
    if !tunnelOk v then .error (.format "authorized_keys: invalid tun device")
    else return { out with tunnel := some v }
  else if name=restrictName then
    flag value
    return { out with restrict := true }
  else
    flag value
    applySwitch out name

/- The name and value that a piece of the list holds; a blank piece is passed over. -/
def readPiece (piece : Text) : Result (Option (Text × Option Text)) :=
  let opt := piece.trim
  if opt=[] then .ok none
  else match Text.splitFirst '=' opt with
    | some (n,v) => do return some (Text.lower n,some (← dequote v.trim))
    | none => .ok (some (Text.lower opt,none))

/- One round of the loop of `AuthorizedKeyOptions::parse`. -/
def parseOption (out : AuthorizedKeyOptions) (piece : Text) : Result AuthorizedKeyOptions := do
  match ← readPiece piece with
  | some o => applyOption out o.1 o.2
  | none => return out

def parseOptions (list : Text) : Result AuthorizedKeyOptions := do
  (← splitOptions list).foldlM parseOption {}

end Options

def knownAlgorithms : List Text :=
  ["ssh-ed25519","ecdsa-sha2-nistp256","ecdsa-sha2-nistp384","ecdsa-sha2-nistp521","ssh-rsa",
    "rsa-sha2-256","rsa-sha2-512","ssh-mldsa44-ed25519","ssh-mldsa44-ed25519@openssh.com",
    "sk-ecdsa-sha2-nistp256@openssh.com","sk-ssh-ed25519@openssh.com"].map String.toList

def isKnownAlgorithmName (s : Text) : Bool := knownAlgorithms.contains s

def isKeyType (s : Text) : Bool := isKnownAlgorithmName s || Cert.isCertName s

def trimStart (t : Text) : Text := t.dropWhile Text.isWhitespace

def token (t : Text) : Text := t.takeWhile (!Text.isWhitespace ·)

def hasWhitespace (t : Text) : Bool := t.any Text.isWhitespace

section Line
variable {α : Type} (parse : Text → Result α) (default : α)

/- The algorithm, what follows it, and what `parse` makes of an option list before it. -/
def parseHead (line : Text) : Result (Text × Text × α) :=
  if isKeyType (token line) then
    .ok (token line,trimStart (line.drop (token line).length),default)
  else do
    let field := optionsField .start line
    let options ← parse field.1
    let rest := trimStart field.2
    if !hasWhitespace rest then
      .error (.format "authorized_keys: missing key blob after options")
    else return (token rest,trimStart (rest.drop (token rest).length),options)

def isLineEnd (c : Char) : Bool := c == '\n' || c == '\r'

def trimLine (s : Text) : Text := Text.trim (s.reverse.dropWhile isLineEnd).reverse

def parseLineWith (s : Text) : Result (Bytes × α) :=
  let line := trimLine s
  if line=[] ∨ line.head?=some '#' then
    .error (.format "authorized_keys: empty or comment line")
  else if !hasWhitespace line then .error (.format "authorized_keys: missing key blob")
  else do
    let (algo,afterAlgo,options) ← parseHead parse default line
    if !isKeyType algo then .error (.format "authorized_keys: unknown key/cert algorithm tag")
    else match afterAlgo.words with
      | [] => .error (.format "authorized_keys: missing key blob")
      | b64::_ => do
        let blob ← Base64.decode b64.bytes
        return (blob,options)

end Line

/- `PublicKey::parse_authorized_keys_line_with_options` -/
def parseAuthorizedKeysLineWithOptions : Text → Result (Bytes × AuthorizedKeyOptions) :=
  parseLineWith parseOptions {}

/- What the daemon keeps of a file. -/
structure KeySet where
  blobs : List Bytes := []
  options : List AuthorizedKeyOptions := []
  cas : List (Bytes × Option (List Text)) := []
  caOptions : List AuthorizedKeyOptions := []

/- The principals of a `cert-authority` line. The line itself tells an empty list from none. -/
def caPrincipals (trimmed : Text) (opts : AuthorizedKeyOptions) : Option (List Text) :=
  if !opts.principals.isEmpty || decide ("principals=".toList <:+: trimmed) then
    some opts.principals
  else none

def KeySet.addLine (out : KeySet) (line : Text) : KeySet :=
  let trimmed := line.trim
  if trimmed=[] ∨ trimmed.head?=some '#' then out
  else match parseAuthorizedKeysLineWithOptions trimmed with
    | .ok (blob,opts) =>
      if opts.certAuthority then
        { out with
          cas := out.cas++[(blob,caPrincipals trimmed opts)]
          caOptions := out.caOptions++[opts] }
      else { out with blobs := out.blobs++[blob], options := out.options++[opts] }
    | .error _ => out

/- `parse_authorized_keys`, given the lines of the file. -/
def parseAuthorizedKeys (lines : List Text) : KeySet := lines.foldl KeySet.addLine {}

def principalsMatchOption (list certPrincipals : List Text) : Bool :=
  certPrincipals.any fun p =>
    Config.hostMatches (Config.HostPattern.parseAll (list.map Text.bytes)) p.bytes

/- Whether a `cert-authority` line lets a user in, by the principals of the certificate. -/
def lineAdmits (principals : Option (List Text)) (certPrincipals : List Text) (user : Text) : Bool :=
  match principals with
  | some list => principalsMatchOption list certPrincipals
  | none => certPrincipals.any (· == user)

end PureSsh.AuthorizedKeys
