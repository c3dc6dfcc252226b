import PureSsh.Key.Base64

/-! Lines and host patterns of a `known_hosts` file (`known_hosts/format.rs`,
`config/host_port.rs`). -/

namespace PureSsh.KnownHosts
open Lib Text

inductive Marker where
  | certAuthority | revoked
  deriving DecidableEq, Repr

def Marker.asStr : Marker → Text
  | .certAuthority => "@cert-authority".toList
  | .revoked => "@revoked".toList

inductive HostSpec where
  | patterns (pats : List Text)
  | hashed (token : Text)
  deriving DecidableEq, Repr

def HostSpec.toField : HostSpec → Text
  | .patterns pats => join [','] pats
  | .hashed token => token

structure Entry where
  marker : Option Marker
  hostSpec : HostSpec
  keyType : Text
  keyBlob : Bytes
  comment : Text
  deriving DecidableEq, Repr

inductive ParsedLine where
  | entry (e : Entry)
  | verbatim (raw : Text)
  deriving DecidableEq, Repr

/- `host.split(',')`, unless the field is a hashed token. -/
def parseHostField (field : Text) : HostSpec :=
  if "|1|".toList <+: field then .hashed field else .patterns (field.splitOn ',')

/- An RSA key under the name of a signature algorithm is an `ssh-rsa` key. -/
def parseKeyType (t : Text) : Text :=
  if t = "rsa-sha2-256".toList ∨ t = "rsa-sha2-512".toList then "ssh-rsa".toList else t

def parseFields (marker : Option Marker) : List Text → Option Entry
  | host::keyType::key::comment =>
    match Base64.decode key.bytes with
    | .ok keyBlob => some { marker, hostSpec := parseHostField host
                            keyType := parseKeyType keyType, keyBlob
                            comment := join [' '] comment }
    | .error _ => none
  | _ => none

/-- Every line parses: one that is not an entry is kept as it is. -/
def parseLine (raw : Text) : ParsedLine :=
  let trimmed := raw.trim
  if trimmed=[] ∨ trimmed.head?=some '#' then .verbatim raw
  else
    let fields := match trimmed.words with
      | [] => none
      | first::rest =>
        if first=Marker.certAuthority.asStr then parseFields (some .certAuthority) rest
        else if first=Marker.revoked.asStr then parseFields (some .revoked) rest
        else parseFields none (first::rest)
    match fields with
    | some e => .entry e
    | none => .verbatim raw

def formatEntry (e : Entry) : Text :=
  (match e.marker with
    | some m => m.asStr++[' ']
    | none => []) ++
  e.hostSpec.toField++[' ']++e.keyType++[' ']++Base64.encode e.keyBlob ++
  if e.comment=[] then [] else ' ' :: e.comment

def formatHostPattern (host : Text) (port : UInt16) : Text :=
  if port=22 then host else '[' :: host ++ ']' :: ':' :: decimal port

def maxGlobPatternLen : Nat := 1024
def maxGlobStars : Nat := 32

/- `*` is tried against every part of the text, from the empty one on. -/
def globInner : Text → Text → Bool
  | [], t => t.isEmpty
  | c::p, t =>
    if c = '*' then t.tails.any fun rest => globInner p rest
    else match t with
      | [] => false
      | x::t => (c == '?' || c.toLower==x.toLower) && globInner p t

theorem globInner_star (p t : Text) :
    globInner ('*' :: p) t=t.tails.any fun rest => globInner p rest := by
  cases t <;> simp [globInner]

theorem globInner_cons {c : Char} (h : c ≠ '*') (p : Text) (x : Char) (t : Text) :
    globInner (c::p) (x::t)=((c == '?' || c.toLower==x.toLower) && globInner p t) := by
  simp [globInner,h]

theorem globInner_cons_nil {c : Char} (h : c ≠ '*') (p : Text) : globInner (c::p) []=false := by
  simp [globInner,h]

def globMatchAsciiCi (pat s : Text) : Bool :=
  if pat.byteLen>maxGlobPatternLen then false
  else if pat.count '*'>maxGlobStars then false
  else globInner pat s

/- Anything but a colon after the closing bracket stands for the default port. -/
def patternMatchInner (pattern host : Text) (port : UInt16) : Bool :=
  match pattern with
  | '[' :: rest =>
    match splitLast ']' rest with
    | some (hostPart,':' :: ps) =>
      match parseU16 ps with
      | some p => globMatchAsciiCi hostPart host && p==port
      | none => false
    | some (hostPart,_) => globMatchAsciiCi hostPart host && port==22
    | none => false
  | _ => port==22 && globMatchAsciiCi pattern host

/-- The glob and the port of a bracketed pattern, after its opening bracket. -/
def bracketTarget (rest : Text) : Option (Text × UInt16) :=
  match splitLast ']' rest with
  | some (part,':' :: ps) => (parseU16 ps).map (part,·)
  | some (part,_) => some (part,22)
  | none => none

theorem patternMatchInner_bracket {rest host : Text} {port : UInt16} :
    patternMatchInner ('[' :: rest) host port=match bracketTarget rest with
      | some (g,q) => globMatchAsciiCi g host && q==port
      | none => false := by
  simp only [patternMatchInner,bracketTarget]
  split
  · next ps _ => cases parseU16 ps <;> rfl
  · dsimp only
    rw [BEq.comm (a := port)]
  · rfl

theorem patternMatchInner_plain {pattern host : Text} {port : UInt16} (h : pattern.head?≠some '[') :
    patternMatchInner pattern host port=(port==22 && globMatchAsciiCi pattern host) := by
  rw [patternMatchInner]
  rintro rest rfl
  exact h rfl

theorem splitLast_of_bracketTarget {rest g : Text} {q : UInt16}
    (h : bracketTarget rest=some (g,q)) : ∃ after, splitLast ']' rest=some (g,after) := by
  rw [bracketTarget] at h
  split at h
  · next hs =>
    obtain ⟨p,-,hp⟩ := Option.map_eq_some_iff.1 h
    cases hp
    exact ⟨_,hs⟩
  · next hs =>
    cases h
    exact ⟨_,hs⟩
  · cases h

theorem bracketTarget_length {rest g : Text} {q : UInt16} (h : bracketTarget rest=some (g,q)) :
    g.length<rest.length := by
  obtain ⟨after,hs⟩ := splitLast_of_bracketTarget h
  rw [(splitLast_eq_some hs).1]
  simp

/- A negated pattern that matches rejects the whole list; `anyPos` is whether another one matched
   before. -/
def patternsMatchFrom (host : Text) (port : UInt16) (anyPos : Bool) : List Text → Bool
  | [] => anyPos
  | p::ps =>
    if p.head?=some '!' then
      if patternMatchInner p.tail host port then false else patternsMatchFrom host port anyPos ps
    else patternsMatchFrom host port (anyPos || patternMatchInner p host port) ps

def patternsMatch (patterns : List Text) (host : Text) (port : UInt16) : Bool :=
  patternsMatchFrom host port false patterns

/- The known_hosts grammar: the host ends at the first closing bracket, and only `:port` may
   follow. -/
def parseHostPortPattern (s : Text) (defaultPort : UInt16) : Option (Text × UInt16) :=
  match s with
  | '[' :: rest =>
    match splitFirst ']' rest with
    | some (host,[]) => some (host,defaultPort)
    | some (host,':' :: port) => (parseU16 port).map (host,·)
    | some (_,_) => none
    | none => none
  | _ => some (s,defaultPort)

end PureSsh.KnownHosts
