import PureSsh.Lib.Numeral
import PureSsh.Lib.Proc
import PureSsh.Lib.Program

/-! The records of SCP: their text, and how they are read and acknowledged. -/

namespace PureSsh.Scp

open Lib

inductive IoErrorKind
  | notFound
  | permissionDenied
  | alreadyExists
  | notADirectory
  | isADirectory
  | filesystemLoop
  | unexpectedEof
  | other
  deriving DecidableEq, Repr

structure IoError where
  kind : IoErrorKind
  text : Bytes
  deriving DecidableEq, Repr

inductive ScpError
  | io (e : IoError)
  | badHeader (msg : Bytes)
  | remote (msg : Bytes)
  | warning (msg : Bytes)
  | badName (msg : Bytes)
  | pathEscape
  | unexpected (msg : Bytes)
  deriving DecidableEq, Repr

def ScpError.toText : ScpError → Bytes
  | .io e => ascii "scp: io: " ++ e.text
  | .badHeader m => ascii "scp: bad header: " ++ m
  | .remote m => ascii "scp: remote error: " ++ m
  | .warning m => ascii "scp: remote warning: " ++ m
  | .badName m => ascii "scp: bad name: " ++ m
  | .pathEscape => ascii "scp: path escapes base directory"
  | .unexpected m => ascii "scp: unexpected: " ++ m

/- The programs of both sides, over a state of their own. -/
abbrev ScpProg (σ α : Type) := Prog UInt8 IoError ScpError σ α

inductive Header
  | file (mode size : Nat) (name : Bytes)
  | dir (mode : Nat) (name : Bytes)
  | endDir
  | times (mtime atime : Int)
  deriving DecidableEq, Repr

def isControl (b : UInt8) : Bool := b<0x20 || b==0x7f

def newline : UInt8 := 10
def space : UInt8 := 32
def dash : UInt8 := 45
def dot : UInt8 := 46
def slash : UInt8 := 47

def validateName (name : Bytes) : Except ScpError Unit :=
  if name=[] then .error (.badName (ascii "empty"))
  else if name.any isControl then .error (.badName (ascii "contains control character"))
  else if name.head?=some dash then .error (.badName (ascii "starts with '-'"))
  else if name=[dot] ∨ name=[dot,dot] ∨ slash∈name then
    .error (.badName (ascii "path component"))
  else .ok ()

/- `{:04o}` of the permission bits. -/
def octalMode (mode : Nat) : Bytes :=
  let digits := Numeral.print 8 (mode%0o10000)
  List.replicate (4-digits.length) (Numeral.digit 0)++digits

def headerLine : Header → Bytes
  | .file mode size name =>
    67::octalMode mode++space::Numeral.print 10 size++space::name++[newline]
  | .dir mode name => 68::octalMode mode++space::48::space::name++[newline]
  | .endDir => [69,newline]
  | .times mtime atime =>
    84::Numeral.printInt mtime++space::48::space::Numeral.printInt atime++[space,48,newline]

section Programs

variable {σ α : Type}

def send (bs : Bytes) : ScpProg σ Unit :=
  .write bs fun
    | .ok () => .ret ()
    | .error e => .fail (.io e)

def writeHeader (h : Header) : ScpProg σ Unit := do
  match h with
  | .file _ _ name | .dir _ name => Prog.lift (validateName name)
  | _ => pure ()
  send (headerLine h)

def maxLine : Nat := 4096

def endLine (out : Bytes) : ScpProg σ Bytes :=
  if validUtf8 out then .ret out else .fail (.badHeader (ascii "non-UTF-8 line"))

/- The loop of `read_line`; `room` is what the line may still grow. -/
def readLineLoop : Nat → Bytes → ScpProg σ Bytes
  | room, out => .read fun
    | .ok none => .fail (.badHeader (ascii "EOF mid-line"))
    | .error e => .fail (.io e)
    | .ok (some b) =>
      if b=newline then endLine out
      else match room with
        | 0 => .fail (.badHeader (ascii "line too long"))
        | room+1 => readLineLoop room (out++[b])

def readLine : ScpProg σ Bytes := readLineLoop maxLine []

/- `splitn`: the last piece takes the rest. -/
def splitn (sep : UInt8) : Nat → Bytes → List Bytes
  | 0, _ => []
  | 1, s => [s]
  | n+2, s =>
    match s.dropWhile (· ≠ sep) with
    | [] => [s]
    | _::rest => s.takeWhile (· ≠ sep)::splitn sep (n+1) rest

def parseMode (s : Bytes) : Except ScpError Nat :=
  match Numeral.parse 8 (2^32) s with
  | some mode => .ok mode
  | none => .error (.badHeader (ascii "bad mode"))

def parseSize (s : Bytes) : Except ScpError Nat :=
  match Numeral.parse 10 (2^64) s with
  | some size => .ok size
  | none => .error (.badHeader (ascii "bad size"))

def parseEntry (rest : Bytes) : Except ScpError (Nat × Nat × Bytes) :=
  match splitn space 3 rest with
  | [] => .error (.badHeader (ascii "missing mode"))
  | [_] => .error (.badHeader (ascii "missing size"))
  | [_,_] => .error (.badHeader (ascii "missing name"))
  | modeS::sizeS::name::_ => do
    let mode ← parseMode modeS
    let size ← parseSize sizeS
    validateName name
    pure (mode,size,name)

def parseTime (msg s : Bytes) : Except ScpError Int :=
  match Numeral.parseInt (2^63) s with
  | some t => .ok t
  | none => .error (.badHeader msg)

def parseTimes (rest : Bytes) : Except ScpError Header :=
  match rest.splitOn space with
  | [] => .error (.badHeader (ascii "T missing mtime"))
  | [_] => .error (.badHeader (ascii "T missing zero"))
  | [_,_] => .error (.badHeader (ascii "T missing atime"))
  | [_,_,_] => .error (.badHeader (ascii "T missing trailing zero"))
  | [mtimeS,zero1,atimeS,zero2] =>
    if zero1≠[48] ∨ zero2≠[48] then .error (.badHeader (ascii "T non-zero microseconds"))
    else do
      let mtime ← parseTime (ascii "T bad mtime") mtimeS
      let atime ← parseTime (ascii "T bad atime") atimeS
      pure (.times mtime atime)
  | _ => .error (.badHeader (ascii "T trailing junk"))

/- The letters of the records. -/
inductive RecordKind
  | c | d | e | t
  deriving DecidableEq

def RecordKind.ofByte (b : UInt8) : Option RecordKind :=
  if b=67 then some .c
  else if b=68 then some .d
  else if b=69 then some .e
  else if b=84 then some .t
  else none

def parseHeader : RecordKind → Bytes → Except ScpError Header
  | .e, rest =>
    if rest=[] then .ok .endDir else .error (.badHeader (ascii "E has trailing data"))
  | .c, rest => do
    let (mode,size,name) ← parseEntry rest
    pure (.file mode size name)
  | .d, rest => do
    let (mode,size,name) ← parseEntry rest
    if size≠0 then .error (.badHeader (ascii "D header with non-zero size"))
    else pure (.dir mode name)
  | .t, rest => parseTimes rest

def readHeader : ScpProg σ (Option Header) :=
  .read fun
    | .ok none => .ret none
    | .error e => if e.kind = .unexpectedEof then .ret none else .fail (.io e)
    | .ok (some b) =>
      if b=1 ∨ b=2 then do
        let msg ← readLine
        if b=2 then .fail (.remote msg) else .fail (.warning msg)
      else match RecordKind.ofByte b with
        | none => .fail (.badHeader (ascii "unknown header kind"))
        | some kind => do
          let rest ← readLine
          some <$> Prog.lift (parseHeader kind rest)

def writeOk : ScpProg σ Unit := send [0]

/- The frame of `write_fatal`. -/
def fatalFrame (msg : Bytes) : Bytes :=
  2::msg.map (fun b => if b=newline ∨ b=0 then space else b)++[newline]

/- `let _ = write_fatal(..); return Err(e)`. -/
def refuse (msg : Bytes) (e : ScpError) : ScpProg σ α := .write (fatalFrame msg) fun _ => .fail e

def readAck : ScpProg σ Unit :=
  .read fun
    | .ok none => .fail (.unexpected (ascii "EOF awaiting ack"))
    | .error e => .fail (.io e)
    | .ok (some b) =>
      if b=0 then .ret ()
      else if b=1 then do
        let msg ← readLine
        .fail (.warning msg)
      else if b=2 then do
        let msg ← readLine
        .fail (.remote msg)
      else .fail (.badHeader (ascii "non-ack byte"))

def writePayloadTerm (content : Bytes) : ScpProg σ Unit := do
  send content
  send [0]

/- The payload goes to `dst` as it comes in, each byte with its position. -/
def readPayload (dst : Nat → UInt8 → ScpProg σ Unit) : (pos remaining : Nat) → ScpProg σ Unit
  | _, 0 => .read fun
    | .ok none => .fail (.unexpected (ascii "EOF awaiting payload terminator"))
    | .error e => .fail (.io e)
    | .ok (some b) =>
      if b=0 then .ret () else .fail (.badHeader (ascii "payload terminator was not 0x00"))
  | pos, remaining+1 => .read fun
    | .ok none => .fail (.unexpected (ascii "EOF mid-payload"))
    | .error e => .fail (.io e)
    | .ok (some b) => do
      dst pos b
      readPayload dst (pos+1) remaining

def readPayloadTerm (dst : Nat → UInt8 → ScpProg σ Unit) (size : Nat) : ScpProg σ Unit :=
  readPayload dst 0 size

end Programs

variable {name rest : Bytes}

theorem validateName_eq_ok : validateName name = .ok () ↔
    name≠[] ∧ name.any isControl=false ∧ name.head?≠some dash ∧ name≠[dot] ∧
      name≠[dot,dot] ∧ slash∉name := by
  rw [validateName]
  split
  · simp_all
  split
  · simp_all
  split
  · simp_all
  split
  next hbad => tauto
  next hgood => simp_all

def Header.name? : Header → Option Bytes
  | .file _ _ name => some name
  | .dir _ name => some name
  | _ => none

theorem validateName_of_parseEntry {mode size : Nat} (h : parseEntry rest = .ok (mode,size,name)) :
    validateName name = .ok () := by
  rw [parseEntry] at h
  split at h
  · cases h
  · cases h
  · cases h
  · obtain ⟨_,-,h⟩ := except_bind_eq_ok.1 h
    obtain ⟨_,-,h⟩ := except_bind_eq_ok.1 h
    obtain ⟨⟨⟩,hname,h⟩ := except_bind_eq_ok.1 h
    cases h
    exact hname

/-- Every name that is read has been checked. -/
theorem validateName_of_parseHeader {kind : RecordKind} {h : Header}
    (hparse : parseHeader kind rest = .ok h) (hname : h.name?=some name) :
    validateName name = .ok () := by
  cases kind with
  | e =>
    rw [parseHeader] at hparse
    split at hparse <;> cases hparse
    cases hname
  | c =>
    obtain ⟨⟨mode,size,n⟩,hentry,hparse⟩ := except_bind_eq_ok.1 hparse
    cases hparse
    cases hname
    exact validateName_of_parseEntry hentry
  | d =>
    obtain ⟨⟨mode,size,n⟩,hentry,hparse⟩ := except_bind_eq_ok.1 hparse
    dsimp only at hparse
    split at hparse
    · cases hparse
    · cases hparse
      cases hname
      exact validateName_of_parseEntry hentry
  | t =>
    rw [parseHeader,parseTimes] at hparse
    split at hparse
    · cases hparse
    · cases hparse
    · cases hparse
    · cases hparse
    · split at hparse
      · cases hparse
      obtain ⟨_,-,hparse⟩ := except_bind_eq_ok.1 hparse
      obtain ⟨_,-,hparse⟩ := except_bind_eq_ok.1 hparse
      cases hparse
      cases hname
    · cases hparse

/- What `read_line` can return. -/
structure IsLine (line : Bytes) : Prop where
  short : line.length≤ maxLine
  noNewline : newline∉line
  utf8 : validUtf8 line=true

/-- The records that can be read. -/
def Received (h : Header) : Prop :=
  ∃ kind line, IsLine line ∧ parseHeader kind line = .ok h

section Reading

variable {σ : Type} {B : Prog.Bounds σ} {s : σ}

variable {out : Bytes}

theorem endLine_safe (hs : B.inv s) (hlen : out.length≤ maxLine) (hout : newline∉out) :
    (endLine out : ScpProg σ Bytes).Safe B (fun line t => t=s ∧ IsLine line) s := by
  rw [endLine]
  split
  next hutf => exact ⟨hs,rfl,hlen,hout,hutf⟩
  next => exact hs

theorem readLineLoop_safe (hs : B.inv s) (hr : B.reads s) {room : Nat}
    (hlen : out.length+room≤ maxLine) (hout : newline∉out) :
    (readLineLoop room out).Safe B (fun line t => t=s ∧ IsLine line) s := by
  induction room generalizing out with
  | zero =>
    rw [readLineLoop]
    refine ⟨hs,hr,fun i => ?_⟩
    rcases i with e | _ | b
    · exact hs
    · exact hs
    · dsimp only
      split
      · exact endLine_safe hs hlen hout
      · exact hs
  | succ room ih =>
    rw [readLineLoop]
    refine ⟨hs,hr,fun i => ?_⟩
    rcases i with e | _ | b
    · exact hs
    · exact hs
    · dsimp only
      split
      · exact endLine_safe hs (by omega) hout
      next hb =>
        refine ih ?_ ?_
        · rw [List.length_append,List.length_singleton]
          omega
        · simp [hout,Ne.symm hb]

theorem readLine_safe (hs : B.inv s) (hr : B.reads s) :
    (readLine : ScpProg σ Bytes).Safe B (fun line t => t=s ∧ IsLine line) s :=
  readLineLoop_safe hs hr (by simp) List.not_mem_nil

/-- Reading a record changes nothing. -/
theorem readHeader_safe (hs : B.inv s) (hr : B.reads s) :
    (readHeader : ScpProg σ (Option Header)).Safe B
      (fun h t => t=s ∧ ∀ h', h=some h' → Received h') s := by
  refine ⟨hs,hr,fun i => ?_⟩
  rcases i with e | _ | b
  · dsimp only
    split
    · exact ⟨hs,rfl,nofun⟩
    · exact hs
  · exact ⟨hs,rfl,nofun⟩
  · dsimp only
    split
    · refine (readLine_safe hs hr).bind fun line t ht _ => ?_
      split
      · exact ht
      · exact ht
    · split
      · exact hs
      next kind _ =>
        refine (readLine_safe hs hr).bind ?_
        rintro line t ht ⟨rfl,hline⟩
        cases hparse : parseHeader kind line with
        | error e => exact ht
        | ok h =>
          refine ⟨ht,rfl,?_⟩
          rintro h' ⟨⟩
          exact ⟨kind,line,hline,hparse⟩

end Reading

section Doing

variable {σ : Type} {s : σ}

theorem send_does (bs : Bytes) : (send bs : ScpProg σ Unit).Does s [] bs (.ok ()) s := by
  have h : (send bs : ScpProg σ Unit).Does s [] (bs++[]) (.ok ()) s := .write (.ret () s)
  rwa [List.append_nil] at h

variable {line : Bytes}

theorem readLineLoop_does (hnew : newline∉line) {room : Nat} (hlen : line.length≤room)
    (out : Bytes) (hutf : validUtf8 (out++line)=true) :
    (readLineLoop room out : ScpProg σ Bytes).Does s (line++[newline]) [] (.ok (out++line)) s := by
  induction line generalizing room out with
  | nil =>
    rw [List.append_nil] at hutf ⊢
    rw [readLineLoop]
    refine .read ?_
    rw [endLine,if_pos hutf]
    exact .ret out s
  | cons b line ih =>
    have hb : b≠newline := fun hb => hnew (hb ▸ List.mem_cons_self)
    obtain ⟨room,rfl⟩ := Nat.exists_eq_succ_of_ne_zero (Nat.ne_zero_of_lt hlen)
    rw [readLineLoop]
    refine .read ?_
    dsimp only
    rw [if_neg hb,show out++b::line=(out++[b])++line from List.append_cons out b line]
    rw [List.append_cons] at hutf
    exact ih (fun h => hnew (List.mem_cons_of_mem b h)) (Nat.le_of_succ_le_succ hlen) _ hutf

theorem readLine_does (h : IsLine line) :
    (readLine : ScpProg σ Bytes).Does s (line++[newline]) [] (.ok line) s :=
  readLineLoop_does h.noNewline h.short [] h.utf8

theorem readHeader_does {b : UInt8} {kind : RecordKind} (hkind : RecordKind.ofByte b=some kind)
    (hline : IsLine line) {h : Header} (hparse : parseHeader kind line = .ok h) :
    (readHeader : ScpProg σ (Option Header)).Does s (b::line++[newline]) [] (.ok (some h)) s := by
  have hb : ¬(b=1 ∨ b=2) := by
    rintro (rfl | rfl) <;> cases hkind
  refine .read ?_
  dsimp only
  rw [if_neg hb,hkind]
  have hrest : (some <$> Prog.lift (parseHeader kind line) : ScpProg σ (Option Header)).Does s [] []
      (.ok (some h)) s := by
    rw [hparse]
    exact .ret (some h) s
  exact (readLine_does hline).bind_quiet hrest

end Doing

end PureSsh.Scp
