import PureSsh.Scp.Files

/-! The receiving side of SCP. -/

namespace PureSsh.Scp

open Lib

structure ScpRecvOptions where
  recursive : Bool
  preserveTimes : Bool
  targetIsFile : Bool

/- What the system says about the path the caller gives. -/
structure Destination where
  canonical : Except IoErrorKind Path
  fileName : Option Bytes
  parentCanonical : Except IoErrorKind Path

def osText : IoErrorKind → Bytes
  | .notFound => ascii "No such file or directory (os error 2)"
  | .permissionDenied => ascii "Permission denied (os error 13)"
  | .alreadyExists => ascii "File exists (os error 17)"
  | .notADirectory => ascii "Not a directory (os error 20)"
  | .isADirectory => ascii "Is a directory (os error 21)"
  | .filesystemLoop => ascii "Too many levels of symbolic links (os error 40)"
  | .unexpectedEof => ascii "unexpected end of file"
  | .other => ascii "other error"

def osError (kind : IoErrorKind) : IoError := ⟨kind,osText kind⟩

/- The anchor that `Receiver::new` computes. A missing destination keeps its name below the parent. -/
def Destination.anchor (d : Destination) : Except ScpError Path :=
  match d.canonical with
  | .ok p => .ok p
  | .error .notFound =>
    match d.fileName with
    | none => .error (.unexpected (ascii "scp: destination has no file name"))
    | some name =>
      match d.parentCanonical with
      | .ok parent => .ok (parent.join name)
      | .error e => .error (.io (osError e))
  | .error e => .error (.io (osError e))

def defaultMaxFileSize : Nat := 64*1024*1024*1024

/- What does not change while a receiver runs. -/
structure Receiver where
  base : Path
  opts : ScpRecvOptions
  maxFileSize : Option Nat := some defaultMaxFileSize
  expectedName : Option Bytes := none
  topLevelFilter : Option (Bytes → Bool) := none

/- What does; the directory entered last is the first of `stack`. -/
structure RecvState where
  fs : Fs
  stack : List Path := []
  pendingTimes : Option (Int × Int) := none
  receivedOne : Bool := false

namespace RecvState

def mapFs (s : RecvState) (f : Fs → Fs) : RecvState := { s with fs := f s.fs }

end RecvState

namespace Receiver

variable (r : Receiver)

def currentDir (s : RecvState) : Path := s.stack.head?.getD r.base

def resolveTarget (s : RecvState) (name : Bytes) : Path :=
  if s.stack.isEmpty && r.opts.targetIsFile then r.base else (r.currentDir s).join name

def checkTopLevelName (name : Bytes) : ScpProg RecvState Unit := do
  let s ← Prog.get
  if s.stack.isEmpty && r.topLevelFilter.any (fun filter => !filter name) then
    let msg := ascii "filename does not match request"
    refuse msg (.unexpected msg)
  else pure ()

def guardPath (target : Path) : ScpProg RecvState Unit :=
  let norm := Path.lexicalNormalize target
  if Component.parentDir∈norm then refuse (ascii "path escapes base directory") .pathEscape
  else if Path.lexicalNormalize r.base <+: norm then pure ()
  else refuse (ascii "path escapes base directory") .pathEscape

/- The pending times are used up; without `-p` they are dropped. -/
def stamp (target : Path) (s : RecvState) : RecvState :=
  { s with
    pendingTimes := none
    fs := if s.pendingTimes.isSome && r.opts.preserveTimes then s.fs.setTimes target else s.fs }

def takeTimes (target : Path) : ScpProg RecvState Unit := Prog.modify (r.stamp target)

/- The directory of a `D` record: one that is there is used, if it is a real one. -/
def makeDir (target : Path) : ScpProg RecvState Unit := do
  let s ← Prog.get
  match s.fs.symlinkMetadata target with
  | .ok .symlink => refuse (ascii "directory target is an existing symlink") .pathEscape
  | .ok (.file _ _) =>
    refuse (ascii "directory target collides with a non-directory")
      (.unexpected (ascii "directory target collides with non-directory"))
  | .ok (.dir _) => pure ()
  | .error .notFound =>
    match s.fs.createDir target with
    | .ok fs => Prog.modify fun s => { s with fs := fs }
    | .error e => refuse (osText e) (.io (osError e))
  | .error e => refuse (osText e) (.io (osError e))

/- The mode of a directory that can be opened. -/
def applyMode (target : Path) (mode : Nat) (fs : Fs) : Fs :=
  match fs.openDir target with
  | .ok () => fs.setPermissions target (BitVec.ofNat 12 mode)
  | .error _ => fs

def recvDir (mode : Nat) (name : Bytes) : ScpProg RecvState Unit := do
  let s ← Prog.get
  let target := r.resolveTarget s name
  r.guardPath target
  makeDir target
  Prog.modify fun s => s.mapFs (applyMode target mode)
  r.takeTimes target
  Prog.modify fun s => { s with stack := target::s.stack }
  writeOk

/- The part of a name behind the last slash. -/
def baseName (name : Bytes) : Bytes := (name.splitOn slash).getLastD name

/- The checks of a `C` record that come before its acknowledgement. -/
def checkFile (size : Nat) (name : Bytes) : ScpProg RecvState Path := do
  let s ← Prog.get
  if r.expectedName.isSome && s.receivedOne then
    let msg := ascii "server sent more than one file for a single-file request"
    refuse msg (.unexpected msg)
  else if r.expectedName.any fun expected => name != baseName expected then
    let msg := ascii "server sent a file with an unexpected name"
    refuse msg (.unexpected msg)
  else if r.maxFileSize.any fun cap => decide (cap<size) then
    let msg := ascii "file size exceeds configured maximum"
    refuse msg (.unexpected msg)
  else
    let target := r.resolveTarget s name
    r.guardPath target
    match s.fs.symlinkMetadata target with
    | .ok .symlink => refuse (ascii "refusing to overwrite a symlink") .pathEscape
    | _ => pure target

/- The directory above the file is made if it is missing. -/
def makeParent (target : Path) (fs : Fs) : Fs :=
  match target.parent with
  | some parent => (fs.createDirAll parent).2
  | none => fs

def openFile (target : Path) : ScpProg RecvState Unit := do
  let s ← Prog.get
  match s.fs.openWrite target with
  | .ok fs => Prog.modify fun s => { s with fs := fs }
  | .error e => refuse (osText e) (.io (osError e))

def writeContent (target : Path) (pos : Nat) (b : UInt8) : ScpProg RecvState Unit :=
  Prog.modify fun s => s.mapFs fun fs => fs.writeAt target pos b

def storeFile (mode size : Nat) (target : Path) : ScpProg RecvState Unit := do
  match ← (readPayloadTerm (writeContent target) size).attempt with
  | .error e => refuse e.toText e
  | .ok () =>
    Prog.modify fun s => s.mapFs fun fs =>
      (fs.setLen target size).setPermissions target (BitVec.ofNat 12 mode)
    r.takeTimes target
    writeOk
    Prog.modify fun s => { s with receivedOne := true }

def recvFile (mode size : Nat) (name : Bytes) : ScpProg RecvState Unit := do
  let target ← r.checkFile size name
  writeOk
  Prog.modify fun s => s.mapFs (makeParent target)
  openFile target
  r.storeFile mode size target

/- One round of `run`; nothing is returned to go on with the next record. -/
def dispatch : Header → ScpProg RecvState (Option Unit)
  | .times mtime atime => do
    Prog.modify fun s => { s with pendingTimes := some (mtime,atime) }
    writeOk
    pure none
  | .dir mode name =>
    if !r.opts.recursive then
      let msg := ascii "directory entry but -r not set"
      refuse msg (.unexpected msg)
    else do
      r.checkTopLevelName name
      r.recvDir mode name
      pure none
  | .endDir => do
    let s ← Prog.get
    if s.stack.isEmpty then
      refuse (ascii "E at top level") (.unexpected (ascii "E at top level"))
    else
      Prog.modify fun s => { s with stack := s.stack.tail, pendingTimes := none }
      writeOk
      pure none
  | .file mode size name => do
    r.checkTopLevelName name
    r.recvFile mode size name
    pure none

def noteRecord (h : Header) : ScpProg RecvState Unit :=
  Prog.modify fun s => s.mapFs fun fs => fs.note (.record h)

/- The head of the loop of `run`: a record that cannot be read ends it with a frame for the peer. -/
def nextHeader : ScpProg RecvState (Option Header) := do
  match ← readHeader.attempt with
  | .error e => refuse e.toText e
  | .ok none => pure none
  | .ok (some h) =>
    noteRecord h
    pure (some h)

def run : ScpProg RecvState (Option Unit) := do
  match ← nextHeader with
  | none => pure (some ())
  | some h => r.dispatch h

end Receiver

namespace Path

variable {p : Path}

theorem lexicalNormalize_eq (h : ∀ c∈p, c ≠ .parentDir ∧ c ≠ .curDir) : lexicalNormalize p=p := by
  suffices hfold : ∀ out : Path, p.foldl normalizeStep out=out++p from hfold []
  induction p with
  | nil => exact fun out => (List.append_nil out).symm
  | cons c p ih =>
    intro out
    have hstep : normalizeStep out c=out++[c] := by
      obtain ⟨hparent,hcur⟩ := h c List.mem_cons_self
      cases c with
      | parentDir => exact absurd rfl hparent
      | curDir => exact absurd rfl hcur
      | _ => rfl
    rw [List.foldl_cons,hstep,ih fun d hd => h d (List.mem_cons_of_mem c hd),List.append_assoc]
    rfl

theorem Canonical.ne_nil (h : p.Canonical) : p≠[] := by
  obtain ⟨names,rfl⟩ := h
  exact List.cons_ne_nil _ _

theorem Canonical.append (h : p.Canonical) (names : List Bytes) :
    Canonical (p++names.map .normal) := by
  obtain ⟨above,rfl⟩ := h
  exact ⟨above++names,by rw [List.map_append,List.cons_append]⟩

theorem Canonical.lexicalNormalize_eq (h : p.Canonical) : lexicalNormalize p=p := by
  obtain ⟨names,rfl⟩ := h
  refine Path.lexicalNormalize_eq fun c hc => ?_
  rcases List.mem_cons.1 hc with rfl | hc
  · exact ⟨nofun,nofun⟩
  · obtain ⟨name,-,rfl⟩ := List.mem_map.1 hc
    exact ⟨nofun,nofun⟩

theorem Canonical.noParent (h : p.Canonical) : Component.parentDir∉p := by
  obtain ⟨names,rfl⟩ := h
  simp

end Path

namespace Receiver

variable {r : Receiver} {s : RecvState}

/-- The guard passes all paths below a canonical base. -/
theorem guardPath_eq (hbase : r.base.Canonical) (names : List Bytes) :
    r.guardPath (r.base++names.map .normal)=pure () := by
  have hpath := hbase.append names
  rw [guardPath,hpath.lexicalNormalize_eq,hbase.lexicalNormalize_eq]
  exact (if_neg hpath.noParent).trans (if_pos (List.prefix_append _ _))

theorem nextHeader_does {b : UInt8} {kind : RecordKind} (hkind : RecordKind.ofByte b=some kind)
    {line : Bytes} (hline : IsLine line) {h : Header} (hparse : parseHeader kind line = .ok h) :
    nextHeader.Does s (b::line++[newline]) [] (.ok (some h))
      (s.mapFs fun fs => fs.note (.record h)) := by
  have hread : (readHeader.attempt : ScpProg RecvState (Except ScpError (Option Header))).Does s
      (b::line++[newline]) [] (.ok (.ok (some h))) s :=
    (readHeader_does hkind hline hparse).attempt
  have hnote : (do
      noteRecord h
      pure (some h) : ScpProg RecvState (Option Header)).Does s [] [] (.ok (some h))
        (s.mapFs fun fs => fs.note (.record h)) := .act (.ret (some h) _)
  exact hread.bind_quiet hnote

variable {name : Bytes}

theorem checkTopLevelName_does (h : s.stack=[] → ∀ filter∈r.topLevelFilter, filter name=true) :
    (r.checkTopLevelName name).Does s [] [] (.ok ()) s := by
  have hpass : ¬(s.stack.isEmpty && r.topLevelFilter.any (fun filter => !filter name))=true := by
    intro hfail
    rw [Bool.and_eq_true,List.isEmpty_iff,Option.any_eq_true] at hfail
    obtain ⟨hstack,filter,hfilter,hname⟩ := hfail
    rw [h hstack filter hfilter] at hname
    cases hname
  refine .act ?_
  dsimp only [id,Prog.ret_bind]
  rw [if_neg hpass]
  exact .ret () s

/- The checks a file record has to pass. -/
structure Admits (r : Receiver) (s : RecvState) (size : Nat) (name : Bytes) : Prop where
  single : (r.expectedName.isSome && s.receivedOne)=false
  expected : ∀ expected∈r.expectedName, name=baseName expected
  fits : ∀ cap∈r.maxFileSize, size≤cap

theorem checkFile_does {size : Nat} {target : Path} (htarget : r.resolveTarget s name=target)
    (hguard : r.guardPath target=pure ()) (hadmits : r.Admits s size name)
    (hlink : s.fs.symlinkMetadata target ≠ .ok .symlink) :
    (r.checkFile size name).Does s [] [] (.ok target) s := by
  have hname : ¬(r.expectedName.any fun expected => name != baseName expected)=true := by
    rw [Option.any_eq_true]
    rintro ⟨expected,hexp,hne⟩
    rw [← hadmits.expected expected hexp] at hne
    simp at hne
  have hsize : ¬(r.maxFileSize.any fun cap => decide (cap<size))=true := by
    rw [Option.any_eq_true]
    rintro ⟨cap,hcap,hlt⟩
    exact absurd (hadmits.fits cap hcap) (Nat.not_le.2 (of_decide_eq_true hlt))
  refine .act ?_
  dsimp only [id,Prog.ret_bind]
  rw [if_neg (Bool.eq_false_iff.1 hadmits.single),if_neg hname,if_neg hsize,htarget,hguard]
  split
  next h => exact absurd h hlink
  next => exact .ret target s

end Receiver

end PureSsh.Scp
