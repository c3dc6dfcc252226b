import PureSsh.Sftp.Kernel
import PureSsh.Sftp.Naming

/-! The handlers of an SFTP session (`sftp/server.rs`). Contents of files, and the fields of replies
that nothing depends on, are left out. -/

namespace PureSsh.Sftp
open Lib Scp

structure Options where
  cwd : Bytes
  root : Option Bytes
  readOnly : Bool := false
  maxSetLen : Nat := 2^30
  hideJailInRealpath : Bool := true
  maxHandles : Nat := 256

structure Attrs where
  size : Option Nat := none
  uidGid : Option (Nat × Nat) := none
  permissions : Option Nat := none
  atimeMtime : Option (Nat × Nat) := none

structure OpenFlags where
  read : Bool := false
  write : Bool := false
  append : Bool := false
  creat : Bool := false
  trunc : Bool := false
  excl : Bool := false

inductive Packet
  | open (path : Bytes) (pflags : OpenFlags) (attrs : Attrs)
  | close (handle : Nat)
  | read (handle : Nat)
  | write (handle : Nat)
  | lstat (path : Bytes)
  | stat (path : Bytes)
  | fstat (handle : Nat)
  | setstat (path : Bytes) (attrs : Attrs)
  | fsetstat (handle : Nat) (attrs : Attrs)
  | opendir (path : Bytes)
  | readdir (handle : Nat)
  | remove (path : Bytes)
  | mkdir (path : Bytes) (attrs : Attrs)
  | rmdir (path : Bytes)
  | realpath (path : Bytes)
  | rename (oldpath newpath : Bytes)
  | readlink (path : Bytes)
  | symlink (targetPath linkPath : Bytes)
  | posixRename (oldpath newpath : Bytes)
  | hardlink (oldpath newpath : Bytes)
  | fsync (handle : Nat)
  | statvfs (path : Bytes)
  | fstatvfs (handle : Nat)
  | lsetstat (path : Bytes) (attrs : Attrs)
  | copyData (readHandle writeHandle : Nat)

inductive Reply
  | status (code : FxpStatus) (message : String)
  | handle (id : Nat)
  | data
  | attrs (node : Node)
  | name (entries : List Bytes)
  | extended
  deriving DecidableEq

def statusOk : Reply := .status .ok "ok"

def symlinkRejected : SftpError := .status .noSuchFile "symlink rejected"

section Handlers
variable (policy : Policy) (opts : Options)

def failStatus {α : Type} (code : FxpStatus) (message : String) : Handler α :=
  .fail (.status code message)

def resolvePath (raw : Bytes) : Handler Names := .lift (resolve opts.cwd raw opts.root)

def requireWritable : Handler Unit :=
  if opts.readOnly then failStatus .permissionDenied "read-only server" else pure ()

def FileHandle.path : FileHandle → Names
  | .file _ path _ _ => path
  | .dir _ path _ _ => path

variable (p : Names) (oldpath newpath : Bytes) (id : Nat) (path : Bytes) (a : Attrs)

def rejectSymlinkWhenJailed : Handler Unit :=
  if opts.root.isSome then do
    match ← stat policy false p with
    | .link _ => .fail symlinkRejected
    | _ => pure ()
  else pure ()

/- The first identifier from `next` on that is not in use. -/
def freeId (live : List Nat) : Nat → Nat → Nat
  | 0, next => next
  | fuel+1, next =>
    if next∈live then freeId live fuel (max 1 ((next+1)%2^64)) else next

def allocHandle (h : FileHandle) : Handler Nat := do
  let w ← Proc.get
  if w.handles.length≥opts.maxHandles then failStatus .failure "too many open handles"
  else
    let id := freeId (w.handles.map Prod.fst) w.handles.length w.next
    .set { w with handles := (id,h)::w.handles, next := max 1 ((id+1)%2^64) }
    return id

def getHandle : Handler FileHandle := do
  let w ← Proc.get
  match w.handles.lookup id with
  | some h => return h
  | none => failStatus .failure "invalid handle"

/- An open error, with a link at the end made to look like a missing file. -/
def mapOpenErr {α : Type} (x : Handler α) : Handler α := fun w =>
  match x w with
  | (.error (.io .filesystemLoop),w') => (.error symlinkRejected,w')
  | r => r

/- The part of `apply_attrs` for the mode of a jailed session. -/
def applyModeJailed : Handler Unit := fun w =>
  match openFile policy { read := true, noFollow := true } p w with
  | (.ok (place,_),w') => (do permit policy .chmod place; edit place : Handler Unit) w'
  | (.error (.io .filesystemLoop),w') => (.error symlinkRejected,w')
  | (.error _,w') =>
    (do
      match ← stat policy false p with
      | .link _ => .fail symlinkRejected
      | _ => setAttr policy .chmod false p : Handler Unit) w'

def applySize (jailed : Bool) : Option Nat → Handler Unit
  | some size =>
    if size>opts.maxSetLen then
      failStatus .permissionDenied "set_len above configured maximum"
    else do
      let (place,_) ← mapOpenErr (openFile policy { write := true, noFollow := jailed } p)
      permit policy .setLen place
      edit place
  | none => pure ()

def onlyIf (c : Bool) (x : Handler Unit) : Handler Unit := if c then x else pure ()

def applyAttrs (jailed : Bool) : Handler Unit := do
  applySize policy opts p jailed a.size
  onlyIf a.permissions.isSome
    (if jailed then applyModeJailed policy p else setAttr policy .chmod true p)
  onlyIf a.uidGid.isSome (setAttr policy .chown (!jailed) p)
  onlyIf a.atimeMtime.isSome (setAttr policy .utimes (!jailed) p)

/- What `op_open` asks of the kernel. -/
def OpenFlags.how (pflags : OpenFlags) (jailed : Bool) : How where
  read := pflags.read
  write := pflags.write || pflags.append
  append := pflags.append
  truncate := pflags.trunc
  create := pflags.creat && !pflags.excl
  createNew := pflags.excl
  noFollow := jailed

def opOpen (pflags : OpenFlags) : Handler Reply := do
  let p ← resolvePath opts path
  onlyIf (pflags.write || pflags.append) (requireWritable opts)
  let (place,ino) ← mapOpenErr (openFile policy (pflags.how opts.root.isSome) p)
  let id ← allocHandle opts (.file place p ino pflags.append)
  return .handle id

def opClose : Handler Reply := do
  let w ← Proc.get
  if (w.handles.lookup id).isNone then return .status .failure "invalid handle"
  else
    .set { w with handles := w.handles.filter fun e => !decide (e.1=id) }
    return statusOk

/- `op_read` and `op_ext_fsync` -/
def opOnFile (reply : Reply) : Handler Reply := do
  match ← getHandle id with
  | .file place _ _ _ =>
    touch place
    return reply
  | .dir _ _ _ _ => return .status .failure "handle is not a file"

def opWrite : Handler Reply := do
  requireWritable opts
  match ← getHandle id with
  | .file place _ _ _ =>
    edit place
    return statusOk
  | .dir _ _ _ _ => return .status .failure "handle is not a file"

def opStat (follow : Bool) : Handler Reply := do
  let p ← resolvePath opts path
  let n ← stat policy (follow && !opts.root.isSome) p
  return .attrs n

def opFstat : Handler Reply := do
  match ← getHandle id with
  | .file _ _ (some ino) _ => return .attrs (.file ino)
  | .file _ _ none _ => return .attrs .dir
  | .dir _ path _ _ => return .attrs (← stat policy (!opts.root.isSome) path)

def opSetstat : Handler Reply := do
  requireWritable opts
  let p ← resolvePath opts path
  applyAttrs policy opts p a opts.root.isSome
  return statusOk

/- By the path the handle was opened with, not by the open file. -/
def opFsetstat : Handler Reply := do
  requireWritable opts
  let h ← getHandle id
  applyAttrs policy opts h.path a opts.root.isSome
  return statusOk

def opOpendir : Handler Reply := do
  let p ← resolvePath opts path
  rejectSymlinkWhenJailed policy opts p
  let (place,entries) ← readDir policy p
  let id ← allocHandle opts (.dir place p entries false)
  return .handle id

/- Up to 128 entries; those that cannot be looked up are passed over. -/
def opReaddir : Handler Reply := do
  match ← getHandle id with
  | .file _ _ _ _ => return .status .failure "handle is not a dir"
  | .dir place path rest eofSent =>
    if eofSent then return .status .eof "eof"
    else
      touch place
      let w ← Proc.get
      let entries := (rest.take 128).filter fun name => (w.fs.node (place++[name])).isSome
      let ended := rest.length<128 || entries.isEmpty
      .set { w with handles := w.handles.map fun e =>
        if e.1=id then (id,.dir place path (rest.drop 128) ended) else e }
      if entries.isEmpty then return .status .eof "eof" else return .name entries

def opRemove : Handler Reply := do
  requireWritable opts
  let p ← resolvePath opts path
  rejectSymlinkWhenJailed policy opts p
  removeFile policy p
  return statusOk

/- The outcome of setting the attributes is ignored. -/
def ignoring (x : Handler Unit) : Handler Unit := fun w => (.ok (),(x w).2)

def opMkdir : Handler Reply := do
  requireWritable opts
  let p ← resolvePath opts path
  createDir policy p
  ignoring (applyAttrs policy opts p a opts.root.isSome)
  return statusOk

def opRmdir : Handler Reply := do
  requireWritable opts
  let p ← resolvePath opts path
  rejectSymlinkWhenJailed policy opts p
  removeDir policy p
  return statusOk

def opRealpath : Handler Reply := do
  let shown ← .lift (Naming.opRealpath ⟨opts.cwd,opts.root,opts.hideJailInRealpath,fun _ => none⟩ path)
  return .name [shown]

/- Both kinds of rename, up to the call itself. -/
def renameOperands : Handler (Names × Names) := do
  requireWritable opts
  let source ← resolvePath opts oldpath
  let target ← resolvePath opts newpath
  rejectSymlinkWhenJailed policy opts source
  onlyIf (← succeeds (stat policy false target)) (rejectSymlinkWhenJailed policy opts target)
  return (source,target)

def opRename : Handler Reply := do
  let (source,target) ← renameOperands policy opts oldpath newpath
  if ← succeeds (stat policy true target) then return .status .failure "destination exists"
  else
    Sftp.rename policy source target
    return statusOk

def opExtPosixRename : Handler Reply := do
  let (source,target) ← renameOperands policy opts oldpath newpath
  Sftp.rename policy source target
  return statusOk

def targetEscapes : Reply := .status .permissionDenied "symlink target escapes jail"

/- The part of `op_readlink` that decides whether a target may be shown. -/
def linkInside (root p : Names) (target : Bytes) : Bool :=
  if isAbsolute target then isInside (lexicallyClean target) root
  else isInside ((components target).foldl cleanStep p.dropLast) root

def opReadlink : Handler Reply := do
  let p ← resolvePath opts path
  let target ← readLink policy p
  match opts.root with
  | none => return .name [target]
  | some root =>
    if !linkInside (lexicallyClean root) p target then return targetEscapes
    else if isAbsolute target then
      let cleaned := lexicallyClean target
      return .name [pathBytes (if opts.hideJailInRealpath then
        cleaned.drop (lexicallyClean root).length else cleaned)]
    else return .name [target]

def opSymlink (targetPath linkPath : Bytes) : Handler Reply := do
  requireWritable opts
  let link ← resolvePath opts linkPath
  if !validUtf8 targetPath then failStatus .badMessage ""
  else if opts.root.isSome && isAbsolute targetPath then
    return .status .permissionDenied "absolute symlink target rejected by jail"
  else if opts.root.isSome && decide (Component.parentDir∈components targetPath) then
    return targetEscapes
  else
    Sftp.symlink policy targetPath link
    return statusOk

def opExtHardlink : Handler Reply := do
  requireWritable opts
  let src ← resolvePath opts oldpath
  let dst ← resolvePath opts newpath
  rejectSymlinkWhenJailed policy opts src
  hardLink policy src dst
  return statusOk

def opExtStatvfs : Handler Reply := do
  let p ← resolvePath opts path
  let _ ← stat policy true p
  return .extended

def opExtFstatvfs : Handler Reply := do
  match ← getHandle id with
  | .file _ _ _ _ => return .extended
  | .dir _ path _ _ =>
    let _ ← stat policy true path
    return .extended

/- A link itself has no size or mode that could be set. -/
def opExtLsetstat : Handler Reply := do
  requireWritable opts
  let p ← resolvePath opts path
  match ← stat policy false p with
  | .link _ =>
    if a.size.isSome || a.permissions.isSome then
      return .status .opUnsupported "cannot set the size or mode of a symlink"
    else
      onlyIf a.uidGid.isSome (setAttr policy .chown false p)
      onlyIf a.atimeMtime.isSome (setAttr policy .utimes false p)
      return statusOk
  | _ =>
    applyAttrs policy opts p a true
    return statusOk

def opExtCopyData (readHandle writeHandle : Nat) : Handler Reply := do
  requireWritable opts
  let w ← Proc.get
  match w.handles.lookup readHandle, w.handles.lookup writeHandle with
  | some (.file rp _ rino _), some (.file wp _ wino _) =>
    if readHandle=writeHandle ∨ rino=wino ∧ (rino=none → rp=wp) then
      return .status .failure "same file"
    else if rino=none then return .status .failure "copy source is not a regular file"
    else
      touch rp
      edit wp
      return statusOk
  | _, _ => return .status .failure "invalid handle"

def dispatch : Packet → Handler Reply
  | .open path pflags _ => opOpen policy opts path pflags
  | .close id => opClose id
  | .read id => opOnFile id .data
  | .write id => opWrite opts id
  | .lstat path => opStat policy opts path false
  | .stat path => opStat policy opts path true
  | .fstat id => opFstat policy opts id
  | .setstat path a => opSetstat policy opts path a
  | .fsetstat id a => opFsetstat policy opts id a
  | .opendir path => opOpendir policy opts path
  | .readdir id => opReaddir id
  | .remove path => opRemove policy opts path
  | .mkdir path a => opMkdir policy opts path a
  | .rmdir path => opRmdir policy opts path
  | .realpath path => opRealpath opts path
  | .rename oldpath newpath => opRename policy opts oldpath newpath
  | .readlink path => opReadlink policy opts path
  | .symlink targetPath linkPath => opSymlink policy opts targetPath linkPath
  | .posixRename oldpath newpath => opExtPosixRename policy opts oldpath newpath
  | .hardlink oldpath newpath => opExtHardlink policy opts oldpath newpath
  | .fsync id => opOnFile id statusOk
  | .statvfs path => opExtStatvfs policy opts path
  | .fstatvfs id => opExtFstatvfs policy id
  | .lsetstat path a => opExtLsetstat policy opts path a
  | .copyData readHandle writeHandle => opExtCopyData opts readHandle writeHandle

end Handlers

/- A session under a policy that may change with every request. -/
def serve (opts : Options) (w : World) (requests : List (Policy × Packet)) : World :=
  requests.foldl (fun w r => (dispatch r.1 opts r.2 w).2) w

end PureSsh.Sftp
