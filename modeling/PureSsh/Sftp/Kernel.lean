import PureSsh.Sftp.Path

/-! The file system as the kernel keeps it: resolution of a path through symbolic links, and the calls
the server makes. What a call acts on is recorded by its place in the tree. -/

namespace PureSsh.Sftp
open Lib Scp Proc

inductive Node
  | dir
  | file (ino : Nat)
  | link (target : Bytes)
  deriving DecidableEq, Repr

/- All objects with their places, the root directory apart. -/
structure Fs where
  nodes : List (Names × Node)
  nextIno : Nat

namespace Fs
variable (fs : Fs)

def node (p : Names) : Option Node := if p=[] then some .dir else fs.nodes.lookup p

def erase (p : Names) : Fs := { fs with nodes := fs.nodes.filter fun e => !decide (e.1=p) }

def put (p : Names) (n : Node) : Fs := { fs.erase p with nodes := (p,n)::(fs.erase p).nodes }

def children (p : Names) : List Bytes :=
  fs.nodes.filterMap fun e => if e.1.dropLast=p then e.1.getLast? else none

/- The objects at and below `src` come to stand at and below `dst`, in place of what was there. -/
def move (src dst : Names) : Fs :=
  { fs with nodes := (fs.nodes.filter fun e => !dst.isPrefixOf e.1).map fun e =>
      if src.isPrefixOf e.1 then (dst++e.1.drop src.length,e.2) else e }

end Fs

section Resolution
variable (fs : Fs) (follow : Bool)

/- How far a path leads without a link being followed. -/
inductive Walk
  | found (place : Names)
  | link (dir : Names) (target : Bytes) (rest : List Component)
  | fail (e : IoErrorKind)

def descend (cur : Names) : List Component → Walk
  | [] => .found cur
  | .parentDir::rest => descend cur.dropLast rest
  | .rootDir::rest => descend cur rest
  | .curDir::rest => descend cur rest
  | .normal name::rest =>
    match fs.node (cur++[name]) with
    | some .dir => descend (cur++[name]) rest
    | some (.link target) =>
      if rest=[] ∧ follow=false then .found (cur++[name]) else .link cur target rest
    | some (.file _) => if rest=[] then .found (cur++[name]) else .fail .notADirectory
    | none => if rest=[] then .found (cur++[name]) else .fail .notFound

/- The place a path leads to, if fewer than `links` links are met on the way. -/
def namei : Nat → Names → List Component → Except IoErrorKind Names
  | 0, _, _ => .error .filesystemLoop
  | links+1, cur, pending =>
    match descend fs follow cur pending with
    | .found place => .ok place
    | .fail e => .error e
    | .link dir target rest =>
      namei links (if isAbsolute target then [] else dir) (components target++rest)

/- `MAXSYMLINKS` of Linux -/
def maxLinks : Nat := 41

def locate (p : Names) : Except IoErrorKind Names := namei fs follow maxLinks [] (p.map .normal)

end Resolution

inductive Call
  | stat | openFile | unlink | rmdir | mkdir | rename | link | symlink | readlink | readDir | setLen
  | chmod | chown | utimes | statvfs
  deriving DecidableEq

/- What the kernel may refuse for other reasons: permissions, quotas, busy directories. -/
abbrev Policy := Call → Names → Option IoErrorKind

inductive FileHandle
  | file (place path : Names) (ino : Option Nat) (append : Bool)
  | dir (place path : Names) (rest : List Bytes) (eofSent : Bool)

/- The file system, the places acted on so far, those of them whose contents or attributes were
changed, and the open handles of the session. -/
structure World where
  fs : Fs
  trail : List Names
  edits : List Names
  handles : List (Nat × FileHandle)
  next : Nat

abbrev Handler := Proc SftpError World

section Calls
variable (policy : Policy)

def ioError {α : Type} (e : IoErrorKind) : Handler α := .fail (.io e)

def find (follow : Bool) (p : Names) : Handler Names := do
  let w ← get
  .lift ((locate w.fs follow p).mapError .io)

def nodeAt (place : Names) : Handler (Option Node) := do
  let w ← get
  return w.fs.node place

def permit (call : Call) (place : Names) : Handler Unit :=
  match policy call place with
  | some e => ioError e
  | none => pure ()

def touch (place : Names) : Handler Unit := .modify fun w => { w with trail := w.trail++[place] }

/- A change of contents or attributes. -/
def edit (place : Names) : Handler Unit :=
  .modify fun w => { w with trail := w.trail++[place], edits := w.edits++[place] }

def change (f : Fs → Fs) : Handler Unit := .modify fun w => { w with fs := f w.fs }

/- `metadata` or `symlink_metadata` -/
def stat (follow : Bool) (p : Names) : Handler Node := do
  let place ← find follow p
  permit policy .stat place
  match ← nodeAt place with
  | some n => return n
  | none => ioError .notFound

/- Whether a call would succeed. -/
def succeeds {α : Type} (x : Handler α) : Handler Bool := fun w =>
  match x w with
  | (.ok _,_) => (.ok true,w)
  | (.error _,_) => (.ok false,w)

/- `OpenOptions` -/
structure How where
  read : Bool := false
  write : Bool := false
  append : Bool := false
  truncate : Bool := false
  create : Bool := false
  createNew : Bool := false
  noFollow : Bool := false

/- The combinations that `OpenOptions::open` takes. -/
def How.valid (how : How) : Bool :=
  (how.read || how.write || how.append) &&
    if how.append then !how.truncate || how.createNew
    else how.write || !(how.truncate || how.create || how.createNew)

def How.forWriting (how : How) : Bool := how.write || how.append

/- A directory can be opened for reading, and has no contents to copy. -/
def openFile (how : How) (p : Names) : Handler (Names × Option Nat) := do
  if !how.valid then ioError .other
  else
    let place ← find (!how.noFollow && !how.createNew) p
    permit policy .openFile place
    match ← nodeAt place with
    | some (.link _) => ioError (if how.createNew then .alreadyExists else .filesystemLoop)
    | some .dir =>
      if how.createNew then ioError .alreadyExists
      else if how.forWriting || how.create then ioError .isADirectory
      else
        touch place
        return (place,none)
    | some (.file ino) =>
      if how.createNew then ioError .alreadyExists
      else
        if how.truncate then edit place else touch place
        return (place,some ino)
    | none =>
      if how.create || how.createNew then
        let w ← get
        change fun fs => { fs.put place (.file fs.nextIno) with nextIno := fs.nextIno+1 }
        touch place
        return (place,some w.fs.nextIno)
      else ioError .notFound

def removeFile (p : Names) : Handler Unit := do
  let place ← find false p
  permit policy .unlink place
  match ← nodeAt place with
  | some .dir => ioError .isADirectory
  | some _ =>
    change (·.erase place)
    touch place
  | none => ioError .notFound

def removeDir (p : Names) : Handler Unit := do
  let place ← find false p
  permit policy .rmdir place
  match ← nodeAt place with
  | some .dir =>
    let w ← get
    if place=[] ∨ w.fs.children place≠[] then ioError .other
    else
      change (·.erase place)
      touch place
  | some _ => ioError .notADirectory
  | none => ioError .notFound

/- A new object at a free place. -/
def create (call : Call) (n : Node) (p : Names) : Handler Unit := do
  let place ← find false p
  permit policy call place
  match ← nodeAt place with
  | some _ => ioError .alreadyExists
  | none =>
    change (·.put place n)
    touch place

def createDir (p : Names) : Handler Unit := create policy .mkdir .dir p

def symlink (target : Bytes) (p : Names) : Handler Unit :=
  if target=[] then ioError .notFound else create policy .symlink (.link target) p

def readLink (p : Names) : Handler Bytes := do
  let place ← find false p
  permit policy .readlink place
  match ← nodeAt place with
  | some (.link target) => return target
  | some _ => ioError .other
  | none => ioError .notFound

/- Whether an object of kind `n` may be put over what stands at `dst`. -/
def mayReplace (fs : Fs) (n : Node) (dst : Names) : Except IoErrorKind Unit :=
  match fs.node dst with
  | none => .ok ()
  | some .dir =>
    if n ≠ .dir then .error .isADirectory
    else if fs.children dst≠[] then .error .other
    else .ok ()
  | some _ => if n = .dir then .error .notADirectory else .ok ()

/- Whether `dst` is another name of the file `n`. -/
def sameFile (fs : Fs) (n : Node) (dst : Names) : Bool :=
  match n with
  | .file _ => fs.node dst==some n
  | _ => false

def rename (source target : Names) : Handler Unit := do
  let src ← find false source
  let dst ← find false target
  permit policy .rename src
  permit policy .rename dst
  match ← nodeAt src with
  | none => ioError .notFound
  | some n =>
    let w ← get
    if src=dst ∨ sameFile w.fs n dst then pure ()
    else if src.isPrefixOf dst ∨ dst.isPrefixOf src then ioError .other
    else
      match mayReplace w.fs n dst with
      | .error e => ioError e
      | .ok () =>
        change (·.move src dst)
        touch src
        touch dst

def hardLink (source target : Names) : Handler Unit := do
  let src ← find false source
  permit policy .link src
  match ← nodeAt src with
  | none => ioError .notFound
  | some .dir => ioError .permissionDenied
  | some n =>
    create policy .link n target
    touch src

def readDir (p : Names) : Handler (Names × List Bytes) := do
  let place ← find true p
  permit policy .readDir place
  match ← nodeAt place with
  | some .dir =>
    touch place
    let w ← get
    return (place,w.fs.children place)
  | some _ => ioError .notADirectory
  | none => ioError .notFound

/- A change of attributes by path: `chmod`, `chown`, `utimensat`. -/
def setAttr (call : Call) (follow : Bool) (p : Names) : Handler Unit := do
  let place ← find follow p
  permit policy call place
  match ← nodeAt place with
  | some _ => edit place
  | none => ioError .notFound

end Calls

end PureSsh.Sftp
