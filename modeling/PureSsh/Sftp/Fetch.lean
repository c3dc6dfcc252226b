import PureSsh.Sftp.Session

/-! Downloads of whole directories: `transfer::download` (`bin/transfer.rs`) and `get -R` of sftp
(`bin/sftp.rs`). What the server answers and what a local call returns may differ from call to call. -/

namespace PureSsh.Sftp
open Lib Scp
open Naming (lossy)

def formatBits : Nat := 0o170000

/- `is_dir` and `is_reg` of `bin/transfer.rs` -/
def Attrs.isDir (a : Attrs) : Bool := a.permissions.any fun p => p &&& formatBits==0o040000
def Attrs.isReg (a : Attrs) : Bool := a.permissions.all fun p => p &&& formatBits==0o100000

/- `is_dir`, `is_reg` and `is_link` of `bin/sftp.rs` -/
def Attrs.formatOf (a : Attrs) : Nat := a.permissions.getD 0 &&& formatBits
def Attrs.namesDir (a : Attrs) : Bool := a.formatOf==0o040000
def Attrs.namesReg (a : Attrs) : Bool := a.formatOf==0o100000
def Attrs.namesLink (a : Attrs) : Bool := a.formatOf==0o120000

structure NameEntry where
  filename : Bytes
  attrs : Attrs

/- The answers of the server, by the number of the call and the path. A whole listing is one answer. -/
structure Peer where
  stat : Nat → Bytes → Option Attrs
  list : Nat → Bytes → Option (List NameEntry)
  openFile : Nat → Bytes → Bool
  readTo : Nat → Bytes → Bool
  realpath : Nat → Bytes → Option Bytes

inductive Mkdir
  | created | alreadyExists | failed
  deriving DecidableEq

/- The results of local calls. -/
structure Host where
  createDir : Nat → Bytes → Mkdir
  isDir : Nat → Bytes → Bool
  length : Nat → Bytes → Nat
  openWrite : Nat → Bytes → Bool
  setAttr : Nat → Bytes → Bool
  openRead : Nat → Bytes → Bool
  interrupted : Nat → Bool

inductive FetchError
  | statRemote | notRegular | tooDeep | mkdirLocal | listRemote | someFailed | openRemote | openLocal
  | cannotResume | readRemote | realpathRemote | syncLocal
  deriving DecidableEq

/- What has been listed, as the names from the destination to the directory and the name in it, and what
has been created, opened for writing or changed, as the names from the destination and the local path. -/
structure Fetch where
  calls : Nat
  listed : List (Names × Bytes)
  touched : List (Names × Bytes)

abbrev Fetching := Proc FetchError Fetch

def ask {α : Type} (f : Nat → α) : Fetching α := fun w => (.ok (f w.calls),{ w with calls := w.calls+1 })

section Local
variable (host : Host) (names : Names) (path : Bytes)

def touched : Fetching Unit := .modify fun w => { w with touched := w.touched++[(names,path)] }

def hasNul : Bool := path.contains 0

def lastName : Bytes := (path.reverse.takeWhile (· ≠ slash)).reverse

/- A path that no call accepts for a new file: it has a NUL, or names a directory in any case. -/
def unopenable : Bool := hasNul path || lastName path==[dot] || lastName path==[dot,dot]

def touchedIf (b : Bool) : Fetching Unit := if b then touched names path else pure ()

def createDirLocal : Fetching Mkdir := do
  let r ← ask fun n => if hasNul path then .failed else host.createDir n path
  touchedIf names path (r == .created)
  return r

def openLocal : Fetching Bool := do
  let ok ← ask fun n => host.openWrite n path && !unopenable path
  touchedIf names path ok
  return ok

def changeLocal : Fetching Unit := do
  let ok ← ask fun n => host.setAttr n path && !hasNul path
  touchedIf names path ok

def changeIf (b : Bool) : Fetching Unit := if b then changeLocal host names path else pure ()

def applyLocalAttrs (preserve : Bool) (a : Attrs) : Fetching Unit := do
  changeIf host names path (preserve && a.permissions.isSome)
  changeIf host names path (preserve && a.atimeMtime.isSome)

end Local

structure XferOpts where
  preserve : Bool := false
  recursive : Bool := false
  resume : Bool := false
  inplace : Bool := false

def remoteJoin (cwd rel : Bytes) : Bytes :=
  if rel.head?=some slash ∨ cwd=[] then rel
  else if rel=[] then cwd
  else if cwd.getLast?=some slash then cwd++rel
  else cwd++slash::rel

def safeName (name : Bytes) : Bool :=
  name != [] && name != [dot] && name != [dot,dot] && !name.contains slash && !name.contains 0

/- The rest also behind a failure, which is remembered. -/
def thenRest (x : Fetching Unit) (rest : Fetching Bool) : Fetching Bool := fun w =>
  match x w with
  | (.ok _,w') => rest w'
  | (.error _,w') => ((rest w').1.map fun _ => false,(rest w').2)

/- All entries, or those before an interrupt; whether none has failed. -/
def forEach (stop : Fetching Bool) (f : NameEntry → Fetching Unit) : List NameEntry → Fetching Bool
  | [] => pure true
  | e::es => do
    let halt ← stop
    if halt then pure true else thenRest (f e) (forEach stop f es)

def listing (names : Names) (entries : List NameEntry) : Fetching Unit :=
  .modify fun w => { w with listed := w.listed++entries.map fun e => (names,e.filename) }

section Transfer
variable (peer : Peer) (host : Host) (opts : XferOpts)

def downloadFile (attrs : Attrs) (names : Names) (remote path : Bytes) : Fetching Unit := do
  let opened ← ask (peer.openFile · remote)
  if !opened then .fail .openRemote else do
  let len ← ask (host.length · path)
  let ok ← openLocal host names path
  if !ok then .fail .openLocal
  else if opts.resume && decide (len>attrs.size.getD 0) then .fail .cannotResume
  else do
  let complete ← ask (peer.readTo · remote)
  if !complete then .fail .readRemote else do
  changeIf host names path opts.inplace
  applyLocalAttrs host names path opts.preserve attrs

/- A directory of `download_at`, with what is done for each name in it. -/
def downloadDir (child : Names → Bytes → Bytes → Fetching Unit) (attrs : Attrs) (names : Names)
    (remote path : Bytes) : Fetching Unit := do
  let made ← createDirLocal host names path
  let there ← ask (host.isDir · path)
  if made = .failed ∨ made = .alreadyExists ∧ there=false then .fail .mkdirLocal else do
  let reply ← ask (peer.list · remote)
  match reply with
  | none => .fail .listRemote
  | some entries => do
    listing names entries
    let ok ← forEach (pure false) (fun e =>
      if safeName e.filename then
        child (names++[e.filename]) (remoteJoin remote e.filename) (joinRaw path (lossy e.filename))
      else pure ()) entries
    applyLocalAttrs host names path opts.preserve attrs
    if ok then pure () else .fail .someFailed

def downloadEntry (dir : Attrs → Names → Bytes → Bytes → Fetching Unit) (names : Names)
    (remote path : Bytes) : Fetching Unit := do
  let reply ← ask (peer.stat · remote)
  match reply with
  | none => .fail .statRemote
  | some attrs =>
    if attrs.isDir then
      if !opts.recursive then .fail .notRegular else dir attrs names remote path
    else if !attrs.isReg then .fail .notRegular
    else downloadFile peer host opts attrs names remote path

/- `download_at`; so many more levels of directories are allowed. -/
def downloadAt : Nat → Names → Bytes → Bytes → Fetching Unit
  | 0 => downloadEntry peer host opts fun _ _ _ _ => .fail .tooDeep
  | levels+1 => downloadEntry peer host opts (downloadDir peer host opts (downloadAt levels))

end Transfer

def pathAppend (p₁ p₂ : Bytes) : Bytes :=
  if p₁≠[] ∧ p₁.getLast?≠some slash then p₁++slash::p₂ else p₁++p₂

section Get
variable (peer : Peer) (host : Host) (opts : XferOpts) (fsync : Bool)

/- `Session::download` of an entry -/
def getFile (a : Attrs) (names : Names) (remote path : Bytes) : Fetching Unit := do
  if a.permissions.isSome && !a.namesReg then .fail .notRegular else do
  let len ← ask (host.length · path)
  if opts.resume && decide (len>a.size.getD 0) then .fail .cannotResume else do
  downloadAt peer host { opts with recursive := false } 65 names remote path
  if opts.resume && decide (len≥a.size.getD 0) then pure ()
  else if !fsync then pure ()
  else do
  let synced ← ask (host.openRead · path)
  if synced then pure () else .fail .syncLocal

def modes (a : Attrs) : Nat × Nat :=
  match a.permissions with
  | some p => (p &&& 0o1777,(p &&& 0o1777) ||| 0o300)
  | none => (0o777,0o777)

/- The attributes of a directory, asked for only where the listing has not given them. -/
def attrsOf (src : Bytes) : Option Attrs → Fetching (Option Attrs)
  | some a => pure (some a)
  | none => ask (peer.stat · src)

/- `Session::readdir` leaves out what could not be a name. -/
def readdir (batch : List NameEntry) : List NameEntry :=
  batch.filter fun e => e.filename != [] && !e.filename.contains slash

/- `download_dir_at`; so many more levels of directories are allowed. -/
def getDirAt : Nat → Option Attrs → Names → Bytes → Bytes → Fetching Unit
  | 0, _, _, _, _ => .fail .tooDeep
  | levels+1, dirattrib, names, src, dst => do
    let reply ← attrsOf peer src dirattrib
    match reply with
    | none => .fail .statRemote
    | some da =>
      if !da.namesDir then .fail .notRegular else do
      let made ← createDirLocal host names dst
      if made = .failed then .fail .mkdirLocal else do
      let reply ← ask (peer.list · src)
      match reply with
      | none => .fail .listRemote
      | some batch => do
        listing names (readdir batch)
        let ok ← forEach (ask host.interrupted) (fun e =>
          if e.attrs.namesLink then pure ()
          else if e.attrs.namesDir then
            if e.filename=[dot] ∨ e.filename=[dot,dot] then pure ()
            else getDirAt levels (some e.attrs) (names++[e.filename]) (pathAppend src e.filename)
              (lossy (pathAppend dst e.filename))
          else if e.attrs.namesReg then
            getFile peer host opts fsync e.attrs (names++[e.filename]) (pathAppend src e.filename)
              (lossy (pathAppend dst e.filename))
          else pure ()) (readdir batch)
        changeIf host names dst (opts.preserve && da.atimeMtime.isSome)
        changeIf host names dst ((modes da).1 != (modes da).2)
        if ok then pure () else .fail .someFailed

def getDir (src dst : Bytes) : Fetching Unit := do
  let reply ← ask (peer.realpath · src)
  match reply with
  | none => .fail .realpathRemote
  | some canon => getDirAt peer host opts fsync 64 none [] canon dst

end Get

/- The two ways to fetch a tree. The destination of `get` is a text. -/
inductive FetchCommand
  | download (opts : XferOpts) (remote dest : Bytes)
  | get (opts : XferOpts) (fsync : Bool) (src : Bytes) (dest : Text)

def FetchCommand.dest : FetchCommand → Bytes
  | .download _ _ dest => dest
  | .get _ _ _ dest => dest.bytes

def FetchCommand.run (peer : Peer) (host : Host) : FetchCommand → Fetching Unit
  | .download opts remote dest => downloadAt peer host opts 65 [] remote dest
  | .get opts fsync src dest => getDir peer host opts fsync src dest.bytes

def fetch (peer : Peer) (host : Host) (command : FetchCommand) : Fetch :=
  (command.run peer host ⟨0,[],[]⟩).2

end PureSsh.Sftp
