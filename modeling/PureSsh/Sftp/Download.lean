import PureSsh.Sftp.Path

/-! The pipelined download of a file, `SftpClient::read_to` (`sftp/client.rs`). Offsets are `u64`, and
wrap where the build does not check. -/

namespace PureSsh.Sftp
open Lib Scp

def add64 (a b : Nat) : Nat := (a+b)%2^64
def sub64 (a b : Nat) : Nat := (a+(2^64-b))%2^64

/- A `READ` as it is sent. -/
structure Read where
  id : Nat
  off : Nat
  len : Nat
  deriving DecidableEq, Repr

inductive Answer
  | data (bytes : Bytes)
  | status (code : FxpStatus) (message : Bytes)
  | other

/- What `recv` returns. -/
abbrev Incoming := Except SftpError (Nat × Answer)

/- The arguments, and the id the client comes with. -/
structure Job where
  offset : Nat
  chunk : Nat
  depth : Nat
  firstId : Nat
  chunk_lt : chunk<2^32
  id_pos : 1≤firstId
  id_lt : firstId<2^32

namespace Job
variable (job : Job)

def size : Nat := max job.chunk 1
def ahead : Nat := max job.depth 1
def window : Nat := job.ahead*job.size%2^64

/- The window and one more chunk. -/
def span : Nat := (job.ahead+1)*job.size

end Job

/- The error of the n-th request written, if any; how much of some data the sink takes before it fails. -/
structure Ends where
  sendError : Nat → Option SftpError
  sinkError : Bytes → Bytes → Option (Nat × IoErrorKind)

structure Pull where
  outstanding : List Read
  received : List (Nat × Bytes)
  next : Nat
  written : Nat
  eof : Option Nat
  nextId : Nat
  sent : List Read
  sink : Bytes

/- An error, and the replies that are still to be read and discarded. -/
structure Stop where
  error : SftpError
  drain : Nat

abbrev Pulling := Proc Stop Pull

/- `SftpClient::next_id` -/
def idAfter (id : Nat) : Nat := max ((id+1)%2^32) 1

section Body
variable (job : Job) (ends : Ends)

def Pull.init : Pull where
  outstanding := []
  received := []
  next := job.offset
  written := job.offset
  eof := none
  nextId := job.firstId
  sent := []
  sink := []

/- `fail`: the replies to what is still outstanding are read and discarded. -/
def failing {α : Type} (e : SftpError) : Pulling α := fun s => (.error ⟨e,s.outstanding.length⟩,s)

/- `send` and the entry in `outstanding` -/
def request (off len : Nat) : Pulling Unit := fun s =>
  match ends.sendError s.sent.length with
  | some e => (.error ⟨e,0⟩,{ s with nextId := idAfter s.nextId })
  | none =>
    let r : Read := ⟨s.nextId,off,len⟩
    (.ok (),{ s with
      nextId := idAfter s.nextId
      sent := s.sent++[r]
      outstanding := (s.outstanding.filter fun r => !decide (r.id=s.nextId))++[r] })

def Pull.beforeEof (s : Pull) (off : Nat) : Bool := s.eof.all fun e => off<e

def Pull.wants (s : Pull) : Bool :=
  decide (s.outstanding.length<job.ahead) && decide (sub64 s.next s.written<job.window) &&
    s.beforeEof s.next

def fill : Nat → Pulling Unit
  | 0 => pure ()
  | fuel+1 => do
    let s ← Proc.get
    if s.wants job then do
      request ends s.next job.size
      .modify fun s => { s with next := add64 s.next job.size }
      fill fuel
    else pure ()

/- A short read: the rest of the range is asked for. -/
def followUp (r : Read) (got : Nat) : Pulling Unit := do
  let s ← Proc.get
  if got<r.len && s.beforeEof (add64 r.off got) then request ends (add64 r.off got) (r.len-got)
  else pure ()

def Pull.receive (off : Nat) (bytes : Bytes) (s : Pull) : Pull :=
  { s with received := (off,bytes)::s.received.filter fun e => !decide (e.1=off) }

def Pull.atEof (off : Nat) (s : Pull) : Pull := { s with eof := some ((s.eof.map (min · off)).getD off) }

def takeIn (r : Read) : Answer → Pulling Unit
  | .data [] => .modify (·.atEof r.off)
  | .data (b::bytes) =>
    if (b::bytes).length>r.len then failing (.protocol "sftp: oversized DATA")
    else do
      followUp ends r (b::bytes).length
      .modify (·.receive r.off (b::bytes))
  | .status .eof _ => .modify (·.atEof r.off)
  | .status code message => failing (.status code (String.ofList (Text.ofUtf8Lossy message)))
  | .other => failing (.protocol "sftp: expected DATA or STATUS")

def accept (id : Nat) (answer : Answer) : Pulling Unit := do
  let s ← Proc.get
  match s.outstanding.find? fun r => decide (r.id=id) with
  | none => failing (.protocol "sftp: unexpected reply id")
  | some r => do
    .set { s with outstanding := s.outstanding.filter fun r => !decide (r.id=id) }
    takeIn ends r answer

def write (bytes : Bytes) : Pulling Unit := fun s =>
  match ends.sinkError s.sink bytes with
  | some (k,e) => failing (.io e) { s with sink := s.sink++bytes.take k }
  | none => (.ok (),{ s with sink := s.sink++bytes, written := add64 s.written bytes.length })

def flush : Nat → Pulling Unit
  | 0 => pure ()
  | fuel+1 => do
    let s ← Proc.get
    match s.received.lookup s.written with
    | none => pure ()
    | some bytes => do
      .set { s with received := s.received.filter fun e => !decide (e.1=s.written) }
      write ends bytes
      flush fuel

/- One turn of the loop, from a reply to the next. -/
def turn (id : Nat) (answer : Answer) : Pulling Unit := do
  accept ends id answer
  let s ← Proc.get
  flush ends s.received.length
  fill job ends job.ahead

end Body

inductive Stage
  | running
  | draining (left : Nat) (error : SftpError)
  | done (result : Except SftpError Nat)

structure Download where
  pull : Pull
  stage : Stage

section Run
variable (job : Job) (ends : Ends)

def finish (s : Pull) : Except SftpError Nat :=
  if s.received≠[] then .error (.protocol "sftp: gap in file data")
  else .ok (sub64 s.written job.offset)

def settle : Except Stop Unit × Pull → Download
  | (.error stop,s) =>
    ⟨s,if stop.drain=0 then .done (.error stop.error) else .draining stop.drain stop.error⟩
  | (.ok (),s) => ⟨s,if s.outstanding=[] then .done (finish job s) else .running⟩

def startDownload : Download := settle job (fill job ends job.ahead (.init job))

def drainStep (left : Nat) (error : SftpError) : Incoming → Stage
  | .error _ => .done (.error error)
  | .ok _ => if left≤1 then .done (.error error) else .draining (left-1) error

def stepDownload (d : Download) (incoming : Incoming) : Download :=
  match d.stage with
  | .done _ => d
  | .draining left error => { d with stage := drainStep left error incoming }
  | .running =>
    match incoming with
    | .error e => { d with stage := .done (.error e) }
    | .ok (id,answer) => settle job (turn job ends id answer d.pull)

def readTo (incoming : List Incoming) : Download := incoming.foldl (stepDownload job ends) (startDownload job ends)

end Run

end PureSsh.Sftp
