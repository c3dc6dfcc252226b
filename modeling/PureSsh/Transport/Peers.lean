import Mathlib.Logic.Function.Basic
import PureSsh.Lib.Segments
import PureSsh.Transport.RunnerCases

/-! Two runners joined by two queues of messages. What each end has sent and received is kept as
a history that nothing reads. -/

namespace PureSsh.Transport
open Lib Proc
variable {S : KexSuite} {P : Primitives}

structure Party (S : KexSuite) (P : Primitives) where
  kex : KexState S P
  sent : List Bytes
  received : List Bytes

namespace Party

def runner (p : Party S P) : KexRunner S := p.kex.runner
def codec (p : Party S P) : PacketCodec P := p.kex.codec

/- The number of the exchange this end is in: how many KEXINITs it has sent. -/
def isKexinit (m : Bytes) : Bool := m.head? == some msgKexInit
def exchange (p : Party S P) : Nat := p.sent.countP isKexinit

def onRunner {α : Type} (x : Proc Error (KexRunner S) α) : Proc Error (Party S P) α :=
  zoom (·.kex.runner) (fun r p => { p with kex := { p.kex with runner := r } }) x

def onKex {α : Type} (x : Proc Error (KexState S P) α) : Proc Error (Party S P) α :=
  zoom (·.kex) (fun k p => { p with kex := k }) x

/- Encoding and decoding move the counters of the codec. -/
def emit (out : List Bytes) (p : Party S P) : Party S P :=
  { p with
    kex := { p.kex with codec := { p.kex.codec with
      seqOut := p.kex.codec.seqOut+UInt32.ofNat out.length } }
    sent := p.sent++out }

def take (m : Bytes) (p : Party S P) : Party S P :=
  { p with
    kex := { p.kex with codec := { p.kex.codec with seqIn := p.kex.codec.seqIn+1 } }
    received := p.received++[m] }

def start : Proc Error (Party S P) (List Bytes) := do
  let adv ← onRunner KexRunner.start
  modify (emit adv.outbound)
  return adv.outbound

def restart (advert : KexInit) : Proc Error (Party S P) (List Bytes) := do
  let adv ← onRunner (KexRunner.restart advert)
  modify (emit adv.outbound)
  return adv.outbound

/- An ext-info goes past `on_packet`, as in the drivers. -/
def deliver (io : KexInput S) (m : Bytes) : Proc Error (Party S P) (List Bytes) := do
  modify (take m)
  if m.head?=some msgExtInfo then
    onRunner (KexRunner.handleInboundExtInfo m)
    return []
  else
    let adv ← onKex (KexState.onPacket m io)
    modify (emit adv.outbound)
    return adv.outbound

end Party

def Role.other : Role → Role
  | .client => .server
  | .server => .client

/- `queue role` holds the messages on their way to `role`. -/
structure World (S : KexSuite) (P : Primitives) where
  party : Role → Party S P
  queue : Role → List Bytes

inductive Act (S : KexSuite) where
  | start (side : Role)
  | restart (side : Role) (advert : KexInit)
  | deliver (side : Role) (hostKey : Option S.HostKey) (verifier : Option S.HostKeyVerify)

namespace World

/- One end moves; what it sends joins the other end's queue. -/
def move (side : Role) (x : Proc Error (Party S P) (List Bytes)) : Proc Error (World S P) Unit := do
  let out ← zoom (·.party side)
    (fun p w => { w with party := Function.update w.party side p }) x
  modify fun w => { w with
    queue := Function.update w.queue side.other (w.queue side.other++out) }

def act (vC vS : Bytes) : Act S → Proc Error (World S P) Unit
  | .start side => move side Party.start
  | .restart side advert => move side (Party.restart advert)
  | .deliver side hostKey verifier => do
    let w ← get
    match w.queue side with
    | [] => pure ()
    | m::rest =>
      set { w with queue := Function.update w.queue side rest }
      move side (Party.deliver { hostKey, verifier, vC, vS } m)

/- Both runners before `start`, with any ext-info and any choice of groups. -/
def init (advert : Role → KexInit) (ext : Role → Option ExtInfo)
    (selector : Option (GexRequest → Option S.DhGroup)) (rng : Role → Rng) : World S P where
  party role := {
    kex := {
      runner := { KexRunner.new role (advert role) with
        outboundExtInfo := ext role, gexSelector := selector }
      codec := .new
      rng := rng role }
    sent := []
    received := [] }
  queue _ := []

end World

end PureSsh.Transport
