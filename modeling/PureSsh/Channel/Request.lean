import PureSsh.Format

/-! Bodies of channel opens, channel requests and global requests
(`hazmat/channel/state.rs`, `request.rs`, `global.rs`). -/

namespace PureSsh.Channel
open Lib Reader Writer

inductive ChannelRequest where
  | ptyReq (term : Str) (cols rows pxW pxH : UInt32) (modes : Bytes)
  | shell
  | exec (command : Str)
  | subsystem (name : Str)
  | env (name value : Str)
  | windowChange (cols rows pxW pxH : UInt32)
  | signal (name : Str)
  | exitStatus (code : UInt32)
  | exitSignal (name : Str) (coreDumped : Bool) (message language : Str)
  | authAgentReq
  | x11Req (singleConnection : Bool) (authProtocol authCookie : Str) (screen : UInt32)
  | other (name : Str) (raw : Bytes)
  deriving DecidableEq, Repr

namespace ChannelRequest

def name : ChannelRequest → Str
  | .ptyReq .. => ascii "pty-req"
  | .shell => ascii "shell"
  | .exec .. => ascii "exec"
  | .subsystem .. => ascii "subsystem"
  | .env .. => ascii "env"
  | .windowChange .. => ascii "window-change"
  | .signal .. => ascii "signal"
  | .exitStatus .. => ascii "exit-status"
  | .exitSignal .. => ascii "exit-signal"
  | .authAgentReq => ascii "auth-agent-req@openssh.com"
  | .x11Req .. => ascii "x11-req"
  | .other name _ => name

def encode : ChannelRequest → Bytes
  | .ptyReq term cols rows pxW pxH modes =>
    writeString term++be32 cols++be32 rows++be32 pxW++be32 pxH++writeString modes
  | .shell => []
  | .exec command => writeString command
  | .subsystem name => writeString name
  | .env name value => writeString name++writeString value
  | .windowChange cols rows pxW pxH => be32 cols++be32 rows++be32 pxW++be32 pxH
  | .signal name => writeString name
  | .exitStatus code => be32 code
  | .exitSignal name coreDumped message language =>
    writeString name++writeBool coreDumped++writeString message++writeString language
  | .authAgentReq => []
  | .x11Req singleConnection authProtocol authCookie screen =>
    writeBool singleConnection++writeString authProtocol++writeString authCookie++be32 screen
  | .other _ raw => raw

def decode (name : Str) (body : Bytes) : Result ChannelRequest :=
  let text := readUtf8 "invalid utf-8 in channel request"
  if name=ascii "pty-req" then do
    let (term,r) ← text body
    let (cols,r) ← readU32 r
    let (rows,r) ← readU32 r
    let (pxW,r) ← readU32 r
    let (pxH,r) ← readU32 r
    let (modes,_) ← readString r
    return .ptyReq term cols rows pxW pxH modes
  else if name=ascii "shell" then return .shell
  else if name=ascii "exec" then do
    let (command,_) ← text body
    return .exec command
  else if name=ascii "subsystem" then do
    let (name,_) ← text body
    return .subsystem name
  else if name=ascii "env" then do
    let (name,r) ← text body
    let (value,_) ← text r
    return .env name value
  else if name=ascii "window-change" then do
    let (cols,r) ← readU32 body
    let (rows,r) ← readU32 r
    let (pxW,r) ← readU32 r
    let (pxH,_) ← readU32 r
    return .windowChange cols rows pxW pxH
  else if name=ascii "signal" then do
    let (name,_) ← text body
    return .signal name
  else if name=ascii "exit-status" then do
    let (code,_) ← readU32 body
    return .exitStatus code
  else if name=ascii "exit-signal" then do
    let (name,r) ← text body
    let (coreDumped,r) ← readBool r
    let (message,r) ← text r
    let (language,_) ← text r
    return .exitSignal name coreDumped message language
  else if name=ascii "auth-agent-req@openssh.com" then return .authAgentReq
  else if name=ascii "x11-req" then do
    let (singleConnection,r) ← readBool body
    let (authProtocol,r) ← text r
    let (authCookie,r) ← text r
    let (screen,_) ← readU32 r
    return .x11Req singleConnection authProtocol authCookie screen
  else return .other name body

theorem decode_malformed (name : Str) (body : Bytes) : Malformed (decode name body) := by
  refine .ite (.utf8 fun _ => .u32 fun _ => .u32 fun _ => .u32 fun _ => .u32 fun _ =>
    .string fun _ => .ok _) (.ite (.ok _) ?_)
  refine .ite (.utf8 fun _ => .ok _) (.ite (.utf8 fun _ => .ok _) ?_)
  refine .ite (.utf8 fun _ => .utf8 fun _ => .ok _) ?_
  refine .ite (.u32 fun _ => .u32 fun _ => .u32 fun _ => .u32 fun _ => .ok _) ?_
  refine .ite (.utf8 fun _ => .ok _) (.ite (.u32 fun _ => .ok _) ?_)
  refine .ite (.utf8 fun _ => .bool fun _ => .utf8 fun _ => .utf8 fun _ => .ok _) (.ite (.ok _) ?_)
  exact .ite (.bool fun _ => .utf8 fun _ => .utf8 fun _ => .u32 fun _ => .ok _) (.ok _)

end ChannelRequest

inductive GlobalRequest where
  | tcpipForward (bindAddress : Str) (bindPort : UInt32)
  | cancelTcpipForward (bindAddress : Str) (bindPort : UInt32)
  | streamlocalForward (socketPath : Str)
  | cancelStreamlocalForward (socketPath : Str)
  | keepalive
  | other (name : Str) (raw : Bytes)
  | noMoreSessions
  deriving DecidableEq, Repr

namespace GlobalRequest

def name : GlobalRequest → Str
  | .tcpipForward .. => ascii "tcpip-forward"
  | .cancelTcpipForward .. => ascii "cancel-tcpip-forward"
  | .streamlocalForward .. => ascii "streamlocal-forward@openssh.com"
  | .cancelStreamlocalForward .. => ascii "cancel-streamlocal-forward@openssh.com"
  | .keepalive => ascii "keepalive@openssh.com"
  | .noMoreSessions => ascii "no-more-sessions@openssh.com"
  | .other name _ => name

def encode : GlobalRequest → Bytes
  | .tcpipForward bindAddress bindPort | .cancelTcpipForward bindAddress bindPort =>
    writeString bindAddress++be32 bindPort
  | .streamlocalForward socketPath | .cancelStreamlocalForward socketPath =>
    writeString socketPath
  | .keepalive | .noMoreSessions => []
  | .other _ raw => raw

def decode (name : Str) (body : Bytes) : Result GlobalRequest :=
  let text := readUtf8 "invalid utf-8 in global request"
  if name=ascii "tcpip-forward" then do
    let (bindAddress,r) ← text body
    let (bindPort,_) ← readU32 r
    return .tcpipForward bindAddress bindPort
  else if name=ascii "cancel-tcpip-forward" then do
    let (bindAddress,r) ← text body
    let (bindPort,_) ← readU32 r
    return .cancelTcpipForward bindAddress bindPort
  else if name=ascii "streamlocal-forward@openssh.com" then do
    let (socketPath,_) ← text body
    return .streamlocalForward socketPath
  else if name=ascii "cancel-streamlocal-forward@openssh.com" then do
    let (socketPath,_) ← text body
    return .cancelStreamlocalForward socketPath
  else if name=ascii "keepalive@openssh.com" then return .keepalive
  else if name=ascii "no-more-sessions@openssh.com" then return .noMoreSessions
  else return .other name body

theorem decode_malformed (name : Str) (body : Bytes) : Malformed (decode name body) := by
  refine .ite (.utf8 fun _ => .u32 fun _ => .ok _) (.ite (.utf8 fun _ => .u32 fun _ => .ok _) ?_)
  refine .ite (.utf8 fun _ => .ok _) (.ite (.utf8 fun _ => .ok _) ?_)
  exact .ite (.ok _) (.ite (.ok _) (.ok _))

end GlobalRequest

inductive ChannelOpen where
  | session
  | directTcpip (destHost : Str) (destPort : UInt32) (origHost : Str) (origPort : UInt32)
  | forwardedTcpip (destHost : Str) (destPort : UInt32) (origHost : Str) (origPort : UInt32)
  | directStreamlocal (socketPath : Str)
  | forwardedStreamlocal (socketPath : Str)
  | tun (mode unit : UInt32)
  | authAgent
  | x11 (origHost : Str) (origPort : UInt32)
  | other (kind : Str) (raw : Bytes)
  deriving DecidableEq, Repr

namespace ChannelOpen

def kind : ChannelOpen → Str
  | .session => ascii "session"
  | .directTcpip .. => ascii "direct-tcpip"
  | .forwardedTcpip .. => ascii "forwarded-tcpip"
  | .directStreamlocal .. => ascii "direct-streamlocal@openssh.com"
  | .forwardedStreamlocal .. => ascii "forwarded-streamlocal@openssh.com"
  | .tun .. => ascii "tun@openssh.com"
  | .authAgent => ascii "auth-agent@openssh.com"
  | .x11 .. => ascii "x11"
  | .other kind _ => kind

def encodeTail : ChannelOpen → Bytes
  | .session | .authAgent => []
  | .directTcpip destHost destPort origHost origPort
  | .forwardedTcpip destHost destPort origHost origPort =>
    writeString destHost++be32 destPort++writeString origHost++be32 origPort
  | .directStreamlocal socketPath => writeString socketPath++writeString []++be32 0
  | .forwardedStreamlocal socketPath => writeString socketPath++writeString []
  | .tun mode unit => be32 mode++be32 unit
  | .x11 origHost origPort => writeString origHost++be32 origPort
  | .other _ raw => raw

def decode (kind : Str) (body : Bytes) : Result ChannelOpen :=
  let text := readUtf8 "invalid utf-8"
  if kind=ascii "session" then return .session
  else if kind=ascii "direct-tcpip" then do
    let (destHost,r) ← text body
    let (destPort,r) ← readU32 r
    let (origHost,r) ← text r
    let (origPort,_) ← readU32 r
    return .directTcpip destHost destPort origHost origPort
  else if kind=ascii "forwarded-tcpip" then do
    let (destHost,r) ← text body
    let (destPort,r) ← readU32 r
    let (origHost,r) ← text r
    let (origPort,_) ← readU32 r
    return .forwardedTcpip destHost destPort origHost origPort
  else if kind=ascii "direct-streamlocal@openssh.com" then do
    let (socketPath,r) ← text body
    let (_,r) ← readString r
    let (_,_) ← readU32 r
    return .directStreamlocal socketPath
  else if kind=ascii "forwarded-streamlocal@openssh.com" then do
    let (socketPath,r) ← text body
    let (_,_) ← readString r
    return .forwardedStreamlocal socketPath
  else if kind=ascii "tun@openssh.com" then do
    let (mode,r) ← readU32 body
    let (unit,_) ← readU32 r
    return .tun mode unit
  else if kind=ascii "auth-agent@openssh.com" then return .authAgent
  else if kind=ascii "x11" then do
    let (origHost,r) ← text body
    let (origPort,_) ← readU32 r
    return .x11 origHost origPort
  else return .other kind body

theorem decode_malformed (kind : Str) (body : Bytes) : Malformed (decode kind body) := by
  refine .ite (.ok _) ?_
  refine .ite (.utf8 fun _ => .u32 fun _ => .utf8 fun _ => .u32 fun _ => .ok _) ?_
  refine .ite (.utf8 fun _ => .u32 fun _ => .utf8 fun _ => .u32 fun _ => .ok _) ?_
  refine .ite (.utf8 fun _ => .string fun _ => .u32 fun _ => .ok _) ?_
  refine .ite (.utf8 fun _ => .string fun _ => .ok _) ?_
  refine .ite (.u32 fun _ => .u32 fun _ => .ok _) (.ite (.ok _) ?_)
  exact .ite (.utf8 fun _ => .u32 fun _ => .ok _) (.ok _)

end ChannelOpen
end PureSsh.Channel
