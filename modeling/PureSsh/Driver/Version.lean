import PureSsh.Transport.Packet

/-! The identification string of the server, scanned out of what the transport delivers
(`driver/client.rs`, `hazmat/transport/version.rs`). -/

namespace PureSsh.Driver
open Lib Transport List Proc
variable {P : Primitives}

def maxInboxBytes : Nat := 8*1024*1024
def maxBannerLine : Nat := 1024
def maxBannerLines : Nat := 32
def maxBannerTotalBytes : Nat := 64*1024

def newline : UInt8 := 10

/- `line.strip_suffix(b"\r\n")`, else `line.strip_suffix(b"\n")`, else the line itself. -/
def trimEol (line : Bytes) : Bytes :=
  if [13,newline] <:+ line then line.take (line.length-2)
  else if [newline] <:+ line then line.take (line.length-1)
  else line

def parseRemote (line : Bytes) : Result Str :=
  if line.length>255 then .error (.protocol "version line exceeds 255 bytes")
  else
    let trimmed := trimEol line
    if ¬ascii "SSH-2.0-" <+: trimmed ∧ ¬ascii "SSH-1.99-" <+: trimmed then
      .error (.protocol "peer is not SSH 2.0")
    else if validUtf8 trimmed then .ok trimmed
    else .error (.protocol "non-ASCII in version string")

inductive Phase where
  | awaitingVersion | kex | postKex
  deriving DecidableEq, Repr

/- What `handle_input` reads and writes before the first packet. -/
structure ClientDriver (P : Primitives) where
  phase : Phase
  codec : PacketCodec P
  inbox : Bytes
  vS : Bytes
  bannerLines : Nat
  bannerTotal : Nat

/- The bytes up to and with the first newline, and the rest. -/
def takeLine : Bytes → Option (Bytes × Bytes)
  | [] => none
  | b::rest =>
    if b=newline then some ([b],rest)
    else (takeLine rest).map fun x => (b::x.1,x.2)

namespace ClientDriver

def new : ClientDriver P where
  phase := .awaitingVersion
  codec := PacketCodec.new
  inbox := []
  vS := []
  bannerLines := 0
  bannerTotal := 0

/- The loop of `scan_peer_version` after a line was drained; `none` goes round again. -/
def scanLine (line : Bytes) : Proc Error (ClientDriver P) (Option Bool) := do
  let d ← get
  if d.bannerTotal>maxBannerTotalBytes then fail (.protocol "banner too large")
  else if ascii "SSH-" <+: line then
    let parsed ← lift (parseRemote line)
    set { d with vS := parsed, phase := .kex }
    return some true
  else
    set { d with bannerLines := d.bannerLines+1 }
    if d.bannerLines+1>maxBannerLines then fail (.protocol "peer banner too long")
    else return none

def scanTurn : Proc Error (ClientDriver P) (Option Bool) := do
  let d ← get
  match takeLine d.inbox with
  | none =>
    if d.inbox.length>maxBannerLine then fail (.protocol "banner line too long")
    else return some false
  | some (line,rest) =>
    set { d with inbox := rest, bannerTotal := addBytes d.bannerTotal line.length }
    scanLine line

def scanLoop : Nat → Proc Error (ClientDriver P) Bool
  | 0 => fail .hang
  | fuel+1 => do
    match ← scanTurn with
    | some ready => return ready
    | none => scanLoop fuel

/- Every turn that goes round again has taken at least a newline out of the inbox. -/
def scanPeerVersion : Proc Error (ClientDriver P) Bool := do
  let d ← get
  scanLoop (d.inbox.length+1)

/- The packets behind the offset `off`: the offset reached and how the loop ended. `route` is
   `route_packet`. -/
def packetLoop (route : Bytes → Proc Error (ClientDriver P) Unit) :
    Nat → Nat → Proc Error (ClientDriver P) (Nat × Result Unit)
  | 0, off => pure (off,.error .hang)
  | fuel+1, off => fun d =>
    match PacketCodec.decode (d.inbox.drop off) d.codec with
    | (.ok none,codec) => (.ok (off,.ok ()),{ d with codec })
    | (.error e,codec) => (.ok (off,.error e),{ d with codec })
    | (.ok (some (payload,consumed)),codec) =>
      match route payload { d with codec } with
      | (.ok _,d) => packetLoop route fuel (off+consumed) d
      | (.error e,d) => (.ok (off+consumed,.error e),d)

def handlePackets (route : Bytes → Proc Error (ClientDriver P) Unit) :
    Proc Error (ClientDriver P) Unit := do
  let d ← get
  let res ← packetLoop route (d.inbox.length+1) 0
  modify fun d => { d with inbox := d.inbox.drop res.1 }
  lift res.2

def awaitVersion : Proc Error (ClientDriver P) Bool := do
  let d ← get
  if d.phase = .awaitingVersion then scanPeerVersion else return true

def handleInput (route : Bytes → Proc Error (ClientDriver P) Unit) (bytes : Bytes) :
    Proc Error (ClientDriver P) Unit := do
  modify fun d => { d with inbox := d.inbox++bytes }
  let d ← get
  if d.inbox.length>maxInboxBytes then fail (.protocol "inbound buffer too large")
  else
    let ready ← awaitVersion
    if ready then handlePackets route else return ()

/- How a connection stands after some reads: `none` after an error, otherwise the version taken
   from the server, which is empty as long as none was. -/
def outcomeFrom (route : Bytes → Proc Error (ClientDriver P) Unit) (d : ClientDriver P)
    (chunks : List Bytes) : Option Bytes :=
  match runAll (handleInput route) chunks d with
  | (.ok _,d) => some d.vS
  | (.error _,_) => none

def outcome (route : Bytes → Proc Error (ClientDriver P) Unit) (chunks : List Bytes) :
    Option Bytes :=
  outcomeFrom route new chunks

end ClientDriver

/- What a server sends before its first packet: some lines, then the one that begins with
   `SSH-`. The newlines are not part of the lines. -/
structure Preamble where
  banner : List Bytes
  version : Bytes
  banner_line : ∀ l∈banner, newline∉l ∧ ¬ascii "SSH-" <+: l
  version_line : newline∉version
  version_ssh : ascii "SSH-" <+: version

def streamOf (banner : List Bytes) (version : Bytes) : Bytes :=
  banner.flatMap (· ++ [newline])++(version++[newline])

def Preamble.stream (p : Preamble) : Bytes := streamOf p.banner p.version

/- The limits on the whole of the preamble, applied line by line after `total` bytes and `count`
   lines. -/
def verdict (total count : Nat) : List Bytes → Bytes → Option Bytes
  | [], version =>
    if total+(version.length+1)>maxBannerTotalBytes then none
    else (parseRemote (version++[newline])).toOption
  | l::banner, version =>
    if total+(l.length+1)>maxBannerTotalBytes then none
    else if count+1>maxBannerLines then none
    else verdict (total+(l.length+1)) (count+1) banner version

/- The version lines that `parse_remote` takes. -/
def Recognized (version : Bytes) : Prop :=
  let trimmed := trimEol (version++[newline])
  version.length<255 ∧ (ascii "SSH-2.0-" <+: trimmed ∨ ascii "SSH-1.99-" <+: trimmed) ∧
    validUtf8 trimmed=true

section Lines

variable {i l : Bytes}

theorem takeLine_none (h : newline∉i) : takeLine i=none := by
  induction i with
  | nil => rfl
  | cons b i ih =>
    obtain ⟨hb,hi⟩ := not_or.1 (mt mem_cons.2 h)
    rw [takeLine,if_neg (Ne.symm hb),ih hi]
    rfl

theorem takeLine_line (h : newline∉l) (rest : Bytes) :
    takeLine (l++newline::rest)=some (l++[newline],rest) := by
  induction l with
  | nil => rfl
  | cons b l ih =>
    obtain ⟨hb,hl⟩ := not_or.1 (mt mem_cons.2 h)
    rw [cons_append,takeLine,if_neg (Ne.symm hb),ih hl]
    rfl

theorem ssh_prefix_line (h : ¬ascii "SSH-" <+: l) : ¬ascii "SSH-" <+: l++[newline] := by
  intro hpre
  rcases prefix_concat_iff.1 hpre with heq | hl
  · have hlast := congrArg getLast? heq
    rw [getLast?_concat] at hlast
    exact absurd hlast (by decide)
  · exact h hl

theorem streamOf_cons (l : Bytes) (banner : List Bytes) (version : Bytes) :
    streamOf (l::banner) version=l++newline::streamOf banner version := by
  simp [streamOf]

theorem newline_mem_streamOf (banner : List Bytes) (version : Bytes) :
    newline∈streamOf banner version := by
  simp [streamOf]

/-- A front of the preamble ends inside its first line or goes beyond it. -/
theorem front_cases {rest : Bytes} (h : i <+: l++newline::rest) :
    i <+: l ∨ ∃ i', i=l++newline::i' ∧ i' <+: rest := by
  rcases prefix_or_prefix_of_prefix h (prefix_append l _) with hl | ⟨i',rfl⟩
  · exact .inl hl
  · have hi' := (prefix_append_right_inj l).1 h
    cases i' with
    | nil =>
      rw [append_nil]
      exact .inl (prefix_refl l)
    | cons b i' =>
      obtain ⟨rfl,hrest⟩ := cons_prefix_cons.1 hi'
      exact .inr ⟨i',rfl,hrest⟩

/-- The scan takes the preambles within the limits whose version line `parse_remote` takes. -/
theorem verdict_ne_none_iff {total count : Nat} {banner : List Bytes} {version : Bytes} :
    verdict total count banner version≠none ↔
      total+(streamOf banner version).length≤ maxBannerTotalBytes ∧
        (banner=[] ∨ count+banner.length≤ maxBannerLines) ∧ Recognized version := by
  induction banner generalizing total count with
  | nil =>
    have hparse : (parseRemote (version++[newline])).toOption≠none ↔ Recognized version := by
      simp only [parseRemote,Recognized,length_append,length_singleton]
      split
      · simp [Except.toOption]
        omega
      · have hlen : version.length<255 := by omega
        split
        · simp_all [Except.toOption]
        · split <;> simp_all [Except.toOption,or_iff_not_imp_left]
    rw [verdict]
    split
    · next hlong => simpa [streamOf] using fun h => absurd h (Nat.not_le.2 hlong)
    · next hshort => simpa [streamOf,hparse] using fun _ => Nat.not_lt.1 hshort
  | cons l banner ih =>
    have hlen : (streamOf (l::banner) version).length=
        l.length+1+(streamOf banner version).length := by
      rw [streamOf_cons,length_append,length_cons]
      omega
    rw [verdict,hlen,length_cons]
    split
    · simp
      omega
    split
    · simp
      omega
    · rw [ih]
      have hlines : (banner=[] ∨ count+1+banner.length≤ maxBannerLines) ↔
          l::banner=[] ∨ count+(banner.length+1)≤ maxBannerLines := by
        cases banner <;> simp <;> omega
      rw [hlines,Nat.add_assoc]

end Lines

namespace ClientDriver

/- A driver that still waits for the version, and one that has it. -/
def waiting (total count : Nat) (inbox : Bytes) : ClientDriver P :=
  { new with inbox, bannerTotal := total, bannerLines := count }

def versioned (total count : Nat) (version : Bytes) : ClientDriver P :=
  { new with phase := .kex, vS := version, bannerTotal := total, bannerLines := count }

section Scan
variable {total count fuel : Nat} {i l version : Bytes} {banner : List Bytes}

theorem addBytes_gt (a b : Nat) : addBytes a b>maxBannerTotalBytes ↔ a+b>maxBannerTotalBytes := by
  rw [addBytes,maxBannerTotalBytes]
  omega

theorem addBytes_of_le {a b : Nat} (h : ¬a+b>maxBannerTotalBytes) : addBytes a b=a+b := by
  rw [maxBannerTotalBytes] at h
  rw [addBytes]
  omega

theorem scanTurn_unfinished (h : newline∉i) (total count : Nat) :
    scanTurn (waiting total count i : ClientDriver P) =
      (if i.length>maxBannerLine then fail (.protocol "banner line too long")
        else pure (some false)) (waiting total count i) := by
  have hline : takeLine (waiting total count i : ClientDriver P).inbox=none := takeLine_none h
  rw [scanTurn,get_bind,hline]
  rfl

theorem scanLoop_short (h : newline∉i) (hlen : i.length≤ maxBannerLine) :
    scanLoop (fuel+1) (waiting total count i : ClientDriver P) =
      (.ok false,waiting total count i) := by
  have hturn : scanTurn (waiting total count i : ClientDriver P) =
      (.ok (some false),waiting total count i) := by
    rw [scanTurn_unfinished h,if_neg (Nat.not_lt.2 hlen)]
    rfl
  exact bind_of_ok hturn _

theorem scanTurn_line (h : newline∉l) (total count : Nat) (rest : Bytes) :
    scanTurn (waiting total count (l++newline::rest) : ClientDriver P) =
      scanLine (l++[newline]) (waiting (addBytes total (l.length+1)) count rest) := by
  have hline : takeLine (waiting total count (l++newline::rest) : ClientDriver P).inbox =
      some (l++[newline],rest) := takeLine_line h rest
  rw [scanTurn,get_bind,hline]
  dsimp only
  rw [length_append]
  rfl

variable {line rest : Bytes}

theorem scanLine_full (h : total>maxBannerTotalBytes) :
    scanLine line (waiting total count rest : ClientDriver P) =
      (.error (.protocol "banner too large"),waiting total count rest) := by
  rw [scanLine,get_bind,
    if_pos (show (waiting total count rest : ClientDriver P).bannerTotal>_ from h)]
  rfl

theorem scanLine_banner (h : ¬total>maxBannerTotalBytes) (hssh : ¬ascii "SSH-" <+: line) :
    scanLine line (waiting total count rest : ClientDriver P) =
      (if count+1>maxBannerLines then fail (.protocol "peer banner too long")
        else pure none) (waiting total (count+1) rest) := by
  rw [scanLine,get_bind,
    if_neg (show ¬(waiting total count rest : ClientDriver P).bannerTotal>_ from h),if_neg hssh]
  rfl

theorem scanLine_version (h : ¬total>maxBannerTotalBytes) (hssh : ascii "SSH-" <+: line) :
    scanLine line (waiting total count rest : ClientDriver P) =
      (lift (parseRemote line) >>= fun parsed =>
        set { waiting total count rest with vS := parsed, phase := .kex } >>= fun _ =>
          pure (some true)) (waiting total count rest) := by
  rw [scanLine,get_bind,
    if_neg (show ¬(waiting total count rest : ClientDriver P).bannerTotal>_ from h),if_pos hssh]

theorem scanLoop_of_error {d d' : ClientDriver P} {e : Error} (h : scanTurn d=(.error e,d')) :
    ∃ e d', scanLoop (fuel+1) d=(.error e,d') :=
  ⟨e,d',bind_of_error h _⟩

theorem scanLoop_long (h : newline∉i) (hlen : maxBannerLine< i.length) :
    ∃ e d, scanLoop (fuel+1) (waiting total count i : ClientDriver P)=(.error e,d) := by
  have hturn := scanTurn_unfinished (P := P) h total count
  rw [if_pos hlen] at hturn
  exact scanLoop_of_error hturn

/-- A line of the banner ends the scan with an error when it breaks a limit, and otherwise is
counted. -/
theorem scanLoop_line (h : newline∉l) (hssh : ¬ascii "SSH-" <+: l) (rest : Bytes)
    (banner : List Bytes) (version : Bytes) :
    (verdict total count (l::banner) version=none ∧ ∃ e d,
      scanLoop (fuel+1) (waiting total count (l++newline::rest) : ClientDriver P) =
        (.error e,d)) ∨ (verdict total count (l::banner) version =
        verdict (total+(l.length+1)) (count+1) banner version ∧
      scanLoop (fuel+1) (waiting total count (l++newline::rest) : ClientDriver P) =
        scanLoop fuel (waiting (total+(l.length+1)) (count+1) rest)) := by
  have hturn := scanTurn_line (P := P) h total count rest
  rw [verdict]
  by_cases htotal : total+(l.length+1)>maxBannerTotalBytes
  · rw [if_pos htotal]
    rw [scanLine_full ((addBytes_gt total (l.length+1)).2 htotal)] at hturn
    exact .inl ⟨rfl,scanLoop_of_error hturn⟩
  rw [addBytes_of_le htotal,scanLine_banner htotal (ssh_prefix_line hssh)] at hturn
  rw [if_neg htotal]
  by_cases hcount : count+1>maxBannerLines
  · rw [if_pos hcount]
    rw [if_pos hcount] at hturn
    exact .inl ⟨rfl,scanLoop_of_error hturn⟩
  · rw [if_neg hcount]
    rw [if_neg hcount] at hturn
    exact .inr ⟨rfl,bind_of_ok hturn _⟩

theorem scanLoop_version (h : newline∉version) (hssh : ascii "SSH-" <+: version) (rest : Bytes) :
    (verdict total count [] version=none ∧ ∃ e d,
      scanLoop (fuel+1) (waiting total count (version++newline::rest) : ClientDriver P) =
        (.error e,d)) ∨ ∃ w, verdict total count [] version=some w ∧
      scanLoop (fuel+1) (waiting total count (version++newline::rest) : ClientDriver P) =
        (.ok true,{ versioned (total+(version.length+1)) count w with inbox := rest }) := by
  have hturn := scanTurn_line (P := P) h total count rest
  rw [verdict]
  by_cases htotal : total+(version.length+1)>maxBannerTotalBytes
  · rw [if_pos htotal]
    rw [scanLine_full ((addBytes_gt total (version.length+1)).2 htotal)] at hturn
    exact .inl ⟨rfl,scanLoop_of_error hturn⟩
  rw [addBytes_of_le htotal,scanLine_version htotal (hssh.trans (prefix_append _ _))] at hturn
  rw [if_neg htotal]
  cases hparse : parseRemote (version++[newline]) with
  | error e =>
    rw [hparse] at hturn
    exact .inl ⟨rfl,scanLoop_of_error hturn⟩
  | ok w =>
    rw [hparse] at hturn
    exact .inr ⟨w,rfl,bind_of_ok hturn _⟩

theorem verdict_of_long (h : maxBannerLine<version.length) :
    verdict total count [] version=none := by
  rw [maxBannerLine] at h
  rw [verdict]
  split
  · rfl
  · rw [parseRemote,if_pos]
    · rfl
    · rw [length_append]
      exact Nat.lt_of_lt_of_le (by omega) (Nat.le_add_right _ _)

/- What scanning the front `i` of a preamble comes to: an error that a limit or an unfinished long
   line explains; the complete lines taken and the rest of the front kept; or the version. -/
inductive FrontScan (total count : Nat) (banner : List Bytes) (version i : Bytes) :
    Except Error Bool × ClientDriver P → Prop
  | failed (e : Error) (d : ClientDriver P)
      (why : verdict total count banner version=none ∨
        i≠streamOf banner version ∧ ∃ l∈banner, maxBannerLine<l.length) :
      FrontScan total count banner version i (.error e,d)
  | more (total' count' : Nat) (taken i' : Bytes) (banner' : List Bytes)
      (front : i=taken++i') (unfinished : newline∉i')
      (stream : streamOf banner version=taken++streamOf banner' version)
      (lines : ∀ l∈banner', l∈banner)
      (same : verdict total count banner version=verdict total' count' banner' version) :
      FrontScan total count banner version i (.ok false,waiting total' count' i')
  | done (total' count' : Nat) (w : Bytes) (whole : i=streamOf banner version)
      (accepted : verdict total count banner version=some w) :
      FrontScan total count banner version i (.ok true,versioned total' count' w)

theorem FrontScan.unfinished_line (h : newline∉i)
    (hlong : maxBannerLine< i.length → verdict total count banner version=none ∨
      ∃ l∈banner, maxBannerLine<l.length) : FrontScan total count banner version i
      (scanLoop (fuel+1) (waiting total count i : ClientDriver P)) := by
  by_cases hlen : maxBannerLine< i.length
  · obtain ⟨e,d,heq⟩ := scanLoop_long (P := P) h hlen
    rw [heq]
    have hne : i≠streamOf banner version := by
      rintro rfl
      exact h (newline_mem_streamOf banner version)
    exact .failed e d ((hlong hlen).imp_right (And.intro hne))
  · rw [scanLoop_short h (Nat.not_lt.1 hlen)]
    exact .more total count [] i banner rfl h rfl (fun _ hl => hl) rfl

/- A line that was taken stands in front of everything that follows. -/
theorem FrontScan.after_line {total' count' : Nat} {r : Except Error Bool × ClientDriver P}
    (h : FrontScan total' count' banner version i r)
    (hsame : verdict total count (l::banner) version=verdict total' count' banner version) :
    FrontScan total count (l::banner) version (l++newline::i) r := by
  have hstream := streamOf_cons l banner version
  cases h with
  | failed e d why =>
    rw [← hsame] at why
    refine .failed e d (why.imp_right ?_)
    rintro ⟨hne,x,hx,hlong⟩
    refine ⟨?_,x,mem_cons_of_mem l hx,hlong⟩
    rw [hstream]
    intro heq
    exact hne (cons.inj (append_cancel_left heq)).2
  | more total'' count'' taken i' banner' front unfinished stream lines same =>
    refine .more total'' count'' (l++newline::taken) i' banner' ?_ unfinished ?_ ?_
      (hsame.trans same)
    · rw [front,append_assoc,cons_append]
    · rw [hstream,stream,append_assoc,cons_append]
    · intro x hx
      exact mem_cons_of_mem l (lines x hx)
  | done total'' count'' w whole accepted =>
    refine .done total'' count'' w ?_ (hsame.trans accepted)
    rw [hstream,whole]

theorem scan_front (hbanner : ∀ l∈banner, newline∉l ∧ ¬ascii "SSH-" <+: l)
    (hversion : newline∉version) (hssh : ascii "SSH-" <+: version)
    (hi : i <+: streamOf banner version) (hfuel : i.length<fuel) (total count : Nat) :
    FrontScan total count banner version i
      (scanLoop fuel (waiting total count i : ClientDriver P)) := by
  induction banner generalizing total count i fuel with
  | nil =>
    obtain ⟨fuel,rfl⟩ := Nat.exists_eq_add_one.2 (Nat.lt_of_le_of_lt (Nat.zero_le _) hfuel)
    rcases prefix_concat_iff.1 hi with rfl | hpre
    · rcases scanLoop_version (P := P) hversion hssh [] with ⟨hnone,e,d,heq⟩ | ⟨w,hsome,heq⟩
      · rw [heq]
        exact .failed e d (.inl hnone)
      · rw [heq]
        exact .done _ _ w rfl hsome
    · refine .unfinished_line (fun hmem => hversion (hpre.subset hmem)) fun hlen => .inl ?_
      exact verdict_of_long (Nat.lt_of_lt_of_le hlen hpre.length_le)
  | cons l banner ih =>
    obtain ⟨fuel,rfl⟩ := Nat.exists_eq_add_one.2 (Nat.lt_of_le_of_lt (Nat.zero_le _) hfuel)
    obtain ⟨⟨hl,hnssh⟩,hrest⟩ := forall_mem_cons.1 hbanner
    rw [streamOf_cons] at hi
    rcases front_cases hi with hpart | ⟨i',rfl,hi'⟩
    · refine .unfinished_line (fun hmem => hl (hpart.subset hmem)) fun hlen => .inr ?_
      exact ⟨l,mem_cons_self,Nat.lt_of_lt_of_le hlen hpart.length_le⟩
    · rw [length_append,length_cons] at hfuel
      rcases scanLoop_line (P := P) hl hnssh i' banner version with ⟨hnone,e,d,heq⟩ | ⟨hsame,heq⟩
      · rw [heq]
        exact .failed e d (.inl hnone)
      · rw [heq]
        exact (ih hrest hi' (by omega) _ _).after_line hsame

/-- A long line that has not ended yet fails, whatever comes before it. -/
theorem scan_long (hbanner : ∀ l∈banner, newline∉l ∧ ¬ascii "SSH-" <+: l)
    (hl : newline∉l) (hlong : maxBannerLine<l.length)
    (hfuel : (banner.flatMap (· ++ [newline])++l).length<fuel) (total count : Nat) :
    ∃ e d, scanLoop fuel
      (waiting total count (banner.flatMap (· ++ [newline])++l) : ClientDriver P) =
        (.error e,d) := by
  induction banner generalizing total count fuel with
  | nil =>
    obtain ⟨fuel,rfl⟩ := Nat.exists_eq_add_one.2 (Nat.lt_of_le_of_lt (Nat.zero_le _) hfuel)
    exact scanLoop_long hl hlong
  | cons x banner ih =>
    obtain ⟨fuel,rfl⟩ := Nat.exists_eq_add_one.2 (Nat.lt_of_le_of_lt (Nat.zero_le _) hfuel)
    obtain ⟨⟨hx,hnssh⟩,hrest⟩ := forall_mem_cons.1 hbanner
    have hcons : (x::banner).flatMap (· ++ [newline])++l =
        x++newline::(banner.flatMap (· ++ [newline])++l) := by simp
    rw [hcons,length_append,length_cons] at hfuel
    rw [hcons]
    rcases scanLoop_line (P := P) hx hnssh (banner.flatMap (· ++ [newline])++l) [] [] with
      ⟨-,hfail⟩ | ⟨-,heq⟩
    · exact hfail
    · rw [heq]
      exact ih hrest (by omega) _ _

end Scan

section Input
variable {route : Bytes → Proc Error (ClientDriver P) Unit} {total count : Nat}
  {i chunk : Bytes} {chunks : List Bytes}

theorem outcomeFrom_cons (d : ClientDriver P) (chunk : Bytes) (chunks : List Bytes) :
    outcomeFrom route d (chunk::chunks)=match handleInput route chunk d with
      | (.ok _,d') => outcomeFrom route d' chunks
      | (.error _,_) => none := by
  rw [outcomeFrom,runAll,bind_apply]
  rcases handleInput route chunk d with ⟨_ | _,_⟩ <;> rfl

theorem handleInput_waiting (route : Bytes → Proc Error (ClientDriver P) Unit)
    (total count : Nat) (i chunk : Bytes) : handleInput route chunk (waiting total count i) =
      if (i++chunk).length>maxInboxBytes then
        (.error (.protocol "inbound buffer too large"),waiting total count (i++chunk))
      else (scanLoop ((i++chunk).length+1) >>= fun ready =>
        if ready then handlePackets route else pure ()) (waiting total count (i++chunk)) := by
  exact (Proc.ite_apply _ _ _).trans rfl

theorem outcomeFrom_versioned (w : Bytes) (h : chunks.flatten=[]) :
    outcomeFrom route (versioned total count w : ClientDriver P) chunks=some w := by
  induction chunks with
  | nil => rfl
  | cons chunk chunks ih =>
    obtain ⟨rfl,hrest⟩ := append_eq_nil_iff.1 h
    exact ih hrest

variable {banner : List Bytes} {version : Bytes}

/-- A read that overfills the inbox belongs to a preamble that the limits refuse. -/
theorem verdict_of_overfull (hstream : i++chunk++chunks.flatten=streamOf banner version)
    (hlen : (i++chunk).length>maxInboxBytes) : verdict total count banner version=none := by
  by_contra hv
  have hle := (verdict_ne_none_iff.1 hv).1
  rw [← hstream,length_append,maxBannerTotalBytes] at hle
  rw [maxInboxBytes] at hlen
  omega

section
variable (hbanner : ∀ l∈banner, newline∉l ∧ ¬ascii "SSH-" <+: l)
include hbanner

/-- Whatever the reads, the scan comes to the verdict of the limits, or it fails on a long line that
came in more than one. -/
theorem outcomeFrom_waiting
    (hversion : newline∉version) (hssh : ascii "SSH-" <+: version) (hi : newline∉i)
    (hstream : i++chunks.flatten=streamOf banner version) :
    outcomeFrom route (waiting total count i : ClientDriver P) chunks =
        verdict total count banner version ∨
      outcomeFrom route (waiting total count i : ClientDriver P) chunks=none ∧
        1<chunks.length ∧ ∃ l∈banner, maxBannerLine<l.length := by
  induction chunks generalizing total count i banner with
  | nil =>
    rw [flatten_nil,append_nil] at hstream
    rw [hstream] at hi
    exact absurd (newline_mem_streamOf banner version) hi
  | cons chunk chunks ih =>
    rw [flatten_cons,← append_assoc] at hstream
    rw [outcomeFrom_cons,handleInput_waiting]
    by_cases hlen : (i++chunk).length>maxInboxBytes
    · rw [if_pos hlen,verdict_of_overfull hstream hlen]
      exact .inl rfl
    have hscan := scan_front (P := P) hbanner hversion hssh ⟨chunks.flatten,hstream⟩
      (Nat.lt_succ_self (i++chunk).length) total count
    rw [if_neg hlen,bind_apply]
    generalize scanLoop ((i++chunk).length+1)
      (waiting total count (i++chunk) : ClientDriver P)=r at hscan ⊢
    cases hscan with
    | failed e d why =>
      rcases why with hnone | ⟨hne,hlong⟩
      · exact .inl hnone.symm
      · refine .inr ⟨rfl,?_,hlong⟩
        have hrest : chunks≠[] := by
          rintro rfl
          exact hne ((append_nil _).symm.trans hstream)
        simpa using length_pos_iff.2 hrest
    | more total' count' taken i' banner' front unfinished stream lines same =>
      rw [front,stream,append_assoc] at hstream
      rw [same]
      rcases ih (fun l hl => hbanner l (lines l hl)) unfinished (append_cancel_left hstream)
        with hverdict | ⟨hnone,hlen,l,hl,hlong⟩
      · exact .inl hverdict
      · exact .inr ⟨hnone,Nat.lt_succ_of_lt hlen,l,lines l hl,hlong⟩
    | done total' count' w whole accepted =>
      rw [whole] at hstream
      rw [accepted]
      exact .inl (outcomeFrom_versioned w (append_right_eq_self.1 hstream))

/-- A preamble that arrives in one read comes to the verdict of the limits. -/
theorem outcomeFrom_whole (hversion : newline∉version) (hssh : ascii "SSH-" <+: version) :
    outcomeFrom route (waiting total count [] : ClientDriver P) [streamOf banner version] =
      verdict total count banner version := by
  refine (outcomeFrom_waiting hbanner hversion hssh not_mem_nil ?_).resolve_right ?_
  · simp
  · exact fun h => absurd h.2.1 (Nat.lt_irrefl 1)

/-- A read that ends inside a long line fails. -/
theorem outcomeFrom_long
    {l : Bytes} (hl : newline∉l) (hlong : maxBannerLine<l.length) (chunks : List Bytes) :
    outcomeFrom route (waiting total count [] : ClientDriver P)
      ((banner.flatMap (· ++ [newline])++l)::chunks)=none := by
  rw [outcomeFrom_cons,handleInput_waiting,nil_append]
  split
  · next heq =>
    split at heq
    · cases heq
    · obtain ⟨e,d,hscan⟩ := scan_long (P := P) hbanner hl hlong (Nat.lt_succ_self _) total count
      rw [bind_of_error hscan] at heq
      cases heq
  · rfl

end

end Input

/-- How the reads fall makes no difference exactly when the preamble is beyond the other limits, or
has no line above the limit for one that has not ended. -/
theorem splits_agree_iff (route : Bytes → Proc Error (ClientDriver P) Unit) (p : Preamble) :
    (∀ chunks : List Bytes, chunks.flatten=p.stream →
      outcome route chunks=outcome route [p.stream]) ↔
    ¬(p.stream.length≤ maxBannerTotalBytes ∧ p.banner.length≤ maxBannerLines ∧
      Recognized p.version) ∨ ∀ l∈p.banner, l.length≤ maxBannerLine := by
  have hwhole : outcome route [p.stream]=verdict 0 0 p.banner p.version :=
    outcomeFrom_whole p.banner_line p.version_line p.version_ssh
  have hlimits : ¬(p.stream.length≤ maxBannerTotalBytes ∧ p.banner.length≤ maxBannerLines ∧
      Recognized p.version) ↔ outcome route [p.stream]=none := by
    have hlines : p.banner=[] ∨ 0+p.banner.length≤ maxBannerLines ↔
        p.banner.length≤ maxBannerLines := by
      cases p.banner <;> simp
    rw [hwhole,← not_ne_iff,verdict_ne_none_iff,hlines,Nat.zero_add]
    rfl
  rw [hlimits]
  constructor
  · intro hsame
    by_contra hboth
    push Not at hboth
    obtain ⟨haccepted,l,hl,hlong⟩ := hboth
    obtain ⟨before,after,hsplit⟩ := append_of_mem hl
    have hbefore : ∀ x∈before, newline∉x ∧ ¬ascii "SSH-" <+: x := by
      intro x hx
      exact p.banner_line x (hsplit ▸ mem_append_left _ hx)
    -- the newline of the long line comes in a second read
    have hnone : outcome route ((before.flatMap (· ++ [newline])++l) ::
        [newline::streamOf after p.version])=none :=
      outcomeFrom_long hbefore (p.banner_line l hl).1 hlong _
    refine haccepted ((hsame _ ?_).symm.trans hnone)
    rw [Preamble.stream,hsplit]
    simp [streamOf]
  · intro hcond chunks hchunks
    rw [hwhole]
    have houtcome : outcome route chunks=verdict 0 0 p.banner p.version ∨
        outcome route chunks=none ∧ 1<chunks.length ∧ ∃ l∈p.banner, maxBannerLine<l.length :=
      outcomeFrom_waiting p.banner_line p.version_line p.version_ssh not_mem_nil hchunks
    rcases houtcome with hverdict | ⟨hnone,-,l,hl,hlong⟩
    · exact hverdict
    · rcases hcond with hrefused | hshort
      · exact hnone.trans (hwhole ▸ hrefused).symm
      · exact absurd hlong (Nat.not_lt.2 (hshort l hl))

/- One banner line of 1100 bytes, then the version. -/
def longBanner : Bytes := replicate 1100 120

def longPreamble : Preamble where
  banner := [longBanner]
  version := ascii "SSH-2.0-OpenSSH_9.7"
  banner_line := by
    intro l hl
    rw [mem_singleton.1 hl]
    exact ⟨by decide +kernel,by decide +kernel⟩
  version_line := by decide +kernel
  version_ssh := by decide +kernel

/-- The same bytes are accepted in one read and refused when the newline of the banner comes
later. -/
theorem newline_in_another_read :
    [longBanner,newline::ascii "SSH-2.0-OpenSSH_9.7\n"].flatten=longPreamble.stream ∧
    outcome (P := Primitives.null) (fun _ => pure ()) [longPreamble.stream] =
      some (ascii "SSH-2.0-OpenSSH_9.7") ∧
    outcome (P := Primitives.null) (fun _ => pure ())
      [longBanner,newline::ascii "SSH-2.0-OpenSSH_9.7\n"]=none := by
  refine ⟨by decide +kernel,by decide +kernel,by decide +kernel⟩

end ClientDriver
end PureSsh.Driver
