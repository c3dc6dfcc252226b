import PureSsh.Lib.Assoc
import PureSsh.Lib.Pieces
import PureSsh.Sftp.Download

/-! What the loop of a pipelined download keeps. The ranges asked for and received are pieces of what
lies before `next`, and no id is given out again while it is in use. -/

namespace PureSsh.Sftp
open Lib Scp List Proc

section Ids
variable {id n m : Nat}

theorem iterate_idAfter (hpos : 1≤ id) (hlt : id<2^32) (n : Nat) :
    idAfter^[n] id=1+(id-1+n)%(2^32-1) := by
  induction n with
  | zero =>
    rw [Function.iterate_zero,id_eq]
    omega
  | succ n ih =>
    rw [Function.iterate_succ_apply',idAfter]
    omega

theorem iterate_idAfter_ne (hpos : 1≤ id) (hlt : id<2^32) (hn : n< m) (hm : m<n+(2^32-1)) :
    idAfter^[n] id≠idAfter^[m] id := by
  rw [iterate_idAfter hpos hlt,iterate_idAfter hpos hlt]
  omega

end Ids

def Read.piece (r : Read) : Piece := ⟨r.off,r.len⟩

def piecesOf (received : List (Nat × Bytes)) : List Piece := received.map fun e => ⟨e.1,e.2.length⟩

def Pull.pieces (s : Pull) : List Piece := s.outstanding.map Read.piece++piecesOf s.received

/- The bytes that have come in ahead of their turn. -/
def Pull.buffered (s : Pull) : Nat := total (piecesOf s.received)

/- How many more requests the ranges asked for can lead to. -/
def room (rs : List Read) : Nat := (rs.map fun r => r.len-1).sum

/- How `r` was numbered. Since it was sent, at most one request was sent for each byte in the window. -/
def Serial (job : Job) (s : Pull) (r : Read) : Prop :=
  ∃ n<s.sent.length, r.id=idAfter^[n] job.firstId ∧
    s.sent.length+room s.outstanding+r.off≤n+s.next+job.span

structure Accounts (job : Job) (answered : List Read) (s : Pull) : Prop where
  ledger : s.sent.Perm (answered++s.outstanding)
  numbered : s.nextId=idAfter^[s.sent.length] job.firstId
  serial : ∀ r∈s.outstanding, Serial job s r
  ids : (s.outstanding.map Read.id).Nodup

/- The byte at `x` is one of some data that `P` allows. -/
def From (P : Nat → Bytes → Prop) (x : Nat) (b : UInt8) : Prop :=
  ∃ off bytes, P off bytes ∧ off≤x ∧ bytes[x-off]?=some b

structure Traced (job : Job) (P : Nat → Bytes → Prop) (s : Pull) : Prop where
  received : ∀ e∈s.received, P e.1 e.2
  sink : ∀ i b, s.sink[i]?=some b → From P (job.offset+i) b

/-- The state between two replies. Up to `limit`, nothing that was asked for is lost. -/
structure Sound (job : Job) (limit : Nat) (P : Nat → Bytes → Prop) (answered : List Read) (s : Pull) :
    Prop where
  tiled : Tiled s.written s.next limit s.pieces
  near : s.next<s.written+job.span
  small : s.next<2^64
  count : s.outstanding.length≤job.ahead
  accounts : Accounts job answered s
  spent : answered.length+total (s.outstanding.map Read.piece)+job.offset≤ s.next
  eofPast : ∀ e∈s.eof, limit≤e
  position : s.written=job.offset+s.sink.length
  traced : Traced job P s

/-- What is left of it when the download has failed, after `n` replies. -/
structure Bounded (job : Job) (P : Nat → Bytes → Prop) (n : Nat) (s : Pull) : Prop where
  count : s.outstanding.length≤job.ahead
  sent : s.sent.length≤n+job.ahead
  buffered : s.buffered≤job.span
  traced : Traced job P s

section Facts
variable {job : Job} {limit : Nat} {P : Nat → Bytes → Prop} {answered : List Read} {s s' : Pull} {r : Read}

theorem Job.size_pos (job : Job) : 0<job.size := Nat.lt_of_lt_of_le Nat.zero_lt_one (le_max_right _ _)

theorem Job.span_eq (job : Job) : job.span=job.ahead*job.size+job.size := Nat.succ_mul _ _

variable {a b : Nat} {rs : List Read}

theorem add64_eq (h : a+b<2^64) : add64 a b=a+b := Nat.mod_eq_of_lt h

theorem sub64_eq (hb : b≤a) (ha : a<2^64) : sub64 a b=a-b := by
  rw [sub64]
  omega

theorem length_le_total (h : ∀ r∈rs, 0<r.len) : room rs+rs.length=total (rs.map Read.piece) := by
  induction rs with
  | nil => rfl
  | cons r rs ih =>
    obtain ⟨hr,hrs⟩ := forall_mem_cons.1 h
    have htail := ih hrs
    simp only [room,map_cons,sum_cons,length_cons,total_cons,Read.piece] at htail ⊢
    omega

theorem room_perm {rs' : List Read} (h : rs.Perm rs') : room rs=room rs' :=
  (h.map fun r : Read => r.len-1).sum_nat

theorem Sound.len_pos (h : Sound job limit P answered s) (hr : r∈s.outstanding) : 0<r.len :=
  h.tiled.solid r.piece (mem_append_left _ (mem_map_of_mem hr))

theorem Sound.within (h : Sound job limit P answered s) (hr : r∈s.outstanding) :
    s.written≤r.off ∧ r.off+r.len≤ s.next :=
  h.tiled.within r.piece (mem_append_left _ (mem_map_of_mem hr))

theorem Sound.bounded (h : Sound job limit P answered s) : Bounded job P answered.length s where
  count := h.count
  sent := by
    have hlen := h.accounts.ledger.length_eq
    have hcount := h.count
    rw [length_append] at hlen
    omega
  buffered := by
    have htotal := h.tiled.total_le
    have hnear := h.near
    rw [Pull.pieces,total_append] at htotal
    rw [Pull.buffered]
    omega
  traced := h.traced

/-- The next id is not in use. -/
theorem Sound.fresh (h : Sound job limit P answered s) (hspan : job.span<2^31) :
    s.nextId∉s.outstanding.map Read.id := by
  intro hmem
  obtain ⟨r,hr,hid⟩ := mem_map.1 hmem
  obtain ⟨n,hn,hserial,hage⟩ := h.accounts.serial r hr
  have hin := h.within hr
  have hnear := h.near
  rw [h.accounts.numbered,hserial] at hid
  exact iterate_idAfter_ne job.id_pos job.id_lt hn (by omega) hid

theorem serial_mono {base : List Read} (h : ∀ r∈s.outstanding, Serial job s r)
    (hsub : ∀ r∈base, r∈s.outstanding) (hlen : s.sent.length≤ s'.sent.length)
    (hdebt : s'.sent.length+room s'.outstanding+s.next≤ s.sent.length+room s.outstanding+s'.next) :
    ∀ r∈base, Serial job s' r := by
  intro r hr
  obtain ⟨n,hn,hid,hage⟩ := h r (hsub r hr)
  exact ⟨n,by omega,hid,by omega⟩

theorem Sound.take (h : Sound job limit P answered s) (hr : r∈s.outstanding)
    {rest : List Read} (hrest : rest=s.outstanding.filter fun q => !decide (q.id=r.id)) :
    s.outstanding.Perm (r::rest) ∧
      Tiled s.written s.next limit (r.piece::(rest.map Read.piece++piecesOf s.received)) := by
  have hperm : s.outstanding.Perm (r::rest) := hrest ▸ perm_cons_filter h.accounts.ids hr
  exact ⟨hperm,h.tiled.perm ((hperm.map Read.piece).append_right _)⟩

end Facts

section Replies
variable {job : Job} {limit : Nat} {P : Nat → Bytes → Prop} {answered : List Read} {s s' : Pull}
  {r : Read} {rest : List Read} {bytes : Bytes}

variable {len off : Nat}

theorem Accounts.send (h : Accounts job answered s) {answered' base : List Read}
    (hledger : s.sent.Perm (answered'++base)) (hbase : base.Sublist s.outstanding)
    (hfresh : s.nextId∉s.outstanding.map Read.id)
    (hout : s'.outstanding=base++[⟨s.nextId,off,len⟩])
    (hsent : s'.sent=s.sent++[⟨s.nextId,off,len⟩]) (hid : s'.nextId=idAfter s.nextId)
    (hdebt : room base+(len-1)+1+s.next≤room s.outstanding+s'.next)
    (hnew : room base+(len-1)+1+off≤ s'.next+job.span) : Accounts job answered' s' := by
  have hlen : s'.sent.length=s.sent.length+1 := by simp [hsent]
  have hroom : room s'.outstanding=room base+(len-1) := by simp [hout,room]
  constructor
  · rw [hsent,hout,← append_assoc]
    exact hledger.append_right _
  · rw [hid,h.numbered,hlen,Function.iterate_succ_apply']
  · rw [hout]
    refine forall_mem_append.2 ⟨?_,forall_mem_singleton.2 ?_⟩
    · exact serial_mono h.serial (fun q hq => hbase.subset hq) (by omega) (by omega)
    · exact ⟨s.sent.length,by omega,h.numbered,by simp only; omega⟩
  · rw [hout,map_append,nodup_append]
    refine ⟨(hbase.map Read.id).nodup h.ids,nodup_singleton _,fun a ha b hb => ?_⟩
    rw [mem_singleton.1 hb]
    rintro rfl
    exact hfresh ((hbase.map Read.id).subset ha)

theorem Accounts.remove (h : Accounts job answered s) (hperm : s.outstanding.Perm (r::rest))
    (hrest : rest.Sublist s.outstanding) (hout : s'.outstanding=rest) (hsent : s'.sent=s.sent)
    (hid : s'.nextId=s.nextId) (hnext : s'.next=s.next) : Accounts job (answered++[r]) s' := by
  have hroom := room_perm hperm
  simp only [room,map_cons,sum_cons] at hroom
  constructor
  · rw [hsent,hout,append_assoc]
    exact h.ledger.trans (hperm.append_left _)
  · rw [hid,hsent,h.numbered]
  · rw [hout]
    refine serial_mono h.serial (fun q hq => hrest.subset hq) (by rw [hsent]) ?_
    rw [hsent,hout]
    simp only [room]
    omega
  · rw [hout]
    exact (hrest.map Read.id).nodup h.ids

/-- A request is taken out of the outstanding ones. -/
structure Taken (job : Job) (limit : Nat) (P : Nat → Bytes → Prop) (answered : List Read) (s : Pull)
    (r : Read) (rest : List Read) : Prop where
  sound : Sound job limit P answered s
  mem : r∈s.outstanding
  perm : s.outstanding.Perm (r::rest)
  sublist : rest.Sublist s.outstanding
  tiled : Tiled s.written s.next limit (r.piece::(rest.map Read.piece++piecesOf s.received))

theorem Sound.taken (h : Sound job limit P answered s) (hr : r∈s.outstanding) :
    Taken job limit P answered s r (s.outstanding.filter fun q => !decide (q.id=r.id)) where
  sound := h
  mem := hr
  perm := (h.take hr rfl).1
  sublist := filter_sublist
  tiled := (h.take hr rfl).2

theorem Taken.spent (h : Taken job limit P answered s r rest) :
    answered.length+r.len+total (rest.map Read.piece)+job.offset≤ s.next := by
  have hspent := h.sound.spent
  have htotal := total_perm (h.perm.map Read.piece)
  rw [map_cons,total_cons] at htotal
  simp only [Read.piece] at htotal hspent ⊢
  omega

theorem Taken.count (h : Taken job limit P answered s r rest) : rest.length+1≤job.ahead := by
  have hlen := h.perm.length_eq
  rw [length_cons] at hlen
  exact hlen ▸ h.sound.count

theorem Taken.receive_eq (h : Taken job limit P answered s r rest) (s₁ : Pull)
    (hreceived : s₁.received=s.received) (bytes : Bytes) :
    (s₁.receive r.off bytes).received=(r.off,bytes)::s.received := by
  have hnot : r.off∉s.received.map Prod.fst := by
    intro hmem
    obtain ⟨e,he,hoff⟩ := mem_map.1 hmem
    have hpiece : (⟨e.1,e.2.length⟩ : Piece)∈rest.map Read.piece++piecesOf s.received :=
      mem_append_right _ (mem_map_of_mem he)
    exact h.tiled.start_ne hpiece hoff
  simp only [Pull.receive,hreceived,filter_key_of_not_mem hnot]

theorem Traced.receive (h : Traced job P s) (hP : P r.off bytes)
    (hreceived : s'.received=(r.off,bytes)::s.received) (hsink : s'.sink=s.sink) :
    Traced job P s' where
  received := by
    rw [hreceived]
    exact forall_mem_cons.2 ⟨hP,h.received⟩
  sink := by
    rw [hsink]
    exact h.sink

theorem Taken.atEof (h : Taken job limit P answered s r rest) (hlimit : limit≤r.off) :
    Sound job limit P (answered++[r]) (Pull.atEof r.off { s with outstanding := rest }) where
  tiled := h.tiled.drop hlimit
  near := h.sound.near
  small := h.sound.small
  count := le_trans (Nat.le_succ _) h.count
  accounts := h.sound.accounts.remove h.perm h.sublist rfl rfl rfl rfl
  spent := by
    have hspent := h.spent
    have hpos := h.sound.len_pos h.mem
    simp only [length_append,length_singleton,Pull.atEof]
    omega
  eofPast := by
    have hpast := h.sound.eofPast
    cases heof : s.eof with
    | none => simpa [Pull.atEof] using hlimit
    | some e =>
      have he := hpast e heof
      simpa [Pull.atEof,hlimit] using he
  position := h.sound.position
  traced := ⟨h.sound.traced.received,h.sound.traced.sink⟩

/-- Data without a further request: the range is complete, or the file ends in it. -/
theorem Taken.complete (h : Taken job limit P answered s r rest) (hbytes : 0<bytes.length)
    (hle : bytes.length≤r.len) (hend : r.len=bytes.length ∨ limit≤r.off+bytes.length)
    (hP : P r.off bytes) :
    Sound job limit P (answered++[r]) (Pull.receive r.off bytes { s with outstanding := rest }) := by
  have hreceived := h.receive_eq { s with outstanding := rest } rfl bytes
  constructor
  · have htiled := h.tiled.cut hbytes hle hend
    rw [Pull.pieces,hreceived]
    exact htiled.perm perm_middle.symm
  · exact h.sound.near
  · exact h.sound.small
  · exact le_trans (Nat.le_succ _) h.count
  · exact h.sound.accounts.remove h.perm h.sublist rfl rfl rfl rfl
  · have hspent := h.spent
    simp only [length_append,length_singleton,Pull.receive]
    omega
  · exact h.sound.eofPast
  · exact h.sound.position
  · exact h.sound.traced.receive hP hreceived rfl

/- The state in which one more request is on its way. -/
def Pull.sending (off len : Nat) (s : Pull) : Pull :=
  { s with
    nextId := idAfter s.nextId
    sent := s.sent++[⟨s.nextId,off,len⟩]
    outstanding := s.outstanding++[⟨s.nextId,off,len⟩] }

theorem request_apply {ends : Ends} (hfresh : s.nextId∉s.outstanding.map Read.id)
    (hsend : ends.sendError s.sent.length=none) :
    request ends off len s=(.ok (),s.sending off len) := by
  simp only [request,hsend,filter_key_of_not_mem hfresh,Pull.sending]

/-- A short read, with the rest asked for again. -/
theorem Taken.renew (h : Taken job limit P answered s r rest) (hspan : job.span<2^31)
    (hbytes : 0<bytes.length) (hlt : bytes.length<r.len) (hP : P r.off bytes) :
    Sound job limit P (answered++[r]) (Pull.receive r.off bytes
      (Pull.sending (r.off+bytes.length) (r.len-bytes.length) { s with outstanding := rest })) := by
  obtain ⟨s₁,hs₁⟩ : ∃ s₁, s₁ =
      Pull.sending (r.off+bytes.length) (r.len-bytes.length) { s with outstanding := rest } :=
    ⟨_,rfl⟩
  rw [← hs₁]
  have hreceived := h.receive_eq s₁ (by rw [hs₁]; rfl) bytes
  have hout : (s₁.receive r.off bytes).outstanding =
      rest++[⟨s.nextId,r.off+bytes.length,r.len-bytes.length⟩] := by rw [hs₁]; rfl
  have hnext : (s₁.receive r.off bytes).next=s.next := by rw [hs₁]; rfl
  have hwritten : (s₁.receive r.off bytes).written=s.written := by rw [hs₁]; rfl
  have hin := h.sound.within h.mem
  have hnear := h.sound.near
  have hspent := h.spent
  have hroom := room_perm h.perm
  have hlens := length_le_total fun q hq => h.sound.len_pos hq
  have htotal := h.sound.tiled.total_le
  rw [Pull.pieces,total_append] at htotal
  simp only [room,map_cons,sum_cons] at hroom hlens
  constructor
  · have htiled := h.tiled.split hbytes hlt
    rw [Pull.pieces,hreceived,hout,hnext,hwritten]
    refine htiled.perm (List.Perm.symm ?_)
    rw [map_append,append_assoc]
    exact perm_middle.trans ((perm_middle.cons _).trans (List.Perm.swap _ _ _))
  · rw [hnext,hwritten]
    exact hnear
  · rw [hnext]
    exact h.sound.small
  · rw [hout,length_append]
    exact h.count
  · refine h.sound.accounts.send ?_ h.sublist (h.sound.fresh hspan) hout (by rw [hs₁]; rfl)
      (by rw [hs₁]; rfl) ?_ ?_
    · rw [append_assoc,singleton_append]
      exact h.sound.accounts.ledger.trans (h.perm.append_left _)
    · simp only [room,hnext]
      omega
    · simp only [room,hnext]
      omega
  · rw [hout,hnext]
    simp only [length_append,length_singleton,map_append,map_singleton,
      total_append,total_cons,total_nil,Read.piece]
    omega
  · exact fun e he => h.sound.eofPast e (by rw [hs₁] at he; exact he)
  · rw [hs₁]
    exact h.sound.position
  · exact h.sound.traced.receive hP hreceived (by rw [hs₁]; rfl)

theorem Taken.bounded (h : Taken job limit P answered s r rest) (nextId : Nat) :
    Bounded job P (answered.length+1) { s with outstanding := rest, nextId := nextId } where
  count := le_trans (Nat.le_succ _) h.count
  sent := by
    have hsent := h.sound.bounded.sent
    simp only
    omega
  buffered := h.sound.bounded.buffered
  traced := ⟨h.sound.traced.received,h.sound.traced.sink⟩

end Replies

section Loop
open Proc (Meets)
variable {job : Job} {ends : Ends} {limit : Nat} {P : Nat → Bytes → Prop} {answered : List Read}
  {s : Pull} {r : Read} {rest : List Read} {answer : Answer}

/- An answer that serves its purpose, or whose range may be lost. -/
def Fit (limit : Nat) (P : Nat → Bytes → Prop) (r : Read) (answer : Answer) : Prop :=
  (∃ bytes, answer = .data bytes ∧ 0<bytes.length ∧ bytes.length≤r.len ∧ P r.off bytes) ∨
    limit≤r.off ∧ ∀ bytes, answer = .data bytes → bytes=[] ∨ r.len<bytes.length

def Loop (job : Job) (limit : Nat) (P : Nat → Bytes → Prop) (answered : List Read) :
    Except Stop Unit → Pull → Prop
  | .ok _, s => Sound job limit P answered s
  | .error _, s => Bounded job P answered.length s

theorem Taken.loop_failing (h : Taken job limit P answered s r rest) (e : SftpError) :
    Meets (failing e) { s with outstanding := rest } (Loop job limit P (answered++[r])) := by
  have hbounded := h.bounded s.nextId
  rw [← length_singleton (a := r),← length_append] at hbounded
  exact hbounded

variable {bytes : Bytes} {others : List (Nat × Bytes)}

theorem takeData_meets (h : Taken job limit P answered s r rest) (hspan : job.span<2^31)
    (hbytes : 0<bytes.length) (hle : bytes.length≤r.len) (hP : P r.off bytes) :
    Meets (do followUp ends r bytes.length; .modify (·.receive r.off bytes))
      { s with outstanding := rest } (Loop job limit P (answered++[r])) := by
  have hin := h.sound.within h.mem
  have hsmall := h.sound.small
  have hadd : add64 r.off bytes.length=r.off+bytes.length := add64_eq (by omega)
  by_cases hshort : (decide (bytes.length<r.len) && s.beforeEof (r.off+bytes.length))=true
  · have hlt : bytes.length<r.len := of_decide_eq_true (Bool.and_eq_true_iff.1 hshort).1
    have hfollow : followUp ends r bytes.length { s with outstanding := rest } =
        request ends (r.off+bytes.length) (r.len-bytes.length) { s with outstanding := rest } := by
      rw [followUp,hadd]
      exact congrFun (if_pos hshort) _
    cases hsend : ends.sendError s.sent.length with
    | some e =>
      have herror : followUp ends r bytes.length { s with outstanding := rest } =
          (.error ⟨e,0⟩,{ s with outstanding := rest, nextId := idAfter s.nextId }) := by
        rw [hfollow,request]
        simp only [hsend]
      rw [Meets,bind_of_error herror]
      have hbounded := h.bounded (idAfter s.nextId)
      rw [← length_singleton (a := r),← length_append] at hbounded
      exact hbounded
    | none =>
      have hfresh : s.nextId∉rest.map Read.id := fun hmem =>
        h.sound.fresh hspan ((h.sublist.map Read.id).subset hmem)
      exact Meets.bind_of_ok (hfollow.trans (request_apply hfresh hsend)) (h.renew hspan hbytes hlt hP)
  · have hfollow : followUp ends r bytes.length { s with outstanding := rest } =
        (.ok (),{ s with outstanding := rest }) := by
      rw [followUp,hadd]
      exact congrFun (if_neg hshort) _
    refine Meets.bind_of_ok hfollow (h.complete hbytes hle ?_ hP)
    by_cases hlt : bytes.length<r.len
    · cases heof : s.eof with
      | none => simp [hlt,Pull.beforeEof,heof] at hshort
      | some e =>
        have hpast := h.sound.eofPast e heof
        simp only [Pull.beforeEof,heof,Option.all_some,Bool.and_eq_true,
          decide_eq_true_eq] at hshort
        omega
    · exact .inl (by omega)

theorem takeIn_meets (h : Taken job limit P answered s r rest) (hspan : job.span<2^31)
    (hfit : Fit limit P r answer) :
    Meets (takeIn ends r answer) { s with outstanding := rest } (Loop job limit P (answered++[r])) := by
  rcases hfit with ⟨bytes,rfl,hbytes,hle,hP⟩ | ⟨hlimit,hdata⟩
  · cases bytes with
    | nil => simp at hbytes
    | cons b bytes =>
      rw [takeIn,if_neg (by omega)]
      exact takeData_meets h hspan hbytes hle hP
  · cases answer with
    | data bytes =>
      cases bytes with
      | nil => exact h.atEof hlimit
      | cons b bytes =>
        rw [takeIn,if_pos ((hdata _ rfl).resolve_left (by simp))]
        exact h.loop_failing _
    | status code message =>
      by_cases hcode : code = .eof
      · subst hcode
        exact h.atEof hlimit
      · rw [takeIn.eq_4 ends r code message (fun heof => hcode heof)]
        exact h.loop_failing _
    | other => exact h.loop_failing _

/-- A reply is taken in: it answers one of the requests, or the download has failed. -/
theorem accept_meets (h : Sound job limit P answered s) (hspan : job.span<2^31) {id : Nat}
    (hfit : ∀ r∈s.outstanding, r.id=id → Fit limit P r answer) :
    Meets (accept ends id answer) s fun res s' => (∃ r∈s.outstanding, r.id=id ∧
      Loop job limit P (answered++[r]) res s') ∨
      ∃ e, res = .error e ∧ Bounded job P (answered.length+1) s' := by
  refine Meets.get_bind ?_
  cases hfind : s.outstanding.find? fun r => decide (r.id=id) with
  | none =>
    have hbounded := h.bounded
    exact .inr ⟨_,rfl,hbounded.count,le_trans hbounded.sent (by omega),hbounded.buffered,
      hbounded.traced⟩
  | some r =>
    have hr := mem_of_find?_eq_some hfind
    have hid : r.id=id := by simpa using find?_some hfind
    subst hid
    exact .inl ⟨r,hr,rfl,takeIn_meets (h.taken hr) hspan (hfit r hr rfl)⟩

theorem nodup_starts {lo hi : Nat} {received : List (Nat × Bytes)} {ps : List Piece}
    (h : Tiled lo hi limit (ps++piecesOf received)) : (received.map Prod.fst).Nodup := by
  have hapart := (pairwise_append.1 h.apart).2.1
  have hsolid : ∀ e∈received, 0<e.2.length := fun e he =>
    h.solid ⟨e.1,e.2.length⟩ (mem_append_right _ (mem_map_of_mem he))
  rw [nodup_iff_pairwise_ne,pairwise_map]
  refine (pairwise_map.1 hapart).imp_of_mem fun {a b} ha hb hab heq => ?_
  have hla := hsolid a ha
  have hlb := hsolid b hb
  simp only [Piece.Apart] at hab
  omega

theorem Sound.front (h : Sound job limit P answered s) (hmem : (s.written,bytes)∈s.received)
    (hothers : others=s.received.filter fun e => !decide (e.1=s.written)) :
    Tiled s.written s.next limit
      (⟨s.written,bytes.length⟩::(s.outstanding.map Read.piece++piecesOf others)) := by
  have hperm : s.received.Perm ((s.written,bytes)::others) :=
    hothers ▸ perm_cons_filter (nodup_starts h.tiled) hmem
  exact h.tiled.perm ((List.Perm.append_left _ (hperm.map _)).trans perm_middle)

theorem From.append {sink : Bytes} {off : Nat} (hP : P off bytes)
    (hoff : off=job.offset+sink.length) {more : Bytes} (hmore : more <+: bytes)
    (h : ∀ i b, sink[i]?=some b → From P (job.offset+i) b) :
    ∀ i b, (sink++more)[i]?=some b → From P (job.offset+i) b := by
  intro i b hi
  by_cases hlt : i<sink.length
  · rw [getElem?_append_left hlt] at hi
    exact h i b hi
  · rw [getElem?_append_right (by omega)] at hi
    refine ⟨off,bytes,hP,by omega,?_⟩
    obtain ⟨tail,rfl⟩ := hmore
    have hin : i-sink.length< more.length := (List.getElem?_eq_some_iff.1 hi).1
    rw [show job.offset+i-off=i-sink.length by omega,getElem?_append_left hin,hi]

theorem Sound.written (h : Sound job limit P answered s) (hmem : (s.written,bytes)∈s.received)
    (hothers : others=s.received.filter fun e => !decide (e.1=s.written)) :
    Sound job limit P answered { s with
      received := others, sink := s.sink++bytes, written := add64 s.written bytes.length } := by
  have htiled := (h.front hmem hothers).advance
  have hle := htiled.le
  have hsmall := h.small
  have hadd : add64 s.written bytes.length=s.written+bytes.length := add64_eq (by omega)
  rw [hadd]
  refine ⟨htiled,?_,hsmall,h.count,⟨h.accounts.ledger,h.accounts.numbered,h.accounts.serial,
    h.accounts.ids⟩,h.spent,h.eofPast,?_,?_,?_⟩
  · have hnear := h.near
    simp only
    omega
  · have hposition := h.position
    simp only [length_append]
    omega
  · intro e he
    rw [hothers] at he
    exact h.traced.received e (mem_of_mem_filter he)
  · exact From.append (h.traced.received _ hmem) h.position (prefix_refl _) h.traced.sink

theorem Sound.sink_failed (h : Sound job limit P answered s) (hmem : (s.written,bytes)∈s.received)
    (hothers : others=s.received.filter fun e => !decide (e.1=s.written)) (k : Nat) :
    Bounded job P answered.length { s with received := others, sink := s.sink++bytes.take k } where
  count := h.bounded.count
  sent := h.bounded.sent
  buffered := by
    have htotal := (h.front hmem hothers).total_le
    have hnear := h.near
    rw [total_cons,total_append] at htotal
    simp only [Pull.buffered]
    omega
  traced :=
    { received := fun e he => h.traced.received e (mem_of_mem_filter (hothers ▸ he))
      sink := From.append (h.traced.received _ hmem) h.position ( take_prefix k bytes) h.traced.sink }

theorem flush_meets (n : Nat) (h : Sound job limit P answered s) :
    Meets (flush ends n) s fun res s' => Loop job limit P answered res s' ∧
      (res = .ok () → s.received.length≤n → s'.received.lookup s'.written=none) := by
  induction n generalizing s with
  | zero =>
    refine ⟨h,fun _ hlen => ?_⟩
    have hnil : s.received=[] := length_eq_zero_iff.1 (Nat.le_zero.1 hlen)
    change s.received.lookup s.written=none
    rw [hnil]
    rfl
  | succ n ih =>
    refine Meets.get_bind ?_
    cases hlookup : s.received.lookup s.written with
    | none => exact ⟨h,fun _ _ => hlookup⟩
    | some bytes =>
      have hmem := mem_of_lookup hlookup
      obtain ⟨others,hothers⟩ :
          ∃ others, others=s.received.filter fun e => !decide (e.1=s.written) := ⟨_,rfl⟩
      simp only [← hothers]
      refine Meets.bind_of_ok (set_apply s _) ?_
      cases hsink : ends.sinkError s.sink bytes with
      | some failure =>
        obtain ⟨k,e⟩ := failure
        have herror : write ends bytes { s with received := others } =
            (.error ⟨.io e,s.outstanding.length⟩,
              { s with received := others, sink := s.sink++bytes.take k }) := by
          simp only [write,hsink,failing]
        rw [Meets,bind_of_error herror]
        exact ⟨h.sink_failed hmem hothers k,fun hok => by cases hok⟩
      | none =>
        have hwrite : write ends bytes { s with received := others } = (.ok (),{ s with
            received := others, sink := s.sink++bytes, written := add64 s.written bytes.length }) := by
          simp only [write,hsink]
        refine Meets.bind_of_ok hwrite ?_
        obtain ⟨hloop,hdone⟩ := ih (h.written hmem hothers)
        refine ⟨hloop,fun hok hlen => hdone hok ?_⟩
        have hfewer : others.length<s.received.length := by
          rw [hothers]
          exact length_filter_lt_length_iff_exists.2 ⟨_,hmem,by simp⟩
        simp only
        omega

theorem window_eq (h : job.span<2^31) : job.window=job.ahead*job.size := by
  rw [Job.span_eq] at h
  exact Nat.mod_eq_of_lt (by omega)

theorem wants_iff (h : Sound job limit P answered s) (hspan : job.span<2^31) :
    s.wants job=true ↔ s.outstanding.length<job.ahead ∧
      s.next<s.written+job.ahead*job.size ∧ ∀ e∈s.eof, s.next<e := by
  have hle := h.tiled.le
  rw [Pull.wants,sub64_eq hle h.small,window_eq hspan,Bool.and_eq_true,Bool.and_eq_true,
    decide_eq_true_eq,decide_eq_true_eq,and_assoc]
  refine and_congr_right' (and_congr (by omega) ?_)
  cases heof : s.eof <;> simp [Pull.beforeEof,heof]

theorem Sound.ask (h : Sound job limit P answered s) (hspan : job.span<2^31)
    (hroom : s.written+job.span<2^64) (hwants : s.wants job=true) : Sound job limit P answered
      { s.sending s.next job.size with next := add64 s.next job.size } := by
  obtain ⟨hcount,hwindow,-⟩ := (wants_iff h hspan).1 hwants
  have hsize := job.size_pos
  have hspan' := job.span_eq
  have hadd : add64 s.next job.size=s.next+job.size := add64_eq (by omega)
  have hlens := length_le_total fun q hq => h.len_pos hq
  have htotal := h.tiled.total_le
  rw [Pull.pieces,total_append] at htotal
  rw [hadd]
  constructor
  · refine (h.tiled.grow hsize).perm ?_
    rw [Pull.pieces,Pull.pieces,Pull.sending]
    simp only [map_append,append_assoc]
    exact perm_middle.symm
  · simp only [Pull.sending]
    omega
  · simp only
    omega
  · simp only [Pull.sending,length_append,length_singleton]
    omega
  · exact h.accounts.send h.accounts.ledger (List.Sublist.refl _) (h.fresh hspan) rfl rfl rfl
      (by simp only; omega) (by simp only; omega)
  · have hspent := h.spent
    simp only [Pull.sending,map_append,total_append,map_cons,map_nil,total_cons,
      total_nil,Read.piece]
    omega
  · exact h.eofPast
  · exact h.position
  · exact ⟨h.traced.received,h.traced.sink⟩

theorem request_keeps_sink (off len : Nat) : Proc.Keeps Pull.sink (request ends off len) := by
  intro s
  rw [request]
  split
  · rfl
  · rfl

theorem fill_sink (ends : Ends) (n : Nat) : Proc.Keeps Pull.sink (fill job ends n) := by
  induction n with
  | zero => exact fun _ => rfl
  | succ n ih =>
    refine fun s => ?_
    rw [fill,get_bind]
    split
    · exact (request_keeps_sink s.next job.size).bind (fun _ => Proc.Keeps.bind (fun _ => rfl) fun _ => ih) s
    · rfl

theorem fill_meets (n : Nat) (hspan : job.span<2^31) (h : Sound job limit P answered s) :
    Meets (fill job ends n) s fun res s' =>
      s'.sink=s.sink ∧ (s.written+job.span<2^64 → Loop job limit P answered res s' ∧
        (res = .ok () → s'.received=s.received ∧ s'.written=s.written ∧
          (job.ahead≤ s.outstanding.length+n → s'.wants job=false))) := by
  induction n generalizing s with
  | zero =>
    refine ⟨rfl,fun _ => ⟨h,fun _ => ⟨rfl,rfl,fun hle => ?_⟩⟩⟩
    rw [Bool.eq_false_iff]
    intro hwants
    have hlt := ((wants_iff h hspan).1 hwants).1
    omega
  | succ n ih =>
    refine Meets.get_bind ?_
    by_cases hwants : s.wants job=true
    · rw [if_pos hwants]
      cases hsend : ends.sendError s.sent.length with
      | some e =>
        have herror : request ends s.next job.size s =
            (.error ⟨e,0⟩,{ s with nextId := idAfter s.nextId }) := by
          simp only [request,hsend]
        rw [Meets,bind_of_error herror]
        have hbounded := h.bounded
        exact ⟨rfl,fun _ => ⟨⟨hbounded.count,hbounded.sent,hbounded.buffered,
          hbounded.traced.received,hbounded.traced.sink⟩,fun hok => by cases hok⟩⟩
      | none =>
        refine Meets.bind_of_ok (request_apply (h.fresh hspan) hsend) (Meets.modify_bind ?_)
        by_cases hroom : s.written+job.span<2^64
        · obtain ⟨hsink,hloop⟩ := ih (h.ask hspan hroom hwants)
          obtain ⟨hloop,hdone⟩ := hloop hroom
          refine ⟨hsink,fun _ => ⟨hloop,fun hok => ?_⟩⟩
          obtain ⟨hreceived,hwritten,hidle⟩ := hdone hok
          refine ⟨hreceived,hwritten,fun hle => hidle ?_⟩
          simp only [Pull.sending,length_append,length_singleton]
          omega
        · refine ⟨?_,fun hroom' => absurd hroom' hroom⟩
          exact fill_sink ends n _
    · rw [if_neg hwants]
      exact ⟨rfl,fun _ => ⟨h,fun _ => ⟨rfl,rfl,fun _ => Bool.eq_false_iff.2 hwants⟩⟩⟩

end Loop

end PureSsh.Sftp
