import PureSsh.Sftp.Pipeline

/-! Whole downloads: against any server what is written was received for its offset, and a server that
answers from one file delivers that file. -/

namespace PureSsh.Sftp
open Lib Scp List Proc

section Turn
open Proc (Meets)
variable {job : Job} {ends : Ends} {limit : Nat} {P Q : Nat → Bytes → Prop} {answered : List Read}
  {s : Pull} {answer : Answer} {id : Nat}

/- Nothing more to ask for, and nothing to write. -/
def Idle (job : Job) (s : Pull) : Prop :=
  s.wants job=false ∧ s.received.lookup s.written=none

/- The ranges that can still be asked for end below 2^64. -/
def Clear (job : Job) (s : Pull) : Prop := job.offset+s.sink.length+job.span<2^64

/-- One turn of the loop. -/
theorem turn_meets (h : Sound job limit P answered s) (hspan : job.span<2^31)
    (hfit : ∀ r∈s.outstanding, r.id=id → Fit limit P r answer) :
    Meets (turn job ends id answer) s fun res s' =>
      (∀ i b, s'.sink[i]?=some b → From P (job.offset+i) b) ∧ (Clear job s' →
        (∃ r∈s.outstanding, r.id=id ∧ Loop job limit P (answered++[r]) res s' ∧
          (res = .ok () → Idle job s')) ∨
        ∃ e, res = .error e ∧ Bounded job P (answered.length+1) s') := by
  refine Meets.bind (accept_meets h hspan hfit) ?_ ?_
  · rintro ⟨⟩ s₁ (⟨r,hr,hid,hs₁⟩ | ⟨e,he,-⟩)
    · refine Meets.get_bind (Meets.bind (flush_meets s₁.received.length hs₁) ?_ ?_)
      · rintro ⟨⟩ s₂ ⟨hs₂,hflushed⟩
        refine (fill_meets job.ahead hspan hs₂).mono ?_
        rintro res s₃ ⟨hsink,hfill⟩
        refine ⟨?_,fun hclear => ?_⟩
        · rw [hsink]
          exact hs₂.traced.sink
        · rw [Clear,hsink,← hs₂.position] at hclear
          obtain ⟨hloop,hdone⟩ := hfill hclear
          refine .inl ⟨r,hr,hid,hloop,fun hok => ?_⟩
          obtain ⟨hreceived,hwritten,hidle⟩ := hdone hok
          refine ⟨hidle (Nat.le_add_left _ _),?_⟩
          rw [hreceived,hwritten]
          exact hflushed rfl (le_refl _)
      · rintro e s₂ ⟨hs₂,-⟩
        exact ⟨hs₂.traced.sink,fun _ => .inl ⟨r,hr,hid,hs₂,fun hok => by cases hok⟩⟩
    · cases he
  · rintro e s₁ (⟨r,hr,hid,hs₁⟩ | ⟨e',he,hs₁⟩)
    · exact ⟨hs₁.traced.sink,fun _ => .inl ⟨r,hr,hid,hs₁,fun hok => by cases hok⟩⟩
    · exact ⟨hs₁.traced.sink,fun _ => .inr ⟨e',he,hs₁⟩⟩

theorem sound_init (P : Nat → Bytes → Prop) (limit : Nat) (hclear : job.offset+job.span<2^64) :
    Sound job limit P [] (.init job) where
  tiled := .empty _ _
  near := Nat.lt_add_of_pos_right (by rw [Job.span_eq]; exact Nat.add_pos_right _ job.size_pos)
  small := by
    simp only [Pull.init]
    omega
  count := Nat.zero_le _
  accounts := ⟨.nil,rfl,by simp [Pull.init],by simp [Pull.init]⟩
  spent := by simp [Pull.init]
  eofPast := by simp [Pull.init]
  position := rfl
  traced := ⟨by simp [Pull.init],by simp [Pull.init]⟩

theorem Traced.mono (h : Traced job P s) (hPQ : ∀ off bytes, P off bytes → Q off bytes) : Traced job Q s where
  received := fun e he => hPQ _ _ (h.received e he)
  sink := fun i b hi => by
    obtain ⟨off,bytes,hP,hoff,hb⟩ := h.sink i b hi
    exact ⟨off,bytes,hPQ _ _ hP,hoff,hb⟩

theorem Sound.mono (h : Sound job limit P answered s) (hPQ : ∀ off bytes, P off bytes → Q off bytes) :
    Sound job limit Q answered s :=
  { h with traced := h.traced.mono hPQ }

theorem Bounded.mono {n m : Nat} (h : Bounded job P n s) (hPQ : ∀ off bytes, P off bytes → Q off bytes)
    (hnm : n≤ m) : Bounded job Q m s where
  count := h.count
  sent := le_trans h.sent (Nat.add_le_add_right hnm _)
  buffered := h.buffered
  traced := h.traced.mono hPQ

theorem takeIn_sink (r : Read) (answer : Answer) : Proc.Keeps Pull.sink (takeIn ends r answer) := by
  have hfollow : ∀ got, Proc.Keeps Pull.sink (followUp ends r got) := by
    intro got s
    rw [followUp,get_bind]
    split
    · exact request_keeps_sink _ _ s
    · rfl
  intro s
  rw [takeIn.eq_def]
  split
  · rfl
  · split
    · rfl
    · exact (hfollow _).bind (fun _ _ => rfl) s
  · rfl
  · rfl
  · rfl

theorem accept_sink (id : Nat) (answer : Answer) : Proc.Keeps Pull.sink (accept ends id answer) := by
  intro s
  rw [accept,get_bind]
  cases s.outstanding.find? fun r => decide (r.id=id) with
  | none => rfl
  | some r => exact takeIn_sink r answer _

theorem flush_sink (n : Nat) (s : Pull) : s.sink <+: (flush ends n s).2.sink := by
  induction n generalizing s with
  | zero => exact prefix_refl _
  | succ n ih =>
    rw [flush,get_bind]
    cases s.received.lookup s.written with
    | none => exact prefix_refl _
    | some bytes =>
      simp only [set_bind]
      rw [bind_apply,write]
      split
      · next hwrite =>
        split at hwrite
        · cases hwrite
        · cases hwrite
          refine List.IsPrefix.trans ?_ (ih _)
          exact prefix_append _ _
      · next hwrite =>
        split at hwrite
        · cases hwrite
          exact prefix_append _ _
        · cases hwrite

theorem turn_sink (id : Nat) (answer : Answer) (s : Pull) :
    s.sink <+: (turn job ends id answer s).2.sink := by
  rw [← (accept_sink id answer : Proc.Keeps Pull.sink (accept ends id answer)) s,turn,bind_apply]
  split
  · next s₁ hs₁ =>
    rw [hs₁,get_bind,bind_apply]
    have hflush : _ <+: (flush ends s₁.received.length s₁).2.sink := flush_sink _ s₁
    split
    · next s₂ hs₂ =>
      rw [hs₂] at hflush
      rw [fill_sink ends job.ahead s₂]
      exact hflush
    · next s₂ hs₂ =>
      rw [hs₂] at hflush
      exact hflush
  · next s₁ hs₁ => rw [hs₁]

end Turn

section AnyServer
open Proc (Meets)
variable {job : Job} {ends : Ends}

/- The data of a reply, with the offset of the request it came for. -/
def Heard (job : Job) (ends : Ends) (incoming : List Incoming) (off : Nat) (bytes : Bytes) : Prop :=
  ∃ before after, ∃ r∈(readTo job ends before).pull.outstanding,
    incoming=before ++ .ok (r.id,.data bytes)::after ∧ r.off=off

variable {incoming : List Incoming} {P : Nat → Bytes → Prop} {s : Pull}

theorem Heard.snoc {off : Nat} {bytes : Bytes} (h : Heard job ends incoming off bytes)
    (e : Incoming) : Heard job ends (incoming++[e]) off bytes := by
  obtain ⟨before,after,r,hr,rfl,hoff⟩ := h
  exact ⟨before,after++[e],r,hr,by simp,hoff⟩

theorem readTo_snoc (incoming : List Incoming) (e : Incoming) :
    readTo job ends (incoming++[e])=stepDownload job ends (readTo job ends incoming) e := by
  rw [readTo,foldl_append]
  rfl

/- What holds of a download after `n` replies. -/
structure Kept (job : Job) (P : Nat → Bytes → Prop) (n : Nat) (d : Download) : Prop where
  running : d.stage = .running → ∃ answered : List Read, answered.length=n ∧ Sound job 0 P answered d.pull
  bounded : Bounded job P n d.pull

theorem kept_settle {answered : List Read} {res : Except Stop Unit}
    (h : Loop job 0 P answered res s) : Kept job P answered.length (settle job (res,s)) := by
  cases res with
  | ok u => exact ⟨fun _ => ⟨answered,rfl,h⟩,Sound.bounded h⟩
  | error e =>
    refine ⟨fun hstage => ?_,h⟩
    simp only [settle] at hstage
    split at hstage
    · cases hstage
    · cases hstage

theorem kept_error {n : Nat} {e : Stop} (h : Bounded job P n s) :
    Kept job P n (settle job (.error e,s)) := by
  refine ⟨fun hstage => ?_,h⟩
  simp only [settle] at hstage
  split at hstage
  · cases hstage
  · cases hstage

theorem drainStep_ne_running (left : Nat) (error : SftpError) (e : Incoming) :
    drainStep left error e ≠ .running := by
  cases e with
  | error e => simp [drainStep]
  | ok reply =>
    rw [drainStep]
    split
    · simp
    · simp

theorem settle_pull (x : Except Stop Unit × Pull) : (settle job x).pull=x.2 := by
  obtain ⟨res,s⟩ := x
  cases res <;> rfl

theorem stepDownload_sink (d : Download) (e : Incoming) :
    d.pull.sink <+: (stepDownload job ends d e).pull.sink := by
  rw [stepDownload.eq_def]
  split
  · exact prefix_refl _
  · exact prefix_refl _
  · split
    · exact prefix_refl _
    · rw [settle_pull]
      exact turn_sink _ _ _

theorem Clear.of_prefix {s' : Pull} (h : Clear job s') (hsink : s.sink <+: s'.sink) :
    Clear job s := by
  have hle := hsink.length_le
  rw [Clear] at h ⊢
  omega

/-- Where nothing has to be complete, every answer will do. -/
theorem fit_zero {r : Read} {answer : Answer} (hP : ∀ bytes, answer = .data bytes → P r.off bytes) :
    Fit 0 P r answer := by
  by_cases hdata : ∃ bytes, answer = .data bytes ∧ 0<bytes.length ∧ bytes.length≤r.len
  · obtain ⟨bytes,rfl,hpos,hle⟩ := hdata
    exact .inl ⟨bytes,rfl,hpos,hle,hP bytes rfl⟩
  · refine .inr ⟨Nat.zero_le _,fun bytes hbytes => ?_⟩
    by_contra hnot
    rw [not_or] at hnot
    exact hdata ⟨bytes,hbytes,length_pos_iff.2 hnot.1,Nat.le_of_not_lt hnot.2⟩

/-- Any server: the replies that came for the requests are all that is written. -/
theorem readTo_kept (hspan : job.span<2^31) (incoming : List Incoming)
    (hclear : Clear job (readTo job ends incoming).pull) :
    Kept job (Heard job ends incoming) incoming.length (readTo job ends incoming) := by
  induction incoming using reverseRecOn with
  | nil =>
    have hinit : job.offset+job.span<2^64 := by
      rw [Clear] at hclear
      omega
    have hfill : Meets (fill job ends job.ahead) (.init job) _ :=
      fill_meets job.ahead hspan (sound_init (Heard job ends []) 0 hinit)
    exact kept_settle (hfill.2 hinit).1
  | append_singleton incoming e ih =>
    rw [readTo_snoc] at hclear ⊢
    have hkept := ih (hclear.of_prefix (stepDownload_sink _ e))
    have hmono : ∀ off bytes, Heard job ends incoming off bytes →
        Heard job ends (incoming++[e]) off bytes := fun _ _ h => h.snoc e
    have hlen : (incoming++[e]).length=incoming.length+1 := length_append
    have hbounded := hkept.bounded.mono hmono (Nat.le_of_lt (Nat.lt_of_lt_of_eq (Nat.lt_succ_self _) hlen.symm))
    cases hstage : (readTo job ends incoming).stage with
    | done result =>
      simp only [stepDownload,hstage]
      exact ⟨fun hrunning => by simp [hstage] at hrunning,hbounded⟩
    | draining left error =>
      simp only [stepDownload,hstage]
      exact ⟨fun hrunning => absurd hrunning (drainStep_ne_running _ _ _),hbounded⟩
    | running =>
      obtain ⟨answered,hanswered,hsound⟩ := hkept.running hstage
      cases e with
      | error error =>
        simp only [stepDownload,hstage]
        exact ⟨fun hrunning => (by cases hrunning),hbounded⟩
      | ok reply =>
        obtain ⟨id,answer⟩ := reply
        simp only [stepDownload,hstage] at hclear ⊢
        rw [settle_pull] at hclear
        have hturn : Meets (turn job ends id answer) (readTo job ends incoming).pull _ :=
          turn_meets (hsound.mono hmono) hspan fun r hr hid => fit_zero fun bytes hbytes =>
            ⟨incoming,[],r,hr,by rw [hid,hbytes],rfl⟩
        rcases hturn.2 hclear with ⟨r,-,-,hloop,-⟩ | ⟨error,herror,hs⟩
        · have hkept' := kept_settle hloop
          rw [length_append,length_singleton,hanswered,← hlen] at hkept'
          exact hkept'
        · rw [hanswered,← hlen] at hs
          have hpair : turn job ends id answer (readTo job ends incoming).pull =
              (.error error,(turn job ends id answer (readTo job ends incoming).pull).2) :=
            Prod.ext herror rfl
          rw [hpair]
          exact kept_error hs

/-- Also right after a reply has come in, before anything is written. -/
theorem readTo_peak (hspan : job.span<2^31) (hclear : Clear job (readTo job ends incoming).pull)
    (hrunning : (readTo job ends incoming).stage = .running) (id : Nat) (answer : Answer) :
    (accept ends id answer (readTo job ends incoming).pull).2.buffered≤job.span := by
  obtain ⟨answered,-,hsound⟩ := (readTo_kept hspan incoming hclear).running hrunning
  have hany : Sound job 0 (fun _ _ => True) answered _ := hsound.mono fun _ _ _ => trivial
  have haccept : Meets (accept ends id answer) (readTo job ends incoming).pull _ :=
    accept_meets hany hspan fun _ _ _ => fit_zero fun _ _ => trivial
  rcases haccept with ⟨r,-,-,hloop⟩ | ⟨e,-,hbounded⟩
  · cases hres : (accept ends id answer (readTo job ends incoming).pull).1 with
    | ok u =>
      rw [hres] at hloop
      exact (Sound.bounded hloop).buffered
    | error e =>
      rw [hres] at hloop
      exact hloop.buffered
  · exact hbounded.buffered

end AnyServer

section Honest
open Proc (Meets)
variable {job : Job} {ends : Ends} {content : Bytes} {answered : List Read} {d : Download} {s : Pull}

/- How a server that has the file answers a request. -/
inductive Answers (content : Bytes) (r : Read) : Answer → Prop
  | data (bytes : Bytes) (hne : bytes≠[]) (hle : bytes.length≤r.len)
      (h : bytes <+: content.drop r.off) : Answers content r (.data bytes)
  | eof (message : Bytes) (h : content.length≤r.off) : Answers content r (.status .eof message)

/-- A download from a server that answers the requests sent to it in any order, each once. -/
inductive HonestRun (job : Job) (ends : Ends) (content : Bytes) : List Read → Download → Prop
  | start : HonestRun job ends content [] (startDownload job ends)
  | reply {answered : List Read} {d : Download} {r : Read} {answer : Answer}
      (h : HonestRun job ends content answered d) (hrunning : d.stage = .running)
      (hr : r∈d.pull.sent.diff answered) (hanswer : Answers content r answer) :
      HonestRun job ends content (answered++[r]) (stepDownload job ends d (.ok (r.id,answer)))

structure Ends.Reliable (ends : Ends) : Prop where
  send : ∀ n, ends.sendError n=none
  sink : ∀ sofar bytes, ends.sinkError sofar bytes=none

def InFile (content : Bytes) (off : Nat) (bytes : Bytes) : Prop := bytes <+: content.drop off

theorem From.inFile {x : Nat} {b : UInt8} (h : From (InFile content) x b) : content[x]?=some b := by
  obtain ⟨off,bytes,⟨tail,htail⟩,hoff,hb⟩ := h
  have hin := (List.getElem?_eq_some_iff.1 hb).1
  rw [← Nat.add_sub_cancel' hoff,← getElem?_drop,← htail,getElem?_append_left hin,hb]

theorem sink_le (h : ∀ i b, s.sink[i]?=some b → From (InFile content) (job.offset+i) b) :
    s.sink=[] ∨ job.offset+s.sink.length≤content.length := by
  by_cases hnil : s.sink=[]
  · exact .inl hnil
  · have hpos := length_pos_iff.2 hnil
    have hlast : s.sink[s.sink.length-1]?=some s.sink[s.sink.length-1] :=
      getElem?_eq_getElem (by omega)
    have hin := (List.getElem?_eq_some_iff.1 (h _ _ hlast).inFile).1
    exact .inr (by omega)

theorem clear_of_sink (h : ∀ i b, s.sink[i]?=some b → From (InFile content) (job.offset+i) b)
    (hclear : max content.length job.offset+job.span<2^64) : Clear job s := by
  rw [Clear]
  rcases sink_le h with hnil | hle
  · rw [hnil,length_nil]
    omega
  · omega

theorem Answers.fit {r : Read} {answer : Answer} (h : Answers content r answer) :
    Fit content.length (InFile content) r answer := by
  cases h with
  | data bytes hne hle h => exact .inl ⟨bytes,rfl,length_pos_iff.2 hne,hle,h⟩
  | eof message h =>
    refine .inr ⟨h,?_⟩
    rintro bytes ⟨⟩

/-- When nothing is outstanding, the whole file has been written. -/
theorem Sound.delivered (h : Sound job content.length (InFile content) answered s)
    (hspan : job.span<2^31) (hidle : Idle job s) (hnone : s.outstanding=[]) :
    finish job s = .ok (content.length-job.offset) ∧ s.sink=content.drop job.offset := by
  have hposition := h.position
  have hsolid : ∀ e∈s.received, s.written≤e.1 ∧ 0<e.2.length := fun e he =>
    have hpiece : (⟨e.1,e.2.length⟩ : Piece)∈s.pieces :=
      mem_append_right _ (mem_map_of_mem he)
    ⟨(h.tiled.within _ hpiece).1,h.tiled.solid _ hpiece⟩
  have hfront : ∀ p∈s.pieces, p.start≠s.written := by
    intro p hp hstart
    rw [Pull.pieces,hnone,map_nil,nil_append] at hp
    obtain ⟨e,he,rfl⟩ := mem_map.1 hp
    simp only at hstart
    have hlookup := lookup_of_mem (nodup_starts h.tiled) (show (s.written,e.2)∈s.received from hstart ▸ he)
    rw [hidle.2] at hlookup
    cases hlookup
  have hend : content.length≤ s.written := by
    have hnot := mt (wants_iff h hspan).2 (Bool.eq_false_iff.1 hidle.1)
    have hwindow : 0<job.ahead*job.size :=
      Nat.mul_pos (Nat.lt_of_lt_of_le Nat.zero_lt_one (le_max_right _ _)) job.size_pos
    rcases h.tiled.reached hfront with hnext | hlimit
    · by_contra hlt
      refine hnot ⟨?_,by omega,fun e he => ?_⟩
      · rw [hnone]
        exact Nat.lt_of_lt_of_le Nat.zero_lt_one (le_max_right _ _)
      · have hpast := h.eofPast e he
        omega
    · exact hlimit
  have hreceived : s.received=[] := by
    by_contra hne
    obtain ⟨e,he⟩ := exists_mem_of_ne_nil _ hne
    obtain ⟨hle,hpos⟩ := hsolid e he
    have hfile := (h.traced.received e he).length_le
    rw [length_drop] at hfile
    omega
  have hlength : s.sink.length=content.length-job.offset := by
    rcases sink_le h.traced.sink with hnil | hle
    · rw [hnil,length_nil] at hposition ⊢
      omega
    · omega
  constructor
  · have hle := h.tiled.le
    have hsmall := h.small
    rw [finish,if_neg (by simp [hreceived]),sub64_eq (by omega) (by omega)]
    congr 1
    omega
  · refine ext_getElem? fun i => ?_
    by_cases hi : i<s.sink.length
    · have hget : s.sink[i]?=some s.sink[i] := getElem?_eq_getElem hi
      rw [hget,getElem?_drop,(h.traced.sink i _ hget).inFile]
    · rw [getElem?_eq_none (by omega),getElem?_eq_none (by rw [length_drop]; omega)]

theorem append_diff_self {α : Type} [DecidableEq α] (l m : List α) : (l++m).diff l=m := by
  induction l with
  | nil => rfl
  | cons a l ih => rw [cons_append,diff_cons,erase_cons_head,ih]

theorem mem_unanswered (h : Sound job content.length (InFile content) answered s) (r : Read) :
    r∈s.sent.diff answered ↔ r∈s.outstanding := by
  have hperm := h.accounts.ledger.diff_right answered
  rw [append_diff_self] at hperm
  exact hperm.mem_iff

section Reliable
variable (hends : ends.Reliable)
include hends

theorem request_total (off len : Nat) : Proc.Total (request ends off len) := by
  intro s
  simp only [request,hends.send]
  exact ⟨_,_,rfl⟩

theorem fill_total (n : Nat) : Proc.Total (fill job ends n) := by
  induction n with
  | zero => exact total_pure ()
  | succ n ih =>
    exact .get_bind fun s => .ite ((request_total hends _ _).bind fun _ =>
      Proc.Total.bind (fun s => ⟨_,_,rfl⟩) fun _ => ih) (total_pure ())

theorem flush_total (n : Nat) : Proc.Total (flush ends n) := by
  induction n with
  | zero => exact total_pure ()
  | succ n ih =>
    refine .get_bind fun s => ?_
    cases s.received.lookup s.written with
    | none => exact total_pure ()
    | some bytes =>
      have hwrite : Proc.Total (write ends bytes) := by
        intro s
        simp only [write,hends.sink]
        exact ⟨_,_,rfl⟩
      exact Proc.Total.bind (fun s => ⟨_,_,rfl⟩) fun _ => hwrite.bind fun _ => ih

variable {answer : Answer} {r : Read}

theorem takeIn_total (h : Answers content r answer) : Proc.Total (takeIn ends r answer) := by
  cases h with
  | eof message h => exact fun s => ⟨_,_,rfl⟩
  | data bytes hne hle h =>
    cases bytes with
    | nil => exact absurd rfl hne
    | cons b bytes =>
      rw [takeIn,if_neg (by omega)]
      exact Proc.Total.bind (.get_bind fun s => .ite (request_total hends _ _) (total_pure ()))
        fun _ s => ⟨_,_,rfl⟩

theorem turn_ok (hr : r∈s.outstanding) (hids : (s.outstanding.map Read.id).Nodup)
    (h : Answers content r answer) : ∃ s', turn job ends r.id answer s=(.ok (),s') := by
  have hfind : s.outstanding.find? (fun q => decide (q.id=r.id))=some r := by
    cases hq : s.outstanding.find? fun q => decide (q.id=r.id) with
    | none => exact absurd rfl (of_decide_eq_false (Bool.eq_false_iff.2 (find?_eq_none.1 hq r hr)))
    | some q =>
      have hid : q.id=r.id := by simpa using find?_some hq
      rw [inj_on_of_nodup_map hids (mem_of_find?_eq_some hq) hr hid]
  have haccept : ∃ s₁, accept ends r.id answer s=(.ok (),s₁) := by
    rw [accept,get_bind,hfind]
    obtain ⟨⟨⟩,s₁,hs₁⟩ := takeIn_total hends h
      { s with outstanding := s.outstanding.filter fun q => !decide (q.id=r.id) }
    exact ⟨s₁,hs₁⟩
  obtain ⟨s₁,hs₁⟩ := haccept
  obtain ⟨⟨⟩,s₂,hs₂⟩ := (flush_total hends s₁.received.length).bind
    (fun _ => fill_total hends job.ahead) s₁
  exact ⟨s₂,(bind_of_ok hs₁ _).trans hs₂⟩

/-- The download runs as long as something is outstanding, and keeps what it needs. -/
theorem HonestRun.kept (hspan : job.span<2^31)
    (hclear : max content.length job.offset+job.span<2^64)
    (h : HonestRun job ends content answered d) :
    Sound job content.length (InFile content) answered d.pull ∧ Idle job d.pull ∧
      d.stage=if d.pull.outstanding=[] then .done (finish job d.pull) else .running := by
  induction h with
  | start =>
    have hinit : job.offset+job.span<2^64 := by omega
    obtain ⟨⟨⟩,s,hs⟩ := fill_total hends job.ahead (.init job)
    have hfill : Meets (fill job ends job.ahead) (.init job) _ :=
      fill_meets job.ahead hspan (sound_init (InFile content) content.length hinit)
    rw [startDownload,hs]
    obtain ⟨hsound,hdone⟩ := (hfill.apply hs).2 hinit
    obtain ⟨hreceived,hwritten,hidle⟩ := hdone rfl
    refine ⟨hsound,⟨hidle (Nat.le_add_left _ _),?_⟩,rfl⟩
    change s.received.lookup s.written=none
    rw [hreceived]
    rfl
  | @reply answered d r answer h hrunning hr hanswer ih =>
    obtain ⟨hsound,-,-⟩ := ih
    have hmem := (mem_unanswered hsound r).1 hr
    have huniq : ∀ q∈d.pull.outstanding, q.id=r.id → q=r := fun q hq hid =>
      inj_on_of_nodup_map hsound.accounts.ids hq hmem hid
    obtain ⟨s,hs⟩ : ∃ s, turn job ends r.id answer d.pull=(.ok (),s) :=
      turn_ok hends hmem hsound.accounts.ids hanswer
    have hturn : Meets (turn job ends r.id answer) d.pull _ :=
      turn_meets hsound hspan fun q hq hid => (huniq q hq hid) ▸ hanswer.fit
    obtain ⟨hsink,hloop⟩ := hturn.apply hs
    simp only [stepDownload,hrunning,hs]
    rcases hloop (clear_of_sink hsink hclear) with ⟨q,hq,hid,hsound',hidle⟩ | ⟨e,he,-⟩
    · rw [huniq q hq hid] at hsound'
      exact ⟨hsound',hidle rfl,rfl⟩
    · cases he

end Reliable

end Honest

/-- A download that stays clear of the ends of its counters. From a server that has the file it delivers
the rest of the file, after finitely many replies; from any server it writes what came for each offset,
and asks for and keeps no more than its window. -/
theorem download_exact (job : Job) (hspan : job.span<2^31) :
    (∀ (ends : Ends) (content : Bytes) (answered : List Read) (d : Download), ends.Reliable →
      max content.length job.offset+job.span<2^64 → HonestRun job ends content answered d →
      answered.length<content.length-job.offset+job.span ∧
      (d.stage = .done (.ok (content.length-job.offset)) ∧ d.pull.sink=content.drop job.offset ∨
        d.stage = .running ∧ ∃ r, r∈d.pull.sent.diff answered)) ∧
    ∀ (ends : Ends) (incoming : List Incoming), Clear job (readTo job ends incoming).pull →
      (readTo job ends incoming).pull.sent.length≤ incoming.length+job.ahead ∧
      (readTo job ends incoming).pull.buffered≤job.span ∧
      ((readTo job ends incoming).stage = .running → ∀ id answer,
        (accept ends id answer (readTo job ends incoming).pull).2.buffered≤job.span) ∧
      ∀ i b, (readTo job ends incoming).pull.sink[i]?=some b →
        From (Heard job ends incoming) (job.offset+i) b := by
  constructor
  · intro ends content answered d hends hclear hrun
    obtain ⟨hsound,hidle,hstage⟩ := hrun.kept hends hspan hclear
    constructor
    · have hspent := hsound.spent
      have hnear := hsound.near
      have hposition := hsound.position
      rcases sink_le hsound.traced.sink with hnil | hle
      · rw [hnil,length_nil] at hposition
        omega
      · omega
    · by_cases hnone : d.pull.outstanding=[]
      · obtain ⟨hfinish,hsink⟩ := hsound.delivered hspan hidle hnone
        rw [if_pos hnone,hfinish] at hstage
        exact .inl ⟨hstage,hsink⟩
      · rw [if_neg hnone] at hstage
        obtain ⟨r,hr⟩ := exists_mem_of_ne_nil _ hnone
        exact .inr ⟨hstage,r,(mem_unanswered hsound r).2 hr⟩
  · intro ends incoming hclear
    have hkept := readTo_kept hspan incoming hclear
    exact ⟨hkept.bounded.sent,hkept.bounded.buffered,
      fun hrunning id answer => readTo_peak hspan hclear hrunning id answer,hkept.bounded.traced.sink⟩

def plainEnds : Ends := ⟨fun _ => none,fun _ _ => none⟩

theorem plainEnds_reliable : plainEnds.Reliable := ⟨fun _ => rfl,fun _ _ => rfl⟩

def smallJob : Job := ⟨0,2,2,1,by decide,by decide,by decide⟩

/-- A file of one byte, with the end of the file reported before its data. -/
theorem download_exact_small : smallJob.span<2^31 ∧
    ∃ answered d, HonestRun smallJob plainEnds [7] answered d ∧
      answered.length<1+smallJob.span ∧ d.stage = .done (.ok 1) ∧ d.pull.sink=[7] := by
  have hstart : HonestRun smallJob plainEnds [7] [] (startDownload smallJob plainEnds) := .start
  have h₂ := @HonestRun.reply _ _ _ _ _ ⟨2,2,2⟩ _ hstart rfl (by decide) (.eof [] (by decide))
  have h₁ := @HonestRun.reply _ _ _ _ _ ⟨1,0,2⟩ _ h₂ rfl (by decide)
    (.data [7] (by decide) (by decide) (by decide))
  have h₃ := @HonestRun.reply _ _ _ _ _ ⟨3,1,1⟩ _ h₁ rfl (by decide) (.eof [] (by decide))
  obtain ⟨hlen,hdone | ⟨hrunning,-⟩⟩ := (download_exact smallJob (by decide)).1 plainEnds [7] _ _
    plainEnds_reliable (by decide) h₃
  · exact ⟨by decide,_,_,h₃,hlen,hdone⟩
  · cases hrunning

/- A download that starts four bytes below the last offset. -/
def lateJob : Job := ⟨2^64-4,1,2,1,by decide,by decide,by decide⟩

theorem zero_inFile {n off : Nat} (h : off<n) : ([0] : Bytes) <+: (replicate n 0).drop off := by
  obtain ⟨k,hk⟩ := Nat.exists_eq_add_of_lt h
  rw [drop_replicate,hk,show off+k+1-off=k+1 by omega]
  exact prefix_append [0] _

/-- A file of 2^64 - 1 bytes: the request behind its end takes `next` past 2^64, the following one asks
for the first byte of the file, and that byte is left over. -/
theorem download_wraps : lateJob.offset+(lateJob.depth+1)*lateJob.chunk<2^64 ∧ plainEnds.Reliable ∧
    ∃ answered d, HonestRun lateJob plainEnds (replicate (2^64-1) 0) answered d ∧
      d.stage = .done (.error (.protocol "sftp: gap in file data")) := by
  have hstart : HonestRun lateJob plainEnds (replicate (2^64-1) 0) [] _ := .start
  have h₁ := @HonestRun.reply _ _ _ _ _ ⟨1,2^64-4,1⟩ _ hstart rfl (by decide)
    (.data [0] (by decide) (by decide) (zero_inFile (by decide)))
  have h₂ := @HonestRun.reply _ _ _ _ _ ⟨2,2^64-3,1⟩ _ h₁ rfl (by decide)
    (.data [0] (by decide) (by decide) (zero_inFile (by decide)))
  have h₃ := @HonestRun.reply _ _ _ _ _ ⟨3,2^64-2,1⟩ _ h₂ rfl (by decide)
    (.data [0] (by decide) (by decide) (zero_inFile (by decide)))
  have h₅ := @HonestRun.reply _ _ _ _ _ ⟨5,0,1⟩ _ h₃ rfl (by decide)
    (.data [0] (by decide) (by decide) (zero_inFile (by decide)))
  have h₄ := @HonestRun.reply _ _ _ _ _ ⟨4,2^64-1,1⟩ _ h₅ rfl (by decide)
    (.eof [] (by rw [length_replicate]))
  exact ⟨by decide,plainEnds_reliable,_,_,h₄,rfl⟩

end PureSsh.Sftp
