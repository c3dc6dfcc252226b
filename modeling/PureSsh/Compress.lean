import PureSsh.Format

/-! Packets in one stream of compressed bytes (`hazmat/compress/zlib.rs`). The library that
compresses is given by what its calls do. -/

namespace PureSsh.Compress
open Lib List

def chunkLen : Nat := 8*1024

inductive Status where
  | inputEmpty | outputFull | streamEnd

/- What a call does: the state it leaves, how much input it takes and what it writes. -/
structure Call (σ : Type) where
  state : σ
  consumed : Nat
  written : Bytes
  status : Status

structure Encoder where
  State : Type
  new : State
  encode : State → Bytes → Option (Call State)
  flush : State → Option (Call State)

structure Decoder where
  State : Type
  new : State
  decode : State → Bytes → Option (Call State)
  consumed_le : ∀ {t input c}, decode t input=some c → c.consumed≤ input.length

/- The loops of `flush` and `decode`: a whole chunk is followed by another call. -/
def drain {σ : Type} (call : σ → Bytes → Option (Call σ)) (err : String → Error)
    (cap : Option Nat) : Nat → σ → Bytes → Bytes → Result (Bytes × σ)
  | 0, _, _, _ => .error .hang
  | fuel+1, s, input, out => match call s input with
    | none => .error (err "failed")
    | some c =>
      if cap.any (· < out.length+c.written.length) then
        .error (.format "zlib decompressed too large")
      else match c.status with
        | .inputEmpty =>
          if c.written.length=chunkLen then
            drain call err cap fuel c.state (input.drop c.consumed) (out++c.written)
          else .ok (out++c.written,c.state)
        | .outputFull =>
          if c.consumed=0 ∧ c.written=[] then .error (err "stalled")
          else drain call err cap fuel c.state (input.drop c.consumed) (out++c.written)
        | .streamEnd => .error (err "closed")

namespace Encoder
variable (E : Encoder)

def error (msg : String) : Error := .crypto ("zlib compress " ++ msg)

/- The loop of `encode`. -/
def push : Nat → E.State → Bytes → Bytes → Result (Bytes × E.State)
  | 0, _, _, _ => .error .hang
  | fuel+1, s, input, out =>
    if input=[] then .ok (out,s)
    else match E.encode s input with
      | none => .error (error "failed")
      | some c => match c.status with
        | .inputEmpty => .ok (out++c.written,c.state)
        | .outputFull =>
          if c.consumed=0 ∧ c.written=[] then .error (error "stalled")
          else push fuel c.state (input.drop c.consumed) (out++c.written)
        | .streamEnd => .error (error "closed")

/- The loop around `flush` looks at what is written only. -/
def emit (s : E.State) (_ : Bytes) : Option (Call E.State) :=
  (E.flush s).map fun c => { c with consumed := 0 }

/- `ZlibDeflate::step` -/
def deflate (fuel : Nat) (s : E.State) (input : Bytes) : Result (Bytes × E.State) := do
  let (out,s) ← E.push fuel s input []
  drain E.emit error none fuel s [] out

end Encoder

/- `ZlibInflate::step` -/
def Decoder.inflate (D : Decoder) (maxOutput fuel : Nat) (t : D.State) (input : Bytes) :
    Result (Bytes × D.State) :=
  drain D.decode (fun msg => .format ("zlib decompress " ++ msg)) (some maxOutput) fuel t input []

/- Each payload is compressed and decompressed in turn. -/
def transmit (E : Encoder) (D : Decoder) (maxOutput fuel : Nat) :
    E.State → D.State → List Bytes → Result (List Bytes)
  | _, _, [] => .ok []
  | s, t, payload::payloads => do
    let (packet,s) ← E.deflate fuel s payload
    let (out,t) ← D.inflate maxOutput fuel t packet
    let outs ← transmit E D maxOutput fuel s t payloads
    return out::outs

/-- A call fills the chunk unless nothing is left to be written, and reports the end of the input
only if it is at an end. -/
structure Call.Serves {σ : Type} (c : Call σ) (input : Bytes) (allWritten : Prop) : Prop where
  filled : c.written.length≠chunkLen → c.written.length<chunkLen ∧ allWritten
  status : c.status = .inputEmpty ∧ c.consumed=input.length ∨
    c.status = .outputFull ∧ c.written.length=chunkLen

/-- An encoder and a decoder of one stream. `queued` is what the encoder has written or has still
to write, `marked` that the end of a flush is part of it. -/
structure StreamPair where
  E : Encoder
  D : Decoder
  fed : E.State → Bytes
  sent : E.State → Bytes
  queued : E.State → Bytes
  marked : E.State → Prop
  taken : D.State → Bytes
  given : D.State → Bytes
  /-- what a stream of compressed bytes holds -/
  plain : Bytes → Bytes
  new : fed E.new=[] ∧ sent E.new=[] ∧ taken D.new=[] ∧ given D.new=[]
  sent_queued : ∀ s, sent s <+: queued s
  plain_mono : ∀ {a b}, a <+: b → plain a <+: plain b
  plain_queued : ∀ {s}, marked s → plain (queued s)=fed s
  encode : ∀ s input, ∃ c, E.encode s input=some c ∧
    c.Serves input (sent c.state=queued c.state) ∧
    fed c.state=fed s++input.take c.consumed ∧ sent c.state=sent s++c.written ∧
    (c.consumed=0 → queued c.state=queued s)
  flush : ∀ s, ∃ c, E.flush s=some c ∧ c.Serves [] (sent c.state=queued c.state) ∧
    fed c.state=fed s ∧ sent c.state=sent s++c.written ∧ marked c.state ∧
    (marked s → queued c.state=queued s ∨
      sent s=queued s ∧ (queued c.state).length<(queued s).length+chunkLen)
  decode : ∀ {t input s}, taken t++input=queued s → ∃ c, D.decode t input=some c ∧
    c.Serves input (given c.state=plain (taken c.state)) ∧
    taken c.state=taken t++input.take c.consumed ∧ given c.state=given t++c.written ∧
    given c.state <+: plain (taken c.state)

namespace Stored

/- A library that copies: what is written, and what is still to be written. -/
def call (s : Bytes × Bytes) (input : Bytes) : Call (Bytes × Bytes) where
  state := (s.1++(s.2++input).take chunkLen,(s.2++input).drop chunkLen)
  consumed := input.length
  written := (s.2++input).take chunkLen
  status := .inputEmpty

theorem call_serves (s : Bytes × Bytes) (input : Bytes) : (call s input).Serves input
    ((call s input).state.1=(call s input).state.1++(call s input).state.2) := by
  refine ⟨fun h => ?_,.inl ⟨rfl,rfl⟩⟩
  simp only [call,length_take] at h ⊢
  refine ⟨by omega,?_⟩
  rw [drop_eq_nil_of_le (by omega),append_nil]

/-- The assumptions can be met. -/
def pair : StreamPair where
  E := ⟨_,([],[]),fun s input => some (call s input),fun s => some (call s [])⟩
  D := ⟨_,([],[]),fun t input => some (call t input),by rintro _ _ _ ⟨⟩; exact le_rfl⟩
  fed s := s.1++s.2
  sent s := s.1
  queued s := s.1++s.2
  marked _ := True
  taken t := t.1++t.2
  given t := t.1
  plain := id
  new := ⟨rfl,rfl,rfl,rfl⟩
  sent_queued s := prefix_append _ _
  plain_mono h := h
  plain_queued _ := rfl
  encode s input := ⟨_,rfl,call_serves s input,by simp [call],rfl,fun h => by
    simp [call,length_eq_zero_iff.1 h]⟩
  flush s := ⟨_,rfl,call_serves s [],by simp [call],rfl,trivial,fun _ => .inl (by simp [call])⟩
  decode {t input _} _ :=
    ⟨_,rfl,call_serves t input,by simp [call],rfl,prefix_append _ _⟩

end Stored

section Loops
variable {σ : Type} {call : σ → Bytes → Option (Call σ)} {err : String → Error} {cap : Option Nat}
  {s : σ} {input out : Bytes} {c : Call σ} {all : Prop}

theorem Call.moved (h : c.written.length=chunkLen) : ¬(c.consumed=0 ∧ c.written=[]) := by
  rintro ⟨-,hnil⟩
  rw [hnil] at h
  cases h

theorem drain_serves (hcall : call s input=some c) (hc : c.Serves input all)
    (hcap : ∀ n∈cap, (out++c.written).length≤n) (fuel : Nat) :
    drain call err cap (fuel+1) s input out=if c.written.length=chunkLen then
      drain call err cap fuel c.state (input.drop c.consumed) (out++c.written)
      else .ok (out++c.written,c.state) := by
  have hnot : ¬cap.any (· < out.length+c.written.length)=true := by
    cases cap with
    | none => simp
    | some n => simpa using hcap n rfl
  rw [drain,hcall]
  dsimp only
  rw [if_neg hnot]
  obtain ⟨hs,-⟩ | ⟨hs,hfull⟩ := hc.status
  · rw [hs]
  · rw [hs,if_pos hfull]
    exact if_neg (Call.moved hfull)

/-- The loop ends, with what holds when a call has nothing left to write, if there is a bound on
what the calls write. -/
theorem drain_rule (call : σ → Bytes → Option (Call σ)) (err : String → Error) (cap : Option Nat)
    (I : σ → Bytes → Bytes → Prop) (J : σ → Bytes → Prop) (bound : Nat)
    (hcap : ∀ n∈cap, bound≤n) (h : I s input out)
    (hstep : ∀ s input out, I s input out → ∃ c all, call s input=some c ∧
      c.Serves input all ∧ (out++c.written).length≤bound ∧
      (c.written.length=chunkLen → I c.state (input.drop c.consumed) (out++c.written)) ∧
      (all → c.consumed=input.length → J c.state (out++c.written))) :
    ∃ out' s', J s' out' ∧ ∀ fuel, bound<fuel+out.length →
      drain call err cap fuel s input out = .ok (out',s') := by
  induction hn : bound-out.length using Nat.strong_induction_on generalizing s input out with
  | _ n ih =>
    obtain ⟨c,all,hcall,hc,hle,hnext,hdone⟩ := hstep s input out h
    have hrun := @drain_serves _ _ err cap _ _ out _ _ hcall hc
      fun n hn => le_trans hle (hcap n hn)
    rw [length_append] at hle
    by_cases hfull : c.written.length=chunkLen
    · have hpos : 0<chunkLen := by decide
      obtain ⟨out',s',hj,hrest⟩ := ih _ (by rw [length_append]; omega) (hnext hfull) rfl
      refine ⟨out',s',hj,fun fuel hfuel => ?_⟩
      cases fuel with
      | zero => omega
      | succ k =>
        rw [hrun,if_pos hfull]
        exact hrest k (by rw [length_append]; omega)
    · obtain ⟨-,hconsumed⟩ | ⟨-,hfull'⟩ := hc.status
      · refine ⟨_,_,hdone (hc.filled hfull).2 hconsumed,fun fuel hfuel => ?_⟩
        cases fuel with
        | zero => omega
        | succ k => rw [hrun,if_neg hfull]
      · exact absurd hfull' hfull

/-- Under a cap the loop ends whatever the calls do. -/
theorem drain_capped (hcall : ∀ {s input c}, call s input=some c → c.consumed≤ input.length)
    (herr : ∀ msg, err msg≠.hang) {n fuel : Nat} (hout : out.length≤n)
    (hfuel : input.length+n<fuel+out.length) :
    drain call err (some n) fuel s input out≠.error .hang ∧
      ∀ out' s', drain call err (some n) fuel s input out = .ok (out',s') → out'.length≤n := by
  induction fuel generalizing s input out with
  | zero => omega
  | succ fuel ih =>
    rw [drain]
    cases hc : call s input with
    | none => simp [herr]
    | some c =>
      have hle := hcall hc
      by_cases hcap : n<out.length+c.written.length
      · simp [hcap]
      have hroom : (out++c.written).length≤n := by simpa using hcap
      have hnext (hmoved : ¬(c.consumed=0 ∧ c.written=[])) := by
        refine @ih c.state (input.drop c.consumed) _ hroom ?_
        rw [← length_eq_zero_iff] at hmoved
        rw [length_drop,length_append]
        omega
      simp only [Option.any_some,decide_eq_true_eq,if_neg hcap]
      split
      · split_ifs with hfull
        · exact hnext (Call.moved hfull)
        · exact ⟨nofun,fun out' s' h => by cases h; exact hroom⟩
      · split_ifs with hstalled
        · simp [herr]
        · exact hnext hstalled
      · simp [herr]

end Loops

namespace StreamPair
variable (P : StreamPair) {s : P.E.State} {t : P.D.State} {base out : Bytes} {maxOutput : Nat}

theorem push_ok (s : P.E.State) (input out : Bytes) (h : P.sent s=base++out) :
    ∃ out' s' n, P.fed s'=P.fed s++input ∧ P.sent s'=base++out' ∧
      ∀ fuel>n, P.E.push fuel s input out = .ok (out',s') := by
  by_cases hinput : input=[]
  · refine ⟨out,s,0,by simp [hinput],h,fun fuel hfuel => ?_⟩
    cases fuel with
    | zero => omega
    | succ k => rw [Encoder.push,if_pos hinput]
  obtain ⟨c,hcall,hc,hfed,hsent,hqueued⟩ := P.encode s input
  have hbase : P.sent c.state=base++(out++c.written) := by rw [hsent,h,append_assoc]
  obtain ⟨hs,hall⟩ | ⟨hs,hfull⟩ := hc.status
  · rw [hall,take_length] at hfed
    refine ⟨_,c.state,0,hfed,hbase,fun fuel hfuel => ?_⟩
    cases fuel with
    | zero => omega
    | succ k => simp only [Encoder.push,if_neg hinput,hcall,hs]
  · -- either input is taken, or nothing is queued and there is less to write
    have hle : (P.sent s).length+chunkLen≤(P.queued c.state).length := by
      rw [← hfull,← length_append,← hsent]
      exact (P.sent_queued c.state).length_le
    have hlen := length_pos_iff.2 hinput
    obtain ⟨out',s',n,hfed',hsent',hrun⟩ :=
      push_ok c.state (input.drop c.consumed) (out++c.written) hbase
    refine ⟨out',s',n+1,?_,hsent',fun fuel hfuel => ?_⟩
    · rw [hfed',hfed,append_assoc,take_append_drop]
    · cases fuel with
      | zero => omega
      | succ k =>
        simp only [Encoder.push,if_neg hinput,hcall,hs,if_neg (Call.moved hfull)]
        exact hrun k (by omega)
termination_by (input.length,(P.queued s).length-(P.sent s).length)
decreasing_by
  rw [Prod.lex_def]
  by_cases hzero : c.consumed=0
  · refine .inr ⟨by simp [hzero],?_⟩
    rw [hqueued hzero] at hle ⊢
    rw [hsent,length_append]
    have hpos : 0<chunkLen := by decide
    exact Nat.sub_lt_sub_left (by omega) (by omega)
  · exact .inl (by rw [length_drop]; omega)

theorem flush_ok (h : P.sent s=base++out) : ∃ out' s' n, P.fed s'=P.fed s ∧
    P.sent s'=base++out' ∧ P.sent s'=P.queued s' ∧ P.marked s' ∧
    ∀ fuel>n, drain P.E.emit Encoder.error none fuel s [] out = .ok (out',s') := by
  obtain ⟨c₀,hcall₀,-⟩ := P.flush s
  obtain ⟨out',s',⟨hfed,hsent,hall,hmarked⟩,hrun⟩ := drain_rule P.E.emit Encoder.error none
    (fun s₁ input out₁ => input=[] ∧ P.fed s₁=P.fed s ∧ P.sent s₁=base++out₁ ∧
      (s₁=s ∨ P.marked s₁ ∧ P.queued s₁=P.queued c₀.state))
    (fun s₁ out₁ => P.fed s₁=P.fed s ∧ P.sent s₁=base++out₁ ∧ P.sent s₁=P.queued s₁ ∧
      P.marked s₁) ((P.queued c₀.state).length+chunkLen) nofun ⟨rfl,rfl,h,.inl rfl⟩ (by
    rintro s₁ _ out₁ ⟨rfl,hfed₁,hsent₁,hs₁⟩
    obtain ⟨c,hcall,hc,hfed,hsent,hmarked,hagain⟩ := P.flush s₁
    have hle := (P.sent_queued c.state).length_le
    have hlen := congrArg length hsent
    -- what is queued is fixed by the first call, up to a mark that fits one chunk
    have hqueued : P.queued c.state=P.queued c₀.state ∨ c.written.length<chunkLen ∧
        (P.queued c.state).length<(P.queued c₀.state).length+chunkLen := by
      obtain rfl | ⟨hmarked₁,hq⟩ := hs₁
      · exact .inl (by rw [Option.some.inj (hcall₀.symm.trans hcall)])
      · rw [← hq]
        refine (hagain hmarked₁).imp_right fun ⟨hsq,hlt⟩ => ⟨?_,hlt⟩
        rw [hsq,length_append] at hlen
        omega
    rw [hsent₁,append_assoc] at hsent
    have hemit : P.E.emit s₁ []=some { c with consumed := 0 } := by rw [Encoder.emit,hcall]; rfl
    refine ⟨_,_,hemit,⟨hc.filled,hc.status.imp_left fun h => ⟨h.1,rfl⟩⟩,?_,fun hfull => ?_,
      fun hall _ => ⟨hfed.trans hfed₁,hsent,hall,hmarked⟩⟩
    · change (out₁++c.written).length≤_
      rw [hsent,length_append] at hle
      obtain hq | ⟨-,hlt⟩ := hqueued
      · rw [hq] at hle
        omega
      · omega
    · exact ⟨drop_nil,hfed.trans hfed₁,hsent,
        .inr ⟨hmarked,hqueued.resolve_right fun hlt => Nat.ne_of_lt hlt.1 hfull⟩⟩)
  exact ⟨out',s',_,hfed,hsent,hall,hmarked,fun fuel hfuel => hrun fuel (Nat.lt_add_right _ hfuel)⟩

theorem inflate_ok {packet payload : Bytes} (hpacket : P.taken t++packet=P.queued s)
    (hplain : P.plain (P.queued s)=P.given t++payload) (hmax : payload.length≤ maxOutput) :
    ∃ t', P.taken t'=P.queued s ∧ P.given t'=P.given t++payload ∧
      ∀ fuel>maxOutput, P.D.inflate maxOutput fuel t packet = .ok (payload,t') := by
  obtain ⟨_,t',⟨htaken,hgiven,rfl⟩,hrun⟩ := drain_rule P.D.decode
    (fun msg => .format ("zlib decompress " ++ msg)) (some maxOutput)
    (fun t₁ input out => P.taken t₁++input=P.queued s ∧ P.given t₁=P.given t++out)
    (fun t₁ out => P.taken t₁=P.queued s ∧ P.given t₁=P.given t++out ∧ out=payload)
    payload.length (by simpa using hmax) ⟨hpacket,(append_nil _).symm⟩ (by
    rintro t₁ input out ⟨htaken,hgiven⟩
    obtain ⟨c,hcall,hc,htaken',hgiven',hpre⟩ := P.decode htaken
    rw [hgiven,append_assoc] at hgiven'
    have hrest : P.taken c.state++input.drop c.consumed=P.queued s := by
      rw [htaken',append_assoc,take_append_drop,htaken]
    refine ⟨c,_,hcall,hc,?_,fun _ => ⟨hrest,hgiven'⟩,fun hall hconsumed => ?_⟩
    · have hle := (hpre.trans (P.plain_mono ⟨_,hrest⟩)).length_le
      simpa [hplain,hgiven'] using hle
    · rw [hconsumed,drop_length,append_nil] at hrest
      rw [hrest,hplain] at hall
      exact ⟨hrest,hgiven',append_cancel_left (hgiven'.symm.trans hall)⟩)
  exact ⟨t',htaken,hgiven,fun fuel hfuel => hrun fuel (Nat.lt_of_le_of_lt hmax hfuel)⟩

theorem transmit_ok {payloads : List Bytes} (htaken : P.taken t=P.sent s)
    (hgiven : P.given t=P.fed s) (hmax : ∀ p∈payloads, p.length≤ maxOutput) :
    ∃ n, ∀ fuel>n, transmit P.E P.D maxOutput fuel s t payloads = .ok payloads := by
  induction payloads generalizing s t with
  | nil => exact ⟨0,fun _ _ => rfl⟩
  | cons payload payloads ih =>
    obtain ⟨out₁,s₁,n₁,hfed₁,hsent₁,hpush⟩ := P.push_ok s payload [] (append_nil _).symm
    obtain ⟨out₂,s₂,n₂,hfed₂,hsent₂,hall,hmarked,hflush⟩ := P.flush_ok hsent₁
    have hpacket : P.taken t++out₂=P.queued s₂ := by rw [← hall,hsent₂,htaken]
    have hplain : P.plain (P.queued s₂)=P.given t++payload := by
      rw [P.plain_queued hmarked,hfed₂,hfed₁,hgiven]
    obtain ⟨hpayload,hrest⟩ := forall_mem_cons.1 hmax
    obtain ⟨t',htaken',hgiven',hinflate⟩ := P.inflate_ok hpacket hplain hpayload
    obtain ⟨n₃,htail⟩ := ih (htaken'.trans hall.symm)
      (hgiven'.trans (hplain.symm.trans (P.plain_queued hmarked))) hrest
    refine ⟨n₁+n₂+n₃+maxOutput,fun fuel hfuel => ?_⟩
    simp only [transmit,Encoder.deflate,hpush fuel (by omega),except_ok_bind,
      hflush fuel (by omega),hinflate fuel (by omega),htail fuel (by omega)]
    rfl

end StreamPair

/-- Payloads of any lengths up to the cap come out one by one as they went in, and no input makes
the decoder's loop go on for ever or past the cap. -/
theorem packets_kept : (∀ (P : StreamPair) (maxOutput : Nat) (payloads : List Bytes),
      (∀ p∈payloads, p.length≤ maxOutput) → ∃ n, ∀ fuel>n,
        transmit P.E P.D maxOutput fuel P.E.new P.D.new payloads = .ok payloads) ∧
    ∀ (D : Decoder) (maxOutput : Nat) (t : D.State) (input : Bytes),
      ∀ fuel>input.length+maxOutput, D.inflate maxOutput fuel t input≠.error .hang ∧
        ∀ out t', D.inflate maxOutput fuel t input = .ok (out,t') → out.length≤ maxOutput := by
  refine ⟨fun P maxOutput payloads hmax => ?_,fun D maxOutput t input fuel hfuel => ?_⟩
  · obtain ⟨hfed,hsent,htaken,hgiven⟩ := P.new
    exact P.transmit_ok (htaken.trans hsent.symm) (hgiven.trans hfed.symm) hmax
  · exact drain_capped D.consumed_le (fun _ => by simp) (Nat.zero_le _) hfuel

/-- No bytes, and two whole chunks. -/
theorem packets_kept_whole_chunks : ∃ n, ∀ fuel>n,
    transmit Stored.pair.E Stored.pair.D (2*chunkLen) fuel Stored.pair.E.new Stored.pair.D.new
      [[],replicate (2*chunkLen) 7] = .ok [[],replicate (2*chunkLen) 7] :=
  packets_kept.1 Stored.pair _ _ (by simp)

end PureSsh.Compress
