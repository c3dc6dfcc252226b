import Mathlib.Algebra.Ring.Nat
import Mathlib.Data.Bool.Basic
import Mathlib.Data.List.Basic
import Mathlib.Algebra.BigOperators.Group.List.Basic

/-! Credit-based flow control between two parties joined by FIFO queues. The parties are the
two Booleans, `x` and `!x`; a link is opened by one of them, confirmed or refused by the other,
carries data against granted windows, and is closed by each side on its own. -/

namespace PureSsh.Lib.CreditLink
open Function
variable {ι : Type}

/- One party's end of a link. -/
structure End (ι : Type) where
  id : ι
  peerId : ι
  recvWindow : Nat
  sendWindow : Nat
  recvMax : Nat
  sendMax : Nat
  closed : Bool
  peerClosed : Bool
  confirmed : Bool
  initiated : Bool

def End.dead (e : End ι) : Bool := e.closed && e.peerClosed

/- A signal names the id of the end it is addressed to, except for `open`, which names the
   id of the end that sends it. -/
inductive Sig (ι : Type) where
  | «open» (i : ι) (window max : Nat)
  | confirm (r j : ι) (window max : Nat)
  | refuse (r : ι)
  | data (r : ι) (len : Nat)
  | credit (r : ι) (n : Nat)
  | close (r : ι)

def Sig.dataLen : Sig ι → Nat
  | .data _ len => len
  | _ => 0

def Sig.creditLen : Sig ι → Nat
  | .credit _ n => n
  | _ => 0

/- The end that data or credit is for. -/
def Sig.addressee : Sig ι → Option ι
  | .data r _ | .credit r _ => some r
  | _ => none

variable {s : Sig ι} {closing : Bool} {l : List (Sig ι)} {r : ι}

theorem Sig.dataLen_of_addressee_none (h : s.addressee=none) : s.dataLen=0 := by
  cases s with
  | data => cases h
  | _ => rfl

theorem Sig.creditLen_of_addressee_none (h : s.addressee=none) : s.creditLen=0 := by
  cases s with
  | credit => cases h
  | _ => rfl

def dataSum (l : List (Sig ι)) : Nat := (l.map Sig.dataLen).sum
def creditSum (l : List (Sig ι)) : Nat := (l.map Sig.creditLen).sum

@[simp] theorem dataSum_nil : dataSum ([] : List (Sig ι))=0 := rfl
@[simp] theorem creditSum_nil : creditSum ([] : List (Sig ι))=0 := rfl
@[simp] theorem dataSum_cons (s : Sig ι) (l : List (Sig ι)) :
    dataSum (s::l)=s.dataLen+dataSum l := by simp [dataSum]
@[simp] theorem creditSum_cons (s : Sig ι) (l : List (Sig ι)) :
    creditSum (s::l)=s.creditLen+creditSum l := by simp [creditSum]
@[simp] theorem dataSum_append (l l' : List (Sig ι)) :
    dataSum (l++l')=dataSum l+dataSum l' := by simp [dataSum]
@[simp] theorem creditSum_append (l l' : List (Sig ι)) :
    creditSum (l++l')=creditSum l+creditSum l' := by simp [creditSum]

/- Data and credit for `r`, with a final `close` exactly when `closing`. -/
def Stream (r : ι) : List (Sig ι) → Bool → Prop
  | [], closing => closing=false
  | .data r' _::l, closing => r'=r ∧ Stream r l closing
  | .credit r' _::l, closing => r'=r ∧ Stream r l closing
  | .close r'::l, closing => r'=r ∧ l=[] ∧ closing=true
  | _::_, _ => False

theorem Stream.append {l' : List (Sig ι)} (h : Stream r l false) (h' : Stream r l' closing) :
    Stream r (l++l') closing := by
  induction l with
  | nil => exact h'
  | cons s l ih =>
    cases s with
    | data | credit => exact ⟨h.1,ih h.2⟩
    | close => exact absurd h.2.2 (by simp)
    | _ => exact h.elim

theorem Stream.addressed (h : Stream r l closing) (hs : s∈l) {r' : ι} (hr : s.addressee=some r') :
    r'=r := by
  induction l with
  | nil => cases hs
  | cons t l ih =>
    cases t with
    | data | credit =>
      rcases List.mem_cons.1 hs with rfl | hs
      · cases hr
        exact h.1
      · exact ih h.2 hs
    | close r'' =>
      rw [h.2.1,List.mem_singleton] at hs
      rw [hs] at hr
      cases hr
    | _ => exact h.elim

/- Both ends know each other: what each may still send, what is in flight and what the other
   has left to grant balance. -/
structure Flowing (e : Bool → End ι) (q : Bool → List (Sig ι)) : Prop where
  ids : ∀ x, (e x).peerId=(e !x).id
  closes : ∀ x, (e !x).peerClosed=true → (e x).closed=true ∧ q x=[]
  stream : ∀ x, Stream (e !x).id (q x) ((e x).closed && !(e !x).peerClosed)
  window : ∀ x, (e x).sendWindow+dataSum (q x)+creditSum (q !x)=(e !x).recvWindow
  maxPacket : ∀ x, (e x).sendMax=(e !x).recvMax
  small : ∀ x, ∀ s∈q x, s.dataLen≤(e !x).recvMax

theorem forall_party {P : Bool → Prop} (x : Bool) : (∀ y, P y) ↔ P x ∧ P (!x) := by
  cases x <;> simp [and_comm]

/- The same for one direction, from an end `a` with queue `qa` to an end `b` with queue `qb`. -/
structure Side (a b : End ι) (qa qb : List (Sig ι)) : Prop where
  ids : a.peerId=b.id
  closes : b.peerClosed=true → a.closed=true ∧ qa=[]
  stream : Stream b.id qa (a.closed && !b.peerClosed)
  window : a.sendWindow+dataSum qa+creditSum qb=b.recvWindow
  maxPacket : a.sendMax=b.recvMax
  small : ∀ s∈qa, s.dataLen≤b.recvMax

namespace Side
variable {a a' b : End ι} {qa qb : List (Sig ι)} {s : Sig ι}

/- A party that has not closed is still read by the other. -/
theorem peer_open (h : Side a b qa qb) (hc : a.closed=false) : b.peerClosed=false := by
  by_contra hp
  have hcl := (h.closes (by simpa using hp)).1
  rw [hc] at hcl
  cases hcl

theorem append (h : Side a b qa qb) (hc : a.closed=false) (hid : a'.peerId=a.peerId)
    (hmax : a'.sendMax=a.sendMax) (hs : Stream b.id [s] a'.closed)
    (hw : a'.sendWindow+s.dataLen=a.sendWindow) (hlen : s.dataLen≤b.recvMax) :
    Side a' b (qa++[s]) qb where
  ids := hid.trans h.ids
  closes hp := absurd hp (by simp [h.peer_open hc])
  stream := by
    have hst := h.stream
    rw [hc] at hst
    rw [h.peer_open hc,Bool.not_false,Bool.and_true]
    exact hst.append hs
  window := by
    have hwin := h.window
    simp only [dataSum_append,dataSum_cons,dataSum_nil]
    omega
  maxPacket := hmax.trans h.maxPacket
  small := List.forall_mem_append.2 ⟨h.small,by simpa using hlen⟩

theorem tail_small (h : Side a b (s::qa) qb) : ∀ t∈qa, t.dataLen≤b.recvMax :=
  (List.forall_mem_cons.1 h.small).2

/- Whatever is in flight is addressed to an end that has not seen a close yet. -/
theorem not_closed (h : Side a b (s::qa) qb) {p : Prop} (hp : b.peerClosed=true) : p :=
  absurd (h.closes hp).2 (List.cons_ne_nil s qa)

end Side

namespace Flowing
variable {e : Bool → End ι} {q : Bool → List (Sig ι)} {F : End ι} {l : List (Sig ι)}

theorem of_sides (x : Bool) (h : Side (e x) (e !x) (q x) (q !x))
    (h' : Side (e !x) (e x) (q !x) (q x)) : Flowing e q := by
  have hall : ∀ y, Side (e y) (e !y) (q y) (q !y) :=
    (forall_party x).2 ⟨h,by rwa [Bool.not_not]⟩
  exact ⟨fun y => (hall y).ids,fun y => (hall y).closes,fun y => (hall y).stream,
    fun y => (hall y).window,fun y => (hall y).maxPacket,fun y => (hall y).small⟩

theorem sent (x : Bool) (h : Side F (e !x) l (q !x)) (h' : Side (e !x) F (q !x) l) :
    Flowing (update e x F) (update q x l) := by
  have hne : (!x)≠x := Bool.not_ne_self x
  refine of_sides x ?_ ?_ <;> simpa only [update_self,update_of_ne hne]

theorem received (x : Bool) (h : Side (e x) F l (q !x)) (h' : Side F (e x) (q !x) l) :
    Flowing (update e (!x) F) (update q x l) := by
  have hne : (!x)≠x := Bool.not_ne_self x
  refine of_sides x ?_ ?_ <;>
    simpa only [update_self,update_of_ne hne,update_of_ne hne.symm]

variable (h : Flowing e q) (x : Bool)
include h

theorem side : Side (e x) (e !x) (q x) (q !x) :=
  ⟨h.ids x,h.closes x,h.stream x,h.window x,h.maxPacket x,h.small x⟩

theorem side_not : Side (e !x) (e x) (q !x) (q x) := by
  have hs := h.side (!x)
  rwa [Bool.not_not] at hs

theorem peer_reads {s : Sig ι} (hq : q x=s::l) : (e !x).peerClosed=false := by
  by_contra hp
  exact List.cons_ne_nil s l (hq ▸ (h.closes x (by simpa using hp)).2)

theorem peer_open (hc : (e x).closed=false) : (e !x).peerClosed=false := (h.side x).peer_open hc

theorem sendData (len : Nat) (hc : (e x).closed=false) (hw : len≤(e x).sendWindow)
    (hm : len≤(e x).sendMax) :
    Flowing (update e x { e x with sendWindow := (e x).sendWindow-len })
      (update q x (q x++[.data (e x).peerId len])) := by
  refine .sent x ((h.side x).append hc rfl rfl ⟨h.ids x,hc⟩ (Nat.sub_add_cancel hw) ?_)
    { h.side_not x with window := ?_ }
  · exact h.maxPacket x ▸ hm
  · simpa [Sig.creditLen] using (h.side_not x).window

theorem sendCredit (n : Nat) (hc : (e x).closed=false) :
    Flowing (update e x { e x with recvWindow := (e x).recvWindow+n })
      (update q x (q x++[.credit (e x).peerId n])) := by
  refine .sent x ((h.side x).append hc rfl rfl ⟨h.ids x,hc⟩ rfl (Nat.zero_le _))
    { h.side_not x with window := ?_ }
  have hwin := (h.side_not x).window
  simp only [creditSum_append,creditSum_cons,Sig.creditLen,creditSum_nil]
  omega

theorem sendClose (hc : (e x).closed=false) : Flowing (update e x { e x with closed := true })
      (update q x (q x++[.close (e x).peerId])) := by
  refine .sent x ((h.side x).append hc rfl rfl ⟨h.ids x,rfl,rfl⟩ rfl (Nat.zero_le _))
    { h.side_not x with window := ?_ }
  simpa [Sig.creditLen] using (h.side_not x).window

variable {r : ι}

theorem recvData {len : Nat} (hq : q x = .data r len::l) :
    r=(e !x).id ∧ len≤(e !x).recvWindow ∧ len≤(e !x).recvMax ∧
      Flowing (update e (!x) { e !x with recvWindow := (e !x).recvWindow-len }) (update q x l) := by
  have hs := h.side x
  have hs' := h.side_not x
  rw [hq] at hs hs'
  have hwin := hs.window
  simp only [dataSum_cons,Sig.dataLen] at hwin
  refine ⟨hs.stream.1,by omega,hs.small _ List.mem_cons_self,.received x
    { hs with closes := hs.not_closed, stream := hs.stream.2, window := ?_, small := hs.tail_small }
    { hs' with window := ?_ }⟩
  · dsimp only
    omega
  · simpa [Sig.creditLen] using hs'.window

theorem recvCredit {n : Nat} (hq : q x = .credit r n::l) :
    r=(e !x).id ∧ (e !x).sendWindow+n≤(e x).recvWindow ∧
      Flowing (update e (!x) { e !x with sendWindow := (e !x).sendWindow+n }) (update q x l) := by
  have hs := h.side x
  have hs' := h.side_not x
  rw [hq] at hs hs'
  have hwin := hs'.window
  simp only [creditSum_cons,Sig.creditLen] at hwin
  refine ⟨hs.stream.1,by omega,.received x
    { hs with closes := hs.not_closed, stream := hs.stream.2, window := ?_, small := hs.tail_small }
    { hs' with window := ?_ }⟩
  · simpa [Sig.dataLen] using hs.window
  · dsimp only
    omega

theorem recvClose (hq : q x = .close r::l) :
    r=(e !x).id ∧ Flowing (update e (!x) { e !x with peerClosed := true }) (update q x l) := by
  have hs := h.side x
  have hs' := h.side_not x
  rw [hq] at hs hs'
  obtain ⟨hr,rfl,hclosing⟩ := hs.stream
  rw [Bool.and_eq_true] at hclosing
  refine ⟨hr,.received x
    { hs with closes := fun _ => ⟨hclosing.1,rfl⟩, stream := ?_, window := ?_, small := nofun }
    { hs' with window := ?_ }⟩
  · exact Bool.and_false _
  · simpa [Sig.dataLen] using hs.window
  · simpa [Sig.creditLen] using hs'.window

end Flowing

/- An open that has been sent and not answered as far as its sender knows. -/
structure Pending (e : End ι) : Prop where
  initiated : e.initiated=true
  confirmed : e.confirmed=false
  closed : e.closed=false
  peerClosed : e.peerClosed=false

/- The sender of an open after the confirmation. -/
def End.settle (e : End ι) (j : ι) (window max : Nat) : End ι :=
  { e with peerId := j, sendWindow := window, sendMax := max, confirmed := true }

/- The other party's end, before it has answered. -/
structure Requested (e f : End ι) : Prop where
  initiated : f.initiated=false
  confirmed : f.confirmed=false
  closed : f.closed=false
  peerClosed : f.peerClosed=false
  peerId : f.peerId=e.id
  sendWindow : f.sendWindow=e.recvWindow
  sendMax : f.sendMax=e.recvMax

/- An accepted link. `E` and `B` are the ends and queues as they will be once the
   confirmation has arrived. -/
structure Live (o : Bool) (e : Bool → Option (End ι)) (q : Bool → List (Sig ι))
    (E : Bool → End ι) (B : Bool → List (Sig ι)) : Prop where
  flowing : Flowing E B
  confirmed : ∀ x, (E x).confirmed=true
  initiated : (E o).initiated=true
  acceptor : e (!o)=some (E !o)
  queue : q o=B o
  opener : e o=some (E o) ∧ q (!o)=B (!o) ∨
    ∃ P w m, Pending P ∧ e o=some P ∧ E o=P.settle (E !o).id w m ∧
      q (!o) = .confirm P.id (E !o).id w m::B (!o)

/- Every state a link opened by `o` can be in. -/
inductive Valid (o : Bool) (e : Bool → Option (End ι)) (q : Bool → List (Sig ι)) : Prop where
  | opening (P : End ι) (hP : Pending P) (ho : e o=some P) (ha : e (!o)=none)
      (hq : q o=[.open P.id P.recvWindow P.recvMax]) (hq' : q (!o)=[])
  | requested (P F : End ι) (hP : Pending P) (hF : Requested P F) (ho : e o=some P)
      (ha : e (!o)=some F) (hq : q o=[]) (hq' : q (!o)=[])
  | refused (P : End ι) (hP : Pending P) (ho : e o=some P)
      (ha : ∀ F∈e (!o), F.dead=true) (hq : q o=[]) (hq' : q (!o)=[.refuse P.id])
  | live (E : Bool → End ι) (B : Bool → List (Sig ι)) (h : Live o e q E B)
  | ended (hd : ∀ x, ∀ F∈e x, F.dead=true) (hq : ∀ x, q x=[])

theorem party_eq (x o : Bool) : x=o ∨ x = !o := by
  cases x <;> simp

namespace Live
variable {o : Bool} {e : Bool → Option (End ι)} {q : Bool → List (Sig ι)}
  {E : Bool → End ι} {B : Bool → List (Sig ι)} (h : Live o e q E B)
include h

variable {F : End ι} {x : Bool} {s : Sig ι} {l : List (Sig ι)}

/- A confirmed end is the end the flow invariant speaks of. -/
theorem end_eq (hF : e x=some F) (hc : F.confirmed=true) : E x=F := by
  rcases party_eq x o with rfl | rfl
  · rcases h.opener with ⟨ho,-⟩ | ⟨P,w,m,hP,ho,-⟩
    · exact Option.some.inj (ho.symm.trans hF)
    · cases ho.symm.trans hF
      rw [hP.confirmed] at hc
      cases hc
  · exact Option.some.inj (h.acceptor.symm.trans hF)

theorem confirmed_update (hc : F.confirmed=true) : ∀ y, (update E x F y).confirmed=true :=
  (forall_update_iff E fun _ F => F.confirmed=true).2 ⟨hc,fun y _ => h.confirmed y⟩

theorem send (hx : e x=some (E x)) (hid : F.id=(E x).id) (hc : F.confirmed=true)
    (hi : F.initiated=(E x).initiated) (hf : Flowing (update E x F) (update B x (B x++[s]))) :
    Live o (update e x (some F)) (update q x (q x++[s]))
      (update E x F) (update B x (B x++[s])) := by
  have hne : (!o)≠o := Bool.not_ne_self o
  rcases party_eq x o with rfl | rfl
  · refine ⟨hf,h.confirmed_update hc,?_,?_,?_,?_⟩ <;>
      simp only [update_self,update_of_ne hne]
    · exact hi.trans h.initiated
    · exact h.acceptor
    · rw [h.queue]
    · rcases h.opener with ⟨-,hq⟩ | ⟨P,w,m,hP,ho,-⟩
      · exact .inl ⟨trivial,hq⟩
      · cases ho.symm.trans hx
        cases hP.confirmed.symm.trans (h.confirmed x)
  · refine ⟨hf,h.confirmed_update hc,?_,?_,?_,?_⟩ <;>
      simp only [update_self,update_of_ne hne.symm]
    · exact h.initiated
    · exact h.queue
    · rcases h.opener with ⟨ho,hq⟩ | ⟨P,w,m,hP,ho,hE,hq⟩
      · exact .inl ⟨ho,by rw [hq]⟩
      · refine .inr ⟨P,w,m,hP,ho,hid ▸ hE,?_⟩
        rw [hq,hid]
        rfl

/- The signals the flow invariant speaks of are those after the confirmation. -/
theorem head (hq : q x=s::l) (hs : ∀ r j w m, s ≠ .confirm r j w m) :
    B x=s::l ∧ e (!x)=some (E !x) := by
  rcases party_eq x o with rfl | rfl
  · exact ⟨h.queue.symm.trans hq,h.acceptor⟩
  · rcases h.opener with ⟨ho,hB⟩ | ⟨P,w,m,-,-,-,hB⟩
    · exact ⟨hB.symm.trans hq,by rw [Bool.not_not]; exact ho⟩
    · have hhead := hB.symm.trans hq
      cases hhead
      exact absurd rfl (hs _ _ _ _)

theorem recv (hq : q x=s::l) (hid : F.id=(E !x).id) (hc : F.confirmed=true)
    (hi : F.initiated=(E !x).initiated) (hf : Flowing (update E (!x) F) (update B x l)) :
    Live o (update e (!x) (some F)) (update q x l) (update E (!x) F) (update B x l) := by
  have hne : (!o)≠o := Bool.not_ne_self o
  have hconf := h.confirmed_update (x := !x) hc
  rcases party_eq x o with rfl | rfl
  · refine ⟨hf,hconf,?_,?_,?_,?_⟩ <;>
      simp only [update_self,update_of_ne hne,update_of_ne hne.symm]
    · exact h.initiated
    · rcases h.opener with ⟨ho,hq'⟩ | ⟨P,w,m,hP,ho,hE,hq'⟩
      · exact .inl ⟨ho,hq'⟩
      · exact .inr ⟨P,w,m,hP,ho,hid ▸ hE,hid ▸ hq'⟩
  · rw [Bool.not_not] at hid hi hf hconf ⊢
    refine ⟨hf,hconf,?_,?_,?_,?_⟩ <;>
      simp only [update_self,update_of_ne hne,update_of_ne hne.symm]
    · exact hi.trans h.initiated
    · exact h.acceptor
    · exact h.queue
    · exact .inl ⟨trivial,trivial⟩

theorem confirm {r j : ι} {w m : Nat} (hq : q x = .confirm r j w m::l) :
    ∃ P, Pending P ∧ e (!x)=some P ∧ r=P.id ∧
      Live o (update e (!x) (some (P.settle j w m))) (update q x l) E B := by
  have hne : (!o)≠o := Bool.not_ne_self o
  rcases party_eq x o with rfl | rfl
  · have hst := h.flowing.stream x
    rw [← h.queue,hq] at hst
    exact hst.elim
  · rcases h.opener with ⟨ho,hB⟩ | ⟨P,w',m',hP,ho,hE,hB⟩
    · have hst := h.flowing.stream (!o)
      rw [← hB,hq] at hst
      exact hst.elim
    · cases hB.symm.trans hq
      refine ⟨P,hP,by rw [Bool.not_not]; exact ho,rfl,?_⟩
      rw [Bool.not_not]
      refine ⟨h.flowing,h.confirmed,h.initiated,?_,?_,?_⟩ <;>
        simp only [update_self,update_of_ne hne,update_of_ne hne.symm]
      · exact h.acceptor
      · exact h.queue
      · exact .inl ⟨by rw [hE],trivial⟩

end Live

def End.kill (e : End ι) : End ι := { e with closed := true, peerClosed := true }

namespace Live
variable {o : Bool} {e : Bool → Option (End ι)} {q : Bool → List (Sig ι)}
  {E : Bool → End ι} {B : Bool → List (Sig ι)} (h : Live o e q E B)
include h

/- A confirmation in flight is neither data nor credit. -/
theorem sums (x : Bool) : dataSum (q x)=dataSum (B x) ∧ creditSum (q x)=creditSum (B x) := by
  rcases party_eq x o with rfl | rfl
  · rw [h.queue]
    exact ⟨rfl,rfl⟩
  · rcases h.opener with ⟨-,hB⟩ | ⟨P,w,m,-,-,-,hB⟩
    · rw [hB]
      exact ⟨rfl,rfl⟩
    · rw [hB]
      simp [Sig.dataLen,Sig.creditLen]

theorem known (x : Bool) : ∃ F, e x=some F ∧ F.id=(E x).id ∧
    F.recvWindow=(E x).recvWindow ∧ F.recvMax=(E x).recvMax ∧ F.dead=(E x).dead := by
  rcases party_eq x o with rfl | rfl
  · rcases h.opener with ⟨ho,-⟩ | ⟨P,w,m,-,ho,hE,-⟩
    · exact ⟨E x,ho,rfl,rfl,rfl,rfl⟩
    · rw [hE]
      exact ⟨P,ho,rfl,rfl,rfl,rfl⟩
  · exact ⟨E !o,h.acceptor,rfl,rfl,rfl,rfl⟩

end Live

theorem Pending.dead {P : End ι} (h : Pending P) : P.dead=false := by
  simp [End.dead,h.closed]

namespace Valid
variable {o x : Bool} {e : Bool → Option (End ι)} {q : Bool → List (Sig ι)} {F : End ι}
  {l : List (Sig ι)} (h : Valid o e q)
include h

/- What a link is doing, seen from an end that still lives. -/
theorem end_cases (hx : e x=some F) (hd : F.dead=false) :
    Pending F ∨ (x=(!o) ∧ ∃ P, Pending P ∧ Requested P F ∧ e o=some P ∧ q o=[] ∧
      q (!o)=[]) ∨ ∃ E B, Live o e q E B := by
  have hopener : ∀ {P}, Pending P → e o=some P → x=o → Pending F := by
    rintro P hP ho rfl
    cases ho.symm.trans hx
    exact hP
  cases h with
  | opening P hP ho ha =>
    rcases party_eq x o with heq | rfl
    · exact .inl (hopener hP ho heq)
    · cases ha.symm.trans hx
  | requested P F' hP hF ho ha hq hq' =>
    rcases party_eq x o with heq | rfl
    · exact .inl (hopener hP ho heq)
    · cases ha.symm.trans hx
      exact .inr (.inl ⟨rfl,P,hP,hF,ho,hq,hq'⟩)
  | refused P hP ho ha =>
    rcases party_eq x o with heq | rfl
    · exact .inl (hopener hP ho heq)
    · cases hd.symm.trans (ha F hx)
  | live E B hl => exact .inr (.inr ⟨E,B,hl⟩)
  | ended hdead => cases hd.symm.trans (hdead x F hx)

theorem request (hx : e x=some F) (hi : F.initiated=false) (hc : F.confirmed=false)
    (hd : F.dead=false) : x=(!o) ∧ ∃ P, Pending P ∧ Requested P F ∧ e o=some P ∧
      q o=[] ∧ q (!o)=[] := by
  obtain hP | hreq | ⟨E,B,hl⟩ := h.end_cases hx hd
  · cases hi.symm.trans hP.initiated
  · exact hreq
  · rcases party_eq x o with rfl | rfl
    · rcases hl.opener with ⟨ho,-⟩ | ⟨P,w,m,hP,ho,-⟩
      · cases ho.symm.trans hx
        cases hi.symm.trans hl.initiated
      · cases ho.symm.trans hx
        cases hi.symm.trans hP.initiated
    · cases hl.acceptor.symm.trans hx
      cases hc.symm.trans (hl.confirmed _)

theorem accept (hx : e x=some F) (hi : F.initiated=false) (hc : F.confirmed=false)
    (hd : F.dead=false) : Valid o (update e x (some { F with confirmed := true }))
      (update q x (q x++[.confirm F.peerId F.id F.recvWindow F.recvMax])) := by
  have hne : (!o)≠o := Bool.not_ne_self o
  obtain ⟨rfl,P,hP,hF,ho,hq,hq'⟩ := h.request hx hi hc hd
  let E : Bool → End ι := fun y =>
    if y=o then P.settle F.id F.recvWindow F.recvMax else { F with confirmed := true }
  have hEo : E o=P.settle F.id F.recvWindow F.recvMax := if_pos rfl
  have hEa : E (!o) = { F with confirmed := true } := if_neg hne
  refine .live E (fun _ => []) ⟨?_,?_,?_,?_,?_,?_⟩
  · refine .of_sides o ?_ ?_ <;> rw [hEo,hEa]
    · refine ⟨rfl,?_,?_,rfl,rfl,nofun⟩
      · simp [hF.peerClosed]
      · simp [Stream,End.settle,hP.closed]
    · refine ⟨hF.peerId,?_,?_,?_,hF.sendMax,nofun⟩
      · simp [End.settle,hP.peerClosed]
      · simp [Stream,hF.closed]
      · simpa [End.settle] using hF.sendWindow
  · intro y
    rcases party_eq y o with rfl | rfl
    · rw [hEo]
      rfl
    · rw [hEa]
  · rw [hEo]
    exact hP.initiated
  · rw [update_self,hEa]
  · rw [update_of_ne hne.symm,hq]
  · refine .inr ⟨P,F.recvWindow,F.recvMax,hP,?_,?_,?_⟩
    · rw [update_of_ne hne.symm,ho]
    · rw [hEo,hEa]
    · rw [update_self,hq',hEa,hF.peerId]
      rfl

theorem reject (hx : e x=some F) (hi : F.initiated=false) (hc : F.confirmed=false)
    (hd : F.dead=false) : Valid o (update e x (some F.kill))
      (update q x (q x++[.refuse F.peerId])) := by
  have hne : (!o)≠o := Bool.not_ne_self o
  obtain ⟨rfl,P,hP,hF,ho,hq,hq'⟩ := h.request hx hi hc hd
  refine .refused P hP ?_ ?_ ?_ ?_
  · rw [update_of_ne hne.symm,ho]
  · intro G hG
    rw [update_self] at hG
    cases hG
    rfl
  · rw [update_of_ne hne.symm,hq]
  · rw [update_self,hq',hF.peerId]
    rfl

theorem established (hx : e x=some F) (hc : F.confirmed=true) (hd : F.dead=false) :
    ∃ E B, Live o e q E B ∧ E x=F := by
  obtain hP | ⟨-,P,-,hF,-⟩ | ⟨E,B,hl⟩ := h.end_cases hx hd
  · cases hc.symm.trans hP.confirmed
  · cases hc.symm.trans hF.confirmed
  · exact ⟨E,B,hl,hl.end_eq hx hc⟩

variable {s : Sig ι} {r : ι}

/- What the head of a queue says about the state of the link. -/
theorem head_cases (hq : q x=s::l) : (x=o ∧ l=[] ∧ q (!x)=[] ∧ e (!x)=none ∧
      ∃ P, Pending P ∧ e x=some P ∧ s = .open P.id P.recvWindow P.recvMax) ∨
    (x=(!o) ∧ l=[] ∧ q o=[] ∧ (∀ F∈e x, F.dead=true) ∧
      ∃ P, Pending P ∧ e o=some P ∧ s = .refuse P.id) ∨ ∃ E B, Live o e q E B := by
  cases h with
  | opening P hP ho ha hqo hqa =>
    rcases party_eq x o with rfl | rfl
    · cases hqo.symm.trans hq
      exact .inl ⟨rfl,rfl,hqa,ha,P,hP,ho,rfl⟩
    · cases hqa.symm.trans hq
  | requested P F' hP hF ho ha hqo hqa =>
    rcases party_eq x o with rfl | rfl
    · cases hqo.symm.trans hq
    · cases hqa.symm.trans hq
  | refused P hP ho ha hqo hqa =>
    rcases party_eq x o with rfl | rfl
    · cases hqo.symm.trans hq
    · cases hqa.symm.trans hq
      exact .inr (.inl ⟨rfl,rfl,hqo,ha,P,hP,ho,rfl⟩)
  | live E B hl => exact .inr (.inr ⟨E,B,hl⟩)
  | ended hdead hnil => cases (hnil x).symm.trans hq

theorem live_of_head (hq : q x=s::l) (ho : ∀ i w m, s ≠ .open i w m) (hr : ∀ r, s ≠ .refuse r) :
    ∃ E B, Live o e q E B := by
  obtain ⟨-,-,-,-,P,-,-,rfl⟩ | ⟨-,-,-,-,P,-,-,rfl⟩ | hl := h.head_cases hq
  · exact absurd rfl (ho _ _ _)
  · exact absurd rfl (hr _)
  · exact hl

theorem recvOpen {i : ι} {w m : Nat} (hq : q x = .open i w m::l) :
    x=o ∧ l=[] ∧ q (!x)=[] ∧ e (!x)=none ∧
      ∃ P, Pending P ∧ e x=some P ∧ i=P.id ∧ w=P.recvWindow ∧ m=P.recvMax := by
  obtain ⟨hx,hl,hq',he,P,hP,ho,heq⟩ | ⟨-,-,-,-,P,-,-,⟨⟩⟩ | ⟨E,B,hl⟩ :=
    h.head_cases hq
  · cases heq
    exact ⟨hx,hl,hq',he,P,hP,ho,rfl,rfl,rfl⟩
  · have hst := hl.flowing.stream x
    rw [(hl.head hq (by simp)).1] at hst
    exact hst.elim

theorem recvRefuse (hq : q x = .refuse r::l) : ∃ P, Pending P ∧ e (!x)=some P ∧ r=P.id ∧
      Valid o (update e (!x) (some P.kill)) (update q x l) := by
  obtain ⟨-,-,-,-,P,-,-,⟨⟩⟩ | ⟨rfl,rfl,hqo,ha,P,hP,ho,heq⟩ | ⟨E,B,hl⟩ :=
    h.head_cases hq
  · cases heq
    rw [Bool.not_not]
    refine ⟨P,hP,ho,rfl,.ended ?_ ?_⟩
    · refine (forall_update_iff e fun _ F => ∀ G∈F, G.dead=true).2 ⟨?_,fun y hy => ?_⟩
      · rintro G ⟨⟩
        rfl
      · rw [(party_eq y o).resolve_left hy]
        exact ha
    · refine (forall_update_iff q fun _ l => l=[]).2 ⟨rfl,fun y hy => ?_⟩
      rw [(party_eq y o).resolve_right hy]
      exact hqo
  · have hst := hl.flowing.stream x
    rw [(hl.head hq (by simp)).1] at hst
    exact hst.elim

theorem addressed (hs : s∈q x) (hr : s.addressee=some r) :
    ∃ F, e (!x)=some F ∧ r=F.id ∧ F.dead=false := by
  obtain ⟨s',l,hq⟩ := List.exists_cons_of_ne_nil (List.ne_nil_of_mem hs)
  have hsame : s'.addressee=none → l≠[] := by
    rintro hnone rfl
    rw [hq,List.mem_singleton] at hs
    rw [hs,hnone] at hr
    cases hr
  obtain ⟨-,hl,-,-,P,-,-,rfl⟩ | ⟨-,hl,-,-,P,-,-,rfl⟩ | ⟨E,B,hl⟩ := h.head_cases hq
  · exact absurd hl (hsame rfl)
  · exact absurd hl (hsame rfl)
  · -- the confirmation may precede, but it is neither data nor credit
    have hB : s∈B x := by
      rcases party_eq x o with rfl | rfl
      · rwa [← hl.queue]
      · rcases hl.opener with ⟨-,hB⟩ | ⟨P,w,m,-,-,-,hB⟩
        · rwa [← hB]
        · rw [hB] at hs
          rcases List.mem_cons.1 hs with rfl | hs
          · cases hr
          · exact hs
    have hid := (hl.flowing.stream x).addressed hB hr
    obtain ⟨b,l',hBl⟩ := List.exists_cons_of_ne_nil (List.ne_nil_of_mem hB)
    obtain ⟨F,hF,hid',-,-,hdead⟩ := hl.known (!x)
    refine ⟨F,hF,hid.trans hid'.symm,hdead.trans ?_⟩
    simp [End.dead,hl.flowing.peer_reads x hBl]

end Valid
end PureSsh.Lib.CreditLink
