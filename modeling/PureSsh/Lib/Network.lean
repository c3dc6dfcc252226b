import PureSsh.Lib.Program

/-! Two programs joined by two streams, and why their schedule does not matter. -/

namespace PureSsh.Lib

section Schedules

variable {α : Type} {r : α → α → Prop} {a b c : α} {m n : Nat}

/- Runs of a given length. -/
def Steps (r : α → α → Prop) : Nat → α → α → Prop
  | 0, a, c => a=c
  | n+1, a, c => ∃ b, r a b ∧ Steps r n b c

theorem Steps.append (h : Steps r m a b) (h' : Steps r n b c) : Steps r (m+n) a c := by
  induction m generalizing a with
  | zero =>
    cases h
    rwa [Nat.zero_add]
  | succ m ih =>
    obtain ⟨x,hx,h⟩ := h
    rw [Nat.succ_add]
    exact ⟨x,hx,ih h⟩

theorem exists_steps (h : Relation.ReflTransGen r a b) : ∃ n, Steps r n a b := by
  induction h with
  | refl => exact ⟨0,rfl⟩
  | tail _ hstep ih =>
    obtain ⟨n,hn⟩ := ih
    exact ⟨n+1,hn.append (n := 1) ⟨_,hstep,rfl⟩⟩

theorem Steps.reflTransGen (h : Steps r n a b) : Relation.ReflTransGen r a b := by
  induction n generalizing a with
  | zero =>
    cases h
    exact .refl
  | succ n ih =>
    obtain ⟨x,hx,h⟩ := h
    exact .head hx (ih h)

/- Two different steps can be taken one after the other, in either order. -/
def Diamond (r : α → α → Prop) : Prop :=
  ∀ a b c, r a b → r a c → b=c ∨ ∃ d, r b d ∧ r c d

def Stuck (r : α → α → Prop) (a : α) : Prop := ∀ b, ¬r a b

/-- Whatever is done, `c` is reached in the end: every run can be continued to `c`, and none is
longer than a fixed bound. -/
def Settles (r : α → α → Prop) (a c : α) : Prop :=
  Stuck r c ∧ (∀ b, Relation.ReflTransGen r a b → Relation.ReflTransGen r b c) ∧
    ∃ n, ∀ m b, Steps r m a b → m≤n

theorem Diamond.step (h : Diamond r) (hc : Stuck r c) (hac : Steps r n a c) (hab : r a b) :
    ∃ k, n=k+1 ∧ Steps r k b c := by
  induction n generalizing a b with
  | zero =>
    cases hac
    exact absurd hab (hc b)
  | succ n ih =>
    refine ⟨n,rfl,?_⟩
    obtain ⟨x,hx,hxc⟩ := hac
    obtain rfl | ⟨d,hxd,hbd⟩ := h a x b hx hab
    · exact hxc
    · obtain ⟨k,rfl,hk⟩ := ih hxc hxd
      exact ⟨d,hbd,hk⟩

/-- All runs have one length. -/
theorem Diamond.run (h : Diamond r) (hc : Stuck r c) (hac : Steps r n a c) (hab : Steps r m a b) :
    ∃ k, n=m+k ∧ Steps r k b c := by
  induction m generalizing a n with
  | zero =>
    cases hab
    exact ⟨n,(Nat.zero_add n).symm,hac⟩
  | succ m ih =>
    obtain ⟨x,hax,hxb⟩ := hab
    obtain ⟨k,rfl,hxc⟩ := h.step hc hac hax
    obtain ⟨j,rfl,hbc⟩ := ih hxc hxb
    exact ⟨j,Nat.add_right_comm m j 1,hbc⟩

/-- One complete run decides all of them. -/
theorem Diamond.settles (h : Diamond r) (hc : Stuck r c) (hac : Relation.ReflTransGen r a c) :
    Settles r a c := by
  obtain ⟨n,hn⟩ := exists_steps hac
  refine ⟨hc,fun b hab => ?_,n,fun m b hab => ?_⟩
  · obtain ⟨m,hm⟩ := exists_steps hab
    obtain ⟨k,-,hk⟩ := h.run hc hn hm
    exact hk.reflTransGen
  · obtain ⟨k,rfl,-⟩ := h.run hc hn hab
    exact Nat.le_add_right m k

end Schedules

variable {β ι ε σ τ ρ α : Type}

/- A program with its state. -/
structure Peer (β ι ε σ ρ : Type) where
  prog : Prog β ι ε σ (Option ρ)
  state : σ

def Prog.ended : Prog β ι ε σ (Option ρ) → Bool
  | .ret (some _) => true
  | .fail _ => true
  | _ => false

/- The next step of a program whose writes succeed: it waits for its inbox, and sees the end of the
stream once the other side has gone. -/
def Prog.advance (p body : Prog β ι ε σ (Option ρ)) (gone : Bool) (s : σ) (inbox : List β) :
    Option (Peer β ι ε σ ρ × List β × List β) :=
  match p, inbox with
  | .ret none, inbox => some (⟨body,s⟩,inbox,[])
  | .ret (some _), _ => none
  | .fail _, _ => none
  | .read k, [] => if gone then some (⟨k (.ok none),s⟩,[],[]) else none
  | .read k, b::inbox => some (⟨k (.ok (some b)),s⟩,inbox,[])
  | .write bs k, inbox => some (⟨k (.ok ()),s⟩,inbox,bs)
  | .act f k, inbox => some (⟨k s,f s⟩,inbox,[])

/- Both programs and what is under way to each. -/
structure Net (β ι ε σ τ ρ : Type) where
  left : Peer β ι ε σ ρ
  right : Peer β ι ε τ ρ
  toLeft : List β
  toRight : List β

namespace Net

variable {left : Prog β ι ε σ (Option ρ)} {right : Prog β ι ε τ (Option ρ)}

inductive Step (left : Prog β ι ε σ (Option ρ)) (right : Prog β ι ε τ (Option ρ)) :
    Net β ι ε σ τ ρ → Net β ι ε σ τ ρ → Prop
  | left {net : Net β ι ε σ τ ρ} {peer : Peer β ι ε σ ρ} {rest out : List β}
      (h : net.left.prog.advance left net.right.prog.ended net.left.state net.toLeft =
        some (peer,rest,out)) :
      Step left right net ⟨peer,net.right,rest,net.toRight++out⟩
  | right {net : Net β ι ε σ τ ρ} {peer : Peer β ι ε τ ρ} {rest out : List β}
      (h : net.right.prog.advance right net.left.prog.ended net.right.state net.toRight =
        some (peer,rest,out)) :
      Step left right net ⟨net.left,peer,net.toLeft++out,rest⟩

end Net

variable {body p : Prog β ι ε σ (Option ρ)} {inbox : List β} {s : σ}

/-- A step does not depend on what comes in later, nor on the other side's end. -/
theorem Prog.advance_append {rest out : List β} {peer : Peer β ι ε σ ρ}
    (h : p.advance body false s inbox=some (peer,rest,out)) (gone : Bool) (more : List β) :
    p.advance body gone s (inbox++more)=some (peer,rest++more,out) := by
  cases p with
  | ret r =>
    cases r with
    | none =>
      cases h
      rfl
    | some r => cases h
  | fail e => cases h
  | read k =>
    cases inbox with
    | nil => cases h
    | cons b inbox =>
      cases h
      rfl
  | write bs k =>
    cases h
    rfl
  | act f k =>
    cases h
    rfl

theorem Prog.not_ended {gone : Bool} {x : Peer β ι ε σ ρ × List β × List β}
    (h : p.advance body gone s inbox=some x) : p.ended=false := by
  cases p with
  | ret r => cases r <;> first | rfl | cases h
  | fail e => cases h
  | _ => rfl

namespace Net

variable {left : Prog β ι ε σ (Option ρ)} {right : Prog β ι ε τ (Option ρ)}

/-- The two sides do not get in each other's way. -/
theorem diamond : Diamond (Step left right) := by
  have hcross : ∀ {net : Net β ι ε σ τ ρ} {l : Peer β ι ε σ ρ} {r : Peer β ι ε τ ρ}
      {i i' o o' : List β},
      net.left.prog.advance left net.right.prog.ended net.left.state net.toLeft=some (l,i,o) →
      net.right.prog.advance right net.left.prog.ended net.right.state net.toRight =
        some (r,i',o') →
      ∃ d, Step left right ⟨l,net.right,i,net.toRight++o⟩ d ∧
        Step left right ⟨net.left,r,net.toLeft++o',i'⟩ d := by
    intro net l r i i' o o' hl hr
    have hl' := Prog.not_ended hr ▸ hl
    have hr' := Prog.not_ended hl ▸ hr
    exact ⟨⟨l,r,i++o',i'++o⟩,.right (Prog.advance_append hr' _ o),
      .left (Prog.advance_append hl' _ o')⟩
  intro a b c hab hac
  cases hab with
  | left hl =>
    cases hac with
    | left hl' =>
      rw [hl] at hl'
      cases hl'
      exact .inl rfl
    | right hr => exact .inr (hcross hl hr)
  | right hr =>
    cases hac with
    | left hl =>
      obtain ⟨d,hd,hd'⟩ := hcross hl hr
      exact .inr ⟨d,hd',hd⟩
    | right hr' =>
      rw [hr] at hr'
      cases hr'
      exact .inl rfl

abbrev Reach (left : Prog β ι ε σ (Option ρ)) (right : Prog β ι ε τ (Option ρ)) :
    Net β ι ε σ τ ρ → Net β ι ε σ τ ρ → Prop := Relation.ReflTransGen (Step left right)

variable {inbox out : List β}

theorem reach_left {p : Prog β ι ε σ α} {f : α → Prog β ι ε σ (Option ρ)} {s t : σ} {a : α}
    (h : p.Does s inbox out (.ok a) t) (r : Peer β ι ε τ ρ) (more sent : List β) :
    Reach left right ⟨⟨p.bind f,s⟩,r,inbox++more,sent⟩ ⟨⟨f a,t⟩,r,more,sent++out⟩ := by
  generalize hres : (Except.ok a : Except ε α)=res at h
  induction h generalizing sent with
  | ret b s =>
    cases hres
    rw [List.append_nil]
    exact .refl
  | fail => cases hres
  | read _ ih =>
    refine .head (.left rfl) ?_
    rw [List.append_nil]
    exact ih sent hres
  | write _ ih =>
    refine .head (.left rfl) ?_
    rw [← List.append_assoc]
    exact ih _ hres
  | act _ ih =>
    refine .head (.left rfl) ?_
    rw [List.append_nil]
    exact ih sent hres

theorem reach_right_result {p : Prog β ι ε τ α} (f : α → Prog β ι ε τ (Option ρ)) {s t : τ}
    {res : Except ε α} (h : p.Does s inbox out res t) (l : Peer β ι ε σ ρ) (more sent : List β) :
    Reach left right ⟨l,⟨p.bind f,s⟩,sent,inbox++more⟩
      ⟨l,⟨(Prog.lift res).bind f,t⟩,sent++out,more⟩ := by
  induction h generalizing sent with
  | ret b s =>
    rw [List.append_nil]
    exact .refl
  | fail e s =>
    rw [List.append_nil]
    exact .refl
  | read _ ih =>
    refine .head (.right rfl) ?_
    rw [List.append_nil]
    exact ih sent
  | write _ ih =>
    refine .head (.right rfl) ?_
    rw [← List.append_assoc]
    exact ih _
  | act _ ih =>
    refine .head (.right rfl) ?_
    rw [List.append_nil]
    exact ih sent

section Exchanges

variable {γ δ : Type} {p : Prog β ι ε σ α} {q : Prog β ι ε σ γ} {w : Prog β ι ε τ δ}
  {k : γ → Prog β ι ε σ (Option ρ)} {s s' s'' : σ} {t t' : τ} {out back : List β} {a : α} {c : γ}

/-- The right side takes `out` and answers with `back`. -/
def Answers (left : Prog β ι ε σ (Option ρ)) (right : Prog β ι ε τ (Option ρ))
    (r r' : Peer β ι ε τ ρ) (out back : List β) : Prop :=
  ∀ l, Reach left right ⟨l,r,[],out⟩ ⟨l,r',back,[]⟩

theorem answers_of_does (g : δ → Prog β ι ε τ (Option ρ)) {res : Except ε δ}
    (hw : w.Does t out back res t') :
    Answers left right ⟨w.bind g,t⟩ ⟨(Prog.lift res).bind g,t'⟩ out back := by
  intro l
  have h : Reach left right ⟨l,⟨w.bind g,t⟩,[],out++[]⟩
      ⟨l,⟨(Prog.lift res).bind g,t'⟩,back,[]⟩ := reach_right_result g hw l [] []
  rwa [List.append_nil] at h

variable {r r' : Peer β ι ε τ ρ}

theorem Answers.trans {r'' : Peer β ι ε τ ρ} (h : Answers left right r r' out [])
    (h' : Answers left right r' r'' [] back) : Answers left right r r'' out back :=
  fun l => (h l).trans (h' l)

theorem sends {f : α → Prog β ι ε σ (Option ρ)} (hp : p.Does s [] out (.ok a) s') :
    Reach left right ⟨⟨p.bind f,s⟩,r,[],[]⟩ ⟨⟨f a,s'⟩,r,[],out⟩ := reach_left hp r [] []

/-- The left side sends, the right side takes that and answers, and the left side takes the
answer. -/
theorem exchange (hp : p.Does s [] out (.ok a) s') (hw : Answers left right r r' out back)
    (hq : q.Does s' back [] (.ok c) s'') :
    Reach left right ⟨⟨p.bind fun _ => q.bind k,s⟩,r,[],[]⟩ ⟨⟨k c,s''⟩,r',[],[]⟩ := by
  have htake : Reach left right ⟨⟨q.bind k,s'⟩,r',back++[],[]⟩ ⟨⟨k c,s''⟩,r',[],[]⟩ :=
    reach_left hq r' [] []
  rw [List.append_nil] at htake
  exact (sends hp).trans ((hw _).trans htake)

end Exchanges

end Net

end PureSsh.Lib
