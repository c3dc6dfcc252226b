import Mathlib.Algebra.Ring.Nat
import Mathlib.Logic.Relation

/-! Programs that talk over one stream and keep a state of their own. -/

namespace PureSsh.Lib

/- `ι` are the errors of the stream and `ε` those of the program. A read gives one item, nothing at
the end of the stream, or an error. -/
inductive Prog (β ι ε σ α : Type) : Type
  | ret (a : α)
  | fail (e : ε)
  | read (k : Except ι (Option β) → Prog β ι ε σ α)
  | write (bs : List β) (k : Except ι Unit → Prog β ι ε σ α)
  | act (f : σ → σ) (k : σ → Prog β ι ε σ α)

namespace Prog

variable {β ι ε ε' σ α γ δ ρ : Type}

def bind : Prog β ι ε σ α → (α → Prog β ι ε σ γ) → Prog β ι ε σ γ
  | .ret a, f => f a
  | .fail e, _ => .fail e
  | .read k, f => .read fun i => (k i).bind f
  | .write bs k, f => .write bs fun r => (k r).bind f
  | .act g k, f => .act g fun s => (k s).bind f

instance : Monad (Prog β ι ε σ) where
  pure := ret
  bind := bind

theorem bind_def (p : Prog β ι ε σ α) (f : α → Prog β ι ε σ γ) : p >>= f=p.bind f := rfl

@[simp] theorem ret_bind (a : α) (f : α → Prog β ι ε σ γ) : (ret a).bind f=f a := rfl

@[simp] theorem fail_bind (e : ε) (f : α → Prog β ι ε σ γ) : (fail e).bind f=fail e := rfl

theorem bind_assoc (p : Prog β ι ε σ α) (f : α → Prog β ι ε σ γ) (g : γ → Prog β ι ε σ δ) :
    (p.bind f).bind g=p.bind fun a => (f a).bind g := by
  induction p with
  | ret a => rfl
  | fail e => rfl
  | read k ih => exact congrArg read (funext ih)
  | write bs k ih => exact congrArg (write bs) (funext ih)
  | act h k ih => exact congrArg (act h) (funext ih)

theorem bind_ret (p : Prog β ι ε σ α) : p.bind ret=p := by
  induction p with
  | ret a => rfl
  | fail e => rfl
  | read k ih => exact congrArg read (funext ih)
  | write bs k ih => exact congrArg (write bs) (funext ih)
  | act h k ih => exact congrArg (act h) (funext ih)

def get : Prog β ι ε σ σ := act id ret

def modify (f : σ → σ) : Prog β ι ε σ Unit := act f fun _ => ret ()

def lift : Except ε α → Prog β ι ε σ α
  | .ok a => ret a
  | .error e => fail e

/- The result of a program as a value. -/
def attempt : Prog β ι ε σ α → Prog β ι ε' σ (Except ε α)
  | .ret a => .ret (.ok a)
  | .fail e => .ret (.error e)
  | .read k => .read fun i => (k i).attempt
  | .write bs k => .write bs fun r => (k r).attempt
  | .act g k => .act g fun s => (k s).attempt

/- What may happen along a program: what holds in every state, where it may read, and what one step
of the state may do. -/
structure Bounds (σ : Type) where
  inv : σ → Prop
  reads : σ → Prop := fun _ => True
  moves : σ → σ → Prop := fun _ _ => True

/-- Whatever the stream does, the program stays in bounds, and what it returns satisfies `Q`. -/
def Safe (B : Bounds σ) (Q : α → σ → Prop) : Prog β ι ε σ α → σ → Prop
  | .ret a, s => B.inv s ∧ Q a s
  | .fail _, s => B.inv s
  | .read k, s => B.inv s ∧ B.reads s ∧ ∀ i, (k i).Safe B Q s
  | .write _ k, s => B.inv s ∧ ∀ r, (k r).Safe B Q s
  | .act f k, s => B.inv s ∧ B.moves s (f s) ∧ (k s).Safe B Q (f s)

section Rules

variable {B : Bounds σ} {Q : α → σ → Prop} {Q' : γ → σ → Prop} {p : Prog β ι ε σ α} {s : σ}

theorem Safe.inv (h : p.Safe B Q s) : B.inv s := by
  cases p with
  | fail => exact h
  | _ => exact h.1

theorem Safe.bind {f : α → Prog β ι ε σ γ} (hp : p.Safe B Q s)
    (hf : ∀ a t, B.inv t → Q a t → (f a).Safe B Q' t) : (p.bind f).Safe B Q' s := by
  induction p generalizing s with
  | ret a => exact hf a s hp.1 hp.2
  | fail e => exact hp
  | read k ih => exact ⟨hp.1,hp.2.1,fun i => ih i (hp.2.2 i)⟩
  | write bs k ih => exact ⟨hp.1,fun r => ih r (hp.2 r)⟩
  | act g k ih => exact ⟨hp.1,hp.2.1,ih s hp.2.2⟩

theorem Safe.mono {Q₂ : α → σ → Prop} (hp : p.Safe B Q s)
    (h : ∀ a t, B.inv t → Q a t → Q₂ a t) : p.Safe B Q₂ s := by
  induction p generalizing s with
  | ret a => exact ⟨hp.1,h a s hp.1 hp.2⟩
  | fail e => exact hp
  | read k ih => exact ⟨hp.1,hp.2.1,fun i => ih i (hp.2.2 i)⟩
  | write bs k ih => exact ⟨hp.1,fun r => ih r (hp.2 r)⟩
  | act g k ih => exact ⟨hp.1,hp.2.1,ih s hp.2.2⟩

theorem Safe.attempt {R : Except ε α → σ → Prop} (hp : p.Safe B Q s)
    (hok : ∀ a t, B.inv t → Q a t → R (.ok a) t) (herr : ∀ e t, B.inv t → R (.error e) t) :
    (p.attempt : Prog β ι ε' σ (Except ε α)).Safe B R s := by
  induction p generalizing s with
  | ret a => exact ⟨hp.1,hok a s hp.1 hp.2⟩
  | fail e => exact ⟨hp,herr e s hp⟩
  | read k ih => exact ⟨hp.1,hp.2.1,fun i => ih i (hp.2.2 i)⟩
  | write bs k ih => exact ⟨hp.1,fun r => ih r (hp.2 r)⟩
  | act g k ih => exact ⟨hp.1,hp.2.1,ih s hp.2.2⟩

end Rules

/- One step of a loop in a world where the stream may do anything. The body returns nothing to go
round again. -/
inductive Turn (body : Prog β ι ε σ (Option ρ)) :
    Prog β ι ε σ (Option ρ) × σ → Prog β ι ε σ (Option ρ) × σ → Prop
  | read (k : Except ι (Option β) → Prog β ι ε σ (Option ρ)) (i : Except ι (Option β)) (s : σ) :
      Turn body (.read k,s) (k i,s)
  | write (bs : List β) (k : Except ι Unit → Prog β ι ε σ (Option ρ)) (r : Except ι Unit) (s : σ) :
      Turn body (.write bs k,s) (k r,s)
  | act (f : σ → σ) (k : σ → Prog β ι ε σ (Option ρ)) (s : σ) :
      Turn body (.act f k,s) (k s,f s)
  | again (s : σ) : Turn body (.ret none,s) (body,s)

/-- The configurations of a loop that starts in `s`. -/
def Reaches (body : Prog β ι ε σ (Option ρ)) (s : σ) (c : Prog β ι ε σ (Option ρ) × σ) : Prop :=
  Relation.ReflTransGen (Turn body) (body,s) c

section Loops

variable {B : Bounds σ} {L : σ → Prop} {Q : Option ρ → σ → Prop}
  {body p : Prog β ι ε σ (Option ρ)} {s t : σ}

/- What the body of a loop has to return: the loop invariant, if it goes round again. -/
def Back (L : σ → Prop) (r : Option ρ) (s : σ) : Prop := r=none → L s

/-- The invariant rule of loops. -/
theorem Safe.reaches (hbody : ∀ s, L s → body.Safe B Q s) (hback : ∀ s, Q none s → L s)
    (hs : L s) (h : Reaches body s (p,t)) : p.Safe B Q t := by
  suffices hall : ∀ c, Reaches body s c → c.1.Safe B Q c.2 from hall _ h
  intro c hc
  induction hc with
  | refl => exact hbody s hs
  | tail _ hturn ih =>
    cases hturn with
    | read k i s => exact ih.2.2 i
    | write bs k r s => exact ih.2 r
    | act f k s => exact ih.2.2
    | again s => exact hbody s (hback s ih.2)

end Loops

/-- The program comes to an error without reading any more, whatever becomes of its writes. -/
def Ends : Prog β ι ε σ α → σ → Prop
  | .ret _, _ => False
  | .fail _, _ => True
  | .read _, _ => False
  | .write _ k, s => ∀ r, (k r).Ends s
  | .act f k, s => (k s).Ends (f s)

/-- A program that may neither read nor return any more comes to an error. -/
theorem Safe.ends {B : Bounds σ} {Q : α → σ → Prop} {D : σ → Prop} {p : Prog β ι ε σ α} {s : σ}
    (hp : p.Safe B Q s) (hread : ∀ s, D s → ¬B.reads s) (hret : ∀ a s, Q a s → ¬D s)
    (hstay : ∀ s t, B.moves s t → D s → D t) (hs : D s) : p.Ends s := by
  induction p generalizing s with
  | ret a => exact hret a s hp.2 hs
  | fail e => exact trivial
  | read k ih => exact hread s hs hp.2.1
  | write bs k ih => exact fun r => ih r (hp.2 r) hs
  | act f k ih => exact ih s hp.2.2 (hstay s (f s) hp.2.1 hs)

/- A program on exactly the items of `inbox`, while its writes succeed: what it has written at the
end, its result and its state. -/
inductive Does : Prog β ι ε σ α → σ → List β → List β → Except ε α → σ → Prop
  | ret (a : α) (s : σ) : Does (.ret a) s [] [] (.ok a) s
  | fail (e : ε) (s : σ) : Does (.fail e) s [] [] (.error e) s
  | read {k : Except ι (Option β) → Prog β ι ε σ α} {b : β} {inbox out : List β} {s t : σ}
      {r : Except ε α} (h : Does (k (.ok (some b))) s inbox out r t) :
      Does (.read k) s (b::inbox) out r t
  | write {bs : List β} {k : Except ι Unit → Prog β ι ε σ α} {inbox out : List β} {s t : σ}
      {r : Except ε α} (h : Does (k (.ok ())) s inbox out r t) :
      Does (.write bs k) s inbox (bs++out) r t
  | act {f : σ → σ} {k : σ → Prog β ι ε σ α} {inbox out : List β} {s t : σ} {r : Except ε α}
      (h : Does (k s) (f s) inbox out r t) : Does (.act f k) s inbox out r t

section Does

variable {p : Prog β ι ε σ α} {s t u : σ} {inbox inbox' out out' : List β}

variable {a : α} {f : α → Prog β ι ε σ γ} {r : Except ε γ} {body : Prog β ι ε σ (Option ρ)}

theorem Does.bind (hp : p.Does s inbox out (.ok a) t) (hf : (f a).Does t inbox' out' r u) :
    (p.bind f).Does s (inbox++inbox') (out++out') r u := by
  generalize hres : (Except.ok a : Except ε α)=res at hp
  induction hp with
  | ret b s =>
    cases hres
    exact hf
  | fail => cases hres
  | read _ ih => exact .read (ih hf hres)
  | write _ ih =>
    rw [List.append_assoc]
    exact .write (ih hf hres)
  | act _ ih => exact .act (ih hf hres)

/-- A second part that takes nothing in and sends nothing. -/
theorem Does.bind_quiet (hp : p.Does s inbox out (.ok a) t) (hf : (f a).Does t [] [] r u) :
    (p.bind f).Does s inbox out r u := by
  have h := hp.bind hf
  rwa [List.append_nil,List.append_nil] at h

theorem Does.bind_error {e : ε} (hp : p.Does s inbox out (.error e) t) :
    (p.bind f).Does s inbox out (.error e) t := by
  generalize hres : (Except.error e : Except ε α)=res at hp
  induction hp with
  | ret => cases hres
  | fail _ s =>
    cases hres
    exact .fail e s
  | read _ ih => exact .read (ih hres)
  | write _ ih => exact .write (ih hres)
  | act _ ih => exact .act (ih hres)

theorem modify_does (f : σ → σ) (s : σ) :
    (modify f : Prog β ι ε σ Unit).Does s [] [] (.ok ()) (f s) := .act (.ret () (f s))

theorem Does.attempt {r : Except ε α} (hp : p.Does s inbox out r t) :
    (p.attempt : Prog β ι ε' σ (Except ε α)).Does s inbox out (.ok r) t := by
  induction hp with
  | ret => exact .ret _ _
  | fail => exact .ret _ _
  | read _ ih => exact .read ih
  | write _ ih => exact .write ih
  | act _ ih => exact .act ih

theorem Does.turns {f : α → Prog β ι ε σ (Option ρ)} (hp : p.Does s inbox out (.ok a) t) :
    Relation.ReflTransGen (Turn body) (p.bind f,s) (f a,t) := by
  generalize hres : (Except.ok a : Except ε α)=res at hp
  induction hp with
  | ret =>
    cases hres
    exact .refl
  | fail => cases hres
  | read _ ih => exact .head (.read _ _ _) (ih hres)
  | write _ ih => exact .head (.write _ _ _ _) (ih hres)
  | act _ ih => exact .head (.act _ _ _) (ih hres)

theorem Does.turns_bind {g : γ → Prog β ι ε σ (Option ρ)} (hp : p.Does s inbox out (.ok a) t) :
    Relation.ReflTransGen (Turn body) ((p.bind f).bind g,s) ((f a).bind g,t) := by
  rw [bind_assoc]
  exact hp.turns

theorem Does.round (h : body.Does s inbox out (.ok none) t) : Reaches body s (body,t) := by
  have hturns : Relation.ReflTransGen (Turn body) (body.bind .ret,s) (.ret none,t) := h.turns
  rw [bind_ret] at hturns
  exact hturns.tail (.again t)

end Does

end Prog

end PureSsh.Lib
