import Mathlib.Algebra.Ring.Nat
import Mathlib.Data.List.Basic

/-! Fallible procedures over a state that survives a failure: the shape of a Rust method
taking `&mut self` and returning a `Result`. -/

namespace PureSsh.Lib

variable {α β ε : Type}

theorem except_bind_eq_ok {x : Except ε α} {f : α → Except ε β} {b : β} :
    (x >>= f) = .ok b ↔ ∃ a, x = .ok a ∧ f a = .ok b := by
  cases x with
  | error e => simp [bind,Except.bind]
  | ok a => simp [bind,Except.bind]

@[simp] theorem except_ok_bind (a : α) (f : α → Except ε β) : (Except.ok a >>= f)=f a := rfl

/- Whatever a computation returns satisfies `Q`. -/
def Yields {ε α : Type} (x : Except ε α) (Q : α → Prop) : Prop := ∀ a, x = .ok a → Q a

namespace Yields
variable {ε α β : Type} {x y : Except ε α} {f : α → Except ε β} {P : α → Prop} {Q : β → Prop}

theorem ok {a : α} (h : P a) : Yields (.ok a : Except ε α) P := by
  rintro b ⟨⟩
  exact h

theorem error (e : ε) : Yields (.error e : Except ε α) P := by
  rintro b ⟨⟩

variable {c : Prop}

theorem ite [Decidable c] (hx : Yields x P) (hy : Yields y P) : Yields (if c then x else y) P := by
  split
  · exact hx
  · exact hy

theorem bind (hx : Yields x P) (hf : ∀ a, P a → Yields (f a) Q) : Yields (x >>= f) Q := by
  intro b h
  obtain ⟨a,ha,hb⟩ := except_bind_eq_ok.1 h
  exact hf a (hx a ha) b hb

theorem ite_of [Decidable c] (hx : c → Yields x P) (hy : ¬c → Yields y P) :
    Yields (if c then x else y) P := by
  split
  · next h => exact hx h
  · next h => exact hy h

theorem bind_eq (hf : ∀ a, x = .ok a → Yields (f a) Q) : Yields (x >>= f) Q :=
  bind (fun _ h => h : Yields x fun a => x = .ok a) hf

theorem bind_any (hf : ∀ a, Yields (f a) Q) : Yields (x >>= f) Q :=
  bind (fun _ _ => trivial : Yields x fun _ => True) fun a _ => hf a

end Yields

/- Whatever error a computation returns satisfies `P`. -/
def Raises {ε α : Type} (x : Except ε α) (P : ε → Prop) : Prop := ∀ e, x = .error e → P e

namespace Raises
variable {ε α β : Type} {x y : Except ε α} {f : α → Except ε β} {P Q : ε → Prop}

theorem ok (a : α) : Raises (.ok a : Except ε α) P := by
  rintro e ⟨⟩

theorem error {e : ε} (h : P e) : Raises (.error e : Except ε α) P := by
  rintro e' ⟨⟩
  exact h

theorem ite {c : Prop} [Decidable c] (hx : Raises x P) (hy : Raises y P) :
    Raises (if c then x else y) P := by
  split
  · exact hx
  · exact hy

theorem bind (hx : Raises x P) (hf : ∀ a, Raises (f a) P) : Raises (x >>= f) P := by
  cases x with
  | error e => exact .error (hx e rfl)
  | ok a => exact hf a

theorem mono (hx : Raises x P) (h : ∀ e, P e → Q e) : Raises x Q :=
  fun e he => h e (hx e he)

end Raises

def Proc (ε σ α : Type) : Type := σ → Except ε α × σ

namespace Proc
variable {ε σ τ α β : Type}

instance : Monad (Proc ε σ) where
  pure a := fun s => (.ok a,s)
  bind x f := fun s => match x s with
    | (.ok a,s') => f a s'
    | (.error e,s') => (.error e,s')

def get : Proc ε σ σ := fun s => (.ok s,s)
def set (s : σ) : Proc ε σ Unit := fun _ => (.ok (),s)
def modify (f : σ → σ) : Proc ε σ Unit := fun s => (.ok (),f s)
def fail (e : ε) : Proc ε σ α := fun s => (.error e,s)
def lift (r : Except ε α) : Proc ε σ α := fun s => (r,s)
def okOr (e : ε) : Option α → Proc ε σ α
  | some a => fun s => (.ok a,s)
  | none => fun s => (.error e,s)

/- Run a procedure on a part of the state. The part is written back on failure too. -/
def zoom (view : σ → τ) (put : τ → σ → σ) (x : Proc ε τ α) : Proc ε σ α :=
  fun s => ((x (view s)).1,put (x (view s)).2 s)

def onFst (x : Proc ε σ α) : Proc ε (σ × τ) α := zoom Prod.fst (fun a s => (a,s.2)) x
def onSnd (x : Proc ε τ α) : Proc ε (σ × τ) α := zoom Prod.snd (fun b s => (s.1,b)) x

@[simp] theorem pure_apply (a : α) (s : σ) : (pure a : Proc ε σ α) s=(.ok a,s) := rfl
@[simp] theorem get_apply (s : σ) : (get : Proc ε σ σ) s=(.ok s,s) := rfl
@[simp] theorem set_apply (s t : σ) : (set t : Proc ε σ Unit) s=(.ok (),t) := rfl
@[simp] theorem modify_apply (f : σ → σ) (s : σ) : (modify f : Proc ε σ Unit) s=(.ok (),f s) := rfl
@[simp] theorem fail_apply (e : ε) (s : σ) : (fail e : Proc ε σ α) s=(.error e,s) := rfl
@[simp] theorem lift_apply (r : Except ε α) (s : σ) : (lift r : Proc ε σ α) s=(r,s) := rfl
@[simp] theorem zoom_apply (view : σ → τ) (put : τ → σ → σ) (x : Proc ε τ α) (s : σ) :
    zoom view put x s=((x (view s)).1,put (x (view s)).2 s) := rfl

theorem bind_apply (x : Proc ε σ α) (f : α → Proc ε σ β) (s : σ) : (x >>= f) s=match x s with
      | (.ok a,s') => f a s'
      | (.error e,s') => (.error e,s') := rfl

variable {a : α} {s s' : σ} {x y : Proc ε σ α} {e : ε} {b : β} {f : α → Proc ε σ β} {o : Option α}
  {c : Prop} {view : σ → τ}

theorem bind_of_ok (h : x s=(.ok a,s')) (f : α → Proc ε σ β) : (x >>= f) s=f a s' := by
  rw [bind_apply,h]

theorem bind_of_error (h : x s=(.error e,s')) (f : α → Proc ε σ β) : (x >>= f) s=(.error e,s') := by
  rw [bind_apply,h]

theorem onFst_of {r : Except ε α} (h : x s=(r,s')) (t : τ) : onFst x (s,t)=(r,(s',t)) := by
  rw [onFst,zoom_apply,h]

theorem onSnd_of {r : Except ε α} (h : x s=(r,s')) (t : τ) : onSnd x (t,s)=(r,(t,s')) := by
  rw [onSnd,zoom_apply,h]

@[simp] theorem get_bind (f : σ → Proc ε σ β) (s : σ) : (get >>= f) s=f s s := rfl
@[simp] theorem set_bind (t : σ) (f : Unit → Proc ε σ β) (s : σ) : (set t >>= f) s=f () t := rfl
@[simp] theorem modify_bind (g : σ → σ) (f : Unit → Proc ε σ β) (s : σ) :
    (modify g >>= f) s=f () (g s) := rfl
@[simp] theorem pure_bind (a : α) (f : α → Proc ε σ β) (s : σ) :
    ((pure a : Proc ε σ α) >>= f) s=f a s := rfl
@[simp] theorem fail_bind (e : ε) (f : α → Proc ε σ β) (s : σ) :
    ((fail e : Proc ε σ α) >>= f) s=(.error e,s) := rfl
@[simp] theorem lift_ok_bind (a : α) (f : α → Proc ε σ β) (s : σ) :
    ((lift (.ok a) : Proc ε σ α) >>= f) s=f a s := rfl
@[simp] theorem lift_error_bind (e : ε) (f : α → Proc ε σ β) (s : σ) :
    ((lift (.error e) : Proc ε σ α) >>= f) s=(.error e,s) := rfl

/-- A sequence succeeds exactly when both halves do, one after the other. -/
theorem bind_eq_ok : (x >>= f) s=(.ok b,s') ↔ ∃ a t, x s=(.ok a,t) ∧ f a t=(.ok b,s') := by
  rw [bind_apply]
  rcases x s with ⟨r,t⟩
  cases r <;> simp

/- Whatever error a procedure returns from state `s` satisfies `P`. -/
def Raises (x : Proc ε σ α) (s : σ) (P : ε → Prop) : Prop := Lib.Raises (x s).1 P

namespace Raises
variable {x y : Proc ε σ α} {f : α → Proc ε σ β} {s : σ} {P : ε → Prop}

theorem of_ok {a : α} {s' : σ} (h : x s=(.ok a,s')) : Raises x s P := by
  rw [Raises,h]
  exact .ok a

variable {e : ε}

theorem fail (h : P e) : Raises (fail e : Proc ε σ α) s P := Lib.Raises.error h

theorem okOr {o : Option α} (h : o=none → P e) : Raises (okOr e o) s P := by
  cases o with
  | none => exact Lib.Raises.error (h rfl)
  | some a => exact Lib.Raises.ok a

theorem lift {r : Except ε α} (h : Lib.Raises r P) : Raises (lift r) s P := h

theorem ite_of {c : Prop} [Decidable c] (hx : c → Raises x s P) (hy : ¬c → Raises y s P) :
    Raises (if c then x else y) s P := by
  split
  · next h => exact hx h
  · next h => exact hy h

theorem bind (hx : Raises x s P) (hf : ∀ a s', x s=(.ok a,s') → Raises (f a) s' P) :
    Raises (x >>= f) s P := by
  rw [Raises,bind_apply]
  rcases hxs : x s with ⟨e | a,s'⟩
  · refine Lib.Raises.error (hx e ?_)
    rw [hxs]
  · exact hf a s' hxs

end Raises

theorem lift_bind_eq_ok {r : Except ε α} :
    (lift r >>= f) s=(.ok b,s') ↔ ∃ a, r = .ok a ∧ f a s=(.ok b,s') := by
  rw [bind_eq_ok]
  constructor
  · rintro ⟨a,t,hr,hf⟩
    obtain ⟨rfl,rfl⟩ := Prod.mk.inj hr
    exact ⟨a,rfl,hf⟩
  · rintro ⟨a,rfl,hf⟩
    exact ⟨a,s,rfl,hf⟩

theorem okOr_eq_ok : okOr e o s=(.ok a,s') ↔ o=some a ∧ s'=s := by
  cases o <;> simp [okOr,eq_comm]

theorem okOr_bind_eq_ok : (okOr e o >>= f) s=(.ok b,s') ↔ ∃ a, o=some a ∧ f a s=(.ok b,s') := by
  simp only [bind_eq_ok,okOr_eq_ok,and_assoc,exists_eq_left,exists_and_left]

/-- A check passes exactly when its condition is false and the rest succeeds. -/
theorem ite_fail_eq_ok [Decidable c] :
    (if c then fail e else x) s=(.ok a,s') ↔ ¬c ∧ x s=(.ok a,s') := by
  split <;> simp [*]

theorem ite_apply [Decidable c] (x y : Proc ε σ α) (s : σ) :
    (if c then x else y) s=if c then x s else y s := by
  split <;> rfl

theorem zoom_eq_ok {put : τ → σ → σ} {x : Proc ε τ α} :
    zoom view put x s=(.ok a,s') ↔ ∃ t, x (view s)=(.ok a,t) ∧ s'=put t s := by
  rw [zoom_apply]
  constructor
  · intro h
    obtain ⟨h₁,h₂⟩ := Prod.mk.inj h
    exact ⟨(x (view s)).2,Prod.ext h₁ rfl,h₂.symm⟩
  · rintro ⟨t,hx,rfl⟩
    rw [hx]

/- A procedure that never fails. -/
def Total (x : Proc ε σ α) : Prop := ∀ s, ∃ a s', x s=(.ok a,s')

theorem total_pure (a : α) : Total (pure a : Proc ε σ α) := fun s => ⟨a,s,rfl⟩

theorem total_modify_pure (g : σ → σ) (a : α) :
    Total (modify g >>= fun _ => (pure a : Proc ε σ α)) := fun s => ⟨a,g s,rfl⟩

theorem Total.get_bind {f : σ → Proc ε σ α} (hf : ∀ s, Total (f s)) :
    Total (get >>= f) := fun s => hf s s

theorem Total.bind (hx : Total x) (hf : ∀ a, Total (f a)) : Total (x >>= f) := by
  intro s
  obtain ⟨a,t,ha⟩ := hx s
  rw [bind_of_ok ha]
  exact hf a t

theorem Total.ite [Decidable c] (hx : Total x) (hy : Total y) : Total (if c then x else y) := by
  split
  · exact hx
  · exact hy

/- A procedure that leaves one view of the state alone, whether it fails or not. -/
def Keeps (view : σ → τ) (x : Proc ε σ α) : Prop := ∀ s, view (x s).2=view s

namespace Keeps
variable {view : σ → τ} {x y : Proc ε σ α} {f : α → Proc ε σ β}

theorem ite {c : Prop} [Decidable c] (hx : Keeps view x) (hy : Keeps view y) :
    Keeps view (if c then x else y) := by
  split
  · exact hx
  · exact hy

theorem bind (hx : Keeps view x) (hf : ∀ a, Keeps view (f a)) : Keeps view (x >>= f) := by
  intro s
  have hs := hx s
  rw [bind_apply]
  rcases hxs : x s with ⟨r,t⟩
  rw [hxs] at hs
  cases r with
  | error e => exact hs
  | ok a => exact (hf a t).trans hs

end Keeps

/- A procedure that leaves one view of the state alone when it fails. -/
def KeepsOnError (view : σ → τ) (x : Proc ε σ α) : Prop :=
  ∀ s e s', x s=(.error e,s') → view s'=view s

theorem Total.keepsOnError (hx : Total x) : KeepsOnError view x := by
  intro s e s' h
  obtain ⟨a,t,hok⟩ := hx s
  rw [hok] at h
  cases h

theorem KeepsOnError.bind (hx : Keeps view x) (hf : ∀ a, KeepsOnError view (f a)) :
    KeepsOnError view (x >>= f) := by
  intro s e s' h
  have hs := hx s
  rw [bind_apply] at h
  rcases hxs : x s with ⟨r,t⟩
  rw [hxs] at h hs
  cases r with
  | error e' =>
    cases h
    exact hs
  | ok a => exact (hf a t e s' h).trans hs

/- The result of a procedure and the state it leaves, started in `s`, satisfy `Q`. -/
def Meets (x : Proc ε σ α) (s : σ) (Q : Except ε α → σ → Prop) : Prop := Q (x s).1 (x s).2

namespace Meets
variable {x y : Proc ε σ α} {f : α → Proc ε σ β} {s : σ} {Q : Except ε α → σ → Prop}
  {R : Except ε β → σ → Prop}

theorem ite_of {c : Prop} [Decidable c] (hx : c → Meets x s Q) (hy : ¬c → Meets y s Q) :
    Meets (if c then x else y) s Q := by
  split
  · next h => exact hx h
  · next h => exact hy h

/- A failure of the first half is one of the whole. -/
theorem bind (hx : Meets x s Q) (hok : ∀ a t, Q (.ok a) t → Meets (f a) t R)
    (herror : ∀ e t, Q (.error e) t → R (.error e) t) : Meets (x >>= f) s R := by
  rw [Meets] at hx
  rw [Meets,bind_apply]
  rcases hxs : x s with ⟨r,t⟩
  rw [hxs] at hx
  cases r with
  | error e => exact herror e t hx
  | ok a => exact hok a t hx

variable {t : σ}

theorem bind_of_ok {a : α} (hx : x s=(.ok a,t)) (hf : Meets (f a) t R) : Meets (x >>= f) s R := by
  rw [Meets,Proc.bind_of_ok hx]
  exact hf

theorem bind_of_error {e : ε} (hx : x s=(.error e,t)) (ht : R (.error e) t) :
    Meets (x >>= f) s R := by
  rw [Meets,Proc.bind_of_error hx]
  exact ht

theorem get_bind {f : σ → Proc ε σ β} (hf : Meets (f s) s R) : Meets (Proc.get >>= f) s R := hf

theorem modify_bind {g : σ → σ} {f : Unit → Proc ε σ β} (hf : Meets (f ()) (g s) R) :
    Meets (Proc.modify g >>= f) s R := hf

theorem apply {r : Except ε α} (hx : Meets x s Q) (h : x s=(r,t)) : Q r t := by
  rw [Meets,h] at hx
  exact hx

theorem mono {Q' : Except ε α → σ → Prop} (hx : Meets x s Q) (h : ∀ r t, Q r t → Q' r t) :
    Meets x s Q' := h _ _ hx

end Meets

theorem Keeps.meets (hx : Keeps view x) (s : σ) : Meets x s fun _ t => view t=view s := hx s

/- A procedure that changes nothing when it fails, and ends as `Q` says when it does not. -/
def Settles (x : Proc ε σ α) (s : σ) (Q : α → σ → Prop) : Prop :=
  (∃ e, x s=(.error e,s)) ∨ ∃ a t, x s=(.ok a,t) ∧ Q a t

namespace Settles
variable {x y : Proc ε σ α} {f : α → Proc ε σ β} {s t : σ} {Q : α → σ → Prop} {R : β → σ → Prop}
  {a : α} {e : ε}

theorem of_fail (e : ε) : Settles (Proc.fail e : Proc ε σ α) s Q := .inl ⟨e,rfl⟩

theorem of_pure (h : Q a s) : Settles (pure a : Proc ε σ α) s Q := .inr ⟨a,s,rfl,h⟩

theorem modify_pure {g : σ → σ} (h : Q a (g s)) :
    Settles (Proc.modify g >>= fun _ => (pure a : Proc ε σ α)) s Q := .inr ⟨a,g s,rfl,h⟩

theorem ite {c : Prop} [Decidable c] (hx : c → Settles x s Q) (hy : ¬c → Settles y s Q) :
    Settles (if c then x else y) s Q := by
  split
  · next h => exact hx h
  · next h => exact hy h

/- A check that can only refuse. -/
theorem check {c : Prop} [Decidable c] (hx : ¬c → Settles x s Q) :
    Settles (if c then Proc.fail e else x) s Q := ite (fun _ => of_fail e) hx

theorem okOr_bind {o : Option α} (h : ∀ a, o=some a → Settles (f a) s R) :
    Settles (Proc.okOr e o >>= f) s R := by
  cases o with
  | none => exact of_fail e
  | some a => exact h a rfl

theorem bind_total (hx : Settles x s Q)
    (hf : ∀ a t, Q a t → ∃ b u, f a t=(.ok b,u) ∧ R b u) : Settles (x >>= f) s R := by
  obtain ⟨e,hx⟩ | ⟨a,t,hx,ha⟩ := hx
  · exact .inl ⟨e,bind_of_error hx f⟩
  · obtain ⟨b,u,hb,hR⟩ := hf a t ha
    exact .inr ⟨b,u,(bind_of_ok hx f).trans hb,hR⟩

theorem bind_pure {g : α → β} (hx : Settles x s fun a => R (g a)) :
    Settles (x >>= fun a => pure (g a)) s R :=
  hx.bind_total fun a t ha => ⟨g a,t,rfl,ha⟩

theorem error (h : Settles x s Q) (hx : x s=(.error e,t)) : t=s := by
  obtain ⟨e',hx'⟩ | ⟨a,u,hx',-⟩ := h
  · rw [hx] at hx'
    cases hx'
    rfl
  · cases hx.symm.trans hx'

theorem ok (h : Settles x s Q) (hx : x s=(.ok a,t)) : Q a t := by
  obtain ⟨e,hx'⟩ | ⟨b,u,hx',hQ⟩ := h
  · cases hx.symm.trans hx'
  · cases hx.symm.trans hx'
    exact hQ

end Settles

/- An invariant that a procedure keeps, whether it fails or not, with what its results satisfy. -/
def Guards (I : σ → Prop) (x : Proc ε σ α) (Q : α → Prop := fun _ => True) : Prop :=
  ∀ s, I s → I (x s).2 ∧ ∀ a, (x s).1 = .ok a → Q a

namespace Guards
variable {I : σ → Prop} {x y : Proc ε σ α} {f : α → Proc ε σ β} {Q : α → Prop} {R : β → Prop}

theorem of_pure {a : α} (h : Q a) : Guards I (pure a : Proc ε σ α) Q := by
  refine fun s hs => ⟨hs,?_⟩
  rintro b ⟨⟩
  exact h

theorem of_fail (e : ε) : Guards I (Proc.fail e : Proc ε σ α) Q := by
  refine fun s hs => ⟨hs,?_⟩
  rintro b ⟨⟩

theorem of_lift {r : Except ε α} (h : Yields r Q) : Guards I (Proc.lift r) Q :=
  fun _ hs => ⟨hs,h⟩

theorem of_modify {g : σ → σ} (h : ∀ s, I s → I (g s)) : Guards I (Proc.modify g : Proc ε σ Unit) :=
  fun s hs => ⟨h s hs,fun _ _ => trivial⟩

theorem of_set {t : σ} (h : I t) : Guards I (Proc.set t : Proc ε σ Unit) :=
  fun _ _ => ⟨h,fun _ _ => trivial⟩

theorem bind (hx : Guards I x Q) (hf : ∀ a, Q a → Guards I (f a) R) : Guards I (x >>= f) R := by
  intro s hs
  obtain ⟨ht,ha⟩ := hx s hs
  rw [bind_apply]
  rcases hxs : x s with ⟨r,t⟩
  rw [hxs] at ht ha
  cases r with
  | error e =>
    refine ⟨ht,?_⟩
    rintro b ⟨⟩
  | ok a => exact hf a (ha a rfl) t ht

theorem last (hx : Guards I x Q) {g : α → β} : Guards I (x >>= fun a => (pure (g a) : Proc ε σ β)) :=
  hx.bind fun _ _ => .of_pure trivial

/- The state that is read satisfies the invariant. -/
theorem get_bind {f : σ → Proc ε σ β} (hf : ∀ s, I s → Guards I (f s) R) :
    Guards I (Proc.get >>= f) R :=
  fun s hs => hf s hs s hs

theorem ite {c : Prop} [Decidable c] (hx : Guards I x Q) (hy : Guards I y Q) :
    Guards I (if c then x else y) Q := by
  split
  · exact hx
  · exact hy

end Guards

/- The result of a list of calls, stopping at the first failure. -/
def runAll (f : β → Proc ε σ Unit) : List β → Proc ε σ Unit
  | [] => pure ()
  | b::bs => f b >>= fun _ => runAll f bs

/-- An invariant of each call is an invariant of the whole run. -/
theorem runAll_invariant {f : β → Proc ε σ Unit} {I : σ → Prop} {P : β → Prop}
    (step : ∀ b s s', P b → I s → f b s=(.ok (),s') → I s') :
    ∀ (bs : List β) (s s' : σ), (∀ b∈bs, P b) → I s → runAll f bs s=(.ok (),s') → I s' := by
  intro bs
  induction bs with
  | nil =>
    intro s s' _ hs h
    cases h
    exact hs
  | cons b bs ih =>
    intro s s' hP hs h
    obtain ⟨⟨⟩,t,hb,ht⟩ := bind_eq_ok.1 h
    exact ih t s' (fun c hc => hP c (List.mem_cons_of_mem _ hc))
      (step b s t (hP b List.mem_cons_self) hs hb) ht

end Proc

end PureSsh.Lib
