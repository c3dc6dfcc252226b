import Mathlib.Algebra.Ring.Nat
import Mathlib.Data.List.Basic

/-! Readers, and loops that read items until the input is used up, over any kind of token. -/

namespace PureSsh.Lib
open List
variable {τ σ α ε : Type}

/-- `while !input.is_empty()` with a step that may fail. A step that takes nothing would run for
ever; it ends in `stuck`. -/
def readLoop (stuck : ε) (step : σ → List τ → Except ε (σ × List τ)) : Nat → σ → List τ → Except ε σ
  | _, s, [] => .ok s
  | 0, _, _::_ => .error stuck
  | fuel+1, s, t::r => match step s (t::r) with
    | .ok (s,r) => readLoop stuck step fuel s r
    | .error e => .error e

def readWhile (stuck : ε) (step : σ → List τ → Except ε (σ × List τ)) (s : σ) (input : List τ) :
    Except ε σ :=
  readLoop stuck step input.length s input

/-- A reader that takes at least one token whenever it succeeds. -/
def Takes (item : List τ → Except ε (α × List τ)) : Prop :=
  ∀ r x, item r = .ok x → x.2.length<r.length

variable {stuck : ε} {step : σ → List τ → Except ε (σ × List τ)} {s : σ}

variable {item : List τ → Except ε (α × List τ)} {encode : α → List τ} {items : List α}

theorem Takes.bind {β : Type} (h : Takes item) {f : α × List τ → Except ε (β × List τ)}
    (hf : ∀ x y, f x = .ok y → y.2.length≤x.2.length) : Takes fun r => item r >>= f := by
  intro r y hy
  change (item r >>= f) = .ok y at hy
  cases hx : item r with
  | error e =>
    rw [hx] at hy
    cases hy
  | ok x =>
    rw [hx] at hy
    exact Nat.lt_of_le_of_lt (hf x y hy) (h r x hx)

/- More fuel than the input is long changes nothing. -/
theorem readLoop_eq_readWhile (h : ∀ s, Takes (step s)) {fuel : Nat} {r : List τ}
    (hfuel : r.length≤fuel) : readLoop stuck step fuel s r=readWhile stuck step s r := by
  rw [readWhile]
  induction hlen : r.length using Nat.strongRecOn generalizing fuel s r with
  | _ n ih =>
    subst hlen
    cases r with
    | nil => cases fuel <;> rfl
    | cons t r =>
      obtain ⟨fuel,rfl⟩ := Nat.exists_eq_add_one.2 (Nat.lt_of_lt_of_le (Nat.succ_pos _) hfuel)
      rw [length_cons,readLoop,readLoop]
      cases hstep : step s (t::r) with
      | error e => rfl
      | ok x =>
        have hlt : x.2.length<r.length+1 := h s _ x hstep
        rw [length_cons] at hfuel ih
        exact (ih _ hlt (by omega) rfl).trans (ih _ hlt (by omega) rfl).symm

theorem readWhile_cons (h : ∀ s, Takes (step s)) (t : τ) (r : List τ) :
    readWhile stuck step s (t::r)=step s (t::r) >>= fun x => readWhile stuck step x.1 x.2 := by
  rw [readWhile,length_cons,readLoop]
  cases hstep : step s (t::r) with
  | error e => rfl
  | ok x =>
    have hlt := h s _ x hstep
    rw [length_cons] at hlt
    exact readLoop_eq_readWhile h (by omega)

/-- Reading the encodings of some items one after the other is folding over the items, if the step
reads each encoding as its item. -/
theorem readWhile_flatMap (h : ∀ s, Takes (step s)) {put : σ → α → Except ε σ}
    (hstep : ∀ x∈items, ∀ s rest, step s (encode x++rest)=(put s x).map (·,rest))
    (hne : ∀ x∈items, encode x≠[]) :
    readWhile stuck step s (items.flatMap encode)=items.foldlM put s := by
  induction items generalizing s with
  | nil => rfl
  | cons x items ih =>
    obtain ⟨t,r,hcons⟩ := exists_cons_of_ne_nil (hne x mem_cons_self)
    have hx := hstep x mem_cons_self s (items.flatMap encode)
    rw [flatMap_cons,foldlM_cons]
    rw [hcons,cons_append] at hx ⊢
    rw [readWhile_cons h,hx]
    cases put s x with
    | error e => rfl
    | ok s' =>
      exact ih (fun y hy => hstep y (mem_cons_of_mem x hy))
        fun y hy => hne y (mem_cons_of_mem x hy)

theorem length_le_flatMap {f : α → List τ} {l : List α} {x : α} (hx : x∈l) :
    (f x).length≤(l.flatMap f).length := by
  obtain ⟨before,after,rfl⟩ := append_of_mem hx
  simp only [flatMap_append,flatMap_cons,length_append]
  omega

/-- A run of items of one kind, appended to those already read. -/
def readRun (stuck : ε) (item : List τ → Except ε (α × List τ)) (out : List α) (input : List τ) :
    Except ε (List α) :=
  readWhile stuck (fun out r => item r >>= fun x => .ok (out++[x.1],x.2)) out input

theorem foldlM_append (f : α → List τ) (out : List τ) (items : List α) :
    items.foldlM (fun out x => (.ok (out++f x) : Except ε (List τ))) out =
      .ok (out++items.flatMap f) := by
  induction items generalizing out with
  | nil => rw [flatMap_nil,append_nil]; rfl
  | cons x items ih =>
    rw [foldlM_cons,flatMap_cons,← append_assoc]
    exact ih (out++f x)

theorem foldlM_push (out items : List α) :
    items.foldlM (fun out x => (.ok (out++[x]) : Except ε (List α))) out = .ok (out++items) := by
  rw [foldlM_append,flatMap_singleton']

theorem readRun_flatMap (h : Takes item) (out : List α)
    (hitem : ∀ x∈items, ∀ rest, item (encode x++rest) = .ok (x,rest)) :
    readRun stuck item out (items.flatMap encode) = .ok (out++items) := by
  rw [readRun,readWhile_flatMap,foldlM_push]
  · intro out
    refine h.bind fun x y hy => ?_
    cases hy
    exact Nat.le_refl _
  · intro x hx s rest
    rw [hitem x hx rest]
    rfl
  · intro x hx hnil
    have := h _ _ (hitem x hx [])
    rw [hnil] at this
    exact Nat.not_lt_zero _ this

end PureSsh.Lib
