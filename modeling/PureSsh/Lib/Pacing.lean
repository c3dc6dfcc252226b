import Mathlib.Algebra.Ring.Nat

/-! Metered runs: a credit that grows with time up to a cap and pays for what the steps of a run
spend bounds what they spend in any interval of time. -/

namespace PureSsh.Lib

/- A system whose steps may take the time and spend something. -/
structure Timed (σ α : Type) where
  next : σ → α → σ
  time : α → Option Nat

namespace Timed
variable {σ α : Type} (S : Timed σ α)

/- The clock never goes back, from `t` on. -/
def Clocked (t : Nat) : List α → Prop
  | [] => True
  | a::l => match S.time a with
    | none => Clocked t l
    | some u => t≤u ∧ Clocked u l

/- Every step is one that `allowed` lets happen. -/
def Admits (allowed : σ → α → Prop) (s : σ) : List α → Prop
  | [] => True
  | a::l => allowed s a ∧ Admits allowed (S.next s a) l

/- What a step spends, if it falls into the interval. -/
def within (spent : σ → α → Nat) (lo hi : Nat) (s : σ) (a : α) : Nat :=
  match S.time a with
  | none => 0
  | some u => if lo≤u ∧ u≤hi then spent s a else 0

/-- What the steps of a run spend between two moments. -/
def spentWithin (spent : σ → α → Nat) (lo hi : Nat) (s : σ) : List α → Nat
  | [] => 0
  | a::l => S.within spent lo hi s a+spentWithin spent lo hi (S.next s a) l

/-- A credit at each moment, from which the spendings are paid at `price` each. It grows by one for
every unit of time and is never above `cap`. -/
structure Meter (spent : σ → α → Nat) (allowed : σ → α → Prop) (price cap : Nat)
    (credit : Nat → σ → Nat) (I : σ → Prop) : Prop where
  keeps : ∀ {s a}, I s → allowed s a → I (S.next s a)
  idle : ∀ {s a t}, I s → allowed s a → S.time a=none → credit t (S.next s a)≤credit t s
  pays : ∀ {s a t u}, I s → allowed s a → S.time a=some u → t≤u →
    spent s a*price+credit u (S.next s a)≤credit t s+(u-t)
  full : ∀ {s a u}, I s → allowed s a → S.time a=some u →
    spent s a*price+credit u (S.next s a)≤cap

variable {S} {spent : σ → α → Nat} {allowed : σ → α → Prop} {price cap lo len t : Nat}
  {credit : Nat → σ → Nat} {I : σ → Prop} {s : σ} {l : List α}

theorem admits_of_forall {P : α → Prop} (h : ∀ a∈l, P a) (s : σ) :
    S.Admits (fun _ a => P a) s l := by
  induction l generalizing s with
  | nil => trivial
  | cons a l ih =>
    exact ⟨h a List.mem_cons_self,ih (fun b hb => h b (List.mem_cons_of_mem a hb)) (S.next s a)⟩

/- An invariant and what it says of each step. -/
theorem admits_of_invariant {P : σ → α → Prop} (hkeeps : ∀ s a, I s → I (S.next s a))
    (hstep : ∀ s a, I s → P s a) (hI : I s) : S.Admits P s l := by
  induction l generalizing s with
  | nil => trivial
  | cons a l ih => exact ⟨hstep s a hI,ih (hkeeps s a hI)⟩

theorem spentWithin_of_lt {hi : Nat} (hl : S.Clocked t l) (ht : hi<t) :
    S.spentWithin spent lo hi s l=0 := by
  induction l generalizing s t with
  | nil => rfl
  | cons a l ih =>
    rw [Clocked] at hl
    rw [spentWithin,within]
    cases htime : S.time a with
    | none =>
      rw [htime] at hl
      rw [ih hl ht]
    | some u =>
      rw [htime] at hl
      obtain ⟨hu,hl⟩ := hl
      dsimp only
      rw [if_neg (by omega),ih hl (by omega)]

theorem spentWithin_congr {hi : Nat} {s' : σ} {a : α} (hspent : spent s a=spent s' a)
    (hnext : S.next s a=S.next s' a) :
    S.spentWithin spent lo hi s (a::l)=S.spentWithin spent lo hi s' (a::l) := by
  rw [spentWithin,spentWithin,within,within,hspent,hnext]

namespace Meter

/- Before the interval the cap pays, and within it the credit that is left. -/
theorem spent_le_both (M : S.Meter spent allowed price cap credit I) (hI : I s)
    (hallowed : S.Admits allowed s l) (hl : S.Clocked t l) :
    S.spentWithin spent lo (lo+len) s l*price≤cap+len ∧ (lo≤t → t≤lo+len →
      S.spentWithin spent lo (lo+len) s l*price≤credit t s+(lo+len-t)) := by
  induction l generalizing s t with
  | nil => simp [spentWithin]
  | cons a l ih =>
    obtain ⟨ha,hallowed⟩ := hallowed
    rw [Clocked] at hl
    rw [spentWithin,within]
    cases htime : S.time a with
    | none =>
      rw [htime] at hl
      obtain ⟨hcap,hcredit⟩ := ih (M.keeps hI ha) hallowed hl
      have hidle := M.idle (t := t) hI ha htime
      dsimp only
      rw [Nat.zero_add]
      exact ⟨hcap,fun hlo ht => by have := hcredit hlo ht; omega⟩
    | some u =>
      rw [htime] at hl
      obtain ⟨hu,hl⟩ := hl
      obtain ⟨hcap,hcredit⟩ := ih (M.keeps hI ha) hallowed hl
      dsimp only
      by_cases hin : lo≤u ∧ u≤lo+len
      · -- the first step in the interval is paid from a full credit
        have hpays := M.pays hI ha htime hu
        have hfull := M.full hI ha htime
        have hrest := hcredit hin.1 hin.2
        rw [if_pos hin,Nat.add_mul]
        omega
      · rw [if_neg hin,Nat.zero_add]
        refine ⟨hcap,fun hlo ht => ?_⟩
        rw [spentWithin_of_lt hl (by omega),Nat.zero_mul]
        exact Nat.zero_le _

/-- In an interval of any length the spendings cost no more than the cap and the time it takes. -/
theorem spent_le (M : S.Meter spent allowed price cap credit I) (hI : I s)
    (hallowed : S.Admits allowed s l) (hl : S.Clocked t l) :
    S.spentWithin spent lo (lo+len) s l*price≤cap+len :=
  (M.spent_le_both hI hallowed hl).1

end Meter

/- The same call again and again, `r` apart. -/
def paced (call : Nat → α) (r t : Nat) : Nat → List α
  | 0 => []
  | k+1 => call (t+r)::paced call r (t+r) k

variable {call : Nat → α} {r j k hi : Nat}

/-- A call that spends one at every moment at which something is left, and `r` later when nothing
is. `Ready t j i` is a state at `t` with `j` left in which `i` more calls may come. -/
structure Drains (S : Timed σ α) (spent : σ → α → Nat) (call : Nat → α) (r : Nat)
    (Ready : Nat → Nat → Nat → σ → Prop) : Prop where
  time : ∀ t, S.time (call t)=some t
  take : ∀ {t j i s}, Ready t (j+1) (i+1) s →
    spent s (call t)=1 ∧ Ready t j i (S.next s (call t))
  tick : ∀ {t i s}, Ready t 0 (i+1) s →
    spent s (call (t+r))=1 ∧ Ready (t+r) 0 i (S.next s (call (t+r)))

namespace Drains
variable {Ready : Nat → Nat → Nat → σ → Prop}

theorem clocked_paced (D : S.Drains spent call r Ready) (t k : Nat) :
    S.Clocked t (paced call r t k) := by
  induction k generalizing t with
  | zero => trivial
  | succ k ih =>
    rw [paced,Clocked,D.time]
    exact ⟨Nat.le_add_right _ _,ih (t+r)⟩

theorem clocked (D : S.Drains spent call r Ready) (t j k : Nat) :
    S.Clocked t (List.replicate j (call t)++paced call r t k) := by
  induction j with
  | zero => exact D.clocked_paced t k
  | succ j ih =>
    rw [List.replicate_succ,List.cons_append,Clocked,D.time]
    exact ⟨Nat.le_refl t,ih⟩

theorem spent_paced (D : S.Drains spent call r Ready) (h : Ready t 0 k s) (hlo : lo≤t)
    (hhi : t+k*r≤hi) : S.spentWithin spent lo hi s (paced call r t k)=k := by
  induction k generalizing s t with
  | zero => rfl
  | succ k ih =>
    obtain ⟨hone,hnext⟩ := D.tick h
    rw [Nat.add_mul,Nat.one_mul] at hhi
    rw [paced,spentWithin,within,D.time,ih hnext (by omega) (by omega)]
    dsimp only
    rw [if_pos ⟨by omega,by omega⟩,hone,Nat.add_comm]

/-- Everything at once and then one for every period that passes. -/
theorem spent_all (D : S.Drains spent call r Ready) (h : Ready t j (j+k) s) (hlo : lo≤t)
    (hhi : t+k*r≤hi) :
    S.spentWithin spent lo hi s (List.replicate j (call t)++paced call r t k)=j+k := by
  induction j generalizing s with
  | zero =>
    rw [Nat.zero_add] at h ⊢
    exact D.spent_paced h hlo hhi
  | succ j ih =>
    rw [Nat.add_right_comm] at h
    obtain ⟨hone,hnext⟩ := D.take h
    rw [List.replicate_succ,List.cons_append,spentWithin,within,D.time,ih hnext]
    dsimp only
    rw [if_pos ⟨hlo,by omega⟩,hone]
    omega

end Drains
end Timed
end PureSsh.Lib
