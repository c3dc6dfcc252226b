import Mathlib.Algebra.Ring.Nat
import Mathlib.Data.List.Basic
import Mathlib.Data.List.Forall2
import Mathlib.Data.List.Infix

/-! Patterns over an alphabet with one symbol for any run and one for any symbol. -/

namespace PureSsh.Lib.Glob
open List

/- The two wildcards of an alphabet. -/
structure Wild (α : Type) where
  run : α
  one : α
  ne : one≠run

variable {α β : Type} {W : Wild α} {c x : α} {p n : List α}

/- The texts that one symbol of a pattern stands for. -/
inductive Covers (W : Wild α) : α → List α → Prop
  | run (s : List α) : Covers W W.run s
  | one (x : α) : Covers W W.one [x]
  | literal {c : α} (hrun : c≠W.run) (hone : c≠W.one) : Covers W c [c]

/-- A text is matched if it can be cut into one piece for each symbol of the pattern. -/
def Means (W : Wild α) (p n : List α) : Prop :=
  ∃ pieces : List (List α), List.Forall₂ (Covers W) p pieces ∧ pieces.flatten=n

@[simp] theorem means_nil : Means W [] n ↔ n=[] := by
  constructor
  · rintro ⟨pieces,hall,rfl⟩
    cases hall
    rfl
  · rintro rfl
    exact ⟨[],.nil,rfl⟩

theorem means_cons : Means W (c::p) n ↔ ∃ s t, Covers W c s ∧ Means W p t ∧ s++t=n := by
  constructor
  · rintro ⟨pieces,hall,rfl⟩
    cases hall with
    | cons hs hall => exact ⟨_,_,hs,⟨_,hall,rfl⟩,rfl⟩
  · rintro ⟨s,t,hs,⟨pieces,hall,rfl⟩,rfl⟩
    exact ⟨s::pieces,.cons hs hall,rfl⟩

/-- A run may end anywhere. -/
theorem means_run : Means W (W.run::p) n ↔ ∃ k, Means W p (n.drop k) := by
  rw [means_cons]
  constructor
  · rintro ⟨s,t,-,ht,rfl⟩
    refine ⟨s.length,?_⟩
    rw [drop_left]
    exact ht
  · rintro ⟨k,hk⟩
    exact ⟨n.take k,n.drop k,.run _,hk,take_append_drop k n⟩

theorem means_run_tails : Means W (W.run::p) n ↔ ∃ rest∈n.tails, Means W p rest := by
  rw [means_run]
  constructor
  · rintro ⟨k,hk⟩
    exact ⟨n.drop k,(mem_tails _ _).2 (drop_suffix k n),hk⟩
  · rintro ⟨rest,hrest,h⟩
    obtain ⟨u,rfl⟩ := (mem_tails _ _).1 hrest
    refine ⟨u.length,?_⟩
    rw [drop_left]
    exact h

theorem not_means_cons_nil (h : c≠W.run) : ¬Means W (c::p) [] := by
  rw [means_cons]
  rintro ⟨s,t,hs,-,hst⟩
  obtain ⟨rfl,rfl⟩ := append_eq_nil_iff.1 hst
  cases hs with
  | run => exact h rfl

theorem means_cons_cons (h : c≠W.run) : Means W (c::p) (x::n) ↔ (c=W.one ∨ c=x) ∧ Means W p n := by
  rw [means_cons]
  constructor
  · rintro ⟨s,t,hs,ht,hst⟩
    cases hs with
    | run => exact absurd rfl h
    | one y =>
      cases hst
      exact ⟨.inl rfl,ht⟩
    | literal =>
      cases hst
      exact ⟨.inr rfl,ht⟩
  · rintro ⟨hx,hp⟩
    by_cases hone : c=W.one
    · exact ⟨[x],n,hone ▸ .one x,hp,rfl⟩
    · obtain rfl := hx.resolve_left hone
      exact ⟨[c],n,.literal h hone,hp,rfl⟩

theorem Means.append {w : List α} (hw : W.run∉w) (h : Means W (w++p) n) :
    w.length≤n.length ∧ Means W p (n.drop w.length) := by
  induction w generalizing n with
  | nil => exact ⟨Nat.zero_le _,h⟩
  | cons c w ih =>
    have hc : c≠W.run := fun hc => hw (hc ▸ mem_cons_self)
    cases n with
    | nil => exact absurd h (not_means_cons_nil hc)
    | cons x n =>
      obtain ⟨hlen,hp⟩ := ih (fun hin => hw (mem_cons_of_mem c hin)) ((means_cons_cons hc).1 h).2
      exact ⟨Nat.succ_le_succ hlen,hp⟩

theorem means_nil_right [DecidableEq α] : Means W p [] ↔ p.dropWhile (· == W.run)=[] := by
  induction p with
  | nil => simp
  | cons c p ih =>
    by_cases hc : c=W.run
    · subst hc
      rw [means_run,dropWhile_cons_of_pos (by simp),← ih]
      simp
    · rw [dropWhile_cons_of_neg (by simpa using hc)]
      simpa using not_means_cons_nil hc

theorem means_run_run : Means W (W.run::W.run::p) n ↔ Means W (W.run::p) n := by
  rw [means_run]
  constructor
  · rintro ⟨k,hk⟩
    obtain ⟨j,hj⟩ := means_run.1 hk
    rw [drop_drop] at hj
    exact means_run.2 ⟨_,hj⟩
  · exact fun h => ⟨0,h⟩

theorem means_dropWhile [DecidableEq α] :
    Means W (W.run::p.dropWhile (· == W.run)) n ↔ Means W (W.run::p) n := by
  induction p with
  | nil => rfl
  | cons c p ih =>
    by_cases hc : c=W.run
    · subst hc
      rw [dropWhile_cons_of_pos (by simp),ih,means_run_run]
    · rw [dropWhile_cons_of_neg (by simpa using hc)]

/-- The meaning does not depend on how the symbols are written. -/
theorem means_map {W' : Wild β} {f : α → β} (hrun : ∀ c∈p, f c=W'.run ↔ c=W.run)
    (hone : ∀ c∈p, f c=W'.one ↔ c=W.one) (hinj : ∀ a∈p, ∀ b∈n, f a=f b → a=b) :
    Means W' (p.map f) (n.map f) ↔ Means W p n := by
  induction p generalizing n with
  | nil => simp
  | cons c p ih =>
    have hp (m : List α) (hm : ∀ b∈m, b∈n) : Means W' (p.map f) (m.map f) ↔ Means W p m :=
      ih (fun a ha => hrun a (mem_cons_of_mem c ha)) (fun a ha => hone a (mem_cons_of_mem c ha))
        fun a ha b hb => hinj a (mem_cons_of_mem c ha) b (hm b hb)
    have hcrun := hrun c mem_cons_self
    by_cases hc : c=W.run
    · rw [map_cons,hcrun.2 hc,hc,means_run,means_run]
      refine exists_congr fun k => ?_
      rw [← map_drop]
      exact hp _ fun b hb => mem_of_mem_drop hb
    · have hc' : f c≠W'.run := fun h => hc (hcrun.1 h)
      cases n with
      | nil => simp [not_means_cons_nil hc,not_means_cons_nil hc']
      | cons x n =>
        have hx : f c=f x ↔ c=x :=
          ⟨hinj c mem_cons_self x mem_cons_self,congrArg f⟩
        rw [map_cons,map_cons,means_cons_cons hc,means_cons_cons hc',
          hp n fun b hb => mem_cons_of_mem x hb,hone c mem_cons_self,hx]

end PureSsh.Lib.Glob
