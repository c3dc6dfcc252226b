import Mathlib.Algebra.Ring.Nat
import Mathlib.Data.List.Basic
import Mathlib.Data.List.Pairwise

/-! Pieces of a range that are asked for and come in in any order, without overlap. -/

namespace PureSsh.Lib
open List

structure Piece where
  start : Nat
  len : Nat

def Piece.Has (p : Piece) (x : Nat) : Prop := p.start≤x ∧ x<p.start+p.len

def Piece.Apart (p q : Piece) : Prop := p.start+p.len≤q.start ∨ q.start+q.len≤p.start

theorem Piece.Apart.symm {p q : Piece} (h : p.Apart q) : q.Apart p := Or.symm h

def total (ps : List Piece) : Nat := (ps.map Piece.len).sum

@[simp] theorem total_nil : total []=0 := rfl
@[simp] theorem total_cons (p : Piece) (ps : List Piece) : total (p::ps)=p.len+total ps := rfl
@[simp] theorem total_append (ps qs : List Piece) : total (ps++qs)=total ps+total qs := by
  simp [total]

theorem total_perm {ps qs : List Piece} (h : ps.Perm qs) : total ps=total qs :=
  (h.map Piece.len).sum_nat

/-- Pieces of the range from `lo` to `hi`; below `limit` none of it is missing. -/
structure Tiled (lo hi limit : Nat) (ps : List Piece) : Prop where
  apart : ps.Pairwise Piece.Apart
  within : ∀ p∈ps, lo≤p.start ∧ p.start+p.len≤hi
  solid : ∀ p∈ps, 0<p.len
  total_le : lo+total ps≤hi
  full : ∀ x, lo≤x → x<hi → x<limit → ∃ p∈ps, p.Has x

namespace Tiled
variable {lo hi limit a k len : Nat} {p : Piece} {ps qs : List Piece}

theorem empty (lo limit : Nat) : Tiled lo lo limit [] where
  apart := .nil
  within := by simp
  solid := by simp
  total_le := le_refl lo
  full := by omega

theorem le (h : Tiled lo hi limit ps) : lo≤hi := le_trans (Nat.le_add_right _ _) h.total_le

theorem perm (h : Tiled lo hi limit ps) (hperm : ps.Perm qs) : Tiled lo hi limit qs where
  apart := (hperm.pairwise_iff Piece.Apart.symm).1 h.apart
  within := fun p hp => h.within p (hperm.mem_iff.2 hp)
  solid := fun p hp => h.solid p (hperm.mem_iff.2 hp)
  total_le := total_perm hperm ▸ h.total_le
  full := fun x hlo hhi hx => by
    obtain ⟨p,hp,hhas⟩ := h.full x hlo hhi hx
    exact ⟨p,hperm.mem_iff.1 hp,hhas⟩

/-- The range is asked for further on. -/
theorem grow (h : Tiled lo hi limit ps) (hlen : 0<len) :
    Tiled lo (hi+len) limit (⟨hi,len⟩::ps) where
  apart := pairwise_cons.2 ⟨fun p hp => .inr (h.within p hp).2,h.apart⟩
  within := forall_mem_cons.2 ⟨⟨h.le,le_refl _⟩,fun p hp =>
    ⟨(h.within p hp).1,le_trans (h.within p hp).2 (Nat.le_add_right _ _)⟩⟩
  solid := forall_mem_cons.2 ⟨hlen,h.solid⟩
  total_le := by
    have htotal := h.total_le
    rw [total_cons]
    simp only
    omega
  full := fun x hlo hhi hx => by
    by_cases hnew : hi≤x
    · exact ⟨⟨hi,len⟩,mem_cons_self,hnew,hhi⟩
    · obtain ⟨p,hp,hhas⟩ := h.full x hlo (by omega) hx
      exact ⟨p,mem_cons_of_mem _ hp,hhas⟩

theorem replace (h : Tiled lo hi limit (p::ps))
    (hqs : Tiled p.start (p.start+p.len) limit qs) : Tiled lo hi limit (qs++ps) := by
  obtain ⟨hfirst,hrest⟩ := pairwise_cons.1 h.apart
  obtain ⟨hin,hwithin⟩ := forall_mem_cons.1 h.within
  constructor
  · refine pairwise_append.2 ⟨hqs.apart,hrest,fun q hq r hr => ?_⟩
    have hapart := hfirst r hr
    have hq := hqs.within q hq
    simp only [Piece.Apart] at hapart ⊢
    omega
  · refine forall_mem_append.2 ⟨fun q hq => ?_,hwithin⟩
    have hq := hqs.within q hq
    omega
  · exact forall_mem_append.2 ⟨hqs.solid,(forall_mem_cons.1 h.solid).2⟩
  · have htotal := h.total_le
    have hqs := hqs.total_le
    rw [total_cons] at htotal
    rw [total_append]
    omega
  · intro x hlo hhi hx
    obtain ⟨r,hr,hhas⟩ := h.full x hlo hhi hx
    rcases mem_cons.1 hr with rfl | hr
    · obtain ⟨q,hq,hhas⟩ := hqs.full x hhas.1 hhas.2 hx
      exact ⟨q,mem_append_left _ hq,hhas⟩
    · exact ⟨r,mem_append_right _ hr,hhas⟩

theorem widen {hi' : Nat} (h : Tiled lo hi limit ps) (hle : hi≤hi') (hend : hi'=hi ∨ limit≤hi) :
    Tiled lo hi' limit ps where
  apart := h.apart
  within p hp := ⟨(h.within p hp).1,le_trans (h.within p hp).2 hle⟩
  solid := h.solid
  total_le := le_trans h.total_le hle
  full x hlo hhi hx := h.full x hlo (by omega) hx

/-- A piece comes in up to a point, behind which nothing is missing. -/
theorem cut (h : Tiled lo hi limit (⟨a,len⟩::ps)) (hk : 0<k) (hlen : k≤len)
    (hend : len=k ∨ limit≤a+k) : Tiled lo hi limit (⟨a,k⟩::ps) :=
  h.replace (((empty a limit).grow hk).widen (Nat.add_le_add_left hlen a) (by simp only; omega))

/-- The rest of a piece is asked for again. -/
theorem split (h : Tiled lo hi limit (⟨a,len⟩::ps)) (hk : 0<k) (hlen : k<len) :
    Tiled lo hi limit (⟨a,k⟩::⟨a+k,len-k⟩::ps) := by
  have htwo := ((empty a limit).grow hk).grow (Nat.sub_pos_of_lt hlen)
  exact h.replace ((htwo.perm (.swap _ _ _)).widen (by simp only; omega) (by simp only; omega))

theorem drop (h : Tiled lo hi limit (p::ps)) (hp : limit≤p.start) : Tiled lo hi limit ps :=
  h.replace ((empty p.start limit).widen (Nat.le_add_right _ _) (.inr hp))

theorem advance (h : Tiled lo hi limit (⟨lo,len⟩::ps)) : Tiled (lo+len) hi limit ps := by
  obtain ⟨hfirst,hrest⟩ := pairwise_cons.1 h.apart
  obtain ⟨-,hwithin⟩ := forall_mem_cons.1 h.within
  have hsolid := (forall_mem_cons.1 h.solid).2
  have htotal := h.total_le
  rw [total_cons] at htotal
  refine ⟨hrest,fun q hq => ⟨?_,(hwithin q hq).2⟩,hsolid,by simp only at htotal; omega,?_⟩
  · have hapart := hfirst q hq
    have hq₁ := hwithin q hq
    have hq₂ := hsolid q hq
    simp only [Piece.Apart] at hapart
    omega
  · intro x hlo hhi hx
    obtain ⟨q,hq,hhas⟩ := h.full x (by omega) hhi hx
    rcases mem_cons.1 hq with rfl | hq
    · exact absurd hhas.2 (by simp only; omega)
    · exact ⟨q,hq,hhas⟩

/-- Where no piece starts at the front, the front has come to the end or to the limit. -/
theorem reached (h : Tiled lo hi limit ps) (hfront : ∀ p∈ps, p.start≠lo) : hi≤lo ∨ limit≤lo := by
  by_contra hnot
  obtain ⟨p,hp,hhas⟩ := h.full lo (le_refl lo) (by omega) (by omega)
  exact hfront p hp (le_antisymm hhas.1 (h.within p hp).1)

theorem start_ne (h : Tiled lo hi limit (p::ps)) {q : Piece} (hq : q∈ps) : q.start≠p.start := by
  have hapart := (pairwise_cons.1 h.apart).1 q hq
  have hp := h.solid p mem_cons_self
  have hqs := h.solid q (mem_cons_of_mem _ hq)
  simp only [Piece.Apart] at hapart
  omega

end Tiled

end PureSsh.Lib
