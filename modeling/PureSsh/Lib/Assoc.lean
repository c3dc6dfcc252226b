import Mathlib.Algebra.Ring.Nat
import Mathlib.Data.List.Basic

/-! Association lists, as maps with the operations the code has on them. -/

namespace PureSsh.Lib
open List

section Lookup
theorem mem_of_lookup {κ β : Type} [BEq κ] [LawfulBEq κ] {k : κ} {b : β} {l : List (κ × β)}
    (h : l.lookup k=some b) : (k,b)∈l := by
  obtain ⟨before,after,rfl,-⟩ := lookup_eq_some_iff.1 h
  exact mem_append_cons_self

theorem lookup_of_mem {κ β : Type} [BEq κ] [LawfulBEq κ] {k : κ} {b : β} {l : List (κ × β)}
    (hl : (l.map Prod.fst).Nodup) (h : (k,b)∈l) : l.lookup k=some b := by
  induction l with
  | nil => cases h
  | cons e l ih =>
    rw [map_cons,nodup_cons] at hl
    rcases mem_cons.1 h with rfl | hmem
    · exact lookup_cons_self
    · have hne : k≠e.1 := fun heq => hl.1 (heq ▸ mem_map_of_mem (f := Prod.fst) hmem)
      rw [lookup_cons,beq_false_of_ne hne]
      exact ih hl.2 hmem

theorem lookup_filter {κ β : Type} [BEq κ] [LawfulBEq κ] {f : κ × β → Bool} {k : κ}
    (hf : ∀ b, f (k,b)=true) (l : List (κ × β)) : (l.filter f).lookup k=l.lookup k := by
  induction l with
  | nil => rfl
  | cons e l ih =>
    obtain ⟨k',b⟩ := e
    by_cases hk : k=k'
    · subst hk
      rw [filter_cons_of_pos (hf b),lookup_cons_self,lookup_cons_self]
    · rw [lookup_cons,beq_false_of_ne hk,← ih,filter_cons]
      split
      · rw [lookup_cons,beq_false_of_ne hk]
      · rfl

end Lookup

section Keyed
variable {α κ : Type} [DecidableEq κ] {key : α → κ} {l : List α} {a : α}

theorem filter_key_of_not_mem {k : κ} (h : k∉l.map key) : l.filter (fun b => !decide (key b=k))=l := by
  refine filter_eq_self.2 fun b hb => ?_
  have hne : key b≠k := fun heq => h (heq ▸ mem_map_of_mem hb)
  simpa using hne

theorem perm_cons_filter (hl : (l.map key).Nodup) (ha : a∈l) :
    l.Perm (a::l.filter fun b => !decide (key b=key a)) := by
  induction l with
  | nil => cases ha
  | cons b l ih =>
    rw [map_cons,nodup_cons] at hl
    rcases mem_cons.1 ha with rfl | ha
    · rw [filter_cons_of_neg (by simp),filter_key_of_not_mem hl.1]
    · have hne : key b≠key a := fun heq => hl.1 (heq ▸ mem_map_of_mem ha)
      rw [filter_cons_of_pos (by simpa using hne)]
      exact ((ih hl.2 ha).cons b).trans (List.Perm.swap a b _)

end Keyed

end PureSsh.Lib
