import Mathlib.Algebra.Ring.Nat
import Mathlib.Data.List.Basic

/-! Logs cut into segments: each marker opens a new segment, counted from one. A reader whose log
is a prefix of the writer's sees prefixes of the writer's segments. -/

namespace PureSsh.Lib
variable {α : Type} (p : α → Bool)

/- The elements of segment `i`, after `n` markers have already been seen. -/
def segmentFrom (n i : Nat) : List α → List α
  | [] => []
  | a::l =>
    if n+(p a).toNat=i then a::segmentFrom (n+(p a).toNat) i l
    else segmentFrom (n+(p a).toNat) i l

def segment (i : Nat) (l : List α) : List α := segmentFrom p 0 i l

theorem countP_cons_eq (a : α) (l : List α) : (a::l).countP p=(p a).toNat+l.countP p := by
  rw [List.countP_cons,Nat.add_comm]
  cases p a <;> rfl

theorem segmentFrom_append (n i : Nat) (l r : List α) :
    segmentFrom p n i (l++r)=segmentFrom p n i l++segmentFrom p (n+l.countP p) i r := by
  induction l generalizing n with
  | nil => rfl
  | cons a l ih =>
    simp only [List.cons_append,segmentFrom,ih,countP_cons_eq,Nat.add_assoc]
    split <;> rfl

/- Without a marker in it, a list belongs to the segment that is open. -/
theorem segmentFrom_plain {n i : Nat} {l : List α} (h : ∀ a∈l, p a=false) :
    segmentFrom p n i l=if n=i then l else [] := by
  induction l with
  | nil => simp [segmentFrom]
  | cons a l ih =>
    have ha := h a List.mem_cons_self
    have hl := ih fun b hb => h b (List.mem_cons_of_mem _ hb)
    simp only [segmentFrom,ha,Bool.toNat_false,Nat.add_zero,hl]
    split <;> rfl

theorem segment_append_plain (i : Nat) (l : List α) {r : List α} (h : ∀ a∈r, p a=false) :
    segment p i (l++r)=segment p i l++if l.countP p=i then r else [] := by
  rw [segment,segmentFrom_append,segmentFrom_plain p h,Nat.zero_add]
  rfl

theorem segment_append_marker (i : Nat) (l : List α) {a : α} (h : p a=true) :
    segment p i (l++[a])=segment p i l++if l.countP p+1=i then [a] else [] := by
  rw [segment,segmentFrom_append,Nat.zero_add]
  simp only [segmentFrom,h,Bool.toNat_true]
  rfl

theorem segment_eq_nil {i : Nat} {l : List α} (h : l.countP p< i) : segment p i l=[] := by
  have key : ∀ (l : List α) (n : Nat), n+l.countP p< i → segmentFrom p n i l=[] := by
    intro l
    induction l with
    | nil => intros; rfl
    | cons a l ih =>
      intro n hn
      rw [countP_cons_eq] at hn
      rw [segmentFrom,if_neg (by omega)]
      exact ih _ (by omega)
  exact key l 0 (by omega)

theorem segment_isPrefix (i : Nat) {l l' : List α} (h : l <+: l') :
    segment p i l <+: segment p i l' := by
  obtain ⟨r,rfl⟩ := h
  rw [segment,segment,segmentFrom_append]
  exact List.prefix_append _ _

variable {p} in
/-- Two compatible lists agree up to the first element that satisfies `q`. -/
theorem eq_of_prefix_of_first {q : α → Bool} {l₁ l₂ r₁ r₂ : List α} {a b : α}
    (h : l₁++a::r₁ <+: l₂++b::r₂) (ha : q a=true) (hb : q b=true)
    (h₁ : ∀ x∈l₁, q x=false) (h₂ : ∀ x∈l₂, q x=false) : l₁=l₂ ∧ a=b := by
  induction l₁ generalizing l₂ with
  | nil =>
    cases l₂ with
    | nil =>
      obtain ⟨hab,-⟩ := List.cons_prefix_cons.1 h
      exact ⟨rfl,hab⟩
    | cons x l₂ =>
      obtain ⟨rfl,-⟩ := List.cons_prefix_cons.1 h
      rw [h₂ a List.mem_cons_self] at ha
      cases ha
  | cons x l₁ ih =>
    cases l₂ with
    | nil =>
      obtain ⟨rfl,-⟩ := List.cons_prefix_cons.1 h
      rw [h₁ x List.mem_cons_self] at hb
      cases hb
    | cons y l₂ =>
      obtain ⟨rfl,htail⟩ := List.cons_prefix_cons.1 h
      obtain ⟨rfl,hab⟩ := ih htail (fun z hz => h₁ z (List.mem_cons_of_mem _ hz))
        fun z hz => h₂ z (List.mem_cons_of_mem _ hz)
      exact ⟨rfl,hab⟩

end PureSsh.Lib
