import PureSsh.Lib.Proc

/-! Incremental decoders: a buffer grows by arbitrary increments and a decoder is called on its
front until a whole frame is there. -/

namespace PureSsh.Lib.Framing
open List
variable {ε σ α β : Type}

/- A decoder asks for more input or returns a value and how much of the buffer it used. -/
abbrev Decoder (ε σ β α : Type) := List β → Proc ε σ (Option (α × Nat))

/- From state `s` the decoder reads `f` as `a` and ends in `s'`. While the frame is incomplete
   it may remember what it has seen of it: `wait` holds of the states it can be in. -/
def Reads (decode : Decoder ε σ β α) (s : σ) (f : List β) (a : α) (s' : σ) : Prop :=
  ∃ wait : σ → Prop, wait s ∧
    (∀ t buf, wait t → buf <+: f → buf.length<f.length →
      ∃ t', decode buf t=(.ok none,t') ∧ wait t') ∧
    ∀ t rest, wait t → decode (f++rest) t=(.ok (some (a,f.length)),s')

/- Frame after frame; on an empty buffer the decoder waits. -/
def ReadsAll (decode : Decoder ε σ β α) : σ → List (List β × α) → Prop
  | s, [] => decode [] s=(.ok none,s)
  | s, (f,a)::frames => ∃ s', Reads decode s f a s' ∧ ReadsAll decode s' frames

/- One decoder call after each increment; what the decoder used is dropped. -/
def receive (decode : Decoder ε σ β α) :
    List (List β) → List β → σ → Except ε (List (Option (α × Nat)))
  | [], _, _ => .ok []
  | inc::incs, buf, s =>
    match decode (buf++inc) s with
    | (.error e,_) => .error e
    | (.ok none,s') => do
      let results ← receive decode incs (buf++inc) s'
      return none::results
    | (.ok (some (a,n)),s') => do
      let results ← receive decode incs ((buf++inc).drop n) s'
      return some (a,n)::results

/- What the calls should return, from the lengths alone: nothing while the next frame is
   incomplete, then its value and its length. -/
def expected : List (List β × α) → Nat → List Nat → List (Option (α × Nat))
  | _, _, [] => []
  | [], buffered, n::ns => none::expected [] (buffered+n) ns
  | (f,a)::frames, buffered, n::ns =>
    if f.length≤buffered+n then
      some (a,f.length)::expected frames (buffered+n-f.length) ns
    else none::expected ((f,a)::frames) (buffered+n) ns

namespace Reads
variable {decode : Decoder ε σ β α} {s s' : σ} {f : List β} {a : α} (h : Reads decode s f a s')
include h

theorem more {buf : List β} (hpre : buf <+: f) (hlt : buf.length<f.length) :
    ∃ t, decode buf s=(.ok none,t) ∧ Reads decode t f a s' := by
  obtain ⟨wait,hs,hmore,hdone⟩ := h
  obtain ⟨t,ht,hwait⟩ := hmore s buf hs hpre hlt
  exact ⟨t,ht,wait,hwait,hmore,hdone⟩

theorem done (rest : List β) : decode (f++rest) s=(.ok (some (a,f.length)),s') := by
  obtain ⟨wait,hs,-,hdone⟩ := h
  exact hdone s rest hs

end Reads

variable {a : α} {decode : Decoder ε σ β α} {f : List β} {s s' : σ}

/- A decoder that remembers nothing of an incomplete frame. -/
theorem Reads.of_eq (h : ∀ buf, buf <+: f ∨ f <+: buf → decode buf s =
      if buf.length<f.length then (.ok none,s) else (.ok (some (a,f.length)),s')) :
    Reads decode s f a s' := by
  refine ⟨fun t => t=s,rfl,?_,?_⟩
  · rintro t buf rfl hpre hlt
    exact ⟨t,(h buf (.inl hpre)).trans (if_pos hlt),rfl⟩
  · rintro t rest rfl
    have hge : ¬(f++rest).length<f.length := by
      rw [length_append]
      omega
    exact (h _ (.inr (prefix_append _ _))).trans (if_neg hge)

theorem Reads.embed {τ : Type} (decode' : Decoder ε τ β α) (emb : σ → τ)
    (hemb : ∀ buf s, decode' buf (emb s)=((decode buf s).1,emb (decode buf s).2))
    (h : Reads decode s f a s') : Reads decode' (emb s) f a (emb s') := by
  obtain ⟨wait,hs,hmore,hdone⟩ := h
  refine ⟨fun t => ∃ s, wait s ∧ t=emb s,⟨s,hs,rfl⟩,?_,?_⟩
  · rintro t buf ⟨s,hw,rfl⟩ hpre hlt
    obtain ⟨s',hs',hw'⟩ := hmore s buf hw hpre hlt
    exact ⟨emb s',by rw [hemb,hs'],s',hw',rfl⟩
  · rintro t rest ⟨s,hw,rfl⟩
    rw [hemb,hdone s rest hw]

theorem Reads.follow {γ : Type} (decode' : Decoder ε σ β γ) {s'' : σ} {b : γ}
    (h : Reads decode s f a s')
    (hnone : ∀ buf t t', decode buf t=(.ok none,t') → decode' buf t=(.ok none,t'))
    (hsome : ∀ buf t, decode buf t=(.ok (some (a,f.length)),s') →
      decode' buf t=(.ok (some (b,f.length)),s'')) : Reads decode' s f b s'' := by
  obtain ⟨wait,hs,hmore,hdone⟩ := h
  refine ⟨wait,hs,?_,?_⟩
  · intro t buf hw hpre hlt
    obtain ⟨t',ht',hw'⟩ := hmore t buf hw hpre hlt
    exact ⟨t',hnone buf t t' ht',hw'⟩
  · intro t rest hw
    exact hsome _ t (hdone t rest hw)

/-- However a stream of readable frames is cut into increments, every call returns what the
lengths say it should. -/
theorem receive_eq_expected {incs : List (List β)} {buf : List β} {frames : List (List β × α)}
    (hframes : ReadsAll decode s frames)
    (hpre : buf++incs.flatten <+: (frames.map Prod.fst).flatten) :
    receive decode incs buf s = .ok (expected frames buf.length (incs.map length)) := by
  induction incs generalizing buf s frames with
  | nil =>
    cases frames <;> rfl
  | cons inc incs ih =>
    rw [flatten_cons,← append_assoc] at hpre
    simp only [receive,map_cons]
    rcases frames with _ | ⟨⟨f,a⟩,frames⟩
    · have hnil : buf++inc=[] := by
        have hle := hpre.length_le
        simp only [map_nil,flatten_nil,length_append,length_nil] at hle
        exact length_eq_zero_iff.1 (by simp only [length_append]; omega)
      have hempty : decode [] s=(.ok none,s) := hframes
      rw [hnil] at hpre ⊢
      rw [hempty]
      have hrec := ih hframes hpre
      have hlen : buf.length+inc.length=0 := by rw [← length_append,hnil]; rfl
      simp only [hrec,expected,hlen]
      rfl
    · obtain ⟨s',hread,hrest⟩ := hframes
      rw [map_cons,flatten_cons] at hpre
      have hbuf : buf++inc <+: f++(frames.map Prod.fst).flatten :=
        (prefix_append _ _).trans hpre
      have hlen : (buf++inc).length=buf.length+inc.length := length_append
      by_cases hle : f.length≤buf.length+inc.length
      · obtain ⟨rest,hsplit⟩ : f <+: buf++inc :=
          prefix_of_prefix_length_le (prefix_append _ _) hbuf (by omega)
        have hdone := hread.done rest
        rw [hsplit] at hdone
        rw [hdone]
        have hdrop : (buf++inc).drop f.length=rest := by rw [← hsplit,drop_left]
        rw [← hsplit,append_assoc] at hpre
        have hrec := ih hrest ((prefix_append_right_inj f).1 hpre)
        have hcount : rest.length=buf.length+inc.length-f.length := by
          rw [← hlen,← hsplit,length_append]
          omega
        simp only [expected,if_pos hle,hdrop,hrec,hcount]
        rfl
      · have hshort : buf++inc <+: f :=
          prefix_of_prefix_length_le hbuf (prefix_append _ _) (by omega)
        obtain ⟨t,ht,hread'⟩ := hread.more hshort (by omega)
        rw [ht]
        have hall : ReadsAll decode t ((f,a)::frames) := ⟨s',hread',hrest⟩
        have hrec := ih hall hpre
        simp only [expected,if_neg hle,hrec,hlen]
        rfl

end PureSsh.Lib.Framing
