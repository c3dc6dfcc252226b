import PureSsh.KnownHosts.Saving

/-! Sequences of edits of a store, and which of its lines a save then writes as they were read. -/

namespace PureSsh.KnownHosts
open Lib Cert List Text
variable {M : Mac} {host : Text} {port : UInt16} {slot : Slot} {e : Entry}

namespace Store

def tryAddNames (names : List (Text × UInt16)) (key : Key) (s : Store) : Result Store :=
  if !safeField key.1 then .error (.format "known_hosts: invalid key type")
  else if names.isEmpty || names.any fun n => !safeField n.1 then
    .error (.format "known_hosts: invalid host name")
  else
    let patterns := join [','] (names.map fun n => formatHostPattern n.1 n.2)
    .ok (s.push { marker := none, hostSpec := .patterns (patterns.splitOn ',')
                  keyType := key.1, keyBlob := key.2, comment := [] })

/- A plain entry for one name only, this one. -/
def isExact (M : Mac) (host : Text) (port : UInt16) : Slot → Bool
  | .entry e => e.marker.isNone && match e.hostSpec with
    | .patterns [p] => sameAsciiCase p (formatHostPattern host port)
    | .patterns _ => false
    | .hashed _ => hostFieldMatches M e.hostSpec host port
  | _ => false

def isFor (M : Mac) (host : Text) (port : UInt16) : Slot → Bool
  | .entry e => hostFieldMatches M e.hostSpec host port
  | _ => false

def removeIf (p : Slot → Bool) (s : Store) : Store × Nat :=
  ({ lines := s.lines.map fun slot => if p slot then .removed else slot },s.lines.countP p)

def removeExact (M : Mac) (host : Text) (port : UInt16) (s : Store) : Store × Nat :=
  s.removeIf (isExact M host port)

def remove (M : Mac) (host : Text) (port : UInt16) (s : Store) : Store × Nat :=
  s.removeIf (isFor M host port)

end Store

/-- The operations that change a store, with the salts they draw. -/
inductive Edit where
  | tryAdd (salt : Bytes) (host : Text) (port : UInt16) (key : Key) (hashed : Bool)
  | tryAddNames (names : List (Text × UInt16)) (key : Key)
  | removeExact (host : Text) (port : UInt16)
  | remove (host : Text) (port : UInt16)
  | updateHostKeys (salts : Nat → Bytes) (host : Text) (port : UInt16) (gone : List Bytes)
      (add : List Key) (hashed : Bool)
  | hashInPlace (salts : Nat → Nat → Bytes)

namespace Edit
open Store

/- An edit that is refused leaves the store as it is. -/
def run (M : Mac) (s : Store) : Edit → Store
  | .tryAdd salt host port key hashed => s.add M salt host port key hashed
  | .tryAddNames names key => (s.tryAddNames names key).toOption.getD s
  | .removeExact host port => (s.removeExact M host port).1
  | .remove host port => (s.remove M host port).1
  | .updateHostKeys salts host port gone add hashed =>
    s.updateHostKeys M salts host port gone add hashed
  | .hashInPlace salts => s.hashInPlace M salts

/-- What becomes of one slot. -/
def become (M : Mac) (i : Nat) (slot : Slot) : Edit → List Slot
  | .tryAdd .. => [slot]
  | .tryAddNames .. => [slot]
  | .removeExact host port => [if isExact M host port slot then .removed else slot]
  | .remove host port => [if isFor M host port slot then .removed else slot]
  | .updateHostKeys _ host port gone _ _ =>
    if dropped M host port gone slot then [] else [slot]
  | .hashInPlace salts => hashSlot M (salts i) slot

def addedEntry (M : Mac) (salt : Bytes) (host : Text) (port : UInt16) (hashed : Bool) (key : Key) :
    List Entry :=
  if safeField key.1 && safeField host then [newEntry M salt host port key hashed] else []

/-- The entries that come at the end. -/
def added (M : Mac) : Edit → List Entry
  | .tryAdd salt host port key hashed => addedEntry M salt host port hashed key
  | .tryAddNames names key =>
    if safeField key.1 && !names.isEmpty && names.all fun n => safeField n.1 then
      [{ marker := none
         hostSpec := .patterns
           ((join [','] (names.map fun n => formatHostPattern n.1 n.2)).splitOn ',')
         keyType := key.1, keyBlob := key.2, comment := [] }]
    else []
  | .updateHostKeys salts host port _ add hashed =>
    add.zipIdx.flatMap fun p => addedEntry M (salts p.2) host port hashed p.1
  | _ => []

theorem add_eq (salt : Bytes) (key : Key) (hashed : Bool) (s : Store) :
    s.add M salt host port key hashed =
      { lines := s.lines++(addedEntry M salt host port hashed key).map .entry } := by
  rw [Store.add,Store.tryAdd,addedEntry]
  cases safeField key.1 with
  | false => simp
  | true =>
    cases safeField host with
    | false => simp
    | true => simp [push,newEntry,newSpec]

theorem foldl_add_eq (salts : Nat → Bytes) (hashed : Bool) (pairs : List (Key × Nat)) (s : Store) :
    pairs.foldl (fun s p => s.add M (salts p.2) host port p.1 hashed) s = { lines := s.lines ++
        (pairs.flatMap fun p => addedEntry M (salts p.2) host port hashed p.1).map .entry } := by
  induction pairs generalizing s with
  | nil => simp
  | cons p pairs ih => rw [foldl_cons,ih,add_eq]; simp

theorem flatMap_zipIdx {α β : Type} (f : α → List β) (l : List α) :
    (l.zipIdx.flatMap fun p => f p.1)=l.flatMap f := by
  conv_rhs => rw [← zipIdx_map_fst 0 l,flatMap_map]

/-- An edit treats every slot by itself and appends. -/
theorem lines_run (edit : Edit) (s : Store) : (edit.run M s).lines =
    (s.lines.zipIdx.flatMap fun p => edit.become M p.2 p.1)++(edit.added M).map .entry := by
  cases edit with
  | tryAdd salt host port key hashed =>
    simp only [run,add_eq,become,added,flatMap_zipIdx fun slot => [slot],flatMap_singleton']
  | tryAddNames names key =>
    simp only [run,become,added,flatMap_zipIdx fun slot => [slot]]
    rw [Store.tryAddNames,← not_all_eq_any_not]
    cases safeField key.1 with
    | false => simp [Except.toOption]
    | true =>
      cases names.isEmpty with
      | true => simp [Except.toOption]
      | false => cases names.all fun n => safeField n.1 <;> simp [Except.toOption,push]
  | removeExact host port =>
    simp only [run,Store.removeExact,removeIf,become,added,map_nil,append_nil]
    rw [flatMap_zipIdx fun slot => [if isExact M host port slot then .removed else slot],
      map_eq_flatMap]
  | remove host port =>
    simp only [run,Store.remove,removeIf,become,added,map_nil,append_nil]
    rw [flatMap_zipIdx fun slot => [if isFor M host port slot then .removed else slot],
      map_eq_flatMap]
  | updateHostKeys salts host port gone add hashed =>
    simp only [run,Store.updateHostKeys,become,foldl_add_eq]
    rw [flatMap_zipIdx fun slot => if dropped M host port gone slot then [] else [slot]]
    induction s.lines with
    | nil => rfl
    | cons slot lines ih =>
      cases hdrop : dropped M host port gone slot <;> simp [hdrop,ih]
  | hashInPlace salts => simp [run,Store.hashInPlace,become,added]

section Sound

theorem safeField_spec {t : Text} (h : safeField t=true) :
    t.IsWord ∧ ',' ∉ t ∧ ∀ c∈t.head?, c ≠ '@' ∧ c ≠ '|' ∧ c ≠ '#' := by
  simp only [safeField,Bool.and_eq_true,Bool.not_eq_true',isEmpty_eq_false_iff,
    any_eq_false,Bool.or_eq_true,not_or,beq_iff_eq,Bool.not_eq_true] at h
  obtain ⟨⟨hne,hhead⟩,hall⟩ := h
  refine ⟨⟨hne,fun c hc => (hall c hc).1.1⟩,fun hc => (hall ',' hc).2 rfl,fun c hc => ?_⟩
  rw [Option.mem_def.1 hc] at hhead
  simpa [and_assoc] using hhead

theorem formatHostPattern_spec (h : safeField host=true) (port : UInt16) :
    (formatHostPattern host port).IsWord ∧ ',' ∉ formatHostPattern host port ∧
      ∀ c∈(formatHostPattern host port).head?, c ≠ '@' ∧ c ≠ '|' ∧ c ≠ '#' := by
  obtain ⟨hword,hcomma,hhead⟩ := safeField_spec h
  rw [formatHostPattern]
  split
  · exact ⟨hword,hcomma,hhead⟩
  · have hdigit : ∀ c∈decimal port, isWhitespace c=false := by
      intro c hc
      have hd := isDigit_of_mem_decimal hc
      simp only [Char.isDigit,Bool.and_eq_true,decide_eq_true_eq] at hd
      have hlo : 48≤c.toNat := hd.1
      have hhi : c.toNat≤57 := hd.2
      simp only [isWhitespace,Bool.or_eq_false_iff,Bool.and_eq_false_iff,
        decide_eq_false_iff_not,beq_eq_false_iff_ne]
      omega
    refine ⟨⟨cons_ne_nil _ _,fun c hc => ?_⟩,?_,fun c hc => ?_⟩
    · simp only [cons_append,mem_cons,mem_append] at hc
      rcases hc with rfl | hc | rfl | rfl | hc
      · decide
      · exact hword.2 c hc
      · decide
      · decide
      · exact hdigit c hc
    · simp [hcomma,not_mem_decimal (n := port) (c := ',') rfl]
    · obtain rfl : '[' = c := Option.some.inj hc
      decide

theorem isWord_encodeHashed (M : Mac) (salt : Bytes) (name : Text) :
    (encodeHashed M salt name).IsWord := by
  refine ⟨cons_ne_nil _ _,fun c hc => ?_⟩
  simp only [encodeHashed,mem_append,mem_singleton] at hc
  rcases hc with ((hc | hc) | rfl) | hc
  · exact (by decide : IsWord "|1|".toList).2 c hc
  · exact Base64.solid_encode hc
  · decide
  · exact Base64.solid_encode hc

theorem parseHostField_encodeHashed (M : Mac) (salt : Bytes) (name : Text) :
    parseHostField (encodeHashed M salt name) = .hashed (encodeHashed M salt name) := by
  rw [parseHostField,if_pos]
  rw [encodeHashed,append_assoc,append_assoc]
  exact prefix_append _ _

variable {keyBlob salt : Bytes} {keyType : Text} {hashed : Bool} {key : Key} {edit : Edit}

theorem writable_new {spec : HostSpec} (hword : spec.toField.IsWord)
    (hspec : parseHostField spec.toField=spec)
    (hhead : ∀ c∈spec.toField.head?, c ≠ '@' ∧ c ≠ '#') (htype : keyType.IsWord) :
    Sound (.entry { marker := none, hostSpec := spec, keyType, keyBlob, comment := [] }) := by
  refine ⟨⟨hword,hspec,fun _ => ⟨fun h => (hhead '#' h).2 rfl,?_,?_⟩,htype,rfl⟩,fun _ => ⟨rfl,rfl⟩⟩
  · intro h
    exact (hhead '@' (by rw [h]; rfl)).1 rfl
  · intro h
    exact (hhead '@' (by rw [h]; rfl)).1 rfl

theorem sound_hashed {name : Text} (h : Sound (.entry e)) :
    Sound (.entry { e with hostSpec := .hashed (encodeHashed M salt name) }) := by
  have hhead : (encodeHashed M salt name).head?=some '|' := rfl
  have hne : ∀ w : Text, w.head?≠some '|' → encodeHashed M salt name≠w := by
    rintro _ hw rfl
    exact hw hhead
  refine ⟨⟨isWord_encodeHashed M salt name,parseHostField_encodeHashed M salt name,
    fun _ => ⟨?_,hne _ (by decide),hne _ (by decide)⟩,h.1.keyType,h.1.comment⟩,h.2⟩
  rw [HostSpec.toField,hhead]
  decide

theorem parseHostField_patterns {field : Text} (h : ∀ c∈field.head?, c ≠ '|') :
    parseHostField field = .patterns (field.splitOn ',') := by
  rw [parseHostField,if_neg]
  rintro ⟨rest,rfl⟩
  exact h '|' rfl rfl

theorem sound_newEntry (htype : safeField key.1=true) (hhost : safeField host=true) :
    Sound (.entry (newEntry M salt host port key hashed)) := by
  cases hashed with
  | true =>
    refine writable_new (isWord_encodeHashed M salt _) (parseHostField_encodeHashed M salt _)
      (fun c hc => ?_) (safeField_spec htype).1
    obtain rfl : '|' = c := Option.some.inj hc
    decide
  | false =>
    obtain ⟨hword,hcomma,hhead⟩ := formatHostPattern_spec hhost port
    refine writable_new hword ?_ (fun c hc => ⟨(hhead c hc).1,(hhead c hc).2.2⟩)
      (safeField_spec htype).1
    change parseHostField (formatHostPattern host port)=_
    rw [parseHostField_patterns fun c hc => (hhead c hc).2.1,splitOn_eq_singleton hcomma]
    rfl

theorem addedEntry_spec (h : e∈addedEntry M salt host port hashed key) :
    Sound (.entry e) ∧ e.key=key := by
  rw [addedEntry] at h
  split at h
  · next hsafe =>
    rw [Bool.and_eq_true] at hsafe
    rw [mem_singleton.1 h]
    exact ⟨sound_newEntry hsafe.1 hsafe.2,rfl⟩
  · cases h

theorem sound_names {names : List (Text × UInt16)} (hne : names≠[])
    (hnames : ∀ n∈names, safeField n.1=true) (htype : keyType.IsWord) : Sound (.entry
      { marker := none
        hostSpec := .patterns
          ((join [','] (names.map fun n => formatHostPattern n.1 n.2)).splitOn ',')
        keyType, keyBlob, comment := [] }) := by
  have hfield : ∀ field : Text, (HostSpec.patterns (field.splitOn ',')).toField=field := by
    intro field
    rw [HostSpec.toField,join_eq_intercalate,intercalate_splitOn]
  have hspec : ∀ n∈names, _ := fun n hn => formatHostPattern_spec (hnames n hn) n.2
  cases names with
  | nil => exact absurd rfl hne
  | cons n names =>
    obtain ⟨rest,hjoin⟩ := exists_join [','] (formatHostPattern n.1 n.2)
      (names.map fun n => formatHostPattern n.1 n.2)
    have hfirst := hspec n mem_cons_self
    have hhead : ∀ c∈(join [','] ((n::names).map fun n =>
        formatHostPattern n.1 n.2)).head?, c ≠ '@' ∧ c ≠ '|' ∧ c ≠ '#' := by
      rw [map_cons,hjoin,head?_append_of_ne_nil _ hfirst.1.1]
      exact hfirst.2.2
    refine writable_new ?_ ?_ ?_ htype
    · rw [hfield]
      refine ⟨?_,fun c hc => ?_⟩
      · rw [map_cons,hjoin]
        exact append_ne_nil_of_left_ne_nil hfirst.1.1 rest
      · rcases mem_join hc with hcomma | ⟨p,hp,hc⟩
        · rw [mem_singleton.1 hcomma]
          decide
        · obtain ⟨n',hn',rfl⟩ := mem_map.1 hp
          exact (hspec n' hn').1.2 c hc
    · rw [hfield,parseHostField_patterns fun c hc => (hhead c hc).2.1]
    · rw [hfield]
      exact fun c hc => ⟨(hhead c hc).1,(hhead c hc).2.2⟩

/- The keys that an edit is to add. -/
def keys : Edit → List Key
  | .tryAdd _ _ _ key _ => [key]
  | .tryAddNames _ key => [key]
  | .updateHostKeys _ _ _ _ add _ => add
  | _ => []

/-- What an edit adds can be written, and has a key that it is to add. -/
theorem added_spec (h : e∈edit.added M) : Sound (.entry e) ∧ e.key∈edit.keys := by
  cases edit with
  | tryAdd salt host port key hashed =>
    exact (addedEntry_spec h).imp_right mem_singleton.2
  | updateHostKeys salts host port gone add hashed =>
    obtain ⟨p,hp,he⟩ := mem_flatMap.1 h
    obtain ⟨hsound,hkey⟩ := addedEntry_spec he
    exact ⟨hsound,hkey ▸ fst_mem_of_mem_zipIdx hp⟩
  | tryAddNames names key =>
    rw [added] at h
    split at h
    · next hsafe =>
      simp only [Bool.and_eq_true,Bool.not_eq_true',isEmpty_eq_false_iff,all_eq_true] at hsafe
      obtain ⟨⟨htype,hne⟩,hnames⟩ := hsafe
      rw [mem_singleton.1 h]
      exact ⟨sound_names hne hnames (safeField_spec htype).1,mem_singleton_self _⟩
    · cases h
  | removeExact _ _ | remove _ _ | hashInPlace _ => cases h

/-- An edit keeps a slot, removes it or hashes the name of its entry. -/
theorem mem_become {i : Nat} {slot' : Slot} (h : slot'∈edit.become M i slot) :
    slot'=slot ∨ slot' = .removed ∨ ∃ e salt name, slot = .entry e ∧
      slot' = .entry { e with hostSpec := .hashed (encodeHashed M salt name) } := by
  have hremoved : ∀ {b : Bool}, slot'∈[if b then .removed else slot] →
      slot'=slot ∨ slot' = .removed := by
    rintro (_ | _) hb
    · exact .inl (mem_singleton.1 hb)
    · exact .inr (mem_singleton.1 hb)
  cases edit with
  | tryAdd _ _ _ _ _ | tryAddNames _ _ => exact .inl (mem_singleton.1 h)
  | removeExact host port | remove host port => exact (hremoved h).imp_right .inl
  | updateHostKeys salts host port gone add hashed =>
    rw [become] at h
    split at h
    · cases h
    · exact .inl (mem_singleton.1 h)
  | hashInPlace salts =>
    cases slot with
    | entry e =>
      rw [become,hashSlot] at h
      split at h
      · exact .inl (mem_singleton.1 h)
      · split at h
        · obtain ⟨p,-,rfl⟩ := mem_map.1 h
          exact .inr (.inr ⟨e,_,_,rfl,rfl⟩)
        · exact .inl (mem_singleton.1 h)
    | verbatim _ | raw _ _ | removed => exact .inl (mem_singleton.1 h)

theorem sound_become {i : Nat} {slot' : Slot} (h : Sound slot)
    (hslot : slot'∈edit.become M i slot) : Sound slot' := by
  obtain rfl | rfl | ⟨e,salt,name,rfl,rfl⟩ := mem_become hslot
  · exact h
  · trivial
  · exact sound_hashed h

theorem key_become {i : Nat} (h : .entry e∈edit.become M i slot) :
    ∃ e', slot = .entry e' ∧ e'.key=e.key := by
  obtain rfl | hremoved | ⟨e',salt,name,rfl,heq⟩ := mem_become h
  · exact ⟨e,rfl,rfl⟩
  · cases hremoved
  · cases heq
    exact ⟨e',rfl,rfl⟩

end Sound

/-- A slot with the line of the file that it was read from, while no edit has changed it. -/
abbrev Traced := Slot × Option Bytes

/- What becomes of a slot and its line. -/
def becomeTraced (M : Mac) (edit : Edit) (p : Traced × Nat) : List Traced :=
  if edit.become M p.2 p.1.1=[p.1.1] then [p.1]
  else (edit.become M p.2 p.1.1).map fun slot => (slot,none)

def trace (M : Mac) (lines : List Traced) (edit : Edit) : List Traced :=
  lines.zipIdx.flatMap (becomeTraced M edit)++(edit.added M).map fun e => (.entry e,none)

theorem map_fst_becomeTraced (edit : Edit) (p : Traced × Nat) :
    (becomeTraced M edit p).map Prod.fst=edit.become M p.2 p.1.1 := by
  rw [becomeTraced]
  split
  · next h => rw [h]; rfl
  · simp [Function.comp_def]

variable {lines : List Traced} {edit : Edit}

/-- The traced slots are those of the store. -/
theorem map_fst_trace (edit : Edit) {s : Store} (h : lines.map Prod.fst=s.lines) :
    (trace M lines edit).map Prod.fst=(edit.run M s).lines := by
  rw [lines_run,trace,map_append,map_flatMap,← h,zipIdx_map,flatMap_map]
  simp [map_fst_becomeTraced]

theorem mem_trace {line : Bytes} (h : (slot,some line)∈trace M lines edit) :
    (slot,some line)∈lines := by
  rcases mem_append.1 h with h | h
  · obtain ⟨p,hp,hmem⟩ := mem_flatMap.1 h
    rw [becomeTraced] at hmem
    split at hmem
    · rw [mem_singleton.1 hmem]
      exact fst_mem_of_mem_zipIdx hp
    · simp at hmem
  · simp at h

end Edit

namespace Store

/-- The store after a sequence of edits. -/
def edited (M : Mac) (edits : List Edit) (data : Bytes) : Store :=
  edits.foldl (Edit.run M) (fromBytes data)

/-- The same store with the lines of the file that no edit has changed. -/
def traced (M : Mac) (edits : List Edit) (data : Bytes) : List Edit.Traced :=
  edits.foldl (Edit.trace M) ((fileLines data).map fun line => (readLine (stripCr line),some line))

variable {data : Bytes} {edits : List Edit}

variable {lines : List Edit.Traced} {s : Store} {line : Bytes}

theorem foldl_trace (h : lines.map Prod.fst=s.lines) :
    (edits.foldl (Edit.trace M) lines).map Prod.fst=(edits.foldl (Edit.run M) s).lines := by
  induction edits generalizing lines s with
  | nil => exact h
  | cons edit edits ih => exact ih (Edit.map_fst_trace edit h)

theorem map_fst_traced : (traced M edits data).map Prod.fst=(edited M edits data).lines := by
  refine foldl_trace ?_
  rw [map_map]
  rfl

theorem mem_foldl_trace (h : (slot,some line)∈edits.foldl (Edit.trace M) lines) :
    (slot,some line)∈lines := by
  induction edits generalizing lines with
  | nil => exact h
  | cons edit edits ih => exact Edit.mem_trace (ih h)

theorem eq_of_mem_traced (h : (slot,some line)∈traced M edits data) :
    slot=readLine (stripCr line) := by
  obtain ⟨l,-,hl⟩ := mem_map.1 (mem_foldl_trace h)
  cases hl
  rfl

theorem newline_not_mem_fileLines (h : line∈fileLines data) : 10∉line := by
  rw [fileLines] at h
  split at h
  · exact not_mem_of_mem_splitOn (mem_of_mem_dropLast h)
  · exact not_mem_of_mem_splitOn h

theorem sound_run {edit : Edit} (h : ∀ slot∈s.lines, Sound slot) :
    ∀ slot∈(edit.run M s).lines, Sound slot := by
  intro slot hslot
  rw [Edit.lines_run,mem_append] at hslot
  rcases hslot with hslot | hslot
  · obtain ⟨p,hp,hmem⟩ := mem_flatMap.1 hslot
    exact Edit.sound_become (h p.1 (fst_mem_of_mem_zipIdx hp)) hmem
  · obtain ⟨e,he,rfl⟩ := mem_map.1 hslot
    exact (Edit.added_spec he).1

/-- Every store that edits lead to is made of sound slots. -/
theorem sound_edited : ∀ slot∈(edited M edits data).lines, Sound slot := by
  have hrun : ∀ {s : Store}, (∀ slot∈s.lines, Sound slot) →
      ∀ slot∈(edits.foldl (Edit.run M) s).lines, Sound slot := by
    induction edits with
    | nil => exact fun h => h
    | cons edit edits ih => exact fun h => ih (sound_run h)
  refine hrun fun slot hslot => ?_
  obtain ⟨line,hline,rfl⟩ := mem_map.1 hslot
  refine sound_readLine fun hmem => newline_not_mem_fileLines hline ?_
  rcases stripCr_cases line with ⟨h,-⟩ | h
  · rwa [h] at hmem
  · rw [h]
    exact mem_append_left _ hmem

theorem exists_text_of_entry (h : readLine line = .entry e) :
    ∃ t : Text, line=t.bytes ∧ parseWords t.words=some e ∧ e.Writable ∧ Durable e.key := by
  rcases text_or_raw line with ⟨t,rfl⟩ | hraw
  · rw [readLine_bytes] at h
    cases hparse : parseWords t.words with
    | none =>
      rw [hparse] at h
      cases h
    | some e' =>
      rw [hparse] at h
      cases h
      exact ⟨t,rfl,hparse,writable_of_parseWords (fun w hw => isWord_of_mem_words hw) hparse⟩
  · rw [readLine_raw hraw] at h
    cases h

/-- Only keys that were added can fail to be durable. -/
theorem durable_edited (h : ∀ edit∈edits, ∀ key∈edit.keys, Durable key) :
    ∀ e, .entry e∈(edited M edits data).lines → Durable e.key := by
  have hrun : ∀ {s : Store}, (∀ e, .entry e∈s.lines → Durable e.key) →
      ∀ e, .entry e∈(edits.foldl (Edit.run M) s).lines → Durable e.key := by
    induction edits with
    | nil => exact fun hs => hs
    | cons edit edits ih =>
      obtain ⟨hedit,hedits⟩ := forall_mem_cons.1 h
      intro s hs
      refine ih hedits fun e he => ?_
      rw [Edit.lines_run,mem_append] at he
      rcases he with he | he
      · obtain ⟨p,hp,hmem⟩ := mem_flatMap.1 he
        obtain ⟨e',he',hkey⟩ := Edit.key_become hmem
        rw [← hkey]
        exact hs e' (he' ▸ fst_mem_of_mem_zipIdx hp)
      · obtain ⟨e',he',hentry⟩ := mem_map.1 he
        cases hentry
        exact hedit _ (Edit.added_spec he').2
  refine hrun fun e he => ?_
  obtain ⟨line,-,hline⟩ := mem_map.1 he
  obtain ⟨-,-,-,-,hdurable⟩ := exists_text_of_entry hline
  exact hdurable

/-- A line that a save writes as it is: no carriage return at its end and, if it is an entry, single
blanks between the words that the entry is written with. -/
def Tidy (line : Bytes) : Prop :=
  line.getLast?≠some 13 ∧ ∀ e, readLine line = .entry e →
    ∃ t : Text, line=t.bytes ∧ t.words=e.fields ∧ join [' '] t.words=t

theorem slotBytes_readLine (line : Bytes) :
    slotBytes (readLine line)=slotLine (readLine line)++[10] := by
  refine slotBytes_eq ?_
  rcases text_or_raw line with ⟨t,rfl⟩ | hraw
  · rw [readLine_bytes]
    cases parseWords t.words <;> exact fun h => by cases h
  · rw [readLine_raw hraw]
    exact fun h => by cases h

/-- A line that is no entry is kept as it is. -/
theorem slotLine_readLine (h : ∀ e, readLine line ≠ .entry e) : slotLine (readLine line)=line := by
  rcases text_or_raw line with ⟨t,rfl⟩ | hraw
  · rw [readLine_bytes] at h ⊢
    cases hparse : parseWords t.words with
    | none => rfl
    | some e =>
      rw [hparse] at h
      exact absurd rfl (h e)
  · rw [readLine_raw hraw]
    rfl

theorem getLast?_formatEntry (h : e.Writable) (hdurable : Durable e.key) :
    (formatEntry e).bytes.getLast?≠some 13 := by
  rw [Ne,getLast?_bytes_cr,h.format_eq_join hdurable.1]
  intro hlast
  have hwords : ∀ w∈e.fields, w.IsWord := by
    rw [← h.words_format]
    exact fun w hw => isWord_of_mem_words hw
  have hne : e.fields≠[] := by simp [Entry.fields]
  have := getLast?_join hwords hne hlast
  revert this
  decide

theorem slotBytes_readLine_iff (line : Bytes) :
    slotBytes (readLine (stripCr line))=line++[10] ↔ Tidy line := by
  rw [slotBytes_readLine,append_left_inj]
  rcases stripCr_cases line with ⟨hline,hcr⟩ | hline
  · rw [hline]
    constructor
    · refine fun hsame => ⟨hcr,fun e he => ?_⟩
      obtain ⟨-,-,-,hwritable,hdurable⟩ := exists_text_of_entry he
      rw [he] at hsame
      refine ⟨formatEntry e,hsame.symm,hwritable.words_format,?_⟩
      rw [hwritable.words_format,hwritable.format_eq_join hdurable.1]
    · rintro ⟨-,htidy⟩
      by_cases hentry : ∃ e, readLine line = .entry e
      · obtain ⟨e,he⟩ := hentry
        obtain ⟨-,-,-,hwritable,hdurable⟩ := exists_text_of_entry he
        obtain ⟨t,rfl,hwords,hjoin⟩ := htidy e he
        rw [he,slotLine,hwritable.format_eq_join hdurable.1,← hwords,hjoin]
      · exact slotLine_readLine fun e he => hentry ⟨e,he⟩
  · refine iff_of_false (fun hsame => ?_) fun htidy => htidy.1 (by rw [hline]; simp)
    by_cases hentry : ∃ e, readLine (stripCr line) = .entry e
    · obtain ⟨e,he⟩ := hentry
      obtain ⟨-,-,-,hwritable,hdurable⟩ := exists_text_of_entry he
      rw [he,slotLine] at hsame
      refine getLast?_formatEntry hwritable hdurable ?_
      rw [hsame,hline]
      simp
    · rw [slotLine_readLine fun e he => hentry ⟨e,he⟩] at hsame
      have := congrArg length (hsame.trans hline)
      simp at this

/-- A store that is saved and loaded, after any edits: lookups for a host and decisions about
certificates stay the same exactly if every entry consulted has a durable key, as all have that were
read and all that are added with one; and a line that no edit has changed is written as it was
exactly if it is tidy. -/
theorem save_load_iff (M : Mac) (data : Bytes) (edits : List Edit) :
    (∀ (host : Text) (port : UInt16), (∀ (key : Key) (c : Certificate),
        (fromBytes (edited M edits data).toBytes).lookup M host port key =
          (edited M edits data).lookup M host port key ∧
        (fromBytes (edited M edits data).toBytes).hasCaFor M host port c =
          (edited M edits data).hasCaFor M host port c ∧
        (fromBytes (edited M edits data).toBytes).revokesCert M host port c =
          (edited M edits data).revokesCert M host port c) ↔
      ∀ e, (edited M edits data).Consulted M host port e → Durable e.key) ∧
    ((∀ edit∈edits, ∀ key∈edit.keys, Durable key) →
      ∀ e, .entry e∈(edited M edits data).lines → Durable e.key) ∧
    (traced M edits data).map Prod.fst=(edited M edits data).lines ∧
    ∀ slot line, (slot,some line)∈traced M edits data →
      (slotBytes slot=line++[10] ↔ Tidy line) := by
  have hsound : ∀ slot∈(edited M edits data).lines, Sound slot := sound_edited
  refine ⟨fun host port => ?_,durable_edited,map_fst_traced,fun slot line h => ?_⟩
  · rw [← lookup_reload_iff hsound]
    exact ⟨fun h key => (h key (signedBy [])).1,fun h key c =>
      ⟨h key,hasCaFor_reload hsound c,revokesCert_reload hsound c⟩⟩
  · rw [eq_of_mem_traced h]
    exact slotBytes_readLine_iff line

def noteFile : Bytes := ascii "# note\ndb ssh-ed25519 AAAA\n"
def addWeb : Edit := .tryAdd [] "web".toList 22 ("ssh-ed25519".toList,[1]) false

/-- A comment, a line that was read and one that was added. -/
theorem save_load_note : (∀ (host : Text) (port : UInt16) (key : Key) (c : Certificate),
      (fromBytes (edited constMac [addWeb] noteFile).toBytes).lookup constMac host port key =
        (edited constMac [addWeb] noteFile).lookup constMac host port key ∧
      (fromBytes (edited constMac [addWeb] noteFile).toBytes).hasCaFor constMac host port c =
        (edited constMac [addWeb] noteFile).hasCaFor constMac host port c ∧
      (fromBytes (edited constMac [addWeb] noteFile).toBytes).revokesCert constMac host port c =
        (edited constMac [addWeb] noteFile).revokesCert constMac host port c) ∧
    Tidy (ascii "# note") := by
  obtain ⟨hanswers,hdurable,-,hlines⟩ := save_load_iff constMac noteFile [addWeb]
  have hkeys : ∀ edit∈[addWeb], ∀ key∈edit.keys, Durable key := by
    intro edit hedit key hkey
    rw [mem_singleton.1 hedit] at hkey
    rw [mem_singleton.1 hkey]
    decide
  refine ⟨fun host port => (hanswers host port).2 fun e he => hdurable hkeys e he.1,?_⟩
  refine (hlines (.verbatim "# note".toList) (ascii "# note") ?_).1 ?_
  · decide
  · decide

/-- A key that is added under the name of a signature algorithm is not found after a save and a
load, and a second blank on a line that nothing changed is lost. -/
theorem save_load_forgets :
    (¬ ∀ (M : Mac) (data : Bytes) (edits : List Edit) (host : Text) (port : UInt16) (key : Key),
      (fromBytes (edited M edits data).toBytes).lookup M host port key =
        (edited M edits data).lookup M host port key) ∧
    ¬ ∀ (M : Mac) (data : Bytes) (edits : List Edit) (slot : Slot) (line : Bytes),
      (slot,some line)∈traced M edits data → slotBytes slot=line++[10] := by
  constructor
  · intro h
    have hsame := h constMac [] [.tryAdd [] "db".toList 22 ("rsa-sha2-256".toList,[1]) false]
      "db".toList 22 ("rsa-sha2-256".toList,[1])
    revert hsame
    decide +kernel
  · intro h
    have hsame := h constMac (ascii "db  ssh-ed25519 AAAA\n") []
      (readLine (ascii "db  ssh-ed25519 AAAA")) (ascii "db  ssh-ed25519 AAAA") (by decide)
    revert hsame
    decide +kernel

end Store

end PureSsh.KnownHosts
