import PureSsh.KnownHosts.Edits

/-! `ssh-keygen -H` (`bin/ssh-keygen.rs`): hashing the names of a known_hosts file line by line. -/

namespace PureSsh.KnownHosts.Keygen
open Lib Cert Store List Text

def isBlank (c : Char) : Bool := c == ' ' || c == '\t'

/- `trim_start_matches(ws)` -/
def skip (t : Text) : Text := t.dropWhile isBlank

/- What stands before the first blank, and from it on. -/
def field (t : Text) : Text := t.takeWhile (!isBlank ·)
def beyond (t : Text) : Text := t.dropWhile (!isBlank ·)

inductive KhStatus where
  | comment | ok | matched | invalid
  deriving DecidableEq, Repr

structure KhLine where
  line : Text
  status : KhStatus
  marker : Option Marker
  hosts : Text
  /-- the key and what follows it -/
  rawkey : Text

def knownKeyType (name : Text) : Bool :=
  ["ssh-ed25519","ecdsa-sha2-nistp","ssh-rsa","rsa-sha2-","sk-ecdsa-sha2-nistp256",
    "sk-ssh-ed25519","ssh-mldsa44-ed25519","webauthn-sk-"].any fun p => p.toList.isPrefixOf name

/- What a line has after its marker. -/
def scanFields (l : KhLine) (cp : Text) : KhLine :=
  if beyond cp=[] then { l with status := .invalid }
  else
    let l := { l with hosts := field cp }
    let rest := skip (beyond cp)
    if rest.isEmpty || rest.head? == some '#' then { l with status := .invalid }
    else
      let l := { l with rawkey := rest }
      let ktype := field rest
      let after := skip (beyond rest)
      if ktype.byteLen≤1 ∨ 128≤ktype.byteLen ∨ beyond rest=[] then
        { l with status := .invalid }
      else if !knownKeyType ktype || after.isEmpty || after.head? == some '#' then
        { l with status := .invalid }
      else l

/- One round of `kh_scan` with no host to match and no key to parse. -/
def scanLine (line : Text) : KhLine :=
  let l : KhLine := { line, status := .ok, marker := none, hosts := [], rawkey := [] }
  let cp := skip line
  if cp.isEmpty || cp.head? == some '#' then { l with status := .comment }
  else if cp.head?=some '@' then
    if field cp=Marker.certAuthority.asStr ∧ beyond cp≠[] then
      scanFields { l with marker := some .certAuthority } (skip (beyond cp))
    else if field cp=Marker.revoked.asStr ∧ beyond cp≠[] then
      scanFields { l with marker := some .revoked } (skip (beyond cp))
    else { l with status := .invalid }
  else scanFields l cp

def khScan (text : Text) : List KhLine := text.lines.map scanLine

/- The salt is random. -/
def khHash (M : Mac) (salt : Bytes) (host : Text) : Text := encodeHashed M salt host

namespace KhLine

def hasWild (l : KhLine) : Bool := l.hosts.any fun c => c == '*' || c == '?' || c == '!'

def wasHashed (l : KhLine) : Bool := l.hosts.head? == some '|'

/-- The lines whose names are hashed. -/
def rewritten (l : KhLine) : Bool :=
  (l.status == .ok || l.status == .matched) && !(l.wasHashed || l.hasWild || l.marker.isSome)

/- The names of a host list, up to the first empty one. -/
def names (l : KhLine) : List Text :=
  ((l.hosts.splitOn ',').takeWhile (· ≠ [])).map lower

end KhLine

/- The lines to write and whether any names were hashed. -/
def khHashLine (M : Mac) (salts : Nat → Bytes) (l : KhLine) : List Text × Bool :=
  if l.rewritten then
    let lines := l.names.zipIdx.map fun (name,j) => khHash M (salts j) name++[' ']++l.rawkey
    (lines,!lines.isEmpty)
  else ([l.line],false)

/-- The new contents and whether the old ones had names to hash; `none` is the refusal of a file
with invalid lines. -/
def runKnownHostsHash (M : Mac) (salts : Nat → Nat → Bytes) (text : Text) : Option (Text × Bool) :=
  let ls := khScan text
  if ls.any (·.status == .invalid) then none
  else
    let out := ls.zipIdx.map fun (l,i) => khHashLine M (salts i) l
    some (out.flatMap fun p => p.1.flatMap (· ++ ['\n']),out.any (·.2))

section Lines
variable {M : Mac} {m : Option Marker} {host : Text} {port : UInt16}

/-- The keys that a line of a file names for a host. -/
def keysOf (M : Mac) (m : Option Marker) (host : Text) (port : UInt16) (line : Text) : List Key :=
  namedOf M m host port (readLine line.bytes)

/-- Only the words of a line count. -/
theorem keysOf_eq (line : Text) : keysOf M m host port line =
    (parseWords line.words).elim [] fun e => namedOf M m host port (.entry e) := by
  rw [keysOf,readLine_bytes]
  cases parseWords line.words <;> rfl

theorem keysOf_stripCr (line : Text) :
    keysOf M m host port (stripCr line)=keysOf M m host port line := by
  rw [keysOf_eq,keysOf_eq,words_stripCr]

theorem namedOf_stripCr (line : Text) :
    namedOf M m host port (readLine (stripCr line.bytes))=keysOf M m host port line := by
  rw [stripCr_bytes]
  exact keysOf_stripCr line

theorem fileLines_append {l : Bytes} (h : 10∉l) (rest : Bytes) :
    fileLines (l++10::rest)=l::fileLines rest := by
  have hne : rest.splitOn 10≠[] := splitOn_ne_nil _ _
  rw [fileLines,fileLines,splitOn_append_cons_self_of_not_mem h,
    getLast?_cons_of_ne_nil hne,dropLast_cons_of_ne_nil hne]
  split <;> rfl

/- `cur` is the part of the line at hand that was read, backwards. -/
theorem flatMap_linesFrom {cur : Text} (hcur : '\n' ∉ cur) (t : Text) :
    ((fileLines (bytes (cur.reverse++t))).flatMap
      fun line => namedOf M m host port (readLine (stripCr line))) =
      (linesFrom cur t).flatMap (keysOf M m host port) := by
  have hbytes : ∀ {t : Text}, '\n' ∉ t → 10∉t.bytes :=
    fun ht hmem => ht (mem_of_mem_bytes hmem (by decide))
  induction t generalizing cur with
  | nil =>
    rw [linesFrom,append_nil]
    by_cases hnil : cur=[]
    · rw [hnil]
      rfl
    · have hnone : fileLines (bytes cur.reverse)=[bytes cur.reverse] := by
        have hne : bytes cur.reverse≠[] := by
          intro h
          refine hnil (reverse_eq_nil_iff.1 (bytes_injective (h.trans ?_)))
          rfl
        rw [fileLines,splitOn_eq_singleton (hbytes (by rwa [mem_reverse]))]
        simp [hne]
      rw [if_neg hnil,hnone,flatMap_cons,flatMap_cons,namedOf_stripCr]
      rfl
  | cons c t ih =>
    rw [linesFrom]
    split
    · next hc =>
      subst hc
      have hsplit : bytes (cur.reverse ++ '\n' :: t)=bytes cur.reverse++10::bytes t := by
        rw [bytes_append]
        rfl
      rw [hsplit,fileLines_append (hbytes (by rwa [mem_reverse])),flatMap_cons,
        flatMap_cons,namedOf_stripCr,keysOf_stripCr,← ih not_mem_nil]
      rfl
    · next hc =>
      rw [← ih (by rw [mem_cons,not_or]; exact ⟨Ne.symm hc,hcur⟩),reverse_cons,
        append_assoc,singleton_append]

theorem namedKeys_text (text : Text) : (fromBytes text.bytes).namedKeys M m host port =
    text.lines.flatMap (keysOf M m host port) := by
  rw [namedKeys,fromBytes,flatMap_map]
  exact flatMap_linesFrom not_mem_nil text

theorem namedKeys_lines {ls : List Text} (h : ∀ l∈ls, '\n' ∉ l) :
    (fromBytes (bytes (ls.flatMap (· ++ ['\n'])))).namedKeys M m host port =
      ls.flatMap (keysOf M m host port) := by
  rw [namedKeys_text,lines_flatMap h,flatMap_map]
  exact flatMap_congr fun l _ => keysOf_stripCr l

end Lines

section Scan
variable {line : Text}

variable {c : Char} {t : Text}

theorem isWhitespace_of_isBlank (h : isBlank c=true) : isWhitespace c=true := by
  rw [isBlank,Bool.or_eq_true,beq_iff_eq,beq_iff_eq] at h
  rcases h with rfl | rfl <;> decide

theorem exists_skip (t : Text) : ∃ a, t=a++skip t ∧ ∀ c∈a, isWhitespace c=true :=
  ⟨t.takeWhile isBlank,takeWhile_append_dropWhile.symm,
    fun _ hc => isWhitespace_of_isBlank (mem_takeWhile_imp hc)⟩

theorem head?_skip (h : c∈(skip t).head?) : isBlank c=false := by
  have hhead := head?_dropWhile_not isBlank t
  rw [skip] at h
  rw [Option.mem_def.1 h] at hhead
  simpa using hhead

theorem head?_beyond (h : c∈(beyond t).head?) : isBlank c=true := by
  have hhead := head?_dropWhile_not (!isBlank ·) t
  rw [beyond] at h
  rw [Option.mem_def.1 h] at hhead
  simpa using hhead

theorem scanFields_ok {l : KhLine} {cp : Text} (h : (scanFields l cp).status = .ok) :
    (scanFields l cp).line=l.line ∧ (scanFields l cp).marker=l.marker ∧
      (scanFields l cp).hosts=field cp ∧ (scanFields l cp).rawkey=skip (beyond cp) ∧
      beyond cp≠[] := by
  rw [scanFields] at h ⊢
  split at h
  · cases h
  next hbeyond =>
  dsimp only at h
  split at h
  · cases h
  next hrest =>
  split at h
  · cases h
  next htype =>
  split at h
  · cases h
  next hafter =>
  rw [if_neg hbeyond,if_neg hrest,if_neg htype,if_neg hafter]
  exact ⟨rfl,rfl,rfl,rfl,hbeyond⟩

theorem scanLine_plain (hok : (scanLine line).status = .ok) (hm : (scanLine line).marker=none) :
    (scanLine line).line=line ∧ (scanLine line).hosts≠[] ∧
      (∀ c∈(scanLine line).hosts.head?, c ≠ '#' ∧ c ≠ '@') ∧
      ∃ (a b : Text) (c : Char), (∀ x∈a, isWhitespace x=true) ∧
        (∀ x∈b, isWhitespace x=true) ∧ isWhitespace c=true ∧
        line=a++((scanLine line).hosts++c::(b++(scanLine line).rawkey)) := by
  rw [scanLine] at hok hm ⊢
  split at hok
  · cases hok
  next hcp =>
  rw [if_neg hcp] at hm ⊢
  simp only [Bool.or_eq_true,List.isEmpty_iff,beq_iff_eq,not_or] at hcp
  split at hok
  · next hat =>
    -- a marker stays on the line
    rw [if_pos hat] at hm
    split at hok
    · next hca =>
      rw [if_pos hca,(scanFields_ok hok).2.1] at hm
      cases hm
    next hca =>
    rw [if_neg hca] at hm
    split at hok
    · next hrevoked =>
      rw [if_pos hrevoked,(scanFields_ok hok).2.1] at hm
      cases hm
    · cases hok
  next hat =>
  rw [if_neg hat] at hm ⊢
  obtain ⟨hline,-,hhosts,hrawkey,hbeyond⟩ := scanFields_ok hok
  rw [hline,hhosts,hrawkey]
  obtain ⟨a,ha,hblank⟩ := exists_skip line
  have hsplit : skip line=field (skip line)++beyond (skip line) :=
    takeWhile_append_dropWhile.symm
  have hhead : (field (skip line)).head?=(skip line).head? ∧ field (skip line)≠[] := by
    cases hskip : skip line with
    | nil => exact absurd hskip hcp.1
    | cons x r =>
      have hx : isBlank x=false := head?_skip (t := line) (by rw [hskip]; rfl)
      rw [field,takeWhile_cons_of_pos (by simp [hx])]
      exact ⟨rfl,cons_ne_nil _ _⟩
  refine ⟨rfl,hhead.2,fun c hc => ?_,?_⟩
  · rw [hhead.1] at hc
    exact ⟨fun h => hcp.2 (h ▸ hc),fun h => hat (h ▸ hc)⟩
  · obtain ⟨c,rest,hrest⟩ := exists_cons_of_ne_nil hbeyond
    have hc : isBlank c=true := head?_beyond (t := skip line) (by rw [hrest]; rfl)
    have hskip : skip (beyond (skip line))=skip rest := by
      rw [hrest,skip,dropWhile_cons_of_pos hc]
      rfl
    obtain ⟨b,hb,hblank'⟩ := exists_skip rest
    refine ⟨a,b,c,hblank,hblank',isWhitespace_of_isBlank hc,?_⟩
    rw [hskip,← hb,← hrest,← hsplit]
    exact ha

theorem scanFields_line (l : KhLine) (cp : Text) : (scanFields l cp).line=l.line := by
  rw [scanFields]
  dsimp only
  repeat' split
  all_goals rfl

theorem scanFields_status (l : KhLine) (cp : Text) :
    (scanFields l cp).status=l.status ∨ (scanFields l cp).status = .invalid := by
  rw [scanFields]
  dsimp only
  repeat' split
  all_goals simp

theorem scanLine_line (line : Text) : (scanLine line).line=line := by
  rw [scanLine]
  repeat' split
  all_goals first
    | rfl
    | exact scanFields_line _ _

theorem scanLine_ne_matched (line : Text) : (scanLine line).status ≠ .matched := by
  have hfields : ∀ (l : KhLine) (cp : Text), l.status = .ok → (scanFields l cp).status ≠ .matched := by
    intro l cp hl
    rcases scanFields_status l cp with h | h <;> simp [h,hl]
  rw [scanLine]
  repeat' split
  all_goals first
    | exact hfields _ _ rfl
    | exact fun h => by cases h

theorem rewritten_iff (line : Text) : (scanLine line).rewritten=true ↔
    (scanLine line).status = .ok ∧ (scanLine line).marker=none ∧
      (scanLine line).wasHashed=false ∧ (scanLine line).hasWild=false := by
  have hne := scanLine_ne_matched line
  simp only [KhLine.rewritten,Bool.and_eq_true,Bool.or_eq_true,beq_iff_eq,hne,or_false,
    Bool.not_eq_true',Bool.or_eq_false_iff,Option.isSome_eq_false_iff,Option.isNone_iff_eq_none]
  exact ⟨fun h => ⟨h.1,h.2.2,h.2.1.1,h.2.1.2⟩,fun h => ⟨h.1,⟨h.2.2.1,h.2.2.2⟩,h.2.1⟩⟩

theorem words_rewritten (h : (scanLine line).rewritten=true) :
    line.words=(scanLine line).hosts.words++(scanLine line).rawkey.words := by
  obtain ⟨hok,hm,-⟩ := (rewritten_iff line).1 h
  obtain ⟨-,-,-,a,b,c,ha,hb,hc,hline⟩ := scanLine_plain hok hm
  conv_lhs => rw [hline]
  rw [words_blanks_append ha,words_append_cons hc,words_blanks_append hb]

end Scan

section Rewriting
variable {M : Mac} {m : Option Marker} {host : Text} {port : UInt16} {line : Text}

/-- The key that stands at the start of a text. -/
def keyOf (rawkey : Text) : Option Key := (parseFields none ([]::rawkey.words)).map Entry.key

theorem parseFields_host (host : Text) (ws : List Text) :
    parseFields none (host::ws)=(parseFields none ([]::ws)).map fun e =>
      { e with hostSpec := parseHostField host } := by
  rcases ws with _ | ⟨keyType,_ | ⟨key,comment⟩⟩
  · rfl
  · rfl
  · simp only [parseFields]
    cases Base64.decode (bytes key) <;> rfl

/-- A line with one hashed name. -/
theorem keysOf_hashed {salt : Bytes} {name : Text} (hbind : Binding M salt name) (rawkey : Text) :
    keysOf M m host port (khHash M salt name++[' ']++rawkey) =
      if m=none ∧ formatHost host port=name then (keyOf rawkey).toList else [] := by
  have hhead : (encodeHashed M salt name).head?=some '|' := rfl
  have hne : ∀ w : Text, w.head?≠some '|' → encodeHashed M salt name≠w := by
    rintro _ hw rfl
    exact hw hhead
  have hwords : words (khHash M salt name++[' ']++rawkey) =
      encodeHashed M salt name::rawkey.words := by
    rw [append_assoc,singleton_append,words_append_cons (by decide),khHash,
      words_of_isWord (Edit.isWord_encodeHashed M salt name)]
    rfl
  have hparse : parseWords (encodeHashed M salt name::rawkey.words) =
      parseFields none (encodeHashed M salt name::rawkey.words) := by
    rw [parseWords,hhead,if_neg (by decide),if_neg (hne _ (by decide)),if_neg (hne _ (by decide))]
  rw [keysOf_eq,hwords,hparse,parseFields_host,Edit.parseHostField_encodeHashed,keyOf]
  cases hfields : parseFields none ([]::rawkey.words) with
  | none => simp
  | some e =>
    obtain ⟨-,-,-,-,-,-,hm,-⟩ := parseFields_eq_some.1 hfields
    simp only [Option.map_some,Option.elim_some,namedOf,hostFieldMatches_hashed hbind,hm,
      eq_comm (a := m)]
    rfl

/-- The keys that a line names once its names are hashed: one for each time that the host is
spelled out. -/
def spelledOf (M : Mac) (m : Option Marker) (host : Text) (port : UInt16) (line : Text) : List Key :=
  if (scanLine line).rewritten then
    if m=none then
      (keyOf (scanLine line).rawkey).elim []
        (replicate ((scanLine line).names.count (formatHost host port)))
    else []
  else keysOf M m host port line

variable {salts : Nat → Bytes} {out text : Text} {unhashed : Bool}

/- One line for each name; the induction moves the index of the first. -/
theorem flatMap_names {rawkey : Text} {names : List Text} {start : Nat}
    (hbind : ∀ name j, (name,j)∈names.zipIdx start → Binding M (salts j) name) :
    ((names.zipIdx start).map fun p => khHash M (salts p.2) p.1++[' ']++rawkey).flatMap
        (keysOf M m host port)=if m=none then
        (keyOf rawkey).elim [] (replicate (names.count (formatHost host port))) else [] := by
  induction names generalizing start with
  | nil => cases keyOf rawkey <;> simp
  | cons name names ih =>
    rw [zipIdx_cons,map_cons,flatMap_cons,
      ih fun n j hj => hbind n j (by exact mem_cons_of_mem _ hj),
      keysOf_hashed (hbind name start (by exact mem_cons_self))]
    by_cases hm : m=none
    · by_cases hname : formatHost host port=name
      · cases keyOf rawkey <;> simp [hm,hname,replicate_succ]
      · cases keyOf rawkey <;> simp [hname,Ne.symm hname]
    · simp [hm]

theorem flatMap_khHashLine (hbind : (scanLine line).rewritten=true →
      ∀ name j, (name,j)∈(scanLine line).names.zipIdx → Binding M (salts j) name) :
    (khHashLine M salts (scanLine line)).1.flatMap (keysOf M m host port) =
      spelledOf M m host port line := by
  rw [khHashLine,spelledOf]
  by_cases h : (scanLine line).rewritten=true
  · rw [if_pos h,if_pos h]
    exact flatMap_names (hbind h)
  · rw [if_neg h,if_neg h,scanLine_line,flatMap_cons,flatMap_nil,append_nil]

theorem newline_not_mem_khHashLine (hline : '\n' ∉ line) {l : Text}
    (h : l∈(khHashLine M salts (scanLine line)).1) : '\n' ∉ l := by
  rw [khHashLine] at h
  split at h
  · next hrewritten =>
    obtain ⟨hok,hm,-⟩ := (rewritten_iff line).1 hrewritten
    obtain ⟨-,-,-,a,b,c,-,-,-,heq⟩ := scanLine_plain hok hm
    have hrawkey : '\n' ∉ (scanLine line).rawkey := by
      intro hmem
      refine hline ?_
      rw [heq]
      simp [hmem]
    obtain ⟨p,-,rfl⟩ := mem_map.1 h
    have htoken : '\n' ∉ encodeHashed M (salts p.2) p.1 := by
      intro hmem
      have := (Edit.isWord_encodeHashed M (salts p.2) p.1).2 _ hmem
      revert this
      decide
    simp [khHash,htoken,hrawkey]
  · rw [mem_singleton.1 h,scanLine_line]
    exact hline

/-- Every name that is hashed has a salt under which it is bound. -/
def Bound (M : Mac) (salts : Nat → Nat → Bytes) (text : Text) : Prop :=
  ∀ line i, (line,i)∈text.lines.zipIdx → (scanLine line).rewritten=true →
    ∀ name j, (name,j)∈(scanLine line).names.zipIdx → Binding M (salts i j) name

theorem runKnownHostsHash_eq_some {salts : Nat → Nat → Bytes}
    (h : runKnownHostsHash M salts text=some (out,unhashed)) :
    out=(text.lines.zipIdx.flatMap fun p => (khHashLine M (salts p.2) (scanLine p.1)).1).flatMap
      (· ++ ['\n']) := by
  rw [runKnownHostsHash] at h
  split at h
  · cases h
  · cases h
    rw [khScan,zipIdx_map,map_map,flatMap_map,flatMap_assoc]
    rfl

/-- Once its names are hashed, a file names the hosts that are spelled out. -/
theorem namedKeys_run {salts : Nat → Nat → Bytes}
    (h : runKnownHostsHash M salts text=some (out,unhashed)) (hbound : Bound M salts text) :
    (fromBytes out.bytes).namedKeys M m host port =
      text.lines.flatMap (spelledOf M m host port) := by
  rw [runKnownHostsHash_eq_some h,namedKeys_lines,flatMap_assoc,
    ← Edit.flatMap_zipIdx (spelledOf M m host port)]
  · exact flatMap_congr fun p hp => flatMap_khHashLine (hbound p.1 p.2 hp)
  · intro l hl
    obtain ⟨p,hp,hmem⟩ := mem_flatMap.1 hl
    exact newline_not_mem_khHashLine (newline_not_mem_lines (fst_mem_of_mem_zipIdx hp)) hmem

end Rewriting

section Plain
variable {M : Mac} {m : Option Marker} {host n : Text} {port : UInt16} {line : Text}

/-- A name that hashing and matching read alike: a host for the default port, or a host and another
port in brackets. -/
def PlainName (n : Text) : Prop :=
  n≠[] ∧ (n.head?≠some '[' ∧ n.byteLen≤ maxGlobPatternLen ∨
    ∃ g p, p≠22 ∧ n=formatHost g p ∧ g.byteLen≤ maxGlobPatternLen)

/-- A host list of such names, all different. -/
structure PlainList (hosts : Text) : Prop where
  solid : ∀ c∈hosts, isWhitespace c=false
  plain : ∀ n∈hosts.splitOn ',', PlainName n
  distinct : ((hosts.splitOn ',').map lower).Nodup

/-- A host that is asked for as it would be hashed. -/
def PlainHost (host : Text) : Prop := lower host=host ∧ host.head?≠some '['

theorem eq_of_toLower_eq_bracket {c : Char} (h : c.toLower = '[') : c = '[' := by
  delta Char.toLower at h
  split at h
  · next hupper =>
    have hlo : 65≤c.val.toNat := hupper.1
    have hhi : c.val.toNat≤90 := hupper.2
    have hval : (c.val+32).toNat=91 := congrArg (·.val.toNat) h
    rw [UInt32.toNat_add] at hval
    have h32 : (32 : UInt32).toNat=32 := rfl
    omega
  · exact h

theorem toLower_digit {c : Char} (h : c.isDigit) : c.toLower=c := by
  delta Char.toLower
  rw [dif_neg]
  intro hupper
  simp only [Char.isDigit,Bool.and_eq_true,decide_eq_true_eq] at h hupper
  have h₁ : c.val.toNat≤57 := h.2
  have h₂ : 65≤c.val.toNat := hupper.1
  omega

variable {g : Text} {p : UInt16} {pats : List Text}

theorem lower_formatHost (hp : p≠22) : lower (formatHost g p)=formatHost (lower g) p := by
  have hdecimal : (decimal p).map Char.toLower=decimal p := by
    conv_rhs => rw [← map_id (decimal p)]
    exact map_congr_left fun c hc => toLower_digit (isDigit_of_mem_decimal hc)
  rw [formatHost,if_neg hp,formatHost,if_neg hp,lower,cons_append,map_cons,
    map_append,map_cons,map_cons,hdecimal]
  rfl

theorem formatHost_inj {g' : Text} {p' : UInt16} (hp : p≠22) (hp' : p'≠22) :
    formatHost g p=formatHost g' p' ↔ g=g' ∧ p=p' := by
  constructor
  · intro h
    rw [formatHost,if_neg hp,formatHost,if_neg hp'] at h
    have hsplit : ∀ (g : Text) (p : UInt16), splitLast ']' (g ++ ']' :: ':' :: decimal p) =
        some (g,':' :: decimal p) := by
      intro g p
      refine splitLast_append ?_ g
      rw [mem_cons,not_or]
      exact ⟨by decide,not_mem_decimal rfl⟩
    have := congrArg (fun t => splitLast ']' t.tail) h
    simp only [cons_append,tail_cons,hsplit,Option.some.injEq,Prod.mk.injEq,
      cons.injEq,true_and] at this
    exact ⟨this.1,decimal_injective this.2⟩
  · rintro ⟨rfl,rfl⟩
    rfl

theorem globMatch_iff (hhost : lower host=host) (hwild : g.any isWild=false)
    (hlen : g.byteLen≤ maxGlobPatternLen) : globMatchAsciiCi g host=true ↔ lower g=host := by
  have hstars : g.count '*' = 0 := by
    rw [count_eq_zero]
    intro hmem
    have := any_eq_false.1 hwild '*' hmem
    simp [isWild] at this
  have hdead : ¬Dead g := by
    rw [Dead,hstars]
    omega
  rw [globMatchAsciiCi_of_not_dead hdead,globInner_of_not_wild hwild,sameAsciiCase,beq_iff_eq]
  change lower g=lower host ↔ _
  rw [hhost]

/-- A plain name matches a host exactly if it is hashed like it. -/
theorem patternMatchInner_iff (hhost : PlainHost host) (hn : PlainName n)
    (hwild : n.any isWild=false) :
    patternMatchInner n host port=true ↔ lower n=formatHost host port := by
  obtain ⟨hne,⟨hhead,hlen⟩ | ⟨g,p,hp,rfl,hlen⟩⟩ := hn
  · rw [patternMatchInner_plain hhead,Bool.and_eq_true,beq_iff_eq,globMatch_iff hhost.1 hwild hlen]
    by_cases hport : port=22
    · subst hport
      rw [formatHost_default]
      simp
    · refine iff_of_false (fun h => hport h.1) fun h => hhead ?_
      cases n with
      | nil => exact absurd rfl hne
      | cons c n =>
        rw [formatHost,if_neg hport] at h
        rw [head?_cons,eq_of_toLower_eq_bracket (cons.inj h).1]
  · have hg : g.any isWild=false := by
      rw [formatHost,if_neg hp] at hwild
      simp only [cons_append,any_cons,any_append,Bool.or_eq_false_iff] at hwild
      exact hwild.2.1
    have hmatch : patternMatchInner (formatHost g p) host port =
        (globMatchAsciiCi g host && p==port) := by
      have hsingle : patternsMatch [formatHostPattern g p] host port =
          (globMatchAsciiCi g host && p==port) := patternsMatch_bracketed hp
      have hhead : (formatHostPattern g p).head? != some '!' := by
        rw [formatHostPattern,if_neg hp]
        rfl
      rwa [patternsMatch_singleton,hhead] at hsingle
    rw [hmatch,Bool.and_eq_true,beq_iff_eq,globMatch_iff hhost.1 hg hlen,lower_formatHost hp]
    by_cases hport : port=22
    · subst hport
      refine iff_of_false (fun h => hp h.2) fun h => hhost.2 ?_
      rw [formatHost_default,formatHost,if_neg hp] at h
      rw [← h]
      rfl
    · rw [formatHost_inj hp hport]

theorem patternsMatch_eq_any (h : ∀ p∈pats, p.head?≠some '!') :
    patternsMatch pats host port=pats.any fun p => patternMatchInner p host port := by
  have hfrom : ∀ anyPos, patternsMatchFrom host port anyPos pats =
      (anyPos || pats.any fun p => patternMatchInner p host port) := by
    induction pats with
    | nil => simp [patternsMatchFrom]
    | cons p pats ih =>
      obtain ⟨hp,hpats⟩ := forall_mem_cons.1 h
      intro anyPos
      rw [patternsMatchFrom,if_neg hp,ih hpats,any_cons,Bool.or_assoc]
  rw [patternsMatch,hfrom,Bool.false_or]

theorem takeWhile_names (h : ∀ n∈pats, PlainName n) : pats.takeWhile (· ≠ [])=pats :=
  takeWhile_eq_self_iff.2 fun n hn => decide_eq_true (h n hn).1

/-- On a plain line the names that are hashed are those that match. -/
theorem spelledOf_eq_keysOf (hhost : PlainHost host)
    (hlist : (scanLine line).rewritten=true → PlainList (scanLine line).hosts) :
    spelledOf M m host port line=keysOf M m host port line := by
  rw [spelledOf]
  by_cases hrewritten : (scanLine line).rewritten=true
  swap
  · rw [if_neg hrewritten]
  obtain ⟨hsolid,hplain,hdistinct⟩ := hlist hrewritten
  obtain ⟨hok,hm,hhashed,hwild⟩ := (rewritten_iff line).1 hrewritten
  obtain ⟨-,hne,hhead,-⟩ := scanLine_plain hok hm
  have hwords : line.words=(scanLine line).hosts::(scanLine line).rawkey.words := by
    rw [words_rewritten hrewritten,words_of_isWord ⟨hne,hsolid⟩]
    rfl
  have hat : ∀ w : Text, w.head?=some '@' → (scanLine line).hosts≠w := by
    rintro _ hw rfl
    exact (hhead '@' hw).2 rfl
  have hhash : (scanLine line).hosts.head?≠some '#' := fun h => (hhead '#' h).1 rfl
  have hparse : parseWords line.words=(parseFields none ([]::(scanLine line).rawkey.words)).map
      fun e => { e with hostSpec := .patterns ((scanLine line).hosts.splitOn ',') } := by
    rw [hwords,parseWords,if_neg hhash,if_neg (hat _ rfl),if_neg (hat _ rfl),
      parseFields_host,Edit.parseHostField_patterns]
    rintro c hc rfl
    rw [KhLine.wasHashed,Option.mem_def.1 hc] at hhashed
    cases hhashed
  have hpiece : ∀ n∈(scanLine line).hosts.splitOn ',', n.any isWild=false ∧ '!' ∉ n := by
    intro n hn
    have hsub := subset_of_mem_splitOn hn
    rw [KhLine.hasWild,any_eq_false] at hwild
    refine ⟨any_eq_false.2 fun c hc => ?_,fun hc => hwild '!' (hsub hc) (by decide)⟩
    have := hwild c (hsub hc)
    simp only [Bool.or_eq_true,not_or,isWild] at this ⊢
    exact this.1
  have hmatch : patternsMatch ((scanLine line).hosts.splitOn ',') host port=true ↔
      formatHost host port∈((scanLine line).hosts.splitOn ',').map lower := by
    rw [patternsMatch_eq_any fun n hn hbang => (hpiece n hn).2 (mem_of_mem_head? hbang),
      any_eq_true,mem_map]
    exact exists_congr fun n => and_congr_right fun hn =>
      patternMatchInner_iff hhost (hplain n hn) (hpiece n hn).1
  rw [if_pos hrewritten,keysOf_eq,hparse,keyOf,KhLine.names,takeWhile_names hplain,hdistinct.count]
  cases hfields : parseFields none ([]::(scanLine line).rawkey.words) with
  | none => simp
  | some e =>
    obtain ⟨-,-,-,-,-,-,hmarker,-⟩ := parseFields_eq_some.1 hfields
    simp only [Option.map_some,Option.elim_some,namedOf,hmarker,hostFieldMatches,hmatch,
      eq_comm (a := none)]
    by_cases hm : m=none
    · by_cases hin : formatHost host port∈((scanLine line).hosts.splitOn ',').map lower
      · rw [if_pos hm,if_pos hin,if_pos ⟨hm,hin⟩]
        rfl
      · rw [if_pos hm,if_neg hin,if_neg fun h => hin h.2]
        rfl
    · rw [if_neg hm,if_neg fun h => hm h.1]

end Plain

/-- A file whose names were hashed gives a host the same answers exactly if the names that spell it
out are those that match it, line by line in the order of the file. This is so for a host in lower
case if the lists that were hashed are plain. -/
theorem hash_file_keeps_trust_iff (M : Mac) (salts : Nat → Nat → Bytes) (text out : Text)
    (unhashed : Bool) (host : Text) (port : UInt16)
    (h : runKnownHostsHash M salts text=some (out,unhashed)) (hbound : Bound M salts text) :
    ((∀ (key : Key) (c : Certificate), (fromBytes out.bytes).lookup M host port key =
        (fromBytes text.bytes).lookup M host port key ∧
      (fromBytes out.bytes).hasCaFor M host port c=(fromBytes text.bytes).hasCaFor M host port c ∧
      (fromBytes out.bytes).revokesCert M host port c =
        (fromBytes text.bytes).revokesCert M host port c) ↔
      SameAnswers port (fun m q => text.lines.flatMap (spelledOf M m host q))
        fun m q => text.lines.flatMap (keysOf M m host q)) ∧
    (PlainHost host → (∀ line∈text.lines, (scanLine line).rewritten=true →
        PlainList (scanLine line).hosts) →
      SameAnswers port (fun m q => text.lines.flatMap (spelledOf M m host q))
        fun m q => text.lines.flatMap (keysOf M m host q)) := by
  constructor
  · rw [same_answers_iff]
    simp only [namedKeys_run h hbound,namedKeys_text]
  · intro hhost hplain
    have hsame : ∀ m q, text.lines.flatMap (spelledOf M m host q) =
        text.lines.flatMap (keysOf M m host q) := fun m q =>
      flatMap_congr fun line hline => spelledOf_eq_keysOf hhost (hplain line hline)
    simp only [hsame]
    exact ⟨fun _ => Iff.rfl,rfl,fun _ => Iff.rfl,fun _ _ _ _ => Iff.rfl⟩

theorem bound_nameMac {names : List Text} {salts : Nat → Nat → Bytes} {text : Text}
    (hlen : names.length<256) (h : ∀ line∈text.lines, ∀ name∈(scanLine line).names, name∈names) :
    Bound (nameMac names) salts text := by
  intro line i hline _ name j hname
  exact nameMac_binding
    (h line (fst_mem_of_mem_zipIdx hline) name (fst_mem_of_mem_zipIdx hname)) hlen _

def dbLine : Text := "DB,web ssh-ed25519 AAAA".toList
def revokedLine : Text := "@revoked db ssh-ed25519 AAAE".toList
def dbText : Text := dbLine ++ '\n' :: revokedLine ++ ['\n']
def dbHashed : Text := ((runKnownHostsHash dbMac (fun _ _ => [5]) dbText).getD ([],false)).1

/-- A name in capitals is hashed as it is asked for, and a line with a marker stays. -/
theorem hash_file_keeps_trust_db :
    runKnownHostsHash dbMac (fun _ _ => [5]) dbText=some (dbHashed,true) ∧
    ∀ (key : Key) (c : Certificate), (fromBytes dbHashed.bytes).lookup dbMac "db".toList 22 key =
        (fromBytes dbText.bytes).lookup dbMac "db".toList 22 key ∧
      (fromBytes dbHashed.bytes).hasCaFor dbMac "db".toList 22 c =
        (fromBytes dbText.bytes).hasCaFor dbMac "db".toList 22 c ∧
      (fromBytes dbHashed.bytes).revokesCert dbMac "db".toList 22 c =
        (fromBytes dbText.bytes).revokesCert dbMac "db".toList 22 c := by
  have hrun : runKnownHostsHash dbMac (fun _ _ => [5]) dbText=some (dbHashed,true) := by
    decide +kernel
  have hlines : dbText.lines=[dbLine,revokedLine] := by decide +kernel
  have hnames : (scanLine dbLine).names=["db".toList,"web".toList] ∧
      (scanLine revokedLine).names=["db".toList] := by decide +kernel
  have hbound : Bound dbMac (fun _ _ => [5]) dbText := by
    refine bound_nameMac (by decide) ?_
    rw [hlines,forall_mem_cons,forall_mem_singleton,hnames.1,hnames.2]
    decide
  obtain ⟨hiff,hplain⟩ := hash_file_keeps_trust_iff dbMac (fun _ _ => [5]) dbText dbHashed true
    "db".toList 22 hrun hbound
  refine ⟨hrun,hiff.2 (hplain ⟨by decide,by decide⟩ ?_)⟩
  have hmarker : (scanLine revokedLine).rewritten=false := by decide +kernel
  have hhosts : (scanLine dbLine).hosts = "DB,web".toList := by decide +kernel
  rw [hlines,forall_mem_cons,forall_mem_singleton,hmarker,hhosts]
  refine ⟨fun _ => ⟨by simp [isWhitespace],?_,by decide⟩,nofun⟩
  have hpieces : "DB,web".toList.splitOn ',' = ["DB".toList,"web".toList] := by decide
  rw [hpieces,forall_mem_cons,forall_mem_singleton]
  exact ⟨⟨by decide,.inl ⟨by decide,by decide⟩⟩,by decide,.inl ⟨by decide,by decide⟩⟩

/-- The names after an empty one are dropped with their key. -/
theorem hash_file_loses_name :
    ¬ ∀ (M : Mac) (salts : Nat → Nat → Bytes) (text out : Text) (unhashed : Bool) (host : Text)
      (port : UInt16) (key : Key), runKnownHostsHash M salts text=some (out,unhashed) →
      Bound M salts text →
      (fromBytes out.bytes).lookup M host port key=(fromBytes text.bytes).lookup M host port key := by
  intro h
  have hsame := h (nameMac ["a".toList]) (fun _ _ => [5]) "a,,b ssh-ed25519 AAAA\n".toList
    ((runKnownHostsHash (nameMac ["a".toList]) (fun _ _ => [5])
      "a,,b ssh-ed25519 AAAA\n".toList).getD ([],false)).1 true "b".toList 22
    ("ssh-ed25519".toList,[0,0,0]) (by decide)
    (bound_nameMac (by decide) (by decide))
  revert hsame
  decide

end PureSsh.KnownHosts.Keygen
