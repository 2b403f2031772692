import RaftKVStorage.ConfigFile
import RaftKVStorage.Archive

set_option autoImplicit false

/-! # The nodes of a cluster

What the constructor of `kvServer` and `clerk::init` make of the configuration: node after node, up to
the first without an address. A file that lists the nodes gives every server and every clerk the same
list, whatever else is in it and in whatever order. -/

namespace RaftKVStorage

open MprpcConfig LineText

/-! ## Reading the nodes -/

def isDigit (c : UInt8) : Bool := 48 ≤ c && c ≤ 57

/-- `atoi`, for numbers that an `int` can hold. -/
def atoi (str : Bytes) : Int :=
  let str := str.dropWhile isSpace
  if str.head? = some 45 then -(ofDecimal (str.tail.takeWhile isDigit) : Int)
  else if str.head? = some 43 then ofDecimal (str.tail.takeWhile isDigit)
  else ofDecimal (str.takeWhile isDigit)

/-- An `int` that becomes a `uint16_t`. -/
def toUint16 (v : Int) : ℕ := (v % 65536).toNat

/-- "node" and the number of the node, with the name of what is looked up. -/
def nodeKey (i : ℕ) (name : Bytes) : Bytes := ofChars ['n', 'o', 'd', 'e'] ++ (decimal i ++ name)

def ipName : Bytes := ofChars ['i', 'p']
def portName : Bytes := ofChars ['p', 'o', 'r', 't']

/-- The loop that fills `addr_port`, with `fuel` turns left. -/
def addrPortLoop (cfg : MprpcConfig) : ℕ → ℕ → List (Bytes × ℕ)
  | 0, _ => []
  | fuel + 1, i =>
      let addr := cfg.value (nodeKey i ipName)
      if addr = [] then []
      else
        (addr, toUint16 (atoi (cfg.value (nodeKey i portName)))) :: addrPortLoop cfg fuel (i + 1)

/-- `addr_port`: the loop stops at `UINT16_MAX`. -/
def addrPort (cfg : MprpcConfig) : List (Bytes × ℕ) := addrPortLoop cfg 65535 0

/-- The peers a server connects to, by their numbers, and the port it listens on. -/
structure ServerPlan where
  helpers : List (Option (Bytes × ℕ))
  myPort : ℕ
deriving DecidableEq, Repr

/-- The constructor of `kvServer` as far as it depends on the configuration. `me` is compared as a
    `size_t`; "Bad me" is thrown. -/
def kvServerPlan (cfg : MprpcConfig) (me : Int) : Option ServerPlan :=
  let nodes := addrPort cfg
  if 0 ≤ me ∧ me < nodes.length then
    some
      { helpers := nodes.mapIdx fun i node => if (i : Int) = me then none else some node
        myPort := (nodes.getD me.toNat ([], 0)).2 }
  else none

/-- The loop of `findAvailablePort`: what `counter` is when it ends. -/
def availableCounter (availablePort : ℕ → Bool) (port : ℕ) : ℕ → ℕ → ℕ
  | 0, counter => counter
  | fuel + 1, counter =>
      if !availablePort ((port + counter) % 65536) && counter < 30 then
        availableCounter availablePort port fuel (counter + 1)
      else counter

/-- `findAvailablePort`, with the port it leaves behind: what it has found is added to `counter` and
    not to `port`. -/
def findAvailablePort (availablePort : ℕ → Bool) (port : ℕ) : Bool × ℕ :=
  (availableCounter availablePort port 31 0 < 30, port)

/-- `rpcProvider::run`: the port it binds to, unless the process exits. -/
def rpcProviderPort (availablePort : ℕ → Bool) (port : ℕ) : Option ℕ :=
  match findAvailablePort availablePort port with
  | (true, port) => some port
  | (false, _) => none

/-! ## Numbers in the file -/

theorem isDigit_iff {c : UInt8} : isDigit c = true ↔ 48 ≤ c.toNat ∧ c.toNat ≤ 57 := by
  simp [isDigit, UInt8.le_iff_toNat_le]

theorem isDigit_of_mem_decimal {k : ℕ} {c : UInt8} (h : c ∈ decimal k) : isDigit c = true := by
  obtain ⟨d, hd, rfl⟩ := List.mem_map.1 h
  have hdigit : 48 ≤ d.toNat ∧ d.toNat ≤ 57 :=
    Char.isDigit_iff_toNat.1 (Nat.isDigit_of_mem_toDigits (by decide) (by decide) hd)
  rw [isDigit_iff, UInt8.toNat_ofNat_of_lt' (by show d.toNat < 256; omega)]
  exact hdigit

theorem decimal_ne_nil (k : ℕ) : decimal k ≠ [] := by
  intro h
  have hlen := congrArg List.length h
  rw [decimal, ofChars, List.length_map] at hlen
  exact Nat.toDigits_ne_nil (List.length_eq_zero_iff.1 hlen)

/-- A number with the newline of its line is read. -/
theorem atoi_decimal (k : ℕ) : atoi (decimal k ++ [newline]) = k := by
  obtain ⟨c, rest, hcons⟩ := List.exists_cons_of_ne_nil (decimal_ne_nil k)
  have hdigit : isDigit c = true := isDigit_of_mem_decimal (hcons ▸ List.mem_cons_self ..)
  have hle := isDigit_iff.1 hdigit
  have hspace : isSpace c = false := by
    rw [isSpace, Bool.or_eq_false_iff, Bool.and_eq_false_iff]
    constructor
    · rw [decide_eq_false_iff_not]
      rintro rfl
      exact absurd hle.1 (by decide)
    · right
      rw [decide_eq_false_iff_not, UInt8.le_iff_toNat_le]
      show ¬c.toNat ≤ 13
      omega
  have hdrop : (decimal k ++ [newline]).dropWhile isSpace = decimal k ++ [newline] := by
    rw [hcons, List.cons_append, List.dropWhile_cons, hspace]
    rfl
  have htake : (decimal k ++ [newline]).takeWhile isDigit = decimal k := by
    rw [List.takeWhile_append_of_pos fun c hc => isDigit_of_mem_decimal hc]
    exact List.append_nil _
  have hhead : (decimal k ++ [newline]).head? = some c := by rw [hcons]; rfl
  have hminus : c ≠ 45 := by
    rintro rfl
    exact absurd hle.1 (by decide)
  have hplus : c ≠ 43 := by
    rintro rfl
    exact absurd hle.1 (by decide)
  simp only [atoi, hdrop, hhead, htake, Option.some.injEq, hminus, hplus, if_false, ofDecimal_decimal]

/-! ## A file that lists the nodes -/

/-- The two lines of a node. -/
def nodeLines (i : ℕ) (node : Bytes × ℕ) : List ConfigLine :=
  [.entry 0 (nodeKey i ipName) 0 0 node.1 0, .entry 0 (nodeKey i portName) 0 0 (decimal node.2) 0]

/-- The lines of the nodes, from number `i` on. -/
def clusterLines : ℕ → List (Bytes × ℕ) → List ConfigLine
  | _, [] => []
  | i, node :: nodes => nodeLines i node ++ clusterLines (i + 1) nodes

/-- The file lists the nodes: every line is ended by a newline and fits the buffer, and the lines that
    are neither blank nor comments are those of the nodes, in any order. -/
structure ConfigFile.Lists (f : ConfigFile) (nodes : List (Bytes × ℕ)) : Prop where
  ended : f.ended = true
  short : ∀ line ∈ f.lines, line.text.length < 511
  entries : (f.lines.filter fun line => line.assignment.isSome).Perm (clusterLines 0 nodes)

theorem mem_clusterLines {nodes : List (Bytes × ℕ)} {i : ℕ} {line : ConfigLine} :
    line ∈ clusterLines i nodes ↔ ∃ j node, nodes[j]? = some node ∧ line ∈ nodeLines (i + j) node := by
  induction nodes generalizing i with
  | nil => simp [clusterLines]
  | cons node nodes ih =>
    rw [clusterLines, List.mem_append, ih]
    constructor
    · rintro (h | ⟨j, node', hj, h⟩)
      · exact ⟨0, node, rfl, h⟩
      · exact ⟨j + 1, node', hj, by rwa [Nat.add_assoc, Nat.add_comm 1 j] at h⟩
    · rintro ⟨_ | j, node', hj, h⟩
      · obtain rfl : node = node' := Option.some.inj hj
        exact .inl h
      · exact .inr ⟨j, node', hj, by rwa [Nat.add_assoc, Nat.add_comm 1 j]⟩

theorem nodeKey_injective {i j : ℕ} {name : Bytes} (h : nodeKey i name = nodeKey j name) : i = j := by
  have hdecimal := List.append_cancel_right (List.append_cancel_left h)
  rw [← ofDecimal_decimal i, hdecimal, ofDecimal_decimal]

/-- The keys of addresses and of ports end differently. -/
theorem nodeKey_ne {i j : ℕ} : nodeKey i ipName ≠ nodeKey j portName := by
  intro h
  have hlast := congrArg List.getLast? h
  rw [nodeKey, nodeKey, ← List.append_assoc, ← List.append_assoc,
    List.getLast?_append_of_ne_nil _ (by decide), List.getLast?_append_of_ne_nil _ (by decide)] at hlast
  exact absurd hlast (by decide)

theorem endings_true (lines : List ConfigLine) : endings lines true = lines.map fun l => (l, true) := by
  induction lines with
  | nil => rfl
  | cons line lines ih => rw [endings, ih, Bool.or_true, List.map_cons]

/-- What is read of a line without spaces around its key and value: the newline stays. -/
theorem ConfigLine.Valid.parseBuf_entry {key value : Bytes}
    (h : (ConfigLine.entry 0 key 0 0 value 0).Valid) (hhash : key.head? ≠ some hash) :
    parseBuf ((ConfigLine.entry 0 key 0 0 value 0).bytes true) = some (key, value ++ [newline]) := by
  obtain ⟨-, -, hequals, hkey, hvalue, -⟩ := id h
  have htrimmed : Trimmed space (value ++ [newline]) := by
    have hne : some newline ≠ some space := by decide
    refine ⟨?_, by rwa [List.getLast?_concat]⟩
    cases value with
    | nil => exact hne
    | cons c value => exact hvalue.1
  have hbytes : (ConfigLine.entry 0 key 0 0 value 0).bytes true =
      List.replicate 0 space ++ key ++ List.replicate 0 space ++ equals ::
        (List.replicate 0 space ++ (value ++ [newline]) ++ List.replicate 0 space) := by
    simp [ConfigLine.bytes, ConfigLine.text]
  rw [parseBuf_padded (h.not_mem_bytes true) hkey htrimmed hequals hbytes, if_neg hhash]

namespace ConfigFile

variable {key : Bytes}

/-- A line that fits the buffer is one piece. -/
theorem filterMap_pieces_of_short {line : ConfigLine} (hshort : line.text.length < 511)
    (ended : Bool) :
    (LineText.pieces 511 (line.bytes ended)).filterMap parseBuf = (parseBuf (line.bytes ended)).toList := by
  rcases eq_or_ne (line.bytes ended) [] with hnil | hne
  · rw [hnil, pieces_nil (by decide), parseBuf_eq_none List.not_mem_nil]
    rfl
  · rw [pieces_of_length_le (by decide) hne (ConfigLine.length_bytes_le hshort ended),
      List.filterMap_cons, List.filterMap_nil]
    cases parseBuf (line.bytes ended) <;> rfl

theorem filterMap_pieces {ls : List (ConfigLine × Bool)}
    (hshort : ∀ l ∈ ls, l.1.text.length < 511) :
    (ls.flatMap fun l => LineText.pieces 511 (l.1.bytes l.2)).filterMap parseBuf =
      ls.filterMap fun l => parseBuf (l.1.bytes l.2) := by
  induction ls with
  | nil => rfl
  | cons l ls ih =>
    have hone := filterMap_pieces_of_short (hshort l (List.mem_cons_self ..)) l.2
    have hrest := ih fun l hl => hshort l (List.mem_cons_of_mem _ hl)
    rw [List.flatMap_cons, List.filterMap_append, hone, hrest, List.filterMap_cons]
    cases parseBuf (l.1.bytes l.2) <;> rfl

/-- A key is read where the grammar has it. -/
theorem assignment_of_parseBuf {l : ConfigLine × Bool} (hvalid : l.1.Valid)
    (hshort : l.1.text.length < 511) {e : Bytes × Bytes} (hentry : parseBuf (l.1.bytes l.2) = some e) :
    ∃ v, l.1.assignment = some (e.1, v) := by
  have hread : e.1 ∈ ((LineText.pieces 511 (l.1.bytes l.2)).filterMap parseBuf).map Prod.fst := by
    rw [filterMap_pieces_of_short hshort, hentry]
    exact List.mem_singleton_self _
  rcases hvalid.mem_filterMap_pieces_iff.1 hread with ⟨-, hkey⟩ | ⟨p, hp, -⟩
  · obtain ⟨e', hassign, hsame⟩ := Option.map_eq_some_iff.1 hkey
    exact ⟨e'.2, by rw [hassign, ← hsame]⟩
  · rw [ConfigLine.strays_of_short hshort] at hp
    cases hp

theorem lookup_reads_none {ls : List (ConfigLine × Bool)} (hvalid : ∀ l ∈ ls, l.1.Valid)
    (hshort : ∀ l ∈ ls, l.1.text.length < 511)
    (hkey : ∀ l ∈ ls, ∀ v, l.1.assignment ≠ some (key, v)) :
    (ls.filterMap fun l => parseBuf (l.1.bytes l.2)).lookup key = none := by
  refine List.lookup_eq_none_iff.2 fun e he => bne_iff_ne.2 ?_
  rintro rfl
  obtain ⟨l, hl, hentry⟩ := List.mem_filterMap.1 he
  obtain ⟨v, hassign⟩ := assignment_of_parseBuf (hvalid l hl) (hshort l hl) hentry
  exact hkey l hl v hassign

/-- The line with a key is the only one that has a say. -/
theorem lookup_reads {ls : List (ConfigLine × Bool)} {l : ConfigLine × Bool} {value : Bytes}
    (hvalid : ∀ l ∈ ls, l.1.Valid) (hshort : ∀ l ∈ ls, l.1.text.length < 511)
    (hdistinct : (((ls.map Prod.fst).filterMap ConfigLine.assignment).map Prod.fst).Nodup)
    (hl : l ∈ ls) (hassign : l.1.assignment = some (key, value)) :
    (ls.filterMap fun l => parseBuf (l.1.bytes l.2)).lookup key =
      (parseBuf (l.1.bytes l.2)).map Prod.snd := by
  obtain ⟨before, behind, rfl⟩ := List.append_of_mem hl
  have hmem : ∀ {ls : List (ConfigLine × Bool)} {l : ConfigLine × Bool} {v : Bytes}, l ∈ ls →
      l.1.assignment = some (key, v) →
      key ∈ ((ls.map Prod.fst).filterMap ConfigLine.assignment).map Prod.fst :=
    fun hl hassign =>
      List.mem_map.2 ⟨_, List.mem_filterMap.2 ⟨_, List.mem_map_of_mem hl, hassign⟩, rfl⟩
  rw [List.map_append, List.map_cons, List.filterMap_append, List.filterMap_cons, hassign,
    List.map_append, List.map_cons] at hdistinct
  obtain ⟨-, hcons, hdisj⟩ := List.nodup_append.1 hdistinct
  have hbefore : (before.filterMap fun l => parseBuf (l.1.bytes l.2)).lookup key = none :=
    lookup_reads_none (fun l' hl' => hvalid l' (List.mem_append_left _ hl'))
      (fun l' hl' => hshort l' (List.mem_append_left _ hl'))
      fun l' hl' v hassign' => hdisj key (hmem hl' hassign') key (List.mem_cons_self ..) rfl
  have hbehind : (behind.filterMap fun l => parseBuf (l.1.bytes l.2)).lookup key = none :=
    lookup_reads_none (fun l' hl' => hvalid l' (List.mem_append_right _ (List.mem_cons_of_mem _ hl')))
      (fun l' hl' => hshort l' (List.mem_append_right _ (List.mem_cons_of_mem _ hl')))
      fun l' hl' v hassign' => (List.nodup_cons.1 hcons).1 (hmem hl' hassign')
  rw [List.filterMap_append, List.lookup_append, hbefore, Option.none_or, List.filterMap_cons]
  cases hread : parseBuf (l.1.bytes l.2) with
  | none => exact hbehind
  | some e =>
    obtain ⟨v, hassign'⟩ := assignment_of_parseBuf (hvalid l hl) (hshort l hl) hread
    obtain rfl : key = e.1 := (Prod.mk.inj (Option.some.inj (hassign.symm.trans hassign'))).1
    exact List.lookup_cons_self

end ConfigFile

namespace ConfigFile.Lists

variable {f : ConfigFile} {nodes : List (Bytes × ℕ)}

/-- What is loaded of a file that lists the nodes. -/
theorem exists_config (h : f.Lists nodes) : ∃ cfg, load ∅ (some f.bytes) = some cfg ∧
    ∀ key, cfg.value key =
      (((f.lines.map fun l => (l, true)).filterMap fun l => parseBuf (l.1.bytes l.2)).lookup
        key).getD [] := by
  have hcut : Cut newline 511 f.bytes f.pieces :=
    cut_endings (fun line hline => (f.valid line hline).oneLine.1) f.ended
  have hfuel : f.pieces.length + 2 ≤ f.bytes.length + 2 :=
    Nat.add_le_add_right (hcut.length_le (by decide)) 2
  refine ⟨f.pieces.foldl readBuf ∅, loadLoop_cut hcut hfuel ∅, fun key => ?_⟩
  have hpieces : f.pieces.filterMap parseBuf =
      (endings f.lines f.ended).filterMap fun l => parseBuf (l.1.bytes l.2) :=
    ConfigFile.filterMap_pieces fun l hl => h.short l.1 (mem_of_mem_endings hl)
  rw [MprpcConfig.value, lookup_foldl_readBuf, AList.lookup_empty, Option.none_or, hpieces, h.ended,
    endings_true]

theorem nodeKey_head (i : ℕ) (name : Bytes) : (nodeKey i name).head? ≠ some hash := by
  rw [nodeKey, List.head?_append_of_ne_nil _ (by decide)]
  decide

/-- The lines of the nodes are in the file. -/
theorem mem_lines (h : f.Lists nodes) {i : ℕ} {node : Bytes × ℕ} (hi : nodes[i]? = some node)
    {line : ConfigLine} (hline : line ∈ nodeLines i node) : line ∈ f.lines := by
  have hmem : line ∈ clusterLines 0 nodes := mem_clusterLines.2 ⟨i, node, hi, by rwa [Nat.zero_add]⟩
  exact List.mem_of_mem_filter (h.entries.mem_iff.2 hmem)

/-- The value of a key that a node has. -/
theorem value_of_line (h : f.Lists nodes) {cfg : MprpcConfig} {key value : Bytes}
    (hcfg : cfg.value key = (((f.lines.map fun l => (l, true)).filterMap fun l =>
      parseBuf (l.1.bytes l.2)).lookup key).getD [])
    (hline : ConfigLine.entry 0 key 0 0 value 0 ∈ f.lines) (hhash : key.head? ≠ some hash) :
    cfg.value key = value ++ [newline] := by
  have hvalid : ∀ l ∈ f.lines.map fun l => (l, true), l.1.Valid := by
    intro l hl
    obtain ⟨line, hmem, rfl⟩ := List.mem_map.1 hl
    exact f.valid line hmem
  have hshort : ∀ l ∈ f.lines.map fun l => (l, true), l.1.text.length < 511 := by
    intro l hl
    obtain ⟨line, hmem, rfl⟩ := List.mem_map.1 hl
    exact h.short line hmem
  have hfst : (f.lines.map fun l => (l, true)).map Prod.fst = f.lines := by
    rw [List.map_map]
    exact List.map_id _
  have hlookup := ConfigFile.lookup_reads hvalid hshort (by rw [hfst]; exact f.distinct)
    (List.mem_map_of_mem hline) (l := (ConfigLine.entry 0 key 0 0 value 0, true)) rfl
  rw [hcfg, hlookup, (f.valid _ hline).parseBuf_entry hhash]
  rfl

/-- The value of a key that no node has. -/
theorem value_of_not_mem (h : f.Lists nodes) {cfg : MprpcConfig} {key : Bytes}
    (hcfg : cfg.value key = (((f.lines.map fun l => (l, true)).filterMap fun l =>
      parseBuf (l.1.bytes l.2)).lookup key).getD [])
    (hkey : ∀ line ∈ clusterLines 0 nodes, ∀ v, line.assignment ≠ some (key, v)) :
    cfg.value key = [] := by
  have hvalid : ∀ l ∈ f.lines.map fun l => (l, true), l.1.Valid := by
    intro l hl
    obtain ⟨line, hmem, rfl⟩ := List.mem_map.1 hl
    exact f.valid line hmem
  have hshort : ∀ l ∈ f.lines.map fun l => (l, true), l.1.text.length < 511 := by
    intro l hl
    obtain ⟨line, hmem, rfl⟩ := List.mem_map.1 hl
    exact h.short line hmem
  have hnone : ∀ l ∈ f.lines.map fun l => (l, true), ∀ v, l.1.assignment ≠ some (key, v) := by
    intro l hl v hassign
    obtain ⟨line, hmem, rfl⟩ := List.mem_map.1 hl
    have hentry : line ∈ f.lines.filter fun line => line.assignment.isSome :=
      List.mem_filter.2 ⟨hmem, by rw [hassign]; rfl⟩
    exact hkey line (h.entries.mem_iff.1 hentry) v hassign
  rw [hcfg, ConfigFile.lookup_reads_none hvalid hshort hnone]
  rfl

/-- What the loop makes of the nodes from number `i` on. -/
theorem addrPortLoop_eq {cfg : MprpcConfig}
    (hip : ∀ i node, nodes[i]? = some node → cfg.value (nodeKey i ipName) = node.1 ++ [newline])
    (hport : ∀ i node, nodes[i]? = some node →
      cfg.value (nodeKey i portName) = decimal node.2 ++ [newline])
    (hend : cfg.value (nodeKey nodes.length ipName) = []) (hports : ∀ node ∈ nodes, node.2 < 65536)
    (fuel : ℕ) : ∀ {i : ℕ}, i ≤ nodes.length → nodes.length ≤ i + fuel →
      addrPortLoop cfg fuel i = (nodes.drop i).map fun node => (node.1 ++ [newline], node.2) := by
  induction fuel with
  | zero =>
    intro i hi hfuel
    rw [addrPortLoop, List.drop_eq_nil_of_le (by omega), List.map_nil]
  | succ fuel ih =>
    intro i hi hfuel
    rcases Nat.eq_or_lt_of_le hi with rfl | hlt
    · rw [addrPortLoop, if_pos hend, List.drop_length, List.map_nil]
    · have hnode : nodes[i]? = some nodes[i] := List.getElem?_eq_getElem hlt
      have hlow := hports _ (List.getElem_mem hlt)
      have hword : toUint16 (nodes[i].2 : Int) = nodes[i].2 := by
        rw [toUint16]
        omega
      rw [addrPortLoop, hip i _ hnode, if_neg (by simp), hport i _ hnode, atoi_decimal, hword,
        ih (by omega) (by omega), List.drop_eq_getElem_cons hlt, List.map_cons]

theorem addrPort_eq (h : f.Lists nodes) (hcount : nodes.length ≤ 65535)
    (hports : ∀ node ∈ nodes, node.2 < 65536) : ∃ cfg, load ∅ (some f.bytes) = some cfg ∧
      addrPort cfg = nodes.map fun node => (node.1 ++ [newline], node.2) := by
  obtain ⟨cfg, hload, hvalue⟩ := h.exists_config
  refine ⟨cfg, hload, ?_⟩
  have hend : cfg.value (nodeKey nodes.length ipName) = [] := by
    refine h.value_of_not_mem (hvalue _) fun line hline v hassign => ?_
    obtain ⟨j, node, hj, hmem⟩ := mem_clusterLines.1 hline
    rw [Nat.zero_add] at hmem
    have hlt := (List.getElem?_eq_some_iff.1 hj).1
    simp only [nodeLines, List.mem_cons, List.not_mem_nil, or_false] at hmem
    rcases hmem with rfl | rfl
    · have hkey := nodeKey_injective (Prod.mk.inj (Option.some.inj hassign)).1
      omega
    · exact nodeKey_ne (Prod.mk.inj (Option.some.inj hassign)).1.symm
  rw [addrPort, addrPortLoop_eq _ _ hend hports 65535 (Nat.zero_le _) (by omega), List.drop_zero]
  · exact fun i node hi => h.value_of_line (hvalue _) (h.mem_lines hi (List.mem_cons_self ..))
      (nodeKey_head i ipName)
  · exact fun i node hi => h.value_of_line (hvalue _)
      (h.mem_lines hi (List.mem_cons_of_mem _ (List.mem_cons_self ..))) (nodeKey_head i portName)

end ConfigFile.Lists

theorem kvServerPlan_none {cfg : MprpcConfig} {me : Int}
    (h : me < 0 ∨ (addrPort cfg).length ≤ me) : kvServerPlan cfg me = none := by
  refine if_neg fun hme => ?_
  omega

/-- What a server of the list is set up with. -/
theorem kvServerPlan_some {cfg : MprpcConfig} {k : ℕ} {node : Bytes × ℕ}
    (hk : (addrPort cfg)[k]? = some node) : ∃ plan, kvServerPlan cfg k = some plan ∧
      plan.myPort = node.2 ∧ plan.helpers.length = (addrPort cfg).length ∧
      ∀ j peer, (addrPort cfg)[j]? = some peer →
        plan.helpers[j]? = some (if j = k then none else some peer) := by
  have hlt := (List.getElem?_eq_some_iff.1 hk).1
  refine ⟨_, if_pos ⟨Int.natCast_nonneg k, Int.ofNat_lt.2 hlt⟩, ?_, List.length_mapIdx, ?_⟩
  · simp only [Int.toNat_natCast, List.getD_eq_getElem?_getD, hk, Option.getD_some]
  · intro j peer hj
    simp only [List.getElem?_mapIdx, hj, Option.map_some, Int.natCast_inj]

/-- Every server and every clerk that load a file that lists the nodes agree on them: a server connects
    to all nodes but itself at the addresses in the file, and listens on its own port; a number that
    the file does not list is refused. The addresses keep the newline of their line. -/
theorem cluster_formed {f : ConfigFile} {nodes : List (Bytes × ℕ)} (h : f.Lists nodes)
    (hcount : nodes.length ≤ 65535) (hports : ∀ node ∈ nodes, node.2 < 65536) :
    ∃ cfg, load ∅ (some f.bytes) = some cfg ∧
      addrPort cfg = nodes.map (fun node => (node.1 ++ [newline], node.2)) ∧
      (∀ me : Int, me < 0 ∨ nodes.length ≤ me → kvServerPlan cfg me = none) ∧
      ∀ (k : ℕ) (node : Bytes × ℕ), nodes[k]? = some node → ∃ plan, kvServerPlan cfg k = some plan ∧
        plan.myPort = node.2 ∧ plan.helpers.length = nodes.length ∧
        ∀ j peer, nodes[j]? = some peer →
          plan.helpers[j]? = some (if j = k then none else some (peer.1 ++ [newline], peer.2)) := by
  obtain ⟨cfg, hload, haddr⟩ := h.addrPort_eq hcount hports
  have hlen : (addrPort cfg).length = nodes.length := by rw [haddr, List.length_map]
  have hget : ∀ (k : ℕ) (node : Bytes × ℕ), nodes[k]? = some node →
      (addrPort cfg)[k]? = some (node.1 ++ [newline], node.2) := by
    intro k node hk
    rw [haddr, List.getElem?_map, hk, Option.map_some]
  refine ⟨cfg, hload, haddr, fun me hme => kvServerPlan_none (by rwa [hlen]), fun k node hk => ?_⟩
  obtain ⟨plan, hplan, hport, hhelpers, hpeers⟩ := kvServerPlan_some (hget k node hk)
  exact ⟨plan, hplan, hport, hhelpers.trans hlen, fun j peer hj => hpeers j _ (hget j peer hj)⟩

theorem availableCounter_lt_iff (availablePort : ℕ → Bool) (port : ℕ) (fuel : ℕ) :
    ∀ {counter : ℕ}, 30 < counter + fuel → counter ≤ 30 →
      (availableCounter availablePort port fuel counter < 30 ↔
        ∃ k, counter ≤ k ∧ k < 30 ∧ availablePort ((port + k) % 65536) = true) := by
  induction fuel with
  | zero => omega
  | succ fuel ih =>
    intro counter hfuel hle
    rw [availableCounter]
    by_cases hfree : availablePort ((port + counter) % 65536) = true
    · rw [hfree, if_neg (by simp)]
      exact ⟨fun hlt => ⟨counter, le_rfl, hlt, hfree⟩, fun ⟨k, hk, hlt, _⟩ => by omega⟩
    · by_cases hlt : counter < 30
      · rw [if_pos (by simp [hfree, hlt]), ih (by omega) (by omega)]
        constructor
        · rintro ⟨k, hk, hklt, hkfree⟩
          exact ⟨k, by omega, hklt, hkfree⟩
        · rintro ⟨k, hk, hklt, hkfree⟩
          rcases Nat.eq_or_lt_of_le hk with rfl | hk
          · exact absurd hkfree hfree
          · exact ⟨k, hk, hklt, hkfree⟩
      · rw [if_neg (by simp [hlt])]
        exact ⟨fun h => absurd h hlt, fun ⟨k, hk, hklt, _⟩ => by omega⟩

/-- A server listens on the port of its node or not at all: on that port even if it is another one
    that `findAvailablePort` has found. -/
theorem rpcProviderPort_eq (availablePort : ℕ → Bool) (port : ℕ) :
    rpcProviderPort availablePort port = some port ∧
        (∃ k < 30, availablePort ((port + k) % 65536) = true) ∨
      rpcProviderPort availablePort port = none ∧
        ∀ k < 30, availablePort ((port + k) % 65536) = false := by
  have hiff := availableCounter_lt_iff availablePort port 31 (by decide : 30 < 0 + 31) (by decide)
  by_cases hlt : availableCounter availablePort port 31 0 < 30
  · obtain ⟨k, -, hk, hfree⟩ := hiff.1 hlt
    exact .inl ⟨by simp [rpcProviderPort, findAvailablePort, hlt], k, hk, hfree⟩
  · refine .inr ⟨by simp [rpcProviderPort, findAvailablePort, hlt], fun k hk => ?_⟩
    by_contra hfree
    exact hlt (hiff.2 ⟨k, Nat.zero_le k, hk, by simpa using hfree⟩)

/-- Nodes 0 and 1. -/
def twoNodes : List (Bytes × ℕ) := [([49, 46, 49], 80), ([49, 46, 50], 19178)]

/-- Their lines with a comment between them, those of node 1 first. -/
def twoNodesFile : ConfigFile where
  lines := nodeLines 1 ([49, 46, 50], 19178) ++ .comment [101] :: nodeLines 0 ([49, 46, 49], 80)
  ended := true
  valid := by
    intro line hline
    simp only [nodeLines, List.cons_append, List.nil_append, List.mem_cons, List.not_mem_nil,
      or_false] at hline
    rcases hline with rfl | rfl | rfl | rfl | rfl
    · exact ⟨⟨by decide, by decide⟩, ⟨by decide, by decide⟩, by decide, by decide, by decide,
        fun hhash => absurd hhash (by decide)⟩
    · exact ⟨⟨by decide, by decide⟩, ⟨by decide, by decide⟩, by decide, by decide, by decide,
        fun hhash => absurd hhash (by decide)⟩
    · exact ⟨by decide, by decide⟩
    · exact ⟨⟨by decide, by decide⟩, ⟨by decide, by decide⟩, by decide, by decide, by decide,
        fun hhash => absurd hhash (by decide)⟩
    · exact ⟨⟨by decide, by decide⟩, ⟨by decide, by decide⟩, by decide, by decide, by decide,
        fun hhash => absurd hhash (by decide)⟩
  distinct := by decide

theorem cluster_formed_two : ∃ cfg, load ∅ (some twoNodesFile.bytes) = some cfg ∧
    addrPort cfg = [([49, 46, 49, 10], 80), ([49, 46, 50, 10], 19178)] := by
  have hlists : twoNodesFile.Lists twoNodes := by
    refine ⟨rfl, ?_, ?_⟩
    · decide
    · show (nodeLines 1 ([49, 46, 50], 19178) ++ nodeLines 0 ([49, 46, 49], 80)).Perm
        (nodeLines 0 ([49, 46, 49], 80) ++ nodeLines 1 ([49, 46, 50], 19178))
      exact List.perm_append_comm
  obtain ⟨cfg, hload, haddr, -⟩ := cluster_formed hlists (by decide) (by decide)
  exact ⟨cfg, hload, haddr⟩

end RaftKVStorage
