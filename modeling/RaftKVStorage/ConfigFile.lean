import RaftKVStorage.ConfigLine

set_option autoImplicit false

/-! # What a configuration file says

When `load` gives each key of a configuration file the value that its line has. -/

namespace RaftKVStorage

open MprpcConfig LineText

/-! ## Files -/

/-- The lines, and whether each is ended by a newline: all but the last are. -/
def endings : List ConfigLine → Bool → List (ConfigLine × Bool)
  | [], _ => []
  | line :: lines, ended => (line, !lines.isEmpty || ended) :: endings lines ended

/-- A file of such lines, with distinct keys; `ended` is about the last line. -/
structure ConfigFile where
  lines : List ConfigLine
  ended : Bool
  valid : ∀ line ∈ lines, line.Valid
  distinct : ((lines.filterMap ConfigLine.assignment).map Prod.fst).Nodup

namespace ConfigFile

def bytes (f : ConfigFile) : Bytes := (endings f.lines f.ended).flatMap fun l => l.1.bytes l.2

def assignments (f : ConfigFile) : List (Bytes × Bytes) := f.lines.filterMap ConfigLine.assignment

/-- What the file says of a key. -/
def value (f : ConfigFile) (key : Bytes) : Bytes := (f.assignments.lookup key).getD []

/-- The lines, with their newlines, in pieces of 511 bytes. -/
def pieces (f : ConfigFile) : List Bytes :=
  (endings f.lines f.ended).flatMap fun l => LineText.pieces 511 (l.1.bytes l.2)

/-- What the lines must be like. Every key that is seen has its value kept, unless a stray piece of a
    line above assigns to the key. A stray piece that reads as an assignment says what the file says,
    unless something above it assigns to the same key. A key with a value is assigned to somewhere. -/
structure Intact (f : ConfigFile) : Prop where
  kept : ∀ above line ended below e, endings f.lines f.ended = above ++ (line, ended) :: below →
    line.assignment = some e → line.Shown →
      line.Kept ended ∨ ∃ l ∈ above, l.1.Assigns l.2 e.1
  strays : ∀ above line ended below ps p qs key text,
    endings f.lines f.ended = above ++ (line, ended) :: below → line.strays ended = ps ++ p :: qs →
    Reads p key text →
      text = f.value key ∨ (∃ l ∈ above, l.1.Assigns l.2 key) ∨
        (line.Shown ∧ line.assignment.map Prod.fst = some key) ∨
        ∃ q ∈ ps, ∃ text, Reads q key text
  seen : ∀ e ∈ f.assignments, e.2 = [] ∨ ∃ l ∈ endings f.lines f.ended, l.1.Assigns l.2 e.1

end ConfigFile

/-! ## What is loaded -/

variable {line : ConfigLine} {lines : List ConfigLine} {ended : Bool} {ps : List Bytes}
  {key text : Bytes}

theorem mem_of_mem_endings {l : ConfigLine × Bool} (hl : l ∈ endings lines ended) :
    l.1 ∈ lines := by
  induction lines with
  | nil => exact absurd hl List.not_mem_nil
  | cons line lines ih =>
    rcases List.mem_cons.1 hl with rfl | hl
    · exact List.mem_cons_self ..
    · exact List.mem_cons_of_mem _ (ih hl)

theorem map_fst_endings (lines : List ConfigLine) (ended : Bool) :
    (endings lines ended).map Prod.fst = lines := by
  induction lines with
  | nil => rfl
  | cons line lines ih => rw [endings, List.map_cons, ih]

/-- `fgets` reads the pieces of one line after another. -/
theorem cut_endings (hlines : ∀ line ∈ lines, newline ∉ line.text) (ended : Bool) :
    Cut newline 511 ((endings lines ended).flatMap fun l => l.1.bytes l.2)
      ((endings lines ended).flatMap fun l => LineText.pieces 511 (l.1.bytes l.2)) := by
  induction lines with
  | nil => exact .nil
  | cons line lines ih =>
    have hline := hlines line (List.mem_cons_self ..)
    have hrest := ih fun line hline => hlines line (List.mem_cons_of_mem _ hline)
    rw [endings, List.flatMap_cons, List.flatMap_cons]
    cases hend : !lines.isEmpty || ended with
    | true => exact hrest.append_line (by decide) hline
    | false =>
      -- only the last line has no newline
      obtain ⟨hlast, -⟩ := Bool.or_eq_false_iff.1 hend
      obtain rfl : lines = [] := by simpa using hlast
      simp only [endings, List.flatMap_nil, List.append_nil]
      exact cut_pieces (by decide) hline

/-- The first entry of a key wins, so every entry has to be right or to come too late. -/
theorem getD_lookup_iff {es : List (Bytes × Bytes)} {value : Bytes → Bytes} :
    (∀ key, (es.lookup key).getD [] = value key) ↔
      (∀ above e below, es = above ++ e :: below → e.2 = value e.1 ∨ e.1 ∈ above.map Prod.fst) ∧
        ∀ key, value key = [] ∨ key ∈ es.map Prod.fst := by
  constructor
  · intro h
    refine ⟨fun above e below heq => ?_, fun key => ?_⟩
    · by_cases hmem : e.1 ∈ above.map Prod.fst
      · exact .inr hmem
      · have hlookup : es.lookup e.1 = some e.2 := by
          refine List.lookup_eq_some_iff.2 ⟨above, below, heq, fun e' he' => bne_iff_ne.2 ?_⟩
          intro hsame
          exact hmem (hsame ▸ List.mem_map_of_mem he')
        rw [← h, hlookup, Option.getD_some]
        exact .inl rfl
    · cases hlookup : es.lookup key with
      | none => exact .inl (by rw [← h, hlookup, Option.getD_none])
      | some t =>
        obtain ⟨above, below, heq, -⟩ := List.lookup_eq_some_iff.1 hlookup
        exact .inr (by simp [heq])
  · rintro ⟨hright, hseen⟩ key
    cases hlookup : es.lookup key with
    | none =>
      rw [Option.getD_none]
      refine ((hseen key).resolve_right fun hmem => ?_).symm
      obtain ⟨e, he, rfl⟩ := List.mem_map.1 hmem
      exact bne_iff_ne.1 (List.lookup_eq_none_iff.1 hlookup e he) rfl
    | some t =>
      obtain ⟨above, below, heq, hfirst⟩ := List.lookup_eq_some_iff.1 hlookup
      rw [Option.getD_some]
      refine (hright above (key, t) below heq).resolve_right fun hmem => ?_
      obtain ⟨e, he, hsame⟩ := List.mem_map.1 hmem
      exact bne_iff_ne.1 (hfirst e he) hsame.symm

/-- An element of what the lists give together is an element of what one of them gives. -/
theorem exists_of_flatMap_eq {α β : Type} {g : α → List β} {ls : List α} {above below : List β} {e : β}
    (heq : ls.flatMap g = above ++ e :: below) :
    ∃ ls₁ l ls₂ a b, ls = ls₁ ++ l :: ls₂ ∧ g l = a ++ e :: b ∧ above = ls₁.flatMap g ++ a := by
  induction ls generalizing above with
  | nil => simp at heq
  | cons l ls ih =>
    rw [List.flatMap_cons] at heq
    rcases List.append_eq_append_iff.1 heq with ⟨a, rfl, hrest⟩ | ⟨b, hl, hrest⟩
    · obtain ⟨ls₁, l', ls₂, a', b', rfl, hl', rfl⟩ := ih hrest
      exact ⟨l :: ls₁, l', ls₂, a', b', rfl, hl', by rw [List.flatMap_cons, List.append_assoc]⟩
    · cases b with
      | nil =>
        have hrest' : ls.flatMap g = [] ++ e :: below := hrest.symm
        obtain ⟨ls₁, l', ls₂, a', b', rfl, hl', hnil⟩ := ih hrest'
        refine ⟨l :: ls₁, l', ls₂, a', b', rfl, hl', ?_⟩
        rw [List.flatMap_cons, List.append_assoc, ← hnil, hl, List.append_nil, List.append_nil]
      | cons c b =>
        obtain ⟨rfl, -⟩ := List.cons.inj hrest
        exact ⟨[], l, ls, above, b, rfl, hl, rfl⟩

theorem exists_of_filterMap_eq {α β : Type} {g : α → Option β} {ls : List α} {above below : List β}
    {e : β} (heq : ls.filterMap g = above ++ e :: below) :
    ∃ ls₁ l ls₂, ls = ls₁ ++ l :: ls₂ ∧ g l = some e ∧ ls₁.filterMap g = above := by
  obtain ⟨ls₁, ls₂, rfl, habove, hrest⟩ := List.filterMap_eq_append_iff.1 heq
  obtain ⟨skipped, l, below', rfl, hskipped, hl, -⟩ := List.filterMap_eq_cons_iff.1 hrest
  refine ⟨ls₁ ++ skipped, l, below', (List.append_assoc ..).symm, hl, ?_⟩
  rw [List.filterMap_append, habove, List.filterMap_eq_nil_iff.2 hskipped, List.append_nil]

namespace ConfigFile

theorem value_of_mem (f : ConfigFile) {e : Bytes × Bytes} (he : e ∈ f.assignments) :
    f.value e.1 = e.2 := by
  obtain ⟨before, behind, heq⟩ := List.append_of_mem he
  have hdistinct : (f.assignments.map Prod.fst).Nodup := f.distinct
  rw [heq, List.map_append, List.map_cons] at hdistinct
  obtain ⟨-, -, hdisj⟩ := List.nodup_append.1 hdistinct
  have hlookup : f.assignments.lookup e.1 = some e.2 := by
    refine List.lookup_eq_some_iff.2 ⟨before, behind, heq, fun e' he' => ?_⟩
    exact bne_iff_ne.2 (hdisj e'.1 (List.mem_map_of_mem he') e.1 (List.mem_cons_self ..)).symm
  rw [value, hlookup, Option.getD_some]

theorem value_of_not_mem (f : ConfigFile) (hkey : ∀ e ∈ f.assignments, e.1 ≠ key) :
    f.value key = [] := by
  have hlookup : f.assignments.lookup key = none :=
    List.lookup_eq_none_iff.2 fun e he => bne_iff_ne.2 (hkey e he).symm
  rw [value, hlookup, Option.getD_none]

/-- What is read of the lines one after another. -/
theorem filterMap_pieces_eq (f : ConfigFile) :
    f.pieces.filterMap parseBuf = (endings f.lines f.ended).flatMap fun l =>
      (LineText.pieces 511 (l.1.bytes l.2)).filterMap parseBuf := by
  rw [pieces, List.filterMap_flatMap]

theorem valid_of_mem (f : ConfigFile) {l : ConfigLine × Bool}
    (hl : l ∈ endings f.lines f.ended) : l.1.Valid :=
  f.valid l.1 (mem_of_mem_endings hl)

theorem mem_assignments (f : ConfigFile) {l : ConfigLine × Bool} {e : Bytes × Bytes}
    (hl : l ∈ endings f.lines f.ended) (hassign : l.1.assignment = some e) : e ∈ f.assignments :=
  List.mem_filterMap.2 ⟨l.1, mem_of_mem_endings hl, hassign⟩

theorem mem_reads_iff {ls : List (ConfigLine × Bool)} (hvalid : ∀ l ∈ ls, l.1.Valid) :
    key ∈ (ls.flatMap fun l => (LineText.pieces 511 (l.1.bytes l.2)).filterMap parseBuf).map
        Prod.fst ↔
      ∃ l ∈ ls, l.1.Assigns l.2 key := by
  rw [List.map_flatMap, List.mem_flatMap]
  exact exists_congr fun l => and_congr_right fun hl => (hvalid l hl).mem_filterMap_pieces_iff

/-- Of an intact file every assignment that is read is right, or another one comes before it. -/
theorem Intact.right_or_above {f : ConfigFile} (h : f.Intact) {above below : List (Bytes × Bytes)}
    {e : Bytes × Bytes} (heq : f.pieces.filterMap parseBuf = above ++ e :: below) :
    e.2 = f.value e.1 ∨ e.1 ∈ above.map Prod.fst := by
  rw [filterMap_pieces_eq] at heq
  obtain ⟨ls₁, ⟨line, ended⟩, ls₂, a, b, hls, hline, rfl⟩ := exists_of_flatMap_eq heq
  have hmem : (line, ended) ∈ endings f.lines f.ended := by simp [hls]
  have hvalid := f.valid_of_mem hmem
  have hvalid₁ : ∀ l ∈ ls₁, l.1.Valid := fun l hl => f.valid_of_mem (by simp [hls, hl])
  obtain ⟨own, hread, hown, hkept⟩ := hvalid.exists_own ended
  rw [List.map_append, List.mem_append, mem_reads_iff hvalid₁]
  -- what is read is a stray piece, or the key of the line
  have hstray : ∀ {c d : List (Bytes × Bytes)}, a = own.toList ++ c →
      (line.strays ended).filterMap parseBuf = c ++ e :: d →
      e.2 = f.value e.1 ∨ (∃ l ∈ ls₁, l.1.Assigns l.2 e.1) ∨ e.1 ∈ a.map Prod.fst := by
    rintro c d rfl hstrays
    obtain ⟨ps, p, qs, hsplit, hp, rfl⟩ := exists_of_filterMap_eq hstrays
    have hnul : ∀ q ∈ ps ++ p :: qs, (0 : UInt8) ∉ q := fun q hq =>
      hvalid.not_mem_strays (hsplit ▸ hq)
    rcases h.strays ls₁ line ended ls₂ ps p qs e.1 e.2 hls hsplit
        ((parseBuf_eq_some_iff (hnul p (by simp))).1 hp)
      with hright | hlines | hkey | ⟨q, hq, text, hqreads⟩
    · exact .inl hright
    · exact .inr (.inl hlines)
    · obtain ⟨v, rfl⟩ := (hown e.1).2 hkey
      exact .inr (.inr (by simp))
    · have hentry := (parseBuf_eq_some_iff (hnul q (by simp [hq]))).2 hqreads
      refine .inr (.inr (List.mem_map.2 ⟨(e.1, text), List.mem_append_right _ ?_, rfl⟩))
      exact List.mem_filterMap.2 ⟨q, hq, hentry⟩
  rcases List.append_eq_append_iff.1 (hread.symm.trans hline) with ⟨c, rfl, hstrays⟩ | ⟨c, hsplit, hrest⟩
  · exact hstray rfl hstrays
  · cases c with
    | nil => exact hstray (c := []) (by rw [hsplit, List.append_nil, List.append_nil]) hrest.symm
    | cons e' c =>
      obtain ⟨rfl, -⟩ := List.cons.inj hrest
      have hfirst : own = some e := by
        rw [← Option.mem_toList, hsplit]
        simp
      obtain ⟨hshown, hkey⟩ := (hown e.1).1 ⟨e.2, hfirst⟩
      obtain ⟨e', hassign, hsame⟩ := Option.map_eq_some_iff.1 hkey
      rcases h.kept ls₁ line ended ls₂ e' hls hassign hshown with hright | hlines
      · rw [← hsame, f.value_of_mem (f.mem_assignments hmem hassign)]
        exact .inl ((hkept e e'.2 hfirst (by rw [hassign, ← hsame])).2 hright)
      · exact .inr (.inl (hsame ▸ hlines))

theorem Intact.seen_reads {f : ConfigFile} (h : f.Intact) (key : Bytes) :
    f.value key = [] ∨ key ∈ (f.pieces.filterMap parseBuf).map Prod.fst := by
  by_cases hkey : ∀ e ∈ f.assignments, e.1 ≠ key
  · exact .inl (f.value_of_not_mem hkey)
  · obtain ⟨e, he, rfl⟩ : ∃ e ∈ f.assignments, e.1 = key := by simpa using hkey
    rw [filterMap_pieces_eq, mem_reads_iff fun l hl => f.valid_of_mem hl,
      f.value_of_mem he]
    exact h.seen e he

/-- What is read, split at a line. -/
theorem filterMap_pieces_split (f : ConfigFile) {above below : List (ConfigLine × Bool)}
    (hls : endings f.lines f.ended = above ++ (line, ended) :: below) :
    f.pieces.filterMap parseBuf = (above.flatMap fun l =>
        (LineText.pieces 511 (l.1.bytes l.2)).filterMap parseBuf) ++
      ((LineText.pieces 511 (line.bytes ended)).filterMap parseBuf ++ below.flatMap fun l =>
        (LineText.pieces 511 (l.1.bytes l.2)).filterMap parseBuf) := by
  rw [filterMap_pieces_eq, hls, List.flatMap_append, List.flatMap_cons]

/-- A file is intact if and only if it reads as what it says. -/
theorem intact_iff (f : ConfigFile) :
    f.Intact ↔ ∀ key, ((f.pieces.filterMap parseBuf).lookup key).getD [] = f.value key := by
  rw [getD_lookup_iff]
  constructor
  · intro h
    exact ⟨fun above e below heq => h.right_or_above heq, h.seen_reads⟩
  · rintro ⟨hright, hseen⟩
    have hvalids : ∀ {above below : List (ConfigLine × Bool)} {l},
        endings f.lines f.ended = above ++ l :: below → ∀ l ∈ above, l.1.Valid := fun hls l hl =>
      f.valid_of_mem (by simp [hls, hl])
    refine ⟨?_, ?_, ?_⟩
    · intro above line ended below e hls hassign hshown
      have hmem : (line, ended) ∈ endings f.lines f.ended := by simp [hls]
      obtain ⟨own, hread, hown, hkept⟩ := (f.valid_of_mem hmem).exists_own ended
      obtain ⟨v, rfl⟩ := (hown e.1).2 ⟨hshown, by rw [hassign, Option.map_some]⟩
      have he := f.mem_assignments hmem hassign
      have hsplit := f.filterMap_pieces_split hls
      rw [hread, Option.toList_some, List.singleton_append, List.cons_append] at hsplit
      rcases hright _ _ _ hsplit with hsame | habove
      · exact .inl ((hkept _ e.2 rfl hassign).1 (by rw [← f.value_of_mem he]; exact hsame))
      · exact .inr ((mem_reads_iff (hvalids hls)).1 habove)
    · intro above line ended below ps p qs key text hls hstrays hreads
      have hmem : (line, ended) ∈ endings f.lines f.ended := by simp [hls]
      have hvalid := f.valid_of_mem hmem
      have hnul : ∀ q ∈ ps ++ p :: qs, (0 : UInt8) ∉ q := fun q hq =>
        hvalid.not_mem_strays (hstrays ▸ hq)
      obtain ⟨own, hread, hown, -⟩ := hvalid.exists_own ended
      have hsplit := f.filterMap_pieces_split hls
      have hp := (parseBuf_eq_some_iff (hnul p (by simp))).2 hreads
      rw [hread, hstrays, List.filterMap_append, List.filterMap_cons, hp, List.append_assoc,
        ← List.append_assoc, List.append_assoc (ps.filterMap parseBuf), List.cons_append,
        ← List.append_assoc _ (ps.filterMap parseBuf)] at hsplit
      rcases hright _ _ _ hsplit with hsame | hbefore
      · exact .inl hsame
      · rw [List.map_append, List.map_append, List.mem_append, List.mem_append,
          mem_reads_iff (hvalids hls)] at hbefore
        rcases hbefore with (hlines | hkey) | hstray
        · exact .inr (.inl hlines)
        · refine .inr (.inr (.inl ((hown key).1 ?_)))
          cases own with
          | none => simp at hkey
          | some e => exact ⟨e.2, by simpa [Prod.ext_iff, eq_comm] using hkey⟩
        · obtain ⟨e, he, rfl⟩ := List.mem_map.1 hstray
          obtain ⟨q, hq, hqread⟩ := List.mem_filterMap.1 he
          exact .inr (.inr (.inr ⟨q, hq, e.2,
            (parseBuf_eq_some_iff (hnul q (by simp [hq]))).1 hqread⟩))
    · intro e he
      have hkey := hseen e.1
      rwa [filterMap_pieces_eq, mem_reads_iff fun l hl => f.valid_of_mem hl,
        f.value_of_mem he] at hkey

/-- Loading a file gives the values in it if and only if the pieces of its lines do. -/
theorem value_eq_iff (f : ConfigFile) :
    ∃ config, load ∅ (some f.bytes) = some config ∧
      ((∀ key, config.value key = f.value key) ↔ f.Intact) := by
  have hcut : Cut newline 511 f.bytes f.pieces :=
    cut_endings (fun line hline => (f.valid line hline).oneLine.1) f.ended
  have hfuel : f.pieces.length + 2 ≤ f.bytes.length + 2 :=
    Nat.add_le_add_right (hcut.length_le (by decide)) 2
  refine ⟨f.pieces.foldl readBuf ∅, loadLoop_cut hcut hfuel ∅, ?_⟩
  rw [f.intact_iff]
  refine forall_congr' fun key => ?_
  rw [MprpcConfig.value, lookup_foldl_readBuf, AList.lookup_empty, Option.none_or]

/-- `node0ip`. -/
def node0ip : Bytes := [110, 111, 100, 101, 48, 105, 112]

/-- `127.0.1.1`. -/
def loopback : Bytes := [49, 50, 55, 46, 48, 46, 49, 46, 49]

/-- The first line of `raftExample.conf`. -/
def example0 : ConfigFile where
  lines := [.entry 0 node0ip 0 0 loopback 0]
  ended := true
  valid := by
    intro line hline
    obtain rfl := List.mem_singleton.1 hline
    exact ⟨⟨by decide, by decide⟩, ⟨by decide, by decide⟩, by decide, by decide, by decide,
      fun hhash => absurd hhash (by decide)⟩
  distinct := List.nodup_singleton node0ip

/-- The newline that ends the line is loaded with the value. -/
theorem value_keeps_newline :
    (load ∅ (some example0.bytes)).map (fun config => config.value node0ip) =
        some (loopback ++ [newline]) ∧
      example0.value node0ip = loopback := by
  decide +kernel

end ConfigFile

/-! ## Files whose lines fit the buffer -/

namespace ConfigFile

/-- A key is assigned to in one line only. -/
theorem ne_of_above (f : ConfigFile) {above below : List (ConfigLine × Bool)} {l l' : ConfigLine × Bool}
    {e : Bytes × Bytes} (hls : endings f.lines f.ended = above ++ l :: below) (hl' : l' ∈ above)
    (hassign : l.1.assignment = some e) : l'.1.assignment.map Prod.fst ≠ some e.1 := by
  intro hsame
  obtain ⟨e', hassign', hkey⟩ := Option.map_eq_some_iff.1 hsame
  have hdistinct := f.distinct
  rw [← map_fst_endings f.lines f.ended, hls, List.map_append, List.map_cons, List.filterMap_append,
    List.filterMap_cons, hassign, List.map_append, List.map_cons] at hdistinct
  obtain ⟨-, -, hdisj⟩ := List.nodup_append.1 hdistinct
  refine hdisj e'.1 (List.mem_map_of_mem (List.mem_filterMap.2 ⟨l'.1, ?_, hassign'⟩)) e.1
    (List.mem_cons_self ..) hkey
  exact List.mem_map_of_mem hl'

/-- As long as every line fits the buffer, a newline behind a value and a key that makes a comment of
    its line are all that goes wrong. -/
theorem intact_iff_of_short (f : ConfigFile) (hshort : ∀ line ∈ f.lines, line.text.length < 511) :
    f.Intact ↔ ∀ l ∈ endings f.lines f.ended, l.1.Unharmed l.2 := by
  have hassigns : ∀ {l : ConfigLine × Bool} {key}, l ∈ endings f.lines f.ended →
      l.1.Assigns l.2 key → l.1.Shown ∧ l.1.assignment.map Prod.fst = some key := by
    intro l key hl h
    rcases h with h | ⟨p, hp, -⟩
    · exact h
    · rw [ConfigLine.strays_of_short (hshort l.1 (mem_of_mem_endings hl))] at hp
      cases hp
  constructor
  · rintro h ⟨line, ended⟩ hl
    have hline := hshort line (mem_of_mem_endings hl)
    cases line with
    | blank spaces => trivial
    | comment text => trivial
    | entry before key behind before' value behind' =>
      obtain ⟨above, below, hls⟩ := List.append_of_mem hl
      show if key.head? = some hash then value = [] else ended = false
      split_ifs with hhash
      · refine (h.seen (key, value) (f.mem_assignments hl rfl)).resolve_right ?_
        rintro ⟨l', hl', hassign⟩
        obtain ⟨hshown, hkey⟩ := hassigns hl' hassign
        obtain ⟨line', ended'⟩ := l'
        cases line' with
        | blank spaces => cases hshown
        | comment text => cases hshown
        | entry _ key' _ _ _ _ =>
          obtain rfl : key' = key := Option.some.inj hkey
          exact hshown.2 hhash
      · have hshown : (ConfigLine.entry before key behind before' value behind').Shown :=
          ⟨ConfigLine.keyWhole_of_short hline, hhash⟩
        rw [← ConfigLine.kept_iff_of_short hline]
        refine (h.kept above _ ended below (key, value) hls rfl hshown).resolve_right ?_
        rintro ⟨l', hl', hassign⟩
        exact f.ne_of_above hls hl' rfl (hassigns (by simp [hls, hl']) hassign).2
  · intro h
    refine ⟨?_, ?_, ?_⟩
    · intro above line ended below e hls hassign hshown
      have hl : (line, ended) ∈ endings f.lines f.ended := by simp [hls]
      have hunharmed := h _ hl
      have hline := hshort line (mem_of_mem_endings hl)
      cases line with
      | blank spaces => cases hshown
      | comment text => cases hshown
      | entry before key behind before' value behind' =>
        rw [ConfigLine.Unharmed, if_neg hshown.2] at hunharmed
        exact .inl ((ConfigLine.kept_iff_of_short hline ended).2 hunharmed)
    · intro above line ended below ps p qs key text hls hstrays
      have hl : (line, ended) ∈ endings f.lines f.ended := by simp [hls]
      rw [ConfigLine.strays_of_short (hshort line (mem_of_mem_endings hl))] at hstrays
      simp at hstrays
    · intro e he
      obtain ⟨line, hline, hassign⟩ := List.mem_filterMap.1 he
      rw [← map_fst_endings f.lines f.ended] at hline
      obtain ⟨⟨line, ended⟩, hl, rfl⟩ := List.mem_map.1 hline
      have hunharmed := h _ hl
      have hlen := hshort line (mem_of_mem_endings hl)
      cases line with
      | blank spaces => cases hassign
      | comment text => cases hassign
      | entry before key behind before' value behind' =>
        obtain rfl := Option.some.inj hassign
        by_cases hhash : key.head? = some hash
        · rw [ConfigLine.Unharmed, if_pos hhash] at hunharmed
          exact .inl hunharmed
        · exact .inr ⟨_, hl, .inl ⟨⟨ConfigLine.keyWhole_of_short hlen, hhash⟩, rfl⟩⟩

end ConfigFile

end RaftKVStorage
