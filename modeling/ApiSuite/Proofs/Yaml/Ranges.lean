import ApiSuite.Document
import ApiSuite.Proofs.Yaml.Entries
import ApiSuite.Proofs.Yaml.Order

/-!
# Ranges of lines and the values in them

The range that is reported for a key ends before the next key, and then backs off over the lines
that look blank or like comments (`ApiSuite.Yaml.lastBusy_iff`). It does so without asking whether
these lines are part of the key's value, as they are in a block scalar or between quotes. So this
file shows what the ranges do: of the lines that hold a part of the value, those are left out that
look blank or like a comment and have only such lines between them and the next key
(`ApiSuite.Yaml.ranges_cover_values`), whatever they are to the reader of the document.

That the value ends before the next key's line at all comes from the order of the tokens: a key in
the first column begins where its tokens do, which is after all tokens of the entries before it
(`ApiSuite.Yaml.AreWritten.line_before_next`).
-/

namespace ApiSuite.Yaml

/-! ### Backing off -/

/-- A line of a text, empty beyond the last one. -/
def lineOf (s : String) (i : Nat) : List Char := ((splitLines s.toList)[i]?).getD []

section Lines

variable {lines : List (List Char)} {first more i : Nat} {name : String} {range : LineRange}
  {found : List (String × LineRange)} {keys keys' : List (String × Nat)}

/-- **A line is reached by backing off** just if it is the first, or a line from it on is busy. -/
theorem lastBusy_iff (hi : first ≤ i) :
    i ≤ lastBusy lines first more ↔
      i = first ∨ ∃ j, i ≤ j ∧ j ≤ first + more ∧ isIdle ((lines[j]?).getD []) = false := by
  induction more with
  | zero =>
    rw [lastBusy]
    constructor
    · intro h
      exact .inl (by omega)
    · rintro (h | ⟨j, hij, hj, -⟩) <;> omega
  | succ more ih =>
    rw [lastBusy]
    cases hidle : isIdle ((lines[first + more + 1]?).getD []) with
    | true =>
      rw [if_pos rfl, ih]
      -- the line that is dropped is idle, so no busy one is lost
      constructor
      · rintro (h | ⟨j, hij, hj, hbusy⟩)
        · exact .inl h
        · exact .inr ⟨j, hij, by omega, hbusy⟩
      · rintro (h | ⟨j, hij, hj, hbusy⟩)
        · exact .inl h
        · refine .inr ⟨j, hij, ?_, hbusy⟩
          have hne : j ≠ first + more + 1 := by
            rintro rfl
            cases hidle.symm.trans hbusy
          omega
    | false =>
      rw [if_neg (by simp)]
      constructor
      · intro h
        exact .inr ⟨first + more + 1, h, Nat.le_refl _, hidle⟩
      · rintro (h | ⟨j, hij, hj, -⟩) <;> omega

/-- A line beyond the last is idle. -/
theorem lt_length_of_busy (h : isIdle ((lines[i]?).getD []) = false) : i < lines.length := by
  by_contra hlt
  rw [List.getElem?_eq_none_iff.mpr (Nat.le_of_not_lt hlt)] at h
  cases h

/-- **The last line of a range**, given that a line stands before the next key. -/
theorem le_last_iff {next : Option Nat} (hfirst : first ≤ i) (hnext : ∀ n, next = some n → i < n) :
    i ≤ (rangeOf lines first next).last ↔
      i = first ∨ ∃ j, i ≤ j ∧ (∀ n, next = some n → j < n) ∧
        isIdle ((lines[j]?).getD []) = false := by
  unfold rangeOf
  rw [lastBusy_iff hfirst]
  refine or_congr_right ⟨?_, ?_⟩
  · rintro ⟨j, hij, hj, hbusy⟩
    refine ⟨j, hij, fun n hn => ?_, hbusy⟩
    have hi := hnext n hn
    cases hn
    dsimp only at hj
    omega
  · rintro ⟨j, hij, hj, hbusy⟩
    refine ⟨j, hij, ?_, hbusy⟩
    have hlength := lt_length_of_busy hbusy
    cases next with
    | none =>
      dsimp only
      omega
    | some n =>
      have hn := hj n rfl
      dsimp only
      omega

theorem lookup_rangesFrom (h : ∀ key ∈ keys, key.1 ≠ name) :
    (rangesFrom lines found keys).lookup name = found.lookup name := by
  induction keys generalizing found with
  | nil => rfl
  | cons key keys ih =>
    obtain ⟨hkey, hkeys⟩ := List.forall_mem_cons.mp h
    rw [rangesFrom, ih hkeys, Schema.lookup_insertField, if_neg (Ne.symm hkey)]

/-- What is found for some keys has no part in the ranges of those after them. -/
theorem rangesFrom_append : ∃ found', rangesFrom lines found (keys ++ keys') =
    rangesFrom lines found' keys' := by
  induction keys generalizing found with
  | nil => exact ⟨found, rfl⟩
  | cons key keys ih => exact ih

/-- **The range of a name** is that of its last key. -/
theorem lookup_lineRanges {s : String} (h : ∀ key ∈ keys', key.1 ≠ name) :
    (lineRanges s (keys ++ (name, first) :: keys')).lookup name =
      some (rangeOf (splitLines s.toList) first (keys'.head?.map (·.2))) := by
  obtain ⟨found, hfound⟩ :=
    @rangesFrom_append (splitLines s.toList) [] keys ((name, first) :: keys')
  rw [lineRanges, hfound, rangesFrom, lookup_rangesFrom h, Schema.lookup_insertField, if_pos rfl]

end Lines

/-! ### Keys of the outermost mapping -/

/-- The name and the line that a key of the outermost mapping is reported with, if it is. -/
def reported? (root : Node) (key : Node) : Option (String × Nat) :=
  if key.tag == .merge then none else keyLine? (key.settled (.ofRoot root) true)

section Keys

variable {o : Opening} {done : List (Node × Node)} {root key : Node} {name : String} {first : Nat}

theorem Node.mark_settled (e : Effect) (reached : Bool) (n : Node) :
    (n.settled e reached).mark = n.mark := by
  cases n with
  | scalar tag text m => rfl
  | list o items => rfl
  | cycle isMap o => rfl
  | map o entries =>
    rw [Node.settled]
    split <;> rfl

theorem reported_mark (h : reported? root key = some (name, first)) :
    key.mark.column = 0 ∧ key.mark.line = first := by
  unfold reported? keyLine? at h
  split at h
  · cases h
  · rw [Node.mark_settled] at h
    split at h
    · rename_i hcolumn
      have hpair := Option.some.inj h
      exact ⟨by simpa using hcolumn, (Prod.mk.inj hpair).2⟩
    · cases h

/-- The mapping's own entries after the reading. -/
theorem settledEntries_own (e : Effect) (es : List (Node × Node)) :
    (settledEntries e es).2 = (es.filter fun n => n.1.tag != .merge).map
      fun n => (n.1.settled e true, n.2.settled e true) := by
  induction es with
  | nil => rfl
  | cons n es ih =>
    obtain ⟨k, v⟩ := n
    rw [settledEntries]
    cases hk : k.tag == .merge with
    | true =>
      rw [List.filter_cons_of_neg (by simp_all), ← ih]
      cases v <;> rfl
    | false =>
      rw [List.filter_cons_of_pos (by simp_all), List.map_cons, ← ih]
      rfl

/-- The entries of the outermost mapping after the reading: those taken over, and its own. -/
theorem settledRoot_map (htag : o.tag = .map) (done : List (Node × Node)) :
    settledRoot (some (.map o done)) = (settledEntries (.ofRoot (.map o done)) done).1 ++
      (settledEntries (.ofRoot (.map o done)) done).2 := by
  -- the outermost mapping is what the document is read as, so its entries have been settled
  have hreads : (Effect.ofRoot (.map o done)).reads true o = true := by
    simp [Effect.reads, Tag.isCollection, htag]
  have hsettled : (Node.map o done).settled (.ofRoot (.map o done)) true =
      .map ((Effect.ofRoot (.map o done)).opening o)
        ((settledEntries (.ofRoot (.map o done)) done).1 ++
          (settledEntries (.ofRoot (.map o done)) done).2) := by
    rw [Node.settled, if_pos hreads]
  simp only [settledRoot, hsettled]

/-- **The keys that are reported** are those that the mapping has taken over, and its own. -/
theorem keyLines_map (htag : o.tag = .map) (done : List (Node × Node)) :
    keyLines (some (.map o done)) =
      ((settledEntries (.ofRoot (.map o done)) done).1.filterMap fun n => keyLine? n.1) ++
        done.filterMap fun n => reported? (.map o done) n.1 := by
  rw [keyLines, settledRoot_map htag, List.filterMap_append, settledEntries_own]
  congr 1
  rw [List.filterMap_map, List.filterMap_filter]
  refine List.filterMap_congr fun n _ => ?_
  by_cases hmerge : n.1.tag = .merge <;> simp [reported?, hmerge]

theorem builtScalar_not_object (level : Nat) (tag : Tag) (m : Mark) (text : String) :
    (builtScalar level tag m text).value.isObject = false := by
  have hcrash {α : Type} (f : α → Value) (hf : ∀ a, (f a).isObject = false) (x : Except Crash α) :
      (Built.ofCrash level f x).value.isObject = false := by
    cases x with
    | error e => rfl
    | ok a => exact hf a
  have htime : (Built.ofCrash level id (spelledTimestamp text)).value.isObject = false := by
    unfold spelledTimestamp
    dsimp only
    repeat' split
    all_goals rfl
  unfold builtScalar
  split
  case h_2 => exact hcrash _ (fun _ => rfl) _
  case h_3 => exact hcrash _ (fun _ => rfl) _
  case h_4 => exact hcrash _ (fun _ => rfl) _
  case h_5 => exact htime
  case h_6 => split <;> rfl
  all_goals rfl

theorem builtText_not_object (level : Nat) (tag : Tag) (n : Node) :
    (builtText level tag n).value.isObject = false := by
  unfold builtText
  split
  · exact builtScalar_not_object level tag n.mark _
  · split <;> rfl

/-- What a document is read as is the value of its node. -/
theorem value_of_read {n : Node} {v : Value} (h : Node.read (some n) = .ok v) :
    (n.built 0).value = v := by
  rw [Node.read, Built.run] at h
  split at h
  · exact Except.ok.inj h
  · cases h

/-- A mapping is read as an object only by its usual tag. -/
theorem tag_of_isObject {v : Value} (h : Node.read (some (.map o done)) = .ok v)
    (hv : v.isObject = true) : o.tag = .map := by
  rw [← value_of_read h, Node.built] at hv
  cases htag : o.tag with
  | map => rfl
  | set | list | pairs | orderedMap =>
    rw [htag] at hv
    cases hv
  | _ =>
    rw [htag] at hv
    cases (builtText_not_object _ _ _).symm.trans hv

end Keys

/-! ### Values between keys -/

/-- An entry of a mapping with the tokens it is written in. -/
structure Written where
  tokens : EntryTokens
  key : Node
  value : Node

/-- The mapping of some entries. -/
def mappingOf (o : Opening) (written : List Written) : Node :=
  .map o (written.map fun w => (w.key, w.value))

/-- Entries are written in a text, one after another. -/
structure AreWritten (s : String) (written : List Written) : Prop where
  inText : (written.flatMap fun w => w.tokens.all).Sublist (tokens s).1
  keys : ∀ w ∈ written, w.tokens.HasKey w.key

/-- A character of the value of an entry that takes a column. -/
def EntryTokens.HasValueAt (s : String) (e : EntryTokens) (i : Nat) : Prop :=
  (∃ t ∈ e.value.getD [], t.first.index ≤ i ∧ i < t.last.index) ∧
    ∃ x, s.toList[i]? = some x ∧ x ≠ '\ufeff'

/-- A key that is reported with a name and a line, given the entries after its own: it is no alias,
and no later key is reported that is an alias or has its name. -/
structure IsReported (root : Node) (w : Written) (after : List Written) (name : String)
    (first : Nat) : Prop where
  key : reported? root w.key = some (name, first)
  own : w.tokens.isAliased = false
  others : ∀ w' ∈ after, w'.tokens.isAliased = true → reported? root w'.key = none
  last : ∀ w' ∈ after, ∀ line, reported? root w'.key ≠ some (name, line)

/-- The line of the next key that is reported. -/
def nextLine? (root : Node) (after : List Written) : Option Nat :=
  (after.filterMap fun w => reported? root w.key).head?.map (·.2)

/-- How a range of lines covers the value of an entry, given the line of the next key. -/
structure CoversValue (s : String) (e : EntryTokens) (range : LineRange) (next : Option Nat) :
    Prop where
  /-- No part of the value stands before the range. -/
  begins : ∀ i, e.HasValueAt s i → range.first ≤ lineAt s i
  /-- No part of the value stands on the line of the next key or after it. -/
  ends : ∀ i, e.HasValueAt s i → ∀ n, next = some n → lineAt s i < n
  /-- A line with a part of the value is in the range, unless it looks blank or like a comment. -/
  busy : ∀ i, e.HasValueAt s i → isIdle (lineOf s (lineAt s i)) = false → lineAt s i ≤ range.last
  /-- One that does is within the range just if it is the first, or a line follows before the next
  key that does not. -/
  exact : ∀ i, e.HasValueAt s i → (lineAt s i ≤ range.last ↔ lineAt s i = range.first ∨
    ∃ j, lineAt s i ≤ j ∧ (∀ n, next = some n → j < n) ∧ isIdle (lineOf s j) = false)

section Values

variable {s : String} {root : Node} {w : Written} {before after : List Written} {name : String}
  {first i : Nat} {t u : Token} {start : Nat}

/-- **Of the tokens of entries**, those of the key come before those of the value, and both before
those of later entries. -/
theorem AreWritten.order (h : AreWritten s (before ++ w :: after)) :
    (∀ u ∈ w.tokens.mark :: w.tokens.key, ∀ t ∈ w.tokens.value.getD [],
      u.last.index ≤ t.first.index) ∧
      ∀ t ∈ w.tokens.value.getD [], ∀ w' ∈ after, ∀ u ∈ w'.tokens.all,
        t.last.index ≤ u.first.index := by
  have hordered := (tokens_inOrder s).pairwise.sublist h.inText
  rw [List.flatMap_append, List.flatMap_cons] at hordered
  obtain ⟨-, hordered, -⟩ := List.pairwise_append.mp hordered
  obtain ⟨hown, -, hlater⟩ := List.pairwise_append.mp hordered
  constructor
  · intro u hu t ht
    rw [EntryTokens.all, ← List.cons_append] at hown
    exact (List.pairwise_append.mp hown).2.2 u hu t ht
  · intro t ht w' hw' u hu
    refine hlater t ?_ u (List.mem_flatMap.mpr ⟨w', hw', hu⟩)
    exact List.mem_cons_of_mem _ (List.mem_append_right _ ht)

theorem EntryTokens.mem_all {e : EntryTokens} {u : Token} (hu : u ∈ e.mark :: e.key) :
    u ∈ e.all := by
  rcases List.mem_cons.mp hu with rfl | hu
  · exact List.mem_cons_self
  · exact List.mem_cons_of_mem _ (List.mem_append_left _ hu)

/-- A key that is written out stands within its tokens. -/
theorem AreWritten.key_placed {written : List Written} (h : AreWritten s written) (hw : w ∈ written)
    (halias : w.tokens.isAliased = false) :
    w.key.mark.IsIn s ∧ ∃ u ∈ w.tokens.mark :: w.tokens.key,
      u.first.index ≤ w.key.mark.index ∧ w.key.mark.index ≤ u.last.index := by
  rcases h.keys w hw with halias' | ⟨-, u, hu, hmark⟩
  · cases halias.symm.trans halias'
  · have hmem : u ∈ (tokens s).1 :=
      h.inText.subset (List.mem_flatMap.mpr ⟨w, hw, EntryTokens.mem_all hu⟩)
    obtain ⟨hfirst, hlast, -, hwidth⟩ := (tokens_inOrder s).of_mem hmem
    rcases hmark with hmark | hmark
    · rw [hmark]
      exact ⟨hfirst, u, hu, Nat.le_refl _, hwidth⟩
    · rw [hmark]
      exact ⟨hlast, u, hu, hwidth, Nat.le_refl _⟩

section Entries

variable (hs : ∀ x ∈ s.toList, isBreak x = true → x = '\n')
  (h : AreWritten s (before ++ w :: after))

include hs h

/-- The key of an entry stands before its value. -/
theorem AreWritten.line_of_key (halias : w.tokens.isAliased = false)
    (hi : w.tokens.HasValueAt s i) : w.key.mark.line ≤ lineAt s i := by
  obtain ⟨⟨t, ht, hfirst, -⟩, -⟩ := hi
  obtain ⟨hplaced, u, hu, -, hmark⟩ :=
    h.key_placed (List.mem_append_right _ List.mem_cons_self) halias
  have hbefore := h.order.1 u hu t ht
  rw [hplaced.line_eq hs]
  exact lineAt_mono (by omega)

/-- **A value ends before the line of a later key** in the first column. -/
theorem AreWritten.line_before_next {w' : Written} (hw' : w' ∈ after)
    (halias : w'.tokens.isAliased = false) (hcolumn : w'.key.mark.column = 0)
    (hi : w.tokens.HasValueAt s i) : lineAt s i < w'.key.mark.line := by
  obtain ⟨⟨t, ht, -, hlast⟩, x, hx, hcolumned⟩ := hi
  obtain ⟨hplaced, u, hu, hmark, -⟩ :=
    h.key_placed (List.mem_append_right _ (List.mem_cons_of_mem _ hw')) halias
  have hbefore := h.order.2 t ht w' hw' u (EntryTokens.mem_all hu)
  exact hplaced.lineAt_lt hs hcolumn (by omega) hx hcolumned

/-- **A range covers the value** of its key. -/
theorem AreWritten.covers (hreported : IsReported root w after name first) :
    CoversValue s w.tokens
      (rangeOf (splitLines s.toList) first (nextLine? root after)) (nextLine? root after) := by
  have hfirst : w.key.mark.line = first := (reported_mark hreported.key).2
  have hbegins (i : Nat) (hi : w.tokens.HasValueAt s i) : first ≤ lineAt s i :=
    hfirst ▸ h.line_of_key hs hreported.own hi
  have hends (i : Nat) (hi : w.tokens.HasValueAt s i) (n : Nat)
      (hn : nextLine? root after = some n) : lineAt s i < n := by
    -- the next key that is reported is that of a later entry, and none of these is an alias
    obtain ⟨⟨name', line⟩, hhead, rfl⟩ := Option.map_eq_some_iff.mp hn
    obtain ⟨w', hw', hkey⟩ := List.mem_filterMap.mp (List.mem_of_mem_head? hhead)
    obtain ⟨hcolumn, hline⟩ := reported_mark hkey
    have halias : w'.tokens.isAliased = false := by
      cases halias : w'.tokens.isAliased with
      | false => rfl
      | true => cases hkey.symm.trans (hreported.others w' hw' halias)
    exact hline ▸ h.line_before_next hs hw' halias hcolumn hi
  exact {
    begins := hbegins
    ends := hends
    busy := fun i hi hbusy => (le_last_iff (hbegins i hi) (hends i hi)).mpr
      (.inr ⟨lineAt s i, Nat.le_refl _, hends i hi, hbusy⟩)
    exact := fun i hi => le_last_iff (hbegins i hi) (hends i hi) }

end Entries

/-- The entries of a document with their tokens. -/
theorem AreKeys.written {entries : List EntryTokens} {done : List (Node × Node)}
    (h : AreKeys entries done) : ∃ written : List Written, entries = written.map Written.tokens ∧
      (done = written.map fun w => (w.key, w.value)) ∧ ∀ w ∈ written, w.tokens.HasKey w.key := by
  induction h with
  | nil => exact ⟨[], rfl, rfl, nofun⟩
  | @cons e n entries done hkey _ ih =>
    obtain ⟨written, rfl, rfl, hkeys⟩ := ih
    exact ⟨⟨e, n.1, n.2⟩ :: written, rfl, rfl, List.forall_mem_cons.mpr ⟨hkey, hkeys⟩⟩

/-- A document that is loaded with lines and is an object. -/
theorem loaded_object {document : Option String} {value : Value}
    {ranges : List (String × LineRange)}
    (hload : Document.loadYamlWithLines document s = .ok (value, ranges))
    (hobject : value.isObject = true) :
    ∃ n failure, Node.ofString s = .ok (some n) ∧
      Node.ofTokens (tokens s).1 failure = .ok (some n) ∧ Node.read (some n) = .ok value ∧
      ranges = lineRanges s (keyLines (some n)) := by
  unfold Document.loadYamlWithLines at hload
  split at hload
  · rename_i root v hread
    split at hload
    · cases hload
      obtain ⟨root', hroot, hread⟩ := bind_eq_ok_iff.mp hread
      obtain ⟨value', hvalue, hpair⟩ := bind_eq_ok_iff.mp hread
      cases hpair
      cases root with
      | none =>
        cases hvalue
        cases hobject
      | some n =>
        have htokens := hroot
        unfold Node.ofString at htokens
        split at htokens
        · exact ⟨n, _, hroot, htokens, hvalue, rfl⟩
        · cases htokens
    · rename_i hnot
      cases hload
      exact absurd hobject hnot
  · cases hload
  · cases hload

/-- The keys that are reported of a mapping of some entries. -/
theorem keyLines_mappingOf {o : Opening} (htag : o.tag = .map) (written : List Written) :
    ∃ taken, keyLines (some (mappingOf o written)) =
      taken ++ written.filterMap fun w => reported? (mappingOf o written) w.key := by
  have hlines := keyLines_map htag (written.map fun w => (w.key, w.value))
  rw [List.filterMap_map] at hlines
  exact ⟨_, hlines⟩

/-- **The ranges cover the values of their keys.** Take a text with line feeds only that is read
with lines and of which the outermost node is written as a block mapping. It has one entry for each
entry of the tokens; and for a key in the first column that is no alias and the last of its name,
provided that no alias among the later keys stands there, the range of its name begins at the key's
line, and of the lines that hold a part of its value those are left out that look blank or like a
comment and have only such lines between them and the next key. -/
theorem ranges_cover_values {document : Option String} {value : Value}
    {ranges : List (String × LineRange)} {entries : List EntryTokens}
    (hs : ∀ x ∈ s.toList, isBreak x = true → x = '\n')
    (hload : Document.loadYamlWithLines document s = .ok (value, ranges))
    (hobject : value.isObject = true) (hentries : blockEntries (tokens s).1 = some entries) :
    ∃ o written, Node.ofString s = .ok (some (mappingOf o written)) ∧
      entries = written.map Written.tokens ∧ (∀ w ∈ written, w.tokens.HasKey w.key) ∧
      ∀ before w after name first, written = before ++ w :: after →
        IsReported (mappingOf o written) w after name first →
        ∃ range, ranges.lookup name = some range ∧ range.first = first ∧
          CoversValue s w.tokens range (nextLine? (mappingOf o written) after) := by
  obtain ⟨n, failure, hroot, htokens, hread, rfl⟩ := loaded_object hload hobject
  obtain ⟨o, done, rfl, hkeys⟩ := Node.entries_of_tokens hentries htokens
  obtain ⟨written, rfl, rfl, hwritten⟩ := hkeys.written
  refine ⟨o, written, hroot, rfl, hwritten, ?_⟩
  intro before w after name first hsplit hreported
  obtain ⟨taken, hlines⟩ := keyLines_mappingOf (tag_of_isObject hread hobject) written
  have hare : AreWritten s written :=
    ⟨by simpa [List.flatMap_map] using sublist_of_blockEntries hentries, hwritten⟩
  refine ⟨_, ?_, rfl, (hsplit ▸ hare).covers hs hreported⟩
  show (lineRanges s (keyLines (some (mappingOf o written)))).lookup name = _
  -- what comes before the key in the order of the reports has no part in the range of its name
  rw [hlines]
  generalize mappingOf o written = root at hreported ⊢
  have hown : (w :: after).filterMap (fun w => reported? root w.key) =
      (name, first) :: after.filterMap fun w => reported? root w.key :=
    List.filterMap_cons_some hreported.key
  rw [hsplit, List.filterMap_append, hown, ← List.append_assoc]
  refine lookup_lineRanges ?_
  rintro ⟨name', line⟩ hmem rfl
  obtain ⟨w', hw', hkey⟩ := List.mem_filterMap.mp hmem
  exact hreported.last w' hw' line hkey

end Values

/-- A block scalar with a line that looks like a comment, and another entry. -/
def noteText : String := "a: |\n  text\n  # note\n\nb: 1\n"

/-- The keys of a document as they are reported. -/
def reportedKeys : Option Node → List (Option (String × Nat))
  | some (.map o done) => done.map fun n => reported? (.map o done) n.1
  | _ => []

theorem loads_noteText : ∃ value ranges,
    Document.loadYamlWithLines none noteText = .ok (value, ranges) ∧ value.isObject = true ∧
      (value.get? "a").map (·.isText "text\n# note\n") = some true ∧
      ranges = [("a", ⟨0, 1⟩), ("b", ⟨4, 4⟩)] := by
  obtain ⟨⟨value, ranges⟩, hload, hvalue⟩ := exists_eq_ok
    (r := Document.loadYamlWithLines none noteText)
    (f := fun p => (p.1.isObject, (p.1.get? "a").map (·.isText "text\n# note\n"), p.2))
    (b := (true, some true, [("a", ⟨0, 1⟩), ("b", ⟨4, 4⟩)])) (by decide +kernel)
  simp only [Prod.mk.injEq] at hvalue
  exact ⟨value, ranges, hload, hvalue⟩

theorem breaks_noteText : ∀ x ∈ noteText.toList, isBreak x = true → x = '\n' := by
  have hall : noteText.toList.all (fun x => !isBreak x || x == '\n') = true := by decide +kernel
  intro x hx hbreak
  simpa [hbreak] using List.all_eq_true.mp hall x hx

/-- The range of the first key, which is all that is reported, covers its value as told. -/
theorem ranges_cover_values_noteText :
    ∃ value ranges o w w', Document.loadYamlWithLines none noteText = .ok (value, ranges) ∧
      Node.ofString noteText = .ok (some (mappingOf o [w, w'])) ∧
      IsReported (mappingOf o [w, w']) w [w'] "a" 0 ∧ ranges.lookup "a" = some ⟨0, 1⟩ ∧
      CoversValue noteText w.tokens ⟨0, 1⟩ (some 4) := by
  obtain ⟨value, ranges, hload, hobject, -, hranges⟩ := loads_noteText
  obtain ⟨entries, hentries, haliases⟩ : ∃ entries,
      blockEntries (tokens noteText).1 = some entries ∧
        entries.map EntryTokens.isAliased = [false, false] :=
    Option.map_eq_some_iff.mp (by decide +kernel)
  obtain ⟨root, hroot, hkeys⟩ := exists_eq_ok (r := Node.ofString noteText) (f := reportedKeys)
    (b := [some ("a", 0), some ("b", 4)]) (by decide +kernel)
  obtain ⟨o, written, hwritten, rfl, -, hcovers⟩ :=
    ranges_cover_values breaks_noteText hload hobject hentries
  cases hroot.symm.trans hwritten
  obtain ⟨w, w', rfl⟩ : ∃ w w', written = [w, w'] :=
    List.length_eq_two.mp (by simpa using congrArg List.length haliases)
  simp only [List.map_cons, List.map_nil, List.cons.injEq, and_true] at haliases
  have hkey : reported? (mappingOf o [w, w']) w.key = some ("a", 0) := (List.cons.inj hkeys).1
  have hkey' : reported? (mappingOf o [w, w']) w'.key = some ("b", 4) :=
    (List.cons.inj (List.cons.inj hkeys).2).1
  have hreported : IsReported (mappingOf o [w, w']) w [w'] "a" 0 :=
    { key := hkey
      own := haliases.1
      others := by simp [haliases.2]
      last := by simp [hkey'] }
  obtain ⟨range, hrange, -, hcovered⟩ := hcovers [] w [w'] "a" 0 rfl hreported
  have hfound : ranges.lookup "a" = some ⟨0, 1⟩ := by
    rw [hranges]
    rfl
  cases hrange.symm.trans hfound
  have hnext : nextLine? (mappingOf o [w, w']) [w'] = some 4 := by simp [nextLine?, hkey']
  rw [hnext] at hcovered
  exact ⟨value, ranges, o, w, w', hload, hwritten, hreported, hfound, hcovered⟩

/-- **A line of a block scalar is left out** if it looks like a comment and no other line of the
value comes after it, although the value has it. -/
theorem note_is_left_out :
    ∃ value ranges e es, Document.loadYamlWithLines none noteText = .ok (value, ranges) ∧
      (value.get? "a").map (·.isText "text\n# note\n") = some true ∧
      blockEntries (tokens noteText).1 = some (e :: es) ∧ e.HasValueAt noteText 14 ∧
      lineAt noteText 14 = 2 ∧ lineOf noteText 2 = "  # note".toList ∧
      ranges.lookup "a" = some ⟨0, 1⟩ := by
  obtain ⟨value, ranges, hload, -, hvalue, hranges⟩ := loads_noteText
  obtain ⟨entries, hentries, hplaces⟩ : ∃ entries,
      blockEntries (tokens noteText).1 = some entries ∧
        (entries.map fun e => (e.value.getD []).map fun t => (t.first.index, t.last.index)) =
          [[(3, 22)], [(25, 27)]] :=
    Option.map_eq_some_iff.mp (by decide +kernel)
  obtain ⟨e, es, rfl⟩ : ∃ e es, entries = e :: es := by
    cases entries with
    | nil => cases hplaces
    | cons e es => exact ⟨e, es, rfl⟩
  obtain ⟨t, ht⟩ := List.map_eq_singleton_iff.mp (List.cons.inj hplaces).1
  obtain ⟨hvalue', hplace⟩ := ht
  have hat : e.HasValueAt noteText 14 := by
    refine ⟨⟨t, by simp [hvalue'], ?_⟩, '#', by decide +kernel, by decide⟩
    simp only [Prod.mk.injEq] at hplace
    omega
  have hline : lineAt noteText 14 = 2 := by decide +kernel
  have hnote : lineOf noteText 2 = "  # note".toList := by decide +kernel
  refine ⟨value, ranges, e, es, hload, hvalue, hentries, hat, hline, hnote, ?_⟩
  rw [hranges]
  rfl

end ApiSuite.Yaml
