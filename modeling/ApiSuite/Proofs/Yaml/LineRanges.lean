import ApiSuite.Proofs.Yaml.Ranges

/-!
# Well-formed ranges

The ranges of the keys of a document are found one by one, each from the line of its key and that of
the next. Given that the keys' lines increase and lie within the text, this file shows how the
ranges stand to one another and to the text (`ApiSuite.Yaml.AreWellFormed`): each begins at its key
and ends before the next one, so they neither meet nor change places, and between two of them there
are only lines that are blank or hold a comment.

A range is a matter of its key's line and of the next key's line only
(`ApiSuite.Yaml.IsTight`), and of the keys that have one name the last one counts. So all there is
to say of several ranges follows from where the last keys of their names stand among the keys
(`ApiSuite.Yaml.IsLast.order`, `ApiSuite.Yaml.IsLast.ends_before`).
-/

namespace ApiSuite.Yaml

/-! ### Blank lines and comments -/

/-- A line that is blank, or holds a comment after blanks. -/
def IsBlankOrComment (line : List Char) : Prop :=
  ∃ blanks rest, line = blanks ++ rest ∧ (∀ c ∈ blanks, Text.isBlank c = true) ∧
    (rest = [] ∨ ∃ note, rest = '#' :: note)

theorem trimEnd_cons {c : Char} (hc : Text.isBlank c = false) (cs : List Char) :
    Text.trimEnd (c :: cs) = c :: Text.trimEnd cs := by
  have hone : Text.trimEnd [c] = [c] := by simp [Text.trimEnd, hc]
  have happend := @Text.trimEnd_append [c] cs
  rw [List.singleton_append, hone] at happend
  rw [happend]
  split
  · rename_i hnil
    rw [hnil]
  · rfl

/-- **The lines that are dropped** from the end of a range are blank or hold a comment. -/
theorem isIdle_iff {line : List Char} : isIdle line = true ↔ IsBlankOrComment line := by
  have hsplit := List.takeWhile_append_dropWhile (p := Text.isBlank) (l := line)
  have hidle : isIdle line = true ↔ line.dropWhile Text.isBlank = [] ∨
      (line.dropWhile Text.isBlank).head? = some '#' := by
    unfold isIdle
    rw [Text.trim, Text.trimStart]
    cases hdrop : line.dropWhile Text.isBlank with
    | nil => simp [Text.trimEnd]
    | cons c cs =>
      have hc : Text.isBlank c = false := by
        have hhead := List.head?_dropWhile_not Text.isBlank line
        rw [hdrop] at hhead
        simpa using hhead
      rw [trimEnd_cons hc]
      simp
  rw [hidle]
  constructor
  · intro h
    refine ⟨line.takeWhile Text.isBlank, _, hsplit.symm,
      fun c hc => (List.mem_takeWhile_imp hc), h.imp_right fun hhead => ?_⟩
    exact ⟨_, (List.eq_cons_of_mem_head? hhead)⟩
  · rintro ⟨blanks, rest, rfl, hblanks, hrest⟩
    rw [List.dropWhile_append_of_pos hblanks]
    rcases hrest with rfl | ⟨note, rfl⟩
    · exact .inl rfl
    · exact .inr (by simp [show Text.isBlank '#' = false from rfl])

/-! ### One range -/

/-- A range that ends before the next key, given the line of that key, and at no line that is blank
or holds a comment unless that is its first. -/
structure IsTight (s : String) (next : Option Nat) (range : LineRange) : Prop where
  ordered : range.first ≤ range.last
  inText : range.last < (splitLines s.toList).length
  beforeNext : ∀ n, next = some n → range.last < n
  busy : range.last ≠ range.first → ¬IsBlankOrComment (lineOf s range.last)
  idle : ∀ i, range.last < i → (∀ n, next = some n → i < n) → IsBlankOrComment (lineOf s i)

section Range

variable {s : String} {lines : List (List Char)} {first more : Nat} {next : Option Nat}

/-- Backing off comes to a line between its two bounds, and to the lower one or a busy line. -/
theorem lastBusy_bounds (lines : List (List Char)) (first more : Nat) :
    first ≤ lastBusy lines first more ∧ lastBusy lines first more ≤ first + more ∧
      (lastBusy lines first more ≠ first →
        isIdle ((lines[lastBusy lines first more]?).getD []) = false) := by
  induction more with
  | zero => exact ⟨Nat.le_refl _, Nat.le_refl _, fun h => absurd rfl h⟩
  | succ more ih =>
    rw [lastBusy]
    split
    · exact ⟨ih.1, Nat.le_succ_of_le ih.2.1, ih.2.2⟩
    · rename_i hbusy
      exact ⟨by omega, Nat.le_refl _, fun _ => by simpa using hbusy⟩

/-- How far a range is backed off from. -/
theorem rangeOf_eq (lines : List (List Char)) (first : Nat) (next : Option Nat) :
    ∃ more, rangeOf lines first next = ⟨first, lastBusy lines first more⟩ ∧
      ∀ n, next = some n → more = n - 1 - first := by
  cases next with
  | none => exact ⟨_, rfl, fun n hn => by cases hn⟩
  | some n => exact ⟨_, rfl, fun n hn => by cases hn; rfl⟩

/-- **A range is tight** if its key stands in the text and before the next key. -/
theorem rangeOf_isTight (hfirst : first < (splitLines s.toList).length)
    (hnext : ∀ n, next = some n → first < n) :
    IsTight s next (rangeOf (splitLines s.toList) first next) := by
  have hreached {i : Nat} (hi : first ≤ i) (hin : ∀ n, next = some n → i < n)
      (hbusy : isIdle (lineOf s i) = false) :
      i ≤ (rangeOf (splitLines s.toList) first next).last :=
    (le_last_iff hi hin).mpr (.inr ⟨i, Nat.le_refl _, hin, hbusy⟩)
  obtain ⟨more, hrange, hmore⟩ := rangeOf_eq (splitLines s.toList) first next
  obtain ⟨hleast, hmost, hbusy⟩ := lastBusy_bounds (splitLines s.toList) first more
  rw [hrange] at hreached ⊢
  exact {
    ordered := hleast
    inText := by
      by_cases hlast : lastBusy (splitLines s.toList) first more = first
      · exact hlast.symm ▸ hfirst
      · exact lt_length_of_busy (hbusy hlast)
    beforeNext := by
      intro n hn
      have hless := hnext n hn
      have hlimit := hmore n hn
      dsimp only
      omega
    busy := fun hlast hidle => by
      have hidle' := isIdle_iff.mpr hidle
      cases hidle'.symm.trans (hbusy hlast)
    idle := by
      intro i hi hin
      rw [← isIdle_iff]
      by_contra hbusy
      have hback := hreached (by dsimp only at hi; omega) hin (Bool.eq_false_iff.mpr hbusy)
      omega }

end Range

/-! ### Ranges of several keys -/

/-- The last key of a name among others, by its line and the keys after it. -/
structure IsLast (keys : List (String × Nat)) (name : String) (first : Nat)
    (after : List (String × Nat)) : Prop where
  among : ∃ before, keys = before ++ (name, first) :: after
  last : ∀ key ∈ after, key.1 ≠ name

/-- Ranges of keys that stand in a text as they should. -/
structure AreWellFormed (s : String) (keys : List (String × Nat))
    (ranges : List (String × LineRange)) : Prop where
  /-- Every key has a range. -/
  all : ∀ key ∈ keys, (ranges.lookup key.1).isSome
  /-- A range is that of the last key of its name, and tight. -/
  each : ∀ name range, ranges.lookup name = some range → ∃ after,
    IsLast keys name range.first after ∧ IsTight s (after.head?.map (·.2)) range
  /-- Ranges of two names have no line in common, and stand in the order of their keys. -/
  apart : ∀ name range name' range', ranges.lookup name = some range →
    ranges.lookup name' = some range' → name ≠ name' →
    range.first < range'.first ∧ range.last < range'.first ∨
      range'.first < range.first ∧ range'.last < range.first
  /-- If no two keys have one name, the ranges are listed in the order of the keys. -/
  listed : (keys.map (·.1)).Nodup → ranges.map (fun r => (r.1, r.2.first)) = keys

section Keys

variable {s : String} {lines : List (List Char)} {keys after after' : List (String × Nat)}
  {found : List (String × LineRange)} {name name' : String} {first first' : Nat}
  {range : LineRange}

theorem exists_isLast (h : name ∈ keys.map (·.1)) :
    ∃ first after, IsLast keys name first after := by
  induction keys with
  | nil => cases h
  | cons key keys ih =>
    by_cases hlater : name ∈ keys.map (·.1)
    · obtain ⟨first, after, ⟨before, rfl⟩, hlast⟩ := ih hlater
      exact ⟨first, after, ⟨key :: before, rfl⟩, hlast⟩
    · have hkey : name = key.1 := (List.mem_cons.mp h).resolve_right hlater
      refine ⟨key.2, keys, ⟨[], by rw [hkey]; rfl⟩, fun key' hkey' heq => hlater ?_⟩
      exact heq ▸ List.mem_map_of_mem hkey'

/-- The range of a name is that of its last key. -/
theorem IsLast.lookup (h : IsLast keys name first after) : (lineRanges s keys).lookup name =
    some (rangeOf (splitLines s.toList) first (after.head?.map (·.2))) := by
  obtain ⟨before, rfl⟩ := h.among
  exact lookup_lineRanges h.last

/-- Only keys have ranges. -/
theorem mem_of_lookup (h : (lineRanges s keys).lookup name = some range) :
    name ∈ keys.map (·.1) := by
  by_contra hnone
  have hother : ∀ key ∈ keys, key.1 ≠ name := by
    rintro key hkey rfl
    exact hnone (List.mem_map_of_mem hkey)
  rw [lineRanges, lookup_rangesFrom hother] at h
  cases h

/-- **Of two last keys** one stands after the other. -/
theorem IsLast.order (h : IsLast keys name first after) (h' : IsLast keys name' first' after')
    (hne : name ≠ name') : (name', first') ∈ after ∨ (name, first) ∈ after' := by
  obtain ⟨before, rfl⟩ := h.among
  obtain ⟨before', hbefore⟩ := h'.among
  rcases List.append_eq_append_iff.mp hbefore with ⟨more, -, hmore⟩ | ⟨more, -, hmore⟩
  · rcases List.cons_eq_append_iff.mp hmore with ⟨-, heq⟩ | ⟨more, -, hafter⟩
    · exact absurd (Prod.mk.inj (List.cons.inj heq).1).1.symm hne
    · exact .inl (by simp [hafter])
  · rcases List.cons_eq_append_iff.mp hmore with ⟨-, heq⟩ | ⟨more, -, hafter⟩
    · exact absurd (Prod.mk.inj (List.cons.inj heq).1).1 hne
    · exact .inr (by simp [hafter])

variable (hlines : keys.Pairwise fun key key' => key.2 < key'.2)

include hlines

/-- A tight range ends before the line of every later key. -/
theorem IsLast.ends_before (h : IsLast keys name first after)
    (hrange : IsTight s (after.head?.map (·.2)) range) (hlater : (name', first') ∈ after) :
    first < first' ∧ range.last < first' := by
  obtain ⟨before, rfl⟩ := h.among
  have hafter := (List.pairwise_append.mp hlines).2.1
  obtain ⟨hfirst, hafter⟩ := List.pairwise_cons.mp hafter
  refine ⟨hfirst _ hlater, ?_⟩
  cases after with
  | nil => cases hlater
  | cons key after =>
    have hnext := hrange.beforeNext key.2 rfl
    rcases List.mem_cons.mp hlater with rfl | hlater
    · exact hnext
    · exact Nat.lt_trans hnext ((List.pairwise_cons.mp hafter).1 _ hlater)

end Keys

/-- Ranges of further names are put after those that are found. -/
theorem rangesFrom_listed {lines : List (List Char)} {found : List (String × LineRange)}
    {keys : List (String × Nat)} (hnames : (found.map (·.1) ++ keys.map (·.1)).Nodup) :
    (rangesFrom lines found keys).map (fun r => (r.1, r.2.first)) =
      found.map (fun r => (r.1, r.2.first)) ++ keys := by
  induction keys generalizing found with
  | nil => exact (List.append_nil _).symm
  | cons key keys ih =>
    rw [List.map_cons] at hnames
    have hkey : key.1 ∉ found.map (·.1) := fun hmem =>
      (List.nodup_append.mp hnames).2.2 _ hmem _ List.mem_cons_self rfl
    have hinsert := Schema.insertField_of_not_mem
      (a := rangeOf lines key.2 (keys.head?.map (·.2))) hkey
    rw [rangesFrom, hinsert, ih]
    · simp [rangeOf]
    · simpa using hnames

/-- Keys whose lines increase and lie within the text have well-formed ranges. -/
theorem AreWellFormed.of_increasing {s : String} {keys : List (String × Nat)}
    (hlines : keys.Pairwise fun key key' => key.2 < key'.2)
    (hend : ∀ key ∈ keys, key.2 < (splitLines s.toList).length) :
    AreWellFormed s keys (lineRanges s keys) := by
  have heach (name : String) (range : LineRange)
      (hrange : (lineRanges s keys).lookup name = some range) :
      ∃ after, IsLast keys name range.first after ∧
        IsTight s (after.head?.map (·.2)) range := by
    obtain ⟨first, after, hlast⟩ := exists_isLast (mem_of_lookup hrange)
    cases hrange.symm.trans hlast.lookup
    refine ⟨after, hlast, rangeOf_isTight ?_ ?_⟩
    · obtain ⟨before, rfl⟩ := hlast.among
      exact hend (name, first) (by simp)
    · intro n hn
      obtain ⟨key, hkey, rfl⟩ := Option.map_eq_some_iff.mp hn
      obtain ⟨before, rfl⟩ := hlast.among
      have hafter := (List.pairwise_append.mp hlines).2.1
      exact (List.pairwise_cons.mp hafter).1 key (List.mem_of_mem_head? hkey)
  exact {
    all := fun key hkey => by
      obtain ⟨first, after, hlast⟩ := exists_isLast (List.mem_map_of_mem hkey)
      rw [hlast.lookup]
      rfl
    each := heach
    apart := by
      intro name range name' range' hrange hrange' hne
      obtain ⟨after, hlast, htight⟩ := heach name range hrange
      obtain ⟨after', hlast', htight'⟩ := heach name' range' hrange'
      rcases hlast.order hlast' hne with hlater | hlater
      · exact .inl (hlast.ends_before hlines htight hlater)
      · exact .inr (hlast'.ends_before hlines htight' hlater)
    listed := fun hnames => rangesFrom_listed (by simpa using hnames) }

/-- **The ranges of keys are well-formed** whatever the text and the keys, if the keys' lines
increase and lie within the text; and so are those of a document that is read with lines, if this
holds of the keys of its outermost mapping as they are reported. -/
theorem lineRanges_wellFormed (s : String) (keys : List (String × Nat))
    (hlines : keys.Pairwise fun key key' => key.2 < key'.2)
    (hend : ∀ key ∈ keys, key.2 < (splitLines s.toList).length) :
    AreWellFormed s keys (lineRanges s keys) ∧
      ∀ document value ranges root, Document.loadYamlWithLines document s = .ok (value, ranges) →
        value.isObject = true → Node.ofString s = .ok root → keyLines root = keys →
        AreWellFormed s keys ranges := by
  have hwell := AreWellFormed.of_increasing hlines hend
  refine ⟨hwell, fun document value ranges root hload hobject hroot hkeys => ?_⟩
  obtain ⟨n, -, hroot', -, -, rfl⟩ := loaded_object hload hobject
  cases hroot.symm.trans hroot'
  exact hkeys ▸ hwell

/-- A document with a comment and blank lines between its keys, and a carriage return before each
line feed. -/
def spacedText : String := "a: 1\r\n\r\n# note\r\nb:\r\n  - 2\r\n\r\n  # end\r\n"

/-- Neither the comment nor the blank lines are in a range. -/
theorem lineRanges_wellFormed_spacedText :
    ([("a", 0), ("b", 3)] : List (String × Nat)).Pairwise (fun key key' => key.2 < key'.2) ∧
      (∀ key ∈ ([("a", 0), ("b", 3)] : List (String × Nat)),
        key.2 < (splitLines spacedText.toList).length) ∧
      ∃ value ranges root, Document.loadYamlWithLines none spacedText = .ok (value, ranges) ∧
        value.isObject = true ∧ Node.ofString spacedText = .ok root ∧
        keyLines root = [("a", 0), ("b", 3)] ∧
        AreWellFormed spacedText [("a", 0), ("b", 3)] ranges ∧
        ranges = [("a", ⟨0, 0⟩), ("b", ⟨3, 4⟩)] := by
  have hlines : ([("a", 0), ("b", 3)] : List (String × Nat)).Pairwise
      fun key key' => key.2 < key'.2 := by decide
  have hend : ∀ key ∈ ([("a", 0), ("b", 3)] : List (String × Nat)),
      key.2 < (splitLines spacedText.toList).length := by decide +kernel
  obtain ⟨⟨value, ranges⟩, hload, hvalue⟩ := exists_eq_ok
    (r := Document.loadYamlWithLines none spacedText) (f := fun p => (p.1.isObject, p.2))
    (b := (true, [("a", ⟨0, 0⟩), ("b", ⟨3, 4⟩)])) (by decide +kernel)
  obtain ⟨root, hroot, hkeys⟩ := exists_eq_ok (r := Node.ofString spacedText) (f := keyLines)
    (b := [("a", 0), ("b", 3)]) (by decide +kernel)
  obtain ⟨hobject, hranges⟩ := Prod.mk.inj hvalue
  have hwell := (lineRanges_wellFormed spacedText [("a", 0), ("b", 3)] hlines hend).2 none value
    ranges root hload hobject hroot hkeys
  exact ⟨hlines, hend, value, ranges, root, hload, hobject, hroot, hkeys, hwell, hranges⟩

end ApiSuite.Yaml
