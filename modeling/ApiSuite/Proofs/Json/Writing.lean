import ApiSuite.Json.Printer

/-!
# Which values have a JSON text

A value is written in the compact style exactly if JSON has a form for all of its parts
(`ApiSuite.Json.write_compact_ok_iff`): there is no form for octets, days, times and sets, none
for an object with a key other than a text, a number, a truth value or null, and none for an
integer past the numeral limit. One part without a form is enough to leave the whole without a
text. What has a compact text has an indented one, too (`ApiSuite.Json.exists_write`).
-/

namespace ApiSuite

/-- A value can be the key of a JSON object. -/
inductive Value.IsJsonKey : Value → Prop
  | null : IsJsonKey .null
  | bool (b : Bool) : IsJsonKey (.bool b)
  | int {n : Int} : isHuge n = false → IsJsonKey (.int n)
  | float (x : Float) : IsJsonKey (.float x)
  | str (s : String) : IsJsonKey (.str s)

/-- JSON has a form for a value and for all of its parts. -/
inductive Value.HasJson : Value → Prop
  | null : HasJson .null
  | bool (b : Bool) : HasJson (.bool b)
  | int {n : Int} : isHuge n = false → HasJson (.int n)
  | float (x : Float) : HasJson (.float x)
  | str (s : String) : HasJson (.str s)
  | list {items : List Value} : (∀ v ∈ items, HasJson v) → HasJson (.list items)
  | tuple {items : List Value} : (∀ v ∈ items, HasJson v) → HasJson (.tuple items)
  | object {entries : List (Value × Value)} : (∀ k v, (k, v) ∈ entries → IsJsonKey k) →
      (∀ k v, (k, v) ∈ entries → HasJson v) → HasJson (.object entries)

namespace Json

open Value

theorem integer_ok_iff {n : Int} : (∃ cs, integer n = .ok cs) ↔ isHuge n = false := by
  unfold integer
  cases isHuge n <;> simp

theorem keyText_compact_ok_iff {k : Value} :
    (∃ cs, keyText .compact k = .ok cs) ↔ IsJsonKey k := by
  cases k with
  | null => exact ⟨fun _ => .null, fun _ => ⟨_, rfl⟩⟩
  | bool b => exact ⟨fun _ => .bool b, fun _ => ⟨_, rfl⟩⟩
  | float x => exact ⟨fun _ => .float x, fun _ => ⟨_, rfl⟩⟩
  | str s => exact ⟨fun _ => .str s, fun _ => ⟨_, rfl⟩⟩
  | int n =>
    constructor
    · rintro ⟨cs, hcs⟩
      rw [keyText] at hcs
      cases hn : integer n with
      | ok ds => exact .int (integer_ok_iff.mp ⟨ds, hn⟩)
      | error e =>
        rw [hn] at hcs
        cases hcs
    · rintro ⟨⟩
      obtain ⟨ds, hds⟩ := integer_ok_iff.mpr ‹isHuge n = false›
      exact ⟨_, by rw [keyText, hds]; rfl⟩
  | bytes | date | datetime | list | tuple | set | object =>
    constructor
    · rintro ⟨cs, hcs⟩
      cases hcs
    · rintro ⟨⟩

/-- A computation that goes on with the outcome of another ends well exactly if both do. -/
theorem map_ok_iff {ε α β : Type} {x : Except ε α} {f : α → β} :
    (∃ b, x.map f = .ok b) ↔ ∃ a, x = .ok a := by
  cases x <;> simp [Except.map]

/-! One recursion writes values, lists of items and lists of entries, and so the statements about
the three are proved together. -/

mutual

/-- **A value is written exactly if JSON has a form for it.** -/
theorem write_compact_ok_iff (depth : Nat) (v : Value) :
    (∃ cs, write .compact depth v = .ok cs) ↔ HasJson v := by
  cases v with
  | null => exact ⟨fun _ => .null, fun _ => ⟨_, rfl⟩⟩
  | bool b => exact ⟨fun _ => .bool b, fun _ => ⟨_, rfl⟩⟩
  | float x => exact ⟨fun _ => .float x, fun _ => ⟨_, rfl⟩⟩
  | str s => exact ⟨fun _ => .str s, fun _ => ⟨_, rfl⟩⟩
  | int n =>
    rw [write, integer_ok_iff]
    exact ⟨.int, fun h => by cases h; assumption⟩
  | list items =>
    rw [write, map_ok_iff, writeItems_compact_ok_iff]
    exact ⟨.list, fun h => by cases h; assumption⟩
  | tuple items =>
    rw [write, map_ok_iff, writeItems_compact_ok_iff]
    exact ⟨.tuple, fun h => by cases h; assumption⟩
  | object entries =>
    rw [write, map_ok_iff, writeEntries_compact_ok_iff]
    constructor
    · exact fun h => .object (fun k v hkv => (h k v hkv).1) fun k v hkv => (h k v hkv).2
    · rintro (_ | _ | _ | _ | _ | _ | _ | ⟨hkeys, hvalues⟩) k v hkv
      exact ⟨hkeys k v hkv, hvalues k v hkv⟩
  | bytes | date | datetime | set =>
    constructor
    · rintro ⟨cs, hcs⟩
      cases hcs
    · rintro ⟨⟩

theorem writeItems_compact_ok_iff (depth : Nat) (items : List Value) :
    (∃ parts, writeItems .compact depth items = .ok parts) ↔ ∀ v ∈ items, HasJson v := by
  cases items with
  | nil => simp [writeItems]
  | cons v vs =>
    have hhead := write_compact_ok_iff depth v
    have htail := writeItems_compact_ok_iff depth vs
    rw [List.forall_mem_cons, ← hhead, ← htail, writeItems]
    cases write .compact depth v with
    | error e => simp [bind, Except.bind]
    | ok part => cases writeItems .compact depth vs <;> simp [bind, Except.bind, pure, Except.pure]

theorem writeEntries_compact_ok_iff (depth : Nat) (entries : List (Value × Value)) :
    (∃ parts, writeEntries .compact depth entries = .ok parts) ↔
      ∀ k v, (k, v) ∈ entries → IsJsonKey k ∧ HasJson v := by
  cases entries with
  | nil => simp [writeEntries]
  | cons entry rest =>
    obtain ⟨k, v⟩ := entry
    have hkey := keyText_compact_ok_iff (k := k)
    have hvalue := write_compact_ok_iff depth v
    have htail := writeEntries_compact_ok_iff depth rest
    have hcons : (∀ k' v', (k', v') ∈ (k, v) :: rest → IsJsonKey k' ∧ HasJson v') ↔
        (IsJsonKey k ∧ HasJson v) ∧ ∀ k' v', (k', v') ∈ rest → IsJsonKey k' ∧ HasJson v' := by
      constructor
      · exact fun h => ⟨h k v List.mem_cons_self, fun k' v' h' => h k' v' (.tail _ h')⟩
      · rintro ⟨hhead, hrest⟩ k' v' h'
        cases h' with
        | head => exact hhead
        | tail _ h' => exact hrest k' v' h'
    rw [hcons, ← hkey, ← hvalue, ← htail, writeEntries]
    cases keyText .compact k with
    | error e => simp [bind, Except.bind]
    | ok key =>
      cases write .compact depth v with
      | error e => simp [bind, Except.bind]
      | ok part =>
        cases writeEntries .compact depth rest <;> simp [bind, Except.bind, pure, Except.pure]

end

theorem print_compact_ok_iff {v : Value} : (∃ s, print .compact v = .ok s) ↔ HasJson v :=
  map_ok_iff.trans (write_compact_ok_iff 0 v)

/-! ### Either style

What JSON has a form for is written in the indented style as well. The converse does not hold there:
a value without a form is written as its display text. -/

theorem exists_keyText (style : Style) {k : Value} (h : IsJsonKey k) :
    ∃ cs, keyText style k = .ok cs := by
  cases h with
  | null | bool | float | str => exact ⟨_, rfl⟩
  | int hsmall =>
    rw [keyText, map_ok_iff]
    exact integer_ok_iff.mpr hsmall

mutual

/-- **What JSON has a form for has a text**, in either style and at every depth. -/
theorem exists_write (style : Style) (depth : Nat) (v : Value) (h : HasJson v) :
    ∃ cs, write style depth v = .ok cs := by
  cases v with
  | null | bool | float | str => exact ⟨_, rfl⟩
  | int n =>
    rcases h with _ | _ | hsmall
    exact integer_ok_iff.mpr hsmall
  | list items =>
    rcases h with _ | _ | _ | _ | _ | hitems
    rw [write, map_ok_iff]
    exact exists_writeItems style (depth + 1) items hitems
  | tuple items =>
    rcases h with _ | _ | _ | _ | _ | _ | hitems
    rw [write, map_ok_iff]
    exact exists_writeItems style (depth + 1) items hitems
  | object entries =>
    rcases h with _ | _ | _ | _ | _ | _ | _ | ⟨hkeys, hvalues⟩
    rw [write, map_ok_iff]
    exact exists_writeEntries style (depth + 1) entries hkeys hvalues
  | bytes | date | datetime | set => cases h

theorem exists_writeItems (style : Style) (depth : Nat) (items : List Value)
    (h : ∀ v ∈ items, HasJson v) : ∃ parts, writeItems style depth items = .ok parts := by
  cases items with
  | nil => exact ⟨[], rfl⟩
  | cons v vs =>
    obtain ⟨hv, hvs⟩ := List.forall_mem_cons.mp h
    obtain ⟨part, hpart⟩ := exists_write style depth v hv
    obtain ⟨parts, hparts⟩ := exists_writeItems style depth vs hvs
    exact ⟨part :: parts, by rw [writeItems, hpart, hparts]; rfl⟩

theorem exists_writeEntries (style : Style) (depth : Nat) (entries : List (Value × Value))
    (hkeys : ∀ k v, (k, v) ∈ entries → IsJsonKey k)
    (hvalues : ∀ k v, (k, v) ∈ entries → HasJson v) :
    ∃ parts, writeEntries style depth entries = .ok parts := by
  cases entries with
  | nil => exact ⟨[], rfl⟩
  | cons entry rest =>
    obtain ⟨k, v⟩ := entry
    obtain ⟨key, hkey⟩ := exists_keyText style (hkeys k v List.mem_cons_self)
    obtain ⟨part, hpart⟩ := exists_write style depth v (hvalues k v List.mem_cons_self)
    obtain ⟨parts, hparts⟩ := exists_writeEntries style depth rest
      (fun k' v' hmem => hkeys k' v' (.tail _ hmem)) fun k' v' hmem => hvalues k' v' (.tail _ hmem)
    exact ⟨_, by rw [writeEntries, hkey, hpart, hparts]; rfl⟩

end

theorem exists_print (style : Style) {v : Value} (h : HasJson v) :
    ∃ s, print style v = .ok s :=
  map_ok_iff.mpr (exists_write style 0 v h)

end Json

end ApiSuite
