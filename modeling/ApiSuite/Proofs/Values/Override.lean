import ApiSuite.Proofs.Values.Keys
import ApiSuite.Values.Merge

/-!
# What an object overrides

An object is put over another path by path. A path of keys leads through objects
(`ApiSuite.Value.under`), and what the upper object has at the end of one is there whole in the
merge, unless both have an object there: then their merge is. What the upper object lacks, in an
object that both have, is as it was in the lower one. At each such place the keys are those of the
lower object, in their order, and then the new ones of the upper, in theirs. This is
`ApiSuite.Value.IsOverride`.

Merging a second time changes nothing, and nor does merging an object with itself
(`ApiSuite.Value.merge_overrides`). Both come from one step, that what is there already can be put
in again, which is taken for the entries one after another: what they come to has been worked out
before, from the values of the same keys, and so by induction on the object that is put over.

All of this asks that the objects have one entry a key, down to the last object that a path leads to
(`ApiSuite.Value.WellKeyed`).
-/

namespace ApiSuite.Value

variable {k key v : Value} {es base : List (Value × Value)}

/-! ### Entries under scalar keys -/

/-- The keys of entries are scalars. -/
def ScalarKeys (es : List (Value × Value)) : Prop := ∀ e ∈ es, e.1.IsScalar

section Entries

variable {l : Value}

/-- What is the same as a scalar can stand for it. -/
theorem same_congr (hl : l.IsScalar) (hk : k.IsScalar) (h : same l k) (key : Value) :
    same l key = same k key := by
  rw [Bool.eq_iff_iff, same_iff hl, same_iff hk, (same_iff hl).mp h]

theorem same_comm (hk : k.IsScalar) (hl : l.IsScalar) : same k l = same l k := by
  rw [Bool.eq_iff_iff, same_iff hk, same_iff hl, eq_comm]

theorem IsScalar.of_same (hl : l.IsScalar) (h : same l k) : k.IsScalar := by
  rw [same_iff hl] at h
  exact fun hk => hl (h.trans hk)

theorem same_self (hk : k.IsScalar) : same k k := (same_iff hk).mpr rfl

theorem find?_cons (key k v : Value) (es : List (Value × Value)) :
    find? key ((k, v) :: es) = if same k key then some v else find? key es := by
  by_cases h : same k key <;> simp [find?, h]

theorem find?_congr (hes : ScalarKeys es) (hl : l.IsScalar) (hk : k.IsScalar) (h : same l k) :
    find? l es = find? k es := by
  induction es with
  | nil => rfl
  | cons e es ih =>
    obtain ⟨m, w⟩ := e
    obtain ⟨hm, hes⟩ := List.forall_mem_cons.mp hes
    rw [find?_cons, find?_cons, ih hes, same_comm hm hl, same_congr hl hk h, same_comm hk hm]

theorem insert_cons_of_same (h : same l k) (w : Value) :
    insert k v ((l, w) :: es) = (l, v) :: es := by
  rw [insert, if_pos h]

theorem insert_cons_of_not_same (h : ¬same l k) (w : Value) :
    insert k v ((l, w) :: es) = (l, w) :: insert k v es := by
  rw [insert, if_neg h]

theorem ScalarKeys.insert (hes : ScalarKeys es) (hk : k.IsScalar) (v : Value) :
    ScalarKeys (insert k v es) := by
  induction es with
  | nil => exact List.forall_mem_singleton.mpr hk
  | cons e es ih =>
    obtain ⟨l, w⟩ := e
    obtain ⟨hl, hes⟩ := List.forall_mem_cons.mp hes
    by_cases h : same l k
    · rw [insert_cons_of_same h]
      exact List.forall_mem_cons.mpr ⟨hl, hes⟩
    · rw [insert_cons_of_not_same h]
      exact List.forall_mem_cons.mpr ⟨hl, ih hes⟩

/-- **What is put in under a key** is found under that key, and under no other. -/
theorem find?_insert (hes : ScalarKeys es) (hk : k.IsScalar) :
    find? key (insert k v es) = if same k key then some v else find? key es := by
  induction es with
  | nil => rw [insert, find?_cons]
  | cons e es ih =>
    obtain ⟨l, w⟩ := e
    obtain ⟨hl, hes⟩ := List.forall_mem_cons.mp hes
    by_cases hlk : same l k
    · rw [insert_cons_of_same hlk, find?_cons, find?_cons, same_congr hl hk hlk]
      split <;> rfl
    · rw [insert_cons_of_not_same hlk, find?_cons, find?_cons, ih hes]
      by_cases hkey : same l key
      · -- the key at hand is this one, so it is not the one that goes in
        have hnot : ¬same k key := by
          rw [same_iff hl] at hkey hlk
          rw [same_iff hk, ← hkey]
          exact fun h => hlk h.symm
        rw [if_pos hkey, if_neg hnot, if_pos hkey]
      · rw [if_neg hkey, if_neg hkey]

/-- **What is there already can be put in again.** -/
theorem insert_eq_self (h : find? k es = some v) : insert k v es = es := by
  induction es with
  | nil => cases h
  | cons e es ih =>
    obtain ⟨l, w⟩ := e
    rw [find?_cons] at h
    by_cases hlk : same l k
    · rw [if_pos hlk] at h
      obtain rfl := Option.some.inj h
      exact insert_cons_of_same hlk w
    · rw [if_neg hlk] at h
      rw [insert_cons_of_not_same hlk, ih h]

/-- A new key comes last. -/
theorem insert_of_find?_eq_none (h : find? k es = none) : insert k v es = es ++ [(k, v)] := by
  induction es with
  | nil => rfl
  | cons e es ih =>
    obtain ⟨l, w⟩ := e
    rw [find?_cons] at h
    by_cases hlk : same l k
    · rw [if_pos hlk] at h
      cases h
    · rw [if_neg hlk] at h
      rw [insert_cons_of_not_same hlk, ih h, List.cons_append]

/-- A key that is there keeps its place. -/
theorem keys_insert_of_find?_eq_some {w : Value} (h : find? k es = some w) :
    (insert k v es).map Prod.fst = es.map Prod.fst := by
  induction es with
  | nil => cases h
  | cons e es ih =>
    obtain ⟨l, u⟩ := e
    rw [find?_cons] at h
    by_cases hlk : same l k
    · rw [insert_cons_of_same hlk]
      rfl
    · rw [if_neg hlk] at h
      rw [insert_cons_of_not_same hlk, List.map_cons, ih h, List.map_cons]

end Entries

/-! ### Objects with one entry a key -/

mutual

/-- Every object that is reached through objects has scalars for keys, and no key twice. -/
def WellKeyed : Value → Prop
  | .object entries => WellKeyedEntries entries
  | _ => True

/-- The keys are scalars, none of them is found again, and the values are well-keyed. -/
def WellKeyedEntries : List (Value × Value) → Prop
  | [] => True
  | (k, v) :: es => (k.IsScalar ∧ find? k es = none) ∧ WellKeyed v ∧ WellKeyedEntries es

end

namespace WellKeyedEntries

theorem scalarKeys (h : WellKeyedEntries es) : ScalarKeys es := by
  induction es with
  | nil => exact List.forall_mem_nil _
  | cons e es ih =>
    obtain ⟨l, w⟩ := e
    exact List.forall_mem_cons.mpr ⟨h.1.1, ih h.2.2⟩

theorem of_find? (h : WellKeyedEntries es) (hv : find? key es = some v) : v.WellKeyed := by
  induction es with
  | nil => cases hv
  | cons e es ih =>
    obtain ⟨l, w⟩ := e
    rw [find?_cons] at hv
    split at hv
    · obtain rfl := Option.some.inj hv
      exact h.2.1
    · exact ih h.2.2 hv

/-- What is the same as the first key is not found among the others. -/
theorem find?_tail (h : WellKeyedEntries ((k, v) :: es)) (hkey : same k key) :
    find? key es = none := by
  rw [← find?_congr h.2.2.scalarKeys h.1.1 (h.1.1.of_same hkey) hkey]
  exact h.1.2

theorem find?_of_mem (h : WellKeyedEntries es) {e : Value × Value} (he : e ∈ es) :
    find? e.1 es = some e.2 := by
  induction es with
  | nil => cases he
  | cons f es ih =>
    obtain ⟨l, w⟩ := f
    rw [find?_cons]
    rcases List.mem_cons.mp he with rfl | he
    · rw [if_pos (same_self h.1.1)]
    · have hfound := ih h.2.2 he
      by_cases hsame : same l e.1
      · cases (h.find?_tail hsame).symm.trans hfound
      · rw [if_neg hsame, hfound]

theorem not_same (h : WellKeyedEntries ((k, v) :: es)) {e : Value × Value} (he : e ∈ es) :
    ¬same k e.1 := by
  intro hsame
  cases (h.find?_tail hsame).symm.trans (h.2.2.find?_of_mem he)

/-- **Entries that are put in one after another are well-keyed.** -/
theorem insert (h : WellKeyedEntries es) (hk : k.IsScalar) (hv : v.WellKeyed) :
    WellKeyedEntries (insert k v es) := by
  induction es with
  | nil => exact ⟨⟨hk, rfl⟩, hv, trivial⟩
  | cons e es ih =>
    obtain ⟨l, w⟩ := e
    by_cases hlk : same l k
    · rw [insert_cons_of_same hlk]
      exact ⟨h.1, hv, h.2.2⟩
    · rw [insert_cons_of_not_same hlk]
      refine ⟨⟨h.1.1, ?_⟩, h.2.1, ih h.2.2⟩
      rw [find?_insert h.2.2.scalarKeys hk, same_comm hk h.1.1, if_neg hlk, h.1.2]

end WellKeyedEntries

/-! ### What a merge has under a key -/

/-- **What a merge has under a key** is what the lower object has there, with what the upper one has
there over it. -/
theorem find?_merge (hbase : ScalarKeys base) (hes : WellKeyedEntries es) :
    find? key (merge base es) =
      match find? key es with
      | none => find? key base
      | some v => some (override (find? key base) v) := by
  induction es generalizing base with
  | nil => rfl
  | cons e es ih =>
    obtain ⟨l, w⟩ := e
    have hl := hes.1.1
    rw [merge, ih (hbase.insert hl _) hes.2.2, find?_cons, find?_insert hbase hl]
    by_cases h : same l key
    · -- a key is among the entries once, so that what is put in under it stays as it is
      rw [hes.find?_tail h, if_pos h, if_pos h, find?_congr hbase hl (hl.of_same h) h]
    · rw [if_neg h, if_neg h]

theorem find?_merge_of_none (hbase : ScalarKeys base) (hes : WellKeyedEntries es)
    (h : find? key es = none) : find? key (merge base es) = find? key base := by
  rw [find?_merge hbase hes, h]

theorem find?_merge_of_some (hbase : ScalarKeys base) (hes : WellKeyedEntries es)
    (h : find? key es = some v) :
    find? key (merge base es) = some (override (find? key base) v) := by
  rw [find?_merge hbase hes, h]

/-- **The keys of a merge** are those of the lower object, and then the new ones of the upper. -/
theorem keys_merge (hbase : ScalarKeys base) (hes : WellKeyedEntries es) :
    (merge base es).map Prod.fst =
      base.map Prod.fst ++ (es.map Prod.fst).filter fun k => (find? k base).isNone := by
  induction es generalizing base with
  | nil => simp [merge]
  | cons e es ih =>
    obtain ⟨l, w⟩ := e
    have hl := hes.1.1
    -- none of the further keys is this one, and so each is as new as it was
    have hnew : ∀ k ∈ es.map Prod.fst,
        (find? k (insert l (override (find? l base) w) base)).isNone = (find? k base).isNone := by
      intro k hk
      obtain ⟨f, hf, rfl⟩ := List.mem_map.mp hk
      rw [find?_insert hbase hl, if_neg (hes.not_same hf)]
    rw [merge, ih (hbase.insert hl _) hes.2.2, List.filter_congr hnew, List.map_cons]
    cases hfound : find? l base with
    | none => simp [insert_of_find?_eq_none hfound, hfound]
    | some u => simp [keys_insert_of_find?_eq_some hfound, hfound]

mutual

theorem WellKeyed.override : ∀ {v : Value}, v.WellKeyed → ∀ {existing : Option Value},
    (∀ u, existing = some u → u.WellKeyed) → (override existing v).WellKeyed
  | .object es, h, existing, hexisting => by
    rcases override_cases existing (.object es) with hwhole | ⟨base, _, rfl, ⟨⟩, hmerge⟩
    · rwa [hwhole]
    · rw [hmerge]
      exact WellKeyedEntries.merge h (hexisting _ rfl)
  | .null, _, _, _ | .bool _, _, _, _ | .int _, _, _, _ | .float _, _, _, _ | .str _, _, _, _
  | .bytes _, _, _, _ | .date _, _, _, _ | .datetime _, _, _, _ | .list _, _, _, _
  | .tuple _, _, _, _ | .set _, _, _, _ => by simp [Value.override, WellKeyed]

/-- **A merge of well-keyed entries is well-keyed.** -/
theorem WellKeyedEntries.merge : ∀ {es : List (Value × Value)}, WellKeyedEntries es →
    ∀ {base : List (Value × Value)}, WellKeyedEntries base → WellKeyedEntries (merge base es)
  | [], _, base, hbase => by rwa [Value.merge]
  | (k, v) :: es, h, base, hbase => by
    rw [Value.merge]
    exact h.2.2.merge (hbase.insert h.1.1 (h.2.1.override fun u hu => hbase.of_find? hu))

end

/-! ### Merging again -/

/-- Entries that are there already can be merged again. -/
theorem merge_eq_self
    (h : ∀ e ∈ es, find? e.1 base = some (override (find? e.1 base) e.2)) :
    merge base es = base := by
  induction es with
  | nil => rw [merge]
  | cons e es ih =>
    obtain ⟨k, v⟩ := e
    obtain ⟨he, hes⟩ := List.forall_mem_cons.mp h
    rw [merge, insert_eq_self he, ih hes]

mutual

/-- A value over itself is that value. -/
theorem override_self : ∀ v : Value, v.WellKeyed → override (some v) v = v
  | .object es, h => by
    rw [override, merge_eq_self]
    intro e he
    rw [WellKeyedEntries.find?_of_mem h he, override_self_of_mem es h e he]
  | .null, _ | .bool _, _ | .int _, _ | .float _, _ | .str _, _ | .bytes _, _ | .date _, _
  | .datetime _, _ | .list _, _ | .tuple _, _ | .set _, _ => by rw [override]; simp

theorem override_self_of_mem : ∀ es, WellKeyedEntries es → ∀ e ∈ es,
    override (some e.2) e.2 = e.2
  | [], _, _, he => by cases he
  | (_, v) :: es, h, e, he => by
    rcases List.mem_cons.mp he with rfl | he
    · exact override_self v h.2.1
    · exact override_self_of_mem es h.2.2 e he

end

theorem merge_self (h : WellKeyedEntries es) : merge es es = es :=
  merge_eq_self fun e he => by rw [h.find?_of_mem he, override_self_of_mem es h e he]

mutual

/-- **What has been put over a value once** changes nothing when it is put over it again. -/
theorem override_override : ∀ v : Value, v.WellKeyed → ∀ existing : Option Value,
    (∀ u, existing = some u → u.WellKeyed) →
      override (some (override existing v)) v = override existing v
  | .object es, h, existing, hexisting => by
    rcases override_cases existing (.object es) with hwhole | ⟨base, _, rfl, ⟨⟩, hmerge⟩
    · rw [hwhole]
      exact override_self _ h
    · have hbase : WellKeyedEntries base := hexisting _ rfl
      rw [hmerge, override, merge_eq_self]
      intro e he
      rw [find?_merge_of_some hbase.scalarKeys h (WellKeyedEntries.find?_of_mem h he),
        override_override_of_mem es h e he _ fun u hu => hbase.of_find? hu]
  | .null, _, _, _ | .bool _, _, _, _ | .int _, _, _, _ | .float _, _, _, _ | .str _, _, _, _
  | .bytes _, _, _, _ | .date _, _, _, _ | .datetime _, _, _, _ | .list _, _, _, _
  | .tuple _, _, _, _ | .set _, _, _, _ => by simp [override]

theorem override_override_of_mem : ∀ es, WellKeyedEntries es → ∀ e ∈ es,
    ∀ existing : Option Value, (∀ u, existing = some u → u.WellKeyed) →
      override (some (override existing e.2)) e.2 = override existing e.2
  | [], _, _, he => by cases he
  | (_, v) :: es, h, e, he => by
    rcases List.mem_cons.mp he with rfl | he
    · exact override_override v h.2.1
    · exact override_override_of_mem es h.2.2 e he

end

theorem merge_merge (hbase : WellKeyedEntries base) (hes : WellKeyedEntries es) :
    merge (merge base es) es = merge base es := by
  refine merge_eq_self fun e he => ?_
  rw [find?_merge_of_some hbase.scalarKeys hes (hes.find?_of_mem he),
    override_override_of_mem es hes e he _ fun u hu => hbase.of_find? hu]

theorem override_none (v : Value) : override none v = v := by
  rcases override_cases none v with h | ⟨_, _, hnone, -⟩
  · exact h
  · cases hnone

/-- Entries that are all new are put in as they are, one after another. -/
theorem merge_of_new (hbase : ScalarKeys base) (hes : WellKeyedEntries es)
    (hnew : ∀ e ∈ es, find? e.1 base = none) : merge base es = base ++ es := by
  induction es generalizing base with
  | nil => rw [merge, List.append_nil]
  | cons e es ih =>
    obtain ⟨k, v⟩ := e
    obtain ⟨hk, hnew⟩ := List.forall_mem_cons.mp hnew
    have hrest : ∀ f ∈ es, find? f.1 (insert k v base) = none := by
      intro f hf
      rw [find?_insert hbase hes.1.1, if_neg (hes.not_same hf), hnew f hf]
    rw [merge, hk, override_none, ih (hbase.insert hes.1.1 v) hes.2.2 hrest,
      insert_of_find?_eq_none hk, List.append_assoc]
    rfl

/-! ### Path by path -/

/-- What a path of keys leads to, through objects. -/
def under : Value → List Value → Option Value
  | v, [] => some v
  | .object es, key :: path => (find? key es).bind fun v => under v path
  | _, _ :: _ => none

section Paths

variable {path rest : List Value} {bs os : List (Value × Value)}

theorem under_object (es : List (Value × Value)) (key : Value) (path : List Value) :
    under (.object es) (key :: path) = (find? key es).bind fun v => under v path := by
  rw [under]

/-- What leads to an object leads through objects. -/
theorem exists_object_of_under {u : Value} (h : under v path = some u) (hu : u.isObject) :
    ∃ es, v = .object es := by
  cases path with
  | nil =>
    obtain rfl := Option.some.inj h
    exact isObject_iff.mp hu
  | cons key path =>
    cases v with
    | object es => exact ⟨es, rfl⟩
    | _ => cases h

theorem WellKeyed.of_under {u : Value} (hv : v.WellKeyed) (h : under v path = some u) :
    u.WellKeyed := by
  induction path generalizing v with
  | nil =>
    obtain rfl := Option.some.inj h
    exact hv
  | cons key path ih =>
    cases v with
    | object es =>
      rw [under_object] at h
      obtain ⟨w, hw, hu⟩ := Option.bind_eq_some_iff.mp h
      exact ih (WellKeyedEntries.of_find? hv hw) hu
    | _ => cases h

theorem under_append (v : Value) (path rest : List Value) :
    under v (path ++ rest) = (under v path).bind fun u => under u rest := by
  induction path generalizing v with
  | nil => rfl
  | cons key path ih =>
    cases v with
    | object es =>
      rw [List.cons_append, under_object, under_object, Option.bind_assoc]
      exact congrArg _ (funext ih)
    | _ => rfl

/-- **What counts whole**: something that is no object, or that no object is under. -/
theorem under_merge_of_whole (hbase : WellKeyedEntries base) (hes : WellKeyedEntries es)
    (hv : under (.object es) path = some v)
    (hwhole : ¬v.isObject ∨ ∀ bs, under (.object base) path ≠ some (.object bs)) :
    under (.object (merge base es)) path = some v := by
  induction path generalizing base es with
  | nil =>
    obtain rfl := Option.some.inj hv
    rcases hwhole with hno | hno
    · exact absurd rfl hno
    · exact absurd rfl (hno base)
  | cons key path ih =>
    rw [under_object] at hv
    obtain ⟨w, hw, hv⟩ := Option.bind_eq_some_iff.mp hv
    rw [under_object, find?_merge_of_some hbase.scalarKeys hes hw, Option.bind_some]
    rcases override_cases (find? key base) w with ho | ⟨bs, os, hb, rfl, ho⟩
    · rw [ho, hv]
    · -- two objects: the question is the same one step further on
      rw [ho]
      refine ih (hbase.of_find? hb) (hes.of_find? hw) hv ?_
      rwa [under_object, hb] at hwhole

/-- **Where both have an object**, the merge has their merge. -/
theorem under_merge_of_objects (hbase : WellKeyedEntries base) (hes : WellKeyedEntries es)
    (hb : under (.object base) path = some (.object bs))
    (ho : under (.object es) path = some (.object os)) :
    under (.object (merge base es)) path = some (.object (merge bs os)) := by
  induction path generalizing base es with
  | nil =>
    cases hb
    cases ho
    rfl
  | cons key path ih =>
    rw [under_object] at hb ho
    obtain ⟨b, hfindb, hb⟩ := Option.bind_eq_some_iff.mp hb
    obtain ⟨o, hfindo, ho⟩ := Option.bind_eq_some_iff.mp ho
    obtain ⟨bs', rfl⟩ := exists_object_of_under hb rfl
    obtain ⟨os', rfl⟩ := exists_object_of_under ho rfl
    rw [under_object, find?_merge_of_some hbase.scalarKeys hes hfindo, hfindb, override]
    exact ih (hbase.of_find? hfindb) (hes.of_find? hfindo) hb ho

/-- One object is another with a third over it, path by path. -/
structure IsOverride (base es merged : List (Value × Value)) : Prop where
  /-- What the upper object has counts whole if it is no object, or is over none. -/
  whole : ∀ path v, under (.object es) path = some v →
    (¬v.isObject ∨ ∀ bs, under (.object base) path ≠ some (.object bs)) →
      under (.object merged) path = some v
  /-- Two objects are merged in turn, and the new keys come last. -/
  objects : ∀ path bs os, under (.object base) path = some (.object bs) →
    under (.object es) path = some (.object os) →
      under (.object merged) path = some (.object (merge bs os)) ∧
        (merge bs os).map Prod.fst =
          bs.map Prod.fst ++ (os.map Prod.fst).filter fun k => (find? k bs).isNone
  /-- What the upper object lacks in an object that both have, is as in the lower one. -/
  lacking : ∀ path key rest bs os, under (.object base) path = some (.object bs) →
    under (.object es) path = some (.object os) → find? key os = none →
      under (.object merged) (path ++ key :: rest) = under (.object base) (path ++ key :: rest)

theorem isOverride_merge (hbase : WellKeyedEntries base) (hes : WellKeyedEntries es) :
    IsOverride base es (merge base es) where
  whole _ _ hv hwhole := under_merge_of_whole hbase hes hv hwhole
  objects path bs os hb ho := by
    have hbs : WellKeyedEntries bs := WellKeyed.of_under (v := .object base) hbase hb
    have hos : WellKeyedEntries os := WellKeyed.of_under (v := .object es) hes ho
    exact ⟨under_merge_of_objects hbase hes hb ho, keys_merge hbs.scalarKeys hos⟩
  lacking path key rest bs os hb ho hnone := by
    have hbs : WellKeyedEntries bs := WellKeyed.of_under (v := .object base) hbase hb
    have hos : WellKeyedEntries os := WellKeyed.of_under (v := .object es) hes ho
    rw [under_append, under_append, under_merge_of_objects hbase hes hb ho, hb, Option.bind_some,
      Option.bind_some, under_object, under_object, find?_merge_of_none hbs.scalarKeys hos hnone]

/-- **An object is put over another path by path**, and the keys of both stay in order. Nothing put
over an object, an object over nothing, and an object over itself change nothing; and what has been
put over an object once changes nothing when it is put over it again. -/
theorem merge_overrides (hbase : WellKeyedEntries base) (hes : WellKeyedEntries es) :
    (IsOverride base es (merge base es) ∧ WellKeyedEntries (merge base es)) ∧
      merge base [] = base ∧ merge [] es = es ∧ merge base base = base ∧
      merge (merge base es) es = merge base es := by
  refine ⟨⟨isOverride_merge hbase hes, hes.merge hbase⟩, ?_, ?_, merge_self hbase,
    merge_merge hbase hes⟩
  · rw [merge]
  · rw [merge_of_new (List.forall_mem_nil _) hes fun _ _ => rfl, List.nil_append]

end Paths

/-! ### A number over a number, and a list over a list -/

/-- The object `{"a": {"x": 1, "y": 1}, "l": [1]}`. -/
def lowerEntries : List (Value × Value) :=
  [(.str "a", .object [(.str "x", .int 1), (.str "y", .int 1)]), (.str "l", .list [.int 1])]

/-- The object `{"a": {"y": 2, "z": 3}, "l": [2]}`. -/
def upperEntries : List (Value × Value) :=
  [(.str "a", .object [(.str "y", .int 2), (.str "z", .int 3)]), (.str "l", .list [.int 2])]

theorem wellKeyed_lowerEntries : WellKeyedEntries lowerEntries := by
  simp [lowerEntries, WellKeyedEntries, WellKeyed, IsScalar, key?, find?, same]

theorem wellKeyed_upperEntries : WellKeyedEntries upperEntries := by
  simp [upperEntries, WellKeyedEntries, WellKeyed, IsScalar, key?, find?, same]

/-- In the object that both have under `a`, the number under `y` is the upper one, the one under `x`
is as it was, and the new key comes last. The list is the upper one. -/
theorem merge_overrides_nested :
    WellKeyedEntries lowerEntries ∧ WellKeyedEntries upperEntries ∧
      under (.object (merge lowerEntries upperEntries)) [.str "a", .str "y"] = some (.int 2) ∧
      under (.object (merge lowerEntries upperEntries)) [.str "a", .str "x"] = some (.int 1) ∧
      under (.object (merge lowerEntries upperEntries)) [.str "l"] = some (.list [.int 2]) ∧
      merge (merge lowerEntries upperEntries) upperEntries = merge lowerEntries upperEntries := by
  obtain ⟨⟨hover, -⟩, -, -, -, hagain⟩ :=
    merge_overrides wellKeyed_lowerEntries wellKeyed_upperEntries
  have hy : under (.object upperEntries) [.str "a", .str "y"] = some (.int 2) := by
    simp [upperEntries, under, find?, same]
  have hl : under (.object upperEntries) [.str "l"] = some (.list [.int 2]) := by
    simp [upperEntries, under, find?, same]
  have hx : under (.object (merge lowerEntries upperEntries)) [.str "a", .str "x"] =
      under (.object lowerEntries) [.str "a", .str "x"] := by
    refine hover.lacking [.str "a"] (.str "x") [] [(.str "x", .int 1), (.str "y", .int 1)]
      [(.str "y", .int 2), (.str "z", .int 3)] ?_ ?_ ?_
    all_goals simp [lowerEntries, upperEntries, under, find?, same]
  refine ⟨wellKeyed_lowerEntries, wellKeyed_upperEntries, ?_, ?_, ?_, hagain⟩
  · exact hover.whole _ _ hy (.inl (by simp [isObject]))
  · rw [hx]
    simp [lowerEntries, under, find?, same]
  · exact hover.whole _ _ hl (.inl (by simp [isObject]))

end ApiSuite.Value
