import ApiSuite.Proofs.Project.Documents
import ApiSuite.Proofs.Yaml.LineRanges
import ApiSuite.Listing

/-!
# The lines of listed requests

A request file is listed with one entry for each key of its document. An entry is named for the
value that its key is read as, while a range of lines is known by the text that a key is written
with. So an entry has the range of a key that is written as the entry is named
(`ApiSuite.Yaml.IsEntryNamed`). In most documents this is the key of the entry itself
(`ApiSuite.Yaml.Node.AreSpelledOut`), and then every entry has the lines of its request. But the key
`yes` stands for a truth value, of which the name is `True`, and its entry has no lines
(`ApiSuite.Project.truth_key_has_no_lines`).

Of the keys of a document the keys of the object are those that differ from all before them
(`ApiSuite.Yaml.distinctValues`), which is what a set of them would hold.
-/

namespace ApiSuite.Yaml

/-! ### Keys and the values they are read as -/

/-- A key is a scalar, and no merge key. -/
def Node.IsScalarKey (key : Node) : Prop :=
  ∃ tag text m, key = .scalar tag text m ∧ tag ≠ .merge

/-- The value that a key of the outermost mapping is read as; the value key is a text like
others. -/
def Node.keyValue (key : Node) : Value :=
  if key.tag = .value then .str key.content else (key.built 1).value

/-- Some values without those that are the same as one before. -/
def distinctValues (values : List Value) : List Value :=
  values.foldl (fun seen v => Value.insertMember v seen) []

section Keys

variable {o : Opening} {done : List (Node × Node)} {root key : Node} {name : String}

theorem Node.IsScalarKey.tag_ne (h : key.IsScalarKey) : key.tag ≠ .merge := by
  obtain ⟨tag, text, m, rfl, htag⟩ := h
  exact htag

/-- A scalar is reported as it is written. -/
theorem Node.IsScalarKey.reported_eq (h : key.IsScalarKey) (root : Node) :
    reported? root key = keyLine? key := by
  obtain ⟨tag, text, m, rfl, htag⟩ := h
  simp [reported?, Node.tag, htag, Node.settled, keyLine?, Node.mark, Node.content]

theorem settledEntries_taken (e : Effect) (h : ∀ n ∈ done, n.1.IsScalarKey) :
    (settledEntries e done).1 = [] := by
  induction done with
  | nil => rfl
  | cons n done ih =>
    obtain ⟨hkey, hdone⟩ := List.forall_mem_cons.mp h
    obtain ⟨k, v⟩ := n
    have hmerge : (k.tag == Tag.merge) = false := by simpa using hkey.tag_ne
    simp only [settledEntries, hmerge, Bool.false_eq_true, if_false]
    exact ih hdone

/-- **The keys of a document that have a range** are those in the first column, if all are
scalars. -/
theorem keyLines_of_scalars (htag : o.tag = .map) (h : ∀ n ∈ done, n.1.IsScalarKey) :
    keyLines (some (.map o done)) = done.filterMap fun n => keyLine? n.1 := by
  rw [keyLines_map htag, settledEntries_taken _ h, List.filterMap_nil, List.nil_append]
  exact List.filterMap_congr fun n hn => (h n hn).reported_eq _

/-- The entries of a mapping without merge keys are its own, each under the value of its key. -/
theorem builtEntries_of_scalars (h : ∀ n ∈ done, n.1.IsScalarKey) :
    (builtEntries 1 done).merged = [] ∧
      (builtEntries 1 done).own.map Prod.fst = done.map fun n => n.1.keyValue := by
  induction done with
  | nil => exact ⟨rfl, rfl⟩
  | cons n done ih =>
    obtain ⟨hkey, hdone⟩ := List.forall_mem_cons.mp h
    obtain ⟨hmerged, hown⟩ := ih hdone
    obtain ⟨k, v⟩ := n
    have hmerge : (k.tag == Tag.merge) = false := by simpa using hkey.tag_ne
    unfold builtEntries
    simp only [hmerge, Bool.false_eq_true, if_false]
    split
    · rename_i hvalue
      obtain ⟨tag, text, m, rfl, -⟩ := hkey
      have htext : (Node.scalar tag text m).keyValue = .str text := if_pos (eq_of_beq hvalue)
      simp [Entries.after, Entries.add, hmerged, hown, htext, builtText, Node.text, builtScalar]
    · rename_i hvalue
      have hread : k.keyValue = (k.built 1).value := if_neg (by simpa using hvalue)
      simp [Entries.add, hmerged, hown, hread]

theorem map_fst_insert (k v : Value) (es : List (Value × Value)) :
    (Value.insert k v es).map Prod.fst = Value.insertMember k (es.map Prod.fst) := by
  induction es with
  | nil => rfl
  | cons e es ih =>
    obtain ⟨k', v'⟩ := e
    unfold Value.insertMember at ih ⊢
    rw [Value.insert]
    by_cases hsame : Value.same k' k = true
    · simp [hsame]
    · simp only [hsame, Bool.false_eq_true, ↓reduceIte, List.map_cons, ih, List.any_cons,
        Bool.false_or]
      split <;> simp

theorem map_fst_foldl_insert (es acc : List (Value × Value)) :
    (es.foldl (fun acc e => Value.insert e.1 e.2 acc) acc).map Prod.fst =
      (es.map Prod.fst).foldl (fun seen v => Value.insertMember v seen) (acc.map Prod.fst) := by
  induction es generalizing acc with
  | nil => rfl
  | cons e es ih => rw [List.foldl_cons, ih, map_fst_insert]; rfl

/-- **The keys of an object** are the distinct values of the keys of its document. -/
theorem keys_of_read {es : List (Value × Value)} (htag : o.tag = .map)
    (h : ∀ n ∈ done, n.1.IsScalarKey) (hread : Node.read (some (.map o done)) = .ok (.object es)) :
    es.map Prod.fst = distinctValues (done.map fun n => n.1.keyValue) := by
  have hobject : (builtEntries 1 done).object = .object es := by
    simpa [Node.built, htag] using value_of_read hread
  obtain ⟨hmerged, hown⟩ := builtEntries_of_scalars h
  have hes := Value.object.inj hobject
  rw [← hes, map_fst_foldl_insert, Entries.all, hmerged, List.nil_append, hown]
  rfl

end Keys

/-! ### Entries of keys -/

/-- An entry is one for a request of some name: it has the range of the last key in the first column
that is written so, and no lines if there is none. -/
structure IsEntryNamed (s : String) (keys : List (String × Nat)) (name : String)
    (t : TestEntry) : Prop where
  named : t.id = name ∧ t.name = name ∧ t.path = none
  unplaced : name ∉ keys.map Prod.fst → t.startLine = none ∧ t.endLine = none
  placed : ∀ first after, IsLast keys name first after →
    t.startLine = some (first : Int) ∧ t.endLine =
      some ((rangeOf (splitLines s.toList) first (after.head?.map Prod.snd)).last : Int)

/-- The keys of a document are written as they are named: they stand in the first column, each is
written as the value that it is read as is named, no two are written alike, and no two are read as
values that are the same. -/
structure AreSpelledOut (done : List (Node × Node)) : Prop where
  column : ∀ n ∈ done, n.1.mark.column = 0
  spelled : ∀ n ∈ done, n.1.keyValue.display = .ok n.1.content
  distinct : (done.map fun n => n.1.content).Nodup
  apart : (done.map fun n => n.1.keyValue).Pairwise fun v w => Value.same v w = false

/-- The entries for the keys of a document, each with the range of its own key. -/
def requestEntries (s : String) : List (Node × Node) → List TestEntry
  | [] => []
  | n :: rest =>
    let range := rangeOf (splitLines s.toList) n.1.mark.line (rest.head?.map (·.1.mark.line))
    ⟨n.1.content, n.1.content, none, some (range.first : Int), some (range.last : Int)⟩ ::
      requestEntries s rest

section Entries

variable {s name : String} {keys : List (String × Nat)} {key : Value} {t : TestEntry}
  {done : List (Node × Node)}

theorem isEntryNamed_of_ofKey (h : TestEntry.ofKey (lineRanges s keys) key = .ok t) :
    key.display = .ok t.name ∧ IsEntryNamed s keys t.name t := by
  obtain ⟨name, hname, ht⟩ := bind_eq_ok_iff.mp h
  have hdisplay : key.display = .ok name := by
    rw [keyText] at hname
    cases hkey : key.display with
    | error e =>
      rw [hkey] at hname
      cases hname
    | ok text =>
      rw [hkey] at hname
      exact congrArg Except.ok (Except.ok.inj hname)
  cases ht
  refine ⟨hdisplay, ⟨rfl, rfl, rfl⟩, fun hnone => ?_, fun first after hlast => ?_⟩
  · have hlookup : (lineRanges s keys).lookup name = none := by
      cases hrange : (lineRanges s keys).lookup name with
      | none => rfl
      | some range => exact absurd (mem_of_lookup hrange) hnone
    simp [hlookup]
  · simp [hlast.lookup, rangeOf]

theorem distinctValues_of_apart {values : List Value}
    (h : values.Pairwise fun v w => Value.same v w = false) : distinctValues values = values := by
  -- what has been inserted is what stands before, and no later value is the same as any of it
  have hall : ∀ before after, before ++ after = values →
      after.foldl (fun seen v => Value.insertMember v seen) before = values := by
    intro before after hsplit
    induction after generalizing before with
    | nil => simpa using hsplit
    | cons v after ih =>
      have hnew : Value.insertMember v before = before ++ [v] := by
        subst hsplit
        have hother := (List.pairwise_append.mp h).2.2
        refine if_neg ?_
        simp only [List.any_eq_true, not_exists, not_and, Bool.not_eq_true]
        exact fun w hw => hother w hw v List.mem_cons_self
      rw [List.foldl_cons, hnew]
      exact ih (before ++ [v]) (by simpa using hsplit)
  exact hall [] values rfl

/-- Entries that are named for keys have the ranges of the keys, if these are written as they are
named, and no two of them alike. -/
theorem eq_requestEntries (before : List (String × Nat)) {rest : List (Node × Node)}
    {ts : List TestEntry} (hentries : List.Forall₂ (fun n t => n.1.keyValue.display = .ok t.name ∧
      IsEntryNamed s (before ++ rest.map fun n => (n.1.content, n.1.mark.line)) t.name t) rest ts)
    (hspelled : ∀ n ∈ rest, n.1.keyValue.display = .ok n.1.content)
    (hdistinct : (rest.map fun n => n.1.content).Nodup) : ts = requestEntries s rest := by
  induction rest generalizing before ts with
  | nil =>
    cases hentries
    rfl
  | cons n rest ih =>
    obtain ⟨hhead, hspelled⟩ := List.forall_mem_cons.mp hspelled
    obtain ⟨hother, hdistinct⟩ := List.nodup_cons.mp hdistinct
    cases hentries with
    | @cons _ t _ ts hentry htail =>
      obtain ⟨hdisplay, hentry⟩ := hentry
      have hname : t.name = n.1.content := Except.ok.inj (hdisplay.symm.trans hhead)
      -- the later keys are written otherwise, so the entry has the range of this one
      have hlast : IsLast (before ++ (n :: rest).map fun n => (n.1.content, n.1.mark.line))
          t.name n.1.mark.line (rest.map fun n => (n.1.content, n.1.mark.line)) := by
        refine ⟨⟨before, by rw [hname]; rfl⟩, fun key hkey heq => hother ?_⟩
        obtain ⟨n', hn', rfl⟩ := List.mem_map.mp hkey
        exact List.mem_map.mpr ⟨n', hn', heq.trans hname⟩
      obtain ⟨hid, -, hpath⟩ := hentry.named
      obtain ⟨hfirst, hend⟩ := hentry.placed _ _ hlast
      rw [requestEntries, ← ih (before ++ [(n.1.content, n.1.mark.line)])
        (by simpa using htail) hspelled hdistinct]
      obtain ⟨id, name, path, first, last⟩ := t
      simp_all [rangeOf, List.head?_map, Option.map_map, Function.comp_def]

theorem AreSpelledOut.keyLines_eq (h : AreSpelledOut done) :
    (done.filterMap fun n => keyLine? n.1) = done.map fun n => (n.1.content, n.1.mark.line) := by
  rw [← List.filterMap_eq_map]
  refine List.filterMap_congr fun n hn => ?_
  simp [keyLine?, h.column n hn]

end Entries

end ApiSuite.Yaml

namespace ApiSuite.Project

open Yaml

section Requests

variable {here : List String} {base file s : String} {tf : TestFile} {o : Opening}
  {done : List (Node × Node)}

/-- A request file that is listed is an object, with an entry for each key. -/
theorem tests_of_ofRequests (h : TestFile.ofRequests here base file s = .ok tf) :
    ∃ es ranges, Document.loadYamlWithLines (some file) s = .ok (.object es, ranges) ∧
      List.Forall₂ (fun v t => TestEntry.ofKey ranges v = .ok t) (es.map Prod.fst) tf.tests := by
  obtain ⟨⟨v, ranges⟩, hload, hrest⟩ := bind_eq_ok_iff.mp h
  dsimp only at hrest
  cases hcontent : v.content? with
  | none =>
    rw [hcontent] at hrest
    cases hrest
  | some es =>
    obtain ⟨rfl, -⟩ := content?_eq_some_iff.mp hcontent
    rw [hcontent] at hrest
    obtain ⟨ts, hts, hrest⟩ := bind_eq_ok_iff.mp hrest
    obtain ⟨path, -, htf⟩ := bind_eq_ok_iff.mp hrest
    cases htf
    exact ⟨es, ranges, hload, List.forall₂_map_left_iff.mpr (forall₂_of_mapM hts)⟩

/-- **The lines of listed requests.** A request file whose keys are scalars is listed with one entry
for each distinct value of a key, named for the value; its lines are those of the last key in the
first column that is written as the entry is named, and there are none if no key is. So if all keys
are written as they are named, each entry has the range of its own key. -/
theorem request_lines (hfile : TestFile.ofRequests here base file s = .ok tf)
    (hroot : Node.ofString s = .ok (some (.map o done))) (hkeys : ∀ n ∈ done, n.1.IsScalarKey) :
    List.Forall₂ (fun v t => v.display = .ok t.name ∧
        IsEntryNamed s (done.filterMap fun n => keyLine? n.1) t.name t)
      (distinctValues (done.map fun n => n.1.keyValue)) tf.tests ∧
      (AreSpelledOut done → tf.tests = requestEntries s done) := by
  obtain ⟨es, ranges, hload, htests⟩ := tests_of_ofRequests hfile
  obtain ⟨n, -, hroot', -, hread, rfl⟩ := loaded_object hload rfl
  cases hroot.symm.trans hroot'
  have htag : o.tag = .map := tag_of_isObject hread rfl
  rw [keys_of_read htag hkeys hread, keyLines_of_scalars htag hkeys] at htests
  have hentries := htests.imp fun _ _ => isEntryNamed_of_ofKey
  refine ⟨hentries, fun hspelled => ?_⟩
  rw [distinctValues_of_apart hspelled.apart, List.forall₂_map_left_iff] at hentries
  rw [hspelled.keyLines_eq] at hentries
  exact eq_requestEntries [] hentries hspelled.spelled hspelled.distinct

end Requests

/-! ### A file that is written as it is named, and one that is not -/

/-- The keys of a document that are scalars, by tag, text, line and column. -/
def scalarKeys : Option Node → List (Option (Tag × String × Nat × Nat))
  | some (.map _ done) => done.map fun n =>
    match n.1 with
    | .scalar tag text m => some (tag, text, m.line, m.column)
    | _ => none
  | _ => []

theorem exists_of_scalarKeys {root : Option Node} {tag : Tag} {text : String} {line column : Nat}
    {rest : List (Option (Tag × String × Nat × Nat))}
    (h : scalarKeys root = some (tag, text, line, column) :: rest) :
    ∃ o m v done, root = some (.map o ((.scalar tag text m, v) :: done)) ∧ m.line = line ∧
      m.column = column ∧ scalarKeys (some (.map o done)) = rest := by
  unfold scalarKeys at h
  split at h
  · rename_i o done
    cases done with
    | nil => cases h
    | cons n done =>
      obtain ⟨k, v⟩ := n
      obtain ⟨hkey, hrest⟩ := List.cons.inj h
      cases k with
      | scalar tag' text' m =>
        cases hkey
        exact ⟨o, m, v, done, rfl, rfl, rfl, hrest⟩
      | _ => cases hkey
  · cases h

/-- Two requests with a comment between them. -/
def twoRequests : String :=
  "one:\n  url: u\n  method: GET\n\n# more\ntwo: \x7burl: v, method: GET\x7d\n"

/-- Each of the two is listed with its lines. -/
theorem request_lines_twoRequests :
    ∃ o done tf, TestFile.ofRequests [] "." "a.ply" twoRequests = .ok tf ∧
      Node.ofString twoRequests = .ok (some (.map o done)) ∧ (∀ n ∈ done, n.1.IsScalarKey) ∧
      AreSpelledOut done ∧ tf.tests = requestEntries twoRequests done ∧
      tf.tests = [⟨"one", "one", none, some 0, some 2⟩, ⟨"two", "two", none, some 5, some 5⟩] := by
  obtain ⟨tf, hfile, htests⟩ := exists_eq_ok
    (r := TestFile.ofRequests [] "." "a.ply" twoRequests) (f := TestFile.tests)
    (b := [⟨"one", "one", none, some 0, some 2⟩, ⟨"two", "two", none, some 5, some 5⟩])
    (by decide +kernel)
  obtain ⟨root, hroot, hscalars⟩ := exists_eq_ok (r := Node.ofString twoRequests) (f := scalarKeys)
    (b := [some (.str, "one", 0, 0), some (.str, "two", 5, 0)]) (by decide +kernel)
  obtain ⟨o, m, v, done, rfl, hline, hcolumn, hmore⟩ := exists_of_scalarKeys hscalars
  obtain ⟨o', m', v', done', heq, hline', hcolumn', hnone⟩ := exists_of_scalarKeys hmore
  cases heq
  obtain rfl : done' = [] := List.map_eq_nil_iff.mp hnone
  have hkeys : ∀ n ∈ [(Node.scalar .str "one" m, v), (Node.scalar .str "two" m', v')],
      n.1.IsScalarKey := by
    refine List.forall_mem_cons.mpr ⟨⟨_, _, _, rfl, by decide⟩, ?_⟩
    exact List.forall_mem_cons.mpr ⟨⟨_, _, _, rfl, by decide⟩, by simp⟩
  have hone : (Node.scalar .str "one" m).keyValue = .str "one" := rfl
  have htwo : (Node.scalar .str "two" m').keyValue = .str "two" := rfl
  have hspelled : AreSpelledOut [(Node.scalar .str "one" m, v), (Node.scalar .str "two" m', v')] :=
    { column := by simp [Node.mark, hcolumn, hcolumn']
      spelled := List.forall_mem_cons.mpr ⟨rfl, List.forall_mem_cons.mpr ⟨rfl, by simp⟩⟩
      distinct := by simp [Node.content]
      apart := by simp [hone, htwo, Value.same] }
  exact ⟨_, _, tf, hfile, hroot, hkeys, hspelled, (request_lines hfile hroot hkeys).2 hspelled,
    htests⟩

/-- A request with the key `yes`. -/
def truthKey : String := "yes: \x7burl: u, method: GET\x7d\n"

/-- **A request has no lines** if its key is read as a truth value: the key `yes` stands in the
first column, but its entry is named `True`. -/
theorem truth_key_has_no_lines :
    ∃ o m v, (∀ x ∈ truthKey.toList, isBreak x = true → x = '\n') ∧
      (blockEntries (tokens truthKey).1).isSome = true ∧
      Node.ofString truthKey = .ok (some (.map o [(.scalar .bool "yes" m, v)])) ∧
      m.line = 0 ∧ m.column = 0 ∧
      TestFile.ofRequests [] "." "a.ply" truthKey =
        .ok ⟨"a.ply", .request, [⟨"True", "True", none, none, none⟩]⟩ := by
  have hbreaks : truthKey.toList.all (fun x => !isBreak x || x == '\n') = true := by
    decide +kernel
  obtain ⟨root, hroot, hscalars⟩ := exists_eq_ok (r := Node.ofString truthKey) (f := scalarKeys)
    (b := [some (.bool, "yes", 0, 0)]) (by decide +kernel)
  obtain ⟨o, m, v, done, rfl, hline, hcolumn, hnone⟩ := exists_of_scalarKeys hscalars
  obtain rfl : done = [] := List.map_eq_nil_iff.mp hnone
  refine ⟨o, m, v, fun x hx hbreak => ?_, by decide +kernel, hroot, hline, hcolumn,
    eq_ok (by decide +kernel)⟩
  simpa [hbreak] using List.all_eq_true.mp hbreaks x hx

end ApiSuite.Project
