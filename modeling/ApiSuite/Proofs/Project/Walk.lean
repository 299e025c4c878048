import ApiSuite.Proofs.Project.Documents
import ApiSuite.Proofs.Project.Removal

/-!
# What a walk through a directory lists

The files below a directory are known by the names that lead to them. A walk lists exactly those
whose path matches, each once, in the order of these names, which is depth-first and by name in
every directory; and the path it gives for a file leads back to that file
(`ApiSuite.Tree.listFiles_exact`).

The walk builds a path name by name, and each time cuts the slashes off at the end of what it has.
That nothing but the slashes of the first directory is ever cut off (`ApiSuite.Tree.foldl_pathIn`)
keeps the path and the names in step, and that is what the induction over the tree carries
(`ApiSuite.Tree.Lists`).

The directory without a name is the exception: paths built from it begin at the root of all files,
and so lead out of the project (`ApiSuite.Tree.namelessDirectory_not_exact`).
-/

namespace ApiSuite

namespace Tree

/-! ### Paths of files -/

section Paths

variable {n directory : String} {ns : List String}

/-- The path of what lies under names in a directory. -/
def pathUnder (directory : String) (ns : List String) : String :=
  Path.withoutSlash directory ++ "/" ++ "/".intercalate ns

theorem toList_pathIn (directory n : String) :
    (pathIn directory n).toList = directory.toList.rdropWhile Path.isSlash ++ '/' :: n.toList := by
  simp [pathIn, Path.toList_withoutSlash]

/-- The path of an entry has no slash at its end. -/
theorem withoutSlash_pathIn (hn : Path.isFileName n) :
    Path.withoutSlash (pathIn directory n) = pathIn directory n := by
  simp only [Path.isFileName, Bool.and_eq_true, bne_iff_ne, Bool.not_eq_true', List.contains_eq_mem,
    decide_eq_false_iff_not] at hn
  obtain ⟨⟨⟨hempty, -⟩, -⟩, hslash⟩ := hn
  have hne : n.toList ≠ [] := by simpa using hempty
  refine String.toList_inj.mp ?_
  rw [Path.toList_withoutSlash, List.rdropWhile_eq_self_iff]
  intro hlist hlast
  simp only [toList_pathIn] at hlast
  rw [List.getLast_append_of_ne_nil _ (List.cons_ne_nil _ _), List.getLast_cons hne] at hlast
  exact hslash (eq_of_beq hlast ▸ List.getLast_mem hne)

/-- **A path that is built name by name** is the directory without the slashes at its end, and the
names with a slash before each. -/
theorem foldl_pathIn (hns : ∀ n ∈ ns, Path.isFileName n) (hne : ns ≠ []) :
    ns.foldl pathIn directory = pathUnder directory ns := by
  induction ns generalizing directory with
  | nil => exact absurd rfl hne
  | cons n ns ih =>
    obtain ⟨hn, hns⟩ := List.forall_mem_cons.mp hns
    rw [List.foldl_cons]
    cases ns with
    | nil => simp [pathUnder, pathIn]
    | cons m ns =>
      rw [ih hns (by simp), pathUnder, withoutSlash_pathIn hn, pathUnder, pathIn]
      simp [String.append_assoc]

theorem names_foldl_pathIn (hns : ∀ n ∈ ns, Path.isFileName n) :
    Path.names (ns.foldl pathIn directory) = Path.names directory ++ ns := by
  induction ns generalizing directory with
  | nil => simp
  | cons n ns ih =>
    obtain ⟨hn, hns⟩ := List.forall_mem_cons.mp hns
    rw [List.foldl_cons, ih hns, Path.names_pathIn hn, List.append_assoc]
    rfl

theorem isAbsolute_foldl_pathIn (hempty : directory ≠ "")
    (h : Path.isAbsolute directory = false) (ns : List String) :
    Path.isAbsolute (ns.foldl pathIn directory) = false := by
  induction ns generalizing directory with
  | nil => exact h
  | cons n ns ih => exact ih (Path.pathIn_ne_empty directory n) (Path.isAbsolute_pathIn hempty h n)

/-- The names that lead down in something tidy are names of files. -/
theorem isFileName_of_descend {e e' : Entry} (h : isTidy e) (hdescend : descend e ns = some e') :
    ∀ n ∈ ns, Path.isFileName n := by
  induction ns generalizing e with
  | nil => simp
  | cons n ns ih =>
    obtain ⟨es, child, rfl, hmem, hchild⟩ := descend_cons_eq_some hdescend
    obtain ⟨hn, htidy⟩ := (isTidy_directory.mp h).2 _ hmem
    exact List.forall_mem_cons.mpr ⟨hn, ih htidy hchild⟩

end Paths

/-! ### Following names that go down -/

section Follow

variable {e e' : Entry} {above : List Entry} {ns ms : List String} {t : Tree} {directory : String}

/-- Names after others are followed from where these lead. -/
theorem follow_append (h : e.follow above ns = some e') :
    ∃ above', e.follow above (ns ++ ms) = e'.follow above' ms := by
  induction ns generalizing e above with
  | nil =>
    cases e <;> cases h <;> exact ⟨above, rfl⟩
  | cons n ns ih =>
    cases e with
    | file octets => cases h
    | directory es =>
      rw [List.cons_append]
      simp only [Entry.follow] at h ⊢
      split at h
      · cases above with
        | nil => cases h
        | cons parent above =>
          rename_i hdots
          rw [if_pos hdots]
          exact ih h
      · rename_i hname
        rw [if_neg hname]
        cases hlookup : es.lookup n with
        | none =>
          rw [hlookup] at h
          cases h
        | some child =>
          rw [hlookup] at h
          exact ih h

/-- Names without dots go down. -/
theorem follow_eq_descend (h : ".." ∉ ns) : e.follow above ns = descend e ns := by
  induction ns generalizing e above with
  | nil => cases e <;> rfl
  | cons n ns ih =>
    rw [List.mem_cons, not_or] at h
    cases e with
    | file octets => rfl
    | directory es =>
      rw [follow_name (Ne.symm h.1), descend_cons_directory]
      simp only [ih h.2]

/-- **What lies below a directory is found at its path.** -/
theorem find?_foldl_pathIn (hempty : directory ≠ "") (habsolute : Path.isAbsolute directory = false)
    (hfind : t.find? directory = some e) (hns : ∀ n ∈ ns, Path.isFileName n) :
    t.find? (ns.foldl pathIn directory) = descend e ns := by
  unfold find? at hfind ⊢
  rw [if_neg (by simp [habsolute])] at hfind
  rw [if_neg (by simp [isAbsolute_foldl_pathIn hempty habsolute ns]), names_foldl_pathIn hns]
  obtain ⟨above, hfollow⟩ := follow_append hfind
  have hdots : ".." ∉ ns := fun h => by simpa [Path.isFileName] using hns _ h
  rw [hfollow, follow_eq_descend hdots]

end Follow

/-! ### The walk -/

section Walk

variable {q : FileQuery} {path : String} {es : List (String × Entry)}

/-- A query is for files of a path. -/
def Admits (q : FileQuery) (path : String) : Prop :=
  q.patterns = [] ∨ Glob.matchesAny q.patterns path

/-- What was found at a path are the files below, in the order of the names that lead to them. -/
def Lists (q : FileQuery) (path : String) (e : Entry) (found : List String) : Prop :=
  ∃ nss : List (List String), found = nss.map (·.foldl pathIn path) ∧ nss.Pairwise (· < ·) ∧
    ∀ ns, ns ∈ nss ↔ (∃ octets, descend e ns = some (.file octets)) ∧
      Admits q (ns.foldl pathIn path)

theorem lists_file (octets : List UInt8) :
    Lists q path (.file octets) (listAt q path (.file octets)) := by
  have hadmits :
      (q.patterns.isEmpty || Glob.matchesAny q.patterns path) = true ↔ Admits q path := by
    simp [Admits]
  have hnames : ∀ ns, (∃ os, descend (.file octets) ns = some (.file os)) ↔ ns = [] := by
    intro ns
    cases ns <;> simp [descend]
  rw [listAt]
  split
  · rename_i hpath
    refine ⟨[[]], rfl, List.pairwise_singleton _ _, fun ns => ?_⟩
    rw [hnames, List.mem_singleton]
    constructor
    · rintro rfl
      exact ⟨rfl, hadmits.mp hpath⟩
    · exact fun h => h.1
  · rename_i hpath
    refine ⟨[], rfl, .nil, fun ns => ?_⟩
    rw [hnames]
    simp only [List.not_mem_nil, false_iff]
    rintro ⟨rfl, h⟩
    exact hpath (hadmits.mpr h)

/-- Entries in the order of their names. -/
def byName (es : List (String × Entry)) : List (String × Entry) :=
  es.mergeSort fun a b => decide (a.1 ≤ b.1)

theorem mem_byName {x : String × Entry} : x ∈ byName es ↔ x ∈ es := List.mem_mergeSort

/-- Entries of different names are put in strict order. -/
theorem pairwise_byName (hnames : (es.map Prod.fst).Nodup) :
    (byName es).Pairwise fun a b => a.1 < b.1 := by
  have hle : (byName es).Pairwise fun a b => decide (a.1 ≤ b.1) := by
    refine List.pairwise_mergeSort (fun a b c hab hbc => ?_) (fun a b => ?_) es
    · simp only [decide_eq_true_eq] at *
      exact String.le_trans hab hbc
    · simpa using String.le_total a.1 b.1
  have hne : (byName es).Pairwise fun a b => a.1 ≠ b.1 :=
    List.pairwise_map.mp (((List.mergeSort_perm es _).map Prod.fst).nodup_iff.mpr hnames)
  refine (hle.and hne).imp fun h => ?_
  simp only [decide_eq_true_eq] at h
  exact String.not_le.mp fun hle => h.2 (String.le_antisymm h.1 hle)

/-- What is listed in a directory is what is listed for each entry, in the order of the names. -/
theorem inOrder_listEach (q : FileQuery) (path : String) (es : List (String × Entry)) :
    inOrder (listEach q path es) =
      (byName es).flatMap fun x => listAt q (pathIn path x.1) x.2 := by
  unfold inOrder byName
  rw [listEach_eq_map, ← List.map_mergeSort (r := fun a b => decide (a.1 ≤ b.1)) (by simp),
    List.flatMap_map]

/-- **What is listed in a directory** are the files below it, if that is so of its entries. -/
theorem lists_inOrder (hnames : (es.map Prod.fst).Nodup)
    (h : ∀ x ∈ es, Lists q (pathIn path x.1) x.2 (listAt q (pathIn path x.1) x.2)) :
    Lists q path (.directory es) (inOrder (listEach q path es)) := by
  choose! nss hfound hsorted hmem using h
  refine ⟨(byName es).flatMap fun x => (nss x).map (x.1 :: ·), ?_, ?_, fun ns => ?_⟩
  · rw [inOrder_listEach, List.map_flatMap]
    refine List.flatMap_congr fun x hx => ?_
    rw [hfound x (mem_byName.mp hx), List.map_map]
    rfl
  · -- names are compared first by the entry they begin with, and then in that entry
    rw [List.pairwise_flatMap]
    refine ⟨fun x hx => ?_, (pairwise_byName hnames).imp fun hlt => ?_⟩
    · rw [List.pairwise_map]
      exact (hsorted x (mem_byName.mp hx)).imp fun hlt =>
          List.cons_lt_cons_iff.mpr (.inr ⟨rfl, hlt⟩)
    · intro ns hns ms hms
      obtain ⟨ns, -, rfl⟩ := List.mem_map.mp hns
      obtain ⟨ms, -, rfl⟩ := List.mem_map.mp hms
      exact List.cons_lt_cons_iff.mpr (.inl hlt)
  · rw [List.mem_flatMap]
    constructor
    · rintro ⟨x, hx, hns⟩
      obtain ⟨ns, hbelow, rfl⟩ := List.mem_map.mp hns
      obtain ⟨⟨octets, hfile⟩, hadmits⟩ := (hmem x (mem_byName.mp hx) ns).mp hbelow
      refine ⟨⟨octets, ?_⟩, hadmits⟩
      rw [descend_cons_directory, Schema.lookup_of_mem hnames (mem_byName.mp hx)]
      exact hfile
    · rintro ⟨⟨octets, hfile⟩, hadmits⟩
      cases ns with
      | nil => cases hfile
      | cons n ns =>
        obtain ⟨es, e, ⟨⟩, hx, hbelow⟩ := descend_cons_eq_some hfile
        have hns : ns ∈ nss (n, e) := (hmem _ hx ns).mpr ⟨⟨octets, hbelow⟩, hadmits⟩
        exact ⟨(n, e), mem_byName.mpr hx, List.mem_map.mpr ⟨ns, hns, rfl⟩⟩

/-! Entries hold entries, and so the statements about one and about many are proved together. -/

mutual

/-- **A walk lists the files below an entry.** -/
theorem lists_listAt (hq : q.recursive) : ∀ (e : Entry) {path : String}, path ≠ "" →
    Path.isAbsolute path = false → isTidy e → Lists q path e (listAt q path e)
  | .file octets, _, _, _, _ => lists_file octets
  | .directory es, path, hempty, habsolute, htidy => by
    rw [isTidy_directory] at htidy
    rw [listAt, if_pos (by simp [hq, habsolute])]
    exact lists_inOrder htidy.1 (lists_listEach hq es hempty habsolute fun x hx => (htidy.2 x hx).2)

theorem lists_listEach (hq : q.recursive) : ∀ (es : List (String × Entry)) {path : String},
    path ≠ "" → Path.isAbsolute path = false → (∀ x ∈ es, isTidy x.2) →
      ∀ x ∈ es, Lists q (pathIn path x.1) x.2 (listAt q (pathIn path x.1) x.2)
  | [], _, _, _, _, x, hx => by cases hx
  | (n, e) :: es, path, hempty, habsolute, htidy, x, hx => by
    obtain ⟨hhead, htail⟩ := List.forall_mem_cons.mp htidy
    rcases List.mem_cons.mp hx with rfl | hx
    · exact lists_listAt hq e (Path.pathIn_ne_empty path n)
        (Path.isAbsolute_pathIn hempty habsolute n) hhead
    · exact lists_listEach hq es hempty habsolute htail x hx

end

end Walk

/-! ### What is listed under a directory -/

section Listed

variable {t : Tree} {es : List (String × Entry)} {patterns : List String} {directory : String}
  {ns : List String} {octets : List UInt8}

/-- A file lies below a directory, under some names. -/
def HoldsFile (t : Tree) (directory : String) (ns : List String) (octets : List UInt8) : Prop :=
  ns ≠ [] ∧ ∃ e, t.find? directory = some e ∧ descend e ns = some (.file octets)

/-- What is listed under a directory and its subdirectories are the files below it. -/
structure ListedExactly (t : Tree) (patterns : List String) (directory : String) : Prop where
  /-- The files below that match, and nothing else, in the order of the names that lead to them. -/
  names : ∃ nss : List (List String),
    t.listFiles ⟨true, patterns⟩ directory = nss.map (pathUnder directory) ∧
    nss.Pairwise (· < ·) ∧ ∀ ns, ns ∈ nss ↔ (∃ octets, t.HoldsFile directory ns octets) ∧
      Admits ⟨true, patterns⟩ (pathUnder directory ns)
  /-- No path is listed twice. -/
  once : (t.listFiles ⟨true, patterns⟩ directory).Nodup
  /-- The path of a file leads back to it. -/
  reads : ∀ ns octets, t.HoldsFile directory ns octets →
    t.readText? (pathUnder directory ns) = (Text.ofOctets octets).map some
  /-- The files that are read are the ones that are listed. -/
  keys : ∀ files, t.readFiles ⟨true, patterns⟩ directory = .ok files →
    files.map Prod.fst = t.listFiles ⟨true, patterns⟩ directory ∧
      ∀ f ∈ files, t.readText? f.1 = .ok (some f.2)
  /-- They can be read if all of them are text. -/
  readable : (∃ files, t.readFiles ⟨true, patterns⟩ directory = .ok files) ↔
    ∀ ns octets, t.HoldsFile directory ns octets →
      Admits ⟨true, patterns⟩ (pathUnder directory ns) → ∃ text, Text.ofOctets octets = .ok text

theorem HoldsFile.isFileName (htidy : isTidy t.root) (h : t.HoldsFile directory ns octets) :
    ∀ n ∈ ns, Path.isFileName n := by
  obtain ⟨-, e, hfind, hfile⟩ := h
  obtain ⟨loc, -, hdescend⟩ := find?_eq_some hfind
  exact isFileName_of_descend (isTidy_descend htidy hdescend) hfile

theorem HoldsFile.path_eq (htidy : isTidy t.root) (h : t.HoldsFile directory ns octets) :
    ns.foldl pathIn directory = pathUnder directory ns :=
  foldl_pathIn (h.isFileName htidy) h.1

/-- **The path of a file below a directory leads to it.** -/
theorem HoldsFile.readText? (htidy : isTidy t.root) (hempty : directory ≠ "")
    (habsolute : Path.isAbsolute directory = false) (h : t.HoldsFile directory ns octets) :
    t.readText? (pathUnder directory ns) = (Text.ofOctets octets).map some := by
  obtain ⟨e, hfind, hfile⟩ := h.2
  have hpath := find?_foldl_pathIn hempty habsolute hfind (h.isFileName htidy)
  rw [h.path_eq htidy, hfile] at hpath
  unfold Tree.readText?
  rw [hpath]

/-- Files below a directory under different names have different paths. -/
theorem HoldsFile.eq_of_path_eq {ms : List String} {os : List UInt8} (htidy : isTidy t.root)
    (h : t.HoldsFile directory ns octets) (h' : t.HoldsFile directory ms os)
    (hpath : pathUnder directory ns = pathUnder directory ms) : ns = ms := by
  rw [← h.path_eq htidy, ← h'.path_eq htidy] at hpath
  have hnames := congrArg Path.names hpath
  rw [names_foldl_pathIn (h.isFileName htidy), names_foldl_pathIn (h'.isFileName htidy)] at hnames
  exact List.append_cancel_left hnames

/-- What lies below a directory is what its entries lead to. -/
theorem holdsFile_iff (hfind : t.find? directory = some (.directory es)) :
    t.HoldsFile directory ns octets ↔ descend (.directory es) ns = some (.file octets) := by
  constructor
  · rintro ⟨-, e, he, hfile⟩
    cases hfind.symm.trans he
    exact hfile
  · intro hfile
    refine ⟨?_, _, hfind, hfile⟩
    rintro rfl
    cases hfile

/-- Files lie below directories only. -/
theorem HoldsFile.inDirectory (h : t.HoldsFile directory ns octets) :
    ∃ es, t.find? directory = some (.directory es) := by
  obtain ⟨hne, e, hfind, hfile⟩ := h
  cases e with
  | directory es => exact ⟨es, hfind⟩
  | file os =>
    cases ns with
    | nil => exact absurd rfl hne
    | cons n ns => cases hfile

/-- **A walk through a directory lists the files below it.** -/
theorem exists_names (htidy : isTidy t.root) (hempty : directory ≠ "")
    (habsolute : Path.isAbsolute directory = false) (patterns : List String) :
    ∃ nss : List (List String),
      t.listFiles ⟨true, patterns⟩ directory = nss.map (pathUnder directory) ∧
      nss.Pairwise (· < ·) ∧ ∀ ns, ns ∈ nss ↔ (∃ octets, t.HoldsFile directory ns octets) ∧
        Admits ⟨true, patterns⟩ (pathUnder directory ns) := by
  by_cases hdirectory : ∃ es, t.find? directory = some (.directory es)
  · obtain ⟨es, hfind⟩ := hdirectory
    obtain ⟨loc, -, hdescend⟩ := find?_eq_some hfind
    have hes := isTidy_directory.mp (isTidy_descend htidy hdescend)
    obtain ⟨nss, hfound, hsorted, hmem⟩ := lists_inOrder hes.1
      (lists_listEach (q := ⟨true, patterns⟩) rfl es hempty habsolute fun x hx => (hes.2 x hx).2)
    have hpath : ∀ ns octets, descend (.directory es) ns = some (.file octets) →
        ns.foldl pathIn directory = pathUnder directory ns := fun ns octets hfile =>
      ((holdsFile_iff hfind).mpr hfile).path_eq htidy
    refine ⟨nss, ?_, hsorted, fun ns => ?_⟩
    · unfold listFiles
      rw [hfind]
      refine hfound.trans (List.map_congr_left fun ns hns => ?_)
      obtain ⟨⟨octets, hfile⟩, -⟩ := (hmem ns).mp hns
      exact hpath ns octets hfile
    · simp only [hmem ns, holdsFile_iff hfind]
      refine and_congr_right fun ⟨octets, hfile⟩ => ?_
      rw [hpath ns octets hfile]
  · -- where there is no directory, nothing is listed, and no file lies below
    refine ⟨[], listFiles_eq_nil (not_exists.mp hdirectory), .nil, fun ns => ?_⟩
    simp only [List.not_mem_nil, false_iff]
    rintro ⟨⟨octets, hfile⟩, -⟩
    exact hdirectory hfile.inDirectory

/-! ### What is read under a directory -/

/-- A file with its text, none if there is no such file. -/
def fileAt (t : Tree) (path : String) : Except Fault (Option (String × String)) :=
  (t.readText? path).map (·.map fun text => (path, text))

theorem readFiles_eq (t : Tree) (q : FileQuery) (directory : String) :
    t.readFiles q directory = ((t.listFiles q directory).mapM t.fileAt).map (·.filterMap id) := by
  unfold readFiles fileAt
  rfl

theorem readFiles_eq_ok_iff {q : FileQuery} {files : List (String × String)} :
    t.readFiles q directory = .ok files ↔ ∃ found,
      (t.listFiles q directory).mapM t.fileAt = .ok found ∧ found.filterMap id = files := by
  rw [readFiles_eq]
  cases (t.listFiles q directory).mapM t.fileAt <;> simp [Except.map]

theorem fileAt_eq_ok_iff {path : String} {found : Option (String × String)} :
    t.fileAt path = .ok found ↔
      ∃ text, t.readText? path = .ok text ∧ found = text.map fun s => (path, s) := by
  unfold fileAt
  cases t.readText? path <;> simp [Except.map, eq_comm]

/-- The files that are read are those at the paths, with their texts, if each of these leads to
one. -/
theorem files_of_mapM {paths : List String} {found : List (Option (String × String))}
    (hfiles : ∀ path ∈ paths, t.readText? path ≠ .ok none) (h : paths.mapM t.fileAt = .ok found) :
    (found.filterMap id).map Prod.fst = paths ∧
      ∀ f ∈ found.filterMap id, t.readText? f.1 = .ok (some f.2) := by
  induction paths generalizing found with
  | nil =>
    cases h
    simp
  | cons path paths ih =>
    obtain ⟨hhead, htail⟩ := List.forall_mem_cons.mp hfiles
    rw [List.mapM_cons] at h
    obtain ⟨first, hfirst, h⟩ := bind_eq_ok_iff.mp h
    obtain ⟨more, hmore, h⟩ := bind_eq_ok_iff.mp h
    cases h
    obtain ⟨text, htext, rfl⟩ := fileAt_eq_ok_iff.mp hfirst
    obtain ⟨hkeys, htexts⟩ := ih htail hmore
    cases text with
    | none => exact absurd htext hhead
    | some text =>
      have hfound :
          (some (path, text) :: more).filterMap id = (path, text) :: more.filterMap id := rfl
      rw [Option.map_some, hfound]
      exact ⟨by rw [List.map_cons, hkeys], List.forall_mem_cons.mpr ⟨htext, htexts⟩⟩

/-- Files can be read together if each of them can. -/
theorem exists_readFiles_iff {q : FileQuery} :
    (∃ files, t.readFiles q directory = .ok files) ↔
      ∀ path ∈ t.listFiles q directory, ∃ text, t.readText? path = .ok text := by
  have hone : ∀ path,
        (∃ found, t.fileAt path = .ok found) ↔ ∃ text, t.readText? path = .ok text := by
    intro path
    simp only [fileAt_eq_ok_iff]
    constructor
    · rintro ⟨_, text, htext, -⟩
      exact ⟨text, htext⟩
    · rintro ⟨text, htext⟩
      exact ⟨_, text, htext, rfl⟩
  simp only [← hone]
  rw [readFiles_eq]
  rcases mapM_cases t.fileAt (t.listFiles q directory) with
    ⟨hall, found, hfound⟩ | ⟨before, path, after, fault, hsplit, -, hpath, hfault⟩
  · rw [hfound]
    exact ⟨fun _ => hall, fun _ => ⟨_, rfl⟩⟩
  · rw [hfault]
    constructor
    · rintro ⟨files, hfiles⟩
      cases hfiles
    · intro hall
      obtain ⟨found, hfound⟩ := hall path (by simp [hsplit])
      cases hfound.symm.trans hpath

/-- Files that are read have the listed paths for their names, in the order of the listing. -/
theorem keys_readFiles {q : FileQuery} {files : List (String × String)}
    (hfiles : ∀ path ∈ t.listFiles q directory, t.readText? path ≠ .ok none)
    (h : t.readFiles q directory = .ok files) :
    files.map Prod.fst = t.listFiles q directory ∧
      ∀ f ∈ files, t.readText? f.1 = .ok (some f.2) := by
  obtain ⟨found, hfound, rfl⟩ := readFiles_eq_ok_iff.mp h
  exact files_of_mapM hfiles hfound

/-- Files under ascending names have paths of their own. -/
theorem nodup_paths {nss : List (List String)} (htidy : isTidy t.root)
    (hsorted : nss.Pairwise (· < ·))
    (hholds : ∀ ns ∈ nss, ∃ octets, t.HoldsFile directory ns octets) :
    (nss.map (pathUnder directory)).Nodup := by
  refine List.Nodup.map_on (fun ns hns ms hms hpath => ?_) (hsorted.imp fun hlt => ?_)
  · obtain ⟨octets, hfile⟩ := hholds ns hns
    obtain ⟨os, hfile'⟩ := hholds ms hms
    exact hfile.eq_of_path_eq htidy hfile' hpath
  · rintro rfl
    exact List.lt_irrefl _ hlt

/-- **What is listed under a directory** is exactly what lies below it, if the directory has a name
and does not begin at the root of all files. -/
theorem listFiles_exact (htidy : isTidy t.root) (hempty : directory ≠ "")
    (habsolute : Path.isAbsolute directory = false) (patterns : List String) :
    ListedExactly t patterns directory := by
  obtain ⟨nss, hlist, hsorted, hmem⟩ := exists_names htidy hempty habsolute patterns
  have hreads : ∀ ns octets, t.HoldsFile directory ns octets →
      t.readText? (pathUnder directory ns) = (Text.ofOctets octets).map some :=
    fun ns octets h => h.readText? htidy hempty habsolute
  have hfiles : ∀ path ∈ t.listFiles ⟨true, patterns⟩ directory, t.readText? path ≠ .ok none := by
    intro path hpath
    rw [hlist] at hpath
    obtain ⟨ns, hns, rfl⟩ := List.mem_map.mp hpath
    obtain ⟨⟨octets, hholds⟩, -⟩ := (hmem ns).mp hns
    rw [hreads ns octets hholds]
    cases Text.ofOctets octets <;> simp [Except.map]
  -- a listed path can be read exactly if the octets of its file are a text
  have htexts : ∀ ns octets, t.HoldsFile directory ns octets →
      ((∃ text, t.readText? (pathUnder directory ns) = .ok text) ↔
        ∃ text, Text.ofOctets octets = .ok text) := by
    intro ns octets hholds
    rw [hreads ns octets hholds]
    cases Text.ofOctets octets <;> simp [Except.map]
  refine ⟨⟨nss, hlist, hsorted, hmem⟩, ?_, hreads, fun files => keys_readFiles hfiles, ?_⟩
  · rw [hlist]
    exact nodup_paths htidy hsorted fun ns hns => ((hmem ns).mp hns).1
  · rw [exists_readFiles_iff, hlist, List.forall_mem_map]
    constructor
    · intro hread ns octets hholds hadmits
      exact (htexts ns octets hholds).mp (hread ns ((hmem ns).mpr ⟨⟨octets, hholds⟩, hadmits⟩))
    · intro hread ns hns
      obtain ⟨⟨octets, hholds⟩, hadmits⟩ := (hmem ns).mp hns
      exact (htexts ns octets hholds).mpr (hread ns octets hholds hadmits)

/-- A project of two directories, one in the other, with a file in each. -/
def nested : Tree :=
  ⟨[("b", .directory [("c.txt", .file []), ("a", .directory [("c.txt", .file [])])])]⟩

theorem holdsFile_nested {start : String} (h : nested.find? start = nested.find? "b") :
    nested.HoldsFile start ["a", "c.txt"] [] :=
  ⟨by simp, _, h, rfl⟩

/-- The files below a directory that is reached in a roundabout way, and written with a slash at its
end. -/
theorem listFiles_exact_nested :
    isTidy nested.root ∧ "b/../b/" ≠ "" ∧ Path.isAbsolute "b/../b/" = false ∧
      ListedExactly nested ["**/*.txt"] "b/../b/" ∧
      "b/../b/a/c.txt" ∈ nested.listFiles ⟨true, ["**/*.txt"]⟩ "b/../b/" := by
  have htidy : isTidy nested.root := by decide +kernel
  have hexact := listFiles_exact htidy (by decide : "b/../b/" ≠ "") (by decide) ["**/*.txt"]
  refine ⟨htidy, by decide, by decide, hexact, ?_⟩
  obtain ⟨nss, hlist, -, hmem⟩ := hexact.names
  have hpath : pathUnder "b/../b/" ["a", "c.txt"] = "b/../b/a/c.txt" := by decide +kernel
  have hmatch : Glob.matchesAny ["**/*.txt"] "b/../b/a/c.txt" := by cbv
  rw [hlist, ← hpath]
  refine List.mem_map_of_mem ((hmem _).mpr ⟨⟨[], holdsFile_nested rfl⟩, .inr ?_⟩)
  rwa [hpath]

/-- **From the directory without a name the walk leaves the project**: it passes over the files in
other directories. -/
theorem namelessDirectory_not_exact :
    ¬∀ (t : Tree) (patterns : List String) (directory : String), isTidy t.root →
      Path.isAbsolute directory = false → ListedExactly t patterns directory := by
  intro h
  obtain ⟨nss, hlist, -, hmem⟩ := (h nested [] "" (by decide +kernel) rfl).names
  have hnone : nested.listFiles ⟨true, []⟩ "" = [] := by
    rw [List.eq_nil_iff_forall_not_mem]
    intro path hpath
    obtain ⟨x, hx, hin⟩ := mem_inOrder.mp hpath
    have hfound : listEach ⟨true, []⟩ "" nested.entries = [("b", [])] := by decide +kernel
    rw [hfound, List.mem_singleton] at hx
    cases hx
    cases hin
  have hholds : nested.HoldsFile "" ["b", "a", "c.txt"] [] := ⟨by simp, _, rfl, rfl⟩
  rw [hnone, eq_comm, List.map_eq_nil_iff] at hlist
  have hlisted := (hmem ["b", "a", "c.txt"]).mpr ⟨⟨[], hholds⟩, .inl rfl⟩
  rw [hlist] at hlisted
  cases hlisted

end Listed

end Tree

end ApiSuite
