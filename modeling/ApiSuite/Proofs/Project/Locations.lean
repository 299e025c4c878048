import ApiSuite.Proofs.Project.Files

/-!
# Where paths lead

Two paths can lead to one file: slashes may be doubled, dots stand for nothing, and two dots take
the name before them back. The **location** of what a path leads to (`ApiSuite.Path.locate`) is the
list of names from the root to it, without any of that, and it is found from the names in the path
alone. `ApiSuite.Tree.find?_eq_some` says that what is found at a path lies at its location.

Following a path, the directories that were passed are remembered. That these are the ones on the
way from the root to the location is what holds after each name (`ApiSuite.Tree.Standing`).
-/

namespace ApiSuite

/-! ### The names in a path -/

namespace Path

section Names

variable {cs ds : List Char} {path directory n : String}

/-- Names that a file can have. -/
def isFileName (n : String) : Bool := n != "" && n != "." && n != ".." && !n.toList.contains '/'

theorem splitSlashes_ne_nil (cs : List Char) : splitSlashes cs ≠ [] := by
  induction cs with
  | nil => simp [splitSlashes]
  | cons c cs ih =>
    unfold splitSlashes
    split
    · simp_all
    · simp
    · split <;> simp

theorem splitSlashes_cons {c : Char} {part : List Char} {parts : List (List Char)} (hc : c ≠ '/')
    (h : splitSlashes cs = part :: parts) : splitSlashes (c :: cs) = (c :: part) :: parts := by
  rw [splitSlashes, h]
  exact hc

theorem splitSlashes_append (cs ds : List Char) :
    splitSlashes (cs ++ '/' :: ds) = splitSlashes cs ++ splitSlashes ds := by
  induction cs with
  | nil => rfl
  | cons c cs ih =>
    by_cases hc : c = '/'
    · subst hc
      show [] :: splitSlashes (cs ++ '/' :: ds) = _
      rw [ih]
      rfl
    · cases hsplit : splitSlashes cs with
      | nil => exact absurd hsplit (splitSlashes_ne_nil cs)
      | cons part parts =>
        rw [hsplit, List.cons_append] at ih
        rw [List.cons_append, splitSlashes_cons hc ih, splitSlashes_cons hc hsplit]
        rfl

theorem splitSlashes_of_not_mem (h : '/' ∉ cs) : splitSlashes cs = [cs] := by
  induction cs with
  | nil => rfl
  | cons c cs ih =>
    rw [List.mem_cons, not_or] at h
    exact splitSlashes_cons (Ne.symm h.1) (ih h.2)

/-- The names between the slashes of a text. -/
def namesOf (cs : List Char) : List String :=
  ((splitSlashes cs).map String.ofList).filter fun n => n != "" && n != "."

theorem names_eq (path : String) : names path = namesOf path.toList := rfl

theorem namesOf_append (cs ds : List Char) :
    namesOf (cs ++ '/' :: ds) = namesOf cs ++ namesOf ds := by
  simp [namesOf, splitSlashes_append]

theorem namesOf_rdropWhile (cs : List Char) : namesOf (cs.rdropWhile isSlash) = namesOf cs := by
  induction cs using List.reverseRecOn with
  | nil => rfl
  | append_singleton cs c ih =>
    by_cases hc : isSlash c
    · rw [List.rdropWhile_concat_pos _ _ _ hc, ih, eq_of_beq hc, namesOf_append]
      simp [namesOf, splitSlashes]
    · rw [List.rdropWhile_concat_neg _ _ _ hc]

/-- The names in the path of an entry are those of its directory and its own. -/
theorem names_pathIn (hn : isFileName n) (directory : String) :
    names (Tree.pathIn directory n) = names directory ++ [n] := by
  simp only [isFileName, Bool.and_eq_true, bne_iff_ne, Bool.not_eq_true', List.contains_eq_mem,
    decide_eq_false_iff_not] at hn
  obtain ⟨⟨⟨hempty, hdot⟩, -⟩, hslash⟩ := hn
  have hown : namesOf n.toList = [n] := by
    simp [namesOf, splitSlashes_of_not_mem hslash, hempty, hdot]
  have hlist : (Tree.pathIn directory n).toList =
      directory.toList.rdropWhile isSlash ++ '/' :: n.toList := by
    simp [Tree.pathIn, toList_withoutSlash]
  rw [names_eq, names_eq, hlist, namesOf_append, namesOf_rdropWhile, hown]

/-- The path of an entry begins at the root of all files only if that of its directory does, or is
empty. -/
theorem isAbsolute_pathIn (hempty : directory ≠ "") (h : isAbsolute directory = false)
    (n : String) : isAbsolute (Tree.pathIn directory n) = false := by
  have hslashes : directory.toList.rdropWhile isSlash ≠ [] := by
    intro hnil
    rw [List.rdropWhile_eq_nil_iff] at hnil
    cases hlist : directory.toList with
    | nil => exact hempty (String.toList_eq_nil_iff.mp hlist)
    | cons c cs =>
      have hc : c = '/' := by simpa [isSlash] using hnil c (by simp [hlist])
      simp [isAbsolute, hlist, hc] at h
  obtain ⟨rest, hrest⟩ := List.rdropWhile_prefix isSlash directory.toList
  have hlist : (Tree.pathIn directory n).toList =
      directory.toList.rdropWhile isSlash ++ '/' :: n.toList := by
    simp [Tree.pathIn, toList_withoutSlash]
  unfold isAbsolute at *
  rw [← hrest, List.head?_append_of_ne_nil _ hslashes] at h
  rw [hlist, List.head?_append_of_ne_nil _ hslashes]
  exact h

theorem pathIn_ne_empty (directory n : String) : Tree.pathIn directory n ≠ "" := by
  intro h
  have hlist := congrArg String.toList h
  simp [Tree.pathIn] at hlist

end Names

/-! ### Locations -/

section Locate

variable {loc loc' ns ms : List String} {n : String}

/-- The location that some names lead to from another one. -/
def locate (loc : List String) : List String → Option (List String)
  | [] => some loc
  | n :: ns =>
    if n == ".." then
      if loc.isEmpty then none else locate loc.dropLast ns
    else locate (loc ++ [n]) ns

theorem locate_name (hn : n ≠ "..") : locate loc (n :: ns) = locate (loc ++ [n]) ns := by
  rw [locate, if_neg (by simpa using hn)]

theorem locate_dots (hloc : loc ≠ []) : locate loc (".." :: ns) = locate loc.dropLast ns := by
  rw [locate, if_pos (by rfl), if_neg (by simpa using hloc)]

theorem locate_append : locate loc (ns ++ ms) = (locate loc ns).bind (locate · ms) := by
  induction ns generalizing loc with
  | nil => rfl
  | cons n ns ih =>
    rw [List.cons_append, locate, locate]
    split
    · split
      · rfl
      · exact ih
    · exact ih

/-- Names without dots lead to themselves. -/
theorem locate_of_not_mem (h : ".." ∉ ns) : locate loc ns = some (loc ++ ns) := by
  induction ns generalizing loc with
  | nil => simp [locate]
  | cons n ns ih =>
    rw [List.mem_cons, not_or] at h
    rw [locate_name (Ne.symm h.1), ih h.2]
    simp

/-- The location of what a path leads to. -/
def location? (path : String) : Option (List String) :=
  if isAbsolute path then none else locate [] (names path)

end Locate

end Path

/-! ### Going down -/

namespace Tree

section Descend

variable {r e e' : Entry} {loc ns ms : List String} {above : List Entry}

/-- What some names lead to, going down from an entry. -/
def descend (e : Entry) : List String → Option Entry
  | [] => some e
  | n :: ns =>
    match e with
    | .file _ => none
    | .directory entries =>
      match entries.lookup n with
      | some child => descend child ns
      | none => none

theorem descend_cons_directory (es : List (String × Entry)) (n : String) (ns : List String) :
    descend (.directory es) (n :: ns) = (es.lookup n).bind (descend · ns) := by
  rw [descend]
  cases es.lookup n <;> rfl

/-- What leads down leads through an entry of a directory first. -/
theorem descend_cons_eq_some {n : String} (h : descend e (n :: ns) = some e') :
    ∃ es child, e = .directory es ∧ (n, child) ∈ es ∧ descend child ns = some e' := by
  cases e with
  | file octets => cases h
  | directory es =>
    rw [descend_cons_directory] at h
    obtain ⟨child, hlookup, hchild⟩ := Option.bind_eq_some_iff.mp h
    obtain ⟨before, after, rfl, -⟩ := List.lookup_eq_some_iff.mp hlookup
    exact ⟨_, child, rfl, by simp, hchild⟩

theorem descend_append (e : Entry) (ns ms : List String) :
    descend e (ns ++ ms) = (descend e ns).bind (descend · ms) := by
  induction ns generalizing e with
  | nil => rfl
  | cons n ns ih =>
    cases e with
    | file octets => rfl
    | directory es =>
      rw [List.cons_append, descend_cons_directory, descend_cons_directory]
      cases es.lookup n with
      | none => rfl
      | some child => exact ih child

theorem descend_concat {es : List (String × Entry)} (h : descend r loc = some (.directory es))
    (n : String) : descend r (loc ++ [n]) = es.lookup n := by
  rw [descend_append, h]
  show descend (.directory es) [n] = _
  rw [descend_cons_directory]
  cases es.lookup n <;> rfl

theorem follow_name {n : String} (hn : n ≠ "..") (es : List (String × Entry)) :
    (Entry.directory es).follow above (n :: ns) =
      (es.lookup n).bind fun child => child.follow (.directory es :: above) ns := by
  simp only [Entry.follow]
  rw [if_neg (by simpa using hn)]
  cases es.lookup n <;> rfl

/-- Where the names followed so far lead: the directories passed are those on the way from the root
to the location. -/
inductive Standing (r : Entry) : List String → List Entry → Entry → Prop
  | root : Standing r [] [] r
  | into {loc above es n e} : Standing r loc above (.directory es) → es.lookup n = some e →
    Standing r (loc ++ [n]) (.directory es :: above) e

theorem Standing.descend (h : Standing r loc above e) : descend r loc = some e := by
  induction h with
  | root => rfl
  | into _ hlookup ih => rw [descend_concat ih, hlookup]

/-- The place before is the directory passed last. -/
theorem Standing.back (h : Standing r loc above e) :
    (loc = [] ∧ above = []) ∨ ∃ parent above', loc ≠ [] ∧ above = parent :: above' ∧
      Standing r loc.dropLast above' parent := by
  cases h with
  | root => exact .inl ⟨rfl, rfl⟩
  | into hparent _ =>
    refine .inr ⟨_, _, by simp, rfl, ?_⟩
    rwa [List.dropLast_concat]

/-- **Following names leads to their location.** -/
theorem Standing.follow (h : Standing r loc above e) (hfollow : e.follow above ns = some e') :
    ∃ loc' above', Path.locate loc ns = some loc' ∧ Standing r loc' above' e' := by
  induction ns generalizing loc above e with
  | nil =>
    have he : e' = e := by
      cases e <;> cases hfollow <;> rfl
    subst he
    exact ⟨loc, above, rfl, h⟩
  | cons n ns ih =>
    cases e with
    | file octets => cases hfollow
    | directory es =>
      -- two dots go back to what was passed last, and any other name goes down
      by_cases hn : n = ".."
      · subst hn
        rcases h.back with ⟨-, rfl⟩ | ⟨parent, above', hloc, rfl, hparent⟩
        · cases hfollow
        · rw [Path.locate_dots hloc]
          exact ih hparent hfollow
      · rw [follow_name hn] at hfollow
        rw [Path.locate_name hn]
        obtain ⟨child, hlookup, hfollow⟩ := Option.bind_eq_some_iff.mp hfollow
        exact ih (h.into hlookup) hfollow

/-- **What is found at a path lies at its location.** -/
theorem find?_eq_some {t : Tree} {path : String} (h : t.find? path = some e) :
    ∃ loc, Path.location? path = some loc ∧ descend t.root loc = some e := by
  unfold find? at h
  unfold Path.location?
  split at h
  · cases h
  · rename_i habsolute
    obtain ⟨loc, above, hlocate, hstanding⟩ := Standing.root.follow h
    exact ⟨loc, by rw [if_neg habsolute, hlocate], hstanding.descend⟩

end Descend

/-! ### Listed files -/

section Listed

variable {q : FileQuery} {directory path n : String} {es : List (String × Entry)}

mutual

/-- Whether an entry is one that a disk can hold: in each directory the names are names of files,
and no two of them are the same. -/
def isTidy : Entry → Bool
  | .file _ => true
  | .directory entries => decide (entries.map Prod.fst).Nodup && areTidy entries

/-- Whether some entries are ones that a disk can hold, under their names. -/
def areTidy : List (String × Entry) → Bool
  | [] => true
  | (n, e) :: es => Path.isFileName n && isTidy e && areTidy es

end

theorem areTidy_iff : areTidy es ↔ ∀ x ∈ es, Path.isFileName x.1 ∧ isTidy x.2 := by
  induction es with
  | nil => simp [areTidy]
  | cons x es ih =>
    obtain ⟨n, e⟩ := x
    rw [areTidy, Bool.and_eq_true, Bool.and_eq_true, ih, List.forall_mem_cons]

theorem isTidy_directory :
    isTidy (.directory es) ↔ (es.map Prod.fst).Nodup ∧
      ∀ x ∈ es, Path.isFileName x.1 ∧ isTidy x.2 := by
  rw [isTidy, Bool.and_eq_true, areTidy_iff, decide_eq_true_iff]

theorem listEach_eq_map (q : FileQuery) (directory : String) (es : List (String × Entry)) :
    listEach q directory es = es.map fun x => (x.1, listAt q (pathIn directory x.1) x.2) := by
  induction es with
  | nil => rfl
  | cons x es ih => rw [listEach, ih, List.map_cons]

/-- Where the path of a listed file leads from a directory. -/
def LeadsInto (path : String) (e : Entry) (file : String) : Prop :=
  ∃ rest octets, ".." ∉ rest ∧ Path.names file = Path.names path ++ rest ∧
    Path.isAbsolute file = false ∧ descend e rest = some (.file octets)

/-- What leads from an entry leads from the directory that holds it. -/
theorem LeadsInto.up {e : Entry} {file : String} (hn : Path.isFileName n)
    (hlookup : es.lookup n = some e) (h : LeadsInto (pathIn path n) e file) :
    LeadsInto path (.directory es) file := by
  obtain ⟨rest, octets, hdots, hnames, habsolute, hfile⟩ := h
  have hn' : n ≠ ".." := by
    rintro rfl
    simp [Path.isFileName] at hn
  refine ⟨n :: rest, octets, ?_, ?_, habsolute, ?_⟩
  · rw [List.mem_cons, not_or]
    exact ⟨hn'.symm, hdots⟩
  · rw [hnames, Path.names_pathIn hn, List.append_assoc]
    rfl
  · rw [descend_cons_directory, hlookup]
    exact hfile

/-- The path of a listed file leads to it. -/
theorem leadsInto_of_listAt (e : Entry) {path : String} (hempty : path ≠ "")
    (habsolute : Path.isAbsolute path = false) (htidy : isTidy e) :
    ∀ file ∈ listAt q path e, LeadsInto path e file := by
  intro file hfile
  refine listAt_induction (P := fun path e file => path ≠ "" → Path.isAbsolute path = false →
    isTidy e → LeadsInto path e file) ?_ ?_ path e file hfile hempty habsolute htidy
  · intro path octets _ _ habsolute _
    exact ⟨[], octets, by simp, by simp, habsolute, rfl⟩
  · intro path es n e file he hentry hempty habsolute htidy
    obtain ⟨hnames, hes⟩ := isTidy_directory.mp htidy
    obtain ⟨hn, he'⟩ := hes _ he
    exact (hentry (Path.pathIn_ne_empty path n) (Path.isAbsolute_pathIn hempty habsolute n)
      he').up hn (Schema.lookup_of_mem hnames he)

/-- **The path of a file listed under a directory leads from there to the file.** -/
theorem leadsInto_of_inOrder (hempty : directory ≠ "")
    (habsolute : Path.isAbsolute directory = false) (htidy : isTidy (.directory es)) {file : String}
    (h : file ∈ inOrder (listEach q directory es)) : LeadsInto directory (.directory es) file := by
  obtain ⟨hnames, hes⟩ := isTidy_directory.mp htidy
  obtain ⟨x, hx, hmem⟩ := mem_inOrder.mp h
  rw [listEach_eq_map] at hx
  obtain ⟨⟨n, e⟩, he, rfl⟩ := List.mem_map.mp hx
  obtain ⟨hn, he'⟩ := hes _ he
  exact (leadsInto_of_listAt e (Path.pathIn_ne_empty directory n)
    (Path.isAbsolute_pathIn hempty habsolute n) he' file hmem).up hn
      (Schema.lookup_of_mem hnames he)

/-- The location of a file below a directory is below that of the directory. -/
theorem LeadsInto.location? {e : Entry} {file : String} {loc : List String}
    (h : LeadsInto path e file) (hloc : Path.locate [] (Path.names path) = some loc) :
    ∃ rest octets, Path.location? file = some (loc ++ rest) ∧
      descend e rest = some (.file octets) := by
  obtain ⟨rest, octets, hdots, hnames, habsolute, hfile⟩ := h
  refine ⟨rest, octets, ?_, hfile⟩
  unfold Path.location?
  rw [if_neg (by simp [habsolute]), hnames, Path.locate_append, hloc]
  exact Path.locate_of_not_mem hdots

end Listed

end Tree

end ApiSuite
