import ApiSuite.Proofs.Project.DoubleStar
import ApiSuite.Proofs.Project.Loading
import ApiSuite.Proofs.Project.Walk

/-!
# Endings of names

What kind of test file a path leads to is told in three ways: by the patterns of the loaders, by a
pattern with alternatives in the options of a project, and, for a listing, by the ending of the
path. This file shows that they come to the same. A pattern that opens with a star pair, a slash and
a star before a text without further marks asks for nothing but the ending
(`ApiSuite.Glob.matchesAny_ending`), so that whatever is asked for by patterns is a question about
the endings of one text, of which two are endings of each other or exclude each other.

A listing looks for the ending of a case file first, then for that of a flow, and takes the rest for
request files. This order would matter only if a path had two of the endings
(`ApiSuite.Project.kindOf_eq_iff`).
-/

namespace ApiSuite

/-! ### Patterns of an ending -/

namespace Glob

/-- A text that stands for itself in a pattern, with no mark in it that stands for anything else. -/
def IsLiteral (cs : List Char) : Prop := ∀ c ∈ cs, c ≠ '*' ∧ c ≠ '?' ∧ c ≠ '[' ∧ c ≠ '{'

instance decidableIsLiteral (cs : List Char) : Decidable (IsLiteral cs) :=
  List.decidableBAll (fun c => c ≠ '*' ∧ c ≠ '?' ∧ c ≠ '[' ∧ c ≠ '{') cs

section Endings

variable {w cs path base : List Char}

theorem parts_literal (h : IsLiteral w) : parts w = w.map .char := by
  induction w with
  | nil => rw [parts]; rfl
  | cons c w ih =>
    obtain ⟨⟨hstar, hone, hset, -⟩, hw⟩ := List.forall_mem_cons.mp h
    rw [parts_char hstar hone hset, ih hw, List.map_cons]

theorem matchesParts_literal (w cs : List Char) :
    matchesParts (w.map .char) cs = true ↔ cs = w := by
  induction w generalizing cs with
  | nil => simp [matchesParts]
  | cons c w ih =>
    cases cs with
    | nil => simp [matchesParts]
    | cons d cs =>
      rw [List.map_cons, matchesParts, Bool.and_eq_true, beq_iff_eq, ih, List.cons.injEq]
      exact and_congr_left fun _ => eq_comm

/-- A star before a text asks for that ending. -/
theorem matchesText_star (h : IsLiteral w) : matchesText ('*' :: w) cs = true ↔ w <:+ cs := by
  rw [matchesText, parts_star, parts_literal h, matchesParts_star]
  constructor
  · rintro ⟨x, y, rfl, hy⟩
    exact ⟨x, by rw [(matchesParts_literal w y).mp hy]⟩
  · rintro ⟨x, rfl⟩
    exact ⟨x, w, rfl, (matchesParts_literal w w).mpr rfl⟩

/-- A star after a slash asks for a slash somewhere before that ending. -/
theorem suffix_of_matchesText (h : IsLiteral w)
    (hmatch : matchesText ('*' :: '*' :: '/' :: '*' :: w) cs = true) : w <:+ cs := by
  rw [matchesText, parts_star, parts_star, sameTexts_star_star, matchesParts_star] at hmatch
  obtain ⟨x, y, rfl, hy⟩ := hmatch
  rw [parts_char (by decide) (by decide) (by decide)] at hy
  cases y with
  | nil => simp [matchesParts] at hy
  | cons d y =>
    rw [matchesParts, Bool.and_eq_true] at hy
    have hend : w <:+ y := (matchesText_star h).mp hy.2
    exact (hend.trans (List.suffix_cons d y)).trans (List.suffix_append x _)

/-- **A star pair, a slash and a star** before a text ask for that ending, in a path as in its last
name. -/
theorem matchesOne_ending (h : IsLiteral w) (path : String) :
    matchesOne (String.ofList ('*' :: '*' :: '/' :: '*' :: w)) path = true ↔ w <:+ path.toList := by
  rw [matchesOne_ofList, matchesTrimmed_cons, Bool.or_eq_true, Bool.or_eq_true, matchesText_star h,
    matchesText_star h]
  constructor
  · rintro (hall | (hbase | hpath) | htrimmed)
    · exact suffix_of_matchesText h hall
    · rcases baseName_cases path with hname | ⟨before, hname⟩
      · exact hname ▸ hbase
      · rw [hname]
        exact (hbase.trans (List.suffix_cons '/' _)).trans (List.suffix_append before _)
    · exact hpath
    · -- no star pair is left at the beginning
      have hnone : matchesTrimmed path.toList (Path.baseName path).toList ('*' :: w) = false := by
        refine matchesTrimmed_of_not fun v hv => ?_
        have hmem : '*' ∈ w := by simp [(List.cons.inj hv).2]
        exact (h _ hmem).1 rfl
      cases hnone.symm.trans htrimmed
  · exact fun hend => .inr (.inl (.inr hend))

theorem endsWith_iff (w path : String) : Document.endsWith w path = true ↔
    w.toList <:+ path.toList := List.isSuffixOf_iff_suffix

theorem isLiteral_opening {w : List Char} (h : IsLiteral w) : '{' ∉ w :=
  fun hmem => (h _ hmem).2.2.2 rfl

/-- **A pattern of an ending** asks whether a path ends so. -/
theorem matchesAny_ending {w : String} (h : IsLiteral w.toList) (path : String) :
    matchesAny ["**/*" ++ w] path = Document.endsWith w path := by
  have htext : ("**/*" ++ w).toList = '*' :: '*' :: '/' :: '*' :: w.toList := by simp
  have hgroup : ¬HasGroup ('*' :: '*' :: '/' :: '*' :: w.toList) := fun hgroup => by
    have hmem : '{' ∈ '*' :: '*' :: '/' :: '*' :: w.toList := hgroup.subset List.mem_cons_self
    simp [isLiteral_opening h] at hmem
  rw [Bool.eq_iff_iff, matchesAny_singleton, htext, expansions_of_none hgroup, endsWith_iff,
    ← matchesOne_ending h path]
  simp

/-- Patterns of endings ask whether a path has one of them. -/
theorem matchesAny_endings {ws : List String} (h : ∀ w ∈ ws, IsLiteral w.toList) (path : String) :
    matchesAny (ws.map ("**/*" ++ ·)) path = true ↔
      ∃ w ∈ ws, Document.endsWith w path = true := by
  induction ws with
  | nil => simp [matchesAny]
  | cons w ws ih =>
    obtain ⟨hw, hws⟩ := List.forall_mem_cons.mp h
    have hsplit : matchesAny (("**/*" ++ w) :: ws.map ("**/*" ++ ·)) path =
        (matchesAny ["**/*" ++ w] path || matchesAny (ws.map ("**/*" ++ ·)) path) := by
      simp [matchesAny]
    rw [List.map_cons, hsplit, Bool.or_eq_true, matchesAny_ending hw, ih hws]
    simp

theorem matchesAny_append (patterns patterns' : List String) (path : String) :
    matchesAny (patterns ++ patterns') path =
      (matchesAny patterns path || matchesAny patterns' path) := by
  simp [matchesAny]

/-- A pattern with alternatives asks for what the patterns ask that it stands for. -/
theorem matchesAny_expanded {pattern : String} {patterns : List String}
    (hexpand : expandBraces pattern = patterns) (hplain : ∀ p ∈ patterns, expandBraces p = [p])
    (path : String) : matchesAny [pattern] path = matchesAny patterns path := by
  subst hexpand
  rw [Bool.eq_iff_iff]
  simp only [matchesAny, List.any_cons, List.any_nil, Bool.or_false, List.any_eq_true]
  constructor
  · rintro ⟨p, hp, hmatch⟩
    exact ⟨p, hp, p, by simp [hplain p hp], hmatch⟩
  · rintro ⟨p, hp, q, hq, hmatch⟩
    rw [hplain p hp, List.mem_singleton] at hq
    exact ⟨p, hp, hq ▸ hmatch⟩

end Endings

end Glob

/-! ### Listed files match -/

namespace Tree

section Listing

variable {t : Tree} {q : FileQuery} {directory path : String} {files : List (String × String)}

/-- **A listed file matches** what is asked for. -/
theorem admits_of_mem (h : path ∈ t.listFiles q directory) : Admits q path := by
  obtain ⟨-, -, hadmits⟩ := listFiles_induction (P := fun _ _ file => Admits q file)
    (fun _ _ hadmits => by simpa [Admits] using hadmits) (fun _ _ _ _ _ _ hentry => hentry) h
  exact hadmits

/-- A file that is read is one that is listed. -/
theorem mem_listFiles_of_readFiles {f : String × String} (h : t.readFiles q directory = .ok files)
    (hf : f ∈ files) : f.1 ∈ t.listFiles q directory := by
  obtain ⟨found, hfound, rfl⟩ := readFiles_eq_ok_iff.mp h
  obtain ⟨f', hf', hid⟩ := List.mem_filterMap.mp hf
  obtain ⟨path, hpath, hfile⟩ := exists_of_mem_mapM hfound hf'
  obtain ⟨text, -, rfl⟩ := fileAt_eq_ok_iff.mp hfile
  obtain ⟨contents, -, rfl⟩ := Option.map_eq_some_iff.mp hid
  exact hpath

end Listing

end Tree

/-! ### Kinds of test files -/

namespace Project

/-- The patterns of the test files of a kind. -/
def patternsOf : TestKind → List String
  | .request => requestPatterns
  | .flow => flowPatterns
  | .case => casePatterns

/-- The endings of the paths of test files of a kind. -/
def endingsOf : TestKind → List String
  | .request => [".ply.yaml", ".ply.yml", ".ply"]
  | .flow => [".ply.flow"]
  | .case => [".ply.ts"]

/-- The kind that a file is listed as, by the ending of its path. -/
def kindOf (path : String) : TestKind :=
  if Document.endsWith ".ply.ts" path then .case
  else if Document.endsWith ".ply.flow" path then .flow
  else .request

/-- What a file gives in a listing if it is read as one of a kind: a case file is not read. -/
def readAs (p : Project) (base : String) (kind : TestKind) (f : String × String) :
    Traced (List Listed) :=
  match kind with
  | .case => pure []
  | .flow => one ((TestFile.ofFlow p.here base f.1 f.2).map Sum.inl)
  | .request => one ((TestFile.ofRequests p.here base f.1 f.2).map Sum.inl)

section Kinds

variable {p : Project} {base path : String} {kind kind' : TestKind} {files : List (String × String)}

theorem readListed_eq (p : Project) (base : String) (f : String × String) :
    p.readListed base f = p.readAs base (kindOf f.1) f := by
  unfold readListed kindOf
  cases Document.endsWith ".ply.ts" f.1
  · cases Document.endsWith ".ply.flow" f.1 <;> rfl
  · rfl

/-- **The patterns of a kind** ask for its endings. -/
theorem matchesAny_patternsOf (kind : TestKind) (path : String) :
    Glob.matchesAny (patternsOf kind) path = true ↔
      ∃ w ∈ endingsOf kind, Document.endsWith w path = true := by
  have hpatterns : patternsOf kind = (endingsOf kind).map ("**/*" ++ ·) := by
    cases kind <;> rfl
  rw [hpatterns, Glob.matchesAny_endings]
  cases kind <;> decide

/-- **The pattern of the options** asks for the endings of request files. -/
theorem matchesAny_requestFiles (path : String) :
    Glob.matchesAny [ProjectOptions.default.requestFiles] path =
      Glob.matchesAny requestPatterns path := by
  have hexpand : Glob.expandBraces ProjectOptions.default.requestFiles =
      [".ply", ".ply.yaml", ".ply.yml"].map ("**/*" ++ ·) := by decide
  have hliteral : ∀ w ∈ [".ply", ".ply.yaml", ".ply.yml"], Glob.IsLiteral w.toList := by decide
  rw [Glob.matchesAny_expanded hexpand (by decide), Bool.eq_iff_iff,
    Glob.matchesAny_endings hliteral]
  refine Iff.trans ?_ (matchesAny_patternsOf .request path).symm
  simp only [endingsOf, List.mem_cons, List.not_mem_nil, or_false]
  constructor
  · rintro ⟨w, hw, hend⟩
    exact ⟨w, by tauto, hend⟩
  · rintro ⟨w, hw, hend⟩
    exact ⟨w, by tauto, hend⟩

/-- **No path has the endings of two kinds**, as none of them is an ending of another. -/
theorem eq_of_endings {w w' : String} (hw : w ∈ endingsOf kind) (hw' : w' ∈ endingsOf kind')
    (h : Document.endsWith w path = true) (h' : Document.endsWith w' path = true) :
    kind = kind' := by
  rw [Glob.endsWith_iff] at h h'
  have hnested : w.toList <:+ w'.toList ∨ w'.toList <:+ w.toList :=
    List.suffix_or_suffix_of_suffix h h'
  have hapart : ∀ kind kind', ∀ w ∈ endingsOf kind, ∀ w' ∈ endingsOf kind',
      w.toList <:+ w'.toList → kind = kind' := by
    intro kind kind'
    cases kind <;> cases kind' <;> unfold endingsOf <;> decide
  exact hnested.elim (hapart _ _ w hw w' hw') fun h => (hapart _ _ w' hw' w hw h).symm

theorem matchesAny_listedPatterns (path : String) : Glob.matchesAny listedPatterns path = true ↔
    ∃ kind, Glob.matchesAny (patternsOf kind) path = true := by
  rw [listedPatterns, Glob.matchesAny_append, Glob.matchesAny_append, Bool.or_eq_true,
    Bool.or_eq_true]
  constructor
  · rintro ((h | h) | h)
    · exact ⟨.request, h⟩
    · exact ⟨.flow, h⟩
    · exact ⟨.case, h⟩
  · rintro ⟨kind, h⟩
    cases kind with
    | request => exact .inl (.inl h)
    | flow => exact .inl (.inr h)
    | case => exact .inr h

/-- A file whose path has an ending of a kind is listed as one of that kind. -/
theorem kindOf_of_ending {w : String} (hw : w ∈ endingsOf kind)
    (h : Document.endsWith w path = true) : kindOf path = kind := by
  have hcaseEnding : ".ply.ts" ∈ endingsOf .case := List.mem_cons_self
  have hflowEnding : ".ply.flow" ∈ endingsOf .flow := List.mem_cons_self
  unfold kindOf
  split
  · rename_i hcase
    exact eq_of_endings hcaseEnding hw hcase h
  · rename_i hcase
    split
    · rename_i hflow
      exact eq_of_endings hflowEnding hw hflow h
    · rename_i hflow
      cases kind with
      | request => rfl
      | flow =>
        rw [List.mem_singleton.mp hw] at h
        exact absurd h hflow
      | case =>
        rw [List.mem_singleton.mp hw] at h
        exact absurd h hcase

/-- **A file that matches any of the patterns** is listed as one of the kind whose patterns it
matches. -/
theorem kindOf_eq_iff (h : Glob.matchesAny listedPatterns path = true) :
    kindOf path = kind ↔ Glob.matchesAny (patternsOf kind) path = true := by
  have hkind {kind : TestKind} (hmatch : Glob.matchesAny (patternsOf kind) path = true) :
      kindOf path = kind := by
    obtain ⟨w, hw, hend⟩ := (matchesAny_patternsOf kind path).mp hmatch
    exact kindOf_of_ending hw hend
  constructor
  · rintro rfl
    obtain ⟨kind', hmatch⟩ := (matchesAny_listedPatterns path).mp h
    exact (hkind hmatch).symm ▸ hmatch
  · exact hkind

/-- A file in a directory is listed if its path has an ending of a kind. -/
theorem mem_listFiles_of_ending {t : Tree} {directory name w : String} {octets : List UInt8}
    {es : List (String × Entry)} (hfind : t.find? directory = some (.directory es))
    (hin : (name, .file octets) ∈ es) (hw : w ∈ endingsOf kind)
    (hend : Document.endsWith w (Tree.pathIn directory name) = true) :
    Tree.pathIn directory name ∈ t.listFiles ⟨true, listedPatterns⟩ directory := by
  have hmatch : Glob.matchesAny listedPatterns (Tree.pathIn directory name) = true :=
    (matchesAny_listedPatterns _).mpr ⟨kind, (matchesAny_patternsOf kind _).mpr ⟨w, hw, hend⟩⟩
  unfold Tree.listFiles
  rw [hfind]
  dsimp only
  rw [Tree.listEach_eq_map]
  refine Tree.mem_inOrder.mpr ⟨_, List.mem_map_of_mem hin, ?_⟩
  simp [Tree.listAt, hmatch]

end Kinds

/-- **Patterns ask for endings, and all that tells kinds of files apart agrees.** A pattern of an
ending matches the paths that end so; the pattern of the options matches what those for request
files match; and a listing reads every file that is listed as one of the kind whose patterns the
file matches, of which there is one, case files not being read. -/
theorem patterns_are_endings :
    (∀ w path : String, Glob.IsLiteral w.toList →
      Glob.matchesAny ["**/*" ++ w] path = Document.endsWith w path) ∧
    (∀ path, Glob.matchesAny [ProjectOptions.default.requestFiles] path =
      Glob.matchesAny requestPatterns path) ∧
    ∀ (p : Project) (base : String) (files : List (String × String)),
      p.files listedPatterns base = .ok files →
      (∀ f ∈ files, ∀ kind,
        kindOf f.1 = kind ↔ Glob.matchesAny (patternsOf kind) f.1 = true) ∧
      p.loadListing base = listingOf base <$> gather (fun f =>
        contain "test_file_load_failed" f.1 (unlisted f) (p.readAs base (kindOf f.1) f)) files := by
  refine ⟨fun w path hw => Glob.matchesAny_ending hw path, matchesAny_requestFiles,
    fun p base files hfiles => ⟨fun f hf kind => kindOf_eq_iff ?_, ?_⟩⟩
  · have hlisted := Tree.admits_of_mem (Tree.mem_listFiles_of_readFiles hfiles hf)
    exact hlisted.resolve_left (by simp [listedPatterns, requestPatterns])
  · rw [loadListing_eq, loadFiles_of_files hfiles]
    simp only [readListed_eq]

/-- A project with a flow and a case file of one name. -/
def flowAndCase : Project where
  tree := ⟨[("a.ply.flow", .file []), ("a.ply.ts", .file [])]⟩
  here := []
  options := ⟨none, none, none, false, .default⟩

/-- Both files are listed, one as a flow and the other not read; and a path that is nothing but an
ending has it. -/
theorem patterns_are_endings_flowAndCase :
    Glob.IsLiteral ".ply".toList ∧ Glob.matchesAny ["**/*.ply"] ".ply" = true ∧
      ∃ files, flowAndCase.files listedPatterns "." = .ok files ∧
        ("./a.ply.flow", "") ∈ files ∧ ("./a.ply.ts", "") ∈ files ∧
        (kindOf "./a.ply.flow" = .flow ∧ Glob.matchesAny flowPatterns "./a.ply.flow" = true) ∧
        kindOf "./a.ply.ts" = .case ∧ Glob.matchesAny casePatterns "./a.ply.ts" = true := by
  have hliteral : Glob.IsLiteral ".ply".toList := by decide
  have htext : flowAndCase.tree.IsText := Tree.isText_of_entriesAreText (by decide +kernel)
  obtain ⟨files, hfiles, hmem⟩ := Tree.readFiles_of_isText htext ⟨true, listedPatterns⟩ "."
  have hroot : flowAndCase.tree.find? "." = some (.directory flowAndCase.tree.entries) := rfl
  have hflow : Tree.pathIn "." "a.ply.flow" = "./a.ply.flow" := by decide +kernel
  have hcase : Tree.pathIn "." "a.ply.ts" = "./a.ply.ts" := by decide +kernel
  have hflowEnding : ".ply.flow" ∈ endingsOf .flow := List.mem_cons_self
  have hcaseEnding : ".ply.ts" ∈ endingsOf .case := List.mem_cons_self
  have hflowIn : ("./a.ply.flow", "") ∈ files := (hmem _).mpr
    ⟨hflow ▸ mem_listFiles_of_ending hroot List.mem_cons_self hflowEnding (by decide +kernel), rfl⟩
  have hcaseIn : ("./a.ply.ts", "") ∈ files := (hmem _).mpr
    ⟨hcase ▸ mem_listFiles_of_ending hroot (List.mem_cons_of_mem _ List.mem_cons_self) hcaseEnding
      (by decide +kernel), rfl⟩
  obtain ⟨hending, -, hlisting⟩ := patterns_are_endings
  obtain ⟨hkinds, -⟩ := hlisting flowAndCase "." files hfiles
  have hkind : kindOf "./a.ply.flow" = .flow ∧ kindOf "./a.ply.ts" = .case := by decide +kernel
  refine ⟨hliteral, ?_, files, hfiles, hflowIn, hcaseIn,
    ⟨hkind.1, (hkinds _ hflowIn .flow).mp hkind.1⟩, hkind.2, (hkinds _ hcaseIn .case).mp hkind.2⟩
  exact (hending ".ply" ".ply" hliteral).trans (by decide)

end Project

end ApiSuite
