import ApiSuite.Project.Loader
import Mathlib.Data.List.DropRight

/-!
# The files under a directory

In a tree of text files the files under a directory can always be read
(`ApiSuite.Tree.readFiles_of_isText`), and their paths all begin with that directory, so that their
paths relative to it can always be made out (`ApiSuite.exists_relativeToBase`). What a loader does
with the files of a directory can therefore fail only on what a file holds.

Whatever is said of listed files is proved along the listing (`ApiSuite.Tree.listAt_induction`).
That a path begins with the directory it is listed under is carried from each directory to its
entries: the path of an entry is that of the directory without the slashes at its end, a slash, and
the name of the entry.
-/

namespace ApiSuite

/-! ### Slashes at the end -/

namespace Path

section Slashes

variable {cs : List Char}

/-- Whether a character is a slash. -/
abbrev isSlash (c : Char) : Bool := c == '/'

theorem toList_withoutSlash (path : String) :
    (withoutSlash path).toList = path.toList.rdropWhile isSlash := by
  rw [withoutSlash, String.toList_ofList]
  rfl

/-- What stands before a slash, and ends in none itself, stands before a slash also when the slashes
at the end are cut off and one is put there. -/
theorem prefix_rdropWhile (rest : List Char) (h : cs.rdropWhile isSlash = cs) :
    cs ++ ['/'] <+: (cs ++ '/' :: rest).rdropWhile isSlash ++ ['/'] := by
  induction rest using List.reverseRecOn with
  | nil =>
    have hcut : (cs ++ ['/']).rdropWhile isSlash = cs :=
      (List.rdropWhile_concat_pos _ _ _ (by rfl)).trans h
    exact ⟨[], by rw [hcut, List.append_nil]⟩
  | append_singleton rest c ih =>
    have hconcat : cs ++ '/' :: (rest ++ [c]) = (cs ++ '/' :: rest) ++ [c] := by simp
    rw [hconcat]
    by_cases hc : isSlash c
    · rw [List.rdropWhile_concat_pos _ _ _ hc]
      exact ih
    · rw [List.rdropWhile_concat_neg _ _ _ hc]
      exact ⟨rest ++ [c] ++ ['/'], by simp⟩

end Slashes

end Path

/-! ### Listed files begin with their directory -/

/-- What the path of an entry of a directory begins with. -/
def directoryStart (directory : String) : List Char := (Path.withoutSlash directory ++ "/").toList

namespace Tree

section Listing

variable {t : Tree} {q : FileQuery} {directory path name : String} {start : List Char}
  {found : List (String × List String)}

theorem mem_inOrder : path ∈ inOrder found ↔ ∃ x ∈ found, path ∈ x.2 := by
  simp [inOrder]

/-- What a directory begins with, its entries begin with. -/
theorem start_of_pathIn (h : directoryStart directory <+: path.toList) (name : String) :
    directoryStart directory <+: (pathIn path name).toList := by
  obtain ⟨rest, hrest⟩ := h
  -- a directory without slashes at its end keeps that when they are cut off its entry's path
  have hself : (Path.withoutSlash directory).toList.rdropWhile Path.isSlash =
      (Path.withoutSlash directory).toList := by
    rw [Path.toList_withoutSlash]
    exact List.rdropWhile_idempotent _ _
  have hpath : path.toList = (Path.withoutSlash directory).toList ++ '/' :: rest := by
    rw [← hrest, directoryStart]
    simp
  have hstart := Path.prefix_rdropWhile rest hself
  rw [← hpath, ← Path.toList_withoutSlash] at hstart
  have hdirectory : directoryStart directory =
      (Path.withoutSlash directory).toList ++ ['/'] := by
    simp [directoryStart]
  rw [hdirectory, pathIn]
  simp only [String.toList_append]
  exact hstart.trans ⟨name.toList, by simp⟩

/-! ### Induction along a listing -/

section Induction

variable {P : String → Entry → String → Prop}

/-! Entries hold entries, and so the statements about one and about many are proved together. -/

mutual

/-- **Induction along a listing**: what holds of a file that matches, and of a directory if it holds
of an entry in it, holds of whatever is listed at a path. -/
theorem listAt_induction
    (hfile : ∀ path octets, (q.patterns.isEmpty || Glob.matchesAny q.patterns path) = true →
      P path (.file octets) path)
    (hup : ∀ path es n e file, (n, e) ∈ es → P (pathIn path n) e file →
      P path (.directory es) file) :
    ∀ (path : String) (e : Entry), ∀ file ∈ listAt q path e, P path e file
  | path, .file octets, file, hmem => by
    rw [listAt] at hmem
    split at hmem
    · rename_i hadmits
      rw [List.mem_singleton.mp hmem]
      exact hfile path octets hadmits
    · cases hmem
  | path, .directory es, file, hmem => by
    rw [listAt] at hmem
    split at hmem
    · obtain ⟨x, hx, hmem⟩ := mem_inOrder.mp hmem
      obtain ⟨e, he, hentry⟩ := listEach_induction hfile hup path es x hx file hmem
      exact hup path es x.1 e file he hentry
    · cases hmem

theorem listEach_induction
    (hfile : ∀ path octets, (q.patterns.isEmpty || Glob.matchesAny q.patterns path) = true →
      P path (.file octets) path)
    (hup : ∀ path es n e file, (n, e) ∈ es → P (pathIn path n) e file →
      P path (.directory es) file) :
    ∀ (path : String) (es : List (String × Entry)), ∀ x ∈ listEach q path es, ∀ file ∈ x.2,
      ∃ e, (x.1, e) ∈ es ∧ P (pathIn path x.1) e file
  | path, [], x, hx, _, _ => by cases hx
  | path, (n, e) :: es, x, hx, file, hmem => by
    rw [listEach] at hx
    rcases List.mem_cons.mp hx with rfl | hx
    · exact ⟨e, by simp, listAt_induction hfile hup (pathIn path n) e file hmem⟩
    · obtain ⟨e', he', hentry⟩ := listEach_induction hfile hup path es x hx file hmem
      exact ⟨e', List.mem_cons_of_mem _ he', hentry⟩

end

/-- A file listed under a directory is listed at an entry of it. -/
theorem listFiles_induction
    (hfile : ∀ path octets, (q.patterns.isEmpty || Glob.matchesAny q.patterns path) = true →
      P path (.file octets) path)
    (hup : ∀ path es n e file, (n, e) ∈ es → P (pathIn path n) e file →
      P path (.directory es) file)
    (h : path ∈ t.listFiles q directory) : ∃ n e, P (pathIn directory n) e path := by
  unfold listFiles at h
  split at h
  · rename_i es _
    obtain ⟨x, hx, hmem⟩ := mem_inOrder.mp h
    obtain ⟨e, -, hentry⟩ := listEach_induction hfile hup directory es x hx path hmem
    exact ⟨x.1, e, hentry⟩
  · cases h

end Induction

/-- **The path of a listed file begins with the directory it is listed under.** -/
theorem start_of_mem (h : path ∈ t.listFiles q directory) :
    directoryStart directory <+: path.toList := by
  -- what the path of an entry begins with, the paths of the files in it begin with
  obtain ⟨n, e, hstart⟩ := listFiles_induction
    (P := fun path _ file => directoryStart directory <+: path.toList →
      directoryStart directory <+: file.toList)
    (fun _ _ _ hpath => hpath)
    (fun _ _ n _ _ _ hentry hpath => hentry (start_of_pathIn hpath n)) h
  exact hstart ⟨n.toList, by simp [directoryStart, pathIn]⟩

end Listing

/-! ### Files that are text -/

/-- Every file in a tree is text. -/
def IsText (t : Tree) : Prop :=
  ∀ path octets, t.find? path = some (.file octets) → ∃ text, Text.ofOctets octets = .ok text

section Texts

variable {t : Tree} {q : FileQuery} {directory : String}

theorem IsText.readText? (ht : t.IsText) (path : String) :
    ∃ found, t.readText? path = .ok found := by
  unfold Tree.readText?
  split
  · rename_i octets hfile
    obtain ⟨text, htext⟩ := ht path octets hfile
    exact ⟨some text, by rw [htext]; rfl⟩
  · exact ⟨none, rfl⟩

/-- **The files under a directory of text files can be read**: each of them that is there, with its
text. -/
theorem readFiles_of_isText (ht : t.IsText) (q : FileQuery) (directory : String) :
    ∃ files, t.readFiles q directory = .ok files ∧
      ∀ f, f ∈ files ↔ f.1 ∈ t.listFiles q directory ∧ t.readText? f.1 = .ok (some f.2) := by
  choose text htext using ht.readText?
  let file (path : String) : Option (String × String) := (text path).map fun s => (path, s)
  have hread : t.readFiles q directory =
      .ok (((t.listFiles q directory).map file).filterMap id) := by
    unfold readFiles
    rw [mapM_of_forall (g := file) fun path _ => by rw [htext path]; rfl]
    rfl
  refine ⟨_, hread, fun f => ?_⟩
  obtain ⟨path, contents⟩ := f
  rw [List.filterMap_map, List.mem_filterMap]
  constructor
  · rintro ⟨path', hpath, hfile⟩
    obtain ⟨s, hs, heq⟩ := Option.map_eq_some_iff.mp hfile
    cases heq
    exact ⟨hpath, by rw [htext, hs]⟩
  · rintro ⟨hpath, hcontents⟩
    rw [htext path] at hcontents
    refine ⟨path, hpath, ?_⟩
    show (text path).map _ = _
    rw [Except.ok.inj hcontents]
    rfl

end Texts

/-! Whether all files in an entry are text can be found out by looking at each of them. -/

mutual

/-- Whether every file in an entry is text. -/
def entryIsText : Entry → Bool
  | .file octets => (Text.ofOctets octets).isOk
  | .directory entries => entriesAreText entries

/-- Whether every file in some entries is text. -/
def entriesAreText : List (String × Entry) → Bool
  | [] => true
  | (_, e) :: es => entryIsText e && entriesAreText es

end

theorem entryIsText_of_lookup {name : String} {e : Entry} :
    ∀ {es : List (String × Entry)}, entriesAreText es → es.lookup name = some e → entryIsText e
  | (n, e') :: es, htext, hlookup => by
    rw [entriesAreText, Bool.and_eq_true] at htext
    rw [List.lookup_cons] at hlookup
    split at hlookup
    · cases hlookup
      exact htext.1
    · exact entryIsText_of_lookup htext.2 hlookup

/-- Names lead from text to text. -/
theorem entryIsText_follow {e' : Entry} (ns : List String) :
    ∀ {above : List Entry} {e : Entry}, (∀ a ∈ above, entryIsText a) → entryIsText e →
      e.follow above ns = some e' → entryIsText e' := by
  induction ns with
  | nil =>
    rintro above e - htext ⟨⟩
    exact htext
  | cons n ns ih =>
    intro above e habove htext hfollow
    cases e with
    | file octets => cases hfollow
    | directory entries =>
      simp only [Entry.follow] at hfollow
      split at hfollow
      · cases above with
        | nil => cases hfollow
        | cons parent above =>
          obtain ⟨hparent, habove⟩ := List.forall_mem_cons.mp habove
          exact ih habove hparent hfollow
      · split at hfollow
        · rename_i child hchild
          have hall : ∀ a ∈ Entry.directory entries :: above, entryIsText a :=
            List.forall_mem_cons.mpr ⟨htext, habove⟩
          rw [entryIsText] at htext
          exact ih hall (entryIsText_of_lookup htext hchild) hfollow
        · cases hfollow

/-- **A tree whose entries are text is a tree of text files.** -/
theorem isText_of_entriesAreText {t : Tree} (h : entriesAreText t.entries) : t.IsText := by
  intro path octets hfile
  have htext : entryIsText (.file octets) := by
    unfold find? at hfile
    split at hfile
    · cases hfile
    · exact entryIsText_follow (Path.names path) (by simp) (by rwa [root, entryIsText]) hfile
  rw [entryIsText] at htext
  cases hread : Text.ofOctets octets with
  | ok text => exact ⟨text, rfl⟩
  | error fault => simp [hread, Except.isOk, Except.toBool] at htext

end Tree

/-! ### Paths relative to the base -/

/-- **A listed file has a path relative to the directory it is listed under.** -/
theorem exists_relativeToBase {t : Tree} {q : FileQuery} {base path : String}
    (h : path ∈ t.listFiles q base) (here : List String) :
    ∃ relative, relativeToBase here base path = .ok relative := by
  unfold relativeToBase
  split
  · exact ⟨_, rfl⟩
  · have hstart : (directoryStart base).isPrefixOf path.toList :=
      List.isPrefixOf_iff_prefix.mpr (Tree.start_of_mem h)
    have hafter : Path.after? (Path.withoutSlash base ++ "/") path =
        some (String.ofList (path.toList.drop (directoryStart base).length)) := by
      unfold Path.after?
      exact if_pos hstart
    rw [hafter]
    exact ⟨_, rfl⟩

end ApiSuite
