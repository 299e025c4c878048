import ApiSuite.Proofs.Project.Loading
import ApiSuite.Proofs.Project.Removal

/-!
# Bad documents in a load

A document that cannot be read, for a reason that loaders know, has no part in what a load gives: it
is told of and passed over, in a listing with the reason, and everything else is what it is in a
project where the document is not there (`ApiSuite.Project.Without`). A document that crashes ends
the load for all of them. Which documents crash is known for every kind of them, and so the two can
be told apart from the texts of the files alone (`ApiSuite.Project.loads_contained`).

That a load of flows comes to an end whatever the files hold is therefore false: one attribute that
is a day ends it (`ApiSuite.Project.loadFlows_crashes`).
-/

namespace ApiSuite

namespace Project

/-! ### Documents that are passed over -/

section PassedOver

variable {α : Type} {event path : String} {instead : Fault → List α} {x : Traced (List α)}

/-- A document gives nothing: there is nothing in it that counts, or it cannot be read for a reason
that loaders know. -/
def IsPassedOver (x : Traced (List α)) : Prop :=
  x.result = .ok [] ∨ ∃ fault, x.result = .error fault ∧ fault.isKnown

instance decidableIsPassedOver (x : Traced (List α)) : Decidable (IsPassedOver x) :=
  decidable_of_iff
    ((match x.result with
      | .ok found => found.isEmpty
      | .error fault => fault.isKnown) = true) <| by
    unfold IsPassedOver
    cases x.result <;> simp

/-- What is given for a document that is passed over is nothing, or what is given instead of it. -/
theorem result_contain_of_isPassedOver (h : IsPassedOver x) :
    (contain event path instead x).result = .ok [] ∨
      ∃ fault, (contain event path instead x).result = .ok (instead fault) := by
  rcases h with h | ⟨fault, h, hknown⟩
  · have hends : ¬HasCrash x.result := by
      rw [h]
      exact not_hasCrash_ok []
    left
    rw [contain_of_not_hasCrash hends]
    unfold outcome
    rw [h]
  · have hends : ¬HasCrash x.result := by
      rw [not_hasCrash_iff]
      rintro fault' hfault
      cases h.symm.trans hfault
      exact hknown
    right
    refine ⟨fault, ?_⟩
    rw [contain_of_not_hasCrash hends]
    unfold outcome
    rw [h]

end PassedOver

/-! ### The files under a directory -/

section Files

variable {p p' : Project} {patterns : List String} {directory event : String} {α : Type}
  {instead : String × String → Fault → List α} {read : String × String → Traced (List α)}
  {gone : String → Bool}

/-- The files under a directory can be read, and have a path relative to it. -/
theorem exists_files (ht : p.tree.IsText) (patterns : List String) (directory : String) :
    ∃ files, p.files patterns directory = .ok files ∧
      ∀ f ∈ files, ∃ relative, relativeToBase p.here directory f.1 = .ok relative := by
  obtain ⟨files, hfiles, hmem⟩ := Tree.readFiles_of_isText ht ⟨true, patterns⟩ directory
  exact ⟨files, hfiles, fun f hf => exists_relativeToBase ((hmem f).mp hf).1 p.here⟩

/-- A load of the files under a directory, in which each of them is contained. -/
def FilesContained (p : Project) (patterns : List String) (directory event : String) {α : Type}
    (instead : String × String → Fault → List α) (read : String × String → Traced (List α))
    (crashes : String × String → Prop) (load : Traced (List α)) : Prop :=
  ∃ files, p.files patterns directory = .ok files ∧
    Contained event Prod.fst instead read crashes files load

/-- **In a load of files each of them is contained.** -/
theorem filesContained_loadFiles {crashes : String × String → Prop} (ht : p.tree.IsText)
    (hcrashes : ∀ f relative, relativeToBase p.here directory f.1 = .ok relative →
      (HasCrash (read f).result ↔ crashes f)) :
    FilesContained p patterns directory event instead read crashes
      (p.loadFiles patterns directory event instead read) := by
  obtain ⟨files, hfiles, hrelative⟩ := exists_files ht patterns directory
  refine ⟨files, hfiles, ?_⟩
  rw [loadFiles_of_files hfiles]
  refine contained_gather fun f hf => ?_
  obtain ⟨relative, hf⟩ := hrelative f hf
  exact hcrashes f relative hf

/-- All that is gone of the files under a directory is passed over. -/
def GonePassedOver (p : Project) (patterns : List String) (directory : String)
    (gone : String → Bool) {α : Type} (read : String × String → Traced (List α)) : Prop :=
  ∀ files, p.files patterns directory = .ok files →
    ∀ f ∈ files, gone f.1 → IsPassedOver (read f)

/-- **Files that are passed over have no part in what a load gives**, but for what is given instead
of them. -/
theorem loadFiles_without (h : Without gone p' p) (ht : p.tree.IsText) (stays : α → Bool)
    (hkeep : ∀ f, gone f.1 = false → ∀ found,
      (contain event f.1 (instead f) (read f)).result = .ok found → found.filter stays = found)
    (hleave : ∀ f fault, gone f.1 = true → (instead f fault).filter stays = [])
    (hgone : GonePassedOver p patterns directory gone read) :
    (p'.loadFiles patterns directory event instead read).result =
      (p.loadFiles patterns directory event instead read).result.map (·.filter stays) := by
  obtain ⟨files, hfiles, -⟩ := exists_files ht patterns directory
  rw [loadFiles_of_files hfiles, loadFiles_of_files (h.files _ _ _ hfiles)]
  refine result_gather_filter stays (fun f _ hf => hkeep f (by simpa using hf)) ?_
  intro f hf hleft
  have hpath : gone f.1 = true := by simpa using hleft
  rcases result_contain_of_isPassedOver (hgone files hfiles f hf hpath) with
    hresult | ⟨fault, hresult⟩
  · exact ⟨[], hresult, rfl⟩
  · exact ⟨_, hresult, hleave f fault hpath⟩

/-- Where nothing is given instead of a file that cannot be read, the load is the same. -/
theorem loadFiles_without_nothing (h : Without gone p' p) (ht : p.tree.IsText)
    (hgone : GonePassedOver p patterns directory gone read) :
    (p'.loadFiles patterns directory event (fun _ _ => []) read).result =
      (p.loadFiles patterns directory event (fun _ _ => []) read).result := by
  rw [loadFiles_without h ht (fun _ => true) (fun _ _ found _ => List.filter_true found)
    (fun _ _ _ => rfl) hgone]
  generalize (p.loadFiles patterns directory event (fun _ _ => []) read).result = r
  cases r <;> simp [Except.map]

end Files

/-! ### Listings without some files -/

/-- A listing without what it says of files that are gone. -/
def forget (gone : String → Bool) (l : Listing) : Listing :=
  let errors := (l.errors.getD []).filter fun e => !gone e.file
  { l with errors := if errors.isEmpty then none else some errors }

section Listings

variable {p : Project} {gone : String → Bool} {base : String}

/-- Whether what was listed is of a file that is not gone, or no reason. -/
def stays (gone : String → Bool) : Listed → Bool
  | .inl _ => true
  | .inr e => !gone e.file

theorem listedFiles_filter (found : List Listed) :
    listedFiles (found.filter (stays gone)) = listedFiles found := by
  induction found with
  | nil => rfl
  | cons l found ih =>
    unfold listedFiles at *
    rw [List.filter_cons]
    cases l with
    | inl t => simpa [stays] using ih
    | inr e => cases hgone : gone e.file <;> simpa [stays, hgone] using ih

theorem listedErrors_filter (found : List Listed) :
    listedErrors (found.filter (stays gone)) =
      (listedErrors found).filter fun e => !gone e.file := by
  induction found with
  | nil => rfl
  | cons l found ih =>
    unfold listedErrors at *
    rw [List.filter_cons]
    cases l with
    | inl t => simpa [stays] using ih
    | inr e => cases hgone : gone e.file <;> simpa [stays, hgone] using ih

theorem listingOf_filter (found : List Listed) :
    listingOf base (found.filter (stays gone)) = forget gone (listingOf base found) := by
  have hgiven : (listingOf base found).errors.getD [] = listedErrors found := by
    unfold listingOf
    cases listedErrors found <;> rfl
  unfold forget
  rw [hgiven, ← listedErrors_filter]
  unfold listingOf
  rw [listedFiles_filter]

/-- What is given of a test file is that file. -/
theorem stays_of_one {r : Except Fault TestFile} {found : List Listed}
    (h : (one (r.map Sum.inl)).result = .ok found) : ∀ l ∈ found, stays gone l := by
  cases r with
  | error fault => cases h
  | ok t =>
    cases h
    simp [stays]

/-- Nothing that is given of a file that is not gone is gone. -/
theorem filter_stays {f : String × String} {found : List Listed} (hkeep : gone f.1 = false)
    (h : (contain "test_file_load_failed" f.1 (unlisted f) (p.readListed base f)).result =
      .ok found) : found.filter (stays gone) = found := by
  rw [List.filter_eq_self]
  by_cases hcrash : HasCrash (p.readListed base f).result
  · obtain ⟨c, hc⟩ := hcrash
    rw [contain_of_crash hc] at h
    cases hc.symm.trans h
  · rw [contain_of_not_hasCrash hcrash] at h
    cases h
    unfold outcome
    cases hread : (p.readListed base f).result with
    | error fault => simp [unlisted, stays, hkeep]
    | ok found =>
      unfold readListed at hread
      split at hread
      · cases hread
        simp
      · exact stays_of_one hread

end Listings

/-! ### Each load -/

section Loads

variable {p p' : Project} {gone : String → Bool} {base : String} {paths : List String}

/-- What bad documents do to the loads of a project. -/
structure LoadsContained (p : Project) (base : String) (paths : List String) : Prop where
  flows : FilesContained p flowPatterns base "flow_load_failed" (fun _ _ => [])
    (fun f => one (p.readFlow base f.1 f.2)) (fun f => FlowCrashes f.2) (p.loadFlows base)
  suites : FilesContained p requestPatterns base "request_suite_load_failed" (fun _ _ => [])
    (fun f => one (p.readSuite base f.1 f.2)) (fun f => SuiteCrashes f.1 f.2) (p.loadSuites base)
  /-- In a listing the reason is given instead of a file that cannot be read. -/
  listing : ∃ found, p.loadListing base = listingOf base <$> found ∧
    FilesContained p listedPatterns base "test_file_load_failed" unlisted (p.readListed base)
      ListedCrashes found
  values : Contained "values_file_invalid" id (fun _ _ => []) p.readValues p.ValuesFileCrashes
    paths (p.loadValues paths)
  expected : FilesContained p expectedPatterns (expectedDirectory base)
    "expected_results_load_failed" (fun _ _ => []) readExpected ExpectedFileCrashes
    (p.loadExpected base)

/-- The loads of a project without some of the files of another give what those of the other give,
if the files that are gone are passed over there. -/
structure LoadsAlike (gone : String → Bool) (p' p : Project) (base : String)
    (paths : List String) : Prop where
  flows : GonePassedOver p flowPatterns base gone (fun f => one (p.readFlow base f.1 f.2)) →
    (p'.loadFlows base).result = (p.loadFlows base).result
  suites : GonePassedOver p requestPatterns base gone (fun f => one (p.readSuite base f.1 f.2)) →
    (p'.loadSuites base).result = (p.loadSuites base).result
  /-- A listing differs in the reasons given for the files that are gone. -/
  listing : GonePassedOver p listedPatterns base gone (p.readListed base) →
    (p'.loadListing base).result = (p.loadListing base).result.map (forget gone)
  values : (∀ path ∈ paths, gone path → IsPassedOver (p.readValues path)) →
    (p'.loadValues paths).result = (p.loadValues paths).result
  expected : GonePassedOver p expectedPatterns (expectedDirectory base) gone readExpected →
    (p'.loadExpected base).result = (p.loadExpected base).result

theorem LoadsContained.of_isText (ht : p.tree.IsText) (hbase : base ≠ "") (paths : List String) :
    LoadsContained p base paths where
  flows := by
    rw [loadFlows_eq]
    exact filesContained_loadFiles ht fun f _ hf => by rw [hasCrash_one, hasCrash_readFlow hf]
  suites := by
    rw [loadSuites_eq]
    exact filesContained_loadFiles ht fun f _ hf => by rw [hasCrash_one, hasCrash_readSuite hf]
  listing := ⟨_, loadListing_eq p base, filesContained_loadFiles ht fun _ _ => hasCrash_readListed⟩
  values := by
    rw [loadValues_eq (exists_contents ht)]
    exact contained_gather fun path _ => hasCrash_readValues ht path
  expected := by
    rw [loadExpected_eq p hbase]
    exact filesContained_loadFiles ht fun f _ _ => hasCrash_readExpected f

theorem loadValues_without (h : Without gone p' p) (ht : p.tree.IsText)
    (hgone : ∀ path ∈ paths, gone path → IsPassedOver (p.readValues path)) :
    (p'.loadValues paths).result = (p.loadValues paths).result := by
  have hcontents' : ∀ path, ∃ found, p'.contents? path = .ok found := by
    intro path
    rw [h.contents]
    split
    · exact ⟨none, rfl⟩
    · exact exists_contents ht path
  rw [loadValues_eq (exists_contents ht), loadValues_eq hcontents']
  refine result_gather_congr fun path hpath => ?_
  have hcontents := h.contents path
  cases hgonePath : gone path with
  | false =>
    have hread : p'.readValues path = p.readValues path := by
      rw [readValues, readValues, hcontents, hgonePath]
      rfl
    rw [hread]
  | true =>
    -- a file that is gone is told to be missing, and gives nothing either
    rw [hgonePath, if_pos rfl] at hcontents
    rw [readValues_missing hcontents]
    have hpassed := hgone path hpath hgonePath
    rcases result_contain_of_isPassedOver hpassed with hresult | ⟨_, hresult⟩ <;>
      rw [hresult] <;> rfl

theorem LoadsAlike.of_without (h : Without gone p' p) (ht : p.tree.IsText) (hbase : base ≠ "")
    (paths : List String) : LoadsAlike gone p' p base paths where
  flows hgone := by
    have hread : ∀ f : String × String, p'.readFlow base f.1 f.2 = p.readFlow base f.1 f.2 := by
      intro f
      rw [readFlow, readFlow, h.here, h.options]
    simp only [loadFlows_eq, hread]
    exact loadFiles_without_nothing h ht hgone
  suites hgone := by
    have hread : ∀ f : String × String, p'.readSuite base f.1 f.2 = p.readSuite base f.1 f.2 := by
      intro f
      rw [readSuite, readSuite, h.here, h.options]
    simp only [loadSuites_eq, hread]
    exact loadFiles_without_nothing h ht hgone
  listing hgone := by
    have hread : p'.readListed base = p.readListed base := by
      funext f
      rw [readListed, readListed, h.here]
    rw [loadListing_eq, loadListing_eq, Traced.result_map, Traced.result_map, hread,
      loadFiles_without h ht (stays gone) (fun _ hkeep _ hfound => filter_stays hkeep hfound)
        (fun f fault hpath => by simp [unlisted, stays, hpath]) hgone]
    generalize (p.loadFiles listedPatterns base _ _ _).result = r
    cases r with
    | error fault => rfl
    | ok found => simp only [Except.map, listingOf_filter]
  values hgone := loadValues_without h ht hgone
  expected hgone := by
    rw [loadExpected_eq p hbase, loadExpected_eq p' hbase]
    exact loadFiles_without_nothing h ht hgone

/-- **What bad documents do to a load.** In a project of text files a load comes to an end exactly
if none of its documents crashes. It then gives what each document gives, and tells of each that
cannot be read; and it gives the same in a project without those. -/
theorem loads_contained (ht : p.tree.IsText) (hbase : base ≠ "") (paths : List String) :
    LoadsContained p base paths ∧
      ∀ gone p', Without gone p' p → LoadsAlike gone p' p base paths :=
  ⟨.of_isText ht hbase paths, fun _ _ h => .of_without h ht hbase paths⟩

end Loads

/-! ### Two flows -/

/-- A flow document. -/
def soundFlow : String := "steps: []\n"

/-- A document that is no flow. -/
def noFlow : String := "steps: 1\n"

/-- A flow document with an attribute that is a day. -/
def datedFlow : String := "attributes:\n  day: 2001-01-01\nsteps: []\n"

/-- A project of two files of flows, the first of which is given. -/
def twoFlows (first : String) : Project where
  tree := ⟨[("a.ply.flow", .file first.toUTF8.data.toList),
    ("b.ply.flow", .file soundFlow.toUTF8.data.toList)]⟩
  here := ["tests"]
  options := ⟨none, none, none, false, .default⟩

theorem listFiles_twoFlows (first : String) :
    (twoFlows first).tree.listFiles ⟨true, flowPatterns⟩ "." =
      ["./a.ply.flow", "./b.ply.flow"] := by
  have hroot : (twoFlows first).tree.find? "." = some (.directory (twoFlows first).tree.entries) :=
    rfl
  have ha : Tree.pathIn "." "a.ply.flow" = "./a.ply.flow" := by decide +kernel
  have hb : Tree.pathIn "." "b.ply.flow" = "./b.ply.flow" := by decide +kernel
  have hmatch : Glob.matchesAny flowPatterns "./a.ply.flow" ∧
      Glob.matchesAny flowPatterns "./b.ply.flow" := ⟨by cbv, by cbv⟩
  unfold Tree.listFiles
  rw [hroot]
  simp only [twoFlows, Tree.listEach, Tree.listAt, ha, hb, hmatch, Tree.inOrder]
  rw [List.mergeSort_of_pairwise (by simp)]
  rfl

theorem isText_noFlow : (twoFlows noFlow).tree.IsText :=
  Tree.isText_of_entriesAreText (by decide +kernel)

theorem isText_datedFlow : (twoFlows datedFlow).tree.IsText :=
  Tree.isText_of_entriesAreText (by decide +kernel)

/-- What the first flow is, among the files that are read. -/
theorem mem_twoFlows {first : String} {files : List (String × String)}
    (ht : (twoFlows first).tree.IsText)
    (hfiles : (twoFlows first).files flowPatterns "." = .ok files)
    (hfirst : (twoFlows first).tree.readText? "./a.ply.flow" = .ok (some first))
    (f : String × String) :
    f ∈ files ↔ f = ("./a.ply.flow", first) ∨ f = ("./b.ply.flow", soundFlow) := by
  obtain ⟨files', hfiles', hmem⟩ := Tree.readFiles_of_isText ht ⟨true, flowPatterns⟩ "."
  cases hfiles.symm.trans hfiles'
  have hsecond : (twoFlows first).tree.readText? "./b.ply.flow" = .ok (some soundFlow) := rfl
  rw [hmem, listFiles_twoFlows]
  obtain ⟨path, contents⟩ := f
  constructor
  · rintro ⟨hpath, hcontents⟩
    simp only [List.mem_cons, List.not_mem_nil, or_false] at hpath
    rcases hpath with rfl | rfl
    · cases hfirst.symm.trans hcontents
      exact .inl rfl
    · cases hsecond.symm.trans hcontents
      exact .inr rfl
  · rintro (⟨⟨⟩⟩ | ⟨⟨⟩⟩)
    · exact ⟨by simp, hfirst⟩
    · exact ⟨by simp, hsecond⟩

/-- The loads of the project whose first flow is no flow come to an end, and without that file they
give the same flows. -/
theorem loads_contained_noFlow :
    (twoFlows noFlow).tree.IsText ∧ "." ≠ "" ∧ LoadsContained (twoFlows noFlow) "." [] ∧
      (∃ flows, ((twoFlows noFlow).loadFlows ".").result = .ok flows) ∧
      ({ twoFlows noFlow with tree := (twoFlows noFlow).tree.erase "a.ply.flow" }.loadFlows
        ".").result = ((twoFlows noFlow).loadFlows ".").result := by
  obtain ⟨hloads, halike⟩ := loads_contained isText_noFlow (by decide : "." ≠ "") []
  have hread : ∀ f ∈ [("./a.ply.flow", noFlow), ("./b.ply.flow", soundFlow)],
      ¬FlowCrashes f.2 := by decide +kernel
  refine ⟨isText_noFlow, by decide, hloads, ?_, ?_⟩
  · obtain ⟨files, hfiles, hcontained⟩ := hloads.flows
    refine hcontained.ends_iff.mpr fun f hf => hread f ?_
    simpa using (mem_twoFlows isText_noFlow hfiles rfl f).mp hf
  · have hwithout := @without_erase (twoFlows noFlow) "a.ply.flow" noFlow.toUTF8.data.toList
      (by decide +kernel) (by decide +kernel) rfl
    refine (halike _ _ hwithout).flows fun files hfiles f hf hgone => ?_
    rcases (mem_twoFlows isText_noFlow hfiles rfl f).mp hf with rfl | rfl
    · decide +kernel
    · exact absurd hgone (by decide +kernel)

/-- **A load of flows does not always come to an end**: an attribute that is a day ends it, and
keeps the other flow from being loaded. -/
theorem loadFlows_crashes :
    ¬∀ (p : Project) (base : String), p.tree.IsText → base ≠ "" →
      ∃ flows, (p.loadFlows base).result = .ok flows := by
  intro h
  have hloads : LoadsContained (twoFlows datedFlow) "." [] :=
    .of_isText isText_datedFlow (by decide) []
  obtain ⟨files, hfiles, hcontained⟩ := hloads.flows
  have hfirst : ("./a.ply.flow", datedFlow) ∈ files :=
    (mem_twoFlows isText_datedFlow hfiles rfl _).mpr (.inl rfl)
  refine hcontained.ends_iff.mp (h _ "." isText_datedFlow (by decide)) _ hfirst ?_
  decide +kernel

end Project

end ApiSuite
