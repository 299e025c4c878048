import ApiSuite.Proofs.Project.Documents
import ApiSuite.Proofs.Project.Files

/-!
# Loading many documents

Five loaders read many documents each: flows, request suites, listings of tests, values and expected
results. What they have in common is `ApiSuite.Project.gather`, which reads one after another, with
what is wrong with one of them told in the log and answered with something instead
(`ApiSuite.Project.contain`). A document with a fault that loaders know does not keep the others
from being read, and what they give is what they give without it; a document that crashes ends the
load.

`ApiSuite.Project.Contained` says this of one load, and `ApiSuite.Project.contained_gather` proves
it, once, by going over the documents. What is left for each loader is which of its documents crash.
-/

namespace ApiSuite

namespace Project

/-! ### One document -/

section One

variable {α : Type} {event path : String} {instead : Fault → List α} {x : Traced (List α)}

/-- What a document gives; where it cannot be read, this is told, and something else is given
instead. -/
def contain (event path : String) (instead : Fault → List α) (x : Traced (List α)) :
    Traced (List α) :=
  x.handleKnown fun e => do
    Traced.tell (failedEntry event path e)
    pure (instead e)

/-- What comes of a document that does not crash. -/
def outcome (instead : Fault → List α) (x : Traced (List α)) : List α :=
  match x.result with
  | .ok found => found
  | .error e => instead e

/-- What is told of a document that does not crash: what reading it says, and that it cannot be read
if so. -/
def report (event path : String) (x : Traced (List α)) : List Log.Entry :=
  x.log ++ match x.result with
    | .ok _ => []
    | .error e => [failedEntry event path e]

/-- **A document that does not crash is contained.** -/
theorem contain_of_not_hasCrash (h : ¬HasCrash x.result) :
    contain event path instead x = ⟨.ok (outcome instead x), report event path x⟩ := by
  obtain ⟨result, log⟩ := x
  unfold contain Traced.handleKnown outcome report
  cases result with
  | ok found => simp
  | error e =>
    have hknown : e.isKnown := not_hasCrash_iff.mp h e rfl
    simp only [hknown, if_true]
    rfl

/-- A document that crashes is not. -/
theorem contain_of_crash {c : Crash} (h : x.result = .error (.crash c)) :
    contain event path instead x = x := by
  unfold contain Traced.handleKnown
  rw [h]
  rfl

end One

/-! ### One document after another -/

section Many

variable {ι α : Type} {step : ι → Traced (List α)} {items : List ι}

/-- What each of some items gives, put together. -/
def gather (step : ι → Traced (List α)) : List ι → Traced (List α)
  | [] => pure []
  | i :: is => do
    let first ← step i
    let more ← gather step is
    pure (first ++ more)

theorem collect_eq_gather (read : String → String → Traced (List α))
    (files : List (String × String)) :
    collect read files = gather (fun f => read f.1 f.2) files := by
  induction files with
  | nil => rfl
  | cons f files ih =>
    obtain ⟨path, contents⟩ := f
    rw [collect, gather, ih]

theorem result_gather_cons {i : ι} {is : List ι} :
    (gather step (i :: is)).result = (step i).result.bind fun first =>
      (gather step is).result.map (first ++ ·) := by
  rw [gather, Traced.result_bind]
  cases (step i).result with
  | error fault => rfl
  | ok first => simp [Except.bind]

/-- **Leaving items out leaves out what they give**, and nothing of what the others give. -/
theorem result_gather_filter {keep : ι → Bool} (stays : α → Bool)
    (hkeep : ∀ i ∈ items, keep i = true → ∀ found, (step i).result = .ok found →
      found.filter stays = found)
    (hleave : ∀ i ∈ items, keep i = false →
      ∃ found, (step i).result = .ok found ∧ found.filter stays = []) :
    (gather step (items.filter keep)).result = (gather step items).result.map (·.filter stays) := by
  induction items with
  | nil => rfl
  | cons i items ih =>
    obtain ⟨hkeepHead, hkeep⟩ := List.forall_mem_cons.mp hkeep
    obtain ⟨hleaveHead, hleave⟩ := List.forall_mem_cons.mp hleave
    have ih := ih hkeep hleave
    rw [result_gather_cons, List.filter_cons]
    cases hi : keep i with
    | true =>
      rw [if_pos rfl, result_gather_cons, ih]
      cases hfirst : (step i).result with
      | error fault => rfl
      | ok first =>
        have hstays : first.filter stays = first := hkeepHead hi first hfirst
        cases (gather step items).result with
        | error fault => rfl
        | ok more => simp [Except.bind, Except.map, hstays]
    | false =>
      obtain ⟨first, hfirst, hnone⟩ := hleaveHead hi
      rw [if_neg (by simp), ih, hfirst]
      cases (gather step items).result with
      | error fault => rfl
      | ok more => simp [Except.bind, Except.map, hnone]

theorem result_gather_congr {step' : ι → Traced (List α)}
    (h : ∀ i ∈ items, (step' i).result = (step i).result) :
    (gather step' items).result = (gather step items).result := by
  induction items with
  | nil => rfl
  | cons i items ih =>
    obtain ⟨hhead, htail⟩ := List.forall_mem_cons.mp h
    rw [result_gather_cons, result_gather_cons, hhead, ih htail]

variable {event : String} {name : ι → String} {instead : ι → Fault → List α}
  {read : ι → Traced (List α)}

/-- **What a load comes to.** Either no item crashes, and each gives what comes of it and is
reported, or the first one that crashes ends the load. -/
theorem gather_cases (event : String) (name : ι → String) (instead : ι → Fault → List α)
    (read : ι → Traced (List α)) (items : List ι) :
    ((∀ i ∈ items, ¬HasCrash (read i).result) ∧
        gather (fun i => contain event (name i) (instead i) (read i)) items =
          ⟨.ok (items.flatMap fun i => outcome (instead i) (read i)),
            items.flatMap fun i => report event (name i) (read i)⟩) ∨
      ∃ before i after c, items = before ++ i :: after ∧ (∀ j ∈ before, ¬HasCrash (read j).result) ∧
        (read i).result = .error (.crash c) ∧
        (gather (fun i => contain event (name i) (instead i) (read i)) items).result =
          .error (.crash c) := by
  induction items with
  | nil => exact .inl ⟨by simp, rfl⟩
  | cons i items ih =>
    by_cases hi : HasCrash (read i).result
    · -- nothing after an item that crashes has a part in the load
      obtain ⟨c, hc⟩ := hi
      refine .inr ⟨[], i, items, c, rfl, by simp, hc, ?_⟩
      rw [result_gather_cons, contain_of_crash hc, hc]
      rfl
    · have hcontain : contain event (name i) (instead i) (read i) = _ :=
        contain_of_not_hasCrash hi
      rcases ih with ⟨hall, hgather⟩ | ⟨before, j, after, c, rfl, hbefore, hj, hgather⟩
      · refine .inl ⟨List.forall_mem_cons.mpr ⟨hi, hall⟩, ?_⟩
        rw [gather, hcontain, hgather]
        show (⟨_, _ ++ (_ ++ [])⟩ : Traced (List α)) = _
        rw [List.append_nil]
        rfl
      · refine .inr ⟨i :: before, j, after, c, rfl, List.forall_mem_cons.mpr ⟨hi, hbefore⟩, hj, ?_⟩
        rw [result_gather_cons, hcontain, hgather]
        rfl

/-- A load of some items of which each is read on its own. -/
structure Contained (event : String) (name : ι → String) (instead : ι → Fault → List α)
    (read : ι → Traced (List α)) (crashes : ι → Prop) (items : List ι) (load : Traced (List α)) :
    Prop where
  /-- The load comes to an end exactly if no item crashes. -/
  ends_iff : (∃ found, load.result = .ok found) ↔ ∀ i ∈ items, ¬crashes i
  /-- It gives what comes of each item, in their order. -/
  gives : ∀ found, load.result = .ok found →
    found = items.flatMap fun i => outcome (instead i) (read i)
  /-- It tells of each item that cannot be read. -/
  tells : ∀ found, load.result = .ok found →
    load.log = items.flatMap fun i => report event (name i) (read i)
  /-- Nothing but a crash ends it, and it is the first item that crashes which does. -/
  crash : ∀ fault, load.result = .error fault → ∃ before i after c,
    items = before ++ i :: after ∧ (∀ j ∈ before, ¬crashes j) ∧ crashes i ∧
      (read i).result = .error (.crash c) ∧ fault = .crash c

/-- **A load of items that are read one by one is contained.** -/
theorem contained_gather {crashes : ι → Prop}
    (hcrashes : ∀ i ∈ items, HasCrash (read i).result ↔ crashes i) :
    Contained event name instead read crashes items
      (gather (fun i => contain event (name i) (instead i) (read i)) items) := by
  rcases gather_cases event name instead read items with
    ⟨hall, hgather⟩ | ⟨before, i, after, c, rfl, hbefore, hi, hgather⟩
  · rw [hgather]
    refine ⟨⟨fun _ i hi => (hcrashes i hi).not.mp (hall i hi), fun _ => ⟨_, rfl⟩⟩, ?_, ?_, ?_⟩
    · rintro found ⟨⟩
      rfl
    · exact fun _ _ => rfl
    · rintro fault ⟨⟩
  · have hcrash : crashes i := (hcrashes i (by simp)).mp ⟨c, hi⟩
    refine ⟨⟨?_, fun hall => absurd hcrash (hall i (by simp))⟩, ?_, ?_, ?_⟩
    · rintro ⟨found, hfound⟩
      cases hgather.symm.trans hfound
    · intro found hfound
      cases hgather.symm.trans hfound
    · intro found hfound
      cases hgather.symm.trans hfound
    · intro fault hfault
      refine ⟨before, i, after, c, rfl, fun j hj => ?_, hcrash, hi, ?_⟩
      · exact (hcrashes j (by simp [hj])).not.mp (hbefore j hj)
      · cases hgather.symm.trans hfault
        rfl

end Many

/-! ### The loaders -/

section Loaders

variable {p : Project} {base path contents relative : String} {files : List (String × String)}

/-- The one thing that a document is. -/
def one {α : Type} (r : Except Fault α) : Traced (List α) :=
  (Traced.ofExcept r).bind fun a => pure [a]

theorem result_one {α : Type} (r : Except Fault α) : (one r).result = r.map fun a => [a] := by
  cases r <;> rfl

@[simp] theorem hasCrash_one {α : Type} (r : Except Fault α) :
    HasCrash (one r).result ↔ HasCrash r := by
  rw [result_one, hasCrash_map]

theorem one_map {α β : Type} (g : α → β) (r : Except Fault α) :
    one (r.map g) = (Traced.ofExcept r).bind fun a => pure [g a] := by
  cases r <;> rfl

/-- The load of the files under a directory, each of them on its own. -/
def loadFiles {α : Type} (p : Project) (patterns : List String) (directory event : String)
    (instead : String × String → Fault → List α) (read : String × String → Traced (List α)) :
    Traced (List α) := do
  let files ← Traced.ofExcept (p.files patterns directory)
  gather (fun f => contain event f.1 (instead f) (read f)) files

theorem loadFiles_of_files {α : Type} {patterns : List String} {directory event : String}
    {instead : String × String → Fault → List α} {read : String × String → Traced (List α)}
    (h : p.files patterns directory = .ok files) :
    p.loadFiles patterns directory event instead read =
      gather (fun f => contain event f.1 (instead f) (read f)) files := by
  unfold loadFiles
  rw [h]
  exact Traced.pure_bind_eq files _

/-! ### Flows and request suites -/

theorem loadFlows_eq (p : Project) (base : String) :
    p.loadFlows base = p.loadFiles flowPatterns base "flow_load_failed" (fun _ _ => [])
      fun f => one (p.readFlow base f.1 f.2) := by
  unfold loadFlows loadFiles
  simp only [collect_eq_gather]
  rfl

theorem hasCrash_readFlow (h : relativeToBase p.here base path = .ok relative) :
    HasCrash (p.readFlow base path contents) ↔ FlowCrashes contents := by
  unfold readFlow
  rw [h]
  -- the fields that a loader adds hold no elements
  refine hasCrash_flow fun f hf => ?_
  cases hkeep : p.options.keepSource <;> simp [hkeep] at hf <;>
    rcases hf with rfl | rfl | rfl <;> simp [elementFields]

theorem loadSuites_eq (p : Project) (base : String) :
    p.loadSuites base = p.loadFiles requestPatterns base "request_suite_load_failed" (fun _ _ => [])
      fun f => one (p.readSuite base f.1 f.2) := by
  unfold loadSuites loadFiles
  simp only [collect_eq_gather]
  rfl

theorem hasCrash_readSuite (h : relativeToBase p.here base path = .ok relative) :
    HasCrash (p.readSuite base path contents) ↔ SuiteCrashes path contents := by
  unfold readSuite
  rw [h, ← hasCrash_requests]
  show HasCrash (Request.ofDocument path contents >>= _) ↔ _
  rw [hasCrash_bind]
  simp

/-! ### Listings -/

/-- The patterns of the files in a listing. -/
def listedPatterns : List String := requestPatterns ++ flowPatterns ++ casePatterns

/-- The test file of a document, none of a case file. -/
def readListed (p : Project) (base : String) (f : String × String) : Traced (List Listed) :=
  if Document.endsWith ".ply.ts" f.1 then pure []
  else
    one ((if Document.endsWith ".ply.flow" f.1 then TestFile.ofFlow p.here base f.1 f.2
      else TestFile.ofRequests p.here base f.1 f.2).map Sum.inl)

/-- A file that cannot be read, in a listing. -/
def unlisted (f : String × String) (e : Fault) : List Listed := [.inr ⟨f.1, e.message⟩]

/-- A file crashes in a listing. -/
def ListedCrashes (f : String × String) : Prop :=
  Document.endsWith ".ply.ts" f.1 = false ∧
    if Document.endsWith ".ply.flow" f.1 then FlowCrashes f.2 else ListedRequestsCrash f.2

/-- The listing of what was found. -/
def listingOf (base : String) (found : List Listed) : Listing where
  base
  files := (listedFiles found).mergeSort fun a b => decide (a.path ≤ b.path)
  errors := if (listedErrors found).isEmpty then none else some (listedErrors found)

theorem listFile_eq (f : String × String) :
    p.listFile base f.1 f.2 =
      contain "test_file_load_failed" f.1 (unlisted f) (p.readListed base f) := by
  unfold listFile readListed
  by_cases hcase : Document.endsWith ".ply.ts" f.1 = true
  · rw [if_pos hcase, if_pos hcase]
    rfl
  · rw [if_neg hcase, if_neg hcase, one_map]
    rfl

theorem loadListing_eq (p : Project) (base : String) :
    p.loadListing base = listingOf base <$>
      p.loadFiles listedPatterns base "test_file_load_failed" unlisted (p.readListed base) := by
  unfold loadListing loadFiles
  simp only [collect_eq_gather, listFile_eq, ← bind_pure_comp, bind_assoc]
  rfl

theorem hasCrash_readListed {f : String × String}
    (h : relativeToBase p.here base f.1 = .ok relative) :
    HasCrash (p.readListed base f).result ↔ ListedCrashes f := by
  unfold readListed ListedCrashes
  cases hcase : Document.endsWith ".ply.ts" f.1
  · cases hflow : Document.endsWith ".ply.flow" f.1
    · simp [hasCrash_ofRequests h]
    · simp [hasCrash_ofFlow h]
  · simp

/-! ### Values -/

/-- The holder of a values file. That there is none is told. -/
def readValues (p : Project) (path : String) : Traced (List ValuesHolder) := do
  match ← Traced.ofExcept (p.contents? path) with
  | none => do
    Traced.tell (.mk .error "values_file_missing" [("path", .str path)])
    pure []
  | some contents => one (valuesHolder path contents)

/-- A values file crashes. -/
def ValuesFileCrashes (p : Project) (path : String) : Prop :=
  ∃ contents, p.contents? path = .ok (some contents) ∧ ValuesCrash path contents

theorem exists_contents (ht : p.tree.IsText) (path : String) :
    ∃ found, p.contents? path = .ok found := by
  obtain ⟨found, hfound⟩ := ht.readText? path
  exact ⟨filled? found, by rw [contents?, hfound]; rfl⟩

theorem readValues_missing (h : p.contents? path = .ok none) :
    p.readValues path =
      ⟨.ok [], [.mk .error "values_file_missing" [("path", .str path)]]⟩ := by
  unfold readValues
  rw [h]
  rfl

theorem readValues_some (h : p.contents? path = .ok (some contents)) :
    p.readValues path = one (valuesHolder path contents) := by
  unfold readValues
  rw [h]
  exact Traced.pure_bind_eq (some contents) _

theorem loadValues_eq (h : ∀ path, ∃ found, p.contents? path = .ok found) (paths : List String) :
    p.loadValues paths = gather (fun path =>
      contain "values_file_invalid" path (fun _ => []) (p.readValues path)) paths := by
  induction paths with
  | nil => rfl
  | cons path paths ih =>
    rw [loadValues, gather, ih]
    obtain ⟨found, hfound⟩ := h path
    cases found with
    | none =>
      rw [hfound, readValues_missing hfound]
      rfl
    | some contents =>
      rw [hfound, readValues_some hfound]
      rfl

theorem hasCrash_readValues (ht : p.tree.IsText) (path : String) :
    HasCrash (p.readValues path).result ↔ p.ValuesFileCrashes path := by
  unfold ValuesFileCrashes
  obtain ⟨found, hfound⟩ := exists_contents ht path
  cases found with
  | none =>
    rw [readValues_missing hfound]
    simp [hfound]
  | some contents =>
    rw [readValues_some hfound, hasCrash_one, hasCrash_valuesHolder]
    simp [hfound]

/-! ### Expected results -/

/-- The directory of the expected results. -/
def expectedDirectory (base : String) : String := Path.withoutSlash base ++ "/results/expected"

/-- The patterns of files of expected results. -/
def expectedPatterns : List String := ["**/*.yaml"]

/-- The expected results in a document, none in an empty one. -/
def readExpected (f : String × String) : Traced (List ExpectedResult) :=
  if f.2 == "" then pure [] else ExpectedResult.ofDocument f.1 f.2

/-- A file crashes as a file of expected results. -/
def ExpectedFileCrashes (f : String × String) : Prop := f.2 ≠ "" ∧ ExpectedCrash f.2

theorem loadExpected_eq (p : Project) (hbase : base ≠ "") :
    p.loadExpected base = p.loadFiles expectedPatterns (expectedDirectory base)
      "expected_results_load_failed" (fun _ _ => []) readExpected := by
  have hstep : ∀ f : String × String, contain "expected_results_load_failed" f.1 (fun _ => [])
      (readExpected f) = if f.2 == "" then pure [] else
        attempt "expected_results_load_failed" f.1 (ExpectedResult.ofDocument f.1 f.2) := by
    intro f
    unfold readExpected
    split <;> rfl
  unfold loadExpected loadFiles
  rw [if_neg (by simpa using hbase)]
  simp only [collect_eq_gather, hstep]
  rfl

theorem hasCrash_readExpected (f : String × String) :
    HasCrash (readExpected f).result ↔ ExpectedFileCrashes f := by
  unfold readExpected ExpectedFileCrashes
  by_cases hempty : f.2 = ""
  · simp [hempty]
  · rw [if_neg (by simpa using hempty), hasCrash_expected]
    simp [hempty]

end Loaders

end Project

end ApiSuite
