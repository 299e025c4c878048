import ApiSuite.Proofs.Project.Locations
import Mathlib.Data.List.Nodup

/-!
# Files that are removed

A project from which a file is removed is the project without that file and nothing else
(`ApiSuite.Project.without_erase`): the file is under none of the paths that led to it, every other
file has the text it had, and the files under a directory are listed in the order they were, that
one left out.

Two facts carry this. Going down from the root, what lies at a location is what lay there, but for
the file itself and for the directories on the way to it (`ApiSuite.Tree.descend_put`); and a
listing goes by the names of the entries, so that it does not matter where among the others a
directory is put back (`ApiSuite.Tree.inOrder_perm`).
-/

namespace ApiSuite

namespace Tree

/-! ### What lies where -/

section Descend

variable {r r' e e' : Entry} {es : List (String × Entry)} {n m : String}
  {loc ns target : List String} {octets : List UInt8} {above above' : List Entry}

theorem lookup_filter_ne (es : List (String × Entry)) (n m : String) :
    (es.filter fun x => x.1 != n).lookup m = if m = n then none else es.lookup m := by
  induction es with
  | nil => simp
  | cons x es ih =>
    obtain ⟨k, e⟩ := x
    by_cases hk : k = n
    · rw [List.filter_cons_of_neg (by simp [hk]), ih, Schema.lookup_cons_if, hk]
      split <;> rfl
    · rw [List.filter_cons_of_pos (by simp [hk]), Schema.lookup_cons_if, Schema.lookup_cons_if, ih]
      by_cases hm : m = k
      · rw [if_pos hm, if_pos hm, if_neg (hm ▸ hk)]
      · rw [if_neg hm, if_neg hm]

/-- An entry at a location, without what lies at the target. -/
def prune : List String → List String → Entry → Entry
  | target, [], e => putIn none target (some e)
  | [], _ :: _, e => e
  | n :: target, m :: loc, e => if m = n then prune target loc e else e

/-- **What lies where after a file is removed.** -/
theorem descend_put (hfile : descend (.directory es) target = some (.file octets))
    (loc : List String) :
    descend (.directory (put none target es)) loc =
      if target <+: loc then none else (descend (.directory es) loc).map (prune target loc) := by
  induction target generalizing es loc with
  | nil => cases hfile
  | cons n target ih =>
    cases loc with
    | nil =>
      rw [if_neg (by simp)]
      simp [descend, prune, putIn]
    | cons m loc =>
      rw [descend_cons_directory] at hfile
      simp only [descend_cons_directory, List.cons_prefix_cons]
      -- an entry is left out at the last name, and put back changed at every other one
      cases target with
      | nil =>
        rw [put, lookup_filter_ne]
        by_cases hm : m = n
        · subst hm
          simp
        · simp [hm, Ne.symm hm, prune]
      | cons k target =>
        have hput : (put none (n :: k :: target) es).lookup m =
            if m = n then some (putIn none (k :: target) (es.lookup n)) else es.lookup m := by
          rw [put, Schema.lookup_cons_if, lookup_filter_ne]
          split <;> rfl
        rw [hput]
        by_cases hm : m = n
        · subst hm
          cases hlookup : es.lookup m with
          | none =>
            rw [hlookup] at hfile
            cases hfile
          | some child =>
            rw [hlookup] at hfile
            cases child with
            | file octets' => cases hfile
            | directory es' =>
              have hchild := ih hfile loc
              simpa [prune, putIn] using hchild
        · simp [hm, Ne.symm hm, prune]

/-- On the way to the target, something is left out of what lies at a location. -/
theorem prune_append (loc rest : List String) (e : Entry) :
    prune (loc ++ rest) loc e = putIn none rest (some e) := by
  induction loc with
  | nil => simp [prune]
  | cons n loc ih => simpa [prune] using ih

/-- Elsewhere nothing is. -/
theorem prune_elsewhere (h : ¬loc <+: target) (e : Entry) : prune target loc e = e := by
  induction loc generalizing target with
  | nil => exact absurd List.nil_prefix h
  | cons m loc ih =>
    cases target with
    | nil => rfl
    | cons n target =>
      rw [prune]
      split
      · rename_i hm
        refine ih fun hloc => h ?_
        rw [hm]
        exact (List.prefix_cons_inj n).mpr hloc
      · rfl

/-- What an entry is: the octets of a file, or none. -/
def octets? : Entry → Option (List UInt8)
  | .file octets => some octets
  | .directory _ => none

/-- A root from which the file at a location is removed, as far as files go. -/
structure Pruned (target : List String) (r r' : Entry) : Prop where
  file : ∃ octets, descend r target = some (.file octets)
  gone : ∀ loc, target <+: loc → descend r' loc = none
  kept : ∀ loc, ¬target <+: loc → (descend r' loc).map octets? = (descend r loc).map octets?

theorem pruned_put (hfile : descend (.directory es) target = some (.file octets)) :
    Pruned target (.directory es) (.directory (put none target es)) := by
  refine ⟨⟨octets, hfile⟩, fun loc hloc => ?_, fun loc hloc => ?_⟩
  · rw [descend_put hfile, if_pos hloc]
  · rw [descend_put hfile, if_neg hloc, Option.map_map]
    refine Option.map_congr fun e he => ?_
    by_cases hway : loc <+: target
    · obtain ⟨rest, rfl⟩ := hway
      rw [descend_append, he] at hfile
      rw [Function.comp_apply, prune_append]
      cases e with
      | directory es' => rw [putIn]; rfl
      | file octets' =>
        cases rest with
        | nil => simp at hloc
        | cons n rest => cases hfile
    · rw [Function.comp_apply, prune_elsewhere hway]

/-- What is found at a location after the file at the target is removed, and before: nothing at the
target, and the same elsewhere, as far as files go. -/
structure SameBut (target : List String) (loc : Option (List String))
    (found' found : Option Entry) : Prop where
  gone : loc = some target → found' = none
  kept : loc ≠ some target → found'.map octets? = found.map octets?

theorem sameBut_none (target : List String) (loc : Option (List String)) :
    SameBut target loc none none := ⟨fun _ => rfl, fun _ => rfl⟩

namespace Pruned

/-- Nobody stands at the target, or below it. -/
theorem not_below (h : Pruned target r r') (hs' : Standing r' loc above' e') : ¬target <+: loc := by
  intro hloc
  cases (h.gone loc hloc).symm.trans hs'.descend

theorem octets?_eq (h : Pruned target r r') (hs : Standing r loc above e)
    (hs' : Standing r' loc above' e') : octets? e' = octets? e := by
  simpa [hs.descend, hs'.descend] using h.kept loc (h.not_below hs')

/-- One name further is the file itself, or what was there. -/
theorem lookup_cases {es' : List (String × Entry)} (h : Pruned target r r')
    (hs : Standing r loc above (.directory es)) (hs' : Standing r' loc above' (.directory es'))
    (n : String) :
    (target = loc ++ [n] ∧ es'.lookup n = none ∧ ∃ octets, es.lookup n = some (.file octets)) ∨
      (es'.lookup n).map octets? = (es.lookup n).map octets? := by
  have hchild := descend_concat hs.descend n
  have hchild' := descend_concat hs'.descend n
  by_cases htarget : target <+: loc ++ [n]
  · left
    have hgone := h.gone _ htarget
    obtain rfl : target = loc ++ [n] :=
      (List.prefix_concat_iff.mp htarget).resolve_right (h.not_below hs')
    obtain ⟨octets, hfile⟩ := h.file
    exact ⟨rfl, hchild'.symm.trans hgone, octets, hchild.symm.trans hfile⟩
  · right
    rw [← hchild, ← hchild']
    exact h.kept _ htarget

/-- **Following names after a file is removed** leads to what it led to, and nowhere where it led to
the file. -/
theorem follow (h : Pruned target r r') (ns : List String) (hs : Standing r loc above e)
    (hs' : Standing r' loc above' e') :
    SameBut target (Path.locate loc ns) (e'.follow above' ns) (e.follow above ns) := by
  have hkind := h.octets?_eq hs hs'
  induction ns generalizing loc above e above' e' with
  | nil =>
    refine ⟨?_, fun _ => ?_⟩
    · rintro ⟨⟩
      exact absurd List.prefix_rfl (h.not_below hs')
    · cases e <;> cases e' <;> simpa [Entry.follow] using hkind
  | cons n ns ih =>
    cases e with
    | file octets =>
      cases e' with
      | file octets' => exact sameBut_none target _
      | directory es' => cases hkind
    | directory es =>
      cases e' with
      | file octets' => cases hkind
      | directory es' =>
        by_cases hn : n = ".."
        · subst hn
          rcases hs.back with ⟨rfl, rfl⟩ | ⟨parent, above, hloc, rfl, hparent⟩
          · rcases hs'.back with ⟨-, rfl⟩ | ⟨_, _, hloc, -⟩
            · exact sameBut_none target _
            · exact absurd rfl hloc
          · rcases hs'.back with ⟨rfl, -⟩ | ⟨parent', above', -, rfl, hparent'⟩
            · exact absurd rfl hloc
            · rw [Path.locate_dots hloc]
              exact ih hparent hparent' (h.octets?_eq hparent hparent')
        · rw [Path.locate_name hn, follow_name hn, follow_name hn]
          rcases h.lookup_cases hs hs' n with ⟨rfl, hgone, octets, hfile⟩ | hkept
          · -- the names end at the file, or lead nowhere from it
            rw [hgone, hfile]
            refine ⟨fun _ => rfl, fun hne => ?_⟩
            cases ns with
            | nil => exact absurd rfl hne
            | cons m ns => rfl
          · cases hlookup : es.lookup n with
            | none =>
              rw [hlookup] at hkept
              rw [Option.map_eq_none_iff.mp hkept]
              exact sameBut_none target _
            | some child =>
              rw [hlookup] at hkept
              obtain ⟨child', hlookup', hkind'⟩ := Option.map_eq_some_iff.mp hkept
              rw [hlookup']
              exact ih (hs.into hlookup) (hs'.into hlookup') hkind'

end Pruned

end Descend

/-! ### What is listed -/

section InOrder

variable {found found' : List (String × List String)} {n : String}

/-- Whether what was found under a name comes before what was found under another. -/
abbrev comesBefore (a b : String × List String) : Bool := decide (a.1 ≤ b.1)

theorem pairwise_inOrder (found : List (String × List String)) :
    (found.mergeSort comesBefore).Pairwise fun a b => comesBefore a b := by
  refine List.pairwise_mergeSort (fun a b c hab hbc => ?_) (fun a b => ?_) found
  · simp only [decide_eq_true_eq] at *
    exact String.le_trans hab hbc
  · simpa using String.le_total a.1 b.1

/-- Under different names, there is one order. -/
theorem eq_of_perm_of_comesBefore (hnames : (found.map Prod.fst).Nodup) (hperm : found.Perm found')
    (hfound : found.Pairwise fun a b => comesBefore a b)
    (hfound' : found'.Pairwise fun a b => comesBefore a b) : found = found' := by
  refine hperm.eq_of_pairwise (fun a b ha hb hab hba => ?_) hfound hfound'
  simp only [decide_eq_true_eq] at hab hba
  exact List.inj_on_of_nodup_map hnames ha (hperm.mem_iff.mpr hb) (String.le_antisymm hab hba)

/-- **What was found under different names is put in one order**, in whichever it was found. -/
theorem inOrder_perm (hnames : (found.map Prod.fst).Nodup) (hperm : found.Perm found') :
    inOrder found = inOrder found' := by
  have hsorted := List.mergeSort_perm found comesBefore
  have hsorted' := List.mergeSort_perm found' comesBefore
  unfold inOrder
  rw [eq_of_perm_of_comesBefore ((hsorted.map Prod.fst).nodup_iff.mpr hnames)
    (hsorted.trans (hperm.trans hsorted'.symm)) (pairwise_inOrder found) (pairwise_inOrder found')]

theorem flatMap_filter_of_nil {keep : String × List String → Bool}
    (h : ∀ x ∈ found, keep x = false → x.2 = []) :
    (found.filter keep).flatMap (·.2) = found.flatMap (·.2) := by
  induction found with
  | nil => rfl
  | cons x found ih =>
    obtain ⟨hhead, htail⟩ := List.forall_mem_cons.mp h
    cases hkeep : keep x with
    | true => rw [List.filter_cons_of_pos hkeep, List.flatMap_cons, List.flatMap_cons, ih htail]
    | false =>
      rw [List.filter_cons_of_neg (by simp [hkeep]), List.flatMap_cons, ih htail, hhead hkeep]
      rfl

/-- Where nothing was found, nothing is put. -/
theorem inOrder_cons_nil (hnames : (n :: found.map Prod.fst).Nodup) :
    inOrder ((n, []) :: found) = inOrder found := by
  have hmem : ∀ x ∈ found, x.1 ≠ n := by
    rintro x hx rfl
    exact (List.nodup_cons.mp hnames).1 (List.mem_map_of_mem hx)
  have hfilter : ((n, []) :: found).filter (fun x => x.1 != n) = found := by
    rw [List.filter_cons_of_neg (by simp), List.filter_eq_self]
    simpa using hmem
  have hperm : ((((n, []) :: found).mergeSort comesBefore).filter fun x => x.1 != n).Perm
      (found.mergeSort comesBefore) := by
    refine ((List.mergeSort_perm _ _).filter _).trans ?_
    rw [hfilter]
    exact (List.mergeSort_perm found comesBefore).symm
  -- both are sorted, and hold the same
  have hsorted := eq_of_perm_of_comesBefore
    (((hperm.trans (List.mergeSort_perm _ _)).map Prod.fst).nodup_iff.mpr
      (List.nodup_cons.mp hnames).2) hperm ((pairwise_inOrder _).filter _) (pairwise_inOrder found)
  unfold inOrder
  rw [← hsorted, flatMap_filter_of_nil]
  intro x hx hn
  rcases List.mem_cons.mp ((List.mergeSort_perm _ _).mem_iff.mp hx) with rfl | hx
  · rfl
  · exact absurd (by simpa using hn) (hmem x hx)

/-- What is put in order and left out of is left out of what was found. -/
theorem filter_inOrder (keep : String → Bool) (found : List (String × List String)) :
    (inOrder found).filter keep = inOrder (found.map fun x => (x.1, x.2.filter keep)) := by
  have hsort := List.map_mergeSort (r := comesBefore) (s := comesBefore)
    (f := fun x : String × List String => (x.1, x.2.filter keep)) (l := found)
    (fun _ _ _ _ => rfl)
  unfold inOrder
  rw [List.filter_flatMap, ← hsort, List.flatMap_map]

end InOrder

section Listing

variable {q : FileQuery} {path n m : String} {e : Entry} {es : List (String × Entry)}
  {loc target rest : List String} {octets : List UInt8}

/-- Whether a path leads to a location. -/
def leadsTo (target : List String) (path : String) : Bool := Path.location? path == some target

/-- The entry of a name, and the others. -/
theorem perm_of_lookup (hnames : (es.map Prod.fst).Nodup) (h : es.lookup n = some e) :
    es.Perm ((n, e) :: es.filter fun x => x.1 != n) := by
  induction es with
  | nil => cases h
  | cons x es ih =>
    obtain ⟨m, e'⟩ := x
    rw [List.map_cons, List.nodup_cons] at hnames
    rw [Schema.lookup_cons_if] at h
    by_cases hm : n = m
    · subst hm
      rw [if_pos rfl] at h
      cases h
      rw [List.filter_cons_of_neg (by simp), List.filter_eq_self.mpr]
      intro x hx
      rw [bne_iff_ne]
      rintro rfl
      exact hnames.1 (List.mem_map.mpr ⟨x, hx, rfl⟩)
    · rw [if_neg hm] at h
      rw [List.filter_cons_of_pos (by simpa using Ne.symm hm)]
      exact ((ih hnames.2 h).cons _).trans (List.Perm.swap _ _ _)

theorem locate_pathIn (hn : Path.isFileName n)
    (hloc : Path.locate [] (Path.names path) = some loc) :
    Path.locate [] (Path.names (pathIn path n)) = some (loc ++ [n]) := by
  have hdots : n ≠ ".." := by
    rintro rfl
    simp [Path.isFileName] at hn
  rw [Path.names_pathIn hn, Path.locate_append, hloc]
  exact Path.locate_of_not_mem (by simpa using Ne.symm hdots)

/-- What is listed below another name does not lead to the target. -/
theorem leadsTo_of_listAt (hempty : path ≠ "") (habsolute : Path.isAbsolute path = false)
    (hm : Path.isFileName m) (htidy : isTidy e)
    (hloc : Path.locate [] (Path.names path) = some loc) (hne : m ≠ n) :
    ∀ file ∈ listAt q (pathIn path m) e, leadsTo (loc ++ n :: rest) file = false := by
  intro file hfile
  have hleads := leadsInto_of_listAt e (Path.pathIn_ne_empty path m)
    (Path.isAbsolute_pathIn hempty habsolute m) htidy file hfile
  obtain ⟨rest', -, hlocation, -⟩ := hleads.location? (locate_pathIn hm hloc)
  unfold leadsTo
  rw [hlocation]
  simp [hne]

/-- What is listed, what leads to the target left out: only what is under one name can change. -/
theorem filter_inOrder_listEach (hempty : path ≠ "") (habsolute : Path.isAbsolute path = false)
    (htidy : isTidy (.directory es)) (hloc : Path.locate [] (Path.names path) = some loc)
    (hlookup : es.lookup n = some e) {keep : String → Bool}
    (hkeep : ∀ file, keep file = !leadsTo (loc ++ n :: rest) file) :
    (inOrder (listEach q path es)).filter keep =
      inOrder ((n, (listAt q (pathIn path n) e).filter keep) ::
        listEach q path (es.filter fun x => x.1 != n)) := by
  obtain ⟨hnames, hall⟩ := isTidy_directory.mp htidy
  have hperm := perm_of_lookup hnames hlookup
  have hlisted : (listEach q path es).Perm
      (listEach q path ((n, e) :: es.filter fun x => x.1 != n)) := by
    simp only [listEach_eq_map]
    exact hperm.map _
  have hstay : (listEach q path (es.filter fun x => x.1 != n)).map
      (fun x => (x.1, x.2.filter keep)) = listEach q path (es.filter fun x => x.1 != n) := by
    rw [listEach_eq_map, List.map_map]
    refine List.map_congr_left fun x hx => ?_
    obtain ⟨hx, hne⟩ := List.mem_filter.mp hx
    have hsame : (listAt q (pathIn path x.1) x.2).filter keep = listAt q (pathIn path x.1) x.2 := by
      rw [List.filter_eq_self]
      intro file hfile
      rw [hkeep, leadsTo_of_listAt hempty habsolute (hall x hx).1 (hall x hx).2 hloc
        (bne_iff_ne.mp hne) file hfile]
      rfl
    rw [Function.comp_apply, hsame]
  rw [inOrder_perm (by simpa [listEach_eq_map, Function.comp_def] using hnames) hlisted,
    filter_inOrder, listEach, List.map_cons, hstay]

/-- **What is listed after a file is removed** is what was, the file left out. -/
theorem inOrder_put (hempty : path ≠ "") (habsolute : Path.isAbsolute path = false)
    (htidy : isTidy (.directory es)) (hloc : Path.locate [] (Path.names path) = some loc)
    (hfile : descend (.directory es) rest = some (.file octets)) :
    inOrder (listEach q path (put none rest es)) =
      (inOrder (listEach q path es)).filter fun file => !leadsTo (loc ++ rest) file := by
  induction rest generalizing es path loc with
  | nil => cases hfile
  | cons n rest ih =>
    obtain ⟨hnames, hall⟩ := isTidy_directory.mp htidy
    rw [descend_cons_directory] at hfile
    obtain ⟨child, hlookup, hfile⟩ := Option.bind_eq_some_iff.mp hfile
    have hperm := perm_of_lookup hnames hlookup
    obtain ⟨hn, hchild⟩ := hall _ (hperm.mem_iff.mpr (List.mem_cons_self ..))
    have hpath := locate_pathIn hn hloc
    have habsolute' := Path.isAbsolute_pathIn hempty habsolute n
    rw [filter_inOrder_listEach hempty habsolute htidy hloc hlookup fun _ => rfl]
    -- the file is in this directory, or further down in the one of the first name
    cases rest with
    | nil =>
      cases child with
      | directory es' => cases hfile
      | file octets' =>
        have hleads : leadsTo (loc ++ [n]) (pathIn path n) = true := by
          unfold leadsTo Path.location?
          rw [if_neg (by simp [habsolute']), hpath]
          simp
        have hgone : ((listAt q (pathIn path n) (.file octets')).filter fun file =>
            !leadsTo (loc ++ [n]) file) = [] := by
          rw [listAt]
          split <;> simp [hleads]
        have hothers :
            (n :: (listEach q path (es.filter fun x => x.1 != n)).map Prod.fst).Nodup := by
          simpa [listEach_eq_map, Function.comp_def] using (hperm.map Prod.fst).nodup_iff.mp hnames
        rw [hgone, inOrder_cons_nil hothers, put]
    | cons m rest =>
      cases child with
      | file octets' => cases hfile
      | directory es' =>
        have hbelow : listAt q (pathIn path n) (.directory (put none (m :: rest) es')) =
            (listAt q (pathIn path n) (.directory es')).filter fun file =>
              !leadsTo (loc ++ n :: m :: rest) file := by
          rw [listAt, listAt]
          split
          · rw [ih (Path.pathIn_ne_empty path n) habsolute' hchild hpath hfile]
            simp
          · rfl
        rw [put, hlookup, putIn, listEach, hbelow]

end Listing

/-! ### The tree without a file -/

section Erase

variable {t : Tree} {q : FileQuery} {path directory : String} {e : Entry} {octets : List UInt8}
  {loc : List String}

/-- What lies in something tidy is tidy. -/
theorem isTidy_descend (h : isTidy e) {e' : Entry} (hdescend : descend e loc = some e') :
    isTidy e' := by
  induction loc generalizing e with
  | nil =>
    cases hdescend
    exact h
  | cons n loc ih =>
    obtain ⟨es, child, rfl, hmem, hchild⟩ := descend_cons_eq_some hdescend
    exact ih ((isTidy_directory.mp h).2 _ hmem).2 hchild

/-- A file that a path without dots leads to lies under its names. -/
theorem descend_names (hdots : ".." ∉ Path.names path) (h : t.find? path = some e) :
    Path.location? path = some (Path.names path) ∧ descend t.root (Path.names path) = some e := by
  obtain ⟨loc, hloc, hdescend⟩ := find?_eq_some h
  have hnames : Path.location? path = some (Path.names path) := by
    unfold Path.location? at *
    split at hloc
    · cases hloc
    · rename_i habsolute
      rw [if_neg habsolute]
      exact Path.locate_of_not_mem hdots
  cases hnames.symm.trans hloc
  exact ⟨hnames, hdescend⟩

theorem listFiles_eq_nil (h : ∀ es, t.find? directory ≠ some (.directory es)) :
    t.listFiles q directory = [] := by
  unfold listFiles
  split
  · exact absurd ‹_› (h _)
  · rfl

section

variable (hdots : ".." ∉ Path.names path) (hfile : t.find? path = some (.file octets))

include hdots hfile

/-- **What is found after a file is removed.** -/
theorem find?_erase (path' : String) :
    SameBut (Path.names path) (Path.location? path') ((t.erase path).find? path')
      (t.find? path') := by
  unfold find? Path.location?
  split
  · exact sameBut_none _ _
  · exact (pruned_put (descend_names hdots hfile).2).follow _ Standing.root Standing.root

/-- **The text of a file after another one is removed** is what it was. -/
theorem readText?_erase (path' : String) :
    (t.erase path).readText? path' =
      if leadsTo (Path.names path) path' then .ok none else t.readText? path' := by
  have htext : ∀ t : Tree, t.readText? path' =
      ((t.find? path').map octets?).join.elim (.ok none) fun octets =>
        (Text.ofOctets octets).map some := by
    intro t
    unfold readText?
    cases t.find? path' with
    | none => rfl
    | some e => cases e <;> rfl
  have hfound := find?_erase hdots hfile path'
  unfold leadsTo
  by_cases hloc : Path.location? path' = some (Path.names path)
  · rw [htext, hfound.gone hloc, if_pos (beq_iff_eq.mpr hloc)]
    rfl
  · rw [htext, htext, hfound.kept hloc, if_neg (by simpa using hloc)]

/-- A directory after a file is removed. -/
theorem find?_erase_directory {es : List (String × Entry)}
    (h : t.find? directory = some (.directory es)) (hloc : Path.location? directory = some loc) :
    (t.erase path).find? directory = some (prune (Path.names path) loc (.directory es)) := by
  obtain ⟨-, hlies⟩ := descend_names hdots hfile
  obtain ⟨loc', hloc', hdescend⟩ := find?_eq_some h
  cases hloc.symm.trans hloc'
  have hne : Path.location? directory ≠ some (Path.names path) := by
    intro heq
    cases hloc.symm.trans heq
    cases hdescend.symm.trans hlies
  have hkept := (find?_erase hdots hfile directory).kept hne
  rw [h] at hkept
  obtain ⟨e', he', -⟩ := Option.map_eq_some_iff.mp hkept
  obtain ⟨loc', hloc', hdescend'⟩ := find?_eq_some he'
  cases hloc.symm.trans hloc'
  have hput : descend (t.erase path).root loc = _ := descend_put hlies loc
  rw [hdescend', show descend (.directory t.entries) loc = _ from hdescend] at hput
  rw [he', hput]
  split
  · rename_i hbelow
    rw [if_pos hbelow] at hput
    cases hput
  · rfl

/-- **The files under a directory after a file is removed** are those that were there, that one left
out. -/
theorem listFiles_erase (htidy : isTidy t.root) (hempty : directory ≠ "") :
    (t.erase path).listFiles q directory =
      (t.listFiles q directory).filter fun file => !leadsTo (Path.names path) file := by
  obtain ⟨-, hlies⟩ := descend_names hdots hfile
  by_cases hdirectory : ∃ es, t.find? directory = some (.directory es)
  · obtain ⟨es, hes⟩ := hdirectory
    obtain ⟨loc, hloc, hdescend⟩ := find?_eq_some hes
    have htidy' := isTidy_descend htidy hdescend
    have herase := find?_erase_directory hdots hfile hes hloc
    unfold Path.location? at hloc
    split at hloc
    · cases hloc
    · rename_i habsolute
      rw [Bool.not_eq_true] at habsolute
      unfold listFiles
      rw [hes, herase]
      -- only a directory on the way to the file has lost anything
      by_cases hway : loc <+: Path.names path
      · obtain ⟨rest, hrest⟩ := hway
        have hbelow : descend (.directory es) rest = some (.file octets) := by
          rwa [← hrest, descend_append, hdescend] at hlies
        rw [← hrest, prune_append, putIn]
        exact inOrder_put hempty habsolute htidy' hloc hbelow
      · rw [prune_elsewhere hway]
        refine (List.filter_eq_self.mpr fun file hlisted => ?_).symm
        have hleads := leadsInto_of_inOrder hempty habsolute htidy' hlisted
        obtain ⟨rest, -, hlocation, -⟩ := hleads.location? hloc
        have hother : loc ++ rest ≠ Path.names path := fun heq => hway ⟨rest, heq⟩
        simp [leadsTo, hlocation, hother]
  · rw [not_exists] at hdirectory
    rw [listFiles_eq_nil hdirectory, listFiles_eq_nil]
    · rfl
    · intro es' hes'
      obtain ⟨hgone, hkept⟩ := find?_erase hdots hfile directory
      by_cases hloc : Path.location? directory = some (Path.names path)
      · cases (hgone hloc).symm.trans hes'
      · have hkind := hkept hloc
        rw [hes'] at hkind
        obtain ⟨e, he, hkind⟩ := Option.map_eq_some_iff.mp hkind.symm
        cases e with
        | file octets => cases hkind
        | directory es => exact hdirectory es he

end

/-- Leaving elements out leaves out what they come to. -/
theorem mapM_filter {f f' : String → Except Fault (Option (String × String))}
    {keep : String → Bool} {paths : List String} {found : List (Option (String × String))}
    (hname : ∀ path ∈ paths, ∀ x, f path = .ok (some x) → x.1 = path)
    (hsame : ∀ path ∈ paths, keep path = true → f' path = f path)
    (h : paths.mapM f = .ok found) :
    ∃ found', (paths.filter keep).mapM f' = .ok found' ∧
      found'.filterMap id = (found.filterMap id).filter fun x => keep x.1 := by
  induction paths generalizing found with
  | nil =>
    cases h
    exact ⟨[], rfl, rfl⟩
  | cons path paths ih =>
    obtain ⟨hnameHead, hname⟩ := List.forall_mem_cons.mp hname
    obtain ⟨hsameHead, hsame⟩ := List.forall_mem_cons.mp hsame
    rw [List.mapM_cons] at h
    cases hf : f path with
    | error fault =>
      rw [hf] at h
      cases h
    | ok first =>
      cases hmore : paths.mapM f with
      | error fault =>
        rw [hf, hmore] at h
        cases h
      | ok more =>
        rw [hf, hmore] at h
        cases h
        obtain ⟨more', hmore', hfilter⟩ := ih hname hsame hmore
        cases hkeep : keep path with
        | true =>
          refine ⟨first :: more', ?_, ?_⟩
          · rw [List.filter_cons_of_pos hkeep, List.mapM_cons, hsameHead hkeep, hf, hmore']
            rfl
          · cases first with
            | none => simpa using hfilter
            | some x =>
              have hx : keep x.1 = true := by rw [hnameHead x hf, hkeep]
              simpa [hx] using hfilter
        | false =>
          refine ⟨more', by rw [List.filter_cons_of_neg (by simp [hkeep]), hmore'], ?_⟩
          cases first with
          | none => simpa using hfilter
          | some x =>
            have hx : keep x.1 = false := by rw [hnameHead x hf, hkeep]
            simpa [hx] using hfilter

/-- Nothing can be read under the directory without a name: all that is listed there begins at the
root of all files. -/
theorem readFiles_empty (t : Tree) (q : FileQuery) : t.readFiles q "" = .ok [] := by
  have hread : ∀ file ∈ t.listFiles q "", t.readText? file = .ok none := by
    intro file hfile
    obtain ⟨rest, hrest⟩ := start_of_mem hfile
    have habsolute : Path.isAbsolute file = true := by
      unfold Path.isAbsolute
      rw [← hrest]
      rfl
    unfold readText? find?
    rw [if_pos habsolute]
  unfold readFiles
  rw [mapM_of_forall (g := fun _ => none) fun file hfile => by rw [hread file hfile]; rfl]
  show Except.ok (((t.listFiles q "").map fun _ => none).filterMap id) = _
  rw [List.filterMap_map]
  simp

/-- **The files that can be read after a file is removed** are those that could be, that one left
out. -/
theorem readFiles_erase (htidy : isTidy t.root) (hdots : ".." ∉ Path.names path)
    (hfile : t.find? path = some (.file octets)) {files : List (String × String)}
    (h : t.readFiles q directory = .ok files) :
    (t.erase path).readFiles q directory =
      .ok (files.filter fun f => !leadsTo (Path.names path) f.1) := by
  by_cases hempty : directory = ""
  · subst hempty
    cases (readFiles_empty t q).symm.trans h
    exact readFiles_empty _ q
  · -- what is read is all there is to each tree here, so that both can be gone through alike
    let read (t : Tree) (file : String) : Except Fault (Option (String × String)) := do
      pure ((← t.readText? file).map fun text => (file, text))
    have hname : ∀ file ∈ t.listFiles q directory,
        ∀ x, read t file = .ok (some x) → x.1 = file := by
      intro file _ x hx
      cases htext : t.readText? file with
      | error fault =>
        simp only [read, htext] at hx
        cases hx
      | ok text =>
        simp only [read, htext] at hx
        obtain ⟨_, -, rfl⟩ := Option.map_eq_some_iff.mp (Except.ok.inj hx)
        rfl
    have hsame : ∀ file ∈ t.listFiles q directory, (!leadsTo (Path.names path) file) = true →
        read (t.erase path) file = read t file := by
      intro file _ hkeep
      simp only [read]
      rw [readText?_erase hdots hfile, if_neg (by simpa using hkeep)]
    unfold readFiles at *
    cases hfound : (t.listFiles q directory).mapM (read t) with
    | error fault =>
      rw [hfound] at h
      cases h
    | ok found =>
      rw [hfound] at h
      cases h
      obtain ⟨found', hfound', hfilter⟩ := mapM_filter hname hsame hfound
      rw [listFiles_erase hdots hfile htidy hempty]
      show ((_ : List String).mapM (read (t.erase path)) >>= fun found => _) = _
      rw [hfound']
      exact congrArg Except.ok hfilter

end Erase

end Tree

/-! ### The project without a file -/

namespace Project

/-- A project without some of the files of another: what is at a path that is gone is not there, and
nothing else differs. -/
structure Without (gone : String → Bool) (p' p : Project) : Prop where
  here : p'.here = p.here
  options : p'.options = p.options
  files : ∀ patterns directory files, p.files patterns directory = .ok files →
    p'.files patterns directory = .ok (files.filter fun f => !gone f.1)
  contents : ∀ path, p'.contents? path = if gone path then .ok none else p.contents? path

/-- **A project from which a file is removed is the project without it**, and all else stays. -/
theorem without_erase {p : Project} {path : String} {octets : List UInt8}
    (htidy : Tree.isTidy p.tree.root) (hdots : ".." ∉ Path.names path)
    (hfile : p.tree.find? path = some (.file octets)) :
    Without (Tree.leadsTo (Path.names path)) { p with tree := p.tree.erase path } p where
  here := rfl
  options := rfl
  files _ _ _ h := Tree.readFiles_erase htidy hdots hfile h
  contents path' := by
    unfold contents?
    rw [Tree.readText?_erase hdots hfile]
    split <;> rfl

end Project

end ApiSuite
