import ApiSuite.Proofs.Project.Alternatives
import ApiSuite.Proofs.Project.CharSets

/-!
# Directories that a pattern leaves open

A star pair with a slash is to stand for any number of directories, none included. A star alone
stands for any characters, slashes included, so what is left to ask is where the pair may stand for
nothing. This file answers it for the beginning of a pattern and for the places after its slashes
(`ApiSuite.Glob.doubleStar_matches`): there the pair matches what a single star with a slash does,
and what the pattern without it matches is matched just if nothing but such pairs stands before it.

For a pattern without alternatives this comes in two parts. Within a text two stars stand for what
one does, also where brackets around them make them characters of a set
(`ApiSuite.Glob.sameTexts_doubled`), and a pair is left out only at the beginning
(`ApiSuite.Glob.matchesTrimmed_doubled`). Alternatives are settled before that, and a text without
braces and commas goes through them as it is (`ApiSuite.Glob.stays_of_mem`); but what stands before
it in a result may be less than what stood before it in the pattern.
-/

namespace ApiSuite.Glob

/-! ### A text in a pattern -/

/-- A text that the expansion of a pattern leaves as it is, wherever it stands. -/
def IsInert (m : List Char) : Prop := IsPlain m ∧ ',' ∉ m

/-- Texts that stand in a result of the expansion around whatever inert text stands in the
pattern. -/
def StandsAround (before after u v : List Char) : Prop :=
  ∀ m, IsInert m → u ++ m ++ v ∈ expansions (before ++ m ++ after)

/-- A result of the expansion that is one whatever inert text stands in the pattern, but for that
text if it stands in the result, too. -/
def Stays (before after m r : List Char) : Prop :=
  (∀ m', IsInert m' → r ∈ expansions (before ++ m' ++ after)) ∨
    ∃ u v, r = u ++ m ++ v ∧ StandsAround before after u v

section Inert

variable {a a' b b' c i m r u v x y cs : List Char} {z : Char}

theorem IsInert.isSolid (h : IsInert m) : IsSolid m := h.1.isSolid h.2

/-- A text is on one side of a character that is not in it. -/
theorem side_cases (hz : z ∉ m) (h : b ++ m ++ a = u ++ z :: v) :
    (∃ v', u = b ++ m ++ v' ∧ a = v' ++ z :: v) ∨ ∃ u', b = u ++ z :: u' ∧ v = u' ++ m ++ a := by
  rw [List.append_assoc] at h
  rcases List.append_eq_append_iff.mp h with ⟨w, rfl, hw⟩ | ⟨w, rfl, hw⟩
  · rcases List.append_eq_append_iff.mp hw with ⟨t, rfl, ht⟩ | ⟨t, hm, ht⟩
    · exact .inl ⟨t, by simp, ht⟩
    · cases t with
      | nil => exact .inl ⟨[], by simpa using hm.symm, by simpa using ht.symm⟩
      | cons t ts =>
        obtain ⟨rfl, -⟩ := List.cons.inj ht
        exact absurd (by simp [hm]) hz
  · rcases List.cons_eq_append_iff.mp hw with ⟨rfl, hm⟩ | ⟨w, rfl, rfl⟩
    · cases m with
      | nil => exact .inl ⟨[], by simp, by simpa using hm⟩
      | cons y m =>
        obtain ⟨rfl, -⟩ := List.cons.inj hm
        exact absurd List.mem_cons_self hz
    · exact .inr ⟨w, rfl, by simp⟩

/-- The results for one of the alternatives of the first group are among those for the pattern. -/
theorem IsFirstGroup.expansions_subset (h : IsFirstGroup cs b i a) (hc : c ∈ splitCommas i) :
    expansions (b ++ c ++ a) ⊆ expansions cs := by
  intro r hr
  rw [h.expansions_eq]
  exact List.mem_flatMap.mpr ⟨c, hc, hr⟩

theorem Stays.of_subset (h : Stays b' a' m r) (hsubset : ∀ m', IsInert m' →
    expansions (b' ++ m' ++ a') ⊆ expansions (b ++ m' ++ a)) : Stays b a m r := by
  rcases h with hother | ⟨u, v, rfl, hown⟩
  · exact .inl fun m' hm' => hsubset m' hm' (hother m' hm')
  · exact .inr ⟨u, v, rfl, fun m' hm' => hsubset m' hm' (hown m' hm')⟩

/-- **A text without braces and commas** is left as it is by the expansion, and if it gives way to
another such text, the results stay the same but for that text. -/
theorem stays_of_mem (hm : IsInert m) (h : r ∈ expansions (b ++ m ++ a)) : Stays b a m r := by
  generalize hcs : b ++ m ++ a = cs at h
  induction cs using expansion_induction generalizing b a with
  | none cs hnone =>
    subst hcs
    rw [expansions_of_none hnone, List.mem_singleton] at h
    refine .inr ⟨b, a, h, fun m' hm' => ?_⟩
    rw [hasGroup_around hm.1, ← hasGroup_around hm'.1] at hnone
    rw [expansions_of_none hnone]
    exact List.mem_singleton_self _
  | first cs b₀ i a₀ hfirst ih =>
    subst hcs
    rw [hfirst.expansions_eq] at h
    obtain ⟨c, hc, hr⟩ := List.mem_flatMap.mp h
    have hopening : '{' ∉ m := fun hmem => (hm.1 _ hmem).1 rfl
    have hclosing : '}' ∉ m := fun hmem => (hm.1 _ hmem).2 rfl
    have hbefore := hfirst.first
    have hplain := hfirst.plain
    rcases side_cases hopening hfirst.text with ⟨x, rfl, rfl⟩ | ⟨x, rfl, htail⟩
    · -- the text stands before the group
      refine (ih c hc (b := b) (a := x ++ c ++ a₀) (by simp) hr).of_subset fun m' hm' => ?_
      have hgroup :
          IsFirstGroup (b ++ m' ++ (x ++ '{' :: (i ++ '}' :: a₀))) (b ++ m' ++ x) i a₀ := by
        refine ⟨by simp, ?_, hplain⟩
        rw [hasGroup_around hm'.1]
        rwa [hasGroup_around hm.1] at hbefore
      simpa using hgroup.expansions_subset hc
    · rcases side_cases hclosing htail.symm with ⟨y, rfl, rfl⟩ | ⟨y, rfl, rfl⟩
      · -- it stands inside the group, in one of its alternatives or in none that is chosen
        have hinside {m' : List Char} (hm' : IsInert m') : IsPlain (x ++ m' ++ y) := by
          rw [isPlain_append, isPlain_append] at hplain
          exact isPlain_append.mpr ⟨isPlain_append.mpr ⟨hplain.1.1, hm'.1⟩, hplain.2⟩
        have hgroup {m' : List Char} (hm' : IsInert m') : IsFirstGroup
            (b₀ ++ '{' :: x ++ m' ++ (y ++ '}' :: a₀)) b₀ (x ++ m' ++ y) a₀ :=
          ⟨by simp, hbefore, hinside hm'⟩
        rw [← (hinside hm).alternatives_eq] at hc
        rcases alternatives_cases hm.isSolid hc with hother | ⟨u, v, rfl, hown⟩
        · refine .inl fun m' hm' => (hgroup hm').expansions_subset ?_ hr
          exact (hinside hm').alternatives_eq ▸ hother m' hm'.isSolid
        · have hchoice {m' : List Char} (hm' : IsInert m') :
              u ++ m' ++ v ∈ splitCommas (x ++ m' ++ y) :=
            (hinside hm').alternatives_eq ▸ hown m' hm'.isSolid
          refine (ih _ (hchoice hm) (b := b₀ ++ u) (a := v ++ a₀) (by simp) hr).of_subset
            fun m' hm' => ?_
          simpa using (hgroup hm').expansions_subset (hchoice hm')
      · -- it stands after the group
        refine (ih c hc (b := b₀ ++ c ++ y) (a := a) (by simp) hr).of_subset fun m' _ => ?_
        have hgroup : IsFirstGroup (b₀ ++ '{' :: (i ++ '}' :: y) ++ m' ++ a) b₀ i (y ++ m' ++ a) :=
          ⟨by simp, hbefore, hplain⟩
        simpa using hgroup.expansions_subset hc

end Inert

/-! ### Doubled stars -/

/-- Parts of patterns that the same texts match. -/
def SameTexts (ps qs : List Part) : Prop := ∀ cs, matchesParts ps cs = matchesParts qs cs

section Parts

variable {ps qs : List Part} {cs u v t : List Char}

/-- What a star stands for. -/
theorem matchesParts_star : matchesParts (.star :: ps) cs = true ↔
    ∃ x y, cs = x ++ y ∧ matchesParts ps y = true := by
  induction cs with
  | nil =>
    rw [matchesParts]
    constructor
    · exact fun h => ⟨[], [], rfl, h⟩
    · rintro ⟨x, y, hxy, h⟩
      rwa [(List.append_eq_nil_iff.mp hxy.symm).2] at h
  | cons c cs ih =>
    rw [matchesParts, Bool.or_eq_true, ih]
    constructor
    · rintro (h | ⟨x, y, rfl, h⟩)
      · exact ⟨[], c :: cs, rfl, h⟩
      · exact ⟨c :: x, y, rfl, h⟩
    · rintro ⟨x, y, hxy, h⟩
      rcases List.cons_eq_append_iff.mp hxy with ⟨rfl, rfl⟩ | ⟨x, rfl, hcs⟩
      · exact .inl h
      · exact .inr ⟨x, y, hcs, h⟩

theorem SameTexts.cons (h : SameTexts ps qs) (p : Part) : SameTexts (p :: ps) (p :: qs) := by
  intro cs
  cases p with
  | star =>
    rw [Bool.eq_iff_iff, matchesParts_star, matchesParts_star]
    simp only [h _]
  | one => cases cs with
    | nil => simp only [matchesParts]
    | cons c cs => simp only [matchesParts, h _]
  | set s => cases cs with
    | nil => simp only [matchesParts]
    | cons c cs => simp only [matchesParts, h _]
  | char x => cases cs with
    | nil => simp only [matchesParts]
    | cons c cs => simp only [matchesParts, h _]

/-- **A star pair** stands for what a star does. -/
theorem sameTexts_star_star (ps : List Part) : SameTexts (.star :: .star :: ps) (.star :: ps) := by
  intro cs
  rw [Bool.eq_iff_iff, matchesParts_star, matchesParts_star]
  constructor
  · rintro ⟨x, y, rfl, h⟩
    obtain ⟨x', y', rfl, h'⟩ := matchesParts_star.mp h
    exact ⟨x ++ x', y', by simp, h'⟩
  · rintro ⟨x, y, rfl, h⟩
    exact ⟨[], x ++ y, rfl, matchesParts_star.mpr ⟨x, y, rfl, h⟩⟩

/-- Sets that have the same characters. -/
theorem SameTexts.set {s s' : CharSet} (hset : ∀ c, s.contains c = s'.contains c)
    (h : SameTexts ps qs) : SameTexts (.set s :: ps) (.set s' :: qs) := by
  intro cs
  cases cs with
  | nil => simp only [matchesParts]
  | cons c cs => simp only [matchesParts, hset, h _]

theorem parts_star (cs : List Char) : parts ('*' :: cs) = .star :: parts cs := by rw [parts]

theorem parts_one (cs : List Char) : parts ('?' :: cs) = .one :: parts cs := by rw [parts]

theorem parts_char {c : Char} (h : c ≠ '*') (h' : c ≠ '?') (h'' : c ≠ '[') (cs : List Char) :
    parts (c :: cs) = .char c :: parts cs := by
  rw [parts]
  all_goals simp_all

theorem parts_set {inside rest : List Char} (h : bracketed? cs = some (inside, rest)) :
    parts ('[' :: cs) = .set (CharSet.ofText inside) :: parts rest := by
  rw [parts]
  split
  · rename_i heq
    cases heq.symm.trans h
    rfl
  · rename_i heq
    cases heq.symm.trans h

theorem parts_bracket (h : bracketed? cs = none) : parts ('[' :: cs) = .char '[' :: parts cs := by
  rw [parts]
  split
  · rename_i heq
    cases heq.symm.trans h
  · rfl

/-- **A star pair after a slash**, or at the beginning, stands for what a star does. -/
theorem sameTexts_doubled (hu : u = [] ∨ EndsAtSlash u) (v : List Char) :
    SameTexts (parts (u ++ '*' :: '*' :: '/' :: v)) (parts (u ++ '*' :: '/' :: v)) := by
  induction hlength : u.length using Nat.strongRecOn generalizing u with
  | ind n ih =>
    subst hlength
    cases u with
    | nil =>
      simp only [List.nil_append, parts_star]
      exact sameTexts_star_star _
    | cons c t =>
      have hend : EndsAtSlash (c :: t) := hu.resolve_left (by simp)
      have ht := hend.of_cons
      have hrest := ih t.length (by simp) ht rfl
      simp only [List.cons_append]
      by_cases hstar : c = '*'
      · rw [hstar, parts_star, parts_star]
        exact hrest.cons _
      by_cases hone : c = '?'
      · rw [hone, parts_one, parts_one]
        exact hrest.cons _
      by_cases hset : c = '['
      · subst hset
        -- what the bracket does is the same for one star and for two
        have hslash : EndsAtSlash t := by
          refine ht.resolve_left ?_
          rintro rfl
          obtain ⟨w, hw⟩ := hend
          have hlast := congrArg List.getLast? hw
          simp at hlast
        have hstars (v : List Char) : t ++ '*' :: '*' :: '/' :: v = t ++ ['*', '*', '/'] ++ v ∧
            t ++ '*' :: '/' :: v = t ++ ['*', '/'] ++ v := by simp
        rw [(hstars v).1, (hstars v).2]
        rcases bracketed?_around hslash v with
          ⟨inside, rest, hend', hless, hclosed⟩ | ⟨more, rest, hclosed⟩ | hclosed
        · rw [parts_set (hclosed _ (by decide)), parts_set (hclosed _ (by decide))]
          have hafter := ih rest.length (by simp; omega) (.inr hend') rfl
          simpa using hafter.cons _
        · rw [parts_set (hclosed _ (by decide)), parts_set (hclosed _ (by decide))]
          obtain ⟨w, rfl⟩ := hslash
          refine .set (fun c => ?_) (fun _ => rfl)
          have hpair : AreStars ['*', '*'] := ⟨by simp, by simp⟩
          have hstar : AreStars ['*'] := ⟨by simp, by simp⟩
          simpa using contains_ofText hpair hstar w more c
        · rw [parts_bracket (hclosed _ (by decide)), parts_bracket (hclosed _ (by decide)),
            ← (hstars v).1, ← (hstars v).2]
          exact hrest.cons _
      · rw [parts_char hstar hone hset, parts_char hstar hone hset]
        exact hrest.cons _

end Parts

/-! ### Star pairs at the beginning -/

/-- Star pairs with slashes, and nothing else. -/
inductive IsRun : List Char → Prop
  | nil : IsRun []
  | cons {u} : IsRun u → IsRun ('*' :: '*' :: '/' :: u)

section Runs

variable {u v cs path base : List Char}

theorem IsRun.ends (h : IsRun u) : u = [] ∨ EndsAtSlash u := by
  induction h with
  | nil => exact .inl rfl
  | @cons u _ ih =>
    right
    rcases ih with rfl | ⟨t, rfl⟩
    · exact ⟨['*', '*'], rfl⟩
    · exact ⟨'*' :: '*' :: '/' :: t, rfl⟩

/-- Of star pairs with slashes it is no matter which one stands first. -/
theorem IsRun.append_cons (h : IsRun u) (v : List Char) :
    u ++ '*' :: '*' :: '/' :: v = '*' :: '*' :: '/' :: (u ++ v) := by
  induction h with
  | nil => rfl
  | cons _ ih => simp only [List.cons_append, ih]

theorem matchesTrimmed_cons (path base v : List Char) :
    matchesTrimmed path base ('*' :: '*' :: '/' :: v) =
      (matchesText v base || matchesText v path || matchesTrimmed path base v) := by
  rw [matchesTrimmed]

theorem matchesTrimmed_of_not (h : ∀ v, cs ≠ '*' :: '*' :: '/' :: v) :
    matchesTrimmed path base cs = false := by
  rw [matchesTrimmed]
  exact h

/-- A text that ends with a slash has a star pair of its own at the beginning, or none whatever
comes after it. -/
theorem EndsAtSlash.begins (h : EndsAtSlash u) {more : List Char}
    (heq : u ++ v = '*' :: '*' :: '/' :: more) : ∃ u', u = '*' :: '*' :: '/' :: u' := by
  obtain ⟨t, rfl⟩ := h
  rcases t with - | ⟨a, - | ⟨b, - | ⟨c, t⟩⟩⟩
  all_goals simp_all

/-- **A star pair is left out** only where it stands at the beginning, after other star pairs. -/
theorem matchesTrimmed_doubled (hu : u = [] ∨ EndsAtSlash u) (path base v : List Char) :
    matchesTrimmed path base (u ++ '*' :: '*' :: '/' :: v) = true ↔
      matchesTrimmed path base (u ++ '*' :: '/' :: v) = true ∨
        IsRun u ∧ (matchesText v base = true ∨ matchesText v path = true ∨
          matchesTrimmed path base v = true) := by
  have hnone (cs : List Char) : matchesTrimmed path base ('*' :: '/' :: cs) = false :=
    matchesTrimmed_of_not fun v h => by simp at h
  induction hlength : u.length using Nat.strongRecOn generalizing u with
  | ind n ih =>
    subst hlength
    rcases hu with rfl | hend
    · simp only [List.nil_append]
      rw [matchesTrimmed_cons, hnone, Bool.or_eq_true, Bool.or_eq_true, or_assoc]
      simp [IsRun.nil]
    by_cases hbegins : ∃ u', u = '*' :: '*' :: '/' :: u'
    · obtain ⟨u', rfl⟩ := hbegins
      have hu' : u' = [] ∨ EndsAtSlash u' :=
        ((hend.of_cons.resolve_left (by simp)).of_cons.resolve_left (by simp)).of_cons
      have hrun : IsRun ('*' :: '*' :: '/' :: u') ↔ IsRun u' :=
        ⟨fun h => by cases h; assumption, .cons⟩
      have hsame := sameTexts_doubled hu' v
      have hrest := ih u'.length (by simp; omega) hu' rfl
      simp only [List.cons_append, matchesTrimmed_cons, matchesText, hsame _, Bool.or_eq_true, hrun]
      exact (or_congr_right hrest).trans or_assoc.symm
    · have hnot (m : List Char) : matchesTrimmed path base (u ++ m) = false :=
        matchesTrimmed_of_not fun more heq => hbegins (hend.begins heq)
      rw [hnot, hnot]
      have hrun : ¬IsRun u := by
        rintro ⟨⟩
        · obtain ⟨t, ht⟩ := hend
          simp at ht
        · exact hbegins ⟨_, rfl⟩
      simp [hrun]

/-- Behind star pairs a path or its last name may match the rest of the pattern. -/
theorem IsRun.matchesTrimmed (hrun : IsRun u) (h : matchesText v base = true ∨
    matchesText v path = true ∨ Glob.matchesTrimmed path base v = true) :
    Glob.matchesTrimmed path base ('*' :: '*' :: '/' :: (u ++ v)) = true := by
  induction hrun with
  | nil =>
    rw [List.nil_append, matchesTrimmed_cons, Bool.or_eq_true, Bool.or_eq_true, or_assoc]
    exact h
  | cons _ ih =>
    rw [matchesTrimmed_cons, Bool.or_eq_true]
    exact .inr ih

end Runs

/-! ### Matching -/

section Matching

variable {u v : List Char} {path : String}

theorem matchesOne_ofList (cs : List Char) (path : String) :
    matchesOne (String.ofList cs) path = true ↔ matchesText cs path.toList = true ∨
      matchesTrimmed path.toList (Path.baseName path).toList cs = true := by
  rw [matchesOne, String.toList_ofList, Bool.or_eq_true]

/-- **A leading star pair** may be left out. -/
theorem matchesOne_cons (h : matchesOne (String.ofList v) path = true) :
    matchesOne (String.ofList ('*' :: '*' :: '/' :: v)) path = true := by
  rw [matchesOne_ofList] at h ⊢
  rw [matchesTrimmed_cons, Bool.or_eq_true, Bool.or_eq_true]
  rcases h with h | h
  · exact .inr (.inl (.inr h))
  · exact .inr (.inr h)

/-- A path is its last name, or that name after a slash. -/
theorem baseName_cases (path : String) : (Path.baseName path).toList = path.toList ∨
    ∃ before, path.toList = before ++ '/' :: (Path.baseName path).toList := by
  have hsplit : path.toList = (path.toList.reverse.dropWhile (· != '/')).reverse ++
      (Path.baseName path).toList := by
    rw [Path.baseName, String.toList_ofList, ← List.reverse_append,
      List.takeWhile_append_dropWhile, List.reverse_reverse]
  cases hdrop : path.toList.reverse.dropWhile (· != '/') with
  | nil =>
    rw [hdrop, List.reverse_nil, List.nil_append] at hsplit
    exact .inl hsplit.symm
  | cons c cs =>
    have hc : c = '/' := by
      have hhead := List.head?_dropWhile_not (· != '/') path.toList.reverse
      rw [hdrop] at hhead
      simpa using hhead
    rw [hdrop, hc, List.reverse_cons, List.append_assoc, List.singleton_append] at hsplit
    exact .inr ⟨cs.reverse, hsplit⟩

/-- A pattern that the last name of a path matches. -/
theorem matchesText_star_slash {cs : List Char} (h : matchesText v cs = true) (before : List Char) :
    matchesText ('*' :: '/' :: v) (before ++ '/' :: cs) = true := by
  rw [matchesText, parts_star, parts_char (by decide) (by decide) (by decide), matchesParts_star]
  refine ⟨before, '/' :: cs, rfl, ?_⟩
  rw [matchesParts, beq_self_eq_true, Bool.true_and]
  exact h

/-- **What a star pair after a slash stands for**, or at the beginning: what a star does, and
nothing if there are only star pairs before it. -/
theorem matchesOne_doubled (hu : u = [] ∨ EndsAtSlash u) (v : List Char) (path : String) :
    matchesOne (String.ofList (u ++ '*' :: '*' :: '/' :: v)) path = true ↔
      matchesOne (String.ofList (u ++ '*' :: '/' :: v)) path = true ∨
        IsRun u ∧ matchesOne (String.ofList (u ++ v)) path = true := by
  constructor
  · intro h
    rw [matchesOne_ofList] at h
    rw [matchesTrimmed_doubled hu, matchesText, sameTexts_doubled hu] at h
    rw [matchesOne_ofList, matchesText]
    rcases h with h | h | ⟨hrun, h⟩
    · exact .inl (.inl h)
    · exact .inl (.inr h)
    · cases hrun with
      | nil =>
        -- the last name of a path that is in a directory matches behind a star and a slash
        rw [List.nil_append, matchesOne_ofList]
        rcases h with hbase | h
        · rcases baseName_cases path with hpath | ⟨before, hpath⟩
          · exact .inr ⟨.nil, .inl (hpath ▸ hbase)⟩
          · exact .inl (.inl (hpath ▸ matchesText_star_slash hbase before))
        · exact .inr ⟨.nil, h⟩
      | cons hrun =>
        refine .inr ⟨.cons hrun, ?_⟩
        rw [matchesOne_ofList]
        exact .inr (hrun.matchesTrimmed h)
  · rintro (h | ⟨hrun, h⟩)
    · rw [matchesOne_ofList, matchesText] at h ⊢
      rw [matchesTrimmed_doubled hu, sameTexts_doubled hu]
      exact h.imp_right .inl
    · rw [hrun.append_cons]
      exact matchesOne_cons h

end Matching

/-! ### Patterns with alternatives -/

section Patterns

variable {a b m r u v cs : List Char} {path : String}

theorem matchesAny_singleton (pattern path : String) : matchesAny [pattern] path = true ↔
    ∃ r ∈ expansions pattern.toList, matchesOne (String.ofList r) path = true := by
  simp [matchesAny, expandBraces, expansions]

/-- What stands before the first opening brace stands before every result of the expansion. -/
theorem expansions_append (hb : '{' ∉ b) (cs : List Char) :
    expansions (b ++ cs) = (expansions cs).map (b ++ ·) := by
  have hgroup {cs : List Char} (hnone : ¬HasGroup cs) : ¬HasGroup (b ++ cs) := by
    rw [hasGroup_append]
    rintro (h | h | ⟨h, -⟩)
    · exact hb (h.subset List.mem_cons_self)
    · exact hnone h
    · exact hb h
  induction cs using expansion_induction with
  | none cs hnone =>
    rw [expansions_of_none hnone, expansions_of_none (hgroup hnone), List.map_singleton]
  | first cs b' i a hfirst ih =>
    have hfirst' : IsFirstGroup (b ++ cs) (b ++ b') i a :=
      ⟨by rw [hfirst.text, List.append_assoc], hgroup hfirst.first, hfirst.plain⟩
    rw [hfirst.expansions_eq, hfirst'.expansions_eq, List.map_flatMap]
    refine List.flatMap_congr fun c hc => ?_
    rw [← ih c hc]
    simp

/-- A text at the beginning or after a slash stands so in the results of the expansion, too. -/
theorem stays_at_slash (hb : b = [] ∨ EndsAtSlash b) (hm : IsInert m)
    (h : r ∈ expansions (b ++ m ++ a)) :
    (∀ m', IsInert m' → r ∈ expansions (b ++ m' ++ a)) ∨
      ∃ u v, r = u ++ m ++ v ∧ (u = [] ∨ EndsAtSlash u) ∧ StandsAround b a u v := by
  have hnone {m : List Char} (hm : IsInert m) : '{' ∉ m := fun hmem => (hm.1 _ hmem).1 rfl
  rcases hb with rfl | ⟨t, rfl⟩
  · rw [List.nil_append, expansions_append (hnone hm)] at h
    obtain ⟨v, hv, rfl⟩ := List.mem_map.mp h
    refine .inr ⟨[], v, rfl, .inl rfl, fun m' hm' => ?_⟩
    rw [List.nil_append, expansions_append (hnone hm')]
    exact List.mem_map_of_mem hv
  · -- the slash is taken as a part of the text, so that it stays with it
    have hslash {m : List Char} (hm : IsInert m) : IsInert ('/' :: m) :=
      ⟨isPlain_cons.mpr ⟨by decide, hm.1⟩, by simpa using hm.2⟩
    have htext (m : List Char) : t ++ ['/'] ++ m ++ a = t ++ ('/' :: m) ++ a := by simp
    rw [htext] at h
    rcases stays_of_mem (hslash hm) h with hother | ⟨u, v, rfl, hown⟩
    · exact .inl fun m' hm' => htext m' ▸ hother _ (hslash hm')
    · refine .inr ⟨u ++ ['/'], v, by simp, .inr ⟨u, rfl⟩, fun m' hm' => ?_⟩
      rw [htext]
      simpa using hown _ (hslash hm')

/-- Texts stand around what comes between them, the one before them being left as it is. -/
theorem standsAround_of_mem (hb : '{' ∉ b) (hv : v ∈ expansions a) : StandsAround b a b v := by
  intro m hm
  have hnone : '{' ∉ b ++ m :=
    fun hmem => (List.mem_append.mp hmem).elim hb fun hmem => (hm.1 _ hmem).1 rfl
  rw [expansions_append hnone]
  exact List.mem_map_of_mem hv

theorem IsRun.not_mem_opening (h : IsRun u) : '{' ∉ u := by
  induction h with
  | nil => simp
  | cons _ ih => simp [ih]

theorem isInert_stars : IsInert ['*', '*', '/'] ∧ IsInert ['*', '/'] ∧ IsInert [] := by
  simp [IsInert, IsPlain]

/-- **What a star pair in a pattern stands for**, the pattern being expanded. -/
theorem exists_doubled (hb : b = [] ∨ EndsAtSlash b) (a : List Char) (path : String) :
    (∃ r ∈ expansions (b ++ ['*', '*', '/'] ++ a), matchesOne (String.ofList r) path = true) ↔
      (∃ r ∈ expansions (b ++ ['*', '/'] ++ a), matchesOne (String.ofList r) path = true) ∨
        ∃ u v, IsRun u ∧ StandsAround b a u v ∧ matchesOne (String.ofList (u ++ v)) path = true := by
  obtain ⟨hpair, hstar, -⟩ := isInert_stars
  have hdoubled {u : List Char} (hu : u = [] ∨ EndsAtSlash u) (v : List Char) :
      matchesOne (String.ofList (u ++ ['*', '*', '/'] ++ v)) path = true ↔
        matchesOne (String.ofList (u ++ ['*', '/'] ++ v)) path = true ∨
          IsRun u ∧ matchesOne (String.ofList (u ++ v)) path = true := by
    simpa using matchesOne_doubled hu v path
  constructor
  · rintro ⟨r, hr, hmatch⟩
    rcases stays_at_slash hb hpair hr with hother | ⟨u, v, rfl, hu, hown⟩
    · exact .inl ⟨r, hother _ hstar, hmatch⟩
    · rcases (hdoubled hu v).mp hmatch with hmatch | ⟨hrun, hmatch⟩
      · exact .inl ⟨_, hown _ hstar, hmatch⟩
      · exact .inr ⟨u, v, hrun, hown, hmatch⟩
  · rintro (⟨r, hr, hmatch⟩ | ⟨u, v, hrun, hown, hmatch⟩)
    · rcases stays_at_slash hb hstar hr with hother | ⟨u, v, rfl, hu, hown⟩
      · exact ⟨r, hother _ hpair, hmatch⟩
      · exact ⟨_, hown _ hpair, (hdoubled hu v).mpr (.inl hmatch)⟩
    · exact ⟨_, hown _ hpair, (hdoubled hrun.ends v).mpr (.inr ⟨hrun, hmatch⟩)⟩

end Patterns

/-- **A star pair with a slash** after a slash or at the beginning stands for at least one
directory, like a single star. It may stand for none if there are only star pairs before it, and if
alternatives are left out only where what they leave before it is of that kind. -/
theorem doubleStar_matches (before after path : String)
    (hbefore : before = "" ∨ ∃ start, before = start ++ "/") :
    (matchesAny [before ++ "**/" ++ after] path = true ↔
      matchesAny [before ++ "*/" ++ after] path = true ∨
        ∃ u v, IsRun u ∧ StandsAround before.toList after.toList u v ∧
          matchesOne (String.ofList (u ++ v)) path = true) ∧
      (IsRun before.toList → (matchesAny [before ++ "**/" ++ after] path = true ↔
        matchesAny [before ++ "*/" ++ after] path = true ∨
          matchesAny [before ++ after] path = true)) ∧
      ('{' ∉ before.toList → ¬IsRun before.toList →
        matchesAny [before ++ "**/" ++ after] path = matchesAny [before ++ "*/" ++ after] path) := by
  have hb : before.toList = [] ∨ EndsAtSlash before.toList := by
    rcases hbefore with rfl | ⟨start, rfl⟩
    · exact .inl rfl
    · exact .inr ⟨start.toList, by simp⟩
  have hexact := exists_doubled hb after.toList path
  have hpair : (before ++ "**/" ++ after).toList =
      before.toList ++ ['*', '*', '/'] ++ after.toList := by simp
  have hstar : (before ++ "*/" ++ after).toList =
      before.toList ++ ['*', '/'] ++ after.toList := by simp
  rw [← hpair, ← hstar, ← matchesAny_singleton, ← matchesAny_singleton] at hexact
  refine ⟨hexact, fun hrun => ?_, fun hopening hnot => ?_⟩
  · rw [hexact]
    refine or_congr_right ?_
    rw [matchesAny_singleton, String.toList_append]
    constructor
    · rintro ⟨u, v, -, hown, hmatch⟩
      have hmem := hown [] isInert_stars.2.2
      simp only [List.append_nil] at hmem
      exact ⟨_, hmem, hmatch⟩
    · rintro ⟨r, hr, hmatch⟩
      rw [expansions_append hrun.not_mem_opening] at hr
      obtain ⟨v, hv, rfl⟩ := List.mem_map.mp hr
      exact ⟨_, v, hrun, standsAround_of_mem hrun.not_mem_opening hv, hmatch⟩
  · have hnone {m : List Char} (hm : '{' ∉ m) : '{' ∉ before.toList ++ m := by simp [hopening, hm]
    rw [Bool.eq_iff_iff, matchesAny_singleton, matchesAny_singleton, hpair, hstar,
      expansions_append (hnone (by decide)), expansions_append (hnone (by decide))]
    simp only [List.mem_map, exists_exists_and_eq_and]
    refine exists_congr fun v => and_congr_right fun _ => ?_
    simpa [hnot] using matchesOne_doubled hb v path

/-- A star pair at the beginning may stand for no directory, and one after a name stands for what a
star does. -/
theorem doubleStar_matches_twoPlaces :
    matchesAny ["**/*.{ply,ply.yaml}"] "a.ply" = true ∧
      ((∃ start, "a/" = start ++ "/") ∧ '{' ∉ "a/".toList ∧ ¬IsRun "a/".toList) ∧
      matchesAny ["a/**/*.ply"] "a/b/c.ply" = matchesAny ["a/*/*.ply"] "a/b/c.ply" := by
  have hleading : ("" : String) = "" ∨ ∃ start : String, "" = start ++ "/" := .inl rfl
  have hdeleted : matchesAny ["" ++ "*.{ply,ply.yaml}"] "a.ply" = true := by cbv
  have hinner : ∃ start, "a/" = start ++ "/" := ⟨"a", rfl⟩
  have hopening : '{' ∉ "a/".toList := by decide
  have hrun : ¬IsRun "a/".toList := by
    intro h
    have hcons : IsRun ('a' :: ['/']) := h
    cases hcons
  refine ⟨?_, ⟨hinner, hopening, hrun⟩, ?_⟩
  · exact ((doubleStar_matches "" "*.{ply,ply.yaml}" "a.ply" hleading).2.1 .nil).mpr (.inr hdeleted)
  · exact (doubleStar_matches "a/" "*.ply" "a/b/c.ply" (.inr hinner)).2.2 hopening hrun

/-- **A star pair after a name** does not stand for no directory. -/
theorem inner_doubleStar_needs_directory : matchesAny ["a/" ++ "b"] "a/b" = true ∧
    matchesAny ["a/" ++ "**/" ++ "b"] "a/b" = false := ⟨by cbv, by cbv⟩

end ApiSuite.Glob
