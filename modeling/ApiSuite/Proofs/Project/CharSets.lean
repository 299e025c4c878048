import ApiSuite.Project.Glob
import Mathlib.Data.List.TakeWhile

/-!
# Sets of characters in a pattern

Between brackets a star is a character like any other, so how many stars stand there is no matter:
a set has the same characters (`ApiSuite.Glob.contains_ofText`). This is not for free, as a set is
read by its hyphens, and what they make of it depends on where in the text they stand. But a hyphen
makes a range only with the characters next to it. If slashes stand around the stars, these are in
the midst of one part (`ApiSuite.Glob.rangeParts_around`), lose the slashes at most when ranges that
are empty are left out (`ApiSuite.Glob.dropEmptyRanges_around`), and begin or end no range.

Where a set ends is a matter of its first characters and of the closing brackets
(`ApiSuite.Glob.bracketed?_eq_some_iff`), so of what stands before the stars and after them.
-/

namespace ApiSuite.Glob

/-! ### Brackets -/

/-- What of the text after an opening bracket cannot close it: an exclamation mark, and a closing
bracket that is the first character of the set. -/
def bracketLead : List Char → List Char
  | '!' :: ']' :: _ => ['!', ']']
  | '!' :: _ => ['!']
  | ']' :: _ => [']']
  | _ => []

/-- A text that ends with a slash. -/
def EndsAtSlash (u : List Char) : Prop := ∃ t, u = t ++ ['/']

section Brackets

variable {cs inside rest u v : List Char} {x : Char}

theorem bracketed?_body (cs : List Char) : ∃ body, cs = bracketLead cs ++ body ∧
    ∀ inside rest, bracketed? cs = some (inside, rest) ↔
      ∃ c, body.dropWhile (· != ']') = c :: rest ∧
        inside = bracketLead cs ++ body.takeWhile (· != ']') := by
  fun_cases bracketLead cs with
  | case1 body =>
    refine ⟨body, rfl, fun inside rest => ?_⟩
    simp [bracketed?]
    cases body.dropWhile (· != ']') <;> simp [and_comm, eq_comm]
  | case2 body hbody =>
    refine ⟨body, rfl, fun inside rest => ?_⟩
    have hfirst : body.head? ≠ some ']' := fun h => by
      obtain ⟨ds, rfl⟩ := List.head?_eq_some_iff.mp h
      exact hbody ds rfl
    simp [bracketed?, hfirst]
    cases body.dropWhile (· != ']') <;> simp [and_comm, eq_comm]
  | case3 body =>
    refine ⟨body, rfl, fun inside rest => ?_⟩
    simp [bracketed?]
    cases body.dropWhile (· != ']') <;> simp [and_comm, eq_comm]
  | case4 cs _ hnone hnone' =>
    refine ⟨cs, rfl, fun inside rest => ?_⟩
    have hmark : cs.head? ≠ some '!' := fun h => by
      obtain ⟨ds, rfl⟩ := List.head?_eq_some_iff.mp h
      exact hnone ds rfl
    have hfirst : cs.head? ≠ some ']' := fun h => by
      obtain ⟨ds, rfl⟩ := List.head?_eq_some_iff.mp h
      exact hnone' ds rfl
    simp [bracketed?, hmark, hfirst]
    cases cs.dropWhile (· != ']') <;> simp [and_comm, eq_comm]

/-- **The text between brackets** ends at the first closing bracket that can close it. -/
theorem bracketed?_eq_some_iff : bracketed? cs = some (inside, rest) ↔
    ∃ x, inside = bracketLead cs ++ x ∧ ']' ∉ x ∧ cs = inside ++ ']' :: rest := by
  obtain ⟨body, hbody, hsome⟩ := bracketed?_body cs
  rw [hsome]
  constructor
  · rintro ⟨c, hdrop, rfl⟩
    have hc : c = ']' := by
      have hhead := List.head?_dropWhile_not (· != ']') body
      rw [hdrop] at hhead
      simpa using hhead
    subst hc
    refine ⟨_, rfl, fun hmem => by simpa using List.mem_takeWhile_imp hmem, ?_⟩
    rw [List.append_assoc, ← hdrop, List.takeWhile_append_dropWhile]
    exact hbody
  · rintro ⟨x, rfl, hx, hcs⟩
    rw [List.append_assoc] at hcs
    obtain rfl := List.append_cancel_left (hbody.symm.trans hcs)
    have hopen : ∀ c ∈ x, (c != ']') = true := fun c hc => by
      rw [bne_iff_ne]
      rintro rfl
      exact hx hc
    refine ⟨']', ?_, ?_⟩
    · rw [List.dropWhile_append_of_pos hopen]
      rfl
    · rw [List.takeWhile_append_of_pos hopen]
      simp

/-- What cannot close a bracket is the same whatever comes after a slash. -/
theorem bracketLead_append (hu : EndsAtSlash u) (v : List Char) :
    bracketLead (u ++ v) = bracketLead u ∧ ∃ body, u = bracketLead u ++ body := by
  obtain ⟨t, rfl⟩ := hu
  fun_cases bracketLead t with
  | case1 body => exact ⟨rfl, _, rfl⟩
  | case2 body hbody =>
    cases body with
    | nil => exact ⟨rfl, ['/'], rfl⟩
    | cons d ds =>
      have hd : d ≠ ']' := fun heq => hbody ds (heq ▸ rfl)
      constructor
      · simp [bracketLead, hd]
      · simp [bracketLead, hd]
  | case3 body => exact ⟨rfl, _, rfl⟩
  | case4 t _ hnone hnone' =>
    cases t with
    | nil => exact ⟨rfl, ['/'], rfl⟩
    | cons d ds =>
      have hd : d ≠ '!' := fun heq => hnone ds (heq ▸ rfl)
      have hd' : d ≠ ']' := fun heq => hnone' ds (heq ▸ rfl)
      constructor
      · simp [bracketLead, hd, hd']
      · simp [bracketLead, hd, hd']

theorem EndsAtSlash.of_cons (h : EndsAtSlash (x :: u)) : u = [] ∨ EndsAtSlash u := by
  obtain ⟨t, ht⟩ := h
  rcases List.cons_eq_append_iff.mp ht with ⟨rfl, hnil⟩ | ⟨t, rfl, rfl⟩
  · exact .inl (List.cons.inj hnil).2.symm
  · exact .inr ⟨t, rfl⟩

theorem EndsAtSlash.of_append (h : EndsAtSlash (u ++ x :: v)) (hx : x ≠ '/') : EndsAtSlash v := by
  obtain ⟨t, ht⟩ := h
  rcases List.append_eq_append_iff.mp ht with ⟨w, rfl, hw⟩ | ⟨w, rfl, hw⟩
  · rcases List.cons_eq_append_iff.mp hw with ⟨rfl, hslash⟩ | ⟨w, rfl, hv⟩
    · exact absurd (List.cons.inj hslash).1.symm hx
    · exact ⟨w, hv⟩
  · rcases List.cons_eq_append_iff.mp hw with ⟨rfl, hslash⟩ | ⟨w, rfl, hnil⟩
    · exact absurd (List.cons.inj hslash).1 hx
    · simp at hnil

/-- **A bracket before a text** that cannot close it ends before the text, or after it, or nowhere,
whatever the text is. -/
theorem bracketed?_around (hu : EndsAtSlash u) (v : List Char) :
    (∃ inside rest, EndsAtSlash rest ∧ rest.length < u.length ∧
      ∀ m, ']' ∉ m → bracketed? (u ++ m ++ v) = some (inside, rest ++ m ++ v)) ∨
    (∃ more rest, ∀ m, ']' ∉ m → bracketed? (u ++ m ++ v) = some (u ++ m ++ more, rest)) ∨
    ∀ m, ']' ∉ m → bracketed? (u ++ m ++ v) = none := by
  obtain ⟨body, hbody⟩ := (bracketLead_append hu []).2
  have hlead (m : List Char) : bracketLead (u ++ m ++ v) = bracketLead u := by
    rw [List.append_assoc]
    exact (bracketLead_append hu _).1
  generalize bracketLead u = lead at hlead hbody
  subst hbody
  by_cases hclosed : ']' ∈ body
  · obtain ⟨y, rest, rfl, hy⟩ := List.eq_append_cons_of_mem hclosed
    refine .inl ⟨lead ++ y, rest, ?_, by simp; omega, fun m _ => ?_⟩
    · rw [← List.append_assoc] at hu
      exact hu.of_append (by decide)
    · exact bracketed?_eq_some_iff.mpr ⟨y, by rw [hlead], hy, by simp⟩
  · by_cases hlater : ']' ∈ v
    · obtain ⟨more, rest, rfl, hmore⟩ := List.eq_append_cons_of_mem hlater
      refine .inr (.inl ⟨more, rest, fun m hm => ?_⟩)
      exact bracketed?_eq_some_iff.mpr
        ⟨body ++ m ++ more, by rw [hlead]; simp, by simp [hclosed, hm, hmore], by simp⟩
    · refine .inr (.inr fun m hm => Option.eq_none_iff_forall_ne_some.mpr ?_)
      rintro ⟨inside, rest⟩ hsome
      obtain ⟨y, rfl, -, htext⟩ := bracketed?_eq_some_iff.mp hsome
      rw [hlead] at htext
      have htail : body ++ (m ++ v) = y ++ ']' :: rest := by simpa using htext
      have hmem : ']' ∈ body ++ (m ++ v) := by simp [htail]
      simp [hclosed, hm, hlater] at hmem

end Brackets

/-! ### The parts of a set -/

/-- Parts of a set as hyphens divide it: the first has at least so many characters, those after it
two, and the last any number. -/
def Parted : Nat → List (List Char) → Prop
  | _, [] => True
  | least, part :: parts => (parts ≠ [] → least ≤ part.length) ∧ Parted 2 parts

/-- Some stars. -/
def AreStars (stars : List Char) : Prop := stars ≠ [] ∧ ∀ c ∈ stars, c = '*'

section Parts

variable {a b cs part next : List Char} {parts ps before after : List (List Char)} {n fuel : Nat}

theorem rangeParts_parted (n fuel : Nat) (cs : List Char) : Parted n (rangeParts n fuel cs) := by
  induction fuel generalizing n cs with
  | zero => exact ⟨fun h => absurd rfl h, trivial⟩
  | succ fuel ih =>
    rw [rangeParts]
    split
    · exact ⟨fun h => absurd rfl h, trivial⟩
    · rename_i x rest hrest
      refine ⟨fun _ => ?_, ih 2 rest⟩
      have hlength : 0 < (cs.drop n).length := by
        have hsuffix := (List.dropWhile_suffix (· != '-') (l := cs.drop n)).length_le
        rw [hrest] at hsuffix
        exact Nat.lt_of_lt_of_le (Nat.succ_pos _) hsuffix
      rw [List.length_drop] at hlength
      rw [List.length_append, List.length_take]
      omega

theorem rangeParts_none {cs : List Char} (h : '-' ∉ cs.drop n) : rangeParts n fuel cs = [cs] := by
  have hdrop : (cs.drop n).dropWhile (· != '-') = [] := by
    rw [List.dropWhile_eq_nil_iff]
    intro x hx
    rw [bne_iff_ne]
    rintro rfl
    exact h hx
  cases fuel with
  | zero => rfl
  | succ fuel =>
    rw [rangeParts]
    simp only [hdrop]

theorem rangeParts_some {m rest : List Char} (hm : n ≤ m.length) (h : '-' ∉ m.drop n) :
    rangeParts n (fuel + 1) (m ++ '-' :: rest) = m :: rangeParts 2 fuel rest := by
  have hopen : ∀ x ∈ m.drop n, (x != '-') = true := by
    intro x hx
    rw [bne_iff_ne]
    rintro rfl
    exact h hx
  have hdrop : ((m ++ '-' :: rest).drop n).dropWhile (· != '-') = '-' :: rest := by
    rw [List.drop_append_of_le_length hm, List.dropWhile_append_of_pos hopen]
    rfl
  have htake : ((m ++ '-' :: rest).drop n).takeWhile (· != '-') = m.drop n := by
    rw [List.drop_append_of_le_length hm, List.takeWhile_append_of_pos hopen]
    simp
  rw [rangeParts]
  simp only [hdrop, htake, List.take_append_of_le_length hm, List.take_append_drop]

/-- A hyphen that makes a range, and what is before and after it. -/
theorem exists_hyphen {cs : List Char} (h : '-' ∈ cs.drop n) :
    ∃ m rest, cs = m ++ '-' :: rest ∧ n ≤ m.length ∧ '-' ∉ m.drop n := by
  obtain ⟨y, rest, hdrop, hy⟩ := List.eq_append_cons_of_mem h
  have hlength : (cs.take n).length = n := by
    have hpos := List.length_pos_of_mem h
    rw [List.length_drop] at hpos
    rw [List.length_take]
    omega
  refine ⟨cs.take n ++ y, rest, ?_, by rw [List.length_append]; omega, ?_⟩
  · rw [List.append_assoc, ← hdrop, List.take_append_drop]
  · rwa [List.drop_left' hlength]

/-- As much fuel as there are characters is enough. -/
theorem rangeParts_fuel {cs : List Char} (h : cs.length ≤ fuel) :
    rangeParts n fuel cs = rangeParts n cs.length cs := by
  induction hlength : cs.length using Nat.strongRecOn generalizing n fuel cs with
  | ind k ih =>
    by_cases hhyphen : '-' ∈ cs.drop n
    · obtain ⟨m, rest, rfl, hm, hnone⟩ := exists_hyphen hhyphen
      rw [List.length_append, List.length_cons] at h hlength
      obtain ⟨fuel, rfl⟩ : ∃ more, fuel = more + 1 := ⟨fuel - 1, by omega⟩
      obtain ⟨k, rfl⟩ : ∃ more, k = more + 1 := ⟨k - 1, by omega⟩
      rw [rangeParts_some hm hnone, rangeParts_some hm hnone,
        @ih rest.length (by omega) 2 fuel rest (by omega) rfl,
        @ih rest.length (by omega) 2 k rest (by omega) rfl]
    · rw [rangeParts_none hhyphen, rangeParts_none hhyphen]

/-- **Hyphens divide a set** the same way however many stars stand between two slashes. -/
theorem rangeParts_around (hn : n ≤ 2) (a b : List Char) :
    ∃ before a' b' after, ∀ stars, AreStars stars → ∀ fuel,
      (a ++ '/' :: stars ++ '/' :: b).length ≤ fuel →
      rangeParts n fuel (a ++ '/' :: stars ++ '/' :: b) =
        before ++ (a' ++ '/' :: stars ++ '/' :: b') :: after := by
  induction hlength : a.length using Nat.strongRecOn generalizing n a with
  | ind k ih =>
    by_cases hhyphen : '-' ∈ a.drop n
    · obtain ⟨m, rest, rfl, hm, hnone⟩ := exists_hyphen hhyphen
      rw [List.length_append, List.length_cons] at hlength
      obtain ⟨before, a', b', after, haround⟩ := ih rest.length (by omega) (Nat.le_refl 2) rest rfl
      refine ⟨m :: before, a', b', after, fun stars hstars fuel hfuel => ?_⟩
      simp only [List.append_assoc, List.cons_append, List.length_append, List.length_cons]
        at hfuel haround ⊢
      obtain ⟨fuel, rfl⟩ : ∃ more, fuel = more + 1 := ⟨fuel - 1, by omega⟩
      rw [rangeParts_some hm hnone, haround stars hstars fuel (by omega)]
    · have hstars (stars : List Char) (h : AreStars stars) (y : List Char) (hy : '-' ∉ y) :
          '-' ∉ (a ++ '/' :: stars ++ '/' :: y).drop n := by
        intro hmem
        rw [List.append_assoc, List.drop_append, List.mem_append] at hmem
        rcases hmem with hmem | hmem
        · exact hhyphen hmem
        · have hmem' := List.mem_of_mem_drop hmem
          simp only [List.cons_append, List.mem_cons, List.mem_append] at hmem'
          rcases hmem' with hslash | hmem' | hslash | hmem'
          · exact absurd hslash (by decide)
          · exact absurd (h.2 _ hmem') (by decide)
          · exact absurd hslash (by decide)
          · exact hy hmem'
      by_cases hb : '-' ∈ b
      · obtain ⟨y, rest, rfl, hy⟩ := List.eq_append_cons_of_mem hb
        refine ⟨[], a, y, rangeParts 2 rest.length rest, fun stars h fuel hfuel => ?_⟩
        have htext : a ++ '/' :: stars ++ '/' :: (y ++ '-' :: rest) =
            a ++ '/' :: stars ++ '/' :: y ++ '-' :: rest := by simp
        simp only [List.length_append, List.length_cons] at hfuel
        obtain ⟨fuel, rfl⟩ : ∃ more, fuel = more + 1 := ⟨fuel - 1, by omega⟩
        rw [htext, rangeParts_some (by simp; omega) (hstars stars h y hy),
          rangeParts_fuel (by omega)]
        rfl
      · exact ⟨[], a, b, [], fun stars h fuel _ => rangeParts_none (hstars stars h b hb)⟩

theorem closeParts_cons (h : parts ≠ [[]]) :
    closeParts (part :: parts) = part :: closeParts parts := by
  cases parts with
  | nil => rfl
  | cons part' parts =>
    rw [closeParts]
    · simp
    · exact h

theorem closeParts_append (hpart : part ≠ []) : closeParts (before ++ part :: after) =
    before ++ closeParts (part :: after) := by
  induction before with
  | nil => rfl
  | cons p before ih =>
    rw [List.cons_append, closeParts_cons, ih]
    · rfl
    · intro h
      cases before with
      | nil => exact hpart (List.cons.inj h).1
      | cons q before => simp at h

theorem Parted.closeParts (h : Parted n ps) : Parted n (closeParts ps) := by
  fun_induction Glob.closeParts ps generalizing n with
  | case1 => trivial
  | case2 => exact h
  | case3 => exact ⟨fun h => absurd rfl h, trivial⟩
  | case4 part parts hne _ ih => exact ⟨fun _ => h.1 hne, ih h.2⟩

/-- A range between two characters is empty. -/
def IsEmptyRange (first last : Option Char) : Prop := ∃ x y, first = some x ∧ last = some y ∧ y < x

theorem joinParts_of_empty (h : IsEmptyRange part.getLast? next.head?) :
    joinParts part (next :: parts) = (part.dropLast ++ next.drop 1) :: parts := by
  obtain ⟨x, y, hx, hy, hless⟩ := h
  simp only [joinParts, hx, hy, if_pos hless]

theorem joinParts_of_not_empty (h : ¬IsEmptyRange part.getLast? next.head?) :
    joinParts part (next :: parts) = part :: next :: parts := by
  rw [joinParts]
  split
  · rename_i x y hx hy
    exact if_neg fun hless => h ⟨x, y, hx, hy, hless⟩
  · rfl

theorem Parted.joinParts (hpart : ps ≠ [] → n ≤ part.length) (h : Parted 2 ps) :
    Parted n (joinParts part ps) := by
  cases ps with
  | nil => exact ⟨fun h => absurd rfl h, trivial⟩
  | cons next parts =>
    have hlength := hpart (by simp)
    by_cases hempty : IsEmptyRange part.getLast? next.head?
    · rw [joinParts_of_empty hempty]
      refine ⟨fun hparts => ?_, h.2⟩
      have hnext := h.1 hparts
      simp only [List.length_append, List.length_dropLast, List.length_drop]
      omega
    · rw [joinParts_of_not_empty hempty]
      exact ⟨fun _ => hlength, h⟩

theorem Parted.dropEmptyRanges (h : Parted n ps) : Parted n (dropEmptyRanges ps) := by
  induction ps generalizing n with
  | nil => trivial
  | cons part parts ih =>
    refine Parted.joinParts (fun hparts => h.1 ?_) (ih h.2)
    rintro rfl
    exact hparts rfl

/-- A part with stars between two slashes is joined to the part after it behind the stars. -/
theorem joinParts_around (h : Parted 2 ps) (a b : List Char) :
    ∃ b' after, (b' = [] → after = []) ∧ ∀ stars,
      joinParts (a ++ '/' :: stars ++ '/' :: b) ps = (a ++ '/' :: stars ++ b') :: after := by
  cases ps with
  | nil => exact ⟨'/' :: b, [], by simp, fun stars => rfl⟩
  | cons next parts =>
    have hlast (stars : List Char) :
        (a ++ '/' :: stars ++ '/' :: b).getLast? = ('/' :: b).getLast? := by
      rw [List.getLast?_append, List.getLast?_cons]
      rfl
    have hdrop (stars : List Char) : (a ++ '/' :: stars ++ '/' :: b).dropLast =
        a ++ '/' :: stars ++ ('/' :: b).dropLast :=
      List.dropLast_append_of_ne_nil (by simp)
    by_cases hempty : IsEmptyRange ('/' :: b).getLast? next.head?
    · refine ⟨('/' :: b).dropLast ++ next.drop 1, parts, fun hnil => ?_, fun stars => ?_⟩
      · -- what is left of the next part is empty, so it is the last one
        by_contra hparts
        have hnext := h.1 hparts
        have hlength := congrArg List.length (List.append_eq_nil_iff.mp hnil).2
        simp only [List.length_drop, List.length_nil] at hlength
        omega
      · rw [joinParts_of_empty ((hlast stars).symm ▸ hempty), hdrop, List.append_assoc]
    · exact ⟨'/' :: b, next :: parts, by simp, fun stars =>
        joinParts_of_not_empty ((hlast stars).symm ▸ hempty)⟩

/-- A part is joined to what comes after it before the stars there. -/
theorem joinParts_before (hfirst : n ≤ part.length) (ha : a ≠ []) (before : List (List Char)) :
    ∃ before' a', (a' = [] → before' = [] ∧ n < 2) ∧ ∀ stars,
      joinParts part (before ++ (a ++ stars ++ b) :: after) =
        before' ++ (a' ++ stars ++ b) :: after := by
  cases before with
  | nil =>
    obtain ⟨x, a, rfl⟩ := List.exists_cons_of_ne_nil ha
    by_cases hempty : IsEmptyRange part.getLast? (some x)
    · refine ⟨[], part.dropLast ++ a, fun hnil => ⟨rfl, ?_⟩, fun stars => ?_⟩
      · have hlength := congrArg List.length (List.append_eq_nil_iff.mp hnil).1
        simp only [List.length_dropLast, List.length_nil] at hlength
        omega
      · rw [List.nil_append, joinParts_of_empty hempty]
        simp
    · exact ⟨[part], x :: a, by simp, fun stars => joinParts_of_not_empty hempty⟩
  | cons next before =>
    by_cases hempty : IsEmptyRange part.getLast? next.head?
    · exact ⟨(part.dropLast ++ next.drop 1) :: before, a, fun h => absurd h ha,
        fun stars => joinParts_of_empty hempty⟩
    · exact ⟨part :: next :: before, a, fun h => absurd h ha,
        fun stars => joinParts_of_not_empty hempty⟩

/-- **Empty ranges are left out** the same way however many stars stand between two slashes, and no
range begins or ends with them. -/
theorem dropEmptyRanges_around (h : Parted n (before ++ part :: after)) :
    ∃ before' a' b' after', (∀ stars, AreStars stars →
      dropEmptyRanges (before ++ (a ++ '/' :: stars ++ '/' :: b) :: after) =
        before' ++ (a' ++ stars ++ b') :: after') ∧ (a' = [] → before' = [] ∧ n < 2) ∧
      (b' = [] → after' = []) := by
  induction before generalizing n with
  | nil =>
    obtain ⟨b', after', hb', haround⟩ := joinParts_around h.2.dropEmptyRanges a b
    refine ⟨[], a ++ ['/'], b', after', fun stars _ => ?_, by simp, hb'⟩
    rw [List.nil_append, dropEmptyRanges, haround]
    simp
  | cons first before ih =>
    obtain ⟨before', a', b', after', haround, ha', hb'⟩ := ih h.2
    have hane : a' ≠ [] := fun h => absurd (ha' h).2 (Nat.lt_irrefl 2)
    obtain ⟨before'', a'', ha'', hjoin⟩ := joinParts_before (h.1 (by simp)) hane before'
    refine ⟨before'', a'', b', after', fun stars hstars => ?_, ha'', hb'⟩
    rw [List.cons_append, dropEmptyRanges, haround stars hstars, hjoin]

/-- The parts of a set. -/
def setParts (cs : List Char) : List (List Char) :=
  if cs.contains '-' then
    dropEmptyRanges (closeParts (rangeParts (if cs.head? == some '!' then 2 else 1) cs.length cs))
  else [cs]

theorem ofText_mark (h : setParts cs = ('!' :: part) :: parts) :
    CharSet.ofText cs = ⟨true, ranges part parts⟩ := by
  unfold setParts at h
  unfold CharSet.ofText
  simp only [h]

theorem ofText_not_mark (h : setParts cs = part :: parts) (hpart : part.head? ≠ some '!') :
    CharSet.ofText cs = ⟨false, ranges part parts⟩ := by
  unfold setParts at h
  unfold CharSet.ofText
  simp only [h]
  cases part with
  | nil => rfl
  | cons x part =>
    have hx : x ≠ '!' := fun heq => hpart (by rw [heq]; rfl)
    split
    · rename_i heq
      cases heq
    · rename_i heq
      exact absurd (List.cons.inj (List.cons.inj heq).1).1 hx
    · rename_i heq
      obtain ⟨rfl, rfl⟩ := List.cons.inj heq
      rfl

/-- The parts that hyphens make, the last one being closed. -/
theorem closeParts_around (hn : n ≤ 2) (a b : List Char) :
    ∃ before a' b' after, (∀ stars, AreStars stars → ∀ fuel,
      (a ++ '/' :: stars ++ '/' :: b).length ≤ fuel →
      closeParts (rangeParts n fuel (a ++ '/' :: stars ++ '/' :: b)) =
        before ++ (a' ++ '/' :: stars ++ '/' :: b') :: after) ∧
      ∃ part, Parted n (before ++ part :: after) := by
  obtain ⟨before, a', b', after, haround⟩ := rangeParts_around hn a b
  have hparted := (rangeParts_parted n (a ++ '/' :: ['*'] ++ '/' :: b).length
    (a ++ '/' :: ['*'] ++ '/' :: b)).closeParts
  have hstar : AreStars ['*'] := ⟨by simp, by simp⟩
  have hclose (stars : List Char) (hstars : AreStars stars) (fuel : Nat)
      (hfuel : (a ++ '/' :: stars ++ '/' :: b).length ≤ fuel) :
      closeParts (rangeParts n fuel (a ++ '/' :: stars ++ '/' :: b)) =
        before ++ closeParts ((a' ++ '/' :: stars ++ '/' :: b') :: after) := by
    rw [haround stars hstars fuel hfuel, closeParts_append (by simp)]
  rw [hclose _ hstar _ (Nat.le_refl _)] at hparted
  by_cases hafter : after = [[]]
  · subst hafter
    refine ⟨before, a', b' ++ ['-'], [], fun stars hstars fuel hfuel => ?_, _, hparted⟩
    rw [hclose stars hstars fuel hfuel, closeParts]
    simp
  · rw [closeParts_cons hafter] at hparted
    refine ⟨before, a', b', closeParts after, fun stars hstars fuel hfuel => ?_, _, hparted⟩
    rw [hclose stars hstars fuel hfuel, closeParts_cons hafter]

/-- **The parts of a set** are the same but for one, however many stars stand between two
slashes. -/
theorem setParts_around (a b : List Char) :
    ∃ before a' b' after, (∀ stars, AreStars stars →
      setParts (a ++ '/' :: stars ++ '/' :: b) = before ++ (a' ++ stars ++ b') :: after) ∧
      (a' = [] → before = []) ∧ (b' = [] → after = []) := by
  have hhyphen (stars : List Char) (h : AreStars stars) :
      (a ++ '/' :: stars ++ '/' :: b).contains '-' = (a ++ b).contains '-' := by
    have hnone : '-' ∉ stars := fun hmem => absurd (h.2 _ hmem) (by decide)
    rw [Bool.eq_iff_iff]
    simp [hnone]
  have hhead (stars : List Char) :
      (a ++ '/' :: stars ++ '/' :: b).head? = (a ++ ['/']).head? := by
    cases a <;> rfl
  unfold setParts
  cases hcontains : (a ++ b).contains '-' with
  | false =>
    refine ⟨[], a ++ ['/'], '/' :: b, [], fun stars hstars => ?_, by simp, by simp⟩
    rw [hhyphen stars hstars, hcontains]
    simp
  | true =>
    obtain ⟨before, a', b', after, hclose, part, hparted⟩ := closeParts_around
      (n := if (a ++ ['/']).head? == some '!' then 2 else 1) (by split <;> omega) a b
    obtain ⟨before', a'', b'', after', haround, ha, hb⟩ := dropEmptyRanges_around
      (a := a') (b := b') hparted
    refine ⟨before', a'', b'', after', fun stars hstars => ?_, fun h => (ha h).1, hb⟩
    rw [hhyphen stars hstars, hcontains, if_pos rfl, hhead, hclose stars hstars _ (Nat.le_refl _)]
    exact haround stars hstars

end Parts

/-! ### Membership -/

section Membership

variable {a b part next : List Char} {parts before after : List (List Char)}

theorem any_stars {stars : List Char} (h : AreStars stars) (p : Char → Bool) :
    stars.any p = p '*' := by
  obtain ⟨hne, hall⟩ := h
  cases stars with
  | nil => exact absurd rfl hne
  | cons x xs =>
    rw [Bool.eq_iff_iff, List.any_eq_true]
    constructor
    · rintro ⟨y, hy, hp⟩
      exact hall y hy ▸ hp
    · intro hp
      exact ⟨x, List.mem_cons_self, (hall x List.mem_cons_self).symm ▸ hp⟩

theorem ranges_nil_cons (part : List Char) (parts : List (List Char)) :
    ranges part ([] :: parts) = part.map (fun c => (c, c)) ++ ranges [] parts := by
  rw [ranges]
  intro l x rest _ heq
  cases heq

theorem ranges_of_nil (next : List Char) (parts : List (List Char)) :
    ranges [] (next :: parts) = ranges next parts := by
  rw [ranges]
  · rfl
  · intro l x rest hnone
    cases hnone

theorem ranges_cons_cons {l x : Char} (h : part.getLast? = some l) :
    ranges part ((x :: next) :: parts) =
      part.dropLast.map (fun c => (c, c)) ++ (l, x) :: ranges next parts := by
  simp only [ranges, h]

/-- **The ranges of a part with stars** in it have the same characters, however many stars there
are. -/
theorem any_ranges {stars stars' : List Char} (hstars : AreStars stars) (hstars' : AreStars stars')
    (hb : b = [] → after = []) (p : Char × Char → Bool) :
    (ranges (a ++ stars ++ b) after).any p = (ranges (a ++ stars' ++ b) after).any p := by
  have hmap (v : List Char) : ((a ++ stars ++ v).map fun c => (c, c)).any p =
      ((a ++ stars' ++ v).map fun c => (c, c)).any p := by
    simp only [List.any_map, List.any_append, any_stars hstars, any_stars hstars']
  cases after with
  | nil => exact hmap b
  | cons next after =>
    cases next with
    | nil => rw [ranges_nil_cons, ranges_nil_cons, List.any_append, List.any_append, hmap]
    | cons x next =>
      have hne : b ≠ [] := fun h => by cases hb h
      have hlast (stars : List Char) : (a ++ stars ++ b).getLast? = some (b.getLast hne) := by
        rw [List.getLast?_append, List.getLast?_eq_some_getLast hne]
        rfl
      rw [ranges_cons_cons (hlast _), ranges_cons_cons (hlast _),
        List.dropLast_append_of_ne_nil hne, List.dropLast_append_of_ne_nil hne, List.any_append,
        List.any_append, hmap]

theorem any_ranges_before {stars stars' : List Char} (hstars : AreStars stars)
    (hstars' : AreStars stars') (ha : a ≠ []) (hb : b = [] → after = []) (p : Char × Char → Bool) :
    (ranges part (before ++ (a ++ stars ++ b) :: after)).any p =
      (ranges part (before ++ (a ++ stars' ++ b) :: after)).any p := by
  induction before generalizing part with
  | nil =>
    obtain ⟨x, a, rfl⟩ := List.exists_cons_of_ne_nil ha
    simp only [List.nil_append]
    cases hlast : part.getLast? with
    | none =>
      obtain rfl := List.getLast?_eq_none_iff.mp hlast
      rw [ranges_of_nil, ranges_of_nil, any_ranges hstars hstars' hb]
    | some l =>
      simp only [List.cons_append]
      rw [ranges_cons_cons hlast, ranges_cons_cons hlast, List.any_append, List.any_append,
        List.any_cons, List.any_cons, any_ranges hstars hstars' hb]
  | cons next before ih =>
    simp only [List.cons_append]
    cases next with
    | nil => rw [ranges_nil_cons, ranges_nil_cons, List.any_append, List.any_append, ih]
    | cons x next =>
      cases hlast : part.getLast? with
      | none =>
        obtain rfl := List.getLast?_eq_none_iff.mp hlast
        rw [ranges_of_nil, ranges_of_nil, ih]
      | some l =>
        rw [ranges_cons_cons hlast, ranges_cons_cons hlast, List.any_append, List.any_append,
          List.any_cons, List.any_cons, ih]

/-- **A set has the same characters** however many stars stand between two of its slashes. -/
theorem contains_ofText {stars stars' : List Char} (hstars : AreStars stars)
    (hstars' : AreStars stars') (a b : List Char) (c : Char) :
    (CharSet.ofText (a ++ '/' :: stars ++ '/' :: b)).contains c =
      (CharSet.ofText (a ++ '/' :: stars' ++ '/' :: b)).contains c := by
  obtain ⟨before, a', b', after, haround, ha, hb⟩ := setParts_around a b
  have hparts := haround stars hstars
  have hparts' := haround stars' hstars'
  cases before with
  | nil =>
    have hhead (stars : List Char) (h : AreStars stars) (hmark : a'.head? ≠ some '!') :
        (a' ++ stars ++ b').head? ≠ some '!' := by
      obtain ⟨x, xs, rfl⟩ := List.exists_cons_of_ne_nil h.1
      cases a' with
      | nil => simp [h.2 x List.mem_cons_self]
      | cons y a' => exact hmark
    by_cases hmark : a'.head? = some '!'
    · obtain ⟨a', rfl⟩ := List.head?_eq_some_iff.mp hmark
      rw [ofText_mark hparts, ofText_mark hparts', CharSet.contains, CharSet.contains]
      exact congrArg _ (any_ranges hstars hstars' hb _)
    · rw [ofText_not_mark hparts (hhead stars hstars hmark),
        ofText_not_mark hparts' (hhead stars' hstars' hmark), CharSet.contains, CharSet.contains]
      exact congrArg _ (any_ranges hstars hstars' hb _)
  | cons part before =>
    have hane : a' ≠ [] := fun h => by cases ha h
    by_cases hmark : part.head? = some '!'
    · obtain ⟨part, rfl⟩ := List.head?_eq_some_iff.mp hmark
      rw [ofText_mark hparts, ofText_mark hparts', CharSet.contains, CharSet.contains]
      exact congrArg _ (any_ranges_before hstars hstars' hane hb _)
    · rw [ofText_not_mark hparts hmark, ofText_not_mark hparts' hmark, CharSet.contains,
        CharSet.contains]
      exact congrArg _ (any_ranges_before hstars hstars' hane hb _)

end Membership

end ApiSuite.Glob
