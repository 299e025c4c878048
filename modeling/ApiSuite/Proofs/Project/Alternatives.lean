import ApiSuite.Proofs.Project.Groups

/-!
# Alternatives in braces

The expansion of a pattern goes from the inside to the outside. What the pattern means is said from
the outside: in every group one of the alternatives between its outer commas is chosen, and stands
for something in turn (`ApiSuite.Glob.StandsFor`). This file shows that the two agree on every
pattern whose braces are balanced, at any depth (`ApiSuite.Glob.mem_expansions_iff`).

What carries the argument is that a group without braces inside can be settled at any time: what a
pattern stands for, it stands for with one of the group's alternatives in place of the group, and
the other way round (`ApiSuite.Glob.standsFor_choice_iff`). This is because neither the group nor an
alternative changes the depth of what comes after it (`ApiSuite.Glob.IsBalanced.around_iff`) or
divides what is around it at a comma (`ApiSuite.Glob.alternatives_cases`).

A pattern in which no group stands within another is a text with groups in it, and its expansion
is the product of their alternatives, in order (`ApiSuite.Glob.IsFlat.expansions_eq`).
-/

namespace ApiSuite.Glob

/-! ### Balanced texts -/

/-- How many braces are open after a text, so many being open before it, unless a brace is closed
that is not open. -/
def depthAfter : Nat → List Char → Option Nat
  | depth, [] => some depth
  | depth, c :: cs =>
    if c = '{' then depthAfter (depth + 1) cs
    else if c = '}' then if depth = 0 then none else depthAfter (depth - 1) cs
    else depthAfter depth cs

/-- Every brace that is opened is closed, and the other way round. -/
def IsBalanced (cs : List Char) : Prop := depthAfter 0 cs = some 0

/-- A text in braces. -/
def braced (inside : List Char) : List Char := '{' :: (inside ++ ['}'])

instance (cs : List Char) : Decidable (IsBalanced cs) :=
  inferInstanceAs (Decidable (depthAfter 0 cs = some 0))

section Balance

variable {a b i m rest u v body : List Char} {d e n : Nat}

theorem depthAfter_append (d : Nat) (u v : List Char) :
    depthAfter d (u ++ v) = (depthAfter d u).bind fun e => depthAfter e v := by
  induction u generalizing d with
  | nil => rfl
  | cons c u ih =>
    simp only [List.cons_append, depthAfter, ih]
    split
    · rfl
    · split
      · split <;> rfl
      · rfl

/-- Braces that are open before a text stay open. -/
theorem depthAfter_add (h : depthAfter d u = some e) (n : Nat) :
    depthAfter (d + n) u = some (e + n) := by
  induction u generalizing d with
  | nil =>
    cases h
    rfl
  | cons c u ih =>
    rw [depthAfter] at h ⊢
    split at h
    · rw [if_pos ‹_›, Nat.add_right_comm]
      exact ih h
    · rw [if_neg ‹_›]
      split at h
      · rw [if_pos ‹_›]
        split at h
        · cases h
        · rw [if_neg (by omega), Nat.sub_add_comm (by omega)]
          exact ih h
      · rw [if_neg ‹_›]
        exact ih h

theorem IsBalanced.depthAfter (h : IsBalanced u) (d : Nat) : Glob.depthAfter d u = some d := by
  simpa using depthAfter_add h d

/-- A balanced text within another makes no difference to its balance. -/
theorem IsBalanced.around_iff (h : IsBalanced m) (u v : List Char) :
    IsBalanced (u ++ m ++ v) ↔ IsBalanced (u ++ v) := by
  simp only [IsBalanced, depthAfter_append]
  cases Glob.depthAfter 0 u with
  | none => rfl
  | some d => simp [h.depthAfter d]

theorem IsBalanced.append (hu : IsBalanced u) (hv : IsBalanced v) : IsBalanced (u ++ v) :=
  (hu.around_iff [] v).mpr hv

theorem IsPlain.isBalanced (h : IsPlain u) : IsBalanced u := by
  induction u with
  | nil => rfl
  | cons c u ih =>
    obtain ⟨hc, hu⟩ := isPlain_cons.mp h
    rw [IsBalanced, Glob.depthAfter, if_neg hc.1, if_neg hc.2]
    exact ih hu

theorem IsBalanced.braced (h : IsBalanced u) : IsBalanced (braced u) := by
  rw [IsBalanced, Glob.braced, Glob.depthAfter, if_pos rfl, depthAfter_append, h.depthAfter]
  rfl

theorem depthAfter_of_not_mem (h : '}' ∉ u) (d : Nat) :
    depthAfter d u = some (d + openings u) := by
  induction u generalizing d with
  | nil => rfl
  | cons c u ih =>
    obtain ⟨hc, hu⟩ := not_or.mp (List.mem_cons.not.mp h)
    rw [depthAfter]
    split
    · rename_i hopen
      rw [ih hu, hopen, openings, openings, List.count_cons_self]
      congr 1
      omega
    · rename_i hopen
      rw [if_neg (Ne.symm hc), ih hu, openings, openings, List.count_cons_of_ne hopen]

/-- A balanced text without groups has no braces. -/
theorem IsBalanced.isPlain (h : IsBalanced u) (hnone : ¬HasGroup u) : IsPlain u := by
  have hclosing : '}' ∉ u := fun hmem => by
    obtain ⟨i, a, rfl, hi⟩ := exists_plain_of_mem hmem hnone
    rw [IsBalanced, depthAfter_append, hi.isBalanced.depthAfter] at h
    cases h
  have hopening : openings u = 0 := by
    rw [IsBalanced, depthAfter_of_not_mem hclosing] at h
    simpa using h
  refine fun x hx => ⟨?_, ?_⟩
  · rintro rfl
    exact List.count_eq_zero.mp hopening hx
  · rintro rfl
    exact hclosing hx

/-- **Where a group ends**: a balanced text within what begins with the inside of a group and the
brace that closes it stands either after that brace, or inside before it. -/
theorem IsBalanced.closing_cases (hbody : IsBalanced body) (hm : IsBalanced m)
    (h : body ++ '}' :: rest = b ++ m ++ a) :
    (∃ b', b = body ++ '}' :: b' ∧ rest = b' ++ m ++ a) ∨
      ∃ a', a = a' ++ '}' :: rest ∧ body = b ++ m ++ a' := by
  rw [List.append_assoc] at h
  rcases List.append_eq_append_iff.mp h with ⟨x, rfl, hx⟩ | ⟨x, rfl, hx⟩
  · rcases List.cons_eq_append_iff.mp hx with ⟨rfl, hm'⟩ | ⟨b', rfl, hrest⟩
    · -- the text would begin with the closing brace, so there is none
      cases m with
      | nil => exact .inr ⟨[], by simpa using hm', by simp⟩
      | cons c m =>
        obtain ⟨rfl, -⟩ := List.cons.inj hm'
        cases hm
    · exact .inl ⟨b', rfl, by simpa using hrest⟩
  · rcases List.append_eq_append_iff.mp hx with ⟨y, rfl, hy⟩ | ⟨y, rfl, hy⟩
    · exact .inr ⟨y, hy, by simp⟩
    · rcases List.cons_eq_append_iff.mp hy with ⟨rfl, rfl⟩ | ⟨y, rfl, -⟩
      · exact .inr ⟨[], by simp⟩
      · -- the text would go beyond the closing brace, which it cannot close
        exfalso
        rw [IsBalanced, depthAfter_append] at hbody hm
        cases hd : Glob.depthAfter 0 b with
        | none =>
          rw [hd] at hbody
          cases hbody
        | some d =>
          rw [hd] at hbody
          cases he : Glob.depthAfter 0 x with
          | none =>
            rw [he] at hm
            cases hm
          | some e =>
            rw [he] at hm
            have hx := (depthAfter_add he d).symm.trans (by simpa using hbody)
            obtain rfl : e = 0 := by
              have hdepth := Option.some.inj hx
              omega
            cases hm

/-- A group ends at one place only. -/
theorem IsBalanced.closing_unique (hu : IsBalanced u) (hbody : IsBalanced body)
    (h : u ++ '}' :: a = body ++ '}' :: rest) : u = body ∧ a = rest := by
  rcases hbody.closing_cases (b := []) (a := '}' :: a) hu h.symm with
    ⟨b', hb', -⟩ | ⟨a', ha', rfl⟩
  · simp at hb'
  · rcases List.cons_eq_append_iff.mp ha' with ⟨rfl, hrest⟩ | ⟨a', rfl, -⟩
    · exact ⟨by simp, (List.cons.inj hrest).2.symm⟩
    · rw [List.nil_append, IsBalanced, depthAfter_append, hu.depthAfter] at hbody
      cases hbody

end Balance

/-! ### Alternatives of a text -/

/-- The parts of a text between the commas that stand in no braces, so many being open before it. -/
def splitOuter : Nat → List Char → List (List Char)
  | _, [] => [[]]
  | depth, c :: cs =>
    if c = ',' ∧ depth = 0 then [] :: splitOuter depth cs
    else
      let depth' := if c = '{' then depth + 1 else if c = '}' then depth - 1 else depth
      (splitOuter depth' cs).modifyHead (c :: ·)

/-- The alternatives of a group, given the text inside it. -/
def alternatives (inside : List Char) : List (List Char) := splitOuter 0 inside

/-- A text that is not divided and leaves the depth as it is, wherever it stands. -/
def IsSolid (m : List Char) : Prop :=
  ∀ depth v, splitOuter depth (m ++ v) = (splitOuter depth v).modifyHead (m ++ ·)

section Alternatives

variable {c i m u v x y : List Char} {xs ys : List (List Char)} {d : Nat}

theorem splitOuter_ne_nil (d : Nat) (u : List Char) : splitOuter d u ≠ [] := by
  induction u generalizing d with
  | nil => simp [splitOuter]
  | cons c u ih =>
    rw [splitOuter]
    split
    · simp
    · simpa using ih _

theorem splitOuter_plain (hi : IsPlain i) (hd : d ≠ 0 ∨ ',' ∉ i) (v : List Char) :
    splitOuter d (i ++ v) = (splitOuter d v).modifyHead (i ++ ·) := by
  induction i with
  | nil =>
    simp only [List.nil_append]
    cases splitOuter d v <;> rfl
  | cons c i ih =>
    obtain ⟨hc, hi⟩ := isPlain_cons.mp hi
    have hcomma : ¬(c = ',' ∧ d = 0) := by
      rintro ⟨rfl, rfl⟩
      simp at hd
    have hd' : d ≠ 0 ∨ ',' ∉ i := hd.imp_right fun h hmem => h (List.mem_cons_of_mem _ hmem)
    rw [List.cons_append, splitOuter, if_neg hcomma]
    dsimp only
    rw [if_neg hc.1, if_neg hc.2, ih hi hd', List.modifyHead_modifyHead]
    rfl

theorem IsPlain.isSolid (h : IsPlain c) (hcomma : ',' ∉ c) : IsSolid c :=
  fun _ v => splitOuter_plain h (.inr hcomma) v

/-- Within a group of braces nothing is divided. -/
theorem IsPlain.braced_isSolid (h : IsPlain i) : IsSolid (braced i) := by
  intro d v
  have hinside := splitOuter_plain (d := d + 1) h (.inl (Nat.succ_ne_zero d)) ('}' :: v)
  have htext : braced i ++ v = '{' :: (i ++ '}' :: v) := by simp [braced]
  rw [htext, splitOuter, if_neg (by simp)]
  dsimp only
  rw [if_pos rfl, hinside, splitOuter, if_neg (by simp)]
  dsimp only
  rw [if_neg (by decide), if_pos rfl, List.modifyHead_modifyHead, List.modifyHead_modifyHead,
    Nat.add_sub_cancel]
  congr 1
  funext z
  simp [braced]

/-- **A text that is not divided** is within one of the parts, and the others are the same whatever
it is. -/
theorem splitOuter_around (d : Nat) (u v : List Char) :
    ∃ xs x y ys, ∀ m, IsSolid m → splitOuter d (u ++ m ++ v) = xs ++ (x ++ m ++ y) :: ys := by
  induction u generalizing d with
  | nil =>
    cases hparts : splitOuter d v with
    | nil => exact absurd hparts (splitOuter_ne_nil d v)
    | cons y ys =>
      refine ⟨[], [], y, ys, fun m hm => ?_⟩
      rw [List.nil_append, hm, hparts]
      rfl
  | cons c u ih =>
    by_cases hcomma : c = ',' ∧ d = 0
    · obtain ⟨xs, x, y, ys, h⟩ := ih d
      refine ⟨[] :: xs, x, y, ys, fun m hm => ?_⟩
      rw [List.cons_append, List.cons_append, splitOuter, if_pos hcomma, h m hm]
      rfl
    · obtain ⟨xs, x, y, ys, h⟩ := ih (if c = '{' then d + 1 else if c = '}' then d - 1 else d)
      cases xs with
      | nil =>
        refine ⟨[], c :: x, y, ys, fun m hm => ?_⟩
        rw [List.cons_append, List.cons_append, splitOuter, if_neg hcomma]
        dsimp only
        rw [h m hm]
        rfl
      | cons x' xs =>
        refine ⟨(c :: x') :: xs, x, y, ys, fun m hm => ?_⟩
        rw [List.cons_append, List.cons_append, splitOuter, if_neg hcomma]
        dsimp only
        rw [h m hm]
        rfl

/-- If what is not divided gives way to another such text, an alternative stays as it is or has the
one in place of the other. -/
theorem alternatives_cases {b a : List Char} (hx : IsSolid x) (h : c ∈ alternatives (b ++ x ++ a)) :
    (∀ y, IsSolid y → c ∈ alternatives (b ++ y ++ a)) ∨
      ∃ u v, c = u ++ x ++ v ∧ ∀ y, IsSolid y → u ++ y ++ v ∈ alternatives (b ++ y ++ a) := by
  obtain ⟨xs, u, v, ys, haround⟩ := splitOuter_around 0 b a
  rw [alternatives, haround x hx] at h
  rcases List.mem_append.mp h with hmem | hmem
  · refine .inl fun y hy => ?_
    rw [alternatives, haround y hy]
    exact List.mem_append_left _ hmem
  · rcases List.mem_cons.mp hmem with rfl | hmem
    · refine .inr ⟨u, v, rfl, fun y hy => ?_⟩
      rw [alternatives, haround y hy]
      simp
    · refine .inl fun y hy => ?_
      rw [alternatives, haround y hy]
      exact List.mem_append_right _ (List.mem_cons_of_mem _ hmem)

/-- Of a text without braces the alternatives are what stands between its commas. -/
theorem IsPlain.alternatives_eq (h : IsPlain i) : alternatives i = splitCommas i := by
  unfold alternatives
  induction i with
  | nil => rfl
  | cons c i ih =>
    obtain ⟨hc, hi⟩ := isPlain_cons.mp h
    rw [splitOuter, splitCommas_cons]
    dsimp only
    rw [if_neg hc.1, if_neg hc.2, ih hi]
    simp

end Alternatives

/-! ### What a pattern stands for -/

/-- **A text that a pattern stands for**: in each group of braces one of its alternatives is chosen,
and a text that this alternative stands for is put in place of the group. -/
inductive StandsFor : List Char → List Char → Prop
  | nil : StandsFor [] []
  | char {c p r} (opening : c ≠ '{') (closing : c ≠ '}') (rest : StandsFor p r) :
      StandsFor (c :: p) (c :: r)
  | group {body choice rest r r'} (balanced : IsBalanced body)
      (chosen : choice ∈ alternatives body) (inside : StandsFor choice r)
      (after : StandsFor rest r') : StandsFor ('{' :: (body ++ '}' :: rest)) (r ++ r')

section StandsFor

variable {a b c i p r r' : List Char} {x : Char}

/-- A group, its inside and its end being told apart as texts. -/
theorem StandsFor.braced_append {body choice rest : List Char} (balanced : IsBalanced body)
    (chosen : choice ∈ alternatives body) (inside : StandsFor choice r)
    (after : StandsFor rest r') : StandsFor (braced body ++ rest) (r ++ r') := by
  simpa [braced] using StandsFor.group balanced chosen inside after

theorem StandsFor.of_char (hx : x ≠ '{') (h : StandsFor (x :: p) r) :
    ∃ r', r = x :: r' ∧ StandsFor p r' := by
  generalize hq : x :: p = q at h
  cases h with
  | nil => cases hq
  | char _ _ rest =>
    obtain ⟨rfl, rfl⟩ := List.cons.inj hq
    exact ⟨_, rfl, rest⟩
  | group => exact absurd (List.cons.inj hq).1 hx

theorem StandsFor.plain_append (hc : IsPlain c) (h : StandsFor p r) :
    StandsFor (c ++ p) (c ++ r) := by
  induction c with
  | nil => exact h
  | cons x c ih =>
    obtain ⟨hx, hc⟩ := isPlain_cons.mp hc
    exact .char hx.1 hx.2 (ih hc)

theorem StandsFor.of_plain_append (hc : IsPlain c) (h : StandsFor (c ++ p) r) :
    ∃ r', r = c ++ r' ∧ StandsFor p r' := by
  induction c generalizing r with
  | nil => exact ⟨r, rfl, h⟩
  | cons x c ih =>
    obtain ⟨hx, hc⟩ := isPlain_cons.mp hc
    obtain ⟨s, rfl, hs⟩ := h.of_char hx.1
    obtain ⟨r', rfl, hr'⟩ := ih hc hs
    exact ⟨r', rfl, hr'⟩

theorem standsFor_plain_iff (hp : IsPlain p) : StandsFor p r ↔ r = p := by
  constructor
  · intro h
    obtain ⟨r', rfl, hr'⟩ := StandsFor.of_plain_append (p := []) hp (by simpa using h)
    cases hr'
    exact List.append_nil p
  · rintro rfl
    simpa using StandsFor.nil.plain_append hp

/-- A group may be settled in favour of one of its alternatives at the beginning. -/
theorem StandsFor.of_choice_append (hi : IsPlain i) (hc : c ∈ splitCommas i)
    (h : StandsFor (c ++ a) r) : StandsFor (braced i ++ a) r := by
  have hplain := hi.of_mem_splitCommas hc
  obtain ⟨r', rfl, hr'⟩ := h.of_plain_append hplain
  exact .braced_append hi.isBalanced (hi.alternatives_eq ▸ hc) ((standsFor_plain_iff hplain).mpr rfl)
    hr'

theorem IsPlain.isSolid_of_mem (hi : IsPlain i) (hc : c ∈ splitCommas i) : IsSolid c :=
  (hi.of_mem_splitCommas hc).isSolid fun hmem => (mem_of_mem_splitCommas hc hmem).2 rfl

/-- **A group may be settled** in favour of one of its alternatives, wherever it stands. -/
theorem StandsFor.of_choice (hi : IsPlain i) (hc : c ∈ splitCommas i)
    (h : StandsFor (b ++ c ++ a) r) : StandsFor (b ++ braced i ++ a) r := by
  have hbalanced := (hi.of_mem_splitCommas hc).isBalanced
  generalize hp : b ++ c ++ a = p at h
  induction h generalizing b a with
  | nil =>
    simp only [List.append_eq_nil_iff] at hp
    obtain ⟨⟨rfl, rfl⟩, rfl⟩ := hp
    exact .of_choice_append hi hc .nil
  | @char x p r hopening hclosing h ih =>
    cases b with
    | nil => exact .of_choice_append hi hc (hp ▸ .char hopening hclosing h)
    | cons y b =>
      obtain ⟨rfl, htail⟩ := List.cons.inj hp
      exact .char hopening hclosing (ih htail)
  | @group body choice rest r r' hbody hchosen hinside hafter ih ih' =>
    cases b with
    | nil => exact .of_choice_append hi hc (hp ▸ .group hbody hchosen hinside hafter)
    | cons y b =>
      obtain ⟨rfl, htail⟩ := List.cons.inj hp
      rcases hbody.closing_cases hbalanced htail.symm with ⟨b', rfl, rfl⟩ | ⟨a', rfl, rfl⟩
      · -- the place is after the group that begins here
        simpa [braced] using StandsFor.braced_append hbody hchosen hinside (ih' rfl)
      · -- it is inside that group, in one of its alternatives or in none that is chosen
        have hbody' : IsBalanced (b ++ braced i ++ a') :=
          (hi.isBalanced.braced.around_iff b a').mpr ((hbalanced.around_iff b a').mp hbody)
        rcases alternatives_cases (hi.isSolid_of_mem hc) hchosen with hother | ⟨u, v, rfl, hown⟩
        · simpa [braced] using
            StandsFor.braced_append hbody' (hother _ hi.braced_isSolid) hinside hafter
        · simpa [braced] using
            StandsFor.braced_append hbody' (hown _ hi.braced_isSolid) (ih rfl) hafter

/-- **What a pattern stands for**, it stands for with one of the alternatives of a group. -/
theorem StandsFor.exists_choice (hi : IsPlain i) (h : StandsFor (b ++ braced i ++ a) r) :
    ∃ c ∈ splitCommas i, StandsFor (b ++ c ++ a) r := by
  generalize hp : b ++ braced i ++ a = p at h
  induction h generalizing b a with
  | nil => simp [braced] at hp
  | @char x p r hopening hclosing h ih =>
    cases b with
    | nil => exact absurd (List.cons.inj hp).1.symm hopening
    | cons y b =>
      obtain ⟨rfl, htail⟩ := List.cons.inj hp
      obtain ⟨c, hc, hr⟩ := ih htail
      exact ⟨c, hc, .char hopening hclosing hr⟩
  | @group body choice rest r r' hbody hchosen hinside hafter ih ih' =>
    cases b with
    | nil =>
      -- the group is the one that begins here, so the choice is one of its alternatives
      obtain ⟨-, htail⟩ := List.cons.inj hp
      obtain ⟨rfl, rfl⟩ := hi.isBalanced.closing_unique hbody (by simpa using htail)
      rw [hi.alternatives_eq] at hchosen
      have hplain := hi.of_mem_splitCommas hchosen
      rw [(standsFor_plain_iff hplain).mp hinside]
      exact ⟨choice, hchosen, hafter.plain_append hplain⟩
    | cons y b =>
      obtain ⟨rfl, htail⟩ := List.cons.inj hp
      rcases hbody.closing_cases hi.isBalanced.braced htail.symm with
        ⟨b', rfl, rfl⟩ | ⟨a', rfl, rfl⟩
      · obtain ⟨c, hc, hr⟩ := ih' rfl
        refine ⟨c, hc, ?_⟩
        simpa [braced] using StandsFor.braced_append hbody hchosen hinside hr
      · have hbody' (c : List Char) (hc : c ∈ splitCommas i) : IsBalanced (b ++ c ++ a') :=
          ((hi.of_mem_splitCommas hc).isBalanced.around_iff b a').mpr
            ((hi.isBalanced.braced.around_iff b a').mp hbody)
        rcases alternatives_cases hi.braced_isSolid hchosen with hother | ⟨u, v, rfl, hown⟩
        · -- the alternative is another one, so any choice will do
          obtain ⟨c, hc⟩ := List.exists_mem_of_ne_nil _ (splitCommas_ne_nil i)
          refine ⟨c, hc, ?_⟩
          simpa [braced] using StandsFor.braced_append (hbody' c hc)
            (hother c (hi.isSolid_of_mem hc)) hinside hafter
        · obtain ⟨c, hc, hr⟩ := ih rfl
          refine ⟨c, hc, ?_⟩
          simpa [braced] using StandsFor.braced_append (hbody' c hc)
            (hown c (hi.isSolid_of_mem hc)) hr hafter

theorem standsFor_choice_iff (hi : IsPlain i) : StandsFor (b ++ braced i ++ a) r ↔
    ∃ c ∈ splitCommas i, StandsFor (b ++ c ++ a) r := by
  refine ⟨fun h => h.exists_choice hi, ?_⟩
  rintro ⟨c, hc, h⟩
  exact h.of_choice hi hc

/-- **Expanding from the inside is choosing from the outside**, if the braces are balanced. -/
theorem mem_expansions_iff (h : IsBalanced p) : r ∈ expansions p ↔ StandsFor p r := by
  induction p using expansion_induction with
  | none p hnone =>
    rw [expansions_of_none hnone, List.mem_singleton, standsFor_plain_iff (h.isPlain hnone)]
  | first p b i a hfirst ih =>
    have htext : p = b ++ braced i ++ a := by simpa [braced] using hfirst.text
    rw [htext, hfirst.plain.isBalanced.braced.around_iff] at h
    rw [hfirst.expansions_eq, List.mem_flatMap, htext, standsFor_choice_iff hfirst.plain]
    refine exists_congr fun c => and_congr_right fun hc => ih c hc ?_
    exact ((hfirst.plain.of_mem_splitCommas hc).isBalanced.around_iff b a).mpr h

end StandsFor

/-! ### Patterns without nesting -/

/-- A group stands within another. -/
def IsNested (p : List Char) : Prop :=
  ∃ before first inside last after, p = before ++ braced (first ++ braced inside ++ last) ++ after ∧
    IsBalanced first ∧ IsBalanced inside ∧ IsBalanced last

/-- The alternatives of a group, and the text after it up to the next group. -/
abbrev Choices := List (List Char) × List Char

/-- A pattern written as a text and groups with texts after them. -/
def flatText (lead : List Char) : List Choices → List Char
  | [] => lead
  | (choices, gap) :: groups => lead ++ braced ([','].intercalate choices) ++ flatText gap groups

/-- The texts made by choosing an alternative of every group, those of the first group being gone
through most slowly. -/
def products (lead : List Char) : List Choices → List (List Char)
  | [] => [lead]
  | (choices, gap) :: groups =>
    choices.flatMap fun choice => (products gap groups).map fun r => lead ++ choice ++ r

/-- The alternatives of the groups are texts without braces and commas, and the text around the
groups has no group by itself. -/
structure IsFlat (lead : List Char) (groups : List Choices) : Prop where
  some : ∀ g ∈ groups, g.1 ≠ []
  plain : ∀ g ∈ groups, ∀ choice ∈ g.1, IsPlain choice ∧ ',' ∉ choice
  around : ¬HasGroup (lead ++ groups.flatMap (·.2))

section Flat

variable {lead gap u v i p : List Char} {groups : List Choices} {choices : List (List Char)}

theorem splitCommas_append (h : ',' ∉ u) (v : List Char) :
    splitCommas (u ++ v) = (splitCommas v).modifyHead (u ++ ·) := by
  induction u with
  | nil =>
    simp only [List.nil_append]
    cases splitCommas v <;> rfl
  | cons c u ih =>
    obtain ⟨hc, hu⟩ := not_or.mp (List.mem_cons.not.mp h)
    rw [List.cons_append, splitCommas_cons, if_neg (Ne.symm hc), ih hu, List.modifyHead_modifyHead]
    rfl

/-- Alternatives with commas between them are told apart. -/
theorem splitCommas_intercalate (hne : choices ≠ []) (h : ∀ c ∈ choices, ',' ∉ c) :
    splitCommas ([','].intercalate choices) = choices := by
  induction choices with
  | nil => exact absurd rfl hne
  | cons c choices ih =>
    obtain ⟨hc, hchoices⟩ := List.forall_mem_cons.mp h
    cases choices with
    | nil =>
      rw [List.intercalate_singleton, ← List.append_nil c, splitCommas_append hc]
      rfl
    | cons d choices =>
      rw [List.intercalate_cons_cons, List.append_assoc, splitCommas_append hc,
        List.singleton_append, splitCommas_cons, if_pos rfl, ih (by simp) hchoices]
      simp

/-- The parts of a text between its commas make the text. -/
theorem intercalate_splitCommas (i : List Char) : [','].intercalate (splitCommas i) = i := by
  induction i with
  | nil => rfl
  | cons c i ih =>
    rw [splitCommas_cons]
    cases hparts : splitCommas i with
    | nil => exact absurd hparts (splitCommas_ne_nil i)
    | cons part parts =>
      rw [hparts] at ih
      split
      · rename_i hc
        rw [List.intercalate_cons_cons, ih, hc]
        rfl
      · rw [List.modifyHead_cons]
        cases parts with
        | nil =>
          rw [List.intercalate_singleton] at ih ⊢
          rw [ih]
        | cons part' parts =>
          rw [List.intercalate_cons_cons] at ih ⊢
          rw [← ih]
          rfl

theorem isPlain_intercalate (h : ∀ c ∈ choices, IsPlain c) :
    IsPlain ([','].intercalate choices) := by
  induction choices with
  | nil => exact isPlain_nil
  | cons c choices ih =>
    obtain ⟨hc, hchoices⟩ := List.forall_mem_cons.mp h
    cases choices with
    | nil => rwa [List.intercalate_singleton]
    | cons d choices =>
      rw [List.intercalate_cons_cons, isPlain_append, isPlain_append]
      exact ⟨⟨hc, by simp [IsPlain]⟩, ih hchoices⟩

theorem flatText_append (u lead : List Char) (groups : List Choices) :
    flatText (u ++ lead) groups = u ++ flatText lead groups := by
  cases groups with
  | nil => rfl
  | cons g groups => simp [flatText]

theorem products_append (u lead : List Char) (groups : List Choices) :
    products (u ++ lead) groups = (products lead groups).map (u ++ ·) := by
  cases groups with
  | nil => rfl
  | cons g groups => simp [products, List.map_flatMap, Function.comp_def]

/-- With one of its alternatives in place of the first group, the pattern is still flat. -/
theorem IsFlat.choose {choice : List Char} (h : IsFlat lead ((choices, gap) :: groups))
    (hchoice : choice ∈ choices) : IsFlat (lead ++ choice ++ gap) groups where
  some g hg := h.some g (List.mem_cons_of_mem _ hg)
  plain g hg := h.plain g (List.mem_cons_of_mem _ hg)
  around := by
    have hplain := (h.plain _ List.mem_cons_self choice hchoice).1
    rw [List.append_assoc, hasGroup_around hplain]
    simpa using h.around

/-- What comes after the first group is flat. -/
theorem IsFlat.tail (h : IsFlat lead ((choices, gap) :: groups)) : IsFlat gap groups where
  some g hg := h.some g (List.mem_cons_of_mem _ hg)
  plain g hg := h.plain g (List.mem_cons_of_mem _ hg)
  around hgroup := h.around (hasGroup_append.mpr (.inr (.inl (by simpa using hgroup))))

/-- The first group of a flat pattern. -/
theorem IsFlat.first (h : IsFlat lead ((choices, gap) :: groups)) :
    IsFirstGroup (flatText lead ((choices, gap) :: groups)) lead ([','].intercalate choices)
      (flatText gap groups) where
  text := by simp [flatText, braced]
  first hlead := h.around (hlead.append_left _)
  plain := isPlain_intercalate fun c hc => (h.plain _ List.mem_cons_self c hc).1

/-- **Without nesting** the pattern stands for the products of its alternatives, in their order. -/
theorem IsFlat.expansions_eq (h : IsFlat lead groups) :
    expansions (flatText lead groups) = products lead groups := by
  induction groups generalizing lead with
  | nil => exact expansions_of_none (by simpa [flatText] using h.around)
  | cons g groups ih =>
    obtain ⟨choices, gap⟩ := g
    have hsplit : splitCommas ([','].intercalate choices) = choices :=
      splitCommas_intercalate (h.some _ List.mem_cons_self)
        fun c hc => (h.plain _ List.mem_cons_self c hc).2
    rw [h.first.expansions_eq, hsplit, products]
    refine List.flatMap_congr fun c hc => ?_
    rw [← flatText_append, ih (h.choose hc), products_append]

/-- A closing brace around the groups of a flat pattern has a balanced text before it. -/
theorem IsFlat.exists_closing (h : IsFlat lead groups)
    (hmem : '}' ∈ lead ++ groups.flatMap (·.2)) :
    ∃ d e, flatText lead groups = d ++ '}' :: e ∧ IsBalanced d := by
  induction groups generalizing lead with
  | nil =>
    obtain ⟨d, e, rfl, hd⟩ := exists_plain_of_mem (by simpa using hmem) (by simpa using h.around)
    exact ⟨d, e, rfl, hd.isBalanced⟩
  | cons g groups ih =>
    obtain ⟨choices, gap⟩ := g
    have hgroup : ¬HasGroup lead := fun hgroup => h.around (hgroup.append_left _)
    by_cases hlead : '}' ∈ lead
    · obtain ⟨d, e, rfl, hd⟩ := exists_plain_of_mem hlead hgroup
      exact ⟨d, e ++ (braced ([','].intercalate choices) ++ flatText gap groups), by simp [flatText],
        hd.isBalanced⟩
    · have hgroups := (List.mem_append.mp hmem).resolve_left hlead
      have hplain : IsPlain lead := by
        refine fun x hx => ⟨?_, ?_⟩
        · rintro rfl
          exact h.around (hasGroup_append.mpr (.inr (.inr ⟨hx, hgroups⟩)))
        · rintro rfl
          exact hlead hx
      obtain ⟨d, e, htext, hd⟩ := ih h.tail (by simpa using hgroups)
      refine ⟨lead ++ braced ([','].intercalate choices) ++ d, e, by simp [flatText, htext], ?_⟩
      exact (hplain.isBalanced.append h.first.plain.isBalanced.braced).append hd

/-- **A pattern without nesting is flat.** -/
theorem exists_flat (h : ¬IsNested p) :
    ∃ lead groups, p = flatText lead groups ∧ IsFlat lead groups := by
  induction hlength : p.length using Nat.strongRecOn generalizing p with
  | ind n ih =>
    by_cases hgroup : HasGroup p
    · obtain ⟨b, i, a, rfl, hb, hi⟩ := hgroup.exists_first
      have hrest : ¬IsNested a := by
        rintro ⟨before, first, inside, last, after, rfl, hnested⟩
        exact h ⟨b ++ braced i ++ before, first, inside, last, after, by simp [braced], hnested⟩
      obtain ⟨gap, groups, rfl, hflat⟩ :=
        ih a.length (by simp [← hlength]; omega) hrest rfl
      refine ⟨b, (splitCommas i, gap) :: groups, ?_, ?_⟩
      · simp [flatText, intercalate_splitCommas, braced]
      · refine ⟨List.forall_mem_cons.mpr ⟨splitCommas_ne_nil i, hflat.some⟩,
          List.forall_mem_cons.mpr ⟨fun c hc => ⟨hi.of_mem_splitCommas hc, fun hmem =>
            (mem_of_mem_splitCommas hc hmem).2 rfl⟩, hflat.plain⟩, ?_⟩
        -- braces around the group that is first would make it nested
        rw [List.flatMap_cons, hasGroup_append]
        rintro (hgroup | hgroup | ⟨hopening, hclosing⟩)
        · exact hb hgroup
        · exact hflat.around hgroup
        · obtain ⟨before, first, rfl, hfirst⟩ := exists_opening_of_mem hopening hb
          obtain ⟨last, after, hlast, hbalanced⟩ := hflat.exists_closing hclosing
          refine h ⟨before, first, i, last, after, ?_, hfirst.isBalanced, hi.isBalanced, hbalanced⟩
          simp [braced, hlast]
    · exact ⟨p, [], rfl, by simp, by simp, by simpa using hgroup⟩

end Flat

/-- **A pattern with alternatives** stands for what its alternatives stand for, chosen
independently. The expansion comes to an end, and no group is left; if the braces are balanced, the
results are the texts that the pattern stands for, at whatever depth its groups are nested; and if
no group stands within another, they come in the order of the alternatives, the first group being
gone through most slowly. -/
theorem expandBraces_chooses (pattern : String) :
    ExpandsTo pattern.toList ((expandBraces pattern).map String.toList) ∧
      (∀ result ∈ expandBraces pattern, ¬HasGroup result.toList) ∧
      (IsBalanced pattern.toList →
        ∀ result, result ∈ expandBraces pattern ↔ StandsFor pattern.toList result.toList) ∧
      (¬IsNested pattern.toList → ∃ lead groups, IsFlat lead groups ∧
        pattern.toList = flatText lead groups ∧
        (expandBraces pattern).map String.toList = products lead groups) := by
  have hlist : (expandBraces pattern).map String.toList = expansions pattern.toList := by
    simp [expandBraces, expansions, Function.comp_def]
  have hmem (result : String) :
      result ∈ expandBraces pattern ↔ result.toList ∈ expansions pattern.toList := by
    rw [← hlist, List.mem_map]
    refine ⟨fun h => ⟨result, h, rfl⟩, ?_⟩
    rintro ⟨result', h, heq⟩
    exact String.toList_injective heq ▸ h
  refine ⟨hlist ▸ expandsTo_expansions _, ?_, ?_, ?_⟩
  · exact fun result hresult => not_hasGroup_of_mem ((hmem result).mp hresult)
  · exact fun hbalanced result => (hmem result).trans (mem_expansions_iff hbalanced)
  · intro hnested
    obtain ⟨lead, groups, htext, hflat⟩ := exists_flat hnested
    exact ⟨lead, groups, hflat, htext, hlist.trans (htext ▸ hflat.expansions_eq)⟩

/-- A group within an alternative is chosen from only if the alternative is, and two groups that
follow each other are chosen from in every combination. -/
theorem expandBraces_chooses_nested :
    expandBraces "x{a{b,c},}" = ["xab", "x", "xac", "x"] ∧ IsBalanced "x{a{b,c},}".toList ∧
      (∀ result, result ∈ expandBraces "x{a{b,c},}" ↔
        StandsFor "x{a{b,c},}".toList result.toList) ∧
      ¬IsNested "{a,b}/{c,d}".toList ∧
      (∃ lead groups, IsFlat lead groups ∧ "{a,b}/{c,d}".toList = flatText lead groups ∧
        (expandBraces "{a,b}/{c,d}").map String.toList = products lead groups) ∧
      expandBraces "{a,b}/{c,d}" = ["a/c", "a/d", "b/c", "b/d"] := by
  have hbalanced : IsBalanced "x{a{b,c},}".toList := by decide
  have hflat : ¬IsNested "{a,b}/{c,d}".toList := by
    rintro ⟨before, first, inside, last, after, htext, -⟩
    have hbraces : ['{', '{', '}', '}'].Sublist "{a,b}/{c,d}".toList := by
      have hlast : ['}', '}'].Sublist (inside ++ '}' :: (last ++ '}' :: after)) :=
        (List.Sublist.cons_cons '}' (List.singleton_sublist.mpr (by simp))).trans
          (List.sublist_append_right inside _)
      have hfirst := (hlast.cons_cons '{').trans (List.sublist_append_right first _)
      rw [htext]
      simpa [braced] using (hfirst.cons_cons '{').trans (List.sublist_append_right before _)
    exact absurd hbraces (by decide)
  exact ⟨by decide, hbalanced, (expandBraces_chooses _).2.2.1 hbalanced, hflat,
    (expandBraces_chooses _).2.2.2 hflat, by decide⟩

end ApiSuite.Glob
