import ApiSuite.Proofs.Expression.Reading
import ApiSuite.Proofs.Template.Places
import ApiSuite.Template.Resolution

/-!
# Paths as templates

A path is looked up as a template: it is put in a wrapper, and the template that is this one
expression has the value of the path. This holds for every text of a path without a closing
brace and without a line break, blanks around the path included; the wrapper is then the only
embedded expression, it is no reference and no pattern, and what it holds is read as the bare
text is (`ApiSuite.Template.resolve_toExpression`).
-/

namespace ApiSuite

open Text

/-! ### Trimming -/

namespace Text

theorem trim_infix (cs : List Char) : trim cs <:+: cs := by
  have hend : trim cs <+: trimStart cs := by
    rw [← List.reverse_suffix, trim, trimEnd, List.reverse_reverse]
    exact List.dropWhile_suffix isBlank
  exact hend.isInfix.trans (List.dropWhile_suffix isBlank).isInfix

/-- What stands past the beginning of a trimmed text stands past the beginning of the text. -/
theorem mem_tail_of_mem_tail_trim {c : Char} {cs : List Char} (h : c ∈ (trim cs).tail) :
    c ∈ cs.tail := by
  obtain ⟨before, after, hcs⟩ := trim_infix cs
  rw [← hcs]
  cases before with
  | nil =>
    cases htrim : trim cs with
    | nil =>
      rw [htrim] at h
      cases h
    | cons d ds =>
      rw [htrim] at h
      exact List.mem_append_left _ h
  | cons d ds => exact List.mem_append_left _ (List.mem_append_right _ (List.mem_of_mem_tail h))

/-- A text that begins with something else than a blank still does when it is trimmed. -/
theorem trim_cons {c : Char} (hc : isBlank c = false) (cs : List Char) :
    ∃ more, trim (c :: cs) = c :: more := by
  refine ⟨(cs.reverse.dropWhile isBlank).reverse, ?_⟩
  rw [trim, trimStart, List.dropWhile_cons_of_neg (by simp [hc]), trimEnd, List.reverse_cons,
    List.dropWhile_append]
  split
  · rename_i hnil
    simp [hc, List.isEmpty_iff.mp hnil]
  · rw [List.reverse_append]
    rfl

end Text

namespace Template

theorem trim_wrap (body : List Char) : trim (wrap body) = wrap body := by
  simp [trim, trimStart, trimEnd, wrap, isBlank]

/-! ### The only embedded expression -/

/-- There is no embedded expression without a closing brace. -/
theorem occurrences_split {cs : List Char} (h : '}' ∉ cs) (offset : Nat) :
    occurrences offset (split cs) = [] := by
  fun_induction split cs generalizing offset with
  | case1 => rfl
  | case2 more body rest hbody ih =>
    refine absurd ?_ h
    rw [body?_eq hbody]
    simp
  | case3 more hbody ih =>
    rw [occurrences]
    exact ih (fun hmem => h (List.mem_cons_of_mem _ hmem)) _
  | case4 c more hc ih =>
    rw [occurrences]
    exact ih (fun hmem => h (List.mem_cons_of_mem _ hmem)) _

theorem isPlain_of_not_mem {s : String} (h : '}' ∉ s.toList) : isPlain s := by
  rw [isPlain, find, occurrences_split h]
  rfl

/-! ### What the wrapper holds -/

section Holds

open Expression

variable {s : String}

theorem toList_toExpression (s : String) : (toExpression s).toList = wrap s.toList :=
  String.toList_ofList

theorem holds_toExpression (s : String) : Holds (toExpression s) (trim s.toList) := by
  refine .inl ⟨s.toList, ?_, rfl⟩
  rw [toList_toExpression, trim_wrap]
  rfl

theorem holds_of_not_mem (h : '}' ∉ s.toList.tail) : Holds s (trim s.toList) := by
  refine .inr ⟨?_, rfl⟩
  rintro ⟨body, hbody⟩
  refine h (mem_tail_of_mem_tail_trim ?_)
  rw [hbody]
  simp

/-- The wrapper makes no difference to what is read. -/
theorem parse_toExpression (h : '}' ∉ s.toList.tail) {e : Expression} :
    parse (toExpression s) = .ok e ↔ parse s = .ok e := by
  rw [parse_eq_ok_iff (holds_toExpression s), parse_eq_ok_iff (holds_of_not_mem h)]

/-- What holds an expression begins with a space or with the beginning of an operand. -/
theorem starts_of_parse {cs : List Char} (h : Holds s cs) {e : Expression}
    (hp : parse s = .ok e) : ∃ c more, cs = c :: more ∧ (isSpace c ∨ Mode.operand.Starts c) := by
  obtain ⟨ts, hspells, hd, -⟩ := (parse_eq_ok_iff h).mp hp
  cases cs with
  | nil => exact absurd ⟨ts, hspells, hd⟩ not_renders_nil
  | cons c more => exact ⟨c, more, rfl, hspells.head hd.chain c rfl⟩

/-- What is read as an expression begins with a blank or with the beginning of an operand. -/
theorem head_of_parse (h : '}' ∉ s.toList.tail) {e : Expression} (hp : parse s = .ok e) :
    ∃ c cs, s.toList = c :: cs ∧ (isBlank c ∨ isSpace c ∨ Mode.operand.Starts c) := by
  obtain ⟨d, more, htrim, hd⟩ := starts_of_parse (holds_of_not_mem h) hp
  cases hs : s.toList with
  | nil =>
    rw [hs] at htrim
    cases htrim
  | cons c cs =>
    refine ⟨c, cs, rfl, ?_⟩
    cases hc : isBlank c with
    | true => exact .inl rfl
    | false =>
      obtain ⟨rest, hrest⟩ := trim_cons hc cs
      rw [hs, hrest] at htrim
      cases htrim
      exact .inr hd

end Holds

/-! ### Paths -/

/-- A text of a path: a name with accessors, and neither a closing brace nor a line break. -/
structure IsPath (s root : String) (segments : List Segment) : Prop where
  noBrace : '}' ∉ s.toList
  noBreak : '\n' ∉ s.toList
  reads : Expression.parse s = .ok (.path root segments)

section Path

open Expression

variable {s root : String} {segments : List Segment}

theorem IsPath.noBrace_tail (h : IsPath s root segments) : '}' ∉ s.toList.tail :=
  mt List.mem_of_mem_tail h.noBrace

theorem IsPath.head (h : IsPath s root segments) :
    ∃ c cs, s.toList = c :: cs ∧ c ≠ '@' ∧ c ≠ '~' := by
  obtain ⟨c, cs, hs, hc⟩ := head_of_parse h.noBrace_tail h.reads
  refine ⟨c, cs, hs, ?_⟩
  constructor
  all_goals
    rintro rfl
    rcases hc with hc | hc | hc
    · exact absurd hc (by decide)
    · exact absurd hc (by decide)
    · exact hc (by simp)

theorem IsPath.split (h : IsPath s root segments) :
    split (toExpression s).toList = [.embedded s.toList] := by
  obtain ⟨c, cs, hs, -⟩ := h.head
  rw [toList_toExpression]
  exact split_wrap (isBody_of_not_mem (by simp [hs]) h.noBrace h.noBreak)

theorem IsPath.not_isReference (h : IsPath s root segments) :
    isReference (toExpression s) = false := by
  obtain ⟨c, cs, hs, hc, -⟩ := h.head
  simp [isReference, beginsWith, toList_toExpression, wrap, hs, hc]

theorem IsPath.not_isPattern (h : IsPath s root segments) :
    isPattern (toExpression s) = false := by
  obtain ⟨c, cs, hs, -, hc⟩ := h.head
  simp [isPattern, beginsWith, toList_toExpression, wrap, hs, hc]

/-- Evaluating a path in a wrapper is following it, trusted or not. -/
theorem IsPath.evaluate (h : IsPath s root segments) (trusted : Bool) (context : Value) :
    evaluate trusted context (toExpression s) =
      (follow context (.key root :: segments)).mapError (Stop.fault (toExpression s)) := by
  have hread := (parse_toExpression h.noBrace_tail).mpr h.reads
  unfold Expression.evaluate
  rw [hread]
  -- without trust paths are still allowed
  cases trusted <;> rfl

/-- **A path in a wrapper has the value that following it leads to.** -/
theorem IsPath.resolve_of_ok (h : IsPath s root segments) (trusted : Bool) {context v : Value}
    (hv : follow context (.key root :: segments) = .ok v) :
    (resolve trusted context (toExpression s)).result = .ok (present v) := by
  have heval : Expression.evaluate trusted context (toExpression s) = .ok v := by
    rw [h.evaluate, hv]
    rfl
  rw [resolve, h.split]
  simp only [evaluatePart, h.not_isPattern, heval]
  rfl

/-- A path in a wrapper has no other value. -/
theorem IsPath.follow_of_resolve (h : IsPath s root segments) {trusted : Bool}
    {context v : Value}
    (hv : (resolve trusted context (toExpression s)).result = .ok (some v)) :
    follow context (.key root :: segments) = .ok v ∧ v.isNull = false := by
  rcases hf : follow context (.key root :: segments) with stop | w
  · have heval : Expression.evaluate trusted context (toExpression s) =
        .error (stop.fault (toExpression s)) := by
      rw [h.evaluate, hf]
      rfl
    rw [resolve, h.split] at hv
    simp only [evaluatePart, h.not_isPattern, heval] at hv
    cases stop with
    | incomparable => cases hv
    | crash => cases hv
  · rw [h.resolve_of_ok trusted hf] at hv
    have hpresent := Except.ok.inj hv
    unfold present at hpresent
    split at hpresent
    · cases hpresent
    · rename_i hn
      cases hpresent
      exact ⟨rfl, Bool.eq_false_iff.mpr hn⟩

end Path

end Template

end ApiSuite
