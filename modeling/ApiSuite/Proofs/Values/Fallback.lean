import ApiSuite.Proofs.Values.Environment

/-!
# The two spellings of a fallback

A fallback can be written inside a token, behind two bars, or after the token, behind two bars of
its own. The two are read in different ways: the one is what follows the first bars in the token,
the other what follows the bars that the trimmed rest of the text begins with. They come to the same
because a text is trimmed once more after either cut, so that neither the blanks around the bars nor
those around the fallback matter. Both spellings stand for the variable that is named, and for the
trimmed fallback if it is not set (`ApiSuite.Environment.substituteText_fallbackInside`,
`ApiSuite.Environment.substituteText_fallbackBehind`).

So any texts in values can be respelled, wherever they stand
(`ApiSuite.Environment.substituteEntries_respelled`).
-/

namespace ApiSuite.Environment

open Text

/-! ### One text -/

section Texts

variable {env : Environment} {name fallback : String} {xs : List Char}

/-- A token with a fallback inside. -/
def fallbackInside (name fallback : String) : String :=
  "$\x7b" ++ name ++ " || " ++ fallback ++ "\x7d"

/-- A token with a fallback behind it. -/
def fallbackBehind (name fallback : String) : String :=
  "$\x7b" ++ name ++ "\x7d || " ++ fallback

/-- A name and a fallback can be written both ways. Neither ends the token, and the bars of the
fallback are the first. -/
structure CanFallBack (name fallback : String) : Prop where
  nonempty : name ≠ ""
  name_noBar : '|' ∉ name.toList
  name_noBrace : '}' ∉ name.toList
  name_noBreak : '\n' ∉ name.toList
  noBrace : '}' ∉ fallback.toList
  noBreak : '\n' ∉ fallback.toList

theorem not_bars_append_bar (h : '|' ∉ xs) : ¬['|', '|'] <:+: xs ++ ['|'] := by
  intro hbars
  have hcount := hbars.sublist.count_le '|'
  rw [List.count_append, List.count_eq_zero.mpr h] at hcount
  exact absurd hcount (by decide)

theorem not_bars_of_not_mem (h : '|' ∉ xs) : ¬['|', '|'] <:+: xs :=
  fun hbars => h (hbars.subset List.mem_cons_self)

/-- Bars at the beginning of a text stay when it is trimmed. -/
theorem trim_bars (cs : List Char) : trim ('|' :: '|' :: cs) = '|' :: '|' :: trimEnd cs := by
  have hstart : trimStart ('|' :: '|' :: cs) = ['|', '|'] ++ cs := by
    simp [trimStart, isBlank]
  rw [trim, hstart, trimEnd_append]
  split
  · rename_i hnil
    rw [hnil]
    rfl
  · rfl

section Spellings

variable (h : CanFallBack name fallback)
include h

theorem beginsWith_fallbackInside :
    BeginsWith (fallbackInside name fallback)
      ((name.toList ++ [' ']) ++ '|' :: '|' :: (' ' :: fallback.toList)) [] := by
  constructor
  · simp [fallbackInside, Template.wrap]
  · refine Template.isBody_of_not_mem (by simp) ?_ ?_
    · simp [h.name_noBrace, h.noBrace]
    · simp [h.name_noBreak, h.noBreak]

theorem beginsWith_fallbackBehind :
    BeginsWith (fallbackBehind name fallback) name.toList
      (' ' :: '|' :: '|' :: ' ' :: fallback.toList) := by
  constructor
  · simp [fallbackBehind, Template.wrap]
  · exact Template.isBody_of_not_mem (by simpa using h.nonempty) h.name_noBrace h.name_noBreak

/-- **A fallback inside a token** stands, trimmed, for a variable that is not set. -/
theorem substituteText_fallbackInside :
    substituteText env (fallbackInside name fallback) =
      some ((env.lookup (strip name)).getD (strip fallback)) := by
  have hnames : Names ((name.toList ++ [' ']) ++ '|' :: '|' :: (' ' :: fallback.toList))
      (name.toList ++ [' ']) (some (' ' :: fallback.toList)) :=
    .barred (not_bars_append_bar (by simp [h.name_noBar]))
  have hinside : trim (' ' :: fallback.toList) = trim fallback.toList :=
    trim_blank_cons (by decide) _
  rw [substituteText_of_beginsWith (beginsWith_fallbackInside h) hnames,
    trim_append_blank (by decide), strip, strip, ← hinside]
  cases env.lookup (String.ofList (trim name.toList)) <;> rfl

/-- **A fallback behind a token** stands, trimmed, for a variable that is not set. -/
theorem substituteText_fallbackBehind :
    substituteText env (fallbackBehind name fallback) =
      some ((env.lookup (strip name)).getD (strip fallback)) := by
  have hnames : Names name.toList name.toList none :=
    .alone (not_bars_of_not_mem h.name_noBar)
  have hrest : trim (' ' :: '|' :: '|' :: ' ' :: fallback.toList) =
      '|' :: '|' :: trimEnd (' ' :: fallback.toList) := by
    rw [trim_blank_cons (by decide), trim_bars]
  rw [substituteText_of_beginsWith (beginsWith_fallbackBehind h) hnames, trailing?_of_bars hrest,
    trim_trimEnd, trim_blank_cons (by decide), strip, strip]
  cases env.lookup (String.ofList (trim name.toList)) <;> rfl

end Spellings

end Texts

/-! ### All texts in a value -/

mutual

/-- One value is another in which fallbacks are spelled the other way, in any of the texts that
stand in it, in objects and in lists. -/
inductive Respelled : Value → Value → Prop
  | same (v : Value) : Respelled v v
  | outward {name fallback : String} : CanFallBack name fallback →
    Respelled (.str (fallbackInside name fallback)) (.str (fallbackBehind name fallback))
  | inward {name fallback : String} : CanFallBack name fallback →
    Respelled (.str (fallbackBehind name fallback)) (.str (fallbackInside name fallback))
  | list {vs ws : List Value} : RespelledItems vs ws → Respelled (.list vs) (.list ws)
  | object {es fs : List (Value × Value)} : RespelledEntries es fs →
    Respelled (.object es) (.object fs)

/-- Items, one for one. -/
inductive RespelledItems : List Value → List Value → Prop
  | nil : RespelledItems [] []
  | cons {v w : Value} {vs ws : List Value} : Respelled v w → RespelledItems vs ws →
    RespelledItems (v :: vs) (w :: ws)

/-- Entries, one for one, under the same keys. -/
inductive RespelledEntries : List (Value × Value) → List (Value × Value) → Prop
  | nil : RespelledEntries [] []
  | cons (k : Value) {v w : Value} {es fs : List (Value × Value)} : Respelled v w →
    RespelledEntries es fs → RespelledEntries ((k, v) :: es) ((k, w) :: fs)

end

mutual

theorem Respelled.substitute?_eq {env : Environment} : ∀ {v w : Value}, Respelled v w →
    env.substitute? w = env.substitute? v
  | _, _, .same v => rfl
  | _, _, .outward h => by
    rw [substitute?, substitute?, substituteText_fallbackInside h, substituteText_fallbackBehind h]
  | _, _, .inward h => by
    rw [substitute?, substitute?, substituteText_fallbackInside h, substituteText_fallbackBehind h]
  | _, _, .list h => by rw [substitute?, substitute?, h.substituteItems_eq]
  | _, _, .object h => by rw [substitute?, substitute?, h.substituteEntries_eq]

theorem RespelledItems.substituteItems_eq {env : Environment} : ∀ {vs ws : List Value},
    RespelledItems vs ws → env.substituteItems ws = env.substituteItems vs
  | _, _, .nil => rfl
  | _, _, .cons h hs => by
    rw [substituteItems, substituteItems, h.substitute?_eq, hs.substituteItems_eq]

theorem RespelledEntries.substituteEntries_eq {env : Environment} :
    ∀ {es fs : List (Value × Value)}, RespelledEntries es fs →
      env.substituteEntries fs = env.substituteEntries es
  | _, _, .nil => rfl
  | _, _, .cons k h hs => by
    rw [substituteEntries, substituteEntries, h.substitute?_eq, hs.substituteEntries_eq]

end

/-- **The two spellings of a fallback mean the same.** Respelling texts, wherever they stand, does
not change what comes of an object, in any environment; and both spellings stand for the variable
that is named, or for the trimmed fallback if it is not set. -/
theorem substituteEntries_respelled {es fs : List (Value × Value)} (h : RespelledEntries es fs)
    (env : Environment) :
    env.substituteEntries fs = env.substituteEntries es ∧
      ∀ name fallback, CanFallBack name fallback →
        Stands env (fallbackInside name fallback)
            (some ((env.lookup (strip name)).getD (strip fallback))) ∧
          Stands env (fallbackBehind name fallback)
            (some ((env.lookup (strip name)).getD (strip fallback))) := by
  refine ⟨h.substituteEntries_eq, fun name fallback hname => ⟨?_, ?_⟩⟩
  · exact substituteText_eq_iff.mp (substituteText_fallbackInside hname)
  · exact substituteText_eq_iff.mp (substituteText_fallbackBehind hname)

/-- The object `{"port": "${PORT || 8080}", "hosts": ["${H} ||  a || b "]}`. -/
def hostEntries : List (Value × Value) :=
  [(.str "port", .str "$\x7bPORT || 8080\x7d"),
    (.str "hosts", .list [.str "$\x7bH\x7d ||  a || b "])]

/-- The same with each fallback spelled the other way. -/
def respelledHostEntries : List (Value × Value) :=
  [(.str "port", .str "$\x7bPORT\x7d || 8080"),
    (.str "hosts", .list [.str "$\x7bH ||  a || b \x7d"])]

/-- With no variable set, both come to the trimmed fallbacks. -/
theorem substituteEntries_respelled_hosts :
    RespelledEntries hostEntries respelledHostEntries ∧
      substituteEntries [] respelledHostEntries = substituteEntries [] hostEntries ∧
      substituteEntries [] hostEntries =
        [(.str "port", .str "8080"), (.str "hosts", .list [.str "a || b"])] := by
  have hport : CanFallBack "PORT" "8080" := by constructor <;> decide
  have hhosts : CanFallBack "H" " a || b " := by constructor <;> decide
  have hrespelled : RespelledEntries hostEntries respelledHostEntries :=
    .cons _ (.outward hport) (.cons _ (.list (.cons (.inward hhosts) .nil)) .nil)
  exact ⟨hrespelled, (substituteEntries_respelled hrespelled []).1, rfl⟩

end ApiSuite.Environment
