import ApiSuite.Proofs.Template.Path
import ApiSuite.Proofs.Values.Environment

/-!
# When environment variables have been put in

Environment variables are put into a value once. A second time they would be looked for in what has
come of the first: in texts that did not begin with a token, in the values of variables, and in
fallbacks. So nothing changes the second time as long as no text that begins with a token comes in
from elsewhere (`ApiSuite.Environment.substituteEntries_settles`), that is, neither the value of a
variable nor a fallback behind a token begins with one.

Fallbacks inside a token need no such condition. A token ends at the first closing brace after its
first character, so that no closing brace stands between its bars and its end, whatever that first
character is; and a text without a closing brace begins with no token
(`ApiSuite.Environment.Names.not_opensWithToken`).
-/

namespace ApiSuite.Environment

open Text Value

section Texts

variable {env : Environment} {s t : String} {body name fallback : List Char}

/-- A text begins with a token. -/
def OpensWithToken (s : String) : Prop := ∃ body rest, BeginsWith s body rest

/-- A fallback stands behind the token that a text begins with, and none stands inside. -/
def Trails (s fallback : String) : Prop :=
  ∃ body rest name cs, BeginsWith s body rest ∧ Names body name none ∧
    trim rest = '|' :: '|' :: cs ∧ fallback = String.ofList (trim cs)

theorem OpensWithToken.brace_mem (h : OpensWithToken s) : '}' ∈ s.toList := by
  obtain ⟨body, rest, htext, -⟩ := h
  rw [htext]
  simp [Template.wrap]

/-- **A fallback inside a token does not begin with one.** -/
theorem Names.not_opensWithToken (h : Names body name (some fallback))
    (hbody : Template.IsBody body) : ¬OpensWithToken (String.ofList (trim fallback)) := by
  intro hopens
  have hbrace := hopens.brace_mem
  rw [String.toList_ofList] at hbrace
  have htrim : trim fallback <:+: fallback := trim_infix fallback
  have hmem : '}' ∈ fallback := htrim.subset hbrace
  cases h with
  | barred _ =>
    -- the bars stand before the fallback, so that it does not reach the first character
    refine hbody.noBrace ?_
    cases name with
    | nil => exact List.mem_cons_of_mem _ hmem
    | cons c name => exact List.mem_append_right _ (by simp [hmem])

/-- What a text stands for begins with no token, unless it has come from a variable or from behind
the token of the text. -/
theorem Stands.not_opensWithToken (h : Stands env s (some t))
    (henv : ∀ key value, env.lookup key = some value → ¬OpensWithToken value)
    (htrails : ∀ fallback, Trails s fallback → ¬OpensWithToken fallback) : ¬OpensWithToken t := by
  cases h with
  | itself hnone => exact fun ⟨body, rest, htoken⟩ => hnone body rest htoken
  | isSet _ _ hset => exact henv _ _ hset
  | inside htoken hnames _ => exact hnames.not_opensWithToken htoken.2
  | behind htoken hnames _ hbars => exact htrails _ ⟨_, _, _, _, htoken, hnames, hbars, rfl⟩

theorem substituteText_of_not_opensWithToken (h : ¬OpensWithToken s) :
    substituteText env s = some s :=
  substituteText_of_not_beginsWith fun body rest htoken => h ⟨body, rest, htoken⟩

end Texts

section Trees

variable {env : Environment} {es : List (Value × Value)} {vs : List Value} {v : Value}

/-- No text in a value begins with a token. -/
def IsSettled (v : Value) : Prop := ∀ path s, At v path (.str s) → ¬OpensWithToken s

theorem IsSettled.of_item (h : IsSettled (.list vs)) (hv : v ∈ vs) : IsSettled v := by
  intro path s hs
  obtain ⟨i, hi⟩ := List.mem_iff_getElem?.mp hv
  exact h (.item i :: path) s (.item hi hs)

theorem IsSettled.of_entry {e : Value × Value} (h : IsSettled (.object es)) (he : e ∈ es) :
    IsSettled e.2 :=
  fun path s hs => h (.entry e.1 :: path) s (.entry he hs)

/-! Values hold values, and so the statements about one and about many are proved together. -/

mutual

/-- **A settled value is left as it is.** -/
theorem substitute?_of_isSettled : ∀ v, IsSettled v → env.substitute? v = some v
  | .str s, h => by
    rw [substitute?, substituteText_of_not_opensWithToken (h [] s (.here _)), Option.map_some]
  | .list vs, h => by
    rw [substitute?, substituteItems_of_isSettled vs fun v hv => h.of_item hv]
  | .object es, h => by
    rw [substitute?, substituteEntries_of_isSettled es fun e he => h.of_entry he]
  | .null, _ | .bool _, _ | .int _, _ | .float _, _ | .bytes _, _ | .date _, _ | .datetime _, _
  | .tuple _, _ | .set _, _ => rfl

theorem substituteItems_of_isSettled : ∀ vs : List Value, (∀ v ∈ vs, IsSettled v) →
    env.substituteItems vs = vs
  | [], _ => rfl
  | v :: vs, h => by
    obtain ⟨hv, hvs⟩ := List.forall_mem_cons.mp h
    rw [substituteItems, substitute?_of_isSettled v hv, Option.getD_some,
      substituteItems_of_isSettled vs hvs]

theorem substituteEntries_of_isSettled : ∀ es : List (Value × Value),
    (∀ e ∈ es, IsSettled e.2) → env.substituteEntries es = es
  | [], _ => rfl
  | (k, v) :: es, h => by
    obtain ⟨hv, hes⟩ := List.forall_mem_cons.mp h
    rw [substituteEntries, substitute?_of_isSettled v hv]
    simp only [substituteEntries_of_isSettled es hes]

end

/-- Each text that there is afterwards has come from a text that stands for it. -/
theorem exists_stands_of_at {path : List Turn} {t : String}
    (h : At (.object (env.substituteEntries es)) path (.str t)) :
    ∃ s, At (.object es) path (.str s) ∧ Stands env s (some t) := by
  have hobject : env.substitute? (.object es) = some (.object (env.substituteEntries es)) := rfl
  obtain ⟨u, hu, hbecomes⟩ := comes_of_substitute? hobject h
  cases hbecomes with
  | text hstands => exact ⟨_, hu, hstands⟩
  | other hno => exact absurd rfl (hno t)

/-- **Environment variables are put in once and for all**, if neither the value of a variable nor a
fallback behind a token begins with a token. No text begins with one afterwards, and putting them in
again changes nothing. -/
theorem substituteEntries_settles
    (henv : ∀ key value, env.lookup key = some value → ¬OpensWithToken value)
    (htrails : ∀ path s fallback, At (.object es) path (.str s) → Trails s fallback →
      ¬OpensWithToken fallback) :
    IsSettled (.object (env.substituteEntries es)) ∧
      env.substituteEntries (env.substituteEntries es) = env.substituteEntries es := by
  have hsettled : IsSettled (.object (env.substituteEntries es)) := by
    intro path t ht
    obtain ⟨s, hs, hstands⟩ := exists_stands_of_at ht
    exact hstands.not_opensWithToken henv fun fallback => htrails path s fallback hs
  exact ⟨hsettled, substituteEntries_of_isSettled _ fun e he => hsettled.of_entry he⟩

end Trees

/-! ### Braces and tokens in fallbacks -/

/-- A name that begins with a closing brace, with a fallback inside its token, and another with one
behind it. -/
def bracedEntries : List (Value × Value) :=
  [(.str "port", .str "$\x7b\x7dP || 80\x7d"), (.str "host", .str "$\x7bH\x7d || ::1")]

theorem not_opensWithToken_of_not_mem {s : String} (h : '}' ∉ s.toList) : ¬OpensWithToken s :=
  mt OpensWithToken.brace_mem h

theorem text_of_at_bracedEntries {path : List Turn} {s : String}
    (h : At (.object bracedEntries) path (.str s)) :
    s = "$\x7b\x7dP || 80\x7d" ∨ s = "$\x7bH\x7d || ::1" := by
  cases h with
  | entry hmem hs =>
    simp only [bracedEntries, List.mem_cons, Prod.mk.injEq, List.not_mem_nil, or_false] at hmem
    rcases hmem with ⟨-, rfl⟩ | ⟨-, rfl⟩
    · obtain ⟨-, heq⟩ := hs.eq_nil nofun nofun
      exact .inl (Value.str.inj heq)
    · obtain ⟨-, heq⟩ := hs.eq_nil nofun nofun
      exact .inr (Value.str.inj heq)

/-- What stands behind the one token is the only fallback that stands behind any. -/
theorem fallback_of_trails {s fallback : String}
    (hs : s = "$\x7b\x7dP || 80\x7d" ∨ s = "$\x7bH\x7d || ::1") (h : Trails s fallback) :
    fallback = "::1" := by
  obtain ⟨body, rest, name, cs, htoken, hnames, hbars, rfl⟩ := h
  obtain ⟨more, hmore, hbody⟩ := beginsWith_iff.mp htoken
  rcases hs with rfl | rfl
  · cases hmore
    cases hbody
    cases names_iff.mp hnames
  · cases hmore
    cases hbody
    cases hbars
    rfl

/-- Both fallbacks come in, and neither is looked at again. -/
theorem substituteEntries_settles_braced :
    (∀ path s fallback, At (.object bracedEntries) path (.str s) → Trails s fallback →
      ¬OpensWithToken fallback) ∧
      substituteEntries [("A", "b")] bracedEntries =
        [(.str "port", .str "80"), (.str "host", .str "::1")] ∧
      substituteEntries [("A", "b")] (substituteEntries [("A", "b")] bracedEntries) =
        substituteEntries [("A", "b")] bracedEntries := by
  have htrails : ∀ path s fallback, At (.object bracedEntries) path (.str s) →
      Trails s fallback → ¬OpensWithToken fallback := by
    intro path s fallback hs h
    rw [fallback_of_trails (text_of_at_bracedEntries hs) h]
    exact not_opensWithToken_of_not_mem (by decide)
  have henv : ∀ key value, List.lookup key [("A", "b")] = some value →
      ¬OpensWithToken value := by
    intro key value h
    obtain rfl : "b" = value := by
      rw [List.lookup_cons] at h
      split at h
      · exact Option.some.inj h
      · cases h
    exact not_opensWithToken_of_not_mem (by decide)
  exact ⟨htrails, rfl, (substituteEntries_settles henv htrails).2⟩

/-- A token behind a token comes in when variables are put in, and is gone when they are put in
again. -/
example :
    substituteEntries [] [(.str "a", .str "$\x7bA\x7d || $\x7bB\x7d")] =
        [(.str "a", .str "$\x7bB\x7d")] ∧
      substituteEntries [] [(.str "a", .str "$\x7bB\x7d")] = [] := by
  constructor <;> cbv

end ApiSuite.Environment
