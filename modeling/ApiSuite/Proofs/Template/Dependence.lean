import ApiSuite.Proofs.Expression.Dependence
import ApiSuite.Proofs.Template.Parts

/-!
# What the text of a template depends on

A text mentions the names that the paths of its embedded expressions begin with
(`ApiSuite.Template.Mentions`). Expressions ask their context for nothing else
(`ApiSuite.Expression.evaluate_congr`), and the context enters a template through its expressions
only (`ApiSuite.Template.resolve_congr`, `ApiSuite.Template.substitute_congr`). So two contexts that
have the same under each name that a text mentions cannot be told apart by it: resolving and
substituting come to the same, be it a value, none or a crash, and write the same into the log.
In particular, what is under a name that a text does not mention stays unseen.
-/

namespace ApiSuite.Template

open Expression

/-- A text mentions a name: a path of one of its embedded expressions begins with it. -/
def Mentions (s name : String) : Prop :=
  ∃ text ∈ texts s, ∃ e, parse text = .ok e ∧ name ∈ e.roots

section Mentions

variable {es es' : List (Value × Value)} {s text : String}

/-- **An embedded expression comes to the same, and logs the same**, in two objects that have the
same under its roots. -/
theorem evaluatePart_congr (h : ∀ e, parse text = .ok e → AgreeOn e.roots es es')
    (trusted : Bool) :
    evaluatePart trusted (.object es) text = evaluatePart trusted (.object es') text := by
  rw [evaluatePart, evaluatePart, evaluate_congr h]

theorem evaluatePart_congr_of_mentions
    (h : ∀ name, Mentions s name → Value.lookup name es = Value.lookup name es')
    (trusted : Bool) (body : List Char) (hbody : .embedded body ∈ split s.toList) :
    evaluatePart trusted (.object es) (embeddedText body) =
      evaluatePart trusted (.object es') (embeddedText body) := by
  have htext : embeddedText body ∈ texts s := mem_texts_iff.mpr ⟨body, hbody, rfl⟩
  refine evaluatePart_congr (fun e he name hname => ?_) trusted
  exact h name ⟨_, htext, e, he, hname⟩

/-- **What comes of a text depends on the names that it mentions only.** -/
theorem depends_on_mentioned
    (h : ∀ name, Mentions s name → Value.lookup name es = Value.lookup name es')
    (trusted : Bool) :
    resolve trusted (.object es) s = resolve trusted (.object es') s ∧
      substitute trusted (.object es) s = substitute trusted (.object es') s :=
  ⟨resolve_congr (evaluatePart_congr_of_mentions h trusted),
    substitute_congr (evaluatePart_congr_of_mentions h trusted)⟩

end Mentions

/-- `n=${ok?a:b}` mentions `ok`, `a` and `b`. -/
def choice : String := "n=$\x7bok?a:b\x7d"

theorem parse_choice : parse "$\x7bok?a:b\x7d" =
    .ok (.conditional (.path "ok" []) (.path "a" []) (.path "b" [])) := by
  have hholds : Holds "$\x7bok?a:b\x7d" ['o', 'k', '?', 'a', ':', 'b'] :=
    .inl ⟨['o', 'k', '?', 'a', ':', 'b'], by decide, by decide⟩
  have hok : (Token.name "ok").Spelled ['o', 'k'] := .word (by decide) (by decide)
  have ha : (Token.name "a").Spelled ['a'] := .name (by decide) (by simp)
  have hb : (Token.name "b").Spelled ['b'] := .name (by decide) (by simp)
  have hspells : Spells [.name "ok", .question, .name "a", .colon, .name "b"]
      ['o', 'k', '?', 'a', ':', 'b'] :=
    .token hok (.token .question (.token ha (.token .colon (.token hb (.nil (by simp))))))
  have hcondition : Derives .disjunction [.name "ok"] (.path "ok" []) :=
    .ofConjunction (.ofComparison (.ofUnary (.ofPrimary (.path (by simp [IsReserved]) .nil))))
  have hderives : Derives .conditional [.name "ok", .question, .name "a", .colon, .name "b"]
      (.conditional (.path "ok" []) (.path "a" []) (.path "b" [])) :=
    .conditional hcondition (.ofPath (by simp [IsReserved]) .nil)
      (.ofPath (by simp [IsReserved]) .nil)
  exact (parse_eq_ok_iff hholds).mpr ⟨_, hspells, hderives, by simp [Token.IsShort]⟩

/-- `{"ok": true, "a": 1, "key": secret}` -/
def choiceContext (secret : Int) : List (Value × Value) :=
  [(.str "ok", .bool true), (.str "a", .int 1), (.str "key", .int secret)]

/-- The choice does not depend on what is under another name. -/
theorem depends_on_mentioned_choice :
    (∀ name, Mentions choice name →
        Value.lookup name (choiceContext 7) = Value.lookup name (choiceContext 8)) ∧
      resolve true (.object (choiceContext 7)) choice =
          resolve true (.object (choiceContext 8)) choice ∧
        substitute true (.object (choiceContext 7)) choice =
          substitute true (.object (choiceContext 8)) choice := by
  have hnames : ∀ name, Mentions choice name →
      Value.lookup name (choiceContext 7) = Value.lookup name (choiceContext 8) := by
    rintro name ⟨text, htext, e, he, hname⟩
    have htexts : texts choice = ["$\x7bok?a:b\x7d"] := by cbv
    rw [htexts, List.mem_singleton] at htext
    subst htext
    cases parse_choice.symm.trans he
    have hcases : name = "ok" ∨ name = "a" ∨ name = "b" := by simpa [roots] using hname
    rcases hcases with rfl | rfl | rfl
    all_goals rfl
  exact ⟨hnames, depends_on_mentioned hnames true⟩

end ApiSuite.Template
